import Js2Wasm.Lib.While
import Js2Wasm.Lib.WordMemory

/-! # Flattened strings

A native string is a window of a buffer of 16-bit code units.  The text helpers flatten their
argument first, scan its window and write a new buffer from the start.  Reading or writing out of
range traps.

`scanLoop_scan` is the rule for a scan: an invariant of the units that are done.  `Holds` says
what has been written to a new buffer.
-/
namespace Js2Wasm.NativeText
open List WordMemory

/-- How a helper stops before its end. -/
inductive Stop where
  | trap
  | outOfFuel
  | returnNull
  | uriError

structure NativeString where
  len : Nat
  off : Nat
  data : List Nat

/-- The code units of a string. -/
def NativeString.text (s : NativeString) : List Nat := (s.data.drop s.off).take s.len

/-- A string as `__str_flatten` leaves it. -/
structure FlatString extends NativeString where
  units : ∀ u ∈ data, u < 2 ^ 16
  inside : off + len ≤ data.length
  small : data.length < 2 ^ 31

/-- `array.get_u` -/
def getUnit (data : List Nat) (i : Nat) : Except Stop Nat :=
  match data[i]? with
  | some u => .ok u
  | none => .error .trap

/-- A new buffer and the position behind what is written. -/
structure Output where
  out : List Nat
  n : Nat

/-- `array.new_default` -/
def Output.new (capacity : Nat) : Output := ⟨replicate capacity 0, 0⟩

/-- `out[n++] = ch` -/
def Output.push (o : Output) (ch : Nat) : Except Stop Output :=
  if o.n < o.out.length then .ok ⟨o.out.set o.n (ch % 2 ^ 16), add32 o.n 1⟩ else .error .trap

/-- Several units, one after the other. -/
def Output.pushes (o : Output) (chs : List Nat) : Except Stop Output := chs.foldlM Output.push o

/-- The new string. -/
def Output.string (o : Output) : NativeString := ⟨o.n, 0, o.out⟩

/-- `while (i < end) { body; i++ }` -/
def scanLoop {σ : Type} (end_ : Nat) (body : Nat → σ → Except Stop σ) (fuel i : Nat) (s : σ) :
    Except Stop (Nat × σ) :=
  Loop.exec (fun p => ltS p.1 end_)
    (fun p => do
      let s ← body p.1 p.2
      return (add32 p.1 1, s))
    .outOfFuel fuel (i, s)

/-! ### Reading -/

namespace FlatString
variable (s : FlatString) {done rest : List Nat} {u : Nat}

theorem length_text : s.text.length = s.len := by
  have := s.inside
  rw [NativeString.text, length_take, length_drop]
  lia

theorem end_eq : add32 s.off s.len = s.off + s.len :=
  add32_of_lt (by have := s.inside; have := s.small; lia)

theorem getElem?_text {i : Nat} (hi : i < s.len) : s.data[s.off + i]? = s.text[i]? := by
  rw [NativeString.text, getElem?_take_of_lt hi, getElem?_drop]

/-- The unit behind those that are done. -/
theorem getUnit_text (h : s.text = done ++ u :: rest) :
    getUnit s.data (s.off + done.length) = .ok u := by
  have hlength := s.length_text
  rw [h, length_append, length_cons] at hlength
  rw [getUnit, s.getElem?_text (by lia), h, getElem?_append_right .refl,
    Nat.sub_self, getElem?_cons_zero]

theorem unit_lt (h : u ∈ s.text) : u < 2 ^ 16 :=
  s.units u (mem_of_mem_drop (mem_of_mem_take h))

/-- **A scan of the text.** -/
theorem scanLoop_scan {σ : Type} {body : Nat → σ → Except Stop σ} (I : List Nat → σ → Prop)
    (Q : Stop → Prop)
    (hbody : ∀ done u rest st, s.text = done ++ u :: rest → I done st →
      (∃ st', body (s.off + done.length) st = .ok st' ∧ I (done ++ [u]) st') ∨
        ∃ e, body (s.off + done.length) st = .error e ∧ Q e)
    {fuel : Nat} (hfuel : s.len ≤ fuel) {st : σ} (hst : I [] st) :
    (∃ i st', scanLoop (add32 s.off s.len) body fuel s.off st = .ok (i, st') ∧ I s.text st') ∨
      ∃ e, scanLoop (add32 s.off s.len) body fuel s.off st = .error e ∧ Q e := by
  have hend := s.end_eq
  have hinside := s.inside
  have hsmall := s.small
  suffices ∀ rest done fuel st, s.text = done ++ rest → rest.length ≤ fuel → I done st →
      (∃ i st', scanLoop (add32 s.off s.len) body fuel (s.off + done.length) st = .ok (i, st') ∧
        I s.text st') ∨
      ∃ e, scanLoop (add32 s.off s.len) body fuel (s.off + done.length) st = .error e ∧ Q e from
    this s.text [] fuel st rfl (by rw [s.length_text]; exact hfuel) hst
  intro rest
  induction rest with
  | nil =>
    intro done fuel st htext _ hI
    have hlength := s.length_text
    rw [htext, append_nil] at hlength
    have hdone : ltS (s.off + done.length) (add32 s.off s.len) = false := by
      rw [hend, ltS_eq (by lia) (by lia)]
      exact decide_eq_false (by lia)
    left
    refine ⟨_, st, Loop.exec_done (by exact hdone) fuel, ?_⟩
    rw [htext, append_nil]
    exact hI
  | cons u rest ih =>
    intro done fuel st htext hfuel hI
    have hlength := s.length_text
    rw [htext, length_append, length_cons] at hlength
    rw [length_cons] at hfuel
    obtain ⟨fuel, rfl⟩ := Nat.exists_eq_add_of_le' ((Nat.le_add_left 1 _).trans hfuel)
    have hmore : ltS (s.off + done.length) (add32 s.off s.len) = true := by
      rw [hend, ltS_eq (by lia) (by lia)]
      exact decide_eq_true (by lia)
    rcases hbody done u rest st htext hI with ⟨st', hok, hI'⟩ | ⟨e, herr, hQ⟩
    · have hnext : add32 (s.off + done.length) 1 = s.off + (done ++ [u]).length := by
        rw [add32_of_lt (by lia), length_append]
        rfl
      have hrest := ih (done ++ [u]) fuel st' (by rw [htext, append_assoc]; rfl)
        (by lia) hI'
      rw [← hnext] at hrest
      have hunroll : scanLoop (add32 s.off s.len) body (fuel + 1) (s.off + done.length) st =
          scanLoop (add32 s.off s.len) body fuel (add32 (s.off + done.length) 1) st' :=
        Loop.exec_next (by exact hmore) (by rw [hok]; rfl) fuel
      rw [hunroll]
      exact hrest
    · right
      exact ⟨e, Loop.exec_stop (by exact hmore) (by rw [herr]; rfl) fuel, hQ⟩

end FlatString

/-! ### Writing -/

/-- The units `text` have been written. -/
structure Holds (capacity : Nat) (o : Output) (text : List Nat) : Prop where
  length : o.out.length = capacity
  n : o.n = text.length
  text : o.out.take o.n = text

section
variable {capacity : Nat} {o : Output} {text : List Nat}

theorem holds_new (capacity : Nat) : Holds capacity (Output.new capacity) [] :=
  ⟨length_replicate, rfl, rfl⟩

theorem Holds.string_text (h : Holds capacity o text) : o.string.text = text := h.text

theorem Holds.push (h : Holds capacity o text) (hcap : capacity ≤ 2 ^ 32 - 1)
    (hlt : text.length < capacity) (ch : Nat) :
    ∃ o', o.push ch = .ok o' ∧ Holds capacity o' (text ++ [ch % 2 ^ 16]) := by
  have hn : o.n < o.out.length := by rw [h.length, h.n]; exact hlt
  have hadd : add32 o.n 1 = o.n + 1 := add32_of_lt (by rw [h.n]; lia)
  refine ⟨_, if_pos hn, ?_, ?_, ?_⟩
  · rw [length_set, h.length]
  · rw [hadd, length_append, h.n]
    rfl
  · dsimp only
    rw [hadd, take_succ_eq_append_getElem (by rw [length_set]; exact hn),
      take_set_of_le .refl, h.text, getElem_set_self]

theorem Holds.pushes (h : Holds capacity o text) (hcap : capacity ≤ 2 ^ 32 - 1) {chs : List Nat}
    (hle : text.length + chs.length ≤ capacity) :
    ∃ o', o.pushes chs = .ok o' ∧ Holds capacity o' (text ++ chs.map (· % 2 ^ 16)) := by
  induction chs generalizing o text with
  | nil => exact ⟨o, rfl, by rw [map_nil, append_nil]; exact h⟩
  | cons ch chs ih =>
    rw [length_cons] at hle
    obtain ⟨o1, hpush, h1⟩ := h.push hcap (by lia) ch
    obtain ⟨o2, hrest, h2⟩ := ih h1 (by rw [length_append, length_singleton]; lia)
    refine ⟨o2, ?_, ?_⟩
    · rw [Output.pushes, foldlM_cons, hpush]
      exact hrest
    · rw [map_cons, append_cons]
      exact h2

end

end Js2Wasm.NativeText
