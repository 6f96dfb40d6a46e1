import Js2Wasm.Lib.Base64
import Js2Wasm.NativeText.FlatString

/-! # `btoa` and `atob`

The helpers of `codegen/helpers/base64-native.ts`, on a string that is flattened.  `__btoa`
collects three bytes and writes four units; `__atob` collects sextets and writes a byte as soon
as it has eight bits.  Both return `null` (`none`) for a text they reject.

The encoder's state is the bytes that do not yet make a group, the decoder's the scan of what is
done.
-/
namespace Js2Wasm.NativeText
open List WordMemory

/-- The result of a helper that may `return null`. -/
def catchNull : Except Stop NativeString → Except Stop (Option NativeString)
  | .ok s => .ok (some s)
  | .error .returnNull => .ok none
  | .error e => .error e

/-! ### `__btoa` -/

/-- The base64 alphabet character for a sextet. -/
def sextetChar (v : Nat) : Nat :=
  if v < 26 then add32 v 65
  else if v < 52 then add32 v 71
  else if v < 62 then sub32 v 4
  else if v = 62 then 43
  else 47

structure BtoaState where
  output : Output
  acc : Nat
  cnt : Nat

def accShr (acc shift : Nat) : Nat := acc >>> shift &&& 63

/-- The body of the scan. -/
def btoaUnit (data : List Nat) (i : Nat) (s : BtoaState) : Except Stop BtoaState := do
  let unit ← getUnit data i
  if 0xff < unit then throw .returnNull
  let acc := shl32 s.acc 8 ||| unit
  let cnt := add32 s.cnt 1
  if cnt = 3 then
    let output ← s.output.pushes
      [sextetChar (accShr acc 18), sextetChar (accShr acc 12), sextetChar (accShr acc 6),
        sextetChar (accShr acc 0)]
    return ⟨output, 0, 0⟩
  return { s with acc := acc, cnt := cnt }

/-- One byte over: two units and `==`. -/
def btoaOne (s : BtoaState) : Except Stop BtoaState :=
  if s.cnt = 1 then do
    let acc := shl32 s.acc 16
    let output ← s.output.pushes [sextetChar (accShr acc 18), sextetChar (accShr acc 12), 61, 61]
    return { s with acc := acc, output := output }
  else return s

/-- Two bytes over: three units and `=`. -/
def btoaTwo (s : BtoaState) : Except Stop BtoaState :=
  if s.cnt = 2 then do
    let acc := shl32 s.acc 8
    let output ← s.output.pushes
      [sextetChar (accShr acc 18), sextetChar (accShr acc 12), sextetChar (accShr acc 6), 61]
    return { s with acc := acc, output := output }
  else return s

/-- `4 * ceil(len / 3)` -/
def btoaCapacity (len : Nat) : Nat := mul32 (add32 len 2 / 3) 4

def btoa (fuel : Nat) (s : NativeString) : Except Stop (Option NativeString) :=
  catchNull do
    let (_, st) ← scanLoop (add32 s.off s.len) (btoaUnit s.data) fuel s.off
      ⟨Output.new (btoaCapacity s.len), 0, 0⟩
    let st ← btoaOne st
    let st ← btoaTwo st
    return st.output.string

/-! ### `__atob` -/

structure AtobState where
  output : Output
  acc : Nat
  bits : Nat
  m : Nat
  pad : Nat

/-- `unit` lies in `[lo, hi]`. -/
def unitIn (unit lo hi : Nat) : Bool := sub32 unit lo ≤ hi - lo

/-- The sextet of a unit, or -1. -/
def sextetOfUnit (unit : Nat) : Nat :=
  let v := 2 ^ 32 - 1
  let v := if unitIn unit 65 90 then sub32 unit 65 else v
  let v := if unitIn unit 97 122 then sub32 unit 71 else v
  let v := if unitIn unit 48 57 then add32 unit 4 else v
  let v := if unit = 43 then 62 else v
  if unit = 47 then 63 else v

def isWhitespace (unit : Nat) : Bool :=
  unit = 0x20 || unit = 0x09 || unit = 0x0a || unit = 0x0c || unit = 0x0d

/-- An alphabet unit. -/
def atobSextet (s : AtobState) (v : Nat) : Except Stop AtobState := do
  let m := add32 s.m 1
  let acc := (shl32 s.acc 6 ||| v) &&& 0xffffff
  let bits := add32 s.bits 6
  if 8 ≤ bits then
    let bits := sub32 bits 8
    let output ← s.output.push (acc >>> bits &&& 0xff)
    return { s with m := m, acc := acc, bits := bits, output := output }
  return { s with m := m, acc := acc, bits := bits }

/-- The body of the scan. -/
def atobUnit (data : List Nat) (i : Nat) (s : AtobState) : Except Stop AtobState := do
  let unit ← getUnit data i
  if isWhitespace unit then return s
  if unit = 61 then
    let pad := add32 s.pad 1
    if 2 < pad then throw .returnNull
    return { s with pad := pad }
  if s.pad ≠ 0 then throw .returnNull
  let v := sextetOfUnit unit
  if ltS v 0 then throw .returnNull
  atobSextet s v

def atob (fuel : Nat) (s : NativeString) : Except Stop (Option NativeString) :=
  catchNull do
    let (_, st) ← scanLoop (add32 s.off s.len) (atobUnit s.data) fuel s.off
      ⟨Output.new s.len, 0, 0, 0, 0⟩
    if st.pad ≠ 0 then
      if add32 st.m st.pad &&& 3 ≠ 0 then throw .returnNull
    if st.m &&& 3 = 1 then throw .returnNull
    return st.output.string

example : (btoa 5 ⟨5, 1, [0, 72, 101, 108, 108, 111]⟩).toOption.map
    (·.map NativeString.text) = some (some [83, 71, 86, 115, 98, 71, 56, 61]) := by decide +kernel

example : (atob 9 ⟨9, 0, [83, 71, 32, 86, 115, 98, 71, 56, 61]⟩).toOption.map
    (·.map NativeString.text) = some (some [72, 101, 108, 108, 111]) := by decide +kernel

/-! ### Encoding -/

theorem sextetChar_eq {v : Nat} (h : v < 64) : sextetChar v = Base64.digit v := by
  rw [Base64.digit_eq v h]
  revert v
  decide +kernel

theorem digit_lt {v : Nat} (h : v < 64) : Base64.digit v < 128 := by
  rw [Base64.digit_eq v h]
  revert v
  decide +kernel

theorem shl32_or {a b n : Nat} (hb : b < 2 ^ n) (h : a * 2 ^ n + b < 2 ^ 32) :
    shl32 a n ||| b = a * 2 ^ n + b := by
  rw [shl32, Nat.shiftLeft_eq, Nat.mod_eq_of_lt (by omega), ← Nat.shiftLeft_eq,
    Nat.shiftLeft_add_eq_or_of_lt hb]

theorem accShr_eq (acc shift : Nat) : accShr acc shift = acc / 2 ^ shift % 64 := by
  rw [accShr, Nat.shiftRight_eq_div_pow]
  exact Nat.and_two_pow_sub_one_eq_mod _ 6

theorem sextetChar_accShr (acc shift : Nat) :
    sextetChar (accShr acc shift) % 2 ^ 16 = Base64.digit (acc / 2 ^ shift % 64) := by
  have hlt : acc / 2 ^ shift % 64 < 64 := Nat.mod_lt _ (by decide)
  rw [accShr_eq, sextetChar_eq hlt, Nat.mod_eq_of_lt ((digit_lt hlt).trans (by decide))]

/-- The bytes of an incomplete group, as a number. -/
def groupValue : List Nat → Nat
  | [a] => a
  | [a, b] => a * 256 + b
  | _ => 0

/-- The encoder behind the bytes `done`: whole groups are written, `rest` is not. -/
structure Encoding (capacity : Nat) (s : BtoaState) (full rest : List Nat) : Prop where
  groups : full.length % 3 = 0
  short : rest.length < 3
  cnt : s.cnt = rest.length
  acc : s.acc = groupValue rest
  bytes : ∀ b ∈ full ++ rest, b ≤ 0xff
  output : Holds capacity s.output (Base64.encode full)

section
variable {capacity : Nat} {s : BtoaState} {full rest : List Nat} {o : Output}

theorem groupValue_lt (h : rest.length < 3) (hbytes : ∀ b ∈ rest, b ≤ 0xff) :
    groupValue rest < 2 ^ 16 := by
  match rest, h with
  | [], _ => exact Nat.two_pow_pos 16
  | [a], _ =>
    have ha := hbytes a (by simp)
    change a < _
    lia
  | [a, b], _ =>
    have ha := hbytes a (by simp)
    have hb := hbytes b (by simp)
    change a * 256 + b < _
    lia

variable {u b a : Nat}

/-- A byte that does not complete a group. -/
theorem Encoding.wait (h : Encoding capacity s full rest) (hrest : rest.length < 2) (hu : u ≤ 0xff) :
    Encoding capacity { s with acc := shl32 s.acc 8 ||| u, cnt := add32 s.cnt 1 } full
      (rest ++ [u]) := by
  have hgroup : groupValue (rest ++ [u]) = groupValue rest * 256 + u := by
    match rest, hrest with
    | [], _ => exact (Nat.zero_add u).symm
    | [a], _ => rfl
  have hlt := groupValue_lt h.short fun b hb => h.bytes b (mem_append_right _ hb)
  refine ⟨h.groups, ?_, ?_, ?_, fun b hb => ?_, h.output⟩
  · rw [length_append, length_singleton]
    lia
  · dsimp only
    rw [h.cnt, add32_of_lt (by lia), length_append, length_singleton]
  · dsimp only
    rw [h.acc, shl32_or (by lia) (by lia), hgroup]
    rfl
  · rw [← append_assoc] at hb
    rcases mem_append.mp hb with hb | hb
    · exact h.bytes b hb
    · exact mem_singleton.mp hb ▸ hu

/-- A byte that completes a group. -/
theorem Encoding.complete (h : Encoding capacity s full [a, b]) (hu : u ≤ 0xff)
    (hcap : capacity ≤ 2 ^ 32 - 1) (hroom : (Base64.encode full).length + 4 ≤ capacity) :
    ∃ o, s.output.pushes [sextetChar (accShr (shl32 s.acc 8 ||| u) 18),
        sextetChar (accShr (shl32 s.acc 8 ||| u) 12), sextetChar (accShr (shl32 s.acc 8 ||| u) 6),
        sextetChar (accShr (shl32 s.acc 8 ||| u) 0)] = .ok o ∧
      Encoding capacity ⟨o, 0, 0⟩ (full ++ [a, b, u]) [] := by
  have ha := h.bytes a (by simp)
  have hb := h.bytes b (by simp)
  have hacc : shl32 s.acc 8 ||| u = (a * 256 + b) * 2 ^ 8 + u := by
    rw [h.acc]
    exact shl32_or (by omega) (by change (a * 256 + b) * 2 ^ 8 + u < _; omega)
  have hpushes := h.output.pushes hcap (show (Base64.encode full).length +
    [sextetChar (accShr (shl32 s.acc 8 ||| u) 18), sextetChar (accShr (shl32 s.acc 8 ||| u) 12),
      sextetChar (accShr (shl32 s.acc 8 ||| u) 6),
      sextetChar (accShr (shl32 s.acc 8 ||| u) 0)].length ≤ capacity from hroom)
  obtain ⟨o, hpush, hholds⟩ := hpushes
  refine ⟨o, hpush, ?_, by decide, rfl, rfl, fun x hx => ?_, ?_⟩
  · rw [length_append]
    have := h.groups
    simp only [length_cons, length_nil]
    omega
  · simp only [append_nil, mem_append, mem_cons, not_mem_nil, or_false] at hx
    rcases hx with hx | rfl | rfl | rfl
    · exact h.bytes x (mem_append_left _ hx)
    · exact ha
    · exact hb
    · exact hu
  · rw [Base64.encode_append h.groups]
    have h18 : ((a * 256 + b) * 2 ^ 8 + u) / 2 ^ 18 % 64 = a / 4 := by omega
    have h12 : ((a * 256 + b) * 2 ^ 8 + u) / 2 ^ 12 % 64 = a % 4 * 16 + b / 16 := by omega
    have h6 : ((a * 256 + b) * 2 ^ 8 + u) / 2 ^ 6 % 64 = b % 16 * 4 + u / 64 := by omega
    have h0 : ((a * 256 + b) * 2 ^ 8 + u) / 2 ^ 0 % 64 = u % 64 := by omega
    simp only [map_cons, map_nil, sextetChar_accShr, hacc, h18, h12, h6, h0] at hholds
    exact hholds

/-- One byte over. -/
theorem Encoding.one {a : Nat} (h : Encoding capacity s full [a]) (hcap : capacity ≤ 2 ^ 32 - 1)
    (hroom : (Base64.encode full).length + 4 ≤ capacity) :
    ∃ st, btoaOne s = .ok st ∧ st.cnt = 1 ∧
      Holds capacity st.output (Base64.encode (full ++ [a])) := by
  have ha := h.bytes a (by simp)
  have hacc : shl32 s.acc 16 = a * 2 ^ 16 := by
    rw [h.acc, shl32, Nat.shiftLeft_eq]
    exact Nat.mod_eq_of_lt (by change a * 2 ^ 16 < _; lia)
  have hpushes := h.output.pushes hcap (show (Base64.encode full).length +
    [sextetChar (accShr (shl32 s.acc 16) 18), sextetChar (accShr (shl32 s.acc 16) 12), 61,
      61].length ≤ capacity from hroom)
  obtain ⟨o, hpush, hholds⟩ := hpushes
  have hcnt : s.cnt = 1 := h.cnt
  refine ⟨{ s with acc := shl32 s.acc 16, output := o }, ?_, hcnt, ?_⟩
  · rw [btoaOne, if_pos hcnt]
    dsimp only
    rw [hpush]
    rfl
  · have h18 : a * 2 ^ 16 / 2 ^ 18 % 64 = a / 4 := by lia
    have h12 : a * 2 ^ 16 / 2 ^ 12 % 64 = a % 4 * 16 := by lia
    rw [Base64.encode_append h.groups]
    simp only [map_cons, map_nil, sextetChar_accShr, hacc, h18, h12] at hholds
    exact hholds

/-- Two bytes over. -/
theorem Encoding.two (h : Encoding capacity s full [a, b]) (hcap : capacity ≤ 2 ^ 32 - 1)
    (hroom : (Base64.encode full).length + 4 ≤ capacity) :
    ∃ st, btoaTwo s = .ok st ∧ Holds capacity st.output (Base64.encode (full ++ [a, b])) := by
  have ha := h.bytes a (by simp)
  have hb := h.bytes b (by simp)
  have hacc : shl32 s.acc 8 = (a * 256 + b) * 2 ^ 8 := by
    rw [h.acc, shl32, Nat.shiftLeft_eq]
    exact Nat.mod_eq_of_lt (by change (a * 256 + b) * 2 ^ 8 < _; omega)
  have hpushes := h.output.pushes hcap (show (Base64.encode full).length +
    [sextetChar (accShr (shl32 s.acc 8) 18), sextetChar (accShr (shl32 s.acc 8) 12),
      sextetChar (accShr (shl32 s.acc 8) 6), 61].length ≤ capacity from hroom)
  obtain ⟨o, hpush, hholds⟩ := hpushes
  refine ⟨{ s with acc := shl32 s.acc 8, output := o }, ?_, ?_⟩
  · rw [btoaTwo, if_pos (by exact h.cnt)]
    dsimp only
    rw [hpush]
    rfl
  · have h18 : (a * 256 + b) * 2 ^ 8 / 2 ^ 18 % 64 = a / 4 := by omega
    have h12 : (a * 256 + b) * 2 ^ 8 / 2 ^ 12 % 64 = a % 4 * 16 + b / 16 := by omega
    have h6 : (a * 256 + b) * 2 ^ 8 / 2 ^ 6 % 64 = b % 16 * 4 := by omega
    rw [Base64.encode_append h.groups]
    simp only [map_cons, map_nil, sextetChar_accShr, hacc, h18, h12, h6] at hholds
    exact hholds

end

theorem btoaCapacity_eq {len : Nat} (h : len < 2 ^ 31) :
    btoaCapacity len = (len + 2) / 3 * 4 := by
  rw [btoaCapacity, add32_of_lt (by lia), mul32_of_lt (by lia)]

/-- The bytes of a text that are done. -/
def Encoded (capacity : Nat) (done : List Nat) (st : BtoaState) : Prop :=
  ∃ full rest, done = full ++ rest ∧ Encoding capacity st full rest

variable {u b fuel v acc : Nat} {rest done : List Nat}

theorem btoaUnit_byte {data : List Nat} {i : Nat} (st : BtoaState) (hget : getUnit data i = .ok u)
    (hu : ¬0xff < u) :
    btoaUnit data i st =
      if add32 st.cnt 1 = 3 then
        (st.output.pushes [sextetChar (accShr (shl32 st.acc 8 ||| u) 18),
          sextetChar (accShr (shl32 st.acc 8 ||| u) 12),
          sextetChar (accShr (shl32 st.acc 8 ||| u) 6),
          sextetChar (accShr (shl32 st.acc 8 ||| u) 0)]).bind fun o => .ok ⟨o, 0, 0⟩
      else .ok { st with acc := shl32 st.acc 8 ||| u, cnt := add32 st.cnt 1 } := by
  rw [btoaUnit, hget]
  simp only [bind, Except.bind]
  rw [if_neg hu]
  rfl

variable (s : FlatString)

/-- A step of the scan. -/
theorem btoaUnit_spec {st : BtoaState} (htext : s.text = done ++ u :: rest)
    (h : Encoded (btoaCapacity s.len) done st) :
    (∃ st', btoaUnit s.data (s.off + done.length) st = .ok st' ∧
      Encoded (btoaCapacity s.len) (done ++ [u]) st') ∨
    ∃ e, btoaUnit s.data (s.off + done.length) st = .error e ∧ e = .returnNull ∧
      ¬∀ b ∈ s.text, b ≤ 0xff := by
  have hlength := s.length_text
  have hinside := s.inside
  have hsmall := s.small
  have hcap := btoaCapacity_eq (show s.len < 2 ^ 31 by lia)
  obtain ⟨full, more, rfl, hst⟩ := h
  have hget := s.getUnit_text htext
  by_cases hu : 0xff < u
  · right
    refine ⟨.returnNull, ?_, rfl, fun hall => ?_⟩
    · rw [btoaUnit, hget]
      simp only [bind, Except.bind]
      rw [if_pos hu]
      rfl
    · have := hall u (htext ▸ by simp)
      lia
  · left
    have hu' : u ≤ 0xff := by lia
    have hshort := hst.short
    have hcnt : add32 st.cnt 1 = more.length + 1 := by rw [hst.cnt, add32_of_lt (by lia)]
    rw [btoaUnit_byte st hget hu]
    by_cases hmore : more.length = 2
    · obtain ⟨a, b, rfl⟩ := length_eq_two.mp hmore
      have hroom : (Base64.encode full).length + 4 ≤ btoaCapacity s.len := by
        rw [htext, length_append, length_append, length_cons] at hlength
        simp only [length_cons, length_nil] at hlength
        rw [Base64.length_encode, hcap]
        lia
      obtain ⟨o, hpush, hdone⟩ := hst.complete hu' (by lia) hroom
      refine ⟨⟨o, 0, 0⟩, ?_, full ++ [a, b, u], [], by simp, hdone⟩
      have hthree : add32 st.cnt 1 = 3 := hcnt
      rw [if_pos hthree, hpush]
      rfl
    · refine ⟨_, if_neg (by lia), full, more ++ [u], by simp, hst.wait (by lia) hu'⟩

/-- **`__btoa` encodes.** -/
theorem btoa_eq (hfuel : s.len ≤ fuel) :
    ∃ r, btoa fuel s.toNativeString = .ok r ∧ r.map NativeString.text =
      if ∀ b ∈ s.text, b ≤ 0xff then some (Base64.encode s.text) else none := by
  have hlength := s.length_text
  have hinside := s.inside
  have hsmall := s.small
  have hcap := btoaCapacity_eq (show s.len < 2 ^ 31 by lia)
  have hstart : Encoded (btoaCapacity s.len) [] ⟨Output.new (btoaCapacity s.len), 0, 0⟩ :=
    ⟨[], [], rfl, rfl, by decide, rfl, rfl, fun b hb => absurd hb not_mem_nil, holds_new _⟩
  rw [btoa]
  rcases s.scanLoop_scan (Encoded (btoaCapacity s.len))
    (fun e => e = .returnNull ∧ ¬∀ b ∈ s.text, b ≤ 0xff)
    (fun done u rest st htext h => btoaUnit_spec s htext h) hfuel hstart with
    ⟨i, st, hscan, full, more, htext, hst⟩ | ⟨e, hscan, rfl, hbad⟩
  · rw [hscan, if_pos (htext ▸ hst.bytes)]
    have hshort := hst.short
    have hgroups := hst.groups
    rw [htext, length_append] at hlength
    have hroom : more ≠ [] → (Base64.encode full).length + 4 ≤ btoaCapacity s.len := by
      intro hne
      have := length_pos_iff.mpr hne
      rw [Base64.length_encode, hcap]
      lia
    have hfinish : ∃ o, (btoaOne st >>= fun st => btoaTwo st >>= fun st =>
        pure st.output.string) = .ok o ∧ o.text = Base64.encode s.text := by
      rw [htext]
      match more, hshort with
      | [], _ =>
        have hone : btoaOne st = .ok st := if_neg (by rw [hst.cnt]; decide)
        have htwo : btoaTwo st = .ok st := if_neg (by rw [hst.cnt]; decide)
        refine ⟨st.output.string, by rw [hone]; change btoaTwo st >>= _ = _; rw [htwo]; rfl, ?_⟩
        rw [append_nil]
        exact hst.output.string_text
      | [a], _ =>
        obtain ⟨st1, hone, hcnt, hholds⟩ := hst.one (by lia) (hroom (cons_ne_nil _ _))
        have htwo : btoaTwo st1 = .ok st1 := if_neg (by rw [hcnt]; decide)
        exact ⟨st1.output.string, by rw [hone]; change btoaTwo st1 >>= _ = _; rw [htwo]; rfl,
          hholds.string_text⟩
      | [a, b], _ =>
        have hone : btoaOne st = .ok st := if_neg (by rw [hst.cnt]; simp)
        obtain ⟨st1, htwo, hholds⟩ := hst.two (by lia) (hroom (cons_ne_nil _ _))
        exact ⟨st1.output.string, by rw [hone]; change btoaTwo st >>= _ = _; rw [htwo]; rfl,
          hholds.string_text⟩
    obtain ⟨o, hrun, ho⟩ := hfinish
    refine ⟨some o, ?_, by rw [Option.map_some, ho]⟩
    change catchNull (btoaOne st >>= fun st => btoaTwo st >>= fun st => pure st.output.string) = _
    rw [hrun]
    rfl
  · rw [hscan, if_neg hbad]
    exact ⟨none, rfl, rfl⟩

/-! ### Decoding -/

theorem isWhitespace_eq (u : Nat) : isWhitespace u = Base64.isSpace u := by
  rw [Bool.eq_iff_iff]
  simp only [isWhitespace, Base64.isSpace, Bool.or_eq_true, decide_eq_true_eq]
  lia

theorem sextetOfUnit_digit {v : Nat} (h : v < 64) : sextetOfUnit (Base64.digit v) = v := by
  rw [Base64.digit_eq v h]
  revert v
  decide +kernel

theorem sextetOfUnit_small : ∀ u < 128, sextetOfUnit u = 2 ^ 32 - 1 ∨
    sextetOfUnit u < 64 ∧ Base64.digit (sextetOfUnit u) = u := by
  simp only [Base64.digit, Base64.alphabet_eq]
  decide +kernel

/-- The code's table is the alphabet. -/
theorem sextetOfUnit_eq (hu : u < 2 ^ 16) :
    sextetOfUnit u = (Base64.sextet u).getD (2 ^ 32 - 1) := by
  cases hsextet : Base64.sextet u with
  | some v =>
    obtain ⟨hlt, rfl⟩ := Base64.sextet_some hsextet
    exact sextetOfUnit_digit hlt
  | none =>
    by_cases hsmall : u < 128
    · rcases sextetOfUnit_small u hsmall with h | ⟨hlt, h⟩
      · exact h
      · rw [← h, Base64.sextet_digit _ hlt] at hsextet
        cases hsextet
    · have hout : ∀ lo hi, lo ≤ hi → hi < 128 → unitIn u lo hi = false := fun lo hi h h' => by
        rw [unitIn, sub32_of_le (by lia) (by lia)]
        exact decide_eq_false (by lia)
      rw [sextetOfUnit, hout 65 90 (by decide) (by decide),
        hout 97 122 (by decide) (by decide), hout 48 57 (by decide) (by decide),
        if_neg (by lia), if_neg (by lia)]
      rfl

theorem ltS_zero (h : v < 2 ^ 31) : ltS v 0 = false := by
  rw [ltS_eq h (by decide)]
  exact decide_eq_false (Nat.not_lt_zero v)

/-- The decoder behind some sextets. -/
structure Sextets (capacity : Nat) (st : AtobState) (digits : List Nat) : Prop where
  m : st.m = digits.length
  bits : st.bits = 6 * digits.length % 8
  acc : st.acc % 2 ^ st.bits = Base64.leftover digits
  acc_lt : st.acc < 2 ^ 24
  output : Holds capacity st.output (Base64.decodeSextets digits)

/-- The byte that a sextet completes. -/
theorem completed_byte (hb : b = 2 ∨ b = 4 ∨ b = 6) (hv : v < 64) :
    (acc * 64 + v) % 2 ^ 24 / 2 ^ (b + 6 - 8) % 2 ^ 8 =
      (acc % 2 ^ b * 64 + v) / 2 ^ (b + 6 - 8) := by
  rcases hb with rfl | rfl | rfl
  all_goals
    simp only [Nat.reduceAdd, Nat.reduceSub, Nat.reducePow]
    lia

/-- The bits that a completed byte leaves. -/
theorem remaining_bits (hb : b = 2 ∨ b = 4 ∨ b = 6) :
    (acc * 64 + v) % 2 ^ 24 % 2 ^ (b + 6 - 8) =
      (acc % 2 ^ b * 64 + v) % 2 ^ (b + 6 - 8) := by
  rcases hb with rfl | rfl | rfl
  all_goals
    simp only [Nat.reduceAdd, Nat.reduceSub, Nat.reducePow]
    lia

/-- One more sextet, and perhaps a byte. -/
theorem Sextets.next {capacity : Nat} {st : AtobState} {digits : List Nat}
    (h : Sextets capacity st digits) {v : Nat} (hv : v < 64) (hroom : digits.length < capacity)
    (hcap : capacity < 2 ^ 31) : ∃ st', atobSextet st v = .ok st' ∧ st'.pad = st.pad ∧
      Sextets capacity st' (digits ++ [v]) := by
  have hlt := h.acc_lt
  have hacc : (shl32 st.acc 6 ||| v) &&& 0xffffff = (st.acc * 64 + v) % 2 ^ 24 := by
    rw [shl32_or hv (by lia)]
    exact Nat.and_two_pow_sub_one_eq_mod _ 24
  have hm : add32 st.m 1 = (digits ++ [v]).length := by
    rw [h.m, length_append, length_singleton, add32_of_lt (by lia)]
  have hbits := h.bits
  have hadd : add32 st.bits 6 = st.bits + 6 := add32_of_lt (by lia)
  obtain ⟨hfew, hmany⟩ := Base64.decodeSextets_snoc digits v
  have hleft := h.acc
  rw [← hbits] at hfew hmany
  have hlength : (digits ++ [v]).length = digits.length + 1 := length_append
  rw [atobSextet]
  dsimp only
  rw [hacc, hadd, hm]
  by_cases hbyte : 8 ≤ st.bits + 6
  · have hcases : st.bits = 2 ∨ st.bits = 4 ∨ st.bits = 6 := by lia
    obtain ⟨hdecode, hleftover⟩ := hmany hbyte
    have hroom' : (Base64.decodeSextets digits).length < capacity := by
      rw [Base64.length_decodeSextets]
      lia
    have hvalue : ((st.acc * 64 + v) % 2 ^ 24) >>> (st.bits + 6 - 8) &&& 0xff =
        (Base64.leftover digits * 64 + v) / 2 ^ (st.bits + 6 - 8) := by
      rw [show (0xff : Nat) = 2 ^ 8 - 1 from rfl, Nat.and_two_pow_sub_one_eq_mod,
        Nat.shiftRight_eq_div_pow, ← hleft]
      exact completed_byte hcases hv
    obtain ⟨o, hpush, hholds⟩ := h.output.push (by lia) hroom'
      (((st.acc * 64 + v) % 2 ^ 24) >>> (st.bits + 6 - 8) &&& 0xff)
    have hsub : sub32 (st.bits + 6) 8 = st.bits + 6 - 8 := sub32_of_le hbyte (by lia)
    rw [if_pos hbyte, hsub, hpush]
    refine ⟨_, rfl, rfl, rfl, ?_, ?_, Nat.mod_lt _ (by decide), ?_⟩
    · dsimp only
      rw [hlength]
      lia
    · dsimp only
      rw [hleftover, ← hleft]
      exact remaining_bits hcases
    · dsimp only
      rw [hdecode, ← hvalue]
      have hbyte' : ((st.acc * 64 + v) % 2 ^ 24) >>> (st.bits + 6 - 8) &&& 0xff < 2 ^ 16 :=
        Nat.and_le_right.trans_lt (by decide)
      rwa [Nat.mod_eq_of_lt hbyte'] at hholds
  · obtain ⟨hdecode, hleftover⟩ := hfew (by lia)
    rw [if_neg hbyte]
    refine ⟨_, rfl, rfl, rfl, ?_, ?_, Nat.mod_lt _ (by decide), ?_⟩
    · dsimp only
      rw [hlength]
      lia
    · dsimp only
      rw [hleftover, ← hleft]
      have hb : st.bits = 0 := by lia
      rw [hb]
      lia
    · rw [hdecode]
      exact h.output

/-- The text without white space. -/
abbrev visible (text : List Nat) : List Nat := text.filter fun u => !Base64.isSpace u

/-- The decoder behind the units `done`. -/
def Decoded (capacity : Nat) (done : List Nat) (st : AtobState) : Prop :=
  ∃ sc, Base64.scan (visible done) = some sc ∧ Sextets capacity st sc.digits ∧
    st.pad = sc.padding ∧ sc.digits.length ≤ done.length

theorem visible_snoc_space (h : Base64.isSpace u = true) :
    visible (done ++ [u]) = visible done := by
  rw [visible, filter_append, filter_cons_of_neg (by rw [h]; decide), filter_nil,
    append_nil]

theorem visible_snoc (h : Base64.isSpace u = false) :
    visible (done ++ [u]) = visible done ++ [u] := by
  rw [visible, filter_append, filter_cons_of_pos (by rw [h]; decide), filter_nil]

/-- A text with a unit that the scan rejects. -/
theorem scan_text_none {text : List Nat} (htext : text = done ++ u :: rest)
    (hu : Base64.isSpace u = false) {sc : Base64.Scanned}
    (hscan : Base64.scan (visible done) = some sc) (hnone : Base64.scanUnit sc u = none) :
    Base64.scan (visible text) = none := by
  have hdone : Base64.scan (visible (done ++ [u])) = none := by
    rw [visible_snoc hu, Base64.scan_snoc, hscan]
    exact hnone
  have happend := Base64.scan_none_append hdone (visible rest)
  rw [← filter_append, append_assoc] at happend
  rw [htext]
  exact happend

/-- A step of the scan. -/
theorem atobUnit_spec {st : AtobState} (htext : s.text = done ++ u :: rest)
    (h : Decoded s.len done st) :
    (∃ st', atobUnit s.data (s.off + done.length) st = .ok st' ∧
      Decoded s.len (done ++ [u]) st') ∨
    ∃ e, atobUnit s.data (s.off + done.length) st = .error e ∧ e = .returnNull ∧
      Base64.scan (visible s.text) = none := by
  have hlength := s.length_text
  have hinside := s.inside
  have hsmall := s.small
  rw [htext, length_append, length_cons] at hlength
  obtain ⟨sc, hscan, hst, hpad, hle⟩ := h
  have hpadding := ((Base64.scan_iff _ _).mp hscan).2.1
  have hlen : (done ++ [u]).length = done.length + 1 := length_append
  rw [atobUnit, s.getUnit_text htext]
  simp only [bind, Except.bind]
  rw [isWhitespace_eq]
  cases hspace : Base64.isSpace u with
  | true =>
    left
    exact ⟨st, rfl, sc, by rw [visible_snoc_space hspace, hscan], hst, hpad, by lia⟩
  | false =>
    have hunit : Base64.scan (visible (done ++ [u])) = Base64.scanUnit sc u := by
      rw [visible_snoc hspace, Base64.scan_snoc, hscan]
      rfl
    rw [if_neg Bool.false_ne_true]
    by_cases heq : u = 61
    · have heq' : u = Base64.pad := heq
      have hadd : add32 st.pad 1 = sc.padding + 1 := by rw [hpad, add32_of_lt (by lia)]
      rw [if_pos heq, hadd]
      by_cases hmore : 2 < sc.padding + 1
      · right
        refine ⟨.returnNull, by rw [if_pos hmore]; rfl, rfl, ?_⟩
        refine scan_text_none htext hspace hscan ?_
        rw [Base64.scanUnit, if_pos heq', if_pos hmore]
      · left
        rw [if_neg hmore]
        refine ⟨{ st with pad := sc.padding + 1 }, rfl, { sc with padding := sc.padding + 1 }, ?_,
          ⟨hst.m, hst.bits, hst.acc, hst.acc_lt, hst.output⟩, rfl, by dsimp only; lia⟩
        rw [hunit, Base64.scanUnit, if_pos heq', if_neg hmore]
    · have hne : ¬u = Base64.pad := heq
      rw [if_neg heq, hpad]
      by_cases hzero : sc.padding = 0
      · rw [if_neg (not_not.mpr hzero), sextetOfUnit_eq (s.unit_lt (htext ▸ by simp))]
        cases hsextet : Base64.sextet u with
        | none =>
          right
          refine ⟨.returnNull, rfl, rfl, scan_text_none htext hspace hscan ?_⟩
          rw [Base64.scanUnit, if_neg hne, if_neg (not_not.mpr hzero), hsextet]
          rfl
        | some v =>
          left
          have hv := (Base64.sextet_some hsextet).1
          obtain ⟨st', hok, hpad', hst'⟩ := hst.next hv (by lia) (by lia)
          rw [Option.getD_some, ltS_zero (by lia), if_neg Bool.false_ne_true]
          refine ⟨st', hok, { sc with digits := sc.digits ++ [v] }, ?_, hst',
            hpad'.trans hpad, ?_⟩
          · rw [hunit, Base64.scanUnit, if_neg hne, if_neg (not_not.mpr hzero), hsextet]
            rfl
          · dsimp only
            rw [length_append, length_singleton]
            lia
      · right
        rw [if_pos hzero]
        refine ⟨.returnNull, rfl, rfl, scan_text_none htext hspace hscan ?_⟩
        rw [Base64.scanUnit, if_neg hne, if_pos hzero]

/-- **`__atob` is the forgiving decoding.** -/
theorem atob_eq (hfuel : s.len ≤ fuel) :
    ∃ r, atob fuel s.toNativeString = .ok r ∧
      r.map NativeString.text = Base64.forgivingDecode s.text := by
  have hlength := s.length_text
  have hinside := s.inside
  have hsmall := s.small
  have hstart : Decoded s.len [] ⟨Output.new s.len, 0, 0, 0, 0⟩ :=
    ⟨⟨[], 0⟩, rfl, ⟨rfl, rfl, rfl, Nat.two_pow_pos 24, holds_new _⟩, rfl, le_rfl⟩
  rw [atob, Base64.forgivingDecode_eq]
  rcases s.scanLoop_scan (Decoded s.len)
    (fun e => e = .returnNull ∧ Base64.scan (visible s.text) = none)
    (fun done u rest st htext h => atobUnit_spec s htext h) hfuel hstart with
    ⟨i, st, hrun, sc, hscan, hst, hpad, hle⟩ | ⟨e, hrun, rfl, hnone⟩
  · have hpadding := ((Base64.scan_iff _ _).mp hscan).2.1
    have hand : ∀ n : Nat, n &&& 3 = n % 4 := fun n => Nat.and_two_pow_sub_one_eq_mod n 2
    rw [hrun, hscan, Option.bind_some, Base64.Scanned.result]
    simp only [bind, Except.bind]
    rw [hst.m, hpad, add32_of_lt (by lia), hand, hand]
    by_cases hpadded : sc.padding ≠ 0 ∧ (sc.digits.length + sc.padding) % 4 ≠ 0
    · rw [if_pos hpadded, if_pos hpadded.1, if_pos hpadded.2]
      exact ⟨none, rfl, rfl⟩
    · have hfour : sc.padding ≠ 0 → ¬(sc.digits.length + sc.padding) % 4 ≠ 0 :=
        fun hpad h => hpadded ⟨hpad, h⟩
      rw [if_neg hpadded]
      by_cases hone : sc.digits.length % 4 = 1
      · simp only [if_pos hone]
        refine ⟨none, ?_, rfl⟩
        by_cases hzero : sc.padding ≠ 0
        · rw [if_pos hzero, if_neg (hfour hzero)]
          rfl
        · rw [if_neg hzero]
          rfl
      · simp only [if_neg hone]
        refine ⟨some st.output.string, ?_, congrArg some hst.output.string_text⟩
        by_cases hzero : sc.padding ≠ 0
        · rw [if_pos hzero, if_neg (hfour hzero)]
          rfl
        · rw [if_neg hzero]
          rfl
  · rw [hrun, hnone]
    exact ⟨none, rfl, rfl⟩

/-- **`btoa` and `atob` are the standard's functions**, and `atob` undoes `btoa` also when white
space is put into the encoded text. -/
theorem btoa_atob_correct :
    (∀ (s : FlatString) (fuel : Nat), s.len ≤ fuel →
      ∃ r, btoa fuel s.toNativeString = .ok r ∧ r.map NativeString.text =
        if ∀ b ∈ s.text, b ≤ 0xff then some (Base64.encode s.text) else none) ∧
    (∀ (s : FlatString) (fuel : Nat), s.len ≤ fuel →
      ∃ r, atob fuel s.toNativeString = .ok r ∧
        r.map NativeString.text = Base64.forgivingDecode s.text) ∧
    ∀ (s : FlatString) (fuel : Nat), s.len ≤ fuel → (∀ b ∈ s.text, b ≤ 0xff) →
      ∃ e, btoa fuel s.toNativeString = .ok (some e) ∧
        (e.text.filter fun u => !Base64.isSpace u) = e.text ∧
        ∀ (t : FlatString) (fuel' : Nat), t.len ≤ fuel' →
          (t.text.filter fun u => !Base64.isSpace u) = e.text →
          ∃ d, atob fuel' t.toNativeString = .ok (some d) ∧ d.text = s.text := by
  refine ⟨fun s fuel => btoa_eq s, fun s fuel => atob_eq s, fun s fuel hfuel hbytes => ?_⟩
  obtain ⟨r, hbtoa, hr⟩ := btoa_eq s hfuel
  rw [if_pos hbytes] at hr
  obtain ⟨e, rfl, he⟩ := Option.map_eq_some_iff.mp hr
  have hbytes' : ∀ b ∈ s.text, b < 256 := fun b hb => Nat.lt_succ_of_le (hbytes b hb)
  refine ⟨e, hbtoa, ?_, fun t fuel' hfuel' htext => ?_⟩
  · rw [he, filter_eq_self]
    intro u hu
    rw [Base64.not_isSpace_encode hbytes' u hu]
    rfl
  obtain ⟨r', hatob, hr'⟩ := atob_eq t hfuel'
  rw [Base64.forgivingDecode_encode hbytes' (htext.trans he)] at hr'
  obtain ⟨d, rfl, hd⟩ := Option.map_eq_some_iff.mp hr'
  exact ⟨d, hatob, hd⟩

/-- The byte `A` comes back from its encoding with a space in it. -/
theorem btoa_atob_correct_byte :
    let s : FlatString := ⟨⟨1, 0, [65]⟩, by decide, by decide, by decide⟩
    let t : FlatString := ⟨⟨5, 1, [0, 81, 81, 61, 32, 61]⟩, by decide, by decide, by decide⟩
    ∃ e d, btoa 1 s.toNativeString = .ok (some e) ∧ atob 5 t.toNativeString = .ok (some d) ∧
      d.text = s.text := by
  intro s t
  obtain ⟨hbtoa, -, hround⟩ := btoa_atob_correct
  obtain ⟨r, hr, htext⟩ := hbtoa s 1 (by decide)
  obtain ⟨e, he, -, hatob⟩ := hround s 1 (by decide) (by decide)
  obtain rfl : r = some e := Except.ok.inj (hr.symm.trans he)
  have hdigit : Base64.digit 16 = 81 := Base64.digit_eq 16 (by decide)
  have hencoded : some e.text = some [Base64.digit 16, Base64.digit 16, 61, 61] := htext
  rw [hdigit] at hencoded
  obtain ⟨d, hd, heq⟩ := hatob t 5 (by decide) (by rw [Option.some.inj hencoded]; rfl)
  exact ⟨e, d, he, hd, heq⟩

end Js2Wasm.NativeText
