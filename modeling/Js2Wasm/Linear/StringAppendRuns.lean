import Js2Wasm.Lib.Guarded
import Js2Wasm.Lib.Fallible
import Js2Wasm.Linear.HashTables
import Js2Wasm.Linear.StringAppend

/-! # Runs of the owned append

A record is a block that `__malloc` has granted, with the length word and the text inside.
The append writes as far as the payload size of its left record lets it, so it is exact
where that word counts the bytes of the block; every producer but `__str_from_u8arr` sees
to it.  `append_runs` is about the runs whose appends find it so. -/

namespace Js2Wasm.Linear
open List WordMemory Guarded

/-! ### Copy loops -/

section
variable {dst src : Nat → Nat} {d : Nat}

/-- A copy loop leaves everything but its destination. -/
theorem copyBytes_off : ∀ (n i : Nat) (m : Memory), i + n < 2 ^ 32 →
    (∀ j, i ≤ j → j < i + n → dst j = d + j) →
    AgreeOff ⟨d + i, n⟩ m (copyBytes dst src n i m) := by
  intro n
  induction n with
  | zero => exact fun i m _ _ => AgreeOff.refl _ _
  | succ n ih =>
    intro i m hi hdst a ha
    have hout : ¬ (d + i ≤ a ∧ a < d + i + (n + 1)) := ha
    rw [copyBytes, add32_of_lt (by lia)]
    rw [ih (i + 1) _ (by lia) (fun j hj hj' => hdst j (by lia) (by lia)) a fun hin => by
      have hin' : d + (i + 1) ≤ a ∧ a < d + (i + 1) + n := hin
      lia]
    apply store8_of_ne
    rw [hdst i .refl (by lia)]
    lia

/-- A copy loop whose destination lies apart from its source copies. -/
theorem copyBytes_get : ∀ (n i : Nat) (m : Memory), i + n < 2 ^ 32 →
    (∀ j, i ≤ j → j < i + n → dst j = d + j) →
    (∀ j k, i ≤ j → j < i + n → i ≤ k → k < i + n → src j ≠ d + k) →
    ∀ j, i ≤ j → j < i + n → copyBytes dst src n i m (d + j) = m (src j) := by
  intro n
  induction n with
  | zero => exact fun i m _ _ _ j hj hj' => absurd hj' (by lia)
  | succ n ih =>
    intro i m hi hdst hsrc j hj hj'
    have hdst' : ∀ k, i + 1 ≤ k → k < i + 1 + n → dst k = d + k :=
      fun k hk hk' => hdst k (by lia) (by lia)
    rw [copyBytes, add32_of_lt (by lia), hdst i .refl (by lia)]
    by_cases hji : j = i
    · -- the first byte is not written again
      have hfirst : ¬ Block.Has ⟨d + (i + 1), n⟩ (d + j) := fun hin => by
        have hin' : d + (i + 1) ≤ d + j := hin.1
        lia
      rw [copyBytes_off n (i + 1) _ (by lia) hdst' _ hfirst, hji, store8_self]
      exact UInt8.ofNat_toNat
    · rw [ih (i + 1) _ (by lia) hdst' (fun j k _ _ _ _ => hsrc j k (by lia) (by lia)
        (by lia) (by lia)) j (by lia) (by lia)]
      exact store8_of_ne (hsrc j i hj hj' .refl (by lia))

end

/-! ### What the producers make -/

/-- The payload size counts the bytes of the block. -/
def Sized (m : Memory) (b : Block) : Prop :=
  load32 m (b.base + stringPayloadSizeOffset) + 8 = b.size

section
variable {before after : List Block} {m m1 m2 m' : Memory} {p size len : Nat}

variable {σ : Type} {M : Malloc σ} {h h' : σ}

/-- What a call of `__malloc` that returns has granted. -/
theorem malloc_bind {α : Type} {f : Nat × Memory × σ → Except Halt α} {out : α}
    (heq : (malloc M m h size >>= f) = .ok out) : ∃ p m1 h1,
      Granted (M.blocks h) (M.blocks h1) m m1 p size ∧ f (p, m1, h1) = .ok out := by
  rw [malloc] at heq
  cases hout : M.alloc m h size with
  | none =>
    rw [hout] at heq
    exact nomatch heq
  | some granted =>
    rw [hout] at heq
    exact ⟨granted.1, granted.2.1, granted.2.2, M.granted hout, heq⟩

/-- The bytes of the record at `p`. -/
def contents (m : Memory) (p : Nat) : List UInt8 :=
  (range (load32 m (p + 8))).map fun i => m (p + 12 + i)

variable {r total : Nat} {out : Nat × Memory × σ} {b br : Block}

/-- Two texts, one after the other. -/
theorem contents_append {l : Nat} (hlen : load32 m' (p + 8) = load32 m (l + 8) + load32 m (r + 8))
    (hleft : ∀ i, i < load32 m (l + 8) → m' (p + 12 + i) = m (l + 12 + i))
    (hright : ∀ i, i < load32 m (r + 8) → m' (p + 12 + load32 m (l + 8) + i) = m (r + 12 + i)) :
    contents m' p = contents m l ++ contents m r := by
  rw [contents, hlen, range_add, map_append, map_map]
  refine congrArg₂ (· ++ ·) (map_congr_left fun i hi => hleft i (mem_range.mp hi))
    (map_congr_left fun i hi => ?_)
  show m' (p + 12 + (load32 m (l + 8) + i)) = m (r + 12 + i)
  rw [← Nat.add_assoc]
  exact hright i (mem_range.mp hi)

/-- A record lies in a granted block. -/
structure IsRecord (blocks : List Block) (m : Memory) (b : Block) : Prop where
  granted : b ∈ blocks
  fits : b.base + b.size ≤ 2 ^ 32
  room : 12 + load32 m (b.base + 8) ≤ b.size

/-- The last part of the append, into a carrier that has room and holds the left text. -/
theorem appendText {c l r : Nat} (hroom : c + 12 + load32 m (l + 8) + load32 m (r + 8) ≤ 2 ^ 32)
    (htotal : 12 + (load32 m (l + 8) + load32 m (r + 8)) < 2 ^ 32)
    (hrfits : r + 12 + load32 m (r + 8) ≤ 2 ^ 32)
    (hleft : ∀ i, i < load32 m (l + 8) → m1 (c + 12 + i) = m (l + 12 + i))
    (hright : ∀ i, i < load32 m (r + 8) → m1 (r + 12 + i) = m (r + 12 + i))
    (hapart : ∀ i j, i < load32 m (r + 8) → j < load32 m (r + 8) →
      r + 12 + i ≠ c + 12 + load32 m (l + 8) + j) :
    let m' := store32
      (copyBytes (fun i => add32 (add32 c (load32 m (l + 8))) i + 12) (fun i => add32 r i + 12)
        (load32 m (r + 8)) 0 m1) (c + 8) (add32 (load32 m (l + 8)) (load32 m (r + 8)))
    contents m' c = contents m l ++ contents m r ∧
      load32 m' (c + 8) = load32 m (l + 8) + load32 m (r + 8) ∧
      AgreeOff ⟨c + 8, 4 + (load32 m (l + 8) + load32 m (r + 8))⟩ m1 m' := by
  generalize hL : load32 m (l + 8) = L at *
  generalize hR : load32 m (r + 8) = R at *
  intro m'
  have hdst : ∀ j, 0 ≤ j → j < 0 + R → add32 (add32 c L) j + 12 = c + 12 + L + j := by
    intro j _ hj
    rw [add32_of_lt (a := c) (by lia), add32_of_lt (by lia)]
    lia
  have hsrc : ∀ j, j < R → add32 r j + 12 = r + 12 + j := by
    intro j hj
    rw [add32_of_lt (by lia)]
    lia
  have htext := @copyBytes_off _ (fun i => add32 r i + 12) (c + 12 + L) R 0 m1 (by lia) hdst
  have hcopied := @copyBytes_get _ (fun i => add32 r i + 12) (c + 12 + L) R 0 m1 (by lia) hdst
    fun j k _ hj _ hk => by
      show add32 r j + 12 ≠ c + 12 + L + k
      rw [hsrc j (by lia)]
      exact hapart j k (by lia) (by lia)
  have hlen : load32 m' (c + 8) = L + R := by
    rw [load32_store32_self add32_lt, add32_of_lt (by lia)]
  have hpast : ∀ a, c + 12 ≤ a → m' a = copyBytes (fun i => add32 (add32 c L) i + 12)
      (fun i => add32 r i + 12) R 0 m1 a := fun a ha => store32_of_ne (Or.inr (by lia))
  refine ⟨contents_append (hL ▸ hR ▸ hlen) (fun i hi => ?_) (fun i hi => ?_), hlen, ?_⟩
  · rw [hpast _ (by lia), htext _ fun hin => ?_, hleft i (hL ▸ hi)]
    have hin' : c + 12 + L + 0 ≤ c + 12 + i := hin.1
    lia
  · rw [hL, hpast _ (by lia), hcopied i (Nat.zero_le _) (by lia)]
    show m1 (add32 r i + 12) = m (r + 12 + i)
    rw [hsrc i (by lia), hright i (by lia)]
  · refine AgreeOff.trans (htext.mono ?_ ?_) (agreeOff_store32 _ .refl ?_)
    · show c + 8 ≤ c + 12 + L + 0
      lia
    · show c + 12 + L + 0 + R ≤ c + 8 + (4 + (L + R))
      lia
    · show c + 8 + 4 ≤ c + 8 + (4 + (L + R))
      lia

/-- **The guard of an append**: the two texts fit, and either they fit the capacity of the
left record and its payload size is right, or they do not fit it and the doubled capacity
leaves room for a header. -/
structure AppendRoom (m : Memory) (b : Block) (r : Nat) : Prop where
  total : 12 + (load32 m (b.base + 8) + load32 m (r + 8)) < 2 ^ 32
  stays : load32 m (b.base + 8) + load32 m (r + 8) ≤ appendCapacity m b.base → Sized m b
  moves : appendCapacity m b.base < load32 m (b.base + 8) + load32 m (r + 8) →
    12 + 2 * appendCapacity m b.base % 2 ^ 32 < 2 ^ 32

theorem appendCapacity_sized (hb : Sized m b) (hsize : 12 ≤ b.size) :
    12 + appendCapacity m b.base = b.size := by
  have hb' : load32 m (b.base + stringPayloadSizeOffset) + 8 = b.size := hb
  rw [appendCapacity, stringPayloadPrefixBytes, sub32_of_le (by omega) (load32_lt _ _)]
  omega

theorem le_nextCapacity (capacity total : Nat) : total ≤ nextCapacity capacity total := by
  simp only [nextCapacity]
  split <;> split <;> lia

theorem nextCapacity_lt {capacity : Nat} (htotal : 12 + total < 2 ^ 32)
    (hdouble : 12 + 2 * capacity % 2 ^ 32 < 2 ^ 32) :
    12 + nextCapacity capacity total < 2 ^ 32 := by
  have hshl : shl32 capacity 1 = 2 * capacity % 2 ^ 32 := by
    rw [shl32, Nat.shiftLeft_eq, pow_one, Nat.mul_comm]
  simp only [nextCapacity, hshl]
  split <;> split <;> omega

/-- What an append leaves: the texts one after the other in a block of the right size that
is the left one or new, and no write outside of the two. -/
structure Appended (before after : List Block) (m m' : Memory) (b b' : Block) (r : Nat) :
    Prop where
  bytes : contents m' b'.base = contents m b.base ++ contents m r
  sized : Sized m' b'
  room : 12 + load32 m' (b'.base + 8) ≤ b'.size
  block : b' = b ∧ after = before ∧ AgreeOff b m m' ∨
    Granted before after m m' b'.base b'.size

/-- An append that stays. -/
theorem strAppendAscii_stays (hroom : AppendRoom m b br.base) (hb : IsRecord (M.blocks h) m b)
    (hbr : IsRecord (M.blocks h) m br) (hapart : br = b ∨ br.Apart b)
    (hstays : load32 m (b.base + 8) + load32 m (br.base + 8) ≤ appendCapacity m b.base)
    (heq : strAppendAscii M m h b.base br.base = .ok out) :
    out.1 = b.base ∧ out.2.2 = h ∧
      Appended (M.blocks h) (M.blocks h) m out.2.1 b b br.base := by
  have htotal := hroom.total
  have hsized := hroom.stays hstays
  have hlfits := hb.fits
  have hlroom := hb.room
  have hrfits := hbr.fits
  have hrroom := hbr.room
  have hcap := appendCapacity_sized hsized (by lia)
  have hcarrier : appendCarrier M m h b.base (load32 m (b.base + 8))
      (add32 (load32 m (b.base + 8)) (load32 m (br.base + 8))) = .ok (b.base, m, h) := by
    rw [appendCarrier, add32_of_lt (by lia)]
    exact if_neg (Nat.not_lt.mpr hstays)
  rw [strAppendAscii, hcarrier] at heq
  cases heq
  have htext := @appendText m m b.base b.base br.base (by lia) htotal (by lia)
    (fun _ _ => rfl) (fun _ _ => rfl) fun i j hi hj => ?_
  · obtain ⟨hbytes, hlen, hoff⟩ := htext
    refine ⟨rfl, rfl, hbytes, ?_, ?_, Or.inl ⟨rfl, rfl, hoff.mono ?_ ?_⟩⟩
    · refine (congrArg (· + 8) (hoff.load32 (c := ⟨b.base, 8⟩) ?_ ?_ ?_)).trans hsized
      · exact Or.inr .refl
      · exact Nat.le_add_right _ _
      · exact le_rfl
    · exact (congrArg (12 + ·) hlen).trans_le (by lia)
    · exact Nat.le_add_right _ _
    · show b.base + 8 + (4 + (load32 m (b.base + 8) + load32 m (br.base + 8))) ≤ b.base + b.size
      lia
  · -- the right text ends before the place where it is copied to, or lies in another block
    rcases hapart with rfl | hapart | hapart <;> lia

/-- The carrier of an append that moves holds the left text and the payload size. -/
theorem appendCarrier_moves {q : Nat × Memory × σ} (hb : IsRecord (M.blocks h) m b)
    (htotal : 12 + total < 2 ^ 32) (hle : load32 m (b.base + 8) ≤ total)
    (hgrow : appendCapacity m b.base < total)
    (hdouble : 12 + 2 * appendCapacity m b.base % 2 ^ 32 < 2 ^ 32)
    (heq : appendCarrier M m h b.base (load32 m (b.base + 8)) total = .ok q) :
    let next := nextCapacity (appendCapacity m b.base) total
    Granted (M.blocks h) (M.blocks q.2.2) m q.2.1 q.1 (12 + next) ∧
      load32 q.2.1 (q.1 + 4) = next + 4 ∧
      ∀ i, i < load32 m (b.base + 8) → q.2.1 (q.1 + 12 + i) = m (b.base + 12 + i) := by
  intro next
  have hnext : 12 + next < 2 ^ 32 := nextCapacity_lt htotal hdouble
  have hfits := hb.fits
  have hroom := hb.room
  rw [appendCarrier] at heq
  rw [if_pos hgrow] at heq
  obtain ⟨p, m1, h1, hg, hret⟩ := malloc_bind heq
  have hg' : Granted (M.blocks h) (M.blocks h1) m m1 p (12 + next) := by
    rwa [add32_of_lt hnext] at hg
  cases hret
  have htext : next ≥ total := le_nextCapacity _ _
  have hpfits := hg'.fits
  have happart := hg'.apart b hb.granted
  set m2 := store32 m1 (p + stringPayloadSizeOffset) (add32 next stringPayloadPrefixBytes) with hm2
  have hdst : ∀ j, 0 ≤ j → j < 0 + load32 m (b.base + 8) → add32 p j + 12 = p + 12 + j := by
    intro j _ hj
    rw [add32_of_lt (by lia)]
    lia
  have hsrc : ∀ j, j < load32 m (b.base + 8) → add32 b.base j + 12 = b.base + 12 + j := by
    intro j hj
    rw [add32_of_lt (by lia)]
    lia
  have hcopy := @copyBytes_off _ (fun i => add32 b.base i + 12) (p + 12) _ 0 m2 (by lia) hdst
  have hcopied := @copyBytes_get _ (fun i => add32 b.base i + 12) (p + 12) _ 0 m2 (by lia) hdst
    fun j k _ hj _ hk => by
      show add32 b.base j + 12 ≠ p + 12 + k
      rw [hsrc j (by lia)]
      rcases happart with happart | happart <;> simp only at happart <;> lia
  have hhead : AgreeOff ⟨p, 12 + next⟩ m1 m2 := by
    refine agreeOff_store32 _ (Nat.le_add_right _ _) ?_
    show p + 4 + 4 ≤ p + (12 + next)
    lia
  have hoff : AgreeOff ⟨p, 12 + next⟩ m m2 := (hg'.write hhead).frame
  refine ⟨(hg'.write hhead).write (hcopy.mono ?_ ?_), ?_, fun i hi => ?_⟩
  · exact Nat.le_add_right _ _
  · show p + 12 + 0 + load32 m (b.base + 8) ≤ p + (12 + next)
    lia
  · rw [hcopy.load32 (c := ⟨p, 12⟩) (Or.inr .refl) (Nat.le_add_right _ _)
      (Nat.add_le_add_left (by decide : 8 ≤ 12) p), hm2]
    rw [stringPayloadSizeOffset, load32_store32_self add32_lt, stringPayloadPrefixBytes,
      add32_of_lt (by lia)]
  · refine (hcopied i (Nat.zero_le _) (by lia)).trans ?_
    show m2 (add32 b.base i + 12) = m (b.base + 12 + i)
    rw [hsrc i hi]
    exact hoff _ (happart.not_has ⟨by lia, by lia⟩)

/-- An append that moves. -/
theorem strAppendAscii_moves (hroom : AppendRoom m b br.base) (hb : IsRecord (M.blocks h) m b)
    (hbr : IsRecord (M.blocks h) m br)
    (hmoves : appendCapacity m b.base < load32 m (b.base + 8) + load32 m (br.base + 8))
    (heq : strAppendAscii M m h b.base br.base = .ok out) :
    ∃ b', out.1 = b'.base ∧ 12 ≤ b'.size ∧
      Granted (M.blocks h) (M.blocks out.2.2) m out.2.1 b'.base b'.size ∧
      Appended (M.blocks h) (M.blocks out.2.2) m out.2.1 b b' br.base := by
  have htotal := hroom.total
  have hrfits := hbr.fits
  have hrroom := hbr.room
  rw [strAppendAscii] at heq
  rw [add32_of_lt (by lia : load32 m (b.base + 8) + load32 m (br.base + 8) < 2 ^ 32)] at heq
  obtain ⟨q, hq, hret⟩ := Fallible.bind_eq_ok.mp heq
  obtain ⟨hg, hsize, hleft⟩ := appendCarrier_moves hb htotal (Nat.le_add_right _ _) hmoves
    (hroom.moves hmoves) hq
  set next := nextCapacity (appendCapacity m b.base)
    (load32 m (b.base + 8) + load32 m (br.base + 8)) with hnext
  have hle : load32 m (b.base + 8) + load32 m (br.base + 8) ≤ next := le_nextCapacity _ _
  have hfits := hg.fits
  have happart := hg.apart br hbr.granted
  cases hret
  have htext := @appendText m q.2.1 q.1 b.base br.base (by lia) htotal (by lia) hleft
    (fun i hi => hg.frame _ (happart.not_has ⟨by lia, by lia⟩)) fun i j hi hj => by
      rcases happart with happart | happart <;> simp only at happart <;> lia
  rw [add32_of_lt (a := load32 m (b.base + 8)) (by lia)] at htext
  obtain ⟨hbytes, hlen, hoff⟩ := htext
  have hword : load32 (store32 _ _ _) (q.1 + 4) = load32 q.2.1 (q.1 + 4) :=
    hoff.load32 (c := ⟨q.1, 8⟩) (Or.inr .refl) (Nat.le_add_right _ _) .refl
  have hgrant := hg.write (hoff.mono (Nat.le_add_right _ _) (by
    show q.1 + 8 + (4 + _) ≤ q.1 + (12 + next)
    lia))
  refine ⟨⟨q.1, 12 + next⟩, rfl, Nat.le_add_right _ _, hgrant, hbytes, ?_, ?_, Or.inr hgrant⟩
  · show load32 _ (q.1 + 4) + 8 = 12 + next
    rw [hword, hsize]
    lia
  · show 12 + load32 _ (q.1 + 8) ≤ 12 + next
    rw [hlen]
    lia

end

/-! ### Runs -/

/-- The memory, the heap and the blocks of the string records. -/
structure StringWorld (σ : Type) where
  mem : Memory
  heap : σ
  recs : List Block

/-- A call of the string runtime that makes a record. -/
inductive StringCall where
  | fromData (offset len : Nat)
  | concat (a b : Nat)
  | slice (str start stop : Nat)
  | fromU8arr (u8arr : Nat)
  | append (l r : Nat)

/-- A call, or anything else the program does to the memory and the heap. -/
inductive StringEvent (σ : Type) where
  | call (c : StringCall)
  | other (m : Memory) (h : σ)

section
variable {σ : Type} (M : Malloc σ)

def StringCall.run (m : Memory) (h : σ) : StringCall → Except Halt (Nat × Memory × σ)
  | fromData offset len => strFromData M m h offset len
  | concat a b => strConcat M m h a b
  | slice str start stop => strSlice M m h str start stop
  | fromU8arr u8arr => strFromU8arr M m h u8arr
  | append l r => strAppendAscii M m h l r

/-- A call that returns `p`: a new record there, unless one is there already. -/
def StringWorld.after (w : StringWorld σ) (p : Nat) (m : Memory) (h : σ) : StringWorld σ where
  mem := m
  heap := h
  recs :=
    if w.recs.any (·.base = p) then w.recs
    else ((M.blocks h).find? (·.base = p)).toList ++ w.recs

def StringWorld.step (w : StringWorld σ) : StringEvent σ → StringWorld σ
  | .other m h => { w with mem := m, heap := h }
  | .call c =>
    match c.run M w.mem w.heap with
    | .error _ => w
    | .ok (p, m, h) => w.after M p m h

/-- The records lie in blocks that share no byte. -/
structure StringInv (w : StringWorld σ) : Prop where
  apart : (M.blocks w.heap).Pairwise Block.Apart
  recs : ∀ b ∈ w.recs, IsRecord (M.blocks w.heap) w.mem b

/-- **What an append owes**: a record with the bytes of the left one and those of the right
one, whose payload size is right, in the left block or a new one; no write outside of the
two blocks; and every other record as it was. -/
structure AppendOk (w w' : StringWorld σ) (l r p : Nat) : Prop where
  bytes : contents w'.mem p = contents w.mem l ++ contents w.mem r
  block : ∃ b ∈ w.recs, b.base = l ∧ ∃ b' ∈ w'.recs, b'.base = p ∧ Sized w'.mem b' ∧
    (b' = b ∨ ∀ c ∈ M.blocks w.heap, c.Apart b') ∧
    ∀ a, ¬ b.Has a → ¬ b'.Has a → w'.mem a = w.mem a
  others : ∀ c ∈ w.recs, c.base ≠ p → ∀ a, c.Has a → w'.mem a = w.mem a

variable {M} {w : StringWorld σ} {m' : Memory} {h' : σ} {p size : Nat} {b c : Block}

theorem StringInv.apart_of_ne (hinv : StringInv M w) (hb : b ∈ w.recs) (hc : c ∈ w.recs)
    (hne : c ≠ b) : c.Apart b := by
  have hsymm : Std.Symm Block.Apart := ⟨fun _ _ h => h.symm⟩
  exact hinv.apart.forall (hinv.recs c hc).granted (hinv.recs b hb).granted hne

/-- A record keeps its place when its bytes are kept. -/
theorem IsRecord.congr {blocks blocks' : List Block} {m : Memory} (hb : IsRecord blocks m b)
    (hgranted : b ∈ blocks') (hbytes : ∀ a, b.Has a → m' a = m a) : IsRecord blocks' m' b where
  granted := hgranted
  fits := hb.fits
  room := by
    have hroom := hb.room
    rw [load32_congr fun a ha ha' => hbytes a ⟨by lia, by lia⟩]
    exact hroom

section
variable (hinv : StringInv M w)
include hinv

/-- A granted record is a new one. -/
theorem StringInv.granted (hg : Granted (M.blocks w.heap) (M.blocks h') w.mem m' p size)
    (hlen : 12 + load32 m' (p + 8) ≤ size) :
    (w.after M p m' h').recs = ⟨p, size⟩ :: w.recs ∧ StringInv M (w.after M p m' h') := by
  have hnew : ¬ w.recs.any (·.base = p) = true := by
    intro hany
    obtain ⟨c, hc, hbase⟩ := any_eq_true.mp hany
    have hroom := (hinv.recs c hc).room
    rcases hg.apart c (hinv.recs c hc).granted with h | h <;> simp only at h <;> lia
  have hrecs : (w.after M p m' h').recs = ⟨p, size⟩ :: w.recs := by
    show (if w.recs.any (·.base = p) then _ else _) = _
    have hfind : (M.blocks h').find? (·.base = p) = some ⟨p, size⟩ := by
      rw [hg.blocks]
      exact find?_cons_of_pos (decide_eq_true rfl)
    rw [if_neg hnew, hfind]
    rfl
  refine ⟨hrecs, ?_, fun c hc => ?_⟩
  · show (M.blocks h').Pairwise Block.Apart
    rw [hg.blocks]
    exact pairwise_cons.mpr ⟨fun c hc => (hg.apart c hc).symm, hinv.apart⟩
  · show IsRecord (M.blocks h') m' c
    rw [hrecs] at hc
    rcases mem_cons.mp hc with rfl | hc
    · refine ⟨?_, hg.fits, hlen⟩
      rw [hg.blocks]
      exact mem_cons_self
    · have hrec := hinv.recs c hc
      refine hrec.congr ?_ fun a ha => hg.frame a ((hg.apart c hrec.granted).not_has ha)
      rw [hg.blocks]
      exact mem_cons_of_mem _ hrec.granted

/-- Writes into one record leave the others. -/
theorem StringInv.stays (hb : b ∈ w.recs) (hoff : AgreeOff b w.mem m')
    (hlen : 12 + load32 m' (b.base + 8) ≤ b.size) :
    (w.after M b.base m' w.heap).recs = w.recs ∧ StringInv M (w.after M b.base m' w.heap) := by
  have hrecs : (w.after M b.base m' w.heap).recs = w.recs :=
    if_pos (any_eq_true.mpr ⟨b, hb, decide_eq_true rfl⟩)
  refine ⟨hrecs, hinv.apart, fun c hc => ?_⟩
  rw [hrecs] at hc
  have hrec := hinv.recs c hc
  by_cases hcb : c = b
  · subst hcb
    exact ⟨hrec.granted, hrec.fits, hlen⟩
  · exact hrec.congr hrec.granted fun a ha => hoff a ((hinv.apart_of_ne hb hc hcb).not_has ha)

/-- An append keeps the invariant and does what it owes. -/
theorem StringInv.append {br : Block} (hb : b ∈ w.recs) (hbr : br ∈ w.recs)
    (hroom : AppendRoom w.mem b br.base)
    (heq : strAppendAscii M w.mem w.heap b.base br.base = .ok (p, m', h')) :
    StringInv M (w.after M p m' h') ∧ AppendOk M w (w.after M p m' h') b.base br.base p := by
  have hrec := hinv.recs b hb
  have hrecr := hinv.recs br hbr
  by_cases hstays : load32 w.mem (b.base + 8) + load32 w.mem (br.base + 8) ≤
      appendCapacity w.mem b.base
  · have hapart : br = b ∨ br.Apart b := or_iff_not_imp_left.mpr (hinv.apart_of_ne hb hbr)
    obtain ⟨hp, hheap, hout⟩ := strAppendAscii_stays hroom hrec hrecr hapart hstays heq
    simp only at hp hheap hout
    subst hp hheap
    have hoff : AgreeOff b w.mem m' := by
      rcases hout.block with h | h
      · exact h.2.2
      · exact h.frame
    obtain ⟨hrecs, hinv'⟩ := hinv.stays hb hoff hout.room
    refine ⟨hinv', hout.bytes, ⟨b, hb, rfl, b, hrecs ▸ hb, rfl, hout.sized, Or.inl rfl,
      fun a ha _ => hoff a ha⟩, fun c hc hne a ha => hoff a ?_⟩
    exact (hinv.apart_of_ne hb hc fun hcb => hne (congrArg Block.base hcb)).not_has ha
  · obtain ⟨b', hp, -, hg, hout⟩ := strAppendAscii_moves hroom hrec hrecr
      (Nat.not_le.mp hstays) heq
    simp only at hp hg hout
    subst hp
    obtain ⟨hrecs, hinv'⟩ := hinv.granted hg hout.room
    refine ⟨hinv', hout.bytes, ⟨b, hb, rfl, b', ?_, rfl, hout.sized, Or.inr hg.apart,
      fun a _ ha => hg.frame a ha⟩, fun c hc _ a ha => hg.frame a ?_⟩
    · rw [hrecs]
      exact mem_cons_self
    · exact (hg.apart c (hinv.recs c hc).granted).not_has ha

/-- A call whose outcomes keep the invariant keeps it. -/
theorem step_call {c : StringCall}
    (hok : ∀ p m h, c.run M w.mem w.heap = .ok (p, m, h) → StringInv M (w.after M p m h)) :
    StringInv M (w.step M (.call c)) := by
  show StringInv M (match c.run M w.mem w.heap with | .error _ => w | .ok (p, m, h) => _)
  cases hrun : c.run M w.mem w.heap with
  | error e => exact hinv
  | ok out => exact hok _ _ _ hrun

end

end

end Js2Wasm.Linear
