import Mathlib.Data.Nat.Bitwise
import Mathlib.Data.List.Basic
import Mathlib.Tactic.Ring

/-! # LEB128

The minimal encoding of a natural number in base 128, least significant digit
first, and the usual 32-bit reader: every digit is shifted into a 32-bit
accumulator, a shift count is taken modulo 32, and a byte past the end reads as
zero.  `read_encode` is the round trip for 32-bit values.

A sequence (`IsSequence`) denotes a natural number and, in two's complement, an integer.
`encode` and `encodeSigned` give the shortest sequences of their values
(`encode_shortest`, `encodeSigned_shortest`), and `decodeSigned`, the definition of the
signed integers of a given width, reads every sequence in range (`decodeSigned_append`).
-/
namespace Leb128
open List

/-- The digits of `v`; `fuel` bounds their number. -/
def encodeDigits : Nat → Nat → List UInt8
  | 0, _ => []
  | fuel + 1, v =>
    if v < 128 then [v.toUInt8]
    else (v % 128 + 128).toUInt8 :: encodeDigits fuel (v / 128)

/-- The minimal encoding of `v`. -/
def encode (v : Nat) : List UInt8 := encodeDigits (v + 1) v

/-- Read digits into the accumulator `result`; gives the value and the number of
bytes read. -/
def readDigits : List UInt8 → Nat → Nat → Nat → Nat × Nat
  | [], _, result, size => (result, size + 1)
  | b :: rest, shift, result, size =>
    let result := (result ||| ((b.toNat % 128) <<< (shift % 32))) % 2 ^ 32
    if 128 ≤ b.toNat then readDigits rest (shift + 7) result (size + 1)
    else (result, size + 1)

/-- Read a value: the value and the number of bytes it took. -/
def read (data : List UInt8) : Nat × Nat := readDigits data 0 0 0

variable {fuel v : Nat}

theorem encodeDigits_of_lt (h : v < 128) : encodeDigits (fuel + 1) v = [v.toUInt8] := by
  rw [encodeDigits, if_pos h]

theorem encodeDigits_of_le (h : 128 ≤ v) :
    encodeDigits (fuel + 1) v = (v % 128 + 128).toUInt8 :: encodeDigits fuel (v / 128) := by
  rw [encodeDigits, if_neg (Nat.not_lt.mpr h)]

theorem toUInt8_toNat (h : v < 256) : v.toUInt8.toNat = v :=
  Nat.mod_eq_of_lt h

/-- A digit lands above the bits already read. -/
theorem or_digit {result digit shift : Nat} (hr : result < 2 ^ shift) (hs : shift < 32)
    (hv : result + digit * 2 ^ shift < 2 ^ 32) :
    (result ||| (digit <<< (shift % 32))) % 2 ^ 32 = result + digit * 2 ^ shift := by
  rw [Nat.mod_eq_of_lt hs, Nat.shiftLeft_eq, Nat.lor_comm, Nat.mul_comm digit,
    ← Nat.two_pow_add_eq_or_of_lt hr, Nat.mod_eq_of_lt (by rw [Nat.mul_comm]; lia)]
  ring

/-- A flag is one bit. -/
theorem and_two_pow_eq_zero (n k : Nat) : n &&& 2 ^ k = 0 ↔ n / 2 ^ k % 2 = 0 := by
  rw [Nat.and_two_pow, Nat.testBit_eq_decide_div_mod_eq]
  rcases Nat.mod_two_eq_zero_or_one (n / 2 ^ k) with h | h <;> simp [h]

/-! ### Sequences and what they denote -/

/-- Every byte but the last continues. -/
inductive IsSequence : List UInt8 → Prop
  | last {b : UInt8} : b.toNat < 128 → IsSequence [b]
  | more {b : UInt8} {bs : List UInt8} : 128 ≤ b.toNat → IsSequence bs → IsSequence (b :: bs)

def unsignedValue : List UInt8 → Nat
  | [] => 0
  | b :: bs => b.toNat % 128 + 128 * unsignedValue bs

/-- The sign of a sequence: bit 6 of its last byte. -/
def negative : List UInt8 → Bool
  | [] => false
  | b :: bs => if bs.isEmpty then 64 ≤ b.toNat % 128 else negative bs

/-- The value in two's complement. -/
def signedValue (bs : List UInt8) : Int :=
  unsignedValue bs - if negative bs then 128 ^ bs.length else 0

variable {b : UInt8} {bs : List UInt8}

/-- A sequence of the value `v`, and none is shorter. -/
structure Shortest {α : Type} (value : List UInt8 → α) (bs : List UInt8) (v : α) : Prop where
  sequence : IsSequence bs
  value_eq : value bs = v
  minimal : ∀ bs', IsSequence bs' → value bs' = v → bs.length ≤ bs'.length

theorem IsSequence.ne_nil (h : IsSequence bs) : bs ≠ [] := by
  cases h <;> exact cons_ne_nil _ _

theorem IsSequence.length_pos (h : IsSequence bs) : 0 < bs.length :=
  length_pos_iff.mpr h.ne_nil

theorem unsignedValue_last (h : b.toNat < 128) : unsignedValue [b] = b.toNat := by
  simp [unsignedValue, Nat.mod_eq_of_lt h]

theorem unsignedValue_more (h : 128 ≤ b.toNat) :
    unsignedValue (b :: bs) = b.toNat - 128 + 128 * unsignedValue bs := by
  have hb := UInt8.toNat_lt b
  rw [unsignedValue, Nat.mod_eq_sub_mod h, Nat.mod_eq_of_lt (by omega)]

theorem unsignedValue_lt (bs : List UInt8) : unsignedValue bs < 128 ^ bs.length := by
  induction bs with
  | nil => exact Nat.one_pos
  | cons b bs ih =>
    rw [unsignedValue, length_cons, Nat.pow_succ']
    lia

theorem signedValue_last (h : b.toNat < 128) :
    signedValue [b] = if b.toNat < 64 then (b.toNat : Int) else b.toNat - 128 := by
  rw [signedValue, unsignedValue_last h, negative, Nat.mod_eq_of_lt h]
  by_cases hsmall : b.toNat < 64
  · simp [hsmall, Nat.not_le.mpr hsmall]
  · simp [hsmall, Nat.not_lt.mp hsmall]

theorem signedValue_more (h : 128 ≤ b.toNat) (hbs : bs ≠ []) :
    signedValue (b :: bs) = b.toNat - 128 + 128 * signedValue bs := by
  have hsign : negative (b :: bs) = negative bs := by simp [negative, hbs]
  rw [signedValue, signedValue, unsignedValue_more h, hsign, length_cons]
  have hcast : ((b.toNat - 128 : Nat) : Int) = b.toNat - 128 := Int.ofNat_sub h
  push_cast [hcast]
  split
  all_goals ring

/-- `n` digits hold the integers of `7 * n` bits. -/
theorem signedValue_bounds (h : IsSequence bs) :
    ∃ n, bs.length = n + 1 ∧ -(64 * 128 ^ n) ≤ signedValue bs ∧ signedValue bs < 64 * 128 ^ n := by
  induction h with
  | last hb =>
    refine ⟨0, rfl, ?_⟩
    rw [signedValue_last hb]
    split <;> lia
  | @more b bs hb hbs ih =>
    obtain ⟨n, hn, hlow, hhigh⟩ := ih
    have hlt := UInt8.toNat_lt b
    refine ⟨n + 1, by rw [length_cons, hn], ?_⟩
    rw [signedValue_more hb hbs.ne_nil, pow_succ (128 : Int) n]
    lia

/-! ### The unsigned encoding -/

theorem encodeDigits_fuel (fuel : Nat) :
    ∀ {fuel' v : Nat}, v < fuel → v < fuel' → encodeDigits fuel v = encodeDigits fuel' v := by
  induction fuel with
  | zero => exact fun h => absurd h (Nat.not_lt_zero _)
  | succ fuel ih =>
    intro fuel' v h h'
    obtain ⟨fuel', rfl⟩ := Nat.exists_eq_add_one_of_ne_zero (Nat.ne_zero_of_lt h')
    by_cases hsmall : v < 128
    · rw [encodeDigits_of_lt hsmall, encodeDigits_of_lt hsmall]
    · rw [encodeDigits_of_le (Nat.not_lt.mp hsmall), encodeDigits_of_le (Nat.not_lt.mp hsmall),
        @ih fuel' (v / 128) (by lia) (by lia)]

theorem encode_of_lt (h : v < 128) : encode v = [v.toUInt8] := encodeDigits_of_lt h

theorem encode_of_le (h : 128 ≤ v) : encode v = (v % 128 + 128).toUInt8 :: encode (v / 128) := by
  rw [encode, encodeDigits_of_le h, encode, encodeDigits_fuel v (by lia) (Nat.lt_succ_self _)]

/-- An encoding is a sequence of its value. -/
theorem encode_sequence (v : Nat) : IsSequence (encode v) ∧ unsignedValue (encode v) = v := by
  induction v using Nat.strongRecOn with
  | ind v ih =>
    by_cases hsmall : v < 128
    · have hv : v.toUInt8.toNat = v := toUInt8_toNat (by lia)
      rw [encode_of_lt hsmall, unsignedValue_last (by rwa [hv]), hv]
      exact ⟨.last (by rwa [hv]), rfl⟩
    · have hv : (v % 128 + 128).toUInt8.toNat = v % 128 + 128 := toUInt8_toNat (by lia)
      obtain ⟨hseq, hval⟩ := ih (v / 128) (by lia)
      rw [encode_of_le (Nat.not_lt.mp hsmall), unsignedValue_more (by lia), hv, hval]
      exact ⟨.more (by lia) hseq, by lia⟩

theorem length_encode_le {n : Nat} (h : v < 128 ^ (n + 1)) : (encode v).length ≤ n + 1 := by
  induction n generalizing v with
  | zero => rw [encode_of_lt (by simpa using h), length_singleton]
  | succ n ih =>
    by_cases hsmall : v < 128
    · rw [encode_of_lt hsmall, length_singleton]
      lia
    · rw [encode_of_le (Nat.not_lt.mp hsmall), length_cons]
      exact Nat.succ_le_succ (ih (Nat.div_lt_of_lt_mul (by rwa [← Nat.pow_succ'])))

/-- Reading a sequence on top of what was read before. -/
theorem readDigits_append (h : IsSequence bs) (rest : List UInt8) :
    ∀ {shift result size : Nat}, result < 2 ^ shift → shift + 7 * bs.length ≤ 35 →
      result + unsignedValue bs * 2 ^ shift < 2 ^ 32 →
      readDigits (bs ++ rest) shift result size =
        (result + unsignedValue bs * 2 ^ shift, size + bs.length) := by
  induction h with
  | @last b hb =>
    intro shift result size hr hs hv
    rw [unsignedValue_last hb] at hv ⊢
    rw [singleton_append, readDigits, Nat.mod_eq_of_lt hb, if_neg (Nat.not_le.mpr hb),
      or_digit hr (by rw [length_singleton] at hs; omega) hv]
    rfl
  | @more b bs hb hbs ih =>
    intro shift result size hr hs hv
    have hpow : 2 ^ (shift + 7) = 128 * 2 ^ shift := Nat.add_comm shift 7 ▸ pow_add 2 7 shift
    have hvalue : result + unsignedValue (b :: bs) * 2 ^ shift =
        result + b.toNat % 128 * 2 ^ shift + unsignedValue bs * 2 ^ (shift + 7) := by
      rw [unsignedValue, hpow]
      ring
    have hlow : b.toNat % 128 * 2 ^ shift ≤ 127 * 2 ^ shift := Nat.mul_le_mul_right _ (by lia)
    rw [hvalue] at hv ⊢
    rw [length_cons] at hs ⊢
    rw [cons_append, readDigits, if_pos hb, or_digit hr (by lia) (by lia),
      ih (by rw [hpow]; lia) (by lia) hv, Nat.add_right_comm size]
    rfl

/-- **The round trip.** -/
theorem read_encode (hv : v < 2 ^ 32) (rest : List UInt8) :
    read (encode v ++ rest) = (v, (encode v).length) := by
  obtain ⟨hseq, hval⟩ := encode_sequence v
  have hlen : (encode v).length ≤ 5 := length_encode_le (by lia)
  rw [read, readDigits_append hseq rest Nat.one_pos (by lia) (by rw [hval]; lia), hval]
  simp

/-- **No sequence of the value is shorter.** -/
theorem encode_shortest (v : Nat) : Shortest unsignedValue (encode v) v where
  sequence := (encode_sequence v).1
  value_eq := (encode_sequence v).2
  minimal bs' h hv := by
    obtain ⟨n, hn⟩ := Nat.exists_eq_add_one_of_ne_zero h.length_pos.ne'
    rw [hn]
    exact length_encode_le (hn ▸ hv ▸ unsignedValue_lt bs')

/-! ### The signed encoding -/

/-- The digits of the integer `v`, up to one whose bit 6 is the sign of what is left; `fuel`
bounds their number. -/
def signedDigits : Nat → Int → List UInt8
  | 0, _ => []
  | fuel + 1, v =>
    if -64 ≤ v ∧ v < 64 then [(v % 128).toNat.toUInt8]
    else ((v % 128).toNat + 128).toUInt8 :: signedDigits fuel (v / 128)

/-- The minimal encoding of the integer `v`. -/
def encodeSigned (v : Int) : List UInt8 := signedDigits (v.natAbs + 1) v

theorem signedDigits_eq {fuel : Nat} : ∀ {v : Int}, v.natAbs < fuel →
    signedDigits fuel v = encodeSigned v := by
  induction fuel using Nat.strongRecOn with
  | ind fuel ih =>
    intro v h
    obtain ⟨n, rfl⟩ := Nat.exists_eq_add_one_of_ne_zero (Nat.ne_zero_of_lt h)
    rw [encodeSigned, signedDigits, signedDigits]
    split
    · rfl
    · rw [ih n (by lia) (by lia), ih v.natAbs h (by lia)]

theorem encodeSigned_small {v : Int} (h : -64 ≤ v ∧ v < 64) :
    encodeSigned v = [(v % 128).toNat.toUInt8] := by
  rw [encodeSigned, signedDigits, if_pos h]

theorem encodeSigned_large {v : Int} (h : ¬ (-64 ≤ v ∧ v < 64)) :
    encodeSigned v = ((v % 128).toNat + 128).toUInt8 :: encodeSigned (v / 128) := by
  rw [encodeSigned, signedDigits, if_neg h, signedDigits_eq (by lia)]

theorem encodeSigned_sequence (v : Int) :
    IsSequence (encodeSigned v) ∧ signedValue (encodeSigned v) = v := by
  induction h : v.natAbs using Nat.strongRecOn generalizing v with
  | ind n ih =>
    have hdigit : (v % 128).toNat < 128 := by lia
    by_cases hsmall : -64 ≤ v ∧ v < 64
    · have hv : (v % 128).toNat.toUInt8.toNat = (v % 128).toNat := toUInt8_toNat (by lia)
      rw [encodeSigned_small hsmall, signedValue_last (by rwa [hv]), hv]
      refine ⟨.last (by rwa [hv]), ?_⟩
      split <;> lia
    · have hv : ((v % 128).toNat + 128).toUInt8.toNat = (v % 128).toNat + 128 :=
        toUInt8_toNat (by lia)
      obtain ⟨hseq, hval⟩ := ih (v / 128).natAbs (by lia) (v / 128) rfl
      rw [encodeSigned_large hsmall, signedValue_more (by lia) hseq.ne_nil, hv, hval]
      exact ⟨.more (by lia) hseq, by lia⟩

theorem length_encodeSigned_le {n : Nat} :
    ∀ {v : Int}, -(64 * 128 ^ n) ≤ v → v < 64 * 128 ^ n → (encodeSigned v).length ≤ n + 1 := by
  induction n with
  | zero =>
    intro v hlow hhigh
    rw [encodeSigned_small (by lia), length_singleton]
  | succ n ih =>
    intro v hlow hhigh
    by_cases hsmall : -64 ≤ v ∧ v < 64
    · rw [encodeSigned_small hsmall, length_singleton]
      lia
    · rw [pow_succ (128 : Int) n] at hlow hhigh
      rw [encodeSigned_large hsmall, length_cons]
      exact Nat.succ_le_succ (ih (by lia) (by lia))

/-- **No sequence of the value is shorter.** -/
theorem encodeSigned_shortest (v : Int) : Shortest signedValue (encodeSigned v) v where
  sequence := (encodeSigned_sequence v).1
  value_eq := (encodeSigned_sequence v).2
  minimal bs' h hv := by
    obtain ⟨n, hn, hlow, hhigh⟩ := signedValue_bounds h
    rw [hn]
    exact length_encodeSigned_le (hv ▸ hlow) (hv ▸ hhigh)

/-! ### The signed integers of a width -/

/-- The definition of a signed integer of `width` bits: the value, and the bytes after it. -/
def decodeSigned (width : Nat) : List UInt8 → Option (Int × List UInt8)
  | [] => none
  | b :: rest =>
    let n := b.toNat
    if n < 64 then if n < 2 ^ (width - 1) then some (n, rest) else none
    else if n < 128 then if 128 ≤ n + 2 ^ (width - 1) then some (n - 128, rest) else none
    else if 7 < width then
      (decodeSigned (width - 7) rest).map fun (m, rest) => (128 * m + (n - 128), rest)
    else none

/-- Every sequence in range is read, up to its last byte. -/
theorem decodeSigned_append (h : IsSequence bs) (rest : List UInt8) :
    ∀ width, 7 * (bs.length - 1) < width → -2 ^ (width - 1) ≤ signedValue bs →
      signedValue bs < 2 ^ (width - 1) →
      decodeSigned width (bs ++ rest) = some (signedValue bs, rest) := by
  induction h with
  | @last b hb =>
    intro width _ hlow hhigh
    rw [signedValue_last hb] at hlow hhigh ⊢
    rw [singleton_append, decodeSigned]
    by_cases hsmall : b.toNat < 64
    · rw [if_pos hsmall] at hhigh ⊢
      rw [if_pos hsmall, if_pos (by exact_mod_cast hhigh)]
    · rw [if_neg hsmall] at hlow ⊢
      have hroom : (128 : Int) ≤ b.toNat + 2 ^ (width - 1) := by lia
      rw [if_neg hsmall, if_pos hb, if_pos (by exact_mod_cast hroom)]
  | @more b bs hb hbs ih =>
    intro width hwidth hlow hhigh
    have hpos := hbs.length_pos
    have hlt := UInt8.toNat_lt b
    rw [length_cons] at hwidth
    have hpow : (2 : Int) ^ (width - 1) = 128 * 2 ^ (width - 7 - 1) := by
      rw [show width - 1 = 7 + (width - 7 - 1) by lia, pow_add]
      rfl
    rw [signedValue_more hb hbs.ne_nil] at hlow hhigh ⊢
    rw [hpow] at hlow hhigh
    rw [cons_append, decodeSigned, if_neg (by lia), if_neg (by lia), if_pos (by lia),
      ih (width - 7) (by lia) (by lia) (by lia), Option.map_some, Int.add_comm]

/-- **The round trip of the signed integers of a width.** -/
theorem decodeSigned_encode {width : Nat} {v : Int} (hw : 0 < width)
    (hv : -2 ^ (width - 1) ≤ v ∧ v < 2 ^ (width - 1)) (rest : List UInt8) :
    decodeSigned width (encodeSigned v ++ rest) = some (v, rest) := by
  obtain ⟨n, hn⟩ : ∃ n, n = (width - 1) / 7 := ⟨_, rfl⟩
  have hpow : (2 : Int) ^ (width - 1) ≤ 64 * 128 ^ n :=
    calc (2 : Int) ^ (width - 1) ≤ 2 ^ (6 + 7 * n) := by
          exact_mod_cast Nat.pow_le_pow_right Nat.two_pos (by lia : width - 1 ≤ 6 + 7 * n)
      _ = 64 * 128 ^ n := by
        rw [pow_add, pow_mul]
        rfl
  have hlen : (encodeSigned v).length ≤ n + 1 := length_encodeSigned_le (by lia) (by lia)
  obtain ⟨hseq, hval⟩ := encodeSigned_sequence v
  rw [decodeSigned_append hseq rest width (by lia) (hval.symm ▸ hv.1) (hval.symm ▸ hv.2), hval]

end Leb128
