import Mathlib.Data.List.Basic
import Mathlib.Data.Nat.Bitwise

/-! # Code points in UTF-8 and in UTF-16

A text is a list of code points, surrogates included: in UTF-8 a surrogate takes three
bytes like its neighbours, in UTF-16 it is the code unit itself.  The lead byte of a
sequence tells its length, and a sequence never has more code units than bytes.
-/
namespace Wtf8
open List

/-- A Unicode code point. -/
abbrev CodePoint := Fin 0x110000

/-- The bytes of a code point, as numbers. -/
def utf8Nat (c : Nat) : List Nat :=
  if c < 0x80 then [c]
  else if c < 0x800 then [0xc0 + c / 64, 0x80 + c % 64]
  else if c < 0x10000 then [0xe0 + c / 4096, 0x80 + c / 64 % 64, 0x80 + c % 64]
  else [0xf0 + c / 262144, 0x80 + c / 4096 % 64, 0x80 + c / 64 % 64, 0x80 + c % 64]

def utf8 (c : CodePoint) : List UInt8 := (utf8Nat c).map Nat.toUInt8

/-- The code units of a code point. -/
def utf16 (c : CodePoint) : List Nat :=
  if c.val < 0x10000 then [c.val]
  else [0xd800 + (c.val - 0x10000) / 1024, 0xdc00 + (c.val - 0x10000) % 1024]

/-- The bytes of a text. -/
def bytes (t : List CodePoint) : List UInt8 := t.flatMap utf8

/-- The code units of a text. -/
def units (t : List CodePoint) : List Nat := t.flatMap utf16

theorem bytes_cons (c : CodePoint) (t : List CodePoint) : bytes (c :: t) = utf8 c ++ bytes t := rfl
theorem units_cons (c : CodePoint) (t : List CodePoint) : units (c :: t) = utf16 c ++ units t := rfl

variable {c : CodePoint} {t : List CodePoint}

theorem utf8Nat_lt (c : CodePoint) : ∀ b ∈ utf8Nat c, b < 256 := by
  intro b hb
  unfold utf8Nat at hb
  split at hb
  · rw [mem_singleton.mp hb]
    lia
  · split at hb
    · simp only [mem_cons, not_mem_nil, or_false] at hb
      lia
    · split at hb <;> simp only [mem_cons, not_mem_nil, or_false] at hb <;> lia

/-- The bytes of a code point read back. -/
theorem toNat_utf8 (c : CodePoint) : (utf8 c).map UInt8.toNat = utf8Nat c := by
  rw [utf8, map_map]
  conv_rhs => rw [← map_id (utf8Nat c)]
  refine map_congr_left fun b hb => ?_
  show b.toUInt8.toNat = b
  rw [show b.toUInt8.toNat = b % 256 from UInt8.toNat_ofNat', Nat.mod_eq_of_lt (utf8Nat_lt c b hb)]

theorem length_utf8 (c : CodePoint) : (utf8 c).length = (utf8Nat c).length := length_map _

/-! ### By the size of the code point -/

variable {n : Nat}

theorem utf8Nat_one (h : n < 0x80) : utf8Nat n = [n] := if_pos h

theorem utf8Nat_two (h : ¬ n < 0x80) (h' : n < 0x800) :
    utf8Nat n = [0xc0 + n / 64, 0x80 + n % 64] := by
  rw [utf8Nat, if_neg h, if_pos h']

theorem utf8Nat_three (h : ¬ n < 0x800) (h' : n < 0x10000) :
    utf8Nat n = [0xe0 + n / 4096, 0x80 + n / 64 % 64, 0x80 + n % 64] := by
  rw [utf8Nat, if_neg (by lia), if_neg h, if_pos h']

theorem utf8Nat_four (h : ¬ n < 0x10000) :
    utf8Nat n = [0xf0 + n / 262144, 0x80 + n / 4096 % 64, 0x80 + n / 64 % 64, 0x80 + n % 64] := by
  rw [utf8Nat, if_neg (by lia), if_neg (by lia), if_neg h]

theorem utf16_bmp (h : c.val < 0x10000) : utf16 c = [c.val] := if_pos h

theorem utf16_astral (h : ¬ c.val < 0x10000) :
    utf16 c = [0xd800 + (c.val - 0x10000) / 1024, 0xdc00 + (c.val - 0x10000) % 1024] := if_neg h

theorem length_utf16_le (c : CodePoint) : (utf16 c).length ≤ (utf8 c).length := by
  rw [length_utf8]
  by_cases h : c.val < 0x10000
  · rw [utf16_bmp h]
    unfold utf8Nat
    split
    · exact le_rfl
    · split
      · exact Nat.le_succ _
      · exact Nat.le_add_left _ _
  · rw [utf16_astral h, utf8Nat_four h]
    exact Nat.le_add_left _ _

/-- A text has no more code units than bytes. -/
theorem length_units_le (t : List CodePoint) : (units t).length ≤ (bytes t).length := by
  induction t with
  | nil => exact le_rfl
  | cons c t ih =>
    have hc := length_utf16_le c
    rw [units_cons, bytes_cons, length_append, length_append]
    lia

theorem length_le_bytes (t : List CodePoint) : t.length ≤ (bytes t).length := by
  induction t with
  | nil => exact le_rfl
  | cons c t ih =>
    have hpos : 1 ≤ (utf8 c).length := by
      rw [length_utf8]
      unfold utf8Nat
      split
      · exact le_rfl
      · split
        · exact Nat.le_add_left _ _
        · split <;> exact Nat.le_add_left _ _
    rw [bytes_cons, length_append, length_cons]
    lia

/-! ### ASCII texts -/

/-- Every code point is below 128. -/
def Ascii (t : List CodePoint) : Prop := ∀ c ∈ t, c.val < 0x80

instance (t : List CodePoint) : Decidable (Ascii t) := inferInstanceAs (Decidable (∀ c ∈ t, _))

/-- In an ASCII text the bytes are the code units. -/
theorem bytes_ascii (h : Ascii t) : (bytes t).map UInt8.toNat = units t := by
  induction t with
  | nil => rfl
  | cons c t ih =>
    have hc := h c mem_cons_self
    rw [bytes_cons, units_cons, map_append, toNat_utf8, utf8Nat_one hc,
      utf16_bmp (by lia), ih fun d hd => h d (mem_cons_of_mem _ hd)]

/-- The lead byte of a code point beyond ASCII is at least 128. -/
theorem lead_of_not_ascii (h : ¬ c.val < 0x80) : ∃ b rest, utf8Nat c = b :: rest ∧ 0x80 ≤ b := by
  by_cases h2 : c.val < 0x800
  · exact ⟨_, _, utf8Nat_two h h2, by lia⟩
  · by_cases h3 : c.val < 0x10000
    · exact ⟨_, _, utf8Nat_three h2 h3, by lia⟩
    · exact ⟨_, _, utf8Nat_four h3, by lia⟩

/-- A text is ASCII when all its bytes are below 128. -/
theorem ascii_iff_bytes : Ascii t ↔ ∀ b ∈ bytes t, b.toNat < 0x80 := by
  constructor
  · intro h b hb
    have hb' : b.toNat ∈ units t := bytes_ascii h ▸ mem_map_of_mem hb
    obtain ⟨c, hc, hbc⟩ := mem_flatMap.mp hb'
    have hlt := h c hc
    rw [utf16_bmp (by lia), mem_singleton] at hbc
    lia
  · intro h c hc
    by_contra hlt
    obtain ⟨b, rest, hlead, hb⟩ := lead_of_not_ascii hlt
    have hmem : b ∈ (utf8 c).map UInt8.toNat := by
      rw [toNat_utf8, hlead]
      exact mem_cons_self
    obtain ⟨b', hb', rfl⟩ := mem_map.mp hmem
    have := h b' (mem_flatMap.mpr ⟨c, hc, hb'⟩)
    lia

end Wtf8
