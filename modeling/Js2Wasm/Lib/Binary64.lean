import Mathlib

/-! # Binary64 numbers

A binary64 number is its 64-bit pattern, and the operations are those of the standard
library's model of floating point taken from patterns to patterns.

The magnitude of a finite number is an integer multiple of `2 ^ (-1074)`.  That integer is
`scaled`: a significand below `2 ^ 53` times a power of two, where a significand below
`2 ^ 52` has the power 1 (`Fits`).  Infinity continues the scale with `2 ^ 2098`, so numbers
without a sign compare as their scaled magnitudes do (`compare_scaled`).

Only Mathlib as a whole brings the equations of that model. -/
namespace Binary64

open Float.Model Float.Model.UnpackedFloat

abbrev unpack (x : BitVec 64) : UnpackedFloat := UnpackedFloat.unpack .binary64 x

abbrev pack (f : UnpackedFloat) : BitVec 64 := UnpackedFloat.pack .binary64 f

/-! ### Operations -/

def mul (x y : BitVec 64) : BitVec 64 := pack (UnpackedFloat.mul .binary64 (unpack x) (unpack y))

def sub (x y : BitVec 64) : BitVec 64 := pack (UnpackedFloat.sub .binary64 (unpack x) (unpack y))

def eq (x y : BitVec 64) : Bool := (unpack x).beq (unpack y)

def lt (x y : BitVec 64) : Bool := (unpack x).lt (unpack y)

def le (x y : BitVec 64) : Bool := (unpack x).le (unpack y)

/-- Clear the sign bit, also of a NaN. -/
def abs (x : BitVec 64) : BitVec 64 := x &&& 0x7fffffffffffffff

/-- The first number with the sign bit of the second. -/
def copysign (x y : BitVec 64) : BitVec 64 := abs x ||| y &&& 0x8000000000000000

/-! ### Fields and value -/

def sign (x : BitVec 64) : Sign := .ofBitVec (@unpackSign .binary64 x)

def expo (x : BitVec 64) : Nat := (@unpackExponent .binary64 x).toNat

def frac (x : BitVec 64) : Nat := (@unpackMantissa .binary64 x).toNat

/-- The significand, with the implicit bit of a normal number. -/
def sig (x : BitVec 64) : Nat := if expo x = 0 then frac x else 2 ^ 52 + frac x

/-- The power of two of the significand, counted from the least one. -/
def uexp (x : BitVec 64) : Nat := expo x - 1

def scaled (x : BitVec 64) : Nat := sig x * 2 ^ uexp x

def IsFinite (x : BitVec 64) : Prop := expo x ≠ 2047

instance (x : BitVec 64) : Decidable (IsFinite x) := inferInstanceAs (Decidable (_ ≠ _))

def IsNaN (x : BitVec 64) : Prop := expo x = 2047 ∧ frac x ≠ 0

/-- The number that a finite pattern stands for. -/
def value (x : BitVec 64) : ℚ := (sign x).apply (scaled x) / 2 ^ 1074

/-- The integer part, towards zero. -/
def truncate (q : ℚ) : ℤ := if 0 ≤ q then ⌊q⌋ else ⌈q⌉

section
variable {x y : BitVec 64}

theorem expo_eq (x : BitVec 64) : expo x = x.toNat / 2 ^ 52 % 2 ^ 11 := by
  simp [expo, unpackExponent, Nat.shiftRight_eq_div_pow]

theorem frac_eq (x : BitVec 64) : frac x = x.toNat % 2 ^ 52 := by
  simp [frac, unpackMantissa]

theorem sign_eq (x : BitVec 64) :
    sign x = if x.toNat < 2 ^ 63 then .positive else .negative := by
  have hx : x.toNat < 2 ^ 64 := x.isLt
  have hbit : (@unpackSign .binary64 x).toNat = x.toNat / 2 ^ 63 := by
    simp only [unpackSign, BitVec.toNat_cast, BitVec.extractLsb_toNat, Nat.shiftRight_eq_div_pow]
    exact Nat.mod_eq_of_lt (by lia)
  rw [sign, Sign.ofBitVec]
  refine if_congr ?_ rfl rfl
  rw [← BitVec.toNat_inj, hbit, BitVec.toNat_ofNat]
  lia

theorem expo_lt (x : BitVec 64) : expo x < 2048 := (@unpackExponent .binary64 x).isLt

theorem frac_lt (x : BitVec 64) : frac x < 2 ^ 52 := (@unpackMantissa .binary64 x).isLt

/-- A significand and the power of two it stands at. -/
def Fits (m k : Nat) : Prop := m < 2 ^ 53 ∧ (2 ^ 52 ≤ m ∨ k = 0)

theorem fits_sig (x : BitVec 64) : Fits (sig x) (uexp x) := by
  have := frac_lt x
  rw [Fits, sig, uexp]
  split <;> lia

theorem uexp_le (h : IsFinite x) : uexp x ≤ 2045 := by
  have := expo_lt x
  rw [IsFinite] at h
  rw [uexp]
  lia

theorem IsFinite.not_nan (h : IsFinite x) : ¬ IsNaN x := fun hn => h hn.1

theorem sig_ne_zero (h : scaled x ≠ 0) : sig x ≠ 0 := fun hs => h (by rw [scaled, hs, Nat.zero_mul])

/-- What the library's model makes of a finite pattern. -/
theorem unpack_finite (h : IsFinite x) (hs : scaled x ≠ 0) :
    unpack x = .finite (sign x) (sig x) (uexp x - 1074) (Nat.pos_of_ne_zero (sig_ne_zero hs)) := by
  have hsig := sig_ne_zero hs
  have hE : @unpackExponent .binary64 x ≠ -1#_ := fun he => h (by rw [expo, he]; rfl)
  rw [unpack, UnpackedFloat.unpack, if_neg hE]
  by_cases h0 : @unpackExponent .binary64 x = 0#_
  · have hz : expo x = 0 := by rw [expo, h0]; rfl
    have hM : @unpackMantissa .binary64 x ≠ 0#_ := fun hm => hsig (by
      rw [sig, if_pos hz, frac, hm]; rfl)
    rw [if_pos h0, dif_neg hM]
    congr 1
    · rw [sig, if_pos hz, frac]
    · rw [uexp, hz, h0]; rfl
  · have hz : expo x ≠ 0 := fun hz => h0 (BitVec.eq_of_toNat_eq hz)
    rw [if_neg h0]
    congr 1
    · rw [sig, if_neg hz, frac, BitVec.toNat_append,
        ← Nat.shiftLeft_add_eq_or_of_lt (BitVec.isLt _)]
      rfl
    · have hb : (Format.binary64.exponentBias : Int) = 1023 := rfl
      rw [expo] at hz
      rw [uexp, hb, expo]
      simp only [Nat.cast_ofNat]
      lia

theorem unpack_zero (hs : scaled x = 0) : unpack x = .zero (sign x) := by
  have hsig : sig x = 0 := (Nat.mul_eq_zero.mp hs).resolve_right (by positivity)
  have hz : expo x = 0 := by
    by_contra hz
    rw [sig, if_neg hz] at hsig
    lia
  rw [sig, if_pos hz] at hsig
  have hE : @unpackExponent .binary64 x = 0#_ := BitVec.eq_of_toNat_eq hz
  have hM : @unpackMantissa .binary64 x = 0#_ := BitVec.eq_of_toNat_eq hsig
  rw [unpack, UnpackedFloat.unpack, if_neg (by rw [hE]; decide), if_pos hE, dif_pos hM, sign]

theorem unpack_infinity (h : ¬ IsFinite x) (hn : ¬ IsNaN x) : unpack x = .infinity (sign x) := by
  have he : expo x = 2047 := not_not.mp h
  have hE : @unpackExponent .binary64 x = -1#_ := BitVec.eq_of_toNat_eq he
  have hM : @unpackMantissa .binary64 x = 0#_ :=
    BitVec.eq_of_toNat_eq (not_not.mp fun hf => hn ⟨he, hf⟩)
  rw [unpack, UnpackedFloat.unpack, if_pos hE, if_pos hM, sign]

theorem truncate_div (s : Sign) (n : Nat) {d : Nat} (hd : 0 < d) :
    truncate ((s.apply n : ℤ) / (d : ℚ)) = s.apply (n / d : Nat) := by
  have hfloor : ⌊((n : ℤ) : ℚ) / (d : ℚ)⌋ = (n / d : Nat) := Rat.floor_intCast_div_natCast _ _
  have hpos : (0 : ℚ) ≤ ((n : ℤ) : ℚ) / (d : ℚ) := by positivity
  cases s with
  | positive => rw [Sign.apply, Sign.apply, truncate, if_pos hpos, hfloor]
  | negative =>
    rw [Sign.apply, Sign.apply, truncate, Int.cast_neg, neg_div, Int.ceil_neg, Int.floor_neg,
      hfloor]
    by_cases hle : (0 : ℚ) ≤ -(((n : ℤ) : ℚ) / (d : ℚ))
    · have h0 : ((n : ℤ) : ℚ) / (d : ℚ) = 0 := le_antisymm (neg_nonneg.mp hle) hpos
      rw [if_pos hle, h0, Int.ceil_zero, ← hfloor, h0, Int.floor_zero]
    · rw [if_neg hle]

/-- The integer part of a number is that of its magnitude, with its sign. -/
theorem truncate_value (x : BitVec 64) :
    truncate (value x) = (sign x).apply (scaled x / 2 ^ 1074 : Nat) := by
  have h := truncate_div (sign x) (scaled x) (d := 2 ^ 1074) (by positivity)
  rwa [Nat.cast_pow, Nat.cast_ofNat] at h

section
variable (h : x.toNat % 2 ^ 63 = y.toNat % 2 ^ 63)
include h

theorem expo_congr : expo x = expo y := by
  rw [expo_eq, expo_eq]
  omega

theorem frac_congr : frac x = frac y := by
  rw [frac_eq, frac_eq]
  lia

theorem scaled_congr : scaled x = scaled y := by
  rw [scaled, scaled, sig, sig, uexp, uexp, expo_congr h, frac_congr h]

end

theorem toNat_abs (x : BitVec 64) : (abs x).toNat = x.toNat % 2 ^ 63 := by
  rw [abs, BitVec.toNat_and]
  exact Nat.and_two_pow_sub_one_eq_mod x.toNat 63

theorem toNat_abs_mod (x : BitVec 64) : (abs x).toNat % 2 ^ 63 = x.toNat % 2 ^ 63 := by
  rw [toNat_abs, Nat.mod_mod]

theorem toNat_copysign (x y : BitVec 64) :
    (copysign x y).toNat = y.toNat / 2 ^ 63 * 2 ^ 63 + x.toNat % 2 ^ 63 := by
  have hy : (y &&& 0x8000000000000000).toNat = y.toNat / 2 ^ 63 * 2 ^ 63 := by
    have hlt : y.toNat < 2 ^ 64 := y.isLt
    rw [BitVec.toNat_and]
    refine (Nat.and_two_pow y.toNat 63).trans ?_
    rw [Nat.testBit_eq_decide_div_mod_eq]
    rcases (by lia : y.toNat / 2 ^ 63 = 0 ∨ y.toNat / 2 ^ 63 = 1) with h | h <;> rw [h] <;> rfl
  rw [copysign, BitVec.toNat_or, toNat_abs, hy, Nat.or_comm, Nat.mul_comm]
  exact (Nat.two_pow_add_eq_or_of_lt (Nat.mod_lt _ (by decide)) _).symm

theorem sign_abs (x : BitVec 64) : sign (abs x) = .positive := by
  rw [sign_eq, toNat_abs, if_pos (Nat.mod_lt _ (by decide))]

theorem sign_copysign (x y : BitVec 64) : sign (copysign x y) = sign y := by
  rw [sign_eq, sign_eq, toNat_copysign]
  refine if_congr ?_ rfl rfl
  lia

theorem toNat_copysign_mod (x y : BitVec 64) :
    (copysign x y).toNat % 2 ^ 63 = x.toNat % 2 ^ 63 := by
  rw [toNat_copysign]
  lia

/-! ### Comparison -/

variable {s : Sign} {m j k m' n k' : Nat} {e : Int}

theorem Fits.lt_of_lt (h : Fits m k) (h' : Fits m' k') (hk : k < k') : m * 2 ^ k < m' * 2 ^ k' := by
  have hm' : 2 ^ 52 ≤ m' := h'.2.resolve_right (by lia)
  obtain ⟨j, rfl⟩ := Nat.exists_eq_add_of_lt hk
  calc m * 2 ^ k < 2 ^ 53 * 2 ^ k := (Nat.mul_lt_mul_right (by positivity)).mpr h.1
    _ = 2 ^ 52 * 2 ^ (k + 1) := by ring
    _ ≤ m' * 2 ^ (k + j + 1) :=
      Nat.mul_le_mul hm' (Nat.pow_le_pow_right (by decide) (by lia))

/-- Exponents first, then significands. -/
theorem Fits.compare (h : Fits m k) (h' : Fits m' k') :
    (Ord.compare (k - 1074 : Int) (k' - 1074)).then (Ord.compare m m') =
      Ord.compare (m * 2 ^ k) (m' * 2 ^ k') := by
  rcases Nat.lt_trichotomy k k' with hk | rfl | hk
  · rw [compare_lt_iff_lt.mpr (by lia : (k - 1074 : Int) < k' - 1074),
      compare_lt_iff_lt.mpr (h.lt_of_lt h' hk)]
    rfl
  · rw [compare_eq_iff_eq.mpr (rfl : (k - 1074 : Int) = k - 1074)]
    have hpos : 0 < 2 ^ k := by positivity
    rcases Nat.lt_trichotomy m m' with hm | rfl | hm
    · rw [compare_lt_iff_lt.mpr hm, compare_lt_iff_lt.mpr ((Nat.mul_lt_mul_right hpos).mpr hm)]
      rfl
    · rw [compare_eq_iff_eq.mpr (rfl : m = m), compare_eq_iff_eq.mpr rfl]
      rfl
    · rw [compare_gt_iff_gt.mpr hm, compare_gt_iff_gt.mpr ((Nat.mul_lt_mul_right hpos).mpr hm)]
      rfl
  · rw [compare_gt_iff_gt.mpr (by lia : (k' - 1074 : Int) < k - 1074),
      compare_gt_iff_gt.mpr (h'.lt_of_lt h hk)]
    rfl

/-- Not a NaN, and without a sign. -/
structure IsMagnitude (x : BitVec 64) : Prop where
  sign : sign x = .positive
  not_nan : ¬ IsNaN x

/-- The scaled magnitude of infinity, `2 ^ 2098`. -/
def limit : Nat := 2 ^ 52 * 2 ^ 2046

theorem limit_le (hm : 2 ^ 52 ≤ m) (hk : 2046 ≤ k) : limit ≤ m * 2 ^ k := by
  rw [limit]
  gcongr
  decide

theorem scaled_infinity (h : ¬ IsFinite x) (hn : ¬ IsNaN x) : scaled x = limit := by
  have he : expo x = 2047 := not_not.mp h
  have hf : frac x = 0 := not_not.mp fun hf => hn ⟨he, hf⟩
  rw [scaled, sig, uexp, he, hf, if_neg (by decide), limit, Nat.add_zero]

theorem Fits.lt_limit (h : Fits m k) (hk : k ≤ 2045) : m * 2 ^ k < limit :=
  h.lt_of_lt (show Fits (2 ^ 52) 2046 from ⟨by decide, .inl .refl⟩) (by lia)

theorem scaled_lt (h : IsFinite x) : scaled x < limit := (fits_sig x).lt_limit (uexp_le h)

section
variable (hx : IsMagnitude x) (hy : IsMagnitude y)
include hx hy

theorem compare_scaled :
    (unpack x).compare (unpack y) = some (Ord.compare (scaled x) (scaled y)) := by
  by_cases hfx : IsFinite x
  · by_cases hfy : IsFinite y
    · rcases eq_or_ne (scaled x) 0 with h0 | h0
      · rcases eq_or_ne (scaled y) 0 with h0' | h0'
        · rw [unpack_zero h0, unpack_zero h0', h0, h0']
          rfl
        · rw [unpack_zero h0, unpack_finite hfy h0', hy.sign, h0,
            compare_lt_iff_lt.mpr (Nat.pos_of_ne_zero h0')]
          rfl
      · rcases eq_or_ne (scaled y) 0 with h0' | h0'
        · rw [unpack_zero h0', unpack_finite hfx h0, hx.sign, h0',
            compare_gt_iff_gt.mpr (Nat.pos_of_ne_zero h0)]
          rfl
        · rw [unpack_finite hfx h0, unpack_finite hfy h0', hx.sign, hy.sign]
          exact congrArg some ((fits_sig x).compare (fits_sig y))
    · have hlt := scaled_lt hfx
      rw [unpack_infinity hfy hy.not_nan, hy.sign, scaled_infinity hfy hy.not_nan,
        compare_lt_iff_lt.mpr hlt]
      rcases eq_or_ne (scaled x) 0 with h0 | h0
      · rw [unpack_zero h0]
        rfl
      · rw [unpack_finite hfx h0, hx.sign]
        rfl
  · rw [unpack_infinity hfx hx.not_nan, hx.sign, scaled_infinity hfx hx.not_nan]
    by_cases hfy : IsFinite y
    · rw [compare_gt_iff_gt.mpr (scaled_lt hfy)]
      rcases eq_or_ne (scaled y) 0 with h0 | h0
      · rw [unpack_zero h0]
        rfl
      · rw [unpack_finite hfy h0, hy.sign]
        rfl
    · rw [unpack_infinity hfy hy.not_nan, hy.sign, scaled_infinity hfy hy.not_nan,
        compare_eq_iff_eq.mpr rfl]
      rfl

theorem lt_iff : lt x y ↔ scaled x < scaled y := by
  rw [lt, UnpackedFloat.lt, compare_scaled hx hy, ← compare_lt_iff_lt]
  simp

theorem le_iff : le x y ↔ scaled x ≤ scaled y := by
  rw [le, UnpackedFloat.le, compare_scaled hx hy, Option.any_some, ← compare_le_iff_le,
    Ordering.isLE_iff_ne_gt]

theorem eq_iff : eq x y ↔ scaled x = scaled y := by
  rw [eq, UnpackedFloat.beq, compare_scaled hx hy, ← compare_eq_iff_eq]
  simp

end

/-- A finite number is equal to itself. -/
theorem eq_of_isFinite (h : IsFinite x) : eq x x = true := by
  rw [eq, UnpackedFloat.beq]
  rcases eq_or_ne (scaled x) 0 with h0 | h0
  · rw [unpack_zero h0]
    rfl
  · have hcmp : (Ord.compare (uexp x - 1074 : Int) (uexp x - 1074)).then
        (Ord.compare (sig x) (sig x)) = .eq := by
      rw [compare_eq_iff_eq.mpr rfl, compare_eq_iff_eq.mpr rfl]
      rfl
    rw [unpack_finite h h0]
    cases sign x <;> simp only [UnpackedFloat.compare, hcmp] <;> rfl

/-- A number other than zero is not equal to zero. -/
theorem eq_zero (h : IsFinite x) (h0 : scaled x ≠ 0) : eq x 0#64 = false := by
  have hz : unpack 0#64 = .zero .positive := rfl
  rw [eq, UnpackedFloat.beq, hz, unpack_finite h h0]
  cases sign x <;> rfl

/-! ### Results that are numbers of the format -/

/-- A finite number with a given sign and scaled magnitude. -/
structure Is (s : Sign) (n : Nat) (x : BitVec 64) : Prop where
  finite : IsFinite x
  sign : sign x = s
  scaled : scaled x = n

theorem Fits.log2 (h : Fits m k) (hm : m ≠ 0) : m.log2 ≤ 52 ∧ (m.log2 = 52 ∨ k = 0) := by
  have hlt : m.log2 < 53 := (Nat.log2_lt hm).mpr h.1
  refine ⟨by lia, h.2.imp_left fun hle => ?_⟩
  have := (Nat.le_log2 hm).mpr hle
  lia

/-- A significand below `2 ^ 53` can be shifted into place. -/
theorem exists_fits {m k : Nat} (hm : m < 2 ^ 53) :
    ∃ m' k', k' ≤ k ∧ Fits m' k' ∧ m * 2 ^ k = m' * 2 ^ k' := by
  induction k generalizing m with
  | zero => exact ⟨m, 0, le_rfl, ⟨hm, .inr rfl⟩, rfl⟩
  | succ k ih =>
    rcases Nat.lt_or_ge m (2 ^ 52) with h | h
    · obtain ⟨m', k', hk, hf, he⟩ := @ih (2 * m) (by lia)
      exact ⟨m', k', by lia, hf, by rw [← he]; ring⟩
    · exact ⟨m, k + 1, le_rfl, ⟨hm, .inl h⟩, rfl⟩

theorem sign_packComponents (s : Sign) (e : BitVec 11) (m : BitVec 52) :
    sign (packComponents .binary64 s e m) = s := by
  have hbit : @unpackSign .binary64 (packComponents .binary64 s e m) = s.toBitVec := by
    simp only [unpackSign, packComponents, BitVec.extractLsb]
    rw [BitVec.extractLsb'_append_eq_of_le (by decide),
      BitVec.extractLsb'_append_eq_of_le (by decide)]
    cases s <;> rfl
  rw [sign, hbit]
  cases s <;> rfl

theorem expo_packComponents (s : Sign) (e : BitVec 11) (m : BitVec 52) :
    expo (packComponents .binary64 s e m) = e.toNat := by
  rw [expo, unpackExponent_packComponents]

theorem frac_packComponents (s : Sign) (e : BitVec 11) (m : BitVec 52) :
    frac (packComponents .binary64 s e m) = m.toNat := by
  rw [frac, unpackMantissa_packComponents]

theorem is_zero (s : Sign) : Is s 0 (pack (.zero s)) where
  finite := by cases s <;> decide
  sign := by cases s <;> rfl
  scaled := by cases s <;> decide

theorem biased (k : Nat) : ((k - 1074 : Int) + Format.binary64.exponentBias +
    Format.binary64.mantissaBitsWithoutImplicit).toNat = k + 1 := by
  change ((k - 1074 : Int) + (1023 : Nat) + (52 : Nat)).toNat = k + 1
  lia

theorem is_pack {s : Sign} {m k : Nat} {hm : 0 < m} (h : Fits m k) (hk : k ≤ 2045) :
    Is s (m * 2 ^ k) (pack (.finite s m (k - 1074) hm)) := by
  have hlog := h.log2 (by lia)
  rw [pack, UnpackedFloat.pack]
  simp only [biased k]
  rw [if_neg (by lia)]
  by_cases hn : m.log2 = 52
  · have hle : 2 ^ 52 ≤ m := hn ▸ Nat.log2_self_le (by lia)
    have he : (BitVec.ofNat 11 (k + 1)).toNat = k + 1 := by
      rw [BitVec.toNat_ofNat]
      lia
    have hf : (BitVec.ofNat 52 m).toNat = m - 2 ^ 52 := by
      have := h.1
      rw [BitVec.toNat_ofNat]
      lia
    rw [if_pos (by rw [hn]; rfl)]
    refine ⟨?_, sign_packComponents .., ?_⟩
    · rw [IsFinite, expo_packComponents, he]
      lia
    · rw [scaled, sig, uexp, expo_packComponents, frac_packComponents, he, hf,
        if_neg (by lia), Nat.add_sub_cancel, Nat.add_sub_cancel' hle]
  · have hk0 : k = 0 := hlog.2.resolve_left hn
    have hlt : m < 2 ^ 52 := (Nat.log2_lt (by lia)).mp (by lia)
    have hf : (BitVec.ofNat 52 m).toNat = m := by
      rw [BitVec.toNat_ofNat]
      lia
    rw [if_neg (fun he => hn (by simpa [Format.mantissaBits] using he))]
    refine ⟨?_, sign_packComponents .., ?_⟩
    · rw [IsFinite, expo_packComponents]
      decide
    · rw [scaled, sig, uexp, expo_packComponents, frac_packComponents, hf, hk0]
      rfl

theorem pack_overflow {hm : 0 < m} (hk : 2046 ≤ k) :
    pack (.finite s m (k - 1074) hm) = packedInfinity .binary64 s := by
  rw [pack, UnpackedFloat.pack]
  simp only [biased k]
  rw [if_pos (by lia)]

/-! ### Rounding what needs none -/

theorem targetExponent_fits (h : Fits m k) (hm : m ≠ 0) :
    Format.binary64.targetExponent (totalExponent m (k - 1074)) = k - 1074 := by
  have hlog := h.log2 hm
  have hbits : (Format.binary64.mantissaBits : Int) = 53 := rfl
  have hmin : Format.binary64.minExponent = -1074 := rfl
  rw [Format.targetExponent, totalExponent, hbits, hmin]
  lia

theorem shiftRightOne_repeat (m j : Nat) :
    j.repeat ExtendedMantissa.shiftRightOne ⟨m * 2 ^ j, false, false⟩ = ⟨m, false, false⟩ := by
  induction j generalizing m with
  | zero => rw [Nat.pow_zero, Nat.mul_one]; rfl
  | succ j ih =>
    rw [Nat.repeat, show m * 2 ^ (j + 1) = m * 2 * 2 ^ j by ring, ih]
    simp [ExtendedMantissa.shiftRightOne]

theorem totalExponent_mul_pow (hm : m ≠ 0) (e : Int) (j : Nat) :
    totalExponent (m * 2 ^ j) (e - j) = totalExponent m e := by
  have hlog : (m * 2 ^ j).log2 = m.log2 + j := by
    rw [Nat.log2_eq_iff (by positivity), Nat.pow_add, Nat.pow_add, Nat.pow_add]
    have h1 := Nat.log2_self_le hm
    have h2 : m < 2 ^ (m.log2 + 1) := Nat.lt_log2_self
    refine ⟨Nat.mul_le_mul_right _ h1, ?_⟩
    calc m * 2 ^ j < 2 ^ (m.log2 + 1) * 2 ^ j := (Nat.mul_lt_mul_right (by positivity)).mpr h2
      _ = 2 ^ m.log2 * 2 ^ j * 2 ^ 1 := by ring
  rw [totalExponent, totalExponent, hlog]
  push_cast
  ring

/-- Zeros below the significand are shifted out. -/
theorem roundWithAccuracy_exact (h : Fits m k) (hm : 0 < m) :
    roundWithAccuracy .binary64 s (m * 2 ^ j) (k - 1074 - j) .exact =
      .finite s m (k - 1074) hm := by
  have h1 : shiftToTargetExponent .binary64 (m * 2 ^ j) (k - 1074 - j) .exact =
      (⟨m, false, false⟩, (k - 1074 : Int)) := by
    rw [shiftToTargetExponent, totalExponent_mul_pow (by lia), targetExponent_fits h (by lia),
      shiftToExponent]
    simp only [sub_sub_cancel, Int.toNat_natCast, sub_add_cancel, Prod.mk.injEq, and_true]
    exact shiftRightOne_repeat m j
  have h2 : shiftToTargetExponent .binary64 m (k - 1074) .exact =
      (⟨m, false, false⟩, (k - 1074 : Int)) := by
    rw [shiftToTargetExponent, targetExponent_fits h (by lia), shiftToExponent, sub_self]
    rw [Int.toNat_zero, Nat.cast_zero, add_zero]
    rfl
  rw [roundWithAccuracy, h1]
  dsimp only [ExtendedMantissa.roundedMantissa, ExtendedMantissa.accuracy,
    Accuracy.roundToNearestEven]
  rw [h2]
  exact dif_neg hm.ne'

/-- The form in which an operation hands over an exact result. -/
theorem is_round {M : Nat} (h : Fits m k) (hm : 0 < m) (hk : k ≤ 2045) (hM : M = m * 2 ^ j)
    (he : e = k - 1074 - j) (hn : n = m * 2 ^ k) :
    Is s n (pack (roundWithAccuracy .binary64 s M e .exact)) := by
  rw [hM, he, hn, roundWithAccuracy_exact h hm]
  exact is_pack h hk

/-! ### Doubling and halving -/

/-- `2.0` -/
def two : BitVec 64 := 0x4000000000000000

/-- `0.5` -/
def half : BitVec 64 := 0x3fe0000000000000

theorem unpack_two : unpack two = .finite .positive (2 ^ 52) (-51) (by decide) := rfl

theorem unpack_half : unpack half = .finite .positive (2 ^ 52) (-53) (by decide) := rfl

theorem is_two : Is .positive (2 ^ 52 * 2 ^ 1023) two where
  finite := by decide +kernel
  sign := rfl
  scaled := by
    have he : expo two = 1024 := by decide +kernel
    have hf : frac two = 0 := by decide +kernel
    rw [scaled, sig, uexp, he, hf, if_neg (by decide), Nat.add_zero]

theorem is_half_one : Is .positive (2 ^ 52 * 2 ^ 1021) half where
  finite := by decide +kernel
  sign := rfl
  scaled := by
    have he : expo half = 1022 := by decide +kernel
    have hf : frac half = 0 := by decide +kernel
    rw [scaled, sig, uexp, he, hf, if_neg (by decide), Nat.add_zero]

theorem value_two : value two = 2 := by
  have hpow : (2 ^ 1074 : ℚ) ≠ 0 := by positivity
  rw [value, is_two.sign, is_two.scaled, Sign.apply, div_eq_iff hpow, Int.cast_natCast,
    Nat.cast_mul, Nat.cast_pow, Nat.cast_pow, Nat.cast_ofNat, ← pow_add, ← pow_succ']

theorem value_half : value half = 1 / 2 := by
  have hpow : (2 ^ 1074 : ℚ) ≠ 0 := by positivity
  rw [value, is_half_one.sign, is_half_one.scaled, Sign.apply, div_eq_iff hpow, Int.cast_natCast,
    Nat.cast_mul, Nat.cast_pow, Nat.cast_pow, Nat.cast_ofNat, ← pow_add, one_div,
    eq_inv_mul_iff_mul_eq₀ two_ne_zero, ← pow_succ']

theorem sign_mul_positive (s : Sign) : s * .positive = s := by cases s <;> rfl

theorem mul_two (h : IsFinite x) (hs : scaled x ≠ 0) :
    mul x two = pack (roundWithAccuracy .binary64 (sign x) (sig x * 2 ^ 52)
      (uexp x - 1074 + -51) .exact) := by
  rw [mul, unpack_two, unpack_finite h hs, UnpackedFloat.mul, sign_mul_positive]

theorem mul_half (h : IsFinite x) (hs : scaled x ≠ 0) :
    mul x half = pack (roundWithAccuracy .binary64 (sign x) (sig x * 2 ^ 52)
      (uexp x - 1074 + -53) .exact) := by
  rw [mul, unpack_half, unpack_finite h hs, UnpackedFloat.mul, sign_mul_positive]

theorem uexp_eq_zero (h : sig x < 2 ^ 52) : uexp x = 0 := (fits_sig x).2.resolve_left (by lia)

/-- Doubling is exact below the overflow. -/
theorem is_double (h : IsFinite x) (hn : scaled x ≠ 0) (hlt : 2 * scaled x < limit) :
    Is (sign x) (2 * scaled x) (mul x two) := by
  have hsig := Nat.pos_of_ne_zero (sig_ne_zero hn)
  rw [mul_two h hn]
  rcases Nat.lt_or_ge (sig x) (2 ^ 52) with h52 | h52
  · have hk := uexp_eq_zero h52
    refine is_round (m := 2 * sig x) (k := 0) (j := 51) ⟨by lia, .inr rfl⟩ (by lia)
      (by lia) (by ring) ?_ ?_
    · rw [hk]
      rfl
    · rw [scaled, hk]
      ring
  · have hk : uexp x + 1 ≤ 2045 := by
      by_contra hk
      have : limit ≤ 2 * scaled x := by
        calc limit ≤ sig x * 2 ^ (uexp x + 1) := limit_le h52 (by lia)
          _ = 2 * scaled x := by rw [scaled]; ring
      lia
    refine is_round (m := sig x) (k := uexp x + 1) (j := 52) ⟨(fits_sig x).1, .inl h52⟩ hsig hk
      rfl ?_ ?_
    · push_cast
      ring
    · rw [scaled]
      ring

/-- Past it, doubling gives infinity. -/
theorem double_overflow (h : IsFinite x) (hle : limit ≤ 2 * scaled x) :
    mul x two = packedInfinity .binary64 (sign x) := by
  have hn : scaled x ≠ 0 := by
    intro h0
    have := scaled_lt h
    lia
  have hk : uexp x = 2045 ∧ 2 ^ 52 ≤ sig x := by
    have hle' := uexp_le h
    have hlt := (fits_sig x).1
    by_contra hk
    have hfits : ∃ m k, Fits m k ∧ k ≤ 2045 ∧ 2 * scaled x = m * 2 ^ k := by
      rcases Nat.lt_or_ge (sig x) (2 ^ 52) with h52 | h52
      · refine ⟨2 * sig x, 0, ⟨by lia, .inr rfl⟩, by lia, ?_⟩
        rw [scaled, uexp_eq_zero h52]
        ring
      · refine ⟨sig x, uexp x + 1, ⟨hlt, .inl h52⟩, by lia, ?_⟩
        rw [scaled]
        ring
    obtain ⟨m, k, hf, hk, he⟩ := hfits
    have := hf.lt_limit hk
    lia
  rw [mul_two h hn, show (uexp x - 1074 + -51 : Int) = (2046 : Nat) - 1074 - (52 : Nat) by
    rw [hk.1]; rfl, roundWithAccuracy_exact ⟨(fits_sig x).1, .inl hk.2⟩
      (Nat.pos_of_ne_zero (sig_ne_zero hn)), pack_overflow .refl]

/-- Halving an even multiple is exact. -/
theorem is_half (h : IsFinite x) (hn : n ≠ 0) (he : scaled x = 2 * n) :
    Is (sign x) n (mul x half) := by
  have hs : scaled x ≠ 0 := by lia
  have hsig := Nat.pos_of_ne_zero (sig_ne_zero hs)
  rw [mul_half h hs]
  rcases Nat.eq_zero_or_pos (uexp x) with hk | hk
  · rw [scaled, hk, Nat.pow_zero, Nat.mul_one] at he
    have := (fits_sig x).1
    refine is_round (m := n) (k := 0) (j := 53) ⟨by lia, .inr rfl⟩ (by lia) (by lia)
      (by rw [he]; ring) ?_ (by ring)
    rw [hk]
    rfl
  · obtain ⟨k, hk'⟩ := Nat.exists_eq_add_of_lt hk
    have h52 := (fits_sig x).2.resolve_right (by lia)
    have hle := uexp_le h
    refine is_round (m := sig x) (k := k) (j := 52) ⟨(fits_sig x).1, .inl h52⟩ hsig (by lia)
      rfl ?_ ?_
    · rw [hk']
      push_cast
      ring
    · have : 2 * n = 2 * (sig x * 2 ^ k) := by
        rw [← he, scaled, hk']
        ring
      lia

theorem targetExponent_least (h : m.log2 + e ≤ -1022) :
    Format.binary64.targetExponent (totalExponent m e) = -1074 := by
  have hbits : (Format.binary64.mantissaBits : Int) = 53 := rfl
  have hmin : Format.binary64.minExponent = -1074 := rfl
  rw [Format.targetExponent, totalExponent, hbits, hmin]
  lia

/-- Halving an odd multiple rounds to an even one. -/
theorem round_half {q : Nat} (hq : q < 2 ^ 52) :
    Is s (q + q % 2)
      (pack (roundWithAccuracy .binary64 s ((2 * q + 1) * 2 ^ 52) (-1127) .exact)) := by
  have hlog : ((2 * q + 1) * 2 ^ 52).log2 < 105 := (Nat.log2_lt (by lia)).mpr (by lia)
  have hlog' : (q + q % 2).log2 < 53 := by
    rcases Nat.eq_zero_or_pos (q + q % 2) with h0 | h0
    · rw [h0]
      decide
    · exact (Nat.log2_lt (by lia)).mpr (by lia)
  have h1 : shiftToTargetExponent .binary64 ((2 * q + 1) * 2 ^ 52) (-1127) .exact =
      (⟨q, true, false⟩, (-1074 : Int)) := by
    rw [shiftToTargetExponent, targetExponent_least (by lia), shiftToExponent]
    refine Prod.ext ?_ rfl
    change ExtendedMantissa.shiftRightOne
      ((52 : Nat).repeat ExtendedMantissa.shiftRightOne ⟨(2 * q + 1) * 2 ^ 52, false, false⟩) = _
    rw [shiftRightOne_repeat, ExtendedMantissa.shiftRightOne]
    simp only [ExtendedMantissa.mk.injEq, bne_iff_ne, Bool.or_self, and_true]
    lia
  have h2 : shiftToTargetExponent .binary64 (q + q % 2) (-1074) .exact =
      (⟨q + q % 2, false, false⟩, (-1074 : Int)) := by
    rw [shiftToTargetExponent, targetExponent_least (by lia), shiftToExponent]
    rfl
  rw [roundWithAccuracy, h1]
  dsimp only [ExtendedMantissa.roundedMantissa, ExtendedMantissa.accuracy,
    Accuracy.roundToNearestEven]
  rw [h2]
  dsimp only
  by_cases h0 : q + q % 2 = 0
  · rw [dif_pos h0, h0]
    exact is_zero s
  · rw [dif_neg h0]
    have hfits : Fits (q + q % 2) 0 := ⟨by lia, .inr rfl⟩
    have := @is_pack s _ _ (Nat.pos_of_ne_zero h0) hfits (by lia)
    rwa [Nat.pow_zero, Nat.mul_one] at this

/-- Halving, exact or not, makes a number smaller. -/
theorem half_lt (h : IsFinite x) (hs : scaled x ≠ 0) :
    ∃ n, n < scaled x ∧ Is (sign x) n (mul x half) := by
  by_cases hpar : scaled x % 2 = 0
  · exact ⟨scaled x / 2, by lia, is_half h (by lia) (by lia)⟩
  · have hk : uexp x = 0 := by
      by_contra hk
      obtain ⟨k, hk⟩ := Nat.exists_eq_succ_of_ne_zero hk
      refine hpar ?_
      rw [scaled, hk, Nat.pow_succ, ← Nat.mul_assoc]
      exact Nat.mul_mod_left _ _
    have hsig : scaled x = sig x := by rw [scaled, hk, Nat.pow_zero, Nat.mul_one]
    obtain ⟨q, hq⟩ : ∃ q, sig x = 2 * q + 1 := ⟨sig x / 2, by lia⟩
    have := (fits_sig x).1
    refine ⟨q + q % 2, by lia, ?_⟩
    rw [mul_half h hs, hk, hq]
    exact round_half (by lia)

/-! ### Subtraction -/

theorem decreaseExponent_eq (m : Nat) (k j : Nat) :
    decreaseExponent m (k + j - 1074) (k - 1074) = (m * 2 ^ j, (k - 1074 : Int)) := by
  have hj : ((k + j - 1074 : Int) - (k - 1074)).toNat = j := by lia
  rw [decreaseExponent, hj, Nat.shiftLeft_eq]
  exact Prod.ext rfl (by dsimp only; lia)

theorem decreaseExponent_of_le {e' : Int} (h : e ≤ e') : decreaseExponent m e e' = (m, e) := by
  have hj : (e - e').toNat = 0 := by lia
  rw [decreaseExponent, hj, Nat.shiftLeft_zero]
  exact Prod.ext rfl (by dsimp only; lia)

/-- Rounding a number of the format, from whichever exponent it is given at. -/
theorem is_round_of_eq {s : Sign} {M K m k : Nat} (h : Fits m k) (hm : 0 < m) (hk : k ≤ 2045)
    (he : M * 2 ^ K = m * 2 ^ k) :
    Is s (m * 2 ^ k) (pack (UnpackedFloat.round .binary64 s M (K - 1074))) := by
  rcases Nat.le_total K k with hle | hle
  · obtain ⟨j, rfl⟩ := Nat.exists_eq_add_of_le hle
    have hM : M = m * 2 ^ j := by
      refine Nat.eq_of_mul_eq_mul_right (show 0 < 2 ^ K by positivity) ?_
      rw [he]
      ring
    rw [UnpackedFloat.round, hM,
      show (K - 1074 : Int) = (K + j : Nat) - 1074 - j by push_cast; ring,
      totalExponent_mul_pow (by lia), targetExponent_fits h (by lia),
      decreaseExponent_of_le (by lia)]
    exact is_round h hm hk rfl rfl rfl
  · obtain ⟨j, rfl⟩ := Nat.exists_eq_add_of_le hle
    have hM : m = M * 2 ^ j := by
      refine Nat.eq_of_mul_eq_mul_right (show 0 < 2 ^ k by positivity) ?_
      rw [← he]
      ring
    have hM0 : M ≠ 0 := by
      rintro rfl
      lia
    have ht : Format.binary64.targetExponent (totalExponent M ((k + j : Nat) - 1074)) =
        k - 1074 := by
      rw [← totalExponent_mul_pow hM0 _ j, ← hM, ← targetExponent_fits h (by lia)]
      congr 2
      push_cast
      ring
    have hd := decreaseExponent_eq M k j
    rw [← hM] at hd
    rw [UnpackedFloat.round, ht, Nat.cast_add, hd]
    refine is_round h hm hk (j := 0) (by rw [Nat.pow_zero, Nat.mul_one]) ?_ rfl
    rw [Nat.cast_zero, sub_zero]

section
variable (hx : IsFinite x) (hy : IsFinite y) (hsx : sign x = .positive) (hsy : sign y = .positive)
include hx hy hsx hsy

/-- A difference that is a number of the format is exact. -/
theorem is_sub (hy0 : scaled y ≠ 0) (hm : m < 2 ^ 53) (hk : k ≤ 2045)
    (h : scaled x = scaled y + m * 2 ^ k) : Is .positive (m * 2 ^ k) (sub x y) := by
  have hx0 : scaled x ≠ 0 := by lia
  rw [sub, unpack_finite hx hx0, unpack_finite hy hy0, hsx, hsy, UnpackedFloat.sub]
  -- both significands at the smaller exponent
  obtain ⟨K, hK, hKx, hKy⟩ : ∃ K : Nat,
      min (uexp x - 1074 : Int) (uexp y - 1074) = K - 1074 ∧ K ≤ uexp x ∧ K ≤ uexp y :=
    ⟨min (uexp x) (uexp y), by lia, Nat.min_le_left _ _, Nat.min_le_right _ _⟩
  obtain ⟨i, hi⟩ := Nat.exists_eq_add_of_le hKx
  obtain ⟨j, hj⟩ := Nat.exists_eq_add_of_le hKy
  have hdiff : ∃ D, sig x * 2 ^ i = sig y * 2 ^ j + D ∧ D * 2 ^ K = m * 2 ^ k := by
    have hpos : 0 < 2 ^ K := by positivity
    have hx : scaled x = sig x * 2 ^ i * 2 ^ K := by rw [scaled, hi]; ring
    have hy : scaled y = sig y * 2 ^ j * 2 ^ K := by rw [scaled, hj]; ring
    have hle : sig y * 2 ^ j ≤ sig x * 2 ^ i := Nat.le_of_mul_le_mul_right (by lia) hpos
    refine ⟨sig x * 2 ^ i - sig y * 2 ^ j, by lia, ?_⟩
    rw [Nat.sub_mul]
    lia
  obtain ⟨D, hD, hDK⟩ := hdiff
  have hint : Sign.positive.apply (sig x * 2 ^ i : Nat) -
      Sign.positive.apply (sig y * 2 ^ j : Nat) =
      (D : Int) := by
    rw [Sign.apply, Sign.apply, hD]
    push_cast
    ring
  dsimp only
  rw [hK, hi, hj, Nat.cast_add, Nat.cast_add, decreaseExponent_eq, decreaseExponent_eq]
  dsimp only
  rw [hint, UnpackedFloat.normalize]
  rcases Nat.eq_zero_or_pos D with rfl | hpos
  · rw [← hDK, Nat.zero_mul]
    exact is_zero .positive
  · rw [compare_gt_iff_gt.mpr (Int.natCast_pos.mpr hpos)]
    obtain ⟨m', k', hk', hfits, he⟩ := @exists_fits m k hm
    rw [he] at hDK ⊢
    refine is_round_of_eq hfits ?_ (by lia) hDK
    have : 0 < m' * 2 ^ k' := by
      rw [← hDK]
      positivity
    exact Nat.pos_of_mul_pos_right this

/-- Numbers within a factor of two have an exact difference. -/
theorem is_sub_of_lt (hle : scaled y ≤ scaled x) (hlt : scaled x < 2 * scaled y) :
    Is .positive (scaled x - scaled y) (sub x y) := by
  have hk : uexp y ≤ uexp x := by
    by_contra hk
    have := (fits_sig x).lt_of_lt (fits_sig y) (by lia)
    rw [← scaled, ← scaled] at this
    lia
  obtain ⟨i, hi⟩ := Nat.exists_eq_add_of_le hk
  have hx' : scaled x = sig x * 2 ^ i * 2 ^ uexp y := by
    rw [scaled, hi]
    ring
  have hdiff : scaled x - scaled y = (sig x * 2 ^ i - sig y) * 2 ^ uexp y := by
    rw [hx', Nat.sub_mul, scaled]
  have hsig : sig x * 2 ^ i - sig y < sig y := by
    refine Nat.lt_of_mul_lt_mul_right (a := 2 ^ uexp y) ?_
    rw [← hdiff, ← scaled]
    lia
  have := (fits_sig y).1
  rw [hdiff]
  exact is_sub hx hy hsx hsy (by lia) (by lia) (uexp_le hy) (by rw [← hdiff]; lia)

end

/-! ### Integers -/

/-- An integer below `2 ^ 53` is a number of the format. -/
theorem value_ofInt {n : ℤ} (hn : n.natAbs < 2 ^ 53) :
    value (pack (UnpackedFloat.ofInt .binary64 n)) = n := by
  have hround (s : Sign) (h0 : n.natAbs ≠ 0) :
      value (pack (UnpackedFloat.round .binary64 s n.natAbs 0)) = s.apply n.natAbs := by
    obtain ⟨m, k, hk, hfits, he⟩ := @exists_fits n.natAbs 1074 hn
    have hm : 0 < m := by
      refine Nat.pos_of_ne_zero fun hm => ?_
      rw [hm, Nat.zero_mul] at he
      exact h0 ((Nat.mul_eq_zero.mp he).resolve_right (by positivity))
    have his := @is_round_of_eq s n.natAbs 1074 m k hfits hm (hk.trans (by decide)) he
    rw [show ((1074 : Nat) : ℤ) - 1074 = 0 from rfl] at his
    have hpow : (2 ^ 1074 : ℚ) ≠ 0 := by positivity
    rw [value, his.sign, his.scaled, ← he, div_eq_iff hpow]
    cases s <;>
      simp only [Sign.apply, Nat.cast_mul, Nat.cast_pow, Nat.cast_ofNat, Int.cast_neg,
        Int.cast_mul, Int.cast_pow, Int.cast_ofNat, neg_mul]
  rw [UnpackedFloat.ofInt, UnpackedFloat.normalize]
  rcases lt_trichotomy n 0 with hlt | rfl | hgt
  · rw [compare_lt_iff_lt.mpr hlt]
    have := hround .negative (by lia)
    rw [show (-n).toNat = n.natAbs by lia]
    rw [this, Sign.apply]
    congr 1
    lia
  · rw [compare_eq_iff_eq.mpr rfl, value, (is_zero .positive).scaled, (is_zero .positive).sign]
    simp [Sign.apply]
  · rw [compare_gt_iff_gt.mpr hgt]
    have := hround .positive (by lia)
    rw [show n.toNat = n.natAbs by lia]
    rw [this, Sign.apply]
    congr 1
    lia

end

end Binary64
