import Mathlib.Tactic.Ring
import Mathlib.Data.Nat.Bitwise

/-! # Byte memory with 32-bit words

A memory of bytes with little-endian 32-bit loads and stores, a fill and an
overlap-safe copy.  Two words at addresses divisible by 4 are the same word or share no
byte, so a store among such words is a function update (`load32_store32`).

The arithmetic of 32-bit addresses is `Nat` arithmetic reduced modulo `2 ^ 32`.
-/
namespace WordMemory

/-- A memory: a byte for every address. -/
abbrev Memory := Nat → UInt8

/-! ### Words -/

def load32 (m : Memory) (a : Nat) : Nat :=
  (m a).toNat + 256 * (m (a + 1)).toNat + 65536 * (m (a + 2)).toNat +
    16777216 * (m (a + 3)).toNat

def store32 (m : Memory) (a v : Nat) : Memory := fun i =>
  if i = a then v.toUInt8
  else if i = a + 1 then (v / 256).toUInt8
  else if i = a + 2 then (v / 65536).toUInt8
  else if i = a + 3 then (v / 16777216).toUInt8
  else m i

/-- `n` bytes from `a` on become `v`. -/
def fill (m : Memory) (a : Nat) (v : UInt8) (n : Nat) : Memory := fun i =>
  if a ≤ i ∧ i < a + n then v else m i

/-- `n` bytes from `src` on are copied to `dst`. -/
def copy (m : Memory) (dst src n : Nat) : Memory := fun i =>
  if dst ≤ i ∧ i < dst + n then m (src + (i - dst)) else m i

section
variable {m m' : Memory} {a b v : Nat}

theorem load32_lt (m : Memory) (a : Nat) : load32 m a < 2 ^ 32 := by
  have h0 := (m a).toNat_lt
  have h1 := (m (a + 1)).toNat_lt
  have h2 := (m (a + 2)).toNat_lt
  have h3 := (m (a + 3)).toNat_lt
  rw [load32]
  lia

theorem load32_congr (h : ∀ i, a ≤ i → i < a + 4 → m' i = m i) : load32 m' a = load32 m a := by
  rw [load32, load32, h a (by lia) (by lia), h (a + 1) (by lia) (by lia),
    h (a + 2) (by lia) (by lia), h (a + 3) (by lia) (by lia)]

theorem store32_of_ne {i : Nat} (h : i < a ∨ a + 4 ≤ i) : store32 m a v i = m i := by
  rw [store32, if_neg (by lia), if_neg (by lia), if_neg (by lia), if_neg (by lia)]

theorem load32_store32_self (hv : v < 2 ^ 32) : load32 (store32 m a v) a = v := by
  have h0 : store32 m a v a = v.toUInt8 := by rw [store32, if_pos rfl]
  have h1 : store32 m a v (a + 1) = (v / 256).toUInt8 := by
    rw [store32, if_neg (by omega), if_pos rfl]
  have h2 : store32 m a v (a + 2) = (v / 65536).toUInt8 := by
    rw [store32, if_neg (by omega), if_neg (by omega), if_pos rfl]
  have h3 : store32 m a v (a + 3) = (v / 16777216).toUInt8 := by
    rw [store32, if_neg (by omega), if_neg (by omega), if_neg (by omega), if_pos rfl]
  have hbyte : ∀ x : Nat, x.toUInt8.toNat = x % 256 := fun x => UInt8.toNat_ofNat'
  rw [load32, h0, h1, h2, h3, hbyte, hbyte, hbyte, hbyte]
  omega

theorem load32_store32_of_disjoint (h : b + 4 ≤ a ∨ a + 4 ≤ b) :
    load32 (store32 m a v) b = load32 m b :=
  load32_congr fun i hi hi' => store32_of_ne (by lia)

theorem load32_store32_of_ne (ha : a % 4 = 0) (hb : b % 4 = 0) (hne : b ≠ a) :
    load32 (store32 m a v) b = load32 m b :=
  load32_store32_of_disjoint (by lia)

/-- **Aligned words are variables.** -/
theorem load32_store32 (ha : a % 4 = 0) (hb : b % 4 = 0) (hv : v < 2 ^ 32) :
    load32 (store32 m a v) b = if b = a then v else load32 m b := by
  by_cases h : b = a
  · rw [if_pos h, h, load32_store32_self hv]
  · rw [if_neg h, load32_store32_of_ne ha hb h]

end

/-! ### Bytes and double words -/

def store8 (m : Memory) (a v : Nat) : Memory := fun i => if i = a then v.toUInt8 else m i

/-- Eight bytes as two words. -/
def load64 (m : Memory) (a : Nat) : Nat := load32 m a + 2 ^ 32 * load32 m (a + 4)

def store64 (m : Memory) (a v : Nat) : Memory :=
  store32 (store32 m a (v % 2 ^ 32)) (a + 4) (v / 2 ^ 32)

section
variable {m m' : Memory} {a b v : Nat}

theorem store8_self : store8 m a v a = v.toUInt8 := if_pos rfl

theorem store8_of_ne {i : Nat} (h : i ≠ a) : store8 m a v i = m i := if_neg h

theorem load64_congr (h : ∀ i, a ≤ i → i < a + 8 → m' i = m i) : load64 m' a = load64 m a := by
  rw [load64, load64, load32_congr (m := m) fun i hi hi' => h i hi (by lia),
    load32_congr (m := m) fun i hi hi' => h i (by lia) (by lia)]

theorem load64_lt (m : Memory) (a : Nat) : load64 m a < 2 ^ 64 := by
  have hlow := load32_lt m a
  have hhigh := load32_lt m (a + 4)
  rw [load64]
  lia

theorem store64_of_ne {i : Nat} (h : i < a ∨ a + 8 ≤ i) : store64 m a v i = m i := by
  rw [store64, store32_of_ne (by lia), store32_of_ne (by lia)]

theorem load64_store64_self (hv : v < 2 ^ 64) : load64 (store64 m a v) a = v := by
  rw [load64, store64, load32_store32_self (by lia), load32_store32_of_disjoint (by lia),
    load32_store32_self (Nat.mod_lt _ (by decide))]
  lia

theorem load64_store64_of_disjoint (h : b + 8 ≤ a ∨ a + 8 ≤ b) :
    load64 (store64 m a v) b = load64 m b :=
  load64_congr fun i hi hi' => store64_of_ne (by lia)

theorem load32_store64_of_disjoint (h : b + 4 ≤ a ∨ a + 8 ≤ b) :
    load32 (store64 m a v) b = load32 m b :=
  load32_congr fun i hi hi' => store64_of_ne (by lia)

end

/-! ### 32-bit arithmetic -/

def add32 (a b : Nat) : Nat := (a + b) % 2 ^ 32
def sub32 (a b : Nat) : Nat := (a + 2 ^ 32 - b) % 2 ^ 32
def mul32 (a b : Nat) : Nat := (a * b) % 2 ^ 32
def shl32 (a n : Nat) : Nat := (a <<< n) % 2 ^ 32

/-- Leading zeros. -/
def clz32 (a : Nat) : Nat := if a = 0 then 32 else 31 - a.log2

/-- The signed reading of a 32-bit value. -/
def signed32 (a : Nat) : Int := if a < 2 ^ 31 then a else a - 2 ^ 32

/-- The signed comparison. -/
def ltS (a b : Nat) : Bool := decide (signed32 a < signed32 b)

section
variable {a b : Nat}

theorem add32_of_lt (h : a + b < 2 ^ 32) : add32 a b = a + b := Nat.mod_eq_of_lt h

theorem add32_lt : add32 a b < 2 ^ 32 := Nat.mod_lt _ (by decide)

theorem sub32_of_le (h : b ≤ a) (ha : a < 2 ^ 32) : sub32 a b = a - b := by
  rw [sub32]
  lia

theorem mul32_of_lt (h : a * b < 2 ^ 32) : mul32 a b = a * b := Nat.mod_eq_of_lt h

theorem ltS_eq (ha : a < 2 ^ 31) (hb : b < 2 ^ 31) : ltS a b = decide (a < b) := by
  rw [ltS, signed32, if_pos ha, signed32, if_pos hb]
  simp

end

/-! ### Flag bits

A multiple of 8 leaves the low three bits for flags. -/

section
variable {x y r q : Nat}

theorem testBit_split (hr : r < 8) (i : Nat) :
    (8 * x + r).testBit i = if i < 3 then r.testBit i else x.testBit (i - 3) :=
  @Nat.testBit_two_pow_mul_add x r 3 hr i

theorem and_split (hr : r < 8) (hq : q < 8) :
    (8 * x + r) &&& (8 * y + q) = 8 * (x &&& y) + (r &&& q) := by
  refine Nat.eq_of_testBit_eq fun i => ?_
  have hrq : r &&& q < 8 := @Nat.and_lt_two_pow r q 3 hq
  rw [Nat.testBit_and, testBit_split hr, testBit_split hq, testBit_split hrq]
  by_cases hi : i < 3
  · rw [if_pos hi, if_pos hi, if_pos hi, Nat.testBit_and]
  · rw [if_neg hi, if_neg hi, if_neg hi, Nat.testBit_and]

theorem or_split (hr : r < 8) (hq : q < 8) :
    (8 * x + r) ||| (8 * y + q) = 8 * (x ||| y) + (r ||| q) := by
  refine Nat.eq_of_testBit_eq fun i => ?_
  have hrq : r ||| q < 8 := @Nat.or_lt_two_pow r q 3 hr hq
  rw [Nat.testBit_or, testBit_split hr, testBit_split hq, testBit_split hrq]
  by_cases hi : i < 3
  · rw [if_pos hi, if_pos hi, if_pos hi, Nat.testBit_or]
  · rw [if_neg hi, if_neg hi, if_neg hi, Nat.testBit_or]

/-- `a & -8` drops the flags. -/
theorem and_neg8 (hx : x < 2 ^ 29) (hr : r < 8) : (8 * x + r) &&& 0xfffffff8 = 8 * x := by
  have h := @and_split x (2 ^ 29 - 1) r 0 hr (by decide)
  rw [Nat.and_two_pow_sub_one_of_lt_two_pow hx, Nat.and_zero] at h
  exact h

/-- `a & -3` drops bit 1. -/
theorem and_neg3 (hx : x < 2 ^ 29) (hr : r < 8) :
    (8 * x + r) &&& 0xfffffffd = 8 * x + (r &&& 5) := by
  have h := @and_split x (2 ^ 29 - 1) r 5 hr (by decide)
  rw [Nat.and_two_pow_sub_one_of_lt_two_pow hx] at h
  exact h

theorem and_flag (hr : r < 8) (hq : q < 8) : (8 * x + r) &&& q = r &&& q := by
  have h := @and_split x 0 r q hr hq
  rw [Nat.mul_zero, Nat.zero_add, Nat.and_zero, Nat.mul_zero, Nat.zero_add] at h
  exact h

theorem or_flag (hr : r < 8) (hq : q < 8) : (8 * x + r) ||| q = 8 * x + (r ||| q) := by
  have h := @or_split x 0 r q hr hq
  rw [Nat.mul_zero, Nat.zero_add, Nat.or_zero] at h
  exact h

end

end WordMemory
