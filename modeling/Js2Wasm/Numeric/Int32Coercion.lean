import Js2Wasm.Numeric.Machine

/-! # The exact 32-bit coercion

`emitWasmInt32Coercion` leaves the low 32 bits of the integer part of a number without a
trapping or saturating conversion: it takes the number apart and shifts its significand.  For
an exponent outside 0 to 83 the low 32 bits are zero, and NaN and the infinities have such an
exponent. -/
namespace Js2Wasm.Numeric
open List

open Structured Binary64

/-- Four reusable i64 locals. -/
structure WasmInt32CoercionScratch where
  bits : Nat
  exponent : Nat
  significand : Nat
  magnitude : Nat
  distinct : [bits, exponent, significand, magnitude].Nodup

variable (scratch : WasmInt32CoercionScratch)

def shiftLeft : List (Code Op) := line [
  .localGet scratch.significand,
  .localGet scratch.exponent,
  .i64Const 52,
  .i64Sub,
  .i64Shl]

def shiftRight : List (Code Op) := line [
  .localGet scratch.significand,
  .i64Const 52,
  .localGet scratch.exponent,
  .i64Sub,
  .i64ShrU]

/-- The fields of the number, and whether its exponent is in the window. -/
def fields : List Op := [
  .i64ReinterpretF64, .localSet scratch.bits,
  .localGet scratch.bits,
  .i64Const 52,
  .i64ShrU,
  .i64Const 0x7ff,
  .i64And,
  .i64Const 1023,
  .i64Sub,
  .localSet scratch.exponent,
  .localGet scratch.bits,
  .i64Const 0xfffffffffffff,
  .i64And,
  .i64Const 0x10000000000000,
  .i64Or,
  .localSet scratch.significand,
  .localGet scratch.exponent,
  .i64Const 0,
  .i64GeS,
  .localGet scratch.exponent,
  .i64Const 83,
  .i64LeS,
  .i32And]

def emitWasmInt32Coercion : List (Code Op) :=
  line (fields scratch) ++
  [.if_
    (line [
      .localGet scratch.exponent,
      .i64Const 52,
      .i64GeS] ++
    [.if_ (shiftLeft scratch) (some (shiftRight scratch))])
    (some (line [.i64Const 0]))] ++
  line [
    .localSet scratch.magnitude,
    .localGet scratch.bits,
    .i64Const 0,
    .i64LtS] ++
  [.if_
    (line [
      .i32Const 0,
      .localGet scratch.magnitude,
      .i32WrapI64,
      .i32Sub])
    (some (line [.localGet scratch.magnitude, .i32WrapI64]))]

def emitWasmMathClz32 : List (Code Op) :=
  emitWasmInt32Coercion scratch ++ line [.i32Clz, .f64ConvertI32S]

def emitWasmMathImul (rhsLocal : Nat) : List (Code Op) :=
  emitWasmInt32Coercion scratch ++ line [.localSet rhsLocal] ++ emitWasmInt32Coercion scratch ++
    line [.localGet rhsLocal, .i32Mul, .f64ConvertI32S]

/-- `ToInt32`: the integer part modulo `2 ^ 32`, and 0 for NaN and the infinities. -/
def toInt32 (x : BitVec 64) : BitVec 32 :=
  if IsFinite x then BitVec.ofInt 32 (truncate (value x)) else 0

/-! ### What the code computes -/

def exponentOf (x : BitVec 64) : BitVec 64 := (x >>> 52 &&& 0x7ff) - 1023

def significandOf (x : BitVec 64) : BitVec 64 := x &&& 0xfffffffffffff ||| 0x10000000000000

/-- The exponents for which the low 32 bits can be other than zero. -/
def inWindow (x : BitVec 64) : Bool := (0 : BitVec 64).sle (exponentOf x) && (exponentOf x).sle 83

def shiftsLeft (x : BitVec 64) : Bool := (52 : BitVec 64).sle (exponentOf x)

/-- The amount of the shift that the code performs, if any. -/
def amountOf (x : BitVec 64) : BitVec 64 :=
  if shiftsLeft x then exponentOf x - 52 else 52 - exponentOf x

def magnitudeOf (x : BitVec 64) : BitVec 64 :=
  if inWindow x then
    if shiftsLeft x then significandOf x <<< ((amountOf x).toNat % 64)
    else significandOf x >>> ((amountOf x).toNat % 64)
  else 0

def shiftsOf (x : BitVec 64) : List Event := if inWindow x then [.shift (amountOf x)] else []

def coerced (x : BitVec 64) : BitVec 32 :=
  if x.slt 0 then 0 - (magnitudeOf x).setWidth 32 else (magnitudeOf x).setWidth 32

section
variable {fuel : Nat} {labels : List (Option Unit)} {rest : List (Code Op)}
variable {scratch} {x : BitVec 64} {st : List Value}

/-- The locals after the fields have been taken. -/
def fieldLocals (scratch : WasmInt32CoercionScratch) (locals : Nat → Value) (x : BitVec 64) :
    Nat → Value := fun j =>
  if j = scratch.significand then .i64 (significandOf x)
  else if j = scratch.exponent then .i64 (exponentOf x)
  else if j = scratch.bits then .i64 x
  else locals j

section
variable (locals : Nat → Value) (record : List Event)
include locals record

theorem run_fields :
    runLine (fields scratch) ⟨locals, .f64 x :: st, record⟩ = some
      ⟨fieldLocals scratch locals x, flag (inWindow x) :: st, .shift 52 :: record⟩ := by
  obtain ⟨b, e, g, m, hd⟩ := scratch
  have hne : b ≠ e ∧ b ≠ g ∧ e ≠ g := by
    simp only [nodup_cons, mem_cons, not_or] at hd
    exact ⟨hd.1.1, hd.1.2.1, hd.2.1.1⟩
  simp [fields, hne, inWindow, exponentOf]
  rfl

theorem run_shift :
    run machine fuel (if shiftsLeft x then shiftLeft scratch else shiftRight scratch) labels
        ⟨fieldLocals scratch locals x, st, record⟩ =
      (.normal, ⟨fieldLocals scratch locals x,
        .i64 (if shiftsLeft x then significandOf x <<< ((amountOf x).toNat % 64)
          else significandOf x >>> ((amountOf x).toNat % 64)) :: st,
        .shift (amountOf x) :: record⟩) := by
  obtain ⟨b, e, g, m, hd⟩ := scratch
  have hne : e ≠ g := by
    simp only [nodup_cons, mem_cons, not_or] at hd
    exact hd.2.1.1
  by_cases h : shiftsLeft x
  · rw [if_pos h, if_pos h]
    exact run_line_end (by simp [fieldLocals, hne, amountOf, h])
  · rw [if_neg h, if_neg h]
    exact run_line_end (by simp [fieldLocals, hne, amountOf, h])

/-- The outer `if` leaves the magnitude. -/
theorem run_window :
    run machine fuel
        (if inWindow x then line [.localGet scratch.exponent, .i64Const 52, .i64GeS] ++
          [.if_ (shiftLeft scratch) (some (shiftRight scratch))]
        else line [.i64Const 0]) labels ⟨fieldLocals scratch locals x, st, record⟩ =
      (.normal, ⟨fieldLocals scratch locals x, .i64 (magnitudeOf x) :: st,
        shiftsOf x ++ record⟩) := by
  by_cases h : inWindow x
  · have hne : scratch.exponent ≠ scratch.significand := by
      have hd := scratch.distinct
      simp only [nodup_cons, mem_cons, not_or] at hd
      exact hd.2.1.1
    rw [if_pos h, magnitudeOf, if_pos h, shiftsOf, if_pos h]
    have hline : runLine [.localGet scratch.exponent, .i64Const 52, .i64GeS]
        ⟨fieldLocals scratch locals x, st, record⟩ =
          some ⟨fieldLocals scratch locals x, flag (shiftsLeft x) :: st, record⟩ := by
      simp [fieldLocals, hne, shiftsLeft]
    rw [run_line hline, run_if (run_shift locals record), run_nil]
    rfl
  · rw [if_neg h, magnitudeOf, if_neg h, shiftsOf, if_neg h]
    exact run_line_end (by simp)

/-- What a run of the whole sequence does. -/
theorem run_coercion :
    ∃ locals', run machine fuel (emitWasmInt32Coercion scratch ++ rest) labels
        ⟨locals, .f64 x :: st, record⟩ =
      run machine fuel rest labels
        ⟨locals', .i32 (coerced x) :: st, shiftsOf x ++ .shift 52 :: record⟩ ∧
      ∀ j, j ∉ [scratch.bits, scratch.exponent, scratch.significand, scratch.magnitude] →
        locals' j = locals j := by
  have hne : scratch.bits ≠ scratch.exponent ∧ scratch.bits ≠ scratch.significand ∧
      scratch.bits ≠ scratch.magnitude := by
    have hd := scratch.distinct
    simp only [nodup_cons, mem_cons, not_or] at hd
    exact ⟨hd.1.1, hd.1.2.1, hd.1.2.2.1⟩
  refine ⟨fun j => if j = scratch.magnitude then .i64 (magnitudeOf x)
    else fieldLocals scratch locals x j, ?_, fun j hj => ?_⟩
  · have hline : runLine [.localSet scratch.magnitude, .localGet scratch.bits, .i64Const 0, .i64LtS]
        ⟨fieldLocals scratch locals x, .i64 (magnitudeOf x) :: st,
          shiftsOf x ++ .shift 52 :: record⟩ =
        some ⟨fun j => if j = scratch.magnitude then .i64 (magnitudeOf x)
          else fieldLocals scratch locals x j, flag (x.slt 0) :: st,
          shiftsOf x ++ .shift 52 :: record⟩ := by
      simp [fieldLocals, hne]
    have hsign : run machine fuel
        (if x.slt 0 then line [.i32Const 0, .localGet scratch.magnitude, .i32WrapI64, .i32Sub]
          else line [.localGet scratch.magnitude, .i32WrapI64]) (none :: labels)
        ⟨fun j => if j = scratch.magnitude then .i64 (magnitudeOf x)
          else fieldLocals scratch locals x j, st, shiftsOf x ++ .shift 52 :: record⟩ =
        (.normal, ⟨fun j => if j = scratch.magnitude then .i64 (magnitudeOf x)
          else fieldLocals scratch locals x j, .i32 (coerced x) :: st,
          shiftsOf x ++ .shift 52 :: record⟩) := by
      rw [coerced]
      by_cases h : x.slt 0
      · rw [if_pos h, if_pos h]
        exact run_line_end (by simp)
      · rw [if_neg h, if_neg h]
        exact run_line_end (by simp)
    simp only [emitWasmInt32Coercion, append_assoc, cons_append, nil_append]
    rw [run_line (run_fields locals record), run_if (run_window locals _), run_line hline,
      run_if hsign]
  · simp only [mem_cons, not_mem_nil, not_or, or_false] at hj
    simp only [fieldLocals, if_neg hj.1, if_neg hj.2.1, if_neg hj.2.2.1, if_neg hj.2.2.2]

end

/-! ### The arithmetic -/

theorem toNat_raw_exponent (x : BitVec 64) : (x >>> 52 &&& 0x7ff).toNat = expo x := by
  rw [BitVec.toNat_and, BitVec.toNat_ushiftRight, Nat.shiftRight_eq_div_pow, expo_eq]
  exact Nat.and_two_pow_sub_one_eq_mod _ 11

theorem toInt_exponentOf (x : BitVec 64) : (exponentOf x).toInt = expo x - 1023 := by
  have hlt := expo_lt x
  have hnat : (exponentOf x).toNat = (2 ^ 64 - 1023 + expo x) % 2 ^ 64 := by
    rw [exponentOf, BitVec.toNat_sub, toNat_raw_exponent]
    rfl
  rw [BitVec.toInt_eq_toNat_cond, hnat]
  omega

theorem toNat_significandOf (x : BitVec 64) : (significandOf x).toNat = 2 ^ 52 + frac x := by
  have hand : (x &&& 0xfffffffffffff).toNat = frac x := by
    rw [BitVec.toNat_and, frac_eq]
    exact Nat.and_two_pow_sub_one_eq_mod _ 52
  rw [significandOf, BitVec.toNat_or, hand, Nat.or_comm]
  exact (Nat.two_pow_add_eq_or_of_lt (frac_lt x) 1).symm

theorem inWindow_iff (x : BitVec 64) : inWindow x ↔ 1023 ≤ expo x ∧ expo x ≤ 1106 := by
  rw [inWindow, Bool.and_eq_true, BitVec.sle_iff_toInt_le, BitVec.sle_iff_toInt_le,
    toInt_exponentOf, show (0 : BitVec 64).toInt = 0 from rfl,
    show (83 : BitVec 64).toInt = 83 from rfl]
  omega

theorem shiftsLeft_iff (x : BitVec 64) : shiftsLeft x ↔ 1075 ≤ expo x := by
  rw [shiftsLeft, BitVec.sle_iff_toInt_le, toInt_exponentOf,
    show (52 : BitVec 64).toInt = 52 from rfl]
  lia

theorem toNat_amountOf (h : inWindow x) :
    (amountOf x).toNat = if shiftsLeft x then expo x - 1075 else 1075 - expo x := by
  have hw := (inWindow_iff x).mp h
  have hnat : (exponentOf x).toNat = expo x - 1023 := by
    have := toInt_exponentOf x
    rw [BitVec.toInt_eq_toNat_cond] at this
    have hlt : (exponentOf x).toNat < 2 ^ 64 := (exponentOf x).isLt
    lia
  rw [amountOf]
  by_cases hs : shiftsLeft x
  · have := (shiftsLeft_iff x).mp hs
    rw [if_pos hs, if_pos hs, BitVec.toNat_sub, hnat, show (52 : BitVec 64).toNat = 52 from rfl]
    lia
  · have := mt (shiftsLeft_iff x).mpr hs
    rw [if_neg hs, if_neg hs, BitVec.toNat_sub, hnat, show (52 : BitVec 64).toNat = 52 from rfl]
    lia

/-- No shift amount needs reducing. -/
theorem amountOf_lt (h : inWindow x) : (amountOf x).toNat < 64 := by
  have hw := (inWindow_iff x).mp h
  rw [toNat_amountOf h]
  split
  · omega
  · have := mt (shiftsLeft_iff x).mpr ‹_›
    omega

/-- The integer part of the magnitude, by exponent. -/
theorem scaled_div_of_le (h : 1075 ≤ expo x) :
    scaled x / 2 ^ 1074 = (2 ^ 52 + frac x) * 2 ^ (expo x - 1075) := by
  obtain ⟨k, hk⟩ := Nat.exists_eq_add_of_le h
  have hs : scaled x = (2 ^ 52 + frac x) * 2 ^ k * 2 ^ 1074 := by
    rw [scaled, sig, uexp, if_neg (by lia), hk, show 1075 + k - 1 = k + 1074 by lia, pow_add,
      mul_assoc]
  rw [hs, Nat.mul_div_cancel _ (by positivity), hk, Nat.add_sub_cancel_left]

theorem scaled_div_of_lt (h0 : 0 < expo x) (h : expo x < 1075) :
    scaled x / 2 ^ 1074 = (2 ^ 52 + frac x) / 2 ^ (1075 - expo x) := by
  have hpow : (2 : Nat) ^ 1074 = 2 ^ (1075 - expo x) * 2 ^ (expo x - 1) := by
    rw [← pow_add]
    congr 1
    lia
  rw [scaled, sig, uexp, if_neg (by lia), hpow, Nat.mul_div_mul_right _ _ (by positivity)]

theorem scaled_div_eq_zero (h : expo x < 1023) : scaled x / 2 ^ 1074 = 0 := by
  refine Nat.div_eq_of_lt ?_
  calc scaled x < 2 ^ 53 * 2 ^ uexp x :=
        (Nat.mul_lt_mul_right (by positivity)).mpr (fits_sig x).1
    _ ≤ 2 ^ 53 * 2 ^ 1021 := by
        gcongr
        · decide
        · rw [uexp]
          omega
    _ = 2 ^ 1074 := by rw [← pow_add]

/-- The low 32 bits of the magnitude are those of the integer part. -/
theorem toNat_magnitudeOf (x : BitVec 64) :
    (magnitudeOf x).toNat % 2 ^ 32 = scaled x / 2 ^ 1074 % 2 ^ 32 := by
  rw [magnitudeOf]
  by_cases hw : inWindow x
  · have hlt := amountOf_lt hw
    have hexp := (inWindow_iff x).mp hw
    rw [if_pos hw, Nat.mod_eq_of_lt hlt, toNat_amountOf hw]
    by_cases hs : shiftsLeft x
    · rw [if_pos hs, if_pos hs, scaled_div_of_le ((shiftsLeft_iff x).mp hs), BitVec.toNat_shiftLeft,
        toNat_significandOf, Nat.shiftLeft_eq]
      exact Nat.mod_mod_of_dvd _ (by decide)
    · have hlt := mt (shiftsLeft_iff x).mpr hs
      rw [if_neg hs, if_neg hs, scaled_div_of_lt (by lia) (by lia), BitVec.toNat_ushiftRight,
        toNat_significandOf, Nat.shiftRight_eq_div_pow]
  · rw [if_neg hw]
    rcases Nat.lt_or_ge (expo x) 1023 with hlo | hlo
    · rw [scaled_div_eq_zero hlo]
      rfl
    · -- the significand stands at bit 32 or above
      have hhi : 1106 < expo x := by
        by_contra hhi
        exact hw ((inWindow_iff x).mpr ⟨hlo, by lia⟩)
      have hdvd : 2 ^ 32 ∣ 2 ^ (expo x - 1075) := pow_dvd_pow 2 (by lia)
      rw [scaled_div_of_le (by lia), Nat.mod_eq_zero_of_dvd (Dvd.dvd.mul_left hdvd _)]
      rfl

theorem magnitudeOf_eq_zero (h : ¬ IsFinite x) : magnitudeOf x = 0 := by
  have he : expo x = 2047 := not_not.mp h
  rw [magnitudeOf, if_neg]
  rw [inWindow_iff, he]
  decide

theorem slt_zero_iff (x : BitVec 64) : x.slt 0 ↔ sign x ≠ .positive := by
  have hlt : x.toNat < 2 ^ 64 := x.isLt
  rw [BitVec.slt_iff_toInt_lt, BitVec.toInt_eq_toNat_cond, sign_eq,
    show (0 : BitVec 64).toInt = 0 from rfl]
  by_cases h : x.toNat < 2 ^ 63
  · simp only [if_pos h, ne_eq, not_true_eq_false, iff_false]
    rw [if_pos (by lia)]
    lia
  · rw [if_neg h, if_neg (by lia)]
    simp only [ne_eq, reduceCtorEq, not_false_eq_true, iff_true]
    lia

/-- The code computes `ToInt32`. -/
theorem coerced_eq (x : BitVec 64) : coerced x = toInt32 x := by
  by_cases h : IsFinite x
  · have hmag : (magnitudeOf x).setWidth 32 = BitVec.ofNat 32 (scaled x / 2 ^ 1074) := by
      apply BitVec.eq_of_toNat_eq
      rw [BitVec.toNat_setWidth, BitVec.toNat_ofNat, toNat_magnitudeOf x]
    rw [toInt32, if_pos h, truncate_value, coerced, hmag]
    cases hs : sign x with
    | positive =>
      rw [if_neg (fun hlt => (slt_zero_iff x).mp hlt hs)]
      exact (BitVec.ofInt_natCast ..).symm
    | negative =>
      rw [if_pos ((slt_zero_iff x).mpr (by simp [hs]))]
      rw [Float.Model.UnpackedFloat.Sign.apply, BitVec.ofInt_neg, BitVec.ofInt_natCast]
      exact BitVec.zero_sub _
  · rw [toInt32, if_neg h, coerced, magnitudeOf_eq_zero h]
    split <;> rfl

/-- Every shift that a run performs has an amount below 64. -/
theorem shiftsOf_eq (x : BitVec 64) : ∃ amounts : List (BitVec 64),
    shiftsOf x ++ [.shift 52] = amounts.map .shift ∧ ∀ k ∈ amounts, k.toNat < 64 := by
  rw [shiftsOf]
  by_cases h : inWindow x
  · refine ⟨[amountOf x, 52], by rw [if_pos h]; rfl, fun k hk => ?_⟩
    simp only [mem_cons, not_mem_nil, or_false] at hk
    rcases hk with rfl | rfl
    · exact amountOf_lt h
    · decide
  · refine ⟨[52], by rw [if_neg h]; rfl, fun k hk => ?_⟩
    rw [mem_singleton.mp hk]
    decide

end

theorem value_convertI32 (v : BitVec 32) : value (convertI32 v) = v.toInt := by
  have := @BitVec.toInt_lt 32 v
  have := @BitVec.le_toInt 32 v
  exact value_ofInt (by lia)

/-! ### Main results -/

/-- **The coercion is exact.**  From every state, with every bit pattern on the stack, the
code leaves the integer part modulo `2 ^ 32`; no shift amount is reduced modulo 64, and
only the scratch locals change. -/
theorem emitWasmInt32Coercion_exact (scratch : WasmInt32CoercionScratch) (fuel : Nat)
    (labels : List (Option Unit)) (locals : Nat → Value) (x : BitVec 64) (st : List Value)
    (record : List Event) :
    ∃ (locals' : Nat → Value) (amounts : List (BitVec 64)),
      run machine fuel (emitWasmInt32Coercion scratch) labels ⟨locals, .f64 x :: st, record⟩ =
        (.normal, ⟨locals', .i32 (toInt32 x) :: st, amounts.map .shift ++ record⟩) ∧
      (∀ k ∈ amounts, k.toNat < 64) ∧
      ∀ j, j ∉ [scratch.bits, scratch.exponent, scratch.significand, scratch.magnitude] →
        locals' j = locals j := by
  obtain ⟨locals', hrun, hframe⟩ := @run_coercion scratch fuel labels [] x st locals record
  obtain ⟨amounts, heq, hlt⟩ := shiftsOf_eq x
  refine ⟨locals', amounts, ?_, hlt, hframe⟩
  rw [append_nil, run_nil, coerced_eq, append_cons, heq] at hrun
  exact hrun

/-- -3.5 is taken to -3. -/
theorem emitWasmInt32Coercion_exact_locals :
    ∃ (locals' : Nat → Value) (amounts : List (BitVec 64)),
      run machine 0 (emitWasmInt32Coercion ⟨0, 1, 2, 3, by decide⟩) []
        ⟨fun _ => .i32 0, [.f64 0xC00C000000000000], []⟩ =
          (.normal, ⟨locals', [.i32 (-3)], amounts.map .shift ++ []⟩) ∧
      (∀ k ∈ amounts, k.toNat < 64) ∧ ∀ j, j ∉ [0, 1, 2, 3] → locals' j = .i32 0 := by
  have hthree : toInt32 0xC00C000000000000 = -3 := (coerced_eq _).symm.trans (by decide)
  rw [← hthree]
  exact emitWasmInt32Coercion_exact ⟨0, 1, 2, 3, by decide⟩ 0 [] _ _ [] []

/-- `Math.clz32` of a number, as a number. -/
theorem emitWasmMathClz32_exact (scratch : WasmInt32CoercionScratch) (fuel : Nat)
    (labels : List (Option Unit)) (locals : Nat → Value) (x : BitVec 64) (st : List Value)
    (record : List Event) :
    ∃ s' : State, run machine fuel (emitWasmMathClz32 scratch) labels
        ⟨locals, .f64 x :: st, record⟩ = (.normal, s') ∧
      s'.stack = .f64 (convertI32 (toInt32 x).clz) :: st ∧
      value (convertI32 (toInt32 x).clz) = (toInt32 x).clz.toInt := by
  obtain ⟨locals', hrun, -⟩ :=
    @run_coercion scratch fuel labels (line [.i32Clz, .f64ConvertI32S]) x st locals record
  rw [← coerced_eq]
  exact ⟨⟨locals', .f64 (convertI32 (coerced x).clz) :: st, shiftsOf x ++ .shift 52 :: record⟩,
    hrun.trans (run_line_end (by simp)), rfl, value_convertI32 _⟩

/-- `Math.imul` of two numbers, as a number. -/
theorem emitWasmMathImul_exact (scratch : WasmInt32CoercionScratch) {rhsLocal : Nat}
    (hrhs : rhsLocal ∉
      [scratch.bits, scratch.exponent, scratch.significand, scratch.magnitude])
    (fuel : Nat) (labels : List (Option Unit)) (locals : Nat → Value) (x y : BitVec 64)
    (st : List Value) (record : List Event) :
    ∃ s' : State, run machine fuel (emitWasmMathImul scratch rhsLocal) labels
        ⟨locals, .f64 y :: .f64 x :: st, record⟩ = (.normal, s') ∧
      s'.stack = .f64 (convertI32 (toInt32 x * toInt32 y)) :: st ∧
      value (convertI32 (toInt32 x * toInt32 y)) = (toInt32 x * toInt32 y).toInt := by
  have hset (l : Nat → Value) (r : List Event) : runLine [.localSet rhsLocal]
      ⟨l, .i32 (coerced y) :: .f64 x :: st, r⟩ =
      some ⟨fun j => if j = rhsLocal then .i32 (coerced y) else l j, .f64 x :: st, r⟩ := by simp
  obtain ⟨l1, hrun1, -⟩ := @run_coercion scratch fuel labels
    (line [.localSet rhsLocal] ++ (emitWasmInt32Coercion scratch ++
      line [.localGet rhsLocal, .i32Mul, .f64ConvertI32S])) y (.f64 x :: st) locals record
  obtain ⟨l2, hrun2, hframe⟩ := @run_coercion scratch fuel labels
    (line [.localGet rhsLocal, .i32Mul, .f64ConvertI32S]) x st
    (fun j => if j = rhsLocal then .i32 (coerced y) else l1 j) (shiftsOf y ++ .shift 52 :: record)
  have hget : l2 rhsLocal = .i32 (coerced y) := by rw [hframe _ hrhs, if_pos rfl]
  rw [← coerced_eq, ← coerced_eq]
  refine ⟨⟨l2, .f64 (convertI32 (coerced x * coerced y)) :: st,
    shiftsOf x ++ .shift 52 :: (shiftsOf y ++ .shift 52 :: record)⟩, ?_, rfl, value_convertI32 _⟩
  rw [emitWasmMathImul, append_assoc, append_assoc, hrun1, run_line (hset _ _), hrun2]
  exact run_line_end (by simp [hget])

/-- 3 times -5, with local 4 for the right operand. -/
theorem emitWasmMathImul_exact_locals :
    ∃ s' : State, run machine 0 (emitWasmMathImul ⟨0, 1, 2, 3, by decide⟩ 4) []
        ⟨fun _ => .i32 0, [.f64 0xC014000000000000, .f64 0x4008000000000000], []⟩ = (.normal, s') ∧
      s'.stack = [.f64 (convertI32 (-15))] ∧ value (convertI32 (-15)) = (-15 : BitVec 32).toInt := by
  have hproduct : toInt32 0x4008000000000000 * toInt32 0xC014000000000000 = -15 := by
    rw [← coerced_eq, ← coerced_eq]
    decide
  rw [← hproduct]
  exact emitWasmMathImul_exact ⟨0, 1, 2, 3, by decide⟩ (by decide) 0 [] _ _ _ [] []

end Js2Wasm.Numeric
