import Js2Wasm.Numeric.Machine
import Mathlib.Tactic.LinearCombination

/-! # The exact remainder

`__fmod` is long division in base 2: the scale `t` is doubled from `|b|` as long as it stays
at most `|a|`, and halved back while it is subtracted from the running remainder `x`.  On the
way up and down the scale is `|b| * 2 ^ k`, and the remainder is below twice the scale, so
every difference is between numbers within a factor of two of each other. -/
namespace Js2Wasm.Numeric
open List

open Structured Binary64

/-! ### The code -/

/-- Locals: 0 = a, 1 = b; 2 = x (`|a|`, running remainder), 3 = y (`|b|`), 4 = t. -/
def A : Nat := 0
def B : Nat := 1
def X : Nat := 2
def Y : Nat := 3
def T : Nat := 4

/-- `Infinity` -/
def INF : BitVec 64 := 0x7ff0000000000000

/-- `NaN` -/
def NAN : BitVec 64 := 0x7ff8000000000000

/-- `if (test) return value` -/
def returnIf (test value : List Op) : List (Code Op) :=
  line test ++ [.if_ (line value ++ [.basic .return_]) none]

/-- The arguments without a finite remainder: `if (b == 0) return NaN` and so on. -/
def specialCases : List (Code Op) :=
  returnIf [.localGet B, .f64Const 0, .f64Eq] [.f64Const NAN] ++
  returnIf [.localGet A, .f64Abs, .f64Const INF, .f64Eq] [.f64Const NAN] ++
  returnIf [.localGet A, .localGet A, .f64Ne] [.f64Const NAN] ++
  returnIf [.localGet B, .localGet B, .f64Ne] [.f64Const NAN] ++
  returnIf [.localGet B, .f64Abs, .f64Const INF, .f64Eq] [.localGet A]

/-- `x = |a|; y = |b|`, and `if (x < y) return copysign(x, a)`. -/
def smallDividend : List (Code Op) :=
  line [.localGet A, .f64Abs, .localSet X, .localGet B, .f64Abs, .localSet Y] ++
  returnIf [.localGet X, .localGet Y, .f64Lt] [.localGet X, .localGet A, .f64Copysign]

/-- `while (t * 2 <= x) t *= 2` -/
def doublingBody : List (Code Op) :=
  line [.localGet T, .f64Const two, .f64Mul, .localGet X, .f64Le, .i32Eqz] ++
  [.basic (.brIf 1)] ++
  line [.localGet T, .f64Const two, .f64Mul, .localSet T] ++
  [.br 0]

/-- `while (t >= y) { if (x >= t) x -= t; t *= 0.5 }` -/
def halvingBody : List (Code Op) :=
  line [.localGet T, .localGet Y, .f64Ge, .i32Eqz] ++
  [.basic (.brIf 1)] ++
  line [.localGet X, .localGet T, .f64Ge] ++
  [.if_ (line [.localGet X, .localGet T, .f64Sub, .localSet X]) none] ++
  line [.localGet T, .f64Const half, .f64Mul, .localSet T] ++
  [.br 0]

def fmodBody : List (Code Op) :=
  specialCases ++ smallDividend ++
  line [.localGet Y, .localSet T] ++
  [.block [.loop doublingBody], .block [.loop halvingBody]] ++
  line [.localGet X, .localGet A, .f64Copysign]

/-- The locals of a call: the arguments, and zeros. -/
def arguments (a b : BitVec 64) : Nat → Value := fun j =>
  if j = A then .f64 a else if j = B then .f64 b else .f64 0

/-- What a function returns, falling off its end or by `return`, and its record. -/
def returned : Res Unit × State → Option (BitVec 64 × List Event)
  | (.normal, s) => top s
  | (.return_, s) => top s
  | _ => none
where
  top (s : State) : Option (BitVec 64 × List Event) :=
    match s.stack with
    | .f64 r :: _ => some (r, s.record)
    | _ => none

/-- A call of `__fmod`: its result and the record of its arithmetic. -/
def fmod (fuel : Nat) (a b : BitVec 64) : Option (BitVec 64 × List Event) :=
  returned (run machine fuel fmodBody [] ⟨arguments a b, [], []⟩)

/-! ### What the steps record -/

/-- The product that tries or performs a doubling. -/
def doubling (t : BitVec 64) : Event := .mul t two (mul t two)

/-- A product or difference without rounding. -/
def Event.Exact : Event → Prop
  | .shift _ => True
  | .mul x y r => IsFinite x ∧ IsFinite y ∧ IsFinite r ∧ value r = value x * value y
  | .sub x y r => IsFinite x ∧ IsFinite y ∧ IsFinite r ∧ value r = value x - value y

/-- A doubling whose product is past the largest number. -/
def Event.Overflows : Event → Prop
  | .mul x y r => y = two ∧ IsFinite x ∧ 2 ^ 1024 ≤ value x * value y ∧ r = INF
  | _ => False

def Event.Doubles : Event → Prop
  | .mul _ y _ => y = two
  | _ => False

/-- The halving of the scale `|b|` itself, after which the scale is below `|b|`. -/
def Event.Leaves (b : BitVec 64) : Event → Prop
  | .mul x y r => y = half ∧ value x = |value b| ∧ IsFinite r ∧ value r < |value b|
  | _ => False

section
variable {x y t : BitVec 64} {n m : Nat}

theorem value_is {s : Float.Model.UnpackedFloat.Sign} (h : Is s n x) :
    value x = s.apply n / 2 ^ 1074 := by
  rw [value, h.sign, h.scaled]

theorem value_positive (h : Is .positive n x) : value x = n / 2 ^ 1074 := by
  rw [value_is h, Float.Model.UnpackedFloat.Sign.apply, Int.cast_natCast]

theorem exact_double (ht : Is .positive n t) (hn : n ≠ 0) (hlt : 2 * n < limit) :
    (doubling t).Exact := by
  have h2 := is_double ht.finite (by rw [ht.scaled]; exact hn) (by rw [ht.scaled]; exact hlt)
  rw [ht.sign, ht.scaled] at h2
  refine ⟨ht.finite, is_two.finite, h2.finite, ?_⟩
  rw [value_positive h2, value_positive ht, value_two, Nat.cast_mul, Nat.cast_ofNat]
  generalize (2 ^ 1074 : ℚ) = d
  ring

theorem overflows_double (ht : Is .positive n t) (hle : limit ≤ 2 * n) :
    (doubling t).Overflows := by
  refine ⟨rfl, ht.finite, ?_, ?_⟩
  · have hpow : (0 : ℚ) < 2 ^ 1074 := by positivity
    have hlimit : ((limit : Nat) : ℚ) = 2 ^ 1024 * 2 ^ 1074 := by
      rw [limit, Nat.cast_mul, Nat.cast_pow, Nat.cast_pow, Nat.cast_ofNat, ← pow_add, ← pow_add]
    rw [value_positive ht, value_two, div_mul_eq_mul_div, le_div_iff₀ hpow, ← hlimit]
    exact_mod_cast (by lia : limit ≤ n * 2)
  · rw [double_overflow ht.finite (by rw [ht.scaled]; exact hle), ht.sign]
    decide +kernel

theorem exact_half (ht : Is .positive (2 * n) t) (hn : n ≠ 0) :
    Event.Exact (.mul t half (mul t half)) := by
  have h2 := is_half ht.finite hn ht.scaled
  rw [ht.sign] at h2
  refine ⟨ht.finite, is_half_one.finite, h2.finite, ?_⟩
  rw [value_positive h2, value_positive ht, value_half, Nat.cast_mul, Nat.cast_ofNat]
  generalize (2 ^ 1074 : ℚ) = d
  ring

theorem exact_sub (hx : Is .positive m x) (ht : Is .positive n t) (hle : n ≤ m)
    (h : Is .positive (m - n) (sub x t)) : Event.Exact (.sub x t (sub x t)) := by
  refine ⟨hx.finite, ht.finite, h.finite, ?_⟩
  rw [value_positive h, value_positive hx, value_positive ht, Nat.cast_sub hle, sub_div]

theorem isMagnitude_is (h : Is .positive n x) : IsMagnitude x := ⟨h.sign, h.finite.not_nan⟩

theorem isMagnitude_inf : IsMagnitude INF := ⟨rfl, fun h => h.2 (by decide +kernel)⟩

theorem scaled_inf : scaled INF = limit :=
  scaled_infinity (by decide +kernel) isMagnitude_inf.not_nan

end

/-! ### Doubling -/

section
variable {fuel : Nat} {labels : List (Option Unit)} {rest : List (Code Op)}
variable {l : Nat → Value} {st : List Value} {r : List Event} {x y t : BitVec 64} {n m : Nat}

/-- The locals after an assignment to the scale. -/
def setT (l : Nat → Value) (t : BitVec 64) : Nat → Value := fun j => if j = T then .f64 t else l j

def setX (l : Nat → Value) (x : BitVec 64) : Nat → Value := fun j => if j = X then .f64 x else l j

theorem doubling_again (hT : l T = .f64 t) (hX : l X = .f64 x) (h : le (mul t two) x = true) :
    run machine fuel doublingBody labels ⟨l, st, r⟩ =
      (.br 0, ⟨setT l (mul t two), st, doubling t :: doubling t :: r⟩) := by
  have htest : runLine [.localGet T, .f64Const two, .f64Mul, .localGet X, .f64Le, .i32Eqz]
      ⟨l, st, r⟩ = some ⟨l, flag false :: st, doubling t :: r⟩ := by simp [hT, hX, h, doubling]
  have hset : runLine [.localGet T, .f64Const two, .f64Mul, .localSet T]
      ⟨l, st, doubling t :: r⟩ =
        some ⟨setT l (mul t two), st, doubling t :: doubling t :: r⟩ := by
    simp only [line_localGet, line_f64Const, line_f64Mul, line_localSet, runLine_nil, hT]
    rfl
  simp only [doublingBody, append_assoc]
  rw [run_line htest, singleton_append, run_brIf_passed, run_line hset, run_single, runCode]

theorem doubling_stop (hT : l T = .f64 t) (hX : l X = .f64 x) (h : le (mul t two) x = false) :
    run machine fuel doublingBody labels ⟨l, st, r⟩ = (.br 1, ⟨l, st, doubling t :: r⟩) := by
  have htest : runLine [.localGet T, .f64Const two, .f64Mul, .localGet X, .f64Le, .i32Eqz]
      ⟨l, st, r⟩ = some ⟨l, flag true :: st, doubling t :: r⟩ := by simp [hT, hX, h, doubling]
  simp only [doublingBody, append_assoc]
  rw [run_line htest, singleton_append, run_brIf_taken]

/-- What trying to double does to the test. -/
theorem le_double (ht : Is .positive n t) (hn : n ≠ 0) (hx : Is .positive m x) :
    le (mul t two) x = true ↔ 2 * n ≤ m := by
  have hm : m < limit := hx.scaled ▸ scaled_lt hx.finite
  rcases Nat.lt_or_ge (2 * n) limit with hlt | hge
  · have h2 := is_double ht.finite (by rw [ht.scaled]; exact hn) (by rw [ht.scaled]; exact hlt)
    rw [ht.sign, ht.scaled] at h2
    rw [le_iff (isMagnitude_is h2) (isMagnitude_is hx), h2.scaled, hx.scaled]
  · have hinf : mul t two = INF := (overflows_double ht hge).2.2.2
    rw [hinf, le_iff isMagnitude_inf (isMagnitude_is hx), scaled_inf, hx.scaled]
    lia

theorem exact_or_overflows (ht : Is .positive n t) (hn : n ≠ 0) :
    (doubling t).Exact ∨ (doubling t).Overflows := by
  rcases Nat.lt_or_ge (2 * n) limit with hlt | hge
  · exact .inl (exact_double ht hn hlt)
  · exact .inr (overflows_double ht hge)

theorem setT_self (hT : l T = .f64 t) : setT l t = l := by
  funext j
  rw [setT]
  split
  · rw [‹j = T›, hT]
  · rfl

theorem setT_setT (l : Nat → Value) (t t' : BitVec 64) : setT (setT l t) t' = setT l t' := by
  funext j
  rw [setT, setT, setT]
  split <;> rfl

/-- The round that finds the scale within a factor of two of `x`. -/
theorem doubling_ends (ht : Is .positive n t) (hn : n ≠ 0) (hx : Is .positive m x)
    (hlt : m < 2 * n) (hT : l T = .f64 t) (hX : l X = .f64 x) (s : State) (fuel' : Nat) :
    machine.restart s (fun s' => run machine fuel doublingBody labels s') (fuel' + 1)
      ⟨l, s.stack, r⟩ = (.br 0, ⟨l, s.stack, doubling t :: r⟩) := by
  have hno : le (mul t two) x = false := by
    rw [← Bool.not_eq_true, le_double ht hn hx]
    lia
  have hbody := @doubling_stop fuel labels l s.stack r x t hT hX hno
  rw [Machine.restart_leave (by rw [hbody]; simp), hbody]
  rfl

/-- **The first loop** ends with the scale within a factor of two of `x`. -/
theorem run_doubling (hx : Is .positive m x) (s : State) (k : Nat) :
    ∀ n t l r fuel', Is .positive n t → n ≠ 0 → n ≤ m → m < 2 ^ k * (2 * n) → k < fuel' →
      l T = .f64 t → l X = .f64 x →
      ∃ j t' test doublings,
        machine.restart s (fun s' => run machine fuel doublingBody labels s') fuel'
          ⟨l, s.stack, r⟩ =
          (.br 0, ⟨setT l t', s.stack, test :: doublings ++ r⟩) ∧
        Is .positive (n * 2 ^ j) t' ∧ n * 2 ^ j ≤ m ∧ m < 2 * (n * 2 ^ j) ∧
        (test.Exact ∨ test.Overflows) ∧ ∀ e ∈ doublings, e.Exact ∧ e.Doubles := by
  induction k with
  | zero =>
    intro n t l r fuel' ht hn hle hlt hfuel hT hX
    obtain ⟨f, rfl⟩ := Nat.exists_eq_succ_of_ne_zero hfuel.ne'
    refine ⟨0, t, doubling t, [], ?_, by rwa [Nat.pow_zero, Nat.mul_one], by lia, by lia,
      exact_or_overflows ht hn, fun e he => nomatch he⟩
    rw [setT_self hT]
    exact doubling_ends ht hn hx (by lia) hT hX s f
  | succ k ih =>
    intro n t l r fuel' ht hn hle hlt hfuel hT hX
    obtain ⟨f, rfl⟩ := Nat.exists_eq_succ_of_ne_zero (Nat.ne_of_gt (Nat.zero_lt_of_lt hfuel))
    by_cases hagain : 2 * n ≤ m
    · have hlim : 2 * n < limit := hagain.trans_lt (hx.scaled ▸ scaled_lt hx.finite)
      have h2 := is_double ht.finite (by rw [ht.scaled]; exact hn) (by rw [ht.scaled]; exact hlim)
      rw [ht.sign, ht.scaled] at h2
      have hbody := @doubling_again fuel labels l s.stack r x t hT hX
        ((le_double ht hn hx).mpr hagain)
      obtain ⟨j, t', test, doublings, hrun, ht', hle', hlt', htest, hall⟩ :=
        ih (2 * n) (mul t two) (setT l (mul t two)) (doubling t :: doubling t :: r) f h2 (by lia)
          hagain (by rw [Nat.pow_succ] at hlt; rw [← Nat.mul_assoc]; lia) (by lia) rfl
          (by rw [setT, if_neg (by decide), hX])
      have hmul : n * 2 ^ (j + 1) = 2 * n * 2 ^ j := by ring
      refine ⟨j + 1, t', test, doublings ++ [doubling t, doubling t], ?_, hmul ▸ ht', hmul ▸ hle',
        hmul ▸ hlt', htest, fun e he => ?_⟩
      · rw [Machine.restart_again hbody]
        exact hrun.trans (by
          rw [setT_setT, cons_append, cons_append, append_assoc]
          rfl)
      · rcases mem_append.mp he with he | he
        · exact hall e he
        · have : e = doubling t := by simpa using he
          exact this ▸ ⟨exact_double ht hn hlim, rfl⟩
    · refine ⟨0, t, doubling t, [], ?_, by rwa [Nat.pow_zero, Nat.mul_one], by lia, by lia,
        exact_or_overflows ht hn, fun e he => nomatch he⟩
      rw [setT_self hT]
      exact doubling_ends ht hn hx (by lia) hT hX s f

/-! ### Halving -/

variable {y : BitVec 64} {p : Nat}

/-- The remainder after a round, and what the round records. -/
def subtract (x t : BitVec 64) : BitVec 64 × List Event :=
  if le t x then (sub x t, [.sub x t (sub x t)]) else (x, [])

theorem halving_round (hT : l T = .f64 t) (hX : l X = .f64 x) (hY : l Y = .f64 y)
    (h : le y t = true) :
    run machine fuel halvingBody labels ⟨l, st, r⟩ =
      (.br 0, ⟨setT (setX l (subtract x t).1) (mul t half), st,
        .mul t half (mul t half) :: ((subtract x t).2 ++ r)⟩) := by
  have htest : runLine [.localGet T, .localGet Y, .f64Ge, .i32Eqz] ⟨l, st, r⟩ =
      some ⟨l, flag false :: st, r⟩ := by simp [hT, hY, h]
  have hcmp : runLine [.localGet X, .localGet T, .f64Ge] ⟨l, st, r⟩ =
      some ⟨l, flag (le t x) :: st, r⟩ := by simp [hT, hX]
  have hsub : run machine fuel
      (if le t x then line [.localGet X, .localGet T, .f64Sub, .localSet X] else [])
      (none :: labels) ⟨l, st, r⟩ =
        (.normal, ⟨setX l (subtract x t).1, st, (subtract x t).2 ++ r⟩) := by
    by_cases hle : le t x
    · rw [if_pos hle, subtract, if_pos hle]
      refine run_line_end ?_
      simp only [line_localGet, line_f64Sub, line_localSet, runLine_nil, hT, hX]
      rfl
    · have hself : setX l x = l := by
        funext j
        rw [setX]
        split
        · rw [‹j = X›, hX]
        · rfl
      rw [if_neg hle, subtract, if_neg hle, run_nil, hself]
      rfl
  have hset (r' : List Event) :
      runLine [.localGet T, .f64Const half, .f64Mul, .localSet T]
        ⟨setX l (subtract x t).1, st, r'⟩ =
      some ⟨setT (setX l (subtract x t).1) (mul t half), st, .mul t half (mul t half) :: r'⟩ := by
    have hT' : setX l (subtract x t).1 T = .f64 t := by rw [setX, if_neg (by decide), hT]
    simp only [line_localGet, line_f64Const, line_f64Mul, line_localSet, runLine_nil, hT']
    rfl
  simp only [halvingBody, append_assoc]
  rw [run_line htest, singleton_append, run_brIf_passed, run_line hcmp, singleton_append,
    run_if_none hsub, run_line (hset _), run_single, runCode]

theorem halving_stop (hT : l T = .f64 t) (hY : l Y = .f64 y) (h : le y t = false) :
    run machine fuel halvingBody labels ⟨l, st, r⟩ = (.br 1, ⟨l, st, r⟩) := by
  have htest : runLine [.localGet T, .localGet Y, .f64Ge, .i32Eqz] ⟨l, st, r⟩ =
      some ⟨l, flag true :: st, r⟩ := by simp [hT, hY, h]
  simp only [halvingBody, append_assoc]
  rw [run_line htest, singleton_append, run_brIf_taken]

/-- A round makes the remainder smaller than the scale and keeps it modulo the scale. -/
theorem is_subtract (hx : Is .positive m x) (ht : Is .positive n t) (hlt : m < 2 * n) :
    ∃ m', Is .positive m' (subtract x t).1 ∧ m' < n ∧ m' % n = m % n ∧
      ∀ e ∈ (subtract x t).2, e.Exact ∧ ¬ e.Doubles := by
  rw [subtract]
  by_cases h : le t x
  · have hle : n ≤ m := by
      have := (le_iff (isMagnitude_is ht) (isMagnitude_is hx)).mp h
      rwa [ht.scaled, hx.scaled] at this
    have hsub := is_sub_of_lt hx.finite ht.finite hx.sign ht.sign (by
      rw [ht.scaled, hx.scaled]
      exact hle)
      (by rw [ht.scaled, hx.scaled]; exact hlt)
    rw [ht.scaled, hx.scaled] at hsub
    rw [if_pos h]
    refine ⟨m - n, hsub, by lia, ?_, fun e he => ?_⟩
    · rw [Nat.mod_eq_sub_mod hle]
    · rw [mem_singleton.mp he]
      exact ⟨exact_sub hx ht hle hsub, id⟩
  · have hlt' : m < n := by
      have := mt (le_iff (isMagnitude_is ht) (isMagnitude_is hx)).mpr h
      rw [ht.scaled, hx.scaled] at this
      lia
    rw [if_neg h]
    exact ⟨m, hx, hlt', rfl, fun e he => nomatch he⟩

/-- **The second loop** ends with the remainder of the division by `|b|`. -/
theorem run_halving {b : BitVec 64} (hy : Is .positive p y) (hp : p ≠ 0)
    (hb : |value b| = p / 2 ^ 1074) (s : State) (k : Nat) :
    ∀ m x t l r fuel', Is .positive m x → Is .positive (p * 2 ^ k) t → m < 2 * (p * 2 ^ k) →
      k + 1 < fuel' → l T = .f64 t → l X = .f64 x → l Y = .f64 y →
      ∃ l' x' leave steps,
        machine.restart s (fun s' => run machine fuel halvingBody labels s') fuel' ⟨l, s.stack, r⟩ =
          (.br 0, ⟨l', s.stack, leave :: steps ++ r⟩) ∧
        l' X = .f64 x' ∧ l' A = l A ∧ Is .positive (m % p) x' ∧ leave.Leaves b ∧
        ∀ e ∈ steps, e.Exact ∧ ¬ e.Doubles := by
  induction k with
  | zero =>
    intro m x t l r fuel' hx ht hlt hfuel hT hX hY
    obtain ⟨f, rfl⟩ : ∃ f, fuel' = f + 2 := ⟨fuel' - 2, by lia⟩
    rw [Nat.pow_zero, Nat.mul_one] at ht hlt
    obtain ⟨m', hx', hlt', hmod, hall⟩ := is_subtract hx ht hlt
    obtain ⟨n', hn', ht'⟩ := half_lt ht.finite (by rw [ht.scaled]; exact hp)
    rw [ht.sign] at ht'
    rw [ht.scaled] at hn'
    have hge : le y t = true := by
      rw [le_iff (isMagnitude_is hy) (isMagnitude_is ht), hy.scaled, ht.scaled]
    have hno : le y (mul t half) = false := by
      rw [← Bool.not_eq_true, le_iff (isMagnitude_is hy) (isMagnitude_is ht'), hy.scaled,
        ht'.scaled]
      lia
    have hround := @halving_round fuel labels l s.stack r x t y hT hX hY hge
    have hstop := @halving_stop fuel labels (setT (setX l (subtract x t).1) (mul t half)) s.stack
      (.mul t half (mul t half) :: ((subtract x t).2 ++ r)) (mul t half) y rfl
      (by rw [setT, if_neg (by decide), setX, if_neg (by decide), hY]) hno
    have hm' : m' = m % p := by rw [← hmod, Nat.mod_eq_of_lt hlt']
    refine ⟨setT (setX l (subtract x t).1) (mul t half), (subtract x t).1,
      .mul t half (mul t half), (subtract x t).2, ?_, rfl, rfl, hm' ▸ hx', ?_, hall⟩
    · rw [Machine.restart_again hround]
      change machine.restart s (fun s' => run machine fuel halvingBody labels s') (f + 1)
        ⟨setT (setX l (subtract x t).1) (mul t half), s.stack,
          .mul t half (mul t half) :: ((subtract x t).2 ++ r)⟩ = _
      rw [Machine.restart_leave (by rw [hstop]; simp), hstop]
      rfl
    · refine ⟨rfl, by rw [hb, value_positive ht], ht'.finite, ?_⟩
      have hpow : (0 : ℚ) < 2 ^ 1074 := by positivity
      rw [hb, value_positive ht', div_lt_div_iff_of_pos_right hpow]
      exact_mod_cast hn'
  | succ k ih =>
    intro m x t l r fuel' hx ht hlt hfuel hT hX hY
    obtain ⟨f, rfl⟩ := Nat.exists_eq_succ_of_ne_zero (Nat.ne_of_gt (Nat.zero_lt_of_lt hfuel))
    obtain ⟨m', hx', hlt', hmod, hall⟩ := is_subtract hx ht hlt
    have hdouble : p * 2 ^ (k + 1) = 2 * (p * 2 ^ k) := by ring
    have hge : le y t = true := by
      rw [le_iff (isMagnitude_is hy) (isMagnitude_is ht), hy.scaled, ht.scaled]
      exact Nat.le_mul_of_pos_right p (by positivity)
    have hround := @halving_round fuel labels l s.stack r x t y hT hX hY hge
    have ht' := is_half (n := p * 2 ^ k) ht.finite (by lia) (by rw [ht.scaled, hdouble])
    rw [ht.sign] at ht'
    obtain ⟨l', x'', leave, steps, hrun, hX', hA', hx'', hleave, hsteps⟩ :=
      ih m' (subtract x t).1 (mul t half) (setT (setX l (subtract x t).1) (mul t half))
        (.mul t half (mul t half) :: ((subtract x t).2 ++ r)) f hx' ht' (by lia) (by lia)
        rfl rfl
        (by rw [setT, if_neg (by decide), setX, if_neg (by decide), hY])
    have hmodp : m' % p = m % p := by
      rw [← Nat.mod_mul_right_mod m' p (2 ^ (k + 1)), hmod, Nat.mod_mul_right_mod]
    refine ⟨l', x'', leave, steps ++ .mul t half (mul t half) :: (subtract x t).2, ?_, hX', hA',
      hmodp ▸ hx'', hleave, fun e he => ?_⟩
    · rw [Machine.restart_again hround]
      exact hrun.trans (by rw [cons_append, cons_append, append_assoc]; rfl)
    · rcases mem_append.mp he with he | he
      · exact hsteps e he
      · rcases mem_cons.mp he with rfl | he
        · refine ⟨exact_half (hdouble ▸ ht) (by lia), fun h => ?_⟩
          exact absurd (show half = two from h) (by decide)
        · exact hall e he

/-! ### The whole call -/

theorem is_abs (h : IsFinite x) : Is .positive (scaled x) (abs x) where
  finite := by
    rw [IsFinite, expo_congr (toNat_abs_mod x)]
    exact h
  sign := sign_abs x
  scaled := scaled_congr (toNat_abs_mod x)

theorem is_copysign (h : IsFinite x) (z : BitVec 64) : Is (sign z) (scaled x) (copysign x z) where
  finite := by
    rw [IsFinite, expo_congr (toNat_copysign_mod x z)]
    exact h
  sign := sign_copysign x z
  scaled := scaled_congr (toNat_copysign_mod x z)

theorem eq_abs_inf (h : IsFinite x) : eq (abs x) INF = false := by
  have hlt := scaled_lt h
  rw [← Bool.not_eq_true, eq_iff (isMagnitude_is (is_abs h)) isMagnitude_inf, scaled_inf,
    (is_abs h).scaled]
  lia

variable {test : List Op} {s : State} {a b : BitVec 64}

/-- A test that fails. -/
theorem run_returnIf_passed {value : List Op}
    (h : runLine test ⟨l, st, r⟩ = some ⟨l, flag false :: st, r⟩) :
    run machine fuel (returnIf test value ++ rest) labels ⟨l, st, r⟩ =
      run machine fuel rest labels ⟨l, st, r⟩ := by
  rw [returnIf, append_assoc, run_line h, singleton_append,
    run_if_none (by rw [if_neg (by decide), run_nil])]

/-- A test that succeeds. -/
theorem run_returnIf_taken {value : List Op}
    (h : runLine test ⟨l, st, r⟩ = some ⟨l, flag true :: st, r⟩)
    (hv : runLine value ⟨l, st, r⟩ = some s) :
    run machine fuel (returnIf test value ++ rest) labels ⟨l, st, r⟩ = (.return_, s) := by
  have hret : run machine fuel (line value ++ [.basic .return_]) (none :: labels) ⟨l, st, r⟩ =
      (.return_, s) := by
    rw [run_line hv]
    exact run_step_stop rfl (by simp)
  rw [returnIf, append_assoc, run_line h, singleton_append, run_if_return hret]

theorem run_specialCases (ha : IsFinite a) (hb : IsFinite b) (hb0 : scaled b ≠ 0)
    (hA : l A = .f64 a) (hB : l B = .f64 b) :
    run machine fuel (specialCases ++ rest) labels ⟨l, st, r⟩ =
      run machine fuel rest labels ⟨l, st, r⟩ := by
  simp only [specialCases, append_assoc]
  rw [run_returnIf_passed (by simp [hB, eq_zero hb hb0]),
    run_returnIf_passed (by simp [hA, eq_abs_inf ha]),
    run_returnIf_passed (by simp [hA, eq_of_isFinite ha]),
    run_returnIf_passed (by simp [hB, eq_of_isFinite hb]),
    run_returnIf_passed (by simp [hB, eq_abs_inf hb])]

/-- A sign as a factor. -/
def factor (s : Float.Model.UnpackedFloat.Sign) : ℚ := s.apply 1

theorem cast_apply (s : Float.Model.UnpackedFloat.Sign) (n : ℤ) :
    (s.apply n : ℚ) = factor s * n := by
  cases s <;> simp [factor, Float.Model.UnpackedFloat.Sign.apply]

theorem factor_mul (s s' : Float.Model.UnpackedFloat.Sign) :
    factor (s * s') = factor s * factor s' := by
  cases s <;> cases s' <;> decide +kernel

theorem factor_mul_self (s : Float.Model.UnpackedFloat.Sign) : factor s * factor s = 1 := by
  cases s <;> decide +kernel

/-- The remainder of the magnitudes, with the sign of the dividend, is the remainder. -/
theorem value_remainder (a b : BitVec 64) (hb0 : scaled b ≠ 0) :
    ((sign a).apply (scaled a % scaled b : Nat) : ℚ) / 2 ^ 1074 =
      value a - value b * truncate (value a / value b) := by
  have hn : (scaled b : ℚ) ≠ 0 := by exact_mod_cast hb0
  have hd : (2 ^ 1074 : ℚ) ≠ 0 := by positivity
  have hsq := factor_mul_self (sign b)
  have hs : factor (sign b) ≠ 0 := left_ne_zero_of_mul (hsq ▸ one_ne_zero)
  have hquot : value a / value b = ((sign a * sign b).apply (scaled a) : ℤ) / (scaled b : ℚ) := by
    rw [value, value, cast_apply, cast_apply, cast_apply, factor_mul, Int.cast_natCast,
      Int.cast_natCast, div_div_div_cancel_right₀ hd, div_eq_div_iff (mul_ne_zero hs hn) hn]
    linear_combination (-factor (sign a) * scaled a * scaled b) * hsq
  have hmod : (scaled a : ℚ) =
      scaled b * (scaled a / scaled b : Nat) + (scaled a % scaled b : Nat) := by
    exact_mod_cast (Nat.div_add_mod (scaled a) (scaled b)).symm
  rw [hquot, truncate_div _ _ (Nat.pos_of_ne_zero hb0), value, value, cast_apply, cast_apply,
    cast_apply, cast_apply, factor_mul]
  simp only [Int.cast_natCast]
  generalize (2 ^ 1074 : ℚ) = d
  rw [hmod]
  linear_combination (factor (sign a) * scaled b * (scaled a / scaled b : Nat) / d) * hsq

theorem value_of_is_remainder (hb0 : scaled b ≠ 0) (h : Is (sign a) (scaled a % scaled b) x) :
    value x = value a - value b * truncate (value a / value b) :=
  (value_is h).trans (value_remainder a b hb0)

theorem abs_value (x : BitVec 64) : |value x| = scaled x / 2 ^ 1074 := by
  have hpos : (0 : ℚ) ≤ scaled x / 2 ^ 1074 := by positivity
  rw [value]
  cases sign x with
  | positive => rw [Float.Model.UnpackedFloat.Sign.apply, Int.cast_natCast, abs_of_nonneg hpos]
  | negative =>
    rw [Float.Model.UnpackedFloat.Sign.apply, Int.cast_neg, Int.cast_natCast, neg_div, abs_neg,
      abs_of_nonneg hpos]

/-- A loop that leaves through the block around it. -/
theorem run_block_loop {body : List (Code Op)} {s' : State}
    (h : machine.restart s (fun s' => run machine fuel body (none :: none :: labels) s') fuel s =
      (.br 0, s')) :
    run machine fuel (.block [.loop body] :: rest) labels s =
      run machine fuel rest labels ⟨s'.locals, s.stack, s'.record⟩ := by
  rw [run_cons, runCode, run_single, runCode, h]
  rfl

/-- The locals of a call with the magnitudes set. -/
def magnitudes (a b : BitVec 64) : Nat → Value := fun j =>
  if j = Y then .f64 (abs b) else if j = X then .f64 (abs a) else arguments a b j

theorem line_magnitudes (a b : BitVec 64) :
    runLine [.localGet A, .f64Abs, .localSet X, .localGet B, .f64Abs, .localSet Y]
      ⟨arguments a b, [], []⟩ = some ⟨magnitudes a b, [], []⟩ := by
  simp only [line_localGet, arguments, A, B, X]
  rfl

theorem line_copysign {z : BitVec 64} (hA : l A = .f64 a) (hX : l X = .f64 z) :
    runLine [.localGet X, .localGet A, .f64Copysign] ⟨l, [], r⟩ =
      some ⟨l, [.f64 (copysign z a)], r⟩ := by simp [hA, hX]

/-- The code after the magnitudes. -/
def division : List (Code Op) :=
  line [.localGet Y, .localSet T] ++
  [.block [.loop doublingBody], .block [.loop halvingBody]] ++
  line [.localGet X, .localGet A, .f64Copysign]

theorem run_fmodBody {a b : BitVec 64} (ha : IsFinite a) (hb : IsFinite b) (hb0 : scaled b ≠ 0) :
    run machine fuel fmodBody [] ⟨arguments a b, [], []⟩ =
      run machine fuel (returnIf [.localGet X, .localGet Y, .f64Lt]
        [.localGet X, .localGet A, .f64Copysign] ++ division) [] ⟨magnitudes a b, [], []⟩ := by
  simp only [fmodBody, append_assoc]
  rw [run_specialCases ha hb hb0 rfl rfl, smallDividend, append_assoc,
    run_line (line_magnitudes a b), division, append_assoc]

theorem le_of_pow_lt {i k : Nat} (h : 2 ^ i < 2 ^ k * 2) : i ≤ k := by
  rw [← Nat.pow_succ] at h
  exact Nat.le_of_lt_succ ((Nat.pow_lt_pow_iff_right (by decide)).mp h)

/-- The division of the magnitudes, when the dividend is not the smaller. -/
theorem run_division (hfuel : 2100 ≤ fuel) (ha : IsFinite a) (hb : IsFinite b) (hn : scaled b ≠ 0)
    (hle : scaled b ≤ scaled a) :
    ∃ l' x' leave steps test doublings,
      run machine fuel division [] ⟨magnitudes a b, [], []⟩ =
        (.normal, ⟨l', [.f64 (copysign x' a)], leave :: steps ++ test :: doublings⟩) ∧
      Is .positive (scaled a % scaled b) x' ∧ leave.Leaves b ∧
      (∀ e ∈ steps, e.Exact ∧ ¬ e.Doubles) ∧ (test.Exact ∨ test.Overflows) ∧
      ∀ e ∈ doublings, e.Exact ∧ e.Doubles := by
  have hlim : scaled a < limit := scaled_lt ha
  have hlimit : limit = 2 ^ 2097 * 2 := by rw [limit, ← pow_add, ← pow_succ]
  obtain ⟨l, hl⟩ : ∃ l, l = magnitudes a b := ⟨_, rfl⟩
  have hX : l X = .f64 (abs a) := by rw [hl]; rfl
  have hY : l Y = .f64 (abs b) := by rw [hl]; rfl
  have hline : runLine [.localGet Y, .localSet T] ⟨l, [], []⟩ = some ⟨setT l (abs b), [], []⟩ := by
    simp only [line_localGet, line_localSet, runLine_nil, hY]
    rfl
  obtain ⟨j, t', test, doublings, hrun1, ht', hle', hlt', htest, hdoublings⟩ :=
    @run_doubling fuel [none, none] (abs a) (scaled a) (is_abs ha) ⟨setT l (abs b), [], []⟩ 2097
      (scaled b) (abs b) (setT l (abs b)) [] fuel (is_abs hb) hn hle
      (Nat.lt_of_lt_of_le (hlimit ▸ hlim)
        (Nat.mul_le_mul_left _ (Nat.le_mul_of_pos_right 2 (Nat.pos_of_ne_zero hn))))
      (Nat.lt_of_lt_of_le (by decide) hfuel) rfl (by rw [setT, if_neg (by decide), hX])
  have hj : j ≤ 2097 := le_of_pow_lt <| calc
    2 ^ j ≤ scaled b * 2 ^ j := Nat.le_mul_of_pos_left _ (Nat.pos_of_ne_zero hn)
    _ < limit := hle'.trans_lt hlim
    _ = 2 ^ 2097 * 2 := hlimit
  obtain ⟨l', x', leave, steps, hrun2, hX', hA', hx', hleave, hsteps⟩ :=
    @run_halving fuel [none, none] (abs b) (scaled b) b (is_abs hb) hn (abs_value b)
      ⟨setT l t', [], test :: doublings⟩ j (scaled a) (abs a) t' (setT l t')
      (test :: doublings) fuel
      (is_abs ha) ht' hlt'
      (Nat.lt_of_lt_of_le ((Nat.succ_le_succ hj).trans_lt (by decide)) hfuel) rfl
      (by rw [setT, if_neg (by decide), hX]) (by rw [setT, if_neg (by decide), hY])
  have hAl' : l' A = .f64 a := by
    rw [hA', setT, if_neg (by decide), hl]
    rfl
  refine ⟨l', x', leave, steps, test, doublings, ?_, hx', hleave, hsteps, htest, hdoublings⟩
  rw [setT_setT, append_nil] at hrun1
  rw [division, append_assoc, ← hl, run_line hline, cons_append, singleton_append,
    run_block_loop hrun1, run_block_loop hrun2, run_line_end (line_copysign hAl' hX')]

end

/-! ### Main result -/

/-- **The remainder is exact.**  For finite arguments, the divisor not zero, the call returns
the remainder of the truncated division with the sign of the dividend.  No product or
difference on the way rounds, except that the last doubling tried may overflow, after which
the scale is only halved, and that the last halving takes the scale below the divisor. -/
theorem fmod_exact (fuel : Nat) (hfuel : 2100 ≤ fuel) (a b : BitVec 64) (ha : IsFinite a)
    (hb : IsFinite b) (hb0 : value b ≠ 0) :
    ∃ r record, fmod fuel a b = some (r, record) ∧ IsFinite r ∧ sign r = sign a ∧
      value r = value a - value b * truncate (value a / value b) ∧
      (record = [] ∨ ∃ leave steps test doublings, record = leave :: steps ++ test :: doublings ∧
        leave.Leaves b ∧ (∀ e ∈ steps, e.Exact ∧ ¬ e.Doubles) ∧
        (test.Exact ∨ test.Overflows) ∧ ∀ e ∈ doublings, e.Exact ∧ e.Doubles) := by
  have hn : scaled b ≠ 0 := by
    intro h0
    refine hb0 ?_
    rw [value, h0, cast_apply, Int.cast_natCast, Nat.cast_zero, mul_zero, zero_div]
  have hx := is_abs ha
  have hy := is_abs hb
  have hA : magnitudes a b A = .f64 a := rfl
  have hX : magnitudes a b X = .f64 (abs a) := rfl
  have hY : magnitudes a b Y = .f64 (abs b) := rfl
  by_cases hlt : lt (abs a) (abs b) = true
  · have hmod : scaled a % scaled b = scaled a := Nat.mod_eq_of_lt (by
      have := (lt_iff (isMagnitude_is hx) (isMagnitude_is hy)).mp hlt
      rwa [hx.scaled, hy.scaled] at this)
    have hr := is_copysign hx.finite a
    rw [hx.scaled, ← hmod] at hr
    have hrun := (@run_fmodBody fuel a b ha hb hn).trans
      (run_returnIf_taken (by simp [hX, hY, hlt]) (line_copysign hA hX))
    refine ⟨copysign (abs a) a, [], ?_, hr.finite, hr.sign, value_of_is_remainder hn hr, .inl rfl⟩
    rw [fmod, hrun]
    rfl
  · have hle : scaled b ≤ scaled a := by
      have := mt (lt_iff (isMagnitude_is hx) (isMagnitude_is hy)).mpr hlt
      rw [hx.scaled, hy.scaled] at this
      lia
    rw [Bool.not_eq_true] at hlt
    obtain ⟨l', x', leave, steps, test, doublings, hdiv, hx', hleave, hsteps, htest, hdoublings⟩ :=
      run_division hfuel ha hb hn hle
    have hr := is_copysign hx'.finite a
    rw [hx'.scaled] at hr
    have hrun := (@run_fmodBody fuel a b ha hb hn).trans
      ((run_returnIf_passed (by simp [hX, hY, hlt])).trans hdiv)
    refine ⟨copysign x' a, leave :: steps ++ test :: doublings, ?_, hr.finite, hr.sign,
      value_of_is_remainder hn hr,
      .inr ⟨leave, steps, test, doublings, rfl, hleave, hsteps, htest, hdoublings⟩⟩
    rw [fmod, hrun]
    rfl

/-- The largest number modulo three times the least one. -/
theorem fmod_exact_largest : ∃ r record, fmod 2100 0x7fefffffffffffff 3 = some (r, record) ∧
    IsFinite r ∧ value r = value 0x7fefffffffffffff -
      value 3 * truncate (value 0x7fefffffffffffff / value 3) := by
  obtain ⟨r, record, hrun, hr, -, hv, -⟩ := fmod_exact 2100 .refl 0x7fefffffffffffff 3
    (by decide +kernel) (by decide +kernel) (by decide +kernel)
  exact ⟨r, record, hrun, hr, hv⟩

end Js2Wasm.Numeric
