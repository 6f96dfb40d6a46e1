import Js2Wasm.Lib.KeyedList

/-! # Keys of the native collections

A key is an `anyref`.  What a reference refers to is told by the `typeof`, unbox and string
helpers, which are parameters here (`World`): a boxed number with its binary64 bits, a
string with its code units, or anything else, which is known by its identity only.  A
boolean and a small integer have one reference for each value.

`denote` is the language value of a reference.  The two functions the collections rest on,
`sameValueZero` and `hashAnyref`, are written apart from one another; `sameValueZero` is the
comparison of the language, and keys it takes for equal have equal hashes unless both are
NaN (`hashAnyref_congr`).
-/
namespace Js2Wasm.Collections

/-! ### Binary64 bits -/

abbrev F64 := BitVec 64

/-- The bits without the sign. -/
def magnitude (x : F64) : F64 := x &&& 0x7fffffffffffffff#64

def isNaN (x : F64) : Bool := (0x7ff0000000000000#64).ult (magnitude x)

def isZero (x : F64) : Bool := magnitude x == 0#64

/-- `f64.eq`. -/
def f64Eq (x y : F64) : Bool := !isNaN x && !isNaN y && (x == y || isZero x && isZero y)

/-- `f64.ne`. -/
def f64Ne (x y : F64) : Bool := !f64Eq x y

/-! ### References -/

/-- What a reference refers to. -/
inductive Contents where
  | number (bits : F64)
  | string (units : List (BitVec 16))
  | other
deriving DecidableEq

inductive AnyRef where
  | null
  | ref (addr : Nat)
deriving DecidableEq

/-- What the helpers tell of the references, what a NaN plus zero is (an engine may choose
its payload and its sign), and the value that stands for a key that is not there. -/
structure World where
  contents : Nat → Contents
  nanPlusZero : F64 → F64
  nan_isNaN : ∀ x, isNaN x = true → isNaN (nanPlusZero x) = true
  missing : AnyRef

variable (W : World)

/-- `__typeof_number`, and `__unbox_number` where it says yes. -/
def unboxNumber : AnyRef → Option F64
  | .null => none
  | .ref a =>
    match W.contents a with
    | .number x => some x
    | _ => none

/-- `__typeof_string`, and the code units where it says yes. -/
def stringUnits : AnyRef → Option (List (BitVec 16))
  | .null => none
  | .ref a =>
    match W.contents a with
    | .string s => some s
    | _ => none

/-- Both are not null and the same reference. -/
def refEq : AnyRef → AnyRef → Bool
  | .ref a, .ref b => a == b
  | _, _ => false

/-- `__same_value_zero`. -/
def sameValueZero (a b : AnyRef) : Bool :=
  if a == .null && b == .null then true
  else if refEq a b then true
  else
    match unboxNumber W a, unboxNumber W b with
    | some x, some y => f64Eq x y || (f64Ne x x && f64Ne y y)
    | _, _ =>
      match stringUnits W a, stringUnits W b with
      | some s, some t => s == t
      | _, _ => false

/-- `f64.add` with zero: -0 becomes +0. -/
def addZero (x : F64) : F64 :=
  if isNaN x then W.nanPlusZero x else if isZero x then 0#64 else x

/-- The bits folded into 32 and mixed. -/
def hashNumber (x : F64) : BitVec 32 :=
  let bits := addZero W x
  let h : BitVec 32 := ((bits >>> 32) ^^^ bits).setWidth 32
  let h := (h ^^^ (h >>> 16)) * 0x85ebca6b#32
  let h := (h ^^^ (h >>> 13)) * 0xc2b2ae35#32
  (h ^^^ (h >>> 16)) &&& 0x3fffffff#32

/-- FNV-1a over the code units. -/
def hashString (units : List (BitVec 16)) : BitVec 32 :=
  units.foldl (fun h u => (h ^^^ u.setWidth 32) * 16777619#32) 0x811c9dc5#32 &&& 0x3fffffff#32

/-- `__hash_anyref`. -/
def hashAnyref (k : AnyRef) : BitVec 32 :=
  match unboxNumber W k with
  | some x => hashNumber W x
  | none =>
    match stringUnits W k with
    | some s => hashString s
    | none => 0#32

/-! ### Language values -/

inductive JsValue where
  | null
  | number (bits : F64)
  | string (units : List (BitVec 16))
  | object (addr : Nat)
deriving DecidableEq

def JsValue.isNaN : JsValue → Bool
  | .number x => Collections.isNaN x
  | _ => false

/-- SameValueZero. -/
def svz : JsValue → JsValue → Bool
  | .null, .null => true
  | .number x, .number y => isNaN x && isNaN y || f64Eq x y
  | .string s, .string t => s == t
  | .object a, .object b => a == b
  | _, _ => false

/-- CanonicalizeKeyedCollectionKey: -0 becomes +0. -/
def canonicalKey : JsValue → JsValue
  | .number x => .number (if isZero x then 0#64 else x)
  | v => v

def denote : AnyRef → JsValue
  | .null => .null
  | .ref a =>
    match W.contents a with
    | .number x => .number x
    | .string s => .string s
    | .other => .object a

/-! ### SameValueZero is an equivalence -/

variable {x y : F64} {k : AnyRef}

theorem f64Eq_refl (h : isNaN x = false) : f64Eq x x = true := by
  rw [f64Eq, h, beq_self_eq_true]
  rfl

theorem f64Eq_of_isNaN (h : isNaN x = true) (y : F64) : f64Eq x y = false := by
  rw [f64Eq, h]
  rfl

theorem f64Eq_comm (x y : F64) : f64Eq x y = f64Eq y x := by
  rw [f64Eq, f64Eq, Bool.and_comm (!isNaN x), Bool.beq_comm, Bool.and_comm (isZero x)]

theorem f64Eq_iff :
    f64Eq x y = true ↔
      isNaN x = false ∧ isNaN y = false ∧ (x = y ∨ isZero x = true ∧ isZero y = true) := by
  simp [f64Eq, and_assoc]

theorem f64Eq_trans {z : F64} (hxy : f64Eq x y = true) (hyz : f64Eq y z = true) :
    f64Eq x z = true := by
  rw [f64Eq_iff] at hxy hyz ⊢
  obtain ⟨hx, -, hxy⟩ := hxy
  obtain ⟨-, hz, hyz⟩ := hyz
  refine ⟨hx, hz, ?_⟩
  rcases hxy with rfl | ⟨hx0, hy0⟩
  · exact hyz
  · rcases hyz with rfl | ⟨-, hz0⟩
    · exact Or.inr ⟨hx0, hy0⟩
    · exact Or.inr ⟨hx0, hz0⟩

theorem svz_number :
    svz (.number x) (.number y) = true ↔
      isNaN x = true ∧ isNaN y = true ∨ f64Eq x y = true := by
  rw [svz, Bool.or_eq_true, Bool.and_eq_true]

theorem svz_refl (v : JsValue) : svz v v = true := by
  cases v with
  | null => rfl
  | number x =>
    rw [svz_number]
    cases h : isNaN x with
    | true => exact Or.inl ⟨rfl, rfl⟩
    | false => exact Or.inr (f64Eq_refl h)
  | string s => exact beq_self_eq_true s
  | object a => exact beq_self_eq_true a

theorem svz_comm (v w : JsValue) : svz v w = svz w v := by
  cases v <;> cases w <;> try rfl
  · rw [svz, svz, Bool.and_comm, f64Eq_comm]
  all_goals exact Bool.beq_comm

theorem svz_trans {u v w : JsValue} (huv : svz u v = true) (hvw : svz v w = true) :
    svz u w = true := by
  cases v with
  | null =>
    cases u with
    | null => exact hvw
    | _ => exact nomatch huv
  | number y =>
    cases u with
    | number x =>
      cases w with
      | number z =>
        rw [svz_number] at huv hvw ⊢
        rcases huv with ⟨hx, hy⟩ | hxy
        · rcases hvw with ⟨-, hz⟩ | hyz
          · exact Or.inl ⟨hx, hz⟩
          · rw [f64Eq_of_isNaN hy] at hyz
            exact nomatch hyz
        · rcases hvw with ⟨hy, -⟩ | hyz
          · rw [f64Eq_comm, f64Eq_of_isNaN hy] at hxy
            exact nomatch hxy
          · exact Or.inr (f64Eq_trans hxy hyz)
      | _ => exact nomatch hvw
    | _ => exact nomatch huv
  | string s =>
    cases u with
    | string _ =>
      rw [svz, beq_iff_eq] at huv
      rw [huv]
      exact hvw
    | _ => exact nomatch huv
  | object a =>
    cases u with
    | object _ =>
      rw [svz, beq_iff_eq] at huv
      rw [huv]
      exact hvw
    | _ => exact nomatch huv

theorem svz_isEquiv : KeyedList.IsEquiv svz := ⟨svz_refl, svz_comm, svz_trans⟩

theorem isNaN_zero : isNaN 0#64 = false := by decide

theorem isZero_zero : isZero 0#64 = true := by decide

theorem isNaN_of_isZero (h : isZero x = true) : isNaN x = false := by
  rw [isZero, beq_iff_eq] at h
  rw [isNaN, h]
  rfl

theorem svz_canonicalKey (v : JsValue) : svz (canonicalKey v) v = true := by
  cases v with
  | number x =>
    rw [canonicalKey]
    split
    case isTrue h =>
      refine svz_number.mpr (Or.inr (f64Eq_iff.mpr ⟨isNaN_zero, isNaN_of_isZero h, ?_⟩))
      exact Or.inr ⟨isZero_zero, h⟩
    case isFalse => exact svz_refl _
  | _ => exact svz_refl _

/-! ### The comparison and the hash -/

theorem denote_number (h : unboxNumber W k = some x) : denote W k = .number x := by
  cases k with
  | null => exact nomatch h
  | ref a =>
    rw [unboxNumber] at h
    rw [denote]
    cases hc : W.contents a with
    | number y =>
      rw [hc] at h
      rw [Option.some.inj h]
    | string _ | other => rw [hc] at h; exact nomatch h

theorem denote_string {s : List (BitVec 16)} (h : stringUnits W k = some s) :
    denote W k = .string s := by
  cases k with
  | null => exact nomatch h
  | ref a =>
    rw [stringUnits] at h
    rw [denote]
    cases hc : W.contents a with
    | string t =>
      rw [hc] at h
      rw [Option.some.inj h]
    | number _ | other => rw [hc] at h; exact nomatch h

/-- A key that is neither a number nor a string is known by its identity. -/
theorem denote_other (hn : unboxNumber W k = none) (hs : stringUnits W k = none) :
    denote W k = match k with
      | .null => .null
      | .ref a => .object a := by
  cases k with
  | null => rfl
  | ref a =>
    rw [unboxNumber] at hn
    rw [stringUnits] at hs
    rw [denote]
    cases hc : W.contents a with
    | number _ => rw [hc] at hn; exact nomatch hn
    | string _ => rw [hc] at hs; exact nomatch hs
    | other => rfl

theorem f64Ne_self (x : F64) : f64Ne x x = isNaN x := by
  rw [f64Ne]
  cases h : isNaN x with
  | true => rw [f64Eq_of_isNaN h]; rfl
  | false => rw [f64Eq_refl h]; rfl

/-- The comparison of the collections is SameValueZero. -/
theorem sameValueZero_eq (a b : AnyRef) : sameValueZero W a b = svz (denote W a) (denote W b) := by
  cases a with
  | null =>
    cases b with
    | null => rfl
    | ref b =>
      rw [denote, denote]
      cases W.contents b <;> rfl
  | ref a =>
    cases b with
    | null =>
      rw [denote, denote, sameValueZero, unboxNumber.eq_2, stringUnits.eq_2]
      cases W.contents a <;> rfl
    | ref b =>
      by_cases hab : a = b
      · subst hab
        rw [svz_refl, sameValueZero, refEq, beq_self_eq_true]
        rfl
      · have hne : (a == b) = false := beq_false_of_ne hab
        rw [sameValueZero, refEq, hne, unboxNumber, unboxNumber, stringUnits, stringUnits, denote,
          denote]
        cases W.contents a with
        | number x =>
          cases W.contents b with
          | number y =>
            show (f64Eq x y || (f64Ne x x && f64Ne y y)) = (isNaN x && isNaN y || f64Eq x y)
            rw [f64Ne_self, f64Ne_self, Bool.or_comm]
          | _ => rfl
        | string s => cases W.contents b <;> rfl
        | other =>
          cases W.contents b with
          | other => exact hne.symm
          | _ => rfl

/-- The hash of a language value. -/
theorem hashAnyref_eq (k : AnyRef) :
    hashAnyref W k = match denote W k with
      | .number x => hashNumber W x
      | .string s => hashString s
      | _ => 0#32 := by
  rw [hashAnyref]
  cases hn : unboxNumber W k with
  | some x => rw [denote_number W hn]
  | none =>
    cases hs : stringUnits W k with
    | some s => rw [denote_string W hs]
    | none =>
      rw [denote_other W hn hs]
      cases k <;> rfl

/-- Equal keys have equal hashes, or are both NaN. -/
theorem hashAnyref_congr {a b : AnyRef} (h : svz (denote W a) (denote W b) = true) :
    hashAnyref W a = hashAnyref W b ∨
      (denote W a).isNaN = true ∧ (denote W b).isNaN = true := by
  rw [hashAnyref_eq, hashAnyref_eq]
  cases ha : denote W a with
  | null =>
    rw [ha] at h
    cases hb : denote W b with
    | null => exact Or.inl rfl
    | _ => rw [hb] at h; exact nomatch h
  | number x =>
    rw [ha] at h
    cases hb : denote W b with
    | number y =>
      rw [hb, svz_number] at h
      rcases h with hnan | heq
      · exact Or.inr hnan
      · obtain ⟨hx, hy, hxy⟩ := f64Eq_iff.mp heq
        rcases hxy with rfl | ⟨hx0, hy0⟩
        · exact Or.inl rfl
        · -- both are zeros, and adding zero makes them the same one
          have hzero : addZero W x = addZero W y := by
            rw [addZero, addZero, hx, hy, hx0, hy0]
            rfl
          show hashNumber W x = hashNumber W y ∨ _
          rw [hashNumber, hashNumber, hzero]
          exact Or.inl rfl
    | _ => rw [hb] at h; exact nomatch h
  | string s =>
    rw [ha] at h
    cases hb : denote W b with
    | string t =>
      rw [hb, svz, beq_iff_eq] at h
      rw [h]
      exact Or.inl rfl
    | _ => rw [hb] at h; exact nomatch h
  | object a =>
    rw [ha] at h
    cases hb : denote W b with
    | object _ => exact Or.inl rfl
    | _ => rw [hb] at h; exact nomatch h

end Js2Wasm.Collections
