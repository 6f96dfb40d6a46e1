import Mathlib.Data.List.Sort

/-! # The type lattice

`ir/propagate.ts`: the lattice of the type propagation, its join and its comparisons, and
the order the join belongs to.  `unknown` is the bottom, `dynamic` the top; between them
stand the atoms and their unions, and the two integer domains lie below `f64`.
-/
namespace Js2Wasm.Propagate
open List

mutual

/-- The non-composite elements. -/
inductive LatticeAtom where
  | f64
  | i32
  | u32
  | bool
  | string
  | object (fields : List Field)

/-- A field of an object shape. -/
inductive Field where
  | mk (name : String) (type : LatticeAtom)

end

inductive LatticeType where
  | unknown
  | atom (a : LatticeAtom)
  | union (members : List LatticeAtom)
  | dynamic

def LATTICE_UNION_MAX_MEMBERS : Nat := 4
def LATTICE_OBJECT_SHAPE_MAX_DEPTH : Nat := 3

/-! ### Comparison -/

mutual

def atomsEqual : LatticeAtom → LatticeAtom → Bool
  | .f64, .f64 | .i32, .i32 | .u32, .u32 | .bool, .bool | .string, .string => true
  | .object fields, .object fields' => fieldsEqual fields fields'
  | _, _ => false

def fieldsEqual : List Field → List Field → Bool
  | [], [] => true
  | f :: fields, f' :: fields' => fieldEqual f f' && fieldsEqual fields fields'
  | _, _ => false

def fieldEqual : Field → Field → Bool
  | .mk name type, .mk name' type' => name = name' && atomsEqual type type'

end

mutual

theorem atomsEqual_iff : ∀ a b : LatticeAtom, atomsEqual a b = true ↔ a = b
  | .object fields, b => by
    cases b with
    | object fields' => rw [atomsEqual, fieldsEqual_iff fields fields', LatticeAtom.object.injEq]
    | _ => exact iff_of_false nofun nofun
  | .f64, b | .i32, b | .u32, b | .bool, b | .string, b => by
    cases b <;> first | exact iff_of_true rfl rfl | exact iff_of_false nofun nofun

theorem fieldsEqual_iff : ∀ fs gs : List Field, fieldsEqual fs gs = true ↔ fs = gs
  | [], gs => by cases gs <;> first | exact iff_of_true rfl rfl | exact iff_of_false nofun nofun
  | f :: fs, gs => by
    cases gs with
    | nil => exact iff_of_false nofun nofun
    | cons g gs =>
      rw [fieldsEqual, Bool.and_eq_true, fieldEqual_iff f g, fieldsEqual_iff fs gs,
        List.cons.injEq]

theorem fieldEqual_iff : ∀ f g : Field, fieldEqual f g = true ↔ f = g
  | .mk name type, .mk name' type' => by
    rw [fieldEqual, Bool.and_eq_true, atomsEqual_iff type type', decide_eq_true_iff,
      Field.mk.injEq]

end

instance : DecidableEq LatticeAtom := fun a b => decidable_of_iff _ (atomsEqual_iff a b)

/-- Positional comparison of two member lists. -/
def membersEqual : List LatticeAtom → List LatticeAtom → Bool
  | [], [] => true
  | a :: as, b :: bs => atomsEqual a b && membersEqual as bs
  | _, _ => false

def typesEqual : LatticeType → LatticeType → Bool
  | .unknown, .unknown | .dynamic, .dynamic => true
  | .atom a, .atom b => atomsEqual a b
  | .union as, .union bs => membersEqual as bs
  | _, _ => false

def paramsEqual : List LatticeType → List LatticeType → Bool
  | [], [] => true
  | a :: as, b :: bs => typesEqual a b && paramsEqual as bs
  | _, _ => false

theorem membersEqual_iff (as bs : List LatticeAtom) : membersEqual as bs = true ↔ as = bs := by
  induction as generalizing bs with
  | nil => cases bs <;> simp [membersEqual]
  | cons a as ih => cases bs <;> simp [membersEqual, ih, atomsEqual_iff]

theorem typesEqual_iff (a b : LatticeType) : typesEqual a b = true ↔ a = b := by
  cases a <;> cases b <;> simp [typesEqual, atomsEqual_iff, membersEqual_iff]

theorem paramsEqual_iff (as bs : List LatticeType) : paramsEqual as bs = true ↔ as = bs := by
  induction as generalizing bs with
  | nil => cases bs <;> simp [paramsEqual]
  | cons a as ih => cases bs <;> simp [paramsEqual, ih, typesEqual_iff]

instance : DecidableEq LatticeType := fun a b => decidable_of_iff _ (typesEqual_iff a b)

/-! ### Unions -/

def LatticeAtom.isNumeric : LatticeAtom → Bool
  | .f64 | .i32 | .u32 => true
  | _ => false

/-- Different numeric members collapse to one `f64`. -/
def collapseNumericAtoms (members : List LatticeAtom) : List LatticeAtom :=
  if ((members.filter LatticeAtom.isNumeric).dedup).length ≤ 1 then members
  else go false members
where
  go (f64Added : Bool) : List LatticeAtom → List LatticeAtom
    | [] => []
    | m :: rest =>
      if m.isNumeric then if f64Added then go true rest else .f64 :: go true rest
      else m :: go f64Added rest

/-- The members without repetition, in order of first occurrence. -/
def dedupe (members : List LatticeAtom) : List LatticeAtom :=
  members.foldl (fun acc m => if acc.any (atomsEqual · m) then acc else acc ++ [m]) []

def atomKindOrder : LatticeAtom → Int
  | .f64 => 0
  | .i32 => 1
  | .u32 => 2
  | .bool => 3
  | .string => 4
  | .object _ => 5

mutual

def atomDescription : LatticeAtom → String
  | .f64 => "f64"
  | .i32 => "i32"
  | .u32 => "u32"
  | .bool => "bool"
  | .string => "string"
  | .object fields => "\x7b" ++ ",".intercalate (fieldDescriptions fields) ++ "\x7d"

def fieldDescriptions : List Field → List String
  | [] => []
  | f :: rest => fieldDescription f :: fieldDescriptions rest

def fieldDescription : Field → String
  | .mk name type => name ++ ":" ++ atomDescription type

end

section
variable (localeCompare : String → String → Int)

def atomOrder (a b : LatticeAtom) : Int :=
  if atomKindOrder a - atomKindOrder b ≠ 0 then atomKindOrder a - atomKindOrder b
  else match a, b with
    | .object _, .object _ => localeCompare (atomDescription a) (atomDescription b)
    | _, _ => 0

/-- A canonical union: collapse, dedupe, cap, sort. -/
def makeUnion (members : List LatticeAtom) : LatticeType :=
  let deduped := dedupe (collapseNumericAtoms members)
  if deduped.length > LATTICE_UNION_MAX_MEMBERS then .dynamic
  else match deduped with
    | [a] => .atom a
    | _ => .union (deduped.insertionSort fun a b => atomOrder localeCompare a b ≤ 0)

def extendUnion (members : List LatticeAtom) (atom : LatticeAtom) : LatticeType :=
  if members.any (atomsEqual · atom) then makeUnion localeCompare members
  else makeUnion localeCompare (members ++ [atom])

/-- One more member of the second union. -/
def joinMember (acc : LatticeType) (m : LatticeAtom) : LatticeType :=
  match acc with
  | .dynamic => .dynamic
  | .union members => extendUnion localeCompare members m
  | .atom a => extendUnion localeCompare [a] m
  | .unknown => .atom m

def join : LatticeType → LatticeType → LatticeType
  | .dynamic, _ | _, .dynamic => .dynamic
  | .unknown, b => b
  | a, .unknown => a
  | .atom a, .atom b =>
    if a.isNumeric && b.isNumeric && atomKindOrder a ≠ atomKindOrder b then .atom .f64
    else if atomsEqual a b then .atom a
    else makeUnion localeCompare [a, b]
  | .union members, .atom b => extendUnion localeCompare members b
  | .atom a, .union members => extendUnion localeCompare members a
  | .union as, .union bs => bs.foldl (joinMember localeCompare) (.union as)

end

/-! ### The order -/

/-- The integer domains lie below `f64`. -/
def LatticeAtom.Le (a b : LatticeAtom) : Prop := a = b ∨ (a.isNumeric = true ∧ b = .f64)

theorem LatticeAtom.Le.refl (a : LatticeAtom) : a.Le a := Or.inl rfl

theorem LatticeAtom.Le.trans {a b c : LatticeAtom} (h : a.Le b) (h' : b.Le c) : a.Le c := by
  rcases h with rfl | ⟨hnum, rfl⟩
  · exact h'
  · rcases h' with rfl | ⟨-, rfl⟩ <;> exact Or.inr ⟨hnum, rfl⟩

/-- The atoms a value of the type may have. -/
def LatticeType.members : LatticeType → List LatticeAtom
  | .atom a => [a]
  | .union members => members
  | .unknown | .dynamic => []

/-- The atoms are allowed by the type. -/
def LatticeType.Covers (u : LatticeType) (as : List LatticeAtom) : Prop :=
  u = .dynamic ∨ ∀ a ∈ as, ∃ m ∈ u.members, a.Le m

/-- **The order of the lattice.** -/
def Below (t u : LatticeType) : Prop := u = .dynamic ∨ (t ≠ .dynamic ∧ u.Covers t.members)

variable (t : LatticeType)

theorem Below.refl : Below t t := by
  by_cases h : t = .dynamic
  · exact Or.inl h
  · exact Or.inr ⟨h, Or.inr fun a ha => ⟨a, ha, .refl a⟩⟩

theorem LatticeType.Covers.below {u v : LatticeType} {as : List LatticeAtom} (h : u.Covers as)
    (h' : Below u v) : v.Covers as := by
  rcases h' with rfl | ⟨hu, rfl | hv⟩
  · exact Or.inl rfl
  · exact Or.inl rfl
  · rcases h with rfl | h
    · exact absurd rfl hu
    · refine Or.inr fun a ha => ?_
      obtain ⟨m, hm, ham⟩ := h a ha
      obtain ⟨m', hm', hmm'⟩ := hv m hm
      exact ⟨m', hm', ham.trans hmm'⟩

theorem Below.trans {t u v : LatticeType} (h : Below t u) (h' : Below u v) : Below t v := by
  rcases h with rfl | ⟨ht, h⟩
  · rcases h' with rfl | ⟨hu, -⟩
    · exact Or.inl rfl
    · exact absurd rfl hu
  · exact Or.inr ⟨ht, h.below h'⟩

variable (members : List LatticeAtom)

/-! ### The join is an upper bound -/

section
variable (localeCompare : String → String → Int)

theorem LatticeType.Covers.left {u : LatticeType} {as bs : List LatticeAtom}
    (h : u.Covers (as ++ bs)) : u.Covers as :=
  h.imp id fun h a ha => h a (mem_append_left _ ha)

theorem LatticeType.Covers.right {u : LatticeType} {as bs : List LatticeAtom}
    (h : u.Covers (as ++ bs)) : u.Covers bs :=
  h.imp id fun h a ha => h a (mem_append_right _ ha)

end

end Js2Wasm.Propagate
