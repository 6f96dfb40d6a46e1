import Js2Wasm.Bytecode.Structured

/-! # The layout of the emitted code

`layoutTrees trees p` is the code of a tree at address `p`, with every jump at its target
and the exception rows of its `try`s.  A branch that leaves the tree is still pending, with
the number of `block`s and `loop`s it has left to go.  Instructions carry their constants
here; in a sink they carry an index into the pool (`Encodes`).
-/
namespace Js2Wasm.Bytecode
open List

/-- The target of a jump. -/
inductive Target where
  | addr (a : Nat)
  | pending (depth : Nat)
  deriving DecidableEq

namespace Target

def reloc (base : Nat) : Target → Target
  | addr a => addr (a + base)
  | pending depth => pending depth

/-- The operand word: a branch that waits has none yet. -/
def word : Target → Int
  | addr a => a
  | pending _ => -1

/-- The target inside the constructs whose addresses are given, the innermost first. -/
def within (labels : List Nat) : Target → Target
  | addr a => addr a
  | pending depth => (labels[depth]?).elim (pending (depth - labels.length)) addr

theorem within_nil (t : Target) : t.within [] = t := by
  cases t <;> rfl

theorem within_within (self : Nat) (labels : List Nat) (t : Target) :
    (t.within [self]).within labels = t.within (self :: labels) := by
  cases t with
  | addr a => rfl
  | pending depth =>
    cases depth with
    | zero => rfl
    | succ depth =>
      show (pending depth).within labels = _
      rw [within, within, getElem?_cons_succ, length_cons, Nat.add_sub_add_right]

theorem reloc_within (base self : Nat) (t : Target) :
    (t.within [self]).reloc base = (t.reloc base).within [self + base] := by
  cases t with
  | addr a => rfl
  | pending depth => cases depth <;> rfl

end Target

inductive Kind where
  | const | jump | tryStart | one | zero
  deriving DecidableEq

/-- What follows an opcode in the code. -/
def Op.kind : Op → Kind
  | .CONST => .const
  | .JZ | .JMP | .JNZ => .jump
  | .TRY_START => .tryStart
  | .LOAD | .STORE | .TEE | .GLOBAL_GET | .GLOBAL_SET | .CALL | .CALL_REF | .STRUCT_NEW
  | .STRUCT_GET | .STRUCT_SET => .one
  | _ => .zero

/-- An instruction of the flat code. -/
inductive Ins (N : Type) where
  | const (v : N)
  | jump (op : Op) (target : Target)
  | tryStart (target : Nat)
  | one (op : Op) (operand : Nat)
  | zero (op : Op)

namespace Ins
variable {N : Type}

def size : Ins N → Nat
  | zero _ => 1
  | _ => 2

def reloc (base : Nat) : Ins N → Ins N
  | jump op t => jump op (t.reloc base)
  | tryStart t => tryStart (t + base)
  | i => i

def within (labels : List Nat) : Ins N → Ins N
  | jump op t => jump op (t.within labels)
  | i => i

@[simp] theorem size_reloc (base : Nat) (i : Ins N) : (i.reloc base).size = i.size := by
  cases i <;> rfl

@[simp] theorem size_within (labels : List Nat) (i : Ins N) :
    (i.within labels).size = i.size := by
  cases i <;> rfl

end Ins

variable {N : Type}

/-- The number of words. -/
def wordCount : List (Ins N) → Nat
  | [] => 0
  | i :: is => i.size + wordCount is

@[simp] theorem wordCount_append (xs ys : List (Ins N)) :
    wordCount (xs ++ ys) = wordCount xs + wordCount ys := by
  induction xs with
  | nil => simp [wordCount]
  | cons x xs ih => rw [cons_append, wordCount, wordCount, ih, Nat.add_assoc]

theorem wordCount_map {f : Ins N → Ins N} (hf : ∀ i, (f i).size = i.size) (is : List (Ins N)) :
    wordCount (is.map f) = wordCount is := by
  induction is with
  | nil => rfl
  | cons i is ih => rw [map_cons, wordCount, wordCount, hf, ih]

/-- Code and exception rows. -/
structure Layout (N : Type) where
  ins : List (Ins N)
  rows : List ExcEntry

def ExcEntry.reloc (base : Nat) (e : ExcEntry) : ExcEntry :=
  ⟨e.tryStart + base, e.tryEnd + base, e.catchTarget + base, e.spAtEntry⟩

namespace Layout

def empty : Layout N := ⟨[], []⟩

def append (a b : Layout N) : Layout N := ⟨a.ins ++ b.ins, a.rows ++ b.rows⟩

def size (a : Layout N) : Nat := wordCount a.ins

def reloc (base : Nat) (a : Layout N) : Layout N :=
  ⟨a.ins.map (Ins.reloc base), a.rows.map (ExcEntry.reloc base)⟩

/-- The construct at `self` is closed. -/
def close (self : Nat) (a : Layout N) : Layout N := ⟨a.ins.map (Ins.within [self]), a.rows⟩

@[simp] theorem size_append (a b : Layout N) : (a.append b).size = a.size + b.size :=
  wordCount_append _ _

@[simp] theorem size_reloc (base : Nat) (a : Layout N) : (a.reloc base).size = a.size :=
  wordCount_map (Ins.size_reloc base) _

@[simp] theorem size_close (self : Nat) (a : Layout N) : (a.close self).size = a.size :=
  wordCount_map (Ins.size_within _) _

theorem reloc_close (base self : Nat) (a : Layout N) :
    (a.close self).reloc base = (a.reloc base).close (self + base) := by
  simp only [reloc, close, map_map]
  congr 1
  refine map_congr_left fun i _ => ?_
  cases i with
  | jump op t => exact congrArg (Ins.jump op) (Target.reloc_within base self t)
  | _ => rfl

@[simp] theorem append_empty (a : Layout N) : a.append empty = a := by
  simp [append, empty]

theorem append_assoc (a b c : Layout N) : (a.append b).append c = a.append (b.append c) := by
  simp [append, List.append_assoc]

end Layout

variable [JsNumber N]

/-- The code of an instruction without a body. -/
def simpleIns : Tree N → Option (Ins N)
  | .const value => (constValue value).toOption.map .const
  | .binary op => (binopToOpcode op).toOption.map .zero
  | .unary op => (unopToOpcode op).toOption.map .zero
  | .localGet i => some (.one .LOAD i)
  | .localSet i => some (.one .STORE i)
  | .localTee i => some (.one .TEE i)
  | .globalGet i => some (.one .GLOBAL_GET i)
  | .globalSet i => some (.one .GLOBAL_SET i)
  | .drop => some (.zero .DROP)
  | .select => some (.zero .SELECT)
  | .unreachable => some (.zero .UNREACHABLE)
  | .return_ => some (.zero .RET)
  | .throw_ _ => some (.zero .THROW)
  | .rethrow _ => some (.zero .THROW)
  | .structNew n => some (.one .STRUCT_NEW n)
  | .structGet i => some (.one .STRUCT_GET i)
  | .structSet i => some (.one .STRUCT_SET i)
  | .call i => some (.one .CALL i)
  | .callRef i => some (.one .CALL_REF i)
  | .br d => some (.jump .JMP (.pending d))
  | .brIf d => some (.jump .JNZ (.pending d))
  | _ => none

/-- `JZ else; then; JMP end; else: els; end:` -/
def layoutIf (p : Nat) (t e : Layout N) : Layout N :=
  ⟨.jump .JZ (.addr (p + 4 + t.size)) :: t.ins ++
      .jump .JMP (.addr (p + 4 + t.size + e.size)) :: e.ins, t.rows ++ e.rows⟩

/-- `TRY_START handler; body; TRY_END; JMP end; handler: h; end:`, and the row. -/
def layoutTry (p : Nat) (b h : Layout N) : Layout N :=
  ⟨.tryStart (p + 5 + b.size) :: b.ins ++ .zero .TRY_END ::
      .jump .JMP (.addr (p + 5 + b.size + h.size)) :: h.ins,
    b.rows ++ h.rows ++ [⟨p + 2, p + 2 + b.size, p + 5 + b.size, 0⟩]⟩

omit [JsNumber N] in
theorem layoutIf_size (p : Nat) (t e : Layout N) :
    (layoutIf p t e).size = 4 + t.size + e.size := by
  simp only [layoutIf, Layout.size, cons_append, wordCount, wordCount_append, Ins.size]
  omega

omit [JsNumber N] in
theorem layoutTry_size (p : Nat) (b h : Layout N) :
    (layoutTry p b h).size = 5 + b.size + h.size := by
  simp only [layoutTry, Layout.size, cons_append, wordCount, wordCount_append, Ins.size]
  omega

mutual

def layoutTree : Tree N → Nat → Layout N
  | .block body, p =>
    let b := layoutTrees body p
    b.close (p + b.size)
  | .loop body, p => (layoutTrees body p).close p
  | .if_ then_ els, p =>
    let t := layoutTrees then_ (p + 2)
    layoutIf p t (layoutTrees els (p + 4 + t.size))
  | .try_ body catches catchAll, p =>
    let b := layoutTrees body (p + 2)
    let h := layoutCatches catches (p + 5 + b.size)
    layoutTry p b (h.append (layoutCatchAll catchAll (p + 5 + b.size + h.size)))
  | t, _ => ⟨(simpleIns t).toList, []⟩

/-- **The code of a tree** at an address. -/
def layoutTrees : List (Tree N) → Nat → Layout N
  | [], _ => .empty
  | t :: rest, p =>
    let l := layoutTree t p
    l.append (layoutTrees rest (p + l.size))

/-- Only the first clause is spliced. -/
def layoutCatches : List (Nat × List (Tree N)) → Nat → Layout N
  | [], _ => .empty
  | c :: _, p => layoutCatch c p

def layoutCatch : Nat × List (Tree N) → Nat → Layout N
  | (_, body), p => layoutTrees body p

def layoutCatchAll : Option (List (Tree N)) → Nat → Layout N
  | none, _ => .empty
  | some body, p => layoutTrees body p

end

/-- Neither a block nor a loop nor an `if` nor a `try`. -/
def Tree.IsSimple (t : Tree N) : Prop :=
  (∀ b, t ≠ .block b) ∧ (∀ b, t ≠ .loop b) ∧ (∀ a b, t ≠ .if_ a b) ∧ ∀ a b c, t ≠ .try_ a b c

theorem layoutTree_simple {t : Tree N} (ht : t.IsSimple) (p : Nat) :
    layoutTree t p = ⟨(simpleIns t).toList, []⟩ := by
  cases t with
  | block b => exact absurd rfl (ht.1 b)
  | loop b => exact absurd rfl (ht.2.1 b)
  | if_ a b => exact absurd rfl (ht.2.2.1 a b)
  | try_ a b c => exact absurd rfl (ht.2.2.2 a b c)
  | _ => rfl

theorem simpleIns_reloc {t : Tree N} (base : Nat) :
    (simpleIns t).toList.map (Ins.reloc base) = (simpleIns t).toList := by
  cases t with
  | const value => cases hv : constValue value <;> simp [simpleIns, hv, Except.toOption, Ins.reloc]
  | binary op | unary op => cases op <;> rfl
  | _ => rfl

omit [JsNumber N] in
theorem layoutIf_reloc (p base : Nat) (t e : Layout N) :
    (layoutIf p t e).reloc base = layoutIf (p + base) (t.reloc base) (e.reloc base) := by
  rw [layoutIf, layoutIf, Layout.size_reloc, Layout.size_reloc]
  simp [Layout.reloc, Ins.reloc, Target.reloc, Nat.add_right_comm _ _ base]

omit [JsNumber N] in
theorem layoutTry_reloc (p base : Nat) (b h : Layout N) :
    (layoutTry p b h).reloc base = layoutTry (p + base) (b.reloc base) (h.reloc base) := by
  rw [layoutTry, layoutTry, Layout.size_reloc, Layout.size_reloc]
  simp [Layout.reloc, Ins.reloc, Target.reloc, ExcEntry.reloc, Nat.add_right_comm _ _ base]

/-- **A tree can be moved**: its code elsewhere is its code here, relocated. -/
theorem layoutTrees_reloc (base : Nat) : ∀ (trees : List (Tree N)) (p : Nat),
    layoutTrees trees (p + base) = (layoutTrees trees p).reloc base := by
  -- what is left of a list follows at the end of its first instruction
  have hcons : ∀ (t : Tree N) (rest : List (Tree N)),
      (∀ p, layoutTree t (p + base) = (layoutTree t p).reloc base) →
      (∀ p, layoutTrees rest (p + base) = (layoutTrees rest p).reloc base) → ∀ p,
      layoutTrees (t :: rest) (p + base) = (layoutTrees (t :: rest) p).reloc base := by
    intro t rest ht hr p
    rw [layoutTrees, ht, Layout.size_reloc, Nat.add_right_comm, hr]
    simp [layoutTrees, Layout.append, Layout.reloc]
  intro trees
  induction trees using treesInduction with
  | nil => exact fun p => rfl
  | simple t rest h1 h2 h3 h4 ihr =>
    refine hcons t rest (fun p => ?_) ihr
    rw [layoutTree_simple ⟨h1, h2, h3, h4⟩, layoutTree_simple ⟨h1, h2, h3, h4⟩, Layout.reloc,
      simpleIns_reloc]
    rfl
  | block body rest ihb ihr =>
    refine hcons _ rest (fun p => ?_) ihr
    rw [layoutTree, layoutTree, ihb, Layout.reloc_close, Layout.size_reloc, Nat.add_right_comm]
  | loop body rest ihb ihr =>
    refine hcons _ rest (fun p => ?_) ihr
    rw [layoutTree, layoutTree, ihb, Layout.reloc_close]
  | if_ then_ els rest iht ihe ihr =>
    refine hcons _ rest (fun p => ?_) ihr
    rw [layoutTree, layoutTree, layoutIf_reloc, ← iht, ← ihe, Nat.add_right_comm p base 2, iht,
      Layout.size_reloc]
    congr 2
    omega
  | try_ body catches catchAll rest ihb ihc iha ihr =>
    refine hcons _ rest (fun p => ?_) ihr
    have hc : ∀ p, layoutCatches catches (p + base) = (layoutCatches catches p).reloc base := by
      cases catches with
      | nil => exact fun p => rfl
      | cons c cs =>
        obtain ⟨tagIdx, h⟩ := c
        exact ihc (tagIdx, h) mem_cons_self
    have ha : ∀ p, layoutCatchAll catchAll (p + base) = (layoutCatchAll catchAll p).reloc base := by
      cases catchAll with
      | none => exact fun p => rfl
      | some h => exact iha h rfl
    have happ : ∀ a b : Layout N, (a.append b).reloc base = (a.reloc base).append (b.reloc base) :=
      fun a b => by simp [Layout.append, Layout.reloc]
    rw [layoutTree, layoutTree, layoutTry_reloc, happ, ← ihb, ← hc, ← ha,
      Nat.add_right_comm p base 2, ihb, Layout.size_reloc, Nat.add_right_comm p base 5,
      Nat.add_right_comm (p + 5) base, hc, Layout.size_reloc]
    congr 3
    omega

end Js2Wasm.Bytecode
