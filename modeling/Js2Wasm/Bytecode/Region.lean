import Js2Wasm.Bytecode.Emission

/-! # Regions of a function's code

A region is a piece of a function's code that holds a layout, together with what the
exception table knows of it: the rows of the layout are in the table, and every other row
is disjoint from the region or covers all of it.  Regions are taken apart along the tree.
-/
namespace Js2Wasm.Bytecode
open List

variable {N : Type} {E : N → N → Prop}

/-! ### Code -/

theorem Encodes.split {pool : List N} {is is' : List (Ins N)} {ws : List Int}
    (h : Encodes E pool (is ++ is') ws) :
    ∃ ws1 ws2, ws = ws1 ++ ws2 ∧ Encodes E pool is ws1 ∧ Encodes E pool is' ws2 := by
  induction is generalizing ws with
  | nil => exact ⟨[], ws, rfl, .nil, h⟩
  | cons i is ih =>
    cases h with
    | cons hi hrest =>
      obtain ⟨ws1, ws2, rfl, h₁, h₂⟩ := ih hrest
      exact ⟨_ ++ ws1, ws2, (append_assoc ..).symm, .cons hi h₁, h₂⟩

/-- The code at an address. -/
def CodeAt (E : N → N → Prop) (fn : FuncEntry N) (p : Nat) (is : List (Ins N)) : Prop :=
  ∃ pre ws post, fn.code = pre ++ (ws ++ post) ∧ pre.length = p ∧ Encodes E fn.constPool is ws

section
variable {fn : FuncEntry N} {p : Nat} {is is' : List (Ins N)}

theorem CodeAt.append (h : CodeAt E fn p (is ++ is')) :
    CodeAt E fn p is ∧ CodeAt E fn (p + wordCount is) is' := by
  obtain ⟨pre, ws, post, hcode, rfl, henc⟩ := h
  obtain ⟨ws1, ws2, rfl, h₁, h₂⟩ := henc.split
  refine ⟨⟨pre, ws1, ws2 ++ post, by rw [hcode, append_assoc], rfl, h₁⟩,
    ⟨pre ++ ws1, ws2, post, by simp [hcode], ?_, h₂⟩⟩
  rw [length_append, h₁.length]

theorem CodeAt.cons {i : Ins N} (h : CodeAt E fn p (i :: is)) :
    CodeAt E fn p [i] ∧ CodeAt E fn (p + i.size) is := by
  have := @CodeAt.append N E fn p [i] is h
  rwa [wordCount, wordCount, Nat.add_zero] at this

theorem CodeAt.words {i : Ins N} (h : CodeAt E fn p [i]) :
    ∃ ws, Words E fn.constPool i ws ∧ ∀ j w, ws[j]? = some w → fn.code[p + j]? = some w := by
  obtain ⟨pre, ws, post, hcode, rfl, henc⟩ := h
  cases henc with
  | @cons _ _ ws ws' hi hnil =>
    cases hnil
    refine ⟨ws, hi, fun j w hj => ?_⟩
    obtain ⟨hlt, -⟩ := List.getElem?_eq_some_iff.mp hj
    rw [hcode, List.append_nil, List.getElem?_append_right (Nat.le_add_right _ _),
      Nat.add_sub_cancel_left, getElem?_append_left hlt, hj]

/-- The opcode at an instruction. -/
theorem CodeAt.op {i : Ins N} {o : Op} (h : CodeAt E fn p [i])
    (hop : ∀ ws, Words E fn.constPool i ws → ws[0]? = some o.toInt) :
    at? fn.code (p : Int) = some o.toInt := by
  obtain ⟨ws, hi, hws⟩ := h.words
  rw [at?_natCast]
  exact hws 0 _ (hop ws hi)

/-- The operand of an instruction that has one. -/
theorem CodeAt.operand {i : Ins N} {w : Int} (h : CodeAt E fn p [i])
    (hop : ∀ ws, Words E fn.constPool i ws → ws[1]? = some w) :
    at? fn.code ((p : Int) + 1) = some w := by
  obtain ⟨ws, hi, hws⟩ := h.words
  rw [show (p : Int) + 1 = ((p + 1 : Nat) : Int) by lia, at?_natCast]
  exact hws 1 _ (hop ws hi)

end

/-! ### Rows -/

/-- A row lies in a region, and truncates the stack to nothing. -/
structure ExcEntry.Inside (r : ExcEntry) (p q : Nat) : Prop where
  start : p ≤ r.tryStart
  stop : r.tryEnd ≤ q
  sp : r.spAtEntry = 0

theorem ExcEntry.Inside.mono {r : ExcEntry} {p q p' q' : Nat} (h : r.Inside p q) (hp : p' ≤ p)
    (hq : q ≤ q') : r.Inside p' q' :=
  ⟨Nat.le_trans hp h.start, Nat.le_trans h.stop hq, h.sp⟩

theorem ExcEntry.covers_iff {r : ExcEntry} {q : Nat} :
    r.covers (q : Int) = true ↔ r.tryStart ≤ q ∧ q < r.tryEnd := by
  rw [ExcEntry.covers, decide_eq_true_iff]
  omega

/-- What a table knows of a region with the given rows. -/
structure Around (table rows : List ExcEntry) (p q : Nat) : Prop where
  mem : ∀ r ∈ rows, r ∈ table
  other : ∀ r ∈ table, r ∈ rows ∨ r.tryEnd ≤ p ∨ q ≤ r.tryStart ∨ (r.tryStart ≤ p ∧ q ≤ r.tryEnd)

section
variable [JsNumber N]

theorem layoutTrees_inside : ∀ (trees : List (Tree N)) (p : Nat), ∀ r ∈ (layoutTrees trees p).rows,
    r.Inside p (p + (layoutTrees trees p).size) := by
  have hcons : ∀ (t : Tree N) (rest : List (Tree N)),
      (∀ p, ∀ r ∈ (layoutTree t p).rows, r.Inside p (p + (layoutTree t p).size)) →
      (∀ p, ∀ r ∈ (layoutTrees rest p).rows, r.Inside p (p + (layoutTrees rest p).size)) → ∀ p,
      ∀ r ∈ (layoutTrees (t :: rest) p).rows, r.Inside p (p + (layoutTrees (t :: rest) p).size) := by
    intro t rest ht hr p r hmem
    rw [layoutTrees] at hmem ⊢
    rw [Layout.size_append]
    rcases mem_append.mp hmem with hmem | hmem
    · exact (ht p r hmem).mono .refl (by lia)
    · exact (hr _ r hmem).mono (by lia) (by lia)
  intro trees
  induction trees using treesInduction with
  | nil => exact fun p r hr => by cases hr
  | simple t rest h1 h2 h3 h4 ihr =>
    refine hcons t rest (fun p r hr => ?_) ihr
    rw [layoutTree_simple ⟨h1, h2, h3, h4⟩] at hr
    cases hr
  | block body rest ihb ihr | loop body rest ihb ihr =>
    refine hcons _ rest (fun p r hr => ?_) ihr
    rw [layoutTree, Layout.size_close]
    exact ihb p r hr
  | if_ then_ els rest iht ihe ihr =>
    refine hcons _ rest (fun p r hr => ?_) ihr
    rw [layoutTree] at hr ⊢
    rw [layoutIf_size]
    rcases mem_append.mp hr with hr | hr
    · exact (iht _ r hr).mono (by lia) (by lia)
    · exact (ihe _ r hr).mono (by lia) (by lia)
  | try_ body catches catchAll rest ihb ihc iha ihr =>
    refine hcons _ rest (fun p r hr => ?_) ihr
    have hc : ∀ p, ∀ r ∈ (layoutCatches catches p).rows,
        r.Inside p (p + (layoutCatches catches p).size) := by
      cases catches with
      | nil => exact fun p r hr => by cases hr
      | cons c cs =>
        obtain ⟨tagIdx, handler⟩ := c
        exact ihc _ mem_cons_self
    have ha : ∀ p, ∀ r ∈ (layoutCatchAll catchAll p).rows,
        r.Inside p (p + (layoutCatchAll catchAll p).size) := by
      cases catchAll with
      | none => exact fun p r hr => by cases hr
      | some handler => exact iha _ rfl
    rw [layoutTree] at hr ⊢
    rw [layoutTry_size, Layout.size_append]
    rcases mem_append.mp hr with hr | hr
    · rcases mem_append.mp hr with hr | hr
      · exact (ihb _ r hr).mono (by lia) (by lia)
      · rcases mem_append.mp hr with hr | hr
        · exact (hc _ r hr).mono (by lia) (by lia)
        · exact (ha _ r hr).mono (by lia) (by lia)
    · rw [mem_singleton.mp hr]
      exact ⟨by show p ≤ p + 2; lia, by show p + 2 + _ ≤ _; lia, rfl⟩

/-! ### Regions -/

/-- **A region**: the code of a layout, inside the constructs with the given addresses. -/
structure Region (E : N → N → Prop) (fn : FuncEntry N) (labels : List Nat) (p : Nat)
    (l : Layout N) : Prop where
  code : CodeAt E fn p (l.ins.map (Ins.within labels))
  around : Around fn.exceptionTable l.rows p (p + l.size)
  inside : ∀ r ∈ l.rows, r.Inside p (p + l.size)

variable {fn : FuncEntry N} {labels : List Nat} {p : Nat}

variable {a b : Layout N} {q : Int} {table : List ExcEntry}

omit [JsNumber N] in
theorem Region.split (h : Region E fn labels p (a.append b))
    (ha : ∀ r ∈ a.rows, r.Inside p (p + a.size))
    (hb : ∀ r ∈ b.rows, r.Inside (p + a.size) (p + a.size + b.size)) :
    Region E fn labels p a ∧ Region E fn labels (p + a.size) b := by
  obtain ⟨hcode, haround, hinside⟩ := h
  rw [Layout.append, map_append] at hcode
  obtain ⟨hca, hcb⟩ := hcode.append
  rw [wordCount_map (Ins.size_within labels)] at hcb
  have hsize := Layout.size_append a b
  refine ⟨⟨hca, ⟨fun r hr => haround.mem r (mem_append_left _ hr), fun r hr => ?_⟩, ha⟩,
    ⟨hcb, ⟨fun r hr => haround.mem r (mem_append_right _ hr), fun r hr => ?_⟩, hb⟩⟩
  · rcases haround.other r hr with hmem | hr
    · rcases mem_append.mp hmem with hmem | hmem
      · exact Or.inl hmem
      · exact Or.inr (Or.inr (Or.inl (hb r hmem).start))
    · rw [hsize] at hr
      right
      lia
  · rcases haround.other r hr with hmem | hr
    · rcases mem_append.mp hmem with hmem | hmem
      · exact Or.inr (Or.inl (ha r hmem).stop)
      · exact Or.inl hmem
    · rw [hsize] at hr
      right
      lia

omit [JsNumber N] in
theorem Region.of_close {self : Nat} (h : Region E fn labels p (a.close self)) :
    Region E fn (self :: labels) p a := by
  obtain ⟨hcode, haround, hinside⟩ := h
  rw [Layout.size_close] at haround hinside
  refine ⟨?_, haround, hinside⟩
  have hmap : (a.ins.map (Ins.within [self])).map (Ins.within labels) =
      a.ins.map (Ins.within (self :: labels)) := by
    rw [map_map]
    refine map_congr_left fun i _ => ?_
    cases i with
    | jump op t => exact congrArg (Ins.jump op) (Target.within_within self labels t)
    | _ => rfl
  rw [← hmap]
  exact hcode

omit [JsNumber N] in
/-- The parts of an `if`. -/
theorem Region.of_if {t e : Layout N} (h : Region E fn labels p (layoutIf p t e))
    (ht : ∀ r ∈ t.rows, r.Inside (p + 2) (p + 2 + t.size))
    (he : ∀ r ∈ e.rows, r.Inside (p + 4 + t.size) (p + 4 + t.size + e.size)) :
    CodeAt E fn p [.jump .JZ (.addr (p + 4 + t.size))] ∧ Region E fn labels (p + 2) t ∧
      CodeAt E fn (p + 2 + t.size) [.jump .JMP (.addr (p + 4 + t.size + e.size))] ∧
      Region E fn labels (p + 4 + t.size) e := by
  obtain ⟨hcode, haround, -⟩ := h
  rw [layoutIf_size] at haround
  rw [layoutIf, cons_append, map_cons, map_append, map_cons] at hcode
  obtain ⟨hjz, hcode⟩ := hcode.cons
  obtain ⟨hct, hcode⟩ := hcode.append
  rw [wordCount_map (Ins.size_within labels)] at hcode
  obtain ⟨hjmp, hce⟩ := hcode.cons
  refine ⟨hjz, ⟨hct, ⟨fun r hr => haround.mem r (mem_append_left _ hr), fun r hr => ?_⟩, ht⟩,
    hjmp, ⟨?_, ⟨fun r hr => haround.mem r (mem_append_right _ hr), fun r hr => ?_⟩, he⟩⟩
  · rcases haround.other r hr with hmem | hr
    · rcases mem_append.mp hmem with hmem | hmem
      · exact Or.inl hmem
      · have := (he r hmem).start
        right
        lia
    · right
      lia
  · have hat : p + 4 + t.size = p + 2 + t.size + 2 := by lia
    rw [hat]
    exact hce
  · rcases haround.other r hr with hmem | hr
    · rcases mem_append.mp hmem with hmem | hmem
      · have := (ht r hmem).stop
        right
        lia
      · exact Or.inl hmem
    · right
      lia

/-- The row of a `try`. -/
def tryRow (p : Nat) (b : Layout N) : ExcEntry := ⟨p + 2, p + 2 + b.size, p + 5 + b.size, 0⟩

/-- What the table says of an address in a protected body. -/
structure RowOf (table rows : List ExcEntry) (row : ExcEntry) : Prop where
  mem : row ∈ table
  smallest : ∀ r ∈ table, ∀ q : Nat, row.tryStart ≤ q → q < row.tryEnd →
    (∀ r ∈ rows, r.covers (q : Int) = false) → r.covers (q : Int) = true →
    r = row ∨ row.span < r.span

omit [JsNumber N] in
/-- The parts of a `try`. -/
theorem Region.of_try {h : Layout N} (hr : Region E fn labels p (layoutTry p b h))
    (hb : ∀ r ∈ b.rows, r.Inside (p + 2) (p + 2 + b.size))
    (hh : ∀ r ∈ h.rows, r.Inside (p + 5 + b.size) (p + 5 + b.size + h.size)) :
    CodeAt E fn p [.tryStart (p + 5 + b.size)] ∧ Region E fn labels (p + 2) b ∧
      CodeAt E fn (p + 2 + b.size) [.zero .TRY_END] ∧
      CodeAt E fn (p + 3 + b.size) [.jump .JMP (.addr (p + 5 + b.size + h.size))] ∧
      Region E fn labels (p + 5 + b.size) h ∧ RowOf fn.exceptionTable b.rows (tryRow p b) := by
  obtain ⟨hcode, haround, -⟩ := hr
  rw [layoutTry_size] at haround
  rw [layoutTry, cons_append, map_cons, map_append, map_cons, map_cons]
    at hcode
  obtain ⟨hstart, hcode⟩ := hcode.cons
  obtain ⟨hcb, hcode⟩ := hcode.append
  rw [wordCount_map (Ins.size_within labels)] at hcode
  obtain ⟨hend, hcode⟩ := hcode.cons
  obtain ⟨hjmp, hch⟩ := hcode.cons
  -- a row of the table belongs to the body, to a handler, to this `try`, or to none of them
  have hrow : ∀ r ∈ fn.exceptionTable, r ∈ b.rows ∨ r ∈ h.rows ∨ r = tryRow p b ∨
      r.tryEnd ≤ p ∨ p + (5 + b.size + h.size) ≤ r.tryStart ∨
      (r.tryStart ≤ p ∧ p + (5 + b.size + h.size) ≤ r.tryEnd) := by
    intro r hr
    rcases haround.other r hr with hmem | hr
    · rcases mem_append.mp hmem with hmem | hmem
      · rcases mem_append.mp hmem with hmem | hmem
        · exact Or.inl hmem
        · exact Or.inr (Or.inl hmem)
      · exact Or.inr (Or.inr (Or.inl (mem_singleton.mp hmem)))
    · exact Or.inr (Or.inr (Or.inr hr))
  have hjmpAt : p + 3 + b.size = p + 2 + b.size + 1 := by lia
  have hhAt : p + 5 + b.size = p + 2 + b.size + 1 + 2 := by lia
  refine ⟨hstart, ⟨hcb, ⟨fun r hr => haround.mem r ?_, fun r hr => ?_⟩, hb⟩, hend, ?_,
    ⟨?_, ⟨fun r hr => haround.mem r ?_, fun r hr => ?_⟩, hh⟩, ?_⟩
  · exact mem_append_left _ (mem_append_left _ hr)
  · rcases hrow r hr with hr | hr | rfl | hr
    · exact Or.inl hr
    · have := (hh r hr).start
      right
      lia
    · exact Or.inr (Or.inr (Or.inr ⟨Nat.le_refl _, Nat.le_refl _⟩))
    · right
      lia
  · rw [hjmpAt]
    exact hjmp
  · rw [hhAt]
    exact hch
  · exact mem_append_left _ (mem_append_right _ hr)
  · rcases hrow r hr with hr | hr | rfl | hr
    · have := (hb r hr).stop
      right
      lia
    · exact Or.inl hr
    · right
      left
      show p + 2 + b.size ≤ _
      lia
    · right
      lia
  · refine ⟨haround.mem _ (mem_append_right _ (mem_singleton_self _)), ?_⟩
    intro r hr q hq hq' hno hcov
    have hq : p + 2 ≤ q := hq
    have hq' : q < p + 2 + b.size := hq'
    rcases hrow r hr with hr | hr | rfl | hr
    · rw [hno r hr] at hcov
      cases hcov
    · have := (hh r hr).start
      have := ExcEntry.covers_iff.mp hcov
      lia
    · exact Or.inl rfl
    · right
      have hc := ExcEntry.covers_iff.mp hcov
      show ((p + 2 + b.size : Nat) : Int) - ((p + 2 : Nat) : Int) < (r.tryEnd : Int) - r.tryStart
      lia

/-! ### The handler of an address -/

omit [JsNumber N] in
theorem findHandler_none (h : ∀ r ∈ table, r.covers q = false) : findHandler table q = none := by
  rw [findHandler]
  induction table with
  | nil => rfl
  | cons r table ih =>
    rw [foldl_cons, if_neg (by rw [h r mem_cons_self]; nofun)]
    exact ih fun r hr => h r (mem_cons_of_mem _ hr)

/-- What `findHandler` keeps of the entry it has and the next one. -/
def nearer (q : Int) (best : Option ExcEntry) (e : ExcEntry) : Option ExcEntry :=
  if e.covers q then
    match best with
    | none => some e
    | some b => if e.span < b.span then some e else best
  else best

theorem findHandler_eq (table : List ExcEntry) (q : Int) :
    findHandler table q = table.foldl (nearer q) none := rfl

omit [JsNumber N] in
/-- The handler is the row that is smaller than any other that covers the address. -/
theorem findHandler_some {row : ExcEntry} (hmem : row ∈ table) (hcov : row.covers q = true)
    (hmin : ∀ r ∈ table, r.covers q = true → r = row ∨ row.span < r.span) :
    findHandler table q = some row := by
  rw [findHandler_eq]
  -- until the row is met, the best one is larger; from then on it is the best one
  have hgo : ∀ (l : List ExcEntry) (best : Option ExcEntry),
      (∀ r ∈ l, r.covers q = true → r = row ∨ row.span < r.span) →
      best = some row ∨ (row ∈ l ∧ ∀ b, best = some b → row.span < b.span) →
      l.foldl (nearer q) best = some row := by
    intro l
    induction l with
    | nil =>
      rintro best - (h | ⟨h, -⟩)
      · exact h
      · cases h
    | cons e l ih =>
      intro best hl hbest
      have hl' : ∀ r ∈ l, r.covers q = true → r = row ∨ row.span < r.span := fun r hr =>
        hl r (mem_cons_of_mem _ hr)
      rw [foldl_cons, nearer.eq_def]
      by_cases hec : e.covers q = true
      · rw [if_pos hec]
        rcases hl e mem_cons_self hec with rfl | hlt
        · refine ih _ hl' (Or.inl ?_)
          rcases hbest with rfl | ⟨-, hbest⟩
          · simp
          · cases best with
            | none => rfl
            | some b => simp [hbest b rfl]
        · rcases hbest with rfl | ⟨hmem, hbest⟩
          · exact ih _ hl' (Or.inl (by simp only [if_neg (by lia : ¬ e.span < row.span)]))
          · refine ih _ hl' (Or.inr ⟨?_, ?_⟩)
            · rcases mem_cons.mp hmem with rfl | hmem
              · lia
              · exact hmem
            · intro b hb
              cases best with
              | none => rwa [← Option.some.inj hb]
              | some b' =>
                simp only at hb
                split at hb
                · rwa [← Option.some.inj hb]
                · exact hbest b hb
      · rw [if_neg hec]
        refine ih _ hl' (hbest.imp_right fun h => ⟨?_, h.2⟩)
        rcases mem_cons.mp h.1 with rfl | hmem
        · exact absurd hcov hec
        · exact hmem
  exact hgo table none hmin (Or.inr ⟨hmem, fun _ h => by cases h⟩)

end

end Js2Wasm.Bytecode
