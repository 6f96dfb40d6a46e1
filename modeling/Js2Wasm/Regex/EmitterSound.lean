import Js2Wasm.Regex.Emission

/-! # The emitter is sound

Compiling a node appends code that carries the node out (`compileNode_emits`), once the
bodies of its lookarounds stand where the code points to them.
-/
namespace Js2Wasm.Regex
open List

variable {o : Options} {ctx : Ctx}

/-! ### Leaves -/

theorem Emits.congr {step step' : Emission} {items : Nat → Nat → List Item} {slots : Nat}
    {queued : List Body} (h : Emits o ctx step items slots queued)
    (heq : ∀ em, em.mode = ctx.mode → step' em = step em) :
    Emits o ctx step' items slots queued := by
  intro em em' hmode hrev hem
  exact h em em' hmode hrev (heq em hmode ▸ hem)

variable {nodes options : List ReNode} {body : Emission} {record codes : List Nat}
    {steps : List Emission} {lits : List (List Nat)} {node : ReNode} {i : Instr}

/-- The instruction of a leaf is what the emitter appends for it. -/
theorem compileNode_leaf (h : leafInstr o ctx.mode node = some (i, record)) :
    Emits o ctx (compileNode o node) (fun _ _ => [.instr i record]) 0 [] := by
  have plain : ∀ {op : ReOp} {a b : Nat} {step : Emission}, op.straight = true → op ≠ .CLASS →
      op ≠ .CPCLASS → (∀ em, em.mode = ctx.mode → step em = .ok (em.emit op a b)) →
      Emits o ctx step (fun _ _ => [.instr ⟨op, a, b⟩ []]) 0 [] :=
    fun h1 h2 h3 heq => (Emits.instr (fun _ => _) h1 h2 h3).congr heq
  have cls : ∀ {op : ReOp} {ranges : List (Nat × Nat)} (negated : Bool) {step : Emission},
      op = .CLASS ∨ op = .CPCLASS →
      (∀ em, em.mode = ctx.mode → step em = .ok (em.emitClass op ranges negated)) →
      Emits o ctx step
        (fun _ _ => [.instr ⟨op, 0, bit negated⟩ (Emitter.classRecord ranges)]) 0 [] :=
    fun _ _ h heq => (Emits.cls h).congr heq
  cases node with
  | char code =>
    simp only [leafInstr, Option.some.injEq] at h
    simp only [compileNode]
    by_cases hci : ctx.mode.caseInsensitive = true
    · by_cases huni : o.unicode = true
      · simp only [hci, huni, Bool.not_true, Bool.false_eq_true, if_false, if_true] at h
        cases h
        exact plain rfl (by simp) (by simp) fun em hmode => by
          simp [emitChar, hmode, hci, huni]
      · simp only [hci, huni, Bool.not_true, Bool.false_eq_true, if_false] at h
        split at h
        · rename_i unit hunit
          cases h
          exact plain rfl (by simp) (by simp) fun em hmode => by
            simp [emitChar, hmode, hci, huni, hunit]
        · rename_i units hunits
          cases h
          exact cls false (.inl rfl) fun em hmode => by
            simp [emitChar, hmode, hci, huni]
    · simp only [hci, Bool.not_false, if_true] at h
      cases h
      exact plain rfl (by simp) (by simp) fun em hmode => by simp [emitChar, hmode, hci]
  | any | bol | eol | backref =>
    cases h
    exact plain rfl (by simp) (by simp) fun em hmode => by simp [compileNode, hmode]
  | udot =>
    cases h
    exact cls false (.inr rfl) fun em hmode => by simp [compileNode, hmode]
  | cls ranges negated =>
    cases h
    exact cls negated (.inl rfl) fun em hmode => by simp [compileNode, hmode]
  | cpclass ranges negated =>
    cases h
    exact cls negated (.inr rfl) fun em hmode => by simp [compileNode]
  | wordBoundary negated =>
    cases h
    exact plain rfl (by simp) (by simp) fun em hmode => by simp [compileNode]
  | _ => cases h

/-- A leaf claims nothing and stands for its instruction. -/
theorem leaf_unfold (h : leafInstr o ctx.mode node = some (i, record)) (slot queue : Nat) :
    unfoldNode o ctx slot queue node = some [.instr i record] ∧ scratchSlots node = 0 ∧
      bodies ctx.mode node = [] := by
  cases node with
  | star | plus | opt | repeat_ | group | modGroup | concat | alt | lookaround => cases h
  | _ => simp [unfoldNode, h, scratchSlots, bodies]

/-! ### Literal alternations -/

theorem emitChars_eq (codes : List Nat) (em : Emitter) :
    emitSeq (codes.map fun code em => .ok (em.emit .CHAR code 0)) em = .ok (emitChars codes em) := by
  induction codes generalizing em with
  | nil => rfl
  | cons code codes ih => exact ih _

theorem emits_char (hci : ctx.mode.caseInsensitive = false) (code : Nat) :
    Emits o ctx (fun em => .ok (em.emit .CHAR code 0))
      (fun slot queue => [.node (.char code) ctx slot queue]) (scratchSlots (.char code))
      (bodies ctx.mode (.char code)) := by
  refine (Emits.instr (fun _ => code) rfl (by simp) (by simp)).fold fun slot queue => ?_
  simp [Item.unfold, unfoldNode, leafInstr, hci]

theorem emits_chars (hci : ctx.mode.caseInsensitive = false) (codes : List Nat) :
    EmitsAll o ctx (codes.map fun code em => .ok (em.emit .CHAR code 0)) (codes.map .char) := by
  induction codes with
  | nil => exact .nil
  | cons code codes ih => exact .cons (emits_char hci code) ih

/-- A concatenation carries out its parts. -/
theorem EmitsAll.concat (h : EmitsAll o ctx steps nodes) :
    Emits o ctx (emitSeq steps) (fun slot queue => [.node (.concat nodes) ctx slot queue])
      (scratchSlots (.concat nodes)) (bodies ctx.mode (.concat nodes)) :=
  h.seq.fold fun _ _ => rfl

/-- An alternation that is not grouped carries out its branches. -/
theorem EmitsAll.alt (h : EmitsAll o ctx steps nodes)
    (hlit : trieLiterals { o with literalTrie := ctx.trie } ctx.mode nodes = none) :
    Emits o ctx (emitBranches steps) (fun slot queue => [.node (.alt nodes) ctx slot queue])
      (scratchSlots (.alt nodes)) (bodies ctx.mode (.alt nodes)) :=
  h.branches.fold fun _ _ => by simp [Item.unfold, unfoldNode, hlit]

/-- **The grouped emission is the plain emission of the grouped tree.** -/
theorem emitLitAltGrouped_emits (htrie : ctx.trie = false) (hci : ctx.mode.caseInsensitive = false)
    (levels : Nat) (lits : List (List Nat)) :
    Emits o ctx (emitLitAltGrouped levels lits)
      (fun slot queue => [.node (trieNode levels lits) ctx slot queue])
      (scratchSlots (trieNode levels lits)) (bodies ctx.mode (trieNode levels lits)) := by
  induction levels generalizing lits with
  | zero => exact EmitsAll.concat .nil
  | succ levels ih =>
    refine EmitsAll.alt ?_ (by simp [trieLiterals, htrie])
    generalize groupLits lits = groups
    induction groups with
    | nil => exact .nil
    | cons b groups ihg =>
      refine .cons ?_ ihg
      have hlong : ∀ c suffixes, Emits o ctx
          (fun em => emitLitAltGrouped levels suffixes (em.emit .CHAR c 0))
          (fun slot queue => [.node (.concat [.char c, trieNode levels suffixes]) ctx slot queue])
          (scratchSlots (.concat [.char c, trieNode levels suffixes]))
          (bodies ctx.mode (.concat [.char c, trieNode levels suffixes])) := by
        intro c suffixes
        refine (EmitsAll.concat (.cons (emits_char hci c) (.cons (ih suffixes) .nil))).congr ?_
        intro em _
        exact (emitSeq_singleton _ _).symm
      match b with
      | .eps => exact EmitsAll.concat .nil
      | .char c [suffix] =>
        refine (EmitsAll.concat (emits_chars hci (c :: suffix))).congr fun em _ => ?_
        exact (emitChars_eq (c :: suffix) em).symm
      | .char c [] => exact hlong c []
      | .char c (s1 :: s2 :: suffixes) => exact hlong c (s1 :: s2 :: suffixes)

theorem mapM_charCode {parts : List ReNode} (h : parts.mapM charCode = some codes) :
    parts = codes.map .char := by
  induction parts generalizing codes with
  | nil =>
    cases h
    rfl
  | cons part parts ih =>
    simp only [mapM_cons, Option.bind_eq_bind, Option.bind_eq_some_iff, Option.pure_def] at h
    obtain ⟨code, hcode, rest, hrest, hcodes⟩ := h
    cases hcodes
    cases part with
    | char code' =>
      cases hcode
      rw [ih hrest, map_cons]
    | _ => cases hcode

/-- A literal is a character or a sequence of them. -/
theorem literalCodes_eq_some (h : literalCodes node = some codes) :
    (∃ code, node = .char code ∧ codes = [code]) ∨ node = .concat (codes.map .char) := by
  cases node with
  | char code =>
    cases h
    exact .inl ⟨code, rfl, rfl⟩
  | concat parts => exact .inr (congrArg _ (mapM_charCode h))
  | _ => cases h

theorem chars_claims (mode : Mode) (codes : List Nat) :
    scratchSlotsAll (codes.map .char) = 0 ∧ bodiesAll mode (codes.map .char) = [] := by
  induction codes with
  | nil => exact ⟨rfl, rfl⟩
  | cons code codes ih => simpa [scratchSlotsAll, bodiesAll, scratchSlots, bodies] using ih

theorem literal_claims (h : literalCodes node = some codes) (mode : Mode) :
    scratchSlots node = 0 ∧ bodies mode node = [] := by
  rcases literalCodes_eq_some h with ⟨code, rfl, -⟩ | rfl
  · exact ⟨rfl, rfl⟩
  · simpa [scratchSlots, bodies] using chars_claims mode codes

theorem trieNode_claims (mode : Mode) (levels : Nat) (lits : List (List Nat)) :
    scratchSlots (trieNode levels lits) = 0 ∧ bodies mode (trieNode levels lits) = [] := by
  induction levels generalizing lits with
  | zero => exact ⟨rfl, rfl⟩
  | succ levels ih =>
    simp only [trieNode, scratchSlots, bodies]
    generalize groupLits lits = groups
    induction groups with
    | nil => exact ⟨rfl, rfl⟩
    | cons b groups ihg =>
      simp only [map_cons, scratchSlotsAll, bodiesAll, ihg.1, ihg.2, Nat.add_zero,
        append_nil]
      split
      · exact ⟨rfl, rfl⟩
      · simpa [scratchSlots, bodies, scratchSlotsAll, bodiesAll] using chars_claims mode _
      · simpa [scratchSlots, bodies, scratchSlotsAll, bodiesAll] using ih _

theorem mapM_literal_claims (h : options.mapM literalCodes = some lits) (mode : Mode) :
    scratchSlotsAll options = 0 ∧ bodiesAll mode options = [] := by
  induction options generalizing lits with
  | nil => exact ⟨rfl, rfl⟩
  | cons node options ih =>
    rw [mapM_cons] at h
    cases hcodes : literalCodes node with
    | none => simp [hcodes] at h
    | some codes =>
      cases hrest : options.mapM literalCodes with
      | none => simp [hcodes, hrest] at h
      | some rest =>
        obtain ⟨h1, h2⟩ := literal_claims hcodes mode
        simpa [scratchSlotsAll, bodiesAll, h1, h2] using ih hrest

/-- What `trieLiterals` has checked. -/
theorem trieLiterals_eq_some {mode : Mode} (h : trieLiterals o mode options = some lits) :
    o.literalTrie = true ∧ mode.caseInsensitive = false ∧ 4 ≤ options.length ∧
      options.mapM literalCodes = some lits ∧ ∀ w ∈ lits, w ≠ [] := by
  simp only [trieLiterals] at h
  split at h
  · cases h
  · rename_i hcond
    simp only [Bool.or_eq_true, decide_eq_true_eq, not_or, Bool.not_eq_true,
      Bool.not_eq_false'] at hcond
    cases hmap : options.mapM literalCodes with
    | none => simp [hmap] at h
    | some lits' =>
      simp only [hmap, Option.bind_eq_bind, Option.bind_some] at h
      split at h
      · cases h
      · rename_i hany
        cases h
        refine ⟨hcond.1.1, hcond.1.2, by omega, rfl, fun w hw hnil => hany ?_⟩
        exact any_eq_true.mpr ⟨w, hw, by simp [hnil]⟩

/-! ### Nodes -/

/-- A lookaround: the instruction now, the body later. -/
theorem Emits.lookaround (node : ReNode) (negated behind : Bool) :
    Emits o ctx (fun em => .ok (emitLookaround node negated behind em))
      (fun slot queue => [.node (.lookaround node negated behind) ctx slot queue]) 0
      (bodies ctx.mode (.lookaround node negated behind)) := by
  intro em em' hmode hrev hem
  cases hem
  let sub : PendingSub := ⟨orient behind node, em.here, behind, em.mode⟩
  have hextend : emitLookaround node negated behind em =
      em.extend ⟨[⟨.LOOKAROUND, 0, bit negated + 2 * bit behind⟩], [], [sub], 0⟩ := by
    simp [emitLookaround, Emitter.emit, Emitter.extend, orient, sub]
  refine ⟨_, hextend, ⟨rfl, ?_, ?_⟩, fun R plan queue hfits => ?_⟩
  · simp [sub, PendingSub.body, bodies, hmode]
  · simp [sub, lookPcs]
  · rw [hextend, extend_here]
    obtain ⟨⟨j, hj, hop, hb, -⟩, -⟩ := codeAt_cons.mp hfits.code
    obtain ⟨entry, exit, slot', queue', hplan, hentry, hlaid, hmatch⟩ := hfits.subs 0 sub rfl
    have hlook : R.prog[em.here]? = some ⟨.LOOKAROUND, entry, bit negated + 2 * bit behind⟩ := by
      rw [hj, Option.map_some, Option.some.injEq] at hentry
      obtain ⟨op, a, b⟩ := j
      cases hop
      cases hb
      cases hentry
      exact hj
    simp only [sub, hmode] at hlaid
    exact .look hlook hplan hlaid hmatch (.nil _)

/-- A capturing group: the body between two SAVEs. -/
theorem Emits.group (k : Nat)
    (h : Emits o ctx body (fun slot queue => [.node node ctx slot queue]) (scratchSlots node)
      (bodies ctx.mode node)) :
    Emits o ctx (emitGroup k body) (fun slot queue => [.node (.group node (some k)) ctx slot queue])
      (scratchSlots (.group node (some k))) (bodies ctx.mode (.group node (some k))) := by
  let first := if ctx.reversed then 2 * k + 1 else 2 * k
  let second := if ctx.reversed then 2 * k else 2 * k + 1
  have hsave : ∀ i, Emits o ctx (fun em => .ok (em.emit .SAVE i 0))
      (fun _ _ => [.instr ⟨.SAVE, i, 0⟩ []]) 0 [] :=
    fun i => .instr (fun _ => i) rfl (by simp) (by simp)
  have hseq := ((hsave first).seq h).seq (hsave second)
  simp only [Nat.zero_add, Nat.add_zero, nil_append, append_nil, length_nil,
    cons_append] at hseq
  refine @Emits.fold _ _ _ (fun slot queue => [.instr ⟨.SAVE, first, 0⟩ [],
    .node node ctx slot queue, .instr ⟨.SAVE, second, 0⟩ []]) _ _ _ ?_ fun _ _ => rfl
  intro em em' hmode hrev hem
  refine hseq em em' hmode hrev ?_
  simp only [emitGroup, hrev] at hem
  exact hem

/-- An inline modifier group: the body under other flags. -/
theorem Emits.modGroup {add remove : Nat}
    (h : Emits o { ctx with mode := ctx.mode.modified add remove } body
      (fun slot queue => [.node node { ctx with mode := ctx.mode.modified add remove } slot queue])
      (scratchSlots node) (bodies (ctx.mode.modified add remove) node)) :
    Emits o ctx (fun em => do
        let em' ← body { em with mode := em.mode.modified add remove }
        return { em' with mode := em.mode })
      (fun slot queue => [.node (.modGroup add remove node) ctx slot queue])
      (scratchSlots (.modGroup add remove node)) (bodies ctx.mode (.modGroup add remove node)) := by
  refine @Emits.fold _ _ _ (fun slot queue =>
    [.node node { ctx with mode := ctx.mode.modified add remove } slot queue]) _ _ _ ?_ fun _ _ => rfl
  intro em em' hmode hrev hem
  obtain ⟨em1, hbody, hem⟩ := bind_ok_iff.mp hem
  obtain ⟨out, rfl, hclaims, hlaid⟩ :=
    h { em with mode := em.mode.modified add remove } em1 (by rw [hmode]) hrev hbody
  cases hem
  exact ⟨out, rfl, hclaims, fun R plan queue hfits =>
    hlaid R plan queue ⟨hfits.code, hfits.table, hfits.subs⟩⟩

theorem compileNodes_emits (h : ∀ n ∈ nodes,
      Emits o ctx (compileNode o n) (fun slot queue => [.node n ctx slot queue]) (scratchSlots n)
      (bodies ctx.mode n)) :
    EmitsAll o ctx (compileNodes o nodes) nodes := by
  induction nodes with
  | nil => exact .nil
  | cons n nodes ih =>
    refine .cons (h n mem_cons_self) (ih fun m hm => h m (mem_cons_of_mem n hm))

/-- An alternation: the grouped branches where all of them are literals. -/
theorem Emits.alt (htrie : ctx.trie = o.literalTrie)
    (h : EmitsAll o ctx (compileNodes o options) options) :
    Emits o ctx (compileNode o (.alt options))
      (fun slot queue => [.node (.alt options) ctx slot queue]) (scratchSlots (.alt options))
      (bodies ctx.mode (.alt options)) := by
  have ho : { o with literalTrie := ctx.trie } = o := by rw [htrie]
  cases hlit : trieLiterals o ctx.mode options with
  | none =>
    refine (EmitsAll.alt h (ho.symm ▸ hlit)).congr fun em hmode => ?_
    simp [compileNode, hmode, hlit]
  | some lits =>
    obtain ⟨-, hci, -, hmap, -⟩ := trieLiterals_eq_some hlit
    have hclaims := mapM_literal_claims hmap ctx.mode
    have hclaims' := trieNode_claims ctx.mode (lits.flatten.length + 1) lits
    have hgrouped := @emitLitAltGrouped_emits o { ctx with trie := false } rfl hci
      (lits.flatten.length + 1) lits
    simp only [hclaims'.1, hclaims'.2] at hgrouped
    simp only [scratchSlots, bodies, hclaims.1, hclaims.2]
    refine @Emits.fold _ _ _ (fun slot queue => [.node (trieNode (lits.flatten.length + 1) lits)
      { ctx with trie := false } slot queue]) _ _ _ ?_ fun slot queue => ?_
    · intro em em' hmode hrev hem
      simp only [compileNode, hmode, hlit] at hem
      obtain ⟨out, rfl, hout, hlaid⟩ := hgrouped em em' hmode hrev hem
      refine ⟨out, rfl, hout, fun R plan queue hfits => ?_⟩
      refine hlaid R plan queue ⟨hfits.code, hfits.table, fun k sub hk => ?_⟩
      -- literals queue nothing
      rw [map_eq_nil_iff.mp hout.subs] at hk
      cases hk
    · simp [Item.unfold, unfoldNode, ho, hlit]

theorem Emits.leaf (h : leafInstr o ctx.mode node = some (i, record)) :
    Emits o ctx (compileNode o node) (fun slot queue => [.node node ctx slot queue])
      (scratchSlots node) (bodies ctx.mode node) := by
  obtain ⟨-, hslots, hqueued⟩ := leaf_unfold h 0 0
  rw [hslots, hqueued]
  exact (compileNode_leaf h).fold fun slot queue => (leaf_unfold h slot queue).1

/-- **Compiling a node appends code that carries it out.** -/
theorem compileNode_emits (node : ReNode) (htrie : ctx.trie = o.literalTrie) :
    Emits o ctx (compileNode o node) (fun slot queue => [.node node ctx slot queue])
      (scratchSlots node) (bodies ctx.mode node) := by
  induction node generalizing ctx with
  | char | any | cls | cpclass | bol | eol | wordBoundary | backref | udot => exact .leaf rfl
  | lookaround node negated behind _ => exact .lookaround node negated behind
  | modGroup add remove node ih =>
    have hnode := @ih { ctx with mode := ctx.mode.modified add remove } htrie
    exact .modGroup hnode
  | concat parts ih => exact (compileNodes_emits fun n hn => ih n hn htrie).concat
  | alt options ih => exact .alt htrie (compileNodes_emits fun n hn => ih n hn htrie)
  | star node greedy ih => exact (ih htrie).star greedy
  | plus node greedy ih => exact (ih htrie).plus
  | opt node greedy ih => exact (ih htrie).opt greedy
  | repeat_ node min max greedy ih => exact (ih htrie).repeat
  | group node capIndex ih =>
    cases capIndex with
    | none => exact (ih htrie).fold fun _ _ => rfl
    | some k => exact .group k (ih htrie)

end Js2Wasm.Regex
