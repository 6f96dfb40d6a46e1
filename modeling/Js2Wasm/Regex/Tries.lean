import Js2Wasm.Regex.Literals

/-! # Grouped and linear alternations

The shared-prefix emission of an alternation of literals tries the same positions in the
same order as the linear chain of splits (`Laid.explores`), so a matcher that groups nothing
does the same as one that does (`simulates_ungrouped`).
-/
namespace Js2Wasm.Regex
open List Backtrack

/-! ### Literal items -/

/-- An item made of characters, sequences and plain alternations. -/
def Item.literal : Item → Prop
  | .node n ctx _ _ => isLiteral n = true ∧ ctx.trie = false ∧ ctx.mode.caseInsensitive = false
  | .branches ns ctx _ _ =>
    areLiteral ns = true ∧ ctx.trie = false ∧ ctx.mode.caseInsensitive = false
  | .instr i record => i.op = .CHAR ∧ record = []
  | _ => False

/-- Where a literal item ends. -/
def Item.ends (input : JsString) (forward : Bool) : Item → Int → List Int
  | .node n _ _ _, sp => litEnds input forward n sp
  | .branches ns _ _ _, sp => litEndsAny input forward ns sp
  | .instr i _, sp => charEnds input forward i.a sp
  | _, _ => []

/-- Where literal items end that follow one another. -/
def itemsEnds (input : JsString) (forward : Bool) : List Item → Int → List Int
  | [], sp => [sp]
  | item :: items, sp => (item.ends input forward sp).flatMap (itemsEnds input forward items)

section Literal

variable {o : Options} {plan : Plan} {input : JsString} {forward : Bool} {ctx : Ctx}
  {slot queue : Nat}

theorem itemsEnds_singleton (item : Item) (sp : Int) :
    itemsEnds input forward [item] sp = item.ends input forward sp := by
  simp [itemsEnds]

theorem seqItems_literal {ns : List ReNode} (hlit : areLiteral ns = true) (htrie : ctx.trie = false)
    (hci : ctx.mode.caseInsensitive = false) (slot queue : Nat) :
    (∀ item ∈ seqItems ctx ns slot queue, item.literal) ∧
      ∀ sp, itemsEnds input forward (seqItems ctx ns slot queue) sp =
        litEndsSeq input forward ns sp := by
  induction ns generalizing slot queue with
  | nil => exact ⟨fun _ h => absurd h not_mem_nil, fun _ => rfl⟩
  | cons n ns ih =>
    simp only [areLiteral, Bool.and_eq_true] at hlit
    obtain ⟨h1, h2⟩ := ih hlit.2 (slot + scratchSlots n) (queue + (bodies ctx.mode n).length)
    refine ⟨fun item hitem => ?_, fun sp => ?_⟩
    · rcases mem_cons.mp hitem with rfl | hitem
      · exact ⟨hlit.1, htrie, hci⟩
      · exact h1 item hitem
    · simp only [seqItems, itemsEnds, litEndsSeq, Item.ends]
      exact flatMap_congr fun sp _ => h2 sp

/-- Unfolding a literal item keeps its ends. -/
theorem unfold_literal {item : Item} {items : List Item} (hlit : item.literal)
    (hu : item.unfold o = some items) :
    (∀ i ∈ items, i.literal) ∧
      ∀ sp, itemsEnds input forward items sp = item.ends input forward sp := by
  cases item with
  | node n ctx slot queue =>
    obtain ⟨hn, htrie, hci⟩ := hlit
    cases n with
    | char code =>
      simp only [Item.unfold, unfoldNode, leafInstr, hci, Option.map_some, Option.some.injEq] at hu
      subst hu
      refine ⟨fun i hi => ?_, fun sp => ?_⟩
      · rw [mem_singleton.mp hi]
        exact ⟨rfl, rfl⟩
      · rw [itemsEnds_singleton]
        rfl
    | concat parts =>
      cases hu
      exact seqItems_literal hn htrie hci _ _
    | alt options =>
      have hnone : trieLiterals { o with literalTrie := ctx.trie } ctx.mode options = none := by
        simp [trieLiterals, htrie]
      simp only [Item.unfold, unfoldNode, hnone, Option.some.injEq] at hu
      subst hu
      refine ⟨fun i hi => ?_, fun sp => ?_⟩
      · rw [mem_singleton.mp hi]
        exact ⟨hn, htrie, hci⟩
      · rw [itemsEnds_singleton]
        rfl
    | _ => cases hn
  | branches ns ctx slot queue =>
    obtain ⟨hns, htrie, hci⟩ := hlit
    rcases ns with _ | ⟨n, _ | ⟨m, ns⟩⟩
    · cases hu
      exact ⟨fun _ h => absurd h not_mem_nil, fun _ => rfl⟩
    · cases hu
      refine ⟨fun i hi => ?_, fun sp => ?_⟩
      · rw [mem_singleton.mp hi]
        exact ⟨by simpa [areLiteral] using hns, htrie, hci⟩
      · rw [itemsEnds_singleton]
        rfl
    · cases hu
  | _ => cases hu

/-- A CHAR goes on at the end of its character, or fails. -/
theorem stepInstr_char (table : List Nat) (pc c b : Nat) (t : Thread) :
    (charEnds input forward c t.sp = [move forward t.sp 1] ∧
      stepInstr table input forward pc t ⟨.CHAR, c, b⟩ =
        .go (pc + 1) { t with sp := move forward t.sp 1 }) ∨
    (charEnds input forward c t.sp = [] ∧
      stepInstr table input forward pc t ⟨.CHAR, c, b⟩ = .fail) := by
  by_cases h : (inBounds forward input t.sp && unitAt forward input t.sp == some c) = true
  · exact .inl ⟨if_pos h, if_pos h⟩
  · exact .inr ⟨if_neg h, if_neg h⟩

/-- **Code for literal items tries their ends in order.** -/
theorem Laid.explores {R : CompiledRegex} {items : List Item} {p0 p1 : Nat}
    (h : Laid R o plan items p0 p1) (hlit : ∀ item ∈ items, item.literal) (t : Thread) :
    Explores (vmStep R input) ⟨forward, p0, t⟩
      ((itemsEnds input forward items t.sp).map fun sp => ⟨forward, p1, { t with sp := sp }⟩) := by
  induction h generalizing t with
  | nil p => exact .stop _
  | unfold hu _ _ ihi ihr =>
    obtain ⟨hitems, hends⟩ := @unfold_literal _ input forward _ _
      (hlit _ mem_cons_self) hu
    rw [itemsEnds, ← hends]
    refine (ihi hitems t).bind _ fun sp _ => ?_
    exact ihr (fun item hitem => hlit item (mem_cons_of_mem _ hitem)) { t with sp := sp }
  | @instr i record rest p0 p1 hp hr ih =>
    obtain ⟨hop, rfl⟩ := hlit _ mem_cons_self
    obtain ⟨op, c, b⟩ := i
    cases hop
    obtain ⟨j, hj, -, heq⟩ := hp.stepInstr input forward t
    have hvm := @vmStep_of _ input forward t _ _ hj
    rw [heq] at hvm
    have hrest := ih fun item hitem => hlit item (mem_cons_of_mem _ hitem)
    simp only [itemsEnds, Item.ends]
    rcases @stepInstr_char input forward [] p0 c b t with
      ⟨hends, hstep⟩ | ⟨hends, hstep⟩
    · rw [hstep] at hvm
      rw [hends, flatMap_cons, flatMap_nil, append_nil]
      exact .go hvm (hrest { t with sp := move forward t.sp 1 })
    · rw [hstep] at hvm
      rw [hends]
      exact .fail hvm
  | @branches node other options ctx slot queue rest p0 p exit p1 hs _ hj _ _ ihn iho ihr =>
    obtain ⟨hns, htrie, hci⟩ := hlit _ mem_cons_self
    simp only [areLiteral, Bool.and_eq_true] at hns
    have hnode := ihn (t := t) <| by
      intro item hitem
      rw [mem_singleton.mp hitem]
      exact ⟨hns.1, htrie, hci⟩
    have hothers := iho (t := t) <| by
      intro item hitem
      rw [mem_singleton.mp hitem]
      exact ⟨by simpa [areLiteral] using hns.2, htrie, hci⟩
    rw [itemsEnds_singleton] at hnode hothers
    have hexit : Explores (vmStep R input) ⟨forward, p0, t⟩
        ((litEndsAny input forward (node :: other :: options) t.sp).map
          fun sp => ⟨forward, exit, { t with sp := sp }⟩) := by
      rw [litEndsAny_cons, map_append]
      refine .fork (vmStep_of hs) ?_ hothers
      have := hnode.bind (fun sp => [sp])
        (g := fun sp => ⟨forward, exit, { t with sp := sp }⟩) fun sp _ => .go (vmStep_jmp hj) (.stop _)
      simpa [Item.ends] using this
    refine hexit.bind _ fun sp _ => ?_
    exact ihr (fun item hitem => hlit item (mem_cons_of_mem _ hitem)) { t with sp := sp }
  | opt | look => exact absurd (hlit _ mem_cons_self).1 (by simp [isLiteral])
  | loop | again => exact (hlit _ mem_cons_self).elim

variable {k : List Item} {t : Thread}

/-- The matcher tries the ends of an alternation branch by branch. -/
theorem explores_branches {options : List ReNode} (h : ∀ n ∈ options, ∀ slot queue k,
      Explores (matchStep o plan input) ⟨forward, .node n ctx slot queue :: k, t⟩
      ((litEnds input forward n t.sp).map fun sp => ⟨forward, k, { t with sp := sp }⟩)) :
    Explores (matchStep o plan input) ⟨forward, .branches options ctx slot queue :: k, t⟩
      ((litEndsAny input forward options t.sp).map fun sp => ⟨forward, k, { t with sp := sp }⟩) := by
  induction options generalizing slot queue with
  | nil => exact .go rfl (.stop _)
  | cons n options ih =>
    have hn := h n mem_cons_self
    cases options with
    | nil => exact .go rfl (hn slot queue k)
    | cons m options =>
      rw [litEndsAny_cons, map_append]
      refine .fork rfl ?_ (ih fun p hp => h p (mem_cons_of_mem n hp))
      have := (hn slot queue (.skip :: k)).bind (fun sp => [sp])
        (g := fun sp => ⟨forward, k, { t with sp := sp }⟩) fun sp _ => .go rfl (.stop _)
      simpa using this

theorem matchStep_unfold {items : List Item} {n : ReNode}
    (h : unfoldNode o ctx slot queue n = some items) :
    matchStep o plan input ⟨forward, .node n ctx slot queue :: k, t⟩ =
      .go ⟨forward, items ++ k, t⟩ := by
  simp only [matchStep, Item.unfold, h]

/-- The matcher tries the ends of a literal tree in order. -/
theorem explores_literal (n : ReNode) (hlit : isLiteral n = true) (htrie : ctx.trie = false)
    (hci : ctx.mode.caseInsensitive = false) (slot queue : Nat) (k : List Item) (t : Thread) :
    Explores (matchStep o plan input) ⟨forward, .node n ctx slot queue :: k, t⟩
      ((litEnds input forward n t.sp).map fun sp => ⟨forward, k, { t with sp := sp }⟩) := by
  induction n generalizing slot queue k t with
  | char code =>
    have hu : unfoldNode o ctx slot queue (.char code) = some [.instr ⟨.CHAR, code, 0⟩ []] := by
      simp [unfoldNode, leafInstr, hci]
    refine .go (matchStep_unfold hu) ?_
    have hstep : matchStep o plan input ⟨forward, .instr ⟨.CHAR, code, 0⟩ [] :: k, t⟩ =
        MatchState.act plan input ⟨forward, .instr ⟨.CHAR, code, 0⟩ [] :: k, t⟩ k
          (.instr ⟨.CHAR, code, 0⟩ []) := rfl
    simp only [MatchState.act] at hstep
    rcases @stepInstr_char input forward [] 0 code 0 t with
      ⟨hends, h⟩ | ⟨hends, h⟩
    · rw [litEnds, hends]
      simp only [h] at hstep
      exact .go hstep (.stop _)
    · rw [litEnds, hends]
      simp only [h] at hstep
      exact .fail hstep
  | concat parts ih =>
    refine .go (matchStep_unfold rfl) ?_
    simp only [litEnds]
    simp only [isLiteral] at hlit
    induction parts generalizing slot queue t with
    | nil => exact .stop _
    | cons m parts ihp =>
      simp only [areLiteral, Bool.and_eq_true] at hlit
      have hm := ih m mem_cons_self hlit.1 slot queue
        (seqItems ctx parts (slot + scratchSlots m) (queue + (bodies ctx.mode m).length) ++ k) t
      refine hm.bind _ fun sp _ => ?_
      exact ihp (fun p hp => ih p (mem_cons_of_mem m hp)) hlit.2 _ _ { t with sp := sp }
  | alt options ih =>
    have hu : unfoldNode o ctx slot queue (.alt options) =
        some [.branches options ctx slot queue] := by
      simp [unfoldNode, trieLiterals, htrie]
    refine .go (matchStep_unfold hu) (explores_branches fun n hn slot queue k => ?_)
    exact ih n hn (areLiteral_mem hlit n hn) slot queue k t
  | _ => cases hlit

end Literal

/-! ### The matchers with and without groups -/

/-- The context in which nothing is grouped. -/
def Ctx.plain (ctx : Ctx) : Ctx := { ctx with trie := false }

/-- The item in such a context. -/
def Item.plain : Item → Item
  | .node n ctx slot queue => .node n ctx.plain slot queue
  | .branches ns ctx slot queue => .branches ns ctx.plain slot queue
  | .loop n greedy ctx slot queue => .loop n greedy ctx.plain slot queue
  | .again n greedy ctx slot queue => .again n greedy ctx.plain slot queue
  | .instr i record => .instr i record
  | .skip => .skip

/-- Two states of the matcher, of which the second groups nothing. -/
def Ungrouped (s s' : MatchState) : Prop :=
  s' = ⟨s.forward, s.items.map Item.plain, s.thread⟩

section Ungrouped

variable {o : Options} {plan : Plan} {input : JsString} {ctx : Ctx} {slot queue : Nat}

theorem seqItems_plain (ns : List ReNode) (slot queue : Nat) :
    (seqItems ctx ns slot queue).map Item.plain = seqItems ctx.plain ns slot queue := by
  induction ns generalizing slot queue with
  | nil => rfl
  | cons n ns ih =>
    rw [seqItems, map_cons, ih]
    rfl

theorem clearItems_plain (n : ReNode) : (clearItems n).map Item.plain = clearItems n := by
  unfold clearItems
  cases captureSpan n <;> rfl

theorem iteration_plain (n : ReNode) (slot queue : Nat) :
    (iteration n ctx slot queue).map Item.plain = iteration n ctx.plain slot queue := by
  unfold iteration
  rw [map_append, clearItems_plain]
  split <;> rfl

/-- Where an alternation is not grouped, unfolding commutes with giving up groups. -/
theorem unfold_plain (item : Item) :
    (∃ options ctx slot queue lits, item = .node (.alt options) ctx slot queue ∧
      trieLiterals { o with literalTrie := ctx.trie } ctx.mode options = some lits) ∨
    item.plain.unfold o = (item.unfold o).map (List.map Item.plain) := by
  cases item with
  | node n ctx slot queue =>
    cases n with
    | alt options =>
      have hplain : trieLiterals { o with literalTrie := false } ctx.mode options = none := by
        simp [trieLiterals]
      cases hlit : trieLiterals { o with literalTrie := ctx.trie } ctx.mode options with
      | some lits => exact .inl ⟨options, ctx, slot, queue, lits, rfl, hlit⟩
      | none =>
        refine .inr ?_
        simp [Item.plain, Item.unfold, unfoldNode, Ctx.plain, hplain, hlit]
    | star n greedy =>
      refine .inr ?_
      simp only [Item.plain, Item.unfold, unfoldNode]
      split <;> rfl
    | plus n greedy =>
      refine .inr ?_
      simp only [Item.plain, Item.unfold, unfoldNode, Option.map_some, map_append,
        clearItems_plain]
      split <;> rfl
    | concat parts | repeat_ n min max greedy =>
      refine .inr ?_
      simp [Item.plain, Item.unfold, unfoldNode, seqItems_plain]
    | group n capIndex => cases capIndex <;> exact .inr rfl
    | _ => exact .inr rfl
  | branches ns ctx slot queue =>
    rcases ns with _ | ⟨n, _ | ⟨m, ns⟩⟩
    all_goals exact .inr rfl
  | _ => exact .inr rfl

/-- The ends of a grouped alternation are those of the linear one. -/
theorem litEnds_grouped {forward : Bool} {options : List ReNode} {lits : List (List Nat)}
    (h : trieLiterals { o with literalTrie := ctx.trie } ctx.mode options = some lits) (sp : Int) :
    litEnds input forward (trieNode (lits.flatten.length + 1) lits) sp =
      litEnds input forward (.alt options) sp := by
  obtain ⟨-, -, hlen, hmap, -⟩ := trieLiterals_eq_some h
  obtain ⟨-, hlength, hends⟩ := @literal_options input forward _ _ hmap
  have hne : lits ≠ [] := by
    rintro rfl
    rw [length_nil] at hlength
    omega
  have hne' : options ≠ [] := by
    rintro rfl
    simp at hlen
  rw [litEnds_trieNode _ hne, litEnds, litEndsAny_eq hne', hends]
  intro w hw
  exact Nat.lt_succ_of_le (sublist_flatten_of_mem hw).length_le

variable {t : Thread} {forward : Bool} {rest : List Item}

/-- A grouped alternation and the linear one try the same ends in the same order. -/
theorem sync_grouped {options : List ReNode} {lits : List (List Nat)}
    (h : trieLiterals { o with literalTrie := ctx.trie } ctx.mode options = some lits) :
    Sync (matchStep o plan input) (matchStep o plan input) Ungrouped
      ⟨forward, .node (.alt options) ctx slot queue :: rest, t⟩
      ⟨forward, (Item.node (.alt options) ctx slot queue :: rest).map Item.plain, t⟩ := by
  obtain ⟨-, hci, -, hmap, -⟩ := trieLiterals_eq_some h
  obtain ⟨hoptions, -, -⟩ := @literal_options input forward _ _ hmap
  have hgrouped : unfoldNode o ctx slot queue (.alt options) =
      some [.node (trieNode (lits.flatten.length + 1) lits) { ctx with trie := false } slot queue] := by
    simp [unfoldNode, h]
  have hlinear : unfoldNode o ctx.plain slot queue (.alt options) =
      some [.branches options ctx.plain slot queue] := by
    simp [unfoldNode, trieLiterals, Ctx.plain]
  refine .explore (fun sp => ⟨forward, rest, { t with sp := sp }⟩)
    (fun sp => ⟨forward, rest.map Item.plain, { t with sp := sp }⟩)
    (litEnds input forward (.alt options) t.sp) ?_ ?_ fun _ _ => rfl
  · rw [← litEnds_grouped h]
    refine .go (matchStep_unfold hgrouped) ?_
    exact @explores_literal _ _ _ _ ({ ctx with trie := false }) _ (isLiteral_trieNode _ lits) rfl hci
      slot queue rest t
  · refine .go (matchStep_unfold hlinear) (explores_branches fun n hn slot queue k => ?_)
    exact @explores_literal _ _ _ _ ctx.plain n (areLiteral_mem hoptions n hn) rfl hci slot queue k t

/-- A choice of the one is a choice of the other. -/
theorem sync_choose {s : MatchState} {greedy : Bool} {items : List Item} {a a' : MatchState}
    (h : matchStep o plan input a = s.choose greedy items rest) (h' : matchStep o plan input a' =
      MatchState.choose { s with items := s.items.map Item.plain } greedy
      (items.map Item.plain) (rest.map Item.plain)) :
    Sync (matchStep o plan input) (matchStep o plan input) Ungrouped a a' := by
  have hbody : Ungrouped { s with items := items ++ rest }
      { s with items := items.map Item.plain ++ rest.map Item.plain } := by
    simp [Ungrouped]
  have hexit : Ungrouped { s with items := rest } { s with items := rest.map Item.plain } := rfl
  cases greedy with
  | true => exact .fork h h' hbody hexit
  | false => exact .fork h h' hexit hbody

/-- An item that stands for itself does the same in both. -/
theorem sync_act {item : Item} (hu : item.unfold o = none) (hplain : item.plain.unfold o = none) :
    Sync (matchStep o plan input) (matchStep o plan input) Ungrouped ⟨forward, item :: rest, t⟩
      ⟨forward, (item :: rest).map Item.plain, t⟩ := by
  have hstep : matchStep o plan input ⟨forward, item :: rest, t⟩ =
      MatchState.act plan input ⟨forward, item :: rest, t⟩ rest item := by
    simp only [matchStep, hu]
  have hstep' : matchStep o plan input ⟨forward, (item :: rest).map Item.plain, t⟩ =
      MatchState.act plan input ⟨forward, (item :: rest).map Item.plain, t⟩ (rest.map Item.plain)
        item.plain := by
    simp [matchStep, hplain]
  cases item with
  | node n ctx slot queue =>
    cases n with
    | opt node greedy => exact sync_choose hstep hstep'
    | lookaround node negated behind =>
      simp only [MatchState.act, Item.plain] at hstep hstep'
      cases hplan : plan[queue]? with
      | none =>
        rw [hplan] at hstep hstep'
        exact .halt hstep hstep'
      | some entry =>
        rw [hplan] at hstep hstep'
        refine .look hstep hstep' rfl fun w => ?_
        cases adopt t negated w with
        | inl t' => exact .go rfl
        | inr v => exact .halt v
    | alt | star => simp only [Item.unfold, unfoldNode] at hu; split at hu <;> cases hu
    | group _ capIndex => cases capIndex <;> cases hu
    | _ => simp [Item.unfold, unfoldNode, leafInstr] at hu
  | branches ns ctx slot queue =>
    rcases ns with _ | ⟨n, _ | ⟨m, ns⟩⟩
    · cases hu
    · cases hu
    · exact .fork hstep hstep' rfl rfl
  | loop node greedy ctx slot queue =>
    refine sync_choose hstep ?_
    rw [hstep', map_append, iteration_plain]
    rfl
  | again node greedy ctx slot queue =>
    refine sync_choose hstep ?_
    rw [hstep', map_append, clearItems_plain]
    rfl
  | instr i record =>
    simp only [MatchState.act, Item.plain] at hstep hstep'
    cases hnext : stepInstr record input forward 0 t i with
    | go pc t' =>
      rw [hnext] at hstep hstep'
      exact .go hstep hstep' rfl
    | _ =>
      rw [hnext] at hstep hstep'
      exact .halt hstep hstep'
  | skip => exact .go hstep hstep' rfl

/-- **Grouping does not change what the matcher does.** -/
theorem simulates_ungrouped (o : Options) (plan : Plan) (input : JsString) :
    Simulates (matchStep o plan input) (matchStep o plan input) Ungrouped := by
  rintro ⟨forward, items, t⟩ s' rfl
  cases items with
  | nil => exact .halt rfl rfl
  | cons item rest =>
    rcases unfold_plain (o := o) item with ⟨options, ctx, slot, queue, lits, rfl, hlit⟩ | hplain
    · exact sync_grouped hlit
    · cases hu : item.unfold o with
      | some items =>
        rw [hu, Option.map_some] at hplain
        have hleft : matchStep o plan input ⟨forward, item :: rest, t⟩ =
            .go ⟨forward, items ++ rest, t⟩ := by
          simp only [matchStep, hu]
        have hright : matchStep o plan input ⟨forward, (item :: rest).map Item.plain, t⟩ =
            .go ⟨forward, (items ++ rest).map Item.plain, t⟩ := by
          simp [matchStep, hplain]
        exact .go hleft hright rfl
      | none =>
        rw [hu, Option.map_none] at hplain
        exact sync_act hu hplain

end Ungrouped

end Js2Wasm.Regex
