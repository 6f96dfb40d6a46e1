import Js2Wasm.Regex.Matcher

/-! # Programs that carry out the matcher

`Laid R … items p0 p1` says that the code of `R` from `p0` to `p1` carries out the items
one after the other, and `Tail R … pc items` that running from `pc` carries them out and
then ends with a match.  A state of the program and a state of the matcher whose items
its code carries out do the same (`simulates_matcher`).
-/
namespace Js2Wasm.Regex
open List Backtrack

/-! ### Instructions that go on to the next one -/

/-- The instructions that go on to the next one or end the attempt. -/
def ReOp.straight : ReOp → Bool
  | .SPLIT | .JMP | .LOOKAROUND | .MATCH => false
  | _ => true

theorem stepBackref_straight (input : JsString) (forward fold : Bool) (t : Thread)
    (start finish : Option Int) :
    (∃ t', ∀ pc, stepBackref input forward fold pc t start finish = .go (pc + 1) t') ∨
      (∀ pc, stepBackref input forward fold pc t start finish = .fail) ∨
      (∀ pc, stepBackref input forward fold pc t start finish = .undefined) := by
  by_cases hunset : start.any (· < 0) || finish.any (· < 0)
  · exact .inl ⟨t, fun pc => if_pos hunset⟩
  · simp only [stepBackref, if_neg hunset]
    cases start with
    | none => exact .inr (.inr fun _ => rfl)
    | some gs =>
      cases finish with
      | none => exact .inr (.inr fun _ => rfl)
      | some ge =>
        simp only
        by_cases hout : (if forward then decide ((input.length : Int) < t.sp + (ge - gs))
            else decide (t.sp - (ge - gs) < 0)) = true
        · exact .inr (.inl fun pc => by rw [if_pos hout])
        · simp only [if_neg hout]
          generalize (range (ge - gs).toNat).all _ = same
          cases same with
          | true => exact .inl ⟨_, fun _ => rfl⟩
          | false => exact .inr (.inl fun _ => rfl)

variable {record table post : List Nat} {offset : Nat} {i : Instr}

/-- A straight instruction does the same at every program counter. -/
theorem stepInstr_straight (table : List Nat) (input : JsString) (forward : Bool) (t : Thread)
    (h : i.op.straight = true) :
    (∃ t', ∀ pc, stepInstr table input forward pc t i = .go (pc + 1) t') ∨
      (∀ pc, stepInstr table input forward pc t i = .fail) ∨
      (∀ pc, stepInstr table input forward pc t i = .undefined) := by
  obtain ⟨op, a, b⟩ := i
  cases op with
  | CHAR | CHARI | ANY | CLASS | BOL | EOL | WBOUND =>
    simp only [stepInstr]
    split
    · exact .inl ⟨_, fun _ => rfl⟩
    · exact .inr (.inl fun _ => rfl)
  | PROGRESS =>
    simp only [stepInstr]
    split
    · exact .inr (.inl fun _ => rfl)
    · exact .inl ⟨_, fun _ => rfl⟩
  | CPCLASS =>
    simp only [stepInstr]
    split
    · exact .inr (.inl fun _ => rfl)
    · split
      · split
        · exact .inl ⟨_, fun _ => rfl⟩
        · exact .inr (.inl fun _ => rfl)
      · exact .inr (.inl fun _ => rfl)
  | SAVE | CLEAR => exact .inl ⟨_, fun _ => rfl⟩
  | BACKREF => exact stepBackref_straight ..
  | SPLIT | JMP | LOOKAROUND | MATCH => cases h

/-! ### Class records -/

/-- The search in a record does not depend on where the record lies. -/
theorem classSearch_drop {count : Nat} (hdrop : table.drop offset = record ++ post)
    (hlen : record.length = 1 + 2 * count) (c : Option Nat) (fuel : Nat) (lo hi : Int)
    (hlo : 0 ≤ lo) (hhi : hi < count) :
    classSearch table offset c fuel lo hi = classSearch record 0 c fuel lo hi := by
  have hget : ∀ i, i < record.length → table.getD (offset + i) 0 = record.getD i 0 := by
    intro i hi
    rw [getD_eq_getElem?_getD, ← getElem?_drop, hdrop, getElem?_append_left hi,
      getD_eq_getElem?_getD]
  induction fuel generalizing lo hi with
  | zero => rfl
  | succ fuel ih =>
    simp only [classSearch]
    by_cases hle : lo ≤ hi
    · rw [if_pos hle, if_pos hle]
      have hmid : lo ≤ lo + (hi - lo) / 2 ∧ lo + (hi - lo) / 2 ≤ hi := by omega
      generalize lo + (hi - lo) / 2 = mid at hmid
      have h1 := hget (1 + 2 * mid.toNat) (by omega)
      have h2 := hget (1 + 2 * mid.toNat + 1) (by omega)
      rw [← Nat.add_assoc] at h1
      rw [← Nat.add_assoc, ← Nat.add_assoc] at h2
      cases c with
      | none => rfl
      | some c =>
        simp only [h1, h2, Nat.zero_add]
        rw [ih lo (mid - 1) hlo (by omega), ih (mid + 1) hi (by omega) hhi]
    · rw [if_neg hle, if_neg hle]

theorem classRecord_length (ranges : List (Nat × Nat)) :
    (Emitter.classRecord ranges).length = 1 + 2 * (mergeRanges ranges).length := by
  simp only [Emitter.classRecord, length_cons, length_flatMap]
  simp [Nat.add_comm, Nat.mul_comm]

/-- A class test reads its record only. -/
theorem classMatch_record {ranges : List (Nat × Nat)}
    (hdrop : table.drop offset = Emitter.classRecord ranges ++ post) (c : Option Nat)
    (negated : Bool) :
    classMatch table offset c negated = classMatch (Emitter.classRecord ranges) 0 c negated := by
  have hcount : table.getD offset 0 = (mergeRanges ranges).length := by
    have h := congrArg (·[0]?) hdrop
    simp only [getElem?_drop, Nat.add_zero, Emitter.classRecord, cons_append,
      getElem?_cons_zero] at h
    rw [getD_eq_getElem?_getD, h]
    rfl
  have hcount' : (Emitter.classRecord ranges).getD 0 0 = (mergeRanges ranges).length := rfl
  simp only [classMatch, hcount, hcount']
  rw [classSearch_drop hdrop (classRecord_length ranges) c _ 0 _ (Int.le_refl 0) (by omega)]

/-! ### The layout of items -/

/-- The instruction at `pc` does what `i` does with its class record. -/
inductive Placed (R : CompiledRegex) (pc : Nat) : Instr → List Nat → Prop where
  | plain {i : Instr} : i.op.straight = true → i.op ≠ .CLASS → i.op ≠ .CPCLASS →
    R.prog[pc]? = some i → Placed R pc i []
  | cls {op : ReOp} {offset b : Nat} {ranges : List (Nat × Nat)} {post : List Nat} :
    op = .CLASS ∨ op = .CPCLASS → R.prog[pc]? = some ⟨op, offset, b⟩ →
    R.classTable.drop offset = Emitter.classRecord ranges ++ post →
    Placed R pc ⟨op, 0, b⟩ (Emitter.classRecord ranges)

theorem Placed.stepInstr {R : CompiledRegex} {pc : Nat} (h : Placed R pc i record)
    (input : JsString) (forward : Bool) (t : Thread) :
    ∃ j, R.prog[pc]? = some j ∧ i.op.straight = true ∧ ∀ pc,
      stepInstr R.classTable input forward pc t j = stepInstr record input forward pc t i := by
  cases h with
  | plain hop hcls hcp hprog =>
    refine ⟨i, hprog, hop, fun pc => ?_⟩
    obtain ⟨op, a, b⟩ := i
    cases op with
    | CLASS => exact absurd rfl hcls
    | CPCLASS => exact absurd rfl hcp
    | _ => rfl
  | cls hop hprog hdrop =>
    rcases hop with rfl | rfl
    · refine ⟨_, hprog, rfl, fun pc => ?_⟩
      simp only [Regex.stepInstr, unitMatches, classMatch_record hdrop]
      rfl
    · refine ⟨_, hprog, rfl, fun pc => ?_⟩
      simp only [Regex.stepInstr, classMatch_record hdrop]

/-- A SPLIT between a body and an exit, in the order of preference. -/
def SplitAt (R : CompiledRegex) (pc : Nat) (greedy : Bool) (body exit : Nat) : Prop :=
  R.prog[pc]? = some ⟨.SPLIT, if greedy then body else exit, if greedy then exit else body⟩

/-- Where the back edge of a star's loop at `pc` leads: to the SAVE of its guard or to
the loop itself. -/
def BackTo (R : CompiledRegex) (node : ReNode) (slot back pc : Nat) : Prop :=
  if canMatchEmpty node then R.prog[back]? = some ⟨.SAVE, slot, 0⟩ ∧ pc = back + 1 else pc = back

/-- The code from one program counter to another carries out the items. -/
inductive Laid (R : CompiledRegex) (o : Options) (plan : Plan) : List Item → Nat → Nat → Prop where
  | nil (p : Nat) : Laid R o plan [] p p
  | unfold {item : Item} {items rest : List Item} {p0 p p1 : Nat} :
    item.unfold o = some items → Laid R o plan items p0 p → Laid R o plan rest p p1 →
    Laid R o plan (item :: rest) p0 p1
  | instr {i : Instr} {record : List Nat} {rest : List Item} {p0 p1 : Nat} :
    Placed R p0 i record → Laid R o plan rest (p0 + 1) p1 →
    Laid R o plan (.instr i record :: rest) p0 p1
  | opt {node : ReNode} {greedy : Bool} {ctx : Ctx} {slot queue : Nat} {rest : List Item}
    {p0 p p1 : Nat} :
    SplitAt R p0 greedy (p0 + 1) p → Laid R o plan [.node node ctx slot queue] (p0 + 1) p →
    Laid R o plan rest p p1 → Laid R o plan (.node (.opt node greedy) ctx slot queue :: rest) p0 p1
  | loop {node : ReNode} {greedy : Bool} {ctx : Ctx} {slot queue back : Nat} {rest : List Item}
    {p0 p p1 : Nat} :
    SplitAt R p0 greedy (p0 + 1) (p + 1) →
    Laid R o plan (iteration node ctx slot queue) (p0 + 1) p →
    R.prog[p]? = some ⟨.JMP, back, 0⟩ → BackTo R node slot back p0 →
    Laid R o plan rest (p + 1) p1 → Laid R o plan (.loop node greedy ctx slot queue :: rest) p0 p1
  | again {node : ReNode} {greedy : Bool} {ctx : Ctx} {slot queue : Nat} {rest : List Item}
    {l p0 p1 : Nat} :
    Laid R o plan (clearItems node ++ [.node node ctx slot queue]) l p0 →
    SplitAt R p0 greedy l (p0 + 1) → Laid R o plan rest (p0 + 1) p1 →
    Laid R o plan (.again node greedy ctx slot queue :: rest) p0 p1
  | branches {node other : ReNode} {options : List ReNode} {ctx : Ctx} {slot queue : Nat}
    {rest : List Item} {p0 p exit p1 : Nat} :
    R.prog[p0]? = some ⟨.SPLIT, p0 + 1, p + 1⟩ →
    Laid R o plan [.node node ctx slot queue] (p0 + 1) p → R.prog[p]? = some ⟨.JMP, exit, 0⟩ →
    Laid R o plan [.branches (other :: options) ctx (slot + scratchSlots node)
      (queue + (bodies ctx.mode node).length)] (p + 1) exit →
    Laid R o plan rest exit p1 →
    Laid R o plan (.branches (node :: other :: options) ctx slot queue :: rest) p0 p1
  | look {node : ReNode} {negated behind : Bool} {ctx : Ctx} {slot queue slot' queue' : Nat}
    {rest : List Item} {p0 p1 entry exit : Nat} :
    R.prog[p0]? = some ⟨.LOOKAROUND, entry, bit negated + 2 * bit behind⟩ →
    plan[queue]? = some (slot', queue') →
    Laid R o plan [.ofBody ctx.trie ⟨orient behind node, behind, ctx.mode⟩ slot' queue']
      entry exit →
    R.prog[exit]? = some ⟨.MATCH, 0, 0⟩ → Laid R o plan rest (p0 + 1) p1 →
    Laid R o plan (.node (.lookaround node negated behind) ctx slot queue :: rest) p0 p1

/-- Running from the program counter carries out the items and then ends with a match. -/
inductive Tail (R : CompiledRegex) (o : Options) (plan : Plan) : Nat → List Item → Prop where
  | done {pc : Nat} : R.prog[pc]? = some ⟨.MATCH, 0, 0⟩ → Tail R o plan pc []
  | code {items rest : List Item} {p0 p1 : Nat} :
    Laid R o plan items p0 p1 → Tail R o plan p1 rest → Tail R o plan p0 (items ++ rest)
  | skip {pc target : Nat} {rest : List Item} :
    R.prog[pc]? = some ⟨.JMP, target, 0⟩ → Tail R o plan target rest →
    Tail R o plan pc (.skip :: rest)

section Laid

variable {R : CompiledRegex} {o : Options} {plan : Plan} {items rest : List Item} {p0 p p1 : Nat}

theorem Laid.append (h : Laid R o plan items p0 p) (h' : Laid R o plan rest p p1) :
    Laid R o plan (items ++ rest) p0 p1 := by
  induction h with
  | nil => exact h'
  | unfold hu hi _ _ ih => exact .unfold hu hi (ih h')
  | instr hp _ ih => exact .instr hp (ih h')
  | opt hs hb _ _ ih => exact .opt hs hb (ih h')
  | loop hs hi hj hb _ _ ih => exact .loop hs hi hj hb (ih h')
  | again hl hs _ _ ih => exact .again hl hs (ih h')
  | branches hs hn hj ho _ _ _ ih => exact .branches hs hn hj ho (ih h')
  | look hl hp hb hm _ _ ih => exact .look hl hp hb hm (ih h')

/-- An item that stands for others is laid out like them. -/
theorem Laid.fold {item : Item} (hu : item.unfold o = some items) (h : Laid R o plan items p0 p1) :
    Laid R o plan [item] p0 p1 := .unfold hu h (.nil p1)

end Laid

/-! ### The simulation -/

/-- A state of the program whose code carries out the items of a state of the matcher. -/
def Carries (R : CompiledRegex) (o : Options) (plan : Plan) (s : VmState) (m : MatchState) : Prop :=
  s.forward = m.forward ∧ s.thread = m.thread ∧ Tail R o plan s.pc m.items

section Simulation

variable {R : CompiledRegex} {o : Options} {plan : Plan} {input : JsString} {forward : Bool}
  {t : Thread} {items rest : List Item} {p0 p1 pc : Nat}

theorem vmStep_of {i : Instr} (h : R.prog[pc]? = some i) :
    vmStep R input ⟨forward, pc, t⟩ =
      VmState.after ⟨forward, pc, t⟩ (stepInstr R.classTable input forward pc t i) := by
  simp only [vmStep, step, h]

theorem vmStep_jmp {target b : Nat} (h : R.prog[pc]? = some ⟨.JMP, target, b⟩) :
    vmStep R input ⟨forward, pc, t⟩ = .go ⟨forward, target, t⟩ := vmStep_of h

/-- A SPLIT is the matcher's choice. -/
theorem SplitAt.sync {Rel : VmState → MatchState → Prop} {greedy : Bool} {body exit : Nat}
    {all : List Item} (h : SplitAt R pc greedy body exit) (items k : List Item)
    (hm : matchStep o plan input ⟨forward, all, t⟩ =
      MatchState.choose ⟨forward, all, t⟩ greedy items k)
    (hbody : Rel ⟨forward, body, t⟩ ⟨forward, items ++ k, t⟩)
    (hexit : Rel ⟨forward, exit, t⟩ ⟨forward, k, t⟩) :
    Sync (vmStep R input) (matchStep o plan input) Rel ⟨forward, pc, t⟩ ⟨forward, all, t⟩ := by
  cases greedy with
  | true => exact .fork (vmStep_of h) hm hbody hexit
  | false => exact .fork (vmStep_of h) hm hexit hbody

theorem Tail.one {item : Item} (h : Laid R o plan [item] p0 p1) (hr : Tail R o plan p1 rest) :
    Tail R o plan p0 (item :: rest) := .code h hr

/-- The loop that a back edge returns to. -/
theorem Laid.star {node : ReNode} {greedy : Bool} {ctx : Ctx} {slot queue back : Nat}
    (hloop : Laid R o plan [.loop node greedy ctx slot queue] p0 p1)
    (hback : BackTo R node slot back p0) :
    Laid R o plan [.node (.star node greedy) ctx slot queue] back p1 := by
  unfold BackTo at hback
  by_cases hempty : canMatchEmpty node = true
  · rw [if_pos hempty] at hback
    obtain ⟨hsave, rfl⟩ := hback
    refine @Laid.fold _ _ _ [.instr ⟨.SAVE, slot, 0⟩ [], .loop node greedy ctx slot queue] _ _ _ ?_ ?_
    · simp [Item.unfold, unfoldNode, hempty]
    · exact .instr (.plain rfl (by simp) (by simp) hsave) hloop
  · rw [if_neg hempty] at hback
    subst hback
    refine @Laid.fold _ _ _ [.loop node greedy ctx slot queue] _ _ _ ?_ hloop
    simp [Item.unfold, unfoldNode, hempty]

/-- Code in front of a synchronised state is synchronised. -/
theorem Laid.sync (h : Laid R o plan items p0 p1) {k : List Item} (hk : Tail R o plan p1 k)
    (hsync : ∀ forward t, Sync (vmStep R input) (matchStep o plan input) (Carries R o plan)
      ⟨forward, p1, t⟩ ⟨forward, k, t⟩) :
    ∀ forward t, Sync (vmStep R input) (matchStep o plan input) (Carries R o plan)
      ⟨forward, p0, t⟩ ⟨forward, items ++ k, t⟩ := by
  induction h generalizing k with
  | nil => exact hsync
  | @unfold item items rest p0 p p1 hu hi hr ihi ihr =>
    intro forward t
    have hstep : matchStep o plan input ⟨forward, item :: rest ++ k, t⟩ =
        .go ⟨forward, items ++ (rest ++ k), t⟩ := by
      simp [matchStep, hu]
    exact .silentRight hstep (ihi (.code hr hk) (ihr hk hsync) forward t)
  | @instr i record rest p0 p1 hp hr ih =>
    intro forward t
    obtain ⟨j, hj, hop, heq⟩ := hp.stepInstr input forward t
    have hvm := @vmStep_of _ input forward t _ _ hj
    have hm : matchStep o plan input ⟨forward, .instr i record :: rest ++ k, t⟩ =
        MatchState.act plan input ⟨forward, .instr i record :: rest ++ k, t⟩ (rest ++ k)
          (.instr i record) := by
      simp [matchStep, Item.unfold]
    rw [heq] at hvm
    rw [MatchState.act] at hm
    rcases stepInstr_straight record input forward t hop with ⟨t', h⟩ | h | h
    · rw [h] at hvm
      simp only [h] at hm
      exact .go hvm hm ⟨rfl, rfl, .code hr hk⟩
    all_goals
      rw [h] at hvm
      simp only [h] at hm
      exact .halt hvm hm
  | @opt node greedy ctx slot queue rest p0 p p1 hs hb hr _ _ =>
    intro forward t
    refine hs.sync [.node node ctx slot queue] (rest ++ k) ?_ ?_ ?_
    · simp [matchStep, Item.unfold, unfoldNode, MatchState.act]
    · exact ⟨rfl, rfl, .code hb (.code hr hk)⟩
    · exact ⟨rfl, rfl, .code hr hk⟩
  | @loop node greedy ctx slot queue back rest p0 p p1 hs hi hj hb hr _ _ =>
    intro forward t
    refine hs.sync (iteration node ctx slot queue ++
      [.skip, .node (.star node greedy) ctx slot queue]) (rest ++ k) ?_ ?_ ?_
    · simp [matchStep, Item.unfold, MatchState.act]
    · refine ⟨rfl, rfl, ?_⟩
      have hstar := Laid.star (.loop hs hi hj hb (.nil _)) hb
      simp only [append_assoc]
      exact .code hi (.skip hj (.code hstar (.code hr hk)))
    · exact ⟨rfl, rfl, .code hr hk⟩
  | @again node greedy ctx slot queue rest l p0 p1 hl hs hr _ _ =>
    intro forward t
    refine hs.sync (clearItems node ++
      [.node node ctx slot queue, .again node greedy ctx slot queue]) (rest ++ k) ?_ ?_ ?_
    · simp [matchStep, Item.unfold, MatchState.act]
    · refine ⟨rfl, rfl, ?_⟩
      have hagain : Laid R o plan [.again node greedy ctx slot queue] p0 (p0 + 1) :=
        .again hl hs (.nil _)
      have := hl.append hagain
      simp only [append_assoc, cons_append, nil_append] at this
      exact .code this (.code hr hk)
    · exact ⟨rfl, rfl, .code hr hk⟩
  | @branches node other options ctx slot queue rest p0 p exit p1 hs hn hj ho hr _ _ _ =>
    intro forward t
    have hms : matchStep o plan input
        ⟨forward, .branches (node :: other :: options) ctx slot queue :: rest ++ k, t⟩ =
        .fork ⟨forward, .node node ctx slot queue :: .skip :: (rest ++ k), t⟩
          ⟨forward, .branches (other :: options) ctx (slot + scratchSlots node)
            (queue + (bodies ctx.mode node).length) :: (rest ++ k), t⟩ := by
      simp [matchStep, Item.unfold, MatchState.act]
    refine .fork (vmStep_of hs) hms ?_ ?_
    · exact ⟨rfl, rfl, .code hn (.skip hj (.code hr hk))⟩
    · exact ⟨rfl, rfl, .code ho (.code hr hk)⟩
  | @look node negated behind ctx slot queue slot' queue' rest p0 p1 entry exit hl hp hb hm hr _ _ =>
    intro forward t
    have hneg : ((bit negated + 2 * bit behind) &&& 1 != 0) = negated := by
      cases negated <;> cases behind <;> rfl
    have hbeh : ((bit negated + 2 * bit behind) &&& 2 != 0) = behind := by
      cases negated <;> cases behind <;> rfl
    have hvm := @vmStep_of _ input forward t _ _ hl
    simp only [stepInstr, hneg, hbeh, VmState.after] at hvm
    have hms : matchStep o plan input
        ⟨forward, .node (.lookaround node negated behind) ctx slot queue :: rest ++ k, t⟩ =
        .look ⟨!behind, [.ofBody ctx.trie ⟨orient behind node, behind, ctx.mode⟩ slot' queue'], t⟩
          fun w => (adopt t negated w).map
            (fun t => { forward := forward, items := rest ++ k, thread := t }) id := by
      simp [matchStep, Item.unfold, unfoldNode, MatchState.act, hp]
    refine .look hvm hms ⟨rfl, rfl, .code hb (.done hm)⟩ fun w => ?_
    cases adopt t negated w with
    | inl t' => exact .go ⟨rfl, rfl, .code hr hk⟩
    | inr v => exact .halt v

theorem Tail.sync (h : Tail R o plan pc items) :
    ∀ forward t, Sync (vmStep R input) (matchStep o plan input) (Carries R o plan)
      ⟨forward, pc, t⟩ ⟨forward, items, t⟩ := by
  induction h with
  | done hm => exact fun _ _ => .halt (vmStep_of hm) rfl
  | code hl hr ih => exact hl.sync hr ih
  | @skip pc target rest hj hr _ =>
    intro forward t
    have hms : matchStep o plan input ⟨forward, .skip :: rest, t⟩ = .go ⟨forward, rest, t⟩ := by
      simp [matchStep, Item.unfold, MatchState.act]
    exact .go (vmStep_jmp hj) hms ⟨rfl, rfl, hr⟩

/-- **The program does what the matcher does.** -/
theorem simulates_matcher (R : CompiledRegex) (o : Options) (plan : Plan) (input : JsString) :
    Simulates (vmStep R input) (matchStep o plan input) (Carries R o plan) := by
  rintro ⟨forward, pc, t⟩ ⟨forward', items, t'⟩ ⟨rfl, rfl, htail⟩
  exact htail.sync forward t

end Simulation

end Js2Wasm.Regex
