import Js2Wasm.Regex.Layout

/-! # What the emitter appends

Every step of the emitter only appends: instructions, class records, queued lookaround
bodies and claimed slots (`Output`).  `Emits` says of a step that the code it appends
carries out certain items in every program that contains it, provided that the bodies it
queued are served there.
-/
namespace Js2Wasm.Regex
open List

/-! ### Outputs -/

/-- What a step of the emitter appends. -/
structure Output where
  code : List Instr
  table : List Nat
  subs : List PendingSub
  scratch : Nat

/-- The output of one instruction. -/
def Output.one (op : ReOp) (a b : Nat) : Output := ⟨[⟨op, a, b⟩], [], [], 0⟩

def Output.append (x y : Output) : Output :=
  ⟨x.code ++ y.code, x.table ++ y.table, x.subs ++ y.subs, x.scratch + y.scratch⟩

/-- The emitter after an output. -/
def Emitter.extend (em : Emitter) (out : Output) : Emitter :=
  { em with
    instrs := em.instrs ++ out.code
    classTable := em.classTable ++ out.table
    pendingSubs := em.pendingSubs ++ out.subs
    scratchCount := em.scratchCount + out.scratch }

section extend

variable (em : Emitter) (out out' : Output)

@[simp] theorem extend_mode : (em.extend out).mode = em.mode := rfl
@[simp] theorem extend_reversed : (em.extend out).reversed = em.reversed := rfl

@[simp] theorem extend_here : (em.extend out).here = em.here + out.code.length := by
  simp [Emitter.extend, Emitter.here]

@[simp] theorem extend_slot : (em.extend out).slot = em.slot + out.scratch := by
  simp [Emitter.extend, Emitter.slot, Nat.add_assoc]

@[simp] theorem extend_instrs : (em.extend out).instrs = em.instrs ++ out.code := rfl

@[simp] theorem extend_classTable : (em.extend out).classTable = em.classTable ++ out.table := rfl
@[simp] theorem extend_pendingSubs :
    (em.extend out).pendingSubs = em.pendingSubs ++ out.subs := rfl

theorem extend_extend : (em.extend out).extend out' = em.extend (out.append out') := by
  simp [Emitter.extend, Output.append, Nat.add_assoc]

theorem emit_eq (op : ReOp) (a b : Nat) : em.emit op a b = em.extend (.one op a b) := by
  simp [Emitter.emit, Emitter.extend, Output.one]

theorem allocScratch_eq : em.allocScratch = em.extend ⟨[], [], [], 1⟩ := by
  simp [Emitter.allocScratch, Emitter.extend]

theorem extend_empty : em.extend ⟨[], [], [], 0⟩ = em := by
  simp [Emitter.extend]

end extend

/-! ### Code in a program -/

/-- An instruction of the emitter as the finished program has it: the entry of a
lookaround is patched later. -/
def SameInstr (i j : Instr) : Prop := j.op = i.op ∧ j.b = i.b ∧ (i.op ≠ .LOOKAROUND → j.a = i.a)

/-- The program holds the code from `p` on. -/
def CodeAt (R : CompiledRegex) (p : Nat) (code : List Instr) : Prop :=
  ∀ k i, code[k]? = some i → ∃ j, R.prog[p + k]? = some j ∧ SameInstr i j

/-- The program's class table holds the entries from `offset` on. -/
def TableAt (R : CompiledRegex) (offset : Nat) (table : List Nat) : Prop :=
  table <+: R.classTable.drop offset

section CodeAt

variable {R : CompiledRegex} {p : Nat} {code code' : List Instr} {i : Instr}

theorem codeAt_cons : CodeAt R p (i :: code) ↔
    (∃ j, R.prog[p]? = some j ∧ SameInstr i j) ∧ CodeAt R (p + 1) code := by
  constructor
  · intro h
    refine ⟨h 0 i rfl, fun k i' hi' => ?_⟩
    have := h (k + 1) i' hi'
    rwa [Nat.add_comm k 1, ← Nat.add_assoc] at this
  · rintro ⟨h, hrest⟩ k i' hi'
    cases k with
    | zero =>
      cases hi'
      exact h
    | succ k =>
      have := hrest k i' hi'
      rwa [Nat.add_assoc, Nat.add_comm 1 k] at this

theorem codeAt_append :
    CodeAt R p (code ++ code') ↔ CodeAt R p code ∧ CodeAt R (p + code.length) code' := by
  induction code generalizing p with
  | nil => simp [CodeAt]
  | cons i code ih =>
    rw [cons_append, codeAt_cons, codeAt_cons, ih, length_cons, and_assoc]
    rw [Nat.add_assoc, Nat.add_comm 1 code.length]

/-- An instruction other than a lookaround is in the program as it was emitted. -/
theorem CodeAt.head (h : CodeAt R p (i :: code)) (hi : i.op ≠ .LOOKAROUND) :
    R.prog[p]? = some i := by
  obtain ⟨⟨j, hj, hop, hb, ha⟩, -⟩ := codeAt_cons.mp h
  rw [hj]
  obtain ⟨op, a, b⟩ := i
  obtain ⟨op', a', b'⟩ := j
  cases hop
  cases hb
  cases ha hi
  rfl

theorem CodeAt.tail (h : CodeAt R p (i :: code)) : CodeAt R (p + 1) code := (codeAt_cons.mp h).2

end CodeAt

variable {R : CompiledRegex} {α : Type}

theorem tableAt_append {offset : Nat} {table table' : List Nat}
    (h : TableAt R offset (table ++ table')) :
    TableAt R offset table ∧ TableAt R (offset + table.length) table' := by
  obtain ⟨post, hpost⟩ := h
  refine ⟨⟨table' ++ post, by rw [← hpost, append_assoc]⟩, post, ?_⟩
  rw [← drop_drop, ← hpost, append_assoc, drop_left]

/-- A queued body is served: the lookaround leads to code for it, from the slot and the
queue position that the plan says. -/
def Serves (R : CompiledRegex) (o : Options) (plan : Plan) (trie : Bool) (sub : PendingSub)
    (queue : Nat) : Prop :=
  ∃ entry exit slot' queue', plan[queue]? = some (slot', queue') ∧
    (R.prog[sub.patchPc]?).map Instr.a = some entry ∧
    Laid R o plan [.ofBody trie ⟨sub.node, sub.reversed, sub.mode⟩ slot' queue'] entry exit ∧
    R.prog[exit]? = some ⟨.MATCH, 0, 0⟩

/-- A program holds an output, and serves the bodies that it queued. -/
structure Fits (R : CompiledRegex) (o : Options) (plan : Plan) (trie : Bool) (em : Emitter)
    (queue : Nat) (out : Output) : Prop where
  code : CodeAt R em.here out.code
  table : TableAt R em.classTable.length out.table
  subs : ∀ k sub, out.subs[k]? = some sub → Serves R o plan trie sub (queue + k)

section Fits

variable {R : CompiledRegex} {o : Options} {plan : Plan} {trie : Bool} {em : Emitter}
  {queue : Nat} {out out' : Output}

theorem Fits.left (h : Fits R o plan trie em queue (out.append out')) :
    Fits R o plan trie em queue out where
  code := (codeAt_append.mp h.code).1
  table := (tableAt_append h.table).1
  subs k sub hk := h.subs k sub <| by
    obtain ⟨hlt, -⟩ := List.getElem?_eq_some_iff.mp hk
    rw [Output.append, List.getElem?_append_left hlt, hk]

theorem Fits.right (h : Fits R o plan trie em queue (out.append out')) :
    Fits R o plan trie (em.extend out) (queue + out.subs.length) out' where
  code := by
    rw [extend_here]
    exact (codeAt_append.mp h.code).2
  table := by
    rw [extend_classTable, length_append]
    exact (tableAt_append h.table).2
  subs k sub hk := by
    rw [Nat.add_assoc]
    refine h.subs _ sub ?_
    rw [Output.append, getElem?_append_right (Nat.le_add_right _ _), Nat.add_sub_cancel_left, hk]

end Fits

/-! ### Steps that carry out items -/

/-- The program counters of the lookarounds in a piece of code. -/
def lookPcs (p : Nat) : List Instr → List Nat
  | [] => []
  | i :: code => (if i.op = .LOOKAROUND then [p] else []) ++ lookPcs (p + 1) code

theorem lookPcs_append (p : Nat) (code code' : List Instr) :
    lookPcs p (code ++ code') = lookPcs p code ++ lookPcs (p + code.length) code' := by
  induction code generalizing p with
  | nil => rfl
  | cons i code ih =>
    rw [cons_append, lookPcs, lookPcs, ih, append_assoc, length_cons,
      Nat.add_assoc, Nat.add_comm 1]

/-- The queued body of an entry of the queue. -/
def PendingSub.body (sub : PendingSub) : Body := ⟨sub.node, sub.reversed, sub.mode⟩

/-- What an output says apart from its code: the slots it claims, the bodies it queues and
the instructions that wait for them. -/
structure Output.Claims (out : Output) (pc slots : Nat) (queued : List Body) : Prop where
  scratch : out.scratch = slots
  subs : out.subs.map PendingSub.body = queued
  pcs : out.subs.map PendingSub.patchPc = lookPcs pc out.code

theorem Output.Claims.length {out : Output} {pc slots : Nat} {queued : List Body}
    (h : out.Claims pc slots queued) : out.subs.length = queued.length := by
  rw [← h.subs, length_map]

theorem Output.Claims.append {out out' : Output} {pc slots slots' : Nat} {queued queued' : List Body}
    (h : out.Claims pc slots queued) (h' : out'.Claims (pc + out.code.length) slots' queued') :
    (out.append out').Claims pc (slots + slots') (queued ++ queued') where
  scratch := by rw [Output.append, h.scratch, h'.scratch]
  subs := by rw [Output.append, map_append, h.subs, h'.subs]
  pcs := by rw [Output.append, map_append, h.pcs, h'.pcs, lookPcs_append]

/-- In the context, the step claims the slots, queues the bodies, and appends code that
carries out the items, which depend on the next slot and the next queue position. -/
def Emits (o : Options) (ctx : Ctx) (step : Emission) (items : Nat → Nat → List Item)
    (slots : Nat) (queued : List Body) : Prop :=
  ∀ em em', em.mode = ctx.mode → em.reversed = ctx.reversed → step em = .ok em' →
    ∃ out, em' = em.extend out ∧ out.Claims em.here slots queued ∧
      ∀ R plan queue, Fits R o plan ctx.trie em queue out →
        Laid R o plan (items em.slot queue) em.here em'.here

/-- A step that succeeds succeeds in both halves. -/
theorem bind_ok_iff {β : Type} {x : Except String α} {f : α → Except String β} {r : β} :
    (x >>= f) = .ok r ↔ ∃ a, x = .ok a ∧ f a = .ok r := by
  cases x <;> simp [bind, Except.bind]

section Emits

variable {o : Options} {ctx : Ctx} {step step' : Emission} {items items' : Nat → Nat → List Item}
  {slots slots' : Nat} {queued queued' : List Body}

/-- Two steps, one after the other. -/
theorem Emits.seq (h : Emits o ctx step items slots queued)
    (h' : Emits o ctx step' items' slots' queued') :
    Emits o ctx (fun em => do step' (← step em))
      (fun slot queue => items slot queue ++ items' (slot + slots) (queue + queued.length))
      (slots + slots') (queued ++ queued') := by
  intro em em2 hmode hrev hem
  obtain ⟨em1, hstep, hstep'⟩ := bind_ok_iff.mp hem
  obtain ⟨out, rfl, hclaims, hlaid⟩ := h em em1 hmode hrev hstep
  obtain ⟨out', rfl, hclaims', hlaid'⟩ := h' (em.extend out) em2 hmode hrev hstep'
  rw [extend_here] at hclaims'
  refine ⟨out.append out', extend_extend em out out', hclaims.append hclaims', ?_⟩
  intro R plan queue hfits
  refine (hlaid R plan queue hfits.left).append ?_
  have := hlaid' R plan _ hfits.right
  rwa [extend_slot, hclaims.scratch, hclaims.length] at this

/-- A step that carries out what an item stands for. -/
theorem Emits.fold {item : Nat → Nat → Item} (h : Emits o ctx step items slots queued)
    (hu : ∀ slot queue, (item slot queue).unfold o = some (items slot queue)) :
    Emits o ctx step (fun slot queue => [item slot queue]) slots queued := by
  intro em em' hmode hrev hem
  obtain ⟨out, rfl, hclaims, hlaid⟩ := h em em' hmode hrev hem
  exact ⟨out, rfl, hclaims, fun R plan queue hfits =>
    .fold (hu _ _) (hlaid R plan queue hfits)⟩

/-- Nothing. -/
theorem Emits.nil : Emits o ctx .ok (fun _ _ => []) 0 [] := by
  intro em em' _ _ hem
  cases hem
  exact ⟨⟨[], [], [], 0⟩, (extend_empty em).symm, ⟨rfl, rfl, rfl⟩, fun _ _ _ _ => .nil _⟩

/-- One straight instruction, whose operand may name the next slot. -/
theorem Emits.instr {op : ReOp} {b : Nat} (a : Nat → Nat) (hop : op.straight = true)
    (hcls : op ≠ .CLASS) (hcp : op ≠ .CPCLASS) :
    Emits o ctx (fun em => .ok (em.emit op (a em.slot) b))
      (fun slot _ => [.instr ⟨op, a slot, b⟩ []]) 0 [] := by
  intro em em' _ _ hem
  cases hem
  have hlook : op ≠ .LOOKAROUND := by
    rintro rfl
    cases hop
  refine ⟨.one op (a em.slot) b, emit_eq em _ _ _, ⟨rfl, rfl, ?_⟩, fun R plan queue hfits => ?_⟩
  · simp [Output.one, lookPcs, hlook]
  · have hprog := hfits.code.head (i := ⟨op, a em.slot, b⟩) hlook
    rw [emit_eq, extend_here]
    exact .instr (.plain hop hcls hcp hprog) (.nil _)

/-- A class and the instruction that reads it. -/
theorem Emits.cls {op : ReOp} {ranges : List (Nat × Nat)} {negated : Bool}
    (hop : op = .CLASS ∨ op = .CPCLASS) :
    Emits o ctx (fun em => .ok (em.emitClass op ranges negated))
      (fun _ _ => [.instr ⟨op, 0, bit negated⟩ (Emitter.classRecord ranges)]) 0 [] := by
  intro em em' _ _ hem
  cases hem
  let out : Output :=
    ⟨[⟨op, em.classTable.length, bit negated⟩], Emitter.classRecord ranges, [], 0⟩
  have hout : em.emitClass op ranges negated = em.extend out := by
    simp [Emitter.emitClass, Emitter.addClass, Emitter.emit, Emitter.extend, out, bit]
  have hlook : op ≠ .LOOKAROUND := by rcases hop with rfl | rfl <;> simp
  refine ⟨out, hout, ⟨rfl, rfl, ?_⟩, fun R plan queue hfits => ?_⟩
  · simp [out, lookPcs, hlook]
  · have hprog := hfits.code.head (i := ⟨op, em.classTable.length, bit negated⟩) hlook
    obtain ⟨post, hpost⟩ := hfits.table
    rw [hout, extend_here]
    exact .instr (.cls hop hprog hpost.symm) (.nil _)

theorem Emits.clear (node : ReNode) :
    Emits o ctx (fun em => .ok (em.emitClearForBody node)) (fun _ _ => clearItems node) 0 [] := by
  unfold Emitter.emitClearForBody clearItems
  cases captureSpan node with
  | none => exact .nil
  | some span => exact .instr (fun _ => _) rfl (by simp) (by simp)

end Emits

/-! ### Sequences -/

/-- Several steps, each of which carries out its node. -/
inductive EmitsAll (o : Options) (ctx : Ctx) : List Emission → List ReNode → Prop where
  | nil : EmitsAll o ctx [] []
  | cons {step : Emission} {node : ReNode} {steps : List Emission} {nodes : List ReNode} :
    Emits o ctx step (fun slot queue => [.node node ctx slot queue]) (scratchSlots node)
      (bodies ctx.mode node) →
    EmitsAll o ctx steps nodes → EmitsAll o ctx (step :: steps) (node :: nodes)

section EmitsAll

variable {o : Options} {ctx : Ctx} {steps steps' : List Emission} {nodes nodes' : List ReNode}

theorem EmitsAll.append (h : EmitsAll o ctx steps nodes) (h' : EmitsAll o ctx steps' nodes') :
    EmitsAll o ctx (steps ++ steps') (nodes ++ nodes') := by
  induction h with
  | nil => exact h'
  | cons hn _ ih => exact .cons hn ih

theorem EmitsAll.replicate {step : Emission} {node : ReNode}
    (h : Emits o ctx step (fun slot queue => [.node node ctx slot queue]) (scratchSlots node)
      (bodies ctx.mode node)) (n : Nat) :
    EmitsAll o ctx (replicate n step) (replicate n node) := by
  induction n with
  | zero => exact .nil
  | succ n ih => exact .cons h ih

/-- Steps one after the other carry out their nodes one after the other. -/
theorem EmitsAll.seq (h : EmitsAll o ctx steps nodes) :
    Emits o ctx (emitSeq steps) (seqItems ctx nodes) (scratchSlotsAll nodes)
      (bodiesAll ctx.mode nodes) := by
  induction h with
  | nil => exact .nil
  | cons hn _ ih => exact hn.seq ih

end EmitsAll

theorem emitSeq_append (xs ys : List Emission) (em : Emitter) :
    emitSeq (xs ++ ys) em = emitSeq xs em >>= emitSeq ys := by
  induction xs generalizing em with
  | nil => rfl
  | cons x xs ih =>
    simp only [cons_append, emitSeq]
    cases x em with
    | error e => rfl
    | ok em' => exact ih em'

theorem emitSeq_singleton (x : Emission) (em : Emitter) : emitSeq [x] em = x em := by
  simp only [emitSeq]
  cases x em <;> rfl

theorem scratchSlotsAll_append (xs ys : List ReNode) :
    scratchSlotsAll (xs ++ ys) = scratchSlotsAll xs + scratchSlotsAll ys := by
  induction xs with
  | nil => simp [scratchSlotsAll]
  | cons x xs ih => simp [scratchSlotsAll, ih, Nat.add_assoc]

theorem scratchSlotsAll_replicate (n : Nat) (node : ReNode) :
    scratchSlotsAll (replicate n node) = n * scratchSlots node := by
  induction n with
  | zero => simp [scratchSlotsAll]
  | succ n ih => simp [replicate_succ, scratchSlotsAll, ih, Nat.add_mul, Nat.add_comm]

theorem bodiesAll_append (mode : Mode) (xs ys : List ReNode) :
    bodiesAll mode (xs ++ ys) = bodiesAll mode xs ++ bodiesAll mode ys := by
  induction xs with
  | nil => rfl
  | cons x xs ih => simp [bodiesAll, ih]

theorem bodiesAll_replicate (mode : Mode) (n : Nat) (node : ReNode) :
    bodiesAll mode (replicate n node) = (replicate n (bodies mode node)).flatten := by
  induction n with
  | zero => rfl
  | succ n ih => simp [replicate_succ, bodiesAll, ih]

/-- A bounded repetition claims and queues what the nodes that it stands for do. -/
theorem scratchSlots_unroll (node : ReNode) (min : Nat) (max : Option Nat) (greedy : Bool) :
    scratchSlotsAll (unroll node min max greedy) =
      scratchSlots (.repeat_ node min max greedy) := by
  cases max <;>
    simp [unroll, scratchSlotsAll_append, scratchSlotsAll_replicate, scratchSlots, scratchSlotsAll]

theorem bodies_unroll (mode : Mode) (node : ReNode) (min : Nat) (max : Option Nat)
    (greedy : Bool) :
    bodiesAll mode (unroll node min max greedy) = bodies mode (.repeat_ node min max greedy) := by
  cases max <;> simp [unroll, bodiesAll_append, bodiesAll_replicate, bodies, bodiesAll]

/-! ### Quantifiers -/

theorem modify_middle (f : α → α) (xs ys : List α) (x : α) :
    (xs ++ x :: ys).modify xs.length f = xs ++ f x :: ys := by
  induction xs with
  | nil => rfl
  | cons y xs ih => simp [ih]

theorem patchA_extend (em : Emitter) (pre post : List Instr) (i : Instr) (table : List Nat)
    (subs : List PendingSub) (n a : Nat) :
    (em.extend ⟨pre ++ i :: post, table, subs, n⟩).patchA (em.here + pre.length) a =
      em.extend ⟨pre ++ { i with a := a } :: post, table, subs, n⟩ := by
  have := modify_middle (fun i : Instr => { i with a := a }) (em.instrs ++ pre) post i
  simp only [length_append, append_assoc] at this
  simp only [Emitter.patchA, Emitter.extend, Emitter.here, this]

theorem patchB_extend (em : Emitter) (pre post : List Instr) (i : Instr) (table : List Nat)
    (subs : List PendingSub) (n b : Nat) :
    (em.extend ⟨pre ++ i :: post, table, subs, n⟩).patchB (em.here + pre.length) b =
      em.extend ⟨pre ++ { i with b := b } :: post, table, subs, n⟩ := by
  have := modify_middle (fun i : Instr => { i with b := b }) (em.instrs ++ pre) post i
  simp only [length_append, append_assoc] at this
  simp only [Emitter.patchB, Emitter.extend, Emitter.here, this]

/-- The SPLIT of a quantifier. -/
def splitInstr (greedy : Bool) (body exit : Nat) : Instr :=
  ⟨.SPLIT, if greedy then body else exit, if greedy then exit else body⟩

theorem patchSplit_extend (em : Emitter) (pre post : List Instr) (table : List Nat)
    (subs : List PendingSub) (n : Nat) (greedy : Bool) (body exit : Nat) :
    (em.extend ⟨pre ++ ⟨.SPLIT, 0, 0⟩ :: post, table, subs, n⟩).patchSplit (em.here + pre.length)
        greedy body exit =
      em.extend ⟨pre ++ splitInstr greedy body exit :: post, table, subs, n⟩ := by
  cases greedy with
  | true =>
    rw [Emitter.patchSplit, if_pos rfl, patchA_extend, patchB_extend]
    rfl
  | false =>
    rw [Emitter.patchSplit, if_neg (by simp), patchA_extend, patchB_extend]
    rfl

theorem CodeAt.split {p : Nat} {code : List Instr} {greedy : Bool} {body exit : Nat}
    (h : CodeAt R p (splitInstr greedy body exit :: code)) :
    SplitAt R p greedy body exit := h.head (by simp [splitInstr])

section Quantifiers

variable {o : Options} {ctx : Ctx} {body : Emission} {node : ReNode}

theorem Emits.alloc : Emits o ctx (fun em => .ok em.allocScratch) (fun _ _ => []) 1 [] := by
  intro em em' _ _ hem
  cases hem
  refine ⟨_, allocScratch_eq em, ⟨rfl, rfl, rfl⟩, fun R plan queue _ => ?_⟩
  exact .nil _

variable (h : Emits o ctx body (fun slot queue => [.node node ctx slot queue])
  (scratchSlots node) (bodies ctx.mode node))
include h

/-- `{?}`: the body behind a SPLIT. -/
theorem Emits.opt (greedy : Bool) :
    Emits o ctx (emitOpt greedy body)
      (fun slot queue => [.node (.opt node greedy) ctx slot queue]) (scratchSlots (.opt node greedy))
      (bodies ctx.mode (.opt node greedy)) := by
  intro em em' hmode hrev hem
  simp only [emitOpt, bind_ok_iff, emit_eq] at hem
  obtain ⟨em2, hbody, hem⟩ := hem
  obtain ⟨out, rfl, hclaims, hlaid⟩ := h (em.extend (.one .SPLIT 0 0)) em2 hmode hrev hbody
  cases hem
  have hextend : ((em.extend (.one .SPLIT 0 0)).extend out).patchSplit em.here greedy
      (em.extend (.one .SPLIT 0 0)).here ((em.extend (.one .SPLIT 0 0)).extend out).here =
      em.extend ⟨splitInstr greedy (em.here + 1) (em.here + (out.code.length + 1)) :: out.code,
        out.table, out.subs, out.scratch⟩ := by
    simpa [extend_extend, Output.append, Output.one] using
      patchSplit_extend em [] out.code out.table out.subs out.scratch greedy (em.here + 1)
        (em.here + (out.code.length + 1))
  refine ⟨_, hextend, ⟨hclaims.scratch, hclaims.subs, ?_⟩, fun R plan queue hfits => ?_⟩
  · rw [hclaims.pcs]
    simp [lookPcs, splitInstr, Output.one]
  · rw [hextend]
    have hlaid := hlaid R plan queue ⟨by simpa [Output.one] using hfits.code.tail,
      by simpa [Output.one] using hfits.table, hfits.subs⟩
    simp only [extend_here, extend_slot, Output.one, length_singleton, Nat.add_zero] at hlaid
    rw [Nat.add_assoc, Nat.add_comm 1] at hlaid
    simpa using Laid.opt hfits.code.split hlaid (.nil _)

/-- The head of an iteration: CLEAR and the body. -/
theorem Emits.cleared :
    Emits o ctx (fun em => body (em.emitClearForBody node))
      (fun slot queue => clearItems node ++ [.node node ctx slot queue]) (scratchSlots node)
      (bodies ctx.mode node) := by
  have hseq := (Emits.clear node).seq h
  simp only [Nat.zero_add, nil_append, Nat.add_zero, length_nil] at hseq
  exact hseq

variable {greedy : Bool}

/-- `*` over a body that consumes: the loop without a guard. -/
theorem Emits.star_consuming (hempty : canMatchEmpty node = false) :
    Emits o ctx (emitStar node greedy body)
      (fun slot queue => [.node (.star node greedy) ctx slot queue]) (scratchSlots node)
      (bodies ctx.mode node) := by
  intro em em' hmode hrev hem
  simp only [emitStar, hempty, bind_ok_iff, Bool.false_eq_true, if_false] at hem
  obtain ⟨em2, hbody, hem⟩ := hem
  rw [emit_eq] at hbody
  obtain ⟨out, rfl, hclaims, hlaid⟩ :=
    h.cleared (em.extend (.one .SPLIT 0 0)) em2 hmode hrev hbody
  let exit := em.here + (out.code.length + 1 + 1)
  have hextend : em' = em.extend ⟨splitInstr greedy (em.here + 1) exit ::
      (out.code ++ [⟨.JMP, em.here, 0⟩]), out.table, out.subs, out.scratch⟩ := by
    have := patchSplit_extend em [] (out.code ++ [⟨.JMP, em.here, 0⟩]) out.table out.subs
      out.scratch greedy (em.here + 1) exit
    cases hem
    simpa [emit_eq, extend_extend, Output.append, Output.one, exit] using this
  subst hextend
  refine ⟨_, rfl, ⟨hclaims.scratch, hclaims.subs, ?_⟩, fun R plan queue hfits => ?_⟩
  · rw [hclaims.pcs]
    simp [lookPcs, lookPcs_append, splitInstr, Output.one]
  · obtain ⟨hcode, hjmp⟩ := codeAt_append.mp hfits.code.tail
    have hlaid := hlaid R plan queue ⟨by simpa [Output.one] using hcode,
      by simpa [Output.one] using hfits.table, hfits.subs⟩
    simp only [extend_here, extend_slot, Output.one, length_singleton, Nat.add_zero] at hlaid
    have hsplit : SplitAt R em.here greedy (em.here + 1) (em.here + 1 + out.code.length + 1) := by
      have : exit = em.here + 1 + out.code.length + 1 := by simp only [exit]; lia
      rw [← this]
      exact hfits.code.split
    have hback : BackTo R node em.slot em.here em.here := by simp [BackTo, hempty]
    have hloop : Laid R o plan [.loop node greedy ctx em.slot queue] em.here
        (em.here + 1 + out.code.length + 1) := by
      refine .loop hsplit ?_ (hjmp.head (by simp)) hback (.nil _)
      simpa [iteration, hempty] using hlaid
    have := Laid.star hloop hback
    simpa [Nat.add_assoc, Nat.add_comm 1] using this

/-- `*` over a body that may match nothing: the guarded loop. -/
theorem Emits.star_guarded (greedy : Bool) (hempty : canMatchEmpty node = true) :
    Emits o ctx (emitStar node greedy body)
      (fun slot queue => [.node (.star node greedy) ctx slot queue]) (1 + scratchSlots node)
      (bodies ctx.mode node) := by
  intro em em' hmode hrev hem
  simp only [emitStar, hempty, bind_ok_iff, if_true] at hem
  obtain ⟨em2, hbody, hem⟩ := hem
  let head : Output := ⟨[⟨.SAVE, em.slot, 0⟩, ⟨.SPLIT, 0, 0⟩], [], [], 1⟩
  have hhead : (em.allocScratch.emit .SAVE em.slot 0).emit .SPLIT 0 0 = em.extend head := by
    simp [emit_eq, allocScratch_eq, extend_extend, Output.append, Output.one, head]
  rw [hhead] at hbody hem
  obtain ⟨out, rfl, hclaims, hlaid⟩ := h.cleared (em.extend head) em2 hmode hrev hbody
  let exit := em.here + (out.code.length + 1 + 1 + 1 + 1)
  let code (split : Instr) : List Instr :=
    ⟨.SAVE, em.slot, 0⟩ :: split :: (out.code ++ [⟨.PROGRESS, em.slot, 0⟩, ⟨.JMP, em.here, 0⟩])
  have hextend : em' = em.extend
      ⟨code (splitInstr greedy (em.here + 2) exit), out.table, out.subs, 1 + out.scratch⟩ := by
    have := patchSplit_extend em [⟨.SAVE, em.slot, 0⟩]
      (out.code ++ [⟨.PROGRESS, em.slot, 0⟩, ⟨.JMP, em.here, 0⟩]) out.table out.subs
      (1 + out.scratch) greedy (em.here + 2) exit
    cases hem
    simpa [emit_eq, allocScratch_eq, extend_extend, Output.append, Output.one, head, exit, code]
      using this
  subst hextend
  refine ⟨_, rfl, ⟨by rw [hclaims.scratch], hclaims.subs, ?_⟩, fun R plan queue hfits => ?_⟩
  · rw [hclaims.pcs]
    simp [code, head, lookPcs, lookPcs_append, splitInstr, Nat.add_assoc]
  · obtain ⟨hcode, hend⟩ := codeAt_append.mp hfits.code.tail.tail
    have hlaid := hlaid R plan queue ⟨by simpa [head] using hcode,
      by simpa [head] using hfits.table, hfits.subs⟩
    simp only [extend_here, extend_slot, head, length_cons, length_nil] at hlaid
    have hsplit : SplitAt R (em.here + 1) greedy (em.here + 1 + 1)
        (em.here + 1 + 1 + out.code.length + 1 + 1) := by
      have : exit = em.here + 1 + 1 + out.code.length + 1 + 1 := by simp only [exit]; lia
      rw [← this]
      exact hfits.code.tail.split
    have hback : BackTo R node em.slot em.here (em.here + 1) := by
      simp [BackTo, hempty, hfits.code.head]
    have hprogress : Laid R o plan [.instr ⟨.PROGRESS, em.slot, 0⟩ []]
        (em.here + 1 + 1 + out.code.length) (em.here + 1 + 1 + out.code.length + 1) :=
      .instr (.plain rfl (by simp) (by simp) (hend.head (by simp))) (.nil _)
    have hloop : Laid R o plan [.loop node greedy ctx em.slot queue] (em.here + 1)
        (em.here + 1 + 1 + out.code.length + 1 + 1) := by
      refine .loop hsplit ?_ (hend.tail.head (by simp)) hback (.nil _)
      simpa [iteration, hempty] using hlaid.append hprogress
    have hend' : em.here + (code (splitInstr greedy (em.here + 2) exit)).length =
        em.here + 1 + 1 + out.code.length + 1 + 1 := by
      simp only [code, length_cons, length_append, length_nil]
      lia
    rw [extend_here, hend']
    exact Laid.star hloop hback

theorem Emits.star (greedy : Bool) :
    Emits o ctx (emitStar node greedy body)
      (fun slot queue => [.node (.star node greedy) ctx slot queue])
      (scratchSlots (.star node greedy)) (bodies ctx.mode (.star node greedy)) := by
  cases hempty : canMatchEmpty node with
  | true => simpa [scratchSlots, bodies, hempty] using h.star_guarded greedy hempty
  | false => simpa [scratchSlots, bodies, hempty] using h.star_consuming hempty

/-- `+` over a body that may match nothing: one match and a guarded star. -/
theorem Emits.plus_guarded (hempty : canMatchEmpty node = true) :
    Emits o ctx (emitPlus node greedy body)
      (fun slot queue => [.node (.plus node greedy) ctx slot queue])
      (1 + scratchSlots node + (1 + scratchSlots node))
      (bodies ctx.mode node ++ bodies ctx.mode node) := by
  have hseq := (Emits.alloc.seq h.cleared).seq (h.star_guarded greedy hempty)
  have hstep : emitPlus node greedy body = fun em =>
      body (em.allocScratch.emitClearForBody node) >>= emitStar node greedy body := by
    funext em
    rw [emitPlus, if_pos hempty]
  rw [hstep, ← Nat.add_assoc]
  refine @Emits.fold _ _ _ (fun slot queue => clearItems node ++
    [.node node ctx (slot + 1) queue, .node (.star node greedy) ctx (slot + 1 + scratchSlots node)
      (queue + (bodies ctx.mode node).length)]) _ _ _ ?_ fun slot queue => ?_
  · simp only [nil_append, length_nil, Nat.add_zero, append_assoc,
      cons_append, ← Nat.add_assoc] at hseq
    exact hseq
  · simp [Item.unfold, unfoldNode, hempty]

/-- `+` over a body that consumes: the body and a SPLIT back to it. -/
theorem Emits.plus_consuming (hempty : canMatchEmpty node = false) :
    Emits o ctx (emitPlus node greedy body)
      (fun slot queue => [.node (.plus node greedy) ctx slot queue]) (scratchSlots node)
      (bodies ctx.mode node) := by
  refine @Emits.fold _ _ _ (fun slot queue => clearItems node ++
    [.node node ctx slot queue, .again node greedy ctx slot queue]) _ _ _ ?_ fun slot queue => ?_
  · intro em em' hmode hrev hem
    simp only [emitPlus, hempty, bind_ok_iff, Bool.false_eq_true, if_false] at hem
    obtain ⟨em1, hbody, hem⟩ := hem
    obtain ⟨out, rfl, hclaims, hlaid⟩ := h.cleared em em1 hmode hrev hbody
    let exit := em.here + (out.code.length + 1)
    have hextend : em' = em.extend ⟨out.code ++ [splitInstr greedy em.here exit], out.table,
        out.subs, out.scratch⟩ := by
      have := patchSplit_extend em out.code [] out.table out.subs out.scratch greedy em.here exit
      cases hem
      simpa [emit_eq, extend_extend, Output.append, Output.one, exit] using this
    subst hextend
    refine ⟨_, rfl, ⟨hclaims.scratch, hclaims.subs, ?_⟩, fun R plan queue hfits => ?_⟩
    · rw [hclaims.pcs]
      simp [lookPcs, lookPcs_append, splitInstr]
    · obtain ⟨hcode, hend⟩ := codeAt_append.mp hfits.code
      have hlaid := hlaid R plan queue ⟨hcode, hfits.table, hfits.subs⟩
      rw [extend_here] at hlaid
      have hsplit : SplitAt R (em.here + out.code.length) greedy em.here
          (em.here + out.code.length + 1) := hend.split
      have hagain : Laid R o plan [.again node greedy ctx em.slot queue]
          (em.here + out.code.length) (em.here + out.code.length + 1) :=
        .again hlaid hsplit (.nil _)
      simpa [Nat.add_assoc] using hlaid.append hagain
  · simp [Item.unfold, unfoldNode, hempty]

theorem Emits.plus :
    Emits o ctx (emitPlus node greedy body)
      (fun slot queue => [.node (.plus node greedy) ctx slot queue])
      (scratchSlots (.plus node greedy)) (bodies ctx.mode (.plus node greedy)) := by
  cases hempty : canMatchEmpty node with
  | true => simpa [scratchSlots, bodies, hempty] using h.plus_guarded hempty
  | false => simpa [scratchSlots, bodies, hempty] using h.plus_consuming hempty

/-- `{min,max}`: the nodes that it stands for. -/
theorem Emits.repeat {min : Nat} {max : Option Nat} :
    Emits o ctx (compileRepeat node min max greedy body)
      (fun slot queue => [.node (.repeat_ node min max greedy) ctx slot queue])
      (scratchSlots (.repeat_ node min max greedy))
      (bodies ctx.mode (.repeat_ node min max greedy)) := by
  rw [← scratchSlots_unroll, ← bodies_unroll]
  refine @Emits.fold _ _ _ (seqItems ctx (unroll node min max greedy)) _ _ _ ?_ fun _ _ => rfl
  cases max with
  | none =>
    have hall := (EmitsAll.replicate h min).append (.cons (h.star greedy) .nil)
    have hstep : compileRepeat node min none greedy body =
        emitSeq (replicate min body ++ [emitStar node greedy body]) := by
      funext em
      rw [emitSeq_append]
      simp only [compileRepeat]
      congr 1
      funext em'
      exact (emitSeq_singleton _ _).symm
    rw [hstep]
    exact hall.seq
  | some max =>
    have hall := (EmitsAll.replicate h min).append
      (EmitsAll.replicate (h.opt greedy) (max - min))
    intro em em' hmode hrev hem
    simp only [compileRepeat] at hem
    split at hem
    · cases hem
    · apply hall.seq em em' hmode hrev
      rwa [emitSeq_append]

end Quantifiers

/-! ### Branches -/

/-- The target of a JMP. -/
def setTarget (exit : Nat) (i : Instr) : Instr := { i with a := exit }

theorem foldl_patchA (ends : List Nat) (exit : Nat) (em : Emitter) :
    ends.foldl (fun em j => em.patchA j exit) em =
      { em with instrs := ends.foldl (fun code j => code.modify j (setTarget exit)) em.instrs } := by
  induction ends generalizing em with
  | nil => rfl
  | cons j ends ih =>
    rw [foldl_cons, ih]
    rfl

/-- What the loop over the branches appends: `out exit` with the open jumps `ends` patched to
`exit`. -/
structure Branches (o : Options) (ctx : Ctx) (nodes : List ReNode) (em : Emitter)
    (ends : List Nat) (out : Nat → Output) : Prop where
  length : ∀ exit, (out exit).code.length = (out 0).code.length
  patch : ∀ (base : List Instr) exit, base.length = em.here →
    ends.foldl (fun code j => code.modify j (setTarget exit)) (base ++ (out 0).code) =
      base ++ (out exit).code
  same : ∀ exit, out exit = { out 0 with code := (out exit).code }
  claims : ∀ exit, (out exit).Claims em.here (scratchSlotsAll nodes) (bodiesAll ctx.mode nodes)
  laid : ∀ R plan queue exit, exit = em.here + (out 0).code.length →
    Fits R o plan ctx.trie em queue (out exit) →
    Laid R o plan [.branches nodes ctx em.slot queue] em.here exit

/-- A branch in front of others: a SPLIT, its code, and a JMP to the exit. -/
def Output.branch (first : Output) (pc exit : Nat) : Output where
  code := ⟨.SPLIT, pc + 1, pc + 1 + first.code.length + 1⟩ :: (first.code ++ [⟨.JMP, exit, 0⟩])
  table := first.table
  subs := first.subs
  scratch := first.scratch

section Branches

variable {o : Options} {ctx : Ctx} {steps : List Emission} {nodes : List ReNode} {em : Emitter}

@[simp] theorem branch_length (first : Output) (pc exit : Nat) :
    (first.branch pc exit).code.length = first.code.length + 1 + 1 := by
  simp [Output.branch]

variable {trie : Bool} {queue : Nat} {em' : Emitter} {R : CompiledRegex} {plan : Plan}
    {first : Output}

theorem branch_claims {pc slots : Nat} {queued : List Body} (h : first.Claims (pc + 1) slots queued)
    (exit : Nat) : (first.branch pc exit).Claims pc slots queued :=
  ⟨h.scratch, h.subs, by simp [Output.branch, h.pcs, lookPcs, lookPcs_append]⟩

theorem Fits.of_branch {exit : Nat} (h : Fits R o plan trie em queue (first.branch em.here exit)) :
    Fits R o plan trie (em.extend (.one .SPLIT 0 0)) queue first where
  code := by
    rw [extend_here]
    exact (codeAt_append.mp h.code.tail).1
  table := by simpa [Output.one, Output.branch] using h.table
  subs := h.subs

theorem Fits.congr {out : Output} (h : Fits R o plan trie em queue out) (hhere : em'.here = em.here)
    (htable : em'.classTable = em.classTable) :
    Fits R o plan trie em' queue out :=
  ⟨hhere ▸ h.code, htable ▸ h.table, h.subs⟩

/-- One more branch in front. -/
theorem Branches.cons {node other : ReNode} {ends : List Nat} {first : Output}
    {out : Nat → Output}
    (hfirst : first.Claims (em.here + 1) (scratchSlots node) (bodies ctx.mode node))
    (hlaid : ∀ R plan queue, Fits R o plan ctx.trie (em.extend (.one .SPLIT 0 0)) queue first →
      Laid R o plan [.node node ctx em.slot queue] (em.here + 1) (em.here + 1 + first.code.length))
    (hrest : Branches o ctx (other :: nodes) (em.extend (first.branch em.here 0)) ends out) :
    Branches o ctx (node :: other :: nodes) em ((em.here + 1 + first.code.length) :: ends)
      (fun exit => (first.branch em.here exit).append (out exit)) where
  length exit := by
    have := hrest.length exit
    simp [Output.append, this]
  patch base exit hbase := by
    let split : Instr := ⟨.SPLIT, em.here + 1, em.here + 1 + first.code.length + 1⟩
    have hpre : (base ++ split :: first.code).length = em.here + 1 + first.code.length := by
      simp only [length_append, length_cons, hbase]
      lia
    have hmod := modify_middle (setTarget exit) (base ++ split :: first.code) (out 0).code
      ⟨.JMP, 0, 0⟩
    have hpatch := hrest.patch (base ++ split :: (first.code ++ [⟨.JMP, exit, 0⟩])) exit <| by
      simp [hbase]
    rw [hpre] at hmod
    simp only [append_assoc, cons_append, nil_append, setTarget] at hmod hpatch
    simp only [Output.append, Output.branch, foldl_cons, append_assoc, cons_append,
      nil_append]
    rw [hmod]
    exact hpatch
  same exit := by
    have := hrest.same exit
    simp only [Output.append]
    rw [this]
    rfl
  claims exit := by
    refine (branch_claims hfirst exit).append ?_
    simpa using hrest.claims exit
  laid R plan queue exit hexit hfits := by
    have hleft := hfits.left
    have hright := hfits.right
    obtain ⟨-, hjmp⟩ := codeAt_append.mp hleft.code.tail
    have hexit' : exit = (em.extend (first.branch em.here 0)).here + (out 0).code.length := by
      simpa [Output.append, Nat.add_assoc] using hexit
    have hothers := hrest.laid R plan (queue + first.subs.length) exit hexit' <|
      hright.congr (by simp) (by simp [Output.branch])
    rw [extend_slot, extend_here, branch_length] at hothers
    have hsplit : R.prog[em.here]? =
        some ⟨.SPLIT, em.here + 1, em.here + 1 + first.code.length + 1⟩ :=
      hleft.code.head (by simp)
    refine .branches hsplit (hlaid R plan queue hleft.of_branch) (hjmp.head (by simp)) ?_ (.nil _)
    rw [hfirst.length] at hothers
    simpa [Output.branch, hfirst.scratch, Nat.add_assoc, Nat.add_comm 1] using hothers

theorem emitBranchesFrom_spec (h : EmitsAll o ctx steps nodes) {jmpEnds ends' : List Nat}
    (hmode : em.mode = ctx.mode) (hrev : em.reversed = ctx.reversed)
    (hem : emitBranchesFrom steps jmpEnds em = .ok (em', ends')) :
    ∃ ends out, ends' = jmpEnds ++ ends ∧ em' = em.extend (out 0) ∧
      Branches o ctx nodes em ends out := by
  induction h generalizing jmpEnds ends' em em' with
  | nil =>
    cases hem
    refine ⟨[], fun _ => ⟨[], [], [], 0⟩, by simp, (extend_empty em).symm, ?_⟩
    refine ⟨fun _ => rfl, fun _ _ _ => rfl, fun _ => rfl, fun _ => ⟨rfl, rfl, rfl⟩, ?_⟩
    intro R plan queue exit hexit _
    subst hexit
    exact .fold rfl (.nil _)
  | @cons step node steps nodes hn hrest ih =>
    cases hrest with
    | nil =>
      simp only [emitBranchesFrom, bind_ok_iff] at hem
      obtain ⟨em1, hstep, hem⟩ := hem
      cases hem
      obtain ⟨out, rfl, hclaims, hlaid⟩ := hn em _ hmode hrev hstep
      refine ⟨[], fun _ => out, by simp, rfl, ⟨fun _ => rfl, fun _ _ _ => rfl, fun _ => rfl,
        fun _ => ?_, ?_⟩⟩
      · simpa [scratchSlotsAll, bodiesAll] using hclaims
      · intro R plan queue exit hexit hfits
        have := hlaid R plan queue hfits
        rw [extend_here, ← hexit] at this
        exact .fold rfl this
    | @cons step2 other steps nodes hn2 hrest =>
      simp only [emitBranchesFrom, bind_ok_iff] at hem
      obtain ⟨em1, hstep, hem⟩ := hem
      have hsplit : (em.emit .SPLIT 0 0).patchA em.here (em.emit .SPLIT 0 0).here =
          em.extend (.one .SPLIT (em.here + 1) 0) := by
        simpa [emit_eq, Output.one] using patchA_extend em [] [] ⟨.SPLIT, 0, 0⟩ [] [] 0 (em.here + 1)
      rw [hsplit] at hstep
      obtain ⟨first, rfl, hclaims, hlaid⟩ := hn (em.extend (.one .SPLIT (em.here + 1) 0)) em1
        hmode hrev hstep
      have hhead : (((em.extend (.one .SPLIT (em.here + 1) 0)).extend first).emit .JMP 0 0).patchB
          em.here ((((em.extend (.one .SPLIT (em.here + 1) 0)).extend first).emit .JMP 0 0).here) =
          em.extend (first.branch em.here 0) := by
        have := patchB_extend em [] (first.code ++ [⟨.JMP, 0, 0⟩]) ⟨.SPLIT, em.here + 1, 0⟩
          first.table first.subs first.scratch (em.here + 1 + first.code.length + 1)
        have hpc : em.here + (first.code.length + 1 + 1) = em.here + 1 + first.code.length + 1 := by
          lia
        simpa [emit_eq, extend_extend, Output.append, Output.one, Output.branch, hpc] using this
      rw [hhead] at hem
      obtain ⟨ends, out, rfl, rfl, hrest⟩ := ih (by simpa using hmode) (by simpa using hrev) hem
      have hclaims' : first.Claims (em.here + 1) (scratchSlots node) (bodies ctx.mode node) := by
        simpa [Output.one] using hclaims
      refine ⟨_, _, ?_, ?_, Branches.cons hclaims' ?_ hrest⟩
      · simp [Output.one]
      · rw [extend_extend]
      · intro R plan queue hfits
        have := hlaid R plan queue (hfits.congr (by simp [Output.one]) (by simp [Output.one]))
        simpa [Output.one] using this

/-- The branches of an alternation. -/
theorem EmitsAll.branches (h : EmitsAll o ctx steps nodes) :
    Emits o ctx (emitBranches steps) (fun slot queue => [.branches nodes ctx slot queue])
      (scratchSlotsAll nodes) (bodiesAll ctx.mode nodes) := by
  intro em em' hmode hrev hem
  obtain ⟨⟨em1, ends⟩, hfrom, hem⟩ := bind_ok_iff.mp hem
  obtain ⟨ends, out, rfl, rfl, hbranches⟩ := emitBranchesFrom_spec h hmode hrev hfrom
  let exit := em.here + (out 0).code.length
  have hextend : em' = em.extend (out exit) := by
    have hpatch := hbranches.patch em.instrs exit rfl
    have hsame := hbranches.same exit
    cases hem
    simp only [foldl_patchA, extend_here]
    rw [hsame]
    simp only [Emitter.extend, hpatch, exit]
  subst hextend
  refine ⟨_, rfl, hbranches.claims exit, fun R plan queue hfits => ?_⟩
  rw [extend_here, hbranches.length]
  exact hbranches.laid R plan queue exit rfl hfits

end Branches

end Js2Wasm.Regex
