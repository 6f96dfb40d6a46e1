import Js2Wasm.Regex.EmitterSound
import Mathlib.Algebra.GroupWithZero.Nat

/-! # Compiled programs

Draining the queue serves every lookaround body (`drain_served`), so a compiled program
carries out its pattern from the first instruction on (`compileParsed_carries`).  The
matcher's plan, the slots it claims and its items do not depend on how alternations of
literals are emitted.
-/
namespace Js2Wasm.Regex
open List

/-! ### How many bodies there are -/

@[simp] theorem subCount_reverseNode (n : ReNode) : subCount (reverseNode n) = subCount n := by
  have append : ∀ xs ys : List ReNode,
      subCountAll (xs ++ ys) = subCountAll xs + subCountAll ys := by
    intro xs ys
    induction xs with
    | nil => simp [subCountAll]
    | cons x xs ih => simp [subCountAll, ih, Nat.add_assoc]
  have reverse : ∀ xs : List ReNode, subCountAll xs.reverse = subCountAll xs := by
    intro xs
    induction xs with
    | nil => rfl
    | cons x xs ih => simp [subCountAll, append, ih, Nat.add_comm]
  have map : ∀ xs : List ReNode, (∀ x ∈ xs, subCount (reverseNode x) = subCount x) →
      subCountAll (xs.map reverseNode) = subCountAll xs := by
    intro xs h
    induction xs with
    | nil => rfl
    | cons x xs ih =>
      simp [subCountAll, h x mem_cons_self, ih fun y hy => h y (mem_cons_of_mem x hy)]
  induction n with
  | concat parts ih => simp [reverseNode, reverseNodes_eq_map, subCount, reverse, map parts ih]
  | alt options ih => simp [reverseNode, reverseNodes_eq_map, subCount, map options ih]
  | repeat_ node min max greedy ih => cases max <;> simp [reverseNode, subCount, ih]
  | lookaround _ _ _ ih | modGroup _ _ _ ih | star _ _ ih | plus _ _ ih | opt _ _ ih
  | group _ _ ih => simp [reverseNode, subCount, ih]
  | _ => rfl

/-- The bodies in a queue, those of their own lookarounds included. -/
def pendingCount (queue : List Body) : Nat := (queue.map fun body => 1 + subCount body.node).sum

theorem pendingCount_append (xs ys : List Body) :
    pendingCount (xs ++ ys) = pendingCount xs + pendingCount ys := by
  simp [pendingCount]

theorem pendingCount_replicate (n : Nat) (xs : List Body) :
    pendingCount (replicate n xs).flatten = n * pendingCount xs := by
  induction n with
  | zero => simp [pendingCount]
  | succ n ih =>
    rw [replicate_succ, flatten_cons, pendingCount_append, ih, Nat.succ_mul, Nat.add_comm]

/-- A node queues as many bodies as `subCount` says. -/
theorem pendingCount_bodies (mode : Mode) (n : ReNode) :
    pendingCount (bodies mode n) = subCount n := by
  have all : ∀ (mode : Mode) (ns : List ReNode),
      (∀ m ∈ ns, ∀ mode, pendingCount (bodies mode m) = subCount m) →
      pendingCount (bodiesAll mode ns) = subCountAll ns := by
    intro mode ns h
    induction ns with
    | nil => rfl
    | cons m ns ih =>
      rw [bodiesAll, subCountAll, pendingCount_append, h m mem_cons_self,
        ih fun m' hm' => h m' (mem_cons_of_mem m hm')]
  induction n generalizing mode with
  | lookaround node negated behind ih =>
    cases behind <;> simp [bodies, pendingCount, subCount, orient, Nat.add_comm]
  | concat parts ih =>
    rw [bodies, subCount]
    exact all mode parts fun m hm mode => ih m hm mode
  | alt options ih =>
    rw [bodies, subCount]
    exact all mode options fun m hm mode => ih m hm mode
  | plus node greedy ih =>
    cases h : canMatchEmpty node <;> simp [bodies, subCount, h, pendingCount_append, ih, Nat.two_mul]
  | repeat_ node min max greedy ih =>
    cases max with
    | none => simp [bodies, subCount, pendingCount_append, pendingCount_replicate, ih, Nat.add_mul]
    | some max =>
      simp [bodies, subCount, pendingCount_append, pendingCount_replicate, ih, Nat.add_mul]
  | star node greedy ih | opt node greedy ih | group node capIndex ih => exact ih mode
  | modGroup add remove node ih => exact ih _
  | _ => rfl

/-! ### Lookarounds in code -/

variable {o : Options} {p subs position : Nat} {em : Emitter} {done : List Nat} {code : List Instr}

theorem mem_lookPcs {pc : Nat} :
    pc ∈ lookPcs p code ↔ p ≤ pc ∧ ∃ i, code[pc - p]? = some i ∧ i.op = .LOOKAROUND := by
  induction code generalizing p with
  | nil => simp [lookPcs]
  | cons i code ih =>
    rw [lookPcs, mem_append, ih]
    constructor
    · rintro (h | ⟨hle, h⟩)
      · split at h
        · rename_i hop
          rw [mem_singleton.mp h, Nat.sub_self]
          exact ⟨le_rfl, i, rfl, hop⟩
        · cases h
      · obtain ⟨k, rfl⟩ := Nat.exists_eq_add_of_le hle
        refine ⟨by lia, ?_⟩
        rwa [show p + 1 + k - p = (p + 1 + k - (p + 1)) + 1 by lia, getElem?_cons_succ]
    · rintro ⟨hle, i', hi', hop⟩
      obtain ⟨k, rfl⟩ := Nat.exists_eq_add_of_le hle
      rw [Nat.add_sub_cancel_left] at hi'
      cases k with
      | zero =>
        cases hi'
        exact .inl (by simp [hop])
      | succ k =>
        refine .inr ⟨by lia, i', ?_, hop⟩
        rwa [show p + (k + 1) - (p + 1) = k by lia]

theorem lookPcs_pairwise (p : Nat) (code : List Instr) : (lookPcs p code).Pairwise (· < ·) := by
  induction code generalizing p with
  | nil => exact .nil
  | cons i code ih =>
    rw [lookPcs]
    split
    · exact .cons (fun pc hpc => (mem_lookPcs.mp hpc).1) (ih (p + 1))
    · exact ih (p + 1)

theorem lookPcs_nodup (p : Nat) (code : List Instr) : (lookPcs p code).Nodup :=
  (lookPcs_pairwise p code).imp fun h => h.ne

/-- Patching does not turn an instruction into another one. -/
theorem lookPcs_modify (p pc a : Nat) (code : List Instr) :
    lookPcs p (code.modify pc fun i => { i with a := a }) = lookPcs p code := by
  induction code generalizing p pc with
  | nil => simp [lookPcs]
  | cons i code ih => cases pc <;> simp [lookPcs, ih]

/-! ### Draining the queue -/

/-- Later steps keep the code: operations and second operands everywhere, first operands
except where a lookaround still waits for its body. -/
def Keeps (waiting : List Nat) (code code' : List Instr) : Prop :=
  ∀ pc i, code[pc]? = some i → ∃ j, code'[pc]? = some j ∧ j.op = i.op ∧ j.b = i.b ∧
    (pc ∉ waiting → j.a = i.a)

theorem Keeps.refl (waiting : List Nat) (code : List Instr) : Keeps waiting code code :=
  fun _ i hi => ⟨i, hi, rfl, rfl, fun _ => rfl⟩

theorem Keeps.trans {w w1 w2 : List Nat} {code code' code'' : List Instr}
    (h : Keeps w1 code code') (h' : Keeps w2 code' code'') (hw1 : ∀ pc ∈ w1, pc ∈ w)
    (hw2 : ∀ pc ∈ w2, pc < code.length → pc ∈ w) : Keeps w code code'' := by
  intro pc i hi
  obtain ⟨j, hj, hop, hb, ha⟩ := h pc i hi
  obtain ⟨j', hj', hop', hb', ha'⟩ := h' pc j hj
  refine ⟨j', hj', hop'.trans hop, hb'.trans hb, fun hpc => ?_⟩
  obtain ⟨hlt, -⟩ := List.getElem?_eq_some_iff.mp hi
  exact (ha' fun hpc' => hpc (hw2 pc hpc' hlt)).trans (ha fun hpc' => hpc (hw1 pc hpc'))

/-- Patching one lookaround and appending keeps the code. -/
theorem Keeps.patch (code new : List Instr) (pc a : Nat) :
    Keeps [pc] code (code.modify pc (fun i => { i with a := a }) ++ new) := by
  intro pc' i hi
  obtain ⟨hlt, -⟩ := List.getElem?_eq_some_iff.mp hi
  rw [List.getElem?_append_left (by rwa [List.length_modify]), List.getElem?_modify, hi]
  by_cases hpc : pc = pc'
  · exact ⟨{ i with a := a }, by simp [hpc], rfl, rfl, fun h => absurd hpc.symm (by simpa using h)⟩
  · exact ⟨i, by simp [hpc], rfl, rfl, fun _ => rfl⟩

variable {R : CompiledRegex}

/-- The code that stands where no lookaround waits, or waits for its body, is in the finished
program as it was emitted. -/
theorem Keeps.codeAt {w : List Nat} {part : List Instr} (h : Keeps w code R.prog)
    (hw : ∀ pc ∈ w, ∀ i, code[pc]? = some i → i.op = .LOOKAROUND)
    (hpart : ∀ k i, part[k]? = some i → code[p + k]? = some i) : CodeAt R p part := by
  intro k i hi
  obtain ⟨j, hj, hop, hb, ha⟩ := h (p + k) i (hpart k i hi)
  exact ⟨j, hj, hop, hb, fun hlook => ha fun hpc => hlook (hw _ hpc i (hpart k i hi))⟩

/-- The lookarounds that wait for the queue, and the queue. -/
def Emitter.waiting (em : Emitter) : List Nat := em.pendingSubs.map PendingSub.patchPc

def Emitter.queue (em : Emitter) : List Body := em.pendingSubs.map PendingSub.body

/-- What draining the queue has done: `done` are the lookarounds served before, and the queue
starts at `position`. -/
structure Drained (o : Options) (plan : Plan) (subs position : Nat) (done : List Nat)
    (em em' : Emitter) : Prop where
  keeps : Keeps em.waiting em.instrs em'.instrs
  table : em.classTable <+: em'.classTable
  scratch : em'.scratchCount = em.scratchCount + planSlots subs em.queue
  served : ∀ R : CompiledRegex, R.prog = em'.instrs → R.classTable = em'.classTable →
    ∀ k sub, em.pendingSubs[k]? = some sub → Serves R o plan o.literalTrie sub (position + k)
  all : ∀ R : CompiledRegex, R.prog = em'.instrs → R.classTable = em'.classTable →
    ∀ pc ∈ lookPcs 0 em'.instrs, pc ∈ done ∨
      ∃ sub position, sub.patchPc = pc ∧ Serves R o plan o.literalTrie sub position

theorem drained_nil {plan : Plan} (hpending : em.pendingSubs = [])
    (hpcs : lookPcs 0 em.instrs = done ++ em.waiting) :
    Drained o plan subs position done em em where
  keeps := .refl _ _
  table := prefix_refl _
  scratch := by cases subs <;> simp [Emitter.queue, hpending, planSlots]
  served R _ _ k sub hk := by simp [hpending] at hk
  all R _ _ pc hpc := by
    rw [hpcs, Emitter.waiting, hpending] at hpc
    exact .inl (by simpa using hpc)

/-- The emitter when it starts on the body at the head of its queue. -/
def Emitter.serving (em : Emitter) (sub : PendingSub) (rest : List PendingSub) : Emitter :=
  { { em with pendingSubs := rest }.patchA sub.patchPc em.here with
    mode := sub.mode
    reversed := sub.reversed }

theorem serving_length (em : Emitter) (sub : PendingSub) (rest : List PendingSub) :
    (em.serving sub rest).instrs.length = em.here := by
  simp [Emitter.serving, Emitter.patchA, Emitter.here]

@[simp] theorem serving_pendingSubs (em : Emitter) (sub : PendingSub) (rest : List PendingSub) :
    (em.serving sub rest).pendingSubs = rest := rfl

theorem lookPcs_serving {sub : PendingSub} {rest : List PendingSub}
    (hpending : em.pendingSubs = sub :: rest) (hpcs : lookPcs 0 em.instrs = done ++ em.waiting) :
    lookPcs 0 ((em.serving sub rest).instrs ++ code) =
      done ++ sub.patchPc :: (rest.map PendingSub.patchPc ++ lookPcs em.here code) := by
  rw [lookPcs_append, serving_length, Nat.zero_add]
  simp [Emitter.serving, Emitter.patchA, lookPcs_modify, hpcs, Emitter.waiting, hpending]

/-- One body is served, and then the rest of the queue. -/
theorem Drained.cons {o : Options} {plan : Plan} {subs position : Nat} {done : List Nat}
    {em em4 em' : Emitter} {sub : PendingSub} {rest : List PendingSub} {out : Output}
    (hpending : em.pendingSubs = sub :: rest)
    (hpcs : lookPcs 0 em.instrs = done ++ em.waiting)
    (hclaims : out.Claims em.here (scratchSlots sub.node) (bodies sub.mode sub.node))
    (hlaid : ∀ R plan queue, Fits R o plan o.literalTrie (em.serving sub rest) queue out →
      Laid R o plan [.ofBody o.literalTrie sub.body em.slot queue] em.here
        (em.here + out.code.length))
    (hplan : plan[position]? = some (em.slot, position + em.pendingSubs.length))
    (hinstrs : em4.instrs = (em.serving sub rest).instrs ++ (out.code ++ [⟨.MATCH, 0, 0⟩]))
    (htable : em4.classTable = em.classTable ++ out.table)
    (hpending4 : em4.pendingSubs = rest ++ out.subs)
    (hscratch : em4.scratchCount = em.scratchCount + out.scratch)
    (h : Drained o plan subs (position + 1) (done ++ [sub.patchPc]) em4 em') :
    Drained o plan (subs + 1) position done em em' := by
  have hwaiting : em.waiting = sub.patchPc :: rest.map PendingSub.patchPc := by
    simp [Emitter.waiting, hpending]
  have hwaiting4 : em4.waiting = rest.map PendingSub.patchPc ++ lookPcs em.here out.code := by
    simp [Emitter.waiting, hpending4, hclaims.pcs]
  have hpcs4 : lookPcs 0 em4.instrs =
      done ++ sub.patchPc :: (rest.map PendingSub.patchPc ++ lookPcs em.here out.code) := by
    rw [hinstrs, lookPcs_serving hpending hpcs]
    simp [lookPcs_append, lookPcs]
  have hlook4 : ∀ pc ∈ em4.waiting, ∀ i, em4.instrs[pc]? = some i → i.op = .LOOKAROUND := by
    intro pc hpc i hi
    have hmem : pc ∈ lookPcs 0 em4.instrs := by
      rw [hpcs4]
      rw [hwaiting4] at hpc
      exact mem_append_right _ (mem_cons_of_mem _ hpc)
    obtain ⟨-, j, hj, hop⟩ := mem_lookPcs.mp hmem
    rw [Nat.sub_zero, hi] at hj
    cases hj
    exact hop
  have hserving : (em.serving sub rest).instrs =
      em.instrs.modify sub.patchPc fun i => { i with a := em.here } := rfl
  have hhere : (em.serving sub rest).here = em.here := by
    simp [Emitter.here, hserving]
  have hkeeps : Keeps em.waiting em.instrs em'.instrs := by
    apply @Keeps.trans _ _ em4.waiting _ _ _
      (Keeps.patch em.instrs (out.code ++ [⟨.MATCH, 0, 0⟩]) sub.patchPc em.here)
    · rw [← hserving, ← hinstrs]
      exact h.keeps
    · intro pc hpc
      rw [mem_singleton.mp hpc, hwaiting]
      exact mem_cons_self
    · intro pc hpc hlt
      rw [hwaiting]
      rw [hwaiting4] at hpc
      rcases mem_append.mp hpc with hpc | hpc
      · exact mem_cons_of_mem _ hpc
      · exact absurd (mem_lookPcs.mp hpc).1 (Nat.not_le.mpr hlt)
  -- the entry patched in now is not patched again
  have hentry : (em'.instrs[sub.patchPc]?).map Instr.a = some em.here := by
    have hmem : sub.patchPc ∈ lookPcs 0 em.instrs := by
      rw [hpcs, hwaiting]
      exact mem_append_right _ mem_cons_self
    obtain ⟨-, i, hi, -⟩ := mem_lookPcs.mp hmem
    rw [Nat.sub_zero] at hi
    have hi4 : em4.instrs[sub.patchPc]? = some { i with a := em.here } := by
      obtain ⟨hlt, -⟩ := List.getElem?_eq_some_iff.mp hi
      rw [hinstrs, List.getElem?_append_left (by rwa [hserving, List.length_modify]), hserving,
        getElem?_modify, hi]
      simp
    obtain ⟨j, hj, -, -, ha⟩ := h.keeps _ _ hi4
    rw [hj, Option.map_some, ha]
    have hnodup := lookPcs_nodup 0 em4.instrs
    rw [hpcs4, nodup_append] at hnodup
    rw [hwaiting4]
    exact (nodup_cons.mp hnodup.2.1).1
  have hserved : ∀ R : CompiledRegex, R.prog = em'.instrs → R.classTable = em'.classTable →
      Serves R o plan o.literalTrie sub position := by
    intro R hprog htab
    have hcode : ∀ k i, (out.code ++ [⟨.MATCH, 0, 0⟩])[k]? = some i →
        em4.instrs[em.here + k]? = some i := by
      intro k i hi
      rw [hinstrs, getElem?_append_right (by rw [← hhere]; exact Nat.le_add_right _ _)]
      rw [← hi, ← hhere]
      congr 1
      exact Nat.add_sub_cancel_left _ _
    have hat : CodeAt R em.here (out.code ++ [⟨.MATCH, 0, 0⟩]) :=
      Keeps.codeAt (hprog ▸ h.keeps) hlook4 hcode
    obtain ⟨hat, hmatch⟩ := codeAt_append.mp hat
    refine ⟨em.here, em.here + out.code.length, em.slot, _, hplan, by rw [hprog, hentry],
      hlaid R plan _ ⟨by rwa [hhere], ?_, fun k sub' hk => ?_⟩, hmatch.head (by simp)⟩
    · obtain ⟨post, hpost⟩ := h.table
      refine ⟨post, ?_⟩
      rw [htab, ← hpost, htable, append_assoc]
      exact (drop_left).symm
    · have := h.served R hprog htab (rest.length + k) sub' <| by
        rw [hpending4, getElem?_append_right (Nat.le_add_right _ _), Nat.add_sub_cancel_left]
        exact hk
      rw [hpending, length_cons]
      rwa [show position + (rest.length + 1) + k = position + 1 + (rest.length + k) by lia]
  refine ⟨hkeeps, (prefix_append _ _).trans (htable ▸ h.table), ?_, ?_, ?_⟩
  · have hqueue : em.queue = sub.body :: rest.map PendingSub.body := by
      simp [Emitter.queue, hpending]
    have hqueue4 : em4.queue = rest.map PendingSub.body ++ bodies sub.mode sub.node := by
      simp [Emitter.queue, hpending4, hclaims.subs]
    rw [h.scratch, hscratch, hclaims.scratch, hqueue, hqueue4, Nat.add_assoc]
    rfl
  · intro R hprog htab k sub' hk
    rw [hpending] at hk
    cases k with
    | zero =>
      cases hk
      exact hserved R hprog htab
    | succ k =>
      have hk' : rest[k]? = some sub' := hk
      obtain ⟨hlt, -⟩ := List.getElem?_eq_some_iff.mp hk'
      have := h.served R hprog htab k sub' (by rw [hpending4, List.getElem?_append_left hlt, hk'])
      rwa [Nat.add_assoc, Nat.add_comm 1] at this
  · intro R hprog htab pc hpc
    rcases h.all R hprog htab pc hpc with hdone | hsub
    · rcases mem_append.mp hdone with hdone | hdone
      · exact .inl hdone
      · exact .inr ⟨sub, position, (mem_singleton.mp hdone).symm, hserved R hprog htab⟩
    · exact .inr hsub

/-- **Draining the queue serves every body.** -/
theorem drain_served {plan : Plan} {em' : Emitter} (hem : drainPendingSubs o subs em = .ok em')
    (hsubs : pendingCount em.queue ≤ subs) (hpcs : lookPcs 0 em.instrs = done ++ em.waiting)
    (hplan : plan.drop position =
      planBodies subs em.queue em.slot (position + em.pendingSubs.length)) :
    Drained o plan subs position done em em' := by
  induction subs generalizing position done em with
  | zero =>
    have hpending : em.pendingSubs = [] := by
      cases h : em.pendingSubs with
      | nil => rfl
      | cons sub rest =>
        simp [pendingCount, Emitter.queue, h] at hsubs
    cases hem
    exact drained_nil hpending hpcs
  | succ subs ih =>
    cases hpending : em.pendingSubs with
    | nil =>
      rw [drainPendingSubs, hpending] at hem
      cases hem
      exact drained_nil hpending hpcs
    | cons sub rest =>
      rw [drainPendingSubs, hpending] at hem
      simp only [bind_ok_iff] at hem
      obtain ⟨em2, hcompile, hem⟩ := hem
      obtain ⟨out, rfl, hclaims, hlaid⟩ := @compileNode_emits o
        ⟨sub.mode, sub.reversed, o.literalTrie⟩ sub.node rfl (em.serving sub rest) em2
        rfl rfl hcompile
      have hhere : (em.serving sub rest).here = em.here := by
        simp [Emitter.here, Emitter.serving, Emitter.patchA]
      have hqueue : em.queue = sub.body :: rest.map PendingSub.body := by
        simp [Emitter.queue, hpending]
      have hslot : (em.serving sub rest).slot = em.slot := rfl
      rw [hhere] at hclaims
      change out.Claims em.here (scratchSlots sub.node) (bodies sub.mode sub.node) at hclaims
      rw [hqueue, planBodies] at hplan
      simp only [extend_here, hhere, hslot] at hlaid
      refine Drained.cons hpending hpcs hclaims hlaid ?_ ?_ ?_ ?_ ?_ (ih hem ?_ ?_ ?_)
      · have := congrArg (·[0]?) hplan
        simpa using this
      · simp [Emitter.emit]
      · simp [Emitter.emit, Emitter.serving, Emitter.patchA]
      · simp [Emitter.emit, Emitter.serving, Emitter.patchA]
      · simp [Emitter.emit, Emitter.serving, Emitter.patchA, Emitter.extend]
      · have hcount := pendingCount_bodies sub.mode sub.node
        rw [hqueue] at hsubs
        simp only [pendingCount, map_cons, sum_cons, PendingSub.body] at hsubs
        simp only [Emitter.queue, Emitter.emit, extend_pendingSubs, map_append, hclaims.subs,
          pendingCount_append, hcount]
        simp only [pendingCount, Emitter.serving, Emitter.patchA]
        lia
      · simp only [Emitter.emit, extend_instrs, Emitter.waiting, extend_pendingSubs,
          map_append, hclaims.pcs, append_assoc]
        rw [lookPcs_serving hpending hpcs]
        simp [lookPcs_append, lookPcs]
      · have := congrArg (List.drop 1) hplan
        rw [drop_drop, drop_one, tail_cons] at this
        have hlen : position + em.pendingSubs.length + (bodies sub.mode sub.node).length =
            position + 1 + (rest ++ out.subs).length := by
          rw [hpending, length_cons, length_append, hclaims.length]
          lia
        rw [this]
        simp only [Emitter.queue, Emitter.emit, Emitter.slot, extend_pendingSubs, serving_pendingSubs,
          map_append, hclaims.subs, ← hlen, PendingSub.body, ← hclaims.scratch]
        rw [Nat.add_assoc]
        rfl

/-! ### Whole programs -/

/-- What is in force at the root of a pattern. -/
def Ctx.root (literalTrie : Bool) (flags : Nat) : Ctx := ⟨Mode.ofFlags flags, false, literalTrie⟩

/-- The options of a compilation. -/
def Options.ofFlags (host : HostUpperCase) (literalTrie : Bool) (flags : Nat) : Options :=
  ⟨host, hasFlag flags (RE_FLAG_U ||| RE_FLAG_V), literalTrie⟩

/-- The plan of a parsed pattern. -/
def ParsedRegex.plan (parsed : ParsedRegex) (flags : Nat) : Plan :=
  planOf (Mode.ofFlags flags) parsed.numCaptures parsed.root

/-- What a compiled program promises: its first instruction carries out the pattern, and the
entry of every lookaround carries out a body. -/
structure Carried (host : HostUpperCase) (literalTrie : Bool) (parsed : ParsedRegex) (flags : Nat)
    (R : CompiledRegex) : Prop where
  nGroups : R.nGroups = parsed.numCaptures + 1
  nScratch : R.nScratch = slotsOf (Mode.ofFlags flags) parsed.root
  root : Tail R (.ofFlags host literalTrie flags) (parsed.plan flags) 0
    (rootItems (.root literalTrie flags) parsed.numCaptures parsed.root)
  look : ∀ (pc : Nat) (i : Instr), R.prog[pc]? = some i → i.op = .LOOKAROUND →
    ∃ body slot queue, Tail R (.ofFlags host literalTrie flags) (parsed.plan flags) i.a
      [.ofBody literalTrie body slot queue]

/-- **A compiled program carries out its pattern.** -/
theorem compileParsed_carries {host : HostUpperCase} {literalTrie : Bool} {parsed : ParsedRegex}
    {flags : Nat} (h : compileParsed host literalTrie parsed flags = .ok R) :
    Carried host literalTrie parsed flags R := by
  let o := Options.ofFlags host literalTrie flags
  let mode := Mode.ofFlags flags
  let start := Emitter.start mode false (2 * (parsed.numCaptures + 1))
  simp only [compileParsed, bind_ok_iff] at h
  obtain ⟨em1, hcompile, em', hdrain, h⟩ := h
  rw [emit_eq] at hcompile
  obtain ⟨out, rfl, hclaims, hlaid⟩ := @compileNode_emits o (.root literalTrie flags)
    parsed.root rfl (start.extend (.one .SAVE 0 0)) em1 rfl rfl hcompile
  change out.Claims 1 (scratchSlots parsed.root) (bodies mode parsed.root) at hclaims
  let em := (((start.extend (.one .SAVE 0 0)).extend out).emit .SAVE 1 0).emit .MATCH 0 0
  have hinstrs : em.instrs = ⟨.SAVE, 0, 0⟩ :: (out.code ++ [⟨.SAVE, 1, 0⟩, ⟨.MATCH, 0, 0⟩]) := by
    simp [em, start, Emitter.emit, Emitter.extend, Emitter.start, Output.one]
  have hpending : em.pendingSubs = out.subs := by
    simp [em, start, Emitter.emit, Emitter.extend, Emitter.start, Output.one]
  have hqueue : em.queue = bodies mode parsed.root := by
    rw [Emitter.queue, hpending, hclaims.subs]
  have hpcs : lookPcs 0 em.instrs = [] ++ em.waiting := by
    rw [hinstrs, Emitter.waiting, hpending, hclaims.pcs]
    simp [lookPcs, lookPcs_append]
  have hslot : em.slot = 2 * (parsed.numCaptures + 1) + scratchSlots parsed.root := by
    rw [← hclaims.scratch]
    simp [em, start, Emitter.slot, Emitter.emit, Emitter.extend, Emitter.start, Output.one]
  have hdrained : Drained o (parsed.plan flags) (subCount parsed.root) 0 [] em em' := by
    refine drain_served hdrain ?_ hpcs ?_
    · rw [hqueue, pendingCount_bodies]
    · rw [hqueue, hslot, hpending, hclaims.length, Nat.zero_add]
      rfl
  have hR : R.prog = em'.instrs ∧ R.classTable = em'.classTable ∧
      R.nGroups = parsed.numCaptures + 1 ∧ R.nScratch = em'.scratchCount := by
    cases h
    exact ⟨rfl, rfl, rfl, rfl⟩
  obtain ⟨hprog, htable, hgroups, hscratch⟩ := hR
  have hcode : CodeAt R 0 em.instrs := by
    refine Keeps.codeAt (hprog ▸ hdrained.keeps) (fun pc hpc i hi => ?_) (fun k i hi => by simpa)
    rw [← nil_append em.waiting, ← hpcs] at hpc
    obtain ⟨-, j, hj, hop⟩ := mem_lookPcs.mp hpc
    rw [Nat.sub_zero, hi] at hj
    cases hj
    exact hop
  rw [hinstrs] at hcode
  obtain ⟨hbody, hend⟩ := codeAt_append.mp hcode.tail
  refine ⟨hgroups, ?_, ?_, ?_⟩
  · rw [hscratch, hdrained.scratch, hqueue, slotsOf, ← hclaims.scratch]
    simp [em, start, mode, Emitter.emit, Emitter.extend, Emitter.start, Output.one]
  · have hroot := hlaid R (parsed.plan flags) 0 ⟨hbody, ?_, fun k sub hk => ?_⟩
    · have hhere : ((start.extend (.one .SAVE 0 0)).extend out).here = 0 + 1 + out.code.length := by
        rw [extend_here, extend_here]
        rfl
      rw [hhere] at hroot
      have hsave : Laid R o (parsed.plan flags)
          (rootItems (.root literalTrie flags) parsed.numCaptures parsed.root) 0
          (0 + 1 + out.code.length + 1) := by
        refine .instr (.plain rfl (by simp) (by simp) (hcode.head (by simp))) ?_
        refine @Laid.append _ _ _ _ [.instr ⟨.SAVE, 1, 0⟩ []] _ _ _ hroot ?_
        exact .instr (.plain rfl (by simp) (by simp) (hend.head (by simp))) (.nil _)
      have := Tail.code hsave (.done (hend.tail.head (by simp)))
      simpa using this
    · obtain ⟨post, hpost⟩ := hdrained.table
      refine ⟨post, ?_⟩
      rw [htable, ← hpost]
      simp [em, start, Emitter.emit, Emitter.extend, Emitter.start, Output.one]
    · exact hdrained.served R hprog htable k sub (by rwa [hpending])
  · intro pc i hi hop
    rw [hprog] at hi
    have hmem : pc ∈ lookPcs 0 em'.instrs := mem_lookPcs.mpr ⟨Nat.zero_le _, i, hi, hop⟩
    rcases hdrained.all R hprog htable pc hmem with h | ⟨sub, position, rfl, hserves⟩
    · cases h
    · obtain ⟨entry, exit, slot, queue, -, hentry, hlaid, hmatch⟩ := hserves
      rw [hprog, hi] at hentry
      cases hentry
      exact ⟨_, slot, queue, Tail.one hlaid (.done hmatch)⟩

end Js2Wasm.Regex
