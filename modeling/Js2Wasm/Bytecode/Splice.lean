import Js2Wasm.Bytecode.Layout

/-! # What the emitter builds

`Built` relates a sink to a layout: the words encode the instructions, the constants are in
the pool, the waiting branches are those of the layout and so are the exception rows.
Splicing an arm appends its layout, relocated; each primitive appends its own.
-/
namespace Js2Wasm.Bytecode
open List

variable {N : Type} [JsNumber N]

/-! ### Words -/

/-- The words of an instruction; its constant, or one that stands for it, is in the pool. -/
inductive Words (E : N → N → Prop) (pool : List N) : Ins N → List Int → Prop
  | const {v w} {k : Nat} : pool[k]? = some w → E w v →
      Words E pool (.const v) [Op.CONST.toInt, k]
  | jump {op t} : op.kind = .jump → Words E pool (.jump op t) [op.toInt, t.word]
  | tryStart {a} : Words E pool (.tryStart a) [Op.TRY_START.toInt, a]
  | one {op} {k : Nat} : op.kind = .one → Words E pool (.one op k) [op.toInt, k]
  | zero {op} : op.kind = .zero → Words E pool (.zero op) [op.toInt]

/-- The words of a list of instructions. -/
inductive Encodes (E : N → N → Prop) (pool : List N) : List (Ins N) → List Int → Prop
  | nil : Encodes E pool [] []
  | cons {i is ws ws'} : Words E pool i ws → Encodes E pool is ws' →
      Encodes E pool (i :: is) (ws ++ ws')

section
omit [JsNumber N]
variable {E : N → N → Prop} {pool pool' : List N} {i : Ins N} {is is' : List (Ins N)} {ws ws' : List Int}

theorem Words.length (h : Words E pool i ws) : ws.length = i.size := by
  cases h <;> rfl

theorem Words.grow (h : Words E pool i ws) (hp : pool <+: pool') : Words E pool' i ws := by
  cases h with
  | const hk hE =>
    obtain ⟨t, rfl⟩ := hp
    refine .const ?_ hE
    rw [List.getElem?_append_left (List.getElem?_eq_some_iff.mp hk).1, hk]
  | jump hop => exact .jump hop
  | tryStart => exact .tryStart
  | one hop => exact .one hop
  | zero hop => exact .zero hop

theorem Encodes.length (h : Encodes E pool is ws) : ws.length = wordCount is := by
  induction h with
  | nil => rfl
  | cons hi _ ih => rw [length_append, hi.length, ih, wordCount]

theorem Encodes.grow (h : Encodes E pool is ws) (hp : pool <+: pool') : Encodes E pool' is ws := by
  induction h with
  | nil => exact .nil
  | cons hi _ ih => exact .cons (hi.grow hp) ih

theorem Encodes.append (h : Encodes E pool is ws) (h' : Encodes E pool is' ws') :
    Encodes E pool (is ++ is') (ws ++ ws') := by
  induction h with
  | nil => exact h'
  | cons hi _ ih =>
    rw [append_assoc]
    exact .cons hi ih

theorem Encodes.single (h : Words E pool i ws) : Encodes E pool [i] ws := by
  simpa using Encodes.cons h .nil

end

/-- The branches that wait in a piece of code, by slot. -/
def pendings : Nat → List (Ins N) → List PendingBranch
  | _, [] => []
  | p, .jump _ (.pending depth) :: is => ⟨p + 1, depth⟩ :: pendings (p + 2) is
  | p, i :: is => pendings (p + i.size) is

omit [JsNumber N] in
theorem pendings_append (p : Nat) (is is' : List (Ins N)) :
    pendings p (is ++ is') = pendings p is ++ pendings (p + wordCount is) is' := by
  induction is generalizing p with
  | nil => rfl
  | cons i is ih =>
    have hrest : ∀ q, q = p + i.size → pendings q (is ++ is') =
        pendings q is ++ pendings (p + wordCount (i :: is)) is' := fun q hq => by
      rw [ih, hq, wordCount, Nat.add_assoc]
    cases i with
    | jump op t =>
      cases t with
      | pending depth =>
        rw [cons_append, pendings, pendings, cons_append]
        exact congrArg _ (hrest _ rfl)
      | addr a => exact hrest _ rfl
    | _ => exact hrest _ rfl

omit [JsNumber N] in
variable {is : List (Ins N)} {b : PendingBranch} {p : Nat}

theorem slot_of_mem_pendings (hb : b ∈ pendings p is) : p < b.slot := by
  induction is generalizing p with
  | nil => exact nomatch hb
  | cons i is ih =>
    have hrest : ∀ q, p ≤ q → b ∈ pendings q is → p < b.slot := fun q hq hb =>
      Nat.lt_of_le_of_lt hq (ih hb)
    cases i with
    | jump op t =>
      cases t with
      | pending depth =>
        rcases mem_cons.mp hb with rfl | hb
        · exact Nat.lt_succ_self p
        · exact hrest _ (Nat.le_add_right p 2) hb
      | addr a => exact hrest _ (Nat.le_add_right p _) hb
    | _ => exact hrest _ (Nat.le_add_right p _) hb

omit [JsNumber N] in
/-- Slots are not shared. -/
theorem pendings_slot_inj {b' : PendingBranch} (hb : b ∈ pendings p is) (hb' : b' ∈ pendings p is)
    (hs : b.slot = b'.slot) : b = b' := by
  induction is generalizing p with
  | nil => exact nomatch hb
  | cons i is ih =>
    cases i with
    | jump op t =>
      cases t with
      | pending depth =>
        rcases mem_cons.mp hb with rfl | hb <;> rcases mem_cons.mp hb' with rfl | hb'
        · rfl
        · have := slot_of_mem_pendings hb'
          simp only at hs
          omega
        · have := slot_of_mem_pendings hb
          simp only at hs
          omega
        · exact ih hb hb'
      | addr a => exact ih hb hb'
    | _ => exact ih hb hb'

/-! ### Sinks and layouts -/

section
variable (E : N → N → Prop) (S : N → Prop)

/-- **A sink holds a layout**; its constants are in `S`. -/
structure Built (s : BytecodeSink N) (l : Layout N) : Prop where
  code : Encodes E s.constPool l.ins s.code
  pending : s.pendingBranches = pendings 0 l.ins
  table : s.exceptionTable = l.rows
  pool : ∀ v ∈ s.constPool, S v

/-- Constants that strict equality does not tell apart are the same. -/
def Distinct : Prop := ∀ a b, S a → S b → JsNumber.strictEq a b = true → a = b

/-- A constant may be replaced by one that strict equality does not tell apart from it. -/
structure Interns : Prop where
  refl : ∀ a, E a a
  trans : ∀ a b c, E a b → E b c → E a c
  shared : ∀ a b, S a → S b → JsNumber.strictEq a b = true → E a b

end

theorem Distinct.interns {S : N → Prop} (h : Distinct S) : Interns Eq S :=
  ⟨fun _ => rfl, fun _ _ _ => Eq.trans, h⟩

section
variable {E : N → N → Prop} {S : N → Prop} {s : BytecodeSink N}

omit [JsNumber N] in
theorem Built.empty : Built E S (BytecodeSink.empty : BytecodeSink N) .empty :=
  ⟨.nil, rfl, rfl, nofun⟩

/-- The constant is found in the pool, which has only grown. -/
theorem internConst_spec (hS : Interns E S) (hpool : ∀ v ∈ s.constPool, S v) {v : N} (hv : S v) :
    ∃ pool', (s.internConst v).1 = { s with constPool := pool' } ∧ s.constPool <+: pool' ∧
      (∃ w, pool'[(s.internConst v).2]? = some w ∧ E w v) ∧ ∀ v ∈ pool', S v := by
  rw [BytecodeSink.internConst]
  split
  · next k hk =>
    refine ⟨s.constPool, rfl, prefix_refl _, ?_, hpool⟩
    obtain ⟨hlt, heq, -⟩ := findIdx?_eq_some_iff_getElem.mp hk
    exact ⟨_, getElem?_eq_getElem hlt,
      hS.shared _ _ (hpool _ (getElem_mem hlt)) hv heq⟩
  · refine ⟨s.constPool ++ [v], rfl, prefix_append _ _, ⟨v, ?_, hS.refl v⟩, ?_⟩
    · simp
    · intro w hw
      rcases mem_append.mp hw with hw | hw
      · exact hpool w hw
      · exact mem_singleton.mp hw ▸ hv

/-! ### Splicing -/

/-- A sink with more code, constants and waiting branches. -/
def BytecodeSink.extend (s : BytecodeSink N) (pool : List N) (ws : List Int)
    (bs : List PendingBranch) : BytecodeSink N :=
  ⟨s.code ++ ws, pool, s.pendingBranches ++ bs, s.exceptionTable⟩

variable {ws : List Int} {i base : Nat} {out out' arm : BytecodeSink N}

/-- The words of one instruction are relocated. -/
theorem spliceCode_step (hS : Interns E S) {ins : Ins N} {ws' : List Int}
    (hi : Words E arm.constPool ins ws)
    (hb : ∀ b ∈ pendings i [ins], arm.pendingDepth b.slot = some b.depth)
    (harm : ∀ v ∈ arm.constPool, S v) (hpool : ∀ v ∈ out.constPool, S v)
    (h : BytecodeSink.spliceCode arm base i (ws ++ ws') out = .ok out') :
    ∃ pool' w, out.constPool <+: pool' ∧ Words E pool' (ins.reloc base) w ∧ (∀ v ∈ pool', S v) ∧
      BytecodeSink.spliceCode arm base (i + ins.size) ws'
        (out.extend pool' w (pendings out.code.length [ins.reloc base])) = .ok out' := by
  cases hi with
  | @const v w k hk hE =>
    rw [cons_append, cons_append, BytecodeSink.spliceCode, Op.ofInt_toInt] at h
    simp only [at?_natCast, hk, nil_append] at h
    obtain ⟨pool', hs, hgrow, ⟨w', hget, hE'⟩, hpool'⟩ :=
      internConst_spec hS hpool (harm w (mem_of_getElem? hk))
    rw [hs] at h
    refine ⟨pool', _, hgrow, .const hget (hS.trans _ _ _ hE' hE), hpool', ?_⟩
    simpa [BytecodeSink.emit, BytecodeSink.extend, pendings, Ins.reloc, Ins.size] using h
  | @jump op t hop =>
    rw [cons_append, cons_append, BytecodeSink.spliceCode, Op.ofInt_toInt] at h
    refine ⟨out.constPool, [op.toInt, (t.reloc base).word], prefix_refl _, .jump hop, hpool, ?_⟩
    cases t with
    | addr a =>
      have hword : (Target.addr a).word = (a : Int) := rfl
      have hnn : ¬ (a : Int) < 0 := by omega
      cases op <;> first | exact absurd hop (by decide) | skip
      all_goals
        simp only [hword, if_neg hnn, nil_append] at h
        simpa [BytecodeSink.extend, pendings, Ins.reloc, Ins.size, Target.reloc,
          Target.word] using h
    | pending depth =>
      have hword : (Target.pending depth).word = -1 := rfl
      have hdepth := hb ⟨i + 1, depth⟩ mem_cons_self
      cases op <;> first | exact absurd hop (by decide) | skip
      all_goals
        simp only [hword, if_pos (show (-1 : Int) < 0 by decide), hdepth, nil_append] at h
        exact h
  | @tryStart a =>
    rw [cons_append, cons_append, BytecodeSink.spliceCode, Op.ofInt_toInt] at h
    refine ⟨out.constPool, _, prefix_refl _, .tryStart, hpool, ?_⟩
    simpa [BytecodeSink.extend, pendings, Ins.reloc, Ins.size] using h
  | @one op k hop =>
    rw [cons_append, cons_append, BytecodeSink.spliceCode, Op.ofInt_toInt] at h
    refine ⟨out.constPool, _, prefix_refl _, .one hop, hpool, ?_⟩
    cases op <;> first | exact absurd hop (by decide) | skip
    all_goals simpa [BytecodeSink.extend, pendings, Ins.reloc, Ins.size] using h
  | @zero op hop =>
    refine ⟨out.constPool, _, prefix_refl _, .zero hop, hpool, ?_⟩
    cases ws' with
    | nil =>
      rw [append_nil, BytecodeSink.spliceCode, Op.ofInt_toInt] at h
      cases op <;> first | exact absurd hop (by decide) | skip
      all_goals simpa [BytecodeSink.spliceCode, BytecodeSink.extend, pendings, Ins.reloc, Ins.size] using h
    | cons k rest =>
      rw [cons_append, nil_append, BytecodeSink.spliceCode, Op.ofInt_toInt] at h
      cases op <;> first | exact absurd hop (by decide) | skip
      all_goals simpa [BytecodeSink.extend, pendings, Ins.reloc, Ins.size] using h

theorem spliceCode_spec (hS : Interns E S) (henc : Encodes E arm.constPool is ws)
    (harm : ∀ v ∈ arm.constPool, S v)
    (hb : ∀ b ∈ pendings i is, arm.pendingDepth b.slot = some b.depth)
    (hpool : ∀ v ∈ out.constPool, S v) (h : BytecodeSink.spliceCode arm base i ws out = .ok out') :
    ∃ pool' ws', out.constPool <+: pool' ∧ Encodes E pool' (is.map (Ins.reloc base)) ws' ∧
      (∀ v ∈ pool', S v) ∧
      out' = out.extend pool' ws' (pendings out.code.length (is.map (Ins.reloc base))) := by
  induction henc generalizing i out with
  | nil =>
    rw [BytecodeSink.spliceCode] at h
    refine ⟨out.constPool, [], prefix_refl _, .nil, hpool, ?_⟩
    rw [← Except.ok.inj h]
    simp [BytecodeSink.extend, pendings]
  | @cons ins is ws ws' hi hrest ih =>
    have hsplit : pendings i (ins :: is) = pendings i [ins] ++ pendings (i + ins.size) is := by
      have := pendings_append i [ins] is
      rwa [singleton_append, wordCount, wordCount, Nat.add_zero] at this
    rw [hsplit] at hb
    obtain ⟨pool1, w, hgrow, hw, hpool1, h⟩ := spliceCode_step hS hi
      (fun b hb' => hb b (mem_append_left _ hb')) harm hpool h
    obtain ⟨pool', ws'', hgrow', henc', hpool', rfl⟩ := ih
      (fun b hb' => hb b (mem_append_right _ hb')) hpool1 h
    refine ⟨pool', w ++ ws'', hgrow.trans hgrow', .cons (hw.grow hgrow') henc', hpool', ?_⟩
    have hlen : w.length = ins.size := hw.length.trans (Ins.size_reloc base ins)
    have hp := pendings_append out.code.length [ins.reloc base] (is.map (Ins.reloc base))
    rw [singleton_append, wordCount, wordCount, Nat.add_zero, Ins.size_reloc] at hp
    simp [BytecodeSink.extend, hp, hlen]

omit [JsNumber N] in
/-- The map from slots to depths has the branch that waits there. -/
theorem pendingDepth_of_mem {l : Layout N} (harm : Built E S arm l) (hb : b ∈ pendings 0 l.ins) :
    arm.pendingDepth b.slot = some b.depth := by
  rw [BytecodeSink.pendingDepth, harm.pending]
  cases hf : (pendings 0 l.ins).reverse.find? fun pb => pb.slot = b.slot with
  | none =>
    exact absurd (decide_eq_true rfl) (find?_eq_none.mp hf b (mem_reverse.mpr hb))
  | some b' =>
    have hs : b'.slot = b.slot := by simpa using find?_some hf
    have hb' := mem_reverse.mp (mem_of_find?_eq_some hf)
    rw [pendings_slot_inj hb' hb hs]
    rfl

/-- **Splicing appends the arm's layout**, relocated. -/
theorem spliceArm_spec (hS : Interns E S) {s' : BytecodeSink N} {a : Layout N}
    (hpool : ∀ v ∈ s.constPool, S v) (harm : Built E S arm a) (h : s.spliceArm arm = .ok s') :
    ∃ pool' ws, s.constPool <+: pool' ∧ (∀ v ∈ pool', S v) ∧
      Encodes E pool' (a.reloc s.code.length).ins ws ∧
      s' = ⟨s.code ++ ws, pool', s.pendingBranches ++ pendings s.code.length
          (a.reloc s.code.length).ins, s.exceptionTable ++ (a.reloc s.code.length).rows⟩ := by
  rw [BytecodeSink.spliceArm] at h
  cases hsp : BytecodeSink.spliceCode arm s.code.length 0 arm.code s with
  | error e =>
    rw [hsp] at h
    exact nomatch h
  | ok out =>
    rw [hsp] at h
    obtain ⟨pool', ws, hgrow, henc, hpool', rfl⟩ := spliceCode_spec hS harm.code harm.pool
      (fun b hb => pendingDepth_of_mem harm hb) hpool hsp
    refine ⟨pool', ws, hgrow, hpool', henc, ?_⟩
    rw [← Except.ok.inj h, harm.table]
    rfl

/-! ### Closing a construct -/

theorem set_slot {α : Type} (pre post : List α) (a b c : α) :
    (pre ++ a :: b :: post).set (pre.length + 1) c = pre ++ a :: c :: post := by
  rw [set_append_right _ _ (by omega), Nat.add_sub_cancel_left]
  rfl

omit [JsNumber N] in
theorem resolveMigrated_spec {self : Nat} {pool : List N} {is : List (Ins N)} {ws : List Int}
    (henc : Encodes E pool is ws) {pre : List Int} {bs : List PendingBranch} {rows : List ExcEntry} :
    ∃ ws', Encodes E pool (is.map (Ins.within [self])) ws' ∧
      resolveMigrated self (pendings pre.length is) ⟨pre ++ ws, pool, bs, rows⟩ =
        ⟨pre ++ ws', pool, bs ++ pendings pre.length (is.map (Ins.within [self])), rows⟩ := by
  induction henc generalizing pre bs with
  | nil => exact ⟨[], .nil, by simp [pendings, resolveMigrated]⟩
  | @cons ins is w ws hi hrest ih =>
    -- the words of the first instruction, and what it adds to the waiting branches
    have hother : Words E pool (ins.within [self]) w → pendings pre.length (ins :: is) =
        pendings (pre.length + w.length) is → pendings pre.length ((ins :: is).map
          (Ins.within [self])) = pendings (pre.length + w.length) (is.map (Ins.within [self])) →
        ∃ ws', Encodes E pool ((ins :: is).map (Ins.within [self])) ws' ∧
          resolveMigrated self (pendings pre.length (ins :: is)) ⟨pre ++ (w ++ ws), pool, bs, rows⟩ =
            ⟨pre ++ ws', pool, bs ++ pendings pre.length ((ins :: is).map (Ins.within [self])),
              rows⟩ := by
      intro hw hp hp'
      obtain ⟨ws', henc', heq⟩ := @ih (pre ++ w) bs
      refine ⟨w ++ ws', .cons hw henc', ?_⟩
      rw [hp, hp', ← append_assoc, ← length_append, heq, append_assoc]
    cases hi with
    | const hk hE => exact hother (.const hk hE) rfl rfl
    | tryStart => exact hother .tryStart rfl rfl
    | one hop => exact hother (.one hop) rfl rfl
    | zero hop => exact hother (.zero hop) rfl rfl
    | @jump op t hop =>
      cases t with
      | addr a => exact hother (.jump hop) rfl rfl
      | pending depth =>
        cases depth with
        | zero =>
          obtain ⟨ws', henc', heq⟩ := @ih (pre ++ [op.toInt, (self : Int)]) bs
          refine ⟨[op.toInt, (self : Int)] ++ ws', .cons (.jump hop) henc', ?_⟩
          rw [pendings, resolveMigrated, BytecodeSink.patch]
          simp only [cons_append, nil_append, set_slot]
          simpa [pendings, Ins.within, Target.within, Ins.size] using heq
        | succ depth =>
          obtain ⟨ws', henc', heq⟩ := @ih (pre ++ [op.toInt, -1])
            (bs ++ [⟨pre.length + 1, depth⟩])
          refine ⟨[op.toInt, -1] ++ ws', .cons (.jump hop) henc', ?_⟩
          rw [pendings, resolveMigrated, BytecodeSink.recordPendingBranch]
          simpa [pendings, Ins.within, Target.within, Target.word] using heq

omit [JsNumber N] in
/-- The arm of a `block` or `loop`, closed. -/
theorem resolveSpliced_spec {self : Nat} {s : BytecodeSink N} {pool : List N} {is : List (Ins N)}
    {ws : List Int} {rows : List ExcEntry} (henc : Encodes E pool is ws) :
    ∃ ws', Encodes E pool (is.map (Ins.within [self])) ws' ∧
      resolveSplicedBranches ⟨s.code ++ ws, pool, s.pendingBranches ++ pendings s.code.length is,
        rows⟩ s.pendingBranches.length self =
        ⟨s.code ++ ws', pool, s.pendingBranches ++ pendings s.code.length
          (is.map (Ins.within [self])), rows⟩ := by
  obtain ⟨ws', henc', heq⟩ := @resolveMigrated_spec N E self pool is ws henc s.code
    s.pendingBranches rows
  refine ⟨ws', henc', ?_⟩
  rw [resolveSplicedBranches]
  simp only [drop_left, take_left]
  exact heq

end

end Js2Wasm.Bytecode
