import Js2Wasm.Bytecode.Splice

/-! # The emitter builds the layout

`emitTrees_built`: whenever the emitter does not throw, the sink holds the layout of the
tree at the address where it began.  The only condition is that strict equality does not
confuse two of the tree's constants in the pool.
-/
namespace Js2Wasm.Bytecode
open List

variable {N : Type} [JsNumber N]

mutual

def treeConstants : Tree N → List N
  | .const value => (constValue value).toOption.toList
  | .block body | .loop body => constants body
  | .if_ then_ els => constants then_ ++ constants els
  | .try_ body catches catchAll =>
    constants body ++ catchesConstants catches ++ catchAllConstants catchAll
  | _ => []

/-- The constants of a tree. -/
def constants : List (Tree N) → List N
  | [] => []
  | t :: rest => treeConstants t ++ constants rest

def catchesConstants : List (Nat × List (Tree N)) → List N
  | [] => []
  | c :: rest => catchConstants c ++ catchesConstants rest

def catchConstants : Nat × List (Tree N) → List N
  | (_, body) => constants body

def catchAllConstants : Option (List (Tree N)) → List N
  | none => []
  | some body => constants body

end

section
variable {E : N → N → Prop} {S : N → Prop}

variable {s out out' arm s' : BytecodeSink N} {l a : Layout N} {i : Ins N} {o : Op} {q : Nat}

/-- What a bind that succeeds has gone through. -/
theorem bind_ok {α β : Type} {x : Except String α} {f : α → Except String β} {b : β}
    (h : (x >>= f) = .ok b) : ∃ a, x = .ok a ∧ f a = .ok b := by
  cases x with
  | error e => exact nomatch h
  | ok a => exact ⟨a, rfl, h⟩

/-! ### Appended layouts -/

/-- The result of appending a layout to a sink. -/
def Appended (E : N → N → Prop) (S : N → Prop) (s s' : BytecodeSink N) (a : Layout N) : Prop :=
  ∃ pool' ws, s.constPool <+: pool' ∧ (∀ v ∈ pool', S v) ∧ Encodes E pool' a.ins ws ∧
    s' = ⟨s.code ++ ws, pool', s.pendingBranches ++ pendings s.code.length a.ins,
      s.exceptionTable ++ a.rows⟩

namespace Appended
variable {s'' : BytecodeSink N} {b : Layout N} (ha : Appended E S s s' a)
include ha

omit [JsNumber N]

theorem trans (hb : Appended E S s' s'' b) : Appended E S s s'' (a.append b) := by
  obtain ⟨pool, ws, hgrow, -, henc, rfl⟩ := ha
  obtain ⟨pool', ws', hgrow', hpool', henc', rfl⟩ := hb
  refine ⟨pool', ws ++ ws', hgrow.trans hgrow', hpool', (henc.grow hgrow').append henc', ?_⟩
  simp [Layout.append, pendings_append, henc.length]

theorem length : s'.code.length = s.code.length + a.size := by
  obtain ⟨pool, ws, -, -, henc, rfl⟩ := ha
  rw [length_append, henc.length]
  rfl

theorem pool : ∀ v ∈ s'.constPool, S v := by
  obtain ⟨pool, ws, -, hpool, -, rfl⟩ := ha
  exact hpool

theorem emit (op : Op) (hop : op.kind = .zero) :
    Appended E S s (s'.emit op []) (a.append ⟨[.zero op], []⟩) := by
  refine ha.trans ⟨s'.constPool, _, prefix_refl _, ha.pool, .single (.zero hop), ?_⟩
  simp [BytecodeSink.emit, pendings]

theorem row (r : ExcEntry) : Appended E S s
    { s' with exceptionTable := s'.exceptionTable ++ [r] } ⟨a.ins, a.rows ++ [r]⟩ := by
  obtain ⟨pool, ws, hgrow, hpool, henc, rfl⟩ := ha
  exact ⟨pool, ws, hgrow, hpool, henc, by simp⟩

end Appended

omit [JsNumber N] in
/-- What was emitted behind a slot, when the slot is patched. -/
theorem Appended.slot (ha : Appended E S (s.emit o [-1]) s' a) (i : Ins N) (x : Nat)
    (hi : ∀ pool, Words E pool i [o.toInt, x])
    (hp : ∀ p is, pendings p (i :: is) = pendings (p + 2) is) :
    Appended E S s (s'.patch (s.code.length + 1) x) ⟨i :: a.ins, a.rows⟩ := by
  obtain ⟨pool, ws, hgrow, hpool, henc, rfl⟩ := ha
  refine ⟨pool, _, hgrow, hpool, .cons (hi pool) henc, ?_⟩
  rw [hp]
  simp [BytecodeSink.patch, BytecodeSink.emit]

omit [JsNumber N] in
theorem Built.append (hb : Built E S s l) (ha : Appended E S s s' a) :
    Built E S s' (l.append a) := by
  obtain ⟨pool, ws, hgrow, hpool, henc, rfl⟩ := ha
  refine ⟨(hb.code.grow hgrow).append henc, ?_, ?_, hpool⟩
  · show s.pendingBranches ++ _ = _
    rw [hb.pending, hb.code.length, Layout.append, pendings_append, Nat.zero_add]
  · show s.exceptionTable ++ _ = _
    rw [hb.table]
    rfl

omit [JsNumber N] in
/-- One more instruction. -/
theorem Built.extend (hs : Built E S s l) {pool : List N} (hgrow : s.constPool <+: pool)
    (hpool : ∀ v ∈ pool, S v) {ws : List Int} (hi : Words E pool i ws) :
    Built E S (s.extend pool ws (pendings s.code.length [i])) (l.append ⟨[i], []⟩) :=
  hs.append ⟨pool, ws, hgrow, hpool, .single hi, by simp [BytecodeSink.extend]⟩

/-! ### Simple instructions -/

omit [JsNumber N] in
theorem Built.emit (hs : Built E S s l) {op : Op} {operands : List Int}
    (hi : Words E s.constPool i (op.toInt :: operands)) (hp : pendings s.code.length [i] = []) :
    Built E S (s.emit op operands) (l.append ⟨[i], []⟩) := by
  have := hs.extend (prefix_refl _) hs.pool hi
  rwa [hp, BytecodeSink.extend, append_nil] at this

omit [JsNumber N] in
/-- A branch waits. -/
theorem Built.branch (hs : Built E S s l) {op : Op} {d : Nat} (hop : op.kind = .jump) :
    Built E S ((s.emitJumpPlaceholder op).1.recordPendingBranch (s.emitJumpPlaceholder op).2 d)
      (l.append ⟨[.jump op (.pending d)], []⟩) := by
  have hb := hs.extend (prefix_refl _) hs.pool (.jump (t := .pending d) hop)
  simpa [BytecodeSink.emitJumpPlaceholder, BytecodeSink.recordPendingBranch, BytecodeSink.emit,
    BytecodeSink.extend, pendings, Target.word] using hb

theorem binopToOpcode_kind {op : IrBinop} (h : binopToOpcode op = .ok o) :
    o.kind = .zero := by
  cases op <;> cases h <;> rfl

theorem unopToOpcode_kind {op : IrUnop} (h : unopToOpcode op = .ok o) :
    o.kind = .zero := by
  cases op <;> cases h
  rfl

theorem emitTree_simple (hS : Interns E S) {t : Tree N} (ht : t.IsSimple)
    (hc : ∀ v ∈ treeConstants t, S v) (hb : Built E S out l) (h : emitTree t out = .ok out') :
    Built E S out' (l.append (layoutTree t l.size)) := by
  rw [layoutTree_simple ht]
  cases t with
  | const value =>
    rw [emitTree, emitConst] at h
    cases hv : constValue value with
    | error e =>
      rw [hv] at h
      cases h
    | ok v =>
      rw [hv] at h
      have hSv : S v := hc v (by rw [treeConstants, hv]; exact mem_singleton_self v)
      obtain ⟨pool', hs, hgrow, ⟨w, hget, hE⟩, hpool'⟩ := internConst_spec hS hb.pool hSv
      have hins : simpleIns (.const value) = some (.const v) := by rw [simpleIns, hv]; rfl
      rw [hins]
      have hb' := hb.extend hgrow hpool' (.const hget hE)
      have hout : (out.internConst v).1.emit .CONST [((out.internConst v).2 : Int)] = out' :=
        Except.ok.inj h
      rw [hs] at hout
      rw [← hout]
      simpa [BytecodeSink.extend, BytecodeSink.emit, pendings] using hb'
  | binary op =>
    rw [emitTree, emitBinary] at h
    cases hop : binopToOpcode op with
    | error e =>
      rw [hop] at h
      cases h
    | ok o =>
      rw [hop] at h
      rw [← Except.ok.inj h, simpleIns, hop]
      exact hb.emit (.zero (binopToOpcode_kind hop)) rfl
  | unary op =>
    rw [emitTree, emitUnary] at h
    cases hop : unopToOpcode op with
    | error e =>
      rw [hop] at h
      cases h
    | ok o =>
      rw [hop] at h
      rw [← Except.ok.inj h, simpleIns, hop]
      exact hb.emit (.zero (unopToOpcode_kind hop)) rfl
  | block b => exact absurd rfl (ht.1 b)
  | loop b => exact absurd rfl (ht.2.1 b)
  | if_ a b => exact absurd rfl (ht.2.2.1 a b)
  | try_ a b c => exact absurd rfl (ht.2.2.2 a b c)
  | br d | brIf d =>
    rw [emitTree] at h
    rw [← Except.ok.inj h]
    exact hb.branch rfl
  | localGet _ | localSet _ | localTee _ | globalGet _ | globalSet _ | call _ | callRef _
  | structNew _ | structGet _ | structSet _ =>
    rw [emitTree] at h
    rw [← Except.ok.inj h]
    exact hb.emit (.one rfl) rfl
  | drop | select | unreachable | return_ | throw_ _ | rethrow _ =>
    rw [emitTree] at h
    rw [← Except.ok.inj h]
    exact hb.emit (.zero rfl) rfl

section
variable (hS : Interns E S) (hb : Built E S out l) (harm : Built E S arm a)
include hS hb harm

/-! ### Structured instructions -/

/-- The arm of a `block` or `loop` is spliced and closed. -/
theorem Built.close {self : Nat} (h : out.spliceArm arm = .ok s) :
    Built E S (resolveSplicedBranches s out.pendingBranches.length self)
      (l.append ((a.reloc l.size).close self)) := by
  obtain ⟨pool', ws, hgrow, hpool', henc, rfl⟩ := spliceArm_spec hS hb.pool harm h
  obtain ⟨ws', henc', heq⟩ := @resolveSpliced_spec N E self out pool' _ ws
    (out.exceptionTable ++ (a.reloc out.code.length).rows) henc
  have hlen : out.code.length = l.size := hb.code.length
  rw [← hlen]
  exact hb.append ⟨pool', ws', hgrow, hpool', henc', heq⟩

theorem emitBlock_built (h : emitBlock arm out = .ok out') :
    Built E S out' (l.append ((a.reloc l.size).close (l.size + a.size))) := by
  rw [emitBlock] at h
  obtain ⟨s, hsp, h⟩ := bind_ok h
  have ha : Appended E S out s _ := spliceArm_spec hS hb.pool harm hsp
  have hhere : s.here = l.size + a.size := by
    rw [BytecodeSink.here, ha.length, hb.code.length, Layout.size_reloc]
    rfl
  rw [← Except.ok.inj h, ← hhere]
  exact hb.close hS harm hsp

theorem emitLoop_built (h : emitLoop arm out = .ok out') :
    Built E S out' (l.append ((a.reloc l.size).close l.size)) := by
  rw [emitLoop] at h
  obtain ⟨s, hsp, h⟩ := bind_ok h
  have hhere : out.here = l.size := hb.code.length
  rw [← Except.ok.inj h, hhere]
  exact hb.close hS harm hsp

end

theorem spliceSlot_spec (hS : Interns E S) (hpool : ∀ v ∈ s.constPool, S v)
    (harm : Built E S arm a) (h : (s.emit o [-1]).spliceArm arm = .ok s') :
    s'.code.length = s.code.length + 2 + a.size ∧ ∀ i (x : Nat),
      (∀ pool, Words E pool i [o.toInt, x]) →
      (∀ p is, pendings p (i :: is) = pendings (p + 2) is) →
      Appended E S s (s'.patch (s.code.length + 1) x)
        ⟨i :: (a.reloc (s.code.length + 2)).ins, (a.reloc (s.code.length + 2)).rows⟩ := by
  have ha : Appended E S (s.emit o [-1]) s' _ := spliceArm_spec hS hpool harm h
  have hlen : (s.emit o [-1]).code.length = s.code.length + 2 := length_append
  rw [hlen] at ha
  refine ⟨?_, ha.slot⟩
  rw [ha.length, hlen, Layout.size_reloc]

omit [JsNumber N] in
/-- A patch does not see what is emitted behind it. -/
theorem patch_emit {slot x : Nat} {operands : List Int} (h : slot < s.code.length) :
    (s.emit o operands).patch slot x = (s.patch slot x).emit o operands := by
  simp [BytecodeSink.patch, BytecodeSink.emit, set_append_left _ _ h]

theorem emitIf_eq (then_ els out : BytecodeSink N) : emitIf then_ els out =
    ((out.emit .JZ [-1]).spliceArm then_ >>= fun s1 =>
      ((s1.emit .JMP [-1]).patch (out.code.length + 1) (s1.code.length + 2)).spliceArm els >>=
        fun s2 => pure (s2.patch (s1.code.length + 1) s2.code.length)) := by
  simp [emitIf, BytecodeSink.emitJumpPlaceholder, BytecodeSink.emit, BytecodeSink.here]

theorem emitIf_built (hS : Interns E S) {then_ els : BytecodeSink N} {t e : Layout N}
    (hb : Built E S out l) (hthen : Built E S then_ t) (hels : Built E S els e)
    (h : emitIf then_ els out = .ok out') :
    Built E S out' (l.append (layoutIf l.size (t.reloc (l.size + 2))
      (e.reloc (l.size + 4 + t.size)))) := by
  rw [emitIf_eq] at h
  obtain ⟨s1, hs1, h⟩ := bind_ok h
  obtain ⟨s2, hs2, h⟩ := bind_ok h
  have hlen : out.code.length = l.size := hb.code.length
  obtain ⟨hlen1, ht⟩ := spliceSlot_spec hS hb.pool hthen hs1
  rw [hlen] at hlen1 ht hs2
  -- the jump to the `else` arm is patched behind the jump to the end
  have hend : l.size + 2 + t.size + 2 = l.size + 4 + t.size := by lia
  rw [patch_emit (by lia), hlen1, hend] at hs2
  have ht := ht (.jump .JZ (.addr (l.size + 4 + t.size))) (l.size + 4 + t.size)
    (fun _ => .jump rfl) fun _ _ => rfl
  obtain ⟨hlen2, he⟩ := spliceSlot_spec hS ht.pool hels hs2
  have hlen1' : (s1.patch (l.size + 1) (l.size + 4 + t.size)).code.length = s1.code.length :=
    length_set
  rw [hlen1', hlen1, hend] at hlen2 he
  have he := he (.jump .JMP (.addr (l.size + 4 + t.size + e.size))) (l.size + 4 + t.size + e.size)
    (fun _ => .jump rfl) fun _ _ => rfl
  have hout : s2.patch (l.size + 2 + t.size + 1) (l.size + 4 + t.size + e.size) = out' := by
    rw [hlen1, hlen2] at h
    exact Except.ok.inj h
  rw [layoutIf, Layout.size_reloc, Layout.size_reloc, ← hout]
  exact hb.append (ht.trans he)

/-! ### Handlers -/

/-- What is known of an arm that may be missing. -/
def BuiltOption (E : N → N → Prop) (S : N → Prop) (arm : Option (BytecodeSink N)) (a : Layout N) : Prop :=
  match arm with
  | none => a = .empty
  | some arm => Built E S arm a

theorem spliceOption_spec (hS : Interns E S) {arm : Option (BytecodeSink N)}
    (hpool : ∀ v ∈ s.constPool, S v) (harm : BuiltOption E S arm a)
    (h : spliceOption arm s = .ok s') :
    Appended E S s s' (a.reloc s.code.length) := by
  cases arm with
  | none =>
    rw [BuiltOption] at harm
    rw [spliceOption] at h
    refine ⟨s.constPool, [], prefix_refl _, hpool, ?_, ?_⟩
    · rw [harm]
      exact .nil
    · rw [harm, ← Except.ok.inj h]
      simp [Layout.reloc, Layout.empty, pendings]
  | some arm => exact spliceArm_spec hS hpool harm h

theorem emitTry_eq (body : BytecodeSink N) (catches : List (Nat × BytecodeSink N))
    (catchAll : Option (BytecodeSink N)) (out : BytecodeSink N) :
    emitTry body catches catchAll out =
      ((out.emit .TRY_START [-1]).spliceArm body >>= fun s1 =>
        spliceOption (catches.head?.map Prod.snd)
          (((s1.emit .TRY_END []).emit .JMP [-1]).patch (out.code.length + 1)
            (s1.code.length + 3)) >>= fun s2 =>
        spliceOption catchAll s2 >>= fun s3 =>
        pure { s3.patch (s1.code.length + 2) s3.code.length with
          exceptionTable := s3.exceptionTable ++
            [⟨out.code.length + 2, s1.code.length, s1.code.length + 3, 0⟩] }) := by
  simp [emitTry, BytecodeSink.emitJumpPlaceholder, BytecodeSink.emit, BytecodeSink.here,
    BytecodeSink.patch]

theorem emitTry_built (hS : Interns E S) {body : BytecodeSink N}
    {catches : List (Nat × BytecodeSink N)} {catchAll : Option (BytecodeSink N)} {b c : Layout N}
    (hb : Built E S out l) (hbody : Built E S body b)
    (hcatch : BuiltOption E S (catches.head?.map Prod.snd) c) (hall : BuiltOption E S catchAll a)
    (h : emitTry body catches catchAll out = .ok out') :
    Built E S out' (l.append (layoutTry l.size (b.reloc (l.size + 2))
      ((c.reloc (l.size + 5 + b.size)).append (a.reloc (l.size + 5 + b.size + c.size))))) := by
  rw [emitTry_eq] at h
  obtain ⟨s1, hs1, h⟩ := bind_ok h
  obtain ⟨s2, hs2, h⟩ := bind_ok h
  obtain ⟨s3, hs3, h⟩ := bind_ok h
  have hlen : out.code.length = l.size := hb.code.length
  obtain ⟨hlen1, hbody⟩ := spliceSlot_spec hS hb.pool hbody hs1
  rw [hlen] at hlen1 hbody hs2
  -- the marker is patched with the address of the handler
  have hhandler : l.size + 2 + b.size + 3 = l.size + 5 + b.size := by lia
  have hlt : l.size + 1 < (s1.emit .TRY_END []).code.length := by
    rw [BytecodeSink.emit, length_append]
    lia
  rw [patch_emit hlt, patch_emit (by lia), hlen1, hhandler] at hs2
  have hbody := (hbody (.tryStart (l.size + 5 + b.size)) (l.size + 5 + b.size)
    (fun _ => .tryStart) fun _ _ => rfl).emit .TRY_END rfl
  have hlenJ : (((s1.patch (l.size + 1) (l.size + 5 + b.size)).emit .TRY_END []).emit .JMP
      [-1]).code.length = l.size + 5 + b.size := by
    simp [BytecodeSink.emit, BytecodeSink.patch, hlen1]
    lia
  have h₂ := spliceOption_spec hS (by exact hbody.pool) hcatch hs2
  have h₃ := spliceOption_spec hS h₂.pool hall hs3
  rw [h₂.length] at h₃
  simp only [hlenJ, Layout.size_reloc] at h₂ h₃
  have hH := h₂.trans h₃
  have hlen3 := hH.length
  rw [hlenJ] at hlen3
  generalize (c.reloc (l.size + 5 + b.size)).append (a.reloc (l.size + 5 + b.size + c.size)) = H
    at hH hlen3 ⊢
  have hH := (hH.slot (.jump .JMP (.addr (l.size + 5 + b.size + H.size)))
    (l.size + 5 + b.size + H.size) (fun _ => .jump rfl) fun _ _ => rfl).row
    ⟨l.size + 2, l.size + 2 + b.size, l.size + 5 + b.size, 0⟩
  have hslot : ((s1.patch (l.size + 1) (l.size + 5 + b.size)).emit .TRY_END []).code.length + 1 =
      l.size + 2 + b.size + 2 := by
    simp [BytecodeSink.emit, BytecodeSink.patch, hlen1]
  rw [hslot] at hH
  rw [hlen1, hlen, hlen3, hhandler] at h
  rw [← Except.ok.inj h, layoutTry, Layout.size_reloc]
  simpa [Layout.append, BytecodeSink.patch] using hb.append (hbody.trans hH)

/-! ### The driver -/

theorem layoutTrees_from_zero (trees : List (Tree N)) (p : Nat) :
    (layoutTrees trees 0).reloc p = layoutTrees trees p := by
  rw [← layoutTrees_reloc, Nat.zero_add]

/-- The size does not depend on the address. -/
theorem layoutTrees_size (trees : List (Tree N)) (p : Nat) :
    (layoutTrees trees 0).size = (layoutTrees trees p).size := by
  rw [← layoutTrees_from_zero trees p, Layout.size_reloc]

/-- An emission appends its layout. -/
def Builds (E : N → N → Prop) (S : N → Prop) (cs : List N)
    (emit : BytecodeSink N → Except String (BytecodeSink N)) (layout : Nat → Layout N) : Prop :=
  ∀ ⦃out out' l⦄, (∀ v ∈ cs, S v) → Built E S out l → emit out = .ok out' →
    Built E S out' (l.append (layout l.size))

/-- The first instruction, and the rest behind it. -/
theorem Builds.cons {t : Tree N} {rest : List (Tree N)}
    (ht : Builds E S (treeConstants t) (emitTree t) (layoutTree t))
    (hr : Builds E S (constants rest) (emitTrees rest) (layoutTrees rest)) :
    Builds E S (constants (t :: rest)) (emitTrees (t :: rest)) (layoutTrees (t :: rest)) := by
  intro out out' l hc hb h
  obtain ⟨s, hs, h⟩ := bind_ok h
  have hb' := hr (fun v hv => hc v (mem_append_right _ hv))
    (ht (fun v hv => hc v (mem_append_left _ hv)) hb hs) h
  rwa [Layout.append_assoc, Layout.size_append] at hb'

/-- A sink of its own. -/
theorem Builds.sink {body : List (Tree N)}
    (hbody : Builds E S (constants body) (emitTrees body) (layoutTrees body))
    (hc : ∀ v ∈ constants body, S v) (h : emitTrees body .empty = .ok arm) :
    Built E S arm (layoutTrees body 0) := by
  simpa [Layout.append, Layout.empty, Layout.size, wordCount] using hbody hc Built.empty h

theorem layoutCatches_from_zero (catches : List (Nat × List (Tree N))) (p : Nat) :
    (layoutCatches catches 0).reloc p = layoutCatches catches p := by
  cases catches with
  | nil => rfl
  | cons c cs =>
    obtain ⟨tagIdx, handler⟩ := c
    exact layoutTrees_from_zero handler p

/-- **The emitter builds the layout.** -/
theorem emitTrees_built (hS : Interns E S) (trees : List (Tree N)) :
    Builds E S (constants trees) (emitTrees trees) (layoutTrees trees) := by
  induction trees using treesInduction with
  | nil =>
    intro out out' l hc hb h
    rw [emitTrees] at h
    rw [← Except.ok.inj h, layoutTrees, Layout.append_empty]
    exact hb
  | simple t rest h1 h2 h3 h4 ihr =>
    exact Builds.cons (fun _ _ _ hc hb h => emitTree_simple hS ⟨h1, h2, h3, h4⟩ hc hb h) ihr
  | block body rest ihb ihr =>
    refine Builds.cons (fun out out' l hc hb h => ?_) ihr
    rw [emitTree] at h
    obtain ⟨arm, ha, h⟩ := bind_ok h
    have := emitBlock_built hS hb (ihb.sink hc ha) h
    rwa [layoutTrees_from_zero, layoutTrees_size body l.size] at this
  | loop body rest ihb ihr =>
    refine Builds.cons (fun out out' l hc hb h => ?_) ihr
    rw [emitTree] at h
    obtain ⟨arm, ha, h⟩ := bind_ok h
    have := emitLoop_built hS hb (ihb.sink hc ha) h
    rwa [layoutTrees_from_zero] at this
  | if_ then_ els rest iht ihe ihr =>
    refine Builds.cons (fun out out' l hc hb h => ?_) ihr
    rw [emitTree] at h
    obtain ⟨armT, hT, h⟩ := bind_ok h
    obtain ⟨armE, hE, h⟩ := bind_ok h
    rw [treeConstants] at hc
    have := emitIf_built hS hb (iht.sink (fun v hv => hc v (mem_append_left _ hv)) hT)
      (ihe.sink (fun v hv => hc v (mem_append_right _ hv)) hE) h
    rwa [layoutTrees_from_zero, layoutTrees_from_zero, layoutTrees_size then_ (l.size + 2)] at this
  | try_ body catches catchAll rest ihb ihc iha ihr =>
    refine Builds.cons (fun out out' l hc hb h => ?_) ihr
    rw [emitTree] at h
    obtain ⟨armB, hB, h⟩ := bind_ok h
    obtain ⟨armsC, hC, h⟩ := bind_ok h
    obtain ⟨armA, hA, h⟩ := bind_ok h
    rw [treeConstants] at hc
    have hcB : ∀ v ∈ constants body, S v := fun v hv =>
      hc v (mem_append_left _ (mem_append_left _ hv))
    have hcC : ∀ v ∈ catchesConstants catches, S v := fun v hv =>
      hc v (mem_append_left _ (mem_append_right _ hv))
    have hcA : ∀ v ∈ catchAllConstants catchAll, S v := fun v hv =>
      hc v (mem_append_right _ hv)
    have hcatch : BuiltOption E S (armsC.head?.map Prod.snd) (layoutCatches catches 0) := by
      cases catches with
      | nil =>
        rw [emitCatches] at hC
        rw [← Except.ok.inj hC]
        rfl
      | cons c cs =>
        obtain ⟨tagIdx, handler⟩ := c
        rw [emitCatches, emitCatch] at hC
        obtain ⟨arm, harm', hC⟩ := bind_ok hC
        obtain ⟨sink, hsink, harm'⟩ := bind_ok harm'
        obtain ⟨arms, -, hC⟩ := bind_ok hC
        rw [← Except.ok.inj hC, ← Except.ok.inj harm']
        exact (ihc _ mem_cons_self).sink (fun v hv => hcC v (mem_append_left _ hv)) hsink
    have hall : BuiltOption E S armA (layoutCatchAll catchAll 0) := by
      cases catchAll with
      | none =>
        rw [emitCatchAll] at hA
        rw [← Except.ok.inj hA]
        rfl
      | some handler =>
        rw [emitCatchAll] at hA
        obtain ⟨sink, hsink, hA⟩ := bind_ok hA
        rw [← Except.ok.inj hA]
        exact (iha _ rfl).sink hcA hsink
    have hmoveC := layoutCatches_from_zero catches
    have hmoveA : ∀ p, (layoutCatchAll catchAll 0).reloc p = layoutCatchAll catchAll p := fun p => by
      cases catchAll with
      | none => rfl
      | some handler => exact layoutTrees_from_zero handler p
    have := emitTry_built hS hb (ihb.sink hcB hB) hcatch hall h
    rw [layoutTree]
    have hsizeC : ∀ p, (layoutCatches catches 0).size = (layoutCatches catches p).size := fun p => by
      rw [← hmoveC p, Layout.size_reloc]
    rwa [layoutTrees_from_zero, hmoveC, hmoveA, layoutTrees_size body (l.size + 2),
      hsizeC (l.size + 5 + (layoutTrees body (l.size + 2)).size)] at this

/-- **A function's code is its layout** at address 0, and its rows are the layout's. -/
theorem emitFunction_layout {f : Func N} {e : FuncEntry N} (hS : Interns E (· ∈ constants f.body))
    (h : emitFunction f = .ok e) :
    Encodes E e.constPool (layoutTrees f.body 0).ins e.code ∧
      e.exceptionTable = (layoutTrees f.body 0).rows ∧ e.arity = f.arity := by
  rw [emitFunction] at h
  obtain ⟨s, hs, h⟩ := bind_ok h
  have hb := emitTrees_built hS f.body (fun v hv => hv) Built.empty hs
  simp only [Layout.append, Layout.empty, Layout.size, wordCount, nil_append] at hb
  rw [← Except.ok.inj h]
  exact ⟨hb.code, hb.table, rfl⟩

end

end Js2Wasm.Bytecode
