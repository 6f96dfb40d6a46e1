import Js2Wasm.Lib.Fallible
import Js2Wasm.Refcount.HandleScope

/-! # What the pass emits

`Emits` says, statement by statement, what the pass places for a statement list:
one rule for each thing `emitFrom` can do, over the part of the pass state that
decides it (the frame stack and the renaming of retained bindings).  The rest of
the development reasons about this relation; `emits_of_emitFrom` is the only place
that looks inside `emitFrom`.
-/
namespace Js2Wasm.Refcount
open List
open Fallible (bind_eq_ok)

/-- The scoped part of the pass state. -/
structure Ctx where
  frames : List Frame
  rename : HandleId → Option HandleId

namespace Ctx

def rn (c : Ctx) (h : HandleId) : HandleId := (c.rename h).getD h

/-- The owned handles of every frame, latest acquisition first. -/
def owned (c : Ctx) : List HandleId := c.frames.flatMap Frame.owned

def push (c : Ctx) (frame : Frame) : Ctx := { c with frames := frame :: c.frames }

def own (c : Ctx) (h : HandleId) : Ctx :=
  { c with frames := c.frames.modifyHead fun f => { f with owned := h :: f.owned } }

def retain (c : Ctx) (h copy : HandleId) : Ctx :=
  { c with rename := Function.update c.rename h (some copy) }

@[simp] theorem rn_own (c : Ctx) (h v : HandleId) : (c.own h).rn v = c.rn v := rfl

theorem rn_retain (c : Ctx) (h copy v : HandleId) :
    (c.retain h copy).rn v = if v = h then copy else c.rn v := by
  unfold rn retain
  by_cases hv : v = h
  all_goals simp [hv]

theorem owned_own {c : Ctx} (hc : c.frames ≠ []) (h : HandleId) :
    (c.own h).owned = h :: c.owned := by
  unfold owned own
  cases hf : c.frames with
  | nil => exact absurd hf hc
  | cons f fs => simp

/-- Names in scope and names still to come, at a point of the emission where the
next fresh handle is `n`: the handles in scope, and what they are renamed to, are
below `n` and are not bound again. -/
structure Ok (c : Ctx) (vars : List HandleId) (n : HandleId) (dests : List HandleId) : Prop where
  frames : c.frames ≠ []
  renamed : ∀ h, c.rename h ≠ none → h ∈ vars
  ownedInScope : ∀ h ∈ c.owned, ∃ v ∈ vars, c.rn v = h
  varBound : ∀ v ∈ vars, v < n ∧ v ∉ dests
  rnBound : ∀ v ∈ vars, c.rn v < n ∧ c.rn v ∉ dests
  destBound : ∀ d ∈ dests, d < n
  destNodup : dests.Nodup

namespace Ok

variable {c : Ctx} {vars dests dests' : List HandleId} {n n' : HandleId}

theorem mono (h : c.Ok vars n dests) (hn : n ≤ n') (hs : dests'.Sublist dests) :
    c.Ok vars n' dests' where
  frames := h.frames
  renamed := h.renamed
  ownedInScope := h.ownedInScope
  varBound v hv := ⟨Nat.lt_of_lt_of_le (h.varBound v hv).1 hn,
    fun hd => (h.varBound v hv).2 (hs.subset hd)⟩
  rnBound v hv := ⟨Nat.lt_of_lt_of_le (h.rnBound v hv).1 hn,
    fun hd => (h.rnBound v hv).2 (hs.subset hd)⟩
  destBound d hd := Nat.lt_of_lt_of_le (h.destBound d (hs.subset hd)) hn
  destNodup := hs.nodup h.destNodup

theorem push (h : c.Ok vars n dests) (kind : FrameKind) (label : Option String) :
    (c.push ⟨kind, label, []⟩).Ok vars n dests where
  frames := cons_ne_nil _ _
  renamed := h.renamed
  ownedInScope := h.ownedInScope
  varBound := h.varBound
  rnBound := h.rnBound
  destBound := h.destBound
  destNodup := h.destNodup

variable {d x : HandleId}

theorem owned_bound (h : c.Ok vars n dests) (hx : x ∈ c.owned) : x < n ∧ x ∉ dests := by
  obtain ⟨v, hv, rfl⟩ := h.ownedInScope x hx
  exact h.rnBound v hv

/-- A handle that is not in scope is not renamed. -/
theorem rn_of_not_mem (h : c.Ok vars n dests) (hx : x ∉ vars) : c.rn x = x := by
  unfold rn
  cases hr : c.rename x with
  | none => rfl
  | some y => exact absurd (h.renamed x (by simp [hr])) hx

theorem dest_not_mem (h : c.Ok vars n dests) (hd : d ∈ dests) : d ∉ vars :=
  fun hv => (h.varBound d hv).2 hd

/-- A destination comes into scope without being owned. -/
theorem bind (h : c.Ok vars n (d :: dests)) : c.Ok (d :: vars) n dests := by
  have hd : d ∉ dests := (nodup_cons.mp h.destNodup).1
  have hdn : d < n := h.destBound d mem_cons_self
  have hrn : c.rn d = d := h.rn_of_not_mem (h.dest_not_mem mem_cons_self)
  have hrest := h.mono .refl (sublist_cons_self d dests)
  refine ⟨h.frames, fun x hx => mem_cons_of_mem _ (h.renamed x hx), fun x hx => ?_, ?_, ?_,
    hrest.destBound, hrest.destNodup⟩
  · obtain ⟨v, hv, hrv⟩ := h.ownedInScope x hx
    exact ⟨v, mem_cons_of_mem _ hv, hrv⟩
  · intro v hv
    rcases mem_cons.mp hv with rfl | hv
    · exact ⟨hdn, hd⟩
    · exact hrest.varBound v hv
  · intro v hv
    rcases mem_cons.mp hv with rfl | hv
    · rw [hrn]
      exact ⟨hdn, hd⟩
    · exact hrest.rnBound v hv

/-- A handle in scope under its own name becomes owned. -/
theorem own (h : c.Ok vars n dests) (hx : ∃ v ∈ vars, c.rn v = x) :
    (c.own x).Ok vars n dests where
  frames := by
    cases hf : c.frames with
    | nil => exact absurd hf h.frames
    | cons f fs => simp [Ctx.own, hf]
  renamed := h.renamed
  ownedInScope y hy := by
    rw [owned_own h.frames] at hy
    rcases mem_cons.mp hy with rfl | hy
    · exact hx
    · exact h.ownedInScope y hy
  varBound := h.varBound
  rnBound := h.rnBound
  destBound := h.destBound
  destNodup := h.destNodup

/-- A destination comes into scope under the name of a fresh owned copy. -/
theorem retain (h : c.Ok vars n (d :: dests)) :
    ((c.retain d n).own n).Ok (d :: vars) (n + 1) dests := by
  have hb := h.bind.mono (Nat.le_succ _) (List.Sublist.refl dests)
  have hnd : n ∉ dests := fun hn =>
    Nat.lt_irrefl n (h.destBound n (mem_cons_of_mem _ hn))
  have hne : ∀ v ∈ vars, v ≠ d := fun v hv e =>
    h.dest_not_mem mem_cons_self (e ▸ hv)
  have hret : (c.retain d n).Ok (d :: vars) (n + 1) dests := by
    refine ⟨h.frames, fun x hx => ?_, fun x hx => ?_, hb.varBound, fun v hv => ?_, hb.destBound,
      hb.destNodup⟩
    · by_cases hxd : x = d
      · exact hxd ▸ mem_cons_self
      · refine mem_cons_of_mem _ (h.renamed x ?_)
        simpa [Ctx.retain, hxd] using hx
    · obtain ⟨v, hv, hrv⟩ := h.ownedInScope x hx
      exact ⟨v, mem_cons_of_mem _ hv, by rw [rn_retain, if_neg (hne v hv), hrv]⟩
    · rw [rn_retain]
      by_cases hvd : v = d
      · rw [if_pos hvd]
        exact ⟨Nat.lt_succ_self n, hnd⟩
      · rw [if_neg hvd]
        exact hb.rnBound v hv
  exact hret.own ⟨d, mem_cons_self, by rw [rn_retain, if_pos rfl]⟩

end Ok

end Ctx

/-- The nearest frame with a label, and the frames outside it. -/
def labelTarget (label : String) : List Frame → Option (Frame × List Frame)
  | [] => none
  | f :: fs => if f.label = some label then some (f, fs) else labelTarget label fs

/-! ### The emission relation -/

/-- `emitArgs` as a relation. -/
inductive EmitsArgs (c : Ctx) :
    HandleId → List (Option HandleId) → List ArgOwnership →
      List HandleStmt → List (Option HandleId) → HandleId → Prop
  | nil (n : HandleId) (owns : List ArgOwnership) : EmitsArgs c n [] owns [] [] n
  | untracked {n args owns dups args' n'} (h : EmitsArgs c n args owns.tail dups args' n') :
      EmitsArgs c n (none :: args) owns dups (none :: args') n'
  | consumed {n raw args owns dups args' n'} (reason : DupReason)
      (h : EmitsArgs c (n + 1) args owns dups args' n') :
      EmitsArgs c n (some raw :: args) (.consumes :: owns)
        (.dup (c.rn raw) n reason :: dups) (some n :: args') n'
  | borrowed {n raw args owns dups args' n'} (ho : owns.head? ≠ some .consumes)
      (h : EmitsArgs c n args owns.tail dups args' n') :
      EmitsArgs c n (some raw :: args) owns dups (some (c.rn raw) :: args') n'

/-- What the pass emits for a statement list, from fresh handle `n` up to `n'`. -/
inductive Emits (result : ResultOwnership) (ownership : OwnershipTable) :
    Ctx → HandleId → List HandleStmt → List HandleStmt → HandleId → Prop
  | nil (c n) : Emits result ownership c n [] [] n
  | callPlain {c n callee args dest binding rest own dups args' n1 out n'}
      (hown : ownership callee = some own) (hres : own.result ≠ .owned)
      (hargs : EmitsArgs c n args own.args dups args' n1)
      (hrest : Emits result ownership c n1 rest out n') :
      Emits result ownership c n (.call callee args dest binding :: rest)
        (dups ++ .call callee args' dest binding :: out) n'
  | callOwned {c n callee args dest binding rest own dups args' n1 out n'}
      (hown : ownership callee = some own) (hres : own.result = .owned)
      (hargs : EmitsArgs c n args own.args dups args' n1)
      (hrest : Emits result ownership (c.own dest) n1 rest out n') :
      Emits result ownership c n (.call callee args (some dest) binding :: rest)
        (dups ++ .call callee args' (some dest) binding :: wrap ownership dest out) n'
  | callRetained {c n callee args dest binding rest own dups args' n1 out n'}
      (hown : ownership callee = some own) (hres : own.result = .borrowed)
      (hargs : EmitsArgs c n args own.args dups args' n1)
      (hrest : Emits result ownership ((c.retain dest n1).own n1) (n1 + 1) rest out n') :
      Emits result ownership c n (.call callee args (some dest) binding :: rest)
        (dups ++ .call callee args' (some dest) binding ::
          .dup dest n1 .retainBorrowed :: wrap ownership n1 out) n'
  | use {c n value rest out n'} (hrest : Emits result ownership c n rest out n') :
      Emits result ownership c n (.use value :: rest) (.use (c.rn value) :: out) n'
  | opaqueWork {c n throws rest out n'} (hrest : Emits result ownership c n rest out n') :
      Emits result ownership c n (.opaqueWork throws :: rest) (.opaqueWork throws :: out) n'
  | scope {c n body rest body' n1 out n'}
      (hbody : Emits result ownership (c.push ⟨.scope, none, []⟩) n body body' n1)
      (hrest : Emits result ownership c n1 rest out n') :
      Emits result ownership c n (.scope body :: rest) (.scope body' :: out) n'
  | ifThen {c n then_ rest then' n1 out n'}
      (hthen : Emits result ownership (c.push ⟨.if_, none, []⟩) n then_ then' n1)
      (hrest : Emits result ownership c n1 rest out n') :
      Emits result ownership c n (.if_ then_ none :: rest) (.if_ then' none :: out) n'
  | ifElse {c n then_ else_ rest then' n1 else' n2 out n'}
      (hthen : Emits result ownership (c.push ⟨.if_, none, []⟩) n then_ then' n1)
      (helse : Emits result ownership (c.push ⟨.if_, none, []⟩) n1 else_ else' n2)
      (hrest : Emits result ownership c n2 rest out n') :
      Emits result ownership c n (.if_ then_ (some else_) :: rest)
        (.if_ then' (some else') :: out) n'
  | block {c n label body rest body' n1 out n'}
      (hbody : Emits result ownership (c.push ⟨.block, some label, []⟩) n body body' n1)
      (hrest : Emits result ownership c n1 rest out n') :
      Emits result ownership c n (.block label body :: rest) (.block label body' :: out) n'
  | loop {c n label body rest body' n1 out n'}
      (hbody : Emits result ownership (c.push ⟨.loop, some label, []⟩) n body body' n1)
      (hrest : Emits result ownership c n1 rest out n') :
      Emits result ownership c n (.loop label body :: rest) (.loop label body' :: out) n'
  | break_ {c n label frame outside rest out n'} (released : List HandleId)
      (htarget : labelTarget label c.frames = some (frame, outside))
      (hreleased : c.owned = released ++ outside.flatMap Frame.owned)
      (hrest : Emits result ownership c n rest out n') :
      Emits result ownership c n (.break_ label :: rest)
        ((released.map fun h => .free h .break_) ++ .break_ label :: out) n'
  | continue_ {c n label frame outside rest out n'} (released : List HandleId)
      (htarget : labelTarget label c.frames = some (frame, outside))
      (hloop : frame.kind = .loop)
      (hreleased : c.owned = released ++ outside.flatMap Frame.owned)
      (hrest : Emits result ownership c n rest out n') :
      Emits result ownership c n (.continue_ label :: rest)
        ((released.map fun h => .free h .continue_) ++ .continue_ label :: out) n'
  | returnNone {c n rest out n'} (hrest : Emits result ownership c n rest out n') :
      Emits result ownership c n (.return_ none :: rest)
        ((c.owned.map fun h => .free h .return_) ++ .return_ none :: out) n'
  | returnOwned {c n value rest out n'} (hres : result = .owned)
      (hrest : Emits result ownership c (n + 1) rest out n') :
      Emits result ownership c n (.return_ (some value) :: rest)
        (.dup (c.rn value) n .returnTransfer ::
          ((c.owned.map fun h => .free h .return_) ++ .return_ (some n) :: out)) n'
  | returnBorrowed {c n value rest out n'} (hres : result ≠ .owned)
      (hvalue : c.rn value ∉ c.owned) (hrest : Emits result ownership c n rest out n') :
      Emits result ownership c n (.return_ (some value) :: rest)
        ((c.owned.map fun h => .free h .return_) ++ .return_ (some (c.rn value)) :: out) n'
  | throwNone {c n rest out n'} (hrest : Emits result ownership c n rest out n') :
      Emits result ownership c n (.throw_ none :: rest) (.throw_ none :: out) n'
  | throwSome {c n value rest out n'} (hrest : Emits result ownership c (n + 1) rest out n') :
      Emits result ownership c n (.throw_ (some value) :: rest)
        (.dup (c.rn value) n .throwTransfer :: .throw_ (some n) :: out) n'

/-! ### The pass emits it -/

namespace PassState

def ctx (st : PassState) : Ctx := ⟨st.frames, st.rename⟩

/-- The state agrees with the names in scope, and `ownedNow` with the frames. -/
structure Good (st : PassState) (vars dests : List HandleId) : Prop where
  ok : st.ctx.Ok vars st.nextHandle dests
  tracks : ∀ h, h ∈ st.ownedNow ↔ h ∈ st.ctx.owned

def ErrorFree (st : PassState) : Prop := ∀ d ∈ st.diagnostics, d.severity ≠ .error

end PassState

/-- What an emission leaves behind: the scoped state as it was, more diagnostics,
fewer fresh handles. -/
structure Restores (st st' : PassState) : Prop where
  ctx : st'.ctx = st.ctx
  ownedNow : st'.ownedNow = st.ownedNow
  diagnostics : st.diagnostics <+: st'.diagnostics
  fresh : st.nextHandle ≤ st'.nextHandle

namespace Restores

variable {st st' st'' : PassState} {vars dests dests' : List HandleId}

theorem refl (st : PassState) : Restores st st := ⟨rfl, rfl, prefix_rfl, Nat.le_refl _⟩

theorem trans (h : Restores st st') (h' : Restores st' st'') : Restores st st'' :=
  ⟨h'.ctx.trans h.ctx, h'.ownedNow.trans h.ownedNow, h.diagnostics.trans h'.diagnostics,
    Nat.le_trans h.fresh h'.fresh⟩

theorem errorFree (h : Restores st st') (hf : st'.ErrorFree) : st.ErrorFree :=
  fun d hd => hf d (h.diagnostics.subset hd)

theorem good (h : Restores st st') (hg : st.Good vars dests) (hs : dests'.Sublist dests) :
    st'.Good vars dests' := by
  refine ⟨?_, fun x => ?_⟩
  · rw [h.ctx]
    exact hg.ok.mono h.fresh hs
  · rw [h.ownedNow, h.ctx]
    exact hg.tracks x

/-- Owning a handle for the rest of the scope and giving it up again. -/
theorem disown {x : HandleId} (h : Restores (st.own x) st') (hx : x ∉ st.ownedNow) :
    Restores st (st'.disown x) := by
  obtain ⟨hctx, howned, hdiag, hfresh⟩ := h
  refine ⟨?_, ?_, hdiag, hfresh⟩
  · have hframes : st'.frames = (st.own x).frames := congrArg Ctx.frames hctx
    have hrename : st'.rename = (st.own x).rename := congrArg Ctx.rename hctx
    simp only [PassState.ctx, PassState.disown, hframes, hrename, PassState.own]
    cases st.frames <;> rfl
  · simp only [PassState.disown, howned, PassState.own, if_neg hx]
    rw [filter_cons_of_neg (by simp)]
    exact filter_eq_self.mpr fun y hy => decide_eq_true fun e => hx (e ▸ hy)

/-- Opening a frame for a nested body and closing it again. -/
theorem popFrame {frame : Frame} (h : Restores (st.pushFrame frame) st') :
    Restores st st'.popFrame := by
  obtain ⟨hctx, howned, hdiag, hfresh⟩ := h
  refine ⟨?_, howned, hdiag, hfresh⟩
  have hframes : st'.frames = frame :: st.frames := congrArg Ctx.frames hctx
  have hrename : st'.rename = st.rename := congrArg Ctx.rename hctx
  simp [PassState.ctx, PassState.popFrame, hframes, hrename]

end Restores

theorem emitArgs_spec (own : ResolvedOwnership) (args : List (Option HandleId)) :
    ∀ (owns : List ArgOwnership) (st : PassState),
      EmitsArgs st.ctx st.nextHandle args owns (emitArgs own args owns st).1
        (emitArgs own args owns st).2.1 (emitArgs own args owns st).2.2.nextHandle ∧
      Restores st (emitArgs own args owns st).2.2 := by
  induction args with
  | nil => exact fun owns st => ⟨.nil _ _, .refl st⟩
  | cons a args ih =>
    intro owns st
    cases a with
    | none =>
      obtain ⟨h, hr⟩ := ih owns.tail st
      exact ⟨.untracked h, hr⟩
    | some raw =>
      match owns with
      | .consumes :: owns =>
        by_cases hm : st.rn raw ∈ st.ownedNow
        · simp only [emitArgs, PassState.fresh, hm, if_true]
          obtain ⟨h, hr⟩ := ih owns _
          exact ⟨.consumed _ h, ⟨hr.ctx, hr.ownedNow, hr.diagnostics,
            Nat.le_trans (Nat.le_succ _) hr.fresh⟩⟩
        · simp only [emitArgs, PassState.fresh, hm, if_false]
          obtain ⟨h, hr⟩ := ih owns _
          exact ⟨.consumed _ h, ⟨hr.ctx, hr.ownedNow, hr.diagnostics,
            Nat.le_trans (Nat.le_succ _) hr.fresh⟩⟩
      | .borrows :: owns =>
        obtain ⟨h, hr⟩ := ih owns st
        exact ⟨.borrowed (by simp) h, hr⟩
      | [] =>
        obtain ⟨h, hr⟩ := ih [] st
        exact ⟨.borrowed (by simp) h, hr⟩

variable {out : List HandleStmt} {st' st : PassState}
    {f : PassState → Except String (List HandleStmt × PassState)}

theorem emitThen_ok {s : List HandleStmt} :
    emitThen s f st = .ok (out, st') ↔ ∃ rest, f st = .ok (rest, st') ∧ out = s ++ rest := by
  simp only [emitThen, bind_eq_ok, Prod.exists]
  constructor
  · rintro ⟨rest, st1, h, he⟩
    cases he
    exact ⟨rest, h, rfl⟩
  · rintro ⟨rest, h, rfl⟩
    exact ⟨rest, st', h, rfl⟩

theorem emitScopeBody_ok {frame : Frame} :
    emitScopeBody frame f st = .ok (out, st') ↔
      ∃ st1, f (st.pushFrame frame) = .ok (out, st1) ∧ st' = st1.popFrame := by
  simp only [emitScopeBody, bind_eq_ok, Prod.exists]
  constructor
  · rintro ⟨out1, st1, h, he⟩
    cases he
    exact ⟨st1, h, rfl⟩
  · rintro ⟨st1, h, rfl⟩
    exact ⟨out, st1, h, rfl⟩

theorem acquireAndWrap_ok {ownership : OwnershipTable} {x : HandleId} :
    acquireAndWrap ownership x f st = .ok (out, st') ↔
      ∃ rest st1, f (st.own x) = .ok (rest, st1) ∧ out = wrap ownership x rest ∧
        st' = st1.disown x := by
  simp only [acquireAndWrap, bind_eq_ok, Prod.exists]
  constructor
  · rintro ⟨rest, st1, h, he⟩
    cases he
    exact ⟨rest, st1, h, rfl, rfl⟩
  · rintro ⟨rest, st1, h, rfl, rfl⟩
    exact ⟨rest, st1, h, rfl⟩

theorem findLabelFrame_ok {label : String} {want : FreeReason} {where_ : String} :
    ∀ {frames : List Frame} {count : Nat}, findLabelFrame label want where_ frames = .ok count →
      ∃ frame, labelTarget label frames = some (frame, frames.drop count) ∧
        (want = .continue_ → frame.kind = .loop)
  | [], _, h => nomatch h
  | f :: frames, count, h => by
    unfold findLabelFrame at h
    by_cases hl : f.label = some label
    · rw [if_neg (not_not.mpr hl)] at h
      split at h
      · exact nomatch h
      · rename_i hk
        cases h
        refine ⟨f, by simp [labelTarget, hl], fun hw => ?_⟩
        by_contra hkind
        exact hk ⟨hw, hkind⟩
    · rw [if_pos hl] at h
      cases hrec : findLabelFrame label want where_ frames with
      | error e => simp [hrec, Functor.map, Except.map] at h
      | ok k =>
        obtain ⟨frame, ht, hk⟩ := findLabelFrame_ok hrec
        simp only [hrec, Functor.map, Except.map, Except.ok.injEq] at h
        subst h
        exact ⟨frame, by simp [labelTarget, hl, ht], hk⟩

theorem releasesFromFrames_eq (frames : List Frame) (count : Nat) (reason : FreeReason) :
    releasesFromFrames frames count reason =
      ((frames.take count).flatMap Frame.owned).map fun h => .free h reason := by
  rw [releasesFromFrames, map_flatMap]

theorem owned_split (c : Ctx) (count : Nat) :
    c.owned = (c.frames.take count).flatMap Frame.owned ++
      (c.frames.drop count).flatMap Frame.owned := by
  rw [← flatMap_append, take_append_drop, Ctx.owned]

section
variable {func : HandleFunction} {ownership : OwnershipTable}

/-- The emission of `body` from `st` did what the relation says, unless it reported
an error. -/
structure Emitted (func : HandleFunction) (ownership : OwnershipTable) (st : PassState)
    (body out : List HandleStmt) (st' : PassState) : Prop extends Restores st st' where
  emits : st'.ErrorFree →
    Emits func.result ownership st.ctx st.nextHandle body out st'.nextHandle

/-- The induction hypothesis on a statement list: wherever it is emitted with its
names in order. -/
def EmitsFrom (func : HandleFunction) (ownership : OwnershipTable) (body : List HandleStmt) :
    Prop :=
  ∀ ⦃st : PassState⦄ ⦃vars : List HandleId⦄ ⦃out : List HandleStmt⦄ ⦃st' : PassState⦄,
    emitFrom func ownership body st = .ok (out, st') → OwnedResultsNamed ownership body →
      LexicallyScoped vars body → st.Good vars (destinations body) →
      Emitted func ownership st body out st'

variable {rest dups out : List HandleStmt} {dest : Option HandleId} {st' st st1 : PassState}
    {callee : String} {args' args : List (Option HandleId)} {vars dests : List HandleId}
    {binding : Bool}

theorem PassState.Good.push (h : st.Good vars dests) (kind : FrameKind) (label : Option String) :
    (st.pushFrame ⟨kind, label, []⟩).Good vars dests :=
  ⟨h.ok.push kind label, h.tracks⟩

theorem PassState.Good.own {x : HandleId} (h : st.Good vars dests)
    (hx : ∃ v ∈ vars, st.rn v = x) : (st.own x).Good vars dests := by
  refine ⟨h.ok.own hx, fun y => ?_⟩
  have howned : (st.own x).ctx.owned = x :: st.ctx.owned := Ctx.owned_own h.ok.frames x
  rw [howned, mem_cons, ← h.tracks y]
  simp only [PassState.own]
  by_cases hm : x ∈ st.ownedNow
  · rw [if_pos hm]
    exact ⟨Or.inr, fun hy => hy.elim (fun e => e ▸ hm) id⟩
  · rw [if_neg hm, mem_cons]

/-- A nested body emitted as a scope of its own. -/
theorem EmitsFrom.nested {body : List HandleStmt} {kind : FrameKind} {label : Option String}
    (ih : EmitsFrom func ownership body)
    (h : emitScopeBody ⟨kind, label, []⟩ (fun st => emitFrom func ownership body st) st =
      .ok (out, st'))
    (hn : OwnedResultsNamed ownership body) (hl : LexicallyScoped vars body)
    (hg : st.Good vars dests) (hs : (destinations body).Sublist dests) :
    Restores st st' ∧ (st'.ErrorFree →
      Emits func.result ownership (st.ctx.push ⟨kind, label, []⟩) st.nextHandle body out
        st'.nextHandle) := by
  obtain ⟨st1, hbody, rfl⟩ := emitScopeBody_ok.mp h
  have hgood := (Restores.refl st).good hg hs
  have hem := ih hbody hn hl (hgood.push kind label)
  exact ⟨hem.toRestores.popFrame, hem.emits⟩

/-- A statement list whose first statement emits in place. -/
theorem EmitsFrom.andThen {s' : List HandleStmt} {s : HandleStmt}
    (ih : EmitsFrom func ownership rest) (hr : Restores st st1)
    (h : emitThen s' (fun st => emitFrom func ownership rest st) st1 = .ok (out, st'))
    (hn : OwnedResultsNamed ownership (s :: rest)) (hl : LexicallyScoped vars rest)
    (hg : st.Good vars (destinations (s :: rest)))
    (hs : st'.ErrorFree → st1.ErrorFree → ∀ out,
      Emits func.result ownership st.ctx st1.nextHandle rest out st'.nextHandle →
      Emits func.result ownership st.ctx st.nextHandle (s :: rest) (s' ++ out) st'.nextHandle) :
    Emitted func ownership st (s :: rest) out st' := by
  obtain ⟨rest', hrest, rfl⟩ := emitThen_ok.mp h
  have hem := ih hrest (hn.subset (walk_rest_subset s rest)) hl
    (hr.good hg (destinations_rest_sublist s rest))
  refine ⟨hr.trans hem.toRestores, fun hf => hs hf (hem.errorFree hf) rest' ?_⟩
  have hemits := hem.emits hf
  rwa [hr.ctx] at hemits

section
variable {own : ResolvedOwnership} (ih : EmitsFrom func ownership rest)
  (hown : ownership callee = some own)
  (hargs : EmitsArgs st.ctx st.nextHandle args own.args dups args' st1.nextHandle)
  (hra : Restores st st1) (hn : OwnedResultsNamed ownership rest)
include ih hown hargs hra hn

/-- A call without an acquisition: the rest of the list is emitted in place. -/
theorem emitCall_plain (hres : own.result ≠ .owned)
    (hrest : emitFrom func ownership rest st1 = .ok (out, st'))
    (hl : LexicallyScoped (dest.toList ++ vars) rest)
    (hg : st.Good (dest.toList ++ vars) (destinations rest)) :
    Emitted func ownership st (.call callee args dest binding :: rest)
      (dups ++ [.call callee args' dest binding] ++ out) st' := by
  have hem := ih hrest hn hl (hra.good hg (.refl _))
  refine ⟨hra.trans hem.toRestores, fun hf => ?_⟩
  have hemits := hem.emits hf
  rw [hra.ctx] at hemits
  rw [append_assoc]
  exact .callPlain hown hres hargs hemits

/-- A call whose owned result joins the frame. -/
theorem emitCall_owned {dest : HandleId} (hres : own.result = .owned)
    (hwrap : acquireAndWrap ownership dest (fun st => emitFrom func ownership rest st) st1 =
      .ok (out, st')) (hl : LexicallyScoped (dest :: vars) rest)
    (hg : st.Good vars (dest :: destinations rest)) :
    Emitted func ownership st (.call callee args (some dest) binding :: rest)
      (dups ++ [.call callee args' (some dest) binding] ++ out) st' := by
  obtain ⟨out', st2, hrest, rfl, rfl⟩ := acquireAndWrap_ok.mp hwrap
  have hg1 : st1.Good vars (dest :: destinations rest) := hra.good hg (.refl _)
  have hfree : dest ∉ st1.ownedNow := fun hm =>
    (hg1.ok.owned_bound ((hg1.tracks dest).mp hm)).2 mem_cons_self
  have hrn : st1.rn dest = dest := hg1.ok.rn_of_not_mem (hg1.ok.dest_not_mem mem_cons_self)
  have hbound : st1.Good (dest :: vars) (destinations rest) := ⟨hg1.ok.bind, hg1.tracks⟩
  have hem := ih hrest hn hl (hbound.own ⟨dest, mem_cons_self, hrn⟩)
  refine ⟨hra.trans (hem.toRestores.disown hfree), fun hf => ?_⟩
  have hemits : Emits func.result ownership (st1.ctx.own dest) st1.nextHandle rest out'
      st2.nextHandle := hem.emits hf
  rw [hra.ctx] at hemits
  rw [append_assoc]
  exact .callOwned hown hres hargs hemits

/-- A call whose borrowed result is retained for a binding. -/
theorem emitCall_retained {dest : HandleId} {st2 : PassState} {c : ElisionCandidate}
    (hres : own.result = .borrowed) (hrest : emitFrom func ownership rest
      ((st1.fresh.2.own st1.nextHandle).setRename dest (some st1.nextHandle)) = .ok (out, st2))
    (hst' : st' = ((st2.setRename dest (st1.rename dest)).candidate c).disown st1.nextHandle)
    (hl : LexicallyScoped (dest :: vars) rest)
    (hg : st.Good vars (dest :: destinations rest)) :
    Emitted func ownership st (.call callee args (some dest) binding :: rest)
      (dups ++ [.call callee args' (some dest) binding] ++
        .dup dest st1.nextHandle .retainBorrowed :: wrap ownership st1.nextHandle out) st' := by
  have hg1 : st1.Good vars (dest :: destinations rest) := hra.good hg (.refl _)
  have hfree : st1.nextHandle ∉ st1.ownedNow := fun hm =>
    Nat.lt_irrefl _ (hg1.ok.owned_bound ((hg1.tracks _).mp hm)).1
  have hg2 : ((st1.fresh.2.own st1.nextHandle).setRename dest (some st1.nextHandle)).Good
      (dest :: vars) (destinations rest) := by
    refine ⟨hg1.ok.retain, fun y => ?_⟩
    have howned : (st1.ctx.own st1.nextHandle).owned = st1.nextHandle :: st1.ctx.owned :=
      Ctx.owned_own hg1.ok.frames _
    change y ∈ (if st1.nextHandle ∈ st1.ownedNow then st1.ownedNow
      else st1.nextHandle :: st1.ownedNow) ↔ y ∈ (st1.ctx.own st1.nextHandle).owned
    rw [howned, mem_cons, ← hg1.tracks y, if_neg hfree, mem_cons]
  have hem := ih hrest hn hl hg2
  have hback : Restores (st1.fresh.2.own st1.nextHandle)
      ((st2.setRename dest (st1.rename dest)).candidate c) := by
    refine ⟨?_, hem.ownedNow, hem.diagnostics, hem.fresh⟩
    have hframes : st2.frames = (st1.fresh.2.own st1.nextHandle).frames :=
      congrArg Ctx.frames hem.ctx
    have hrename : st2.rename = Function.update st1.rename dest (some st1.nextHandle) :=
      congrArg Ctx.rename hem.ctx
    change (⟨st2.frames, Function.update st2.rename dest (st1.rename dest)⟩ : Ctx) = _
    rw [hframes, hrename, Function.update_idem, Function.update_eq_self]
    rfl
  have hfresh : Restores st1 st1.fresh.2 := ⟨rfl, rfl, prefix_rfl, Nat.le_succ _⟩
  refine ⟨hra.trans (hst' ▸ hfresh.trans (hback.disown hfree)), fun hf => ?_⟩
  have hemits : Emits func.result ownership ((st1.ctx.retain dest st1.nextHandle).own
      st1.nextHandle) (st1.nextHandle + 1) rest out st2.nextHandle := hem.emits (by subst hst'; exact hf)
  rw [hra.ctx] at hemits
  rw [append_assoc, hst']
  exact .callRetained hown hres hargs hemits

end

theorem emitCall_spec (ih : EmitsFrom func ownership rest)
    (h : emitCall func ownership callee args dest binding
      (fun st => emitFrom func ownership rest st) st = .ok (out, st'))
    (hn : OwnedResultsNamed ownership (.call callee args dest binding :: rest))
    (hl : LexicallyScoped (dest.toList ++ vars) rest)
    (hg : st.Good vars (dest.toList ++ destinations rest)) :
    Emitted func ownership st (.call callee args dest binding :: rest) out st' := by
  cases hown : ownership callee with
  | none => simp [emitCall, lookupOwnership, hown, bind, Except.bind] at h
  | some own =>
    have hnRest := hn.subset (walk_rest_subset _ rest)
    obtain ⟨hargs, hra⟩ := emitArgs_spec own args own.args st
    by_cases hlen : args.length ≠ own.args.length
    · simp [emitCall, lookupOwnership, hown, hlen, bind, Except.bind, throw, throwThe,
        MonadExceptOf.throw] at h
    simp only [emitCall, lookupOwnership, hown, hlen, bind_eq_ok, Except.ok.injEq,
      exists_eq_left', if_false] at h
    generalize emitArgs own args own.args st = r at h hargs hra
    obtain ⟨dups, args', st1⟩ := r
    cases dest with
    | none =>
      simp only [bind_eq_ok, Prod.exists] at h
      obtain ⟨out', st2, hrest, he⟩ := h
      cases he
      have hres : own.result ≠ .owned := fun ho => by
        have hnamed := hn _ mem_cons_self
        simp [namesOwnedResult, hown, ho] at hnamed
      exact emitCall_plain ih hown hargs hra hnRest hres hrest hl hg
    | some dest =>
      cases hres : own.result with
      | none => simp [hres, throw, throwThe, MonadExceptOf.throw] at h
      | owned =>
        simp only [hres, bind_eq_ok, Prod.exists] at h
        obtain ⟨out', st2, hrest, he⟩ := h
        cases he
        exact emitCall_owned ih hown hargs hra hnRest hres hrest hl hg
      | borrowed =>
        cases binding with
        | false =>
          simp only [hres, Bool.false_eq_true, if_false, bind_eq_ok, Prod.exists] at h
          obtain ⟨out', st2, hrest, he⟩ := h
          cases he
          refine emitCall_plain ih hown hargs hra hnRest (by simp [hres]) hrest hl ⟨?_, hg.tracks⟩
          exact hg.ok.bind
        | true =>
          simp only [hres, if_true, bind_eq_ok, Prod.exists] at h
          obtain ⟨out', st2, hwrap, he⟩ := h
          cases he
          obtain ⟨rest', st3, hret, rfl, rfl⟩ := acquireAndWrap_ok.mp hwrap
          simp only [bind_eq_ok, Prod.exists] at hret
          obtain ⟨out', st4, hrest, he⟩ := hret
          cases he
          exact emitCall_retained ih hown hargs hra hnRest hres hrest rfl hl hg

theorem allReleases_eq (st : PassState) :
    releasesFromFrames st.frames st.frames.length .return_ =
      st.ctx.owned.map fun h => .free h .return_ := by
  rw [releasesFromFrames_eq, take_length, Ctx.owned, PassState.ctx]

theorem emitReturn_owned (hres : func.result = .owned) (value : HandleId) (st : PassState) :
    ∃ st1, emitReturn func (some value) st = (.dup (st.rn value) st.nextHandle .returnTransfer ::
        (st.ctx.owned.map fun h => .free h .return_) ++ [.return_ (some st.nextHandle)], st1) ∧
      Restores st st1 ∧ st1.nextHandle = st.nextHandle + 1 := by
  have hstep : ∀ st1 : PassState, st1.ctx = st.ctx → st1.ownedNow = st.ownedNow →
      st1.diagnostics = st.diagnostics → st1.nextHandle = st.nextHandle + 1 →
      Restores st st1 := fun st1 hc ho hd hn =>
    ⟨hc, ho, hd ▸ prefix_rfl, hn ▸ Nat.le_succ _⟩
  simp only [emitReturn, Option.map_some, hres, if_true, PassState.fresh]
  by_cases hm : st.rn value ∈ st.ownedNow
  · simp only [hm, if_true]
    exact ⟨_, Prod.ext (by simp only [PassState.candidate, allReleases_eq st]) rfl,
      hstep _ rfl rfl rfl rfl, rfl⟩
  · simp only [hm, if_false]
    exact ⟨_, Prod.ext (by simp only [allReleases_eq st]) rfl, hstep _ rfl rfl rfl rfl, rfl⟩

theorem emitReturn_borrowed (hres : func.result ≠ .owned) (value : HandleId) (st : PassState) :
    ∃ st1, emitReturn func (some value) st = ((st.ctx.owned.map fun h => .free h .return_) ++
        [.return_ (some (st.rn value))], st1) ∧
      Restores st st1 ∧ st1.nextHandle = st.nextHandle ∧
      (st1.ErrorFree → st.rn value ∉ st.ownedNow) := by
  simp only [emitReturn, Option.map_some, hres, if_false]
  by_cases hm : st.rn value ∈ st.ownedNow
  · simp only [hm, if_true]
    refine ⟨_, Prod.ext (by simp only [PassState.diagnose, allReleases_eq st]) rfl,
      ⟨rfl, rfl, prefix_append _ _, Nat.le_refl _⟩, rfl, fun hf => ?_⟩
    exact absurd rfl (hf _ (mem_append_right _ mem_cons_self))
  · simp only [hm, if_false]
    exact ⟨_, Prod.ext (by simp only [allReleases_eq st]) rfl, .refl st, rfl, fun _ => id⟩

theorem emits_of_emitFrom (body : List HandleStmt) : EmitsFrom func ownership body := by
  induction body using stmtsInduction with
  | nil =>
    intro st vars out st' h _ _ _
    cases h
    exact ⟨.refl st, fun _ => .nil _ _⟩
  | call callee args dest binding rest ih =>
    intro st vars out st' h hn hl hg
    exact emitCall_spec ih h hn hl.2 hg
  | use value rest ih =>
    intro st vars out st' h hn hl hg
    exact ih.andThen (.refl st) h hn hl.2 hg fun _ _ _ hrest => .use hrest
  | opaqueWork throws rest ih =>
    intro st vars out st' h hn hl hg
    exact ih.andThen (.refl st) h hn hl.2 hg fun _ _ _ hrest => .opaqueWork hrest
  | scope body rest ihb ih =>
    intro st vars out st' h hn hl hg
    simp only [emitFrom, emitStmt, bind_eq_ok, Prod.exists] at h
    obtain ⟨body', st1, hbody, hrest⟩ := h
    obtain ⟨hr, hem⟩ := ihb.nested hbody (hn.subset (walk_stmt_subset (subset_cons_self _ _)))
      hl.1 hg (destinations_stmt_sublist (by simp [walkStmt, destination, destinations]))
    exact ih.andThen hr hrest hn hl.2 hg fun _ hf _ hrest => .scope (hem hf) hrest
  | block label body rest ihb ih =>
    intro st vars out st' h hn hl hg
    simp only [emitFrom, emitStmt, bind_eq_ok, Prod.exists] at h
    obtain ⟨body', st1, hbody, hrest⟩ := h
    obtain ⟨hr, hem⟩ := ihb.nested hbody (hn.subset (walk_stmt_subset (subset_cons_self _ _)))
      hl.1 hg (destinations_stmt_sublist (by simp [walkStmt, destination, destinations]))
    exact ih.andThen hr hrest hn hl.2 hg fun _ hf _ hrest => .block (hem hf) hrest
  | loop label body rest ihb ih =>
    intro st vars out st' h hn hl hg
    simp only [emitFrom, emitStmt, bind_eq_ok, Prod.exists] at h
    obtain ⟨body', st1, hbody, hrest⟩ := h
    obtain ⟨hr, hem⟩ := ihb.nested hbody (hn.subset (walk_stmt_subset (subset_cons_self _ _)))
      hl.1 hg (destinations_stmt_sublist (by simp [walkStmt, destination, destinations]))
    exact ih.andThen hr hrest hn hl.2 hg fun _ hf _ hrest => .loop (hem hf) hrest
  | if_ then_ else_ rest iht ihe ih =>
    intro st vars out st' h hn hl hg
    simp only [emitFrom, emitStmt, bind_eq_ok, Prod.exists] at h
    obtain ⟨then', st1, hthen, else', st2, helse, hrest⟩ := h
    have hnt : walk then_ ⊆ walkStmt (.if_ then_ else_) :=
      subset_cons_of_subset _ (subset_append_left _ _)
    have hdt : (destinations then_).Sublist ((walkStmt (.if_ then_ else_)).flatMap destination) := by
      simp [walkStmt, destination, destinations]
    obtain ⟨hrt, hemt⟩ := iht.nested hthen (hn.subset (walk_stmt_subset hnt)) hl.1.1 hg
      (destinations_stmt_sublist hdt)
    cases else_ with
    | none =>
      cases helse
      exact ih.andThen hrt hrest hn hl.2 hg fun _ hf _ hrest => .ifThen (hemt hf) hrest
    | some body =>
      simp only [emitElse, bind_eq_ok, Prod.exists] at helse
      obtain ⟨body', st3, hbody, he⟩ := helse
      cases he
      have hnb : walk body ⊆ walkStmt (.if_ then_ (some body)) :=
        subset_cons_of_subset _ (subset_append_right _ _)
      have hdb : (destinations body).Sublist
          ((walkStmt (.if_ then_ (some body))).flatMap destination) := by
        simp [walkStmt, destination, destinations, walkElse]
      obtain ⟨hrb, hemb⟩ := (ihe body rfl).nested hbody (hn.subset (walk_stmt_subset hnb)) hl.1.2
        (hrt.good hg (.refl _)) (destinations_stmt_sublist hdb)
      rw [hrt.ctx] at hemb
      exact ih.andThen (hrt.trans hrb) hrest hn hl.2 hg fun _ hf _ hrest =>
        .ifElse (hemt (hrb.errorFree hf)) (hemb hf) hrest
  | break_ label rest ih =>
    intro st vars out st' h hn hl hg
    simp only [emitFrom, emitStmt, bind_eq_ok] at h
    obtain ⟨count, hcount, hrest⟩ := h
    obtain ⟨frame, htarget, -⟩ := findLabelFrame_ok hcount
    rw [releasesFromFrames_eq] at hrest
    refine ih.andThen (.refl st) hrest hn hl.2 hg fun _ _ out hrest => ?_
    rw [append_assoc]
    exact .break_ _ htarget (owned_split st.ctx count) hrest
  | continue_ label rest ih =>
    intro st vars out st' h hn hl hg
    simp only [emitFrom, emitStmt, bind_eq_ok] at h
    obtain ⟨count, hcount, hrest⟩ := h
    obtain ⟨frame, htarget, hloop⟩ := findLabelFrame_ok hcount
    rw [releasesFromFrames_eq] at hrest
    refine ih.andThen (.refl st) hrest hn hl.2 hg fun _ _ out hrest => ?_
    rw [append_assoc]
    exact .continue_ _ htarget (hloop rfl) (owned_split st.ctx count) hrest
  | return_ value rest ih =>
    intro st vars out st' h hn hl hg
    cases value with
    | none =>
      have hrest : emitThen ((st.ctx.owned.map fun h => .free h .return_) ++ [.return_ none])
          (fun st => emitFrom func ownership rest st) st = .ok (out, st') := allReleases_eq st ▸ h
      refine ih.andThen (.refl st) hrest hn hl.2 hg fun _ _ out hrest => ?_
      rw [append_assoc]
      exact .returnNone hrest
    | some value =>
      rw [emitFrom, emitStmt] at h
      by_cases hres : func.result = .owned
      · obtain ⟨st1, he, hr, hfresh⟩ := emitReturn_owned hres value st
        rw [he] at h
        refine ih.andThen hr h hn hl.2 hg fun _ _ out hrest => ?_
        rw [hfresh] at hrest
        rw [append_assoc]
        exact .returnOwned hres hrest
      · obtain ⟨st1, he, hr, hfresh, hvalue⟩ := emitReturn_borrowed hres value st
        rw [he] at h
        refine ih.andThen hr h hn hl.2 hg fun _ hf out hrest => ?_
        rw [hfresh] at hrest
        rw [append_assoc]
        exact .returnBorrowed hres (fun hm => hvalue hf ((hg.tracks _).mpr hm)) hrest
  | throw_ value rest ih =>
    intro st vars out st' h hn hl hg
    cases value with
    | none => exact ih.andThen (.refl st) h hn hl.2 hg fun _ _ _ hrest => .throwNone hrest
    | some value =>
      have hr : Restores st st.fresh.2 := ⟨rfl, rfl, prefix_rfl, Nat.le_succ _⟩
      exact ih.andThen hr h hn hl.2 hg fun _ _ _ hrest => .throwSome hrest
  | dup value dest reason rest ih | free value reason rest ih
  | cleanup owner body unwind rest _ _ ih => exact fun _ _ _ _ h => by cases h

end

end Js2Wasm.Refcount
