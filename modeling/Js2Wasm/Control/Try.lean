import Js2Wasm.Control.Jump

/-! # The emitted code of `try`

The flag of a `try` is raised from the moment its `finally` is started.  A handler entered
with the flag down runs the `finally` (`guarded_runs`, `innerTry_runs`), one entered with the
flag up passes the exception on (`guarded_skips`, `catch_skips`).
-/
namespace Js2Wasm.Control
open List Option Function

section
variable {S X : Type} {w : World S X} {N : Nat} {labels : List (Option X)}

variable {pending c2 m n' fuel c c1 slot c' n : Nat} {t1 t2 t t' : TState S X}
    {payloadSlot : Option Nat} {body f : List Instr} {k k' : Completion X} {ops : List X}
    {bodyCode exit code : List Code} {raised : List Nat} {s1 s' s s2 : S} {x : X} {r : Res X}
    {cb : Option (List Instr)} {catchAll : Option (List Code)} {Γ : List Scope}

theorem After.abrupt {r' : Res X} (h : After t r s' raised c t') (hr : r' ≠ .normal) :
    After t r' s' raised c t' :=
  ⟨h.world, h.flags, fun h => absurd h hr⟩

@[simp] theorem Completion.override_normal (k : Completion X) :
    Completion.normal.override k = k := by
  cases k <;> rfl

/-! ### The guarded `finally` -/

theorem guarded_skips (hflag : t.flags slot = true) :
    Runs w (some x :: labels) [.ifFlag slot [] code, .rethrow 0] t (.throw_ x) t := by
  have hbranch : Runs w (none :: some x :: labels) (if t.flags slot then [] else code) t
      .normal t := by
    rw [if_pos hflag]
    exact Runs.nil
  exact Runs.cons (RunsI.ifFlag hbranch) (Runs.single ⟨0, rfl⟩)

theorem guarded_runs (ih : SimBelow w N)
    (hemit : emitGuardedFinally (emitInstrs fuel) (Γ.map Scope.frame) slot f c = some (code, c'))
    (hfits : Fits Γ (boundAll f) (freeAll f)) (hslots : ∀ slot ∈ Γ.flatMap Scope.slots, slot < c)
    (hrun : Run w true f s k s1 n)
    (hres : Resolves w Γ ((Completion.throw_ x).override k) s1 r s' raised m) (hn : n + m < N)
    (ht : t.world = s) (hflag : t.flags slot = false) :
    ∃ t', Runs w (some x :: labels) code t r t' ∧ After t r s' raised c t' := by
  obtain ⟨⟨codeF, cF⟩, hF, h⟩ := map_eq_some_iff.mp hemit
  cases h
  have hF : emitInstrs fuel ((.plain :: Γ).map Scope.frame) f c = some (codeF, c') := hF
  by_cases hk : k = .normal
  · subst hk
    cases hres
    obtain ⟨t', hcode, hafter⟩ :=
      ih hF hfits.plain hslots hrun .normal (by omega) (none :: some x :: labels) t ht
    have hbranch : Runs w (none :: some x :: labels) (if t.flags slot then [] else codeF) t
        .normal t' := by
      rwa [hflag]
    exact ⟨t', Runs.cons (RunsI.ifFlag hbranch) (Runs.single ⟨0, rfl⟩), hafter.abrupt nofun⟩
  · have hover : (Completion.throw_ x).override k = k := by
      cases k with
      | normal => exact absurd rfl hk
      | _ => rfl
    rw [hover] at hres
    have hr := hres.ne_normal hk
    have hplain : Resolves w (.plain :: Γ) k s1 r.up s' raised m :=
      hres.past rfl fun _ _ _ _ => nofun
    obtain ⟨t', hcode, hafter⟩ :=
      ih hF hfits.plain hslots hrun hplain hn (none :: some x :: labels) t ht
    have hbranch : Runs w (none :: some x :: labels) (if t.flags slot then [] else codeF) t
        r.up t' := by
      rwa [hflag]
    have hif := RunsI.ifFlag hbranch
    rw [leave_fst, Res.leave_up] at hif
    have hleave := hafter.leave
    rw [Res.leave_up] at hleave
    exact ⟨_, Runs.stop hif hr, hleave⟩

/-! ### The block of a `try` with a `finally` -/

/-- The slot of the flag is above the ones further out. -/
theorem slots_finally (hslots : ∀ slot' ∈ Γ.flatMap Scope.slots, slot' < slot) (hc : slot < c) :
    ∀ slot' ∈ (.finally_ f slot :: Γ).flatMap Scope.slots, slot' < c := by
  intro slot' hslot'
  rcases mem_cons.mp hslot' with rfl | hslot'
  · exact hc
  · exact Nat.lt_trans (hslots slot' hslot') hc

section
variable (labels) (ih : SimBelow w N)
  (hbody : emitInstrs fuel ((.finally_ f c :: Γ).map Scope.frame) body (c + 1) =
    some (bodyCode, c1))
  (hfits : Fits (.finally_ f c :: Γ) (boundAll body) (freeAll body))
  (hslots : ∀ slot ∈ Γ.flatMap Scope.slots, slot < c)
include ih hbody hfits hslots

/-- The block and the `finally` behind it, when the block does not throw. -/
theorem tryBody_runs
    (hexit : emitInstrs fuel ((.masked c :: Γ).map Scope.frame) f c1 = some (exit, c2))
    (hfitsF : Fits Γ (boundAll f) (freeAll f))
    (hrun : Run w true body s k s1 n) (hk : k.isThrow = false) (hrunF : Run w true f s1 k' s2 n')
    (hclear : k.Clear k') (hres : Resolves w Γ (k.override k') s2 r s' raised m)
    (hn : n + n' + m + 1 < N) (ht : t.world = s) :
    ∃ t', Runs w labels (.setFlag c false :: (bodyCode ++ .setFlag c true :: exit)) t r.up t' ∧
      t'.flags c = true ∧ After t r.up s' raised c t' := by
  have hle : c + 1 ≤ c1 := emitInstrs_grows fuel hbody
  have hslotsBody := @slots_finally _ _ f _ hslots (Nat.lt_succ_self c)
  have hflag : RunsI w labels (.setFlag c false) t .normal
      { t with flags := update t.flags c false } := ⟨0, rfl⟩
  cases k with
  | throw_ x => exact nomatch hk
  | normal =>
    rw [Completion.override_normal] at hres
    obtain ⟨tb, hb, hafterb⟩ := ih hbody hfits hslotsBody hrun .normal (by lia) labels
      { t with flags := update t.flags c false } ht
    have hmasked : Resolves w (.masked c :: Γ) k' s2 r.up s' raised m :=
      hres.past rfl fun _ _ _ _ => nofun
    obtain ⟨t', he, haftere⟩ := ih hexit hfitsF.masked
      (fun slot h => Nat.lt_of_lt_of_le (Nat.lt_succ_of_lt (hslots slot h)) hle) hrunF hmasked
      (by lia) labels { tb with flags := update tb.flags c true } hafterb.world
    refine ⟨t', Runs.cons hflag (hb.append (Runs.cons ⟨0, rfl⟩ he)), ?_, haftere.world, ?_, ?_⟩
    · rw [haftere.flags c (by lia)]
      simp
    · intro slot hslot
      have hne : slot ≠ c := by lia
      rw [haftere.flags slot (by lia)]
      simp [hne, hafterb.flags slot (by lia)]
    · intro hr
      exact (haftere.ops hr).trans (hafterb.ops rfl)
  | br l mode cr =>
    have hjump : Resolves w (.finally_ f c :: Γ) (.br l mode cr) s1 r.up s' (c :: raised)
        (n' + m + 1) := .finally_ hrunF hclear hres
    obtain ⟨t', hb, hafterb⟩ := ih hbody hfits hslotsBody hrun hjump (by lia) labels
      { t with flags := update t.flags c false } ht
    have hr : r.up ≠ .normal := hjump.ne_normal nofun
    refine ⟨t', Runs.cons hflag (hb.append_stop hr), ?_, hafterb.world, ?_, hafterb.ops⟩
    · rw [hafterb.flags c (by lia)]
      simp
    · intro slot hslot
      have hne : slot ≠ c := by lia
      rw [hafterb.flags slot (by lia)]
      simp [hne]

theorem tryBody_throws (hrun : Run w true body s (.throw_ x) s1 n) (hn : n < N) (ht : t.world = s) :
    ∃ t', Runs w labels (.setFlag c false :: (bodyCode ++ exit)) t (.throw_ x) t' ∧
      t'.flags c = false ∧ After t (.throw_ x) s1 [] c t' := by
  have hslotsBody := @slots_finally _ _ f _ hslots (Nat.lt_succ_self c)
  obtain ⟨t', hb, hafter⟩ := ih hbody hfits hslotsBody hrun .throw_ (by lia) labels
    { t with flags := update t.flags c false } ht
  refine ⟨t', Runs.cons ⟨0, rfl⟩ (hb.append_stop nofun), ?_, hafter.world, ?_, nofun⟩
  · rw [hafter.flags c (by lia)]
    simp
  · intro slot hslot
    have hne : slot ≠ c := by lia
    rw [hafter.flags slot (by lia)]
    simp [hne]

end

/-! ### The handler of a `catch` under a `finally` -/

theorem runs_popPending (h : t.ops = x :: ops) : RunsI w labels (.popPending slot) t .normal
      { t with ops, pending := update t.pending slot (some x) } :=
  ⟨0, by simp [execInstr, h]⟩

theorem runs_pushPending (h : t.pending slot = some x) :
    RunsI w labels (.pushPending slot) t .normal { t with ops := x :: t.ops } :=
  ⟨0, by simp [execInstr, h]⟩

theorem runs_bindPayload (h : t.ops = x :: ops) : RunsI w labels (bindPayload payloadSlot) t .normal
      { t with ops, world := payloadSlot.elim t.world fun slot => w.bind slot x t.world } := by
  refine ⟨0, ?_⟩
  cases payloadSlot <;> simp [bindPayload, execInstr, h]

theorem catch_skips {rest : List Code} (hops : t.ops = x :: ops) (hflag : t.flags slot = true) :
    ∃ t', Runs w labels (.popPending pending ::
      .ifFlag slot [.pushPending pending, .throwTop] [] :: rest) t (.throw_ x) t' ∧
      t'.world = t.world ∧ t'.flags = t.flags := by
  let tp : TState S X := { t with ops, pending := update t.pending pending (some x) }
  have hpop : RunsI w labels (.popPending pending) t .normal tp := runs_popPending hops
  have hpush : RunsI w (none :: labels) (.pushPending pending) tp .normal
      { tp with ops := x :: tp.ops } := runs_pushPending (update_self ..)
  have hthrow : RunsI w (none :: labels) .throwTop { tp with ops := x :: tp.ops } (.throw_ x)
      { tp with ops := x :: tp.ops } := ⟨0, rfl⟩
  have hbranch : Runs w (none :: labels)
      (if tp.flags slot then [.pushPending pending, .throwTop] else []) tp (.throw_ x)
      { tp with ops := x :: tp.ops } := by
    rw [if_pos hflag]
    exact Runs.cons hpush (Runs.single hthrow)
  exact ⟨_, Runs.cons hpop (Runs.stop (RunsI.ifFlag hbranch) nofun), rfl, rfl⟩

theorem catch_enters (hops : t.ops = x :: ops) (hflag : t.flags slot = false) :
    ∃ t', (∀ rest r t'', Runs w labels rest t' r t'' →
        Runs w labels (.popPending pending ::
          .ifFlag slot [.pushPending pending, .throwTop] [] :: .pushPending pending ::
          bindPayload payloadSlot :: rest) t r t'') ∧
      t'.world = payloadSlot.elim t.world (fun slot => w.bind slot x t.world) ∧
      t'.flags = t.flags ∧ t'.ops = ops := by
  let tp : TState S X := { t with ops, pending := update t.pending pending (some x) }
  have hpop : RunsI w labels (.popPending pending) t .normal tp := runs_popPending hops
  have hbranch : Runs w (none :: labels)
      (if tp.flags slot then [.pushPending pending, .throwTop] else []) tp .normal tp := by
    have hdown : tp.flags slot = false := hflag
    rw [hdown]
    exact Runs.nil
  have hpush : RunsI w labels (.pushPending pending) tp .normal { tp with ops := x :: tp.ops } :=
    runs_pushPending (update_self ..)
  have hbind : RunsI w labels (bindPayload payloadSlot) { tp with ops := x :: tp.ops } .normal
      { tp with world := payloadSlot.elim t.world fun slot => w.bind slot x t.world } :=
    runs_bindPayload rfl
  refine ⟨{ tp with world := payloadSlot.elim t.world fun slot => w.bind slot x t.world }, ?_,
    rfl, rfl, rfl⟩
  intro rest r t'' hrest
  exact Runs.cons hpop (Runs.cons (RunsI.ifFlag hbranch) (Runs.cons hpush (Runs.cons hbind hrest)))

/-! ### `try` with a `finally` -/

theorem After.via {r1 : Res X} (h1 : After t r1 s1 [] c t1) (hflags : t2.flags = t1.flags)
    (hops : t2.ops = t.ops) (h : After t2 r s' raised c t') : After t r s' raised c t' where
  world := h.world
  flags slot hslot := by
    rw [h.flags slot hslot, hflags, h1.flags slot hslot]
    simp
  ops hr := (h.ops hr).trans hops

theorem Completion.override_ne_normal (hk : k ≠ .normal) (k' : Completion X) :
    k.override k' ≠ .normal := by
  cases k with
  | normal => exact absurd rfl hk
  | br l m cr | throw_ x => cases k' <;> exact nofun

/-- A `try` whose block does not throw. -/
theorem try_leaves {catchBody : Option (List Code)} (h : Runs w (none :: labels) code t r t1)
    (hr : ¬ ∃ x, r = .throw_ x) (hafter : After t r s' raised c t1) :
    ∃ t', Runs w labels [.try_ code catchBody catchAll] t r.leave t' ∧
      After t r.leave s' raised c t' := by
  refine ⟨_, Runs.single ?_, hafter.leave⟩
  rw [← leave_fst t r t1]
  exact RunsI.try_ h fun x hx => hr ⟨x, hx⟩

/-- A `try` whose `catch` has run. -/
theorem try_catches {handler : List Code} (h : Runs w (none :: labels) code t (.throw_ x) t1)
    (h' : Runs w (some x :: labels) handler { t1 with ops := x :: t.ops } r t2)
    (hafter : After t r s' raised c t2) :
    ∃ t', Runs w labels [.try_ code (some handler) catchAll] t r.leave t' ∧
      After t r.leave s' raised c t' := by
  refine ⟨_, Runs.single ?_, hafter.leave⟩
  rw [← leave_fst t r t2]
  exact RunsI.tryCatch h h'

/-- With its flag up, a guarded `try` lets every result through. -/
theorem try_passes {codeF : List Code} (h : Runs w (none :: labels) code t r t1)
    (hflag : t1.flags slot = true) (hafter : After t r s' raised c t1) :
    ∃ t', Runs w labels [.try_ code none (some [.ifFlag slot [] codeF, .rethrow 0])] t
      r.leave t' ∧ After t r.leave s' raised c t' := by
  by_cases hthrow : ∃ x, r = .throw_ x
  · obtain ⟨x, rfl⟩ := hthrow
    have hskip : Runs w (some x :: labels) [.ifFlag slot [] codeF, .rethrow 0]
        { t1 with ops := t.ops } (.throw_ x) { t1 with ops := t.ops } := guarded_skips hflag
    exact ⟨_, Runs.single (RunsI.tryCatchAll h hskip), hafter.world, hafter.flags, nofun⟩
  · exact try_leaves h hthrow hafter

/-- What of a `try` with a `finally` fits where. -/
theorem fits_try (slot : Nat) (h : Fits Γ (boundAll body ++ boundOption cb ++ boundAll f)
      (freeAll body ++ freeOption cb ++ freeAll f)) :
    Fits Γ (boundAll f) (freeAll f) ∧
      Fits (.finally_ f slot :: Γ) (boundAll body) (freeAll body) ∧
      ∀ b, cb = some b → Fits (.finally_ f slot :: .masked slot :: Γ) (boundAll b) (freeAll b) := by
  have hf : Fits Γ (boundAll f) (freeAll f) := by
    apply h.mono
    · intro j
      simp only [count_append]
      lia
    · intro j hj
      exact mem_append_right _ hj
  refine ⟨hf, ?_, ?_⟩
  · have henclosed : Enclosed (.finally_ f slot :: Γ) := ⟨hf.free, hf.enclosed⟩
    apply h.push henclosed
    · intro j
      simp only [count_append, Scope.labels]
      lia
    · intro j hj
      exact Or.inr (mem_append_left _ (mem_append_left _ hj))
  · rintro b rfl
    have henclosed : Enclosed (.finally_ f slot :: .masked slot :: Γ) :=
      ⟨hf.masked.free, hf.masked.enclosed⟩
    apply (Fits.masked h).push henclosed
    · intro j
      simp only [count_append, Scope.labels, boundOption]
      lia
    · intro j hj
      exact Or.inr (mem_append_left _ (mem_append_right _ hj))

section
variable {cb : List Instr} (ih : SimBelow w N)
  (hfits : Fits (.finally_ f slot :: .masked slot :: Γ) (boundAll cb) (freeAll cb))
  (hfitsF : Fits Γ (boundAll f) (freeAll f))
  (hslots : ∀ slot' ∈ Γ.flatMap Scope.slots, slot' < slot) (hc : slot < c)
  (hrunF : Run w true f s1 k' s2 n') (hclear : k.Clear k')
  (hres : Resolves w Γ (k.override k') s2 r s' raised m) (hn : n + n' + m + 1 < N)
  (ht : t.world = s) (hflag : t.flags slot = false)
include ih hfits hfitsF hslots hc hrunF hclear hres hn ht hflag

/-- The inner `try` around a `catch` that completes abruptly. -/
theorem innerTry_runs {inner innerAll : List Code}
    (hcb : emitInstrs fuel ((.finally_ f slot :: .masked slot :: Γ).map Scope.frame) cb c =
      some (inner, c1))
    (hguard : emitGuardedFinally (emitInstrs fuel)
      ((.masked slot :: .masked slot :: Γ).map Scope.frame) slot f c1 = some (innerAll, c2))
    (hrun : Run w true cb s k s1 n) (hk : k ≠ .normal) :
    ∃ t', Runs w labels [.try_ inner none (some innerAll)] t r.up t' ∧
      After t r.up s' raised slot t' := by
  have hle : c ≤ c1 := emitInstrs_grows fuel hcb
  have hslots1 : ∀ slot' ∈ (.masked slot :: .masked slot :: Γ).flatMap Scope.slots, slot' < c1 :=
    fun slot' h => Nat.lt_trans (hslots slot' h) (Nat.lt_of_lt_of_le hc hle)
  have hslots0 := @slots_finally _ _ f (.masked slot :: Γ) hslots hc
  have hmasked : Resolves w (.masked slot :: Γ) (k.override k') s2 r.up s' raised m :=
    hres.past rfl fun _ _ _ _ => nofun
  cases k with
  | normal => exact absurd rfl hk
  | br l mode cr =>
    have hjump : Resolves w (.finally_ f slot :: .masked slot :: Γ) (.br l mode cr) s1 r.up.up s'
        (slot :: raised) (n' + m + 1) := .finally_ hrunF hclear hmasked
    obtain ⟨t1, hinner, hafter⟩ := ih hcb hfits hslots0 hrun hjump (by lia) (none :: labels) t ht
    have hup : t1.flags slot = true := by simp [hafter.flags slot hc]
    obtain ⟨⟨codeF, cF⟩, -, h⟩ := map_eq_some_iff.mp hguard
    cases h
    have hafter : After t r.up.up s' raised slot t1 := by
      refine ⟨hafter.world, fun slot' hslot' => ?_, hafter.ops⟩
      have hne : slot' ≠ slot := by lia
      rw [hafter.flags slot' (by lia)]
      simp [hne]
    obtain ⟨t', htry, hleave⟩ := try_passes hinner hup hafter
    rw [Res.leave_up] at htry hleave
    exact ⟨t', htry, hleave⟩
  | throw_ x =>
    obtain ⟨t1, hinner, hafter⟩ :=
      ih hcb hfits hslots0 hrun .throw_ (by lia) (none :: labels) t ht
    have hdown : t1.flags slot = false := by simp [hafter.flags slot hc, hflag]
    have hmasked2 : Resolves w (.masked slot :: .masked slot :: Γ)
        ((Completion.throw_ x).override k') s2 r.up.up s' raised m :=
      hmasked.past rfl fun _ _ _ _ => nofun
    let t2 : TState S X := { t1 with ops := t.ops }
    have hworld : t2.world = s1 := hafter.world
    have hdown2 : t2.flags slot = false := hdown
    obtain ⟨t', hall, hafter'⟩ := guarded_runs ih hguard hfitsF.masked.masked hslots1 hrunF
      hmasked2 (by lia) hworld hdown2
    have htry := RunsI.tryCatchAll hinner hall
    rw [leave_fst, Res.leave_up] at htry
    have hflags : t2.flags = t1.flags := rfl
    have hops : t2.ops = t.ops := rfl
    have hvia : After t r.up.up s' raised slot t' :=
      (hafter.mono (Nat.le_of_lt hc)).via hflags hops (hafter'.mono (by lia))
    have hleave := hvia.leave
    rw [Res.leave_up] at hleave
    exact ⟨_, Runs.single htry, hleave⟩

/-- The handler of the `catch`, entered with the flag down. -/
theorem handler_runs
    (hemit : emitCatch (emitInstrs fuel) (Γ.map Scope.frame) slot cb payloadSlot f c =
      some (code, c'))
    (hrun : Run w true cb (payloadSlot.elim s fun slot => w.bind slot x s) k s1 n)
    (hops : t.ops = x :: ops) :
    ∃ t', Runs w labels code t r.up t' ∧ t'.world = s' ∧
      (∀ slot' < slot, t'.flags slot' = (decide (slot' ∈ raised) || t.flags slot')) ∧
      (r = .normal → t'.ops = ops) := by
  obtain ⟨⟨inner, c1⟩, hcb, h⟩ := bind_eq_some_iff.mp hemit
  obtain ⟨⟨innerAll, c2⟩, hguard, h⟩ := bind_eq_some_iff.mp h
  obtain ⟨⟨exit, c3⟩, hexit, h⟩ := map_eq_some_iff.mp h
  cases h
  obtain ⟨t1, henter, hworld, hflags, hops1⟩ := catch_enters hops hflag
  have hdown : t1.flags slot = false := by rw [hflags, hflag]
  have hworld : t1.world = payloadSlot.elim s fun slot => w.bind slot x s := by rw [hworld, ht]
  by_cases hk : k = .normal
  · -- The `catch` falls through to the `finally`.
    subst hk
    rw [Completion.override_normal] at hres
    have hle1 : c + 1 ≤ c1 := emitInstrs_grows fuel hcb
    have hle2 := Grows.emitGuardedFinally (emitInstrs_grows fuel) hguard
    have hslots0 := @slots_finally _ _ f (.masked slot :: Γ) hslots (Nat.lt_succ_of_lt hc)
    have hslots2 : ∀ slot' ∈ (.masked slot :: Γ).flatMap Scope.slots, slot' < c2 :=
      fun slot' h => Nat.lt_trans (hslots slot' h) (by lia)
    obtain ⟨t2, hinner, hafter2⟩ :=
      ih hcb hfits hslots0 hrun .normal (by lia) (none :: labels) t1 hworld
    have htry : RunsI w labels (.try_ inner none (some innerAll)) t1 .normal t2 :=
      RunsI.try_ hinner nofun
    have hmasked : Resolves w (.masked slot :: Γ) k' s2 r.up s' raised m :=
      hres.past rfl fun _ _ _ _ => nofun
    obtain ⟨t', hexit, hafter'⟩ :=
      ih hexit hfitsF.masked hslots2 hrunF hmasked (by lia) labels t2 hafter2.world
    refine ⟨t', henter _ _ _ (Runs.cons htry hexit), hafter'.world, ?_, ?_⟩
    · intro slot' hslot'
      rw [hafter'.flags slot' (by lia), hafter2.flags slot' (by lia), hflags]
      simp
    · rintro rfl
      rw [hafter'.ops rfl, hafter2.ops rfl, hops1]
  · obtain ⟨t', htry, hafter⟩ := innerTry_runs ih hfits hfitsF hslots
      (Nat.lt_succ_of_lt hc) hrunF hclear hres hn hworld hdown hcb hguard hrun hk
    have hr : r.up ≠ .normal := by
      simpa using hres.ne_normal (Completion.override_ne_normal hk k')
    refine ⟨t', henter _ _ _ (htry.append_stop hr), hafter.world, ?_, ?_⟩
    · intro slot' hslot'
      rw [hafter.flags slot' hslot', hflags]
    · rintro rfl
      exact absurd rfl hr

end

/-- **A `try` with a `finally`.** -/
theorem performs_tryFinally (ih : SimBelow w N)
    (hemit : emitTry (emitInstrs fuel) (Γ.map Scope.frame) body cb payloadSlot (some f) c =
      some (code, c'))
    (hfits : Fits Γ (boundAll body ++ boundOption cb ++ boundAll f)
      (freeAll body ++ freeOption cb ++ freeAll f))
    (hslots : ∀ slot ∈ Γ.flatMap Scope.slots, slot < c)
    (hrun : RunI w true (.try_ body cb payloadSlot (some f)) s k s1 n)
    (hres : Resolves w Γ k s1 r s' raised m) (hn : n + m ≤ N) :
    Performs w code s r s' raised c := by
  obtain ⟨⟨bodyCode, c1⟩, hbody, h⟩ := bind_eq_some_iff.mp hemit
  obtain ⟨⟨exit, c2⟩, hexit, h⟩ := bind_eq_some_iff.mp h
  obtain ⟨⟨handler, c3⟩, hhandler, h⟩ := bind_eq_some_iff.mp h
  obtain ⟨⟨all, c4⟩, hall, h⟩ := map_eq_some_iff.mp h
  cases h
  have hle1 : c + 1 ≤ c1 := emitInstrs_grows fuel hbody
  have hle2 : c1 ≤ c2 := emitInstrs_grows fuel hexit
  obtain ⟨hfitsF, hfitsBody, hfitsCatch⟩ := fits_try c hfits
  intro labels t ht
  -- A block that does not throw: what it and the `finally` do is let through.
  have hquiet {k k' : Completion X} {s1 s2 : S} {n n' : Nat} (hrun : Run w true body s k s1 n)
      (hk : k.isThrow = false) (hrunF : Run w true f s1 k' s2 n') (hclear : k.Clear k')
      (hres : Resolves w Γ (k.override k') s2 r s' raised m) (hn : n + n' + m + 1 < N) :
      ∃ t', Runs w labels [.try_ (.setFlag c false :: (bodyCode ++ .setFlag c true :: exit))
        handler (some all)] t r t' ∧ After t r s' raised c t' := by
    obtain ⟨t1, hblock, hup, hafter⟩ := tryBody_runs (none :: labels) ih hbody
      hfitsBody hslots hexit hfitsF hrun hk hrunF hclear hres hn ht
    cases cb with
    | none =>
      cases hhandler
      obtain ⟨⟨codeF, cF⟩, -, h⟩ := map_eq_some_iff.mp hall
      cases h
      obtain ⟨t', htry, hafter⟩ := try_passes hblock hup hafter
      rw [Res.leave_up] at htry hafter
      exact ⟨t', htry, hafter⟩
    | some cb =>
      obtain ⟨⟨code, c5⟩, hcatch, h⟩ := map_eq_some_iff.mp hhandler
      cases h
      by_cases hthrow : ∃ x, r = .throw_ x
      · obtain ⟨x, rfl⟩ := hthrow
        obtain ⟨⟨inner, c6⟩, -, h⟩ := bind_eq_some_iff.mp hcatch
        obtain ⟨⟨innerAll, c7⟩, -, h⟩ := bind_eq_some_iff.mp h
        obtain ⟨⟨exit', c8⟩, -, h⟩ := map_eq_some_iff.mp h
        cases h
        let t2 : TState S X := { t1 with ops := x :: t.ops }
        have hops : t2.ops = x :: t.ops := rfl
        have hup2 : t2.flags c = true := hup
        obtain ⟨t', hskip, hworld, hflags⟩ : ∃ t', Runs w (some x :: labels)
            (.popPending c2 :: .ifFlag c [.pushPending c2, .throwTop] [] :: .pushPending c2 ::
              bindPayload payloadSlot :: .try_ inner none (some innerAll) :: exit')
            t2 (.throw_ x) t' ∧ t'.world = t2.world ∧ t'.flags = t2.flags :=
          catch_skips hops hup2
        refine ⟨t', Runs.single (RunsI.tryCatch hblock hskip), ?_, ?_, nofun⟩
        · rw [hworld]
          exact hafter.world
        · intro slot hslot
          rw [hflags]
          exact hafter.flags slot hslot
      · have hup : ¬ ∃ x, r.up = .throw_ x := by simpa using hthrow
        rw [← r.leave_up]
        exact try_leaves hblock hup hafter
  cases hrun with
  | @tryFinally _ _ _ _ _ k s2 k' _ n1 n2 hrun hk hrunF hclear =>
    cases k with
    | normal | br l mode cr => exact hquiet hrun rfl hrunF (hclear rfl) hres (by lia)
    | throw_ x =>
      obtain rfl : cb = none := hk.resolve_right nofun
      cases hhandler
      obtain ⟨t1, hblock, hdown, hafter⟩ := tryBody_throws (none :: labels) ih hbody
        hfitsBody hslots hrun (by lia) ht
      let t2 : TState S X := { t1 with ops := t.ops }
      have hworld : t2.world = s2 := hafter.world
      have hdown2 : t2.flags c = false := hdown
      have hmasked : Resolves w (.masked c :: Γ) ((Completion.throw_ x).override k') s1 r.up s'
          raised m := hres.past rfl fun _ _ _ _ => nofun
      have hslots2 : ∀ slot ∈ (.masked c :: Γ).flatMap Scope.slots, slot < c2 :=
        fun slot h => Nat.lt_trans (hslots slot h) (by lia)
      obtain ⟨t', hguard, hafter'⟩ :=
        guarded_runs ih hall hfitsF.masked hslots2 hrunF hmasked (by lia) hworld hdown2
      have htry := RunsI.tryCatchAll hblock hguard
      rw [leave_fst, Res.leave_up] at htry
      have hflags : t2.flags = t1.flags := rfl
      have hops : t2.ops = t.ops := rfl
      have hleave := (hafter.via hflags hops (hafter'.mono (by lia))).leave
      rw [Res.leave_up] at hleave
      exact ⟨_, Runs.single htry, hleave⟩
  | @tryCaughtFinally _ cb _ _ _ x s2 k s3 k' _ n1 n2 n3 hrun hcatch hrunF hclear =>
    obtain ⟨⟨code, c5⟩, hemitCatch, h⟩ := map_eq_some_iff.mp hhandler
    cases h
    obtain ⟨t1, hblock, hdown, hafter⟩ := tryBody_throws (none :: labels) ih hbody
      hfitsBody hslots hrun (by lia) ht
    let t2 : TState S X := { t1 with ops := x :: t.ops }
    have hworld : t2.world = s2 := hafter.world
    have hops : t2.ops = x :: t.ops := rfl
    have hdown2 : t2.flags c = false := hdown
    obtain ⟨t', hcode, hworld', hflags', hops'⟩ := handler_runs ih
      (hfitsCatch cb rfl) hfitsF hslots (by lia) hrunF (hclear rfl) hres (by lia) hworld hdown2
      hemitCatch hcatch hops
    have hvia : After t r.up s' raised c t' := by
      refine ⟨hworld', fun slot hslot => ?_, fun hr => hops' (by simpa using hr)⟩
      rw [hflags' slot hslot]
      have h := hafter.flags slot hslot
      simp only [not_mem_nil, decide_false, Bool.false_or] at h
      exact congrArg _ h
    rw [← r.leave_up]
    exact try_catches hblock hcode hvia

/-! ### `try` without a `finally` -/

theorem Completion.pass_false (k : Completion X) : k.pass false = k := by
  cases k <;> simp [pass]

/-- A `try` with at most a `catch`. -/
theorem performs_tryCatch (ih : SimBelow w N)
    (hemit : emitTry (emitInstrs fuel) (Γ.map Scope.frame) body cb payloadSlot none c =
      some (code, c'))
    (hfits : Fits Γ (boundAll body ++ boundOption cb) (freeAll body ++ freeOption cb))
    (hslots : ∀ slot ∈ Γ.flatMap Scope.slots, slot < c)
    (hrun : RunI w true (.try_ body cb payloadSlot none) s k s1 n)
    (hres : Resolves w Γ k s1 r s' raised m) (hn : n + m ≤ N) :
    Performs w code s r s' raised c := by
  have hfitsBody : Fits Γ (boundAll body) (freeAll body) := by
    apply hfits.mono
    · intro j
      rw [count_append]
      lia
    · exact fun j => mem_append_left _
  intro labels t ht
  cases cb with
  | none =>
    obtain ⟨⟨bodyCode, c1⟩, hbody, h⟩ := map_eq_some_iff.mp hemit
    cases h
    cases hrun with
    | try_ hrun _ =>
      rw [isSome_none, Completion.pass_false] at hres
      have hbody : emitInstrs fuel ((.plain :: Γ).map Scope.frame) body c =
        some (bodyCode, c') := hbody
      have hplain : Resolves w (.plain :: Γ) _ s1 r.up s' raised m :=
        hres.past rfl fun _ _ _ _ => nofun
      obtain ⟨t1, hblock, hafter⟩ :=
        ih hbody hfitsBody.plain hslots hrun hplain (by lia) (none :: labels) t ht
      by_cases hthrow : ∃ x, r = .throw_ x
      · obtain ⟨x, rfl⟩ := hthrow
        exact ⟨t1, Runs.single (RunsI.tryNone hblock), hafter⟩
      · have hup : ¬ ∃ x, r.up = .throw_ x := by simpa using hthrow
        rw [← r.leave_up]
        exact try_leaves hblock hup hafter
  | some cb =>
    obtain ⟨⟨bodyCode, c1⟩, hbody, h⟩ := bind_eq_some_iff.mp hemit
    obtain ⟨⟨handler, c2⟩, hcatch, h⟩ := map_eq_some_iff.mp h
    cases h
    have hle : c ≤ c1 := emitInstrs_grows fuel hbody
    have hbody : emitInstrs fuel ((.catches :: Γ).map Scope.frame) body c =
      some (bodyCode, c1) := hbody
    cases hrun with
    | @try_ _ _ _ _ k _ _ hrun hk =>
      -- The block does not throw, and neither does a jump out of it.
      have hk := hk.resolve_left nofun
      rw [isSome_some, ← Scope.out_catches] at hres
      have hsimple : Scope.catches.Simple := rfl
      obtain ⟨r1, hcatches, rfl⟩ := hres.enter hsimple
      obtain ⟨t1, hblock, hafter⟩ :=
        ih hbody hfitsBody.catches hslots hrun hcatches (by lia) (none :: labels) t ht
      have hthrow : ¬ ∃ x, r1 = .throw_ x := by
        rintro ⟨x, rfl⟩
        cases k with
        | normal => exact nomatch hcatches
        | throw_ x => exact nomatch hk
        | br l mode cr =>
          refine hres.not_throw ?_ x rfl
          simp [Scope.out, Scope.targets, Completion.caught, Crossed.union, Scope.crossed]
      exact try_leaves hblock hthrow hafter
    | @tryCaught _ _ _ _ x s2 _ _ n1 n2 hrun hcb =>
      obtain ⟨t1, hblock, hafter⟩ :=
        ih hbody hfitsBody.catches hslots hrun .throw_ (by lia) (none :: labels) t ht
      have hfitsCatch : Fits Γ (boundAll cb) (freeAll cb) := by
        apply hfits.mono
        · intro j
          simp only [count_append, boundOption]
          lia
        · exact fun j => mem_append_right _
      have hplain : Resolves w (.plain :: Γ) k s1 r.up s' raised m :=
        hres.past rfl fun _ _ _ _ => nofun
      have hcatch : emitInstrs fuel ((.plain :: Γ).map Scope.frame) cb c1 =
        some (handler, c') := hcatch
      let t2 : TState S X := { t1 with
        ops := t.ops, world := payloadSlot.elim t1.world fun slot => w.bind slot x t1.world }
      have hbind : RunsI w (some x :: labels) (bindPayload payloadSlot)
          { t1 with ops := x :: t.ops } .normal t2 := runs_bindPayload rfl
      have hworld : t2.world = payloadSlot.elim s2 fun slot => w.bind slot x s2 := by
        rw [← hafter.world]
      obtain ⟨t', hcode, hafter'⟩ := ih hcatch hfitsCatch.plain
        (fun slot h => Nat.lt_of_lt_of_le (hslots slot h) hle) hcb hplain (by lia)
        (some x :: labels) t2 hworld
      have hflags : t2.flags = t1.flags := rfl
      have hops : t2.ops = t.ops := rfl
      rw [← r.leave_up]
      exact try_catches hblock (Runs.cons hbind hcode) (hafter.via hflags hops (hafter'.mono hle))

end

end Js2Wasm.Control
