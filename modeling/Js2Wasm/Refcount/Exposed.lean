import Js2Wasm.Refcount.Counts

/-! # Exposed handles

The static condition under which one back edge stands for all of them.  For one handle
`h`, `live` says whether a body can read it before acquiring it, and `flows` how the body
can be left and whether `h` has been acquired by then.  `closed` asks of every loop that
a handle an iteration acquires for the first time is not read by the next iteration, or
after the loop, before it is acquired again.
-/
namespace Js2Wasm.Refcount.Counts
open List Function

/-! ### Liveness -/

/-- Is the handle read after an exit, before it is acquired? -/
structure LiveEnv where
  fall : Bool
  breaks : String → Bool
  continues : String → Bool
  unwind : Bool

/-- Nothing is read after the function. -/
def LiveEnv.outside : LiveEnv := ⟨false, fun _ => false, fun _ => false, false⟩

def LiveEnv.at (env : LiveEnv) : Exit → Bool
  | .fall => env.fall
  | .break_ label => env.breaks label
  | .continue_ label => env.continues label
  | .unwind _ => env.unwind
  | _ => false

/-- The environment of a loop's body: `head` at the back edge, `env.fall` behind the loop. -/
def LiveEnv.inLoop (env : LiveEnv) (label : String) (head : Bool) : LiveEnv :=
  { env with
    breaks := update env.breaks label env.fall
    continues := update env.continues label head }

section
variable (ownership : OwnershipTable) (h : HandleId)

/-- Does a call read the handle? -/
def readsArg : List (Option HandleId) → List ArgOwnership → Bool
  | [], _ => false
  | a :: args, owns =>
    (a = some h && owns.head? ≠ some .consumes) || readsArg args owns.tail

/-- Does a call acquire the handle? -/
def acquiresDest (own : ResolvedOwnership) (dest : Option HandleId) : Bool :=
  dest = some h && own.result = .owned

mutual

/-- Is the handle read, before it is acquired, from the start of a statement? -/
def liveStmt : HandleStmt → LiveEnv → Bool
  | .call callee args dest _, env =>
    match ownership callee with
    | none => false
    | some own => readsArg h args own.args || (own.throws && env.unwind) ||
        (!acquiresDest h own dest && env.fall)
  | .use v, env => v = h || env.fall
  | .dup v dest _, env => v = h || (dest ≠ h && env.fall)
  | .free _ _, env => env.fall
  | .opaqueWork throws, env => (throws && env.unwind) || env.fall
  | .scope body, env => live body env
  | .if_ then_ else_, env => live then_ env || liveElse else_ env
  | .block label body, env =>
    live body { env with breaks := update env.breaks label env.fall }
  | .loop label body, env => live body (env.inLoop label false)
  | .cleanup _ body unwind, env =>
    live body { env with unwind := live unwind { env with fall := env.unwind } }
  | .break_ label, env => env.breaks label
  | .continue_ label, env => env.continues label
  | .return_ _, _ => false
  | .throw_ _, env => env.unwind

def liveElse : Option (List HandleStmt) → LiveEnv → Bool
  | none, env => env.fall
  | some body, env => live body env

def live : List HandleStmt → LiveEnv → Bool
  | [], env => env.fall
  | s :: rest, env => liveStmt s { env with fall := live rest env }

end

/-! ### Acquisitions -/

/-- How a body is left, and whether the handle has been acquired by then. -/
abbrev Flow := Exit × Bool

/-- Exits without the values they carry. -/
def Exit.kind : Exit → Exit
  | .return_ _ => .return_ none
  | .unwind _ => .unwind none
  | o => o

/-- The flags at the back edge of a loop. -/
def backFlags (label : String) (flows : List Flow) : List Bool :=
  (flows.filter fun x => x.1 = .continue_ label).map Prod.snd

/-- The flags at the head of a loop entered with `b`. -/
def headFlags (label : String) (body : Bool → List Flow) (b : Bool) : List Bool :=
  b :: backFlags label (body b)

/-- `break` out of a region. -/
def leaveFlow (label : String) (x : Flow) : Flow :=
  if x.1 = .break_ label then (.fall, x.2) else x

mutual

def flowsStmt : HandleStmt → Bool → List Flow
  | .call callee _ dest _, b =>
    match ownership callee with
    | none => []
    | some own => (if own.throws then [(.unwind none, b)] else []) ++
        [(.fall, b || acquiresDest h own dest)]
  | .use _, b => [(.fall, b)]
  | .dup _ dest _, b => [(.fall, b || dest = h)]
  | .free _ _, b => [(.fall, b)]
  | .opaqueWork throws, b => (if throws then [(.unwind none, b)] else []) ++ [(.fall, b)]
  | .scope body, b => flows body b
  | .if_ then_ else_, b => flows then_ b ++ flowsElse else_ b
  | .block label body, b => (flows body b).map (leaveFlow label)
  | .loop label body, b =>
    ((headFlags label (fun b => flows body b) b).flatMap fun b =>
      (flows body b).filter fun x => x.1 ≠ .continue_ label).map (leaveFlow label)
  | .cleanup _ body unwind, b =>
    (flows body b).flatMap fun x =>
      if x.1 = .unwind none then
        (flows unwind x.2).map fun y => if y.1 = .fall then (.unwind none, y.2) else y
      else [x]
  | .break_ label, b => [(.break_ label, b)]
  | .continue_ label, b => [(.continue_ label, b)]
  | .return_ _, b => [(.return_ none, b)]
  | .throw_ _, b => [(.unwind none, b)]

def flowsElse : Option (List HandleStmt) → Bool → List Flow
  | none, b => [(.fall, b)]
  | some body, b => flows body b

def flows : List HandleStmt → Bool → List Flow
  | [], b => [(.fall, b)]
  | s :: rest, b =>
    (flowsStmt s b).flatMap fun x => if x.1 = .fall then flows rest x.2 else [x]

end

/-! ### The condition on loops -/

/-- The flags with which a statement falls through. -/
def fallFlags (flows : List Flow) : List Bool := (flows.filter fun x => x.1 = .fall).map Prod.snd

mutual

def closedStmt : HandleStmt → LiveEnv → Bool → Bool
  | .scope body, env, b => closed body env b
  | .if_ then_ else_, env, b => closed then_ env b && closedElse else_ env b
  | .block label body, env, b =>
    closed body { env with breaks := update env.breaks label env.fall } b
  | .loop label body, env, b =>
    let head := live ownership h body (env.inLoop label false)
    -- acquired by an iteration, and read at the head of the next
    !(!b && (backFlags label (flows ownership h body false)).contains true && head) &&
      (headFlags label (flows ownership h body) b).all fun b' =>
        closed body (env.inLoop label head) b'
  | .cleanup _ body unwind, env, b =>
    closed body { env with unwind := live ownership h unwind { env with fall := env.unwind } } b
  | _, _, _ => true

def closedElse : Option (List HandleStmt) → LiveEnv → Bool → Bool
  | none, _, _ => true
  | some body, env, b => closed body env b

/-- **No handle is exposed by a loop that acquires it**, on any way through a body that is
entered with the handle acquired or not. -/
def closed : List HandleStmt → LiveEnv → Bool → Bool
  | [], _, _ => true
  | s :: rest, env, b =>
    closedStmt s { env with fall := live ownership h rest env } b &&
      (fallFlags (flowsStmt ownership h s b)).all fun b' => closed rest env b'

end

end

/-! ### Handlers -/

/-- A statement with one way out: falling through. -/
def straight (ownership : OwnershipTable) : HandleStmt → Bool
  | .use _ | .dup _ _ _ | .free _ _ => true
  | .opaqueWork throws => !throws
  | .call callee _ _ _ => (ownership callee).any fun own => !own.throws
  | _ => false

def straightHandler (ownership : OwnershipTable) : HandleStmt → Bool
  | .cleanup _ _ unwind => unwind.all (straight ownership)
  | _ => true

/-- The handlers are straight-line and cannot throw. -/
def straightHandlers (ownership : OwnershipTable) (body : List HandleStmt) : Bool :=
  (walk body).all (straightHandler ownership)

/-! ### Monotonicity -/

/-- Fewer handles are read. -/
structure LiveEnv.Le (env env' : LiveEnv) : Prop where
  fall : env.fall = true → env'.fall = true
  breaks : ∀ label, env.breaks label = true → env'.breaks label = true
  continues : ∀ label, env.continues label = true → env'.continues label = true
  unwind : env.unwind = true → env'.unwind = true

theorem update_le {g g' : String → Bool} {b b' : Bool} (label : String)
    (hg : ∀ l, g l = true → g' l = true) (hb : b = true → b' = true) (l : String) :
    update g label b l = true → update g' label b' l = true := by
  by_cases hl : l = label
  · rw [hl, update_self, update_self]
    exact hb
  · rw [update_of_ne hl, update_of_ne hl]
    exact hg l

section
variable {ownership : OwnershipTable} {h : HandleId} {env env' : LiveEnv}

variable {r : Rel} {body rest : List HandleStmt} {b b' : Bool} {s : HandleStmt} {label : String}
    {fs : List Flow} {f f' : Frame}

theorem LiveEnv.Le.withFall (hle : env.Le env') (hb : b = true → b' = true) :
    ({ env with fall := b } : LiveEnv).Le { env' with fall := b' } :=
  ⟨hb, hle.breaks, hle.continues, hle.unwind⟩

theorem LiveEnv.Le.inLoop (hle : env.Le env') (label : String) (hb : b = true → b' = true) :
    (env.inLoop label b).Le (env'.inLoop label b') :=
  ⟨hle.fall, update_le label hle.breaks hle.fall, update_le label hle.continues hb, hle.unwind⟩

theorem LiveEnv.Le.refl (env : LiveEnv) : env.Le env :=
  ⟨id, fun _ => id, fun _ => id, id⟩

theorem live_mono : ∀ stmts env env', env.Le env' → live ownership h stmts env = true →
    live ownership h stmts env' = true := by
  intro stmts
  induction stmts using stmtsInduction with
  | nil => exact fun env env' hle => hle.fall
  | call callee args dest binding rest ihr =>
    intro env env' hle
    have hr := ihr env env' hle
    simp only [live, liveStmt]
    cases ownership callee with
    | none => exact id
    | some own =>
      simp only [Bool.or_eq_true, Bool.and_eq_true]
      exact Or.imp (Or.imp id (And.imp id hle.unwind)) (And.imp id hr)
  | use value rest ihr =>
    intro env env' hle
    simp only [live, liveStmt, Bool.or_eq_true]
    exact Or.imp id (ihr env env' hle)
  | scope body rest ihb ihr =>
    intro env env' hle
    exact ihb _ _ (hle.withFall (ihr env env' hle))
  | if_ then_ else_ rest iht ihe ihr =>
    intro env env' hle
    have hr := hle.withFall (ihr env env' hle)
    simp only [live, liveStmt, Bool.or_eq_true]
    refine Or.imp (iht _ _ hr) ?_
    cases else_ with
    | none => exact hr.fall
    | some body => exact ihe body rfl _ _ hr
  | block label body rest ihb ihr =>
    intro env env' hle
    have hr := ihr env env' hle
    exact ihb _ _ ⟨hr, update_le label hle.breaks hr, hle.continues, hle.unwind⟩
  | loop label body rest ihb ihr =>
    intro env env' hle
    exact ihb _ _ ((hle.withFall (ihr env env' hle)).inLoop label id)
  | break_ label rest ihr => exact fun env env' hle => hle.breaks label
  | continue_ label rest ihr => exact fun env env' hle => hle.continues label
  | return_ value rest ihr => exact fun _ _ _ => id
  | throw_ value rest ihr => exact fun env env' hle => hle.unwind
  | opaqueWork throws rest ihr =>
    intro env env' hle
    simp only [live, liveStmt, Bool.or_eq_true, Bool.and_eq_true]
    exact Or.imp (And.imp id hle.unwind) (ihr env env' hle)
  | dup value dest reason rest ihr =>
    intro env env' hle
    simp only [live, liveStmt, Bool.or_eq_true, Bool.and_eq_true]
    exact Or.imp id (And.imp id (ihr env env' hle))
  | free value reason rest ihr => exact fun env env' hle => ihr env env' hle
  | cleanup owner body unwind rest ihb ihu ihr =>
    intro env env' hle
    have hr := hle.withFall (ihr env env' hle)
    exact ihb _ _ ⟨hr.fall, hr.breaks, hr.continues, ihu _ _ (hr.withFall hle.unwind)⟩

/-- What is read at a loop's head is read at its back edges: one round is a fixpoint. -/
theorem live_loop (label : String) (body : List HandleStmt) (env : LiveEnv) :
    live ownership h body
        (env.inLoop label (live ownership h body (env.inLoop label false))) =
      live ownership h body (env.inLoop label false) := by
  cases hhead : live ownership h body (env.inLoop label false) with
  | false => exact hhead
  | true =>
    exact live_mono body _ _ ((LiveEnv.Le.refl env).inLoop label fun hc =>
      absurd hc Bool.false_ne_true) hhead

/-! ### Acquired stays acquired -/

theorem mem_backFlags : b ∈ backFlags label fs ↔ (.continue_ label, b) ∈ fs := by
  simp only [backFlags, mem_map, mem_filter, decide_eq_true_eq]
  constructor
  · rintro ⟨⟨o, b'⟩, ⟨hx, rfl⟩, rfl⟩
    exact hx
  · exact fun hx => ⟨_, ⟨hx, rfl⟩, rfl⟩

theorem mem_fallFlags : b ∈ fallFlags fs ↔ (.fall, b) ∈ fs := by
  simp only [fallFlags, mem_map, mem_filter, decide_eq_true_eq]
  constructor
  · rintro ⟨⟨o, b'⟩, ⟨hx, rfl⟩, rfl⟩
    exact hx
  · exact fun hx => ⟨_, ⟨hx, rfl⟩, rfl⟩

theorem leaveFlow_snd (label : String) (x : Flow) : (leaveFlow label x).2 = x.2 := by
  rw [leaveFlow]
  split <;> rfl

theorem flows_cons_true (hs : ∀ x ∈ flowsStmt ownership h s true, x.2 = true)
    (hr : ∀ x ∈ flows ownership h rest true, x.2 = true) :
    ∀ x ∈ flows ownership h (s :: rest) true, x.2 = true := by
  intro x hx
  rw [flows, mem_flatMap] at hx
  obtain ⟨y, hy, hx⟩ := hx
  have hy2 := hs y hy
  split at hx
  · rw [hy2] at hx
    exact hr x hx
  · rw [mem_singleton.mp hx]
    exact hy2

theorem flows_true : ∀ stmts, ∀ x ∈ flows ownership h stmts true, x.2 = true := by
  intro stmts
  induction stmts using stmtsInduction with
  | nil => simp [flows]
  | call callee args dest binding rest ihr =>
    refine flows_cons_true (fun x hx => ?_) ihr
    simp only [flowsStmt] at hx
    cases hown : ownership callee with
    | none => rw [hown] at hx; cases hx
    | some own =>
      rw [hown] at hx
      rcases mem_append.mp hx with hx | hx
      · split at hx
        · rw [mem_singleton.mp hx]
        · cases hx
      · rw [mem_singleton.mp hx, Bool.true_or]
  | scope body rest ihb ihr => exact flows_cons_true ihb ihr
  | if_ then_ else_ rest iht ihe ihr =>
    refine flows_cons_true (fun x hx => ?_) ihr
    rcases mem_append.mp hx with hx | hx
    · exact iht x hx
    · cases else_ with
      | none => rw [mem_singleton.mp hx]
      | some body => exact ihe body rfl x hx
  | block label body rest ihb ihr =>
    refine flows_cons_true (fun x hx => ?_) ihr
    obtain ⟨y, hy, rfl⟩ := mem_map.mp hx
    rw [leaveFlow_snd]
    exact ihb y hy
  | loop label body rest ihb ihr =>
    refine flows_cons_true (fun x hx => ?_) ihr
    obtain ⟨y, hy, rfl⟩ := mem_map.mp hx
    rw [leaveFlow_snd]
    obtain ⟨b, hb, hy⟩ := mem_flatMap.mp hy
    have hbt : b = true := by
      rcases mem_cons.mp hb with hb | hb
      · exact hb
      · exact ihb _ (mem_backFlags.mp hb)
    rw [hbt] at hy
    exact ihb y (mem_filter.mp hy).1
  | opaqueWork throws rest ihr =>
    refine flows_cons_true (fun x hx => ?_) ihr
    rcases mem_append.mp hx with hx | hx
    · split at hx
      · rw [mem_singleton.mp hx]
      · cases hx
    · rw [mem_singleton.mp hx]
  | cleanup owner body unwind rest ihb ihu ihr =>
    refine flows_cons_true (fun x hx => ?_) ihr
    obtain ⟨y, hy, hx⟩ := mem_flatMap.mp hx
    have hy2 := ihb y hy
    split at hx
    · obtain ⟨z, hz, rfl⟩ := mem_map.mp hx
      rw [hy2] at hz
      have hz2 := ihu z hz
      split
      all_goals exact hz2
    · rw [mem_singleton.mp hx]
      exact hy2
  | use _ rest ihr | free _ _ rest ihr
  | break_ _ rest ihr | continue_ _ rest ihr | return_ _ rest ihr | throw_ _ rest ihr =>
    exact flows_cons_true (fun x hx => by rw [mem_singleton.mp hx]) ihr
  | dup _ _ _ rest ihr =>
    exact flows_cons_true (fun x hx => by rw [mem_singleton.mp hx, Bool.true_or]) ihr

/-- The flags at a loop's head are closed under an iteration. -/
theorem headFlags_closed {b0 b1 : Bool} (h0 : b0 ∈ headFlags label (flows ownership h body) b)
    (h1 : (.continue_ label, b1) ∈ flows ownership h body b0) :
    b1 ∈ headFlags label (flows ownership h body) b := by
  by_cases hb : b0 = b
  · rw [hb] at h1
    exact mem_cons_of_mem _ (mem_backFlags.mpr h1)
  · have hback := (mem_cons.mp h0).resolve_left hb
    have hflow := mem_backFlags.mp hback
    cases b with
    | true => exact absurd (flows_true body _ hflow) hb
    | false =>
      have hb0 : b0 = true := by
        cases b0 with
        | false => exact absurd rfl hb
        | true => rfl
      rw [hb0] at h1 hback
      have hb1 : b1 = true := flows_true body _ h1
      rw [hb1]
      exact mem_cons_of_mem _ hback

/-! ### Executions follow the flows -/

/-- The exits an execution that goes on can take. -/
def Exit.Regular (o : Exit) : Prop := o ≠ .fault ∧ o ≠ .unheld

/-- The flow of an execution of a rule is among `fs`. -/
def Follows (h : HandleId) (r : Rel) (flows : Bool → List Flow) : Prop :=
  ∀ f o f', r f o f' → o.Regular → (o.kind, f'.acquired h) ∈ flows (f.acquired h)

theorem Follows.step {bad : Frame → Prop} {next : Frame → Frame} {flows : Bool → List Flow}
    (hnext : ∀ f, (.fall, (next f).acquired h) ∈ flows (f.acquired h)) :
    Follows h (stepRel bad next) flows := by
  rintro f o f' (⟨-, rfl, rfl⟩ | ⟨-, rfl, rfl⟩) hreg
  · exact absurd rfl hreg.1
  · exact hnext f

theorem acquire_acquired (f : Frame) (d h : HandleId) :
    (f.acquire d).acquired h = (f.acquired h || d = h) := by
  rw [Frame.acquire]
  by_cases hd : d = h
  · rw [hd]
    simp
  · simp [update_of_ne (Ne.symm hd), hd]

theorem passArgs_acquired {args : List (Option HandleId)} {owns : List ArgOwnership}
    (hp : f.passArgs args owns = some f') : f'.acquired = f.acquired := by
  induction args generalizing owns f with
  | nil =>
    rw [← Option.some.inj hp]
  | cons a args ih =>
    cases a with
    | none => exact ih hp
    | some a =>
      rw [Frame.passArgs] at hp
      split at hp
      · split at hp
        · exact nomatch hp
        · exact (ih hp).trans rfl
      · split at hp
        · exact nomatch hp
        · exact ih hp

theorem bindResult_acquired (f : Frame) (own : ResolvedOwnership) (dest : Option HandleId) :
    (f.bindResult own.result dest).acquired h = (f.acquired h || acquiresDest h own dest) := by
  rw [acquiresDest]
  cases dest with
  | none => cases own.result <;> simp [Frame.bindResult]
  | some d => cases own.result <;> simp [Frame.bindResult, acquire_acquired]

theorem follows_call (callee : String) (args : List (Option HandleId)) (dest : Option HandleId)
    (binding : Bool) : Follows h (callRel ownership callee args dest)
      (flowsStmt ownership h (.call callee args dest binding)) := by
  rintro f o f' ⟨own, hown, hrun⟩ hreg
  simp only [flowsStmt, hown]
  split at hrun
  · exact absurd hrun.1 hreg.1
  · next f1 hpass =>
    have hacq := congrFun (passArgs_acquired hpass) h
    rcases hrun with ⟨hthrows, rfl, rfl⟩ | ⟨rfl, rfl⟩
    · rw [hacq, if_pos hthrows]
      exact mem_append_left _ mem_cons_self
    · refine mem_append_right _ (mem_singleton.mpr ?_)
      rw [bindResult_acquired, hacq]
      rfl

theorem follows_leave {flows : Bool → List Flow} (label : String) (hr : Follows h r flows) :
    Follows h (Rel.leave label r) fun b =>
      (flows b).map (leaveFlow label) := by
  rintro f o f' (⟨rfl, hrun⟩ | ⟨hne, hrun⟩) hreg
  · exact mem_map.mpr ⟨_, hr _ _ _ hrun ⟨nofun, nofun⟩, if_pos rfl⟩
  · refine mem_map.mpr ⟨_, hr _ _ _ hrun hreg, if_neg fun hk => hne ?_⟩
    cases o <;> first | exact hk | exact nomatch hk

theorem follows_iterate (hr : Follows h r (flows ownership h body)) {o : Exit}
    (hrun : Iterate label r f o f') (hreg : o.Regular)
    (hb : f.acquired h ∈ headFlags label (flows ownership h body) b) :
    (o.kind, f'.acquired h) ∈ flowsStmt ownership h (.loop label body) b := by
  induction hrun with
  | again hbody _ ih =>
    exact ih hreg (headFlags_closed hb (hr _ _ _ hbody ⟨nofun, nofun⟩))
  | last hne hlast =>
    have hkind : ∀ o : Exit, o ≠ .continue_ label → o.kind ≠ .continue_ label := by
      intro o ho hk
      cases o <;> first | exact ho hk | exact nomatch hk
    refine mem_map.mpr ?_
    rcases hlast with ⟨rfl, hbody⟩ | ⟨hnb, hbody⟩
    · exact ⟨(.break_ label, _), mem_flatMap.mpr ⟨_, hb, mem_filter.mpr
        ⟨hr _ _ _ hbody ⟨nofun, nofun⟩, decide_eq_true (fun hc => nomatch hc)⟩⟩, if_pos rfl⟩
    · refine ⟨_, mem_flatMap.mpr ⟨_, hb, mem_filter.mpr
        ⟨hr _ _ _ hbody hreg, decide_eq_true (hkind _ hne)⟩⟩, if_neg fun hk => hnb ?_⟩
      rename_i o _
      cases o <;> first | exact hk | exact nomatch hk

theorem follows_cons {result : ResultOwnership}
    (hs : Follows h (runStmt ownership result s) (flowsStmt ownership h s))
    (hr : Follows h (runs ownership result rest) (flows ownership h rest)) :
    Follows h (runs ownership result (s :: rest)) (flows ownership h (s :: rest)) := by
  rintro f o f' (⟨f1, hrun, hrest⟩ | ⟨hne, hrun⟩) hreg
  · exact mem_flatMap.mpr ⟨_, hs _ _ _ hrun ⟨nofun, nofun⟩, by
      rw [if_pos (show Exit.kind .fall = .fall from rfl)]
      exact hr _ _ _ hrest hreg⟩
  · refine mem_flatMap.mpr ⟨_, hs _ _ _ hrun hreg, ?_⟩
    have hk : o.kind ≠ .fall := fun hk => by
      cases o <;> first | exact hne hk | exact nomatch hk
    rw [if_neg hk]
    exact mem_singleton.mpr rfl

/-- **The flow of an execution is a flow of its body.** -/
theorem runs_follows (result : ResultOwnership) : ∀ stmts,
    Follows h (runs ownership result stmts) (flows ownership h stmts) := by
  intro stmts
  induction stmts using stmtsInduction with
  | nil =>
    rintro f o f' ⟨rfl, rfl⟩ -
    exact mem_cons_self
  | call callee args dest binding rest ihr =>
    exact follows_cons (follows_call callee args dest binding) ihr
  | use value rest ihr => exact follows_cons (Follows.step fun _ => mem_cons_self) ihr
  | free value reason rest ihr =>
    exact follows_cons (Follows.step fun _ => mem_cons_self) ihr
  | dup value dest reason rest ihr =>
    refine follows_cons (Follows.step fun f => ?_) ihr
    rw [acquire_acquired]
    exact mem_cons_self
  | scope body rest ihb ihr => exact follows_cons ihb ihr
  | if_ then_ else_ rest iht ihe ihr =>
    refine follows_cons ?_ ihr
    rintro f o f' (hrun | hrun) hreg
    · exact mem_append_left _ (iht _ _ _ hrun hreg)
    · refine mem_append_right _ ?_
      cases else_ with
      | none =>
        obtain ⟨rfl, rfl⟩ := hrun
        exact mem_cons_self
      | some body => exact ihe body rfl _ _ _ hrun hreg
  | block label body rest ihb ihr => exact follows_cons (follows_leave label ihb) ihr
  | loop label body rest ihb ihr =>
    exact follows_cons (fun f o f' hrun hreg => follows_iterate ihb hrun hreg mem_cons_self)
      ihr
  | break_ label rest ihr | continue_ label rest ihr =>
    refine follows_cons ?_ ihr
    rintro f o f' ⟨rfl, rfl⟩ -
    exact mem_cons_self
  | return_ value rest ihr | throw_ value rest ihr =>
    refine follows_cons ?_ ihr
    rintro f o f' ⟨rfl, rfl⟩ hreg
    split at hreg
    · exact absurd rfl hreg.2
    · next hno =>
      rw [if_neg hno]
      exact mem_cons_self
  | opaqueWork throws rest ihr =>
    refine follows_cons ?_ ihr
    rintro f o f' ⟨rfl | ⟨hthrows, rfl⟩, rfl⟩ -
    · exact mem_append_right _ mem_cons_self
    · refine mem_append_left _ ?_
      rw [if_pos hthrows]
      exact mem_cons_self
  | cleanup owner body unwind rest ihb ihu ihr =>
    refine follows_cons ?_ ihr
    rintro f o f' (⟨hne, hrun⟩ | ⟨value, f1, o1, hrun, hhandler, ho⟩) hreg
    · refine mem_flatMap.mpr ⟨_, ihb _ _ _ hrun hreg, ?_⟩
      have hk : o.kind ≠ .unwind none := fun hk => by
        cases o <;> first | exact hne _ rfl | exact nomatch hk
      rw [if_neg hk]
      exact mem_singleton.mpr rfl
    · refine mem_flatMap.mpr ⟨_, ihb _ _ _ hrun ⟨nofun, nofun⟩, ?_⟩
      rw [if_pos (show Exit.kind (.unwind value) = .unwind none from rfl)]
      have hreg1 : o1.Regular := by
        by_cases hfall : o1 = .fall
        · rw [hfall]
          exact ⟨nofun, nofun⟩
        · rw [if_neg hfall] at ho
          exact ho ▸ hreg
      refine mem_map.mpr ⟨_, ihu _ _ _ hhandler hreg1, ?_⟩
      by_cases hfall : o1 = .fall
      · rw [if_pos hfall] at ho
        split at ho
        · exact absurd ho hreg.2
        · rw [ho, hfall]
          rfl
      · have hk : o1.kind ≠ .fall := fun hk => by
          cases o1 <;> first | exact hfall hk | exact nomatch hk
        rw [if_neg hfall] at ho
        rw [if_neg hk, ho]

/-! ### Thrown handles are held -/

/-- An execution that is left by a `throw` of a handle leaves it held. -/
def ThrowsHeld (r : Rel) : Prop := ∀ f v f', r f (.unwind (some v)) f' → 0 < f'.refs v

theorem ThrowsHeld.leave (hr : ThrowsHeld r) (label : String) : ThrowsHeld (Rel.leave label r) := by
  rintro f v f' (⟨hc, -⟩ | ⟨-, hrun⟩)
  · exact nomatch hc
  · exact hr f v f' hrun

theorem ThrowsHeld.andThen {k : Rel} (hr : ThrowsHeld r) (hk : ThrowsHeld k) :
    ThrowsHeld (Rel.andThen r k) := by
  rintro f v f' (⟨f1, -, hrun⟩ | ⟨-, hrun⟩)
  · exact hk f1 v f' hrun
  · exact hr f v f' hrun

theorem ThrowsHeld.iterate (hr : ThrowsHeld r) (label : String) : ThrowsHeld (Iterate label r) := by
  intro f v f' hrun
  generalize ho : Exit.unwind (some v) = o at hrun
  induction hrun with
  | again _ _ ih => exact ih ho
  | last _ hlast =>
    rw [← ho] at hlast
    exact hr.leave label _ v _ hlast

theorem ThrowsHeld.step {bad : Frame → Prop} {next : Frame → Frame} :
    ThrowsHeld (stepRel bad next) := by
  rintro f v f' (⟨-, hc, -⟩ | ⟨-, hc, -⟩) <;> exact nomatch hc

theorem throws_held (result : ResultOwnership) : ∀ stmts,
    ThrowsHeld (runs ownership result stmts) := by
  intro stmts
  induction stmts using stmtsInduction with
  | nil =>
    rintro f v f' ⟨hc, -⟩
    exact nomatch hc
  | call callee args dest binding rest ihr =>
    refine ThrowsHeld.andThen ?_ ihr
    rintro f v f' ⟨own, -, hrun⟩
    split at hrun
    · exact nomatch hrun.1
    · rcases hrun with ⟨-, hc, -⟩ | ⟨hc, -⟩ <;> exact nomatch hc
  | use _ rest ihr | free _ _ rest ihr | dup _ _ _ rest ihr => exact ThrowsHeld.step.andThen ihr
  | scope body rest ihb ihr => exact ihb.andThen ihr
  | if_ then_ else_ rest iht ihe ihr =>
    refine ThrowsHeld.andThen ?_ ihr
    rintro f v f' (hrun | hrun)
    · exact iht f v f' hrun
    · cases else_ with
      | none => exact nomatch hrun.1
      | some body => exact ihe body rfl f v f' hrun
  | block label body rest ihb ihr => exact (ihb.leave label).andThen ihr
  | loop label body rest ihb ihr => exact (ihb.iterate label).andThen ihr
  | break_ _ rest ihr | continue_ _ rest ihr =>
    exact ThrowsHeld.andThen (fun f v f' hrun => nomatch hrun.1) ihr
  | opaqueWork throws rest ihr =>
    refine ThrowsHeld.andThen ?_ ihr
    rintro f v f' ⟨hc | ⟨-, hc⟩, -⟩ <;> exact nomatch hc
  | return_ value rest ihr =>
    refine ThrowsHeld.andThen ?_ ihr
    rintro f v f' ⟨-, hc⟩
    split at hc <;> exact nomatch hc
  | throw_ value rest ihr =>
    refine ThrowsHeld.andThen ?_ ihr
    rintro f v f' ⟨rfl, ho⟩
    split at ho
    · exact nomatch ho
    · next hno =>
      obtain rfl := Exit.unwind.inj ho
      exact Int.not_le.mp fun hle => hno ⟨v, rfl, hle⟩
  | cleanup owner body unwind rest ihb ihu ihr =>
    refine ThrowsHeld.andThen ?_ ihr
    rintro f v f' (⟨hne, -⟩ | ⟨value, f1, o1, -, hhandler, ho⟩)
    · exact absurd rfl (hne _)
    · split at ho
      · split at ho
        · exact nomatch ho
        · next hno =>
          obtain rfl := Exit.unwind.inj ho
          exact Int.not_le.mp fun hle => hno ⟨v, rfl, hle⟩
      · rw [← ho] at hhandler
        exact ihu f1 v f' hhandler

end

end Js2Wasm.Refcount.Counts
