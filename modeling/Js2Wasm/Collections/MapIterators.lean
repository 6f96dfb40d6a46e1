import Js2Wasm.Collections.MapRuns

/-! # Live iterators over a native Map

An iterator is a map and an index into its vector of entries.  A step skips the tombstones
from the index on and gives the first live entry; an iterator that has ended parks its index
at the largest i32.

The iterator of the language walks a list of records that never gets shorter
(`Records.Cursor`).  Deleting and growing keep the two in step, since the vector keeps its
tombstones.  Clearing does not: it empties the vector and sets the count to 0, and the index
stays where it was, so entries that are added below it are skipped
(`cleared_map_diverges`).

The records of the language are the used part of the vector behind as many dead records as
earlier clears have left (`Tracks`).  An iterator is in step with its cursor when both have
the same filled records in front of them (`InStep`).  A change that fills no old record
keeps them in step, as long as a new record lies in front of both (`InStep.change`).

So the iterators of a map follow those of the language in every run in which a new entry is
never put below an iterator that still goes on, and no new key is -0, which the vector keeps
and the language does not (`iterators_behave`).
-/
namespace Js2Wasm.Collections
open List
open WordMemory (Halt add32 signed32 add32_of_lt)
open Records
open KeyedList (has)

/-- The index of an iterator that has ended. -/
def parked : Nat := 0x7fffffff

/-- `$MapIter`, without the map. -/
structure MapIter where
  index : Nat
  kind : Nat
deriving DecidableEq

/-- `$MapIterResult`. -/
inductive IterResult (α : Type) where
  | value (v : α)
  | pair (k v : α)
  | done
deriving DecidableEq

/-- What an iterator gives for an entry: the key, the pair or the value. -/
def resultOf {α : Type} (kind : Nat) (key value : α) : IterResult α :=
  if kind = 0 then .value key else if kind = 2 then .pair key value else .value value

/-- `__map_iter_new`. -/
def mapIterNew (kind : Nat) : MapIter := ⟨0, kind⟩

/-- `__map_iter_next`. -/
def mapIterNext (m : NativeMap) : Nat → MapIter → Except Halt (MapIter × IterResult AnyRef)
  | 0, _ => .error .outOfFuel
  | fuel + 1, it =>
    if signed32 m.entryCount ≤ signed32 it.index then .ok ({ it with index := parked }, .done)
    else
      match entryAt m.entries it.index with
      | .error h => .error h
      | .ok entry =>
        if entry.isLive then
          .ok ({ it with index := add32 it.index 1 }, resultOf it.kind entry.key entry.value)
        else mapIterNext m fuel { it with index := add32 it.index 1 }

/-! ### A map and its iterators -/

structure IterState where
  map : NativeMap
  iters : List MapIter

inductive IterOp where
  | iterNew (kind : Nat)
  | iterNext (j : Nat)
  | set (key value : AnyRef)
  | delete (key : AnyRef)
  | clear
deriving DecidableEq

inductive IterAnswer (α : Type) where
  | unit
  | iter (j : Nat)
  | flag (b : Bool)
  | result (r : IterResult α)
deriving DecidableEq

section
variable (W : World)

def iterStep (fuel : Nat) (s : IterState) : IterOp → Except Halt (IterState × IterAnswer AnyRef)
  | .iterNew kind => .ok ({ s with iters := s.iters ++ [mapIterNew kind] }, .iter s.iters.length)
  | .iterNext j =>
    match arrayGet s.iters j with
    | .error h => .error h
    | .ok it =>
      match mapIterNext s.map fuel it with
      | .error h => .error h
      | .ok (it, r) => .ok ({ s with iters := s.iters.set j it }, .result r)
  | .set key value =>
    match mapSet W fuel s.map key value with
    | .error h => .error h
    | .ok m => .ok ({ s with map := m }, .unit)
  | .delete key =>
    match mapDelete W fuel s.map key with
    | .error h => .error h
    | .ok (m, b) => .ok ({ s with map := m }, .flag b)
  | .clear => .ok ({ s with map := mapClear s.map }, .unit)

/-! ### The specification -/

/-- A map as its list of records, and iterators as cursors with their kinds. -/
structure RecordState where
  records : List (Option (JsValue × JsValue))
  cursors : List (Cursor × Nat)

/-- The answer of an iterator for what its cursor gave. -/
def recordResult (kind : Nat) : Option (JsValue × JsValue) → IterResult JsValue
  | some p => resultOf kind p.1 p.2
  | none => .done

def recordStep (a : RecordState) : IterOp → RecordState × IterAnswer JsValue
  | .iterNew kind => ({ a with cursors := a.cursors ++ [(.start, kind)] }, .iter a.cursors.length)
  | .iterNext j =>
    match a.cursors[j]? with
    | none => (a, .unit)
    | some (c, kind) =>
      ({ a with cursors := a.cursors.set j ((c.next a.records).1, kind) },
        .result (recordResult kind (c.next a.records).2))
  | .set key value =>
    ({ a with records := put svz a.records (keyOf W key) (denote W value) }, .unit)
  | .delete key =>
    ({ a with records := remove svz a.records (keyOf W key) },
      .flag (has svz a.records.reduceOption (keyOf W key)))
  | .clear => ({ a with records := clear a.records }, .unit)

end

def IterResult.map' {α β : Type} (f : α → β) : IterResult α → IterResult β
  | .value v => .value (f v)
  | .pair k v => .pair (f k) (f v)
  | .done => .done

def IterAnswer.map' {α β : Type} (f : α → β) : IterAnswer α → IterAnswer β
  | .unit => .unit
  | .iter j => .iter j
  | .flag b => .flag b
  | .result r => .result (r.map' f)

/-! ### One step of an iterator -/

variable {W : World} {H : KeyLaw} {m : NativeMap} {fuel : Nat} {it : MapIter}

/-- What a step finds. -/
inductive Steps (fuel : Nat) (m : NativeMap) (it : MapIter) : Prop
  | gives (i : Nat) (e : MapEntry)
      (step : mapIterNext m fuel it =
        .ok ({ it with index := i + 1 }, resultOf it.kind e.key e.value))
      (from_ : it.index ≤ i) (used : i < m.entryCount) (entry : m.entries[i]? = some (some e))
      (live : e.isLive = true)
      (skipped : ∀ j, it.index ≤ j → j < i → ∀ x, m.entries[j]? = some (some x) →
        x.isLive = false)
  | ends (step : mapIterNext m fuel it = .ok ({ it with index := parked }, .done))
      (none_left : ∀ j, it.index ≤ j → j < m.entryCount → ∀ x, m.entries[j]? = some (some x) →
        x.isLive = false)

theorem Sound.iterNext (h : Sound W H m) (n : Nat) : ∀ {it : MapIter} {fuel : Nat},
    m.entryCount ≤ it.index + n → it.index < 2 ^ 31 → n < fuel → Steps fuel m it := by
  have hfew := h.few
  induction n with
  | zero =>
    intro it fuel hn hi hf
    obtain ⟨fuel, rfl⟩ := Nat.exists_eq_succ_of_ne_zero hf.ne'
    refine .ends ?_ fun j hj hlt => absurd hlt (by lia)
    rw [mapIterNext, signed32_of_lt (by lia), signed32_of_lt hi, if_pos (by lia)]
  | succ n ih =>
    intro it fuel hn hi hf
    obtain ⟨fuel, rfl⟩ := Nat.exists_eq_succ_of_ne_zero (Nat.ne_of_gt (Nat.zero_lt_of_lt hf))
    by_cases hend : m.entryCount ≤ it.index
    · refine .ends ?_ fun j hj hlt => absurd hlt (by lia)
      rw [mapIterNext, signed32_of_lt (by lia), signed32_of_lt hi, if_pos (by lia)]
    · obtain ⟨e, he⟩ := h.full (i := it.index) (by lia)
      have hadd : add32 it.index 1 = it.index + 1 := add32_of_lt (by lia)
      have hstep : mapIterNext m (fuel + 1) it =
          if e.isLive then .ok ({ it with index := it.index + 1 }, resultOf it.kind e.key e.value)
          else mapIterNext m fuel { it with index := it.index + 1 } := by
        rw [mapIterNext, signed32_of_lt (by lia), signed32_of_lt hi, if_neg (by lia),
          entryAt_of he, hadd]
      cases hl : e.isLive with
      | true =>
        refine .gives it.index e ?_ .refl (by lia) he hl ?_
        · rw [hstep, if_pos hl]
        · exact fun j hj hlt => absurd hlt (by lia)
      | false =>
        have hskip : mapIterNext m (fuel + 1) it =
            mapIterNext m fuel { it with index := it.index + 1 } := by
          rw [hstep, if_neg (by rw [hl]; exact Bool.false_ne_true)]
        have hfree : ∀ j, it.index ≤ j → ¬it.index + 1 ≤ j → ∀ x,
            m.entries[j]? = some (some x) → x.isLive = false := by
          intro j hj hge x hx
          have hji : j = it.index := by lia
          subst hji
          rw [he] at hx
          rw [← Option.some.inj (Option.some.inj hx)]
          exact hl
        cases @ih { it with index := it.index + 1 } fuel
            (show m.entryCount ≤ it.index + 1 + n by lia) (show it.index + 1 < 2 ^ 31 by lia)
            (by lia) with
        | gives i e' step from_ used entry live skipped =>
          refine .gives i e' ?_ (Nat.le_of_succ_le from_) used entry live fun j hj hlt => ?_
          · rw [hskip, step]
          · by_cases hge : it.index + 1 ≤ j
            · exact skipped j hge hlt
            · exact hfree j hj hge
        | ends step none_left =>
          refine .ends ?_ fun j hj hlt => ?_
          · rw [hskip, step]
          · by_cases hge : it.index + 1 ≤ j
            · exact none_left j hge hlt
            · exact hfree j hj hge

/-! ## Iterators that stay in step -/

variable {base : Nat}
  {r r' : List (Option (JsValue × JsValue))} {ck : Cursor × Nat}

/-- The iterator and the cursor have the same filled records in front of them. -/
structure InStep (r : List (Option (JsValue × JsValue))) (base : Nat) (it : MapIter)
    (ck : Cursor × Nat) : Prop where
  kind : it.kind = ck.2
  stopped : ck.1.done = true → it.index = parked
  low : ck.1.done = false → it.index ≤ 2 ^ 30 + 1
  fair : ck.1.Fair (replicate base none ++ r)
  agree : ck.1.done = false → ∀ i p, r[i]? = some (some p) →
    (it.index ≤ i ↔ ck.1.index ≤ base + i)

theorem inStep_new (r : List (Option (JsValue × JsValue))) (base kind : Nat) :
    InStep r base (mapIterNew kind) (.start, kind) where
  kind := rfl
  stopped h := nomatch h
  low _ := Nat.zero_le _
  fair := Cursor.fair_start _
  agree _ i _ _ := ⟨fun _ => Nat.zero_le _, fun _ => Nat.zero_le i⟩

theorem InStep.change (h : InStep r base it ck) (hr : Ages r r')
    (hnew : ∀ i p, r.length ≤ i → r'[i]? = some (some p) → ck.1.done = false →
      it.index ≤ r.length) : InStep r' base it ck where
  kind := h.kind
  stopped := h.stopped
  low := h.low
  fair := h.fair.ages (hr.behind base)
  agree hd i p hp := by
    by_cases hi : i < r.length
    · obtain ⟨q, hq⟩ := hr.2 i hi p hp
      exact h.agree hd i q hq
    · -- a new record is in front of both
      have hge := Nat.le_of_not_lt hi
      have hindex := hnew i p hge hp hd
      have hinside := h.fair.inside
      rw [length_append, length_replicate] at hinside
      exact ⟨fun _ => by lia, fun _ => by lia⟩

/-- After a clear no record is in front of either. -/
theorem InStep.clear (h : InStep r base it ck) : InStep [] (base + r.length) it ck where
  kind := h.kind
  stopped := h.stopped
  low := h.low
  fair := by
    have hfair := h.fair.ages (ages_clear _)
    rw [clear_behind] at hfair
    rw [append_nil]
    exact hfair
  agree _ _ _ hp := nomatch hp

/-- A step of an iterator answers as its cursor does. -/
theorem InStep.next (h : InStep (slots W m) base it ck) (hs : Sound W H m)
    (hplain : ∀ k, H.keeps k → keyOf W k = denote W k) (hf : 2 ^ 32 ≤ fuel) :
    ∃ it' res, mapIterNext m fuel it = .ok (it', res) ∧
      res.map' (denote W) =
        recordResult ck.2 (ck.1.next (replicate base none ++ slots W m)).2 ∧
      InStep (slots W m) base it'
        ((ck.1.next (replicate base none ++ slots W m)).1, ck.2) := by
  have hfew := hs.few
  cases hd : ck.1.done with
  | true =>
    have hindex := h.stopped hd
    have hpark : m.entryCount ≤ it.index + 0 := by
      rw [hindex, parked]
      lia
    have hlow : it.index < 2 ^ 31 := by
      rw [hindex]
      decide
    rw [next_of_done hd]
    cases hs.iterNext 0 hpark hlow (Nat.lt_of_lt_of_le (by decide) hf) with
    | gives i e step from_ used entry live skipped => exact absurd used (by lia)
    | ends step none_left =>
      refine ⟨_, _, step, rfl, h.kind, fun _ => rfl, fun hd' => ?_, h.fair, fun hd' => ?_⟩
      all_goals
        rw [hd] at hd'
        exact nomatch hd'
  | false =>
    have hlow := h.low hd
    have hfair := h.fair.next
    cases @Sound.iterNext W H m hs m.entryCount it fuel (by lia) (by lia) (by lia) with
    | gives i e step from_ used entry live skipped =>
      have hslot := slots_of (W := W) used entry live
      have hfront := (h.agree hd i _ hslot).mp from_
      cases hn : ck.1.next (replicate base none ++ slots W m) with
      | mk c' out =>
        cases out with
        | none =>
          obtain ⟨hfree, -⟩ := next_none hn hd
          exact absurd (by rw [getElem?_behind]; exact hslot) (hfree (base + i) hfront _)
        | some p =>
          obtain ⟨-, j, hj, hget, hfree, rfl⟩ := next_some hn
          obtain ⟨i', rfl, hi'⟩ := filled_behind hget
          obtain ⟨e', -, he', hl', -⟩ := slots_some hi'
          have hge : ¬i' < i := by
            intro hlt
            have hlive := skipped i' ((h.agree hd i' _ hi').mpr hj) hlt e' he'
            rw [hl'] at hlive
            exact nomatch hlive
          have hle : ¬i < i' := by
            intro hlt
            exact hfree (base + i) hfront (by lia) _ (by rw [getElem?_behind]; exact hslot)
          have hii : i' = i := by lia
          subst hii
          rw [hslot] at hi'
          have hp := Option.some.inj (Option.some.inj hi')
          rw [hn] at hfair
          refine ⟨_, _, step, ?_, h.kind, fun hd' => (nomatch hd'), fun _ => ?_, hfair, ?_⟩
          · rw [← h.kind, ← hp, hplain e.key (hs.hashed used entry live).2.2]
            show (resultOf it.kind e.key e.value).map' (denote W) =
              resultOf it.kind (denote W e.key) (denote W e.value)
            rw [resultOf, resultOf]
            split
            · rfl
            · split <;> rfl
          · show i' + 1 ≤ 2 ^ 30 + 1
            lia
          · intro _ j q _
            show i' + 1 ≤ j ↔ base + i' + 1 ≤ base + j
            lia
    | ends step none_left =>
      cases hn : ck.1.next (replicate base none ++ slots W m) with
      | mk c' out =>
        cases out with
        | none =>
          obtain ⟨-, rfl⟩ := next_none hn hd
          rw [hn] at hfair
          exact ⟨_, _, step, rfl, h.kind, fun _ => rfl, fun hd' => (nomatch hd'), hfair,
            fun hd' => (nomatch hd')⟩
        | some p =>
          obtain ⟨-, j, hj, hget, -, -⟩ := next_some hn
          obtain ⟨i, rfl, hi⟩ := filled_behind hget
          obtain ⟨e, hused, he, hl, -⟩ := slots_some hi
          have hlive := none_left i ((h.agree hd i p hi).mpr hj) hused e he
          rw [hl] at hlive
          exact nomatch hlive

/-! ### A map with its iterators -/

/-- The state is in step with the records and the cursors of the language. -/
structure Tracks (W : World) (H : KeyLaw) (s : IterState) (a : RecordState) (base : Nat) :
    Prop where
  sound : Sound W H s.map
  records : a.records = replicate base none ++ slots W s.map
  length : s.iters.length = a.cursors.length
  inStep : ∀ {j : Nat} {it : MapIter} {ck : Cursor × Nat}, s.iters[j]? = some it →
    a.cursors[j]? = some ck → InStep (slots W s.map) base it ck

/-- What a step asks of the state: a new key is not -0, there is room for it, and its entry
lies in front of every iterator that has not ended. -/
def IterFits (W : World) (s : IterState) : IterOp → Prop
  | .set key _ => has svz (pairs W s.map) (keyOf W key) = true ∨
      s.map.entryCount ≤ 2 ^ 30 ∧ s.map.buckets.length ≤ 2 ^ 30 ∧ keyOf W key = denote W key ∧
        ∀ it ∈ s.iters, it.index = parked ∨ it.index ≤ s.map.entryCount
  | _ => True

def IterOp.keys : IterOp → List AnyRef
  | .set key _ => [key]
  | .delete key => [key]
  | _ => []

/-- A step names an iterator that was made before it. -/
def IterOp.Names (n : Nat) : IterOp → Prop
  | .iterNext j => j < n
  | _ => True

def IterOp.makes : IterOp → Nat
  | .iterNew _ => 1
  | _ => 0

def NamesIters : Nat → List IterOp → Prop
  | _, [] => True
  | n, op :: ops => op.Names n ∧ NamesIters (n + op.makes) ops

variable {s : IterState} {a : RecordState} {key : AnyRef}

theorem Tracks.pairs_eq (h : Tracks W H s a base) : a.records.reduceOption = pairs W s.map := by
  rw [h.records, reduceOption_behind]
  rfl

/-- The map changes and its iterators stay where they are. -/
theorem Tracks.change (h : Tracks W H s a base) {m' : NativeMap}
    {records' : List (Option (JsValue × JsValue))} (hs : Sound W H m')
    (hrec : records' = replicate base none ++ slots W m')
    (hages : Ages (slots W s.map) (slots W m'))
    (hnew : ∀ i p, (slots W s.map).length ≤ i → (slots W m')[i]? = some (some p) →
      ∀ it ∈ s.iters, it.index = parked ∨ it.index ≤ (slots W s.map).length) :
    Tracks W H { s with map := m' } { a with records := records' } base where
  sound := hs
  records := hrec
  length := h.length
  inStep {j it ck} hj hc := by
    have hstep := h.inStep hj hc
    refine hstep.change hages fun i p hi hp hd => ?_
    rcases hnew i p hi hp it (mem_of_getElem? hj) with hpark | hle
    · have hlow := hstep.low hd
      rw [hpark] at hlow
      exact absurd hlow (by decide)
    · exact hle

theorem length_remove_slots (m : NativeMap) (k : JsValue) :
    (remove svz (slots W m) k).length = (slots W m).length := length_map _

/-- A step follows the language. -/
theorem iterStep_spec (h : Tracks W H s a base)
    (hplain : ∀ k, H.keeps k ↔ keyOf W k = denote W k) (hf : 2 ^ 32 ≤ fuel) (op : IterOp)
    (hnames : op.Names s.iters.length) (hk : ∀ k ∈ op.keys, Expected W H k)
    (hfits : IterFits W s op) :
    ∃ s' v base', iterStep W fuel s op = .ok (s', v) ∧
      v.map' (denote W) = (recordStep W a op).2 ∧
      Tracks W H s' (recordStep W a op).1 base' ∧
      s'.iters.length = s.iters.length + op.makes := by
  cases op with
  | iterNew kind =>
    refine ⟨_, _, base, rfl, congrArg IterAnswer.iter h.length, ?_, length_append⟩
    refine ⟨h.sound, h.records, ?_, fun {j it ck} hj hc => ?_⟩
    · show (s.iters ++ [_]).length = (a.cursors ++ [_]).length
      rw [length_append, length_append, h.length]
      rfl
    · have hj' : (s.iters ++ [mapIterNew kind])[j]? = some it := hj
      have hc' : (a.cursors ++ [(Cursor.start, kind)])[j]? = some ck := hc
      by_cases hlt : j < s.iters.length
      · rw [getElem?_append_left hlt] at hj'
        rw [getElem?_append_left (h.length ▸ hlt)] at hc'
        exact h.inStep hj' hc'
      · have hge := Nat.le_of_not_lt hlt
        rw [getElem?_append_right hge] at hj'
        rw [getElem?_append_right (h.length ▸ hge)] at hc'
        obtain rfl := mem_singleton.mp (mem_of_getElem? hj')
        obtain rfl := mem_singleton.mp (mem_of_getElem? hc')
        exact inStep_new _ _ kind
  | iterNext j =>
    have hit := getElem?_eq_getElem hnames
    have hlt : j < a.cursors.length := h.length ▸ hnames
    have hck := getElem?_eq_getElem hlt
    obtain ⟨it', res, hok, hres, hstep⟩ :=
      (h.inStep hit hck).next h.sound (fun k => (hplain k).mp) hf
    have hrec : recordStep W a (.iterNext j) =
        ({ a with cursors := a.cursors.set j ((a.cursors[j].1.next a.records).1, a.cursors[j].2) },
          .result (recordResult a.cursors[j].2 (a.cursors[j].1.next a.records).2)) := by
      rw [recordStep, hck]
    rw [hrec]
    rw [← h.records] at hres hstep
    refine ⟨{ s with iters := s.iters.set j it' }, .result res, base, ?_, ?_, ?_,
      length_set⟩
    · rw [iterStep, arrayGet_of hit]
      simp only [hok]
    · exact congrArg IterAnswer.result hres
    · refine ⟨h.sound, h.records, ?_, fun {i it ck} hi hc => ?_⟩
      · show (s.iters.set j it').length = (a.cursors.set j _).length
        rw [length_set, length_set, h.length]
      · have hi' : (s.iters.set j it')[i]? = some it := hi
        have hc' : (a.cursors.set j
          ((a.cursors[j].1.next a.records).1, a.cursors[j].2))[i]? = some ck := hc
        by_cases hji : j = i
        · subst hji
          rw [getElem?_set_self hnames] at hi'
          rw [getElem?_set_self hlt] at hc'
          cases hi'
          cases hc'
          exact hstep
        · rw [getElem?_set_ne hji] at hi' hc'
          exact h.inStep hi' hc'
  | set key value =>
    have hkey := hk key mem_cons_self
    have hroom : Roomy W s.map key := by
      rcases hfits with hhas | ⟨hfew, hb, -⟩
      · exact Or.inl hhas
      · exact Or.inr ⟨hfew, hb⟩
    have hkeep : has svz (pairs W s.map) (keyOf W key) = false → H.keeps key := by
      intro habs
      rcases hfits with hhas | ⟨-, -, hcanon, -⟩
      · rw [habs] at hhas
        cases hhas
      · exact (hplain key).mpr hcanon
    obtain ⟨m', hok, hsound, hslots⟩ := h.sound.mapSet hkey hf hroom hkeep value
    refine ⟨{ s with map := m' }, .unit, base, ?_, rfl, ?_, rfl⟩
    · rw [iterStep]
      simp only [hok]
    · refine h.change hsound ?_ ?_ fun i p hi hp => ?_
      · rw [h.records, put_behind, hslots]
      · rw [hslots]
        exact ages_put _ _ _
      · have hlen := length_slots (W := W) h.sound.inside
        rcases hfits with hhas | ⟨-, -, -, hfront⟩
        · -- a key that is there gets no new record
          have hlen' : (slots W m').length = (slots W s.map).length := by
            rw [pairs] at hhas
            rw [hslots, put, if_pos hhas, length_map]
          have hlt := (List.getElem?_eq_some_iff.mp hp).1
          exact absurd hlt (by lia)
        · rw [hlen]
          exact hfront
  | delete key =>
    have hkey := hk key mem_cons_self
    obtain ⟨m', hok, hsound, hslots⟩ := h.sound.mapDelete hkey hf
    refine ⟨{ s with map := m' }, .flag (has svz (pairs W s.map) (keyOf W key)), base, ?_, ?_, ?_,
      rfl⟩
    · rw [iterStep]
      simp only [hok]
    · rw [recordStep, h.pairs_eq]
      rfl
    · refine h.change hsound ?_ ?_ fun i p hi hp => ?_
      · rw [h.records, remove_behind, hslots]
      · rw [hslots]
        exact ages_remove _ _
      · rw [hslots] at hp
        have hlt := (List.getElem?_eq_some_iff.mp hp).1
        rw [length_remove_slots] at hlt
        exact absurd hlt (by lia)
  | clear =>
    refine ⟨{ s with map := mapClear s.map }, .unit, base + (slots W s.map).length, rfl, rfl, ?_,
      rfl⟩
    refine ⟨sound_mapNew _, ?_, h.length, fun hj hc => (h.inStep hj hc).clear⟩
    show clear a.records = _
    rw [h.records, clear_behind]
    exact (append_nil _).symm

/-! ### Every run -/

/-- The run: as long as its steps fit, each returns and answers as the language does, and
every cursor of the language has given each record at most once and none it should not. -/
def Iterates (W : World) (fuel : Nat) : IterState → RecordState → List IterOp → Prop
  | _, _, [] => True
  | s, a, op :: ops => IterFits W s op →
    ∃ s' v, iterStep W fuel s op = .ok (s', v) ∧ v.map' (denote W) = (recordStep W a op).2 ∧
      (∀ ck ∈ (recordStep W a op).1.cursors, ck.1.Fair (recordStep W a op).1.records) ∧
      Iterates W fuel s' (recordStep W a op).1 ops

theorem Tracks.fair (h : Tracks W H s a base) : ∀ ck ∈ a.cursors, ck.1.Fair a.records := by
  intro ck hck
  obtain ⟨j, hj⟩ := getElem?_of_mem hck
  have hlt : j < s.iters.length := h.length ▸ (List.getElem?_eq_some_iff.mp hj).1
  rw [h.records]
  exact (h.inStep (getElem?_eq_getElem hlt) hj).fair

theorem Tracks.run (hplain : ∀ k, H.keeps k ↔ keyOf W k = denote W k) (hf : 2 ^ 32 ≤ fuel)
    (ops : List IterOp) : ∀ {s : IterState} {a : RecordState} {base : Nat},
    Tracks W H s a base → NamesIters s.iters.length ops →
    (∀ op ∈ ops, ∀ k ∈ op.keys, Expected W H k) → Iterates W fuel s a ops := by
  induction ops with
  | nil => exact fun _ _ _ => trivial
  | cons op ops ih =>
    intro s a base h hnames hk hfits
    obtain ⟨s', v, base', hok, hv, h', hlen⟩ :=
      iterStep_spec h hplain hf op hnames.1 (hk op mem_cons_self) hfits
    refine ⟨s', v, hok, hv, h'.fair, ih h' ?_ fun op' hop => hk op' (mem_cons_of_mem op hop)⟩
    rw [hlen]
    exact hnames.2

/-- **Live iterators follow the language.**  Where the NaN keys have one hash, every run of
steps and changes of a new map whose new keys fit answers as the records and the cursors of
the language do. -/
theorem iterators_behave (W : World) (kind : Nat) (ops : List IterOp)
    (hnames : NamesIters 0 ops)
    (hnan : ∀ k ∈ ops.flatMap IterOp.keys, ∀ k' ∈ ops.flatMap IterOp.keys,
      (denote W k).isNaN = true → (denote W k').isNaN = true →
      hashAnyref W k = hashAnyref W k')
    (fuel : Nat) (hfuel : 2 ^ 32 ≤ fuel) :
    Iterates W fuel ⟨mapNew kind, []⟩ ⟨[], []⟩ ops := by
  obtain ⟨nanHash, hexp⟩ := exists_expected W _ (fun k => keyOf W k = denote W k) hnan
  have hstart : Tracks W ⟨nanHash, fun k => keyOf W k = denote W k⟩ ⟨mapNew kind, []⟩ ⟨[], []⟩
      0 := ⟨sound_mapNew kind, rfl, rfl, fun hj => nomatch hj⟩
  refine hstart.run (fun _ => Iff.rfl) hfuel ops hnames ?_
  exact fun op hop k hk => hexp k (mem_flatMap.mpr ⟨op, hop, hk⟩)

/-! ### Clearing under an iterator -/

/-- The answers of a run. -/
def iterRun (W : World) (fuel : Nat) :
    IterState → List IterOp → Except Halt (List (IterAnswer AnyRef))
  | _, [] => .ok []
  | s, op :: ops =>
    match iterStep W fuel s op with
    | .error h => .error h
    | .ok (s, v) => (iterRun W fuel s ops).map (v :: ·)

def recordRun (W : World) : RecordState → List IterOp → List (IterAnswer JsValue)
  | _, [] => []
  | a, op :: ops => (recordStep W a op).2 :: recordRun W (recordStep W a op).1 ops

/-- Every reference is an object. -/
def objects : World := ⟨fun _ => .other, fun x => x, fun _ h => h, .null⟩

/-- One entry is given, the map is cleared and another entry is added: the iterator has ended,
that of the language gives the new entry. -/
theorem cleared_map_diverges :
    iterRun objects 4 ⟨mapNew 0, []⟩
        [.set (.ref 1) .null, .iterNew 0, .iterNext 0, .clear, .set (.ref 2) .null, .iterNext 0] =
      .ok [.unit, .iter 0, .result (.value (.ref 1)), .unit, .unit, .result .done] ∧
    recordRun objects ⟨[], []⟩
        [.set (.ref 1) .null, .iterNew 0, .iterNext 0, .clear, .set (.ref 2) .null, .iterNext 0] =
      [.unit, .iter 0, .result (.value (.object 1)), .unit, .unit,
        .result (.value (.object 2))] := by
  constructor <;> decide

/-- A key that is -0 is kept and given as it is; the language keeps +0. -/
example : let W : World := { objects with contents := fun _ => .number 0x8000000000000000#64 }
    iterRun W 4 ⟨mapNew 0, []⟩ [.set (.ref 1) .null, .iterNew 0, .iterNext 0] =
      .ok [.unit, .iter 0, .result (.value (.ref 1))] ∧
    recordRun W ⟨[], []⟩ [.set (.ref 1) .null, .iterNew 0, .iterNext 0] =
      [.unit, .iter 0, .result (.value (.number 0#64))] := by
  constructor <;> decide

/-- An entry is deleted under an iterator and comes back. -/
theorem iterators_behave_deleted :
    Iterates objects (2 ^ 32) ⟨mapNew 0, []⟩ ⟨[], []⟩
      [.set (.ref 1) .null, .iterNew 2, .delete (.ref 1), .set (.ref 1) .null, .iterNext 0] :=
  iterators_behave objects 0
    [.set (.ref 1) .null, .iterNew 2, .delete (.ref 1), .set (.ref 1) .null, .iterNext 0]
    ⟨trivial, trivial, trivial, trivial, Nat.one_pos, trivial⟩ (by decide) (2 ^ 32)
    .refl

end Js2Wasm.Collections
