import Js2Wasm.Collections.MapGrowth

/-! # The native Map refines the Map of the language

The specification of a map is the ordered list of its pairs under SameValueZero.  Any
sequence of calls on any number of maps follows it: each call returns, answers what the
lists answer and leaves well-formed maps (`maps_behave`).

Two things are asked.  The NaN keys of the calls have one hash: `__hash_anyref` folds the
payload of a NaN, so two NaN that SameValueZero takes for one key may go to different
buckets (`nan_payloads_diverge`).  A call that adds a key finds counts below the point where
the doubling of the vector or of the buckets wraps to zero.
-/
namespace Js2Wasm.Collections
open List
open WordMemory (Halt)
open Chains
open KeyedList (has)

variable {W : World} {H : KeyLaw} {m : NativeMap} {fuel : Nat}

/-! ### The specification -/

def Answer.map' {α β : Type} (f : α → β) : Answer α → Answer β
  | .unit => .unit
  | .map i => .map i
  | .value v => .value (f v)
  | .flag b => .flag b
  | .count n => .count n

section
variable (W : World)

/-- A call on maps that are ordered lists of pairs. -/
def listStep (ls : List (List (JsValue × JsValue))) :
    MapOp → List (List (JsValue × JsValue)) × Answer JsValue
  | .new _ => (ls ++ [[]], .map ls.length)
  | .set i key value =>
    (ls.modify i fun l => KeyedList.set svz l (keyOf W key) (denote W value), .map i)
  | .get i key =>
    (ls, .value ((ls[i]?.bind fun l => KeyedList.get? svz l (keyOf W key)).getD
      (denote W W.missing)))
  | .has i key => (ls, .flag (ls[i]?.elim false fun l => has svz l (keyOf W key)))
  | .delete i key =>
    (ls.modify i fun l => KeyedList.delete svz l (keyOf W key),
      .flag (ls[i]?.elim false fun l => has svz l (keyOf W key)))
  | .clear i => (ls.modify i fun _ => [], .unit)
  | .size i => (ls, .count (ls[i]?.elim 0 List.length))

/-- The answers of a run. -/
def mapRun (fuel : Nat) : List NativeMap → List MapOp → Except Halt (List (Answer AnyRef))
  | _, [] => .ok []
  | s, op :: ops =>
    match mapStep W fuel s op with
    | .error h => .error h
    | .ok (s, v) => (mapRun fuel s ops).map (v :: ·)

def listRun : List (List (JsValue × JsValue)) → List MapOp → List (Answer JsValue)
  | _, [] => []
  | ls, op :: ops => (listStep W ls op).2 :: listRun (listStep W ls op).1 ops

/-- A map whose chains, hashes and counts are as they should be. -/
structure WellFormed (m : NativeMap) : Prop where
  chains : ∀ {b : Nat} {head : Int}, m.buckets[b]? = some head →
    ∃ is, Chain (nextOf m.entries) head is ∧ is.Nodup ∧
      ∀ i e, i < m.entryCount → m.entries[i]? = some (some e) → e.isLive = true →
        (i ∈ is ↔ bucketOf e.hash m.buckets.length = b)
  bucket_lt : ∀ hash, bucketOf hash m.buckets.length < m.buckets.length
  filled : ∀ {i : Nat}, i < m.entryCount → ∃ e, m.entries[i]? = some (some e)
  hashed : ∀ {i : Nat} {e : MapEntry}, i < m.entryCount → m.entries[i]? = some (some e) →
    e.isLive = true → e.hash = hashAnyref W e.key
  counted : m.liveCount = ((m.entries.take m.entryCount).countP fun x => x.any (·.isLive))

/-- What a call that adds a key asks of its map. -/
def Fits (s : List NativeMap) : MapOp → Prop
  | .set i key _ => ∀ m, s[i]? = some m → Roomy W m key
  | _ => True

/-- The run of calls: as long as they fit, each returns, answers what the lists answer and
leaves well-formed maps with the pairs of the lists. -/
def Behaves (fuel : Nat) :
    List NativeMap → List (List (JsValue × JsValue)) → List MapOp → Prop
  | _, _, [] => True
  | s, ls, op :: ops => Fits W s op →
    ∃ s' v, mapStep W fuel s op = .ok (s', v) ∧ v.map' (denote W) = (listStep W ls op).2 ∧
      s'.map (pairs W) = (listStep W ls op).1 ∧ (∀ m ∈ s', WellFormed W m) ∧
      Behaves fuel s' (listStep W ls op).1 ops

end

/-- The keys a call is given. -/
def MapOp.keys : MapOp → List AnyRef
  | .set _ key _ => [key]
  | .get _ key => [key]
  | .has _ key => [key]
  | .delete _ key => [key]
  | _ => []

/-- The maps a call names are among the first `n`. -/
def MapOp.Names (n : Nat) : MapOp → Prop
  | .new _ => True
  | .set i _ _ => i < n
  | .get i _ => i < n
  | .has i _ => i < n
  | .delete i _ => i < n
  | .clear i => i < n
  | .size i => i < n

def MapOp.makes : MapOp → Nat
  | .new _ => 1
  | _ => 0

/-- Every call names maps that were made before it. -/
def NamesMade : Nat → List MapOp → Prop
  | _, [] => True
  | n, op :: ops => op.Names n ∧ NamesMade (n + op.makes) ops

/-! ### Well-formed maps -/

theorem length_reduceOption {α : Type} (l : List (Option MapEntry))
    (f : Option MapEntry → Option α) (hf : ∀ x, (f x).isSome = x.any (·.isLive)) :
    (l.map f).reduceOption.length = l.countP fun x => x.any (·.isLive) := by
  induction l with
  | nil => rfl
  | cons x l ih =>
    rw [map_cons, countP_cons, ← hf x]
    cases hx : f x with
    | none =>
      rw [reduceOption_cons_of_none, ih]
      rfl
    | some p =>
      rw [reduceOption_cons_of_some, length_cons, ih]
      rfl

theorem isSome_slotOf (x : Option MapEntry) : (slotOf W x).isSome = x.any (·.isLive) := by
  cases x with
  | none => rfl
  | some e =>
    rw [slotOf, Option.any_some]
    cases e.isLive <;> rfl

theorem Sound.wellFormed (h : Sound W H m) : WellFormed W m where
  chains {b head} hb := by
    obtain ⟨chains, ht⟩ := h.linked
    have hlt : b < m.buckets.length := (List.getElem?_eq_some_iff.mp hb).1
    refine ⟨chains b, ht.chain hb, ?_, fun i e hi he hl => ?_⟩
    · exact (ht.sorted hlt).imp fun hgt => hgt.ne'
    · have hhome : homeOf m.buckets.length m.entries i =
          some (bucketOf e.hash m.buckets.length) := by rw [homeOf_of he, if_pos hl]
      constructor
      · exact fun hmem => ht.own hlt hmem hhome
      · intro heq
        rw [← heq]
        exact ht.covers hi hhome
  bucket_lt := h.bucket_lt
  filled := h.full
  hashed hi he hl := (h.hashed hi he hl).1
  counted := by
    rw [h.counted, pairs, slots]
    exact length_reduceOption _ _ isSome_slotOf

/-! ### One call -/

variable {s : List NativeMap} {m' : NativeMap} {i : Nat}

theorem getElem?_pairs (hi : s[i]? = some m) : (s.map (pairs W))[i]? = some (pairs W m) := by
  rw [getElem?_map, hi]
  rfl

theorem map_set_pairs {f : List (JsValue × JsValue) → List (JsValue × JsValue)}
    (hi : s[i]? = some m) (hp : pairs W m' = f (pairs W m)) :
    (s.set i m').map (pairs W) = (s.map (pairs W)).modify i f := by
  apply ext_getElem?
  intro j
  rw [map_set, hp, getElem?_set, length_map]
  by_cases hij : i = j
  · subst hij
    rw [if_pos rfl, if_pos (List.getElem?_eq_some_iff.mp hi).1, List.getElem?_modify_eq,
      getElem?_pairs hi]
    rfl
  · rw [if_neg hij, getElem?_modify_ne f _ hij]

theorem sound_set (h : ∀ m ∈ s, Sound W H m) (hm : Sound W H m') :
    ∀ m ∈ s.set i m', Sound W H m := by
  intro m hmem
  rcases mem_or_eq_of_mem_set hmem with hold | rfl
  · exact h m hold
  · exact hm

/-- A call on well-formed maps follows the lists. -/
theorem mapStep_spec (h : ∀ m ∈ s, Sound W H m) (hf : 2 ^ 32 ≤ fuel) (op : MapOp)
    (hnames : op.Names s.length) (hk : ∀ k ∈ op.keys, Expected W H k) (hkeep : ∀ k, H.keeps k)
    (hfits : Fits W s op) :
    ∃ s' v, mapStep W fuel s op = .ok (s', v) ∧
      v.map' (denote W) = (listStep W (s.map (pairs W)) op).2 ∧
      s'.map (pairs W) = (listStep W (s.map (pairs W)) op).1 ∧ (∀ m ∈ s', Sound W H m) ∧
      s'.length = s.length + op.makes := by
  cases op with
  | new kind =>
    refine ⟨s ++ [mapNew kind], .map s.length, rfl, ?_, ?_, ?_, ?_⟩
    · rw [listStep, length_map]
      rfl
    · rw [map_append]
      rfl
    · intro m hm
      rcases mem_append.mp hm with hold | hnew
      · exact h m hold
      · rw [mem_singleton.mp hnew]
        exact sound_mapNew kind
    · rw [length_append]
      rfl
  | set i key value =>
    have hi := getElem?_eq_getElem hnames
    obtain ⟨m', hok, hsound, hslots⟩ := (h _ (mem_of_getElem? hi)).mapSet
      (hk key mem_cons_self) hf (hfits _ hi) (fun _ => hkeep key) value
    refine ⟨s.set i m', .map i, ?_, rfl, ?_, sound_set h hsound, length_set⟩
    · rw [mapStep, arrayGet_of hi]
      simp only [hok]
    · refine map_set_pairs (f := fun l => KeyedList.set svz l (keyOf W key) (denote W value)) hi ?_
      rw [pairs, hslots, Records.reduceOption_put]
      rfl
  | get i key =>
    have hi := getElem?_eq_getElem hnames
    obtain ⟨v, hok, hv⟩ := (h _ (mem_of_getElem? hi)).mapGet (hk key mem_cons_self) hf
    refine ⟨s, .value v, ?_, ?_, rfl, h, rfl⟩
    · rw [mapStep, arrayGet_of hi]
      simp only [hok]
    · rw [listStep, getElem?_pairs hi]
      exact congrArg Answer.value hv
  | has i key =>
    have hi := getElem?_eq_getElem hnames
    have hok := (h _ (mem_of_getElem? hi)).mapHas (hk key mem_cons_self) hf
    refine ⟨s, .flag (has svz (pairs W s[i]) (keyOf W key)), ?_, ?_, rfl, h, rfl⟩
    · rw [mapStep, arrayGet_of hi]
      simp only [hok]
    · rw [listStep, getElem?_pairs hi]
      rfl
  | delete i key =>
    have hi := getElem?_eq_getElem hnames
    obtain ⟨m', hok, hsound, hslots⟩ :=
      (h _ (mem_of_getElem? hi)).mapDelete (hk key mem_cons_self) hf
    refine ⟨s.set i m', .flag (has svz (pairs W s[i]) (keyOf W key)), ?_, ?_, ?_,
      sound_set h hsound, length_set⟩
    · rw [mapStep, arrayGet_of hi]
      simp only [hok]
    · rw [listStep, getElem?_pairs hi]
      rfl
    · refine map_set_pairs (f := fun l => KeyedList.delete svz l (keyOf W key)) hi ?_
      rw [pairs, hslots, Records.reduceOption_remove]
      rfl
  | clear i =>
    have hi := getElem?_eq_getElem hnames
    refine ⟨s.set i (mapClear s[i]), .unit, ?_, rfl, ?_, ?_, length_set⟩
    · rw [mapStep, arrayGet_of hi]
    · exact map_set_pairs (f := fun _ => []) hi rfl
    · exact sound_set h (sound_mapNew _)
  | size i =>
    have hi := getElem?_eq_getElem hnames
    refine ⟨s, .count (mapSize s[i]), ?_, ?_, rfl, h, rfl⟩
    · rw [mapStep, arrayGet_of hi]
    · rw [listStep, getElem?_pairs hi]
      exact congrArg Answer.count (h _ (mem_of_getElem? hi)).counted

/-! ### Every sequence of calls -/

theorem Behaves.of_sound (hf : 2 ^ 32 ≤ fuel) (hkeep : ∀ k, H.keeps k) (ops : List MapOp) :
    ∀ {s : List NativeMap}, (∀ m ∈ s, Sound W H m) → NamesMade s.length ops →
      (∀ op ∈ ops, ∀ k ∈ op.keys, Expected W H k) →
      Behaves W fuel s (s.map (pairs W)) ops := by
  induction ops with
  | nil => exact fun _ _ _ => trivial
  | cons op ops ih =>
    intro s h hnames hk hfits
    obtain ⟨s', v, hok, hv, hls, hs', hlen⟩ :=
      mapStep_spec h hf op hnames.1 (hk op mem_cons_self) hkeep hfits
    refine ⟨s', v, hok, hv, hls, fun m hm => (hs' m hm).wellFormed, ?_⟩
    rw [← hls]
    refine ih hs' ?_ fun op' hop => hk op' (mem_cons_of_mem op hop)
    rw [hlen]
    exact hnames.2

/-- NaN keys with one hash follow a law. -/
theorem exists_expected (W : World) (ks : List AnyRef) (keeps : AnyRef → Prop)
    (h : ∀ k ∈ ks, ∀ k' ∈ ks, (denote W k).isNaN = true → (denote W k').isNaN = true →
      hashAnyref W k = hashAnyref W k') :
    ∃ nanHash, ∀ k ∈ ks, Expected W ⟨nanHash, keeps⟩ k := by
  by_cases hex : ∃ k ∈ ks, (denote W k).isNaN = true
  · obtain ⟨k, hk, hn⟩ := hex
    exact ⟨hashAnyref W k, fun k' hk' hn' => h k' hk' k hk hn' hn⟩
  · exact ⟨0, fun k hk hn => absurd ⟨k, hk, hn⟩ hex⟩

/-- **The native Map refines ordered lists under SameValueZero.**  Where the NaN keys of the
calls have one hash, equal keys have equal hashes, and every sequence of calls whose sets of
new keys find room follows the lists. -/
theorem maps_behave (W : World) (ops : List MapOp) (hnames : NamesMade 0 ops)
    (hnan : ∀ k ∈ ops.flatMap MapOp.keys, ∀ k' ∈ ops.flatMap MapOp.keys,
      (denote W k).isNaN = true → (denote W k').isNaN = true →
      hashAnyref W k = hashAnyref W k')
    (fuel : Nat) (hfuel : 2 ^ 32 ≤ fuel) :
    (∀ k ∈ ops.flatMap MapOp.keys, ∀ k' ∈ ops.flatMap MapOp.keys,
      sameValueZero W k k' = true → hashAnyref W k = hashAnyref W k') ∧
    Behaves W fuel [] [] ops := by
  obtain ⟨nanHash, hexp⟩ := exists_expected W _ (fun _ => True) hnan
  refine ⟨fun k hk k' hk' hsame => hash_eq_of_expected (hexp k hk) (hexp k' hk') hsame, ?_⟩
  refine Behaves.of_sound (H := ⟨nanHash, fun _ => True⟩) hfuel (fun _ => trivial) ops (s := [])
    (fun m hm => nomatch hm) hnames ?_
  exact fun op hop k hk => hexp k (mem_flatMap.mpr ⟨op, hop, hk⟩)

/-! ### Two NaN -/

/-- Two quiet NaN with different payloads, on an engine that hands a payload on. -/
def twoNaNs : World where
  contents a := if a = 0 then .number 0x7ff8000000000000#64
    else if a = 1 then .number 0x7ff8000000000001#64 else .other
  nanPlusZero x := x
  nan_isNaN _ h := h
  missing := .null

/-- A map is asked for a NaN it holds, by a NaN with another payload. -/
theorem nan_payloads_diverge :
    sameValueZero twoNaNs (.ref 0) (.ref 1) = true ∧
      hashAnyref twoNaNs (.ref 0) ≠ hashAnyref twoNaNs (.ref 1) ∧
      mapRun twoNaNs 4 [] [.new 0, .set 0 (.ref 0) .null, .has 0 (.ref 1)] =
        .ok [.map 0, .map 0, .flag false] ∧
      listRun twoNaNs [] [.new 0, .set 0 (.ref 0) .null, .has 0 (.ref 1)] =
        [.map 0, .map 0, .flag true] := by
  refine ⟨?_, ?_, ?_, ?_⟩ <;> decide

/-- One NaN as a key. -/
theorem maps_behave_one_nan :
    (∀ k ∈ [.ref 0, .ref 0, .ref 2], ∀ k' ∈ [.ref 0, .ref 0, .ref 2],
      sameValueZero twoNaNs k k' = true → hashAnyref twoNaNs k = hashAnyref twoNaNs k') ∧
    Behaves twoNaNs (2 ^ 32) [] []
      [.new 0, .set 0 (.ref 0) .null, .has 0 (.ref 0), .get 0 (.ref 2)] :=
  maps_behave twoNaNs [.new 0, .set 0 (.ref 0) .null, .has 0 (.ref 0), .get 0 (.ref 2)]
    ⟨trivial, Nat.one_pos, Nat.one_pos, Nat.one_pos, trivial⟩ (by decide) (2 ^ 32) .refl

end Js2Wasm.Collections
