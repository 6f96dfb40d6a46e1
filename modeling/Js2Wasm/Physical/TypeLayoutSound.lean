import Js2Wasm.Lib.Fallible
import Js2Wasm.Lib.Segments
import Js2Wasm.Physical.TypeLayout

/-! # The groups of the type section

The planner cuts the flattened type indices into the finest consecutive groups that keep
every `rec` record and every forced interval as one group and close every group under
forward references (`planPhysicalTypeSection_sound`).
-/
namespace Js2Wasm.Physical
open List Segments Fallible

/-! ### What a grouping has to respect -/

/-- The members of all records, by type index. -/
def flatten (types : List (Option TypeDef)) : List (Option TypeDef) :=
  types.flatMap fun record => match record with
    | none => []
    | some record => (recordMembers record).1

/-- The value types of a definition. -/
def TypeDef.valueTypes (definition : TypeDef) : List ValType :=
  match definition.payload with
  | .func params results => params ++ results
  | .struct fields _ => fields
  | .array element => [element]
  | _ => []

/-- The type index to which a value type refers. -/
def ValType.target : ValType → Option Int
  | .ref typeIdx | .ref_null typeIdx => some typeIdx
  | _ => none

/-- The supertypes that a definition names. -/
def TypeDef.supers (definition : TypeDef) : List Int :=
  definition.superType.toList ++
    match definition.payload with
    | .struct _ superTypeIdx => (superTypeIdx.filter (· != -1)).toList
    | _ => []

/-- The indices of the members of some `rec` record. -/
def RecInterval (types : List (Option TypeDef)) (interval : Nat × Nat) : Prop :=
  ∃ k members, types[k]? = some (some (.rec_ members)) ∧
    interval = ((flatten (types.take k)).length,
      (flatten (types.take k)).length + members.length - 1)

/-- A cut of the type indices that keeps the `rec` records and the forced intervals and whose
groups refer to themselves and to earlier groups only. -/
structure Admissible (types : List (Option TypeDef)) (forced : List (Int × Int))
    (l : List (Nat × Nat)) : Prop where
  tiles : Tiles 0 l (flatten types).length
  explicit : ∀ interval, RecInterval types interval → interval ∈ l
  forced : ∀ f ∈ forced, ∃ g ∈ l, f = ((g.1 : Int), (g.2 : Int))
  references : ∀ i definition, (flatten types)[i]? = some (some definition) →
    ∀ v ∈ definition.valueTypes, ∀ target, v.target = some target →
      ∃ g ∈ l, ∃ g' ∈ l, g.1 ≤ i ∧ i ≤ g.2 ∧ (g'.1 : Int) ≤ target ∧ target ≤ g'.2 ∧ g'.1 ≤ g.1

/-! ### Indexing -/

variable {types : List (Option TypeDef)}

/-- The first and the last index of a range. -/
def PhysicalTypeRange.interval (range : PhysicalTypeRange) : Nat × Nat := (range.start, range.last)

theorem checkMember_eq_ok {member : Option TypeDef} {definition : TypeDef}
    (h : checkMember member = .ok definition) : member = some definition := by
  unfold checkMember at h
  split at h <;> cases h
  rfl

variable {entries : List PhysicalTypeEntry} {table : PhysicalTypeTable}

/-- What the loop over the members appends. -/
theorem indexMembers_spec {recordIndex : Nat} {explicit : Bool} {memberIndex : Nat}
    {members : List (Option TypeDef)} {entries' : List PhysicalTypeEntry}
    (h : indexMembers recordIndex explicit memberIndex members entries = .ok entries') :
    ∃ new, entries' = entries ++ new ∧ new.map (fun entry => some entry.definition) = members ∧
      (∀ i entry, new[i]? = some entry → entry.typeIndex = entries.length + i) ∧
      ∀ entry ∈ new, checkMember (some entry.definition) = .ok entry.definition := by
  induction members generalizing memberIndex entries with
  | nil =>
    cases h
    exact ⟨[], by simp⟩
  | cons member members ih =>
    obtain ⟨definition, hmember, h⟩ := bind_eq_ok.mp h
    obtain ⟨new, rfl, hmap, hindex, hchecked⟩ := ih h
    have hsome := checkMember_eq_ok hmember
    refine ⟨_ :: new, append_assoc _ _ _, ?_, ?_, ?_⟩
    · rw [map_cons, hmap, hsome]
    · intro i entry hi
      cases i with
      | zero =>
        cases hi
        rfl
      | succ i =>
        rw [hindex i entry hi, length_append]
        simp only [length_singleton]
        lia
    · intro entry hentry
      rcases mem_cons.mp hentry with rfl | hentry
      · rw [hsome] at hmember
        exact hmember
      · exact hchecked entry hentry

/-- What indexing promises. -/
structure Indexed (types : List (Option TypeDef)) (table : PhysicalTypeTable) : Prop where
  definitions : table.entries.map (fun entry => some entry.definition) = flatten types
  typeIndex : ∀ i (entry : PhysicalTypeEntry), table.entries[i]? = some entry → entry.typeIndex = i
  checked : ∀ entry ∈ table.entries, checkMember (some entry.definition) = .ok entry.definition
  tiles : Tiles 0 (table.recordRanges.map (·.interval)) table.entries.length
  explicit : ∀ range ∈ table.explicitGroups, range ∈ table.recordRanges
  mem_explicit : ∀ interval,
    interval ∈ table.explicitGroups.map (·.interval) ↔ RecInterval types interval

theorem flatten_append (xs ys : List (Option TypeDef)) :
    flatten (xs ++ ys) = flatten xs ++ flatten ys := flatMap_append

/-- One more interval at the end. -/
theorem Tiles.snoc {a b last : Nat} {l : List (Nat × Nat)} (h : Tiles a l b) (hle : b ≤ last) :
    Tiles a (l ++ [(b, last)]) (last + 1) := by
  induction h with
  | nil a => exact .cons hle (.nil _)
  | cons h _ ih => exact .cons h (ih hle)

/-- The `rec` records of a list with one record more. -/
theorem recInterval_snoc {record : TypeDef} {interval : Nat × Nat} :
    RecInterval (types ++ [some record]) interval ↔ RecInterval types interval ∨
      ∃ members, record = .rec_ members ∧
        interval = ((flatten types).length, (flatten types).length + members.length - 1) := by
  constructor
  · rintro ⟨k, members, hk, rfl⟩
    rcases Nat.lt_or_ge k types.length with hlt | hge
    · rw [getElem?_append_left hlt] at hk
      refine .inl ⟨k, members, hk, ?_⟩
      rw [take_append_of_le_length (Nat.le_of_lt hlt)]
    · obtain ⟨hlt, -⟩ := List.getElem?_eq_some_iff.mp hk
      have hkeq : k = types.length := by
        rw [length_append, length_singleton] at hlt
        lia
      subst hkeq
      exact .inr ⟨members, by simpa using hk, by simp⟩
  · rintro (⟨k, members, hk, rfl⟩ | ⟨members, rfl, rfl⟩)
    · obtain ⟨hlt, -⟩ := List.getElem?_eq_some_iff.mp hk
      refine ⟨k, members, by rw [List.getElem?_append_left hlt, hk], ?_⟩
      rw [take_append_of_le_length (Nat.le_of_lt hlt)]
    · exact ⟨types.length, members, by simp, by simp⟩

/-- One record more. -/
theorem Indexed.record {record : TypeDef} (h : Indexed types table)
    (hne : (recordMembers record).1 ≠ [])
    (hentries : indexMembers types.length (recordMembers record).2 0 (recordMembers record).1
      table.entries = .ok entries) :
    Indexed (types ++ [some record])
      ⟨entries,
        table.recordRanges ++ [⟨table.entries.length, entries.length - 1, types.length⟩],
        if (recordMembers record).2 then
          table.explicitGroups ++ [⟨table.entries.length, entries.length - 1, types.length⟩]
        else table.explicitGroups⟩ := by
  obtain ⟨new, rfl, hmap, hindex, hchecked⟩ := indexMembers_spec hentries
  have hnew : new.length = (recordMembers record).1.length := by rw [← hmap, length_map]
  have hpos : 0 < new.length := hnew ▸ length_pos_iff.mpr hne
  have hlength : table.entries.length = (flatten types).length := by
    rw [← h.definitions, length_map]
  have hflatten : flatten [some record] = (recordMembers record).1 := append_nil _
  refine ⟨?_, ?_, ?_, ?_, ?_, ?_⟩
  · rw [map_append, flatten_append, h.definitions, hmap, hflatten]
  · intro i entry hi
    rcases Nat.lt_or_ge i table.entries.length with hlt | hge
    · rw [getElem?_append_left hlt] at hi
      exact h.typeIndex i entry hi
    · rw [getElem?_append_right hge] at hi
      rw [hindex _ entry hi]
      lia
  · intro entry hentry
    rcases mem_append.mp hentry with hentry | hentry
    · exact h.checked entry hentry
    · exact hchecked entry hentry
  · have hsnoc := @Tiles.snoc _ _ (table.entries.length + new.length - 1) _ h.tiles (by lia)
    rw [Nat.sub_add_cancel (by lia)] at hsnoc
    simpa [PhysicalTypeRange.interval] using hsnoc
  · intro range hrange
    split at hrange
    · rcases mem_append.mp hrange with hrange | hrange
      · exact mem_append_left _ (h.explicit range hrange)
      · exact mem_append_right _ hrange
    · exact mem_append_left _ (h.explicit range hrange)
  · intro interval
    rw [recInterval_snoc, ← h.mem_explicit]
    cases record with
    | rec_ members =>
      simp only [recordMembers] at hnew
      simp [recordMembers, PhysicalTypeRange.interval, hlength, hnew]
    | _ => simp [recordMembers]

/-- **Indexing keeps the members in order, with a range for every record.** -/
theorem indexRecords_spec {done records : List (Option TypeDef)} {table' : PhysicalTypeTable}
    (h : Indexed done table) (htable : indexRecords done.length records table = .ok table') :
    Indexed (done ++ records) table' := by
  induction records generalizing done table with
  | nil =>
    cases htable
    rwa [append_nil]
  | cons record records ih =>
    cases record with
    | none => cases htable
    | some record =>
      simp only [indexRecords] at htable
      split at htable
      · cases htable
      · rename_i hne
        obtain ⟨entries, hentries, htable⟩ := bind_eq_ok.mp htable
        have hrecord := h.record (by simpa using hne) hentries
        have hlength : (done ++ [some record]).length = done.length + 1 := by simp
        rw [← hlength] at htable
        have := ih hrecord htable
        rwa [append_assoc, singleton_append] at this

theorem indexPhysicalTypes_spec (h : indexPhysicalTypes types = .ok table) :
    Indexed types table := by
  have hstart : Indexed [] ⟨[], [], []⟩ :=
    { definitions := rfl
      typeIndex := by simp
      checked := by simp
      tiles := .nil 0
      explicit := by simp
      mem_explicit := by simp [RecInterval] }
  exact indexRecords_spec hstart h

/-! ### References -/

section References

variable {count : Nat}

variable {v : ValType} {e : String} {entries : List PhysicalTypeEntry} {vs : List ValType}
    {typeIndex : Nat} {index : Int} {superType : Option Int} {refs : List Nat}

theorem checkIndex_eq_ok {n : Nat} (h : checkIndex count index = .ok n) :
    index = n ∧ n < count := by
  unfold checkIndex at h
  split at h
  · cases h
    lia
  · cases h

theorem checkIndex_eq_error (h : checkIndex count index = .error e) :
    ¬(0 ≤ index ∧ index < count) := by
  unfold checkIndex at h
  split at h
  · cases h
  · assumption

/-- The references found are those of the value types, and in range. -/
theorem value_eq_ok (h : value count v = .ok refs) :
    (∀ n ∈ refs, n < count) ∧ ∀ target : Int, v.target = some target ↔ ∃ n ∈ refs, target = n := by
  have hrefs : ∀ typeIdx : Int, (do return [← checkIndex count typeIdx]) = Except.ok refs →
      (∀ n ∈ refs, n < count) ∧ ∀ target : Int,
        some typeIdx = some target ↔ ∃ n ∈ refs, target = n := by
    intro typeIdx h
    obtain ⟨n, hn, hrefs⟩ := bind_eq_ok.mp h
    cases hrefs
    obtain ⟨rfl, hlt⟩ := checkIndex_eq_ok hn
    exact ⟨by simpa using hlt, fun target => by simp [eq_comm]⟩
  cases v with
  | ref typeIdx | ref_null typeIdx => exact hrefs typeIdx h
  | _ =>
    cases h
    simp [ValType.target]

theorem value_eq_error (h : value count v = .error e) :
    ∃ target : Int, v.target = some target ∧ ¬(0 ≤ target ∧ target < count) := by
  have hrefs : ∀ typeIdx : Int,
      ((do return [← checkIndex count typeIdx]) : Except String (List Nat)) = .error e →
      ¬(0 ≤ typeIdx ∧ typeIdx < count) := by
    intro typeIdx h
    rcases bind_eq_error.mp h with h | ⟨n, -, h⟩
    · exact checkIndex_eq_error h
    · cases h
  cases v with
  | ref typeIdx | ref_null typeIdx => exact ⟨typeIdx, rfl, hrefs typeIdx h⟩
  | _ => cases h

theorem values_eq_ok (h : values count vs = .ok refs) :
    (∀ n ∈ refs, n < count) ∧
      ∀ target : Int, (∃ v ∈ vs, v.target = some target) ↔ ∃ n ∈ refs, target = n := by
  induction vs generalizing refs with
  | nil =>
    cases h
    simp
  | cons v vs ih =>
    obtain ⟨refs1, h1, h⟩ := bind_eq_ok.mp h
    obtain ⟨refs2, h2, h⟩ := bind_eq_ok.mp h
    cases h
    obtain ⟨hlt1, htarget1⟩ := value_eq_ok h1
    obtain ⟨hlt2, htarget2⟩ := ih h2
    refine ⟨fun n hn => ?_, fun target => ?_⟩
    · exact (mem_append.mp hn).elim (hlt1 n) (hlt2 n)
    · rw [exists_mem_cons_iff, htarget1, htarget2]
      simp [or_and_right, exists_or]

theorem values_eq_error (h : values count vs = .error e) :
    ∃ v ∈ vs, ∃ target : Int, v.target = some target ∧ ¬(0 ≤ target ∧ target < count) := by
  induction vs with
  | nil => cases h
  | cons v vs ih =>
    rcases bind_eq_error.mp h with h | ⟨refs, -, h⟩
    · exact ⟨v, mem_cons_self, value_eq_error h⟩
    · rcases bind_eq_error.mp h with h | ⟨refs', -, h⟩
      · obtain ⟨w, hw, hbad⟩ := ih h
        exact ⟨w, mem_cons_of_mem v hw, hbad⟩
      · cases h

theorem parent_eq_ok (h : parent count typeIndex index = .ok ()) :
    0 ≤ index ∧ index < typeIndex := by
  unfold parent at h
  obtain ⟨n, hn, hlt⟩ := bind_eq_ok.mp h
  obtain ⟨rfl, -⟩ := checkIndex_eq_ok hn
  split at hlt
  · cases hlt
  · lia

theorem parent_eq_error (h : parent count typeIndex index = .error e) :
    ¬(0 ≤ index ∧ index < count) ∨ (typeIndex : Int) ≤ index := by
  unfold parent at h
  rcases bind_eq_error.mp h with hindex | ⟨n, hn, hlt⟩
  · exact .inl (checkIndex_eq_error hindex)
  · obtain ⟨rfl, -⟩ := checkIndex_eq_ok hn
    split at hlt
    · rename_i hle
      exact .inr (by exact_mod_cast hle)
    · cases hlt

theorem parentOf_eq_ok (h : parentOf count typeIndex superType = .ok ()) :
    ∀ index ∈ superType.toList, 0 ≤ index ∧ index < typeIndex := by
  cases superType with
  | none => simp
  | some index => simpa using parent_eq_ok h

theorem parentOf_eq_error (h : parentOf count typeIndex superType = .error e) :
    ∃ index ∈ superType.toList, ¬(0 ≤ index ∧ index < count) ∨ (typeIndex : Int) ≤ index := by
  cases superType with
  | none => cases h
  | some index => exact ⟨index, by simp, parent_eq_error h⟩

/-- What the references of an entry say. -/
structure Referenced (count typeIndex : Nat) (definition : TypeDef) (refs : List Nat) : Prop where
  supers : ∀ index ∈ definition.supers, 0 ≤ index ∧ index < typeIndex
  inRange : ∀ n ∈ refs, n < count
  targets : ∀ target : Int,
    (∃ v ∈ definition.valueTypes, v.target = some target) ↔ ∃ n ∈ refs, target = n

/-- An entry that the planner refuses has a bad reference or a bad supertype. -/
def Bad (count typeIndex : Nat) (definition : TypeDef) : Prop :=
  (∃ v ∈ definition.valueTypes, ∃ target : Int, v.target = some target ∧
    ¬(0 ≤ target ∧ target < count)) ∨
  ∃ index ∈ definition.supers, ¬(0 ≤ index ∧ index < count) ∨ (typeIndex : Int) ≤ index

variable {entry : PhysicalTypeEntry}

theorem references_eq_ok (h : references count entry = .ok refs) :
    Referenced count entry.typeIndex entry.definition refs := by
  unfold references at h
  obtain ⟨u, hsuper, h⟩ := bind_eq_ok.mp h
  have hsuper := parentOf_eq_ok hsuper
  have build : ∀ (vs : List ValType) (superTypeIdx : List Int),
      entry.definition.valueTypes = vs →
      entry.definition.supers = entry.definition.superType.toList ++ superTypeIdx →
      (∀ index ∈ superTypeIdx, 0 ≤ index ∧ index < entry.typeIndex) →
      ((∀ n ∈ refs, n < count) ∧
        ∀ target : Int, (∃ v ∈ vs, v.target = some target) ↔ ∃ n ∈ refs, target = n) →
      Referenced count entry.typeIndex entry.definition refs := by
    rintro vs superTypeIdx rfl hsupers hidx ⟨hlt, htargets⟩
    refine ⟨fun index hindex => ?_, hlt, htargets⟩
    rw [hsupers] at hindex
    exact (mem_append.mp hindex).elim (hsuper index) (hidx index)
  cases hp : entry.definition.payload with
  | func params results =>
    rw [hp] at h
    exact build _ [] (by simp [TypeDef.valueTypes, hp])
      (by simp [TypeDef.supers, hp]) (by simp) (values_eq_ok h)
  | struct fields superTypeIdx =>
    rw [hp] at h
    obtain ⟨u', hidx, h⟩ := bind_eq_ok.mp h
    exact build _ _ (by simp [TypeDef.valueTypes, hp]) (by simp [TypeDef.supers, hp])
      (parentOf_eq_ok hidx) (values_eq_ok h)
  | array element =>
    rw [hp] at h
    refine build [element] [] (by simp [TypeDef.valueTypes, hp])
      (by simp [TypeDef.supers, hp]) (by simp) ?_
    obtain ⟨hlt, htargets⟩ := value_eq_ok h
    exact ⟨hlt, fun target => by simpa using htargets target⟩
  | rec_ types | sub superType type =>
    rw [hp] at h
    cases h

/-- The payload of a member is a function, a structure or an array. -/
theorem payload_shape {definition : TypeDef} (h : checkMember (some definition) = .ok definition) :
    (∀ types, definition.payload ≠ .rec_ types) ∧
      ∀ superType type, definition.payload ≠ .sub superType type := by
  cases definition with
  | rec_ types => cases h
  | sub superType type =>
    cases type with
    | rec_ types => cases h
    | sub superType type => cases h
    | _ => simp [TypeDef.payload]
  | _ => simp [TypeDef.payload]

theorem references_eq_error (h : references count entry = .error e)
    (hchecked : checkMember (some entry.definition) = .ok entry.definition) :
    Bad count entry.typeIndex entry.definition := by
  unfold references at h
  rcases bind_eq_error.mp h with h | ⟨u, -, h⟩
  · obtain ⟨index, hindex, hbad⟩ := parentOf_eq_error h
    exact .inr ⟨index, mem_append_left _ hindex, hbad⟩
  · cases hp : entry.definition.payload with
    | func params results =>
      rw [hp] at h
      refine .inl ?_
      simpa [TypeDef.valueTypes, hp] using values_eq_error h
    | struct fields superTypeIdx =>
      rw [hp] at h
      rcases bind_eq_error.mp h with h | ⟨u', -, h⟩
      · obtain ⟨index, hindex, hbad⟩ := parentOf_eq_error h
        refine .inr ⟨index, mem_append_right _ ?_, hbad⟩
        rwa [hp]
      · refine .inl ?_
        simpa [TypeDef.valueTypes, hp] using values_eq_error h
    | array element =>
      rw [hp] at h
      refine .inl ?_
      simpa [TypeDef.valueTypes, hp] using value_eq_error h
    | rec_ types => exact absurd hp ((payload_shape hchecked).1 types)
    | sub superType type => exact absurd hp ((payload_shape hchecked).2 superType type)

theorem allReferences_eq_ok {refs : List (List Nat)} (h : allReferences count entries = .ok refs) :
    refs.length = entries.length ∧ ∀ (i : Nat) (entry : PhysicalTypeEntry),
      entries[i]? = some entry → ∃ targets, refs[i]? = some targets ∧
        Referenced count entry.typeIndex entry.definition targets := by
  induction entries generalizing refs with
  | nil =>
    cases h
    simp
  | cons entry entries ih =>
    obtain ⟨targets, htargets, h⟩ := bind_eq_ok.mp h
    obtain ⟨refs', hrefs, h⟩ := bind_eq_ok.mp h
    cases h
    obtain ⟨hlength, hall⟩ := ih hrefs
    refine ⟨by rw [length_cons, length_cons, hlength], fun i entry' hi => ?_⟩
    cases i with
    | zero =>
      cases hi
      exact ⟨targets, rfl, references_eq_ok htargets⟩
    | succ i => exact hall i entry' hi

theorem allReferences_eq_error (h : allReferences count entries = .error e)
    (hchecked : ∀ entry ∈ entries, checkMember (some entry.definition) = .ok entry.definition) :
    ∃ entry ∈ entries, Bad count entry.typeIndex entry.definition := by
  induction entries with
  | nil => cases h
  | cons entry entries ih =>
    rcases bind_eq_error.mp h with h | ⟨targets, -, h⟩
    · exact ⟨entry, mem_cons_self, references_eq_error h (hchecked entry mem_cons_self)⟩
    · rcases bind_eq_error.mp h with h | ⟨refs, -, h⟩
      · obtain ⟨entry', hmem, hbad⟩ := ih h fun x hx => hchecked x (mem_cons_of_mem entry hx)
        exact ⟨entry', mem_cons_of_mem entry hmem, hbad⟩
      · cases h

end References

/-! ### The scan of a group -/

section Scan

variable {forced : List (Nat × Nat)} {start last q : Nat}

theorem le_pushForced : last ≤ pushForced forced start last := by
  unfold pushForced
  induction forced generalizing last with
  | nil => exact Nat.le_refl _
  | cons f forced ih =>
    rw [foldl_cons]
    refine Nat.le_trans ?_ ih
    split <;> lia

/-- A bound that the forced intervals respect is not passed. -/
theorem pushForced_le (hlast : last ≤ q) (h : ∀ f ∈ forced, f.1 ≤ q → start ≤ f.2 → f.2 ≤ q) :
    pushForced forced start last ≤ q := by
  unfold pushForced
  induction forced generalizing last with
  | nil => exact hlast
  | cons f forced ih =>
    rw [foldl_cons]
    refine ih ?_ fun f' hf' => h f' (mem_cons_of_mem f hf')
    split
    · rename_i hmeet
      exact Nat.max_le.mpr ⟨hlast, h f mem_cons_self (by lia) hmeet.2⟩
    · exact hlast

/-- An end that is not pushed respects the forced intervals. -/
theorem forced_le_of_pushForced_eq (h : pushForced forced start last = last) :
    ∀ f ∈ forced, f.1 ≤ last → start ≤ f.2 → f.2 ≤ last := by
  have key : ∀ (forced : List (Nat × Nat)) (last' : Nat),
      forced.foldl (fun last f => if f.1 ≤ last ∧ start ≤ f.2 then max last f.2 else last) last' =
        last → last ≤ last' →
      ∀ f ∈ forced, f.1 ≤ last → start ≤ f.2 → f.2 ≤ last := by
    intro forced
    induction forced with
    | nil => simp
    | cons f forced ih =>
      intro last' heq hle f' hf' hfirst hmeet
      rw [foldl_cons] at heq
      have hpush := @le_pushForced forced start (if f.1 ≤ last' ∧ start ≤ f.2 then max last' f.2 else last')
      rw [pushForced, heq] at hpush
      rcases mem_cons.mp hf' with rfl | hf'
      · rw [if_pos ⟨by lia, hmeet⟩] at hpush
        lia
      · refine ih _ heq ?_ f' hf' hfirst hmeet
        split <;> lia
  exact key forced last h .refl

theorem le_foldl_max (targets : List Nat) (last : Nat) :
    last ≤ targets.foldl max last ∧ ∀ n ∈ targets, n ≤ targets.foldl max last := by
  induction targets generalizing last with
  | nil => simp
  | cons n targets ih =>
    obtain ⟨h1, h2⟩ := ih (max last n)
    rw [foldl_cons]
    refine ⟨by lia, fun m hm => ?_⟩
    rcases mem_cons.mp hm with rfl | hm
    · lia
    · exact h2 m hm

theorem foldl_max_le {targets : List Nat} (hlast : last ≤ q) (h : ∀ n ∈ targets, n ≤ q) :
    targets.foldl max last ≤ q := by
  induction targets generalizing last with
  | nil => exact hlast
  | cons n targets ih =>
    exact ih (Nat.max_le.mpr ⟨hlast, h n mem_cons_self⟩)
      fun m hm => h m (mem_cons_of_mem n hm)

variable {scan result : Nat} {explicit : Option PhysicalTypeRange}
    {explicitGroups : List PhysicalTypeRange} {refs : List (List Nat)}

theorem scanGroup_done (h : last < scan) :
    scanGroup explicitGroups forced explicit start refs scan last = .ok last := by
  cases refs <;> rw [scanGroup, if_pos h]

section
variable (h : scanGroup explicitGroups forced explicit start refs scan last = .ok result)
include h

/-- **What the scan of a group ends with.**  Everything from the scan on refers to the group
or to earlier ones, the forced intervals that meet the group lie in it, and explicit groups
are met by themselves only. -/
theorem scanGroup_spec :
    last ≤ result ∧
      (∀ i, scan ≤ i → i ≤ result →
        ∃ targets, refs[i - scan]? = some targets ∧ ∀ n ∈ targets, n ≤ result) ∧
      (scan ≤ last →
        (∀ f ∈ forced, f.1 ≤ result → start ≤ f.2 → f.2 ≤ result) ∧
        (∀ group, explicit = some group → result = group.last) ∧
        (explicit = none →
          ∀ group ∈ explicitGroups, start ≤ group.last → result < group.start)) := by
  induction refs generalizing scan last with
  | nil =>
    rw [scanGroup] at h
    split at h
    · cases h
      exact ⟨Nat.le_refl _, fun i h1 h2 => by lia, fun hle => by lia⟩
    · cases h
  | cons targets refs ih =>
    rw [scanGroup] at h
    split at h
    · cases h
      exact ⟨Nat.le_refl _, fun i h1 h2 => by lia, fun hle => by lia⟩
    · rename_i hscan
      have hpush := @le_pushForced forced start (targets.foldl max last)
      obtain ⟨hfold, htargets⟩ := le_foldl_max targets last
      generalize hnext : pushForced forced start (targets.foldl max last) = next at h hpush
      have hrest : scanGroup explicitGroups forced explicit start refs (scan + 1) next = .ok result ∧
          (∀ group, explicit = some group → next = group.last) ∧
          (explicit = none → ∀ group ∈ explicitGroups, start ≤ group.last → next < group.start) := by
        cases explicit with
        | some group =>
          simp only at h
          split at h
          · cases h
          · rename_i hlast
            exact ⟨h, by simpa using hlast, by simp⟩
        | none =>
          simp only at h
          split at h
          · cases h
          · rename_i hany
            refine ⟨h, by simp, fun _ group hgroup hmeet => ?_⟩
            refine Nat.lt_of_not_le fun hle => hany ?_
            exact any_eq_true.mpr ⟨group, hgroup, by simp [hmeet, hle]⟩
      obtain ⟨hscanRest, hexplicit, hmeet⟩ := hrest
      obtain ⟨hle, hrefs, hlater⟩ := ih hscanRest
      refine ⟨by lia, fun i h1 h2 => ?_, fun _ => ?_⟩
      · rcases Nat.eq_or_lt_of_le h1 with rfl | hlt
        · rw [Nat.sub_self]
          exact ⟨targets, rfl, fun n hn => by have := htargets n hn; lia⟩
        · obtain ⟨targets', hget, hall⟩ := hrefs i hlt h2
          refine ⟨targets', ?_, hall⟩
          rwa [show i - scan = i - (scan + 1) + 1 by lia, getElem?_cons_succ]
      · by_cases hmore : scan + 1 ≤ next
        · exact hlater hmore
        · -- the scan ends here: this round has not moved the end
          have hresult : result = next := by
            rw [scanGroup_done (by lia)] at hscanRest
            exact (Except.ok.inj hscanRest).symm
          subst hresult
          refine ⟨forced_le_of_pushForced_eq ?_, hexplicit, hmeet⟩
          rw [show targets.foldl max last = result by lia] at hnext
          exact hnext

/-- A bound that respects the references and the forced intervals is not passed. -/
theorem scanGroup_le (hlast : last ≤ q)
    (hrefs : ∀ i targets, scan ≤ i → i ≤ q → refs[i - scan]? = some targets → ∀ n ∈ targets, n ≤ q)
    (hforced : ∀ f ∈ forced, f.1 ≤ q → start ≤ f.2 → f.2 ≤ q) : result ≤ q := by
  induction refs generalizing scan last with
  | nil =>
    rw [scanGroup] at h
    split at h
    · cases h
      exact hlast
    · cases h
  | cons targets refs ih =>
    rw [scanGroup] at h
    split at h
    · cases h
      exact hlast
    · rename_i hscan
      have htargets := hrefs scan targets .refl (by lia) (by simp)
      have hnext : pushForced forced start (targets.foldl max last) ≤ q :=
        pushForced_le (foldl_max_le hlast htargets) hforced
      have hrest : scanGroup explicitGroups forced explicit start refs (scan + 1)
          (pushForced forced start (targets.foldl max last)) = .ok result := by
        cases explicit with
        | some group | none =>
          simp only at h
          split at h
          · cases h
          · exact h
      refine ih hrest hnext fun i targets' h1 h2 hget => ?_
      refine hrefs i targets' (by lia) h2 ?_
      rwa [show i - scan = i - (scan + 1) + 1 by lia, getElem?_cons_succ]

end

end Scan

/-! ### Groups -/

/-- The first and the last index of a group. -/
def PhysicalTypeGroup.interval (group : PhysicalTypeGroup) : Nat × Nat := (group.start, group.last)

section Groups

variable {table : PhysicalTypeTable} {refs : List (List Nat)} {forced : List (Nat × Nat)}
  {rounds start : Nat} {groups : List PhysicalTypeGroup}

/-- One group: the scan that found its end, and the rest. -/
theorem groupsFrom_succ (h : groupsFrom table refs forced (rounds + 1) start = .ok groups)
    (hstart : start < table.entries.length) :
    ∃ explicit group rest, explicit = table.explicitGroups.find? (·.start = start) ∧
      groups = group :: rest ∧ group.start = start ∧
      scanGroup table.explicitGroups forced explicit start (refs.drop start) start
        ((explicit.map (·.last)).getD start) = .ok group.last ∧
      groupsFrom table refs forced rounds (group.last + 1) = .ok rest := by
  rw [groupsFrom, if_neg (Nat.not_le.mpr hstart)] at h
  obtain ⟨last, hscan, h⟩ := bind_eq_ok.mp h
  obtain ⟨rest, hrest, h⟩ := bind_eq_ok.mp h
  cases h
  exact ⟨_, _, rest, rfl, rfl, rfl, hscan, hrest⟩

variable {types : List (Option TypeDef)} {r : PhysicalTypeRange}

/-- The record ranges of a table stand apart. -/
theorem Indexed.eq_of_meet (h : Indexed types table) {r' : PhysicalTypeRange}
    (hr : r ∈ table.explicitGroups) (hr' : r' ∈ table.explicitGroups) (h1 : r.start ≤ r'.last)
    (h2 : r'.start ≤ r.last) : r.interval = r'.interval :=
  h.tiles.eq_of_meet (mem_map_of_mem (h.explicit r hr))
    (mem_map_of_mem (h.explicit r' hr')) h1 h2

theorem Indexed.range_le (h : Indexed types table) (hr : r ∈ table.explicitGroups) :
    r.start ≤ r.last :=
  (h.tiles.bounds (mem_map_of_mem (h.explicit r hr))).2.1

/-- What one group promises. -/
structure GroupSound (table : PhysicalTypeTable) (refs : List (List Nat)) (start last : Nat) : Prop where
  le : start ≤ last
  lt : last < refs.length
  references : ∀ i, start ≤ i → i ≤ last → ∃ targets, refs[i]? = some targets ∧ ∀ n ∈ targets, n ≤ last
  /-- An explicit group that ends here or later is this one or starts later. -/
  explicit : ∀ range ∈ table.explicitGroups, start ≤ range.start →
    range.interval = (start, last) ∨ last < range.start

theorem scan_sound (h : Indexed types table) {explicit : Option PhysicalTypeRange} {last : Nat}
    (hexplicit : explicit = table.explicitGroups.find? (·.start = start))
    (hscan : scanGroup table.explicitGroups forced explicit start (refs.drop start) start
      ((explicit.map (·.last)).getD start) = .ok last) :
    GroupSound table refs start last := by
  obtain ⟨hle, hrefs, hwhole⟩ := scanGroup_spec hscan
  have hstart : start ≤ (explicit.map (·.last)).getD start := by
    cases explicit with
    | none => exact Nat.le_refl _
    | some range =>
      have hrange := h.range_le (mem_of_find?_eq_some hexplicit.symm)
      have hfirst : range.start = start := by simpa using find?_some hexplicit.symm
      rwa [hfirst] at hrange
  obtain ⟨-, hlast, hnone⟩ := hwhole hstart
  have hreferences : ∀ i, start ≤ i → i ≤ last →
      ∃ targets, refs[i]? = some targets ∧ ∀ n ∈ targets, n ≤ last := by
    intro i h1 h2
    obtain ⟨targets, hget, hall⟩ := hrefs i h1 h2
    rw [getElem?_drop, Nat.add_sub_cancel' h1] at hget
    exact ⟨targets, hget, hall⟩
  refine ⟨Nat.le_trans hstart hle, ?_, hreferences, fun range hrange hge => ?_⟩
  · obtain ⟨targets, hget, -⟩ := hreferences last (Nat.le_trans hstart hle) .refl
    exact (List.getElem?_eq_some_iff.mp hget).1
  · have hrangeLe := h.range_le hrange
    cases explicit with
    | some found =>
      have hfound := mem_of_find?_eq_some hexplicit.symm
      have hfirst : found.start = start := by simpa using find?_some hexplicit.symm
      have hend := hlast found rfl
      by_cases hmeet : range.start ≤ last
      · refine .inl ?_
        rw [h.eq_of_meet hrange hfound (by lia) (by lia), PhysicalTypeRange.interval, hfirst, hend]
      · exact .inr (Nat.lt_of_not_le hmeet)
    | none => exact .inr (hnone rfl range hrange (by lia))

/-- What the loop over the groups promises from an index on. -/
structure GroupsSound (table : PhysicalTypeTable) (refs : List (List Nat)) (start : Nat)
    (groups : List PhysicalTypeGroup) : Prop where
  tiles : Tiles start (groups.map (·.interval)) table.entries.length
  references : ∀ group ∈ groups, ∀ i, group.start ≤ i → i ≤ group.last →
    ∃ targets, refs[i]? = some targets ∧ ∀ n ∈ targets, n ≤ group.last
  explicit : ∀ range ∈ table.explicitGroups, start ≤ range.start →
    range.interval ∈ groups.map (·.interval)

theorem groupsFrom_sound (h : Indexed types table) (hrefs : refs.length = table.entries.length)
    (hgroups : groupsFrom table refs forced rounds start = .ok groups)
    (hstart : start ≤ table.entries.length) (hrounds : table.entries.length ≤ start + rounds) :
    GroupsSound table refs start groups := by
  have hdone : ∀ {start}, start = table.entries.length → GroupsSound table refs start [] := by
    rintro start rfl
    refine ⟨.nil _, by simp, fun range hrange hge => ?_⟩
    have := h.tiles.bounds (mem_map_of_mem (h.explicit range hrange))
    simp only [PhysicalTypeRange.interval] at this
    lia
  induction rounds generalizing start groups with
  | zero =>
    cases hgroups
    exact hdone (by lia)
  | succ rounds ih =>
    rcases Nat.lt_or_ge start table.entries.length with hlt | hge
    · obtain ⟨explicit, group, rest, hexplicit, rfl, rfl, hscan, hrest⟩ :=
        groupsFrom_succ hgroups hlt
      have hgroup := scan_sound h hexplicit hscan
      have hle := hgroup.le
      have hlast := hgroup.lt
      have hsound := ih hrest (by lia) (by lia)
      refine ⟨.cons hle hsound.tiles, fun g hg => ?_, fun range hrange hfirst => ?_⟩
      · rcases mem_cons.mp hg with rfl | hg
        · exact hgroup.references
        · exact hsound.references g hg
      · rw [map_cons]
        rcases hgroup.explicit range hrange hfirst with heq | hlater
        · rw [heq]
          exact mem_cons_self
        · exact mem_cons_of_mem _ (hsound.explicit range hrange hlater)
    · rw [groupsFrom, if_pos hge] at hgroups
      cases hgroups
      exact hdone (by lia)

/-- The groups are the finest: whatever cut respects the references, the explicit groups and
the forced intervals, its groups are unions of these. -/
theorem groupsFrom_finer (h : Indexed types table) {l : List (Nat × Nat)}
    (htiles : Tiles 0 l table.entries.length)
    (hclosed : ∀ g ∈ l, ∀ i targets, g.1 ≤ i → i ≤ g.2 → refs[i]? = some targets →
      ∀ n ∈ targets, n ≤ g.2) (hexplicit : ∀ range ∈ table.explicitGroups, range.interval ∈ l)
    (hforced : ∀ f ∈ forced, f ∈ l)
    (hgroups : groupsFrom table refs forced rounds start = .ok groups) :
    Finer (groups.map (·.interval)) l := by
  induction rounds generalizing start groups with
  | zero =>
    cases hgroups
    simp [Finer]
  | succ rounds ih =>
    rcases Nat.lt_or_ge start table.entries.length with hlt | hge
    · obtain ⟨explicit, group, rest, hfound, rfl, rfl, hscan, hrest⟩ :=
        groupsFrom_succ hgroups hlt
      obtain ⟨g, hg, hg1, hg2⟩ := htiles.covers (Nat.zero_le _) hlt
      have hlast : group.last ≤ g.2 := by
        refine scanGroup_le hscan ?_ (fun i targets h1 h2 hget => ?_) fun f hf h1 h2 => ?_
        · cases explicit with
          | none => exact hg2
          | some range =>
            have hrange := mem_of_find?_eq_some hfound.symm
            have hfirst : range.start = group.start := by simpa using find?_some hfound.symm
            have := htiles.eq_of_meet (hexplicit range hrange) hg
              (by simp only [PhysicalTypeRange.interval]; lia)
              (by have := h.range_le hrange; simp only [PhysicalTypeRange.interval]; lia)
            rw [← this]
            exact Nat.le_refl _
        · rw [getElem?_drop, Nat.add_sub_cancel' h1] at hget
          exact hclosed g hg i targets (by lia) h2 hget
        · have hfg := htiles.eq_of_meet (hforced f hf) hg h1 (Nat.le_trans hg1 h2)
          exact Nat.le_of_eq (congrArg Prod.snd hfg)
      intro g' hg'
      rcases mem_cons.mp hg' with rfl | hg'
      · exact ⟨g, hg, hg1, hlast⟩
      · exact ih hrest g' hg'
    · rw [groupsFrom, if_pos hge] at hgroups
      cases hgroups
      simp [Finer]

end Groups

/-! ### The plan -/

section Plan

variable {types : List (Option TypeDef)} {table : PhysicalTypeTable}
  {forcedGroups : List (Int × Int)} {forced : List (Nat × Nat)} {groups : List PhysicalTypeGroup}

/-- The forced intervals that pass are in range. -/
theorem checkForced_eq_ok (h : checkForced table forcedGroups = .ok forced) :
    forcedGroups = forced.map fun f => ((f.1 : Int), (f.2 : Int)) := by
  induction forcedGroups generalizing forced with
  | nil =>
    cases h
    rfl
  | cons f forcedGroups ih =>
    obtain ⟨start, last⟩ := f
    obtain ⟨s, hs, hend⟩ := bind_eq_ok.mp h
    obtain ⟨e, he, hrest⟩ := bind_eq_ok.mp hend
    obtain ⟨rfl, -⟩ := checkIndex_eq_ok hs
    obtain ⟨rfl, -⟩ := checkIndex_eq_ok he
    split at hrest
    · cases hrest
    · split at hrest
      · cases hrest
      · obtain ⟨rest, hforced, heq⟩ := bind_eq_ok.mp hrest
        cases heq
        rw [ih hforced]
        rfl

theorem checkMerged_eq_ok (h : checkMerged groups forced = .ok ()) :
    ∀ f ∈ forced, f ∈ groups.map (·.interval) := by
  unfold checkMerged at h
  split at h
  · rename_i hall
    intro f hf
    obtain ⟨group, hgroup, heq⟩ := any_eq_true.mp (all_eq_true.mp hall f hf)
    simp only [Bool.and_eq_true, decide_eq_true_eq] at heq
    exact mem_map.mpr ⟨group, hgroup, Prod.ext heq.1 heq.2⟩
  · cases h

/-- The stages of a plan that succeeds. -/
theorem planPhysicalTypeSection_eq_ok (h : planPhysicalTypeSection table forcedGroups = .ok groups) :
    ∃ refs forced, allReferences table.entries.length table.entries = .ok refs ∧
      checkForced table forcedGroups = .ok forced ∧
      groupsFrom table refs forced table.entries.length 0 = .ok groups ∧
      checkMerged groups forced = .ok () := by
  obtain ⟨refs, hrefs, h⟩ := bind_eq_ok.mp h
  obtain ⟨forced, hforced, h⟩ := bind_eq_ok.mp h
  obtain ⟨groups', hgroups, h⟩ := bind_eq_ok.mp h
  obtain ⟨u, hmerged, h⟩ := bind_eq_ok.mp h
  cases h
  exact ⟨refs, forced, hrefs, hforced, hgroups, hmerged⟩

theorem Indexed.length (h : Indexed types table) : table.entries.length = (flatten types).length := by
  rw [← h.definitions, length_map]

variable {i : Nat} {definition : TypeDef}

/-- The entry of a type index. -/
theorem Indexed.entry (h : Indexed types table) (hi : (flatten types)[i]? = some (some definition)) :
    ∃ entry, table.entries[i]? = some entry ∧ entry.definition = definition ∧ entry.typeIndex = i := by
  rw [← h.definitions, getElem?_map, Option.map_eq_some_iff] at hi
  obtain ⟨entry, hentry, heq⟩ := hi
  exact ⟨entry, hentry, Option.some.inj heq, h.typeIndex i entry hentry⟩

/-- What the references of all members say. -/
theorem Indexed.referenced (h : Indexed types table) {refs : List (List Nat)}
    (hrefs : allReferences table.entries.length table.entries = .ok refs)
    (hi : (flatten types)[i]? = some (some definition)) :
    ∃ targets, refs[i]? = some targets ∧
      Referenced (flatten types).length i definition targets := by
  obtain ⟨entry, hentry, rfl, hindex⟩ := h.entry hi
  obtain ⟨targets, hget, hreferenced⟩ := (allReferences_eq_ok hrefs).2 i entry hentry
  rw [hindex, h.length] at hreferenced
  exact ⟨targets, hget, hreferenced⟩

section
variable (h : Indexed types table) (hplan : planPhysicalTypeSection table forcedGroups = .ok groups)
include h hplan

/-- A plan is admissible. -/
theorem plan_admissible :
    Admissible types forcedGroups (groups.map (·.interval)) := by
  obtain ⟨refs, forced, hrefs, hforced, hgroups, hmerged⟩ := planPhysicalTypeSection_eq_ok hplan
  have hsound := groupsFrom_sound h (allReferences_eq_ok hrefs).1 hgroups (Nat.zero_le _)
    (Nat.le_add_left _ _)
  have htiles := hsound.tiles
  rw [h.length] at htiles
  refine ⟨htiles, fun interval hinterval => ?_, fun f hf => ?_, fun i definition hi v hv target ht => ?_⟩
  · obtain ⟨range, hrange, rfl⟩ := mem_map.mp ((h.mem_explicit interval).mpr hinterval)
    exact hsound.explicit range hrange (Nat.zero_le _)
  · rw [checkForced_eq_ok hforced] at hf
    obtain ⟨f', hf', rfl⟩ := mem_map.mp hf
    exact ⟨f', checkMerged_eq_ok hmerged f' hf', rfl⟩
  · obtain ⟨targets, hget, hreferenced⟩ := h.referenced hrefs hi
    obtain ⟨n, hn, rfl⟩ := (hreferenced.targets target).mp ⟨v, hv, ht⟩
    have hlt := (List.getElem?_eq_some_iff.mp hi).1
    obtain ⟨g, hg, hg1, hg2⟩ := htiles.covers (Nat.zero_le i) hlt
    obtain ⟨g', hg', hg'1, hg'2⟩ := htiles.covers (Nat.zero_le n) (hreferenced.inRange n hn)
    refine ⟨g, hg, g', hg', hg1, hg2, by exact_mod_cast hg'1, by exact_mod_cast hg'2, ?_⟩
    obtain ⟨group, hgroup, rfl⟩ := mem_map.mp hg
    obtain ⟨targets', hget', hall⟩ := hsound.references group hgroup i hg1 hg2
    cases hget.symm.trans hget'
    have hle := hall n hn
    -- the group of the target does not start after this group ends, so it is this one or earlier
    by_contra hlater
    have := htiles.eq_of_meet hg hg' (by lia) (by simp only [PhysicalTypeGroup.interval]; lia)
    rw [this] at hlater
    exact hlater .refl

/-- A plan is the finest admissible cut. -/
theorem plan_finer {l : List (Nat × Nat)} (hl : Admissible types forcedGroups l) :
    Finer (groups.map (·.interval)) l := by
  obtain ⟨refs, forced, hrefs, hforced, hgroups, -⟩ := planPhysicalTypeSection_eq_ok hplan
  have htiles := hl.tiles
  rw [← h.length] at htiles
  refine groupsFrom_finer h htiles (fun g hg i targets h1 h2 hget n hn => ?_) (fun range hrange => ?_)
    (fun f hf => ?_) hgroups
  · have hlt : i < table.entries.length := by have := htiles.bounds hg; lia
    obtain ⟨entry, hentry⟩ : ∃ entry, table.entries[i]? = some entry :=
      ⟨_, getElem?_eq_getElem hlt⟩
    have hi : (flatten types)[i]? = some (some entry.definition) := by
      rw [← h.definitions, getElem?_map, hentry]
      rfl
    obtain ⟨targets', hget', hreferenced⟩ := h.referenced hrefs hi
    cases hget.symm.trans hget'
    obtain ⟨v, hv, ht⟩ := (hreferenced.targets n).mpr ⟨n, hn, rfl⟩
    obtain ⟨g1, hg1, g2, hg2, hi1, hi2, hn1, hn2, hle⟩ := hl.references i _ hi v hv n ht
    have hg1eq := htiles.eq_of_meet hg1 hg (by lia) (by lia)
    subst hg1eq
    by_contra hlater
    have heq := htiles.eq_of_meet hg1 hg2 (by lia) (by lia)
    subst heq
    lia
  · exact hl.explicit _ ((h.mem_explicit _).mp (mem_map_of_mem hrange))
  · have hmem : ((f.1 : Int), (f.2 : Int)) ∈ forcedGroups := by
      rw [checkForced_eq_ok hforced]
      exact mem_map.mpr ⟨f, hf, rfl⟩
    obtain ⟨g, hg, heq⟩ := hl.forced _ hmem
    have hfg : f = g := by
      simp only [Prod.mk.injEq] at heq
      exact Prod.ext (Int.ofNat.inj heq.1) (Int.ofNat.inj heq.2)
    rwa [hfg]

end

/-! ### Plans that fail -/

theorem scanGroup_total {refs : List (List Nat)} {scan start last : Nat}
    (hlast : last < scan + refs.length) (hle : scan ≤ last + 1)
    (hrefs : ∀ (i : Nat) (targets : List Nat), refs[i]? = some targets → ∀ n ∈ targets, n < scan + refs.length) :
    ∃ result, scanGroup [] [] none start refs scan last = .ok result := by
  induction refs generalizing scan last with
  | nil => exact ⟨last, scanGroup_done (by simpa using hlast)⟩
  | cons targets refs ih =>
    rw [scanGroup]
    split
    · exact ⟨last, rfl⟩
    · have hnext : targets.foldl max last < scan + (targets :: refs).length := by
        have htargets : ∀ n ∈ targets, n ≤ scan + refs.length := fun n hn => by
          have := hrefs 0 targets rfl n hn
          rw [length_cons] at this
          lia
        rw [length_cons] at hlast ⊢
        have := @foldl_max_le last _ _ (by lia) htargets
        lia
      have hfold := (le_foldl_max targets last).1
      simp only [pushForced, foldl_nil, any_nil]
      refine ih ?_ (by lia) fun i targets' hget n hn => ?_
      · rw [length_cons] at hnext
        lia
      · have := hrefs (i + 1) targets' hget n hn
        rw [length_cons] at this
        lia

/-- Without explicit and forced groups, only references and supertypes can fail. -/
theorem groupsFrom_total {refs : List (List Nat)} {rounds : Nat}
    (hexplicit : table.explicitGroups = []) (hlength : refs.length = table.entries.length)
    (hrefs : ∀ (i : Nat) (targets : List Nat), refs[i]? = some targets →
      ∀ n ∈ targets, n < table.entries.length) (start : Nat) :
    ∃ groups, groupsFrom table refs [] rounds start = .ok groups := by
  induction rounds generalizing start with
  | zero => exact ⟨[], rfl⟩
  | succ rounds ih =>
    rcases Nat.lt_or_ge start table.entries.length with hlt | hge
    · obtain ⟨last, hscan⟩ := @scanGroup_total (refs.drop start) start start start
        (by rw [length_drop]; lia) (by lia) fun i targets hget n hn => by
          rw [getElem?_drop] at hget
          have := hrefs (start + i) targets hget n hn
          rw [length_drop]
          lia
      obtain ⟨rest, hrest⟩ := ih (last + 1)
      refine ⟨⟨start, last, decide (start < last), none⟩ :: rest, ?_⟩
      rw [groupsFrom, if_neg (Nat.not_le.mpr hlt), hexplicit]
      simp [hscan, hrest, bind, Except.bind, pure, Except.pure]
    · exact ⟨[], by rw [groupsFrom, if_pos hge]⟩

theorem plan_error {e : String} (h : Indexed types table) (hexplicit : table.explicitGroups = [])
    (hplan : planPhysicalTypeSection table [] = .error e) :
    ∃ (i : Nat) (definition : TypeDef), (flatten types)[i]? = some (some definition) ∧
      Bad (flatten types).length i definition := by
  rcases bind_eq_error.mp hplan with hrefs | ⟨refs, hrefs, hplan⟩
  · obtain ⟨entry, hentry, hbad⟩ := allReferences_eq_error hrefs h.checked
    obtain ⟨i, hi⟩ := mem_iff_getElem?.mp hentry
    rw [h.typeIndex i entry hi, h.length] at hbad
    refine ⟨i, entry.definition, ?_, hbad⟩
    rw [← h.definitions, getElem?_map, hi]
    rfl
  · obtain ⟨hlength, hall⟩ := allReferences_eq_ok hrefs
    have htargets : ∀ (i : Nat) (targets : List Nat), refs[i]? = some targets →
        ∀ n ∈ targets, n < table.entries.length := by
      intro i targets hget n hn
      obtain ⟨hlt, -⟩ := List.getElem?_eq_some_iff.mp hget
      obtain ⟨targets', hget', hreferenced⟩ :=
        hall i table.entries[i] (getElem?_eq_getElem (hlength ▸ hlt))
      cases hget.symm.trans hget'
      exact hreferenced.inRange n hn
    obtain ⟨groups, hgroups⟩ := @groupsFrom_total _ _ table.entries.length hexplicit hlength
      htargets 0
    simp [checkForced, checkMerged, hgroups, bind, Except.bind, pure, Except.pure] at hplan

end Plan

/-- **The type section is cut into the finest groups that its references, its `rec` records and
the forced intervals allow**, supertypes come first, and without explicit or forced groups only a
reference out of range or a supertype that does not come first is refused. -/
theorem planPhysicalTypeSection_sound (types : List (Option TypeDef))
    (forcedGroups : List (Int × Int)) (table : PhysicalTypeTable)
    (h : indexPhysicalTypes types = .ok table) :
    (∀ groups, planPhysicalTypeSection table forcedGroups = .ok groups →
      Admissible types forcedGroups (groups.map (·.interval)) ∧
      (∀ (i : Nat) (definition : TypeDef), (flatten types)[i]? = some (some definition) →
        ∀ index ∈ definition.supers, 0 ≤ index ∧ index < (i : Int)) ∧
      ∀ l, Admissible types forcedGroups l → Finer (groups.map (·.interval)) l) ∧
    ((∀ record members, some record ∈ types → record ≠ .rec_ members) →
      ∀ e, planPhysicalTypeSection table [] = .error e →
        ∃ (i : Nat) (definition : TypeDef), (flatten types)[i]? = some (some definition) ∧
          Bad (flatten types).length i definition) := by
  have hindexed := indexPhysicalTypes_spec h
  refine ⟨fun groups hplan => ⟨plan_admissible hindexed hplan, ?_, fun l hl => ?_⟩, fun hrec e he => ?_⟩
  · intro i definition hi
    obtain ⟨refs, -, hrefs, -⟩ := planPhysicalTypeSection_eq_ok hplan
    obtain ⟨targets, -, hreferenced⟩ := hindexed.referenced hrefs hi
    exact hreferenced.supers
  · exact plan_finer hindexed hplan hl
  · refine plan_error hindexed ?_ he
    rw [← map_eq_nil_iff (f := (·.interval)), eq_nil_iff_forall_not_mem]
    intro interval hinterval
    obtain ⟨k, members, hk, -⟩ := (hindexed.mem_explicit interval).mp hinterval
    exact hrec _ members (mem_of_getElem? hk) rfl

/-- A structure that refers to a later array, which refers back, and a `rec` record: one group
for the first two and one for the record. -/
theorem planPhysicalTypeSection_sound_forward :
    Admissible [some (.struct [.ref 1] none), some (.array (.ref_null 0)),
        some (.rec_ [some (.func [.ref 2] []), some (.sub (some 0) (.struct [] none))])]
      [] [(0, 1), (2, 3)] := by
  exact ((planPhysicalTypeSection_sound
    [some (.struct [.ref 1] none), some (.array (.ref_null 0)),
      some (.rec_ [some (.func [.ref 2] []), some (.sub (some 0) (.struct [] none))])] [] _ rfl).1
    [⟨0, 1, true, none⟩, ⟨2, 3, true, some 2⟩] (by decide +kernel)).1

end Js2Wasm.Physical
