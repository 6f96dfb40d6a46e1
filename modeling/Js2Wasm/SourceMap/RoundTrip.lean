import Js2Wasm.SourceMap.Mappings

/-! # What is read back from a source map

`generateSourceMap_reads_back` puts the two sides together: the differences of the
sorted entries fit their VLQ words, so adding them up gives the positions again, and
every position leads to its entry.  The bound on the number of files is sharp: with
2^31 + 1 files the source index falls by 2^31 when the first file comes again, and
`manyFiles_misread` follows what the reader makes of it.
-/
namespace Js2Wasm.SourceMap
open List

/-- Offset, line and column are below 2^31. -/
def SourceMapEntry.Small (e : SourceMapEntry) : Prop :=
  e.wasmOffset < 2 ^ 31 ∧ e.sourcePos.line < 2 ^ 31 ∧ e.sourcePos.column < 2 ^ 31

/-- The four values of a position lie in [0, 2^31). -/
def Position.Small (p : Position) : Prop :=
  (0 ≤ p.wasmOffset ∧ p.wasmOffset < 2 ^ 31) ∧ (0 ≤ p.sourceIdx ∧ p.sourceIdx < 2 ^ 31) ∧
    (0 ≤ p.sourceLine ∧ p.sourceLine < 2 ^ 31) ∧ (0 ≤ p.sourceCol ∧ p.sourceCol < 2 ^ 31)

theorem Position.Small.zero : ({} : Position).Small := by
  simp [Position.Small]

variable {p prev : Position} {i n : Nat} {entries : List SourceMapEntry} {ps : List Position}

theorem Position.Small.deltas (hprev : prev.Small) (hp : p.Small) :
    ∀ v ∈ prev.deltas p, v.natAbs < 2 ^ 31 := by
  unfold Position.Small at hprev hp
  simp only [Position.deltas, mem_cons, not_mem_nil, or_false]
  rintro v (rfl | rfl | rfl | rfl) <;> omega

theorem fits_of_small (hprev : prev.Small) (hps : ∀ p ∈ ps, p.Small) : Fits prev ps := by
  induction ps generalizing prev with
  | nil => exact fun _ h => nomatch h
  | cons p ps ih =>
    obtain ⟨hp, hrest⟩ := forall_mem_cons.mp hps
    exact forall_mem_cons.mpr ⟨hprev.deltas hp, ih hp hrest⟩

/-- A table of at most 2^31 sources gives the entries small positions. -/
theorem position_small {entry : SourceMapEntry}
    (hcount : (sourceTable entries).sources.length ≤ 2 ^ 31) (hmem : entry ∈ entries)
    (hsmall : entry.Small) : ((sourceTable entries).position entry).Small := by
  obtain ⟨hok, hfiles⟩ := sourceTable_indexed entries
  obtain ⟨i, hi⟩ := getElem?_of_mem ((hfiles _).mpr (mem_map_of_mem hmem))
  obtain ⟨hlt, -⟩ := List.getElem?_eq_some_iff.mp hi
  obtain ⟨ho, hl, hc⟩ := hsmall
  simp only [Position.Small, SourceTable.position, hok.indexOf hi]
  omega

theorem length_sources_le {sorted : List SourceMapEntry} (hperm : sorted.Perm entries) :
    (sourceTable sorted).sources.length ≤ (entries.map (·.sourcePos.file)).dedup.length := by
  obtain ⟨hok, hfiles⟩ := sourceTable_indexed sorted
  refine (subperm_of_subset hok.nodup fun f hf => ?_).length_le
  exact mem_dedup.mpr ((hperm.map _).mem_iff.mp ((hfiles f).mp hf))

theorem mapM_map_some {α β γ : Type} {f : β → Option γ} {p : α → β} {g : α → γ} {l : List α}
    (h : ∀ a ∈ l, f (p a) = some (g a)) : (l.map p).mapM f = some (l.map g) := by
  induction l with
  | nil => rfl
  | cons a l ih =>
    rw [map_cons, mapM_cons, h a mem_cons_self,
      ih fun b hb => h b (mem_cons_of_mem _ hb)]
    rfl

/-- What is read from the map of a list of entries. -/
theorem readMappings_generate (hne : entries ≠ []) (content : String → Option String) :
    readMappings (generateSourceMap entries content) =
      (undoDeltas {} ((deltaList {} ((sortEntries entries).map
          (sourceTable (sortEntries entries)).position)).map (·.map readValue))).bind
        fun ps => ps.mapM (entryAt (sourceTable (sortEntries entries)).sources) := by
  have hsorted : (sortEntries entries).map (sourceTable (sortEntries entries)).position ≠ [] := by
    intro h
    have hlen := (sortEntries_stablySorted entries).perm.length_eq
    rw [map_eq_nil_iff.mp h] at hlen
    exact hne (length_eq_zero_iff.mp hlen.symm)
  rw [readMappings, generateSourceMap, if_neg hne]
  dsimp only
  rw [decodeMappings_segments hsorted]

/-- **The round trip.**  For entries with offsets, lines and columns below 2^31 and at
most 2^31 different files, the reader of the map recovers the entries, sorted stably by
wasm offset; and a value of magnitude below 2^31 comes back from its VLQ string, with
what follows it. -/
theorem generateSourceMap_reads_back (entries : List SourceMapEntry)
    (content : String → Option String) (hsmall : ∀ e ∈ entries, e.Small)
    (hfiles : (entries.map (·.sourcePos.file)).dedup.length ≤ 2 ^ 31) :
    (∃ sorted, StablySorted entries sorted ∧
      readMappings (generateSourceMap entries content) = some sorted) ∧
    ∀ (value : Int) (rest : List Char), value.natAbs < 2 ^ 31 →
      decodeVLQ (encodeVLQ value ++ rest) = .ok (value, rest) := by
  constructor
  · have hsorted := sortEntries_stablySorted entries
    refine ⟨sortEntries entries, hsorted, ?_⟩
    by_cases hne : entries = []
    · subst hne
      have hdecode : decodeMappings [] = .ok [[]] := by
        rw [decodeMappings, splitOn_nil]
        rfl
      rw [generateSourceMap, if_pos rfl, readMappings, hdecode]
      simp [undoDeltas, sortEntries]
    · have hcount := (length_sources_le hsorted.perm).trans hfiles
      have hpos : ∀ p ∈ (sortEntries entries).map (sourceTable (sortEntries entries)).position,
          p.Small := by
        intro p hp
        obtain ⟨e, he, rfl⟩ := mem_map.mp hp
        exact position_small hcount he (hsmall e (hsorted.perm.mem_iff.mp he))
      rw [readMappings_generate hne, undoDeltas_deltaList (fits_of_small .zero hpos),
        Option.bind_some]
      exact (mapM_map_some fun e he => entryAt_position he).trans (by rw [map_id'])
  · intro value rest hvalue
    rw [decodeVLQ_encodeVLQ, wordValue_vlqWord hvalue]

/-- Two files, given in the wrong order. -/
def twoFiles : List SourceMapEntry := [⟨20, "b.ts", 5, 2⟩, ⟨10, "a.ts", 0, 0⟩]

theorem twoFiles_reads_back :
    (∃ sorted, StablySorted twoFiles sorted ∧
      readMappings (generateSourceMap twoFiles fun _ => none) = some sorted) ∧
    ∀ (value : Int) (rest : List Char), value.natAbs < 2 ^ 31 →
      decodeVLQ (encodeVLQ value ++ rest) = .ok (value, rest) :=
  generateSourceMap_reads_back twoFiles (fun _ => none)
    (by simp [twoFiles, SourceMapEntry.Small])
    ((dedup_sublist _).length_le.trans (by decide))

/-! ### One file too many -/

/-- An entry of the `i`-th file. -/
def fileEntry (i : Nat) : SourceMapEntry := ⟨0, String.ofList (replicate i 'a'), 0, 0⟩

/-- One entry of each of `n + 1` files, and one of the first file again. -/
def manyFiles (n : Nat) : List SourceMapEntry :=
  (range (n + 1)).map fileEntry ++ [fileEntry 0]

theorem fileEntry_file_injective {j : Nat}
    (h : (fileEntry i).sourcePos.file = (fileEntry j).sourcePos.file) : i = j := by
  have hlist := congrArg (fun s => s.toList.length) h
  simpa [fileEntry] using hlist

theorem sortEntries_manyFiles (n : Nat) : sortEntries (manyFiles n) = manyFiles n := by
  refine mergeSort_of_pairwise (pairwise_of_forall_mem_list fun a ha b hb => ?_)
  have hzero : ∀ e ∈ manyFiles n, e.wasmOffset = 0 := by
    intro e he
    rcases mem_append.mp he with he | he
    · obtain ⟨i, -, rfl⟩ := mem_map.mp he
      rfl
    · exact mem_singleton.mp he ▸ rfl
  simp [hzero a ha, hzero b hb]

theorem sources_range (k : Nat) : (sourceTable ((range k).map fileEntry)).sources =
    (range k).map fun i => (fileEntry i).sourcePos.file := by
  induction k with
  | zero => rfl
  | succ k ih =>
    obtain ⟨hok, hfiles⟩ := sourceTable_indexed ((range k).map fileEntry)
    have hnew : (fileEntry k).sourcePos.file ∉
        (sourceTable ((range k).map fileEntry)).sources := by
      rw [ih]
      intro hf
      obtain ⟨i, hi, he⟩ := mem_map.mp hf
      have hik := fileEntry_file_injective he
      exact absurd (mem_range.mp hi) (by omega)
    rw [range_succ, map_append, map_append, sourceTable, foldl_append]
    change ((sourceTable ((range k).map fileEntry)).add _).sources = _
    rw [(hok.add _).2, if_neg hnew, ih]
    rfl

theorem sources_manyFiles (n : Nat) : (sourceTable (manyFiles n)).sources =
    (range (n + 1)).map fun i => (fileEntry i).sourcePos.file := by
  obtain ⟨hok, -⟩ := sourceTable_indexed ((range (n + 1)).map fileEntry)
  rw [manyFiles, sourceTable, foldl_append]
  change ((sourceTable ((range (n + 1)).map fileEntry)).add _).sources = _
  rw [(hok.add _).2, sources_range, if_pos]
  exact mem_map.mpr ⟨0, mem_range.mpr (Nat.succ_pos n), rfl⟩

theorem position_manyFiles (hi : i ≤ n) :
    (sourceTable (manyFiles n)).position (fileEntry i) = { sourceIdx := i } := by
  obtain ⟨hok, -⟩ := sourceTable_indexed (manyFiles n)
  have hget : (sourceTable (manyFiles n)).sources[i]? = some (fileEntry i).sourcePos.file := by
    rw [sources_manyFiles, getElem?_map, getElem?_range (by omega)]
    rfl
  rw [SourceTable.position, hok.indexOf hget]
  rfl

/-- The differences of a further position are added to the last one. -/
theorem undoDeltas_concat {q : Position} (h : Fits prev (ps ++ [p])) :
    undoDeltas prev ((deltaList prev (ps ++ [p] ++ [q])).map (·.map readValue)) =
      some (ps ++ [p] ++ [⟨p.wasmOffset + readValue (q.wasmOffset - p.wasmOffset),
        p.sourceIdx + readValue (q.sourceIdx - p.sourceIdx),
        p.sourceLine + readValue (q.sourceLine - p.sourceLine),
        p.sourceCol + readValue (q.sourceCol - p.sourceCol)⟩]) := by
  induction ps generalizing prev with
  | nil =>
    have hread := map_readValue (h _ mem_cons_self)
    simp only [nil_append, singleton_append, deltaList, map_cons, map_nil]
    rw [hread, Position.deltas, undoDeltas]
    simp only [add_sub_cancel]
    rfl
  | cons r ps ih =>
    have hread := map_readValue (h _ mem_cons_self)
    have hrest : Fits r (ps ++ [p]) := fun values hv => h values (mem_cons_of_mem _ hv)
    simp only [cons_append, deltaList, map_cons]
    rw [hread, Position.deltas, undoDeltas]
    simp only [add_sub_cancel]
    rw [ih hrest]
    rfl

theorem fits_consecutive (len s : Nat) :
    Fits { sourceIdx := s } ((List.range' (s + 1) len).map fun i : Nat => { sourceIdx := i }) := by
  induction len generalizing s with
  | zero => exact fun _ h => nomatch h
  | succ len ih =>
    rw [range'_succ, map_cons]
    exact forall_mem_cons.mpr ⟨by simp [Position.deltas], ih (s + 1)⟩

theorem fits_range (n : Nat) :
    Fits {} ((range (n + 1)).map fun i : Nat => { sourceIdx := i }) := by
  rw [range_eq_range', range'_succ, map_cons]
  exact forall_mem_cons.mpr ⟨by simp [Position.deltas], fits_consecutive n 0⟩

/-- Where the index falls by a value that is read as 0, the file stays the last one. -/
theorem readMappings_manyFiles (hn : readValue (0 - (n : Int)) = 0) :
    readMappings (generateSourceMap (manyFiles n) fun _ => none) =
      some ((range (n + 1)).map fileEntry ++ [fileEntry n]) := by
  have hne : manyFiles n ≠ [] := append_ne_nil_of_right_ne_nil _ (cons_ne_nil _ _)
  have hpos : (manyFiles n).map (sourceTable (manyFiles n)).position =
      (range n).map (fun i : Nat => ({ sourceIdx := i } : Position)) ++
        [{ sourceIdx := n }] ++ [{ sourceIdx := (0 : Nat) }] := by
    have hrange : ((range (n + 1)).map fileEntry).map (sourceTable (manyFiles n)).position =
        (range (n + 1)).map fun i : Nat => ({ sourceIdx := i } : Position) := by
      rw [map_map]
      exact map_congr_left fun i hi =>
        position_manyFiles (Nat.lt_succ_iff.mp (mem_range.mp hi))
    have hfirst := position_manyFiles (Nat.zero_le n)
    generalize sourceTable (manyFiles n) = table at hrange hfirst ⊢
    rw [manyFiles, map_append, hrange, map_singleton, hfirst, range_succ,
      map_append, map_singleton]
  have hfits : Fits {} ((range n).map (fun i : Nat => ({ sourceIdx := i } : Position)) ++
      [{ sourceIdx := n }]) := by
    have h := fits_range n
    rwa [range_succ, map_append, map_singleton] at h
  have hread : ∀ i ≤ n, entryAt (sourceTable (manyFiles n)).sources { sourceIdx := i } =
      some (fileEntry i) := by
    intro i hi
    have hget : (sourceTable (manyFiles n)).sources[i]? = some (fileEntry i).sourcePos.file := by
      rw [sources_manyFiles, getElem?_map, getElem?_range (by omega)]
      rfl
    simp [entryAt, hget, fileEntry]
  have hback : (range n).map (fun i : Nat => ({ sourceIdx := i } : Position)) ++
      [{ sourceIdx := n }] ++ [{ sourceIdx := n }] =
        (range (n + 1) ++ [n]).map fun i : Nat => ({ sourceIdx := i } : Position) := by
    rw [map_append, range_succ, map_append, map_singleton]
  rw [readMappings_generate hne, sortEntries_manyFiles, hpos, undoDeltas_concat hfits]
  simp only [Nat.cast_zero, hn, sub_self, Int.add_zero]
  rw [show readValue 0 = 0 from wordValue_vlqWord (by decide), Option.bind_some]
  simp only [Int.add_zero]
  have hall : ∀ i ∈ range (n + 1) ++ [n], i ≤ n := by
    intro i hi
    rcases mem_append.mp hi with hi | hi
    · exact Nat.lt_succ_iff.mp (mem_range.mp hi)
    · exact (mem_singleton.mp hi).le
  rw [hback, mapM_map_some (g := fileEntry) fun i hi => hread i (hall i hi), map_append,
    map_singleton]

/-- **The number of files matters**: with 2^31 + 1 files, the map of entries with small
offsets, lines and columns is read wrongly. -/
theorem manyFiles_misread : (∀ e ∈ manyFiles (2 ^ 31), e.Small) ∧
    ¬ ∃ sorted, StablySorted (manyFiles (2 ^ 31)) sorted ∧
      readMappings (generateSourceMap (manyFiles (2 ^ 31)) fun _ => none) = some sorted := by
  have hlost : readValue (0 - ((2 ^ 31 : Nat) : Int)) = 0 := by decide
  generalize hn : (2 ^ 31 : Nat) = n at hlost ⊢
  have hzero : ∀ e ∈ manyFiles n, ∃ i, e = fileEntry i := by
    intro e he
    rcases mem_append.mp he with he | he
    · obtain ⟨i, -, rfl⟩ := mem_map.mp he
      exact ⟨i, rfl⟩
    · exact ⟨0, mem_singleton.mp he⟩
  constructor
  · intro e he
    obtain ⟨i, rfl⟩ := hzero e he
    exact ⟨Nat.two_pow_pos 31, Nat.two_pow_pos 31, Nat.two_pow_pos 31⟩
  · rintro ⟨sorted, hsorted, hread⟩
    have hall : ∀ l : List SourceMapEntry, (∀ e ∈ l, ∃ i, e = fileEntry i) →
        (l.filter fun e => e.wasmOffset = 0) = l := by
      intro l hl
      refine filter_eq_self.mpr fun e he => ?_
      obtain ⟨i, rfl⟩ := hl e he
      rfl
    have heq : sorted = manyFiles n := by
      rw [← hall sorted fun e he => hzero e (hsorted.perm.mem_iff.mp he), hsorted.stable,
        hall _ hzero]
    rw [readMappings_manyFiles hlost, heq, manyFiles, Option.some.injEq] at hread
    have hlast := append_cancel_left hread
    have hfile := congrArg (fun e => e.sourcePos.file) (List.cons.inj hlast).1
    have hzero' := fileEntry_file_injective hfile
    omega

end Js2Wasm.SourceMap
