import Js2Wasm.Script.HtmlComments
import Js2Wasm.SourceMap.Inversion

/-! # Define substitution

`applyDefineSubstitutionsWithMap` (`compiler/define-substitution.ts`): one pass over the text for
each key, the longest key first.  A pass replaces the matches of the key's pattern and puts its
map in front of the maps of the passes before.  The optional callback that captures the stages
is left out.

The passes are stages whose edits stand one behind the other (`chain_keyStages`), so the returned
map inverts them.
-/
namespace Js2Wasm.SourceMap
open TextEdits Script List

/-! ### The pattern of a key -/

/-- `\w` -/
def isWord (u : Nat) : Bool :=
  (0x30 ≤ u && u ≤ 0x39) || (0x41 ≤ u && u ≤ 0x5a) || u == 0x5f || (0x61 ≤ u && u ≤ 0x7a)

/-- `(?<![.\w$])` -/
def notAfterPath (source : Text) (index : Nat) : Bool :=
  index == 0 || !(source[index - 1]?).any fun u => u == 0x2e || isWord u || u == 0x24

/-- `(?![\w$])` -/
def notBeforeWord (rest : Text) : Bool := !rest.head?.any fun u => isWord u || u == 0x24

/-- A literal text and the lookahead behind it: the length of the match. -/
def matchLiteral (literal rest : Text) : Option Nat :=
  if literal.isPrefixOf rest && notBeforeWord (rest.drop literal.length) then some literal.length
  else none

/-- `\s+` and then a literal text; the repetition gives spaces back from its longest match,
`spaces`, on. -/
def matchSpaces (literal rest : Text) : Nat → Option Nat
  | 0 => none
  | spaces + 1 =>
    match matchLiteral literal (rest.drop (spaces + 1)) with
    | some length => some (spaces + 1 + length)
    | none => matchSpaces literal rest spaces

/-- `typeof` -/
def typeofWord : Text := [0x74, 0x79, 0x70, 0x65, 0x6f, 0x66]

/-- The length of the match of a key's pattern at an index. -/
def matchKey (key source : Text) (index : Nat) : Option Nat :=
  if notAfterPath source index then
    if (typeofWord ++ [space]).isPrefixOf key then
      if typeofWord.isPrefixOf (source.drop index) then
        let rest := source.drop (index + typeofWord.length)
        (matchSpaces (key.drop 7) rest (rest.takeWhile isSpace).length).map (typeofWord.length + ·)
      else none
    else matchLiteral key (source.drop index)
  else none

/-- `matchAll`: start and end of every match, from an index on.  After an empty match the search
goes on one further. -/
def matchesFrom (key source : Text) (index : Nat) : List (Nat × Nat) :=
  if source.length < index then []
  else
    match matchKey key source index with
    | none => matchesFrom key source (index + 1)
    | some length =>
      (index, index + length) ::
        matchesFrom key source (if length = 0 then index + 1 else index + length)
  termination_by source.length + 1 - index
  decreasing_by
    · omega
    · split <;> omega

def matchAll (key source : Text) : List (Nat × Nat) := matchesFrom key source 0

/-! ### The passes -/

structure Pass where
  out : Text
  edits : List SourceEdit
  last : Nat

/-- The body of the loop over the matches. -/
def Pass.replace (current replacement : Text) (pass : Pass) (m : Nat × Nat) : Pass where
  out := pass.out ++ ((current.drop pass.last).take (m.1 - pass.last) ++ replacement)
  edits := pass.edits ++ [⟨m.1, m.2, replacement.length⟩]
  last := m.2

structure Substituted where
  source : Text
  positionMap : PositionMap

/-- The body of the loop over the keys. -/
def substituteKey (key replacement : Text) (state : Substituted) : Substituted :=
  let pass := (matchAll key state.source).foldl (Pass.replace state.source replacement) ⟨[], [], 0⟩
  if pass.edits = [] then state
  else
    { source := pass.out ++ state.source.drop pass.last
      positionMap := (PositionMap.new pass.edits none).compose state.positionMap }

/-- The keys with their replacements, longer keys first; equal ones stay in their order. -/
def sortKeys (defines : List (Text × Text)) : List (Text × Text) :=
  defines.insertionSort fun a b => b.1.length ≤ a.1.length

def applyDefineSubstitutionsWithMap (source : Text) (defines : List (Text × Text)) : Substituted :=
  if defines = [] then ⟨source, .identity⟩
  else (sortKeys defines).foldl (fun state d => substituteKey d.1 d.2 state) ⟨source, .identity⟩

/-! ### The stages -/

def matchEdits (replacement : Text) (ms : List (Nat × Nat)) : List (Edit Nat) :=
  ms.map fun m => ⟨m.1, m.2, replacement⟩

/-- The edits of a pass. -/
def keyEdits (key replacement source : Text) : List (Edit Nat) :=
  matchEdits replacement (matchAll key source)

/-- The stages of the passes; a pass without a match is none. -/
def keyStages : Text → List (Text × Text) → List (List (Edit Nat))
  | _, [] => []
  | source, d :: defines =>
    if matchAll d.1 source = [] then keyStages source defines
    else keyEdits d.1 d.2 source :: keyStages (edited source (keyEdits d.1 d.2 source)) defines

/-- The stages that a set of defines makes of a text. -/
def defineStages (source : Text) (defines : List (Text × Text)) : List (List (Edit Nat)) :=
  keyStages source (sortKeys defines)

section
variable {key replacement source : Text} {index length : Nat}

variable {rest literal : Text}

theorem matchLiteral_le (h : matchLiteral literal rest = some length) : length ≤ rest.length := by
  rw [matchLiteral] at h
  split_ifs at h with hm
  cases h
  rw [Bool.and_eq_true, isPrefixOf_iff_prefix] at hm
  exact hm.1.length_le

theorem matchSpaces_le {spaces : Nat} (h : matchSpaces literal rest spaces = some length)
    (hs : spaces ≤ rest.length) : length ≤ rest.length := by
  induction spaces with
  | zero => cases h
  | succ spaces ih =>
    rw [matchSpaces] at h
    split at h
    · rename_i l hl
      have := matchLiteral_le hl
      rw [length_drop] at this
      cases h
      omega
    · exact ih h (by omega)

/-- A match ends in the text. -/
theorem matchKey_le (h : matchKey key source index = some length) (hi : index ≤ source.length) :
    index + length ≤ source.length := by
  rw [matchKey] at h
  split_ifs at h with h1 h2 h3
  · obtain ⟨l, hl, rfl⟩ := Option.map_eq_some_iff.mp h
    have hspaces := matchSpaces_le hl <| IsPrefix.length_le <| takeWhile_prefix _
    have htypeof := IsPrefix.length_le <| isPrefixOf_iff_prefix.mp h3
    rw [length_drop] at hspaces htypeof
    omega
  · have := matchLiteral_le h
    rw [length_drop] at this
    omega

/-- Matches stand one behind the other. -/
theorem matchesFrom_inOrder (key source : Text) (index : Nat) :
    (∀ m ∈ matchesFrom key source index, index ≤ m.1 ∧ m.1 ≤ m.2 ∧ m.2 ≤ source.length) ∧
      (matchesFrom key source index).Pairwise fun a b => a.2 ≤ b.1 := by
  fun_induction matchesFrom key source index with
  | case1 => exact ⟨fun m hm => absurd hm not_mem_nil, List.Pairwise.nil⟩
  | case2 index hi hnone ih =>
    exact ⟨fun m hm => by have := ih.1 m hm; omega, ih.2⟩
  | case3 index hi length hsome ih =>
    simp only [dite_eq_ite] at ih
    have hle := matchKey_le hsome (by omega)
    have hnext : index + length ≤ if length = 0 then index + 1 else index + length := by
      split <;> omega
    refine ⟨fun m hm => ?_, pairwise_cons.mpr ⟨fun m hm => ?_, ih.2⟩⟩
    · rcases mem_cons.mp hm with rfl | hm
      · exact ⟨le_rfl, Nat.le_add_right _ _, hle⟩
      · have := ih.1 m hm
        omega
    · have := ih.1 m hm
      exact hnext.trans this.1

theorem keyEdits_inOrder (key replacement source : Text) :
    (∀ e ∈ keyEdits key replacement source, e.start ≤ e.stop ∧ e.stop ≤ source.length) ∧
      (keyEdits key replacement source).Pairwise fun a b => a.stop ≤ b.start := by
  obtain ⟨hb, ho⟩ := matchesFrom_inOrder key source 0
  refine ⟨fun e he => ?_, ?_⟩
  · obtain ⟨m, hm, rfl⟩ := mem_map.mp he
    exact (hb m hm).2
  · exact pairwise_map.mpr ho

theorem ordered_keyEdits (key replacement source : Text) :
    Ordered (keyEdits key replacement source) := by
  obtain ⟨hb, ho⟩ := keyEdits_inOrder key replacement source
  refine ho.imp_of_mem fun {a b} ha _ hab hst => .inl ?_
  omega

/-- The loop over the matches collects the edited text and the edits. -/
theorem foldl_replace (replacement source : Text) (ms : List (Nat × Nat)) (pass : Pass)
    (hb : ∀ m ∈ ms, pass.last ≤ m.1 ∧ m.1 ≤ m.2 ∧ m.2 ≤ source.length)
    (ho : ms.Pairwise fun a b => a.2 ≤ b.1) (hlast : pass.last ≤ source.length) :
    let done := ms.foldl (Pass.replace source replacement) pass
    done.out ++ source.drop done.last =
        pass.out ++ spreadFrom Edit.text (fun q => (source[q]?).toList) source.length pass.last
          (matchEdits replacement ms) ∧
      done.edits = pass.edits ++ (matchEdits replacement ms).map sourceEdit := by
  induction ms generalizing pass with
  | nil =>
    refine ⟨?_, (append_nil _).symm⟩
    rw [matchEdits, map_nil, spreadFrom, flatMap_range'_getElem?, foldl_nil,
      take_of_length_le (by rw [length_drop]; omega)]
  | cons m ms ih =>
    obtain ⟨hm, ho⟩ := pairwise_cons.mp ho
    obtain ⟨h1, h2, h3⟩ := hb m mem_cons_self
    obtain ⟨hout, hedits⟩ := ih (pass.replace source replacement m) (fun m' hm' =>
      ⟨hm m' hm', (hb m' (mem_cons_of_mem _ hm')).2⟩) ho h3
    rw [matchEdits, map_cons, spreadFrom, flatMap_range'_getElem?,
      Nat.max_eq_right (h1.trans h2), foldl_cons]
    refine ⟨?_, ?_⟩
    · rw [hout, Pass.replace, matchEdits]
      simp
    · rw [hedits, Pass.replace, matchEdits, append_assoc]
      rfl

/-- A pass makes one stage. -/
theorem substituteKey_eq (key replacement : Text) (state : Substituted) :
    substituteKey key replacement state =
      if matchAll key state.source = [] then state
      else
        { source := edited state.source (keyEdits key replacement state.source)
          positionMap := (PositionMap.ofEdits (keyEdits key replacement state.source)).compose
            state.positionMap } := by
  obtain ⟨hb, ho⟩ := keyEdits_inOrder key replacement state.source
  obtain ⟨hmb, hmo⟩ := matchesFrom_inOrder key state.source 0
  obtain ⟨hout, hedits⟩ := foldl_replace replacement state.source (matchAll key state.source)
    ⟨[], [], 0⟩ hmb hmo (Nat.zero_le _)
  have hnone : (keyEdits key replacement state.source).map sourceEdit = [] ↔
      matchAll key state.source = [] := by
    rw [keyEdits, matchEdits, map_eq_nil_iff, map_eq_nil_iff]
  rw [nil_append, ← keyEdits] at hout hedits
  rw [substituteKey, hout, hedits, edited, spread_eq_of_inOrder hb ho]
  simp only [hnone]
  rfl

theorem foldl_substituteKey (defines : List (Text × Text)) (state : Substituted) :
    defines.foldl (fun state d => substituteKey d.1 d.2 state) state =
      { source := (keyStages state.source defines).foldl edited state.source
        positionMap := (keyStages state.source defines).foldl
          (fun composed edits => (PositionMap.ofEdits edits).compose composed)
          state.positionMap } := by
  induction defines generalizing state with
  | nil => rfl
  | cons d defines ih =>
    rw [foldl_cons, ih, substituteKey_eq, keyStages]
    split_ifs <;> rfl

/-- What the substitution returns is the text and the map of its stages. -/
theorem applyDefineSubstitutionsWithMap_eq (source : Text) (defines : List (Text × Text)) :
    applyDefineSubstitutionsWithMap source defines =
      { source := (defineStages source defines).foldl edited source
        positionMap := .ofStages (defineStages source defines) } := by
  rw [applyDefineSubstitutionsWithMap]
  split_ifs with h
  · rw [h]
    rfl
  · exact foldl_substituteKey _ _

theorem chain_keyStages (source : Text) (defines : List (Text × Text)) :
    Chain source (keyStages source defines) ∧
      ∀ edits ∈ keyStages source defines, Ordered edits := by
  induction defines generalizing source with
  | nil => exact ⟨trivial, fun _ he => nomatch he⟩
  | cons d defines ih =>
    rw [keyStages]
    split_ifs with h
    · exact ih source
    · obtain ⟨hb, ho⟩ := keyEdits_inOrder d.1 d.2 source
      obtain ⟨hc, hord⟩ := ih (edited source (keyEdits d.1 d.2 source))
      refine ⟨⟨⟨hb, ho.imp Or.inl⟩, hc⟩, fun edits he => ?_⟩
      rcases mem_cons.mp he with rfl | he
      · exact ordered_keyEdits ..
      · exact hord edits he

/-- **Position maps invert rewriting.**  The maps of all chains of some stages do, exactly when
no stage inserts text after taking two characters or more away from the same offset on; maps
compose as functions do; and a define substitution returns such a map with its text. -/
theorem positionMaps_exact {α : Type*} {text : List α} {stages : List (List (Edit α))}
    (h : Chain text stages) :
    ((∀ before chain after, stages = before ++ chain ++ after →
        ChainInverts (before.foldl edited text) chain) ↔
      ∀ edits ∈ stages, Ordered edits) ∧
    (∀ n c q, (c, .copied q) ∈ track n (label text) stages → text[q]? = some c) ∧
    (∀ n, (track n (label text) stages).map Prod.fst = stages.foldl edited text) ∧
    (∀ a b c : PositionMap, (a.compose b).compose c = a.compose (b.compose c)) ∧
    (∀ a : PositionMap, a.compose .identity = a ∧
      (PositionMap.identity.compose a).toInputOffset = a.toInputOffset) ∧
    ∀ (source : Text) (defines : List (Text × Text)),
      let result := applyDefineSubstitutionsWithMap source defines
      let stages := defineStages source defines
      Chain source stages ∧ result.source = stages.foldl edited source ∧
        Inverts result.positionMap (track source.length (label source) stages) := by
  refine ⟨chainInverts_iff h, fun n c q => copied_of_mem_track,
    fun n => map_fst_track n text stages, PositionMap.compose_assoc,
    fun a => ⟨PositionMap.compose_identity a, funext fun o => ?_⟩,
    fun source defines => ?_⟩
  · have hid := PositionMap.toInputOffset_of_isIdentity (m := .identity) rfl o
    rw [PositionMap.toInputOffset_compose, hid]
  · obtain ⟨hc, ho⟩ := chain_keyStages source (sortKeys defines)
    refine ⟨hc, ?_, ?_⟩
    · rw [applyDefineSubstitutionsWithMap_eq]
    · rw [applyDefineSubstitutionsWithMap_eq]
      exact chainInverts_of_ordered hc ho

/-- A name given to a text that was inserted by the stage before, with another insertion in front
of a replacement. -/
theorem positionMaps_exact_two_stages :
    ChainInverts [10, 11, 12, 13, 14]
      [[⟨1, 1, [20]⟩, ⟨1, 3, [21, 22]⟩], [⟨1, 3, [30]⟩, ⟨4, 4, []⟩]] := by
  have hchain : Chain [10, 11, 12, 13, 14]
      [[⟨1, 1, [20]⟩, ⟨1, 3, [21, 22]⟩], [⟨1, 3, [30]⟩, ⟨4, 4, []⟩]] :=
    ⟨⟨by decide, by decide⟩, ⟨by decide, by decide⟩, trivial⟩
  exact (positionMaps_exact hchain).1.mpr (by simp [Ordered]) [] _ [] rfl

/-- A replacement of two characters listed before an insertion in front of them: the last
character of the two texts is sent behind the place where they stand. -/
theorem insertion_after_replacement :
    Chain [10, 11, 12, 13, 14, 15, 16, 17] [[⟨3, 5, [20]⟩, ⟨3, 3, [30]⟩]] ∧
      ¬ ChainInverts [10, 11, 12, 13, 14, 15, 16, 17] [[⟨3, 5, [20]⟩, ⟨3, 3, [30]⟩]] := by
  refine ⟨⟨⟨by decide, by decide⟩, trivial⟩, fun h => ?_⟩
  have hcode : (PositionMap.ofStages (α := Nat)
      [[⟨3, 5, [20]⟩, ⟨3, 3, [30]⟩]]).toInputOffset 4 = 4 := by
    decide
  have hclaim := h.written 4 20 3 (by decide)
  rw [hcode] at hclaim
  exact absurd hclaim (by decide)

end

end Js2Wasm.SourceMap
