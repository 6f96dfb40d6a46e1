import Js2Wasm.Regex.Programs

/-! # Alternations of literals and their groups

Where a tree of characters, sequences and alternations ends, position by position in the
order of preference (`litEnds`).  Grouping the literals of an alternation by their first
characters moves a literal only over literals with another first character, and of those
at most one kind matches at a position: the list of ends stays the same
(`litEnds_trieNode`).
-/
namespace Js2Wasm.Regex
open List

/-! ### Ends -/

section Ends

variable (input : JsString) (forward : Bool)

/-- Where a character ends that is matched from a position. -/
def charEnds (c : Nat) (sp : Int) : List Int :=
  if inBounds forward input sp && unitAt forward input sp == some c then [move forward sp 1]
  else []

/-- Where a literal ends. -/
def wordEnds : List Nat → Int → List Int
  | [], sp => [sp]
  | c :: cs, sp => (charEnds input forward c sp).flatMap (wordEnds cs)

mutual

/-- Where a tree of characters, sequences and alternations ends. -/
def litEnds : ReNode → Int → List Int
  | .char c, sp => charEnds input forward c sp
  | .concat parts, sp => litEndsSeq parts sp
  | .alt options, sp => litEndsAny options sp
  | _, _ => []

def litEndsSeq : List ReNode → Int → List Int
  | [], sp => [sp]
  | n :: ns, sp => (litEnds n sp).flatMap (litEndsSeq ns)

/-- An alternation without options matches nothing at its position. -/
def litEndsAny : List ReNode → Int → List Int
  | [], sp => [sp]
  | [n], sp => litEnds n sp
  | n :: ns, sp => litEnds n sp ++ litEndsAny ns sp

end

mutual

/-- A tree of characters, sequences and alternations. -/
def isLiteral : ReNode → Bool
  | .char _ => true
  | .concat parts => areLiteral parts
  | .alt options => areLiteral options
  | _ => false

def areLiteral : List ReNode → Bool
  | [] => true
  | n :: ns => isLiteral n && areLiteral ns

end

variable {input forward}

theorem litEndsAny_cons (n m : ReNode) (nodes : List ReNode) (sp : Int) :
    litEndsAny input forward (n :: m :: nodes) sp =
      litEnds input forward n sp ++ litEndsAny input forward (m :: nodes) sp := by
  rw [litEndsAny]
  exact cons_ne_nil m nodes

theorem litEndsAny_eq {nodes : List ReNode} (h : nodes ≠ []) (sp : Int) :
    litEndsAny input forward nodes sp = nodes.flatMap fun n => litEnds input forward n sp := by
  induction nodes with
  | nil => exact absurd rfl h
  | cons n nodes ih =>
    cases nodes with
    | nil => simp [litEndsAny]
    | cons m nodes =>
      rw [litEndsAny_cons, ih (by simp)]
      rfl

theorem litEnds_chars (codes : List Nat) (sp : Int) :
    litEndsSeq input forward (codes.map .char) sp = wordEnds input forward codes sp := by
  induction codes generalizing sp with
  | nil => rfl
  | cons c codes ih =>
    simp only [map_cons, litEndsSeq, wordEnds, litEnds]
    exact flatMap_congr fun sp _ => ih sp

end Ends

/-! ### Groups -/

section Groups

variable {input : JsString} {forward : Bool} {sp : Int}

/-- Where the literals of a group end. -/
def branchEnds (input : JsString) (forward : Bool) (sp : Int) : LitBranch → List Int
  | .eps => [sp]
  | .char c suffixes =>
    (charEnds input forward c sp).flatMap fun sp => suffixes.flatMap fun w =>
      wordEnds input forward w sp

theorem charEnds_cases (c : Nat) (sp : Int) :
    charEnds input forward c sp = [] ∨ charEnds input forward c sp = [move forward sp 1] := by
  unfold charEnds
  split
  · exact .inr rfl
  · exact .inl rfl

variable {c gi : Nat} {branches : List LitBranch} {opened : List (Nat × Nat)} {suffix : List Nat}

/-- Two characters do not both match at one position. -/
theorem charEnds_ne {d : Nat} (h : charEnds input forward c sp ≠ []) (hcd : d ≠ c) :
    charEnds input forward d sp = [] := by
  unfold charEnds at h ⊢
  split at h
  · rename_i hc
    rw [Bool.and_eq_true, beq_iff_eq] at hc
    rw [if_neg]
    rw [Bool.and_eq_true, beq_iff_eq, hc.2]
    rintro ⟨-, hd⟩
    exact hcd (Option.some.inj hd).symm
  · exact absurd rfl h

/-- The groups that may still take literals: a group is open for its character as long as
only groups for other characters follow it. -/
def OpenGroups (branches : List LitBranch) (opened : List (Nat × Nat)) : Prop :=
  ∀ c gi, opened.lookup c = some gi → (∃ suffixes, branches[gi]? = some (.char c suffixes)) ∧
    ∀ j b, gi < j → branches[j]? = some b → ∃ d suffixes, b = .char d suffixes ∧ d ≠ c

theorem openGroups_push (h : OpenGroups branches opened) :
    OpenGroups (branches.modify gi (·.push suffix)) opened := by
  have push : ∀ {j : Nat} {b : LitBranch}, (branches.modify gi (·.push suffix))[j]? = some b →
      ∃ b', branches[j]? = some b' ∧ (b = b' ∨ b = b'.push suffix) := by
    intro j b hb
    rw [getElem?_modify] at hb
    obtain ⟨b', hb', rfl⟩ := Option.map_eq_some_iff.mp hb
    refine ⟨b', hb', ?_⟩
    split
    · exact .inr rfl
    · exact .inl rfl
  intro c gi' hlookup
  obtain ⟨⟨suffixes, hgroup⟩, hlater⟩ := h c gi' hlookup
  refine ⟨?_, fun j b hj hb => ?_⟩
  · rw [getElem?_modify, hgroup]
    by_cases hgi : gi = gi'
    · exact ⟨suffixes ++ [suffix], by simp [hgi, LitBranch.push]⟩
    · exact ⟨suffixes, by simp [hgi]⟩
  · obtain ⟨b', hb', hb⟩ := push hb
    obtain ⟨d, suffixes', rfl, hd⟩ := hlater j b' hj hb'
    rcases hb with rfl | rfl
    · exact ⟨d, suffixes', rfl, hd⟩
    · exact ⟨d, suffixes' ++ [suffix], rfl, hd⟩

theorem openGroups_new (h : OpenGroups branches opened) (hc : opened.lookup c = none) :
    OpenGroups (branches ++ [.char c [suffix]]) ((c, branches.length) :: opened) := by
  intro d gi hlookup
  rw [lookup_cons] at hlookup
  by_cases hdc : d = c
  · subst hdc
    simp only [BEq.rfl, Option.some.injEq] at hlookup
    subst hlookup
    refine ⟨⟨[suffix], by simp⟩, fun j b hj hb => ?_⟩
    rw [getElem?_append_right hj.le] at hb
    obtain ⟨k, hk⟩ := Nat.exists_eq_add_of_lt hj
    rw [hk, Nat.add_assoc, Nat.add_sub_cancel_left] at hb
    cases hb
  · rw [show (d == c) = false by simpa using hdc] at hlookup
    obtain ⟨⟨suffixes, hgroup⟩, hlater⟩ := h d gi hlookup
    refine ⟨⟨suffixes, ?_⟩, fun j b hj hb => ?_⟩
    · obtain ⟨hlt, -⟩ := List.getElem?_eq_some_iff.mp hgroup
      rw [List.getElem?_append_left hlt, hgroup]
    · by_cases hlt : j < branches.length
      · rw [getElem?_append_left hlt] at hb
        exact hlater j b hj hb
      · rw [getElem?_append_right (Nat.le_of_not_lt hlt)] at hb
        obtain ⟨hk, hb⟩ := List.getElem?_eq_some_iff.mp hb
        simp only [List.length_singleton, Nat.lt_one_iff] at hk
        simp only [hk, getElem_cons_zero] at hb
        exact ⟨c, [suffix], hb.symm, fun h => hdc h.symm⟩

/-- A literal that joins an open group ends after everything that was there. -/
theorem branchEnds_push (h : OpenGroups branches opened) (hc : opened.lookup c = some gi) :
    (branches.modify gi (·.push suffix)).flatMap (branchEnds input forward sp) =
      branches.flatMap (branchEnds input forward sp) ++ wordEnds input forward (c :: suffix) sp := by
  obtain ⟨⟨suffixes, hgroup⟩, hlater⟩ := h c gi hc
  obtain ⟨hlt, hget⟩ := List.getElem?_eq_some_iff.mp hgroup
  have hsplit : branches = branches.take gi ++ .char c suffixes :: branches.drop (gi + 1) := by
    rw [← hget, getElem_cons_drop, take_append_drop]
  have hpush : branches.modify gi (·.push suffix) =
      branches.take gi ++ .char c (suffixes ++ [suffix]) :: branches.drop (gi + 1) := by
    rw [modify_eq_take_cons_drop hlt, hget]
    rfl
  rw [hpush]
  conv => rhs; rw [hsplit]
  simp only [flatMap_append, flatMap_cons, append_assoc, append_cancel_left_eq,
    branchEnds, wordEnds]
  by_cases hmatch : charEnds input forward c sp = []
  · simp [hmatch]
  · -- where the group's character matches, the later groups match nothing
    have hnone : (branches.drop (gi + 1)).flatMap (branchEnds input forward sp) = [] := by
      rw [flatMap_eq_nil_iff]
      intro b hb
      obtain ⟨k, hk⟩ := mem_iff_getElem?.mp hb
      rw [getElem?_drop] at hk
      obtain ⟨d, suffixes', rfl, hd⟩ := hlater _ b (by omega) hk
      simp [branchEnds, charEnds_ne hmatch hd]
    rcases @charEnds_cases input forward c sp with hend | hend
    · exact absurd hend hmatch
    · simp [hend, hnone]

theorem groupLit_ends {acc : List LitBranch × List (Nat × Nat)} (h : OpenGroups acc.1 acc.2)
    (w : List Nat) :
    OpenGroups (groupLit acc w).1 (groupLit acc w).2 ∧
      (groupLit acc w).1.flatMap (branchEnds input forward sp) =
        acc.1.flatMap (branchEnds input forward sp) ++ wordEnds input forward w sp := by
  cases w with
  | nil =>
    refine ⟨fun c gi hlookup => ?_, ?_⟩
    · simp [groupLit] at hlookup
    · simp [groupLit, branchEnds, wordEnds]
  | cons c suffix =>
    simp only [groupLit]
    cases hlookup : acc.2.lookup c with
    | some gi => exact ⟨openGroups_push h, branchEnds_push h hlookup⟩
    | none =>
      refine ⟨openGroups_new h hlookup, ?_⟩
      simp [branchEnds, wordEnds]

/-- **Grouping keeps the ends in order.** -/
theorem groupLits_ends (lits : List (List Nat)) :
    (groupLits lits).flatMap (branchEnds input forward sp) =
      lits.flatMap fun w => wordEnds input forward w sp := by
  have run : ∀ (lits : List (List Nat)) (acc : List LitBranch × List (Nat × Nat)),
      OpenGroups acc.1 acc.2 →
      (lits.foldl groupLit acc).1.flatMap (branchEnds input forward sp) =
        acc.1.flatMap (branchEnds input forward sp) ++
          lits.flatMap fun w => wordEnds input forward w sp := by
    intro lits
    induction lits with
    | nil => simp
    | cons w lits ih =>
      intro acc hacc
      obtain ⟨hopen, hends⟩ := @groupLit_ends input forward sp _ hacc w
      rw [foldl_cons, ih _ hopen, hends, flatMap_cons, append_assoc]
  exact run lits ([], []) fun _ _ h => by simp at h

end Groups

/-! ### The grouped tree -/

section Trie

variable {input : JsString} {forward : Bool}

/-- A group is not empty, and its literals are shorter than `n`. -/
def LitBranch.Short (n : Nat) : LitBranch → Prop
  | .eps => True
  | .char _ suffixes => suffixes ≠ [] ∧ ∀ s ∈ suffixes, s.length < n

variable {lits : List (List Nat)} {n : Nat}

theorem groupLit_short {acc : List LitBranch × List (Nat × Nat)} {w : List Nat}
    (h : ∀ b ∈ acc.1, b.Short n) (hw : w.length < n + 1) : ∀ b ∈ (groupLit acc w).1, b.Short n := by
  intro b hb
  cases w with
  | nil =>
    rcases mem_append.mp hb with hb | hb
    · exact h b hb
    · rw [mem_singleton.mp hb]
      trivial
  | cons c suffix =>
    have hsuffix : suffix.length < n := Nat.lt_of_succ_lt_succ hw
    simp only [groupLit] at hb
    cases hlookup : acc.2.lookup c with
    | some gi =>
      simp only [hlookup] at hb
      obtain ⟨j, hj⟩ := mem_iff_getElem?.mp hb
      rw [getElem?_modify] at hj
      obtain ⟨b', hb', rfl⟩ := Option.map_eq_some_iff.mp hj
      have hshort := h b' (mem_of_getElem? hb')
      split
      · cases b' with
        | eps => trivial
        | char d suffixes =>
          refine ⟨by simp, fun s hs => ?_⟩
          rcases mem_append.mp hs with hs | hs
          · exact hshort.2 s hs
          · rwa [mem_singleton.mp hs]
      · exact hshort
    | none =>
      simp only [hlookup] at hb
      rcases mem_append.mp hb with hb | hb
      · exact h b hb
      · rw [mem_singleton.mp hb]
        exact ⟨by simp, fun s hs => by rwa [mem_singleton.mp hs]⟩

theorem groupLits_short (h : ∀ w ∈ lits, w.length < n + 1) : ∀ b ∈ groupLits lits, b.Short n := by
  have run : ∀ (lits : List (List Nat)) (acc : List LitBranch × List (Nat × Nat)),
      (∀ w ∈ lits, w.length < n + 1) → (∀ b ∈ acc.1, b.Short n) →
      ∀ b ∈ (lits.foldl groupLit acc).1, b.Short n := by
    intro lits
    induction lits with
    | nil => exact fun _ _ h => h
    | cons w lits ih =>
      intro acc hw hacc
      refine ih _ (fun v hv => hw v (mem_cons_of_mem w hv)) ?_
      exact groupLit_short hacc (hw w mem_cons_self)
  exact run lits ([], []) h fun _ hb => nomatch hb

theorem groupLit_length_le (acc : List LitBranch × List (Nat × Nat)) (w : List Nat) :
    acc.1.length ≤ (groupLit acc w).1.length := by
  cases w with
  | nil => simp [groupLit]
  | cons c suffix =>
    simp only [groupLit]
    cases acc.2.lookup c <;> simp

theorem groupLits_ne_nil (h : lits ≠ []) : groupLits lits ≠ [] := by
  have run : ∀ (lits : List (List Nat)) (acc : List LitBranch × List (Nat × Nat)),
      acc.1.length ≤ (lits.foldl groupLit acc).1.length := by
    intro lits
    induction lits with
    | nil => exact fun _ => le_rfl
    | cons w lits ih => exact fun acc => (groupLit_length_le acc w).trans (ih _)
  cases lits with
  | nil => exact absurd rfl h
  | cons w lits =>
    have hfirst : (groupLit ([], []) w).1.length = 1 := by cases w <;> rfl
    intro hnil
    have hlen := run lits (groupLit ([], []) w)
    have hempty : ((w :: lits).foldl groupLit ([], [])).1 = [] := hnil
    rw [foldl_cons] at hempty
    rw [hempty, hfirst] at hlen
    exact absurd hlen (by simp)

/-- **The grouped tree ends where the literals do, in their order.** -/
theorem litEnds_trieNode (levels : Nat) (hne : lits ≠ []) (hlen : ∀ w ∈ lits, w.length < levels)
    (sp : Int) :
    litEnds input forward (trieNode levels lits) sp =
      lits.flatMap fun w => wordEnds input forward w sp := by
  induction levels generalizing lits sp with
  | zero =>
    obtain ⟨w, hw⟩ := exists_mem_of_ne_nil lits hne
    exact absurd (hlen w hw) (Nat.not_lt_zero _)
  | succ levels ih =>
    rw [← groupLits_ends, trieNode, litEnds,
      litEndsAny_eq (by simpa using groupLits_ne_nil hne), flatMap_map]
    refine flatMap_congr fun b hb => ?_
    have hshort := groupLits_short hlen b hb
    have hlong : ∀ c suffixes, LitBranch.Short levels (.char c suffixes) →
        litEnds input forward (.concat [.char c, trieNode levels suffixes]) sp =
          branchEnds input forward sp (.char c suffixes) := by
      intro c suffixes hs
      simp only [litEnds, litEndsSeq, branchEnds, flatMap_singleton']
      exact flatMap_congr fun sp _ => ih hs.1 hs.2 sp
    rcases b with _ | ⟨c, _ | ⟨suffix, _ | ⟨s2, suffixes⟩⟩⟩
    · rfl
    · exact absurd rfl hshort.1
    · have := @litEnds_chars input forward (c :: suffix) sp
      simp only [map_cons] at this
      simp [litEnds, this, branchEnds, wordEnds]
    · exact hlong c _ hshort

theorem areLiteral_mem {ns : List ReNode} (h : areLiteral ns = true) :
    ∀ n ∈ ns, isLiteral n = true := by
  induction ns with
  | nil => exact fun _ hn => nomatch hn
  | cons m ns ih =>
    simp only [areLiteral, Bool.and_eq_true] at h
    intro n hn
    rcases mem_cons.mp hn with rfl | hn
    · exact h.1
    · exact ih h.2 n hn

theorem areLiteral_chars (codes : List Nat) : areLiteral (codes.map .char) = true := by
  induction codes with
  | nil => rfl
  | cons c codes ih => simpa [areLiteral, isLiteral] using ih

theorem isLiteral_trieNode (levels : Nat) (lits : List (List Nat)) :
    isLiteral (trieNode levels lits) = true := by
  induction levels generalizing lits with
  | zero => rfl
  | succ levels ih =>
    simp only [trieNode, isLiteral]
    induction groupLits lits with
    | nil => rfl
    | cons b groups ihg =>
      simp only [map_cons, areLiteral, ihg, Bool.and_true]
      split
      · rfl
      · simpa [isLiteral, areLiteral] using areLiteral_chars _
      · simp [isLiteral, areLiteral, ih]

/-- The options of an alternation of literals end where the literals do. -/
theorem literal_options {options : List ReNode} {lits : List (List Nat)}
    (h : options.mapM literalCodes = some lits) :
    areLiteral options = true ∧ options.length = lits.length ∧
      ∀ sp, options.flatMap (fun n => litEnds input forward n sp) =
        lits.flatMap fun w => wordEnds input forward w sp := by
  induction options generalizing lits with
  | nil =>
    cases h
    exact ⟨rfl, rfl, fun _ => rfl⟩
  | cons n options ih =>
    simp only [mapM_cons, Option.bind_eq_bind, Option.bind_eq_some_iff, Option.pure_def] at h
    obtain ⟨codes, hcodes, rest, hrest, hlits⟩ := h
    cases hlits
    obtain ⟨h1, h2, h3⟩ := ih hrest
    have hnode : isLiteral n = true ∧
        ∀ sp, litEnds input forward n sp = wordEnds input forward codes sp := by
      rcases literalCodes_eq_some hcodes with ⟨code, rfl, rfl⟩ | rfl
      · refine ⟨rfl, fun sp => ?_⟩
        rw [← litEnds_chars]
        simp [litEnds, litEndsSeq]
      · exact ⟨areLiteral_chars codes, fun sp => litEnds_chars codes sp⟩
    refine ⟨by simp [areLiteral, hnode.1, h1], by simp [h2], fun sp => ?_⟩
    rw [flatMap_cons, flatMap_cons, hnode.2, h3]

end Trie

end Js2Wasm.Regex
