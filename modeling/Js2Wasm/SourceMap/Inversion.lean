import Js2Wasm.SourceMap.PositionMap

/-! # Position maps invert rewriting

A stage rewrites a text by edits that keep apart, and its map is built from the same list of
edits.  `toInputOffset` walks over the sorted edits as a pass over the text does, with a running
difference in place of the text.

The pass and the walk part at one place.  Where a span starts there can be insertions too; the
comparator leaves them in list order, and when the span comes first the walk looks for an
insertion's text before the end of the span.  By one character the two still agree; beyond it
they do not (`directFrom_eq`, `safe_of_directFrom`).
-/
namespace Js2Wasm.SourceMap
open TextEdits List

variable {α : Type*}

/-- What a stage records of an edit. -/
def sourceEdit (e : Edit α) : SourceEdit where
  origStart := e.start
  origEnd := e.stop
  newLength := e.text.length

/-- The map of a stage. -/
def PositionMap.ofEdits (edits : List (Edit α)) : PositionMap := .new (edits.map sourceEdit) none

/-- No text is inserted by an edit listed after one that takes two characters or more away from
the same offset on. -/
def Ordered (edits : List (Edit α)) : Prop :=
  edits.Pairwise fun a b => a.start = b.start → a.stop - a.start ≤ 1 ∨ b.text = []

/-- The span that ended at `pos` was at most one character, or no text is still to be inserted
where it started. -/
def Safe (p pos : Nat) (es : List (Edit α)) : Prop :=
  p < pos → pos - p ≤ 1 ∨ ∀ e ∈ es, e.start = p → e.text = []

section
variable {n p pos i out : Nat} {delta : Int} {e : Edit α} {es l : List (Edit α)}

/-! ### One stage -/

theorem directFrom_cons (out : Nat) (delta : Int) (e : Edit α) (es : List (Edit α)) :
    PositionMap.directFrom out delta ((e :: es).map sourceEdit) =
      if (out : Int) < e.start + delta then (out - delta).toNat
      else if (out : Int) < e.start + delta + e.text.length then e.start
      else PositionMap.directFrom out (delta + (e.text.length - (e.stop - e.start)))
        (es.map sourceEdit) := rfl

theorem Safe.tail (h : Safe p pos (e :: es)) : Safe p pos es := fun hp =>
  (h hp).imp_right fun h e he => h e (mem_cons_of_mem _ he)

/-- While text is still to be inserted there, the span was one character. -/
theorem Safe.eq_succ (h : Safe p pos (e :: es)) (hp : p < pos) (hst : e.start = p)
    (htext : 0 < e.text.length) : pos = p + 1 := by
  have hne : e.text ≠ [] := length_pos_iff.mp htext
  have := (h hp).resolve_right fun h => hne (h e mem_cons_self hst)
  lia

theorem Ordered.safe (h : Ordered (e :: es)) : Safe e.start e.stop es := by
  intro hlt
  by_cases hone : e.stop - e.start ≤ 1
  · exact .inl hone
  · exact .inr fun e' he' hst =>
      ((pairwise_cons.mp h).1 e' he' hst.symm).resolve_left hone

/-- The last character before `pos`. -/
theorem directFrom_before (h : Behind n p pos es) (hp : p < pos) (hsafe : Safe p pos es)
    (hout : (out : Int) + 1 = pos + delta) :
    PositionMap.directFrom out delta (es.map sourceEdit) = pos - 1 := by
  induction es generalizing delta with
  | nil =>
    rw [map_nil, PositionMap.directFrom]
    lia
  | cons e es ih =>
    rw [directFrom_cons]
    obtain ⟨hn, ⟨h1, h2, h3⟩ | ⟨h1, h2, -, h4⟩⟩ := h
    · rw [if_pos (by lia)]
      lia
    · rw [if_neg (by lia)]
      rcases Nat.eq_zero_or_pos e.text.length with hzero | hpos
      · rw [if_neg (by lia)]
        exact ih h4 hsafe.tail (by lia)
      · -- the span was one character, and the offset before `pos` is where it started
        have := hsafe.eq_succ hp h1 hpos
        rw [if_pos (by lia)]
        lia

/-- **One step behind the other.**  The walk finds for every offset where its character comes
from. -/
theorem directFrom_eq (h : Behind n p pos es) (hsafe : Safe p pos es) (ho : Ordered es)
    (hout : (out : Int) = pos + delta + i) :
    PositionMap.directFrom out delta (es.map sourceEdit) = offsetFrom pos es i := by
  induction es generalizing p pos delta i with
  | nil =>
    rw [map_nil, PositionMap.directFrom, offsetFrom]
    lia
  | cons e es ih =>
    rw [directFrom_cons, offsetFrom]
    obtain ⟨hn, ⟨h1, h2, h3⟩ | ⟨h1, h2, h3, h4⟩⟩ := h
    · have hbefore : (out : Int) < e.start + delta ↔ i < e.start - pos := by lia
      have hin : (out : Int) < e.start + delta + e.text.length ↔
          i < e.start - pos + e.text.length := by lia
      simp only [hbefore, hin]
      split_ifs with hb hi
      · lia
      · rfl
      · rw [Nat.max_eq_right (by lia)]
        exact ih h3 ho.safe (pairwise_cons.mp ho).2 (by lia)
    · -- a late insertion: its text stands from `pos` on, the walk looks for it from `p` on
      rw [if_neg (show ¬ (out : Int) < e.start + delta by lia),
        if_neg (show ¬ i < e.start - pos by lia), Nat.max_eq_left (by lia)]
      by_cases hi : i < e.start - pos + e.text.length
      · have hone := hsafe.eq_succ h3 h1 (by lia)
        rw [if_pos hi]
        by_cases hlast : i + 1 < e.text.length
        · rw [if_pos (by lia)]
        · rw [if_neg (by lia), directFrom_before h4 h3 hsafe.tail (by lia)]
          lia
      · rw [if_neg hi, if_neg (by lia)]
        exact ih h4 hsafe.tail (pairwise_cons.mp ho).2 (by lia)

/-- **The converse.**  The walk is right on all of the edits' output only when the edits are in
order. -/
theorem safe_of_directFrom (h : Behind n p pos es)
    (hwalk : ∀ i < width pos es, ∀ out : Nat, (out : Int) = pos + delta + i →
      PositionMap.directFrom out delta (es.map sourceEdit) = offsetFrom pos es i)
    (hdelta : 0 ≤ pos + delta) :
    Safe p pos es ∧ Ordered es := by
  induction es generalizing p pos delta with
  | nil => exact ⟨fun _ => .inr fun e he => absurd he not_mem_nil, List.Pairwise.nil⟩
  | cons e es ih =>
    obtain ⟨hn, ⟨h1, h2, h3⟩ | ⟨h1, h2, h3, h4⟩⟩ := h
    · rw [width, Nat.max_eq_right (by lia)] at hwalk
      have hrest : Safe e.start e.stop es ∧ Ordered es := by
        refine ih h3 (fun i hi out hout => ?_)
          (show 0 ≤ e.stop + (delta + (e.text.length - (e.stop - e.start))) by lia)
        have hw := hwalk (i + (e.start - pos + e.text.length)) (by lia) out (by lia)
        rw [directFrom_cons, offsetFrom, if_neg (by lia), if_neg (by lia), if_neg (by lia),
          if_neg (by lia), Nat.max_eq_right (by lia), Nat.add_sub_cancel] at hw
        exact hw
      refine ⟨fun hp => .inr fun e' he' hst => ?_,
        pairwise_cons.mpr ⟨fun e' he' hst => ?_, hrest.2⟩⟩
      · rcases mem_cons.mp he' with rfl | he'
        · lia
        · have := h3.mem he'
          lia
      · rcases Nat.eq_or_lt_of_le h2 with heq | hlt
        · exact .inl (by lia)
        · exact (hrest.1 hlt).imp_right fun h => h e' he' hst.symm
    · rw [width, Nat.max_eq_left (by lia)] at hwalk
      have hrest : Safe p pos es ∧ Ordered es := by
        refine ih h4 (fun i hi out hout => ?_)
          (show 0 ≤ pos + (delta + (e.text.length - (e.stop - e.start))) by lia)
        have hw := hwalk (i + (e.start - pos + e.text.length)) (by lia) out (by lia)
        rw [directFrom_cons, offsetFrom, if_neg (by lia), if_neg (by lia), if_neg (by lia),
          if_neg (by lia), Nat.max_eq_left (by lia), Nat.add_sub_cancel] at hw
        exact hw
      refine ⟨fun hp => ?_, pairwise_cons.mpr ⟨fun e' _ _ => .inl (by lia), hrest.2⟩⟩
      rcases Nat.eq_zero_or_pos e.text.length with hzero | hpos
      · refine (hrest.1 hp).imp_right fun h e' he' hst => ?_
        rcases mem_cons.mp he' with rfl | he'
        · exact length_eq_zero_iff.mp hzero
        · exact h e' he' hst
      · -- the walk takes the last character of this text for the one before `pos`
        obtain ⟨out, hout⟩ := Int.eq_ofNat_of_zero_le
          (show 0 ≤ pos + delta + (e.text.length - 1 : Nat) by lia)
        have hw := hwalk (e.text.length - 1) (by lia) out (by lia)
        rw [directFrom_cons, offsetFrom, if_neg (show ¬ (out : Int) < e.start + delta by lia),
          if_neg (show ¬ e.text.length - 1 < e.start - pos by lia),
          if_pos (show e.text.length - 1 < e.start - pos + e.text.length by lia)] at hw
        by_cases hin : (out : Int) < e.start + delta + e.text.length
        · exact .inl (by lia)
        · rw [if_neg hin, directFrom_before h4 hp hrest.1 (by lia)] at hw
          exact .inl (by lia)

theorem pairwise_start_iff {r : Edit α → Edit α → Prop} :
    l.Pairwise (fun a b => a.start = b.start → r a b) ↔
      ∀ q, (l.filter fun e => e.start = q).Pairwise r := by
  constructor
  · refine fun h q => (h.filter _).imp_of_mem fun {a b} ha hb hab => hab ?_
    rw [mem_filter, decide_eq_true_eq] at ha hb
    rw [ha.2, hb.2]
  · refine fun h => pairwise_iff_forall_sublist.mpr fun {a b} hab heq => ?_
    have hsub := hab.filter fun e => decide (e.start = a.start)
    rw [filter_cons_of_pos (by simp), filter_cons_of_pos (by simp [heq]),
      filter_nil] at hsub
    exact pairwise_iff_forall_sublist.mp (h a.start) hsub

/-- The sort keeps the order that matters. -/
theorem ordered_sort : Ordered (sort l) ↔ Ordered l := by
  rw [Ordered, Ordered, pairwise_start_iff, pairwise_start_iff]
  simp only [filter_sort]

theorem toInputOffset_ofEdits (l : List (Edit α)) (o : Nat) :
    (PositionMap.ofEdits l).toInputOffset o =
      PositionMap.directFrom o 0 ((sort l).map sourceEdit) := by
  have hsort : (sort l).map sourceEdit = (sortEdits (l.map sourceEdit)).edits :=
    map_insertionSort _ _ sourceEdit l fun _ _ _ _ => Iff.rfl
  rw [hsort]
  rfl

theorem toInputOffset_eq_offsetFrom (h : Valid n l) (ho : Ordered l) (o : Nat) :
    (PositionMap.ofEdits l).toInputOffset o = offsetFrom 0 (sort l) o := by
  rw [toInputOffset_ofEdits]
  exact directFrom_eq (behind_sort h) (fun hp => absurd hp (Nat.lt_irrefl 0))
    (ordered_sort.mpr ho) (by lia)

theorem monotone_toInputOffset (h : Valid n l) (ho : Ordered l) :
    Monotone (PositionMap.ofEdits l).toInputOffset := fun o o' hoo' => by
  rw [toInputOffset_eq_offsetFrom h ho, toInputOffset_eq_offsetFrom h ho]
  exact offsetFrom_mono (behind_sort h) (Nat.le_refl 0) hoo'

/-! ### Chains of stages -/

/-- Every stage edits the text that the stages before it leave. -/
def Chain (text : List α) : List (List (Edit α)) → Prop
  | [] => True
  | edits :: stages => Valid text.length edits ∧ Chain (edited text edits) stages

/-- The text that stages leave, every character with its source in the text before them. -/
def track (n : Nat) (text : List (α × Source)) (stages : List (List (Edit α))) :
    List (α × Source) :=
  stages.foldl (rewrite n) text

/-- The map of a chain, a stage at a time. -/
def PositionMap.ofStages (stages : List (List (Edit α))) : PositionMap :=
  stages.foldl (fun composed edits => (PositionMap.ofEdits edits).compose composed) .identity

/-- What a position map is for: `text` is a rewritten text with the sources of its characters. -/
structure Inverts (m : PositionMap) (text : List (α × Source)) : Prop where
  copied : ∀ o c q, text[o]? = some (c, .copied q) → m.toInputOffset o = q
  written : ∀ o c q, text[o]? = some (c, .written q) → m.toInputOffset o = q
  monotone : Monotone m.toInputOffset

/-- The map of a chain inverts the chain. -/
def ChainInverts (text : List α) (stages : List (List (Edit α))) : Prop :=
  Inverts (.ofStages stages) (track text.length (label text) stages)

variable {m : PositionMap} {text : List (α × Source)} {stages : List (List (Edit α))}

theorem inverts_iff (n : Nat) :
    Inverts m text ↔
      (∀ o < text.length, m.toInputOffset o = originAt n text o) ∧ Monotone m.toInputOffset := by
  have hget (o : Nat) (c : α) (s : Source) (h : text[o]? = some (c, s)) :
      originAt n text o = s.offset := by
    rw [originAt, h]
    rfl
  constructor
  · refine fun h => ⟨fun o ho => ?_, h.monotone⟩
    have hc := getElem?_eq_getElem ho
    rcases heq : text[o] with ⟨c, q | q⟩
    · rw [heq] at hc
      exact (h.copied o c q hc).trans (hget o c _ hc).symm
    · rw [heq] at hc
      exact (h.written o c q hc).trans (hget o c _ hc).symm
  · rintro ⟨h, hm⟩
    exact ⟨fun o c q hc => (h o (List.getElem?_eq_some_iff.mp hc).1).trans (hget o c _ hc),
      fun o c q hc => (h o (List.getElem?_eq_some_iff.mp hc).1).trans (hget o c _ hc), hm⟩

/-- One more stage. -/
theorem toInputOffset_compose_ofEdits
    (hm : ∀ o ≤ text.length, m.toInputOffset o = originAt n text o) (h : Valid text.length l)
    (ho : Ordered l) {o : Nat} (hle : o ≤ (rewrite n text l).length) :
    ((PositionMap.ofEdits l).compose m).toInputOffset o = originAt n (rewrite n text l) o := by
  rw [PositionMap.toInputOffset_compose, toInputOffset_eq_offsetFrom h ho,
    hm _ (offsetFrom_le h hle), originAt_rewrite h hle]

theorem inverts_foldl (hm : ∀ o ≤ text.length, m.toInputOffset o = originAt n text o)
    (hmono : Monotone m.toInputOffset) (h : Chain (text.map Prod.fst) stages)
    (ho : ∀ edits ∈ stages, Ordered edits) :
    Inverts (stages.foldl (fun composed edits => (PositionMap.ofEdits edits).compose composed) m)
      (track n text stages) := by
  induction stages generalizing m text with
  | nil => exact (inverts_iff n).mpr ⟨fun o ho => hm o ho.le, hmono⟩
  | cons edits stages ih =>
    obtain ⟨hv, hc⟩ := h
    rw [length_map] at hv
    have hoe := ho edits mem_cons_self
    have hnext (o : Nat) (hle : o ≤ (rewrite n text edits).length) :=
      toInputOffset_compose_ofEdits hm hv hoe hle
    refine ih hnext (fun o o' hoo' => ?_) ?_ fun edits he => ho edits (mem_cons_of_mem _ he)
    · rw [PositionMap.toInputOffset_compose, PositionMap.toInputOffset_compose]
      exact hmono (monotone_toInputOffset hv hoe hoo')
    · rwa [map_fst_rewrite]

/-- **Chains in order are inverted.** -/
theorem chainInverts_of_ordered {text : List α} (h : Chain text stages)
    (ho : ∀ edits ∈ stages, Ordered edits) : ChainInverts text stages := by
  have hid (o : Nat) : PositionMap.identity.toInputOffset o = o :=
    PositionMap.toInputOffset_of_isIdentity rfl o
  have hlen : (label text).length = text.length := length_mapIdx
  refine inverts_foldl (fun o hle => ?_) (fun o o' hoo' => ?_) (by rwa [map_fst_label]) ho
  · rw [hid, originAt_label (hlen ▸ hle)]
  · rwa [hid, hid]

/-- A stage whose map inverts it is in order. -/
theorem ordered_of_chainInverts {text : List α} (h : Valid text.length l)
    (hi : ChainInverts text [l]) : Ordered l := by
  have hlen : (label text).length = text.length := length_mapIdx
  have hv : Valid (label text).length l := hlen ▸ h
  have hwidth := width_le_length_rewrite text.length hv
  refine ordered_sort.mp (safe_of_directFrom (behind_sort h) (fun i hlt out hout => ?_)
    (show 0 ≤ ((0 : Nat) : Int) + 0 by lia)).2
  obtain rfl : out = i := by lia
  have hlt' : out < (rewrite text.length (label text) l).length := hlt.trans_le hwidth
  have hout := ((inverts_iff text.length).mp hi).1 out hlt'
  rw [PositionMap.ofStages, foldl_cons, foldl_nil, PositionMap.compose_identity,
    toInputOffset_ofEdits, track, foldl_cons, foldl_nil,
    originAt_rewrite hv hlt'.le,
    originAt_label (hlen ▸ offsetFrom_le hv hlt'.le)] at hout
  exact hout

theorem chain_append {text : List α} {before after : List (List (Edit α))} :
    Chain text (before ++ after) ↔ Chain text before ∧ Chain (before.foldl edited text) after := by
  induction before generalizing text with
  | nil => exact (true_and _).to_iff.symm
  | cons edits before ih =>
    rw [cons_append, Chain, Chain, ih, and_assoc]
    rfl

/-- **Exactly the stages in order.**  All chains that can be made of the stages are inverted
when no stage inserts a text after taking two characters or more away from the same offset
on, and only then. -/
theorem chainInverts_iff {text : List α} (h : Chain text stages) :
    (∀ before chain after, stages = before ++ chain ++ after →
        ChainInverts (before.foldl edited text) chain) ↔
      ∀ edits ∈ stages, Ordered edits := by
  constructor
  · intro hall edits he
    obtain ⟨before, after, rfl⟩ := append_of_mem he
    refine ordered_of_chainInverts (chain_append.mp h).2.1 (hall before [edits] after ?_)
    rw [append_assoc, singleton_append]
  · rintro ho before chain after rfl
    rw [chain_append, chain_append] at h
    exact chainInverts_of_ordered h.1.2 fun edits he =>
      ho edits (mem_append_left _ (mem_append_right _ he))

/-- A character that the sources say was copied is the character at its offset. -/
theorem copied_of_mem_track {text : List α} {c : α} {q : Nat}
    (h : (c, .copied q) ∈ track n (label text) stages) : text[q]? = some c := by
  refine mem_label (?_ : (c, .copied q) ∈ label text)
  generalize label text = labelled at h ⊢
  induction stages generalizing labelled with
  | nil => exact h
  | cons edits stages ih => exact mem_of_mem_rewrite (ih _ h)

theorem map_fst_track (n : Nat) (text : List α) (stages : List (List (Edit α))) :
    (track n (label text) stages).map Prod.fst = stages.foldl edited text := by
  suffices h : ∀ labelled : List (α × Source), (track n labelled stages).map Prod.fst =
      stages.foldl edited (labelled.map Prod.fst) by
    rw [h, map_fst_label]
  induction stages with
  | nil => exact fun _ => rfl
  | cons edits stages ih =>
    intro labelled
    rw [track, foldl_cons, foldl_cons, ← map_fst_rewrite n]
    exact ih _

end

end Js2Wasm.SourceMap
