import Js2Wasm.Lib.CappedJoin
import Js2Wasm.Propagate.Lattice
import Mathlib.Data.Finset.Lattice.Fold
import Mathlib.Data.Finset.Prod

/-! # Levels of the type lattice

What a type stands for, apart from the order of a union's members: a level, which is the
numeric domain of its members and the set of the others, or nothing for `dynamic`.  The
levels form a semilattice with a cap on the number of members, and the join of types is the
join of their levels (`join_spec`).

A canonical type is determined by its level where the order of a union's members tells
different atoms apart.  There the join has all laws of a bounded semilattice; a tie between
two different atoms already breaks commutativity (`joinLaws_iff`).
-/
namespace Js2Wasm.Propagate
open List CappedJoin

/-! ### Numeric domains -/

/-- The numeric domain of a type; two different ones meet in `f64`. -/
inductive Domain where
  | none
  | i32
  | u32
  | f64
  deriving DecidableEq

namespace Domain

instance : LE Domain := ⟨fun a b => a = .none ∨ b = .f64 ∨ a = b⟩

instance : DecidableLE Domain := fun _ _ => inferInstanceAs (Decidable (_ ∨ _ ∨ _))

def sup : Domain → Domain → Domain
  | .none, b => b
  | a, .none => a
  | a, b => if a = b then a else .f64

instance : SemilatticeSup Domain where
  le_refl _ := .inr (.inr rfl)
  le_trans a b c := by cases a <;> cases b <;> cases c <;> decide
  le_antisymm a b := by cases a <;> cases b <;> decide
  sup := sup
  le_sup_left a b := by cases a <;> cases b <;> decide
  le_sup_right a b := by cases a <;> cases b <;> decide
  sup_le a b c := by cases a <;> cases b <;> cases c <;> decide

instance : OrderBot Domain where
  bot := .none
  bot_le _ := .inl rfl

/-- How many members of a union the domain takes. -/
def count : Domain → Nat
  | .none => 0
  | _ => 1

/-- How far the domain has been widened. -/
def height : Domain → Nat
  | .none => 0
  | .i32 | .u32 => 1
  | .f64 => 2

theorem count_mono {a b : Domain} (h : a ≤ b) : a.count ≤ b.count := by
  revert h
  cases a <;> cases b <;> decide

theorem height_strictMono {a b : Domain} (h : a < b) : a.height < b.height := by
  have hle := h.le
  have hne := h.ne
  revert hle hne
  cases a <;> cases b <;> decide

theorem height_le (a : Domain) : a.height ≤ a.count + 1 := by cases a <;> decide

/-- Above two different domains there is `f64` only. -/
theorem eq_f64_of_le {a b d : Domain} (ha : a ≠ .none) (hb : b ≠ .none) (hne : a ≠ b)
    (had : a ≤ d) (hbd : b ≤ d) : d = .f64 := by
  revert ha hb hne had hbd
  cases a <;> cases b <;> cases d <;> decide

/-- The atoms of a domain. -/
def atoms : Domain → Finset LatticeAtom
  | .none => ∅
  | .i32 => {.i32}
  | .u32 => {.u32}
  | .f64 => {.f64}

end Domain

/-- The domain of an atom. -/
def LatticeAtom.domain : LatticeAtom → Domain
  | .f64 => .f64
  | .i32 => .i32
  | .u32 => .u32
  | _ => .none

variable {b a : LatticeAtom} {s : Finset LatticeAtom}

theorem domain_eq_none_iff : a.domain = .none ↔ a.isNumeric = false := by
  cases a <;> simp [LatticeAtom.domain, LatticeAtom.isNumeric]

theorem domain_inj (ha : a.isNumeric = true) (h : a.domain = b.domain) : a = b := by
  cases a <;> cases b <;> simp_all [LatticeAtom.domain, LatticeAtom.isNumeric]

theorem atoms_domain (h : a.isNumeric = true) : a.domain.atoms = {a} := by
  cases a <;> first | rfl | cases h

/-! ### Levels -/

/-- A numeric domain and the atoms that are not numeric. -/
abbrev Level := Domain × Finset LatticeAtom

/-- The level of some atoms. -/
def levelOf (s : Finset LatticeAtom) : Level :=
  (s.sup LatticeAtom.domain, s.filter fun a => a.isNumeric = false)

theorem levelOf_union (s t : Finset LatticeAtom) : levelOf (s ∪ t) = levelOf s ⊔ levelOf t := by
  rw [levelOf, Finset.sup_union, Finset.filter_union]
  rfl

/-- More members than a union may have. -/
def Big (l : Level) : Prop := LATTICE_UNION_MAX_MEMBERS < l.2.card + l.1.count

instance : DecidablePred Big := fun _ => inferInstanceAs (Decidable (_ < _))

theorem big_mono (x y : Level) (h : x ≤ y) (hx : Big x) : Big y :=
  hx.trans_le (Nat.add_le_add (Finset.card_le_card h.2) (Domain.count_mono h.1))

/-- The rank of a level. -/
def rank (l : Level) : Nat := l.2.card + l.1.height

theorem rank_strictMono (x y : Level) (h : x < y) : rank x < rank y := by
  have hle := h.le
  rcases lt_or_eq_of_le hle.1 with h1 | h1
  · have h2 := Finset.card_le_card hle.2
    have h3 := Domain.height_strictMono h1
    simp only [rank]
    lia
  · have hne : x.2 ≠ y.2 := fun heq => h.ne (Prod.ext h1 heq)
    have h2 := Finset.card_lt_card (lt_of_le_of_ne hle.2 hne)
    simp only [rank, h1]
    lia

theorem rank_le (x : Level) (h : ¬Big x) : rank x ≤ LATTICE_UNION_MAX_MEMBERS + 1 := by
  have := Domain.height_le x.1
  simp only [Big, rank] at *
  lia

/-- What a type stands for. -/
def LatticeType.level : LatticeType → Option Level
  | .dynamic => none
  | t => some (levelOf t.members.toFinset)

theorem level_of_ne {t : LatticeType} (h : t ≠ .dynamic) :
    t.level = some (levelOf t.members.toFinset) := by
  cases t <;> first | rfl | exact absurd rfl h

/-! ### Collapsing and sorting -/

theorem mem_collapse_go {members : List LatticeAtom} {f64Added : Bool} :
    a ∈ collapseNumericAtoms.go f64Added members ↔
      (a ∈ members ∧ a.isNumeric = false) ∨
        (a = .f64 ∧ f64Added = false ∧ ∃ m ∈ members, m.isNumeric = true) := by
  induction members generalizing f64Added with
  | nil => simp [collapseNumericAtoms.go]
  | cons m rest ih =>
    rw [collapseNumericAtoms.go]
    cases hm : m.isNumeric with
    | true =>
      cases f64Added with
      | true =>
        simp only [if_true, ih, mem_cons]
        grind
      | false =>
        simp only [if_true, Bool.false_eq_true, if_false, mem_cons, ih]
        grind
    | false =>
      simp only [Bool.false_eq_true, if_false, mem_cons, ih]
      grind

/-- The domain of some atoms of which two have different domains. -/
theorem sup_domain_eq_f64 (ha : a ∈ s) (hb : b ∈ s) (ha' : a.isNumeric = true)
    (hb' : b.isNumeric = true) (hne : a ≠ b) : s.sup LatticeAtom.domain = .f64 := by
  have hsome : ∀ {c : LatticeAtom}, c.isNumeric = true → c.domain ≠ .none := by
    intro c hc hnone
    rw [domain_eq_none_iff.mp hnone] at hc
    cases hc
  exact Domain.eq_f64_of_le (hsome ha') (hsome hb') (fun h => hne (domain_inj ha' h))
    (Finset.le_sup ha) (Finset.le_sup hb)

/-- The domain of some atoms of which all numeric ones are the same. -/
theorem sup_domain_eq (ha : a ∈ s) (hall : ∀ b ∈ s, b.isNumeric = true → b = a) :
    s.sup LatticeAtom.domain = a.domain := by
  refine le_antisymm (Finset.sup_le fun b hb => ?_) (Finset.le_sup ha)
  cases hb' : b.isNumeric with
  | true => rw [hall b hb hb']
  | false =>
    rw [domain_eq_none_iff.mpr hb']
    exact bot_le

theorem sup_domain_eq_none_iff :
    s.sup LatticeAtom.domain = .none ↔ ∀ b ∈ s, b.isNumeric = false := by
  constructor
  · intro h b hb
    have hle : b.domain ≤ s.sup LatticeAtom.domain := Finset.le_sup hb
    rw [h] at hle
    exact domain_eq_none_iff.mp (le_antisymm hle bot_le)
  · intro h
    refine le_antisymm (Finset.sup_le fun b hb => ?_) bot_le
    exact le_of_eq (domain_eq_none_iff.mpr (h b hb))

/-- Collapsing keeps the level and leaves at most one numeric atom. -/
theorem collapse_spec (members : List LatticeAtom) :
    levelOf (collapseNumericAtoms members).toFinset = levelOf members.toFinset ∧
      ∀ a ∈ collapseNumericAtoms members, ∀ b ∈ collapseNumericAtoms members,
        a.isNumeric = true → b.isNumeric = true → a = b := by
  rw [collapseNumericAtoms]
  split
  · rename_i hle
    refine ⟨rfl, fun a ha b hb hna hnb => ?_⟩
    have hmem : ∀ {c : LatticeAtom}, c ∈ members → c.isNumeric = true →
        c ∈ (members.filter LatticeAtom.isNumeric).dedup := fun hc hnc =>
      mem_dedup.mpr (mem_filter.mpr ⟨hc, hnc⟩)
    have hab := hmem ha hna
    have hbb := hmem hb hnb
    generalize (members.filter LatticeAtom.isNumeric).dedup = l at hle hab hbb
    rcases l with _ | ⟨c, _ | ⟨d, rest⟩⟩
    · cases hab
    · rw [mem_singleton.mp hab, mem_singleton.mp hbb]
    · exact absurd hle (by simp)
  · rename_i hgt
    -- two different numeric atoms, so the domain is `f64`
    obtain ⟨a, ha, b, hb, hne⟩ : ∃ a, (a ∈ members ∧ a.isNumeric = true) ∧
        ∃ b, (b ∈ members ∧ b.isNumeric = true) ∧ a ≠ b := by
      have hnodup := nodup_dedup (members.filter LatticeAtom.isNumeric)
      have hmem : ∀ c ∈ (members.filter LatticeAtom.isNumeric).dedup,
          c ∈ members ∧ c.isNumeric = true := fun c hc =>
        mem_filter.mp (mem_dedup.mp hc)
      generalize (members.filter LatticeAtom.isNumeric).dedup = l at hgt hnodup hmem
      rcases l with _ | ⟨c, _ | ⟨d, rest⟩⟩
      · exact absurd (Nat.zero_le _) hgt
      · exact absurd .refl hgt
      · refine ⟨c, hmem c mem_cons_self, d,
          hmem d (mem_cons_of_mem c mem_cons_self), ?_⟩
        rintro rfl
        exact (nodup_cons.mp hnodup).1 mem_cons_self
    have hsup : members.toFinset.sup LatticeAtom.domain = .f64 :=
      sup_domain_eq_f64 (mem_toFinset.mpr ha.1) (mem_toFinset.mpr hb.1) ha.2 hb.2 hne
    have hnum : ∀ c ∈ collapseNumericAtoms.go false members, c.isNumeric = true → c = .f64 := by
      intro c hc hnc
      rcases mem_collapse_go.mp hc with ⟨-, hf⟩ | ⟨hf, -⟩
      · rw [hnc] at hf
        cases hf
      · exact hf
    have hf64 : LatticeAtom.f64 ∈ collapseNumericAtoms.go false members :=
      mem_collapse_go.mpr (.inr ⟨rfl, rfl, a, ha⟩)
    refine ⟨Prod.ext ?_ (Finset.ext fun c => ?_), fun c hc d hd hnc hnd => ?_⟩
    · rw [levelOf, levelOf, hsup]
      exact sup_domain_eq (mem_toFinset.mpr hf64) fun c hc => hnum c (mem_toFinset.mp hc)
    · simp only [levelOf, Finset.mem_filter, mem_toFinset, mem_collapse_go]
      constructor
      · rintro ⟨⟨hc, -⟩ | ⟨rfl, -⟩, hf⟩
        · exact ⟨hc, hf⟩
        · cases hf
      · rintro ⟨hc, hf⟩
        exact ⟨.inl ⟨hc, hf⟩, hf⟩
    · rw [hnum c hc hnc, hnum d hd hnd]

/-- Removing repetitions keeps the members. -/
theorem dedupe_spec (members : List LatticeAtom) :
    (dedupe members).Nodup ∧ ∀ a, a ∈ dedupe members ↔ a ∈ members := by
  have hgo : ∀ (members acc : List LatticeAtom), acc.Nodup →
      (members.foldl (fun acc m => if acc.any (atomsEqual · m) then acc else acc ++ [m]) acc).Nodup ∧
      ∀ a, a ∈ members.foldl (fun acc m => if acc.any (atomsEqual · m) then acc else acc ++ [m]) acc ↔
        a ∈ acc ∨ a ∈ members := by
    intro members
    induction members with
    | nil => exact fun acc h => ⟨h, fun a => by simp⟩
    | cons m rest ih =>
      intro acc h
      rw [foldl_cons]
      have hany : acc.any (atomsEqual · m) = true ↔ m ∈ acc := by
        simp only [any_eq_true, atomsEqual_iff]
        exact ⟨fun ⟨d, hd, hdm⟩ => hdm ▸ hd, fun hm => ⟨m, hm, rfl⟩⟩
      by_cases hm : m ∈ acc
      · rw [if_pos (hany.mpr hm)]
        obtain ⟨h1, h2⟩ := ih acc h
        refine ⟨h1, fun a => ?_⟩
        rw [h2, mem_cons]
        constructor
        · rintro (ha | ha)
          · exact .inl ha
          · exact .inr (.inr ha)
        · rintro (ha | rfl | ha)
          · exact .inl ha
          · exact .inl hm
          · exact .inr ha
      · rw [if_neg fun h => hm (hany.mp h)]
        obtain ⟨h1, h2⟩ := ih (acc ++ [m]) (by
          rw [nodup_append]
          refine ⟨h, nodup_singleton m, fun a ha b hb => ?_⟩
          rw [mem_singleton.mp hb]
          rintro rfl
          exact hm ha)
        refine ⟨h1, fun a => ?_⟩
        rw [h2, mem_append, mem_singleton, mem_cons, or_assoc]
  obtain ⟨h1, h2⟩ := hgo members [] nodup_nil
  refine ⟨h1, fun a => (h2 a).trans ⟨fun h => ?_, .inr⟩⟩
  rcases h with h | h
  · cases h
  · exact h

/-! ## The join as a semilattice -/

/-- What `localeCompare` promises: a consistent comparator. -/
structure ConsistentComparator (cmp : String → String → Int) : Prop where
  swap : ∀ a b, cmp a b < 0 ↔ 0 < cmp b a
  trans : ∀ a b c, cmp a b ≤ 0 → cmp b c ≤ 0 → cmp a c ≤ 0

theorem ConsistentComparator.refl {cmp : String → String → Int} (h : ConsistentComparator cmp)
    (a : String) : cmp a a = 0 := by
  have := h.swap a a
  lia

section

variable (localeCompare : String → String → Int)

/-! ### The order of the members -/

/-- One atom may stand in front of another. -/
def AtomLe (a b : LatticeAtom) : Prop := atomOrder localeCompare a b ≤ 0

instance : DecidableRel (AtomLe localeCompare) := fun _ _ => inferInstanceAs (Decidable (_ ≤ _))

/-- Two atoms of which each may stand in front of the other. -/
def Tied (a b : LatticeAtom) : Prop := AtomLe localeCompare a b ∧ AtomLe localeCompare b a

variable {localeCompare}

theorem atomOrder_object (fs gs : List Field) : atomOrder localeCompare (.object fs) (.object gs) =
    localeCompare (atomDescription (.object fs)) (atomDescription (.object gs)) := rfl

/-- Atoms are ordered by kind; only object shapes share a kind. -/
theorem atomLe_iff (hcmp : ConsistentComparator localeCompare) (a b : LatticeAtom) :
    AtomLe localeCompare a b ↔ atomKindOrder a < atomKindOrder b ∨
      (atomKindOrder a = atomKindOrder b ∧
        localeCompare (atomDescription a) (atomDescription b) ≤ 0) := by
  have hrefl := hcmp.refl
  unfold AtomLe atomOrder
  split
  · lia
  · rename_i hkind
    cases a <;> cases b <;> simp_all [atomKindOrder]

theorem atomLe_total (hcmp : ConsistentComparator localeCompare) (a b : LatticeAtom) :
    AtomLe localeCompare a b ∨ AtomLe localeCompare b a := by
  rw [atomLe_iff hcmp, atomLe_iff hcmp]
  have := hcmp.swap (atomDescription b) (atomDescription a)
  lia

variable {s : Finset LatticeAtom} {a : LatticeAtom} {acc : LatticeType}

theorem atomLe_trans (hcmp : ConsistentComparator localeCompare) {b c : LatticeAtom}
    (h : AtomLe localeCompare a b) (h' : AtomLe localeCompare b c) : AtomLe localeCompare a c := by
  rw [atomLe_iff hcmp] at h h' ⊢
  have := hcmp.trans (atomDescription a) (atomDescription b) (atomDescription c)
  lia

/-! ### Canonical types -/

variable (localeCompare)

/-- A union has two to four members, at most one of them numeric, sorted without
repetition. -/
def LatticeType.Canonical : LatticeType → Prop
  | .union members => 2 ≤ members.length ∧ members.length ≤ LATTICE_UNION_MAX_MEMBERS ∧
    (∀ a ∈ members, ∀ b ∈ members, a.isNumeric = true → b.isNumeric = true → a = b) ∧
    members.Nodup ∧ members.Pairwise (AtomLe localeCompare)
  | _ => True

variable {localeCompare}

/-- Atoms of which at most one is numeric. -/
def OneNumeric (s : Finset LatticeAtom) : Prop :=
  ∀ a ∈ s, ∀ b ∈ s, a.isNumeric = true → b.isNumeric = true → a = b

/-- The numeric atoms, by the level. -/
theorem filter_numeric (hnum : OneNumeric s) :
    (∃ a, a.isNumeric = true ∧ (levelOf s).1 = a.domain ∧
      (s.filter fun a => ¬a.isNumeric = false) = {a}) ∨
    (levelOf s).1 = .none ∧ (s.filter fun a => ¬a.isNumeric = false) = ∅ := by
  by_cases hsome : ∃ a ∈ s, a.isNumeric = true
  · obtain ⟨a, ha, hna⟩ := hsome
    refine Or.inl ⟨a, hna, sup_domain_eq ha fun b hb hnb => hnum b hb a ha hnb hna, ?_⟩
    ext b
    simp only [Finset.mem_filter, Bool.not_eq_false, Finset.mem_singleton]
    exact ⟨fun ⟨hb, hnb⟩ => hnum b hb a ha hnb hna, fun h => h ▸ ⟨ha, hna⟩⟩
  · have hall : ∀ b ∈ s, b.isNumeric = false := fun b hb =>
      Bool.eq_false_iff.mpr fun hnb => hsome ⟨b, hb, hnb⟩
    refine Or.inr ⟨sup_domain_eq_none_iff.mpr hall, Finset.filter_eq_empty_iff.mpr ?_⟩
    exact fun b hb => not_not.mpr (hall b hb)

/-- How many atoms there are, by their level. -/
theorem card_levelOf (hnum : OneNumeric s) : s.card = (levelOf s).2.card + (levelOf s).1.count := by
  rw [← Finset.card_filter_add_card_filter_not (s := s) (fun a => a.isNumeric = false)]
  congr 1
  rcases filter_numeric hnum with ⟨a, hna, hdomain, hfilter⟩ | ⟨hdomain, hfilter⟩
  · rw [hfilter, hdomain, Finset.card_singleton]
    cases a <;> first | rfl | cases hna
  · rw [hfilter, hdomain]
    rfl

/-- A level has members unless there are no atoms. -/
theorem levelOf_pos (ha : a ∈ s) : 0 < (levelOf s).2.card + (levelOf s).1.count := by
  cases hna : a.isNumeric with
  | false =>
    have : a ∈ (levelOf s).2 := Finset.mem_filter.mpr ⟨ha, hna⟩
    exact Nat.add_pos_left (Finset.card_pos.mpr ⟨a, this⟩) _
  | true =>
    refine Nat.add_pos_right _ ?_
    have hne : (levelOf s).1 ≠ .none := fun hnone => by
      rw [sup_domain_eq_none_iff.mp hnone a ha] at hna
      cases hna
    cases h : (levelOf s).1 <;> first | exact absurd h hne | exact Nat.one_pos

/-- **Building a union gives the canonical type of the level.** -/
theorem makeUnion_spec (hcmp : ConsistentComparator localeCompare) {members : List LatticeAtom}
    (hne : members ≠ []) :
    (makeUnion localeCompare members).level = cap Big (levelOf members.toFinset) ∧
      (makeUnion localeCompare members).Canonical localeCompare := by
  obtain ⟨hlevel, hnum⟩ := collapse_spec members
  obtain ⟨hnodup, hmem⟩ := dedupe_spec (collapseNumericAtoms members)
  rw [makeUnion]
  generalize hd : dedupe (collapseNumericAtoms members) = deduped at hnodup hmem
  have hset : deduped.toFinset = (collapseNumericAtoms members).toFinset := by
    ext a
    simp [hmem]
  have hnum' : ∀ a ∈ deduped, ∀ b ∈ deduped, a.isNumeric = true → b.isNumeric = true → a = b :=
    fun a ha b hb => hnum a ((hmem a).mp ha) b ((hmem b).mp hb)
  have hcard : deduped.length =
      (levelOf members.toFinset).2.card + (levelOf members.toFinset).1.count := by
    rw [← hlevel, ← hset, ← toFinset_card_of_nodup hnodup]
    exact card_levelOf fun a ha b hb => hnum' a (mem_toFinset.mp ha) b (mem_toFinset.mp hb)
  have hpos : 0 < deduped.length := by
    obtain ⟨m, hm⟩ := exists_mem_of_ne_nil members hne
    rw [hcard]
    exact levelOf_pos (mem_toFinset.mpr hm)
  by_cases hbig : Big (levelOf members.toFinset)
  · rw [if_pos (show deduped.length > LATTICE_UNION_MAX_MEMBERS from hcard ▸ hbig), cap, if_pos hbig]
    exact ⟨rfl, trivial⟩
  · have hsmall : ¬deduped.length > LATTICE_UNION_MAX_MEMBERS := fun h => hbig (by
      rw [Big, ← hcard]
      exact h)
    rw [if_neg hsmall, cap, if_neg hbig, ← hlevel, ← hset]
    split
    · exact ⟨rfl, trivial⟩
    · rename_i hnot
      have : Std.Total (AtomLe localeCompare) := ⟨atomLe_total hcmp⟩
      have : IsTrans LatticeAtom (AtomLe localeCompare) := ⟨fun _ _ _ => atomLe_trans hcmp⟩
      have hperm := perm_insertionSort (AtomLe localeCompare) deduped
      refine ⟨?_, ?_, ?_, fun a ha b hb => ?_, ?_, ?_⟩
      · exact congrArg (fun s => some (levelOf s)) (toFinset_eq_of_perm _ _ hperm)
      · refine hperm.length_eq.symm ▸ ?_
        rcases deduped with _ | ⟨a, _ | ⟨b, rest⟩⟩
        · exact absurd hpos (Nat.lt_irrefl 0)
        · exact absurd rfl (hnot a)
        · simp
      · exact hperm.length_eq.symm ▸ Nat.le_of_not_lt hsmall
      · exact hnum' a (hperm.mem_iff.mp ha) b (hperm.mem_iff.mp hb)
      · exact hperm.nodup_iff.mpr hnodup
      · exact pairwise_insertionSort (AtomLe localeCompare) deduped

/-! ### The join of levels -/

theorem levelOf_mono {t : Finset LatticeAtom} (h : s ⊆ t) : levelOf s ⊔ levelOf t = levelOf t := by
  rw [← levelOf_union, Finset.union_eq_right.mpr h]

theorem extendUnion_spec (hcmp : ConsistentComparator localeCompare) {members : List LatticeAtom}
    (hne : members ≠ []) (atom : LatticeAtom) :
    (extendUnion localeCompare members atom).level =
        cap Big (levelOf members.toFinset ⊔ levelOf {atom}) ∧
      (extendUnion localeCompare members atom).Canonical localeCompare := by
  rw [extendUnion]
  split
  · rename_i hany
    obtain ⟨d, hd, hda⟩ := any_eq_true.mp hany
    obtain rfl := (atomsEqual_iff d atom).mp hda
    rw [sup_comm, levelOf_mono (Finset.singleton_subset_iff.mpr (mem_toFinset.mpr hd))]
    exact makeUnion_spec hcmp hne
  · have h := @makeUnion_spec _ hcmp (members ++ [atom]) (by simp)
    rwa [toFinset_append, levelOf_union] at h

/-- The members of a canonical type are few enough. -/
theorem level_not_big {t : LatticeType} (ht : t.Canonical localeCompare) {l : Level}
    (hl : t.level = some l) : ¬Big l := by
  have hsingle : ∀ a : LatticeAtom, ¬Big (levelOf {a}) := fun a hbig => by
    have := card_levelOf (s := {a}) fun b hb c hc _ _ => by
      rw [Finset.mem_singleton.mp hb, Finset.mem_singleton.mp hc]
    rw [Finset.card_singleton] at this
    simp only [Big, LATTICE_UNION_MAX_MEMBERS] at hbig
    lia
  cases t with
  | dynamic => cases hl
  | unknown =>
    cases hl
    exact fun hbig => absurd hbig (by decide)
  | atom a =>
    cases hl
    exact hsingle a
  | union members =>
    cases hl
    obtain ⟨-, hmax, hnum, hnodup, -⟩ := ht
    intro hbig
    have := card_levelOf (s := members.toFinset) fun a ha b hb =>
      hnum a (mem_toFinset.mp ha) b (mem_toFinset.mp hb)
    rw [toFinset_card_of_nodup hnodup] at this
    simp only [LatticeType.members, Big] at hbig
    lia

theorem levelOf_empty : levelOf ∅ = ⊥ := rfl

/-- Nothing is joined. -/
theorem cappedJoin_bot {x : Option Level} (hx : ∀ l, x = some l → ¬Big l) :
    cappedJoin Big x (some (levelOf ∅)) = x := by
  cases x with
  | none => rfl
  | some l => rw [cappedJoin, levelOf_empty, sup_bot_eq, cap, if_neg (hx l rfl)]

section
variable (hcmp : ConsistentComparator localeCompare)
include hcmp

theorem joinMember_spec (hacc : acc.Canonical localeCompare) (m : LatticeAtom) :
    (joinMember localeCompare acc m).level = cappedJoin Big acc.level (some (levelOf {m})) ∧
      (joinMember localeCompare acc m).Canonical localeCompare := by
  cases acc with
  | dynamic => exact ⟨rfl, trivial⟩
  | unknown =>
    refine ⟨?_, trivial⟩
    rw [cappedJoin_comm]
    exact (cappedJoin_bot (x := some (levelOf {m})) fun l hl =>
      @level_not_big localeCompare (.atom m) trivial _ hl).symm
  | atom a => exact @extendUnion_spec _ hcmp [a] (by simp) m
  | union members =>
    refine extendUnion_spec hcmp ?_ m
    rintro rfl
    exact absurd hacc.1 (by decide)

theorem foldl_joinMember_spec (bs : List LatticeAtom) (hacc : acc.Canonical localeCompare) :
    (bs.foldl (joinMember localeCompare) acc).level =
        cappedJoin Big acc.level (some (levelOf bs.toFinset)) ∧
      (bs.foldl (joinMember localeCompare) acc).Canonical localeCompare := by
  induction bs generalizing acc with
  | nil => exact ⟨(cappedJoin_bot fun l => level_not_big hacc).symm, hacc⟩
  | cons b bs ih =>
    obtain ⟨hlevel, hcanonical⟩ := joinMember_spec hcmp hacc b
    obtain ⟨hrest, hrest'⟩ := ih hcanonical
    refine ⟨?_, hrest'⟩
    rw [foldl_cons, hrest, hlevel, cappedJoin_assoc big_mono, toFinset_cons,
      Finset.insert_eq, levelOf_union]
    cases acc.level with
    | none => rfl
    | some l =>
      change cappedJoin Big (some l) (cap Big _) = cap Big (l ⊔ _)
      rw [cappedJoin_comm, cappedJoin_cap big_mono, sup_comm]

/-- **The join of types is the join of their levels**, and canonical. -/
theorem join_spec {a b : LatticeType} (ha : a.Canonical localeCompare)
    (hb : b.Canonical localeCompare) :
    (join localeCompare a b).level = cappedJoin Big a.level b.level ∧
      (join localeCompare a b).Canonical localeCompare := by
  unfold join
  split
  · exact ⟨rfl, trivial⟩
  · exact ⟨(cappedJoin_none _).symm, trivial⟩
  · refine ⟨?_, hb⟩
    rw [cappedJoin_comm]
    exact (cappedJoin_bot fun l => level_not_big hb).symm
  · exact ⟨(cappedJoin_bot fun l => level_not_big ha).symm, ha⟩
  · rename_i x y
    split
    · rename_i h
      refine ⟨?_, trivial⟩
      simp only [Bool.and_eq_true, decide_eq_true_eq] at h
      obtain ⟨⟨hx, hy⟩, hne⟩ := h
      cases x <;> cases y <;> simp_all [LatticeAtom.isNumeric, atomKindOrder] <;> rfl
    · split
      · rename_i h
        obtain rfl := (atomsEqual_iff x y).mp h
        exact ⟨(cappedJoin_idem (level_not_big ha rfl)).symm, trivial⟩
      · have h := @makeUnion_spec _ hcmp [x, y] (by simp)
        rwa [toFinset_cons, toFinset_cons, toFinset_nil, insert_empty_eq,
          Finset.insert_eq, levelOf_union] at h
  · rename_i members y
    refine extendUnion_spec hcmp ?_ y
    rintro rfl
    exact absurd ha.1 (by decide)
  · rename_i x members
    have h := @extendUnion_spec _ hcmp members (by
      rintro rfl
      exact absurd hb.1 (by decide)) x
    rwa [sup_comm] at h
  · exact foldl_joinMember_spec hcmp _ ha

end

end

end Js2Wasm.Propagate
