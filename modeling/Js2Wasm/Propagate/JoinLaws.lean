import Mathlib.Data.String.Basic
import Js2Wasm.Propagate.Infer
import Js2Wasm.Propagate.Semilattice

/-! # The laws of the join

The canonical types over some object shapes are closed under the join, and a canonical type
is determined by its level as soon as the comparison of descriptions tells the shapes apart.
So the join then has the laws of a bounded semilattice.  A single tie between two different
shapes breaks them: the members of a union stay in the order in which they came.
-/
namespace Js2Wasm.Propagate
open List CappedJoin

section

variable {localeCompare : String → String → Int}

/-! ### A canonical type is determined by its level -/

variable {s : Finset LatticeAtom} {y x : LatticeAtom} {u t : LatticeType}
    {shapes : List Field → Prop}

theorem levelOf_atoms (hs : OneNumeric s) : (levelOf s).2 ∪ (levelOf s).1.atoms = s := by
  have hsplit := Finset.filter_union_filter_not_eq (fun a : LatticeAtom => a.isNumeric = false) s
  rcases filter_numeric hs with ⟨a, hna, hdomain, hfilter⟩ | ⟨hdomain, hfilter⟩
  · rw [hfilter] at hsplit
    rw [hdomain, atoms_domain hna]
    exact hsplit
  · rw [hfilter] at hsplit
    rw [hdomain]
    exact hsplit

theorem eq_of_levelOf_eq {t : Finset LatticeAtom} (hs : OneNumeric s) (ht : OneNumeric t)
    (h : levelOf s = levelOf t) : s = t := by
  rw [← levelOf_atoms hs, ← levelOf_atoms ht, h]

/-- The members of a canonical type. -/
theorem LatticeType.Canonical.members (h : t.Canonical localeCompare) :
    t.members.Nodup ∧ OneNumeric t.members.toFinset ∧
      t.members.Pairwise (AtomLe localeCompare) := by
  cases t with
  | unknown | dynamic => exact ⟨nodup_nil, nofun, List.Pairwise.nil⟩
  | atom a =>
    refine ⟨nodup_singleton a, fun b hb c hc _ _ => ?_, pairwise_singleton _ a⟩
    simp only [LatticeType.members, mem_toFinset, mem_singleton] at hb hc
    rw [hb, hc]
  | union members =>
    obtain ⟨-, -, hnum, hnodup, hsorted⟩ := h
    refine ⟨hnodup, fun b hb c hc => ?_, hsorted⟩
    exact hnum b (mem_toFinset.mp hb) c (mem_toFinset.mp hc)

theorem eq_of_members_eq (ht : t.Canonical localeCompare) (hu : u.Canonical localeCompare)
    (htd : t ≠ .dynamic) (hud : u ≠ .dynamic) (h : t.members = u.members) : t = u := by
  have hlong : ∀ {members : List LatticeAtom},
      (LatticeType.union members).Canonical localeCompare → 2 ≤ members.length := fun h => h.1
  cases t with
  | dynamic => exact absurd rfl htd
  | unknown =>
    cases u with
    | union members =>
      obtain rfl : [] = members := h
      exact absurd (hlong hu) (by decide)
    | _ => simp_all [LatticeType.members]
  | atom a =>
    cases u with
    | union members =>
      obtain rfl : [a] = members := h
      exact absurd (hlong hu) (by simp)
    | _ => simp_all [LatticeType.members]
  | union members =>
    cases u with
    | dynamic => exact absurd rfl hud
    | unknown =>
      obtain rfl : members = [] := h
      exact absurd (hlong ht) (by decide)
    | atom a =>
      obtain rfl : members = [a] := h
      exact absurd (hlong ht) (by simp)
    | union members' => exact congrArg LatticeType.union h

theorem canonical_ext (ht : t.Canonical localeCompare) (hu : u.Canonical localeCompare)
    (hlevel : t.level = u.level)
    (htie : ∀ x ∈ t.members, ∀ y ∈ u.members, Tied localeCompare x y → x = y) : t = u := by
  by_cases htd : t = .dynamic
  · subst htd
    cases u <;> first | rfl | cases hlevel
  · have hud : u ≠ .dynamic := by
      rintro rfl
      rw [level_of_ne htd] at hlevel
      cases hlevel
    rw [level_of_ne htd, level_of_ne hud] at hlevel
    obtain ⟨htn, hto, hts⟩ := ht.members
    obtain ⟨hun, huo, hus⟩ := hu.members
    have hset := eq_of_levelOf_eq hto huo (Option.some.inj hlevel)
    have hperm : t.members.Perm u.members := by
      rw [perm_ext_iff_of_nodup htn hun]
      intro a
      rw [← mem_toFinset, hset, mem_toFinset]
    refine eq_of_members_eq ht hu htd hud ?_
    exact List.Perm.eq_of_pairwise (fun x y hx hy hxy hyx => htie x hx y hy ⟨hxy, hyx⟩) hts hus hperm

/-! ### Types over some shapes -/

variable (localeCompare)

/-- A canonical type of which all object members have one of the shapes. -/
structure LatticeType.Over (shapes : List Field → Prop) (t : LatticeType) : Prop where
  canonical : t.Canonical localeCompare
  shapes : ∀ fields, .object fields ∈ t.members → shapes fields

/-- No two of the shapes have descriptions that compare as equal. -/
def ToldApart (shapes : List Field → Prop) : Prop :=
  ∀ fs gs, shapes fs → shapes gs →
    localeCompare (atomDescription (.object fs)) (atomDescription (.object gs)) = 0 → fs = gs

variable {localeCompare}

section
variable (hcmp : ConsistentComparator localeCompare)
include hcmp

theorem tied_object_iff (fs gs : List Field) :
    Tied localeCompare (.object fs) (.object gs) ↔
      localeCompare (atomDescription (.object fs)) (atomDescription (.object gs)) = 0 := by
  have := hcmp.swap (atomDescription (.object fs)) (atomDescription (.object gs))
  rw [Tied, AtomLe, AtomLe, atomOrder_object, atomOrder_object]
  omega

theorem Tied.eq_of_toldApart (happart : ToldApart localeCompare shapes)
    (hx : ∀ fs, x = .object fs → shapes fs) (hy : ∀ fs, y = .object fs → shapes fs)
    (h : Tied localeCompare x y) : x = y := by
  have hkind : atomKindOrder x = atomKindOrder y := by
    obtain ⟨h1, h2⟩ := h
    rw [atomLe_iff hcmp] at h1 h2
    omega
  cases x with
  | object fs =>
    cases y with
    | object gs =>
      have hzero := (tied_object_iff hcmp fs gs).mp h
      exact congrArg LatticeAtom.object (happart fs gs (hx fs rfl) (hy gs rfl) hzero)
    | _ => exact absurd hkind (by simp [atomKindOrder])
  | _ => cases y <;> first | rfl | exact absurd hkind (by simp [atomKindOrder])

/-- Types over shapes that are told apart are equal as soon as their levels are. -/
theorem over_ext (happart : ToldApart localeCompare shapes) (ht : t.Over localeCompare shapes)
    (hu : u.Over localeCompare shapes) (hlevel : t.level = u.level) : t = u := by
  refine canonical_ext ht.canonical hu.canonical hlevel fun x hx y hy htied => ?_
  apply htied.eq_of_toldApart hcmp happart
  · rintro fs rfl
    exact ht.shapes fs hx
  · rintro fs rfl
    exact hu.shapes fs hy

end

/-- The objects of a type are those of its level. -/
theorem mem_members_of_level (fs : List Field) :
    .object fs ∈ t.members ↔ ∃ l, t.level = some l ∧ .object fs ∈ l.2 := by
  by_cases hd : t = .dynamic
  · subst hd
    simp [LatticeType.members, LatticeType.level]
  · have hnum : (LatticeAtom.object fs).isNumeric = false := rfl
    simp [level_of_ne hd, levelOf, hnum]

/-- **The types over some shapes are closed under the join.** -/
theorem LatticeType.Over.join (hcmp : ConsistentComparator localeCompare) {a b : LatticeType}
    (ha : a.Over localeCompare shapes) (hb : b.Over localeCompare shapes) :
    (join localeCompare a b).Over localeCompare shapes := by
  obtain ⟨hlevel, hcanonical⟩ := join_spec hcmp ha.canonical hb.canonical
  refine ⟨hcanonical, fun fs hfs => ?_⟩
  obtain ⟨l, hl, hmem⟩ := (mem_members_of_level fs).mp hfs
  rw [hlevel] at hl
  cases hla : a.level with
  | none =>
    rw [hla] at hl
    cases hl
  | some la =>
    cases hlb : b.level with
    | none =>
      rw [hla, hlb] at hl
      cases hl
    | some lb =>
      rw [hla, hlb, cappedJoin, cap] at hl
      split at hl
      · cases hl
      · cases hl
        rcases Finset.mem_union.mp hmem with h | h
        · exact ha.shapes fs ((mem_members_of_level fs).mpr ⟨la, hla, h⟩)
        · exact hb.shapes fs ((mem_members_of_level fs).mpr ⟨lb, hlb, h⟩)

/-! ### The laws -/

variable (localeCompare)

/-- How often a chain of joins changes its value. -/
def changes (t : LatticeType) : List LatticeType → Nat
  | [] => 0
  | u :: rest =>
    (if typesEqual (join localeCompare t u) t then 0 else 1) +
      changes (join localeCompare t u) rest

/-- The laws of a bounded semilattice, for the types over some shapes. -/
structure JoinLaws (shapes : List Field → Prop) : Prop where
  comm : ∀ a b : LatticeType, a.Over localeCompare shapes → b.Over localeCompare shapes →
    typesEqual (join localeCompare a b) (join localeCompare b a) = true
  assoc : ∀ a b c : LatticeType, a.Over localeCompare shapes → b.Over localeCompare shapes →
    c.Over localeCompare shapes →
    typesEqual (join localeCompare (join localeCompare a b) c)
      (join localeCompare a (join localeCompare b c)) = true
  idem : ∀ a : LatticeType, a.Over localeCompare shapes →
    typesEqual (join localeCompare a a) a = true
  identity : ∀ a : LatticeType, a.Over localeCompare shapes →
    typesEqual (join localeCompare .unknown a) a = true ∧
      typesEqual (join localeCompare a .unknown) a = true
  absorbing : ∀ a : LatticeType, a.Over localeCompare shapes →
    typesEqual (join localeCompare .dynamic a) .dynamic = true ∧
      typesEqual (join localeCompare a .dynamic) .dynamic = true
  closed : ∀ a b : LatticeType, a.Over localeCompare shapes → b.Over localeCompare shapes →
    (join localeCompare a b).Over localeCompare shapes
  bounded : ∀ (a : LatticeType) (chain : List LatticeType), a.Over localeCompare shapes →
    (∀ t ∈ chain, t.Over localeCompare shapes) →
    changes localeCompare a chain ≤ LATTICE_UNION_MAX_MEMBERS + 2

variable {localeCompare}

/-- A join of levels that changes the first raises its rank. -/
theorem rank_lt_of_join (ht : t.Canonical localeCompare)
    (hne : cappedJoin Big t.level u.level ≠ t.level) :
    capRank rank (LATTICE_UNION_MAX_MEMBERS + 1) t.level <
      capRank rank (LATTICE_UNION_MAX_MEMBERS + 1) (cappedJoin Big t.level u.level) :=
  capRank_lt rank_strictMono rank_le (fun _ => level_not_big ht) hne

theorem capRank_level_le (ht : t.Canonical localeCompare) :
    capRank rank (LATTICE_UNION_MAX_MEMBERS + 1) t.level ≤ LATTICE_UNION_MAX_MEMBERS + 2 := by
  cases hl : t.level with
  | none => exact le_refl _
  | some l => exact Nat.le_succ_of_le (rank_le l (level_not_big ht hl))

section
variable (hcmp : ConsistentComparator localeCompare) (happart : ToldApart localeCompare shapes)
include hcmp happart

/-- Every change in a chain raises the rank, which has a bound. -/
theorem changes_le (chain : List LatticeType) (ht : t.Over localeCompare shapes)
    (hchain : ∀ u ∈ chain, u.Over localeCompare shapes) :
    changes localeCompare t chain + capRank rank (LATTICE_UNION_MAX_MEMBERS + 1) t.level ≤
      LATTICE_UNION_MAX_MEMBERS + 2 := by
  induction chain generalizing t with
  | nil => rw [changes, Nat.zero_add]; exact capRank_level_le ht.canonical
  | cons u rest ih =>
    have hu := hchain u mem_cons_self
    have hjoin := ht.join hcmp hu
    have hrest := ih hjoin fun v hv => hchain v (mem_cons_of_mem u hv)
    have hlevel := (join_spec hcmp ht.canonical hu.canonical).1
    rw [changes]
    split
    · rename_i hsame
      rw [(typesEqual_iff _ _).mp hsame] at hrest ⊢
      omega
    · rename_i hchange
      have hne : cappedJoin Big t.level u.level ≠ t.level := fun heq =>
        hchange ((typesEqual_iff _ _).mpr (over_ext hcmp happart hjoin ht (hlevel.trans heq)))
      have hlt := rank_lt_of_join ht.canonical hne
      rw [← hlevel] at hlt
      omega

theorem joinLaws_of_toldApart :
    JoinLaws localeCompare shapes where
  comm a b ha hb := by
    rw [typesEqual_iff]
    apply over_ext hcmp happart (ha.join hcmp hb) (hb.join hcmp ha)
    rw [(join_spec hcmp ha.canonical hb.canonical).1, (join_spec hcmp hb.canonical ha.canonical).1]
    exact cappedJoin_comm _ _
  assoc a b c ha hb hc := by
    have hab := ha.join hcmp hb
    have hbc := hb.join hcmp hc
    rw [typesEqual_iff]
    apply over_ext hcmp happart (hab.join hcmp hc) (ha.join hcmp hbc)
    rw [(join_spec hcmp hab.canonical hc.canonical).1, (join_spec hcmp ha.canonical hb.canonical).1,
      (join_spec hcmp ha.canonical hbc.canonical).1, (join_spec hcmp hb.canonical hc.canonical).1]
    exact cappedJoin_assoc big_mono _ _ _
  idem a ha := by
    rw [typesEqual_iff]
    apply over_ext hcmp happart (ha.join hcmp ha) ha
    rw [(join_spec hcmp ha.canonical ha.canonical).1]
    cases hl : a.level with
    | none => rfl
    | some l => exact cappedJoin_idem (level_not_big ha.canonical hl)
  identity a _ := by
    rw [typesEqual_iff, typesEqual_iff]
    cases a <;> exact ⟨rfl, rfl⟩
  absorbing a _ := by
    rw [typesEqual_iff, typesEqual_iff]
    cases a <;> exact ⟨rfl, rfl⟩
  closed a b ha hb := ha.join hcmp hb
  bounded a chain ha hchain := by
    have := changes_le hcmp happart chain ha hchain
    omega

end

/-- The union of two tied shapes lists them as they came. -/
theorem join_tied (hx : x.isNumeric = false) (hne : x ≠ y) (hnum : y.isNumeric = false)
    (hle : AtomLe localeCompare x y) : join localeCompare (.atom x) (.atom y) = .union [x, y] := by
  have hcollapse : collapseNumericAtoms [x, y] = [x, y] := by
    simp [collapseNumericAtoms, hx, hnum]
  have hdedupe : dedupe [x, y] = [x, y] := by
    simp [dedupe, atomsEqual_iff, hne.symm]
  have hle' : atomOrder localeCompare x y ≤ 0 := hle
  simp [join, hx, makeUnion, hcollapse, hdedupe, atomsEqual_iff, hne, hle',
    LATTICE_UNION_MAX_MEMBERS]

theorem over_object {fields : List Field} (h : shapes fields) :
    (LatticeType.atom (.object fields)).Over localeCompare shapes := by
  refine ⟨trivial, fun fields' hfields => ?_⟩
  obtain rfl : fields' = fields := LatticeAtom.object.inj (mem_singleton.mp hfields)
  exact h

/-- **The join is a bounded semilattice exactly where the shapes are told apart.** -/
theorem joinLaws_iff (hcmp : ConsistentComparator localeCompare) (shapes : List Field → Prop) :
    JoinLaws localeCompare shapes ↔ ToldApart localeCompare shapes := by
  refine ⟨fun hlaws fs gs hfs hgs hzero => ?_, joinLaws_of_toldApart hcmp⟩
  by_contra hne
  have hcomm := (typesEqual_iff _ _).mp (hlaws.comm _ _ (over_object hfs) (over_object hgs))
  obtain ⟨hle, hge⟩ := (tied_object_iff hcmp fs gs).mpr hzero
  have hne' : LatticeAtom.object fs ≠ .object gs := fun h => hne (LatticeAtom.object.inj h)
  rw [join_tied rfl hne' rfl hle, join_tied rfl hne'.symm rfl hge] at hcomm
  exact hne' (List.cons.inj (LatticeType.union.inj hcomm)).1

end

/-! ### Shapes that tie -/

/-- Comparison by code points. -/
def codePointCompare (a b : String) : Int := if a < b then -1 else if b < a then 1 else 0

theorem codePointCompare_consistent : ConsistentComparator codePointCompare where
  swap a b := by
    have := lt_asymm (a := a) (b := b)
    unfold codePointCompare
    split <;> split <;> simp_all
  trans a b c hab hbc := by
    have hle : ∀ x y : String, codePointCompare x y ≤ 0 ↔ x ≤ y := fun x y => by
      unfold codePointCompare
      rcases lt_trichotomy x y with h | rfl | h
      · simp [h, h.le]
      · simp
      · simp [h, h.not_gt, h.not_ge]
    rw [hle] at *
    exact hab.trans hbc

mutual

/-- Object literals give shapes with fields, sorted by name without repetition. -/
def atomSorted : LatticeAtom → Bool
  | .object fields => !fields.isEmpty && fieldsSorted fields
  | _ => true

def fieldsSorted : List Field → Bool
  | [] => true
  | f :: rest =>
    fieldSorted f && rest.all (fun g => codeUnits f.name < codeUnits g.name) && fieldsSorted rest

def fieldSorted : Field → Bool
  | .mk _ type => atomSorted type

end

/-- The shapes the analysis builds. -/
def Built (fields : List Field) : Prop :=
  atomSorted (.object fields) = true ∧
    objectAtomDepth (.object fields) ≤ LATTICE_OBJECT_SHAPE_MAX_DEPTH

instance : DecidablePred Built := fun _ => inferInstanceAs (Decidable (_ ∧ _))

theorem joinLaws_iff_points : JoinLaws codePointCompare
    (fun fields => fields = [.mk "x" .f64] ∨ fields = [.mk "y" .f64]) := by
  refine (joinLaws_iff codePointCompare_consistent _).mpr fun fs gs hfs hgs hzero => ?_
  rcases hfs with rfl | rfl <;> rcases hgs with rfl | rfl <;>
    first | rfl | exact absurd hzero (by decide)

/-- The shape of an object with one property, named `a:f64,b`, is printed as the shape of
one with the properties `a` and `b`. -/
theorem built_not_joinLaws : ¬JoinLaws codePointCompare Built := by
  intro hlaws
  have hone : Built [.mk "a:f64,b" .bool] := by decide
  have htwo : Built [.mk "a" .f64, .mk "b" .bool] := by decide
  have hcomm := hlaws.comm _ _ (over_object hone) (over_object htwo)
  exact absurd hcomm (by decide)

end Js2Wasm.Propagate
