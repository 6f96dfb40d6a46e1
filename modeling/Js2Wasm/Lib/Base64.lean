import Mathlib.Data.List.Basic
import Mathlib.Data.List.Induction
import Mathlib.Data.Nat.Bitwise

/-! # Base64

The standard encoding of bytes with padding, and the forgiving decoding of texts: white space
is removed, then one or two `=` that complete a multiple of four, and the rest must be of the
alphabet and not of a length 1 modulo 4.  Bytes, units and sextets are numbers.

Decoding is also a scan from the left: `scan` reads unit by unit what is then `digits` and
`padding`, and `forgivingDecode_eq` says that no more is needed.  `leftover` are the bits that
the sextets read so far have over.
-/
namespace Base64
open List Option

def alphabet : List Char := "ABCDEFGHIJKLMNOPQRSTUVWXYZabcdefghijklmnopqrstuvwxyz0123456789+/".toList

/-- The unit for a sextet. -/
def digit (v : Nat) : Nat := (alphabet.getD v 'A').toNat

/-- The sextet of a unit. -/
def sextet (u : Nat) : Option Nat := (range 64).find? fun v => digit v = u

/-- `=` -/
def pad : Nat := 61

/-- TAB, LF, FF, CR or SPACE -/
def isSpace (u : Nat) : Bool := u = 9 || u = 10 || u = 12 || u = 13 || u = 32

/-- The padded encoding of bytes. -/
def encode : List Nat → List Nat
  | [] => []
  | [a] => [digit (a / 4), digit (a % 4 * 16), pad, pad]
  | [a, b] => [digit (a / 4), digit (a % 4 * 16 + b / 16), digit (b % 16 * 4), pad]
  | a :: b :: c :: rest =>
    digit (a / 4) :: digit (a % 4 * 16 + b / 16) :: digit (b % 16 * 4 + c / 64) ::
      digit (c % 64) :: encode rest

/-- The bytes of sextets; the last one, two or three may have bits over. -/
def decodeSextets : List Nat → List Nat
  | a :: b :: c :: d :: rest =>
    (a * 4 + b / 16) :: (b % 16 * 16 + c / 4) :: (c % 4 * 64 + d) :: decodeSextets rest
  | [a, b, c] => [a * 4 + b / 16, b % 16 * 16 + c / 4]
  | [a, b] => [a * 4 + b / 16]
  | _ => []

/-- Without one or two `=` at the end. -/
def stripPadding (data : List Nat) : List Nat :=
  if data.getLast? = some pad then
    if data.dropLast.getLast? = some pad then data.dropLast.dropLast else data.dropLast
  else data

/-- The forgiving decoding. -/
def forgivingDecode (text : List Nat) : Option (List Nat) :=
  let data := text.filter fun u => !isSpace u
  let data := if data.length % 4 = 0 then stripPadding data else data
  if data.length % 4 = 1 then none else (data.mapM sextet).map decodeSextets

/-! ### Digits -/

theorem alphabet_eq : alphabet =
    ['A', 'B', 'C', 'D', 'E', 'F', 'G', 'H', 'I', 'J', 'K', 'L', 'M', 'N', 'O', 'P',
     'Q', 'R', 'S', 'T', 'U', 'V', 'W', 'X', 'Y', 'Z', 'a', 'b', 'c', 'd', 'e', 'f',
     'g', 'h', 'i', 'j', 'k', 'l', 'm', 'n', 'o', 'p', 'q', 'r', 's', 't', 'u', 'v',
     'w', 'x', 'y', 'z', '0', '1', '2', '3', '4', '5', '6', '7', '8', '9', '+', '/'] :=
  String.toList_ofList

/-- The alphabet by its ranges. -/
theorem digit_eq : ∀ v < 64, digit v =
    if v < 26 then v + 65 else if v < 52 then v + 71 else if v < 62 then v - 4
    else if v = 62 then 43 else 47 := by
  simp only [digit, alphabet_eq]
  decide +kernel

theorem sextet_digit : ∀ v < 64, sextet (digit v) = some v := by
  simp only [sextet, digit, alphabet_eq]
  decide +kernel

theorem sextet_some {u v : Nat} (h : sextet u = some v) : v < 64 ∧ digit v = u := by
  have hmem := mem_of_find?_eq_some h
  have hdigit := find?_some h
  exact ⟨mem_range.mp hmem, of_decide_eq_true hdigit⟩

theorem digit_ne_pad : ∀ v < 64, digit v ≠ pad := by
  simp only [digit, alphabet_eq]
  decide +kernel

theorem not_isSpace_digit : ∀ v < 64, isSpace (digit v) = false := by
  simp only [digit, alphabet_eq]
  decide +kernel

variable {l vs : List Nat}

theorem mapM_sextet_digits (h : ∀ v ∈ vs, v < 64) : (vs.map digit).mapM sextet = some vs := by
  induction vs with
  | nil => rfl
  | cons v vs ih =>
    rw [map_cons, mapM_cons, sextet_digit v (h v mem_cons_self),
      ih fun w hw => h w (mem_cons_of_mem _ hw)]
    rfl

theorem mapM_sextet {us : List Nat} (h : us.mapM sextet = some vs) :
    us = vs.map digit ∧ ∀ v ∈ vs, v < 64 := by
  induction us generalizing vs with
  | nil =>
    cases h
    exact ⟨rfl, fun v hv => nomatch hv⟩
  | cons u us ih =>
    rw [mapM_cons] at h
    obtain ⟨v, hv, h⟩ := bind_eq_some_iff.mp h
    obtain ⟨ws, hws, h⟩ := bind_eq_some_iff.mp h
    cases h
    obtain ⟨rfl, hlt⟩ := ih hws
    obtain ⟨hv64, rfl⟩ := sextet_some hv
    exact ⟨rfl, fun w hw => (mem_cons.mp hw).elim (fun h => h ▸ hv64) (hlt w)⟩

/-! ### The scan -/

structure Scanned where
  digits : List Nat
  padding : Nat

/-- One more unit; at most two `=`, and nothing after them. -/
def scanUnit (s : Scanned) (u : Nat) : Option Scanned :=
  if u = pad then if 2 < s.padding + 1 then none else some { s with padding := s.padding + 1 }
  else if s.padding ≠ 0 then none
  else (sextet u).map fun v => { s with digits := s.digits ++ [v] }

def scan (data : List Nat) : Option Scanned := data.foldlM scanUnit ⟨[], 0⟩

/-- The bytes, if padding and length are right. -/
def Scanned.result (s : Scanned) : Option (List Nat) :=
  if s.padding ≠ 0 ∧ (s.digits.length + s.padding) % 4 ≠ 0 then none
  else if s.digits.length % 4 = 1 then none
  else some (decodeSextets s.digits)

variable (data : List Nat)

theorem scan_snoc (u : Nat) :
    scan (data ++ [u]) = (scan data).bind fun s => scanUnit s u := by
  rw [scan, foldlM_append]
  change (scan data).bind (fun s => [u].foldlM scanUnit s) = _
  congr 1
  funext s
  rw [foldlM_cons]
  exact bind_pure _

/-- What is scanned up to a unit decides about all of the text. -/
theorem scan_none_append {data : List Nat} (h : scan data = none) (rest : List Nat) :
    scan (data ++ rest) = none := by
  rw [scan, foldlM_append]
  change (scan data).bind _ = _
  rw [h]
  rfl

theorem replicate_pad_snoc (n : Nat) :
    replicate (n + 1) pad = replicate n pad ++ [pad] := replicate_succ'

/-- **The scan finds digits and padding.** -/
theorem scan_iff (s : Scanned) : scan data = some s ↔
    data = s.digits.map digit ++ replicate s.padding pad ∧ s.padding ≤ 2 ∧
      ∀ v ∈ s.digits, v < 64 := by
  induction data using List.reverseRecOn generalizing s with
  | nil =>
    obtain ⟨digits, padding⟩ := s
    constructor
    · intro h
      cases h
      exact ⟨rfl, Nat.zero_le _, fun v hv => nomatch hv⟩
    · rintro ⟨h, -, -⟩
      obtain ⟨hdigits, hpadding⟩ := append_eq_nil_iff.mp h.symm
      obtain rfl : digits = [] := map_eq_nil_iff.mp hdigits
      obtain rfl : padding = 0 := by simpa using hpadding
      rfl
  | append_singleton data u ih =>
    obtain ⟨digits, padding⟩ := s
    rw [scan_snoc, bind_eq_some_iff]
    dsimp only
    constructor
    · rintro ⟨⟨digits', padding'⟩, hscan, hunit⟩
      obtain ⟨rfl, hle, hlt⟩ := (ih _).mp hscan
      dsimp only at hle hlt
      rw [scanUnit] at hunit
      dsimp only at hunit
      by_cases hu : u = pad
      · rw [if_pos hu] at hunit
        by_cases hmore : 2 < padding' + 1
        · rw [if_pos hmore] at hunit
          cases hunit
        · rw [if_neg hmore] at hunit
          cases hunit
          refine ⟨?_, by lia, hlt⟩
          rw [hu, replicate_pad_snoc, append_assoc]
      · rw [if_neg hu] at hunit
        by_cases hpadding : padding' = 0
        · rw [if_neg (not_not.mpr hpadding)] at hunit
          obtain ⟨v, hv, hs⟩ := map_eq_some_iff.mp hunit
          cases hs
          obtain ⟨hv64, rfl⟩ := sextet_some hv
          refine ⟨?_, hle, fun w hw => ?_⟩
          · rw [hpadding, replicate_zero, append_nil, append_nil,
              map_append]
            rfl
          · rcases mem_append.mp hw with hw | hw
            · exact hlt w hw
            · exact mem_singleton.mp hw ▸ hv64
        · rw [if_pos hpadding] at hunit
          cases hunit
    · rintro ⟨heq, hle, hlt⟩
      cases padding with
      | zero =>
        rw [replicate_zero, append_nil] at heq
        have hne : digits ≠ [] := fun hnil => by
          rw [hnil] at heq
          exact append_ne_nil_of_right_ne_nil _ (cons_ne_nil _ _) heq
        have hsnoc := dropLast_concat_getLast hne
        rw [← hsnoc, map_append] at heq
        obtain ⟨hdata, hu⟩ := append_inj' heq rfl
        have hv := hlt _ (getLast_mem hne)
        have hu := (List.cons.inj hu).1
        refine ⟨⟨digits.dropLast, 0⟩, (ih _).mpr ⟨?_, Nat.zero_le _, fun v hv =>
          hlt v (dropLast_subset digits hv)⟩, ?_⟩
        · rw [hdata, replicate_zero, append_nil]
        · rw [scanUnit, hu, if_neg (digit_ne_pad _ hv), if_neg (not_not.mpr rfl),
            sextet_digit _ hv, map_some, hsnoc]
      | succ padding =>
        rw [replicate_pad_snoc, ← append_assoc] at heq
        obtain ⟨hdata, hu⟩ := append_inj' heq rfl
        have hu := (List.cons.inj hu).1
        refine ⟨⟨digits, padding⟩, (ih _).mpr ⟨hdata, by dsimp only; lia, hlt⟩, ?_⟩
        rw [scanUnit, if_pos hu, if_neg (by dsimp only; lia)]

/-! ### Decoding by the scan -/

theorem getLast?_digits_ne (h : ∀ v ∈ vs, v < 64) : (vs.map digit).getLast? ≠ some pad := by
  intro hlast
  obtain ⟨v, hv, hpad⟩ := mem_map.mp (mem_of_getLast? hlast)
  exact digit_ne_pad v (h v hv) hpad

/-- The padding goes, all of it. -/
theorem stripPadding_digits (h : ∀ v ∈ vs, v < 64) {p : Nat} (hp : p ≤ 2) :
    stripPadding (vs.map digit ++ replicate p pad) = vs.map digit := by
  have hne := getLast?_digits_ne h
  rw [stripPadding]
  match p, hp with
  | 0, _ => rw [replicate_zero, append_nil, if_neg hne]
  | 1, _ =>
    rw [replicate_one, getLast?_concat, if_pos rfl, dropLast_concat, if_neg hne]
  | 2, _ =>
    rw [replicate_pad_snoc, replicate_one, ← append_assoc, getLast?_concat,
      if_pos rfl, dropLast_concat, getLast?_concat, if_pos rfl, dropLast_concat]

theorem stripPadding_eq :
    ∃ p ≤ 2, data = stripPadding data ++ replicate p pad := by
  have hsnoc : ∀ {l : List Nat}, l.getLast? = some pad → l = l.dropLast ++ [pad] :=
    fun {l} h => by
      have hne : l ≠ [] := fun hnil => by
        rw [hnil] at h
        cases h
      rw [getLast?_eq_some_getLast hne, some.injEq] at h
      rw [← h, dropLast_concat_getLast hne]
  rw [stripPadding]
  by_cases hlast : data.getLast? = some pad
  · rw [if_pos hlast]
    by_cases hlast' : data.dropLast.getLast? = some pad
    · rw [if_pos hlast']
      refine ⟨2, le_rfl, ?_⟩
      rw [replicate_pad_snoc, replicate_one, ← append_assoc, ← hsnoc hlast',
        ← hsnoc hlast]
    · rw [if_neg hlast']
      exact ⟨1, by lia, hsnoc hlast⟩
  · rw [if_neg hlast]
    exact ⟨0, Nat.zero_le _, (append_nil _).symm⟩

/-- The decoding of a text without white space. -/
theorem decode_eq_scan :
    (let data' := if data.length % 4 = 0 then stripPadding data else data
      if data'.length % 4 = 1 then none else (data'.mapM sextet).map decodeSextets) =
      (scan data).bind Scanned.result := by
  dsimp only
  cases hscan : scan data with
  | none =>
    -- the text has no digits and padding
    have hnone : ∀ p ≤ 2, ∀ us, data = us ++ replicate p pad → us.mapM sextet = none := by
      intro p hp us heq
      by_contra hne
      obtain ⟨vs, hvs⟩ := ne_none_iff_exists'.mp hne
      obtain ⟨rfl, hlt⟩ := mapM_sextet hvs
      rw [(scan_iff data ⟨vs, p⟩).mpr ⟨heq, hp, hlt⟩] at hscan
      cases hscan
    have hnone' : (if data.length % 4 = 0 then stripPadding data else data).mapM sextet =
        none := by
      by_cases hfour : data.length % 4 = 0
      · obtain ⟨p, hp, heq⟩ := stripPadding_eq data
        rw [if_pos hfour]
        exact hnone p hp _ heq
      · rw [if_neg hfour]
        exact hnone 0 (Nat.zero_le _) data (append_nil _).symm
    rw [hnone', bind_none, map_none, ite_self]
  | some s =>
    obtain ⟨vs, p⟩ := s
    obtain ⟨heq, hp, hlt⟩ := (scan_iff data _).mp hscan
    dsimp only at heq hp hlt
    have hlength : data.length = vs.length + p := by
      rw [heq, length_append, length_map, length_replicate]
    rw [bind_some, Scanned.result]
    dsimp only
    rw [hlength]
    by_cases hfour : (vs.length + p) % 4 = 0
    · have hright : ¬(p ≠ 0 ∧ (vs.length + p) % 4 ≠ 0) := fun h => h.2 hfour
      rw [if_pos hfour, heq, stripPadding_digits hlt hp, length_map,
        mapM_sextet_digits hlt, if_neg hright]
      rfl
    · rw [if_neg hfour]
      by_cases hzero : p = 0
      · have hright : ¬(p ≠ 0 ∧ (vs.length + p) % 4 ≠ 0) := fun h => h.1 hzero
        rw [if_neg hright, hlength, heq, hzero, replicate_zero, append_nil,
          Nat.add_zero, mapM_sextet_digits hlt]
        rfl
      · have hnone : data.mapM sextet = none := by
          by_contra hne
          obtain ⟨ws, hws⟩ := ne_none_iff_exists'.mp hne
          obtain ⟨hdigits, hws64⟩ := mapM_sextet hws
          have hmem : pad ∈ data := by
            rw [heq]
            exact mem_append_right _ (mem_replicate.mpr ⟨hzero, rfl⟩)
          rw [hdigits] at hmem
          obtain ⟨v, hv, hpad⟩ := mem_map.mp hmem
          exact digit_ne_pad v (hws64 v hv) hpad
        rw [hnone, map_none, ite_self, if_pos ⟨hzero, hfour⟩]

/-- **Decoding is one scan.** -/
theorem forgivingDecode_eq (text : List Nat) : forgivingDecode text =
    (scan (text.filter fun u => !isSpace u)).bind Scanned.result := decode_eq_scan _

/-! ### Bits -/

/-- The value of the bits that are over after some sextets. -/
def leftover : List Nat → Nat
  | _ :: _ :: _ :: _ :: rest => leftover rest
  | [_, _, c] => c % 4
  | [_, b] => b % 16
  | [a] => a
  | [] => 0

theorem length_decodeSextets : ∀ vs : List Nat,
    (decodeSextets vs).length = 6 * vs.length / 8
  | [] => rfl
  | [_] | [_, _] | [_, _, _] => by simp [decodeSextets]
  | _ :: _ :: _ :: _ :: rest => by
    rw [decodeSextets]
    simp only [length_cons, length_decodeSextets rest]
    lia

/-- **One more sextet**: with the bits that were over it has a byte, or still less. -/
theorem decodeSextets_snoc : ∀ (vs : List Nat) (v : Nat),
    (6 * vs.length % 8 + 6 < 8 → decodeSextets (vs ++ [v]) = decodeSextets vs ∧
      leftover (vs ++ [v]) = leftover vs * 64 + v) ∧
    (8 ≤ 6 * vs.length % 8 + 6 →
      decodeSextets (vs ++ [v]) =
        decodeSextets vs ++ [(leftover vs * 64 + v) / 2 ^ (6 * vs.length % 8 + 6 - 8)] ∧
      leftover (vs ++ [v]) = (leftover vs * 64 + v) % 2 ^ (6 * vs.length % 8 + 6 - 8))
  | [], v => ⟨fun _ => ⟨rfl, by simp [leftover]⟩, fun h => absurd h (by decide)⟩
  | [a], v | [a, b], v => by
    refine ⟨fun h => absurd h (by simp), fun _ => ⟨?_, ?_⟩⟩
    · simp [decodeSextets, leftover]
      lia
    · simp [leftover]
      lia
  | [a, b, c], v => by
    refine ⟨fun h => absurd h (by simp), fun _ => ⟨?_, ?_⟩⟩
    · simp [decodeSextets, leftover]
    · simp [leftover]
      lia
  | a :: b :: c :: d :: rest, v => by
    have ih := decodeSextets_snoc rest v
    have hmod : 6 * (a :: b :: c :: d :: rest).length % 8 = 6 * rest.length % 8 := by
      simp only [length_cons]
      lia
    rw [hmod]
    simp only [cons_append, decodeSextets, leftover]
    exact ⟨fun h => ⟨by rw [(ih.1 h).1], (ih.1 h).2⟩, fun h => ⟨by rw [(ih.2 h).1], (ih.2 h).2⟩⟩

/-! ### Encoding -/

/-- Whole groups are encoded on their own. -/
theorem encode_append : ∀ {l : List Nat}, l.length % 3 = 0 → ∀ l', encode (l ++ l') =
    encode l ++ encode l'
  | [], _, _ => rfl
  | [_], h, _ | [_, _], h, _ => absurd h (by simp)
  | a :: b :: c :: rest, h, l' => by
    simp only [length_cons] at h
    simp only [cons_append, encode]
    rw [encode_append (by lia) l']

theorem length_encode : ∀ l : List Nat, (encode l).length = (l.length + 2) / 3 * 4
  | [] => rfl
  | [_] | [_, _] => by simp [encode]
  | _ :: _ :: _ :: rest => by
    rw [encode]
    simp only [length_cons, length_encode rest]
    lia

/-- An encoding is digits and padding, and its sextets are the bytes. -/
theorem encode_eq : ∀ {l : List Nat}, (∀ b ∈ l, b < 256) → ∃ vs p,
    encode l = vs.map digit ++ replicate p pad ∧ p ≤ 2 ∧ (∀ v ∈ vs, v < 64) ∧
      (vs.length + p) % 4 = 0 ∧ decodeSextets vs = l
  | [], _ => ⟨[], 0, rfl, by lia, fun v hv => absurd hv not_mem_nil, rfl, rfl⟩
  | [a], h => by
    have ha := h a mem_cons_self
    refine ⟨[a / 4, a % 4 * 16], 2, rfl, le_rfl, ?_, by simp, ?_⟩
    · intro v hv
      simp only [mem_cons, not_mem_nil, or_false] at hv
      lia
    · simp only [decodeSextets, List.cons.injEq, and_true]
      lia
  | [a, b], h => by
    have ha := h a mem_cons_self
    have hb := h b (mem_cons_of_mem _ mem_cons_self)
    refine ⟨[a / 4, a % 4 * 16 + b / 16, b % 16 * 4], 1, rfl, by lia, ?_, by simp, ?_⟩
    · intro v hv
      simp only [mem_cons, not_mem_nil, or_false] at hv
      lia
    · simp only [decodeSextets, List.cons.injEq, and_true]
      lia
  | a :: b :: c :: rest, h => by
    have ha := h a (by simp)
    have hb := h b (by simp)
    have hc := h c (by simp)
    have hrest : ∀ x ∈ rest, x < 256 := fun x hx => h x (by simp [hx])
    obtain ⟨vs, p, henc, hp, hlt, hfour, hdec⟩ := encode_eq hrest
    refine ⟨a / 4 :: (a % 4 * 16 + b / 16) :: (b % 16 * 4 + c / 64) :: (c % 64) :: vs, p, ?_, hp,
      ?_, ?_, ?_⟩
    · rw [encode, henc]
      rfl
    · intro v hv
      simp only [mem_cons] at hv
      rcases hv with rfl | rfl | rfl | rfl | hv
      · lia
      · lia
      · lia
      · lia
      · exact hlt v hv
    · simp only [length_cons]
      lia
    · simp only [decodeSextets, hdec, List.cons.injEq, and_true]
      lia

theorem not_isSpace_encode (h : ∀ b ∈ l, b < 256) : ∀ u ∈ encode l, isSpace u = false := by
  obtain ⟨vs, p, henc, -, hlt, -, -⟩ := encode_eq h
  intro u hu
  rw [henc] at hu
  rcases mem_append.mp hu with hu | hu
  · obtain ⟨v, hv, rfl⟩ := mem_map.mp hu
    exact not_isSpace_digit v (hlt v hv)
  · rw [eq_of_mem_replicate hu]
    rfl

/-- **Decoding undoes encoding**, with white space anywhere. -/
theorem forgivingDecode_encode {text : List Nat} (h : ∀ b ∈ l, b < 256)
    (htext : text.filter (fun u => !isSpace u) = encode l) : forgivingDecode text = some l := by
  obtain ⟨vs, p, henc, hp, hlt, hfour, hdec⟩ := encode_eq h
  rw [forgivingDecode_eq, htext, henc, (scan_iff _ ⟨vs, p⟩).mpr ⟨rfl, hp, hlt⟩,
    bind_some, Scanned.result]
  dsimp only
  have hright : ¬(p ≠ 0 ∧ (vs.length + p) % 4 ≠ 0) := fun h => h.2 hfour
  rw [if_neg hright, if_neg (by lia), hdec]

end Base64
