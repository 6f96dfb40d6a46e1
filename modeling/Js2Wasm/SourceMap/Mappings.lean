import Js2Wasm.Lib.Base64
import Js2Wasm.Lib.Leb128
import Mathlib.Tactic.NormNum
import Js2Wasm.Lib.KeyedList
import Mathlib.Data.List.Dedup
import Mathlib.Data.List.Sort

/-! # Base64 VLQ values

`encodeVLQ` and `decodeVLQ` (`emit/sourcemap.ts`).  Both work on a 32-bit word that
holds the magnitude above a sign bit, so what comes back is the value whose word has
the same 32 bits (`decodeVLQ_encodeVLQ`); for a magnitude below 2^31 that is the value
itself (`wordValue_vlqWord`), and -2^31 is the first one that is lost.

A string is its list of characters.  The word is a natural number below 2^32, as
`>>>` leaves it.

`generateSourceMap` and `decodeMappings` (`emit/sourcemap.ts`).  The generator sorts
the entries by wasm offset, numbers the source files in the order of their first
appearance, and writes each entry as the four differences to the entry before; all
segments are on one line.

`readMappings` says what a reader of the map recovers: it adds the differences up and
looks the source index up.  `generateSourceMap_reads_back` is the round trip.  Every
difference has to fit the 32-bit word of a VLQ value; offsets, lines and columns below
2^31 do, and so do the source indices of at most 2^31 files.  With one file more the
index can fall by 2^31, which is read as 0 (`manyFiles_misread`).
-/
namespace Js2Wasm.SourceMap
open List

/-- Base64 VLQ encoding characters. -/
def BASE64_CHARS : List Char :=
  "ABCDEFGHIJKLMNOPQRSTUVWXYZabcdefghijklmnopqrstuvwxyz0123456789+/".toList

/-- `ToUint32`. -/
def toUint32 (value : Int) : Nat := (value % 2 ^ 32).toNat

/-- `value < 0 ? (-value << 1) | 1 : value << 1`. -/
def vlqWord (value : Int) : Nat :=
  if value < 0 then ((toUint32 (-value) <<< 1) % 2 ^ 32) ||| 1
  else (toUint32 value <<< 1) % 2 ^ 32

/-- `BASE64_CHARS[digit]`. -/
def base64Char (digit : Nat) : Char := BASE64_CHARS.getD digit 'A'

/-- The digit loop of `encodeVLQ`, lowest five bits first. -/
def encodeDigits (vlq : Nat) : List Char :=
  let digit := vlq &&& 0x1f
  let rest := vlq >>> 5
  if 0 < rest then base64Char (digit ||| 0x20) :: encodeDigits rest
  else [base64Char digit]
termination_by vlq
decreasing_by
  rename_i h
  simp only [Nat.shiftRight_eq_div_pow] at h ⊢
  omega

/-- Encode a signed integer as a Base64 VLQ string. -/
def encodeVLQ (value : Int) : List Char := encodeDigits (vlqWord value)

/-- The loop of `decodeVLQ`: the word and the rest of the string. -/
def decodeDigits : List Char → Nat → Nat → Except String (Nat × List Char)
  | [], vlq, _ => .ok (vlq, [])
  | char :: rest, vlq, shift =>
    match BASE64_CHARS.idxOf? char with
    | none => .error ("Invalid VLQ character: " ++ char.toString)
    | some digit =>
      let vlq := (vlq ||| ((digit &&& 0x1f) <<< (shift % 32))) % 2 ^ 32
      if digit &&& 0x20 != 0 then decodeDigits rest vlq (shift + 5) else .ok (vlq, rest)

/-- The signed integer of a word. -/
def wordValue (vlq : Nat) : Int :=
  if vlq &&& 1 == 1 then -((vlq >>> 1 : Nat) : Int) else ((vlq >>> 1 : Nat) : Int)

/-- Decode a Base64 VLQ string back to a signed integer. -/
def decodeVLQ (encoded : List Char) : Except String (Int × List Char) :=
  (decodeDigits encoded 0 0).map fun p => (wordValue p.1, p.2)

/-! ### Digits -/

theorem and_31 (n : Nat) : n &&& 0x1f = n % 32 := Nat.and_two_pow_sub_one_eq_mod n 5

variable {d vlq : Nat}

theorem digit_or_32 (hd : d < 32) : d ||| 0x20 = d + 32 := by
  rw [Nat.lor_comm, show (0x20 : Nat) = 2 ^ 5 * 1 from rfl,
    ← Nat.two_pow_add_eq_or_of_lt (show d < 2 ^ 5 from hd) 1]
  omega

theorem base64Chars_eq : BASE64_CHARS = Base64.alphabet := rfl

theorem idxOf?_base64Char :
    ∀ d < 64, BASE64_CHARS.idxOf? (base64Char d) = some d ∧
      (d &&& 0x1f = d % 32) ∧ ((d &&& 0x20 != 0) = decide (32 ≤ d)) := by
  simp only [base64Char, base64Chars_eq, Base64.alphabet_eq]
  decide +kernel

theorem length_base64Chars : BASE64_CHARS.length = 64 := by
  rw [base64Chars_eq, Base64.alphabet_eq]
  rfl

theorem separators_not_base64 : ',' ∉ BASE64_CHARS ∧ ';' ∉ BASE64_CHARS := by
  rw [base64Chars_eq, Base64.alphabet_eq]
  decide

theorem base64Char_mem (hd : d < 64) : base64Char d ∈ BASE64_CHARS := by
  have hlt : d < BASE64_CHARS.length := length_base64Chars ▸ hd
  rw [base64Char, getD_eq_getElem _ _ hlt]
  exact getElem_mem hlt

/-- The loop on a last digit. -/
theorem decodeDigits_last (hd : d < 32) (rest : List Char) (vlq shift : Nat) :
    decodeDigits (base64Char d :: rest) vlq shift =
      .ok ((vlq ||| (d <<< (shift % 32))) % 2 ^ 32, rest) := by
  obtain ⟨hidx, hand, hbit⟩ := idxOf?_base64Char d (by omega)
  rw [decodeDigits, hidx]
  simp [hand, hbit, Nat.mod_eq_of_lt hd, Nat.not_le.mpr hd]

/-- The loop on a digit with the continuation bit. -/
theorem decodeDigits_more (hd : d < 32) (rest : List Char) (vlq shift : Nat) :
    decodeDigits (base64Char (d ||| 0x20) :: rest) vlq shift =
      decodeDigits rest ((vlq ||| (d <<< (shift % 32))) % 2 ^ 32) (shift + 5) := by
  obtain ⟨hidx, hand, hbit⟩ := idxOf?_base64Char (d + 32) (by omega)
  rw [digit_or_32 hd, decodeDigits, hidx]
  simp [hand, hbit, Nat.mod_eq_of_lt hd]

theorem encodeDigits_of_lt (h : vlq < 32) : encodeDigits vlq = [base64Char vlq] := by
  rw [encodeDigits]
  simp [and_31, Nat.shiftRight_eq_div_pow, Nat.mod_eq_of_lt h, Nat.div_eq_of_lt h]

theorem encodeDigits_of_le (h : 32 ≤ vlq) :
    encodeDigits vlq = base64Char ((vlq % 32) ||| 0x20) :: encodeDigits (vlq / 32) := by
  rw [encodeDigits]
  have hpos : 0 < vlq / 32 := Nat.div_pos h (by decide)
  simp [and_31, Nat.shiftRight_eq_div_pow, hpos]

theorem encodeDigits_chars (vlq : Nat) : ∀ c ∈ encodeDigits vlq, c ∈ BASE64_CHARS := by
  induction vlq using Nat.strongRecOn with
  | ind vlq ih =>
    by_cases hsmall : vlq < 32
    · rw [encodeDigits_of_lt hsmall]
      simpa using base64Char_mem (by omega)
    · have hlarge : 32 ≤ vlq := Nat.not_lt.mp hsmall
      rw [encodeDigits_of_le hlarge, digit_or_32 (Nat.mod_lt _ (by decide))]
      intro c hc
      rcases mem_cons.mp hc with heq | hc
      · rw [heq]
        exact base64Char_mem (by omega)
      · exact ih (vlq / 32) (Nat.div_lt_self (by omega) (by decide)) c hc

theorem encodeDigits_ne_nil (vlq : Nat) : encodeDigits vlq ≠ [] := by
  by_cases hsmall : vlq < 32
  · rw [encodeDigits_of_lt hsmall]
    exact cons_ne_nil _ _
  · rw [encodeDigits_of_le (Nat.not_lt.mp hsmall)]
    exact cons_ne_nil _ _

/-! ### The round trip of a word -/

/-- Reading the digits of `v` on top of the bits read before. -/
theorem decodeDigits_encodeDigits (v : Nat) :
    ∀ (vlq shift : Nat) (rest : List Char), vlq < 2 ^ shift → shift < 32 →
      vlq + v * 2 ^ shift < 2 ^ 32 →
      decodeDigits (encodeDigits v ++ rest) vlq shift = .ok (vlq + v * 2 ^ shift, rest) := by
  induction v using Nat.strongRecOn with
  | ind v ih =>
    intro vlq shift rest hvlq hshift hbound
    by_cases hsmall : v < 32
    · rw [encodeDigits_of_lt hsmall, singleton_append, decodeDigits_last hsmall,
        Leb128.or_digit hvlq hshift hbound]
    · have hlarge : 32 ≤ v := Nat.not_lt.mp hsmall
      have hpow : 2 ^ (shift + 5) = 32 * 2 ^ shift := by rw [Nat.pow_add]; ring
      have hvalue : v * 2 ^ shift = v % 32 * 2 ^ shift + v / 32 * 2 ^ (shift + 5) := by
        rw [hpow]
        calc v * 2 ^ shift = (v % 32 + v / 32 * 32) * 2 ^ shift := by
              rw [show v % 32 + v / 32 * 32 = v by omega]
          _ = v % 32 * 2 ^ shift + v / 32 * (32 * 2 ^ shift) := by ring
      have hq : 2 ^ (shift + 5) ≤ v / 32 * 2 ^ (shift + 5) :=
        Nat.le_mul_of_pos_left _ (Nat.div_pos hlarge (by decide))
      have hshift' : shift + 5 < 32 :=
        (Nat.pow_lt_pow_iff_right (by decide)).mp (show 2 ^ (shift + 5) < 2 ^ 32 by omega)
      have hlow : v % 32 * 2 ^ shift ≤ 31 * 2 ^ shift :=
        Nat.mul_le_mul_right _ (Nat.le_of_lt_succ (Nat.mod_lt _ (by decide)))
      rw [encodeDigits_of_le hlarge, cons_append,
        decodeDigits_more (Nat.mod_lt _ (by decide)),
        Leb128.or_digit hvlq hshift (by omega),
        ih (v / 32) (Nat.div_lt_self (by omega) (by decide)) _ _ _ (by omega) hshift' (by omega),
        hvalue, Nat.add_assoc]

theorem vlqWord_lt (value : Int) : vlqWord value < 2 ^ 32 := by
  unfold vlqWord
  split
  · exact Nat.or_lt_two_pow (Nat.mod_lt _ (by decide)) (by decide)
  · exact Nat.mod_lt _ (by decide)

/-- **A value comes back with the bits of its word**, and what follows it is left. -/
theorem decodeVLQ_encodeVLQ (value : Int) (rest : List Char) :
    decodeVLQ (encodeVLQ value ++ rest) = .ok (wordValue (vlqWord value), rest) := by
  have h := decodeDigits_encodeDigits (vlqWord value) 0 0 rest (by decide) (by decide)
    (by have := vlqWord_lt value; omega)
  rw [decodeVLQ, encodeVLQ, h]
  simp [Except.map]

/-- A magnitude below 2^31 fits the word. -/
theorem wordValue_vlqWord {value : Int} (h : value.natAbs < 2 ^ 31) :
    wordValue (vlqWord value) = value := by
  by_cases hneg : value < 0
  · have hword : vlqWord value = 2 * value.natAbs + 1 := by
      have hu : toUint32 (-value) = value.natAbs := by unfold toUint32; omega
      rw [vlqWord, if_pos hneg, hu, Nat.shiftLeft_eq, Nat.mod_eq_of_lt (by omega), Nat.mul_comm,
        ← Nat.two_pow_add_eq_or_of_lt (show 1 < 2 ^ 1 by decide)]
    rw [hword, wordValue, Nat.and_one_is_mod, Nat.shiftRight_eq_div_pow]
    rw [if_pos (by simp)]
    omega
  · have hword : vlqWord value = 2 * value.natAbs := by
      have hu : toUint32 value = value.natAbs := by unfold toUint32; omega
      rw [vlqWord, if_neg hneg, hu, Nat.shiftLeft_eq, Nat.mod_eq_of_lt (by omega), Nat.mul_comm]
    rw [hword, wordValue, Nat.and_one_is_mod, Nat.shiftRight_eq_div_pow]
    rw [if_neg (by simp)]
    omega

/-- The first value that does not fit. -/
example : decodeVLQ (encodeVLQ (-2 ^ 31)) = .ok (0, []) := by
  have h := decodeVLQ_encodeVLQ (-2 ^ 31) []
  rwa [append_nil] at h

/-! ## Source maps -/

structure SourcePos where
  file : String
  line : Nat
  column : Nat
  deriving DecidableEq

structure SourceMapEntry where
  wasmOffset : Nat
  sourcePos : SourcePos
  deriving DecidableEq

/-- Source map v3 JSON structure. -/
structure SourceMapV3 where
  version : Nat := 3
  sources : List String
  sourcesContent : List (Option String)
  names : List String := []
  mappings : List Char
  deriving DecidableEq

/-! ### Generating -/

/-- `[...entries].sort((a, b) => a.wasmOffset - b.wasmOffset)`. -/
def sortEntries (entries : List SourceMapEntry) : List SourceMapEntry :=
  entries.mergeSort fun a b => a.wasmOffset ≤ b.wasmOffset

/-- `sourceIndex` and `sources`. -/
structure SourceTable where
  sourceIndex : List (String × Nat) := []
  sources : List String := []

namespace SourceTable

/-- One round of the loop that builds the sources array. -/
def add (table : SourceTable) (file : String) : SourceTable :=
  if KeyedList.has (fun a b => decide (a = b)) table.sourceIndex file then table
  else
    { sourceIndex :=
        KeyedList.set (fun a b => decide (a = b)) table.sourceIndex file table.sources.length
      sources := table.sources ++ [file] }

/-- `sourceIndex.get(file)!`. -/
def indexOf (table : SourceTable) (file : String) : Nat :=
  (KeyedList.get? (fun a b => decide (a = b)) table.sourceIndex file).getD 0

end SourceTable

/-- The table of the files of the entries, in the order of first appearance. -/
def sourceTable (entries : List SourceMapEntry) : SourceTable :=
  entries.foldl (fun table entry => table.add entry.sourcePos.file) {}

/-- The absolute values of a segment: wasm offset, source index, line and column. -/
structure Position where
  wasmOffset : Int := 0
  sourceIdx : Int := 0
  sourceLine : Int := 0
  sourceCol : Int := 0
  deriving DecidableEq

namespace Position

/-- The four differences of a segment. -/
def deltas (prev p : Position) : List Int :=
  [p.wasmOffset - prev.wasmOffset, p.sourceIdx - prev.sourceIdx,
    p.sourceLine - prev.sourceLine, p.sourceCol - prev.sourceCol]

end Position

/-- The position of an entry. -/
def SourceTable.position (table : SourceTable) (entry : SourceMapEntry) : Position where
  wasmOffset := entry.wasmOffset
  sourceIdx := table.indexOf entry.sourcePos.file
  sourceLine := entry.sourcePos.line
  sourceCol := entry.sourcePos.column

/-- The segments of the positions after `prev`. -/
def segments : Position → List Position → List (List Char)
  | _, [] => []
  | prev, p :: rest => (prev.deltas p).flatMap encodeVLQ :: segments p rest

/-- Generate a source map from wasm binary emission entries. -/
def generateSourceMap (entries : List SourceMapEntry) (sourcesContent : String → Option String) :
    SourceMapV3 :=
  if entries = [] then { sources := [], sourcesContent := [], mappings := [] }
  else
    let sorted := sortEntries entries
    let table := sourceTable sorted
    { sources := table.sources
      sourcesContent := table.sources.map sourcesContent
      mappings := [','].intercalate (segments {} (sorted.map table.position)) }

/-! ### Decoding -/

theorem decodeDigits_shortens (encoded : List Char) :
    ∀ {vlq shift : Nat} {p : Nat × List Char}, decodeDigits encoded vlq shift = .ok p →
      p.2.length < encoded.length ∨ encoded = [] ∧ p.2 = [] := by
  induction encoded with
  | nil =>
    intro vlq shift p h
    rw [decodeDigits, Except.ok.injEq] at h
    exact .inr ⟨rfl, h ▸ rfl⟩
  | cons char rest ih =>
    intro vlq shift p h
    rw [decodeDigits] at h
    split at h
    · cases h
    · rename_i digit _
      dsimp only at h
      split at h
      · rcases ih h with hlt | ⟨-, hnil⟩
        · exact .inl (hlt.trans (Nat.lt_succ_self _))
        · exact .inl (by simp [hnil])
      · rw [Except.ok.injEq] at h
        exact .inl (h ▸ Nat.lt_succ_self _)

/-- A value takes at least one character. -/
theorem decodeVLQ_shortens {encoded rest : List Char} {value : Int} (hne : encoded ≠ [])
    (h : decodeVLQ encoded = .ok (value, rest)) : rest.length < encoded.length := by
  unfold decodeVLQ at h
  cases hd : decodeDigits encoded 0 0 with
  | error e => rw [hd] at h; cases h
  | ok p =>
    rw [hd] at h
    simp only [Except.map, Except.ok.injEq, Prod.mk.injEq] at h
    rcases decodeDigits_shortens encoded hd with hlt | ⟨he, -⟩
    · exact h.2 ▸ hlt
    · exact absurd he hne

/-- The values of one segment. -/
def decodeSegment (remaining : List Char) : Except String (List Int) :=
  if hne : remaining = [] then .ok []
  else
    match h : decodeVLQ remaining with
    | .error e => .error e
    | .ok (value, rest) =>
      have : rest.length < remaining.length := decodeVLQ_shortens hne h
      (decodeSegment rest).map (value :: ·)
termination_by remaining.length

/-- The segments of one line; a segment with no value is left out. -/
def decodeLine (line : List Char) : Except String (List (List Int)) :=
  if line = [] then .ok []
  else ((line.splitOn ',').mapM decodeSegment).map fun parts => parts.filter (· ≠ [])

/-- Decode all VLQ segments from a mappings string. -/
def decodeMappings (mappings : List Char) : Except String (List (List (List Int))) :=
  (mappings.splitOn ';').mapM decodeLine

/-! ### Reading a map -/

/-- The positions of segments that hold differences. -/
def undoDeltas : Position → List (List Int) → Option (List Position)
  | _, [] => some []
  | prev, [wasm, src, line, col] :: rest =>
    let p : Position :=
      ⟨prev.wasmOffset + wasm, prev.sourceIdx + src, prev.sourceLine + line, prev.sourceCol + col⟩
    (undoDeltas p rest).map (p :: ·)
  | _, _ => none

/-- The entry at a position, its file looked up in `sources`. -/
def entryAt (sources : List String) (p : Position) : Option SourceMapEntry :=
  if 0 ≤ p.wasmOffset ∧ 0 ≤ p.sourceIdx ∧ 0 ≤ p.sourceLine ∧ 0 ≤ p.sourceCol then
    (sources[p.sourceIdx.toNat]?).map fun file =>
      ⟨p.wasmOffset.toNat, file, p.sourceLine.toNat, p.sourceCol.toNat⟩
  else none

/-- The entries a reader recovers from the mappings and the sources of a map. -/
def readMappings (map : SourceMapV3) : Option (List SourceMapEntry) :=
  match decodeMappings map.mappings with
  | .ok [line] => (undoDeltas {} line).bind fun ps => ps.mapM (entryAt map.sources)
  | _ => none

/-- `sorted` holds the entries in the order of their offsets, and those with one offset
in the order they were given. -/
structure StablySorted (entries sorted : List SourceMapEntry) : Prop where
  perm : sorted.Perm entries
  ordered : sorted.Pairwise fun a b => a.wasmOffset ≤ b.wasmOffset
  stable : ∀ offset, (sorted.filter fun e => e.wasmOffset = offset) =
    entries.filter fun e => e.wasmOffset = offset

/-! ### What the decoder gives back -/

/-- A value as it comes back from its VLQ string. -/
def readValue (value : Int) : Int := wordValue (vlqWord value)

theorem decodeSegment_encode (values : List Int) :
    decodeSegment (values.flatMap encodeVLQ) = .ok (values.map readValue) := by
  induction values with
  | nil => rw [flatMap_nil, decodeSegment, dif_pos rfl]; rfl
  | cons v values ih =>
    have hne : (v :: values).flatMap encodeVLQ ≠ [] := by
      simp [encodeVLQ, encodeDigits_ne_nil]
    have hread : decodeVLQ ((v :: values).flatMap encodeVLQ) =
        .ok (readValue v, values.flatMap encodeVLQ) := decodeVLQ_encodeVLQ v _
    rw [decodeSegment, dif_neg hne]
    split
    · rename_i e he
      rw [hread] at he
      cases he
    · rename_i value rest he
      rw [hread, Except.ok.injEq, Prod.mk.injEq] at he
      obtain ⟨rfl, rfl⟩ := he
      dsimp only
      rw [ih]
      rfl

/-- The differences of the positions after `prev`. -/
def deltaList : Position → List Position → List (List Int)
  | _, [] => []
  | prev, p :: rest => prev.deltas p :: deltaList p rest

theorem deltaList_ne_nil (prev : Position) (ps : List Position) :
    ∀ values ∈ deltaList prev ps, values ≠ [] := by
  induction ps generalizing prev with
  | nil => exact fun _ h => nomatch h
  | cons p ps ih => exact forall_mem_cons.mpr ⟨cons_ne_nil _ _, ih p⟩

theorem segments_eq (prev : Position) (ps : List Position) :
    segments prev ps = (deltaList prev ps).map (·.flatMap encodeVLQ) := by
  induction ps generalizing prev with
  | nil => rfl
  | cons p ps ih => rw [segments, deltaList, map_cons, ih]

variable {prev : Position} {values : List Int} {ps : List Position}

theorem segment_chars : ∀ c ∈ values.flatMap encodeVLQ, c ∈ BASE64_CHARS := by
  intro c hc
  obtain ⟨v, -, hc⟩ := mem_flatMap.mp hc
  exact encodeDigits_chars _ c hc

theorem mem_intercalate {x c : Char} {parts : List (List Char)}
    (h : c ∈ [x].intercalate parts) : c = x ∨ ∃ part ∈ parts, c ∈ part := by
  induction parts with
  | nil => cases h
  | cons part parts ih =>
    cases parts with
    | nil =>
      rw [intercalate_singleton] at h
      exact .inr ⟨part, mem_cons_self, h⟩
    | cons next parts =>
      rw [intercalate_cons_cons, append_assoc] at h
      rcases mem_append.mp h with h | h
      · exact .inr ⟨part, mem_cons_self, h⟩
      · rcases mem_append.mp h with h | h
        · exact .inl (mem_singleton.mp h)
        · rcases ih h with h | ⟨q, hq, h⟩
          · exact .inl h
          · exact .inr ⟨q, mem_cons_of_mem _ hq, h⟩

theorem mapM_ok {α β : Type} {f : α → Except String β} {g : α → β} {l : List α}
    (h : ∀ a ∈ l, f a = .ok (g a)) : l.mapM f = .ok (l.map g) := by
  induction l with
  | nil => rfl
  | cons a l ih =>
    rw [mapM_cons, h a mem_cons_self, ih fun b hb => h b (mem_cons_of_mem _ hb)]
    rfl

/-- **A line of segments is decoded into their differences**, each read back from its
VLQ string. -/
theorem decodeMappings_segments (hps : ps ≠ []) :
    decodeMappings ([','].intercalate (segments prev ps)) =
      .ok [(deltaList prev ps).map (·.map readValue)] := by
  have hchars : ∀ seg ∈ segments prev ps, ∀ c ∈ seg, c ∈ BASE64_CHARS := by
    rw [segments_eq]
    intro seg hseg c hc
    obtain ⟨values, -, rfl⟩ := mem_map.mp hseg
    exact segment_chars c hc
  have hne : segments prev ps ≠ [] := by
    cases ps with
    | nil => exact absurd rfl hps
    | cons p ps => exact cons_ne_nil _ _
  have hcomma : ∀ seg ∈ segments prev ps, ',' ∉ seg := fun seg hseg hc =>
    absurd (hchars seg hseg _ hc) separators_not_base64.1
  have hsemi : ';' ∉ [','].intercalate (segments prev ps) := by
    intro hc
    rcases mem_intercalate hc with hc | ⟨seg, hseg, hc⟩
    · exact absurd hc (by decide)
    · exact absurd (hchars seg hseg _ hc) separators_not_base64.2
  have hline : [','].intercalate (segments prev ps) ≠ [] := by
    intro hnil
    have hsplit := splitOn_intercalate ',' hcomma hne
    rw [hnil, segments_eq] at hsplit
    cases ps with
    | nil => exact hps rfl
    | cons p ps =>
      have hhead := (List.cons.inj hsplit).1
      simp [Position.deltas, encodeVLQ, encodeDigits_ne_nil] at hhead
  have hsegs : (segments prev ps).mapM decodeSegment =
      .ok ((deltaList prev ps).map (·.map readValue)) := by
    rw [segments_eq, mapM_map]
    exact mapM_ok fun values _ => decodeSegment_encode values
  have hkeep : ((deltaList prev ps).map (·.map readValue)).filter (· ≠ []) =
      (deltaList prev ps).map (·.map readValue) := by
    rw [filter_eq_self]
    intro values hvalues
    obtain ⟨d, hd, rfl⟩ := mem_map.mp hvalues
    exact decide_eq_true (by simpa using deltaList_ne_nil prev ps d hd)
  have hdecoded : decodeLine ([','].intercalate (segments prev ps)) =
      .ok ((deltaList prev ps).map (·.map readValue)) := by
    rw [decodeLine, if_neg hline, splitOn_intercalate ',' hcomma hne, hsegs]
    exact congrArg Except.ok hkeep
  rw [decodeMappings, splitOn_eq_singleton hsemi]
  exact mapM_ok (g := fun _ => _) fun line hl => by rw [mem_singleton.mp hl, hdecoded]

/-! ### Undoing the differences -/

/-- Every difference on the way from `prev` through `ps` fits a VLQ word. -/
def Fits (prev : Position) (ps : List Position) : Prop :=
  ∀ values ∈ deltaList prev ps, ∀ v ∈ values, v.natAbs < 2 ^ 31

theorem map_readValue (h : ∀ v ∈ values, v.natAbs < 2 ^ 31) : values.map readValue = values :=
  (map_congr_left fun v hv => wordValue_vlqWord (h v hv)).trans (map_id values)

theorem undoDeltas_deltaList (h : Fits prev ps) :
    undoDeltas prev ((deltaList prev ps).map (·.map readValue)) = some ps := by
  induction ps generalizing prev with
  | nil => rfl
  | cons p ps ih =>
    have hread := map_readValue (h _ mem_cons_self)
    have hrest : Fits p ps := fun values hv => h values (mem_cons_of_mem _ hv)
    rw [deltaList, map_cons, hread, Position.deltas, undoDeltas]
    simp only [add_sub_cancel]
    rw [ih hrest]
    rfl

/-! ### The table of sources -/

namespace SourceTable

/-- The index of a file is its place among the sources. -/
structure Indexed (table : SourceTable) : Prop where
  index : table.sourceIndex = table.sources.zipIdx
  nodup : table.sources.Nodup

variable {table : SourceTable}

theorem Indexed.has_iff (h : table.Indexed) (file : String) :
    KeyedList.has (fun a b => decide (a = b)) table.sourceIndex file = true ↔
      file ∈ table.sources := by
  rw [KeyedList.has_iff, h.index]
  constructor
  · rintro ⟨p, hp, he⟩
    rw [of_decide_eq_true he]
    exact fst_mem_of_mem_zipIdx hp
  · intro hf
    obtain ⟨i, hi⟩ := getElem?_of_mem hf
    exact ⟨(file, i), mk_mem_zipIdx_iff_getElem?.mpr hi, decide_eq_true rfl⟩

theorem Indexed.indexOf (h : table.Indexed) {i : Nat} {file : String}
    (hi : table.sources[i]? = some file) : table.indexOf file = i := by
  have hdistinct : KeyedList.Distinct (fun a b => decide (a = b)) table.sourceIndex := by
    have hp : table.sources.zipIdx.Pairwise fun p q => p.1 ≠ q.1 := by
      rw [← pairwise_map (f := Prod.fst) (R := (· ≠ ·)), zipIdx_map_fst]
      exact h.nodup
    rw [KeyedList.Distinct, h.index]
    exact hp.imp fun hne => decide_eq_false hne
  have hmem : (file, i) ∈ table.sourceIndex := h.index ▸ mk_mem_zipIdx_iff_getElem?.mpr hi
  rw [SourceTable.indexOf,
    hdistinct.get?_of_mem KeyedList.isEquiv_decide hmem (decide_eq_true rfl)]
  rfl

theorem Indexed.add (h : table.Indexed) (file : String) :
    (table.add file).Indexed ∧ (table.add file).sources =
      if file ∈ table.sources then table.sources else table.sources ++ [file] := by
  by_cases hf : file ∈ table.sources
  · rw [SourceTable.add, if_pos ((h.has_iff file).mpr hf), if_pos hf]
    exact ⟨h, rfl⟩
  · have hnot : KeyedList.has (fun a b => decide (a = b)) table.sourceIndex file = false :=
      Bool.eq_false_iff.mpr fun ht => hf ((h.has_iff file).mp ht)
    rw [SourceTable.add, hnot, if_neg Bool.false_ne_true, if_neg hf]
    refine ⟨⟨?_, ?_⟩, rfl⟩
    · dsimp only
      rw [KeyedList.set_of_not_has hnot, h.index, zipIdx_append]
      simp
    · exact nodup_append.mpr ⟨h.nodup, nodup_singleton file, fun a ha b hb he =>
        hf (mem_singleton.mp hb ▸ he ▸ ha)⟩

theorem Indexed.add_all (h : table.Indexed) (entries : List SourceMapEntry) :
    let table' := entries.foldl (fun table entry => table.add entry.sourcePos.file) table
    table'.Indexed ∧ (∀ f, f ∈ table'.sources ↔
      f ∈ table.sources ∨ f ∈ entries.map (·.sourcePos.file)) := by
  induction entries generalizing table with
  | nil => exact ⟨h, fun f => by simp⟩
  | cons entry entries ih =>
    obtain ⟨hok, hsources⟩ := h.add entry.sourcePos.file
    obtain ⟨hok', hmem⟩ := ih hok
    refine ⟨hok', fun f => (hmem f).trans ?_⟩
    rw [hsources, map_cons, mem_cons, ← or_assoc]
    refine or_congr_left ?_
    split
    · rename_i hin
      exact ⟨.inl, fun hf => hf.elim id fun he => he ▸ hin⟩
    · rw [mem_append, mem_singleton]

end SourceTable

theorem sourceTable_indexed (entries : List SourceMapEntry) :
    (sourceTable entries).Indexed ∧ ∀ f, f ∈ (sourceTable entries).sources ↔
      f ∈ entries.map (·.sourcePos.file) := by
  have hempty : ({} : SourceTable).Indexed := ⟨rfl, nodup_nil⟩
  obtain ⟨hok, hmem⟩ := hempty.add_all entries
  exact ⟨hok, fun f => (hmem f).trans (by simp)⟩

/-- The entry at the position of an entry is the entry. -/
theorem entryAt_position {entries : List SourceMapEntry} {entry : SourceMapEntry}
    (h : entry ∈ entries) :
    entryAt (sourceTable entries).sources ((sourceTable entries).position entry) = some entry := by
  obtain ⟨hok, hmem⟩ := sourceTable_indexed entries
  obtain ⟨i, hi⟩ := getElem?_of_mem ((hmem _).mpr (mem_map_of_mem h))
  simp [entryAt, SourceTable.position, hok.indexOf hi, hi]

/-! ### Sorting -/

theorem sortEntries_stablySorted (entries : List SourceMapEntry) :
    StablySorted entries (sortEntries entries) where
  perm := mergeSort_perm _ _
  ordered := by
    refine (pairwise_mergeSort ?_ ?_ entries).imp fun hab => of_decide_eq_true hab
    · intro a b c hab hbc
      simp only [decide_eq_true_eq] at *
      omega
    · intro a b
      simp only [Bool.or_eq_true, decide_eq_true_eq]
      omega
  stable offset := by
    have hsub : (entries.filter fun e => e.wasmOffset = offset).Sublist (sortEntries entries) := by
      refine sublist_mergeSort
        (fun a b c hab hbc => by simp only [decide_eq_true_eq] at *; omega)
        (fun a b => by simp only [Bool.or_eq_true, decide_eq_true_eq]; omega)
        ?_ filter_sublist
      refine pairwise_of_forall_mem_list fun a ha b hb => ?_
      have hea := (mem_filter.mp ha).2
      have heb := (mem_filter.mp hb).2
      simp only [decide_eq_true_eq] at hea heb ⊢
      omega
    have hfilter := hsub.filter fun e => e.wasmOffset = offset
    rw [filter_filter] at hfilter
    simp only [Bool.and_self] at hfilter
    refine (hfilter.eq_of_length ?_).symm
    exact (((mergeSort_perm entries _).filter _).length_eq).symm

end Js2Wasm.SourceMap
