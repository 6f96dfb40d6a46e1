import Js2Wasm.Lib.Fallible
import Js2Wasm.Linear.HashTables
import Js2Wasm.Lib.Wtf8
import Mathlib.Data.FinEnum

/-! # UTF-16 indexing over UTF-8 records

    [header][payload size:u32 at +4][byte length:u32 at +8][bytes at +12]

Byte 1 of the header remembers whether the string is ASCII.  `__str_length_utf16` and the
char-code helper first ask `__str_is_ascii`, for an ASCII string a byte index is a code-unit
index; other strings they decode from the start.

Every load goes through `read8` or `read32` and stops the program outside of the bytes `r`
that may be read: the whole memory for the machine, fewer bytes to say what a function
reads.  A number result is `none` for NaN.

A record holds the UTF-8 bytes of a text and perhaps its ASCII verdict.  On such a record
the walks count and decode the text's UTF-16 code units, the verdict they leave is the
right one, and neither reads a byte outside the record.
-/

namespace Js2Wasm.Linear
open List WordMemory

def STRING_ASCII_CACHE_OFFSET : Nat := 1
def STRING_ASCII_UNKNOWN : Nat := 0
def STRING_ASCII_YES : Nat := 1
def STRING_ASCII_NO : Nat := 2

section
variable (r : Block) (m : Memory)

/-- `i32.load8_u` -/
def read8 (a : Nat) : Except Halt Nat :=
  if r.base ≤ a ∧ a < r.base + r.size then .ok (m a).toNat else .error .trap

/-- `i32.load` -/
def read32 (a : Nat) : Except Halt Nat :=
  if r.base ≤ a ∧ a + 4 ≤ r.base + r.size then .ok (load32 m a) else .error .trap

variable (ptr byteLen : Nat)

/-! ### `__str_is_ascii` -/

/-- The scan for a byte beyond ASCII, from byte `i` on. -/
def asciiScan : Nat → Nat → Except Halt Nat
  | 0, _ => .error .outOfFuel
  | fuel + 1, i =>
    if byteLen ≤ i then .ok STRING_ASCII_YES
    else do
      let b ← read8 r m (add32 ptr i + 12)
      if 0x80 ≤ b then return STRING_ASCII_NO
      asciiScan fuel (add32 i 1)

def strIsAscii (fuel : Nat) : Except Halt (Nat × Memory) := do
  let state ← read8 r m (ptr + STRING_ASCII_CACHE_OFFSET)
  if state = STRING_ASCII_UNKNOWN then
    let byteLen ← read32 r m (ptr + 8)
    let state ← asciiScan r m ptr byteLen fuel 0
    return ((if state = STRING_ASCII_YES then 1 else 0),
      store8 m (ptr + STRING_ASCII_CACHE_OFFSET) state)
  else return ((if state = STRING_ASCII_YES then 1 else 0), m)

/-! ### `__str_length_utf16` -/

/-- The walk that counts code units, from byte `i` on. -/
def unitCount : Nat → Nat → Nat → Except Halt Nat
  | 0, _, _ => .error .outOfFuel
  | fuel + 1, i, count =>
    if byteLen ≤ i then .ok count
    else do
      let b ← read8 r m (add32 ptr i + 12)
      if b < 0x80 then unitCount fuel (add32 i 1) (add32 count 1)
      else if b < 0xf0 then
        unitCount fuel (add32 i (if b < 0xe0 then 2 else 3)) (add32 count 1)
      else unitCount fuel (add32 i 4) (add32 count 2)

def strLengthUtf16 (fuel : Nat) : Except Halt (Nat × Memory) := do
  let byteLen ← read32 r m (ptr + 8)
  let (ascii, m) ← strIsAscii r m ptr fuel
  if ascii = 1 then return (byteLen, m)
  let count ← unitCount r m ptr byteLen fuel 0 0
  return (count, m)

/-! ### `__linear_ir_str_char_code_at` -/

variable (index : Nat)

/-- The walk that decodes sequence by sequence until it reaches the code unit. -/
def charCodeWalk : Nat → Nat → Nat → Except Halt (Option Nat)
  | 0, _, _ => .error .outOfFuel
  | fuel + 1, bytePos, unitPos =>
    if byteLen ≤ bytePos then .ok none
    else do
      let loadByte := fun delta => read8 r m (add32 ptr bytePos + (12 + delta))
      let lead ← loadByte 0
      if lead < 0x80 then
        if unitPos = index then return some lead
        charCodeWalk fuel (add32 bytePos 1) (add32 unitPos 1)
      else if lead < 0xe0 then
        let b ← loadByte 1
        let codePoint := shl32 (lead &&& 0x1f) 6 ||| (b &&& 0x3f)
        if unitPos = index then return some codePoint
        charCodeWalk fuel (add32 bytePos 2) (add32 unitPos 1)
      else if lead < 0xf0 then
        let b ← loadByte 1
        let b' ← loadByte 2
        let codePoint := shl32 (lead &&& 0x0f) 12 ||| shl32 (b &&& 0x3f) 6 ||| (b' &&& 0x3f)
        if unitPos = index then return some codePoint
        charCodeWalk fuel (add32 bytePos 3) (add32 unitPos 1)
      else
        let b ← loadByte 1
        let b' ← loadByte 2
        let b'' ← loadByte 3
        let codePoint := shl32 (lead &&& 0x07) 18 ||| shl32 (b &&& 0x3f) 12 |||
          shl32 (b' &&& 0x3f) 6 ||| (b'' &&& 0x3f)
        if unitPos = index then
          return some (add32 (sub32 codePoint 0x10000 >>> 10) 0xd800)
        if add32 unitPos 1 = index then
          return some (add32 (sub32 codePoint 0x10000 &&& 0x03ff) 0xdc00)
        charCodeWalk fuel (add32 bytePos 4) (add32 unitPos 2)

def strCharCodeAt (fuel : Nat) : Except Halt (Option Nat × Memory) := do
  if signed32 index < 0 then return (none, m)
  let byteLen ← read32 r m (ptr + 8)
  if byteLen ≤ index then return (none, m)
  let (ascii, m) ← strIsAscii r m ptr fuel
  if ascii = 1 then
    let b ← read8 r m (add32 ptr index + 12)
    return (some b, m)
  let code ← charCodeWalk r m ptr byteLen index fuel 0 0
  return (code, m)

end

/-! ## The length and the code units of a string record -/

open Wtf8 Fallible

/-! ### Records -/

/-- The verdict of the header is unknown or right. -/
def MemoOk (m : Memory) (ptr : Nat) (t : List CodePoint) : Prop :=
  (m (ptr + STRING_ASCII_CACHE_OFFSET)).toNat = STRING_ASCII_UNKNOWN ∨
    (m (ptr + STRING_ASCII_CACHE_OFFSET)).toNat = if Ascii t then STRING_ASCII_YES
      else STRING_ASCII_NO

/-- The record at `ptr` holds the text. -/
structure TextAt (m : Memory) (ptr : Nat) (t : List CodePoint) : Prop where
  str : StrAt m ptr (bytes t)
  memo : MemoOk m ptr t

/-- The record lies among the bytes that may be read. -/
structure Covers (r : Block) (ptr len : Nat) : Prop where
  start : r.base ≤ ptr
  stop : ptr + 12 + len ≤ r.base + r.size

/-- The record itself. -/
def record (ptr len : Nat) : Block := ⟨ptr, 12 + len⟩

theorem record_covers (ptr len : Nat) : Covers (record ptr len) ptr len :=
  ⟨le_rfl, by simp only [record]; lia⟩

section
variable {r : Block} {m : Memory} {ptr : Nat} {t : List CodePoint}

theorem read32_length (hr : Covers r ptr (bytes t).length) (h : StrAt m ptr (bytes t)) :
    read32 r m (ptr + 8) = .ok (bytes t).length := by
  obtain ⟨hstart, hstop⟩ := hr
  rw [read32, if_pos ⟨by lia, by lia⟩, h.length]

theorem read8_memo (hr : Covers r ptr (bytes t).length) :
    read8 r m (ptr + STRING_ASCII_CACHE_OFFSET) =
      .ok (m (ptr + STRING_ASCII_CACHE_OFFSET)).toNat := by
  obtain ⟨hstart, hstop⟩ := hr
  rw [read8, if_pos]
  simp only [STRING_ASCII_CACHE_OFFSET]
  lia

variable {b d index fuel i a n : Nat} {rest : List CodePoint} {c : CodePoint}

/-- A byte of the string, `d` bytes after the cursor. -/
theorem read8_byte (hr : Covers r ptr (bytes t).length) (h : StrAt m ptr (bytes t))
    (hd : i + d < (bytes t).length) :
    read8 r m (add32 ptr i + (12 + d)) = .ok ((bytes t).get ⟨i + d, hd⟩).toNat := by
  obtain ⟨hstart, hstop⟩ := hr
  have hfits := h.fits
  have hadd : add32 ptr i + (12 + d) = ptr + 12 + (i + d) := by
    rw [add32_of_lt (by lia)]
    lia
  rw [hadd, read8, if_pos ⟨by lia, by lia⟩, h.byte (i + d) hd]

/-- A byte of the sequence at the cursor. -/
theorem read8_seq (hr : Covers r ptr (bytes t).length) (h : StrAt m ptr (bytes t))
    (hi : (bytes t).drop i = bytes (c :: rest)) (hb : (utf8Nat c)[d]? = some b) :
    read8 r m (add32 ptr i + (12 + d)) = .ok b := by
  have hget : (bytes t)[i + d]?.map UInt8.toNat = some b := by
    rw [← getElem?_drop, hi, bytes_cons, ← getElem?_map, map_append,
      getElem?_append_left, toNat_utf8, hb]
    rw [toNat_utf8]
    exact (List.getElem?_eq_some_iff.mp hb).1
  obtain ⟨x, hx, hxb⟩ := Option.map_eq_some_iff.mp hget
  obtain ⟨hlt, hxe⟩ := List.getElem?_eq_some_iff.mp hx
  rw [read8_byte hr h hlt]
  exact congrArg Except.ok ((congrArg UInt8.toNat hxe).trans hxb)

/-- The cursor after a sequence. -/
theorem drop_next (hi : (bytes t).drop i = bytes (c :: rest)) :
    (bytes t).drop (i + (utf8Nat c).length) = bytes rest := by
  rw [← drop_drop, hi, bytes_cons, ← length_utf8, drop_left]

theorem length_next (hi : (bytes t).drop i = bytes (c :: rest)) :
    i + (utf8Nat c).length ≤ (bytes t).length ∧ i < (bytes t).length := by
  have hlen := congrArg List.length hi
  have hpos := length_le_bytes (c :: rest)
  rw [length_drop] at hlen
  rw [length_cons] at hpos
  rw [bytes_cons, length_append, length_utf8] at hlen
  rw [bytes_cons, length_append, length_utf8] at hpos
  omega

/-! ### The scan for ASCII -/

theorem asciiScan_eq (hr : Covers r ptr (bytes t).length) (h : StrAt m ptr (bytes t)) (fuel : Nat) :
    ∀ i, i ≤ (bytes t).length → (bytes t).length - i < fuel →
      asciiScan r m ptr (bytes t).length fuel i =
        .ok (if ∀ b ∈ (bytes t).drop i, b.toNat < 0x80 then STRING_ASCII_YES
          else STRING_ASCII_NO) := by
  induction fuel with
  | zero => exact fun i _ hf => absurd hf (Nat.not_lt_zero _)
  | succ fuel ih =>
    intro i hi hf
    have hfits := h.fits
    rw [asciiScan]
    by_cases hend : (bytes t).length ≤ i
    · rw [if_pos hend, if_pos]
      rw [drop_of_length_le hend]
      exact fun b hb => nomatch hb
    · rw [if_neg hend]
      have hlt : i < (bytes t).length := Nat.not_le.mp hend
      have hread := read8_byte hr h (i := i) (d := 0) hlt
      have hiff : (∀ b ∈ (bytes t).drop i, b.toNat < 0x80) ↔
          ((bytes t).get ⟨i, hlt⟩).toNat < 0x80 ∧ ∀ b ∈ (bytes t).drop (i + 1), b.toNat < 0x80 := by
        rw [drop_eq_getElem_cons hlt, forall_mem_cons]
        rfl
      rw [Nat.add_zero] at hread
      rw [hread]
      show (if 0x80 ≤ ((bytes t).get ⟨i, hlt⟩).toNat then _ else _) = _
      by_cases hb : 0x80 ≤ ((bytes t).get ⟨i, hlt⟩).toNat
      · rw [if_pos hb, if_neg fun hall => absurd (hiff.mp hall).1 (Nat.not_lt.mpr hb)]
        rfl
      · rw [if_neg hb, add32_of_lt (by lia), ih (i + 1) (by lia) (by lia)]
        exact congrArg Except.ok
          (if_congr (hiff.trans (and_iff_right (Nat.not_le.mp hb))).symm rfl rfl)

/-- The verdict of a text. -/
def verdict (t : List CodePoint) : Nat := if Ascii t then STRING_ASCII_YES else STRING_ASCII_NO

/-- The memory once the verdict is in the header. -/
def withVerdict (m : Memory) (ptr : Nat) (t : List CodePoint) : Memory :=
  store8 m (ptr + STRING_ASCII_CACHE_OFFSET) (verdict t)

theorem verdict_cases (t : List CodePoint) :
    Ascii t ∧ verdict t = STRING_ASCII_YES ∨ ¬ Ascii t ∧ verdict t = STRING_ASCII_NO := by
  by_cases h : Ascii t
  · exact Or.inl ⟨h, if_pos h⟩
  · exact Or.inr ⟨h, if_neg h⟩

/-- Storing the verdict leaves the record as it is. -/
theorem TextAt.withVerdict (h : TextAt m ptr t) : TextAt (withVerdict m ptr t) ptr t := by
  have hother {a : Nat} (ha : a ≠ ptr + 1) : Linear.withVerdict m ptr t a = m a := store8_of_ne ha
  refine ⟨⟨h.str.fits, ?_, fun i hi => ?_⟩, Or.inr ?_⟩
  · rw [load32_congr fun a ha _ => hother (by lia)]
    exact h.str.length
  · rw [hother (by lia)]
    exact h.str.byte i hi
  · show (store8 m _ (verdict t) _).toNat = verdict t
    rw [store8_self]
    rcases verdict_cases t with ⟨-, hv⟩ | ⟨-, hv⟩ <;> rw [hv] <;> rfl

/-- When the verdict is known already, storing it changes nothing. -/
theorem withVerdict_of_known
    (h : (m (ptr + STRING_ASCII_CACHE_OFFSET)).toNat = verdict t) : withVerdict m ptr t = m := by
  funext a
  by_cases ha : a = ptr + STRING_ASCII_CACHE_OFFSET
  · rw [withVerdict, ha, store8_self, ← h]
    exact UInt8.ofNat_toNat
  · exact store8_of_ne ha

section
variable (hr : Covers r ptr (bytes t).length)
include hr

/-- **`__str_is_ascii`** tells whether the text is ASCII and leaves its verdict. -/
theorem strIsAscii_eq (h : TextAt m ptr t) (hf : (bytes t).length < fuel) :
    strIsAscii r m ptr fuel = .ok ((if Ascii t then 1 else 0), withVerdict m ptr t) := by
  have hone : (if verdict t = STRING_ASCII_YES then 1 else 0) = if Ascii t then 1 else 0 := by
    rcases verdict_cases t with ⟨ha, hv⟩ | ⟨ha, hv⟩
    · rw [if_pos hv, if_pos ha]
    · rw [hv, if_neg ha]
      rfl
  rw [strIsAscii, read8_memo hr]
  show (if (m (ptr + STRING_ASCII_CACHE_OFFSET)).toNat = STRING_ASCII_UNKNOWN then _ else _) = _
  by_cases hmemo : (m (ptr + STRING_ASCII_CACHE_OFFSET)).toNat = STRING_ASCII_UNKNOWN
  · have hscan : asciiScan r m ptr (bytes t).length fuel 0 = .ok (verdict t) := by
      rw [asciiScan_eq hr h.str fuel 0 (Nat.zero_le _) (by omega)]
      exact congrArg Except.ok (if_congr ascii_iff_bytes.symm rfl rfl)
    rw [if_pos hmemo, read32_length hr h.str]
    show (do let state ← asciiScan r m ptr (bytes t).length fuel 0; _) = _
    rw [hscan, ← hone]
    rfl
  · have hknown : (m (ptr + STRING_ASCII_CACHE_OFFSET)).toNat = verdict t :=
      h.memo.resolve_left hmemo
    rw [if_neg hmemo, hknown, withVerdict_of_known hknown, hone]
    rfl

/-! ### The walk that counts -/

/-- One round of the walk passes one code point. -/
theorem unitCount_step (h : StrAt m ptr (bytes t)) {count : Nat}
    (hi : (bytes t).drop i = bytes (c :: rest)) (hcount : count ≤ i) :
    unitCount r m ptr (bytes t).length (fuel + 1) i count =
      unitCount r m ptr (bytes t).length fuel (i + (utf8Nat c).length)
        (count + (utf16 c).length) := by
  have hfits := h.fits
  obtain ⟨hnext, hlt⟩ := length_next hi
  have hlead {b : Nat} (hb : (utf8Nat c)[0]? = some b) :
      read8 r m (add32 ptr i + 12) = .ok b := by
    have hread := read8_seq hr h hi hb
    rwa [Nat.add_zero] at hread
  rw [unitCount, if_neg (Nat.not_le.mpr hlt)]
  by_cases h1 : c.val < 0x80
  · rw [utf8Nat_one h1] at hnext hlead ⊢
    simp only [length_cons, length_nil] at hnext
    rw [hlead rfl, utf16_bmp (by lia)]
    show (if c.val < 0x80 then _ else _) = _
    rw [if_pos h1, add32_of_lt (by lia), add32_of_lt (by lia)]
    rfl
  · by_cases h2 : c.val < 0x800
    · rw [utf8Nat_two h1 h2] at hnext hlead ⊢
      simp only [length_cons, length_nil] at hnext
      rw [hlead rfl, utf16_bmp (by lia)]
      show (if 0xc0 + c.val / 64 < 0x80 then _ else _) = _
      rw [if_neg (by lia), if_pos (by lia), if_pos (by lia), add32_of_lt (by lia),
        add32_of_lt (by lia)]
      rfl
    · by_cases h3 : c.val < 0x10000
      · rw [utf8Nat_three h2 h3] at hnext hlead ⊢
        simp only [length_cons, length_nil] at hnext
        rw [hlead rfl, utf16_bmp h3]
        show (if 0xe0 + c.val / 4096 < 0x80 then _ else _) = _
        rw [if_neg (by lia), if_pos (by lia), if_neg (by lia), add32_of_lt (by lia),
          add32_of_lt (by lia)]
        rfl
      · rw [utf8Nat_four h3] at hnext hlead ⊢
        simp only [length_cons, length_nil] at hnext
        rw [hlead rfl, utf16_astral h3]
        show (if 0xf0 + c.val / 262144 < 0x80 then _ else _) = _
        rw [if_neg (by lia), if_neg (by lia), add32_of_lt (by lia),
          add32_of_lt (by lia)]
        rfl

theorem unitCount_eq (h : StrAt m ptr (bytes t)) (rest : List CodePoint) :
    ∀ fuel i count, (bytes t).drop i = bytes rest → rest.length < fuel → count ≤ i →
      unitCount r m ptr (bytes t).length fuel i count = .ok (count + (units rest).length) := by
  induction rest with
  | nil =>
    intro fuel i count hi hf _
    obtain ⟨fuel, rfl⟩ : ∃ k, fuel = k + 1 := ⟨fuel - 1, by simp at hf; lia⟩
    have hend : (bytes t).length ≤ i := drop_eq_nil_iff.mp hi
    rw [unitCount, if_pos hend]
    rfl
  | cons c rest ih =>
    intro fuel i count hi hf hcount
    obtain ⟨fuel, rfl⟩ : ∃ k, fuel = k + 1 := ⟨fuel - 1, by simp at hf; lia⟩
    have hunits : (utf16 c).length ≤ (utf8Nat c).length := length_utf8 c ▸ length_utf16_le c
    rw [unitCount_step hr h hi hcount, ih fuel _ _ (drop_next hi) (by simpa using hf) (by lia),
      units_cons, length_append, Nat.add_assoc]

/-- **`__str_length_utf16`** is the number of code units. -/
theorem strLengthUtf16_eq (h : TextAt m ptr t) (hf : (bytes t).length < fuel) :
    strLengthUtf16 r m ptr fuel = .ok ((units t).length, withVerdict m ptr t) := by
  rw [strLengthUtf16, read32_length hr h.str]
  show (do let (ascii, m) ← strIsAscii r m ptr fuel; _) = _
  rw [strIsAscii_eq hr h hf]
  by_cases ha : Ascii t
  · have hlen : (bytes t).length = (units t).length := by
      rw [← bytes_ascii ha, length_map]
    rw [if_pos ha, ← hlen]
    rfl
  · have hwalk := unitCount_eq hr h.withVerdict.str t fuel 0 0 rfl
      ((length_le_bytes t).trans_lt hf) .refl
    rw [if_neg ha]
    show (do let count ← unitCount r (withVerdict m ptr t) ptr (bytes t).length fuel 0 0; _) = _
    rw [hwalk, Nat.zero_add]
    rfl

end

/-! ### The walk that decodes -/

/-- The low bits of a byte. -/
theorem low_bits (x : Nat) {k : Nat} (h : 2 ^ n - 1 = k) : x &&& k = x % 2 ^ n :=
  h ▸ Nat.and_two_pow_sub_one_eq_mod x n

theorem low_six (x : Nat) : x &&& 0x3f = x % 2 ^ 6 := low_bits x rfl

theorem shl32_of_lt (h : 2 ^ n * a < 2 ^ 32) : shl32 a n = 2 ^ n * a := by
  rw [shl32, Nat.shiftLeft_eq, Nat.mul_comm, Nat.mod_eq_of_lt h]

/-- The high part of a number joined with its low part. -/
theorem or_low (h : b < 2 ^ n) : 2 ^ n * a ||| b = 2 ^ n * a + b :=
  (Nat.two_pow_add_eq_or_of_lt h a).symm

theorem decode_two (h : n < 0x800) :
    shl32 ((0xc0 + n / 64) &&& 0x1f) 6 ||| ((0x80 + n % 64) &&& 0x3f) = n := by
  rw [low_bits _ (show 2 ^ 5 - 1 = 0x1f from rfl), low_six,
    show (0xc0 + n / 64) % 2 ^ 5 = n / 64 by lia,
    show (0x80 + n % 64) % 2 ^ 6 = n % 64 by lia, shl32_of_lt (by lia), or_low (by lia)]
  lia

theorem decode_three (h : n < 0x10000) :
    shl32 ((0xe0 + n / 4096) &&& 0x0f) 12 ||| shl32 ((0x80 + n / 64 % 64) &&& 0x3f) 6 |||
      ((0x80 + n % 64) &&& 0x3f) = n := by
  rw [low_bits _ (show 2 ^ 4 - 1 = 0x0f from rfl), low_six, low_six,
    show (0xe0 + n / 4096) % 2 ^ 4 = n / 4096 by lia,
    show (0x80 + n / 64 % 64) % 2 ^ 6 = n / 64 % 64 by lia,
    show (0x80 + n % 64) % 2 ^ 6 = n % 64 by lia, shl32_of_lt (by lia),
    shl32_of_lt (by lia), or_low (by lia),
    show 2 ^ 12 * (n / 4096) + 2 ^ 6 * (n / 64 % 64) = 2 ^ 6 * (n / 64) by lia,
    or_low (by lia)]
  lia

theorem decode_four (h : n < 0x110000) :
    shl32 ((0xf0 + n / 262144) &&& 0x07) 18 ||| shl32 ((0x80 + n / 4096 % 64) &&& 0x3f) 12 |||
      shl32 ((0x80 + n / 64 % 64) &&& 0x3f) 6 ||| ((0x80 + n % 64) &&& 0x3f) = n := by
  rw [low_bits _ (show 2 ^ 3 - 1 = 0x07 from rfl), low_six, low_six, low_six,
    show (0xf0 + n / 262144) % 2 ^ 3 = n / 262144 by lia,
    show (0x80 + n / 4096 % 64) % 2 ^ 6 = n / 4096 % 64 by lia,
    show (0x80 + n / 64 % 64) % 2 ^ 6 = n / 64 % 64 by lia,
    show (0x80 + n % 64) % 2 ^ 6 = n % 64 by lia, shl32_of_lt (by lia),
    shl32_of_lt (by lia), shl32_of_lt (by lia), or_low (by lia),
    show 2 ^ 18 * (n / 262144) + 2 ^ 12 * (n / 4096 % 64) = 2 ^ 12 * (n / 4096) by lia,
    or_low (by lia),
    show 2 ^ 12 * (n / 4096) + 2 ^ 6 * (n / 64 % 64) = 2 ^ 6 * (n / 64) by lia,
    or_low (by lia)]
  lia

/-- The code units of an astral code point. -/
theorem surrogates (h : ¬ n < 0x10000) (h' : n < 0x110000) :
    add32 (sub32 n 0x10000 >>> 10) 0xd800 = 0xd800 + (n - 0x10000) / 1024 ∧
      add32 (sub32 n 0x10000 &&& 0x03ff) 0xdc00 = 0xdc00 + (n - 0x10000) % 1024 := by
  rw [sub32_of_le (by lia) (by lia), low_bits _ (show 2 ^ 10 - 1 = 0x3ff from rfl),
    Nat.shiftRight_eq_div_pow, add32_of_lt (by lia), add32_of_lt (by lia)]
  exact ⟨Nat.add_comm _ _, Nat.add_comm _ _⟩

/-- A sequence of one code unit is the one asked for, or it is passed. -/
theorem one_unit {u : Nat} {next : Except Halt (Option Nat)} (hindex : u ≤ index) (a : Nat) :
    (if u = index then .ok (some a) else next) =
      if index < u + 1 then .ok [a][index - u]? else next := by
  by_cases hu : u = index
  · rw [if_pos hu, if_pos (by lia), hu, Nat.sub_self]
    rfl
  · rw [if_neg hu, if_neg (by lia)]

/-- One round of the walk returns the code unit asked for, when it belongs to the sequence at
the cursor, and passes the sequence otherwise. -/
theorem charCodeWalk_step (hr : Covers r ptr (bytes t).length) (h : StrAt m ptr (bytes t)) {u : Nat}
    (hi : (bytes t).drop i = bytes (c :: rest)) (hu : u ≤ i) (hindex : u ≤ index) :
    charCodeWalk r m ptr (bytes t).length index (fuel + 1) i u =
      if index < u + (utf16 c).length then .ok (utf16 c)[index - u]?
      else charCodeWalk r m ptr (bytes t).length index fuel (i + (utf8Nat c).length)
        (u + (utf16 c).length) := by
  have hfits := h.fits
  have hc := c.isLt
  obtain ⟨hnext, hlt⟩ := length_next hi
  have hread {d b : Nat} (hb : (utf8Nat c)[d]? = some b) :
      read8 r m (add32 ptr i + (12 + d)) = .ok b := read8_seq hr h hi hb
  rw [charCodeWalk, if_neg (Nat.not_le.mpr hlt)]
  dsimp only
  by_cases h1 : c.val < 0x80
  · rw [utf8Nat_one h1] at hnext hread ⊢
    simp only [length_cons, length_nil] at hnext
    rw [utf16_bmp (by lia)]
    rw [hread (d := 0) rfl, ok_bind]
    rw [if_pos h1, add32_of_lt (by lia), add32_of_lt (by lia)]
    exact one_unit hindex _
  · by_cases h2 : c.val < 0x800
    · rw [utf8Nat_two h1 h2] at hnext hread ⊢
      simp only [length_cons, length_nil] at hnext
      rw [utf16_bmp (by lia)]
      rw [hread (d := 0) rfl, ok_bind]
      rw [if_neg (by lia), if_pos (by lia)]
      rw [hread (d := 1) rfl, ok_bind]
      rw [decode_two h2, add32_of_lt (by lia), add32_of_lt (by lia)]
      exact one_unit hindex _
    · by_cases h3 : c.val < 0x10000
      · rw [utf8Nat_three h2 h3] at hnext hread ⊢
        simp only [length_cons, length_nil] at hnext
        rw [utf16_bmp h3]
        rw [hread (d := 0) rfl, ok_bind]
        rw [if_neg (by lia), if_neg (by lia), if_pos (by lia)]
        rw [hread (d := 1) rfl, ok_bind]
        rw [hread (d := 2) rfl, ok_bind]
        rw [decode_three h3, add32_of_lt (by lia), add32_of_lt (by lia)]
        exact one_unit hindex _
      · rw [utf8Nat_four h3] at hnext hread ⊢
        simp only [length_cons, length_nil] at hnext
        obtain ⟨hhigh, hlow⟩ := surrogates h3 hc
        rw [utf16_astral h3]
        rw [hread (d := 0) rfl, ok_bind]
        rw [if_neg (by lia), if_neg (by lia), if_neg (by lia)]
        rw [hread (d := 1) rfl, ok_bind]
        rw [hread (d := 2) rfl, ok_bind]
        rw [hread (d := 3) rfl, ok_bind]
        rw [decode_four hc, hhigh, hlow, add32_of_lt (by lia), add32_of_lt (by lia),
          add32_of_lt (by lia)]
        show _ = if index < u + 2 then _ else _
        by_cases hu' : u = index
        · rw [if_pos hu', if_pos (by lia), hu', Nat.sub_self]
          rfl
        · rw [if_neg hu']
          by_cases hu'' : u + 1 = index
          · rw [if_pos hu'', if_pos (by lia), ← hu'', Nat.add_sub_cancel_left]
            rfl
          · rw [if_neg hu'', if_neg (by lia)]
            rfl

theorem charCodeWalk_eq (hr : Covers r ptr (bytes t).length) (h : StrAt m ptr (bytes t))
    (rest : List CodePoint) :
    ∀ fuel i u, (bytes t).drop i = bytes rest → rest.length < fuel → u ≤ i → u ≤ index →
      charCodeWalk r m ptr (bytes t).length index fuel i u = .ok (units rest)[index - u]? := by
  induction rest with
  | nil =>
    intro fuel i u hi hf _ _
    obtain ⟨fuel, rfl⟩ : ∃ k, fuel = k + 1 := ⟨fuel - 1, by simp at hf; lia⟩
    have hend : (bytes t).length ≤ i := drop_eq_nil_iff.mp hi
    rw [charCodeWalk, if_pos hend]
    rfl
  | cons c rest ih =>
    intro fuel i u hi hf hu hindex
    obtain ⟨fuel, rfl⟩ : ∃ k, fuel = k + 1 := ⟨fuel - 1, by simp at hf; lia⟩
    have hunits : (utf16 c).length ≤ (utf8Nat c).length := length_utf8 c ▸ length_utf16_le c
    rw [charCodeWalk_step hr h hi hu hindex, units_cons]
    by_cases hin : index < u + (utf16 c).length
    · rw [if_pos hin, getElem?_append_left (by lia)]
    · rw [if_neg hin, ih fuel _ _ (drop_next hi) (by simpa using hf) (by lia) (by lia),
        getElem?_append_right (by lia)]
      congr 2
      lia

/-- The code unit at a signed index. -/
def codeUnitAt (t : List CodePoint) (index : Nat) : Option Nat :=
  if signed32 index < 0 then none else (units t)[index]?

/-- The char-code helper may leave the verdict unknown when the index is out of range. -/
theorem strCharCodeAt_eq (hr : Covers r ptr (bytes t).length) (h : TextAt m ptr t)
    (hf : (bytes t).length < fuel) (index : Nat) :
    ∃ m', strCharCodeAt r m ptr index fuel = .ok (codeUnitAt t index, m') ∧
      (m' = m ∨ m' = withVerdict m ptr t) := by
  rw [strCharCodeAt, codeUnitAt]
  by_cases hneg : signed32 index < 0
  · rw [if_pos hneg, if_pos hneg]
    exact ⟨m, rfl, Or.inl rfl⟩
  · rw [if_neg hneg, if_neg hneg]
    rw [read32_length hr h.str, ok_bind]
    by_cases hout : (bytes t).length ≤ index
    · have hnone : (units t)[index]? = none :=
        getElem?_eq_none ((length_units_le t).trans hout)
      rw [if_pos hout, hnone]
      exact ⟨m, rfl, Or.inl rfl⟩
    · rw [if_neg hout]
      rw [strIsAscii_eq hr h hf, ok_bind]
      refine ⟨withVerdict m ptr t, ?_, Or.inr rfl⟩
      have hlt : index < (bytes t).length := Nat.not_le.mp hout
      by_cases ha : Ascii t
      · have hbyte := read8_byte hr h.withVerdict.str (i := index) (d := 0) hlt
        rw [Nat.add_zero] at hbyte
        rw [if_pos ha]
        show (do let b ← read8 r (withVerdict m ptr t) (add32 ptr index + 12); pure _) = _
        rw [hbyte, ok_bind, ← bytes_ascii ha, getElem?_map, getElem?_eq_getElem hlt]
        rfl
      · have hwalk : charCodeWalk r (withVerdict m ptr t) ptr (bytes t).length index fuel 0 0 =
            .ok (units t)[index - 0]? :=
          charCodeWalk_eq hr h.withVerdict.str t fuel 0 0 rfl
            ((length_le_bytes t).trans_lt hf) .refl (Nat.zero_le _)
        rw [if_neg ha]
        show (do
          let code ← charCodeWalk r (withVerdict m ptr t) ptr (bytes t).length index fuel 0 0
          pure (code, withVerdict m ptr t)) = _
        rw [hwalk]
        rfl

/-- What a call leaves: the record with its text, its verdict unknown or right, and every
byte but the verdict's as it was. -/
structure Kept (m m' : Memory) (ptr : Nat) (t : List CodePoint) : Prop where
  text : TextAt m' ptr t
  frame : ∀ a, a ≠ ptr + STRING_ASCII_CACHE_OFFSET → m' a = m a

theorem TextAt.kept (h : TextAt m ptr t) : Kept m m ptr t := ⟨h, fun _ _ => rfl⟩

theorem TextAt.kept_withVerdict (h : TextAt m ptr t) : Kept m (Linear.withVerdict m ptr t) ptr t :=
  ⟨h.withVerdict, fun _ ha => store8_of_ne ha⟩

end

/-- **UTF-16 indexing over a UTF-8 record is exact.**  Whatever bytes beyond those of the
record may be read, and with any bound above the record's length on the rounds of its
loops, `__str_length_utf16` returns the number of code units and leaves the right verdict;
the char-code helper returns the code unit at a signed index or NaN; and the two walks
agree with both, whether the text is ASCII or not. -/
theorem string_units_exact {r : Block} {m : Memory} {ptr : Nat} {t : List CodePoint}
    (hr : Covers r ptr (bytes t).length) (h : TextAt m ptr t) {fuel : Nat}
    (hf : (bytes t).length < fuel) :
    (∃ m', strLengthUtf16 r m ptr fuel = .ok ((units t).length, m') ∧ Kept m m' ptr t ∧
      (m' (ptr + STRING_ASCII_CACHE_OFFSET)).toNat = verdict t) ∧
    (∀ index, index < 2 ^ 32 → ∃ m',
      strCharCodeAt r m ptr index fuel = .ok (codeUnitAt t index, m') ∧ Kept m m' ptr t) ∧
    unitCount r m ptr (bytes t).length fuel 0 0 = .ok (units t).length ∧
    ∀ index, charCodeWalk r m ptr (bytes t).length index fuel 0 0 = .ok (units t)[index]? := by
  have hrounds : t.length < fuel := (length_le_bytes t).trans_lt hf
  refine ⟨⟨_, strLengthUtf16_eq hr h hf, h.kept_withVerdict, ?_⟩, fun index _ => ?_, ?_,
    fun index => ?_⟩
  · rw [withVerdict, store8_self]
    rcases verdict_cases t with ⟨-, hv⟩ | ⟨-, hv⟩ <;> rw [hv] <;> rfl
  · obtain ⟨m', hcode, hm⟩ := strCharCodeAt_eq hr h hf index
    refine ⟨m', hcode, ?_⟩
    rcases hm with rfl | rfl
    · exact h.kept
    · exact h.kept_withVerdict
  · rw [unitCount_eq hr h.str t fuel 0 0 rfl hrounds .refl, Nat.zero_add]
  · exact charCodeWalk_eq hr h.str t fuel 0 0 rfl hrounds .refl (Nat.zero_le _)

/-- A record at 8 with `é` and a code point beyond the basic plane. -/
def accented : Memory := fun a =>
  if a = 16 then 6 else if a = 20 then 0xc3 else if a = 21 then 0xa9 else if a = 22 then 0xf0
  else if a = 23 then 0x9f else if a = 24 then 0x98 else if a = 25 then 0x80 else 0

theorem accented_text : TextAt accented 8 [0xe9, 0x1f600] := by
  have hbytes : bytes [0xe9, 0x1f600] = [0xc3, 0xa9, 0xf0, 0x9f, 0x98, 0x80] := rfl
  refine ⟨hbytes ▸ ⟨by simp, rfl, ?_⟩, Or.inl rfl⟩
  decide

theorem accented_units :
    (∃ m', strLengthUtf16 (record 8 6) accented 8 7 = .ok (3, m') ∧
      (m' 9).toNat = STRING_ASCII_NO) ∧
    ∃ m', strCharCodeAt (record 8 6) accented 8 2 7 = .ok (some 0xde00, m') ∧
      Kept accented m' 8 [0xe9, 0x1f600] := by
  have hlength : (bytes [0xe9, 0x1f600]).length = 6 := rfl
  have hcovers : Covers (record 8 6) 8 (bytes [0xe9, 0x1f600]).length := by
    rw [hlength]
    exact record_covers 8 6
  have hfuel : (bytes [0xe9, 0x1f600]).length < 7 := by
    rw [hlength]
    exact Nat.lt_succ_self 6
  obtain ⟨⟨m', hlen, -, hverdict⟩, hcode, -⟩ := string_units_exact hcovers accented_text hfuel
  have hunits : (units [0xe9, 0x1f600]).length = 3 := rfl
  have hnotAscii : verdict [0xe9, 0x1f600] = STRING_ASCII_NO :=
    if_neg fun h => absurd (h 0xe9 mem_cons_self) (by decide)
  have hunit : codeUnitAt [0xe9, 0x1f600] 2 = some 0xde00 := rfl
  rw [hunits] at hlen
  rw [hnotAscii] at hverdict
  obtain ⟨m'', hat, hkept⟩ := hcode 2 (by decide)
  rw [hunit] at hat
  exact ⟨⟨m', hlen, hverdict⟩, m'', hat, hkept⟩

end Js2Wasm.Linear
