import Js2Wasm.Binary.Encoder

/-! # The byte reader

`ByteReader` of `link/reader.ts`: a cursor into an array of bytes.  LEB128 digits are or-ed
into a 32-bit accumulator, with shift counts taken modulo 32.  `u32_encode` and `i32_encode`
read a value back, wherever its encoding stands and whatever follows it.
-/
namespace Js2Wasm.Link
open List

open Leb128

structure ByteReader where
  data : List UInt8
  pos : Nat
  deriving DecidableEq

namespace ByteReader

/-- The next byte and the reader after it, or the message of the error. -/
def byte (r : ByteReader) : Except String (UInt8 × ByteReader) :=
  if h : r.pos < r.data.length then .ok (r.data[r.pos], { r with pos := r.pos + 1 })
  else .error s!"Unexpected end of data at offset {r.pos}"

def bytes (r : ByteReader) (n : Nat) : Except String (List UInt8 × ByteReader) :=
  if r.pos + n > r.data.length then
    .error s!"Unexpected end of data: need {n} bytes at offset {r.pos}"
  else .ok ((r.data.drop r.pos).take n, { r with pos := r.pos + n })

/-- A byte read moves the cursor. -/
theorem remaining_lt {r r' : ByteReader} {b : UInt8} (h : r.byte = .ok (b, r')) :
    r'.data.length - r'.pos < r.data.length - r.pos := by
  rw [byte] at h
  split at h
  · obtain ⟨-, rfl⟩ := Prod.mk.inj (Except.ok.inj h)
    dsimp only
    omega
  · cases h

/-- The loop of `u32` and of `i32`: the accumulator, the shift and the last byte. -/
def digits (r : ByteReader) (result : BitVec 32) (shift : Nat) :
    Except String ((BitVec 32 × Nat × UInt8) × ByteReader) :=
  match h : r.byte with
  | .error message => .error message
  | .ok (b, r') =>
    let result := result ||| (BitVec.ofNat 32 (b &&& 0x7f).toNat <<< (shift % 32))
    let shift := shift + 7
    if b &&& 0x80 ≠ 0 then digits r' result shift else .ok ((result, shift, b), r')
termination_by r.data.length - r.pos
decreasing_by exact remaining_lt h

/-- Read unsigned LEB128. -/
def u32 (r : ByteReader) : Except String (Nat × ByteReader) := do
  let ((result, _, _), r) ← r.digits 0 0
  return (result.toNat, r)

/-- Read signed LEB128 (32-bit). -/
def i32 (r : ByteReader) : Except String (Int × ByteReader) := do
  let ((result, shift, b), r) ← r.digits 0 0
  let result := if shift < 32 ∧ b &&& 0x40 ≠ 0 then result ||| -((1 : BitVec 32) <<< (shift % 32))
    else result
  return (result.toInt, r)

/-- Read UTF-8 name (length-prefixed); `decode` is `new TextDecoder().decode`. -/
def name {α : Type} (decode : List UInt8 → α) (r : ByteReader) :
    Except String (α × ByteReader) := do
  let (len, r) ← r.u32
  let (bytes, r) ← r.bytes len
  return (decode bytes, r)

variable {pre bs rest : List UInt8} {b : UInt8}

theorem byte_append (pre rest : List UInt8) (b : UInt8) :
    byte ⟨pre ++ b :: rest, pre.length⟩ = .ok (b, ⟨pre ++ b :: rest, pre.length + 1⟩) := by
  rw [byte, dif_pos (by simp)]
  simp

theorem and_continue (b : UInt8) : b &&& 0x80 ≠ 0 ↔ 128 ≤ b.toNat := by
  have hlt := UInt8.toNat_lt b
  have hbit := and_two_pow_eq_zero b.toNat 7
  rw [ne_eq, ← UInt8.toNat_inj, UInt8.toNat_and]
  exact hbit.not.trans (by lia)

theorem and_sign (b : UInt8) : b &&& 0x40 ≠ 0 ↔ 64 ≤ b.toNat % 128 := by
  have hbit := and_two_pow_eq_zero b.toNat 6
  rw [ne_eq, ← UInt8.toNat_inj, UInt8.toNat_and]
  exact hbit.not.trans (by lia)

theorem and_digit (b : UInt8) : (b &&& 0x7f).toNat = b.toNat % 128 := by
  rw [UInt8.toNat_and]
  exact Nat.and_two_pow_sub_one_eq_mod b.toNat 7

/-- A digit lands above the bits already read; what does not fit is lost. -/
theorem or_digit {result : BitVec 32} {digit shift : Nat} (hr : result.toNat < 2 ^ shift)
    (hs : shift < 32) :
    result ||| (BitVec.ofNat 32 digit <<< (shift % 32)) =
      BitVec.ofNat 32 (result.toNat + 2 ^ shift * digit) := by
  have hor : 2 ^ shift * digit + result.toNat = 2 ^ shift * digit ||| result.toNat :=
    Nat.two_pow_add_eq_or_of_lt hr digit
  apply BitVec.eq_of_toNat_eq
  rw [BitVec.toNat_or, BitVec.toNat_shiftLeft, BitVec.toNat_ofNat, BitVec.toNat_ofNat,
    Nat.mod_eq_of_lt hs, Nat.shiftLeft_eq, Nat.mod_mul_mod, Nat.add_comm, hor,
    Nat.or_mod_two_pow, Nat.lor_comm, Nat.mod_eq_of_lt result.isLt, Nat.mul_comm]

/-- **The loop reads a sequence of at most five bytes.** -/
theorem digits_append (h : IsSequence bs) (rest : List UInt8) :
    ∀ (pre : List UInt8) (result : BitVec 32) (shift : Nat), result.toNat < 2 ^ shift →
      shift + 7 * bs.length ≤ 35 →
      ∃ b : UInt8, (b &&& 0x40 ≠ 0 ↔ negative bs = true) ∧
        digits ⟨pre ++ (bs ++ rest), pre.length⟩ result shift =
          .ok ((BitVec.ofNat 32 (result.toNat + 2 ^ shift * unsignedValue bs),
              shift + 7 * bs.length, b),
            ⟨pre ++ (bs ++ rest), pre.length + bs.length⟩) := by
  induction h with
  | @last b hb =>
    intro pre result shift hr hshift
    rw [length_singleton] at hshift
    refine ⟨b, ?_, ?_⟩
    · rw [and_sign]
      simp [negative]
    · rw [digits, singleton_append, byte_append]
      simp only [and_digit, if_neg ((and_continue b).not.mpr (Nat.not_le.mpr hb)),
        or_digit hr (by lia : shift < 32), unsignedValue_last hb, Nat.mod_eq_of_lt hb]
      rfl
  | @more b bs hb hbs ih =>
    intro pre result shift hr hshift
    have hpos := hbs.length_pos
    have hdigit : b.toNat % 128 < 128 := Nat.mod_lt _ (by decide)
    rw [length_cons] at hshift
    have hpow : 2 ^ (shift + 7) = 2 ^ shift * 128 := pow_add 2 shift 7
    have hhigh : 2 ^ (shift + 7) ≤ 2 ^ 28 := Nat.pow_le_pow_right (by decide) (by lia)
    have hacc : result.toNat + 2 ^ shift * (b.toNat % 128) < 2 ^ (shift + 7) := by
      have := Nat.mul_le_mul_left (2 ^ shift) (Nat.le_of_lt_succ hdigit)
      lia
    obtain ⟨next, hnext⟩ : ∃ next, next =
        BitVec.ofNat 32 (result.toNat + 2 ^ shift * (b.toNat % 128)) := ⟨_, rfl⟩
    have hnat : next.toNat = result.toNat + 2 ^ shift * (b.toNat % 128) := by
      rw [hnext]
      exact Nat.mod_eq_of_lt (by lia)
    obtain ⟨last, hlast, hread⟩ := ih (pre ++ [b]) next (shift + 7) (hnat ▸ hacc) (by lia)
    refine ⟨last, by rw [hlast, negative, if_neg (by simpa using hbs.ne_nil)], ?_⟩
    have hvalue : result.toNat + 2 ^ shift * (b.toNat % 128) + 2 ^ (shift + 7) * unsignedValue bs =
        result.toNat + 2 ^ shift * unsignedValue (b :: bs) := by
      rw [hpow, unsignedValue]
      ring
    rw [hnat, hvalue, append_assoc, singleton_append, length_append,
      length_singleton, Nat.add_assoc, Nat.add_assoc, Nat.add_comm 7,
      Nat.add_comm 1 bs.length] at hread
    rw [digits, cons_append, byte_append]
    simp only [and_digit, if_pos ((and_continue b).mpr hb), or_digit hr (by lia : shift < 32),
      ← hnext]
    exact hread

/-- **What `u32` reads**: the value, from the first byte to the last. -/
theorem u32_encode {v : Nat} (hv : v < 2 ^ 32) (pre rest : List UInt8) :
    u32 ⟨pre ++ (encode v ++ rest), pre.length⟩ =
      .ok (v, ⟨pre ++ (encode v ++ rest), pre.length + (encode v).length⟩) := by
  obtain ⟨hseq, hval⟩ := encode_sequence v
  have hlen : (encode v).length ≤ 5 := length_encode_le (by lia)
  obtain ⟨b, -, hread⟩ := digits_append hseq rest pre 0 0 (by decide) (by lia)
  have hzero : (0 : BitVec 32).toNat + 2 ^ 0 * v = v := by simp
  rw [hval, hzero] at hread
  rw [u32, hread]
  exact congrArg (fun v => Except.ok (v, ByteReader.mk _ _)) (Nat.mod_eq_of_lt hv)

/-- The sign fills the bits above the digits read. -/
theorem or_sign {value n : Nat} (hv : value < 2 ^ n) (hn : n < 32) :
    BitVec.ofNat 32 value ||| -((1 : BitVec 32) <<< n) = BitVec.ofInt 32 (value - 2 ^ n) := by
  have hpow : 2 ^ n * (2 ^ (32 - n) - 1) = 2 ^ 32 - 2 ^ n := by
    rw [Nat.mul_sub_one, ← pow_add, Nat.add_sub_of_le hn.le]
  have hle : 2 ^ n < 2 ^ 32 := Nat.pow_lt_pow_right (by decide) hn
  have hor : 2 ^ 32 - 2 ^ n + value = 2 ^ 32 - 2 ^ n ||| value := by
    rw [← hpow]
    exact Nat.two_pow_add_eq_or_of_lt hv _
  have hcast : ((2 ^ n : Nat) : Int) = 2 ^ n := by push_cast; rfl
  apply BitVec.eq_of_toNat_eq
  rw [BitVec.toNat_or, BitVec.toNat_neg, BitVec.toNat_shiftLeft, BitVec.toNat_ofNat,
    show (1 : BitVec 32).toNat = 1 from rfl, Nat.one_shiftLeft, Nat.mod_eq_of_lt hle,
    Nat.mod_eq_of_lt (by lia : value < 2 ^ 32), Nat.mod_eq_of_lt (by lia), Nat.lor_comm, ← hor,
    BitVec.toNat_ofInt, ← hcast]
  lia

/-- The accumulator with the sign: the value in two's complement, modulo `2 ^ 32`. -/
theorem extended (hlen : bs.length ≤ 5) (hsign : b &&& 0x40 ≠ 0 ↔ negative bs = true) :
    (if 7 * bs.length < 32 ∧ b &&& 0x40 ≠ 0 then
        BitVec.ofNat 32 (unsignedValue bs) ||| -((1 : BitVec 32) <<< (7 * bs.length % 32))
      else BitVec.ofNat 32 (unsignedValue bs)) = BitVec.ofInt 32 (signedValue bs) := by
  have hpow : 128 ^ bs.length = 2 ^ (7 * bs.length) := (pow_mul 2 7 bs.length).symm
  have hlt : unsignedValue bs < 2 ^ (7 * bs.length) := hpow ▸ unsignedValue_lt bs
  rw [signedValue]
  by_cases hneg : negative bs = true
  · by_cases hshort : 7 * bs.length < 32
    · rw [if_pos ⟨hshort, hsign.mpr hneg⟩, Nat.mod_eq_of_lt hshort, or_sign hlt hshort, if_pos hneg]
      exact congrArg _ (congrArg _ (by exact_mod_cast hpow.symm))
    · -- five digits cover the accumulator
      have hfive : bs.length = 5 := by lia
      rw [if_neg fun hc => hshort hc.1, if_pos hneg, hfive]
      apply BitVec.eq_of_toNat_eq
      rw [BitVec.toNat_ofNat, BitVec.toNat_ofInt]
      lia
  · rw [if_neg fun hc => hneg (hsign.mp hc.2), if_neg hneg, Int.sub_zero]
    rfl

/-- **What `i32` reads.** -/
theorem i32_encode {v : Int} (hv : -2 ^ 31 ≤ v ∧ v < 2 ^ 31) (pre rest : List UInt8) :
    i32 ⟨pre ++ (encodeSigned v ++ rest), pre.length⟩ =
      .ok (v, ⟨pre ++ (encodeSigned v ++ rest), pre.length + (encodeSigned v).length⟩) := by
  obtain ⟨hseq, hval⟩ := encodeSigned_sequence v
  have hlen : (encodeSigned v).length ≤ 5 := length_encodeSigned_le (by lia) (by lia)
  obtain ⟨b, hsign, hread⟩ := digits_append hseq rest pre 0 0 (by decide) (by lia)
  have hzero : (0 : BitVec 32).toNat + 2 ^ 0 * unsignedValue (encodeSigned v) =
      unsignedValue (encodeSigned v) := by simp
  rw [hzero, Nat.zero_add] at hread
  have hbmod : v.bmod (2 ^ 32) = v := by rw [Int.bmod_eq_of_le] <;> lia
  have hvalue := congrArg BitVec.toInt (extended hlen hsign)
  rw [BitVec.toInt_ofInt, hval, hbmod] at hvalue
  rw [i32, hread]
  exact congrArg (fun v => Except.ok (v, ByteReader.mk _ _)) hvalue

/-- A name is read back up to the text decoder. -/
theorem name_append {α : Type} (decode : List UInt8 → α) (s : List UInt16) {part : List UInt8}
    (h : Binary.sizedPart (Binary.textEncode s) = .ok part) (pre rest : List UInt8) :
    name decode ⟨pre ++ (part ++ rest), pre.length⟩ =
      .ok (decode (Binary.textEncode s), ⟨pre ++ (part ++ rest), pre.length + part.length⟩) := by
  obtain ⟨encoded, henc⟩ : ∃ encoded, encoded = Binary.textEncode s := ⟨_, rfl⟩
  rw [← henc] at h ⊢
  rw [Binary.sizedPart, Binary.u32Part] at h
  split at h
  · cases h
  · rename_i hlen
    have hsize : encoded.length < 2 ^ 32 := by lia
    have hpart : encode encoded.length ++ encoded = part := Except.ok.inj h
    have hread := u32_encode hsize pre (encoded ++ rest)
    rw [name, ← hpart, append_assoc, hread]
    have hroom : ¬ pre.length + (encode encoded.length).length + encoded.length >
        (pre ++ (encode encoded.length ++ (encoded ++ rest))).length := by
      simp only [length_append]
      lia
    have htake : ((pre ++ (encode encoded.length ++ (encoded ++ rest))).drop
        (pre.length + (encode encoded.length).length)).take encoded.length = encoded := by
      rw [← append_assoc, drop_left' length_append, take_left]
    show Except.bind (bytes _ _) _ = _
    rw [bytes, if_neg hroom, htake, length_append, ← Nat.add_assoc]
    rfl

/-- `é` behind one byte and in front of another. -/
theorem name_append_accented :
    name id ⟨[7] ++ ([2, 0xc3, 0xa9] ++ [9]), 1⟩ =
      .ok (Binary.textEncode [0xe9], ⟨[7] ++ ([2, 0xc3, 0xa9] ++ [9]), 4⟩) :=
  name_append id [0xe9] rfl [7] [9]

end ByteReader

open Binary ByteReader

/-- **The encoder and the reader.**  Numbers are written as the shortest sequences of their
values and read back with the cursor behind the last byte, whatever stands before and after;
a tree of calls appends the concatenation of its parts to whatever the buffer holds. -/
theorem encoder_faithful :
    (∀ (e : WasmEncoder) (v : Nat), v < 2 ^ 32 →
      ∃ e' bs, e.u32 v = .ok e' ∧ e'.finish = e.finish ++ bs ∧ bs.length ≤ 5 ∧
        Shortest unsignedValue bs v ∧
        ∀ pre rest, ByteReader.u32 ⟨pre ++ (bs ++ rest), pre.length⟩ =
          .ok (v, ⟨pre ++ (bs ++ rest), pre.length + bs.length⟩)) ∧
    (∀ (e : WasmEncoder) (v : Int), -2 ^ 31 ≤ v ∧ v < 2 ^ 31 →
      ∃ bs, (e.i32 v).finish = e.finish ++ bs ∧ bs.length ≤ 5 ∧ Shortest signedValue bs v ∧
        ∀ pre rest, ByteReader.i32 ⟨pre ++ (bs ++ rest), pre.length⟩ =
          .ok (v, ⟨pre ++ (bs ++ rest), pre.length + bs.length⟩)) ∧
    (∀ (e : WasmEncoder) (v : Int), -2 ^ 63 ≤ v ∧ v < 2 ^ 63 →
      ∃ bs, (e.i64 v).finish = e.finish ++ bs ∧ bs.length ≤ 10 ∧ Shortest signedValue bs v ∧
        ∀ rest, decodeSigned 64 (bs ++ rest) = some (v, rest)) ∧
    ∀ (calls : List Call) (e : WasmEncoder),
      (runAll calls e).map WasmEncoder.finish = (parts calls).map (e.finish ++ ·) := by
  refine ⟨fun e v hv => ?_, fun e v hv => ?_, fun e v hv => ?_, emits_runAll⟩
  · obtain ⟨e', he, hfinish⟩ := Emits.u32_ok e hv
    exact ⟨e', _, he, hfinish, length_encode_le (by omega), encode_shortest v, u32_encode hv⟩
  · have hbmod : v.bmod (2 ^ 32) = v := by rw [Int.bmod_eq_of_le] <;> omega
    exact ⟨_, by rw [WasmEncoder.finish_i32, hbmod], length_encodeSigned_le (by omega) (by omega),
      encodeSigned_shortest v, i32_encode hv⟩
  · have hbmod : v.bmod (2 ^ 64) = v := by rw [Int.bmod_eq_of_le] <;> omega
    have hlen : (encodeSigned v).length ≤ 10 := length_encodeSigned_le (by omega) (by omega)
    exact ⟨_, by rw [WasmEncoder.finish_i64, hbmod], hlen, encodeSigned_shortest v,
      decodeSigned_encode (by decide) hv⟩

theorem encoder_faithful_624485 :
    ∃ bs : List UInt8, bs.length ≤ 5 ∧
      ByteReader.u32 ⟨[0] ++ (bs ++ [1]), 1⟩ =
        .ok (624485, ⟨[0] ++ (bs ++ [1]), 1 + bs.length⟩) := by
  obtain ⟨-, bs, -, -, hlen, -, hread⟩ :=
    encoder_faithful.1 WasmEncoder.new 624485 (by decide)
  exact ⟨bs, hlen, hread [0] [1]⟩

end Js2Wasm.Link
