import Js2Wasm.Binary.Instr
import Js2Wasm.Lib.Wtf8

/-! # The binary encoder

`WasmEncoder` of `emit/encoder.ts`: a buffer that doubles when it is full, with the bytes
written so far in its first `len` places.  `Emits` says what a call appends, whatever the
buffer; `emits_runAll` is the statement for every tree of calls, sections and vectors
included.  The floating-point writers are left out.
-/
namespace Js2Wasm.Binary
open List

/-- What the encoder throws. -/
inductive EncodeError where
  | rangeError (message : String)
  | error (message : String)
  deriving DecidableEq

/-- `b & 0xff`. -/
def lowByte (b : Int) : UInt8 := UInt8.ofNat (b % 256).toNat

structure WasmEncoder where
  buf : List UInt8
  len : Nat
  len_le : len ≤ buf.length
  /-- The buffer grows by doubling. -/
  room : 0 < buf.length

/-- The code point of a code unit that is not part of a pair. -/
def loneUnit (u : UInt16) : Nat := if 0xd800 ≤ u ∧ u < 0xe000 then 0xfffd else u.toNat

/-- `new TextEncoder().encode(s)`: a surrogate without its partner is encoded as U+FFFD. -/
def textEncode : List UInt16 → List UInt8
  | [] => []
  | [u] => (Wtf8.utf8Nat (loneUnit u)).map Nat.toUInt8
  | u :: v :: rest =>
    if 0xd800 ≤ u ∧ u < 0xdc00 ∧ 0xdc00 ≤ v ∧ v < 0xe000 then
      (Wtf8.utf8Nat (0x10000 + (u.toNat - 0xd800) * 1024 + (v.toNat - 0xdc00))).map Nat.toUInt8 ++
        textEncode rest
    else (Wtf8.utf8Nat (loneUnit u)).map Nat.toUInt8 ++ textEncode (v :: rest)

/-- `while (cap < need) cap *= 2`. -/
def doubled (cap need : Nat) (h : 0 < cap) : Nat :=
  if cap < need then doubled (cap * 2) need (Nat.mul_pos h Nat.two_pos) else cap
termination_by need - cap

theorem le_doubled (cap need : Nat) (h : 0 < cap) :
    cap ≤ doubled cap need h ∧ need ≤ doubled cap need h := by
  fun_induction doubled cap need h with
  | case1 cap h hlt ih => exact ⟨by lia, ih.2⟩
  | case2 cap h hle => exact ⟨le_rfl, Nat.not_lt.mp hle⟩

namespace WasmEncoder

/-- `new WasmEncoder()`. -/
def new : WasmEncoder where
  buf := replicate 1024 0
  len := 0
  len_le := Nat.zero_le _
  room := by rw [length_replicate]; decide

/-- A copy of the bytes written so far. -/
def finish (e : WasmEncoder) : List UInt8 := e.buf.take e.len

/-- The larger array, with the bytes written so far at its start. -/
def grow (e : WasmEncoder) (cap : Nat) (hlen : e.len ≤ cap) (h : 0 < cap) : WasmEncoder where
  buf := e.finish ++ replicate (cap - e.len) 0
  len := e.len
  len_le := by simp [finish, e.len_le]
  room := by
    have := e.len_le
    simp [finish]
    omega

def ensure (e : WasmEncoder) (extra : Nat) : WasmEncoder :=
  let need := e.len + extra
  if need ≤ e.buf.length then e
  else
    e.grow (doubled (e.buf.length * 2) need (Nat.mul_pos e.room Nat.two_pos))
      ((Nat.le_add_right _ _).trans (le_doubled _ _ _).2)
      ((Nat.mul_pos e.room Nat.two_pos).trans_le (le_doubled _ _ _).1)

theorem ensure_room (e : WasmEncoder) (extra : Nat) :
    (e.ensure extra).len + extra ≤ (e.ensure extra).buf.length := by
  unfold ensure
  dsimp only
  split
  · assumption
  · have hcap := (le_doubled (e.buf.length * 2) (e.len + extra)
      (Nat.mul_pos e.room Nat.two_pos)).2
    have hlen : e.finish.length = e.len := length_take_of_le e.len_le
    simp only [grow, length_append, length_replicate, hlen]
    omega

/-- `this.buf[this.len++] = b`, inside the buffer. -/
def store (e : WasmEncoder) (b : UInt8) (h : e.len < e.buf.length) : WasmEncoder where
  buf := e.buf.set e.len b
  len := e.len + 1
  len_le := by rw [length_set]; exact h
  room := by rw [length_set]; exact e.room

/-- `for (const b of bs) this.buf[this.len++] = b & 0xff`. -/
def storeEach (e : WasmEncoder) :
    (bs : List Int) → e.len + bs.length ≤ e.buf.length → WasmEncoder
  | [], _ => e
  | b :: bs, h =>
    have h' : e.len + (bs.length + 1) ≤ e.buf.length := h
    (e.store (lowByte b) (by omega)).storeEach bs (by
      simp only [store, length_set]
      omega)

/-- `this.buf.set(bs, this.len); this.len += bs.length`. -/
def setBytes (e : WasmEncoder) (bs : List UInt8) (h : e.len + bs.length ≤ e.buf.length) :
    WasmEncoder where
  buf := e.finish ++ bs ++ e.buf.drop (e.len + bs.length)
  len := e.len + bs.length
  len_le := by simp [finish, e.len_le]
  room := by
    have := e.room
    simp [finish]
    omega

def byte (e : WasmEncoder) (b : Int) : WasmEncoder :=
  if h : e.len = e.buf.length then (e.ensure 1).store (lowByte b) (e.ensure_room 1)
  else e.store (lowByte b) (Nat.lt_of_le_of_ne e.len_le h)

/-- `bytes` of a `number[]`. -/
def bytes (e : WasmEncoder) (bs : List Int) : WasmEncoder :=
  (e.ensure bs.length).storeEach bs (e.ensure_room _)

/-- `bytes` of a `Uint8Array`. -/
def octets (e : WasmEncoder) (bs : List UInt8) : WasmEncoder :=
  (e.ensure bs.length).setBytes bs (e.ensure_room _)

/-- The loop of `u32`. -/
def u32Digits (value : BitVec 32) (e : WasmEncoder) : WasmEncoder :=
  let b := value &&& 0x7f
  let value' := value >>> 7
  if value' ≠ 0 then u32Digits value' (e.byte (b ||| 0x80).toNat) else e.byte b.toNat
termination_by value.toNat
decreasing_by
  have hne : (value >>> 7).toNat ≠ 0 := fun h => ‹value' ≠ 0› (BitVec.eq_of_toNat_eq h)
  rw [BitVec.toNat_ushiftRight, Nat.shiftRight_eq_div_pow] at hne ⊢
  omega

/-- Unsigned LEB128. -/
def u32 (e : WasmEncoder) (value : Int) : Except EncodeError WasmEncoder :=
  if value < 0 ∨ 0xffffffff < value then .error (.rangeError s!"u32 out of range: {value}")
  else .ok (u32Digits (BitVec.ofInt 32 value) e)

theorem shiftRight_seven (v : Int) : v >>> (7 : Nat) = v / 128 := Int.shiftRight_eq_div_pow v 7

variable (value : BitVec 32)

theorem toInt_sshiftRight_seven :
    (value.sshiftRight 7).toInt = value.toInt / 128 := by
  rw [BitVec.toInt_sshiftRight, shiftRight_seven]

/-- The digits of a signed number end where what is left is the sign of the last one. -/
theorem last_signed_digit (v : Int) :
    (v / 128 = 0 ∧ (v % 128).toNat < 64) ∨ (v / 128 = -1 ∧ 64 ≤ (v % 128).toNat) ↔
      -64 ≤ v ∧ v < 64 := by
  lia

theorem toNat_and_seven : (value &&& 0x7f).toNat = value.toNat % 128 := by
  rw [BitVec.toNat_and]
  exact Nat.and_two_pow_sub_one_eq_mod value.toNat 7

theorem toNat_and_seven_toInt :
    (value &&& 0x7f).toNat = (value.toInt % 128).toNat := by
  rw [toNat_and_seven, BitVec.toInt_eq_toNat_bmod, Int.bmod]
  split <;> lia

/-- Bit 6 of a digit. -/
theorem and_sign {n : Nat} (h : n < 128) : n &&& 0x40 = 0 ↔ n < 64 :=
  (Leb128.and_two_pow_eq_zero n 6).trans (by lia)

/-- The continuation bit. -/
theorem or_continue {n : Nat} (h : n < 128) : n ||| 0x80 = n + 128 := by
  rw [Nat.lor_comm, Nat.add_comm]
  exact (Nat.two_pow_add_eq_or_of_lt (show n < 2 ^ 7 from h) 1).symm

/-- When the loop of `i32` ends. -/
theorem i32_last :
    (value.sshiftRight 7 = 0 ∧ value &&& 0x7f &&& 0x40 = 0) ∨
        (value.sshiftRight 7 = -1 ∧ value &&& 0x7f &&& 0x40 ≠ 0) ↔
      -64 ≤ value.toInt ∧ value.toInt < 64 := by
  have hdigit : (value.toInt % 128).toNat < 128 := by lia
  have hsign : value &&& 0x7f &&& 0x40 = 0 ↔ (value.toInt % 128).toNat < 64 := by
    rw [← BitVec.toNat_inj, BitVec.toNat_and, toNat_and_seven_toInt]
    exact and_sign hdigit
  have hzero : value.sshiftRight 7 = 0 ↔ value.toInt / 128 = 0 := by
    rw [← BitVec.toInt_inj, toInt_sshiftRight_seven]
    rfl
  have hneg : value.sshiftRight 7 = -1 ↔ value.toInt / 128 = -1 := by
    rw [← BitVec.toInt_inj, toInt_sshiftRight_seven]
    rfl
  rw [hzero, hneg, ne_eq, hsign, Nat.not_lt, last_signed_digit]

/-- When the loop of `i64` ends. -/
theorem i64_last (value : Int) :
    (value >>> (7 : Nat) = 0 ∧ (value % 128).toNat &&& 0x40 = 0) ∨
        (value >>> (7 : Nat) = -1 ∧ (value % 128).toNat &&& 0x40 ≠ 0) ↔
      -64 ≤ value ∧ value < 64 := by
  rw [shiftRight_seven, ne_eq, and_sign (by lia), Nat.not_lt, last_signed_digit]

theorem natAbs_div_lt {v : Int} (h : ¬ (-64 ≤ v ∧ v < 64)) : (v / 128).natAbs < v.natAbs := by
  omega

/-- The loop of `i32`. -/
def i32Digits (value : BitVec 32) (e : WasmEncoder) : WasmEncoder :=
  let b := value &&& 0x7f
  let value' := value.sshiftRight 7
  if (value' = 0 ∧ b &&& 0x40 = 0) ∨ (value' = -1 ∧ b &&& 0x40 ≠ 0) then e.byte b.toNat
  else i32Digits value' (e.byte (b ||| 0x80).toNat)
termination_by value.toInt.natAbs
decreasing_by
  rw [toInt_sshiftRight_seven]
  exact natAbs_div_lt ((i32_last value).not.mp ‹_›)

/-- Signed LEB128. -/
def i32 (e : WasmEncoder) (value : Int) : WasmEncoder := i32Digits (BitVec.ofInt 32 value) e

/-- The loop of `i64`. -/
def i64Digits (value : Int) (e : WasmEncoder) : WasmEncoder :=
  let b := (value % 128).toNat
  let value' := value >>> (7 : Nat)
  if (value' = 0 ∧ b &&& 0x40 = 0) ∨ (value' = -1 ∧ b &&& 0x40 ≠ 0) then e.byte b
  else i64Digits value' (e.byte (b ||| 0x80 : Nat))
termination_by value.natAbs
decreasing_by
  rw [shiftRight_seven]
  exact natAbs_div_lt ((i64_last value).not.mp ‹_›)

/-- Signed LEB128 of `BigInt.asIntN(64, value)`. -/
def i64 (e : WasmEncoder) (value : Int) : WasmEncoder := i64Digits (value.bmod (2 ^ 64)) e

/-- v128 constant. -/
def v128 (e : WasmEncoder) (bytes : List UInt8) : Except EncodeError WasmEncoder :=
  if bytes.length ≠ 16 then .error (.error "v128 must be exactly 16 bytes")
  else .ok (e.octets bytes)

/-- UTF-8 string with length prefix. -/
def name (e : WasmEncoder) (s : List UInt16) : Except EncodeError WasmEncoder := do
  let encoded := textEncode s
  let e ← e.u32 encoded.length
  return e.octets encoded

/-- Section: id + length-prefixed content. -/
def section_ (e : WasmEncoder) (id : Int) (content : WasmEncoder → Except EncodeError WasmEncoder) :
    Except EncodeError WasmEncoder := do
  let sub ← content new
  let data := sub.finish
  let e ← (e.byte id).u32 data.length
  return e.octets data

/-! ### What a call appends -/

variable (e : WasmEncoder)

@[simp] theorem length_finish : e.finish.length = e.len := length_take_of_le e.len_le

@[simp] theorem finish_ensure (extra : Nat) : (e.ensure extra).finish = e.finish := by
  unfold ensure
  dsimp only
  split
  · rfl
  · exact take_left' e.length_finish

@[simp] theorem finish_store (b : UInt8) (h : e.len < e.buf.length) :
    (e.store b h).finish = e.finish ++ [b] := by
  rw [finish, store, take_add_one, take_set_of_le .refl,
    getElem?_set_self h]
  rfl

@[simp] theorem finish_setBytes (bs : List UInt8) (h : e.len + bs.length ≤ e.buf.length) :
    (e.setBytes bs h).finish = e.finish ++ bs :=
  take_left' (by rw [length_append, length_finish, setBytes])

theorem finish_storeEach (bs : List Int) :
    ∀ (e : WasmEncoder) (h : e.len + bs.length ≤ e.buf.length),
      (e.storeEach bs h).finish = e.finish ++ bs.map lowByte := by
  induction bs with
  | nil => exact fun e _ => (append_nil _).symm
  | cons b bs ih =>
    intro e h
    rw [storeEach, ih, finish_store, append_assoc]
    rfl

@[simp] theorem finish_byte (b : Int) : (e.byte b).finish = e.finish ++ [lowByte b] := by
  unfold byte
  split <;> simp

@[simp] theorem finish_bytes (bs : List Int) :
    (e.bytes bs).finish = e.finish ++ bs.map lowByte := by
  rw [bytes, finish_storeEach, finish_ensure]

@[simp] theorem finish_octets (bs : List UInt8) : (e.octets bs).finish = e.finish ++ bs := by
  rw [octets, finish_setBytes, finish_ensure]

theorem lowByte_natCast (n : Nat) : lowByte n = n.toUInt8 := by
  have hmod : ((n : Int) % 256).toNat = n % 256 := by lia
  rw [lowByte, hmod]
  exact UInt8.toNat_inj.mp (Nat.mod_mod_of_dvd n (Nat.dvd_refl _))

theorem finish_u32Digits (e : WasmEncoder) :
    (u32Digits value e).finish = e.finish ++ Leb128.encode value.toNat := by
  have hrest (value : BitVec 32) : (value >>> 7).toNat = value.toNat / 128 := by
    rw [BitVec.toNat_ushiftRight, Nat.shiftRight_eq_div_pow]
  have hlast (value : BitVec 32) : value >>> 7 = 0 ↔ value.toNat < 128 := by
    rw [← BitVec.toNat_inj, hrest]
    exact Nat.div_eq_zero_iff_lt (by decide)
  fun_induction u32Digits value e with
  | case1 value e b value' hne ih =>
    have hlarge : 128 ≤ value.toNat := Nat.not_lt.mp ((hlast value).not.mp hne)
    have hdigit : value.toNat % 128 < 128 := Nat.mod_lt _ (by decide)
    rw [ih, finish_byte, lowByte_natCast, Leb128.encode_of_le hlarge, append_assoc, hrest,
      BitVec.toNat_or, toNat_and_seven]
    rw [show (0x80 : BitVec 32).toNat = 0x80 from rfl, or_continue hdigit]
    rfl
  | case2 value e b value' hzero =>
    have hsmall : value.toNat < 128 := (hlast value).mp (not_not.mp hzero)
    rw [finish_byte, lowByte_natCast, toNat_and_seven, Nat.mod_eq_of_lt hsmall,
      Leb128.encode_of_lt hsmall]

theorem finish_i32Digits (e : WasmEncoder) :
    (i32Digits value e).finish = e.finish ++ Leb128.encodeSigned value.toInt := by
  fun_induction i32Digits value e with
  | case1 value e b value' hlast =>
    rw [finish_byte, lowByte_natCast, toNat_and_seven_toInt,
      Leb128.encodeSigned_small ((i32_last value).mp hlast)]
  | case2 value e b value' hmore ih =>
    have hdigit : (value.toInt % 128).toNat < 128 := by lia
    rw [ih, finish_byte, lowByte_natCast, toInt_sshiftRight_seven, BitVec.toNat_or,
      toNat_and_seven_toInt, show (0x80 : BitVec 32).toNat = 0x80 from rfl, or_continue hdigit,
      Leb128.encodeSigned_large ((i32_last value).not.mp hmore), append_assoc]
    rfl

theorem finish_i64Digits (value : Int) (e : WasmEncoder) :
    (i64Digits value e).finish = e.finish ++ Leb128.encodeSigned value := by
  fun_induction i64Digits value e with
  | case1 value e b value' hlast =>
    rw [finish_byte, lowByte_natCast, Leb128.encodeSigned_small ((i64_last value).mp hlast)]
  | case2 value e b value' hmore ih =>
    have hdigit : (value % 128).toNat < 128 := by lia
    rw [ih, finish_byte, lowByte_natCast, show value' = value / 128 from shiftRight_seven value,
      show b ||| 0x80 = b + 128 from or_continue hdigit,
      Leb128.encodeSigned_large ((i64_last value).not.mp hmore), append_assoc]
    rfl

@[simp] theorem finish_i32 (value : Int) :
    (e.i32 value).finish = e.finish ++ Leb128.encodeSigned (value.bmod (2 ^ 32)) := by
  rw [i32, finish_i32Digits, BitVec.toInt_ofInt]

@[simp] theorem finish_i64 (value : Int) :
    (e.i64 value).finish = e.finish ++ Leb128.encodeSigned (value.bmod (2 ^ 64)) := by
  rw [i64, finish_i64Digits]

end WasmEncoder

/-! ### Trees of calls -/

/-- The calls made on an encoder; the content of a section is encoded apart. -/
inductive Call where
  | byte (b : Int)
  | bytes (bs : List Int)
  | octets (bs : List UInt8)
  | u32 (value : Int)
  | i32 (value : Int)
  | i64 (value : Int)
  | v128 (bytes : List UInt8)
  | name (s : List UInt16)
  | section_ (id : Int) (content : List Call)
  /-- Vector: u32 count + items. -/
  | vector (items : List Call)
  /-- The calls made for one item of a vector. -/
  | item (calls : List Call)

mutual

def Call.run : Call → WasmEncoder → Except EncodeError WasmEncoder
  | .byte b, e => .ok (e.byte b)
  | .bytes bs, e => .ok (e.bytes bs)
  | .octets bs, e => .ok (e.octets bs)
  | .u32 value, e => e.u32 value
  | .i32 value, e => .ok (e.i32 value)
  | .i64 value, e => .ok (e.i64 value)
  | .v128 bytes, e => e.v128 bytes
  | .name s, e => e.name s
  | .section_ id content, e => e.section_ id (runAll content)
  | .vector items, e => do runAll items (← e.u32 items.length)
  | .item calls, e => runAll calls e

def runAll : List Call → WasmEncoder → Except EncodeError WasmEncoder
  | [], e => .ok e
  | call :: calls, e => do runAll calls (← call.run e)

end

/-- The bytes of an unsigned number. -/
def u32Part (value : Int) : Except EncodeError (List UInt8) :=
  if value < 0 ∨ 0xffffffff < value then .error (.rangeError s!"u32 out of range: {value}")
  else .ok (Leb128.encode value.toNat)

/-- A length and the bytes it counts. -/
def sizedPart (data : List UInt8) : Except EncodeError (List UInt8) := do
  return (← u32Part data.length) ++ data

mutual

/-- What a call stands for. -/
def Call.part : Call → Except EncodeError (List UInt8)
  | .byte b => .ok [lowByte b]
  | .bytes bs => .ok (bs.map lowByte)
  | .octets bs => .ok bs
  | .u32 value => u32Part value
  | .i32 value => .ok (Leb128.encodeSigned (value.bmod (2 ^ 32)))
  | .i64 value => .ok (Leb128.encodeSigned (value.bmod (2 ^ 64)))
  | .v128 bytes =>
    if bytes.length ≠ 16 then .error (.error "v128 must be exactly 16 bytes") else .ok bytes
  | .name s => sizedPart (textEncode s)
  | .section_ id content => do
    let data ← parts content
    return lowByte id :: (← sizedPart data)
  | .vector items => do
    let count ← u32Part items.length
    return count ++ (← parts items)
  | .item calls => parts calls

/-- The concatenation of the parts. -/
def parts : List Call → Except EncodeError (List UInt8)
  | [] => .ok []
  | call :: calls => do
    let part ← call.part
    return part ++ (← parts calls)

end

/-- Whatever the buffer, `f` appends the bytes `p`, or fails as `p` does. -/
def Emits (f : WasmEncoder → Except EncodeError WasmEncoder)
    (p : Except EncodeError (List UInt8)) : Prop :=
  ∀ e, (f e).map WasmEncoder.finish = p.map (e.finish ++ ·)

namespace Emits

open WasmEncoder

variable {f g : WasmEncoder → Except EncodeError WasmEncoder}
  {p q : Except EncodeError (List UInt8)}

theorem ok {h : WasmEncoder → WasmEncoder} {bs : List UInt8}
    (hh : ∀ e, (h e).finish = e.finish ++ bs) : Emits (fun e => .ok (h e)) (.ok bs) :=
  fun e => congrArg Except.ok (hh e)

/-- One after the other. -/
theorem andThen (hf : Emits f p) (hg : Emits g q) :
    Emits (fun e => f e >>= g) (do let a ← p; return a ++ (← q)) := by
  intro e
  show (f e >>= g).map finish = _
  have he := hf e
  cases hp : p with
  | error x =>
    rw [hp] at he
    cases hfe : f e with
    | error y => rw [hfe] at he; exact he
    | ok e' => rw [hfe] at he; cases he
  | ok bs =>
    rw [hp] at he
    cases hfe : f e with
    | error y => rw [hfe] at he; cases he
    | ok e' =>
      rw [hfe] at he
      have hbs : e'.finish = e.finish ++ bs := Except.ok.inj he
      calc (g e').map finish = q.map (e'.finish ++ ·) := hg e'
        _ = _ := by
          rw [hbs]
          cases q with
          | error x => rfl
          | ok cs => exact congrArg Except.ok (append_assoc _ _ _)

theorem u32 (value : Int) : Emits (·.u32 value) (u32Part value) := by
  intro e
  show (e.u32 value).map finish = _
  rw [WasmEncoder.u32, u32Part]
  split
  · rfl
  · have hvalue : (BitVec.ofInt 32 value).toNat = value.toNat := by
      rw [BitVec.toNat_ofInt]
      lia
    exact congrArg Except.ok (by rw [finish_u32Digits, hvalue])

theorem u32_ok (e : WasmEncoder) {v : Nat} (hv : v < 2 ^ 32) :
    ∃ e', e.u32 v = .ok e' ∧ e'.finish = e.finish ++ Leb128.encode v := by
  have hpart : u32Part v = .ok (Leb128.encode v) := if_neg (by omega)
  have hemits : (e.u32 v).map finish = (u32Part v).map (e.finish ++ ·) := u32 v e
  rw [hpart] at hemits
  cases he : e.u32 v with
  | error x =>
    rw [he] at hemits
    cases hemits
  | ok e' =>
    rw [he] at hemits
    exact ⟨e', rfl, Except.ok.inj hemits⟩

theorem sized (data : List UInt8) :
    Emits (fun e => e.u32 data.length >>= fun e => .ok (e.octets data)) (sizedPart data) :=
  (u32 data.length).andThen (ok fun e => e.finish_octets data)

theorem v128 (bytes : List UInt8) : Emits (·.v128 bytes) (Call.v128 bytes).part := by
  intro e
  show (e.v128 bytes).map finish = _
  rw [WasmEncoder.v128, Call.part]
  split
  · rfl
  · exact congrArg Except.ok (e.finish_octets bytes)

/-- The content of a section is encoded in an empty buffer and copied. -/
theorem section_ (id : Int) (hf : Emits f p) :
    Emits (·.section_ id f) (do let data ← p; return lowByte id :: (← sizedPart data)) := by
  intro e
  have hnew := hf new
  show (e.section_ id f).map finish = _
  rw [WasmEncoder.section_]
  cases hp : p with
  | error x =>
    rw [hp] at hnew
    cases hfe : f new with
    | error y => rw [hfe] at hnew; exact hnew
    | ok sub => rw [hfe] at hnew; cases hnew
  | ok data =>
    rw [hp] at hnew
    cases hfe : f new with
    | error y => rw [hfe] at hnew; cases hnew
    | ok sub =>
      rw [hfe] at hnew
      have hsub : sub.finish = data := Except.ok.inj hnew
      have hid := ok (fun e => e.finish_byte id)
      exact hsub ▸ (hid.andThen (sized sub.finish)) e

end Emits

mutual

theorem Call.emits : ∀ call : Call, Emits call.run call.part
  | .byte b => .ok fun e => e.finish_byte b
  | .bytes bs => .ok fun e => e.finish_bytes bs
  | .octets bs => .ok fun e => e.finish_octets bs
  | .u32 value => .u32 value
  | .i32 value => .ok fun e => e.finish_i32 value
  | .i64 value => .ok fun e => e.finish_i64 value
  | .v128 bytes => .v128 bytes
  | .name s => .sized (textEncode s)
  | .section_ id content => .section_ id (emits_runAll content)
  | .vector items => .andThen (.u32 items.length) (emits_runAll items)
  | .item calls => emits_runAll calls

/-- **A tree of calls appends the concatenation of its parts.** -/
theorem emits_runAll : ∀ calls : List Call, Emits (runAll calls) (parts calls)
  | [] => fun _ => congrArg Except.ok (append_nil _).symm
  | call :: calls => .andThen call.emits (emits_runAll calls)

end

end Js2Wasm.Binary
