import Js2Wasm.Link.Linker

/-! # Which bodies the scanner reads in step

The linker's rewriter knows six opcodes and looks for them byte by byte.  Here a body is
what it is to WebAssembly: instructions of any extension, each an opcode with immediates,
and of those the function, global, memory, type and table indices apart from all other
bytes.  `relocate` is what linking owes such a body.

The bytes and the indices of a body, in order, are its pieces.  The scanner meets every
byte of an opcode, a constant, a label or a memory access alike, and expects indices after
six of them (`expects`).  `InStep` says that the indices it expects are those that are
there; `rewriteCode_exact` that this is exactly when the rewriter is right.
-/
namespace Js2Wasm.Link
open List

/-! ### Bodies -/

inductive IndexSpace where
  | func | global | memory | type | table
  deriving DecidableEq

/-- An immediate: an index, or other bytes (constants, labels, alignments, sub-opcodes). -/
inductive Immediate where
  | index (space : IndexSpace) (imm : LebImm)
  | bytes (bs : List UInt8)

structure WasmInstr where
  opcode : UInt8
  immediates : List Immediate

def Immediate.encode : Immediate → List UInt8
  | .index _ imm => imm.bytes
  | .bytes bs => bs

def WasmInstr.encode (i : WasmInstr) : List UInt8 :=
  i.opcode :: i.immediates.flatMap Immediate.encode

def encodeInstrs (body : List WasmInstr) : List UInt8 := body.flatMap WasmInstr.encode

/-- The linked index of an index: resolved if symbols say so, shifted otherwise. -/
def linkedIndex (env : RewriteEnv) : IndexSpace → Nat → Nat
  | .func, v => resolveIndex env .func v
  | .global, v => resolveIndex env .global v
  | .table, v => resolveIndex env .table v
  | .memory, v => v + env.off.memoryOffset
  | .type, v => v + env.off.typeOffset

def Immediate.relocate (env : RewriteEnv) : Immediate → Immediate
  | .index space imm => .index space (.append (linkedIndex env space imm.value))
  | .bytes bs => .bytes bs

/-- The instruction with its indices, and nothing else, shifted or resolved. -/
def WasmInstr.relocate (env : RewriteEnv) (i : WasmInstr) : WasmInstr :=
  ⟨i.opcode, i.immediates.map (Immediate.relocate env)⟩

/-! ### Pieces -/

inductive Piece where
  | byte (b : UInt8)
  | index (space : IndexSpace) (imm : LebImm)

def Piece.encode : Piece → List UInt8
  | .byte b => [b]
  | .index _ imm => imm.bytes

def Piece.relocate (env : RewriteEnv) : Piece → Piece
  | .byte b => .byte b
  | .index space imm => .index space (.append (linkedIndex env space imm.value))

def encodePieces (ps : List Piece) : List UInt8 := ps.flatMap Piece.encode

def Immediate.pieces : Immediate → List Piece
  | .index space imm => [.index space imm]
  | .bytes bs => bs.map .byte

/-- The bytes and indices of a body, in order. -/
def pieces (body : List WasmInstr) : List Piece :=
  body.flatMap fun i => .byte i.opcode :: i.immediates.flatMap Immediate.pieces

theorem encodePieces_immediate (imm : Immediate) : encodePieces imm.pieces = imm.encode := by
  cases imm with
  | index space imm => simp [encodePieces, Immediate.pieces, Piece.encode, Immediate.encode]
  | bytes bs =>
    induction bs with
    | nil => rfl
    | cons b bs ih =>
      simp only [Immediate.pieces, encodePieces, Immediate.encode] at ih ⊢
      rw [map_cons, flatMap_cons, ih]
      rfl

theorem encodePieces_pieces (body : List WasmInstr) :
    encodePieces (pieces body) = encodeInstrs body := by
  have himms : ∀ imms : List Immediate, encodePieces (imms.flatMap Immediate.pieces) =
      imms.flatMap Immediate.encode := by
    intro imms
    rw [encodePieces, flatMap_assoc]
    exact flatMap_congr fun imm _ => encodePieces_immediate imm
  rw [encodePieces, pieces, flatMap_assoc]
  refine flatMap_congr fun i _ => ?_
  rw [flatMap_cons]
  exact congrArg (i.opcode :: ·) (himms i.immediates)

variable (env : RewriteEnv)

theorem pieces_relocate (body : List WasmInstr) :
    pieces (body.map (WasmInstr.relocate env)) = (pieces body).map (Piece.relocate env) := by
  have himm : ∀ imm : Immediate, (imm.relocate env).pieces =
      imm.pieces.map (Piece.relocate env) := by
    intro imm
    cases imm with
    | index space imm => rfl
    | bytes bs => simp [Immediate.relocate, Immediate.pieces, Piece.relocate, Function.comp_def]
  rw [pieces, pieces, flatMap_map, map_flatMap]
  refine flatMap_congr fun i _ => ?_
  rw [map_cons, map_flatMap, WasmInstr.relocate, flatMap_map]
  exact congrArg (.byte i.opcode :: ·) (flatMap_congr fun imm _ => himm imm)

/-! ### The scanner -/

/-- The indices the scanner expects after a byte. -/
def expects (b : UInt8) : List IndexSpace :=
  if b = 0x10 then [.func]
  else if b = 0x23 ∨ b = 0x24 then [.global]
  else if b = 0x3f ∨ b = 0x40 then [.memory]
  else if b = 0x11 then [.type, .table]
  else []

/-- Where indices are expected, bytes are read as such, then the scan goes on. -/
def scanAfter (env : RewriteEnv) (fuel : Nat) : List IndexSpace → List UInt8 → List UInt8
  | [], bytes => rewriteFrom env fuel bytes
  | space :: spaces, bytes =>
    appendLEB128 (linkedIndex env space (Leb128.read bytes).1) ++
      scanAfter env fuel spaces (bytes.drop (Leb128.read bytes).2)

theorem rewriteFrom_cons (fuel : Nat) (b : UInt8) (rest : List UInt8) :
    rewriteFrom env (fuel + 1) (b :: rest) = b :: scanAfter env fuel (expects b) rest := by
  unfold expects
  rw [rewriteFrom]
  split_ifs <;> simp [scanAfter, linkedIndex]

/-- **The indices that are there are the ones expected.** -/
def InStep : List IndexSpace → List Piece → Prop
  | [], [] => True
  | [], .byte b :: rest => InStep (expects b) rest
  | [], .index _ _ :: _ => False
  | space :: spaces, .index space' _ :: rest => space = space' ∧ InStep spaces rest
  | _ :: _, _ => False

/-- In step, every index is rewritten and every other byte copied. -/
theorem scanAfter_of_inStep (ps : List Piece) :
    ∀ (spaces : List IndexSpace) (fuel : Nat), InStep spaces ps →
      (encodePieces ps).length ≤ fuel →
      scanAfter env fuel spaces (encodePieces ps) =
        encodePieces (ps.map (Piece.relocate env)) := by
  induction ps with
  | nil =>
    intro spaces fuel h _
    cases spaces with
    | nil => cases fuel <;> rfl
    | cons space spaces => exact h.elim
  | cons p ps ih =>
    intro spaces fuel h hfuel
    cases p with
    | byte b =>
      cases spaces with
      | cons space spaces => exact h.elim
      | nil =>
        have hcons : encodePieces (.byte b :: ps) = b :: encodePieces ps := rfl
        rw [hcons, length_cons] at hfuel
        obtain ⟨k, rfl⟩ : ∃ k, fuel = k + 1 := ⟨fuel - 1, by lia⟩
        rw [hcons, scanAfter, rewriteFrom_cons, ih (expects b) k h (by lia)]
        rfl
    | index space' imm =>
      cases spaces with
      | nil => exact h.elim
      | cons space spaces =>
        obtain ⟨rfl, h⟩ := h
        have hcons : encodePieces (.index space imm :: ps) = imm.bytes ++ encodePieces ps := rfl
        rw [hcons, length_append] at hfuel
        rw [hcons, scanAfter, imm.decodes, drop_left, ih spaces fuel h (by lia)]
        rfl

/-! ### Out of step -/

/-- Linking with offsets and no symbols. -/
def shiftOnly (off : ModuleOffsets) : RewriteEnv :=
  { objs := [], offsets := [off], resolution := ⟨[], []⟩, modIdx := 0, obj := { name := [] }, off := off }

/-- The offset `n` in one index space, none in the others. -/
def offsetIn (space : IndexSpace) (n : Nat) : ModuleOffsets where
  typeOffset := if space = .type then n else 0
  funcOffset := if space = .func then n else 0
  globalOffset := if space = .global then n else 0
  memoryOffset := if space = .memory then n else 0
  tableOffset := if space = .table then n else 0
  tagOffset := 0

theorem linkedIndex_shiftOnly (space space' : IndexSpace) (n v : Nat) :
    linkedIndex (shiftOnly (offsetIn space n)) space' v = v + if space = space' then n else 0 := by
  cases space <;> cases space' <;> rfl

/-- The first byte written for an index shows its lowest digit. -/
theorem appendLEB128_head (v : Nat) :
    ∃ b bs, appendLEB128 v = b :: bs ∧ b.toNat % 128 = v % 128 := by
  have hmod : v % 2 ^ 32 % 128 = v % 128 := Nat.mod_mod_of_dvd v (by decide)
  by_cases h : v % 2 ^ 32 < 128
  · refine ⟨(v % 2 ^ 32).toUInt8, [], by rw [appendLEB128, Leb128.encode, Leb128.encodeDigits_of_lt h], ?_⟩
    rw [Leb128.toUInt8_toNat (by lia), hmod]
  · refine ⟨_, _, by rw [appendLEB128, Leb128.encode, Leb128.encodeDigits_of_le (Nat.not_lt.mp h)], ?_⟩
    rw [Leb128.toUInt8_toNat (by lia)]
    lia

/-- Indices that differ in their lowest digit are written differently. -/
theorem appendLEB128_ne {v w : Nat} (h : v % 128 ≠ w % 128) (xs ys : List UInt8) :
    appendLEB128 v ++ xs ≠ appendLEB128 w ++ ys := by
  obtain ⟨b, bs, hb, hbv⟩ := appendLEB128_head v
  obtain ⟨c, cs, hc, hcw⟩ := appendLEB128_head w
  rw [hb, hc]
  intro he
  obtain rfl : b = c := (List.cons.inj he).1
  lia

/-- No byte begins both an index and its successor. -/
theorem appendLEB128_not_const {b : UInt8} {v : Nat} {xs ys xs' ys' : List UInt8}
    (h0 : b :: xs = appendLEB128 v ++ ys) (h1 : b :: xs' = appendLEB128 (v + 1) ++ ys') : False := by
  obtain ⟨c, cs, hc, hcv⟩ := appendLEB128_head v
  obtain ⟨d, ds, hd, hdv⟩ := appendLEB128_head (v + 1)
  rw [hc] at h0
  rw [hd] at h1
  obtain rfl : b = c := (List.cons.inj h0).1
  obtain rfl : b = d := (List.cons.inj h1).1
  lia

theorem LebImm.exists_cons (imm : LebImm) : ∃ b bs, imm.bytes = b :: bs := by
  cases h : imm.bytes with
  | cons b bs => exact ⟨b, bs, rfl⟩
  | nil =>
    have hread := imm.decodes []
    rw [h] at hread
    simp [Leb128.read, Leb128.readDigits] at hread

/-- A scan that is right under every offset is in step. -/
theorem inStep_of_scanAfter (ps : List Piece) :
    ∀ (spaces : List IndexSpace) (fuel : Nat), (encodePieces ps).length ≤ fuel →
      (∀ space n, scanAfter (shiftOnly (offsetIn space n)) fuel spaces (encodePieces ps) =
        encodePieces (ps.map (Piece.relocate (shiftOnly (offsetIn space n))))) →
      InStep spaces ps := by
  induction ps with
  | nil =>
    intro spaces fuel _ h
    cases spaces with
    | nil => trivial
    | cons space spaces =>
      -- an index is written where there is none
      have h0 := h space 0
      obtain ⟨b, bs, hb, -⟩ := appendLEB128_head
        (linkedIndex (shiftOnly (offsetIn space 0)) space (Leb128.read []).1)
      rw [show encodePieces [] = [] from rfl, scanAfter, hb] at h0
      cases h0
  | cons p ps ih =>
    intro spaces fuel hfuel h
    cases p with
    | byte b =>
      have hcons : ∀ rest, encodePieces (.byte b :: rest) = b :: encodePieces rest := fun _ => rfl
      simp only [map_cons, Piece.relocate, hcons] at h hfuel
      rw [length_cons] at hfuel
      cases spaces with
      | nil =>
        obtain ⟨k, rfl⟩ : ∃ k, fuel = k + 1 := ⟨fuel - 1, by lia⟩
        refine ih (expects b) k (by lia) fun space n => ?_
        have hn := h space n
        rw [scanAfter, rewriteFrom_cons] at hn
        exact (List.cons.inj hn).2
      | cons space spaces =>
        -- the byte stays, the index written for it moves with the offset
        have h0 := h space 0
        have h1 := h space 1
        simp only [scanAfter, linkedIndex_shiftOnly, if_true] at h0 h1
        exact appendLEB128_not_const h0.symm h1.symm
    | index space' imm =>
      have hcons : ∀ space' imm rest, encodePieces (.index space' imm :: rest) =
          imm.bytes ++ encodePieces rest := fun _ _ _ => rfl
      simp only [map_cons, Piece.relocate, hcons, LebImm.append, linkedIndex_shiftOnly] at h
      rw [hcons, length_append] at hfuel
      obtain ⟨b, bs, hb⟩ := imm.exists_cons
      cases spaces with
      | nil =>
        -- the first byte of the index is copied
        have h0 := h space' 0
        have h1 := h space' 1
        rw [hb, length_cons] at hfuel
        obtain ⟨k, rfl⟩ : ∃ k, fuel = k + 1 := ⟨fuel - 1, by lia⟩
        simp only [hb, cons_append, scanAfter, rewriteFrom_cons, if_true] at h0 h1
        exact appendLEB128_not_const h0 h1
      | cons space spaces =>
        have hread : ∀ n sp, scanAfter (shiftOnly (offsetIn sp n)) fuel (space :: spaces)
            (imm.bytes ++ encodePieces ps) =
            appendLEB128 (imm.value + if sp = space then n else 0) ++
              scanAfter (shiftOnly (offsetIn sp n)) fuel spaces (encodePieces ps) := by
          intro n sp
          rw [scanAfter, imm.decodes, drop_left, linkedIndex_shiftOnly]
        by_cases hs : space = space'
        · subst hs
          refine ⟨rfl, ih spaces fuel (by lia) fun sp n => ?_⟩
          have hn := h sp n
          rw [hread] at hn
          exact append_cancel_left hn
        · -- the index moves with the offset of another space
          have h1 := h space 1
          rw [hread, if_pos rfl, if_neg hs] at h1
          exact (appendLEB128_ne (by lia) _ _ h1).elim

/-! ### The result -/

/-- **The rewriter is right on a body, whatever the offsets and symbols, if and only if the
scanner reads the body in step.** -/
theorem rewriteCode_exact (body : List WasmInstr) :
    (∀ env : RewriteEnv, rewriteCode env (encodeInstrs body) =
      encodeInstrs (body.map (WasmInstr.relocate env))) ↔ InStep [] (pieces body) := by
  simp only [← encodePieces_pieces, pieces_relocate]
  constructor
  · exact fun h => inStep_of_scanAfter (pieces body) [] _ .refl fun space n => h _
  · exact fun h env => scanAfter_of_inStep env (pieces body) [] _ h .refl

/-- `i32.const 16; drop; end`: the constant's byte is taken for a call of function 26, and
the `drop` becomes a `select`. -/
theorem rewriteCode_const_misread :
    encodeInstrs [⟨0x41, [.bytes [0x10]]⟩, ⟨0x1a, []⟩, ⟨0x0b, []⟩] = [0x41, 0x10, 0x1a, 0x0b] ∧
    encodeInstrs ([⟨0x41, [.bytes [0x10]]⟩, ⟨0x1a, []⟩, ⟨0x0b, []⟩].map
      (WasmInstr.relocate (shiftOnly (offsetIn .func 1)))) = [0x41, 0x10, 0x1a, 0x0b] ∧
    rewriteCode (shiftOnly (offsetIn .func 1)) [0x41, 0x10, 0x1a, 0x0b] =
      [0x41, 0x10, 0x1b, 0x0b] := by
  decide

end Js2Wasm.Link
