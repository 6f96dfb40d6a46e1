import Js2Wasm.Interp.Encoder
import Mathlib.Data.List.Induction
import Mathlib.Data.List.Basic

/-! # Encoding and decoding

What a sequence of encoder calls asks for is a list of instructions whose jump targets are
filled in later (`planOf`).  Both decoders read exactly this list back if and only if no
word besides the targets concerned equals a marker when the marker is replaced
(`encoder_faithful_iff`).
-/
namespace Js2Wasm.Interp
open List Option

/-! ### Planned instructions -/

/-- How the target of a jump is going to be filled in. -/
inductive Deferred where
  | fixed
  | slot
  | marker (m : Int)
  deriving DecidableEq

/-- An instruction as its caller asked for it. -/
inductive Planned where
  | simple (op : Nat)
  | reg (op r : Nat)
  | regReg (op a b : Nat)
  | const (op cIdx : Nat)
  | constReg (op cIdx r : Nat)
  | call (op rBase argc : Nat)
  | builtin (builtinId rBase argc : Nat)
  | jump (op : Nat) (target : Int) (deferred : Deferred)
  deriving DecidableEq

namespace Planned

def op : Planned → Nat
  | simple op | reg op _ | regReg op _ _ | const op _ | constReg op _ _ | call op _ _
  | jump op _ _ => op
  | builtin _ _ _ => Op.CallBuiltin

def form : Planned → OperandForm
  | simple _ => .None
  | reg _ _ => .RegA
  | regReg _ _ _ => .RegAB
  | const _ _ => .ConstA
  | constReg _ _ _ => .ConstAregB
  | call _ _ _ => .RegAcountB
  | builtin _ _ _ => .Builtin
  | jump _ _ _ => .Target

/-- The primary operand. -/
def a : Planned → Int
  | simple _ => 0
  | reg _ a | regReg _ a _ | const _ a | constReg _ a _ | call _ a _ | builtin a _ _ => a
  | jump _ target _ => target

/-- The secondary operand, or -1. -/
def b : Planned → Int
  | regReg _ _ b | constReg _ _ b | call _ _ b | builtin _ b _ => b
  | _ => -1

/-- The argument count of a builtin call, or -1. -/
def argc : Planned → Int
  | builtin _ _ argc => argc
  | _ => -1

def deferred : Planned → Deferred
  | jump _ _ deferred => deferred
  | _ => .fixed

/-- The words of an instruction. -/
def words : Planned → List Int
  | simple op => [packWord op 0 0]
  | reg op r => [packWord op r 0]
  | regReg op a b | call op a b => [packWord op a b]
  | const op cIdx =>
    if fitsOperand cIdx then [packWord op cIdx 0] else [packWord (op ||| WIDE_FLAG) 0 0, cIdx]
  | constReg op cIdx r =>
    if fitsOperand cIdx then [packWord op cIdx r] else [packWord (op ||| WIDE_FLAG) 0 r, cIdx]
  | builtin builtinId rBase argc => [packWord Op.CallBuiltin builtinId rBase, argc]
  | jump op target _ => [packWord (op ||| WIDE_FLAG) 0 0, target]

/-- Registers, counts and builtin ids below 4096. -/
def Packed : Planned → Prop
  | reg _ r | constReg _ _ r => r < 4096
  | regReg _ a b | call _ a b | builtin a b _ => a < 4096 ∧ b < 4096
  | _ => True

/-- The opcode has the operand form with which it is used, and the operands fit. -/
def Ok (p : Planned) : Prop := (OP_INFO[p.op]?).map OpInfo.form = some p.form ∧ p.Packed

/-- A jump whose target is a marker that has not been replaced holds the marker. -/
def Holds (p : Planned) : Prop := ∀ m, p.deferred = .marker m → p.a = m

/-- The jump with its target. -/
def resolve (target : Int) : Planned → Planned
  | jump op _ _ => jump op target .fixed
  | p => p

/-- The jump with its target, which may be patched again. -/
def repatch (target : Int) : Planned → Planned
  | jump op _ deferred => jump op target deferred
  | p => p

/-- What decoding the instruction gives. -/
def decoded (pc : Nat) (p : Planned) : DecodedInstr where
  pc := pc
  op := p.op
  name := ((OP_INFO[p.op]?).map OpInfo.name).getD ""
  form := some p.form
  a := some p.a
  b := p.b
  argc := some p.argc
  next := pc + p.words.length

end Planned

/-- The words of several instructions. -/
def allWords (plan : List Planned) : List Int := plan.flatMap Planned.words

/-- What decoding several instructions gives. -/
def decodedFrom : Nat → List Planned → List DecodedInstr
  | _, [] => []
  | pc, p :: plan => p.decoded pc :: decodedFrom (pc + p.words.length) plan

/-- The indices of the target words that are filled in as given. -/
def deferredWords (deferred : Deferred) : Nat → List Planned → List Nat
  | _, [] => []
  | pc, p :: plan => (if p.deferred = deferred then [pc + 1] else []) ++
    deferredWords deferred (pc + p.words.length) plan

/-! ### What the calls ask for -/

/-- The instruction that a call emits. -/
def EncoderCall.emitted : EncoderCall → Option Planned
  | .emit0 op => some (.simple op)
  | .emitReg op r => some (.reg op r)
  | .emitRegReg op a b => some (.regReg op a b)
  | .emitConst op cIdx => some (.const op cIdx)
  | .emitConstReg op cIdx r => some (.constReg op cIdx r)
  | .emitCall op rBase argc => some (.call op rBase argc)
  | .emitCallBuiltin builtinId rBase argc => some (.builtin builtinId rBase argc)
  | .emitJump op => some (.jump op 0 .slot)
  | .emitJumpTo op target => some (.jump op target .fixed)
  | .emitJumpMarker op marker => some (.jump op marker (.marker marker))
  | .patch _ _ | .patchTargetMarker _ _ => none

/-- The plan with the target of the jump that has the slot. -/
def patchSlot (slot : Nat) (target : Int) : Nat → List Planned → List Planned
  | _, [] => []
  | pc, p :: plan =>
    (if p.deferred = .slot ∧ pc + 1 = slot then p.repatch target else p) ::
      patchSlot slot target (pc + p.words.length) plan

/-- The plan with the targets of the jumps that hold the marker. -/
def patchMarker (marker target : Int) (plan : List Planned) : List Planned :=
  plan.map fun p => if p.deferred = .marker marker then p.resolve target else p

/-- What a call makes of the plan. -/
def EncoderCall.step (plan : List Planned) (call : EncoderCall) : List Planned :=
  match call with
  | .patch slot target => patchSlot slot target 0 plan
  | .patchTargetMarker marker target => patchMarker marker target plan
  | call => plan ++ call.emitted.toList

/-- What a sequence of calls asks for. -/
def planOf (calls : List EncoderCall) : List Planned := calls.foldl EncoderCall.step []

/-- The words that a patch is about. -/
def EncoderCall.concerned (plan : List Planned) : EncoderCall → List Nat
  | .patch slot _ => [slot]
  | .patchTargetMarker marker _ => deferredWords (.marker marker) 0 plan
  | _ => []

/-- A call that may be made: an emitted instruction fits, and a patched slot is one that
`emitJump` returned. -/
def EncoderCall.Allowed (plan : List Planned) : EncoderCall → Prop
  | .patch slot _ => slot ∈ deferredWords .slot 0 plan
  | call => ∀ p ∈ call.emitted, p.Ok

/-- A sequence of calls that may be made. -/
def Allowed (calls : List EncoderCall) : Prop :=
  ∀ pre call post, calls = pre ++ call :: post → call.Allowed (planOf pre)

/-- The two decoders agree on an instruction. -/
def Agrees (code : List Int) (d : DecodedInstr) : Prop :=
  ∃ s, dispatchNext code d.pc = .ok s ∧ s.op = d.op ∧ s.a = d.a ∧ (d.b ≠ -1 → s.b = d.b) ∧
    s.argc = d.argc ∧ s.pc = d.next

/-- Both decoders read back what the calls ask for, and patches change nothing else. -/
structure Faithful (calls : List EncoderCall) : Prop where
  decodes : ∃ enc, runCalls ⟨[]⟩ calls = .ok enc ∧
    decodeAll enc.code = (decodedFrom 0 (planOf calls), enc.code.length) ∧
    ∀ d ∈ (decodeAll enc.code).1, Agrees enc.code d
  patches : ∀ pre call post enc enc', calls = pre ++ call :: post → call.emitted = none →
    runCalls ⟨[]⟩ pre = .ok enc → call.run enc = .ok enc' →
    ∀ i, enc'.code[i]? ≠ enc.code[i]? → i ∈ call.concerned (planOf pre)

/-- Whenever a marker is replaced, no other word equals it. -/
def MarkersApart (calls : List EncoderCall) : Prop :=
  ∀ pre marker target post enc, calls = pre ++ .patchTargetMarker marker target :: post →
    runCalls ⟨[]⟩ pre = .ok enc → marker ≠ target →
    ∀ i, enc.code[i]? = some marker → i ∈ deferredWords (.marker marker) 0 (planOf pre)

/-! ### Decoding -/

section Decode

variable {p : Planned} {pre post : List Int}

theorem Planned.Ok.info (h : p.Ok) : ∃ info, OP_INFO[p.op]? = some info ∧ info.form = p.form := by
  obtain ⟨info, hinfo, hform⟩ := map_eq_some_iff.mp h.1
  exact ⟨info, hinfo, hform⟩

theorem Planned.Ok.lt (h : p.Ok) : p.op < 49 := by
  obtain ⟨info, hinfo, -⟩ := h.info
  exact (List.getElem?_eq_some_iff.mp hinfo).1

/-- Does the base word carry a second operand? -/
def OperandForm.hasB : OperandForm → Bool
  | .RegAB | .RegAcountB | .ConstAregB | .Builtin => true
  | _ => false

/-- How the words of an instruction are laid out. -/
inductive Planned.Layout (p : Planned) : Prop where
  | packed (a b : Nat) : p.form ≠ .Target → p.form ≠ .Builtin → a < 4096 → b < 4096 →
    p.words = [(packWord p.op a b : Int)] → p.a = a → (p.form.hasB → p.b = b) → p.argc = -1 →
    p.Layout
  | wide (b : Nat) : p.form = .ConstA ∨ p.form = .ConstAregB ∨ p.form = .Target → b < 4096 →
    p.words = [(packWord (p.op ||| WIDE_FLAG) 0 b : Int), p.a] → (p.form.hasB → p.b = b) →
    p.argc = -1 → p.Layout
  | trailing (a b : Nat) : p.form = .Builtin → a < 4096 → b < 4096 →
    p.words = [(packWord p.op a b : Int), p.argc] → p.a = a → p.b = b → p.Layout

theorem Planned.b_eq (p : Planned) (h : p.form.hasB = false) : p.b = -1 := by
  cases p <;> first | rfl | cases h

theorem fitsOperand_iff {v : Nat} : fitsOperand v = true ↔ v < 4096 := by
  rw [fitsOperand, OPERAND_MASK, decide_eq_true_eq]
  lia

theorem Planned.Packed.layout (h : p.Packed) : p.Layout := by
  have hzero : 0 < 4096 := by decide
  cases p with
  | simple op => exact .packed 0 0 nofun nofun hzero hzero rfl rfl nofun rfl
  | reg op r => exact .packed r 0 nofun nofun h hzero rfl rfl nofun rfl
  | regReg op a b | call op a b => exact .packed a b nofun nofun h.1 h.2 rfl rfl (fun _ => rfl) rfl
  | const op cIdx =>
    by_cases hfits : fitsOperand cIdx = true
    · exact .packed cIdx 0 nofun nofun (fitsOperand_iff.mp hfits) hzero (if_pos hfits) rfl nofun rfl
    · exact .wide 0 (.inl rfl) hzero (if_neg hfits) nofun rfl
  | constReg op cIdx r =>
    by_cases hfits : fitsOperand cIdx = true
    · exact .packed cIdx r nofun nofun (fitsOperand_iff.mp hfits) h (if_pos hfits) rfl
        (fun _ => rfl) rfl
    · exact .wide r (.inr (.inl rfl)) h (if_neg hfits) (fun _ => rfl) rfl
  | builtin a b argc => exact .trailing a b rfl h.1 h.2 rfl rfl rfl
  | jump op target deferred => exact .wide 0 (.inr (.inr rfl)) hzero rfl nofun rfl

theorem getElem?_first (pre ws post : List Int) (w : Int) :
    (pre ++ (w :: ws ++ post))[pre.length]? = some w := by
  simp

theorem getElem?_second (pre post : List Int) (w v : Int) :
    (pre ++ ([w, v] ++ post))[pre.length + 1]? = some v := by
  simp

/-- **An instruction is read back from its words.** -/
theorem decodeInstr_words (h : p.Ok) :
    decodeInstr (pre ++ (p.words ++ post)) pre.length = p.decoded pre.length := by
  obtain ⟨⟨name, form⟩, hinfo, rfl⟩ := h.info
  have hop : p.op < 128 := h.lt.trans (by decide)
  have hb := p.b_eq
  have hdecoded : p.decoded pre.length = ⟨pre.length, p.op, name, some p.form, some p.a, p.b,
      some p.argc, pre.length + p.words.length⟩ := by
    rw [Planned.decoded, hinfo]
    rfl
  rw [hdecoded]
  cases h.2.layout with
  | packed a b ht hbi ha' hb' hwords ha hb'' hargc =>
    obtain ⟨h1, h2, h3, h4⟩ := word_packWord hop ha' hb'
    rw [hwords, ha, hargc]
    simp only [decodeInstr, getElem?_first pre [], getD_some, h1, h2, h3, h4, hinfo]
    cases hform : p.form <;> simp_all [OperandForm.hasB]
  | wide b hform hb' hwords hb'' hargc =>
    obtain ⟨h1, h2, -, h4⟩ := word_packWord_wide hop (by decide : 0 < 4096) hb'
    rw [hwords, hargc]
    simp only [decodeInstr, getElem?_first pre [p.a], getElem?_second, getD_some, h1, h2, h4,
      hinfo]
    rcases hform with hform | hform | hform <;> simp_all [OperandForm.hasB]
  | trailing a b hform ha' hb' hwords ha hb'' =>
    obtain ⟨h1, h2, h3, h4⟩ := word_packWord hop ha' hb'
    rw [hwords, ha, hb'']
    simp only [decodeInstr, getElem?_first pre [p.argc], getElem?_second, getD_some, h1, h3,
      h4, hinfo]
    simp_all

/-- Every opcode is dispatched, and only CallBuiltin has a trailing count. -/
theorem dispatchGroup_isSome : ∀ op < 49, (dispatchGroup op).isSome ∧
    (op = Op.CallBuiltin ↔ (OP_INFO[op]?).map OpInfo.form = some .Builtin) := by
  decide +kernel

/-- **The dispatch loop reads the same.** -/
theorem agrees_words (h : p.Ok) : Agrees (pre ++ (p.words ++ post)) (p.decoded pre.length) := by
  have hop : p.op < 128 := h.lt.trans (by decide)
  have hb := p.b_eq
  obtain ⟨hgroup, hbuiltin⟩ := dispatchGroup_isSome p.op h.lt
  obtain ⟨group, hgroup⟩ := isSome_iff_exists.mp hgroup
  rw [h.1] at hbuiltin
  cases h.2.layout with
  | packed a b ht hbi ha' hb' hwords ha hb'' hargc =>
    obtain ⟨h1, h2, h3, h4⟩ := word_packWord hop ha' hb'
    refine ⟨⟨group, p.op, some a, b, some (-1), pre.length + 1⟩, ?_, rfl, ?_, fun hne => ?_, ?_, ?_⟩
    · rw [hwords]
      simp only [dispatchNext, Planned.decoded, getElem?_first pre [], getD_some, h1, h2, h3,
        h4, hgroup]
      simp [hbuiltin, hbi]
    · rw [Planned.decoded, ha]
    · cases hform : p.form.hasB with
      | true => exact (hb'' hform).symm
      | false => exact absurd (hb hform) hne
    · rw [Planned.decoded, hargc]
    · rw [Planned.decoded, hwords]
      rfl
  | wide b hform hb' hwords hb'' hargc =>
    obtain ⟨h1, h2, -, h4⟩ := word_packWord_wide hop (by decide : 0 < 4096) hb'
    have hne : p.form ≠ .Builtin := by
      rcases hform with hform | hform | hform <;> rw [hform] <;> nofun
    refine ⟨⟨group, p.op, some p.a, b, some (-1), pre.length + 2⟩, ?_, rfl, rfl, fun hneb => ?_, ?_, ?_⟩
    · rw [hwords]
      simp only [dispatchNext, Planned.decoded, getElem?_first pre [p.a], getElem?_second,
        getD_some, h1, h2, h4, hgroup]
      simp [hbuiltin, hne]
    · cases hform : p.form.hasB with
      | true => exact (hb'' hform).symm
      | false => exact absurd (hb hform) hneb
    · rw [Planned.decoded, hargc]
    · rw [Planned.decoded, hwords]
      rfl
  | trailing a b hform ha' hb' hwords ha hb'' =>
    obtain ⟨h1, h2, h3, h4⟩ := word_packWord hop ha' hb'
    refine ⟨⟨group, p.op, some a, b, some p.argc, pre.length + 2⟩, ?_, rfl, ?_, fun _ => hb''.symm,
      rfl, ?_⟩
    · rw [hwords]
      simp only [dispatchNext, Planned.decoded, getElem?_first pre [p.argc], getD_some, h1, h2,
        h3, h4, hgroup]
      simp [hbuiltin, hform]
    · rw [Planned.decoded, ha]
    · rw [Planned.decoded, hwords]
      rfl

end Decode

/-! ### Decoding a whole stream -/

section DecodeAll

variable {plan : List Planned} {pre : List Int}

theorem words_length_pos (p : Planned) : 0 < p.words.length := by
  cases p with
  | const | constReg => simp only [Planned.words]; split <;> simp
  | _ => simp [Planned.words]

@[simp] theorem allWords_cons (p : Planned) (plan : List Planned) :
    allWords (p :: plan) = p.words ++ allWords plan := rfl

theorem allWords_append (plan plan' : List Planned) :
    allWords (plan ++ plan') = allWords plan ++ allWords plan' := flatMap_append

/-- Decoding from the end of a prefix gives the instructions behind it. -/
theorem decodeFrom_words (hok : ∀ p ∈ plan, p.Ok) {rounds : Nat}
    (hrounds : (allWords plan).length ≤ rounds) :
    decodeFrom (pre ++ allWords plan) rounds pre.length =
      (decodedFrom pre.length plan, (pre ++ allWords plan).length) := by
  induction plan generalizing pre rounds with
  | nil => cases rounds <;> simp [decodeFrom, decodedFrom, allWords]
  | cons p plan ih =>
    have hpos := words_length_pos p
    rw [allWords_cons, length_append] at hrounds
    obtain ⟨rounds, rfl⟩ : ∃ n, rounds = n + 1 := ⟨rounds - 1, by lia⟩
    have hlt : ¬(pre ++ allWords (p :: plan)).length ≤ pre.length := by
      rw [allWords_cons, length_append, length_append]
      lia
    have hrest := @ih (pre ++ p.words) (fun q hq => hok q (mem_cons_of_mem p hq))
      rounds (by lia)
    rw [append_assoc, length_append] at hrest
    rw [decodeFrom, if_neg hlt, allWords_cons, decodeInstr_words (hok p mem_cons_self)]
    simp only [Planned.decoded, decodedFrom, hrest]

/-- The decoders agree on every instruction behind a prefix. -/
theorem agrees_decodedFrom (hok : ∀ p ∈ plan, p.Ok) :
    ∀ d ∈ decodedFrom pre.length plan, Agrees (pre ++ allWords plan) d := by
  induction plan generalizing pre with
  | nil => simp [decodedFrom]
  | cons p plan ih =>
    intro d hd
    rw [allWords_cons]
    rcases mem_cons.mp hd with rfl | hd
    · exact agrees_words (hok p mem_cons_self)
    · have hrest := @ih (pre ++ p.words) (fun q hq => hok q (mem_cons_of_mem p hq)) d
      rw [append_assoc, length_append] at hrest
      exact hrest hd

end DecodeAll

/-! ### Patches -/

section Patch

variable {plan : List Planned} {pc slot : Nat} {marker target : Int}

theorem deferredWords_gt {deferred : Deferred} {i : Nat} (h : i ∈ deferredWords deferred pc plan) :
    pc < i := by
  induction plan generalizing pc with
  | nil => cases h
  | cons p plan ih =>
    rcases mem_append.mp h with h | h
    · split at h
      · rw [mem_singleton.mp h]
        exact Nat.lt_succ_self pc
      · cases h
    · exact (Nat.le_add_right _ _).trans_lt (ih h)

/-- A deferred target belongs to a jump. -/
theorem Planned.jump_of_deferred {p : Planned} (h : p.deferred ≠ .fixed) :
    ∃ op target deferred, p = .jump op target deferred := by
  cases p with
  | jump op target deferred => exact ⟨op, target, deferred, rfl⟩
  | _ => exact absurd rfl h

/-- Patching a slot sets the target of its jump. -/
theorem set_words (h : slot ∈ deferredWords .slot pc plan) :
    (allWords plan).set (slot - pc) target = allWords (patchSlot slot target pc plan) := by
  induction plan generalizing pc with
  | nil => cases h
  | cons p plan ih =>
    rw [patchSlot, allWords_cons, allWords_cons]
    by_cases hp : p.deferred = .slot ∧ pc + 1 = slot
    · obtain ⟨hd, rfl⟩ := hp
      obtain ⟨op, t, deferred, rfl⟩ := Planned.jump_of_deferred (p := p) (by rw [hd]; nofun)
      have hrest : ∀ (plan : List Planned) (k : Nat), pc + 1 ≤ k →
          patchSlot (pc + 1) target k plan = plan := by
        intro plan
        induction plan with
        | nil => exact fun _ _ => rfl
        | cons q plan ih =>
          intro k hk
          rw [patchSlot, ih _ (by lia), if_neg (by lia)]
      rw [if_pos ⟨hd, rfl⟩, hrest plan _ (by simp [Planned.words])]
      simp [Planned.words, Planned.repatch]
    · rw [if_neg hp]
      have hmem : slot ∈ deferredWords .slot (pc + p.words.length) plan := by
        rcases mem_append.mp h with h | h
        · split at h
          · rename_i hd
            exact absurd ⟨hd, (mem_singleton.mp h).symm⟩ hp
          · cases h
        · exact h
      have hgt := deferredWords_gt hmem
      rw [set_append_right _ _ (by lia), ← ih hmem]
      congr 2
      lia

/-- Replacing a marker that no other word equals sets the targets of its jumps. -/
theorem map_words (hholds : ∀ p ∈ plan, p.Holds)
    (h : ∀ i, (allWords plan)[i]? = some marker → pc + i ∈ deferredWords (.marker marker) pc plan) :
    (allWords plan).map (fun word => if word = marker then target else word) =
      allWords (patchMarker marker target plan) := by
  induction plan generalizing pc with
  | nil => rfl
  | cons p plan ih =>
    have htail : ∀ i, (allWords plan)[i]? = some marker →
        pc + p.words.length + i ∈ deferredWords (.marker marker) (pc + p.words.length) plan := by
      intro i hi
      have hmem := h (p.words.length + i) <| by
        rw [allWords_cons, getElem?_append_right (Nat.le_add_right _ _),
          Nat.add_sub_cancel_left, hi]
      rcases mem_append.mp hmem with hmem | hmem
      · split at hmem
        · -- the marker itself is the second word of its jump, not one of the words behind
          rename_i hd
          obtain ⟨op, t, deferred, rfl⟩ := Planned.jump_of_deferred (p := p) (by rw [hd]; nofun)
          have := mem_singleton.mp hmem
          simp only [Planned.words, length_cons, length_nil] at this
          lia
        · cases hmem
      · rwa [← Nat.add_assoc] at hmem
    have hhead : p.words.map (fun word => if word = marker then target else word) =
        (if p.deferred = .marker marker then p.resolve target else p).words := by
      have hfirst : ∀ i, i < p.words.length → p.words[i]? = some marker →
          p.deferred = .marker marker ∧ i = 1 := by
        intro i hi hget
        have hmem := h i (by rw [allWords_cons, getElem?_append_left hi, hget])
        rcases mem_append.mp hmem with hmem | hmem
        · split at hmem
          · rename_i hd
            exact ⟨hd, by have := mem_singleton.mp hmem; lia⟩
          · cases hmem
        · have := deferredWords_gt hmem
          lia
      by_cases hd : p.deferred = .marker marker
      · have hm := hholds p mem_cons_self marker hd
        obtain ⟨op, t, deferred, rfl⟩ := Planned.jump_of_deferred (p := p) (by rw [hd]; nofun)
        cases hm
        have hne : ¬((packWord (op ||| WIDE_FLAG) 0 0 : Int) = t) := fun heq => by
          have := (hfirst 0 (by simp [Planned.words]) (by simp [Planned.words, Planned.a, heq])).2
          lia
        rw [if_pos hd]
        simp [Planned.words, Planned.resolve, Planned.a, hne]
      · rw [if_neg hd]
        refine (map_congr_left fun word hword => ?_).trans (map_id _)
        obtain ⟨i, hi⟩ := mem_iff_getElem?.mp hword
        rw [if_neg]
        · rfl
        · rintro rfl
          exact hd (hfirst i (List.getElem?_eq_some_iff.mp hi).1 hi).1
    rw [patchMarker, List.map_cons, allWords_cons, allWords_cons, List.map_append, hhead]
    congr 1
    exact ih (fun q hq => hholds q (mem_cons_of_mem p hq)) htail

end Patch

/-! ### Runs -/

section Runs

variable {calls : List EncoderCall} {call : EncoderCall} {plan : List Planned}

/-- What the plan keeps from call to call. -/
def PlanOk (plan : List Planned) : Prop := ∀ p ∈ plan, p.Ok ∧ p.Holds

theorem PlanOk.append {plan' : List Planned} (h : PlanOk plan) (h' : PlanOk plan') :
    PlanOk (plan ++ plan') := fun p hp => (mem_append.mp hp).elim (h p) (h' p)

variable {enc : Encoder} {post : List EncoderCall} {p : Planned} {target : Int}

theorem emitted_holds (h : call.emitted = some p) : p.Holds := by
  cases call <;> cases h <;> intro m hm <;> cases hm
  rfl

theorem Planned.Ok.resolve (h : p.Ok) (target : Int) : (p.resolve target).Ok := by
  cases p <;> exact h

theorem Planned.Ok.repatch (h : p.Ok) (target : Int) : (p.repatch target).Ok := by
  cases p <;> exact h

theorem patchMarker_ok {marker : Int} (h : PlanOk plan) :
    PlanOk (patchMarker marker target plan) := by
  intro p hp
  obtain ⟨q, hq, rfl⟩ := mem_map.mp hp
  obtain ⟨hok, hholds⟩ := h q hq
  split
  · refine ⟨hok.resolve target, fun m hm => ?_⟩
    obtain ⟨op, t, deferred, rfl⟩ := Planned.jump_of_deferred (p := q) (by simp_all)
    cases hm
  · exact ⟨hok, hholds⟩

theorem patchSlot_ok {slot pc : Nat} (h : PlanOk plan) :
    PlanOk (patchSlot slot target pc plan) := by
  induction plan generalizing pc with
  | nil => exact h
  | cons q plan ih =>
    obtain ⟨hok, hholds⟩ := h q mem_cons_self
    intro p hp
    rcases mem_cons.mp hp with rfl | hp
    · split
      · rename_i hd
        refine ⟨hok.repatch target, fun m hm => ?_⟩
        obtain ⟨op, t, deferred, rfl⟩ := Planned.jump_of_deferred (p := q) (by rw [hd.1]; nofun)
        cases hd.1
        cases hm
      · exact ⟨hok, hholds⟩
    · exact ih (fun p hp => h p (mem_cons_of_mem q hp)) p hp

theorem step_ok (h : PlanOk plan) (hallowed : call.Allowed plan) : PlanOk (call.step plan) := by
  have hemit : call.emitted ≠ none → PlanOk (plan ++ call.emitted.toList) := by
    intro hne
    refine h.append fun p hp => ?_
    have hp' := mem_toList.mp hp
    refine ⟨?_, emitted_holds hp'⟩
    cases call <;> first | exact hallowed p hp' | cases hp'
  cases call with
  | patch slot target => exact patchSlot_ok h
  | patchTargetMarker marker target => exact patchMarker_ok h
  | _ => exact hemit nofun

theorem assertOperand_ok {v : Nat} (what : String) (h : v < 4096) : assertOperand v what = .ok () :=
  if_pos (Nat.le_of_lt_succ h)

/-- A call that emits appends the words of its instruction. -/
theorem run_emitted (h : call.emitted = some p) (hpacked : p.Packed) :
    call.run enc = .ok ⟨enc.code ++ p.words⟩ := by
  cases call with
  | emit0 op | emitJump op | emitJumpTo op target | emitJumpMarker op marker => cases h; rfl
  | emitReg op r =>
    cases h
    simp only [EncoderCall.run, Encoder.emitReg, assertOperand_ok _ hpacked]
    rfl
  | emitRegReg op a b =>
    cases h
    simp only [EncoderCall.run, Encoder.emitRegReg, assertOperand_ok _ hpacked.1,
      assertOperand_ok _ hpacked.2]
    rfl
  | emitConst op cIdx =>
    cases h
    simp only [EncoderCall.run, Encoder.emitConst, Planned.words]
    split <;> rfl
  | emitConstReg op cIdx r =>
    cases h
    simp only [EncoderCall.run, Encoder.emitConstReg, assertOperand_ok _ hpacked, Planned.words]
    split <;> rfl
  | emitCall op rBase argc =>
    cases h
    simp only [EncoderCall.run, Encoder.emitCall, assertOperand_ok _ hpacked.1,
      assertOperand_ok _ hpacked.2]
    rfl
  | emitCallBuiltin builtinId rBase argc =>
    cases h
    simp only [EncoderCall.run, Encoder.emitCallBuiltin, assertOperand_ok _ hpacked.1,
      assertOperand_ok _ hpacked.2]
    rfl
  | patch => cases h
  | patchTargetMarker => cases h

/-- **One call carries out what it does to the plan**, provided that a marker that it replaces
is not the value of another word. -/
theorem run_step (h : PlanOk plan) (hallowed : call.Allowed plan)
    (hapart : ∀ marker target, call = .patchTargetMarker marker target → marker ≠ target →
      ∀ i, (allWords plan)[i]? = some marker → i ∈ deferredWords (.marker marker) 0 plan) :
    call.run ⟨allWords plan⟩ = .ok ⟨allWords (call.step plan)⟩ := by
  have hemit : ∀ p, call.emitted = some p → call.Allowed plan →
      call.run ⟨allWords plan⟩ = .ok ⟨allWords (plan ++ [p])⟩ := by
    intro p hp hallowed
    have hok : p.Ok := by cases call <;> first | exact hallowed p hp | cases hp
    rw [run_emitted hp hok.2, allWords_append]
    simp [allWords]
  cases call with
  | patch slot target =>
    have hset := @set_words _ _ _ target hallowed
    rw [Nat.sub_zero] at hset
    simp only [EncoderCall.run, Encoder.patch, EncoderCall.step, hset]
  | patchTargetMarker marker target =>
    simp only [EncoderCall.run, Encoder.patchTargetMarker, EncoderCall.step, Except.ok.injEq,
      Encoder.mk.injEq]
    by_cases hne : marker = target
    · -- nothing changes: the words are the same before and after
      subst hne
      have hsame : ∀ p ∈ plan, (if p.deferred = .marker marker then p.resolve marker else p).words =
          p.words := by
        intro p hp
        split
        · rename_i hd
          have hm := (h p hp).2 marker hd
          obtain ⟨op, t, deferred, rfl⟩ := Planned.jump_of_deferred (p := p) (by rw [hd]; nofun)
          cases hm
          rfl
        · rfl
      have hwords : allWords (patchMarker marker marker plan) = allWords plan := by
        rw [allWords, patchMarker, flatMap_map]
        exact flatMap_congr hsame
      rw [hwords]
      refine (map_congr_left fun word _ => ?_).trans (map_id _)
      split
      · rename_i hword
        exact hword.symm
      · rfl
    · refine @map_words _ 0 _ _ (fun p hp => (h p hp).2) fun i hi => ?_
      rw [Nat.zero_add]
      exact hapart marker target rfl hne i hi
  | _ => exact hemit _ rfl hallowed

theorem runCalls_append (enc : Encoder) (pre post : List EncoderCall) :
    runCalls enc (pre ++ post) = (runCalls enc pre >>= fun enc => runCalls enc post) := by
  induction pre generalizing enc with
  | nil => rfl
  | cons call pre ih =>
    simp only [cons_append, runCalls]
    cases call.run enc with
    | error e => rfl
    | ok enc' => exact ih enc'

theorem planOf_snoc (pre : List EncoderCall) (call : EncoderCall) :
    planOf (pre ++ [call]) = call.step (planOf pre) := by
  rw [planOf, foldl_append]
  rfl

theorem Allowed.prefix (h : Allowed (calls ++ post)) : Allowed calls := by
  rintro pre call rest rfl
  exact h pre call (rest ++ post) (by simp)

theorem MarkersApart.prefix (h : MarkersApart (calls ++ post)) : MarkersApart calls := by
  rintro pre marker target rest enc rfl
  exact h pre marker target (rest ++ post) enc (by simp)

/-- **The stream holds the words of the plan.** -/
theorem runCalls_words (hallowed : Allowed calls) (hapart : MarkersApart calls) :
    runCalls ⟨[]⟩ calls = .ok ⟨allWords (planOf calls)⟩ ∧ PlanOk (planOf calls) := by
  induction calls using List.reverseRecOn with
  | nil => exact ⟨rfl, nofun⟩
  | append_singleton pre call ih =>
    obtain ⟨hrun, hok⟩ := ih hallowed.prefix hapart.prefix
    have hcall := hallowed pre call [] rfl
    have hstep := run_step hok hcall fun marker target heq hne i hi =>
      hapart pre marker target [] _ (by rw [heq]) hrun hne i hi
    rw [planOf_snoc]
    refine ⟨?_, step_ok hok hcall⟩
    rw [runCalls_append, hrun]
    simp only [runCalls, bind, Except.bind, hstep]

/-- A patch changes only the words that it is about. -/
theorem patch_concerned {enc enc' : Encoder} (hnone : call.emitted = none)
    (hrun : call.run enc = .ok enc')
    (hapart : ∀ marker target, call = .patchTargetMarker marker target → marker ≠ target →
      ∀ i, enc.code[i]? = some marker → i ∈ deferredWords (.marker marker) 0 plan)
    (i : Nat) (hi : enc'.code[i]? ≠ enc.code[i]?) : i ∈ call.concerned plan := by
  cases call with
  | patch slot target =>
    cases hrun
    rw [Encoder.patch, getElem?_set] at hi
    split at hi
    · rename_i heq
      exact mem_singleton.mpr heq.symm
    · exact absurd rfl hi
  | patchTargetMarker marker target =>
    cases hrun
    rw [Encoder.patchTargetMarker, getElem?_map] at hi
    cases hget : enc.code[i]? with
    | none => simp [hget] at hi
    | some word =>
      rw [hget, map_some] at hi
      split at hi
      · rename_i hword
        subst hword
        exact hapart word target rfl (fun heq => hi (by rw [heq])) i hget
      · exact absurd rfl hi
  | _ => cases hnone

/-- **Both decoders read back what was asked for if and only if no marker equals another word
when it is replaced.** -/
theorem encoder_faithful_iff (calls : List EncoderCall) (hallowed : Allowed calls) :
    Faithful calls ↔ MarkersApart calls := by
  constructor
  · intro hfaithful pre marker target post enc heq hrun hne i hi
    refine hfaithful.patches pre _ post enc (enc.patchTargetMarker marker target) heq rfl hrun rfl i ?_
    rw [Encoder.patchTargetMarker, getElem?_map, hi]
    simpa using hne.symm
  · intro hapart
    obtain ⟨hrun, hok⟩ := runCalls_words hallowed hapart
    have hdecode : decodeAll (allWords (planOf calls)) =
        (decodedFrom 0 (planOf calls), (allWords (planOf calls)).length) :=
      @decodeFrom_words _ [] (fun p hp => (hok p hp).1) _ .refl
    refine ⟨⟨_, hrun, hdecode, ?_⟩, ?_⟩
    · rw [hdecode]
      exact @agrees_decodedFrom _ [] fun p hp => (hok p hp).1
    · intro pre call post enc enc' heq hnone hpre hcall i hi
      refine patch_concerned hnone hcall (fun marker target hmarker hne j hj => ?_) i hi
      subst hmarker
      exact hapart pre marker target post enc heq hpre hne j hj

end Runs

/-- A jump over one `Star`, with its marker replaced. -/
theorem encoder_faithful_iff_jump :
    Faithful [.emitJumpMarker 32 1999999773, .emitReg 6 1, .patchTargetMarker 1999999773 3] ↔
      MarkersApart [.emitJumpMarker 32 1999999773, .emitReg 6 1,
        .patchTargetMarker 1999999773 3] := by
  refine encoder_faithful_iff _ fun pre call post heq => ?_
  rcases pre with _ | ⟨c1, _ | ⟨c2, _ | ⟨c3, pre⟩⟩⟩ <;> simp at heq
  · obtain ⟨rfl, -⟩ := heq
    rintro p ⟨⟩
    exact ⟨rfl, trivial⟩
  · obtain ⟨-, rfl, -⟩ := heq
    rintro p ⟨⟩
    exact ⟨rfl, by simp [Planned.Packed]⟩
  · obtain ⟨-, -, rfl, -⟩ := heq
    rintro p ⟨⟩

/-- A marker is replaced by one target only, which no other jump is given. -/
def OneTarget (calls : List EncoderCall) : Prop :=
  ∀ marker target, .patchTargetMarker marker target ∈ calls →
    (∀ target', .patchTargetMarker marker target' ∈ calls → target' = target) ∧
    (∀ op, .emitJumpTo op marker ∉ calls) ∧ ∀ slot, .patch slot marker ∉ calls

/-- A packed call equals the marker of a jump in front of it: replacing the marker overwrites
the call. -/
theorem encoder_overwrites_call :
    Allowed [.emitJumpMarker 32 1999999773, .emitCall 29 1427 1907,
        .patchTargetMarker 1999999773 3] ∧
      OneTarget [.emitJumpMarker 32 1999999773, .emitCall 29 1427 1907,
        .patchTargetMarker 1999999773 3] ∧
      ¬Faithful [.emitJumpMarker 32 1999999773, .emitCall 29 1427 1907,
        .patchTargetMarker 1999999773 3] := by
  refine ⟨fun pre call post heq => ?_, fun marker target hmem => ?_, fun hfaithful => ?_⟩
  · rcases pre with _ | ⟨c1, _ | ⟨c2, _ | ⟨c3, pre⟩⟩⟩ <;> simp at heq
    · obtain ⟨rfl, -⟩ := heq
      rintro p ⟨⟩
      exact ⟨rfl, trivial⟩
    · obtain ⟨-, rfl, -⟩ := heq
      rintro p ⟨⟩
      exact ⟨rfl, by simp [Planned.Packed]⟩
    · obtain ⟨-, -, rfl, -⟩ := heq
      rintro p ⟨⟩
  · simp_all
  · have hmem := hfaithful.patches
      [.emitJumpMarker 32 1999999773, .emitCall 29 1427 1907] (.patchTargetMarker 1999999773 3) []
      ⟨[packWord (32 ||| WIDE_FLAG) 0 0, 1999999773, packWord 29 1427 1907]⟩
      ⟨[packWord (32 ||| WIDE_FLAG) 0 0, 3, 3]⟩ rfl rfl (by decide) (by decide) 2 (by decide)
    exact absurd hmem (by decide)

end Js2Wasm.Interp
