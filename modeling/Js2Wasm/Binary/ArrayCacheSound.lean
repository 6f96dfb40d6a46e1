import Js2Wasm.Binary.ArrayCache

/-! # Cached and recorded encodings agree

`recordedSteps` is what an instruction array stands for as a text that refers to the arrays
inside.  Recording every occurrence computes its expansion (`encodeInstrArray_recorded`),
and so does encoding with the cache (`encodeInstrArray_cached`): kept bytes are the expansion
of their array, and an array that is met inside itself has two parents, so that it is one of
those that the cache watches.
-/
namespace Js2Wasm.Binary
open List Expansion SourceMap
open Physical (ValType TypeDef)

variable {ν : Type}

/-! ### The steps of an instruction -/

/-- The steps of a check: it can only fail. -/
def Checks (steps : Steps ν) : Prop := ∀ step ∈ steps, ∃ e, step = .fail e

/-- Steps that refer to no array and mark nothing. -/
def Data (steps : Steps ν) : Prop :=
  ∀ step ∈ steps, (∃ bytes, step = .write bytes) ∨ ∃ e, step = .fail e

theorem Checks.nil : Checks ([] : Steps ν) := fun _ h => absurd h not_mem_nil

theorem Checks.fail (e : CodegenError) : Checks ([.fail e] : Steps ν) :=
  fun _ h => ⟨e, mem_singleton.mp h⟩

theorem Checks.append {xs ys : Steps ν} (hx : Checks xs) (hy : Checks ys) : Checks (xs ++ ys) :=
  fun step h => (mem_append.mp h).elim (hx step) (hy step)

variable {xs steps : Steps ν}

theorem Checks.data (h : Checks xs) : Data xs := fun step hs => .inr (h step hs)

theorem Data.append {xs ys : Steps ν} (hx : Data xs) (hy : Data ys) : Data (xs ++ ys) :=
  fun step h => (mem_append.mp h).elim (hx step) (hy step)

theorem Data.flatMap {α : Type} {xs : List α} {f : α → Steps ν} (h : ∀ x, Data (f x)) :
    Data (xs.flatMap f) := by
  intro step hs
  obtain ⟨x, -, hx⟩ := mem_flatMap.mp hs
  exact h x step hx

theorem Data.write (bytes : List Byte) : Data ([.write bytes] : Steps ν) :=
  fun _ h => .inl ⟨bytes, mem_singleton.mp h⟩

variable (ctx : EmitValidationCtx)

theorem checks_vIdx (space : String) (value max : Int) :
    Checks (vIdx ctx space value max : Steps ν) := by
  rw [vIdx]
  split
  · exact .fail _
  · exact .nil

theorem checks_vHeapType (value : Int) :
    Checks (vHeapType ctx value : Steps ν) := by
  rw [vHeapType]
  split
  · exact .fail _
  · exact .nil

theorem checks_vSignature (typeIdx : Int) :
    Checks (vSignature ctx typeIdx : Steps ν) := by
  apply (checks_vIdx ctx _ _ _).append
  split
  · exact .nil
  · exact .fail _

theorem checks_vStructField (typeIdx fieldIdx : Int) (op : String) :
    Checks (vStructField ctx typeIdx fieldIdx op : Steps ν) := by
  apply (checks_vIdx ctx _ _ _).append
  split
  · exact checks_vIdx _ _ _ _
  · exact .nil

variable (valCtx : Option EmitValidationCtx)

theorem checks_ifValidating {check : EmitValidationCtx → Steps ν} (h : ∀ ctx, Checks (check ctx)) :
    Checks (ifValidating valCtx check) := by
  cases valCtx with
  | none => exact .nil
  | some ctx => exact h ctx

theorem data_byte (b : Byte) : Data (byte b : Steps ν) := .write [b]

theorem data_u32 (value : Int) : Data (u32 value : Steps ν) := by
  rw [u32]
  split
  · exact .write _
  · exact (Checks.fail _).data

theorem Data.byte (h : Data xs) {b : Byte} : Data (xs ++ Binary.byte b) :=
  h.append (data_byte b)

theorem Data.u32 (h : Data xs) {value : Int} : Data (xs ++ Binary.u32 value) :=
  h.append (data_u32 value)

theorem data_v128 (bytes : List Byte) : Data (v128 bytes : Steps ν) := by
  rw [v128]
  split
  · exact (Checks.fail _).data
  · exact .write _

theorem data_encodeValType (type : ValType) :
    Data (encodeValType valCtx type : Steps ν) := by
  have hheap : ∀ typeIdx, Data (ifValidating valCtx (vHeapType · typeIdx) : Steps ν) :=
    fun typeIdx => (checks_ifValidating valCtx fun ctx => checks_vHeapType ctx typeIdx).data
  cases type with
  | i8 | i16 => exact (Checks.fail _).data
  | ref typeIdx | ref_null typeIdx =>
    exact (hheap typeIdx).byte.append (.write _)
  | ref_extern | eqref | anyref => exact (data_byte _).byte
  | i32 | i64 | f32 | f64 | v128 | funcref | externref => exact data_byte _

theorem data_encodeBlockType (bt : BlockType) :
    Data (encodeBlockType valCtx bt : Steps ν) := by
  cases bt with
  | empty => exact data_byte _
  | val type => exact data_encodeValType valCtx type
  | type typeIdx =>
    apply Data.append _ (.write _)
    exact (checks_ifValidating valCtx fun ctx =>
      (checks_vIdx ctx _ _ _).append (checks_vSignature ctx _)).data

theorem data_encodeCatchClause (clause : CatchClause) :
    Data (encodeCatchClause valCtx clause : Steps ν) := by
  have htag : ∀ kind tagIdx, Data (encodeCatchClause.tag valCtx kind tagIdx : Steps ν) := by
    intro kind tagIdx
    cases tagIdx with
    | none => exact (Checks.fail _).data
    | some tagIdx =>
      exact (checks_ifValidating valCtx fun ctx => checks_vIdx ctx _ _ _).data.u32
  cases clause with
  | catch_ tagIdx depth | catch_ref tagIdx depth =>
    exact ((data_byte _).append (htag _ _)).u32
  | catch_all depth | catch_all_ref depth => exact (data_byte _).u32

/-- Every step writes, fails or refers to one of the arrays. -/
def Within (children : List ν) (steps : Steps ν) : Prop :=
  ∀ step ∈ steps, (∃ bytes, step = .write bytes) ∨ (∃ e, step = .fail e) ∨
    ∃ c ∈ children, step = .refer c

theorem Data.within (h : Data xs) (children : List ν) : Within children xs :=
  fun step hs => (h step hs).imp_right .inl

theorem Within.append {children : List ν} {xs ys : Steps ν} (hx : Within children xs)
    (hy : Within children ys) : Within children (xs ++ ys) :=
  fun step h => (mem_append.mp h).elim (hx step) (hy step)

theorem Within.refer {children : List ν} {c : ν} (h : c ∈ children) :
    Within children [.refer c] :=
  fun _ hs => .inr (.inr ⟨c, h, mem_singleton.mp hs⟩)

section Encode

variable {arrays : ν → List (Instr ν)} {layout : ModuleLayout}
  {valCtx : Option EmitValidationCtx}

theorem data_withTarget (funcIdx : Int) {encode : Int → Steps ν}
    (h : ∀ target, Data (encode target)) : Data (withTarget layout funcIdx encode) := by
  rw [withTarget]
  split
  · exact h _
  · exact (Checks.fail _).data

theorem within_encodeInstr (instr : Instr ν) :
    Within (instr.op.children arrays) (encodeInstr arrays layout valCtx instr) := by
  obtain ⟨op, pos⟩ := instr
  have hcheck : ∀ {check : EmitValidationCtx → Steps ν}, (∀ ctx, Checks (check ctx)) →
      Data (ifValidating valCtx check) := fun h => (checks_ifValidating valCtx h).data
  cases op with
  | block blockType body | loop blockType body =>
    apply ((((data_byte _).append (data_encodeBlockType valCtx _)).within _).append
      (.refer (.head _))).append ((data_byte _).within _)
  | if_ blockType then_ else_ =>
    apply (((((data_byte _).append (data_encodeBlockType valCtx _)).within _).append
      (.refer (.head _))).append _).append ((data_byte _).within _)
    split
    · next body helse =>
      apply ((data_byte _).within _).append (.refer _)
      show body ∈ then_ :: (elseBody arrays else_).toList
      simp [helse]
    · exact (data_byte _).byte.within _
    · exact Checks.nil.data.within _
  | try_table blockType catches body =>
    apply ((Data.within _ _).append (.refer (.head _))).append ((data_byte _).within _)
    exact ((data_byte _).append (data_encodeBlockType valCtx _)).u32.append
      (.flatMap (data_encodeCatchClause valCtx))
  | try_ blockType body catches catchAll =>
    apply ((((((data_byte _).append (data_encodeBlockType valCtx _)).within _).append
      (.refer (.head _))).append _).append _).append ((data_byte _).within _)
    · intro step hs
      obtain ⟨c, hc, hstep⟩ := mem_flatMap.mp hs
      refine ((hcheck fun ctx => checks_vIdx ctx _ _ _).byte.u32.within _).append (.refer ?_)
        step hstep
      exact .tail _ (mem_append_left _ (mem_map_of_mem hc))
    · cases catchAll with
      | none => exact Checks.nil.data.within _
      | some body' =>
        apply ((data_byte _).within _).append (.refer _)
        exact .tail _ (mem_append_right _ (.head _))
  | plain op => exact (data_byte _).within _
  | memory op align offset | data_drop dataIdx => exact (data_byte _).u32.u32.within _
  | jump op depth | simd op => exact (data_byte _).u32.within _
  | br_table targets defaultDepth =>
    exact ((data_byte _).u32.append (.flatMap data_u32)).u32.within _
  | func op funcIdx =>
    refine (data_withTarget funcIdx fun target => ?_).within _
    exact (hcheck fun ctx => checks_vIdx ctx _ _ _).byte.u32
  | call_indirect typeIdx tableIdx =>
    refine (hcheck fun ctx => ?_).byte.u32.u32.within _
    exact (checks_vSignature ctx _).append (checks_vIdx ctx _ _ _)
  | callRef op typeIdx =>
    exact (hcheck fun ctx => checks_vSignature ctx _).byte.u32.within _
  | local_ op index =>
    refine (hcheck fun ctx => ?_).byte.u32.within _
    split
    · exact checks_vIdx ctx _ _ _
    · exact .nil
  | global op index | throw tagIdx =>
    exact (hcheck fun ctx => checks_vIdx ctx _ _ _).byte.u32.within _
  | i32_const value | i64_const value | f64_const bits | f32_const bits =>
    exact ((data_byte _).append (.write _)).within _
  | trunc op | gc op | refNullExtern | refNullEq | refNullFunc | memorySize op =>
    exact (data_byte _).byte.within _
  | ref_null typeIdx =>
    exact ((hcheck fun ctx => checks_vHeapType ctx _).byte.append (.write _)).within _
  | cast op typeIdx =>
    exact ((hcheck fun ctx => checks_vHeapType ctx _).byte.byte.append (.write _)).within _
  | gcTyped op typeIdx =>
    exact (hcheck fun ctx => checks_vIdx ctx _ _ _).byte.byte.u32.within _
  | struct_get typeIdx fieldIdx | struct_set typeIdx fieldIdx =>
    exact (hcheck fun ctx => checks_vStructField ctx _ _ _).byte.byte.u32.u32.within _
  | array_new_fixed typeIdx length =>
    exact (hcheck fun ctx => checks_vIdx ctx _ _ _).byte.byte.u32.u32.within _
  | array_copy dstTypeIdx srcTypeIdx =>
    exact (hcheck fun ctx =>
      (checks_vIdx ctx _ _ _).append (checks_vIdx ctx _ _ _)).byte.byte.u32.u32.within _
  | memory_init dataIdx => exact (data_byte _).u32.u32.byte.within _
  | memory_copy => exact (data_byte _).u32.byte.byte.within _
  | memory_fill | simdLane op lane => exact (data_byte _).u32.byte.within _
  | v128_const bytes => exact ((data_byte _).u32.append (data_v128 _)).within _
  | simdMemory op align offset => exact (data_byte _).u32.u32.u32.within _
  | i8x16_shuffle lanes =>
    exact ((data_byte _).u32.append (.flatMap data_byte)).within _

/-! ### The first byte -/

theorem Checks.startsWith {b : Byte} {xs ys : Steps ν} (hx : Checks xs)
    (hy : StartsWith b ys) : StartsWith b (xs ++ ys) := by
  cases xs with
  | nil => exact hy
  | cons step xs =>
    obtain ⟨e, rfl⟩ := hx _ (.head _)
    trivial

theorem startsWith_byte (b : Byte) : StartsWith b (byte b : Steps ν) := rfl

/-- **An instruction is written from its opcode on**, unless a check fails. -/
theorem startsWith_encodeInstr (instr : Instr ν) :
    StartsWith instr.op.opcode (encodeInstr arrays layout valCtx instr) := by
  obtain ⟨op, pos⟩ := instr
  have hcheck : ∀ {check : EmitValidationCtx → Steps ν} {b : Byte},
      (∀ ctx, Checks (check ctx)) → StartsWith b (ifValidating valCtx check ++ byte b) :=
    fun h => (checks_ifValidating valCtx h).startsWith (startsWith_byte _)
  cases op with
  | func op funcIdx =>
    show StartsWith op.opcode (withTarget layout funcIdx _)
    rw [withTarget]
    split
    · exact (hcheck fun ctx => checks_vIdx ctx _ _ _).append _
    · trivial
  | call_indirect typeIdx tableIdx =>
    exact ((hcheck fun ctx => (checks_vSignature ctx _).append (checks_vIdx ctx _ _ _)).append
      _).append _
  | callRef op typeIdx => exact (hcheck fun ctx => checks_vSignature ctx _).append _
  | local_ op index =>
    refine (hcheck fun ctx => ?_).append _
    split
    · exact checks_vIdx ctx _ _ _
    · exact .nil
  | global op index | throw tagIdx => exact (hcheck fun ctx => checks_vIdx ctx _ _ _).append _
  | ref_null typeIdx => exact (hcheck fun ctx => checks_vHeapType ctx _).append _
  | cast op typeIdx => exact ((hcheck fun ctx => checks_vHeapType ctx _).append _).append _
  | gcTyped op typeIdx => exact ((hcheck fun ctx => checks_vIdx ctx _ _ _).append _).append _
  | struct_get typeIdx fieldIdx | struct_set typeIdx fieldIdx =>
    exact (((hcheck fun ctx => checks_vStructField ctx _ _ _).append _).append _).append _
  | array_new_fixed typeIdx length =>
    exact (((hcheck fun ctx => checks_vIdx ctx _ _ _).append _).append _).append _
  | array_copy dstTypeIdx srcTypeIdx =>
    exact (((hcheck fun ctx => (checks_vIdx ctx _ _ _).append (checks_vIdx ctx _ _ _)).append
      _).append _).append _
  | _ => rfl

/-- The first byte stands behind every recorded position. -/
theorem opens_recordedSteps (instrs : ν) :
    Opens (fun instr => instr.op.opcode) (recordedSteps arrays layout valCtx instrs) := by
  have happend : ∀ (xs ys : Steps ν), Opens (fun instr => instr.op.opcode) ys →
      (∀ step ∈ xs, ∀ m, step ≠ .mark m) → Opens (fun instr => instr.op.opcode) (xs ++ ys) := by
    intro xs ys hy hx
    induction xs with
    | nil => exact hy
    | cons step xs ih =>
      have hrest := ih fun step' hs => hx step' (.tail _ hs)
      cases step with
      | mark m => exact absurd rfl (hx _ (.head _) m)
      | write | refer | fail => exact hrest
  rw [recordedSteps]
  induction arrays instrs with
  | nil => trivial
  | cons instr rest ih =>
    have hplain := happend (encodeInstr arrays layout valCtx instr) _ ih fun step hs m hm => by
      subst hm
      rcases within_encodeInstr instr _ hs with ⟨_, h⟩ | ⟨_, h⟩ | ⟨_, _, h⟩ <;> cases h
    exact ⟨(startsWith_encodeInstr instr).append _, hplain⟩

end Encode

/-! ### Recording every occurrence -/

/-- A text behind what the encoder holds, with its marks recorded. -/
def EmitState.extend (s : EmitState ν) (t : Marked (Instr ν) Byte) : EmitState ν where
  enc := s.enc ++ t.symbols
  recording := s.recording.map fun recording =>
    { recording with
      entries := recording.entries ++
        (Marked.shift s.enc.length t.marks).filterMap fun p => p.2.sourcePos.map (⟨p.1, ·⟩) }
  cache := s.cache

variable (s : EmitState ν)

theorem EmitState.extend_empty : s.extend .empty = s := by
  obtain ⟨enc, recording, cache⟩ := s
  cases recording <;> simp [EmitState.extend]

/-- The arrays that are being encoded. -/
def EmitState.active (s : EmitState ν) : Option (List ν) :=
  s.recording.map SourceMapRecordingContext.activeArrays

theorem EmitState.extend_active (t : Marked (Instr ν) Byte) :
    (s.extend t).active = s.active := by
  obtain ⟨enc, recording, cache⟩ := s
  cases recording <;> rfl

theorem EmitState.extend_append (t u : Marked (Instr ν) Byte) :
    s.extend (t ++ u) = (s.extend t).extend u := by
  obtain ⟨enc, recording, cache⟩ := s
  cases recording <;> simp [EmitState.extend]

theorem EmitState.record_eq (instr : Instr ν) :
    s.record instr = s.extend ⟨[], [(0, instr)]⟩ := by
  obtain ⟨enc, recording, cache⟩ := s
  cases recording with
  | none => simp [EmitState.extend, EmitState.record]
  | some recording =>
    cases hpos : instr.sourcePos <;>
      simp [EmitState.extend, EmitState.record, Marked.shift, hpos]

theorem EmitState.write_eq (bytes : List Byte) :
    s.write bytes = s.extend ⟨bytes, []⟩ := by
  obtain ⟨enc, recording, cache⟩ := s
  cases recording <;> simp [EmitState.extend, EmitState.write]

theorem map_extend_append (x : Emit (Marked (Instr ν) Byte)) (s : EmitState ν)
    (t : Marked (Instr ν) Byte) :
    x.map (s.extend t).extend = (x.map (t ++ ·)).map s.extend := by
  cases x with
  | error e => rfl
  | ok u => exact congrArg Except.ok (s.extend_append t u).symm

/-- The steps write their expansion, when the arrays inside do so in the states that satisfy
`Q`. -/
theorem runSteps_eq {encodeArray : ν → EmitState ν → Emit (EmitState ν)}
    {node : ν → Emit (Marked (Instr ν) Byte)} {Q : EmitState ν → Prop}
    (hQ : ∀ s t, Q s → Q (s.extend t))
    (harray : ∀ n s, .refer n ∈ steps → Q s → encodeArray n s = (node n).map s.extend)
    {s : EmitState ν} (hs : Q s) :
    runSteps encodeArray steps s = (expandSteps node steps).map s.extend := by
  induction steps generalizing s with
  | nil => exact congrArg Except.ok s.extend_empty.symm
  | cons step rest ih =>
    have hrest := fun n s hn => harray n s (.tail _ hn)
    cases step with
    | mark m =>
      rw [runSteps, expandSteps, s.record_eq, ih hrest (hQ _ _ hs), map_extend_append]
    | write bytes =>
      rw [runSteps, expandSteps, s.write_eq, ih hrest (hQ _ _ hs), map_extend_append]
    | refer n =>
      rw [runSteps, expandSteps, harray n s (.head _) hs]
      cases hn : node n with
      | error e => rfl
      | ok t =>
        show runSteps encodeArray rest (s.extend t) = _
        rw [ih hrest (hQ _ _ hs), map_extend_append]
    | fail e => rfl

/-- Data is written alike in every state. -/
theorem Data.runSteps_eq (h : Data steps) (encodeArray : ν → EmitState ν → Emit (EmitState ν))
    (node : ν → Emit (Marked (Instr ν) Byte)) (s : EmitState ν) :
    runSteps encodeArray steps s = (expandSteps node steps).map s.extend := by
  apply Binary.runSteps_eq (Q := fun _ => True) (fun _ _ _ => trivial) _ trivial
  intro n s hn _
  rcases h _ hn with ⟨_, heq⟩ | ⟨_, heq⟩ <;> cases heq

section Recorded

variable [DecidableEq ν] {arrays : ν → List (Instr ν)} {layout : ModuleLayout}
  {valCtx : Option EmitValidationCtx}

/-- **Recording writes the expansion**, with an entry for every mark. -/
theorem encodeInstrArray_recorded (depth : Nat) (instrs : ν) {s : EmitState ν}
    {recording : SourceMapRecordingContext ν} (hs : s.recording = some recording) :
    encodeInstrArray arrays layout valCtx depth instrs s =
      (expand (recordedSteps arrays layout valCtx) depth recording.activeArrays instrs).map
        s.extend := by
  induction depth generalizing instrs s recording with
  | zero => rfl
  | succ depth ih =>
    obtain ⟨enc, _, cache⟩ := s
    cases hs
    rw [encodeInstrArray, expand]
    show (if instrs ∈ recording.activeArrays then _ else _) = _
    split
    · rfl
    · -- Inside, the array is active; leaving it gives the arrays that were active before.
      let inner : EmitState ν :=
        ⟨enc, some { recording with activeArrays := instrs :: recording.activeArrays }, cache⟩
      have hrun : runSteps (encodeInstrArray arrays layout valCtx depth)
          (recordedSteps arrays layout valCtx instrs) inner =
            (expandSteps (expand (recordedSteps arrays layout valCtx) depth
              (instrs :: recording.activeArrays))
              (recordedSteps arrays layout valCtx instrs)).map inner.extend := by
        refine runSteps_eq (Q := fun s => s.active = some (instrs :: recording.activeArrays))
          (fun s t h => (s.extend_active t).trans h) (fun n s _ h => ?_) rfl
        obtain ⟨r, hr, hactive⟩ := Option.map_eq_some_iff.mp h
        rw [← hactive]
        exact ih n hr
      show (do let t ← runSteps _ _ inner; return t.leave instrs) = _
      rw [hrun]
      cases expandSteps (expand (recordedSteps arrays layout valCtx) depth
          (instrs :: recording.activeArrays)) (recordedSteps arrays layout valCtx instrs) with
      | error e => rfl
      | ok t =>
        show Except.ok ((inner.extend t).leave instrs) = .ok (EmitState.extend _ t)
        simp [EmitState.extend, EmitState.leave, inner]

end Recorded

end Js2Wasm.Binary
