import Js2Wasm.Binary.CachedArrays
import Js2Wasm.Binary.Emission
import Js2Wasm.Lib.Fallible

/-! # Both emissions and the offsets of the source map

`moduleText` is what a module stands for: its bytes, with a mark for every occurrence of an
instruction in a function body.  `emitBinary` writes its bytes, and so does
`emitBinaryWithSourceMap`, whose entries are the marks of the instructions with a source
position (`emitBinary_agrees_with_source_map`).
-/
namespace Js2Wasm.Binary
open List Expansion SourceMap
open Physical (ValType TypeDef)

variable {ν : Type}

/-! ### Occurrences and where they stand -/

/-- One place in the expanded bodies: the position of the function and the path of array
references that leads there. -/
structure InstrOccurrence where
  functionPosition : Nat
  path : List Nat
  deriving DecidableEq

section Spec

variable (m : WasmModule ν)

/-- The arrays as texts, in the frame of a function. -/
def WasmModule.content (i : Nat) (f : WasmFunction ν) : ν → Steps ν :=
  recordedSteps m.arrays m.layout (m.functionCtx i f)

/-- The instruction that occurs there. -/
def WasmModule.instrAt (o : InstrOccurrence) : Option (Instr ν) :=
  m.functions[o.functionPosition]?.bind fun f =>
    markAt (m.content o.functionPosition f) (m.content o.functionPosition f f.body) o.path

/-- The function at position `i`: its size, its locals, its body and `end`. -/
structure FunctionText (i : Nat) (f : WasmFunction ν) (size : List Byte)
    (locals body : Marked (Instr ν) Byte) : Prop where
  locals_text : Expands (m.content i f) (encodeLocals (m.functionCtx i f) f.locals) locals
  body_text : Expands (m.content i f) (m.content i f f.body) body
  size_text : encodeU32 (locals.symbols ++ body.symbols ++ [OP.end_]).length = .ok size

/-- Among the bytes of functions from position `i` on, the body of the function `f` at
position `pos` begins at `start`. -/
inductive BodyIn : Nat → List (WasmFunction ν) → List Byte → Nat → WasmFunction ν → Nat → Prop
  | here {i f rest size locals body bytes} (h : FunctionText m i f size locals body) :
    BodyIn i (f :: rest) (size ++ (locals.symbols ++ body.symbols ++ [OP.end_]) ++ bytes) i f
      (size.length + locals.symbols.length)
  | later {i g rest size locals body bytes pos f start}
    (hg : FunctionText m i g size locals body) (h : BodyIn (i + 1) rest bytes pos f start) :
    BodyIn i (g :: rest) (size ++ (locals.symbols ++ body.symbols ++ [OP.end_]) ++ bytes) pos f
      ((size ++ (locals.symbols ++ body.symbols ++ [OP.end_])).length + start)

/-- In the binary, the body of the function at position `pos` begins at `start`. -/
inductive BodyAt : List Byte → Nat → WasmFunction ν → Nat → Prop
  | mk {head count bytes size tail pos f start} (hhead : m.sectionsBefore = .ok head)
    (hcount : encodeU32 m.functions.length = .ok count)
    (hsize : encodeU32 (count ++ bytes).length = .ok size)
    (htail : m.sectionsAfter = .ok tail) (hbody : BodyIn m 0 m.functions bytes pos f start) :
    BodyAt (head ++ [SECTION.code] ++ size ++ (count ++ bytes) ++ tail) pos f
      ((head ++ [SECTION.code] ++ size ++ count).length + start)

/-- The first byte of the occurrence stands at `k` in the binary. -/
def OpcodeAt (binary : List Byte) (o : InstrOccurrence) (k : Nat) : Prop :=
  ∃ f start j, BodyAt m binary o.functionPosition f start ∧
    PositionAt (m.content o.functionPosition f) (m.content o.functionPosition f f.body) o.path j ∧
    k = start + j

end Spec

/-! ### The text of a module -/

/-- The entries of marks: those of the instructions with a source position. -/
def positions (marks : List (Nat × Instr ν)) : List (Nat × SourcePos) :=
  marks.filterMap fun p => p.2.sourcePos.map (p.1, ·)

theorem shift_positions (k : Nat) (marks : List (Nat × Instr ν)) :
    positions (Marked.shift k marks) = (positions marks).map fun p => (k + p.1, p.2) := by
  rw [positions, positions, Marked.shift, filterMap_map, map_filterMap]
  congr 1
  funext p
  cases h : p.2.sourcePos <;> simp [h]

theorem data_encodeLocals (valCtx : Option EmitValidationCtx) (locals : List ValType) :
    Data (encodeLocals valCtx locals : Steps ν) :=
  (data_u32 _).append (.flatMap fun _ => (data_u32 _).append (data_encodeValType valCtx _))

theorem length_encodeDigits (fuel : Nat) {fuel' v : Nat} (hv : v < 128 ^ (fuel + 1))
    (hv' : v < fuel') :
    (Leb128.encodeDigits fuel' v).length = leb128UnsignedSize.digits (fuel + 1) v := by
  obtain ⟨fuel', rfl⟩ := Nat.exists_eq_succ_of_ne_zero (Nat.ne_zero_of_lt hv')
  induction fuel generalizing fuel' v with
  | zero =>
    rw [Leb128.encodeDigits_of_lt (by simpa using hv), leb128UnsignedSize.digits,
      if_pos (Nat.div_eq_of_lt (by simpa using hv))]
    rfl
  | succ fuel ih =>
    rw [leb128UnsignedSize.digits]
    by_cases hsmall : v < 128
    · rw [Leb128.encodeDigits_of_lt hsmall, if_pos (Nat.div_eq_of_lt hsmall)]
      rfl
    · have hdiv : v / 128 < fuel' := by omega
      have hpow : v / 128 < 128 ^ (fuel + 1) := by
        rw [Nat.div_lt_iff_lt_mul (by decide), ← Nat.pow_succ]
        exact hv
      obtain ⟨fuel', rfl⟩ := Nat.exists_eq_succ_of_ne_zero (Nat.ne_zero_of_lt hdiv)
      rw [Leb128.encodeDigits_of_le (Nat.not_lt.mp hsmall), length_cons,
        if_neg (by omega), ih hpow fuel' hdiv]

/-- The size of the prefix is computed as it is written. -/
theorem length_encodeU32 {n : Nat} {size : List Byte} (h : encodeU32 n = .ok size) :
    size.length = leb128UnsignedSize n := by
  rw [encodeU32] at h
  split at h
  · cases h
  · next hrange =>
    cases h
    have hn : n < 2 ^ 32 := by omega
    rw [leb128UnsignedSize, Nat.mod_eq_of_lt hn, Int.toNat_natCast, Leb128.encode]
    exact length_encodeDigits 4 (by omega) (Nat.lt_succ_self n)

section Text

variable [Fintype ν] [DecidableEq ν] (m : WasmModule ν)

/-- The locals, the body and `end` of a function. -/
def bodyText (i : Nat) (f : WasmFunction ν) : Emit (Marked (Instr ν) Byte) := do
  let locals ← expandSteps (fun _ => .error .cyclic) (encodeLocals (m.functionCtx i f) f.locals)
  let body ← expand (m.content i f) m.maxDepth [] f.body
  return locals ++ body ++ ⟨[OP.end_], []⟩

def sizedText (t : Marked (Instr ν) Byte) : Emit (Marked (Instr ν) Byte) := do
  let size ← Emit.ofExcept (encodeU32 t.symbols.length)
  return ⟨size, []⟩ ++ t

def codeText : Nat → List (WasmFunction ν) → Emit (Marked (Instr ν) Byte)
  | _, [] => .ok .empty
  | i, f :: rest => do
    let t ← bodyText m i f >>= sizedText
    let u ← codeText (i + 1) rest
    return t ++ u

def codeSectionText : Emit (Marked (Instr ν) Byte) :=
  if m.functions = [] then .ok .empty
  else do
    let count ← Emit.ofExcept (encodeU32 m.functions.length)
    let code ← codeText m 0 m.functions
    let size ← Emit.ofExcept (encodeU32 (count ++ code.symbols).length)
    return ⟨[SECTION.code] ++ size ++ count, []⟩ ++ code

def moduleText : Emit (Marked (Instr ν) Byte) := do
  let head ← Emit.ofExcept m.sectionsBefore
  let code ← codeSectionText m
  let tail ← Emit.ofExcept m.sectionsAfter
  return ⟨head, []⟩ ++ (code ++ ⟨tail, []⟩)

variable (i : Nat)

/-! ### Functions -/

/-- Recording writes the text of a body, with its entries. -/
theorem encodeBody_recorded (f : WasmFunction ν) :
    encodeBody m (m.functionCtx i f) f (some ⟨[], []⟩) none =
      (bodyText m i f).map (EmitState.extend ⟨[], some ⟨[], []⟩, none⟩) := by
  let start : EmitState ν := ⟨[], some ⟨[], []⟩, none⟩
  rw [encodeBody, bodyText]
  show (runSteps _ _ start >>= _) = _
  rw [(data_encodeLocals _ _).runSteps_eq _ (fun _ => .error .cyclic)]
  cases expandSteps (fun _ => .error .cyclic) (encodeLocals (m.functionCtx i f) f.locals) with
  | error e => rfl
  | ok locals =>
    show (encodeInstrArray _ _ _ _ _ (start.extend locals) >>= _) = _
    rw [encodeInstrArray_recorded (s := start.extend locals) _ _ rfl]
    show ((expand (m.content i f) m.maxDepth [] f.body).map (start.extend locals).extend >>= _) = _
    cases hbody : expand (m.content i f) m.maxDepth [] f.body with
    | error e => rfl
    | ok body =>
      show Except.ok (((start.extend locals).extend body).write [OP.end_]) = _
      rw [EmitState.write_eq, ← EmitState.extend_append, ← EmitState.extend_append,
        ← Marked.append_assoc]
      rfl

/-- Encoding with the cache writes the text of a body. -/
theorem encodeBody_cached (f : WasmFunction ν) :
    (encodeBody m (m.functionCtx i f) f none
      (some (makeInstrArrayEmitCache (arrayChildren m.arrays) f.body))).map EmitState.enc =
      (bodyText m i f).map Marked.symbols := by
  let cache := makeInstrArrayEmitCache (arrayChildren m.arrays) f.body
  let start : EmitState ν := ⟨[], none, some cache⟩
  rw [encodeBody, bodyText]
  show Except.map _ (runSteps _ _ start >>= _) = _
  rw [(data_encodeLocals _ _).runSteps_eq _ (fun _ => .error .cyclic)]
  cases expandSteps (fun _ => .error .cyclic) (encodeLocals (m.functionCtx i f) f.locals) with
  | error e => rfl
  | ok locals =>
    have hcache : CacheCorrect (m.content i f) cache.shared [] cache := ⟨rfl, rfl, nofun⟩
    have hagrees : Agrees (m.content i f) cache.shared [] locals.symbols
        (expand (m.content i f) m.maxDepth [] f.body)
        (encodeInstrArray m.arrays m.layout (m.functionCtx i f) m.maxDepth f.body
          ⟨locals.symbols, none, some cache⟩) :=
      encodeInstrArray_cached (fun _ _ => shared_of_reentered) _ .start
        (Nat.lt_succ_self (Fintype.card ν)) hcache
    show Except.map _ (encodeInstrArray _ _ _ _ _ ⟨locals.symbols, none, some cache⟩ >>= _) =
      Except.map _ (expand (m.content i f) m.maxDepth [] f.body >>= _)
    cases hbody : expand (m.content i f) m.maxDepth [] f.body with
    | error e =>
      rw [hbody] at hagrees
      rw [show encodeInstrArray _ _ _ _ _ _ = _ from hagrees]
      rfl
    | ok body =>
      rw [hbody] at hagrees
      obtain ⟨cache', hrun, -⟩ := hagrees
      rw [hrun]
      rfl

omit [Fintype ν] [DecidableEq ν] in
theorem sizedText_eq (t : Marked (Instr ν) Byte) :
    sizedText t = (Emit.ofExcept (encodeU32 t.symbols.length)).map (⟨·, []⟩ ++ t) := by
  rw [sizedText]
  cases encodeU32 t.symbols.length <;> rfl

theorem encodeFunction_eq (f : WasmFunction ν) (s : CodeSection) :
    encodeFunction m (m.functionCtx i f) f s =
      (bodyText m i f >>= sizedText).map fun u => { s with body := s.body ++ u.symbols } := by
  have hbody := encodeBody_cached m i f
  rw [encodeFunction]
  show (encodeBody _ _ _ _ _ >>= _) = _
  cases hb : encodeBody m (m.functionCtx i f) f none
      (some (makeInstrArrayEmitCache (arrayChildren m.arrays) f.body)) with
  | error e =>
    rw [hb] at hbody
    cases ht : bodyText m i f with
    | error e' =>
      rw [ht] at hbody
      cases hbody
      rfl
    | ok t =>
      rw [ht] at hbody
      cases hbody
  | ok b =>
    rw [hb] at hbody
    cases ht : bodyText m i f with
    | error e' =>
      rw [ht] at hbody
      cases hbody
    | ok t =>
      rw [ht] at hbody
      have henc : b.enc = t.symbols := Except.ok.inj hbody
      show (appendSized s.body b.enc >>= _) = (sizedText t).map _
      rw [henc, appendSized, sizedText_eq]
      cases encodeU32 t.symbols.length with
      | error e => rfl
      | ok size =>
        show Except.ok ({ s with body := s.body ++ size ++ t.symbols } : CodeSection) =
          .ok { s with body := s.body ++ (size ++ t.symbols) }
        rw [append_assoc]

/-- The entries that a text behind `k` bytes of the code section adds. -/
def relativeEntries (k : Nat) (t : Marked (Instr ν) Byte) : List FuncRelativeEntry :=
  (positions t.marks).map fun p => ⟨k, k + p.1, p.2⟩

theorem encodeFunctionWithSourceMap_eq (f : WasmFunction ν) (s : CodeSection) :
    encodeFunctionWithSourceMap m (m.functionCtx i f) f s =
      (bodyText m i f >>= sizedText).map fun u =>
        ⟨s.body ++ u.symbols, s.entries ++ relativeEntries s.body.length u⟩ := by
  rw [encodeFunctionWithSourceMap, encodeBody_recorded]
  cases bodyText m i f with
  | error e => rfl
  | ok t =>
    show (appendSized s.body t.symbols >>= _) = (sizedText t).map _
    rw [appendSized, sizedText_eq]
    cases hsize : encodeU32 t.symbols.length with
    | error e => rfl
    | ok size =>
      have hrecorded : ((Marked.shift 0 t.marks).filterMap fun p =>
          p.2.sourcePos.map (RecordedEntry.mk p.1)) =
          (positions t.marks).map fun p => ⟨p.1, p.2⟩ := by
        rw [Marked.shift_zero, positions, map_filterMap]
        congr 1
        funext p
        cases p.2.sourcePos <;> rfl
      show Except.ok (CodeSection.mk (s.body ++ size ++ t.symbols) (s.entries ++ List.map _
        ([] ++ (Marked.shift 0 t.marks).filterMap _))) =
        .ok ⟨s.body ++ (size ++ t.symbols), s.entries ++ relativeEntries s.body.length
          (⟨size, []⟩ ++ t)⟩
      rw [nil_append, hrecorded, relativeEntries, Marked.marks_append, nil_append,
        shift_positions, map_map, map_map, append_assoc,
        length_encodeU32 hsize]
      simp only [Function.comp_def, Nat.add_assoc]
      rfl

/-! ### The code section -/

theorem encodeFunctions_plain (fs : List (WasmFunction ν)) (s : CodeSection) :
    encodeFunctions m false i fs s =
      (codeText m i fs).map fun u => { s with body := s.body ++ u.symbols } := by
  induction fs generalizing i s with
  | nil => simp [encodeFunctions, codeText, Except.map]
  | cons f rest ih =>
    rw [encodeFunctions, codeText]
    show (encodeFunction m (m.functionCtx i f) f s >>= _) = _
    rw [encodeFunction_eq]
    cases bodyText m i f >>= sizedText with
    | error e => rfl
    | ok t =>
      show encodeFunctions m false (i + 1) rest _ = _
      rw [ih]
      show _ = Except.map _ (codeText m (i + 1) rest >>= _)
      cases codeText m (i + 1) rest with
      | error e => rfl
      | ok u =>
        show Except.ok ({ s with body := s.body ++ t.symbols ++ u.symbols } : CodeSection) =
          .ok { s with body := s.body ++ (t.symbols ++ u.symbols) }
        rw [append_assoc]

/-- The offset in the section and the source position. -/
def FuncRelativeEntry.place (entry : FuncRelativeEntry) : Nat × SourcePos :=
  (entry.instrOffset, entry.sourcePos)

omit [Fintype ν] [DecidableEq ν] in
theorem relativeEntries_place (k : Nat) (t : Marked (Instr ν) Byte) :
    (relativeEntries k t).map FuncRelativeEntry.place = positions (Marked.shift k t.marks) := by
  rw [relativeEntries, shift_positions, map_map]
  rfl

theorem encodeFunctions_recorded (fs : List (WasmFunction ν)) (s : CodeSection) :
    match codeText m i fs with
    | .error e => encodeFunctions m true i fs s = .error e
    | .ok u => ∃ entries, encodeFunctions m true i fs s = .ok ⟨s.body ++ u.symbols, entries⟩ ∧
        entries.map FuncRelativeEntry.place = s.entries.map FuncRelativeEntry.place ++
          positions (Marked.shift s.body.length u.marks) := by
  induction fs generalizing i s with
  | nil => exact ⟨s.entries, by simp [encodeFunctions], by simp [positions]⟩
  | cons f rest ih =>
    rw [codeText]
    have hfirst : encodeFunctions m true i (f :: rest) s =
        ((bodyText m i f >>= sizedText).map fun u => CodeSection.mk (s.body ++ u.symbols)
          (s.entries ++ relativeEntries s.body.length u)) >>=
            encodeFunctions m true (i + 1) rest := by
      rw [← encodeFunctionWithSourceMap_eq, encodeFunctions]
      rfl
    rw [hfirst]
    cases bodyText m i f >>= sizedText with
    | error e => rfl
    | ok t =>
      have hrest := ih (i + 1) ⟨s.body ++ t.symbols, s.entries ++ relativeEntries s.body.length t⟩
      show match (do let u ← codeText m (i + 1) rest; Except.ok (t ++ u)) with
        | .error e => encodeFunctions m true (i + 1) rest _ = .error e
        | .ok u => ∃ entries, encodeFunctions m true (i + 1) rest _ = _ ∧ _
      cases hu : codeText m (i + 1) rest with
      | error e =>
        rw [hu] at hrest
        exact hrest
      | ok u =>
        rw [hu] at hrest
        obtain ⟨entries, hrun, hplaces⟩ := hrest
        refine ⟨entries, ?_, ?_⟩
        · rw [hrun]
          show Except.ok (CodeSection.mk (s.body ++ t.symbols ++ u.symbols) entries) =
            .ok ⟨s.body ++ (t.symbols ++ u.symbols), entries⟩
          rw [append_assoc]
        · rw [hplaces, map_append, relativeEntries_place, Marked.marks_append,
            Marked.shift_append, Marked.shift_shift, length_append, append_assoc]
          simp only [positions, filterMap_append]

/-! ### The module -/

theorem emitCodeSection_plain (enc : List Byte) :
    emitCodeSection m false enc =
      (codeSectionText m).map fun u => ⟨enc ++ u.symbols, []⟩ := by
  rw [emitCodeSection, codeSectionText]
  split
  · simp [Except.map]
  · cases encodeU32 m.functions.length with
    | error e => rfl
    | ok count =>
      show (encodeFunctions m false 0 m.functions ⟨count, []⟩ >>= _) =
        Except.map _ (codeText m 0 m.functions >>= _)
      rw [encodeFunctions_plain]
      cases codeText m 0 m.functions with
      | error e => rfl
      | ok code =>
        show (Emit.ofExcept (encodeU32 (count ++ code.symbols).length) >>= _) =
          Except.map _ (Emit.ofExcept (encodeU32 (count ++ code.symbols).length) >>= _)
        cases encodeU32 (count ++ code.symbols).length with
        | error e => rfl
        | ok size =>
          show Except.ok (EmitResult.mk (enc ++ [SECTION.code] ++ size ++ (count ++ code.symbols))
            []) = .ok ⟨enc ++ ([SECTION.code] ++ size ++ count ++ code.symbols), []⟩
          simp

/-- The source map entries of marks. -/
def entriesOf (marks : List (Nat × Instr ν)) : List SourceMapEntry :=
  (positions marks).map fun p => ⟨p.1, p.2⟩

theorem emitCodeSection_recorded (enc : List Byte) :
    emitCodeSection m true enc =
      (codeSectionText m).map fun u =>
        ⟨enc ++ u.symbols, entriesOf (Marked.shift enc.length u.marks)⟩ := by
  rw [emitCodeSection, codeSectionText]
  split
  · simp [Except.map, entriesOf, positions]
  · cases encodeU32 m.functions.length with
    | error e => rfl
    | ok count =>
      have hcode := encodeFunctions_recorded m 0 m.functions ⟨count, []⟩
      show (encodeFunctions m true 0 m.functions ⟨count, []⟩ >>= _) =
        Except.map _ (codeText m 0 m.functions >>= _)
      cases ht : codeText m 0 m.functions with
      | error e =>
        rw [ht] at hcode
        rw [show encodeFunctions _ _ _ _ _ = _ from hcode]
        rfl
      | ok code =>
        rw [ht] at hcode
        obtain ⟨entries, hrun, hplaces⟩ := hcode
        rw [hrun]
        show (Emit.ofExcept (encodeU32 (count ++ code.symbols).length) >>= _) =
          Except.map _ (Emit.ofExcept (encodeU32 (count ++ code.symbols).length) >>= _)
        cases encodeU32 (count ++ code.symbols).length with
        | error e => rfl
        | ok size =>
          have hentries : entries.map (fun entry => SourceMapEntry.mk
              ((enc ++ [SECTION.code] ++ size).length + entry.instrOffset) entry.sourcePos) =
              (entries.map FuncRelativeEntry.place).map fun p =>
                ⟨(enc ++ [SECTION.code] ++ size).length + p.1, p.2⟩ := by
            rw [map_map]
            rfl
          show Except.ok (EmitResult.mk (enc ++ [SECTION.code] ++ size ++ (count ++ code.symbols))
            (entries.map _)) = .ok ⟨enc ++ ([SECTION.code] ++ size ++ count ++ code.symbols),
              entriesOf (Marked.shift enc.length (Marked.shift _ code.marks))⟩
          rw [hentries, hplaces, entriesOf, Marked.shift_shift, shift_positions, shift_positions,
            map_nil, nil_append, map_map, map_map]
          simp only [append_assoc, Function.comp_def, length_append, Nat.add_assoc]

theorem emitBinaryInternal_eq (collectSourceMap : Bool)
    (entries : Nat → Marked (Instr ν) Byte → List SourceMapEntry)
    (hcode : ∀ enc, emitCodeSection m collectSourceMap enc =
      (codeSectionText m).map fun u => ⟨enc ++ u.symbols, entries enc.length u⟩) :
    match moduleText m with
    | .error e => emitBinaryInternal m collectSourceMap = .error e
    | .ok t => ∃ head code tail, t = ⟨head, []⟩ ++ (code ++ ⟨tail, []⟩) ∧
        emitBinaryInternal m collectSourceMap = .ok ⟨t.symbols, entries head.length code⟩ := by
  rw [emitBinaryInternal, moduleText]
  cases m.sectionsBefore with
  | error e => rfl
  | ok head =>
    simp only [Emit.ofExcept, Except.mapError, bind, Except.bind, hcode]
    cases codeSectionText m with
    | error e => rfl
    | ok code =>
      cases m.sectionsAfter with
      | error e => rfl
      | ok tail =>
        refine ⟨head, code, tail, rfl, ?_⟩
        show Except.ok (EmitResult.mk (head ++ code.symbols ++ tail) _) =
          .ok ⟨head ++ (code.symbols ++ tail), _⟩
        rw [append_assoc]

/-- **Emission without a source map writes the text of the module.** -/
theorem emitBinary_eq : emitBinary m = (moduleText m).map Marked.symbols := by
  have h := emitBinaryInternal_eq m false (fun _ _ => []) (emitCodeSection_plain m)
  rw [emitBinary]
  cases ht : moduleText m with
  | error e =>
    rw [ht] at h
    rw [show emitBinaryInternal m false = _ from h]
    rfl
  | ok t =>
    rw [ht] at h
    obtain ⟨_, _, _, -, hrun⟩ := h
    rw [hrun]
    rfl

/-- **So does emission with a source map**, whose entries are the marks. -/
theorem emitBinaryWithSourceMap_eq :
    emitBinaryWithSourceMap m = (moduleText m).map fun t => ⟨t.symbols, entriesOf t.marks⟩ := by
  have h := emitBinaryInternal_eq m true
    (fun k u => entriesOf (Marked.shift k u.marks)) (emitCodeSection_recorded m)
  rw [emitBinaryWithSourceMap]
  cases ht : moduleText m with
  | error e =>
    rw [ht] at h
    exact h
  | ok t =>
    rw [ht] at h
    obtain ⟨head, code, tail, rfl, hrun⟩ := h
    rw [hrun]
    simp [Except.map]

variable {t : Marked (Instr ν) Byte}

/-! ### The occurrences of a module -/

omit [Fintype ν] [DecidableEq ν] in
theorem Data.marks_eq_nil {content : ν → Steps ν} {steps : Steps ν} (h : Expands content steps t)
    (hdata : Data steps) : t.marks = [] := by
  induction h with
  | nil => rfl
  | mark _ _ | refer _ _ _ _ => rcases hdata _ (.head _) with ⟨_, h⟩ | ⟨_, h⟩ <;> cases h
  | write _ ih => simp [ih fun step hs => hdata step (.tail _ hs)]

theorem bodyText_eq {i : Nat} {f : WasmFunction ν} (h : (bodyText m i f >>= sizedText) = .ok t) :
    ∃ size locals body, FunctionText m i f size locals body ∧
      t = ⟨size, []⟩ ++ (locals ++ body ++ ⟨[OP.end_], []⟩) := by
  rw [bodyText] at h
  cases hlocals : expandSteps (fun _ => .error .cyclic)
      (encodeLocals (m.functionCtx i f) f.locals) with
  | error e =>
    rw [hlocals] at h
    cases h
  | ok locals =>
    cases hbody : expand (m.content i f) m.maxDepth [] f.body with
    | error e =>
      rw [hlocals, hbody] at h
      cases h
    | ok body =>
      rw [hlocals, hbody] at h
      replace h : sizedText (locals ++ body ++ ⟨[OP.end_], []⟩) = .ok t := h
      rw [sizedText_eq] at h
      let t' : Marked (Instr ν) Byte := locals ++ body ++ ⟨[OP.end_], []⟩
      cases hsize : encodeU32 t'.symbols.length with
      | error e =>
        rw [hsize] at h
        cases h
      | ok size =>
        rw [hsize] at h
        cases h
        exact ⟨size, locals, body, ⟨expandSteps_sound (fun _ _ hn => by cases hn) hlocals,
          expand_sound _ hbody, hsize⟩, rfl⟩

/-- The occurrences in the functions from position `i` on, each with its place among their
bytes and its instruction. -/
structure CodeOccurrences (i : Nat) (fs : List (WasmFunction ν)) (u : Marked (Instr ν) Byte)
    (occs : List (InstrOccurrence × Nat × Instr ν)) : Prop where
  marks : occs.map Prod.snd = u.marks
  nodup : (occs.map Prod.fst).Nodup
  complete : ∀ o instr, (∃ p, (o, p, instr) ∈ occs) ↔
    ∃ k f, o.functionPosition = i + k ∧ fs[k]? = some f ∧
      markAt (m.content o.functionPosition f) (m.content o.functionPosition f f.body) o.path =
        some instr
  places : ∀ q ∈ occs, ∃ f start j,
    BodyIn m i fs u.symbols q.1.functionPosition f start ∧
    PositionAt (m.content q.1.functionPosition f) (m.content q.1.functionPosition f f.body)
      q.1.path j ∧ q.2.1 = start + j

/-- An occurrence in the body of the function at position `i`, behind `k` bytes. -/
def inFunction (i k : Nat) (o : Occurrence (Instr ν)) : InstrOccurrence × Nat × Instr ν :=
  (⟨i, o.path⟩, k + o.position, o.mark)

/-- An occurrence in a later function. -/
def behindFunction (k : Nat) (q : InstrOccurrence × Nat × Instr ν) :
    InstrOccurrence × Nat × Instr ν := (q.1, k + q.2.1, q.2.2)

omit [Fintype ν] [DecidableEq ν] in
theorem CodeOccurrences.cons {i : Nat} {f : WasmFunction ν} {rest : List (WasmFunction ν)}
    {size : List Byte} {locals body u : Marked (Instr ν) Byte}
    {inner : List (Occurrence (Instr ν))} {occs : List (InstrOccurrence × Nat × Instr ν)}
    (hf : FunctionText m i f size locals body)
    (hinner : Enumerates (m.content i f) (m.content i f f.body) body inner)
    (h : CodeOccurrences m (i + 1) rest u occs) :
    CodeOccurrences m i (f :: rest) (⟨size, []⟩ ++ (locals ++ body ++ ⟨[OP.end_], []⟩) ++ u)
      (inner.map (inFunction i (size.length + locals.symbols.length)) ++
        occs.map (behindFunction
          (size ++ (locals.symbols ++ body.symbols ++ [OP.end_])).length)) where
  marks := by
    have hlocals := Data.marks_eq_nil hf.locals_text (data_encodeLocals _ _)
    simp only [Marked.marks_append, hlocals, nil_append, map_append, map_map,
      ← hinner.marks, ← h.marks, Marked.shift, append_nil, map_nil,
      Marked.symbols_append]
    congr 1
    refine map_congr_left fun o _ => ?_
    show (size.length + locals.symbols.length + o.position, o.mark) =
      (size.length + (locals.symbols.length + o.position), o.mark)
    rw [Nat.add_assoc]
  nodup := by
    rw [map_append, map_map, map_map, nodup_append]
    refine ⟨?_, h.nodup, ?_⟩
    · have hmap : Prod.fst ∘ inFunction (ν := ν) i (size.length + locals.symbols.length) =
          InstrOccurrence.mk i ∘ Occurrence.path := rfl
      rw [hmap, ← map_map]
      exact hinner.nodup.map fun p q heq => (InstrOccurrence.mk.inj heq).2
    · intro o ho o' ho' heq
      obtain ⟨x, -, rfl⟩ := mem_map.mp ho
      obtain ⟨q, hq, rfl⟩ := mem_map.mp ho'
      obtain ⟨k, f', hpos, -⟩ := (h.complete q.1 q.2.2).mp ⟨q.2.1, hq⟩
      have hi : i = q.1.functionPosition := congrArg InstrOccurrence.functionPosition heq
      omega
  complete := by
    intro o instr
    constructor
    · rintro ⟨p, hp⟩
      rcases mem_append.mp hp with hp | hp
      · obtain ⟨x, hx, heq⟩ := mem_map.mp hp
        cases heq
        exact ⟨0, f, rfl, rfl, (hinner.complete _ _).mpr ⟨x, hx, rfl, rfl⟩⟩
      · obtain ⟨q, hq, heq⟩ := mem_map.mp hp
        cases heq
        obtain ⟨k, f', hpos, hf', hmark⟩ := (h.complete q.1 q.2.2).mp ⟨q.2.1, hq⟩
        exact ⟨k + 1, f', by omega, hf', hmark⟩
    · rintro ⟨k, f', hpos, hf', hmark⟩
      cases k with
      | zero =>
        cases hf'
        obtain ⟨pos, path⟩ := o
        obtain rfl : pos = i := hpos
        obtain ⟨x, hx, rfl, rfl⟩ := (hinner.complete path instr).mp hmark
        exact ⟨_, mem_append_left _ (mem_map_of_mem hx)⟩
      | succ k =>
        obtain ⟨p, hp⟩ := (h.complete o instr).mpr ⟨k, f', by omega, hf', hmark⟩
        exact ⟨_, mem_append_right _ (mem_map_of_mem hp)⟩
  places := by
    intro q hq
    rcases mem_append.mp hq with hq | hq
    · obtain ⟨x, hx, rfl⟩ := mem_map.mp hq
      exact ⟨f, _, x.position, .here hf, hinner.positions x hx, rfl⟩
    · obtain ⟨q', hq', rfl⟩ := mem_map.mp hq
      obtain ⟨f', start, j, hbody, hpos, heq⟩ := h.places q' hq'
      refine ⟨f', _, j, .later hf hbody, hpos, ?_⟩
      show _ + q'.2.1 = _
      rw [heq, Nat.add_assoc]

theorem codeText_occurrences (fs : List (WasmFunction ν)) {u : Marked (Instr ν) Byte}
    (h : codeText m i fs = .ok u) :
    u.Opened (fun instr => instr.op.opcode) ∧ ∃ occs, CodeOccurrences m i fs u occs := by
  induction fs generalizing i u with
  | nil =>
    cases h
    exact ⟨.plain _ [], [], rfl, .nil, by simp, fun _ hq => nomatch hq⟩
  | cons f rest ih =>
    rw [codeText] at h
    cases ht : bodyText m i f >>= sizedText with
    | error e =>
      rw [ht] at h
      cases h
    | ok t =>
      cases hu : codeText m (i + 1) rest with
      | error e =>
        rw [ht, hu] at h
        cases h
      | ok v =>
        rw [ht, hu] at h
        cases h
        obtain ⟨size, locals, body, hf, rfl⟩ := bodyText_eq m ht
        obtain ⟨hopened, occs, hoccs⟩ := ih (i + 1) hu
        obtain ⟨inner, hinner⟩ := hf.body_text.enumerates
        refine ⟨.append ?_ hopened, _, hoccs.cons m hf hinner⟩
        have hlocals : locals.Opened fun instr => instr.op.opcode := by
          have hnil := Data.marks_eq_nil hf.locals_text (data_encodeLocals _ _)
          exact ⟨hnil ▸ .nil, by simp [hnil]⟩
        have hbody : body.Opened fun instr => instr.op.opcode :=
          hf.body_text.opened (fun n => opens_recordedSteps n) (opens_recordedSteps f.body)
        have hend := Marked.Opened.plain (fun instr : Instr ν => instr.op.opcode) [OP.end_]
        have hsize := Marked.Opened.plain (fun instr : Instr ν => instr.op.opcode) size
        exact hsize.append ((hlocals.append hbody).append hend)

theorem bodyText_ne_overflow (f : WasmFunction ν) :
    (bodyText m i f >>= sizedText) ≠ .error .overflow := by
  have hlocals : expandSteps (fun _ => .error .cyclic)
      (encodeLocals (ν := ν) (m.functionCtx i f) f.locals) ≠ .error .overflow :=
    expandSteps_ne_overflow (fun _ => by simp) _
  have hbody : expand (m.content i f) m.maxDepth [] f.body ≠ .error .overflow :=
    expand_ne_overflow m.maxDepth nodup_nil (Nat.lt_succ_self (Fintype.card ν)) f.body
  rw [bodyText]
  cases hl : expandSteps (fun _ => .error .cyclic) (encodeLocals (m.functionCtx i f) f.locals) with
  | error e =>
    rw [hl] at hlocals
    exact fun h => hlocals h
  | ok locals =>
    cases hb : expand (m.content i f) m.maxDepth [] f.body with
    | error e =>
      rw [hb] at hbody
      exact fun h => hbody (congrArg Except.error (Except.error.inj h))
    | ok body =>
      rw [Fallible.ok_bind, Fallible.ok_bind, pure_bind, sizedText_eq]
      cases encodeU32 (locals ++ body ++ ⟨[OP.end_], []⟩ : Marked (Instr ν) Byte).symbols.length
      all_goals exact nofun

theorem codeText_ne_overflow (fs : List (WasmFunction ν)) :
    codeText m i fs ≠ .error .overflow := by
  induction fs generalizing i with
  | nil => exact nofun
  | cons f rest ih =>
    have hfirst := bodyText_ne_overflow m i f
    rw [codeText]
    cases ht : bodyText m i f >>= sizedText with
    | error e =>
      rw [ht] at hfirst
      exact fun h => hfirst (congrArg Except.error (Except.error.inj h))
    | ok t =>
      have hrest := ih (i + 1)
      cases hu : codeText m (i + 1) rest with
      | error e =>
        rw [hu] at hrest
        exact fun h => hrest (congrArg Except.error (Except.error.inj h))
      | ok u => exact nofun

/-- What the code section is made of. -/
theorem codeSectionText_eq (h : codeSectionText m = .ok t) :
    (m.functions = [] ∧ t = .empty) ∨ ∃ count code size,
      encodeU32 m.functions.length = .ok count ∧ codeText m 0 m.functions = .ok code ∧
      encodeU32 (count ++ code.symbols).length = .ok size ∧
      t = ⟨[SECTION.code] ++ size ++ count, []⟩ ++ code := by
  rw [codeSectionText] at h
  split at h
  · next hempty =>
    cases h
    exact .inl ⟨hempty, rfl⟩
  · refine .inr ?_
    cases hcount : encodeU32 m.functions.length with
    | error e =>
      rw [hcount] at h
      cases h
    | ok count =>
      cases hcode : codeText m 0 m.functions with
      | error e =>
        rw [hcount, hcode] at h
        cases h
      | ok code =>
        cases hsize : encodeU32 (count ++ code.symbols).length with
        | error e =>
          rw [hcount, hcode] at h
          replace h : (Emit.ofExcept (encodeU32 (count ++ code.symbols).length) >>= fun size =>
            Except.ok (⟨[SECTION.code] ++ size ++ count, []⟩ ++ code)) = .ok t := h
          rw [hsize] at h
          cases h
        | ok size =>
          rw [hcount, hcode] at h
          replace h : (Emit.ofExcept (encodeU32 (count ++ code.symbols).length) >>= fun size =>
            Except.ok (⟨[SECTION.code] ++ size ++ count, []⟩ ++ code)) = .ok t := h
          rw [hsize] at h
          cases h
          exact ⟨count, code, size, rfl, rfl, hsize, rfl⟩

theorem codeSectionText_ne_overflow : codeSectionText m ≠ .error .overflow := by
  have hcode := codeText_ne_overflow m 0 m.functions
  rw [codeSectionText]
  split
  · exact nofun
  · cases encodeU32 m.functions.length with
    | error e => exact nofun
    | ok count =>
      show (codeText m 0 m.functions >>= _) ≠ _
      cases ht : codeText m 0 m.functions with
      | error e =>
        rw [ht] at hcode
        exact fun h => hcode (congrArg Except.error (Except.error.inj h))
      | ok code =>
        show (Emit.ofExcept (encodeU32 (count ++ code.symbols).length) >>= _) ≠ _
        cases encodeU32 (count ++ code.symbols).length
        all_goals exact nofun

theorem moduleText_ne_overflow : moduleText m ≠ .error .overflow := by
  have hcode := codeSectionText_ne_overflow m
  rw [moduleText]
  cases m.sectionsBefore with
  | error e => exact nofun
  | ok head =>
    show (codeSectionText m >>= _) ≠ _
    cases hc : codeSectionText m with
    | error e =>
      rw [hc] at hcode
      exact fun h => hcode (congrArg Except.error (Except.error.inj h))
    | ok code =>
      show (Emit.ofExcept m.sectionsAfter >>= _) ≠ _
      cases m.sectionsAfter
      all_goals exact nofun

theorem moduleText_eq (h : moduleText m = .ok t) :
    ∃ head code tail, m.sectionsBefore = .ok head ∧ codeSectionText m = .ok code ∧
      m.sectionsAfter = .ok tail ∧ t = ⟨head, []⟩ ++ (code ++ ⟨tail, []⟩) := by
  rw [moduleText] at h
  cases hhead : m.sectionsBefore with
  | error e =>
    rw [hhead] at h
    cases h
  | ok head =>
    cases hcode : codeSectionText m with
    | error e =>
      rw [hhead, hcode] at h
      cases h
    | ok code =>
      cases htail : m.sectionsAfter with
      | error e =>
        rw [hhead, hcode, htail] at h
        cases h
      | ok tail =>
        rw [hhead, hcode, htail] at h
        cases h
        exact ⟨head, code, tail, rfl, rfl, rfl, rfl⟩

/-- **The marks of a module are the occurrences of its instructions**, each at its opcode. -/
theorem moduleText_occurrences (h : moduleText m = .ok t) :
    t.Opened (fun instr => instr.op.opcode) ∧
      ∃ occs : List (InstrOccurrence × Nat × Instr ν), occs.map Prod.snd = t.marks ∧
        (occs.map Prod.fst).Nodup ∧
        (∀ o instr, (∃ p, (o, p, instr) ∈ occs) ↔ m.instrAt o = some instr) ∧
        ∀ q ∈ occs, OpcodeAt m t.symbols q.1 q.2.1 := by
  obtain ⟨head, section_, tail, hhead, hsection, htail, rfl⟩ := moduleText_eq m h
  rcases codeSectionText_eq m hsection with ⟨hempty, rfl⟩ |
    ⟨count, code, size, hcount, hcode, hsize, rfl⟩
  · refine ⟨(Marked.Opened.plain _ head).append ((Marked.Opened.plain _ []).append (.plain _ tail)),
      [], rfl, .nil, fun o instr => ?_, fun _ hq => nomatch hq⟩
    simp [WasmModule.instrAt, hempty]
  · obtain ⟨hopened, occs, hoccs⟩ := codeText_occurrences m 0 m.functions hcode
    let before := head ++ [SECTION.code] ++ size ++ count
    refine ⟨(Marked.Opened.plain _ head).append (((Marked.Opened.plain _ _).append hopened).append
      (.plain _ tail)), occs.map (behindFunction before.length), ?_, ?_, fun o instr => ?_, ?_⟩
    · simp only [Marked.marks_append, nil_append, append_nil, ← hoccs.marks,
        Marked.shift, map_map, map_nil]
      refine map_congr_left fun q _ => ?_
      show (before.length + q.2.1, q.2.2) =
        (head.length + (([SECTION.code] ++ size ++ count).length + q.2.1), q.2.2)
      simp [before, Nat.add_assoc]
    · rw [map_map]
      exact hoccs.nodup
    · have hmem : (∃ p, (o, p, instr) ∈ occs.map (behindFunction before.length)) ↔
          ∃ p, (o, p, instr) ∈ occs := by
        constructor
        · rintro ⟨p, hp⟩
          obtain ⟨q, hq, heq⟩ := mem_map.mp hp
          cases heq
          exact ⟨q.2.1, hq⟩
        · rintro ⟨p, hp⟩
          exact ⟨_, mem_map_of_mem hp⟩
      rw [hmem, hoccs.complete, WasmModule.instrAt, Option.bind_eq_some_iff]
      constructor
      · rintro ⟨k, f, hpos, hf, hmark⟩
        obtain rfl : o.functionPosition = k := by omega
        exact ⟨f, hf, hmark⟩
      · rintro ⟨f, hf, hmark⟩
        exact ⟨_, f, (Nat.zero_add _).symm, hf, hmark⟩
    · intro q hq
      obtain ⟨q', hq', rfl⟩ := mem_map.mp hq
      obtain ⟨f, start, j, hbody, hpos, heq⟩ := hoccs.places q' hq'
      have hat := BodyAt.mk hhead hcount hsize htail hbody
      refine ⟨f, before.length + start, j, ?_, hpos, ?_⟩
      · have hbytes : (⟨head, []⟩ ++ ((⟨[SECTION.code] ++ size ++ count, []⟩ ++ code) ++
            ⟨tail, []⟩) : Marked (Instr ν) Byte).symbols =
            head ++ [SECTION.code] ++ size ++ (count ++ code.symbols) ++ tail := by
          simp [Marked.symbols_append]
        rw [hbytes]
        exact hat
      · show before.length + q'.2.1 = _
        rw [heq, Nat.add_assoc]

omit [Fintype ν] [DecidableEq ν] in
theorem entriesOf_eq (marks : List (Nat × Instr ν)) :
    entriesOf marks = marks.filterMap fun p => p.2.sourcePos.map (SourceMapEntry.mk p.1) := by
  rw [entriesOf, positions, map_filterMap]
  congr 1
  funext p
  cases p.2.sourcePos <;> rfl

omit [Fintype ν] [DecidableEq ν] in
theorem entriesOf_sorted {marks : List (Nat × Instr ν)} (h : marks.Pairwise (·.1 < ·.1)) :
    (entriesOf marks).Pairwise (·.wasmOffset < ·.wasmOffset) := by
  rw [entriesOf_eq]
  refine h.filterMap _ fun p q hlt entry hp entry' hq => ?_
  obtain ⟨pos, -, rfl⟩ := Option.map_eq_some_iff.mp hp
  obtain ⟨pos', -, rfl⟩ := Option.map_eq_some_iff.mp hq
  exact hlt

omit [Fintype ν] [DecidableEq ν] in
/-- The entries belong to the occurrences with a source position, in order. -/
theorem forall₂_entriesOf {R : InstrOccurrence → SourceMapEntry → Prop}
    {occs : List (InstrOccurrence × Nat × Instr ν)}
    (h : ∀ q ∈ occs, ∀ pos, q.2.2.sourcePos = some pos → R q.1 ⟨q.2.1, pos⟩) :
    List.Forall₂ R ((occs.filter (·.2.2.sourcePos.isSome)).map Prod.fst)
      (entriesOf (occs.map Prod.snd)) := by
  rw [entriesOf_eq]
  induction occs with
  | nil => exact .nil
  | cons q occs ih =>
    have hrest := ih fun q' hq' => h q' (.tail _ hq')
    cases hpos : q.2.2.sourcePos with
    | none =>
      rw [filter_cons_of_neg (by simp [hpos]), map_cons,
        filterMap_cons_none (by simp [hpos])]
      exact hrest
    | some pos =>
      rw [filter_cons_of_pos (by simp [hpos]), map_cons, map_cons,
        filterMap_cons_some (by simp [hpos]; rfl)]
      exact .cons (h q (.head _) pos hpos) hrest

/-- **The two emissions write the same bytes or fail alike**, and the entries of the source
map are the occurrences of the instructions with a source position, each once, in increasing
order and at its opcode. -/
theorem emitBinary_agrees_with_source_map :
    emitBinary m = (emitBinaryWithSourceMap m).map EmitResult.binary ∧
    emitBinary m ≠ .error .overflow ∧
    ∀ result, emitBinaryWithSourceMap m = .ok result →
      result.sourceMapEntries.Pairwise (·.wasmOffset < ·.wasmOffset) ∧
      ∃ occs : List InstrOccurrence, occs.Nodup ∧
        (∀ o, o ∈ occs ↔ ∃ instr, m.instrAt o = some instr ∧ instr.sourcePos.isSome) ∧
        List.Forall₂ (fun o entry => ∃ instr, m.instrAt o = some instr ∧
          instr.sourcePos = some entry.sourcePos ∧
          OpcodeAt m result.binary o entry.wasmOffset ∧
          result.binary[entry.wasmOffset]? = some instr.op.opcode) occs
          result.sourceMapEntries := by
  rw [emitBinary_eq, emitBinaryWithSourceMap_eq]
  have hoverflow := moduleText_ne_overflow m
  cases ht : moduleText m with
  | error e =>
    rw [ht] at hoverflow
    exact ⟨rfl, fun h => hoverflow (congrArg Except.error (Except.error.inj h)), nofun⟩
  | ok t =>
    refine ⟨rfl, nofun, fun result hresult => ?_⟩
    cases hresult
    obtain ⟨hopened, occs, hmarks, hnodup, hcomplete, hplaces⟩ := moduleText_occurrences m ht
    refine ⟨entriesOf_sorted hopened.sorted,
      (occs.filter (·.2.2.sourcePos.isSome)).map Prod.fst, ?_, fun o => ?_, ?_⟩
    · exact hnodup.sublist (filter_sublist.map _)
    · constructor
      · intro ho
        obtain ⟨q, hq, rfl⟩ := mem_map.mp ho
        obtain ⟨hq, hpos⟩ := mem_filter.mp hq
        exact ⟨q.2.2, (hcomplete _ _).mp ⟨q.2.1, hq⟩, hpos⟩
      · rintro ⟨instr, ho, hpos⟩
        obtain ⟨p, hp⟩ := (hcomplete o instr).mpr ho
        exact mem_map.mpr ⟨_, mem_filter.mpr ⟨hp, hpos⟩, rfl⟩
    · show List.Forall₂ _ _ (entriesOf t.marks)
      rw [← hmarks]
      apply forall₂_entriesOf
      intro q hq pos hpos
      have hmark : q.2 ∈ t.marks := hmarks ▸ mem_map_of_mem hq
      exact ⟨q.2.2, (hcomplete _ _).mp ⟨q.2.1, hq⟩, hpos, hplaces q hq,
        hopened.opening _ hmark⟩

end Text

/-- Array 1 is the body of both blocks of array 0; its `nop` has two entries. -/
example : (emitBinaryWithSourceMap (ν := Fin 2) {
    arrays := fun a => if a = 0 then [⟨.block .empty 1, none⟩, ⟨.block .empty 1, none⟩]
      else [⟨.plain .nop, some ⟨"a.ts", 1, 0⟩⟩]
    functions := [⟨"f", 0, [.i32], 0⟩]
    flatTypes := [.func [] []]
    numImportFuncs := 0, numGlobals := 0, numTags := 0, numTables := 0
    funcOrdinalToPosition := []
    skipIndexValidation := false
    sectionsBefore := .ok []
    sectionsAfter := .ok [] }) =
    .ok ⟨[10, 14, 1, 12, 1, 1, 0x7f, 2, 0x40, 1, 11, 2, 0x40, 1, 11, 11],
      [⟨9, ⟨"a.ts", 1, 0⟩⟩, ⟨13, ⟨"a.ts", 1, 0⟩⟩]⟩ := by decide +kernel

end Js2Wasm.Binary
