import Js2Wasm.Analysis.CondensationSound
import Js2Wasm.Async.PlanRuns
import Js2Wasm.Binary.SourceOffsets
import Js2Wasm.Bytecode.KeptFrames
import Js2Wasm.Cfg.DominanceSound
import Js2Wasm.Cfg.SimplifySound
import Js2Wasm.Collections.MapIterators
import Js2Wasm.Control.Completions
import Js2Wasm.EarlyErrors.ConflictIndex
import Js2Wasm.Heap.Runs
import Js2Wasm.Interp.EncoderSound
import Js2Wasm.Interp.LabeledLoops
import Js2Wasm.Ir.NestedOrder
import Js2Wasm.Linear.SharedHeap
import Js2Wasm.Linear.StringAppendRuns
import Js2Wasm.Linear.StringUnits
import Js2Wasm.Link.Reader
import Js2Wasm.Link.Scanner
import Js2Wasm.Link.Targets
import Js2Wasm.NativeText.Base64
import Js2Wasm.Numeric.Fmod
import Js2Wasm.Numeric.Int32Coercion
import Js2Wasm.Physical.TypeLayoutSound
import Js2Wasm.Propagate.JoinLaws
import Js2Wasm.Propagate.TypeMap
import Js2Wasm.Refcount.Balance
import Js2Wasm.Refcount.LoweringSound
import Js2Wasm.Refcount.Verdict
import Js2Wasm.Regex.Alternations
import Js2Wasm.Regex.ClassParserSound
import Js2Wasm.Regex.ClassTable
import Js2Wasm.Resolve.ImportOrder
import Js2Wasm.Resolve.ImportsAgreement
import Js2Wasm.Script.NormalizeExact
import Js2Wasm.Slots.SlotRuns
import Js2Wasm.Sorting.MergeSortRuns
import Js2Wasm.SourceMap.DefineSubstitution
import Js2Wasm.SourceMap.RoundTrip

