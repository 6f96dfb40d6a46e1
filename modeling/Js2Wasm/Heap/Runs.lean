import Js2Wasm.Heap.Calls

/-! # Runs of the allocator

A client calls the entry points in any order and writes into its payloads; the region
source may be another one at every call.  `HeapOk` is the invariant between calls: the
heap holds a layout, its bins list exactly the free blocks, and the client's live
payloads are exactly the allocated blocks.  One step lemma (`exec_spec`) carries it
over a call, and `reachable_ok` over a run.
-/
namespace Js2Wasm.Heap
open WordMemory

/-! ### Calls -/

inductive Call where
  | alloc (size : Nat)
  | calloc (count size : Nat)
  | free (payload : Nat)
  | realloc (payload size : Nat)
  deriving DecidableEq

namespace Call

/-- The bytes a call asks for. -/
def requested : Call → Nat
  | alloc size => size
  | calloc count size => count * size
  | free _ => 0
  | realloc _ size => size

/-- `free` and `realloc` take a live payload, or the null pointer. -/
def Legal (live : List Nat) : Call → Prop
  | free payload | realloc payload _ => payload = 0 ∨ payload ∈ live
  | _ => True

instance (live : List Nat) (c : Call) : Decidable (c.Legal live) :=
  match c with
  | free payload | realloc payload _ => inferInstanceAs (Decidable (payload = 0 ∨ payload ∈ live))
  | alloc _ | calloc _ _ => inferInstanceAs (Decidable True)

end Call

/-- A call and its result; `free` has none, 0 stands for it. -/
def exec (src : RegionSource) (regionBytes : Nat) (h : HeapState) : Call → Option (HeapState × Nat)
  | .alloc size => heapAlloc src regionBytes h size
  | .calloc count size => heapCalloc src regionBytes h count size
  | .free payload => (heapFree h payload).map fun h => (h, 0)
  | .realloc payload size => heapRealloc src regionBytes h payload size

/-- The client's payloads after a call with result `r`.  A failed `realloc` leaves the
old payload alive, one to size 0 frees it. -/
def liveAfter (live : List Nat) (r : Nat) : Call → List Nat
  | .alloc _ | .calloc _ _ => if r = 0 then live else r :: live
  | .free payload => live.erase payload
  | .realloc payload size =>
    if r ≠ 0 then r :: live.erase payload else if size = 0 then live.erase payload else live

/-- The bytes that are not the heap's: outside the regions, or of a live payload. -/
def ClientByte (h : HeapState) (live : List Nat) (a : Nat) : Prop :=
  ¬ Granted h.granted a ∨ ∃ p ∈ live, p ≤ a ∧ a < p + heapUsable h p

/-- **The states of a run**: from a successful `heapInit`, by calls and client writes. -/
inductive Reachable (regionBytes : Nat) : HeapState → List Nat → Prop
  | start {src : RegionSource} {h h' : HeapState} : Honest src → Pristine h →
      heapInit src regionBytes h = (h', true) → Reachable regionBytes h' []
  | call {src : RegionSource} {h h' : HeapState} {live : List Nat} {c : Call} {r : Nat} :
      Reachable regionBytes h live → Honest src → c.Legal live →
      exec src regionBytes h c = some (h', r) → Reachable regionBytes h' (liveAfter live r c)
  | write {h : HeapState} {live : List Nat} {m' : Memory} : Reachable regionBytes h live →
      (∀ a, ¬ ClientByte h live a → m' a = h.mem a) → Reachable regionBytes { h with mem := m' } live

/-- Calls in a row, of one source: the heap and the live payloads, none if a call is not legal. -/
def runCalls (src : RegionSource) (regionBytes : Nat) :
    HeapState → List Nat → List Call → Option (HeapState × List Nat)
  | h, live, [] => some (h, live)
  | h, live, c :: cs => do
    let (h', r) ← exec src regionBytes h c
    if c.Legal live then runCalls src regionBytes h' (liveAfter live r c) cs else none

/-! ### The invariant -/

/-- **The heap between calls.**  `HeapInv` says that memory holds the tags of the layout
`L` (tiled regions, flags, footers, epilogues) and the lists of its free blocks. -/
structure HeapOk (h : HeapState) (live : List Nat) (L : List Region) : Prop where
  inv : HeapInv h L (FreeAt L)
  nodup : live.Nodup
  live_iff : ∀ p, p ∈ live ↔ ∃ b s, UsedAt L b s ∧ p = b + HDR

/-- What the client may rely on. -/
structure Payloads (h : HeapState) (live : List Nat) : Prop where
  aligned : ∀ p ∈ live, p % 8 = 0
  inside : ∀ p ∈ live, ∃ g ∈ h.granted, g.1 ≤ p ∧ p + heapUsable h p ≤ g.1 + g.2
  apart : ∀ p ∈ live, ∀ q ∈ live, p = q ∨ p + heapUsable h p ≤ q ∨ q + heapUsable h q ≤ p

section
variable {h h' : HeapState} {live : List Nat} {L : List Region} {src : RegionSource}

variable {b payload p n regionBytes : Nat}

theorem HeapInv.usable {F : Nat → Nat → Prop} (hi : HeapInv h L F) {s : Nat} (hb : UsedAt L b s) :
    heapUsable h (b + HDR) + HDR = s := by
  have hdr : HDR = 4 := rfl
  obtain ⟨r, -, -, -, hend, hhi, -, -, h16⟩ := hi.wf.block hb
  simp only at hend h16
  have hback : sub32 (b + HDR) HDR = b := by
    rw [sub32_of_le (Nat.le_add_left _ _) (by lia), Nat.add_sub_cancel]
  have hsize : h.sizeAt b = s := hi.sizeAt hb
  rw [heapUsable, if_neg (by lia), hback, hsize, sub32_of_le (by lia) (by lia)]
  lia

theorem HeapOk.payloads (ok : HeapOk h live L) : Payloads h live where
  aligned p hp := by
    have hdr : HDR = 4 := rfl
    obtain ⟨b, s, hb, rfl⟩ := (ok.live_iff p).mp hp
    obtain ⟨r, -, -, -, -, -, hmod, -⟩ := ok.inv.wf.block hb
    lia
  inside p hp := by
    obtain ⟨b, s, hb, rfl⟩ := (ok.live_iff p).mp hp
    have hu := ok.inv.usable hb
    obtain ⟨r, hr, hlo, -, hend, -⟩ := ok.inv.wf.block hb
    simp only at hend
    refine ⟨r.grant, ?_, ?_, ?_⟩
    · rw [ok.inv.granted]
      exact List.mem_map_of_mem hr
    · exact hlo.trans (Nat.le_add_right _ _)
    · simp only [Region.grant]
      lia
  apart p hp q hq := by
    obtain ⟨b, s, hb, rfl⟩ := (ok.live_iff p).mp hp
    obtain ⟨c, t, hc, rfl⟩ := (ok.live_iff q).mp hq
    have hu := ok.inv.usable hb
    have hv := ok.inv.usable hc
    have hd := ok.inv.wf.blocks_disjoint hb hc
    simp only at hd
    lia

theorem HeapOk.zero_not_mem (ok : HeapOk h live L) : 0 ∉ live := fun h0 => by
  have hdr : HDR = 4 := rfl
  obtain ⟨b, s, -, h0⟩ := (ok.live_iff 0).mp h0
  lia

/-- A client write. -/
theorem HeapOk.write (ok : HeapOk h live L) {m' : Memory}
    (hm : ∀ a, ¬ ClientByte h live a → m' a = h.mem a) : HeapOk { h with mem := m' } live L := by
  refine ⟨ok.inv.frame_owned fun a ha => hm a ?_, ok.nodup, ok.live_iff⟩
  obtain ⟨⟨r, hr, hlo, hhi⟩, hout⟩ := ha
  rintro (hno | ⟨p, hp, hle, hlt⟩)
  · refine hno ⟨r.grant, ?_, hlo, ?_⟩
    · rw [ok.inv.granted]
      exact List.mem_map_of_mem hr
    · simp only [Region.grant]
      lia
  · obtain ⟨b, s, hb, rfl⟩ := (ok.live_iff p).mp hp
    have hu := ok.inv.usable hb
    exact hout ⟨b, s, hb, hle, by lia⟩

/-! ### One call -/

/-- The live payloads with one block more. -/
theorem HeapOk.placed {live' : List Nat} {Q : Nat → Nat → Prop} (hi' : HeapInv h' L' (FreeAt L'))
    (hnodup : live'.Nodup) (hlive : ∀ p, p ∈ live' ↔ ∃ y u, Q y u ∧ p = y + HDR)
    (hnew : ∀ u, ¬ Q b u) (hused : ∀ y u, UsedAt L' y u ↔ Q y u ∨ y = b ∧ u = t) :
    HeapOk h' ((b + HDR) :: live') L' := by
  refine ⟨hi', List.nodup_cons.mpr ⟨fun hmem => ?_, hnodup⟩, fun p => ?_⟩
  · obtain ⟨b', s, hb', heq⟩ := (hlive _).mp hmem
    obtain rfl : b = b' := Nat.add_right_cancel heq
    exact hnew s hb'
  · rw [List.mem_cons, hlive]
    constructor
    · rintro (rfl | ⟨y, u, hy, rfl⟩)
      · exact ⟨b, t, (hused b t).mpr (Or.inr ⟨rfl, rfl⟩), rfl⟩
      · exact ⟨y, u, (hused y u).mpr (Or.inl hy), rfl⟩
    · rintro ⟨y, u, hy, rfl⟩
      rcases (hused y u).mp hy with hy | ⟨rfl, rfl⟩
      · exact Or.inr ⟨y, u, hy, rfl⟩
      · exact Or.inl rfl

theorem HeapOk.took (ok : HeapOk h live L) (ht : Took L h' p n) :
    (∃ L', HeapOk h' (p :: live) L') ∧ n ≤ heapUsable h' p + HDR := by
  obtain ⟨L', b, t, rfl, hn, hi', hnew, hused⟩ := ht
  refine ⟨⟨L', HeapOk.placed hi' ok.nodup ok.live_iff hnew hused⟩, ?_⟩
  exact hi'.usable ((hused b t).mpr (Or.inr ⟨rfl, rfl⟩)) ▸ hn

theorem HeapOk.mem_erase (ok : HeapOk h live L) (b p : Nat) :
    p ∈ live.erase (b + HDR) ↔ ∃ y u, (UsedAt L y u ∧ y ≠ b) ∧ p = y + HDR := by
  rw [ok.nodup.mem_erase_iff, ok.live_iff]
  constructor
  · rintro ⟨hne, y, u, hy, rfl⟩
    exact ⟨y, u, ⟨hy, fun hyb => hne (by rw [hyb])⟩, rfl⟩
  · rintro ⟨y, u, ⟨hy, hne⟩, rfl⟩
    exact ⟨fun heq => hne (Nat.add_right_cancel heq), y, u, hy, rfl⟩

theorem HeapOk.freed (ok : HeapOk h live L) {L' : List Region} (hi' : HeapInv h' L' (FreeAt L'))
    (hused : ∀ y u, UsedAt L' y u ↔ UsedAt L y u ∧ y ≠ b) :
    HeapOk h' (live.erase (b + HDR)) L' := by
  refine ⟨hi', ok.nodup.erase _, fun p => ?_⟩
  rw [ok.mem_erase]
  simp only [hused]

theorem HeapOk.moved (ok : HeapOk h live L) (hm : Moved L b h' p n) :
    (∃ L', HeapOk h' (p :: live.erase (b + HDR)) L') ∧ n ≤ heapUsable h' p + HDR := by
  obtain ⟨L', b', t, rfl, hn, hi', hor, hused⟩ := hm
  refine ⟨⟨L', HeapOk.placed hi' (ok.nodup.erase _) (ok.mem_erase b) ?_ hused⟩, ?_⟩
  · rintro u ⟨hu, hne⟩
    rcases hor with rfl | hnew
    · exact hne rfl
    · exact hnew u hu
  · exact hi'.usable ((hused b' t).mpr (Or.inr ⟨rfl, rfl⟩)) ▸ hn

/-- **Allocation**: a new payload of the size asked for, or 0 and the blocks as they
were. -/
theorem HeapOk.alloc {regionBytes : Nat} (ok : HeapOk h live L) (hsrc : Honest src) (size : Nat) :
    ∃ h' p, heapAlloc src regionBytes h size = some (h', p) ∧
      (p ≠ 0 → (∃ L', HeapOk h' (p :: live) L') ∧ size ≤ heapUsable h' p) ∧
      (p = 0 → HeapOk h' live L ∧ (MAX_REQUEST < size ∨
        ((∀ y s, FreeAt L y s → s < size + HDR) ∧
          src.answer h.granted (blockFor size + CTL_BYTES) = 0))) := by
  obtain ⟨h', p, halloc, hsome, hnone⟩ := @heapAlloc_spec _ L src regionBytes ok.inv hsrc size
  refine ⟨h', p, halloc, fun hp => ?_, fun hp => ?_⟩
  · obtain ⟨hle, htook⟩ := hsome hp
    obtain ⟨hok, hn⟩ := ok.took htook
    have hfit := (blockFor_spec hle).1
    exact ⟨hok, by lia⟩
  · obtain ⟨hi', hwhy⟩ := hnone hp
    exact ⟨⟨hi', ok.nodup, ok.live_iff⟩, hwhy⟩

/-- What a legal call does to a heap that is in order. -/
def CallOk (src : RegionSource) (regionBytes : Nat) (h : HeapState) (live : List Nat)
    (c : Call) : Prop :=
  ∃ h' r, exec src regionBytes h c = some (h', r) ∧
    (∃ L', HeapOk h' (liveAfter live r c) L') ∧ (r ≠ 0 → c.requested ≤ heapUsable h' r)

theorem calloc_ok (ok : HeapOk h live L) (hsrc : Honest src) (count size : Nat) :
    CallOk src regionBytes h live (.calloc count size) := by
  obtain ⟨h', p, hcalloc, hsome, hnone⟩ :=
    @heapCalloc_spec _ L src regionBytes ok.inv hsrc count size
  refine ⟨h', p, hcalloc, ?_, fun hp => ?_⟩
  · by_cases hp : p = 0
    · exact ⟨L, by simpa [liveAfter, hp] using ⟨hnone hp, ok.nodup, ok.live_iff⟩⟩
    · simpa [liveAfter, hp] using (ok.took (hsome hp)).1
  · exact Nat.le_of_add_le_add_right (ok.took (hsome hp)).2

theorem free_ok (ok : HeapOk h live L) (hlegal : payload = 0 ∨ payload ∈ live) :
    CallOk src regionBytes h live (.free payload) := by
  rcases hlegal with rfl | hp
  · refine ⟨{ h with nFree := add32 h.nFree 1 }, 0, rfl, ⟨L, ?_⟩, fun hc => absurd rfl hc⟩
    show HeapOk _ (live.erase 0) L
    rw [List.erase_of_not_mem ok.zero_not_mem]
    exact ⟨⟨ok.inv.wf, ok.inv.ctl, ok.inv.granted, ok.inv.tagged, ok.inv.free, ok.inv.listed⟩,
      ok.nodup, ok.live_iff⟩
  · obtain ⟨b, s, hb, rfl⟩ := (ok.live_iff payload).mp hp
    obtain ⟨m', L', hfree, hi', hused⟩ := heapFree_spec ok.inv hb
    refine ⟨{ h with mem := m', nFree := add32 h.nFree 1 }, 0, ?_, ⟨L', ok.freed ?_ hused⟩,
      fun hc => absurd rfl hc⟩
    · rw [exec, hfree, Option.map_some]
    · exact ⟨hi'.wf, hi'.ctl, hi'.granted, hi'.tagged, hi'.free, hi'.listed⟩

theorem realloc_ok (ok : HeapOk h live L) (hsrc : Honest src) (size : Nat)
    (hlegal : payload = 0 ∨ payload ∈ live) :
    CallOk src regionBytes h live (.realloc payload size) := by
  rcases hlegal with rfl | hp
  · -- of the null pointer: an allocation
    have ok0 : HeapOk { h with nRealloc := add32 h.nRealloc 1 } live L :=
      ⟨⟨ok.inv.wf, ok.inv.ctl, ok.inv.granted, ok.inv.tagged, ok.inv.free, ok.inv.listed⟩,
        ok.nodup, ok.live_iff⟩
    obtain ⟨h', p, halloc, hsome, hnone⟩ := @HeapOk.alloc _ _ _ src regionBytes ok0 hsrc size
    refine ⟨h', p, halloc, ?_, fun hp => (hsome hp).2⟩
    simp only [liveAfter, List.erase_of_not_mem ok.zero_not_mem, ite_self]
    split
    · next hp => exact (hsome hp).1
    · next hp => exact ⟨L, (hnone (not_not.mp hp)).1⟩
  · obtain ⟨b, s, hb, rfl⟩ := (ok.live_iff payload).mp hp
    obtain ⟨h', p, hrealloc, hzero, hmoved, hnone⟩ :=
      @heapRealloc_spec _ L src regionBytes ok.inv hsrc b s hb size
    refine ⟨h', p, hrealloc, ?_, fun hp => ?_⟩
    · by_cases h0 : size = 0
      · obtain ⟨rfl, L', hi', hused⟩ := hzero h0
        exact ⟨L', by simpa [liveAfter, h0] using ok.freed hi' hused⟩
      · by_cases hp : p = 0
        · exact ⟨L, by simpa [liveAfter, h0, hp] using ⟨hnone h0 hp, ok.nodup, ok.live_iff⟩⟩
        · simpa [liveAfter, hp] using (ok.moved (hmoved h0 hp)).1
    · by_cases h0 : size = 0
      · exact absurd (hzero h0).1 hp
      · exact Nat.le_of_add_le_add_right (ok.moved (hmoved h0 hp)).2

/-- **The step lemma**: a legal call returns, and leaves the heap in order. -/
theorem exec_spec (ok : HeapOk h live L) (hsrc : Honest src) {c : Call} (hlegal : c.Legal live) :
    CallOk src regionBytes h live c := by
  cases c with
  | alloc size =>
    obtain ⟨h', p, halloc, hsome, hnone⟩ := @HeapOk.alloc _ _ _ src regionBytes ok hsrc size
    refine ⟨h', p, halloc, ?_, fun hp => (hsome hp).2⟩
    by_cases hp : p = 0
    · exact ⟨L, by simpa [liveAfter, hp] using (hnone hp).1⟩
    · simpa [liveAfter, hp] using (hsome hp).1
  | calloc count size => exact calloc_ok ok hsrc count size
  | free payload => exact free_ok ok hlegal
  | realloc payload size => exact realloc_ok ok hsrc size hlegal

/-- **The run lemma**: the heap is in order in every state of a run. -/
theorem reachable_ok (hr : Reachable regionBytes h live) : ∃ L, HeapOk h live L := by
  induction hr with
  | start hsrc hp hinit =>
    obtain ⟨h', ok, hinit', hsome, -⟩ := heapInit_spec hp hsrc
    obtain ⟨rfl, rfl⟩ := Prod.mk.inj (hinit.symm.trans hinit')
    obtain ⟨L, hi, hnone⟩ := hsome rfl
    refine ⟨L, hi, List.nodup_nil, fun p => iff_of_false List.not_mem_nil ?_⟩
    rintro ⟨b, s, hb, -⟩
    exact hnone b s hb
  | call _ hsrc hlegal hexec ih =>
    obtain ⟨L, ok⟩ := ih
    obtain ⟨h', r, hexec', hok, -⟩ := exec_spec ok hsrc hlegal
    obtain ⟨rfl, rfl⟩ := Prod.mk.inj (Option.some.inj (hexec.symm.trans hexec'))
    exact hok
  | write _ hm ih =>
    obtain ⟨L, ok⟩ := ih
    exact ⟨L, ok.write hm⟩

theorem Reachable.calls {cs : List Call} {live' : List Nat} (hr : Reachable regionBytes h live)
    (hsrc : Honest src) (hrun : runCalls src regionBytes h live cs = some (h', live')) :
    Reachable regionBytes h' live' := by
  induction cs generalizing h live with
  | nil =>
    cases hrun
    exact hr
  | cons c cs ih =>
    obtain ⟨⟨h1, r⟩, hexec, hrest⟩ := Option.bind_eq_some_iff.mp hrun
    simp only at hrest
    by_cases hlegal : c.Legal live
    · rw [if_pos hlegal] at hrest
      exact ih (hr.call hsrc hlegal hexec) hrest
    · rw [if_neg hlegal] at hrest
      cases hrest

end

/-! ### The allocator's contract -/

/-- **In every state of a run the heap is in order, every legal call returns, leaves it
in order and gives at least the bytes asked for; and `alloc` gives 0 only above the
limit, or when no free block is large enough and the source refuses.** -/
theorem heap_invariant {regionBytes : Nat} {h : HeapState} {live : List Nat}
    (hr : Reachable regionBytes h live) :
    ∃ L, HeapOk h live L ∧ Payloads h live ∧
      ∀ src, Honest src →
        (∀ c : Call, c.Legal live → CallOk src regionBytes h live c) ∧
        ∀ size h', heapAlloc src regionBytes h size = some (h', 0) →
          HeapOk h' live L ∧ (MAX_REQUEST < size ∨
            ((∀ y s, FreeAt L y s → s < size + HDR) ∧
              src.answer h.granted (blockFor size + CTL_BYTES) = 0)) := by
  obtain ⟨L, ok⟩ := reachable_ok hr
  refine ⟨L, ok, ok.payloads, fun src hsrc => ⟨fun c hc => exec_spec ok hsrc hc, ?_⟩⟩
  intro size h' halloc
  obtain ⟨h1, p, halloc', -, hnone⟩ := @HeapOk.alloc _ _ _ src regionBytes ok hsrc size
  obtain ⟨rfl, rfl⟩ := Prod.mk.inj (Option.some.inj (halloc.symm.trans halloc'))
  exact hnone rfl

/-- `memory.grow`: every region starts where the ones before it end. -/
def bumpSource : RegionSource where
  answer granted n :=
    let top := granted.foldr (fun g t => max (g.1 + g.2) t) 8
    if top + n ≤ 2 ^ 32 then top else 0
  effect _ _ m := m

theorem le_top {granted : List Grant} {g : Grant} (hg : g ∈ granted) :
    g.1 + g.2 ≤ granted.foldr (fun g t => max (g.1 + g.2) t) 8 := by
  induction granted with
  | nil => cases hg
  | cons g' granted ih =>
    rcases List.mem_cons.mp hg with rfl | hg
    · exact Nat.le_max_left _ _
    · exact (ih hg).trans (Nat.le_max_right _ _)

theorem bumpSource_honest : Honest bumpSource where
  fits granted n h0 := by
    simp only [bumpSource] at h0 ⊢
    split at h0
    · next hle => rwa [if_pos hle]
    · exact absurd rfl h0
  apart granted n h0 g hg := by
    simp only [bumpSource] at h0 ⊢
    split at h0
    · next hle =>
      rw [if_pos hle]
      exact Or.inr (le_top hg)
    · exact absurd rfl h0
  effect _ _ _ _ _ := rfl

/-- Memory of zeros, before the first region. -/
def zeroHeap : HeapState := ⟨fun _ => 0, 0, 0, 0, 0, 0, []⟩

/-- The heap after `heapInit`. -/
def firstHeap : HeapState := (heapInit bumpSource 65536 zeroHeap).1

theorem firstHeap_reachable : Reachable 65536 firstHeap [] := by
  refine @Reachable.start _ _ zeroHeap _ bumpSource_honest ⟨rfl, rfl⟩ ?_
  exact Prod.ext rfl (by decide +kernel)

/-- A client: three payloads, of which the first is freed and the second outgrows its block. -/
def clientCalls : List Call := [.alloc 24, .alloc 100, .alloc 8, .free 288, .realloc 320 300]

def clientHeap : HeapState :=
  ((runCalls bumpSource 65536 firstHeap [] clientCalls).map Prod.fst).getD zeroHeap

theorem clientHeap_reachable : Reachable 65536 clientHeap [440, 424] := by
  have hlive : (runCalls bumpSource 65536 firstHeap [] clientCalls).map Prod.snd =
      some [440, 424] := by decide +kernel
  obtain ⟨⟨h, live⟩, hrun, rfl⟩ := Option.map_eq_some_iff.mp hlive
  have hheap : clientHeap = h := by rw [clientHeap, hrun]; rfl
  exact hheap ▸ firstHeap_reachable.calls bumpSource_honest hrun

theorem clientHeap_invariant :
    ∃ L, HeapOk clientHeap [440, 424] L ∧ Payloads clientHeap [440, 424] ∧
      ∀ src, Honest src →
        (∀ c : Call, c.Legal [440, 424] → CallOk src 65536 clientHeap [440, 424] c) ∧
        ∀ size h', heapAlloc src 65536 clientHeap size = some (h', 0) →
          HeapOk h' [440, 424] L ∧ (MAX_REQUEST < size ∨
            ((∀ y s, FreeAt L y s → s < size + HDR) ∧
              src.answer clientHeap.granted (blockFor size + CTL_BYTES) = 0)) :=
  heap_invariant clientHeap_reachable

/-- A request above the limit fails although the source has the memory. -/
theorem heapAlloc_limit_fails_unasked :
    ¬ ∀ (regionBytes : Nat) (h : HeapState) (live : List Nat), Reachable regionBytes h live →
      ∀ src, Honest src → ∀ size h', heapAlloc src regionBytes h size = some (h', 0) →
        (∃ L, HeapOk h live L ∧ ∀ y s, FreeAt L y s → s < size + HDR) ∧
          src.answer h.granted (blockFor size + CTL_BYTES) = 0 := by
  intro hall
  have h0 := (hall 65536 firstHeap [] firstHeap_reachable bumpSource bumpSource_honest 0x7ffffff1
    { firstHeap with nAlloc := add32 firstHeap.nAlloc 1 } rfl).2
  revert h0
  decide +kernel

end Js2Wasm.Heap
