import Js2Wasm.Linear.HashOps

/-! # Programs over hash tables

A program makes any number of tables of the four kinds and calls their operations in any
order.  The specification keeps a finite map for each table.  As long as every key is
present or its table has a free slot, the program returns what the finite maps answer, and
the table invariant holds after every call.
-/
namespace Js2Wasm.Linear
open List WordMemory

/-- A call; tables are numbered in the order in which they are made. -/
inductive TableOp where
  | new (T : TableKind) (cap : UInt32)
  /-- `__map_set`, `__set_add` and their i32-keyed twins. -/
  | put (t : Nat) (key val : UInt32)
  | get (t : Nat) (key : UInt32)
  | has (t : Nat) (key : UInt32)
  | size (t : Nat)

structure TableState (σ : Type) where
  mem : Memory
  heap : σ
  /-- The kind and the pointer of each table made so far. -/
  tables : List (TableKind × Nat)

section
variable {σ : Type} (M : Malloc σ) (fuel : Nat)

def callNew (m : Memory) (h : σ) (cap : Nat) : TableKind → Except Halt (Nat × Memory × σ)
  | ⟨true, true⟩ => mapNew M m cap h
  | ⟨true, false⟩ => setNew M m cap h
  | ⟨false, true⟩ => nmapNew M m cap h
  | ⟨false, false⟩ => nsetNew M m cap h

def callPut (m : Memory) (table key val : Nat) : TableKind → Except Halt Memory
  | ⟨true, true⟩ => mapSet fuel m table key val
  | ⟨true, false⟩ => setAdd fuel m table key
  | ⟨false, true⟩ => nmapSet fuel m table key val
  | ⟨false, false⟩ => nsetAdd fuel m table key

/-- Sets have no such function. -/
def callGet (m : Memory) (table key : Nat) : TableKind → Except Halt Nat
  | ⟨true, true⟩ => mapGet fuel m table key
  | ⟨false, true⟩ => nmapGet fuel m table key
  | ⟨_, false⟩ => .error .trap

def callHas (m : Memory) (table key : Nat) : TableKind → Except Halt Nat
  | ⟨true, true⟩ => mapHas fuel m table key
  | ⟨true, false⟩ => setHas fuel m table key
  | ⟨false, true⟩ => nmapHas fuel m table key
  | ⟨false, false⟩ => nsetHas fuel m table key

def callSize (m : Memory) (table : Nat) : TableKind → Nat
  | ⟨true, true⟩ => mapSize m table
  | ⟨true, false⟩ => setSize m table
  | ⟨false, true⟩ => nmapSize m table
  | ⟨false, false⟩ => nsetSize m table

/-- One call: the state after it and the answer. -/
def stepTable (s : TableState σ) : TableOp → Except Halt (TableState σ × Nat)
  | .new T cap =>
    match callNew M s.mem s.heap cap.toNat T with
    | .error e => .error e
    | .ok (p, m, h) => .ok (⟨m, h, s.tables ++ [(T, p)]⟩, s.tables.length)
  | .put t key val =>
    match s.tables[t]? with
    | none => .error .trap
    | some (T, p) =>
      match callPut fuel s.mem p key.toNat val.toNat T with
      | .error e => .error e
      | .ok m => .ok ({ s with mem := m }, 0)
  | .get t key =>
    match s.tables[t]? with
    | none => .error .trap
    | some (T, p) =>
      match callGet fuel s.mem p key.toNat T with
      | .error e => .error e
      | .ok v => .ok (s, v)
  | .has t key =>
    match s.tables[t]? with
    | none => .error .trap
    | some (T, p) =>
      match callHas fuel s.mem p key.toNat T with
      | .error e => .error e
      | .ok v => .ok (s, v)
  | .size t =>
    match s.tables[t]? with
    | none => .error .trap
    | some (T, p) => .ok (s, callSize s.mem p T)

end

/-! ### The specification -/

/-- A table as a finite map. -/
structure AbsTable where
  kind : TableKind
  cap : Nat
  pairs : List (Key × Nat)

section
variable (strings : Strings)

/-- The key that is passed as an i32. -/
def keyOf (T : TableKind) (key : UInt32) : Key :=
  if T.strKeys then .str ((strings key.toNat).getD []) else .num key.toNat

def AbsTable.put (a : AbsTable) (key val : UInt32) : AbsTable :=
  ⟨a.kind, a.cap, KeyedList.set sameKey a.pairs (keyOf strings a.kind key)
    (if a.kind.hasValue then val.toNat else 0)⟩

def absStep (ts : List AbsTable) : TableOp → List AbsTable × Nat
  | .new T cap => (ts ++ [⟨T, cap.toNat, []⟩], ts.length)
  | .put t key val => (ts.modify t fun a => a.put strings key val, 0)
  | .get t key =>
    (ts, (ts[t]?.bind fun a => KeyedList.get? sameKey a.pairs (keyOf strings a.kind key)).getD 0)
  | .has t key =>
    (ts, (ts[t]?.elim false fun a =>
      KeyedList.has sameKey a.pairs (keyOf strings a.kind key)).toNat)
  | .size t => (ts, ts[t]?.elim 0 fun a => a.pairs.length)

/-- The key is known and has room in its table. -/
def AbsTable.Takes (a : AbsTable) (key : UInt32) : Prop :=
  (a.kind.strKeys = true → (strings key.toNat).isSome) ∧
    Room a.cap a.pairs (keyOf strings a.kind key)

/-- The calls that return: the size of a new table is a 32-bit number, and each key is
present or has room. -/
def Admits (ts : List AbsTable) : TableOp → Prop
  | .new T cap => 0 < cap.toNat ∧ 16 + cap.toNat * T.entryBytes < 2 ^ 32
  | .put t key _ => ∃ a, ts[t]? = some a ∧ a.Takes strings key
  | .get t key => ∃ a, ts[t]? = some a ∧ a.kind.hasValue = true ∧ a.Takes strings key
  | .has t key => ∃ a, ts[t]? = some a ∧ a.Takes strings key
  | .size t => ∃ a, ts[t]? = some a

def AdmitsAll (ts : List AbsTable) : List TableOp → Prop
  | [] => True
  | op :: ops => Admits strings ts op ∧ AdmitsAll (absStep strings ts op).1 ops

end

/-! ### The simulation -/

/-- Table `t` lies at `p` and stands for `a`. -/
def IsTable {σ : Type} (s : TableState σ) (ts : List AbsTable) (t p : Nat) (a : AbsTable) : Prop :=
  s.tables[t]? = some (a.kind, p) ∧ ts[t]? = some a

/-- The bytes of a string. -/
def strBlock (p : Nat) (bytes : List UInt8) : Block := ⟨p, 12 + bytes.length⟩

/-- **The state stands for the finite maps**: every table invariant holds, and tables and
strings lie in blocks of their own. -/
structure Represents {σ : Type} (M : Malloc σ) (strings : Strings) (s : TableState σ)
    (ts : List AbsTable) : Prop where
  length : s.tables.length = ts.length
  isTable : ∀ {t a}, ts[t]? = some a → ∃ p, IsTable s ts t p a
  holds : ∀ {t p a}, IsTable s ts t p a → Holds strings a.kind s.mem p a.cap a.pairs
  granted : ∀ {t p a}, IsTable s ts t p a → a.kind.block p a.cap ∈ M.blocks s.heap
  apart : ∀ {t u p q a b}, IsTable s ts t p a → IsTable s ts u q b → t ≠ u →
    (a.kind.block p a.cap).Apart (b.kind.block q b.cap)
  stringsIn : strings.In s.mem
  inBlock : ∀ {p bytes}, strings p = some bytes → ∃ b ∈ M.blocks s.heap,
    b.base ≤ p ∧ p + 12 + bytes.length ≤ b.base + b.size
  stringApart : ∀ {p bytes t q a}, strings p = some bytes → IsTable s ts t q a →
    (strBlock p bytes).Apart (a.kind.block q a.cap)

/-- The state before any table is made: the strings lie in blocks of the heap. -/
structure Fresh {σ : Type} (M : Malloc σ) (strings : Strings) (s : TableState σ) : Prop where
  none : s.tables = []
  stringsIn : strings.In s.mem
  inBlock : ∀ {p bytes}, strings p = some bytes → ∃ b ∈ M.blocks s.heap,
    b.base ≤ p ∧ p + 12 + bytes.length ≤ b.base + b.size

section
variable {σ : Type} {M : Malloc σ} {strings : Strings} {s : TableState σ} {ts : List AbsTable}
  {T : TableKind} {fuel t p : Nat} {a : AbsTable}

theorem Fresh.represents (h : Fresh M strings s) : Represents M strings s [] where
  length := by rw [h.none]; rfl
  isTable h := nomatch h
  holds h := nomatch h.2
  granted h := nomatch h.2
  apart h := nomatch h.2
  stringsIn := h.stringsIn
  inBlock := h.inBlock
  stringApart _ h := nomatch h.2

variable (m : Memory)

/-! The four copies are the operations on the four kinds. -/

theorem callNew_eq (h : σ) (cap : Nat) : callNew M m h cap T = T.create M cap m h := by
  obtain ⟨_ | _, _ | _⟩ := T <;> rfl

theorem callPut_eq (table key val : Nat) :
    callPut fuel m table key val T = T.put fuel m table key (if T.hasValue then val else 0) := by
  obtain ⟨_ | _, _ | _⟩ := T <;> rfl

theorem callGet_eq (table key : Nat) (hval : T.hasValue = true) :
    callGet fuel m table key T = T.get fuel m table key := by
  obtain ⟨_ | _, _ | _⟩ := T
  · exact nomatch hval
  · rfl
  · exact nomatch hval
  · rfl

theorem callHas_eq (table key : Nat) :
    callHas fuel m table key T = T.has fuel m table key := by
  obtain ⟨_ | _, _ | _⟩ := T <;> rfl

theorem callSize_eq (table : Nat) : callSize m table T = tableSize m table := by
  obtain ⟨_ | _, _ | _⟩ := T <;> rfl

theorem denotes_keyOf {key : UInt32} (h : T.strKeys = true → (strings key.toNat).isSome) :
    Denotes strings T key.toNat (keyOf strings T key) := by
  rw [keyOf]
  by_cases hstr : T.strKeys = true
  · obtain ⟨bytes, hb⟩ := Option.isSome_iff_exists.mp (h hstr)
    rw [if_pos hstr, hb]
    exact ⟨hstr, hb⟩
  · rw [if_neg hstr]
    exact ⟨Bool.eq_false_of_not_eq_true hstr, rfl⟩

theorem Represents.cap_le (h : Represents M strings s ts) (ht : IsTable s ts t p a) :
    a.cap ≤ 2 ^ 32 := by
  have hfits := (h.holds ht).fits
  rcases a.kind.entryBytes_cases with ⟨-, he⟩ | ⟨-, he⟩ <;> rw [he] at hfits <;> omega

variable {m : Memory} {u q : Nat} {b : AbsTable}

/-- A table is never over-full. -/
theorem Holds.length_le {cap : Nat} {l : List (Key × Nat)} (h : Holds strings T m p cap l) :
    l.length ≤ cap := by
  obtain ⟨slot, hslot⟩ := h.slots
  have hle := length_filterMap_le slot (range cap)
  rw [length_range] at hle
  exact hslot.perm.length_eq ▸ hle

/-- A table of the state after a call that updates one table. -/
theorem isTable_modify {f : AbsTable → AbsTable} (hf : ∀ a, (f a).kind = a.kind ∧ (f a).cap = a.cap)
    (h : IsTable { s with mem := m } (ts.modify t f) u q b) :
    ∃ b0, IsTable s ts u q b0 ∧ b.kind = b0.kind ∧ b.cap = b0.cap ∧
      b = if t = u then f b0 else b0 := by
  obtain ⟨hptr, hb⟩ := h
  rw [getElem?_modify] at hb
  obtain ⟨b0, hb0, rfl⟩ := Option.map_eq_some_iff.mp hb
  have hkind : (if t = u then f b0 else b0).kind = b0.kind := by
    split
    · exact (hf b0).1
    · rfl
  refine ⟨b0, ⟨hkind ▸ hptr, hb0⟩, hkind, ?_, rfl⟩
  split
  · exact (hf b0).2
  · rfl

/-- A write to one table. -/
theorem Represents.write (h : Represents M strings s ts) (ht : IsTable s ts t p a) {m : Memory}
    {f : AbsTable → AbsTable} (hf : ∀ a, (f a).kind = a.kind ∧ (f a).cap = a.cap)
    (hagree : AgreeOff (a.kind.block p a.cap) s.mem m)
    (hholds : Holds strings a.kind m p a.cap (f a).pairs) :
    Represents M strings { s with mem := m } (ts.modify t f) where
  length := by rw [length_modify]; exact h.length
  isTable := by
    intro u b hb
    rw [getElem?_modify] at hb
    obtain ⟨b0, hb0, rfl⟩ := Option.map_eq_some_iff.mp hb
    obtain ⟨q, hq, -⟩ := h.isTable hb0
    refine ⟨q, ?_, ?_⟩
    · split
      · rw [(hf b0).1]
        exact hq
      · exact hq
    · rw [getElem?_modify, hb0]
      rfl
  holds := by
    intro u q b hb
    obtain ⟨b0, hb0, hkind, hcap, hbeq⟩ := isTable_modify hf hb
    by_cases htu : t = u
    · subst htu
      obtain ⟨-, hq⟩ := Prod.mk.inj (Option.some.inj (hb0.1.symm.trans ht.1))
      obtain rfl := Option.some.inj (hb0.2.symm.trans ht.2)
      rw [hkind, hcap, hq, hbeq, if_pos rfl]
      exact hholds
    · rw [hbeq, if_neg htu]
      exact (h.holds hb0).congr fun x hx => hagree x ((h.apart hb0 ht (Ne.symm htu)).not_has hx)
  granted := by
    intro u q b hb
    obtain ⟨b0, hb0, hkind, hcap, -⟩ := isTable_modify hf hb
    rw [hkind, hcap]
    exact h.granted hb0
  apart := by
    intro u w q r b c hb hc huw
    obtain ⟨b0, hb0, hkind, hcap, -⟩ := isTable_modify hf hb
    obtain ⟨c0, hc0, hkind', hcap', -⟩ := isTable_modify hf hc
    rw [hkind, hcap, hkind', hcap']
    exact h.apart hb0 hc0 huw
  stringsIn := by
    intro q bytes hq
    refine (h.stringsIn q bytes hq).congr fun x hx hx' => hagree x ?_
    refine (h.stringApart hq ht).not_has ⟨hx, ?_⟩
    rw [strBlock, ← Nat.add_assoc]
    exact hx'
  inBlock := h.inBlock
  stringApart := by
    intro q bytes u r b hq hb
    obtain ⟨b0, hb0, hkind, hcap, -⟩ := isTable_modify hf hb
    rw [hkind, hcap]
    exact h.stringApart hq hb0

/-- A table of the state after a new one is made. -/
theorem isTable_append {h : σ} {a : AbsTable} (hlen : s.tables.length = ts.length)
    (hb : IsTable ⟨m, h, s.tables ++ [(a.kind, p)]⟩ (ts ++ [a]) u q b) :
    IsTable s ts u q b ∨ u = ts.length ∧ q = p ∧ b = a := by
  obtain ⟨hptr, hb⟩ := hb
  rcases getElem?_snoc hb, getElem?_snoc hptr with ⟨hold | ⟨rfl, rfl⟩, hold' | ⟨hu, hpair⟩⟩
  · exact Or.inl ⟨hold', hold⟩
  · exact absurd (List.getElem?_eq_some_iff.mp hold).1 (by omega)
  · exact absurd (List.getElem?_eq_some_iff.mp hold').1 (by omega)
  · exact Or.inr ⟨rfl, (Prod.mk.inj hpair).2, rfl⟩

/-- The tables in a memory that agrees on the blocks of the heap. -/
theorem Represents.frame {σ' : Type} {M' : Malloc σ'} {h' : σ'} (h : Represents M strings s ts)
    (hin : Intact (M.blocks s.heap) (M'.blocks h') s.mem m) :
    Represents M' strings ⟨m, h', s.tables⟩ ts where
  length := h.length
  isTable := h.isTable
  holds ht := (h.holds ht).congr (hin _ (h.granted ht)).2
  granted ht := (hin _ (h.granted ht)).1
  apart := h.apart
  stringsIn p bytes hp := by
    obtain ⟨b, hb, hlow, hhigh⟩ := h.inBlock hp
    exact (h.stringsIn p bytes hp).congr fun x hx hx' => (hin b hb).2 x ⟨by omega, by omega⟩
  inBlock hp := by
    obtain ⟨b, hb, hbounds⟩ := h.inBlock hp
    exact ⟨b, (hin b hb).1, hbounds⟩
  stringApart := h.stringApart

/-- A new table. -/
theorem Represents.new (h : Represents M strings s ts) {m : Memory} {heap : σ}
    (hgrant : Granted (M.blocks s.heap) (M.blocks heap) s.mem m p (16 + a.cap * a.kind.entryBytes))
    (hholds : Holds strings a.kind m p a.cap a.pairs) :
    Represents M strings ⟨m, heap, s.tables ++ [(a.kind, p)]⟩ (ts ++ [a]) := by
  have hframe : Represents M strings ⟨m, heap, s.tables⟩ ts := h.frame hgrant.intact
  exact {
    length := by rw [length_append, length_append, h.length]; rfl
    isTable := by
      intro u b hb
      rcases getElem?_snoc hb with hold | ⟨rfl, rfl⟩
      · obtain ⟨q, hq, -⟩ := h.isTable hold
        exact ⟨q, getElem?_snoc_old hq _, hb⟩
      · refine ⟨p, ?_, hb⟩
        rw [← h.length]
        exact getElem?_concat_length
    holds := by
      intro u q b hb
      rcases isTable_append h.length hb with hold | ⟨-, rfl, rfl⟩
      · exact hframe.holds hold
      · exact hholds
    granted := by
      intro u q b hb
      rcases isTable_append h.length hb with hold | ⟨-, rfl, rfl⟩
      · exact hframe.granted hold
      · exact hgrant.blocks ▸ mem_cons_self
    apart := by
      intro u w q r b c hb hc huw
      rcases isTable_append h.length hb with hold | ⟨rfl, rfl, rfl⟩ <;>
        rcases isTable_append h.length hc with hold' | ⟨rfl, rfl, rfl⟩
      · exact h.apart hold hold' huw
      · exact hgrant.apart _ (h.granted hold)
      · exact (hgrant.apart _ (h.granted hold')).symm
      · exact absurd rfl huw
    stringsIn := hframe.stringsIn
    inBlock := hframe.inBlock
    stringApart := by
      intro q bytes u r b hq hb
      rcases isTable_append h.length hb with hold | ⟨-, rfl, rfl⟩
      · exact h.stringApart hq hold
      · obtain ⟨c, hc, hlow, hhigh⟩ := h.inBlock hq
        have hcap := hgrant.apart c hc
        rw [Block.Apart, strBlock, TableKind.block]
        rw [Block.Apart] at hcap
        simp only at hcap ⊢
        omega }

/-- The call makes a table, and the allocator has no block for it. -/
def Refused (M : Malloc σ) (s : TableState σ) : TableOp → Prop
  | .new T cap => M.alloc s.mem s.heap (16 + cap.toNat * T.entryBytes) = none
  | _ => False

/-- The run of a program: every call returns what the finite maps answer and keeps every table
invariant.  Only a `new` that is refused ends the program. -/
def BehavesTables (M : Malloc σ) (strings : Strings) (fuel : Nat) :
    TableState σ → List AbsTable → List TableOp → Prop
  | _, _, [] => True
  | s, ts, op :: ops =>
    Refused M s op ∧ stepTable M fuel s op = .error .outOfMemory ∨
      ∃ s', stepTable M fuel s op = .ok (s', (absStep strings ts op).2) ∧
        Represents M strings s' (absStep strings ts op).1 ∧
        BehavesTables M strings fuel s' (absStep strings ts op).1 ops

section
variable (h : Represents M strings s ts) (hfuel : ∀ {t p a}, IsTable s ts t p a → a.cap ≤ fuel)
  (op : TableOp) (hop : Admits strings ts op)
include h hfuel op hop

/-- **One call.**  A probe takes at most as many steps as the table has slots, and writes
only to blocks of the heap. -/
theorem Represents.stepFrame :
    Refused M s op ∧ stepTable M fuel s op = .error .outOfMemory ∨
      ∃ s', stepTable M fuel s op = .ok (s', (absStep strings ts op).2) ∧
        Represents M strings s' (absStep strings ts op).1 ∧
        ∀ x, (∀ b ∈ M.blocks s'.heap, ¬ b.Has x) → s'.mem x = s.mem x := by
  cases op with
  | new T cap =>
    rw [stepTable, callNew_eq]
    cases hnew : T.create M cap.toNat s.mem s.heap with
    | error e =>
      rw [TableKind.create, mul32_of_lt ((Nat.le_add_left _ _).trans_lt hop.2),
        add32_of_lt hop.2] at hnew
      split at hnew
      · next halloc =>
        cases hnew
        exact Or.inl ⟨halloc, rfl⟩
      · cases hnew
    | ok r =>
      obtain ⟨p, m, heap⟩ := r
      obtain ⟨hgrant, hholds⟩ := @create_spec strings T s.mem m cap.toNat σ M s.heap heap p
        hop.1 hop.2 hnew
      refine Or.inr ⟨⟨m, heap, s.tables ++ [(T, p)]⟩, ?_, ?_, fun x hx => hgrant.frame x ?_⟩
      · rw [absStep, ← h.length]
      · exact @Represents.new σ M strings s ts p ⟨T, cap.toNat, []⟩ h m heap hgrant hholds
      · exact hx _ (hgrant.blocks ▸ mem_cons_self)
  | put t key val =>
    obtain ⟨a, ha, hknown, hroom⟩ := hop
    obtain ⟨p, ht⟩ := h.isTable ha
    have hval : (if a.kind.hasValue then val.toNat else 0) < 2 ^ 32 := by
      split
      · exact val.toNat_lt
      · decide
    have hset : a.kind.hasValue = false → (if a.kind.hasValue then val.toNat else 0) = 0 :=
      fun hv => if_neg (by rw [hv]; exact Bool.false_ne_true)
    have hcap := hfuel ht
    obtain ⟨m, hput, hholds, hagree⟩ := (h.holds ht).put h.stringsIn (denotes_keyOf hknown)
      key.toNat_lt hval hset hroom hcap
    rw [stepTable, ht.1]
    simp only [callPut_eq, hput]
    refine Or.inr ⟨_, rfl, ?_, fun x hx => hagree x (hx _ (h.granted ht))⟩
    exact h.write (f := fun a => a.put strings key val) ht (fun a => ⟨rfl, rfl⟩) hagree hholds
  | get t key =>
    obtain ⟨a, ha, hval, hknown, hroom⟩ := hop
    obtain ⟨p, ht⟩ := h.isTable ha
    have hcap := hfuel ht
    have hget := (h.holds ht).get h.stringsIn (denotes_keyOf hknown) hval hroom hcap
    rw [stepTable, ht.1]
    simp only [callGet_eq _ _ _ hval, hget]
    refine Or.inr ⟨s, ?_, h, fun _ _ => rfl⟩
    rw [absStep, ha]
    rfl
  | has t key =>
    obtain ⟨a, ha, hknown, hroom⟩ := hop
    obtain ⟨p, ht⟩ := h.isTable ha
    have hcap := hfuel ht
    have hhas := (h.holds ht).has h.stringsIn (denotes_keyOf hknown) hroom hcap
    rw [stepTable, ht.1]
    simp only [callHas_eq, hhas]
    refine Or.inr ⟨s, ?_, h, fun _ _ => rfl⟩
    rw [absStep, ha]
    rfl
  | size t =>
    obtain ⟨a, ha⟩ := hop
    obtain ⟨p, ht⟩ := h.isTable ha
    rw [stepTable, ht.1]
    simp only [callSize_eq]
    refine Or.inr ⟨s, ?_, h, fun _ _ => rfl⟩
    rw [absStep, ha, tableSize, (h.holds ht).countWord]
    rfl

end

/-- **Without room** no call for the key returns, whatever the fuel. -/
theorem Represents.step_full (h : Represents M strings s ts) {key : UInt32}
    (ha : ts[t]? = some a) (hknown : a.kind.strKeys = true → (strings key.toNat).isSome)
    (hroom : ¬ Room a.cap a.pairs (keyOf strings a.kind key)) (val : UInt32) :
    stepTable M fuel s (.put t key val) = .error .outOfFuel ∧
      stepTable M fuel s (.has t key) = .error .outOfFuel := by
  obtain ⟨p, ht⟩ := h.isTable ha
  have hholds := h.holds ht
  obtain ⟨hput, -, hhas⟩ := @Holds.full strings a.kind s.mem p a.cap key.toNat
    (if a.kind.hasValue then val.toNat else 0) fuel _ _ hholds h.stringsIn (denotes_keyOf hknown)
    hroom hholds.length_le
  rw [stepTable, stepTable, ht.1]
  simp only [callPut_eq, callHas_eq, hput, hhas]
  exact ⟨trivial, trivial⟩

theorem Represents.run (h : Represents M strings s ts) (hfuel : 2 ^ 32 ≤ fuel)
    (ops : List TableOp) (hops : AdmitsAll strings ts ops) :
    BehavesTables M strings fuel s ts ops := by
  induction ops generalizing s ts with
  | nil => trivial
  | cons op ops ih =>
    exact (h.stepFrame (fun ht => (h.cap_le ht).trans hfuel) op hops.1).imp_right
      fun ⟨s', hok, h', _⟩ => ⟨s', hok, h', ih h' hops.2⟩

/-- **Hash tables refine finite maps.**  In a program over tables of the four kinds, with
any keys, in which each key is present in its table or the table has a free slot, every
call returns what the finite maps answer, and after it every table invariant holds. -/
theorem runTables_refines (M : Malloc σ) (strings : Strings) (s : TableState σ)
    (h : Fresh M strings s) (ops : List TableOp) (hops : AdmitsAll strings [] ops) (fuel : Nat)
    (hfuel : 2 ^ 32 ≤ fuel) : BehavesTables M strings fuel s [] ops :=
  h.represents.run hfuel ops hops

end

/-! ### A full table -/

/-- An empty memory without strings. -/
def emptyProgram : TableState Arena := ⟨fun _ => 0, ⟨8, [], fun _ h => nomatch h⟩, []⟩

def smallMalloc : Malloc Arena := bumpMalloc 65536 (by decide)

theorem emptyProgram_fresh : Fresh smallMalloc (fun _ => none) emptyProgram where
  none := rfl
  stringsIn _ _ h := nomatch h
  inBlock h := nomatch h

/-- A map of two slots, which finds memory. -/
theorem runTables_refines_emptyProgram :
    ∃ s1 s2 s3 s4, stepTable smallMalloc (2 ^ 32) emptyProgram (.new numMap 2) = .ok (s1, 0) ∧
      stepTable smallMalloc (2 ^ 32) s1 (.put 0 5 7) = .ok (s2, 0) ∧
      stepTable smallMalloc (2 ^ 32) s2 (.get 0 5) = .ok (s3, 7) ∧
      stepTable smallMalloc (2 ^ 32) s3 (.has 0 6) = .ok (s4, 0) ∧
      Represents smallMalloc (fun _ => none) s4 [⟨numMap, 2, [(.num 5, 7)]⟩] := by
  have hrun := runTables_refines smallMalloc (fun _ => none) emptyProgram emptyProgram_fresh
    [.new numMap 2, .put 0 5 7, .get 0 5, .has 0 6]
    ⟨⟨by decide, by decide⟩, ⟨⟨numMap, 2, []⟩, rfl, nofun, Or.inr (by decide)⟩,
      ⟨⟨numMap, 2, [(.num 5, 7)]⟩, rfl, rfl, nofun, Or.inr (by decide)⟩,
      ⟨⟨numMap, 2, [(.num 5, 7)]⟩, rfl, nofun, Or.inr (by decide)⟩, trivial⟩ (2 ^ 32) .refl
  rcases hrun with ⟨hrefused, -⟩ | ⟨s1, hnew, -, ⟨hrefused, -⟩ | ⟨s2, hput, -,
    ⟨hrefused, -⟩ | ⟨s3, hget, -, ⟨hrefused, -⟩ | ⟨s4, hhas, h4, -⟩⟩⟩⟩
  · exact nomatch hrefused
  · exact hrefused.elim
  · exact hrefused.elim
  · exact hrefused.elim
  · exact ⟨s1, s2, s3, s4, hnew, hput, hget, hhas, h4⟩

/-- **A table of one slot** that holds the key 5 never answers whether it holds 6. -/
theorem fullTable_diverges :
    ∃ s1 s2, stepTable smallMalloc 1 emptyProgram (.new numMap 1) = .ok (s1, 0) ∧
      stepTable smallMalloc 1 s1 (.put 0 5 7) = .ok (s2, 0) ∧
      ∀ fuel, stepTable smallMalloc fuel s2 (.has 0 6) = .error .outOfFuel := by
  have h0 : Represents smallMalloc (fun _ => none) emptyProgram [] :=
    emptyProgram_fresh.represents
  rcases @Represents.stepFrame Arena smallMalloc (fun _ => none) emptyProgram [] 1 h0
    (fun ht => nomatch ht.2) (.new numMap 1) ⟨by decide, by decide⟩
    with ⟨hrefused, -⟩ | ⟨s1, hnew, h1, -⟩
  · exact nomatch hrefused
  have hcaps : ∀ {t p a}, IsTable s1 [⟨numMap, 1, []⟩] t p a → a.cap ≤ 1 := by
    intro t p a ht
    obtain rfl := mem_singleton.mp (mem_of_getElem? ht.2)
    exact Nat.le_refl 1
  rcases h1.stepFrame hcaps (.put 0 5 7) ⟨_, rfl, nofun, Or.inr (by decide)⟩
    with ⟨hrefused, -⟩ | ⟨s2, hput, h2, -⟩
  · exact hrefused.elim
  · refine ⟨s1, s2, hnew, hput, fun fuel => ?_⟩
    have hroom : ¬ Room 1 [(Key.num 5, 7)] (.num 6) := by
      rintro (h | h)
      all_goals exact absurd h (by decide)
    exact (@Represents.step_full Arena smallMalloc (fun _ => none) s2
      [⟨numMap, 1, [(.num 5, 7)]⟩] fuel 0 ⟨numMap, 1, [(.num 5, 7)]⟩ h2 6 rfl nofun hroom 0).2

end Js2Wasm.Linear
