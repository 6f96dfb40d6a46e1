import Mathlib.Data.List.Perm.Basic
import Mathlib.Data.List.Range

/-! # A ledger of linear references

References are numbered in the order they are acquired.  A reference is live from
its acquisition until it is settled (released, or handed to someone else), and it
is settled at most once.  Settling or touching a reference that is not live is a
fault; faults are recorded, and the ledger carries on.

`accounted` says that every acquired reference is either live or settled, and
never both.  A program names references; `Holds` says that the references of a
list of names are exactly the live ones.
-/
namespace LinearLedger
open List

/-- What can go wrong with a reference. -/
inductive Fault where
  | settledTwice (ref : Nat)
  | settledBorrow
  | usedAfterSettled (ref : Nat)
  deriving DecidableEq

structure Ledger where
  next : Nat
  live : List Nat
  settled : List Nat
  faults : List Fault
  accounted : (live ++ settled).Perm (range next)

namespace Ledger

def empty : Ledger := ⟨0, [], [], [], List.Perm.refl _⟩

/-- Take a new reference; its number is `l.next`. -/
def acquire (l : Ledger) : Ledger where
  next := l.next + 1
  live := l.next :: l.live
  settled := l.settled
  faults := l.faults
  accounted := by
    rw [range_succ, cons_append]
    exact (List.Perm.cons _ l.accounted).trans (perm_append_singleton _ _).symm

def fault (l : Ledger) (f : Fault) : Ledger := { l with faults := f :: l.faults }

/-- Give a live reference up. -/
def settleLive (l : Ledger) (r : Nat) (h : r ∈ l.live) : Ledger where
  next := l.next
  live := l.live.erase r
  settled := r :: l.settled
  faults := l.faults
  accounted := by
    have hr : (r :: l.live.erase r).Perm l.live := (perm_cons_erase h).symm
    have hmid : (l.live.erase r ++ r :: l.settled).Perm (r :: l.live.erase r ++ l.settled) :=
      perm_middle
    exact hmid.trans ((List.Perm.append_right _ hr).trans l.accounted)

/-- Give up the reference of a name; `none` is a name that owns none. -/
def settle (l : Ledger) : Option Nat → Ledger
  | none => l.fault .settledBorrow
  | some r => if h : r ∈ l.live then l.settleLive r h else l.fault (.settledTwice r)

/-- Read through a name. -/
def touch (l : Ledger) : Option Nat → Ledger
  | none => l
  | some r => if r ∈ l.live then l else l.fault (.usedAfterSettled r)

/-- With nothing live, every acquired reference was settled exactly once. -/
theorem settled_perm_range {l : Ledger} (h : l.live = []) :
    l.settled.Perm (range l.next) := by
  have := l.accounted
  rwa [h, nil_append] at this

end Ledger

/-! ### Names and their references -/

variable {N : Type} {cell cell' : N → Option Nat} {names names' : List N} {l : Ledger}

/-- The references of `names` are exactly the live ones. -/
def Holds (cell : N → Option Nat) (names : List N) (l : Ledger) : Prop :=
  (names.map cell).Perm (l.live.map some)

namespace Holds

theorem perm (h : Holds cell names l) (hp : names.Perm names') : Holds cell names' l :=
  (hp.symm.map cell).trans h

theorem congr (h : Holds cell names l) (hc : ∀ n ∈ names, cell' n = cell n) :
    Holds cell' names l := by
  unfold Holds
  rw [map_congr_left hc]
  exact h

theorem empty : Holds cell [] Ledger.empty := List.Perm.refl _

theorem live_eq_nil (h : Holds cell [] l) : l.live = [] :=
  map_eq_nil_iff.mp (nil_perm.mp h)

/-- A held name's reference is live. -/
theorem live_of_mem (h : Holds cell names l) {n : N} (hn : n ∈ names) :
    ∃ r, cell n = some r ∧ r ∈ l.live := by
  have hmem : cell n ∈ l.live.map some := h.mem_iff.mp (mem_map_of_mem hn)
  obtain ⟨r, hr, he⟩ := mem_map.mp hmem
  exact ⟨r, he.symm, hr⟩

/-- A new reference goes to a new name. -/
theorem acquire (h : Holds cell names l) {n : N} (hn : cell' n = some l.next)
    (hc : ∀ m ∈ names, cell' m = cell m) : Holds cell' (n :: names) l.acquire := by
  unfold Holds
  rw [map_cons, hn, map_congr_left hc]
  exact List.Perm.cons _ h

/-- Settling the first name's reference is no fault and leaves the other names'. -/
theorem settle {n : N} (h : Holds cell (n :: names) l) :
    Holds cell names (l.settle (cell n)) ∧ (l.settle (cell n)).faults = l.faults := by
  obtain ⟨r, hr, hlive⟩ := h.live_of_mem mem_cons_self
  rw [hr, Ledger.settle, dif_pos hlive]
  refine ⟨?_, rfl⟩
  have hsplit : (l.live.map some).Perm (some r :: (l.live.erase r).map some) :=
    (perm_cons_erase hlive).map some
  have hall : (cell n :: names.map cell).Perm (some r :: (l.live.erase r).map some) :=
    List.Perm.trans h hsplit
  rw [hr] at hall
  exact hall.cons_inv

end Holds

/-- Reading through a held name is no fault. -/
theorem touch_of_holds (h : Holds cell names l) {n : N} (hn : n ∈ names ∨ cell n = none) :
    l.touch (cell n) = l := by
  rcases hn with hn | hn
  · obtain ⟨r, hr, hlive⟩ := h.live_of_mem hn
    rw [hr, Ledger.touch, if_pos hlive]
  · rw [hn, Ledger.touch]

end LinearLedger
