/-
Forking while other threads are inside the allocator
(core_prim/fork.rs, internals/lock.rs, big_allocations/buddy.rs).

# Locks

`Lock` names every lock of the allocator: spin locks and, for the page
allocator, a mutex per node. The arrays of locks are indexed as in the
source; which entries exist is decided by the node tables and by the
list of regions.

# The parent

A `Process` is who holds each lock, and the list of buddy regions as
`BUDDY_BACKEND.regions` and the `next` field of each region. Any thread
may take a free lock and give back one it holds; `add_region` publishes
a region by two stores under the region-list lock.

# The child

`fork` copies the words of memory: a lock that some thread of the
parent held is held in the child, by nobody. `forkChild` is the
handler; its loop over the regions takes fuel, one unit per region.
-/
import RsMalloc.Buddy.Model
import RsMalloc.Ground.Model
import RsMalloc.Lib.LinkedSeg

namespace RsMalloc.Fork

open Buddy (minOrder maxOrder)

-- ================================================================= locks

/-- `NUM_ORDERS`. -/
abbrev numOrders : Nat := maxOrder + 1 - minOrder

/-- The locks of the allocator. -/
inductive Lock where
  /-- `BOOTSTRAP_LOCK`. -/
  | bootstrap
  /-- `GLOBAL_TRIM_LOCK`. -/
  | trim
  /-- `BUDDY_BACKEND.spin`. -/
  | buddySpin
  /-- `(*region).order_locks[index]`. -/
  | order (region index : Nat)
  /-- `BIG_MAP.lock`. -/
  | bigMap
  /-- The lock of the `PENDING_QUEUE` slot of a node and class. -/
  | slot (node class_ : Nat)
  /-- `NodeArena.state` of a node. -/
  | arena (node : Nat)
  deriving DecidableEq, Repr

-- ============================================================ the parent

/-- Who holds the locks, and the list of regions. -/
structure Process (T : Type) where
  owner : Lock → Option T
  regions : Nat
  next : Nat → Nat

/-- Before the first call. -/
def Process.new (T : Type) : Process T := ⟨fun _ => none, 0, fun _ => 0⟩

section Parent

variable {T : Type}

/-- One step of some thread, as far as locks and the list of regions go.
A region is published by a thread that holds `BUDDY_BACKEND.spin`; until
then it is on no list. -/
inductive Step : Process T → Process T → Prop
  | acquire {s : Process T} (t : T) (l : Lock) (free : s.owner l = none) :
      Step s { s with owner := Function.update s.owner l (some t) }
  | release {s : Process T} (t : T) (l : Lock) (mine : s.owner l = some t) :
      Step s { s with owner := Function.update s.owner l none }
  /-- `(*region_ptr).next = self.regions`. -/
  | linkRegion {s : Process T} (t : T) (region : Nat)
      (locked : s.owner .buddySpin = some t)
      (fresh : ∀ l, LinkedSeg s.next s.regions l 0 → region ∉ l) :
      Step s { s with next := Function.update s.next region s.regions }
  /-- `self.regions = region_ptr`. -/
  | storeRegions {s : Process T} (t : T) (region : Nat)
      (locked : s.owner .buddySpin = some t) (ne : region ≠ 0)
      (linked : s.next region = s.regions)
      (fresh : ∀ l, LinkedSeg s.next s.regions l 0 → region ∉ l) :
      Step s { s with regions := region }

/-- The states of the parent. -/
inductive Reach : Process T → Prop
  | new : Reach (Process.new T)
  | step {s s' : Process T} (h : Reach s) (hs : Step s s') : Reach s'

/-- `fork_prepare` has returned in thread `f`: it took `BOOTSTRAP_LOCK`
and `GLOBAL_TRIM_LOCK`, waiting for each until it was free, and keeps
both guards. -/
def Process.Prepared (s : Process T) (f : T) : Prop :=
  s.owner .bootstrap = some f ∧ s.owner .trim = some f

end Parent

-- ============================================================= the child

/-- The lock words and the list of regions in the child, the two guards
that `fork_prepare` stored, and `TRIM_GUARD`. -/
structure Child where
  held : Lock → Bool
  regions : Nat
  next : Nat → Nat
  atforkGuard : Bool
  trimAtforkGuard : Bool
  trimGuard : Bool

/-- The copy the child starts with when thread `f` forks: the guards are
those that `f` stored. -/
def fork {T : Type} [DecidableEq T] (f : T) (trimGuard : Bool)
    (s : Process T) : Child where
  held l := (s.owner l).isSome
  regions := s.regions
  next := s.next
  atforkGuard := decide (s.owner .bootstrap = some f)
  trimAtforkGuard := decide (s.owner .trim = some f)
  trimGuard := trimGuard

namespace Child

/-- `reset_at_fork`, and dropping a guard. -/
def unlock (l : Lock) (c : Child) : Child :=
  { c with held := Function.update c.held l false }

/-- `if let Some(guard) = TRIM_ATFORK_GUARD.take() { drop(guard) }`. -/
def dropTrimGuard (c : Child) : Child :=
  if c.trimAtforkGuard then { c.unlock .trim with trimAtforkGuard := false }
  else c

/-- `if let Some(guard) = ATFORK_GUARD.take() { drop(guard) }`. -/
def dropAtforkGuard (c : Child) : Child :=
  if c.atforkGuard then { c.unlock .bootstrap with atforkGuard := false }
  else c

/-- The inner loop of `reset_locks_on_fork`: the order locks of a region
from `index` on, `n` of them left. -/
def resetOrders (region : Nat) : Nat → Nat → Child → Child
  | 0, _, c => c
  | n + 1, index, c =>
      resetOrders region n (index + 1) (c.unlock (.order region index))

/-- The outer loop of `reset_locks_on_fork`; `none` is a walk that is
not over. -/
def resetRegions : Nat → Nat → Child → Option Child
  | 0, region, c => if region = 0 then some c else none
  | fuel + 1, region, c =>
      if region = 0 then some c
      else
        let c := resetOrders region numOrders 0 c
        resetRegions fuel (c.next region) c

/-- `reset_locks_on_fork`. -/
def resetLocksOnFork (fuel : Nat) (c : Child) : Option Child :=
  let c := c.unlock .buddySpin
  resetRegions fuel c.regions c

/-- `fork_child`; `rseq` says that `__rseq_size` and `__rseq_offset` are
set, without which the child aborts. -/
def forkChild (fuel : Nat) (rseq : Bool) (c : Child) : Option Child := do
  let c := c.dropTrimGuard.dropAtforkGuard
  let c ← c.resetLocksOnFork fuel
  let c := c.unlock .bigMap
  let c := c.unlock .trim
  let c := { c with trimGuard := false }
  if rseq then some c else none

end Child

/-- The locks that a later allocation, deallocation or trim in the child
can wait for. -/
inductive Later (cfg : Config) (c : Child) : Lock → Prop
  | trim : Later cfg c .trim
  | buddySpin : Later cfg c .buddySpin
  | bigMap : Later cfg c .bigMap
  | order {l : List Nat} {region index : Nat}
      (list : LinkedSeg c.next c.regions l 0) (null : 0 ∉ l)
      (mem : region ∈ l) (lt : index < numOrders) :
      Later cfg c (.order region index)
  | slot {node class_ : Nat} (node_lt : node < cfg.queueNodes)
      (class_lt : class_ < numSizeClasses) : Later cfg c (.slot node class_)
  | arena {node : Nat} (lt : node < cfg.pageNodes) : Later cfg c (.arena node)

-- ==================================================== life in the child

/-- The child has one thread; `own` are the locks it holds. It takes a
lock by changing its word from free to held, and gives back only what
it holds. -/
inductive ChildStep : Child × (Lock → Bool) → Child × (Lock → Bool) → Prop
  | acquire {c : Child} {own : Lock → Bool} (l : Lock)
      (free : c.held l = false) :
      ChildStep (c, own) ({ c with held := Function.update c.held l true },
        Function.update own l true)
  | release {c : Child} {own : Lock → Bool} (l : Lock) (mine : own l = true) :
      ChildStep (c, own) (c.unlock l, Function.update own l false)

/-- Any number of steps of the child. -/
inductive ChildRun : Child × (Lock → Bool) → Child × (Lock → Bool) → Prop
  | refl (x : Child × (Lock → Bool)) : ChildRun x x
  | step {x y z : Child × (Lock → Bool)} (h : ChildRun x y)
      (hs : ChildStep y z) : ChildRun x z

end RsMalloc.Fork
