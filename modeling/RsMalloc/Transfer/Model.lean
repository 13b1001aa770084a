/-
One tagged transfer-list word and the threads that race on it
(rseq_core/slab_cache.rs, trim.rs), at the granularity of single loads,
`next` reads and writes, and compare-exchanges.

# What a thread does

`Local` is a thread's position in one of the source's retry loops:

- `transfer_push_batch` loads the word, writes the old head into the
  chain's tail and exchanges; `transfer_push_single_to` is the same
  loop with `start = tail`;
- `transfer_pop_batch` loads the word, walks `next` pointers of blocks
  that other threads may since have popped and relinked, and exchanges;
  `transfer_pop_single` is the same loop with a batch size of one;
- `trim_small` detaches the whole list; a failed exchange hands it the
  current word, which it uses in place of a new load.

`tick` runs one such step. The two lists of a `TransferCache` are two
words, each with its own copy of this machine; a pop that finds its
word empty is done with that word. The hint bitmap is not touched by
these loops before their exchange and is left out.

# History variables

`list`, `own` and `updates` are read by no branch of `tick`. `list` is
what an atomic stack would hold: the successful exchanges apply the
stack operation to it. `own t` are the blocks private to thread `t`,
and `updates` counts the successful exchanges, so that a run can say
how many fell between a load and its exchange.
-/
import Mathlib.Algebra.Order.Ring.Nat
import RsMalloc.Lib.LinkedSeg

namespace RsMalloc.Transfer

/-- A `*mut Header`, null is zero. -/
abbrev Ptr := BitVec 64

-- ========================================================= tagged words

/-- `TAG_SHIFT`. -/
abbrev tagShift : Nat := 56

/-- `TAG_STEP = 1 << TAG_SHIFT`. -/
def tagStep : BitVec 64 := 1#64 <<< tagShift

/-- `TAG_MASK = 0xff << TAG_SHIFT`. -/
def tagMask : BitVec 64 := 0xff#64 <<< tagShift

/-- `PTR_MASK = !TAG_MASK`. -/
def ptrMask : BitVec 64 := ~~~tagMask

/-- `pack`: the pointer bits of `ptr`, and the tag of `oldTag` plus
one, wrapping. -/
def pack (ptr : Ptr) (oldTag : BitVec 64) : BitVec 64 :=
  (ptr &&& ptrMask) ||| ((oldTag + tagStep) &&& tagMask)

/-- `unpack_ptr`: the pointer, and the whole word as the tag to pack
with. -/
def unpackPtr (word : BitVec 64) : Ptr × BitVec 64 :=
  (word &&& ptrMask, word)

-- =============================================================== threads

/-- Where a thread stands in one of the loops. `old` is the word its
last load saw, `loadedAt` the number of updates before that load. -/
inductive Local where
  | idle
  /-- Before `let old = list_ptr.load(..)` of a push. -/
  | pushLoad (start tail : Ptr) (chain : List Ptr)
  /-- Before `(*tail).next = old_head`. -/
  | pushLink (start tail : Ptr) (chain : List Ptr) (old : BitVec 64)
  /-- Before the exchange to `pack(start, tag)`. -/
  | pushCas (start tail : Ptr) (chain : List Ptr) (old : BitVec 64)
  /-- Before the load of a pop. -/
  | popLoad (batchSize : Nat)
  /-- Before the first `(*tail).next`, with `tail = head`. -/
  | popFirst (batchSize : Nat) (old : BitVec 64) (loadedAt : Nat)
  /-- Before the test of the walk loop. -/
  | popWalk (batchSize : Nat) (old : BitVec 64) (loadedAt : Nat)
      (tail : Ptr) (count : Nat) (next : Ptr)
  /-- Before the first load of a detach. -/
  | detachLoad
  /-- Before the exchange to `pack(null, tag)`. -/
  | detachCas (old : BitVec 64) (loadedAt : Nat)
  deriving DecidableEq, Repr

/-- What a step reports to the thread's caller. -/
inductive Obs where
  /-- A load, a `next` access or a failed exchange. -/
  | silent
  /-- The loop found the word empty. -/
  | empty
  | pushed (start tail : Ptr)
  | popped (batchSize : Nat) (head tail : Ptr) (count : Nat)
  | detached (head : Ptr)
  deriving DecidableEq, Repr

/-- The shared word and `next` fields, every thread's position, and
the history variables of the module comment. -/
structure State (Tid : Type) where
  word : BitVec 64
  next : Ptr → Ptr
  pc : Tid → Local
  updates : Nat
  list : List Ptr
  own : Tid → List Ptr

variable {Tid : Type} [DecidableEq Tid]

/-- Move thread `t` to position `l`. -/
def State.goto (s : State Tid) (t : Tid) (l : Local) : State Tid :=
  { s with pc := Function.update s.pc t l }

/-- Store `word` by a successful exchange of thread `t`, which then is
idle. -/
def State.exchange (s : State Tid) (t : Tid) (word : BitVec 64)
    (list own : List Ptr) : State Tid :=
  { s with
    word := word
    pc := Function.update s.pc t .idle
    updates := s.updates + 1
    list := list
    own := Function.update s.own t own }

/-- One step of thread `t` inside its loop. -/
def tick (t : Tid) (s : State Tid) : Option (State Tid × Obs) :=
  match s.pc t with
  | .idle => none
  | .pushLoad start tail chain =>
      some (s.goto t (.pushLink start tail chain s.word), .silent)
  | .pushLink start tail chain old =>
      some ({ s.goto t (.pushCas start tail chain old) with
        next := Function.update s.next tail (unpackPtr old).1 }, .silent)
  | .pushCas start tail chain old =>
      if s.word = old then
        some (s.exchange t (pack start (unpackPtr old).2) (chain ++ s.list)
          ((s.own t).filter (· ∉ chain)), .pushed start tail)
      else some (s.goto t (.pushLoad start tail chain), .silent)
  | .popLoad batchSize =>
      if (unpackPtr s.word).1 = 0 then some (s.goto t .idle, .empty)
      else some (s.goto t (.popFirst batchSize s.word s.updates), .silent)
  | .popFirst batchSize old loadedAt =>
      let head := (unpackPtr old).1
      some (s.goto t
        (.popWalk batchSize old loadedAt head 1 (s.next head)), .silent)
  | .popWalk batchSize old loadedAt tail count next =>
      if count < batchSize ∧ next ≠ 0 then
        some (s.goto t (.popWalk batchSize old loadedAt next (count + 1)
          (s.next next)), .silent)
      else if s.word = old then
        let n := min batchSize s.list.length
        some (s.exchange t (pack next (unpackPtr old).2) (s.list.drop n)
            (s.list.take n ++ s.own t),
          .popped batchSize (unpackPtr old).1 tail count)
      else some (s.goto t (.popLoad batchSize), .silent)
  | .detachLoad =>
      if (unpackPtr s.word).1 = 0 then some (s.goto t .idle, .empty)
      else some (s.goto t (.detachCas s.word s.updates), .silent)
  | .detachCas old _ =>
      if s.word = old then
        some (s.exchange t (pack 0 (unpackPtr old).2) []
          (s.list ++ s.own t), .detached (unpackPtr old).1)
      -- `Err(new) => list = new`: the exchange doubles as the next load
      else if (unpackPtr s.word).1 = 0 then
        some (s.goto t .idle, .empty)
      else some (s.goto t (.detachCas s.word s.updates), .silent)

-- ================================================================== runs

/-- A block address: not null, and free of tag bits. -/
def BlockAddr (b : Ptr) : Prop := b ≠ 0 ∧ b.toNat < 2 ^ 56

/-- The tag cannot have wrapped at the exchange thread `t` is about to
make: at most 255 successful updates since the load of a pop or a
detach. -/
def TagFresh (t : Tid) (s : State Tid) : Prop :=
  match s.pc t with
  | .popWalk batchSize _ loadedAt _ count next =>
      ¬ (count < batchSize ∧ next ≠ 0) → s.updates - loadedAt ≤ 255
  | .detachCas _ loadedAt => s.updates - loadedAt ≤ 255
  | _ => True

/-- A chain a thread may push: private to it, linked from `start` to
`tail`. -/
structure Pushable (s : State Tid) (t : Tid) (start tail : Ptr)
    (chain : List Ptr) : Prop where
  mine : ∀ b ∈ chain, b ∈ s.own t
  nodup : chain.Nodup
  last : chain.getLast? = some tail
  linked : LinkedSeg s.next start chain (s.next tail)

/-- One step of the system: a thread enters a loop, takes a step of it,
or acts on blocks that are private to it. -/
inductive Step : State Tid → State Tid → Prop
  | push {s : State Tid} (t : Tid) (start tail : Ptr) (chain : List Ptr) :
      s.pc t = .idle → Pushable s t start tail chain →
      Step s (s.goto t (.pushLoad start tail chain))
  /-- Callers ask for at least one block: `AdaptiveBatching::batch`
  answers at least one, and `transfer_pop_single` is the loop at one. -/
  | pop {s : State Tid} (t : Tid) (batchSize : Nat) :
      s.pc t = .idle → 1 ≤ batchSize → Step s (s.goto t (.popLoad batchSize))
  | detach {s : State Tid} (t : Tid) :
      s.pc t = .idle → Step s (s.goto t .detachLoad)
  | tick {s s' : State Tid} {obs : Obs} (t : Tid) :
      TagFresh t s → tick t s = some (s', obs) → Step s s'
  /-- An idle thread relinks a block of its own. -/
  | relink {s : State Tid} (t : Tid) (b v : Ptr) :
      s.pc t = .idle → b ∈ s.own t →
      Step s { s with next := Function.update s.next b v }
  /-- An idle thread hands a block to another thread, as the rest of
  the allocator does through its other containers. -/
  | give {s : State Tid} (t u : Tid) (b : Ptr) :
      s.pc t = .idle → t ≠ u → b ∈ s.own t →
      Step s { s with own := Function.update (Function.update s.own t
        ((s.own t).filter (· ≠ b))) u (b :: s.own u) }
  /-- A block that is nowhere yet becomes private to a thread. -/
  | adopt {s : State Tid} (t : Tid) (b : Ptr) :
      BlockAddr b → b ∉ s.list → (∀ u, b ∉ s.own u) →
      Step s { s with own := Function.update s.own t (b :: s.own t) }

/-- States reachable from `s₀`. -/
inductive Run (s₀ : State Tid) : State Tid → Prop
  | refl : Run s₀ s₀
  | step {s s' : State Tid} : Run s₀ s → Step s s' → Run s₀ s'

/-- The blocks linked from the word are exactly those of `l`. -/
def Holds (s : State Tid) (l : List Ptr) : Prop :=
  LinkedSeg s.next (unpackPtr s.word).1 l 0

/-- No block is twice on the list, twice private to one thread, private
to two threads, or both private and on the list. -/
structure Separated (s : State Tid) : Prop where
  list_nodup : s.list.Nodup
  own_nodup : ∀ t, (s.own t).Nodup
  own_list : ∀ t, ∀ b ∈ s.own t, b ∉ s.list
  own_own : ∀ t u, t ≠ u → ∀ b ∈ s.own t, b ∉ s.own u

/-- What a step does to the stack, by what it reports. -/
def Atomic (t : Tid) (s s' : State Tid) : Obs → Prop
  | .silent => s'.list = s.list ∧ s'.own = s.own
  | .empty => s.list = [] ∧ s'.list = [] ∧ s'.own = s.own
  | .pushed start tail =>
      ∃ chain, Pushable s t start tail chain
        ∧ s'.list = chain ++ s.list
        ∧ s'.own = Function.update s.own t
            ((s.own t).filter (· ∉ chain))
  | .popped batchSize head tail count =>
      1 ≤ count ∧ count = min batchSize s.list.length
        ∧ s.list.head? = some head ∧ s.list[count - 1]? = some tail
        ∧ s'.list = s.list.drop count
        ∧ s'.own = Function.update s.own t
            (s.list.take count ++ s.own t)
  | .detached head =>
      s.list.head? = some head ∧ s'.list = []
        ∧ s'.own = Function.update s.own t (s.list ++ s.own t)

/-- A starting state: no thread is in a loop and every block has one
place. The tag may have any value. -/
structure Init (s : State Tid) : Prop where
  idle : ∀ t, s.pc t = .idle
  holds : Holds s s.list
  separated : Separated s
  addr_list : ∀ b ∈ s.list, BlockAddr b
  addr_own : ∀ t, ∀ b ∈ s.own t, BlockAddr b

end RsMalloc.Transfer
