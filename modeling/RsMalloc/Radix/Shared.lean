/-
`Radix::set_range` and `Radix::get` as threads share them
(internals/radix_tree.rs), one atomic access per step.

# Memory

A node of the tree is one mapping. It is known by its address, and
`mapped` lists the addresses in use. `table a i` is pointer word `i` of
the node at `a`, `leaf a w` its bitmap word `w`; a node is used as one
or the other, and a fresh mapping reads as zero as both.

# The kernel

`map_memory` aborts the process when the kernel refuses, so a step that
goes on has got an address: not null, and none of those in use. An
unmapped address may be handed out again. `Kernel` is such a choice for
every set of addresses in use, and each step consults one.
-/
import RsMalloc.Lib.Prog
import RsMalloc.Radix.Model

namespace RsMalloc.RadixMap

open Conc

-- ================================================================ memory

/-- The nodes of a tree that threads share. -/
structure Memory where
  mapped : List Nat
  table : Nat → Nat → Nat
  leaf : Nat → Leaf

/-- Where the kernel maps, given the addresses in use. -/
structure Kernel where
  mmap : List Nat → Nat
  nonnull : ∀ l, mmap l ≠ 0
  unused : ∀ l, mmap l ∉ l

/-- A program of a thread. -/
abbrev RadixM := Prog Memory Kernel

/-- Map a zeroed node at `a`. -/
def Memory.map (a : Nat) (m : Memory) : Memory where
  mapped := a :: m.mapped
  table := Function.update m.table a fun _ => 0
  leaf := Function.update m.leaf a fun _ => 0

/-- Unmap the node at `a`. -/
def Memory.unmap (a : Nat) (m : Memory) : Memory :=
  { m with mapped := m.mapped.erase a }

/-- Store a pointer word. -/
def Memory.store (a i v : Nat) (m : Memory) : Memory :=
  { m with
    table := Function.update m.table a (Function.update (m.table a) i v) }

/-- Store a bitmap word. -/
def Memory.setWord (a w : Nat) (v : BitVec 64) (m : Memory) : Memory :=
  { m with
    leaf := Function.update m.leaf a (Function.update (m.leaf a) w v) }

/-- `map_memory`. -/
def mapMemory : RadixM Nat :=
  Prog.atomic fun kernel m =>
    (kernel.mmap m.mapped, m.map (kernel.mmap m.mapped))

/-- `unmap_memory`. -/
def unmapMemory (a : Nat) : RadixM Unit :=
  Prog.modify (Memory.unmap a)

/-- `compare_exchange` of a null pointer word: success, or the pointer
found in its place. -/
def exchangeNull (a i new : Nat) : RadixM (Except Nat Unit) :=
  Prog.atomic fun _ m =>
    if m.table a i = 0 then (.ok (), m.store a i new)
    else (.error (m.table a i), m)

-- ============================================================ operations

/-- `get_or_alloc`, and `get_or_alloc_l3` for the leaf's words. -/
def getOrInstall (ptr idx : Nat) : RadixM Nat := do
  let val ← Prog.read fun m => m.table ptr idx
  if val ≠ 0 then return val
  else do
    let new ← mapMemory
    match ← exchangeNull ptr idx new with
    | .ok _ => return new
    | .error existing => do
        unmapMemory new
        return existing

/-- `fetch_or` or `fetch_and` on one bitmap word. -/
def fetchMask (l3 wordIdx : Nat) (mask : BitVec 64) (val : Bool) :
    RadixM Unit :=
  Prog.modify fun m =>
    m.setWord l3 wordIdx (applyMask val mask (m.leaf l3 wordIdx))

/-- The word loop of `set_range`, `n` words from `wordIdx` on. -/
def markWords (l3 : Nat) (val : Bool) (i3 leafEnd : Nat) :
    Nat → Nat → RadixM Unit
  | 0, _ => return ()
  | n + 1, wordIdx => do
      fetchMask l3 wordIdx (wordMask i3 leafEnd wordIdx) val
      markWords l3 val i3 leafEnd n (wordIdx + 1)

/-- The descent to the leaf of a chunk. -/
def descend (l0 chunkIdx : Nat) : RadixM Nat := do
  let (i0, i1, i2, _) := split chunkIdx
  let l1 ← getOrInstall l0 i0
  let l2 ← getOrInstall l1 i1
  getOrInstall l2 i2

/-- One pass of `Radix::set_range`: `chunksInLeaf` chunks of one
leaf. -/
def markPass (l0 : Nat) (val : Bool) (chunkIdx chunksInLeaf : Nat) :
    RadixM Unit := do
  let l3 ← descend l0 chunkIdx
  let i3 := (split chunkIdx).2.2.2
  let leafEnd := i3 + chunksInLeaf - 1
  let firstWord := i3 / l3WordBits
  let lastWord := leafEnd / l3WordBits
  markWords l3 val i3 leafEnd (lastWord + 1 - firstWord) firstWord

/-- The outer loop of `Radix::set_range`. -/
def setRangeFrom (l0 : Nat) (val : Bool) (endIdx : Nat) :
    Nat → Nat → RadixM Unit
  | 0, _ => Prog.halt
  | fuel + 1, chunkIdx => do
      let chunksLeftInLeaf := l3Size - (split chunkIdx).2.2.2
      let chunksLeftInRange := endIdx - chunkIdx + 1
      let chunksInLeaf := min chunksLeftInLeaf chunksLeftInRange
      markPass l0 val chunkIdx chunksInLeaf
      if chunksInLeaf = chunksLeftInRange then return ()
      else setRangeFrom l0 val endIdx fuel (chunkIdx + chunksInLeaf)

/-- `Radix::get`. -/
def getChunk (l0 chunkIdx : Nat) : RadixM Bool :=
  if radixMaxChunks ≤ chunkIdx then return false
  else do
    let (i0, i1, i2, i3) := split chunkIdx
    let l1 ← Prog.read fun m => m.table l0 i0
    if l1 = 0 then return false
    else do
      let l2 ← Prog.read fun m => m.table l1 i1
      if l2 = 0 then return false
      else do
        let l3 ← Prog.read fun m => m.table l2 i2
        if l3 = 0 then return false
        else do
          let word ← Prog.read fun m => m.leaf l3 (i3 / l3WordBits)
          return (word &&& 1#64 <<< (i3 % l3WordBits)) != 0

-- ================================================================== jobs

/-- The arguments `RadixTree::set_range` passes down. -/
structure Job where
  startIdx : Nat
  endIdx : Nat
  val : Bool
  le : startIdx ≤ endIdx
  lt : endIdx < radixMaxChunks

/-- The chunk is in the range of the job. -/
def Job.Covers (j : Job) (c : Nat) : Prop :=
  j.startIdx ≤ c ∧ c ≤ j.endIdx

instance (j : Job) (c : Nat) : Decidable (j.Covers c) :=
  inferInstanceAs (Decidable (_ ∧ _))

/-- `Radix::set_range`, with one pass of fuel per chunk. -/
def Job.run (l0 : Nat) (j : Job) : RadixM Unit :=
  setRangeFrom l0 j.val j.endIdx (j.endIdx - j.startIdx + 1) j.startIdx

/-- What a thread does: one of the jobs, or a read of a chunk that
`is_owned` lets through. -/
inductive RadixCall (J : Type) where
  | write (j : J)
  | read (chunkIdx : Nat) (lt : chunkIdx < radixMaxChunks)

/-- What is known outside the calls: the jobs that nobody has started,
those that are finished, and what readers saw. -/
inductive Notice (J : Type) where
  | todo (j : J)
  | done (j : J)
  | saw (chunkIdx : Nat) (owned : Bool)
  deriving DecidableEq

/-- Threads `T` that run each job once, in any order, while others
read. -/
def radixApi (T : Type) {J : Type} (l0 : Nat) (job : J → Job) :
    Api T Memory Kernel (RadixCall J) Bool (Notice J) where
  prog _
    | .write j => do
        (job j).run l0
        return true
    | .read c _ => getChunk l0 c
  takes
    | .write j => {.todo j}
    | .read _ _ => 0
  gives
    | .write j, _ => {.done j}
    | .read c _, b => {.saw c b}

/-- Before the first call: every job is still to do. -/
def radixStart (T : Type) (J : Type) [Fintype J] (m : Memory) :
    World T Memory Kernel (RadixCall J) Bool (Notice J) :=
  ⟨m, Finset.univ.val.map .todo, fun _ => none⟩

/-- The jobs one after another. -/
def runJobs {J : Type} (l0 : Nat) (job : J → Job) : List J → RadixM Unit
  | [] => return ()
  | j :: js => do
      (job j).run l0
      runJobs l0 job js

/-- `Radix::new`: a zeroed top table at `l0`. -/
def Memory.new (l0 : Nat) : Memory where
  mapped := [l0]
  table _ _ := 0
  leaf _ _ := 0

end RsMalloc.RadixMap
