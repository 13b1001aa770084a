/-
The nonempty hint of the transfer lists (rseq_core/slab_cache.rs,
rseq_core/mod.rs, trim.rs), at the granularity of single atomic
accesses.

# What is modelled

Every CPU and class has a `TransferCache` of two tagged words and one
bit in `nonempty_bitmap`. The programs below are the retry loops of the
source with each load, compare-exchange and read-modify-write a step of
its own, and the blocks' headers read and written field by field. The
loops take a budget of attempts.

Nothing is assumed of the blocks that callers push or of what a `next`
field holds: a pop that walks over relinked blocks may install any
word. The hint survives that, since a pop only exchanges a word that
was not empty.
-/
import RsMalloc.Slab.Model
import RsMalloc.Transfer.Model
import RsMalloc.Lib.Bitmap

namespace RsMalloc.Hint

open Conc
open Transfer (Ptr pack unpackPtr)

-- ================================================================= state

/-- The two words of a `TransferCache`. -/
inductive Mail where
  | list
  | trimmed
  deriving DecidableEq, Repr

/-- A CPU and class of the cache. -/
structure Shard (ncpu : Nat) where
  cpu : Fin ncpu
  class_ : Fin numSizeClasses
  deriving DecidableEq

/-- The fields of a `Header` that lists and trimming use. -/
structure HeaderFields where
  next : Ptr
  flags : Nat
  lifeTime : Nat

/-- What the transfer functions share. -/
structure Shards (ncpu : Nat) where
  mail : Shard ncpu → Mail → BitVec 64
  nonemptyBitmap : Bitmap
  header : Ptr → HeaderFields
  stamp : Nat

/-- What the environment decides: the age `trim_small` waits for, and
whether the kernel takes pages back. -/
structure TrimEnv where
  age : Nat
  released : Bool

/-- A program of a thread. -/
abbrev HintM (ncpu : Nat) := Prog (Shards ncpu) TrimEnv

variable {ncpu : Nat}

/-- Write a header. -/
def Shards.setHeader (b : Ptr) (f : HeaderFields → HeaderFields)
    (s : Shards ncpu) : Shards ncpu :=
  { s with header := Function.update s.header b (f (s.header b)) }

/-- Store a word of a shard. -/
def Shards.setMail (sh : Shard ncpu) (m : Mail) (word : BitVec 64)
    (s : Shards ncpu) : Shards ncpu :=
  { s with
    mail := Function.update s.mail sh
      (Function.update (s.mail sh) m word) }

/-- One load of a word. -/
def loadMail (sh : Shard ncpu) (m : Mail) : HintM ncpu (BitVec 64) :=
  Prog.read fun s => s.mail sh m

/-- `compare_exchange`: the old word, or the one found in its place. -/
def compareExchange (sh : Shard ncpu) (m : Mail) (old new : BitVec 64) :
    HintM ncpu (Except (BitVec 64) (BitVec 64)) :=
  Prog.atomic fun _ s =>
    if s.mail sh m = old then (.ok old, s.setMail sh m new)
    else (.error (s.mail sh m), s)

-- ============================================================ the bitmap

/-- `bitmap_words` of `ensure_cache`. -/
def bitmapWords (ncpu : Nat) : Nat := max ((ncpu + 1 + 63) / 64) 1

/-- The index of `bitmap_word!`. -/
def hintWord (sh : Shard ncpu) : Nat :=
  sh.class_ * bitmapWords ncpu + sh.cpu / 64

/-- `mark_class_nonempty`, that is `cpu_bit_set`. -/
def markClassNonempty (sh : Shard ncpu) : HintM ncpu Unit := do
  let word ← Prog.read fun s => s.nonemptyBitmap (hintWord sh)
  Prog.when (word &&& Slab.cpuBit sh.cpu = 0)
    (Prog.modify fun s =>
      { s with
        nonemptyBitmap := Function.update s.nonemptyBitmap (hintWord sh)
          (s.nonemptyBitmap (hintWord sh) ||| Slab.cpuBit sh.cpu) })

/-- `clear_class_hint`, that is `cpu_bit_clear`. -/
def clearClassHint (sh : Shard ncpu) : HintM ncpu Unit := do
  let word ← Prog.read fun s => s.nonemptyBitmap (hintWord sh)
  Prog.when (word &&& Slab.cpuBit sh.cpu ≠ 0)
    (Prog.modify fun s =>
      { s with
        nonemptyBitmap := Function.update s.nonemptyBitmap (hintWord sh)
          (s.nonemptyBitmap (hintWord sh) &&& ~~~Slab.cpuBit sh.cpu) })

/-- `clear_hint`. `transfer_pop_single` has the same two statements
inline. -/
def clearHint (sh : Shard ncpu) : HintM ncpu Unit := do
  clearClassHint sh
  let word ← loadMail sh .list
  Prog.when ((unpackPtr word).1 ≠ 0) (markClassNonempty sh)

-- ================================================================ pushes

/-- The loop of `transfer_push_batch`; `transfer_push_single_to` is the
same with `start = tail`. -/
def transferPush (sh : Shard ncpu) (m : Mail) (start tail : Ptr) :
    Nat → HintM ncpu Unit
  | 0 => Prog.halt
  | fuel + 1 => do
      let old ← loadMail sh m
      let oldHead := (unpackPtr old).1
      Prog.modify (Shards.setHeader tail fun h => { h with next := oldHead })
      match ← compareExchange sh m old (pack start (unpackPtr old).2) with
      | .ok _ => Prog.when (oldHead = 0) (markClassNonempty sh)
      | .error _ => transferPush sh m start tail fuel

/-- `transfer_push_batch`. -/
def transferPushBatch (fuel : Nat) (sh : Shard ncpu) (start tail : Ptr) :
    HintM ncpu Unit :=
  transferPush sh .list start tail fuel

/-- `transfer_push_single`. -/
def transferPushSingle (fuel : Nat) (sh : Shard ncpu) (header : Ptr) :
    HintM ncpu Unit :=
  transferPush sh .list header header fuel

/-- `transfer_push_single_trimmed`. -/
def transferPushSingleTrimmed (fuel : Nat) (sh : Shard ncpu)
    (header : Ptr) : HintM ncpu Unit :=
  transferPush sh .trimmed header header fuel

-- ================================================================== pops

/-- The loop of `transfer_pop_single`. -/
def transferPopSingle (sh : Shard ncpu) :
    Nat → Mail → HintM ncpu Ptr
  | 0, _ => Prog.halt
  | fuel + 1, m => do
      let old ← loadMail sh m
      let head := (unpackPtr old).1
      if head = 0 then
        match m with
        | .list => transferPopSingle sh fuel .trimmed
        | .trimmed => do
            clearHint sh
            return 0
      else do
        let next ← Prog.read fun s => (s.header head).next
        match ← compareExchange sh m old (pack next (unpackPtr old).2) with
        | .ok _ => return head
        | .error _ => transferPopSingle sh fuel m

/-- The walk of `transfer_pop_batch`: `n` more blocks may be taken after
`tail`. Answers the last block, the one after it and the count. -/
def popWalk (tail next : Ptr) (count : Nat) :
    Nat → HintM ncpu (Ptr × Ptr × Nat)
  | 0 => return (tail, next, count)
  | n + 1 =>
      if next = 0 then return (tail, next, count)
      else do
        let after ← Prog.read fun s => (s.header next).next
        popWalk next after (count + 1) n

/-- The loop of `transfer_pop_batch`. -/
def transferPopBatch (sh : Shard ncpu) (batchSize : Nat) :
    Nat → Mail → HintM ncpu (Option (Ptr × Ptr × Nat))
  | 0, _ => Prog.halt
  | fuel + 1, m => do
      let old ← loadMail sh m
      let head := (unpackPtr old).1
      if head = 0 then
        match m with
        | .list => transferPopBatch sh batchSize fuel .trimmed
        | .trimmed => do
            clearHint sh
            return none
      else do
        let first ← Prog.read fun s => (s.header head).next
        let (tail, next, count) ← popWalk head first 1 (batchSize - 1)
        match ← compareExchange sh m old (pack next (unpackPtr old).2) with
        | .ok _ => do
            Prog.when (next = 0) (clearHint sh)
            return some (head, tail, count)
        | .error _ => transferPopBatch sh batchSize fuel m

-- ============================================================== trimming

/-- The detaching loop of `trim_small`, from the word `list`. -/
def detach (sh : Shard ncpu) : Nat → BitVec 64 → HintM ncpu Ptr
  | 0, _ => Prog.halt
  | fuel + 1, list => do
      let unpacked := (unpackPtr list).1
      if unpacked = 0 then return 0
      else do
        match ← compareExchange sh .list list (pack 0 (unpackPtr list).2) with
        | .ok _ => return unpacked
        | .error new => detach sh fuel new

/-- The lists `trim_small` sorts a detached list into. -/
structure Sorting where
  trimList : Ptr
  pushList : Ptr
  pushListStart : Ptr
  totalPush : Nat

/-- The first loop of `trim_small`, over the detached list from
`next`. -/
def sortList (fuel : Nat) (sh : Shard ncpu) (stamp age : Nat) :
    Nat → Ptr → Sorting → HintM ncpu Sorting
  | 0, _, _ => Prog.halt
  | n + 1, next, w =>
      if next = 0 then return w
      else do
        let oldNext ← Prog.read fun s => (s.header next).next
        let lifeTime ← Prog.read fun s => (s.header next).lifeTime
        let flags ← Prog.read fun s => (s.header next).flags
        if stamp - lifeTime > age ∧ flags = 2 then do
          Prog.modify (Shards.setHeader next fun h =>
            { h with next := w.trimList })
          sortList fuel sh stamp age n oldNext { w with trimList := next }
        else do
          Prog.modify (Shards.setHeader next fun h =>
            { h with next := w.pushList })
          let start := if w.totalPush = 0 then next else w.pushListStart
          if w.totalPush + 1 = Slab.trimRepushBatch then do
            transferPushBatch fuel sh next start
            sortList fuel sh stamp age n oldNext
              { w with pushList := 0, pushListStart := 0, totalPush := 0 }
          else
            sortList fuel sh stamp age n oldNext
              { w with
                pushList := next
                pushListStart := start
                totalPush := w.totalPush + 1 }

/-- The second loop of `trim_small`, over the blocks to give back. -/
def releaseList (fuel : Nat) (sh : Shard ncpu) (stamp requested : Nat) :
    Nat → Ptr → Nat → HintM ncpu Nat
  | 0, _, _ => Prog.halt
  | n + 1, trimList, totalTrimmed =>
      if trimList = 0 then return totalTrimmed
      else do
        let next ← Prog.read fun s => (s.header trimList).next
        let didTrim ←
          (if requested = 0 ∨ totalTrimmed < requested then
            Prog.ask TrimEnv.released
          else pure false)
        Prog.when (didTrim = true)
          (Prog.modify (Shards.setHeader trimList fun h =>
            { h with flags := 3 }))
        Prog.modify (Shards.setHeader trimList fun h =>
          { h with lifeTime := stamp })
        (if didTrim then transferPushSingleTrimmed fuel sh trimList
        else transferPushSingle fuel sh trimList)
        releaseList fuel sh stamp requested n next
          (if didTrim then totalTrimmed + sizeClass sh.class_
          else totalTrimmed)

/-- `trim_small` on one shard. -/
def trimShard (fuel : Nat) (sh : Shard ncpu) (requested : Nat) :
    HintM ncpu Nat := do
  let list ← loadMail sh .list
  let output ← detach sh fuel list
  if output = 0 then return 0
  else do
    let stamp ← Prog.read fun s => s.stamp
    let age ← Prog.ask TrimEnv.age
    let w ← sortList fuel sh stamp age fuel output ⟨0, 0, 0, 0⟩
    Prog.when (w.totalPush > 0)
      (transferPushBatch fuel sh w.pushList w.pushListStart)
    releaseList fuel sh stamp requested fuel w.trimList 0

-- ================================================================= pools

/-- What threads do; each operation names its shard. -/
inductive ShardCall (ncpu : Nat) where
  | pushBatch (sh : Shard ncpu) (start tail : Ptr)
  | pushSingle (sh : Shard ncpu) (header : Ptr)
  | pushSingleTrimmed (sh : Shard ncpu) (header : Ptr)
  | popSingle (sh : Shard ncpu)
  | popBatch (sh : Shard ncpu) (batchSize : Nat)
  | trim (sh : Shard ncpu) (requested : Nat)
  /-- The owner of a block writes its header. -/
  | write (b : Ptr) (fields : HeaderFields)
  /-- `CURRENT_STAMP` moves on. -/
  | tick (stamp : Nat)

/-- The program of a call; results go back to the caller, who may do
anything with them. -/
def ShardCall.prog (fuel : Nat) : ShardCall ncpu → HintM ncpu Unit
  | .pushBatch sh start tail => transferPushBatch fuel sh start tail
  | .pushSingle sh header => transferPushSingle fuel sh header
  | .pushSingleTrimmed sh header => transferPushSingleTrimmed fuel sh header
  | .popSingle sh => do
      let _ ← transferPopSingle sh fuel .list
      return ()
  | .popBatch sh batchSize => do
      let _ ← transferPopBatch sh batchSize fuel .list
      return ()
  | .trim sh requested => do
      let _ ← trimShard fuel sh requested
      return ()
  | .write b fields => Prog.modify (Shards.setHeader b fun _ => fields)
  | .tick stamp => Prog.modify fun s => { s with stamp := stamp }

/-- Threads `T` working on the shards. -/
def shardApi (T : Type) (ncpu fuel : Nat) :
    Api T (Shards ncpu) TrimEnv (ShardCall ncpu) Unit Unit where
  prog _ := ShardCall.prog fuel
  takes _ := 0
  gives _ _ := 0

/-- After `ensure_cache`: all words and bits are zero. -/
def Shards.new (ncpu : Nat) (header : Ptr → HeaderFields) (stamp : Nat) :
    Shards ncpu where
  mail _ _ := 0
  nonemptyBitmap := Bitmap.empty
  header := header
  stamp := stamp

/-- The world before the first call. -/
def shardStart (T : Type) (ncpu : Nat) (header : Ptr → HeaderFields)
    (stamp : Nat) :
    World T (Shards ncpu) TrimEnv (ShardCall ncpu) Unit Unit :=
  ⟨Shards.new ncpu header stamp, 0, fun _ => none⟩

/-- The shard's list is not empty. -/
def Shards.NonEmpty (s : Shards ncpu) (sh : Shard ncpu) : Prop :=
  (unpackPtr (s.mail sh .list)).1 ≠ 0

/-- `!is_empty(class, cpu)`: the shard's bit. -/
def Shards.hinted (s : Shards ncpu) (sh : Shard ncpu) : Bool :=
  (s.nonemptyBitmap (hintWord sh) &&& Slab.cpuBit sh.cpu) != 0

end RsMalloc.Hint
