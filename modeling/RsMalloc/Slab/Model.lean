/-
The slab caches: per-CPU lists, transfer lists, refills and trimming
(rseq_core/slab_cache.rs, rseq_core/bulk_fill.rs,
rseq_core/pending_queue.rs, inner/alloc.rs, inner/free.rs, trim.rs).

# State

All list words of one shape are one function: `list` gives the heads of
the RSEQ lists and of the two transfer lists of every CPU and class,
`slot` the heads of `THREAD_BULK.free` and of the `PENDING_QUEUE` slots.
A transfer list is kept as its pointer without the tag.

# Granularity

A restartable sequence is one step: it commits, or it aborts and leaves
at most the link it had written in the caller's own block. Its `usage`
update comes after the commit and is a step of its own. A push to a
transfer list, a pop from it and the detaching of it are one step each,
as are the critical sections of `PENDING_QUEUE` and of the page
allocator. The hint bitmaps are read and written by the separate load
and read-modify-write of the source. Memory that only the calling
thread can reach is written in one step per function.

Loops that the source does not bound take a budget: a thread that uses
it up stops where it is.
-/
import RsMalloc.Lib.Prog
import RsMalloc.Pages.Model

namespace RsMalloc.Slab

open Conc

-- ================================================================= state

/-- The list words of a CPU and class. -/
inductive Shelf where
  /-- `cache[class].list`, reached by restartable sequences. -/
  | hot (cpu class_ : Nat)
  /-- `mail[class].list`. -/
  | mail (cpu class_ : Nat)
  /-- `mail[class].trimmed`. -/
  | trimmed (cpu class_ : Nat)
  deriving DecidableEq, Repr

/-- The class of the blocks on a list. -/
def Shelf.cls : Shelf → Nat
  | .hot _ c => c
  | .mail _ c => c
  | .trimmed _ c => c

/-- Where partly used spans are kept. -/
inductive Slot where
  /-- `THREAD_BULK.free[class]` of a thread. -/
  | bulk (tid class_ : Nat)
  /-- The `PENDING_QUEUE` slot of a node and class. -/
  | queue (node class_ : Nat)
  deriving DecidableEq, Repr

/-- The class of the spans in a slot. -/
def Slot.cls : Slot → Nat
  | .bulk _ c => c
  | .queue _ c => c

/-- The two hint bitmaps. -/
inductive Hint where
  | nonempty
  | beingStolen
  deriving DecidableEq, Repr

/-- The two predictors of a thread. -/
inductive Predictor where
  /-- `TRANSFER_BATCHING`. -/
  | transfer
  /-- `BULK_FILL_BATCHING`. -/
  | bulkFill
  deriving DecidableEq, Repr

/-- `AdaptiveBatching`. -/
structure AdaptiveBatching where
  batch : Nat
  lowCount : Nat
  once : Bool
  deriving DecidableEq, Repr

/-- One `madvise` call: the free block whose pages are advised, the
bytes that count for it, the range, and whether it succeeded. -/
structure Advice where
  block : Nat
  size : Nat
  start : Nat
  len : Nat
  ok : Bool
  deriving DecidableEq, Repr

/-- Everything the slab functions read and write. Bitmap words and
predictors are indexed as in the source: a word by
`class * bitmap_words + word`, a predictor by thread and class. The last
three fields are history variables that no program reads: the `madvise`
calls made, latest first, the age that the latest scan of a CPU and
class went by, and the indices at which a bitmap was accessed. -/
structure State where
  ground : Ground
  stamp : Nat
  list : Shelf → Nat
  usage : Nat → Nat → Nat
  slot : Slot → Nat
  bulkInit : Nat → Bool
  hint : Hint → Nat → BitVec 64
  batching : Predictor → Nat → Nat → AdaptiveBatching
  pages : Pages.PageState
  trimLock : Bool
  advice : List Advice
  ages : Nat → Nat → Nat
  words : Nat → Bool

/-- A program of a thread. -/
abbrev SlabM := Prog State Env

namespace State

/-- Work on memory. -/
def onGround (f : Ground → Ground) (s : State) : State :=
  { s with ground := f s.ground }

/-- Store a list head. -/
def setList (k : Shelf) (h : Nat) (s : State) : State :=
  { s with list := Function.update s.list k h }

/-- Store a slot head. -/
def setSlot (k : Slot) (a : Nat) (s : State) : State :=
  { s with slot := Function.update s.slot k a }

/-- Record a `madvise` call. -/
def advise (a : Advice) (s : State) : State :=
  { s with advice := a :: s.advice }

/-- Record the age a scan goes by. -/
def scanned (cpu class_ age : Nat) (s : State) : State :=
  { s with
    ages := Function.update s.ages cpu
      (Function.update (s.ages cpu) class_ age) }

/-- Record an access to a bitmap word. -/
def accessed (i : Nat) (s : State) : State :=
  { s with words := Function.update s.words i true }

end State

-- ========================================================== hint bitmaps

/-- The bit of `cpu_word_bit`. -/
def cpuBit (cpu : Nat) : BitVec 64 := 1#64 <<< (cpu % 64)

/-- The index of `bitmap_word!`. -/
def bitmapWord (cfg : Config) (class_ cpu : Nat) : Nat :=
  class_ * cfg.bitmapWords + cpu / 64

/-- One load of a bitmap word. -/
def loadHint (b : Hint) (i : Nat) : SlabM (BitVec 64) :=
  Prog.atomic fun _ s => (s.hint b i, s.accessed i)

/-- One read-modify-write of a bitmap word. -/
def rmwHint (b : Hint) (i : Nat) (f : BitVec 64 → BitVec 64) :
    SlabM Unit :=
  Prog.modify fun s =>
    { s.accessed i with
      hint := Function.update s.hint b
        (Function.update (s.hint b) i (f (s.hint b i))) }

/-- `cpu_bit_set`. -/
def cpuBitSet (cfg : Config) (b : Hint) (class_ cpu : Nat) :
    SlabM Unit := do
  let word ← loadHint b (bitmapWord cfg class_ cpu)
  Prog.when (word &&& cpuBit cpu = 0)
    (rmwHint b (bitmapWord cfg class_ cpu) (· ||| cpuBit cpu))

/-- `cpu_bit_clear`. -/
def cpuBitClear (cfg : Config) (b : Hint) (class_ cpu : Nat) :
    SlabM Unit := do
  let word ← loadHint b (bitmapWord cfg class_ cpu)
  Prog.when (word &&& cpuBit cpu ≠ 0)
    (rmwHint b (bitmapWord cfg class_ cpu) (· &&& ~~~cpuBit cpu))

/-- `cpu_is_empty`. -/
def cpuIsEmpty (cfg : Config) (b : Hint) (class_ cpu : Nat) :
    SlabM Bool := do
  let word ← loadHint b (bitmapWord cfg class_ cpu)
  return word &&& cpuBit cpu == 0

/-- `cpu_try_marking`. -/
def cpuTryMarking (cfg : Config) (b : Hint) (class_ cpu : Nat) :
    SlabM Bool := do
  let word ← loadHint b (bitmapWord cfg class_ cpu)
  if word &&& cpuBit cpu ≠ 0 then return false
  else do
    rmwHint b (bitmapWord cfg class_ cpu) (· ||| cpuBit cpu)
    return true

/-- `mark_class_nonempty`. -/
def markClassNonempty (cfg : Config) (class_ cpu : Nat) : SlabM Unit :=
  cpuBitSet cfg .nonempty class_ cpu

/-- `clear_class_hint`. -/
def clearClassHint (cfg : Config) (class_ cpu : Nat) : SlabM Unit :=
  cpuBitClear cfg .nonempty class_ cpu

/-- `clear_hint`: the list word is read again after the bit is
cleared. `transfer_pop_single` does the same inline. -/
def clearHint (cfg : Config) (class_ cpu : Nat) : SlabM Unit := do
  clearClassHint cfg class_ cpu
  let head ← Prog.read fun s => s.list (.mail cpu class_)
  Prog.when (head ≠ 0) (markClassNonempty cfg class_ cpu)

-- ============================================================ list steps

/-- Put the chain from `start` to `tail` in front of a list: link the
tail to the old head, then store the new head. Answers the old head. -/
def pushChain (k : Shelf) (start tail : Nat) (s : State) : Nat × State :=
  let oldHead := s.list k
  (oldHead, (s.onGround (Header.setNext tail oldHead)).setList k start)

/-- The walk of `transfer_pop_batch`, at most `n` blocks further:
the last block, the link behind it and the number of blocks. -/
def walkBatch (m : Mem) : Nat → Nat → Nat → Nat → Nat × Nat × Nat
  | 0, tail, next, count => (tail, next, count)
  | n + 1, tail, next, count =>
      if next = 0 then (tail, next, count)
      else walkBatch m n next (Header.next m next) (count + 1)

/-- What a successful pop takes off a list. -/
structure Batch where
  head : Nat
  tail : Nat
  count : Nat
  /-- The link behind the last block, the new head of the list. -/
  next : Nat
  deriving DecidableEq, Repr

/-- Take up to `batchSize` blocks off the front of a list. -/
def popBatch (k : Shelf) (batchSize : Nat) (s : State) :
    Option Batch × State :=
  let head := s.list k
  if head = 0 then (none, s)
  else
    let (tail, next, count) := walkBatch s.ground.mem (batchSize - 1) head
      (Header.next s.ground.mem head) 1
    (some ⟨head, tail, count, next⟩, s.setList k next)

/-- Take a whole list. -/
def detach (k : Shelf) (s : State) : Nat × State :=
  (s.list k, s.setList k 0)

-- ================================================== restartable sequences

/-- `rseq.cpu_id`. -/
def cpuId : SlabM Nat := Prog.ask Env.cpu

/-- Adjust `usage` after a commit, modulo `2^64`. -/
def addUsage (cpu class_ n : Nat) : SlabM Unit :=
  Prog.modify fun s =>
    { s with
      usage := Function.update s.usage cpu (Function.update (s.usage cpu)
        class_ ((s.usage cpu class_ + n) % 2 ^ 64)) }

/-- `RseqCore::pop`: `none` is the abort, null an empty list. -/
def rseqPop (cpu class_ : Nat) : SlabM (Option Nat) := do
  let out ← Prog.atomic fun env s =>
    if env.abort then (none, s)
    else
      match popBatch (.hot cpu class_) 1 s with
      | (none, s) => (some 0, s)
      | (some b, s) => (some b.head, s)
  match out with
  | some header => do
      Prog.when (header ≠ 0) (addUsage cpu class_ (2 ^ 64 - 1))
      return some header
  | none => return none

/-- `RseqCore::push_tailed`, and `push` with a chain of one: whether it
committed. -/
def rseqPush (cpu class_ start tail n : Nat) : SlabM Bool := do
  let done ← Prog.atomic fun env s =>
    if env.abort then
      (false, if env.torn then
        s.onGround (Header.setNext tail (s.list (.hot cpu class_))) else s)
    else (true, (pushChain (.hot cpu class_) start tail s).2)
  Prog.when (done = true) (addUsage cpu class_ n)
  return done

-- ======================================================== transfer lists

/-- The common part of the transfer pushes. -/
def transferPush (cfg : Config) (k : Shelf) (class_ start tail cpu : Nat) :
    SlabM Unit := do
  let oldHead ← Prog.atomic fun _ s => pushChain k start tail s
  Prog.when (oldHead = 0) (markClassNonempty cfg class_ cpu)

/-- `transfer_push_batch`. -/
def transferPushBatch (cfg : Config) (class_ start tail cpu : Nat) :
    SlabM Unit :=
  transferPush cfg (.mail cpu class_) class_ start tail cpu

/-- `transfer_push_single`. -/
def transferPushSingle (cfg : Config) (class_ header cpu : Nat) :
    SlabM Unit :=
  transferPush cfg (.mail cpu class_) class_ header header cpu

/-- `transfer_push_single_trimmed`. -/
def transferPushSingleTrimmed (cfg : Config) (class_ header cpu : Nat) :
    SlabM Unit :=
  transferPush cfg (.trimmed cpu class_) class_ header header cpu

/-- `transfer_pop_single`. -/
def transferPopSingle (cfg : Config) (class_ cpu : Nat) : SlabM Nat := do
  match ← Prog.atomic fun _ s => popBatch (.mail cpu class_) 1 s with
  | some b => return b.head
  | none =>
      match ← Prog.atomic fun _ s => popBatch (.trimmed cpu class_) 1 s with
      | some b => return b.head
      | none => do
          clearHint cfg class_ cpu
          return 0

/-- `transfer_pop_batch`. -/
def transferPopBatch (cfg : Config) (class_ cpu batchSize : Nat) :
    SlabM (Option Batch) := do
  match ← Prog.atomic fun _ s =>
      popBatch (.mail cpu class_) batchSize s with
  | some b => do
      Prog.when (b.next = 0) (clearHint cfg class_ cpu)
      return some b
  | none =>
      match ← Prog.atomic fun _ s =>
          popBatch (.trimmed cpu class_) batchSize s with
      | some b => do
          Prog.when (b.next = 0) (clearHint cfg class_ cpu)
          return some b
      | none => do
          clearHint cfg class_ cpu
          return none

-- ============================================================== stealing

/-- `trailing_zeros` of a word that is not zero. -/
def trailingZeros (w : BitVec 64) : Nat :=
  (List.range 64).findIdx fun i => w.getLsbD i

/-- The loop over the set bits of one word. -/
def stealBits (cfg : Config) (class_ cpu batchSize wordIdx : Nat)
    (force : Bool) : Nat → BitVec 64 → SlabM (Option Batch)
  | 0, _ => return none
  | n + 1, bits =>
      if bits = 0 then return none
      else
        let victim := wordIdx * 64 + trailingZeros bits
        let bits := bits &&& (bits - 1)
        if victim = cpu then
          stealBits cfg class_ cpu batchSize wordIdx force n bits
        else do
          let marked ← cpuTryMarking cfg .beingStolen class_ victim
          if !marked && !force then
            stealBits cfg class_ cpu batchSize wordIdx force n bits
          else do
            let result ← transferPopBatch cfg class_ victim batchSize
            cpuBitClear cfg .beingStolen class_ victim
            match result with
            | some b => return some b
            | none =>
                stealBits cfg class_ cpu batchSize wordIdx force n bits

/-- The bits of the word `wordIdx` that lie in `start..=end`. -/
def rangeBits (start end_ wordIdx : Nat) (bits : BitVec 64) : BitVec 64 :=
  let bits :=
    if wordIdx = start / 64 then bits &&& (BitVec.allOnes 64 <<< (start % 64))
    else bits
  if wordIdx = end_ / 64 then
    bits &&& (if end_ % 64 = 63 then BitVec.allOnes 64
      else 1#64 <<< (end_ % 64 + 1) - 1#64)
  else bits

/-- One pass of `first_nonempty_cpu_in_range` over one word. -/
def stealWord (cfg : Config) (class_ cpu batchSize start end_ wordIdx : Nat)
    (force : Bool) : SlabM (Option Batch) := do
  let bits ← loadHint .nonempty (class_ * cfg.bitmapWords + wordIdx)
  if bits = 0 then return none
  else
    stealBits cfg class_ cpu batchSize wordIdx force 64
      (rangeBits start end_ wordIdx bits)

/-- The loops of `first_nonempty_cpu_in_range`, `n` words left. -/
def stealWords (cfg : Config) (class_ cpu batchSize start end_ : Nat) :
    Nat → Nat → SlabM (Option Batch)
  | 0, _ => return none
  | n + 1, wordIdx => do
      match ← stealWord cfg class_ cpu batchSize start end_ wordIdx false with
      | some b => return some b
      | none =>
          match ← stealWord cfg class_ cpu batchSize start end_ wordIdx
              true with
          | some b => return some b
          | none =>
              stealWords cfg class_ cpu batchSize start end_ n (wordIdx + 1)

/-- `first_nonempty_cpu_in_range`. -/
def firstNonemptyCpuInRange (cfg : Config)
    (class_ cpu batchSize start end_ : Nat) : SlabM (Option Batch) :=
  stealWords cfg class_ cpu batchSize start end_
    (end_ / 64 + 1 - start / 64) (start / 64)

/-- The loop of `slowest_numa_steal_path`, `n` ranges left. -/
def slowestNumaStealPath (cfg : Config) (class_ cpu node batchSize : Nat) :
    Nat → Nat → SlabM (Option Batch)
  | 0, _ => return none
  | n + 1, i => do
      let range := cfg.cpuRange ((i + node) % cfg.nranges)
      match ← firstNonemptyCpuInRange cfg class_ cpu batchSize range.1
          range.2 with
      | some b => return some b
      | none => slowestNumaStealPath cfg class_ cpu node batchSize n (i + 1)

/-- `pop_slow`; the null chain is `none`. -/
def popSlow (cfg : Config) (class_ cpu batchSize : Nat) :
    SlabM (Option Batch) :=
  if cfg.isNuma then do
    let node := cfg.cpuToNode cpu
    let range := cfg.cpuRange node
    match ← firstNonemptyCpuInRange cfg class_ cpu batchSize range.1
        range.2 with
    | some b => return some b
    | none =>
        slowestNumaStealPath cfg class_ cpu node batchSize
          (cfg.nranges - 1) 1
  else
    firstNonemptyCpuInRange cfg class_ cpu batchSize 0 (cfg.ncpu - 1)

/-- `try_pop`. -/
def tryPop (cfg : Config) (class_ batchSize cpu : Nat) :
    SlabM (Option Batch) := do
  let empty ← cpuIsEmpty cfg .nonempty class_ cpu
  if empty then popSlow cfg class_ cpu batchSize
  else
    match ← transferPopBatch cfg class_ cpu batchSize with
    | some b => return some b
    | none => popSlow cfg class_ cpu batchSize

-- ========================================================== push and pop

/-- One pass of a push of the chain from `start` to `tail`, of `n`
blocks: to the transfer list of a CPU whose cache is full, else to the
cache; `again` is what follows an abort. -/
def pushOnce (cfg : Config) (class_ start tail n : Nat)
    (again : Nat → SlabM Unit) : SlabM Unit := do
  let cpu ← cpuId
  let usage ← Prog.read fun s => s.usage cpu class_
  if usage ≥ cacheHighBlocks class_ then
    transferPushBatch cfg class_ start tail cpu
  else do
    let done ← rseqPush cpu class_ start tail n
    Prog.when (done = false) (again cpu)

/-- `push_tailed`. -/
def pushTailed (cfg : Config) (class_ header tail batchSize : Nat) :
    SlabM Unit :=
  pushOnce cfg class_ header tail batchSize fun cpu =>
    transferPushBatch cfg class_ header tail cpu

/-- The loop of `push`, with `n` more tries after this one. A chain of
one block makes `transfer_push_batch` the `transfer_push_single` of the
source. -/
def pushLoop (cfg : Config) (class_ header : Nat) : Nat → SlabM Unit
  | 0 => pushOnce cfg class_ header header 1 fun cpu =>
      transferPushSingle cfg class_ header cpu
  | n + 1 => pushOnce cfg class_ header header 1 fun _ =>
      pushLoop cfg class_ header n

/-- `push`: `loop_count` runs from 0 to 4. -/
def push (cfg : Config) (class_ header : Nat) : SlabM Unit :=
  pushLoop cfg class_ header 4

/-- The loop of `pop` at `loop_count`. -/
def popLoop (cfg : Config) (class_ : Nat) : Nat → Nat → SlabM Nat
  | 0, _ => Prog.halt
  | fuel + 1, loopCount => do
      let cpu ← cpuId
      match ← rseqPop cpu class_ with
      | some header => return header
      | none =>
          if loopCount = 3 then do
            let mail ← transferPopSingle cfg class_ cpu
            if mail ≠ 0 then return mail
            else popLoop cfg class_ fuel 1
          else popLoop cfg class_ fuel (loopCount + 1)

/-- `pop`. -/
def pop (cfg : Config) (fuel class_ : Nat) : SlabM Nat :=
  popLoop cfg class_ fuel 0

-- ============================================================ predictors

namespace AdaptiveBatching

/-- `AdaptiveBatching::new`. -/
def new : AdaptiveBatching := ⟨1, 0, false⟩

/-- `update_global_batch_value`. -/
def updateGlobalBatchValue (cfg : Config) (kind : Predictor)
    (p : AdaptiveBatching) : AdaptiveBatching :=
  if p.once then p
  else
    { batch := max (match kind with
        | .bulkFill => cfg.bulkFillPredictorInitBatch
        | .transfer => cfg.predictorInitBatch) 1
      lowCount := 0
      once := true }

/-- `update_refill`. -/
def updateRefill (cfg : Config) (kind : Predictor) (demand limit : Nat)
    (p : AdaptiveBatching) : AdaptiveBatching :=
  let p := p.updateGlobalBatchValue cfg kind
  let demand := max demand 1
  if demand > p.batch then
    { p with
      batch := min (max ((p.batch + p.batch / 2) % 2 ^ 64) demand) limit
      lowCount := 0 }
  else if demand * 4 % 2 ^ 64 < p.batch then
    if p.lowCount + 1 = 4 then
      { p with batch := max (p.batch / 2) 1, lowCount := 0 }
    else { p with lowCount := p.lowCount + 1 }
  else { p with lowCount := 0 }

end AdaptiveBatching

/-- `batch(fallback)` of a thread's predictor. -/
def predictBatch (cfg : Config) (kind : Predictor) (tid class_ : Nat) :
    SlabM Nat :=
  Prog.atomic fun _ s =>
    let p := (s.batching kind tid class_).updateGlobalBatchValue cfg kind
    (min (max p.batch 1) (iterations class_),
      { s with
        batching := Function.update s.batching kind
          (Function.update (s.batching kind) tid
            (Function.update (s.batching kind tid) class_ p)) })

/-- `update_refill(observed, ITERATIONS[class])`, where `observed` is
one step above a batch that was filled. -/
def observe (cfg : Config) (kind : Predictor)
    (tid class_ batch count : Nat) : SlabM Unit :=
  let observed :=
    if count = batch ∧ batch < iterations class_ then
      min (batch + max (batch / 4) 1) (2 ^ 64 - 1)
    else count
  Prog.modify fun s =>
    { s with
      batching := Function.update s.batching kind
        (Function.update (s.batching kind) tid
          (Function.update (s.batching kind tid) class_
            ((s.batching kind tid class_).updateRefill cfg kind observed
              (iterations class_)))) }

-- ================================================================= spans

/-- `remaining_blocks`. -/
def remainingBlocks (m : Mem) (metadata block : Nat) : Nat :=
  (MetaData.end_ m metadata - MetaData.next m metadata) / block

/-- The loop of `init_blocks`, downwards from block `n`: the first and
last header written so far are `head` and `tail`. Each header goes into
the history. -/
def initLoop (cfg : Config) (class_ base block stamp : Nat) :
    Nat → Nat → Nat → Ground → Nat × Nat × Ground
  | 0, head, tail, g => (head, tail, g)
  | i + 1, head, tail, g =>
      let current := base + i * block
      let g := Header.write current head 1 class_ cfg.freedMagic stamp g
      initLoop cfg class_ base block stamp i current
        (if head = 0 then current else tail)
        { g with inited := current :: g.inited }

/-- `init_blocks`: head, tail and count of the chain. -/
def initBlocks (cfg : Config) (class_ metadata block maxBlocks stamp : Nat)
    (g : Ground) : (Nat × Nat × Nat) × Ground :=
  let remaining := remainingBlocks g.mem metadata block
  if remaining = 0 then ((0, 0, 0), g)
  else
    let count := min remaining maxBlocks
    let base := MetaData.next g.mem metadata
    let (head, tail, g) := initLoop cfg class_ base block stamp count 0 0 g
    ((head, tail, count),
      MetaData.setNext metadata (base + count * block) g)

/-- `PENDING_QUEUE.slot`: the index of the node table, if there is
one. -/
def queueSlot (cfg : Config) (node class_ : Nat) : Option Slot :=
  if cfg.queueNodes = 0 then none
  else if !cfg.isNuma then some (.queue 0 class_)
  else if node ≥ cfg.queueNodes then none
  else some (.queue node class_)

/-- `PENDING_QUEUE.insert`. -/
def queueInsert (cfg : Config) (class_ metadata : Nat) : SlabM Unit := do
  let node ← Prog.read fun s => MetaData.nodeId s.ground.mem metadata
  match queueSlot cfg node class_ with
  | none => return ()
  | some k =>
      Prog.modify fun s =>
        (s.onGround (MetaData.setNextPage metadata (s.slot k))).setSlot k
          metadata

/-- `PENDING_QUEUE.pop`. -/
def queuePop (cfg : Config) (node class_ : Nat) : SlabM Nat :=
  match queueSlot cfg node class_ with
  | none => return 0
  | some k =>
      Prog.atomic fun _ s =>
        let metadata := s.slot k
        if metadata = 0 then (0, s)
        else
          (metadata, (s.setSlot k
            (MetaData.nextPage s.ground.mem metadata)).onGround
              (MetaData.setNextPage metadata 0))

/-- `node_for_cpu`. -/
def nodeForCpu (cfg : Config) (cpu : Nat) : Nat :=
  if !cfg.isNuma then 0 else cfg.cpuToNode cpu

/-- `PAGE_ALLOCATOR.alloc(node, total)` for a span of the class, under
the node's mutex. The span goes into the history with the bytes it was
given. -/
def pageAlloc (cfg : Config) (fuel node class_ total : Nat) :
    SlabM (Option Nat) :=
  Prog.atomic fun env s =>
    match Pages.alloc cfg env fuel node total s.ground s.pages with
    | (none, g, pages) => (none, { s with ground := g, pages := pages })
    | (some ptr, g, pages) =>
        (some ptr,
          { s with
            ground := g.grant ⟨ptr, class_⟩ (alignTo (max total 1) pageSize)
            pages := pages })

/-- `alloc_metadata`; `none` is `OutOfMemory`. -/
def allocMetadata (cfg : Config) (fuel class_ cpu : Nat) :
    SlabM (Option Nat) := do
  let node := nodeForCpu cfg cpu
  let pending ← queuePop cfg node class_
  if pending ≠ 0 then return some pending
  else do
    let total := spanTotal class_
    match ← pageAlloc cfg fuel node class_ total with
    | none => return none
    | some mem => do
        Prog.modify (State.onGround (Ground.setRange mem total true))
        Prog.modify (State.onGround (MetaData.write mem 0 mem (mem + total)
          (mem + metaDataSize) node))
        return some mem

/-- `init_blocks` on a span of the calling thread, and
`remaining_blocks` after it. -/
def carve (cfg : Config) (class_ metadata maxInit stamp : Nat) :
    SlabM ((Nat × Nat × Nat) × Nat) :=
  Prog.atomic fun _ s =>
    let (chain, g) := initBlocks cfg class_ metadata (blockSize class_)
      maxInit stamp s.ground
    ((chain, remainingBlocks g.mem metadata (blockSize class_)),
      { s with ground := g })

/-- `THREAD_BULK.get_or_init(class)`, where the destructor may fail to
register, and `THREAD_BULK.free[class] = null`. The slot is the
thread's own. -/
def takePending (tid class_ : Nat) : SlabM Nat :=
  Prog.atomic fun env s =>
    (s.slot (.bulk tid class_),
      { s.setSlot (.bulk tid class_) 0 with
        bulkInit := Function.update s.bulkInit tid
          (s.bulkInit tid || env.ok) })

/-- The second half of `bulk_fill`, with a span from the queue or the
page allocator. -/
def bulkFillFresh (cfg : Config) (fuel tid class_ cpu maxInit stamp : Nat) :
    SlabM (Option (Nat × Nat × Nat)) := do
  match ← allocMetadata cfg fuel class_ cpu with
  | none => return none
  | some metadata => do
      let ((head, tail, count), remaining) ←
        carve cfg class_ metadata maxInit stamp
      if count = 0 then return none
      else do
        Prog.when (remaining > 0)
          (Prog.modify (State.setSlot (.bulk tid class_) metadata))
        return some (head, tail, count)

/-- `bulk_fill`; `none` is `OutOfMemory`. -/
def bulkFill (cfg : Config) (fuel tid class_ cpu maxInit : Nat) :
    SlabM (Option (Nat × Nat × Nat)) := do
  let stamp ← Prog.read fun s => s.stamp
  let pending ← takePending tid class_
  if pending = 0 then
    bulkFillFresh cfg fuel tid class_ cpu maxInit stamp
  else do
    let ((head, tail, count), remaining) ←
      carve cfg class_ pending maxInit stamp
    if count > 0 then do
      Prog.when (remaining > 0)
        (Prog.modify (State.setSlot (.bulk tid class_) pending))
      return some (head, tail, count)
    else bulkFillFresh cfg fuel tid class_ cpu maxInit stamp

/-- `drain_pending` for the classes from `class_` on, `n` left. -/
def drainPending (cfg : Config) (tid : Nat) : Nat → Nat → SlabM Unit
  | 0, _ => return ()
  | n + 1, class_ => do
      let pending ← Prog.atomic fun _ s =>
        (s.slot (.bulk tid class_), s.setSlot (.bulk tid class_) 0)
      Prog.when (pending ≠ 0) (queueInsert cfg class_ pending)
      drainPending cfg tid n (class_ + 1)

/-- `cleanup_thread_bulk`, run when a thread exits. -/
def cleanupThreadBulk (cfg : Config) (tid : Nat) : SlabM Unit :=
  drainPending cfg tid numSizeClasses 0

-- ============================================================ allocation

/-- `take_one_from_batch`. -/
def takeOneFromBatch (cfg : Config) (class_ start tail count : Nat) :
    SlabM Nat := do
  Prog.when (count > 1) do
    let rest ← Prog.read fun s => Header.next s.ground.mem start
    Prog.when (rest ≠ 0) (pushTailed cfg class_ rest tail (count - 1))
  Prog.modify (State.onGround (Header.setNext start 0))
  return start

/-- The loop of `refill`, `n` tries left, and its last resort. -/
def refill (cfg : Config) (fuel tid class_ cpu : Nat) : Nat → SlabM Nat
  | 0 => do
      match ← tryPop cfg class_ 1 cpu with
      | some b => return b.head
      | none => return 0
  | n + 1 => do
      let bulkBatch ← predictBatch cfg .bulkFill tid class_
      match ← bulkFill cfg fuel tid class_ cpu bulkBatch with
      | some (start, tail, count) => do
          observe cfg .bulkFill tid class_ bulkBatch count
          takeOneFromBatch cfg class_ start tail count
      | none => refill cfg fuel tid class_ cpu n

/-- `fill`. -/
def fill (cfg : Config) (fuel tid class_ : Nat) : SlabM Nat := do
  let cacheBatch ← predictBatch cfg .transfer tid class_
  let cpu ← cpuId
  match ← tryPop cfg class_ cacheBatch cpu with
  | some b => do
      observe cfg .transfer tid class_ cacheBatch b.count
      takeOneFromBatch cfg class_ b.head b.tail b.count
  | none => refill cfg fuel tid class_ cpu cfg.maxRefillRetries

/-- The slab branch of `rs_alloc`: the payload, or null. -/
def allocSmall (cfg : Config) (fuel tid class_ : Nat) : SlabM Nat := do
  let popped ← pop cfg fuel class_
  let header ←
    (if popped = 0 then fill cfg fuel tid class_ else pure popped)
  if header = 0 then return 0
  else do
    Prog.modify (State.onGround fun g =>
      Header.setFlags header 2 (Header.setMagic header cfg.magic g))
    return header + headerSize

/-- The slab branch of `rs_free`, on the payload of a slab block. -/
def freeSmall (cfg : Config) (payload : Nat) : SlabM Unit := do
  let header := payload - headerSize
  let stamp ← Prog.read fun s => s.stamp
  Prog.modify (State.onGround fun g =>
    Header.setMagic header cfg.freedMagic (Header.setLifeTime header stamp g))
  let class_ ← Prog.read fun s => Header.cls s.ground.mem header
  push cfg class_ header

-- ======================================================= growth in place

/-- `PAGE_ALLOCATOR.try_grow_inplace` for the span at `mappingBase`. -/
def pageGrow (cfg : Config)
    (fuel node mappingBase oldPageTotal newPageTotal : Nat) : SlabM Bool :=
  Prog.atomic fun env s =>
    let (grown, pages) := Pages.tryGrowInplace cfg env fuel node mappingBase
      oldPageTotal newPageTotal s.pages
    (grown,
      { s with
        pages := pages
        ground :=
          if grown then s.ground.regrant mappingBase newPageTotal
          else s.ground })

/-- The middle of `small_realloc`: the block at `header` is alone in its
span, as blocks of the new class are, and the span may grow. What is
written then belongs to the caller and is one step. -/
def growInplace (cfg : Config) (fuel header oldClass newClass : Nat) :
    SlabM Bool := do
  let mappingBase := (header + 2 ^ 64 - metaDataSize) % 2 ^ 64
  let (start, nodeId) ← Prog.read fun s =>
    (MetaData.start s.ground.mem mappingBase,
      MetaData.nodeId s.ground.mem mappingBase)
  if mappingBase % 4096 = 0 ∧ start = mappingBase ∧ nodeId ≠ 2 ^ 16 - 1
      ∧ header = mappingBase + metaDataSize then do
    let oldTotal := metaDataSize + blockSize oldClass
    let newLogicalTotal := metaDataSize + blockSize newClass
    let newPageTotal := alignTo newLogicalTotal 4096
    let grown ← pageGrow cfg fuel nodeId mappingBase (alignTo oldTotal 4096)
      newPageTotal
    Prog.when (grown = true) (Prog.modify (State.onGround fun g =>
      let g := MetaData.setEnd mappingBase (mappingBase + newLogicalTotal) g
      let g := MetaData.setNext mappingBase
        (MetaData.end_ g.mem mappingBase) g
      let g := g.setRange mappingBase newPageTotal true
      Header.setCls header newClass g))
    return grown
  else return false

-- ============================================================== trimming

/-- `release_memory`: whether any page of the payload was given back. -/
def releaseMemory (header size : Nat) : SlabM Bool :=
  let userStart := header + headerSize
  let userEnd := userStart + size
  let pageStart := (userStart + pageSize - 1) / pageSize * pageSize
  let pageEnd := userEnd / pageSize * pageSize
  if pageStart ≥ pageEnd then return false
  else
    Prog.atomic fun env s =>
      let s := s.advise
        ⟨header, size, pageStart, pageEnd - pageStart, env.ok⟩
      if env.ok then
        (true, s.onGround
          (Ground.discard env.keep pageStart (pageEnd - pageStart)))
      else (false, s)

/-- The lists `trim_small` sorts a detached list into. -/
structure Sorted where
  trimList : Nat
  pushList : Nat
  pushListStart : Nat
  totalPush : Nat

/-- `TRIM_REPUSH_BATCH`. -/
abbrev trimRepushBatch : Nat := 16

/-- The first loop of `trim_small`, over the detached list from
`next`. The running averages feed only the smoothing of the age, which
is the environment's to choose. -/
def sortList (cfg : Config) (class_ cpu stamp age : Nat) :
    Nat → Nat → Sorted → SlabM Sorted
  | 0, _, _ => Prog.halt
  | fuel + 1, next, w =>
      if next = 0 then return w
      else do
        let (oldNext, lifeTime, flags) ← Prog.read fun s =>
          (Header.next s.ground.mem next, Header.lifeTime s.ground.mem next,
            Header.flags s.ground.mem next)
        if stamp - lifeTime > age ∧ flags = 2 then do
          Prog.modify (State.onGround (Header.setNext next w.trimList))
          sortList cfg class_ cpu stamp age fuel oldNext
            { w with trimList := next }
        else do
          Prog.modify (State.onGround (Header.setNext next w.pushList))
          let start := if w.totalPush = 0 then next else w.pushListStart
          if w.totalPush + 1 = trimRepushBatch then do
            transferPushBatch cfg class_ next start cpu
            sortList cfg class_ cpu stamp age fuel oldNext
              { w with pushList := 0, pushListStart := 0, totalPush := 0 }
          else
            sortList cfg class_ cpu stamp age fuel oldNext
              { w with
                pushList := next
                pushListStart := start
                totalPush := w.totalPush + 1 }

/-- The second loop of `trim_small`, over the blocks to give back. -/
def releaseList (cfg : Config) (class_ cpu stamp requested : Nat) :
    Nat → Nat → Nat → SlabM Nat
  | 0, _, _ => Prog.halt
  | fuel + 1, trimList, totalTrimmed =>
      if trimList = 0 then return totalTrimmed
      else do
        let next ← Prog.read fun s => Header.next s.ground.mem trimList
        let didTrim ←
          (if requested = 0 ∨ totalTrimmed < requested then
            releaseMemory trimList (sizeClass class_)
          else pure false)
        Prog.when (didTrim = true)
          (Prog.modify (State.onGround (Header.setFlags trimList 3)))
        Prog.modify (State.onGround (Header.setLifeTime trimList stamp))
        (if didTrim then
          transferPushSingleTrimmed cfg class_ trimList cpu
        else transferPushSingle cfg class_ trimList cpu)
        releaseList cfg class_ cpu stamp requested fuel next
          (if didTrim then totalTrimmed + sizeClass class_ else totalTrimmed)

/-- One CPU and class of `trim_small`. -/
def trimShard (cfg : Config) (fuel cpu class_ requested totalTrimmed : Nat) :
    SlabM Nat := do
  let output ← Prog.atomic fun _ s => detach (.mail cpu class_) s
  if output = 0 then return totalTrimmed
  else do
    let stamp ← Prog.read fun s => s.stamp
    let age ← Prog.atomic fun env s => (env.age, s.scanned cpu class_ env.age)
    let w ← sortList cfg class_ cpu stamp age fuel output ⟨0, 0, 0, 0⟩
    Prog.when (w.totalPush > 0)
      (transferPushBatch cfg class_ w.pushList w.pushListStart cpu)
    releaseList cfg class_ cpu stamp requested fuel w.trimList totalTrimmed

/-- The classes of one CPU, `n` left from `class_` on. -/
def trimClasses (cfg : Config) (fuel cpu requested : Nat) :
    Nat → Nat → Nat → SlabM Nat
  | 0, _, total => return total
  | n + 1, class_, total => do
      let total ← trimShard cfg fuel cpu class_ requested total
      trimClasses cfg fuel cpu requested n (class_ + 1) total

/-- The CPUs, `n` left from `cpu` on. -/
def trimCpus (cfg : Config) (fuel requested : Nat) :
    Nat → Nat → Nat → SlabM Nat
  | 0, _, total => return total
  | n + 1, cpu, total => do
      let total ← trimClasses cfg fuel cpu requested
        (numSizeClasses - size4096Class) size4096Class total
      trimCpus cfg fuel requested n (cpu + 1) total

/-- `trim_small`. -/
def trimSmall (cfg : Config) (fuel requested : Nat) : SlabM Nat := do
  let locked ← Prog.atomic fun _ s =>
    if s.trimLock then (false, s) else (true, { s with trimLock := true })
  if !locked then return 0
  else do
    let total ← trimCpus cfg fuel requested cfg.ncpu 0 0
    Prog.modify fun s => { s with trimLock := false }
    return total

-- ================================================================= pools

/-- What threads do with the slab caches. `tick` is the update of
`CURRENT_STAMP` by the trim thread. -/
inductive Call where
  /-- `rs_alloc`, with a size that has a class. -/
  | alloc (size : Nat) (small : (matchSizeClass size).isSome)
  /-- `rs_free` of the payload of a slab block. -/
  | free (payload : Nat)
  | trim (requested : Nat)
  | exit
  | tick (stamp : Nat)

/-- The program of a call. -/
def Call.prog (cfg : Config) (fuel tid : Nat) : Call → SlabM Nat
  | .alloc size small =>
      allocSmall cfg fuel tid ((matchSizeClass size).get small)
  | .free payload => do
      freeSmall cfg payload
      return 0
  | .trim requested => trimSmall cfg fuel requested
  | .exit => do
      cleanupThreadBulk cfg tid
      return 0
  | .tick stamp => do
      Prog.modify fun s => { s with stamp := stamp }
      return 0

/-- The payloads a call takes from its caller. -/
def Call.takes : Call → Multiset Nat
  | .free payload => {payload}
  | _ => 0

/-- The payloads a call hands out. -/
def Call.gives : Call → Nat → Multiset Nat
  | .alloc _ _, payload => if payload = 0 then 0 else {payload}
  | _, _ => 0

/-- The calls of the threads `T`, whose thread-local data is found by
`tid`. -/
def api (T : Type) (cfg : Config) (fuel : Nat) (tid : T → Nat) :
    Api T State Env Call Nat Nat where
  prog t := Call.prog cfg fuel (tid t)
  takes := Call.takes
  gives := Call.gives

/-- After `ensure_cache`, before the first call: nothing is mapped. -/
def State.new (m : Mem) : State where
  ground := ⟨m, [], RadixMap.RadixTree.new, [], []⟩
  stamp := 0
  list _ := 0
  usage _ _ := 0
  slot _ := 0
  bulkInit _ := false
  hint _ _ := 0
  batching _ _ _ := AdaptiveBatching.new
  pages := Pages.PageState.new
  trimLock := false
  advice := []
  ages _ _ := 0
  words _ := false

/-- The world before the first call. -/
def start (T : Type) (m : Mem) : World T State Env Call Nat Nat :=
  ⟨State.new m, 0, fun _ => none⟩

end RsMalloc.Slab
