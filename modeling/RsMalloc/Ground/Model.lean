/-
What every part of the allocator stands on: memory, the kernel, the
ownership map and the configuration.

# The kernel

`mmap` takes the address the kernel offers and accepts it only if it is
page aligned, inside user space and clear of every mapping that exists;
a fresh mapping reads as zero. `madvise` with a discarding advice may
zero or keep each byte of its range. An offer of `none` is a failed
call, and so is a length of zero. `munmap` takes its range out of every
mapping. `mremap` never moves: it gives the end of a mapping back, or
adds fresh pages behind the mapping if nothing is mapped there.

# Environment

A step of a program consults one `Env`: the CPU number it would read,
whether a restartable sequence aborts, and the kernel's answers. All of
them are arbitrary at every step.

# Fields in memory

`Header` and `MetaData` are `repr(C)`; their fields are read and
written in the byte memory at their offsets (`#[repr(C, align(16))]`,
without the `extended-header` feature).
-/
import RsMalloc.Lib.ByteMem
import RsMalloc.Radix.Model
import RsMalloc.Sizes

namespace RsMalloc

-- ======================================================== configuration

/-- The values fixed before the first call: the topology found by
`ensure_cache`, the node counts of the two node tables (zero when their
mapping failed), and the settings read from the environment. -/
structure Config where
  /-- `NCPU` and `numa.ncpu`. -/
  ncpu : Nat
  isNuma : Bool
  cpuToNode : Nat → Nat
  /-- `cpu_ranges[i]`: first and last CPU. -/
  cpuRange : Nat → Nat × Nat
  nranges : Nat
  bitmapWords : Nat
  /-- `PENDING_QUEUE.node_count`. -/
  queueNodes : Nat
  /-- `PAGE_ALLOCATOR.inner.node_count`. -/
  pageNodes : Nat
  maxRefillRetries : Nat
  arenaSize : Nat
  predictorInitBatch : Nat
  bulkFillPredictorInitBatch : Nat
  magic : Nat
  freedMagic : Nat
  bigMagic : Nat
  alignTag : Nat
  rsDisableThp : Bool
  foreignPointerAbort : Bool := false

/-- A machine of one CPU and one node. -/
def Config.single (arenaSize : Nat) : Config where
  ncpu := 1
  isNuma := false
  cpuToNode _ := 0
  cpuRange _ := (0, 0)
  nranges := 1
  bitmapWords := 1
  queueNodes := 1
  pageNodes := 1
  maxRefillRetries := 1
  arenaSize := arenaSize
  predictorInitBatch := 1
  bulkFillPredictorInitBatch := 1
  magic := 1
  freedMagic := 2
  bigMagic := 3
  alignTag := 2 ^ 63
  rsDisableThp := true

/-- The answers one step may consult. -/
structure Env where
  /-- `rseq.cpu_id`. -/
  cpu : Nat := 0
  /-- The restartable sequence does not commit. -/
  abort : Bool := false
  /-- It was interrupted after its link was written. -/
  torn : Bool := false
  /-- The address the kernel offers. -/
  offer : Option Nat := none
  /-- A system call or a library call succeeds. -/
  ok : Bool := true
  /-- The bytes a discarding advice keeps. -/
  keep : Nat → Bool := fun _ => false
  /-- `TRIM_SMOOTHING[class].time(100)`. -/
  age : Nat := 10

-- =============================================================== ground

/-- The span a slab part belongs to: where it starts, and the class it
was made for. -/
structure Origin where
  start : Nat
  cls : Nat
  deriving DecidableEq, Repr

/-- A span that the page allocator has handed out, with the bytes it
has by now. -/
structure Span where
  origin : Origin
  len : Nat
  deriving DecidableEq, Repr

/-- Memory, the mappings that exist as start and length, the ownership
map, and two history variables that no program reads: the headers of
all blocks that `init_blocks` has written, and the spans that the page
allocator has handed out for slabs. -/
structure Ground where
  mem : Mem
  maps : List (Nat × Nat)
  radix : RadixMap.RadixTree
  inited : List Nat
  spans : List Span

/-- `PAGE_SIZE`. -/
abbrev pageSize : Nat := 4096

/-- The end of user space. -/
abbrev userLimit : Nat := 2 ^ 47

/-- The least multiple of the page size from `n` up. -/
def pageUp (n : Nat) : Nat := (n + 4095) / pageSize * pageSize

/-- The address lies in a mapping. -/
def Mapped (maps : List (Nat × Nat)) (x : Nat) : Prop :=
  ∃ e ∈ maps, e.1 ≤ x ∧ x < e.1 + e.2

/-- No mapping meets `[a, a + n)`. -/
def Unmapped (maps : List (Nat × Nat)) (a n : Nat) : Prop :=
  ∀ e ∈ maps, e.1 + e.2 ≤ a ∨ a + n ≤ e.1

instance (maps : List (Nat × Nat)) (a n : Nat) :
    Decidable (Unmapped maps a n) :=
  inferInstanceAs (Decidable (∀ e ∈ maps, _))

/-- The kernel may place a mapping of `n` bytes at `a`. -/
def Placeable (maps : List (Nat × Nat)) (a n : Nat) : Prop :=
  0 < a ∧ a % pageSize = 0 ∧ a + n ≤ userLimit ∧ Unmapped maps a n

instance (maps : List (Nat × Nat)) (a n : Nat) :
    Decidable (Placeable maps a n) :=
  inferInstanceAs (Decidable (_ ∧ _))

namespace Ground

/-- `mmap_anonymous(null, len, READ | WRITE, PRIVATE)`. -/
def mmap (offer : Option Nat) (len : Nat) (g : Ground) :
    Option Nat × Ground :=
  match offer with
  | none => (none, g)
  | some a =>
      if 0 < len ∧ Placeable g.maps a (pageUp len) then
        (some a,
          { g with
            mem := Mem.zero g.mem a (pageUp len)
            maps := (a, pageUp len) :: g.maps })
      else (none, g)

/-- What is left of a mapping outside `[a, a + n)`. -/
def leftOver (a n : Nat) (e : Nat × Nat) : List (Nat × Nat) :=
  if e.1 + e.2 ≤ a ∨ a + n ≤ e.1 then [e]
  else
    (if e.1 < a then [(e.1, a - e.1)] else [])
      ++ if a + n < e.1 + e.2 then [(a + n, e.1 + e.2 - (a + n))] else []

/-- `munmap(a, len)`. -/
def munmap (a len : Nat) (g : Ground) : Ground :=
  if len = 0 then g
  else { g with maps := g.maps.flatMap (leftOver a (pageUp len)) }

/-- `mremap(a, old, new, MremapFlags::empty())`. -/
def mremap (ok : Bool) (a old new : Nat) (g : Ground) :
    Option Nat × Ground :=
  let old := pageUp old
  let new := pageUp new
  if ok = true ∧ 0 < new ∧ (a, old) ∈ g.maps then
    if new ≤ old then (some a, g.munmap (a + new) (old - new))
    else if a + new ≤ userLimit ∧ Unmapped g.maps (a + old) (new - old) then
      (some a,
        { g with
          mem := Mem.zero g.mem (a + old) (new - old)
          maps := (a, new) :: g.maps.erase (a, old) })
    else (none, g)
  else (none, g)

/-- `madvise(a, n, DontNeed | Free)` that succeeds. -/
def discard (keep : Nat → Bool) (a n : Nat) (g : Ground) : Ground :=
  { g with
    mem := fun x =>
      if (a ≤ x ∧ x < a + n) ∧ keep x = false then 0 else g.mem x }

/-- Write `w` bytes. -/
def store (w a v : Nat) (g : Ground) : Ground :=
  { g with mem := Mem.store w g.mem a v }

/-- `RADIX.set_range`; a tree that was never created stays so. -/
def setRange (a n : Nat) (val : Bool) (g : Ground) : Ground :=
  { g with radix := (g.radix.setRange a n val).getD g.radix }

/-- `RADIX.set_single_big`. -/
def setSingleBig (a : Nat) (val : Bool) (g : Ground) : Ground :=
  { g with radix := (g.radix.setSingleBig a val).getD g.radix }

/-- The page allocator has handed out a span. -/
def grant (o : Origin) (n : Nat) (g : Ground) : Ground :=
  { g with spans := ⟨o, n⟩ :: g.spans }

/-- The page allocator has let the span at `a` grow to `n` bytes. -/
def regrant (a n : Nat) (g : Ground) : Ground :=
  { g with
    spans := g.spans.map fun e =>
      if e.origin.start = a ∧ 0 < e.len then { e with len := n } else e }

end Ground

-- ================================================================ fields

namespace Header

/-- `(*header).next`. -/
def next (m : Mem) (h : Nat) : Nat := Mem.load 8 m h

/-- `(*header).flags`. -/
def flags (m : Mem) (h : Nat) : Nat := Mem.load 1 m (h + 8)

/-- `(*header).class`. -/
def cls (m : Mem) (h : Nat) : Nat := Mem.load 1 m (h + 9)

/-- `(*header).magic`. -/
def magic (m : Mem) (h : Nat) : Nat := Mem.load 2 m (h + 10)

/-- `(*header).life_time`. -/
def lifeTime (m : Mem) (h : Nat) : Nat := Mem.load 4 m (h + 12)

/-- `(*header).next = v`. -/
def setNext (h v : Nat) (g : Ground) : Ground := g.store 8 h v

/-- `(*header).flags = v`. -/
def setFlags (h v : Nat) (g : Ground) : Ground := g.store 1 (h + 8) v

/-- `(*header).class = v`. -/
def setCls (h v : Nat) (g : Ground) : Ground := g.store 1 (h + 9) v

/-- `(*header).magic = v`. -/
def setMagic (h v : Nat) (g : Ground) : Ground := g.store 2 (h + 10) v

/-- `(*header).life_time = v`. -/
def setLifeTime (h v : Nat) (g : Ground) : Ground := g.store 4 (h + 12) v

/-- `write(header, Header { .. })`. -/
def write (h next flags cls magic lifeTime : Nat) (g : Ground) : Ground :=
  setLifeTime h lifeTime (setMagic h magic (setCls h cls
    (setFlags h flags (setNext h next g))))

end Header

namespace MetaData

/-- `(*metadata).next_page`. -/
def nextPage (m : Mem) (a : Nat) : Nat := Mem.load 8 m a

/-- `(*metadata).start`. -/
def start (m : Mem) (a : Nat) : Nat := Mem.load 8 m (a + 8)

/-- `(*metadata).end`. -/
def end_ (m : Mem) (a : Nat) : Nat := Mem.load 8 m (a + 16)

/-- `(*metadata).next`. -/
def next (m : Mem) (a : Nat) : Nat := Mem.load 8 m (a + 24)

/-- `(*metadata).node_id`. -/
def nodeId (m : Mem) (a : Nat) : Nat := Mem.load 2 m (a + 32)

/-- `(*metadata).next_page = v`. -/
def setNextPage (a v : Nat) (g : Ground) : Ground := g.store 8 a v

/-- `(*metadata).end = v`. -/
def setEnd (a v : Nat) (g : Ground) : Ground := g.store 8 (a + 16) v

/-- `(*metadata).next = v`. -/
def setNext (a v : Nat) (g : Ground) : Ground := g.store 8 (a + 24) v

/-- `write(metadata, MetaData { .. })`. -/
def write (a nextPage start end_ next nodeId : Nat) (g : Ground) :
    Ground :=
  (setNext a next (setEnd a end_ ((setNextPage a nextPage g).store 8
    (a + 8) start))).store 2 (a + 32) nodeId

end MetaData

end RsMalloc
