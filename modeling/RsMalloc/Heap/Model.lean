/-
The heap: the slab caches and the buddy backend over one memory, and the
calls that programs make.

# State

Beside the state of the slab caches stand the regions of the buddy
backend and the map of big allocations. A region goes by the address of
its `BuddyRegion`, and `regions` are those addresses from
`regions_head()` on; what is written into the blocks of a region is in
the byte memory that the slab caches use too. `BIG_META_MAP` is the
finite map that the red-black tree refines.

# Aborts

`log_and_abort` ends the process. A function that may abort returns the
error, and nothing is done after it.

# Granularity

These functions are run by one thread at a time, so a step is chosen to
be what is convenient: a read, a write or a system call. The running
average of the ages feeds only `BUDDY_AVERAGE_BLOCK_TIMES`, which is the
environment's to choose.
-/
import RsMalloc.Buddy.Model
import RsMalloc.RbTree.Model
import RsMalloc.Slab.Model

namespace RsMalloc.Heap

open Conc

open RbTree (BigAllocMeta MetaMap)

/-- A `BuddyRegion`. `birth` is a history variable: the `CURRENT_STAMP`
at its creation. -/
structure Region where
  geometry : Buddy.Geometry
  nonemptyMask : BitVec 8
  free : Nat → Nat
  freeBitmap : Nat → Bitmap
  birth : Nat := 0

/-- Everything the functions of the heap read and write. -/
structure State where
  slab : Slab.State
  regions : List Nat
  region : Nat → Region
  /-- `BUDDY_BACKEND.grow_order`. -/
  growOrder : Nat := Buddy.minOrder
  /-- `BUDDY_BACKEND.once` has run. -/
  once : Bool := false
  /-- `BUDDY_INIT`. -/
  buddyInit : Bool := false
  /-- `DISABLE_BUDDY`. -/
  disableBuddy : Bool := false
  /-- `BIG_META_MAP`. -/
  bigMap : MetaMap := fun _ => none

/-- A program of the heap. -/
abbrev HeapM := Prog State Env

namespace State

/-- Work on the slab caches. -/
def onSlab (f : Slab.State → Slab.State) (h : State) : State :=
  { h with slab := f h.slab }

/-- Work on memory and the kernel's tables. -/
def onGround (f : Ground → Ground) (h : State) : State :=
  h.onSlab (Slab.State.onGround f)

/-- Work on memory. -/
def onMem (f : Mem → Mem) (h : State) : State :=
  h.onSlab (Slab.State.onGround fun g => { g with mem := f g.mem })

/-- The bytes of memory. -/
def mem (h : State) : Mem := h.slab.ground.mem

/-- Before the first call, and before `BUDDY_BACKEND.init`. -/
def new (m : Mem) : State where
  slab := Slab.State.new m
  regions := []
  region _ := ⟨⟨0, 0, 0, 0⟩, 0, fun _ => 0, fun _ => Bitmap.empty, 0⟩

end State

/-- A program of the slab caches. -/
def onSlab {α : Type} (p : Slab.SlabM α) : HeapM α :=
  p.lift State.slab (fun h s => { h with slab := s }) id

-- ============================================================ the kernel

/-- `mmap_anonymous(null, len, READ | WRITE, PRIVATE)`. -/
def mmap (len : Nat) : HeapM (Option Nat) :=
  Prog.atomic fun env h =>
    let (a, g) := h.slab.ground.mmap env.offer len
    (a, h.onGround fun _ => g)

/-- The same, tried `n` times. -/
def mmapRetry (len : Nat) : Nat → HeapM (Option Nat)
  | 0 => return none
  | n + 1 => do
      match ← mmap len with
      | some a => return some a
      | none => mmapRetry len n

/-- `munmap(a, len)`. -/
def munmap (a len : Nat) : HeapM Unit :=
  Prog.modify (State.onGround (Ground.munmap a len))

/-- `mremap(a, old, new, MremapFlags::empty())`. -/
def mremap (a old new : Nat) : HeapM (Option Nat) :=
  Prog.atomic fun env h =>
    let (a, g) := h.slab.ground.mremap env.ok a old new
    (a, h.onGround fun _ => g)

-- ====================================================== the buddy backend

/-- What the functions of one region read. -/
def State.view (r : Nat) (h : State) : Buddy.RegionState where
  mem := h.mem
  stamp := h.slab.stamp
  nonemptyMask := (h.region r).nonemptyMask
  free := (h.region r).free
  freeBitmap := (h.region r).freeBitmap
  accesses := []

/-- What they have written. -/
def State.putView (r : Nat) (h : State) (s : Buddy.RegionState) : State :=
  { h.onMem fun _ => s.mem with
    region := Function.update h.region r
      { h.region r with
        nonemptyMask := s.nonemptyMask
        free := s.free
        freeBitmap := s.freeBitmap } }

/-- A program of one region. -/
def onRegion {α : Type} (r : Nat) (p : Prog Buddy.RegionState Unit α) :
    HeapM α :=
  p.lift (State.view r) (State.putView r) fun _ => ()

/-- `order_for_size`. -/
def orderForSize (size : Nat) : Nat :=
  Nat.log2 (Buddy.nextPowerOfTwo (max size 1))

/-- `alloc_region_node`. -/
def allocRegionNode (cfg : Config) (regionSize : Nat) :
    HeapM (Option Nat) :=
  match Buddy.regionNodeBytes regionSize with
  | none => return none
  | some nodeSize => mmapRetry nodeSize cfg.maxRefillRetries

/-- The end of `add_region`: the `BuddyRegion` at `region` is written,
filled and published. -/
def publishRegion (region : Nat) (g : Buddy.Geometry) (h : State) :
    State :=
  let s := Buddy.fillRegion g h.slab.stamp
    (g.totalSize / Buddy.maxBlockSize) 0
    { mem := h.mem
      stamp := h.slab.stamp
      nonemptyMask := 0
      free := fun _ => 0
      freeBitmap := fun _ => Bitmap.empty
      accesses := [] }
  { h.onMem fun _ => s.mem with
    region := Function.update h.region region
      ⟨g, s.nonemptyMask, s.free, s.freeBitmap, h.slab.stamp % 2 ^ 32⟩
    regions := region :: h.regions }

/-- `add_region`. -/
def addRegion (cfg : Config) (size node : Nat) (init : Bool) :
    HeapM Bool := do
  let normalizedSize := Buddy.normalizeRegionSize size
  match ← mmapRetry normalizedSize cfg.maxRefillRetries with
  | none => return false
  | some base =>
      match ← allocRegionNode cfg normalizedSize with
      | none => do
          munmap base normalizedSize
          return false
      | some region => do
          Prog.modify (State.onGround
            (Ground.setRange base normalizedSize true))
          Prog.modify (publishRegion region
            (Buddy.newGeometry base size node))
          Prog.when (init = true)
            (Prog.modify fun h => { h with buddyInit := true })
          return true

/-- `BuddyAllocator::init`. -/
def buddyInit (cfg : Config) (size : Nat) : HeapM Unit := do
  let first ← Prog.atomic fun _ h => (!h.once, { h with once := true })
  Prog.when (first = true) do
    let normalizedSize := Buddy.normalizeRegionSize size
    let cpu ← Prog.ask Env.cpu
    Prog.modify fun h =>
      { h with
        growOrder := min (orderForSize normalizedSize) Buddy.maxOrder }
    let _ ← addRegion cfg normalizedSize
      (Slab.nodeForCpu cfg cpu % 2 ^ 16) true

/-- What the backend hands out: the address, the order and the
`trim_state` of a block, and its region. -/
structure BuddyBlock where
  addr : Nat
  order : Nat
  trimState : Nat
  region : Nat
  deriving DecidableEq, Repr

/-- The loop of `alloc_from_node` over the regions that are left. -/
def allocFromRegions (order node : Nat) :
    List Nat → HeapM (Option BuddyBlock)
  | [] => return none
  | region :: rest => do
      let g ← Prog.read fun h => (h.region region).geometry
      if g.nodeId = node then
        match ← onRegion region (Buddy.allocFromRegion g order) with
        | some (addr, flag) => return some ⟨addr, order, flag, region⟩
        | none => allocFromRegions order node rest
      else allocFromRegions order node rest

/-- `alloc_from_node`. -/
def allocFromNode (order node : Nat) : HeapM (Option BuddyBlock) := do
  let regions ← Prog.read State.regions
  allocFromRegions order node regions

/-- The loop of `BuddyAllocator::alloc` over the ranges from `i` on, `n`
of them left. -/
def allocFromRanges (cfg : Config) (order node : Nat) :
    Nat → Nat → HeapM (Option BuddyBlock)
  | 0, _ => return none
  | n + 1, i => do
      match ← allocFromNode order ((i + node) % cfg.nranges % 2 ^ 16) with
      | some block => return some block
      | none => allocFromRanges cfg order node n (i + 1)

/-- `BuddyAllocator::alloc`. -/
def backendAlloc (cfg : Config) (size node : Nat) :
    HeapM (Option BuddyBlock) := do
  let requestedOrder := max (orderForSize size) Buddy.minOrder
  if requestedOrder > Buddy.maxOrder then return none
  else
    match ← allocFromNode requestedOrder node with
    | some block => return some block
    | none => do
        let growOrder ← Prog.read State.growOrder
        let expandOrder := min (max growOrder requestedOrder) Buddy.maxOrder
        let added ← addRegion cfg (2 ^ expandOrder) node false
        let block ←
          (if added = true then allocFromNode requestedOrder node
          else pure none)
        match block with
        | some block => return some block
        | none =>
            if cfg.isNuma then
              allocFromRanges cfg requestedOrder node cfg.nranges 0
            else return none

/-- `BuddyAllocator::free`. -/
def backendFree (region addr order : Nat) : HeapM Unit :=
  if region = 0 then return ()
  else do
    let g ← Prog.read fun h => (h.region region).geometry
    onRegion region (Buddy.free g addr order)

/-- `BuddyAllocator::try_grow_inplace`. -/
def backendGrow (region addr order : Nat) :
    HeapM (Option (Nat × Nat)) :=
  if region = 0 then return none
  else do
    let g ← Prog.read fun h => (h.region region).geometry
    onRegion region (Buddy.tryGrowInplace g addr order)

-- ======================================================= big allocations

/-- `RSMallocError`, the errors of these functions. -/
inductive RSMallocError where
  | doubleFree
  | memoryCorruption
  | attackOrCorruption
  | foreignPointer
  | invalidPointer
  deriving DecidableEq, Repr

/-- `estimate_and_align_2mb`. -/
def estimateAndAlign2mb (cfg : Config) (size : Nat) : Nat :=
  let twoMb := 1024 * 1024 * 2
  let remainder := size % twoMb
  if remainder > 0 ∧ twoMb - remainder ≤ 1024 * 64
      ∧ cfg.rsDisableThp = false then
    alignTo size twoMb
  else alignTo size 4096

/-- `ZERO_FLAG`. -/
abbrev zeroFlag : Nat := 1

/-- `ALLOCATED_FLAG`. -/
abbrev allocatedFlag : Nat := 2

/-- `TRIMMED_FLAG`. -/
abbrev trimmedFlag : Nat := 3

/-- `BIG_MAP.insert`. The tree may have to map a chunk of nodes for it,
and aborts if that fails. -/
def bigMapInsert (key : Nat) (m : BigAllocMeta) : HeapM Unit := do
  let mapped ← Prog.ask Env.ok
  if mapped then
    Prog.modify fun h =>
      { h with bigMap := (h.bigMap.step (.insert key m)).2 }
  else Prog.halt

/-- `BIG_META_MAP.replace`. -/
def bigMapReplace (key : Nat) (m : BigAllocMeta) : HeapM Unit :=
  Prog.modify fun h =>
    { h with bigMap := (h.bigMap.step (.replace key m)).2 }

/-- `BIG_MAP.remove`. -/
def bigMapRemove (key : Nat) : HeapM (Option BigAllocMeta) :=
  Prog.atomic fun _ h =>
    let (m, bigMap) := h.bigMap.step (.remove key)
    (m, { h with bigMap := bigMap })

/-- The end of `big_malloc`: the `Header` at `actualPtr`, the ownership
map and the entry in `BIG_MAP`. -/
def bigMallocFinish (cfg : Config)
    (actualPtr flag size mappedTotal buddyRegion : Nat)
    (registered aligned : Bool) : HeapM Nat := do
  Prog.modify (State.onGround
    (Header.write actualPtr 0 flag 100 cfg.bigMagic 0))
  Prog.when (registered = false) (Prog.modify (State.onGround fun g =>
    if aligned then g.setRange actualPtr mappedTotal true
    else g.setSingleBig actualPtr true))
  bigMapInsert (actualPtr + headerSize)
    { next := 0
      size := size
      order := orderForSize mappedTotal
      buddyRegion := buddyRegion
      aligned := aligned }
  return actualPtr + headerSize

/-- `big_malloc`: the payload, or null. -/
def bigMalloc (cfg : Config) (size : Nat) (aligned : Bool) : HeapM Nat :=
  match checkedAdd size headerSize with
  | none => return 0
  | some requestedTotal => do
      let alignedTotal := estimateAndAlign2mb cfg requestedTotal
      let cpu ← Prog.ask Env.cpu
      let useBuddy ← Prog.read fun h =>
        decide (size ≤ 1024 * 1024 * 64) && h.buddyInit && !h.disableBuddy
      let buddy ←
        (if useBuddy = true then
          backendAlloc cfg alignedTotal (Slab.nodeForCpu cfg cpu % 2 ^ 16)
        else pure none)
      match buddy with
      | some block =>
          let flag :=
            if block.trimState = Buddy.trimNotAllocated then zeroFlag
            else if block.trimState = Buddy.trimTrimmed then trimmedFlag
            else allocatedFlag
          bigMallocFinish cfg block.addr flag size (2 ^ block.order)
            block.region true aligned
      | none =>
          match ← mmap alignedTotal with
          | none => return 0
          | some actualPtr =>
              bigMallocFinish cfg actualPtr zeroFlag size alignedTotal 0
                false aligned

/-- `big_free`. -/
def bigFree (cfg : Config) (ptr : Nat) :
    HeapM (Except RSMallocError Unit) := do
  match ← bigMapRemove ptr with
  | none => return .error .memoryCorruption
  | some entry => do
      let mappingBase := ptr - headerSize
      let payloadSize :=
        estimateAndAlign2mb cfg ((entry.size + headerSize) % 2 ^ 64)
      if entry.buddyRegion ≠ 0 then do
        backendFree entry.buddyRegion mappingBase entry.order
        return .ok ()
      else do
        Prog.modify (State.onGround fun g =>
          if entry.aligned then g.setRange mappingBase payloadSize false
          else g.setSingleBig mappingBase false)
        munmap mappingBase payloadSize
        return .ok ()

-- ================================================================= calls

/-- `usize::wrapping_sub`. -/
def wrappingSub (a b : Nat) : Nat := (a + 2 ^ 64 - b) % 2 ^ 64

/-- `OFFSET_SIZE`. -/
abbrev offsetSize : Nat := 8

/-- `TAG_SIZE`. -/
abbrev tagSize : Nat := 16

/-- `RADIX.is_owned`. -/
def isOwned (h : State) (addr : Nat) : Except RSMallocError Bool :=
  match h.slab.ground.radix.isOwned addr with
  | none => .error .invalidPointer
  | some owned => .ok owned

/-- `find_original_ptr`. -/
def findOriginalPtr (cfg : Config) (h : State) (ptr : Nat) :
    Except RSMallocError Nat :=
  if Mem.load 8 h.mem (wrappingSub ptr tagSize) = cfg.alignTag then
    let presumed := Mem.load 8 h.mem (wrappingSub ptr offsetSize)
    match isOwned h presumed with
    | .error e => .error e
    | .ok false => .error .attackOrCorruption
    | .ok true => .ok presumed
  else .ok ptr

/-- `rs_alloc` by the thread `tid`: the payload, or null. -/
def rsAlloc (cfg : Config) (fuel tid size : Nat) (aligned : Bool) :
    HeapM Nat :=
  match matchSizeClass size with
  | some class_ => onSlab (Slab.allocSmall cfg fuel tid class_)
  | none => bigMalloc cfg size aligned

/-- `rs_free`. A pointer that is not owned is left to its owner. -/
def rsFree (cfg : Config) (ptr : Nat) :
    HeapM (Except RSMallocError Unit) :=
  if ptr = 0 then return .ok ()
  else do
    match ← Prog.read fun h => isOwned h ptr with
    | .error e => return .error e
    | .ok false =>
        if cfg.foreignPointerAbort then return .error .foreignPointer
        else return .ok ()
    | .ok true =>
        match ← Prog.read fun h => findOriginalPtr cfg h ptr with
        | .error e => return .error e
        | .ok searched => do
            let magic ← Prog.read fun h =>
              Header.magic h.mem (searched - headerSize)
            if magic = cfg.magic then do
              onSlab (Slab.freeSmall cfg searched)
              return .ok ()
            else if magic = cfg.bigMagic then bigFree cfg searched
            else if magic = cfg.freedMagic then return .error .doubleFree
            else return .error .attackOrCorruption

/-- `usable_size`. -/
def usableSize (cfg : Config) (h : State) (ptr : Nat) :
    Except RSMallocError Nat :=
  match isOwned h ptr with
  | .error e => .error e
  | .ok false => .ok 0
  | .ok true =>
      match findOriginalPtr cfg h ptr with
      | .error e => .error e
      | .ok original =>
          let offset := wrappingSub ptr original
          let header := original - headerSize
          if Header.magic h.mem header = cfg.bigMagic then
            match h.bigMap original with
            | none => .error .memoryCorruption
            | some entry => .ok (entry.size - offset)
          else .ok (sizeClass (Header.cls h.mem header) - offset)

/-- `Errno::INVAL` and `Errno::NOMEM`. -/
inductive Errno where
  | inval
  | nomem
  deriving DecidableEq, Repr

/-- `posix_align_inner` with a `memptr` that is not null: what it stores
there, and the payload that it got from `rs_alloc`. -/
def posixAlignInner (cfg : Config) (fuel tid alignment size : Nat) :
    HeapM (Except Errno (Nat × Nat)) :=
  if alignment < 8 ∨ alignment ≠ Buddy.nextPowerOfTwo alignment then
    return .error .inval
  else
    match (checkedAdd size alignment).bind fun v => checkedAdd v tagSize with
    | none => return .error .nomem
    | some totalRequested => do
        let raw ← rsAlloc cfg fuel tid totalRequested true
        if raw = 0 then return .error .nomem
        else do
          let startSearch := min (raw + tagSize) (2 ^ 64 - 1)
          let aligned := alignTo startSearch alignment
          Prog.modify (State.onGround fun g =>
            (g.store 8 (aligned - tagSize) cfg.alignTag).store 8
              (aligned - offsetSize) raw)
          return .ok (aligned, raw)

/-- `memalign_inner`: the pointer, or null, and the payload it lies
in. -/
def memalignInner (cfg : Config) (fuel tid alignment size : Nat) :
    HeapM (Nat × Nat) := do
  let adjusted := max alignment 8
  if adjusted ≠ Buddy.nextPowerOfTwo adjusted then return (0, 0)
  else
    match ← posixAlignInner cfg fuel tid adjusted size with
    | .error _ => return (0, 0)
    | .ok result => return result

/-- `calloc_zero!`. -/
def callocZero (ptr actualSize effectiveSize : Nat) (h : State) : State :=
  let flags := Header.flags h.mem (ptr - headerSize)
  if flags = allocatedFlag ∨ flags = trimmedFlag then
    h.onMem fun m => Mem.zero m ptr (min actualSize effectiveSize)
  else h

/-- `rs_calloc`. A layout is at most `isize::MAX` bytes. -/
def rsCalloc (cfg : Config) (fuel tid size nmem : Nat) :
    HeapM (Except RSMallocError Nat) :=
  if size ≥ 2 ^ 63 then return .ok 0
  else
    match checkedMul nmem size with
    | none => return .ok 0
    | some totalSize => do
        let effectiveSize := max totalSize 1
        let ptr ← rsAlloc cfg fuel tid effectiveSize false
        if ptr = 0 then return .ok 0
        else
          match matchSizeClass effectiveSize with
          | some class_ => do
              Prog.modify (callocZero ptr (sizeClass class_) effectiveSize)
              return .ok ptr
          | none =>
              match ← Prog.read fun h => h.bigMap ptr with
              | none => return .error .attackOrCorruption
              | some entry => do
                  Prog.modify (callocZero ptr entry.size effectiveSize)
                  return .ok ptr

/-- `copy_nonoverlapping` of bytes. -/
def copyNonoverlapping (src dst n : Nat) : HeapM Unit :=
  Prog.modify (State.onMem fun m => Mem.copy m dst src n)

/-- The way out of `small_realloc`, `big_realloc` and `rs_realloc` that
moves: `newPtr` was allocated, `n` bytes are copied to it and the old
pointer is freed. -/
def moveTo (cfg : Config) (ptr newPtr n : Nat) :
    HeapM (Except RSMallocError Nat) :=
  if newPtr = 0 then return .ok 0
  else do
    copyNonoverlapping ptr newPtr n
    match ← rsFree cfg ptr with
    | .error e => return .error e
    | .ok () => return .ok newPtr

/-- `small_realloc`. -/
def smallRealloc (cfg : Config) (fuel tid ptr newSize : Nat) :
    HeapM (Except RSMallocError Nat) := do
  let header := ptr - headerSize
  let oldClass ← Prog.read fun h => Header.cls h.mem header
  let oldPayloadSize := sizeClass oldClass
  if newSize ≤ oldPayloadSize then return .ok ptr
  else
    match matchSizeClass newSize with
    | none => do
        let new ← rsAlloc cfg fuel tid newSize false
        moveTo cfg ptr new (min oldPayloadSize newSize)
    | some newClass =>
        if oldClass = newClass then return .ok ptr
        else do
          let grown ←
            (if iterations oldClass = 1 ∧ iterations newClass = 1 then
              onSlab (Slab.growInplace cfg fuel header oldClass newClass)
            else pure false)
          if grown = true then return .ok (header + headerSize)
          else do
            let new ← rsAlloc cfg fuel tid newSize false
            moveTo cfg ptr new (min oldPayloadSize newSize)

/-- The loop of `big_realloc` that grows the block of `entry`, `n`
orders below the largest: the payload once the block is large enough. -/
def growLoop (ptr alignedNew newSize : Nat) (entry : BigAllocMeta) :
    Nat → Nat → Nat → HeapM (Option Nat)
  | 0, _, _ => return none
  | n + 1, currentAddr, currentOrder =>
      if orderForSize alignedNew > Buddy.maxOrder then return none
      else do
        match ← backendGrow entry.buddyRegion currentAddr currentOrder with
        | none => return none
        | some (newAddr, newOrder) => do
            bigMapReplace ptr { entry with next := 0, order := newOrder }
            if 2 ^ newOrder ≥ alignedNew then do
              bigMapReplace ptr
                { entry with next := 0, size := newSize, order := newOrder }
              return some (newAddr + headerSize)
            else growLoop ptr alignedNew newSize entry n newAddr newOrder

/-- The branch of `big_realloc` for a mapping of its own. -/
def remapBig (ptr oldMapping oldTotal alignedNew newSize : Nat) :
    HeapM (Option Nat) := do
  match ← mremap oldMapping oldTotal alignedNew with
  | none => return none
  | some newAddr => do
      bigMapReplace ptr
        { next := 0
          size := newSize
          order := orderForSize alignedNew
          buddyRegion := 0
          aligned := false }
      return some (newAddr + headerSize)

/-- `big_realloc`. -/
def bigRealloc (cfg : Config) (fuel tid ptr newSize : Nat) :
    HeapM (Except RSMallocError Nat) := do
  let oldMapping := ptr - headerSize
  match ← Prog.read fun h => h.bigMap ptr with
  | none => return .ok 0
  | some entry =>
      let isInBuddy := decide (entry.buddyRegion ≠ 0)
      let oldMappedSize :=
        if isInBuddy = true then 2 ^ entry.order
        else estimateAndAlign2mb cfg ((entry.size + headerSize) % 2 ^ 64)
      if newSize ≤ entry.size then return .ok ptr
      else if (matchSizeClass newSize).isSome then do
        let new ← rsAlloc cfg fuel tid newSize false
        moveTo cfg ptr new (min entry.size newSize)
      else
        match checkedAdd newSize headerSize with
        | none => return .ok 0
        | some newTotal => do
            let alignedNew := estimateAndAlign2mb cfg newTotal
            if isInBuddy = true ∧ oldMappedSize ≥ alignedNew then do
              bigMapReplace ptr { entry with next := 0, size := newSize }
              return .ok ptr
            else do
              let grown ←
                (if isInBuddy = true then
                  growLoop ptr alignedNew newSize entry
                    (Buddy.maxOrder - entry.order) oldMapping entry.order
                else
                  remapBig ptr oldMapping oldMappedSize alignedNew newSize)
              match grown with
              | some new => return .ok new
              | none => do
                  let new ← rsAlloc cfg fuel tid newSize false
                  moveTo cfg ptr new (min entry.size newSize)

/-- `observed_alignment`: the lowest bit of the address. -/
def observedAlignment (addr : Nat) : Nat :=
  2 ^ Slab.trailingZeros (BitVec.ofNat 64 addr)

/-- `rs_realloc`: the pointer, or null, and the payload it lies in. -/
def rsRealloc (cfg : Config) (fuel tid ptr newSize : Nat) :
    HeapM (Except RSMallocError (Nat × Nat)) := do
  if ptr = 0 then do
    let new ← rsAlloc cfg fuel tid (max newSize 1) false
    return .ok (new, new)
  else if newSize = 0 then do
    match ← rsFree cfg ptr with
    | .error e => return .error e
    | .ok () => return .ok (0, 0)
  else
    match ← Prog.read fun h => isOwned h ptr with
    | .error e => return .error e
    | .ok false =>
        if cfg.foreignPointerAbort then return .error .foreignPointer
        else return .ok (0, 0)
    | .ok true =>
        match ← Prog.read fun h => findOriginalPtr cfg h ptr with
        | .error e => return .error e
        | .ok searched =>
            if searched ≠ ptr then
              match ← Prog.read fun h => usableSize cfg h ptr with
              | .error e => return .error e
              | .ok oldUsable =>
                  if newSize ≤ oldUsable then return .ok (ptr, searched)
                  else do
                    let (new, raw) ← memalignInner cfg fuel tid
                      (observedAlignment ptr) newSize
                    match ← moveTo cfg ptr new (min oldUsable newSize) with
                    | .error e => return .error e
                    | .ok new => return .ok (new, raw)
            else do
              let magic ← Prog.read fun h =>
                Header.magic h.mem (searched - headerSize)
              let result ←
                (if magic = cfg.bigMagic then
                  bigRealloc cfg fuel tid searched newSize
                else smallRealloc cfg fuel tid searched newSize)
              match result with
              | .error e => return .error e
              | .ok new => return .ok (new, new)

-- ============================================================== trimming

/-- `GLOBAL_TRIM_LOCK.try_lock`. -/
def tryTrimLock : HeapM Bool :=
  Prog.atomic fun _ h =>
    if h.slab.trimLock then (false, h)
    else (true, h.onSlab fun s => { s with trimLock := true })

/-- The guard is dropped. -/
def dropTrimLock : HeapM Unit :=
  Prog.modify (State.onSlab fun s => { s with trimLock := false })

/-- `madvise(start, len, …)` for pages of a free block, all of which
count. -/
def adviseBlock (block start len : Nat) : HeapM Bool :=
  Prog.atomic fun env h =>
    let h := h.onSlab (Slab.State.advise ⟨block, len, start, len, env.ok⟩)
    if env.ok then
      (true, h.onSlab
        (Slab.State.onGround (Ground.discard env.keep start len)))
    else (false, h)

/-- The part of `trim_inner` that gives a block back. -/
def trimBlock (order stamp curr trimmed : Nat) : HeapM Nat := do
  let trimSize := 2 ^ order - pageSize
  let isOk ← adviseBlock curr (curr + pageSize) trimSize
  Prog.when (isOk = true)
    (Prog.modify (State.onMem fun m =>
      Buddy.FreeBlock.setTrimState m curr Buddy.trimTrimmed))
  Prog.modify (State.onMem fun m =>
    Buddy.FreeBlock.setLifeTime m curr stamp)
  return if isOk then min (trimmed + trimSize) (2 ^ 64 - 1) else trimmed

/-- The loop of `trim_inner` over one free list from `curr` on; it stops
everything if enough is trimmed. -/
def trimBlocks (order stamp avgLife requestedSize : Nat)
    (forceTrim : Bool) : Nat → Nat → Nat → HeapM (Bool × Nat)
  | 0, _, _ => Prog.halt
  | fuel + 1, curr, trimmed =>
      if curr = 0 then return (false, trimmed)
      else do
        let (nextBlock, trimState, lifeTime) ← Prog.read fun h =>
          (Buddy.FreeBlock.next h.mem curr,
            Buddy.FreeBlock.trimState h.mem curr,
            Buddy.FreeBlock.lifeTime h.mem curr)
        if trimState = Buddy.trimNotAllocated
            ∨ trimState = Buddy.trimTrimmed then
          trimBlocks order stamp avgLife requestedSize forceTrim fuel
            nextBlock trimmed
        else do
          let trimmed ←
            (if (forceTrim = true ∨ stamp - lifeTime > avgLife)
                ∧ 2 ^ order > pageSize then
              trimBlock order stamp curr trimmed
            else pure trimmed)
          if forceTrim = true ∧ requestedSize ≠ 0
              ∧ trimmed ≥ requestedSize then
            return (true, trimmed)
          else
            trimBlocks order stamp avgLife requestedSize forceTrim fuel
              nextBlock trimmed

/-- The orders of a region, `n` left from `order` on. -/
def trimOrders (fuel stamp avgLife requestedSize : Nat) (forceTrim : Bool)
    (region : Nat) : Nat → Nat → Nat → HeapM (Bool × Nat)
  | 0, _, trimmed => return (false, trimmed)
  | n + 1, order, trimmed => do
      let curr ← Prog.read fun h =>
        (h.region region).free (Buddy.orderIndex order)
      let (stop, trimmed) ← trimBlocks order stamp avgLife requestedSize
        forceTrim fuel curr trimmed
      if stop then return (true, trimmed)
      else
        trimOrders fuel stamp avgLife requestedSize forceTrim region n
          (order + 1) trimmed

/-- The regions that are left. -/
def trimRegions (fuel stamp avgLife requestedSize : Nat)
    (forceTrim : Bool) : List Nat → Nat → HeapM (Bool × Nat)
  | [], trimmed => return (false, trimmed)
  | region :: rest, trimmed => do
      let order ← Prog.read fun h => (h.region region).geometry.order
      let (stop, trimmed) ← trimOrders fuel stamp avgLife requestedSize
        forceTrim region (order + 1 - Buddy.minOrder) Buddy.minOrder trimmed
      if stop then return (true, trimmed)
      else
        trimRegions fuel stamp avgLife requestedSize forceTrim rest trimmed

/-- `trim_inner`. -/
def trimInner (fuel requestedSize : Nat) (forceTrim : Bool) :
    HeapM Nat := do
  let locked ← tryTrimLock
  if !locked then return 0
  else do
    let stamp ← Prog.read fun h => h.slab.stamp
    let avgLife ← Prog.ask Env.age
    let regions ← Prog.read State.regions
    let (_, trimmed) ← trimRegions fuel stamp avgLife requestedSize
      forceTrim regions 0
    dropTrimLock
    return trimmed

/-- `trim`. -/
def trim (fuel requestedSize : Nat) : HeapM Nat :=
  trimInner fuel requestedSize true

/-- `trim_old`. -/
def trimOld (fuel requestedSize : Nat) : HeapM Nat :=
  trimInner fuel requestedSize false

/-- `RSMallocTrim`. -/
inductive RSMallocTrim where
  | all
  | request (size : Nat)
  deriving DecidableEq, Repr

/-- `get_request_size`. -/
def RSMallocTrim.getRequestSize : RSMallocTrim → Nat
  | .all => 0
  | .request size => size

/-- `rs_trim`: the bytes of `RSTrimStatus::Trimmed`. -/
def rsTrim (cfg : Config) (fuel : Nat) (t : RSMallocTrim) : HeapM Nat := do
  let requested := t.getRequestSize
  let size ← trim fuel requested
  if size < requested ∧ requested ≠ 0 then do
    let small ← onSlab (Slab.trimSmall cfg fuel (requested - size))
    if small > 0 then return size + small
    else return size
  else return size

end RsMalloc.Heap
