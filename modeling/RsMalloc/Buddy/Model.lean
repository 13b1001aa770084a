/-
One region of the buddy backend (big_allocations/buddy.rs).

# Representation

A region hands out blocks of `2^order` bytes, `22 ≤ order ≤ 26`. The
free blocks of each order are on a doubly linked list whose nodes are
written into the first bytes of the blocks themselves, so the nodes are
read and written in the byte memory, field by field at the offsets of
the `repr(C)` struct; the three padding bytes behind `trim_state` are
not written. The fields of `BuddyRegion` that only `add_region` writes,
before the region is published, are the value `Geometry` that every
function takes; the list heads, the bitmaps and the mask are state.

# Granularity

A section under an order's lock is one atomic step, and so is the load
of `nonempty_mask`. `FreeBlock::new` writes a block that is on no list,
and is a step of its own. The loops over orders are bounded by
`region.order`.
-/
import RsMalloc.Lib.Bitmap
import RsMalloc.Lib.ByteMem
import RsMalloc.Lib.Prog
import RsMalloc.Sizes

namespace RsMalloc.Buddy

open Conc

-- ============================================================ constants

/-- `BIG_BUDDY_MIN_ORDER`: 4 MiB. -/
abbrev minOrder : Nat := 22

/-- `BIG_BUDDY_MAX_ORDER`: 64 MiB. -/
abbrev maxOrder : Nat := 26

/-- `BIG_BUDDY_MAX_BLOCK_SIZE`. -/
abbrev maxBlockSize : Nat := 2 ^ maxOrder

/-- `BUDDY_TRIM_NOT_ALLOCATED`: never handed out. -/
abbrev trimNotAllocated : Nat := 0

/-- `BUDDY_TRIM_ALLOCATED`: handed out and returned. -/
abbrev trimAllocated : Nat := 1

/-- `BUDDY_TRIM_TRIMMED`: returned, its pages given back. -/
abbrev trimTrimmed : Nat := 2

-- =========================================================== free blocks

namespace FreeBlock

/-- `(*block).next`. -/
def next (m : Mem) (block : Nat) : Nat := Mem.load 8 m block

/-- `(*block).prev`. -/
def prev (m : Mem) (block : Nat) : Nat := Mem.load 8 m (block + 8)

/-- `(*block).life_time`. -/
def lifeTime (m : Mem) (block : Nat) : Nat := Mem.load 4 m (block + 16)

/-- `(*block).trim_state`. -/
def trimState (m : Mem) (block : Nat) : Nat := Mem.load 1 m (block + 20)

/-- `(*block).next = v`. -/
def setNext (m : Mem) (block v : Nat) : Mem := Mem.store 8 m block v

/-- `(*block).prev = v`. -/
def setPrev (m : Mem) (block v : Nat) : Mem := Mem.store 8 m (block + 8) v

/-- `(*block).life_time = v`. -/
def setLifeTime (m : Mem) (block v : Nat) : Mem :=
  Mem.store 4 m (block + 16) v

/-- `(*block).trim_state = v`. -/
def setTrimState (m : Mem) (block v : Nat) : Mem :=
  Mem.store 1 m (block + 20) v

/-- `FreeBlock::new`: write an unlinked node at `addr`. -/
def new (m : Mem) (addr lifeTime trimState : Nat) : Mem :=
  setTrimState
    (setLifeTime (setPrev (setNext m addr 0) addr 0) addr lifeTime)
    addr trimState

end FreeBlock

-- =============================================================== regions

/-- The fields of `BuddyRegion` fixed by `add_region`. -/
structure Geometry where
  base : Nat
  totalSize : Nat
  order : Nat
  nodeId : Nat
  deriving DecidableEq, Repr

/-- What the functions of one region read and write: memory, the
`CURRENT_STAMP`, and the changing fields of `BuddyRegion`, its arrays
indexed by `order_index`. `accesses` is a history variable: the order
and the word of each bitmap access. -/
structure RegionState where
  mem : Mem
  stamp : Nat
  nonemptyMask : BitVec 8
  free : Nat → Nat
  freeBitmap : Nat → Bitmap
  accesses : List (Nat × Nat)

/-- `order_index`. -/
def orderIndex (order : Nat) : Nat := order - minOrder

/-- `order_bit`. -/
def orderBit (order : Nat) : BitVec 8 := 1#8 <<< orderIndex order

/-- `mark_order_nonempty`. -/
def markOrderNonempty (order : Nat) (s : RegionState) : RegionState :=
  { s with nonemptyMask := s.nonemptyMask ||| orderBit order }

/-- `mark_order_empty_if_needed`. -/
def markOrderEmptyIfNeeded (order : Nat) (s : RegionState) :
    RegionState :=
  if s.free (orderIndex order) = 0 then
    { s with nonemptyMask := s.nonemptyMask &&& ~~~orderBit order }
  else s

/-- `bitmap_location`: the number of the block's bit in the bitmap of
its order. -/
def bitmapLocation (g : Geometry) (addr order : Nat) : Nat :=
  (addr - g.base) >>> order

/-- The access to the word of a block's bit. -/
def bitmapAccess (g : Geometry) (addr order : Nat) : Nat × Nat :=
  (order, bitmapLocation g addr order / 64)

/-- `block_is_free`. -/
def blockIsFree (g : Geometry) (addr order : Nat) (s : RegionState) :
    Bool :=
  (s.freeBitmap (orderIndex order)).get (bitmapLocation g addr order)

/-- `push_free_block`. -/
def pushFreeBlock (g : Geometry) (order block : Nat) (s : RegionState) :
    RegionState :=
  let index := orderIndex order
  let head := s.free index
  let m := FreeBlock.setNext (FreeBlock.setPrev s.mem block 0) block head
  let m := if head ≠ 0 then FreeBlock.setPrev m head block else m
  markOrderNonempty order
    { s with
      mem := m
      free := Function.update s.free index block
      freeBitmap := Function.update s.freeBitmap index
        ((s.freeBitmap index).set (bitmapLocation g block order))
      accesses := bitmapAccess g block order :: s.accesses }

/-- `remove_free_block`. -/
def removeFreeBlock (g : Geometry) (order block : Nat)
    (s : RegionState) : RegionState :=
  let index := orderIndex order
  let next := FreeBlock.next s.mem block
  let prev := FreeBlock.prev s.mem block
  let free :=
    if prev = 0 then Function.update s.free index next else s.free
  let m := if prev = 0 then s.mem else FreeBlock.setNext s.mem prev next
  let m := if next ≠ 0 then FreeBlock.setPrev m next prev else m
  markOrderEmptyIfNeeded order
    { s with
      mem := m
      free := free
      freeBitmap := Function.update s.freeBitmap index
        ((s.freeBitmap index).clear (bitmapLocation g block order))
      accesses := bitmapAccess g block order :: s.accesses }

/-- `buddy`. -/
def buddy (g : Geometry) (addr order : Nat) : Nat :=
  g.base + ((addr - g.base) ^^^ (1 <<< order))

/-- `addr` lies in the region. -/
def inRegion (g : Geometry) (addr : Nat) : Bool :=
  g.base ≤ addr && addr < g.base + g.totalSize

-- ============================================================ allocation

/-- The locked section of `alloc_from_region`: take the first block of
the order's list, with its `life_time` and `trim_state`. -/
def takeHead (g : Geometry) (order : Nat) (s : RegionState) :
    Option (Nat × Nat × Nat) × RegionState :=
  let block := s.free (orderIndex order)
  if block = 0 then (none, markOrderEmptyIfNeeded order s)
  else
    (some (block, FreeBlock.lifeTime s.mem block,
      FreeBlock.trimState s.mem block), removeFreeBlock g order block s)

/-- The split loop of `alloc_from_region`, entered with `alloc_order`
`n` above the requested order: each pass puts the upper half back. -/
def splitDown (g : Geometry) (blockAddr lifeTime trimState requested : Nat) :
    Nat → Prog RegionState Unit Unit
  | 0 => return ()
  | n + 1 => do
      let buddyAddr := blockAddr + 2 ^ (requested + n)
      Prog.modify fun s =>
        { s with mem := FreeBlock.new s.mem buddyAddr lifeTime trimState }
      Prog.modify (pushFreeBlock g (requested + n) buddyAddr)
      splitDown g blockAddr lifeTime trimState requested n

/-- The search loop of `alloc_from_region` over the orders from
`allocOrder` up, `n` of them left. -/
def allocScan (g : Geometry) (requested : Nat) (mask : BitVec 8) :
    Nat → Nat → Prog RegionState Unit (Option (Nat × Nat))
  | 0, _ => return none
  | n + 1, allocOrder =>
      if mask &&& orderBit allocOrder = 0 then
        allocScan g requested mask n (allocOrder + 1)
      else do
        match ← Prog.atomic fun _ s => takeHead g allocOrder s with
        | none => allocScan g requested mask n (allocOrder + 1)
        | some (blockAddr, lifeTime, trimState) =>
            splitDown g blockAddr lifeTime trimState requested
              (allocOrder - requested)
            return some (blockAddr, trimState)

/-- `alloc_from_region`: the block's address and its `trim_state`. -/
def allocFromRegion (g : Geometry) (requestedOrder : Nat) :
    Prog RegionState Unit (Option (Nat × Nat)) :=
  if requestedOrder > g.order then return none
  else do
    let mask ← Prog.read fun s =>
      s.nonemptyMask &&& (BitVec.allOnes 8 <<< orderIndex requestedOrder)
    if mask = 0 then return none
    else
      allocScan g requestedOrder mask (g.order + 1 - requestedOrder)
        requestedOrder

-- ================================================================== free

/-- The locked section that takes the buddy off its list if it is
free. -/
def takeBuddy (g : Geometry) (buddyAddr order : Nat) (s : RegionState) :
    Bool × RegionState :=
  let seen :=
    { s with accesses := bitmapAccess g buddyAddr order :: s.accesses }
  if blockIsFree g buddyAddr order s then
    (true, removeFreeBlock g order buddyAddr seen)
  else (false, seen)

/-- The coalescing loop of `free`, `n` orders below `region.order`. -/
def coalesce (g : Geometry) :
    Nat → Nat → Nat → Prog RegionState Unit (Nat × Nat)
  | 0, current, currentOrder => return (current, currentOrder)
  | n + 1, current, currentOrder =>
      let buddyAddr := buddy g current currentOrder
      if !inRegion g buddyAddr then return (current, currentOrder)
      else do
        let merged ← Prog.atomic fun _ s =>
          takeBuddy g buddyAddr currentOrder s
        if merged then coalesce g n (min current buddyAddr) (currentOrder + 1)
        else return (current, currentOrder)

/-- `free`, on a region that is not null. -/
def free (g : Geometry) (addr order : Nat) :
    Prog RegionState Unit Unit :=
  if order < minOrder ∨ order > maxOrder then return ()
  else if !inRegion g addr then return ()
  else if order > g.order then return ()
  else do
    let (current, currentOrder) ← coalesce g (g.order - order) addr order
    let stamp ← Prog.read fun s => s.stamp
    Prog.modify fun s =>
      { s with mem := FreeBlock.new s.mem current stamp trimAllocated }
    Prog.modify (pushFreeBlock g currentOrder current)

-- ======================================================= growth in place

/-- `try_grow_inplace`, on a region that is not null. -/
def tryGrowInplace (g : Geometry) (addr currentOrder : Nat) :
    Prog RegionState Unit (Option (Nat × Nat)) :=
  if currentOrder ≥ g.order then return none
  else if !inRegion g addr then return none
  else
    let buddyAddr := buddy g addr currentOrder
    if buddyAddr < addr then return none
    else if !inRegion g buddyAddr then return none
    else do
      let grown ← Prog.atomic fun _ s =>
        takeBuddy g buddyAddr currentOrder s
      if grown then return some (addr, currentOrder + 1)
      else return none

-- ============================================================== creation

/-- The least power of two from `n` up. -/
def nextPowerOfTwo (n : Nat) : Nat :=
  if n ≤ 1 then 1 else 2 ^ (Nat.log2 (n - 1) + 1)

/-- `normalize_region_size`: `checked_next_power_of_two` fails above
`2^63`. -/
def normalizeRegionSize (size : Nat) : Nat :=
  max (if nextPowerOfTwo size < 2 ^ 64 then nextPowerOfTwo size
    else maxBlockSize) maxBlockSize

/-- The loop of `add_region` that fills the region with blocks of the
largest order. The fuel is one pass per block. -/
def fillRegion (g : Geometry) (lifeTime : Nat) :
    Nat → Nat → RegionState → RegionState
  | 0, _, s => s
  | n + 1, offset, s =>
      if offset < g.totalSize then
        fillRegion g lifeTime n (offset + maxBlockSize)
          (pushFreeBlock g maxOrder (g.base + offset)
            { s with
              mem := FreeBlock.new s.mem (g.base + offset) lifeTime
                trimNotAllocated })
      else s

/-- `size_of::<BuddyRegion>()`: the fields up to the locks take 160
bytes, each lock is 64 bytes at a multiple of 64. -/
abbrev regionNodeSize : Nat := 512

/-- `free_bitmap_words[order]` of a region of `size` bytes. -/
def freeBitmapWords (size order : Nat) : Nat :=
  (size >>> order + 63) / 64

/-- The loop over the orders in `alloc_region_node`, from `order` on,
`n` of them left. -/
def bitmapBytes (regionSize : Nat) : Nat → Nat → Nat → Option Nat
  | 0, _, bytes => some bytes
  | n + 1, order, bytes => do
      let words := freeBitmapWords regionSize order
      let bytes ← checkedAdd bytes (← checkedMul words 8)
      bitmapBytes regionSize n (order + 1) bytes

/-- `node_size` of `alloc_region_node`: the mapping it asks for. -/
def regionNodeBytes (regionSize : Nat) : Option Nat := do
  let bytes ← bitmapBytes regionSize (maxOrder + 1 - minOrder) minOrder 0
  let total ← checkedAdd regionNodeSize bytes
  return alignTo total 4096

/-- The loop of `add_region` that lays out the bitmaps: the pairs of
`free_bitmap` and `free_bitmap_words`, from `order` on, `n` of them
left. -/
def bitmapLayout (size : Nat) : Nat → Nat → Nat → List (Nat × Nat)
  | 0, _, _ => []
  | n + 1, order, bitmap =>
      let words := freeBitmapWords size order
      (bitmap, words)
        :: bitmapLayout size n (order + 1) (bitmap + 8 * words)

/-- The bitmaps of the region node at `regionPtr`. -/
def regionBitmaps (regionPtr size : Nat) : List (Nat × Nat) :=
  bitmapLayout size (maxOrder + 1 - minOrder) minOrder
    (regionPtr + regionNodeSize)

/-- The geometry `add_region` gives a mapping at `base`. -/
def newGeometry (base size nodeId : Nat) : Geometry where
  base := base
  totalSize := normalizeRegionSize size
  order := maxOrder
  nodeId := nodeId

/-- `add_region` once both mappings exist: an empty `BuddyRegion`, then
the fill loop. The mapping at `base` reads as zero. -/
def newRegion (base size nodeId stamp : Nat) (m : Mem) : RegionState :=
  let g := newGeometry base size nodeId
  fillRegion g stamp (g.totalSize / maxBlockSize) 0
    { mem := Mem.zero m base g.totalSize
      stamp := stamp
      nonemptyMask := 0
      free := fun _ => 0
      freeBitmap := fun _ => Bitmap.empty
      accesses := [] }

end RsMalloc.Buddy
