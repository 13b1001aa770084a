/-
The ownership map `RADIX` (internals/radix_tree.rs), transcribed.

# Representation

A tree has an 8-bit top table, two 12-bit pointer tables and a 12-bit
bitmap leaf of 64 words. Tables are created lazily and never shared, so
a table is modelled by the function its entries denote: an entry that
is `none` is the null word, an entry that is `some t` points at `t`.
Fresh mappings read as zero, so a fresh table is `fun _ => none` and a
fresh leaf `fun _ => 0`. A failed `map_memory` aborts the process and
is not a behaviour of the calls modelled here.

# Failure

Every indexed access goes through `entryAt`/`wordAt`, which answer
`none` outside the table the source mapped, and the leaf loop of
`set_range` runs on fuel, which also answers `none` when it is used
up. A call that returns `some` therefore used only in-range child and
word indices and terminated. `is_owned` answers `none` as well where
the source aborts on an address at or above `MAX_ADDR`.
-/
import Mathlib.Logic.Function.Basic
import RsMalloc.Sizes

namespace RsMalloc.RadixMap

-- ============================================================ constants

/-- `CHUNK_SIZE`: ownership is tracked per 4 KiB chunk. -/
abbrev chunkSize : Nat := 4096

/-- `L0_SIZE = 1 << L0_BITS`, entries of the top table. -/
abbrev l0Size : Nat := 2 ^ 8

/-- `L1_SIZE = 1 << L1_BITS`. -/
abbrev l1Size : Nat := 2 ^ 12

/-- `L2_SIZE = 1 << L2_BITS`. -/
abbrev l2Size : Nat := 2 ^ 12

/-- `L3_SIZE = 1 << L3_BITS`, chunks covered by one leaf. -/
abbrev l3Size : Nat := 2 ^ 12

/-- `L3_WORD_BITS = u64::BITS`. -/
abbrev l3WordBits : Nat := 64

/-- `L3_BITMAP_WORDS`. -/
abbrev l3BitmapWords : Nat := (l3Size + l3WordBits - 1) / l3WordBits

/-- `MAX_ADDR`: the first address outside the supported range. -/
abbrev maxAddr : Nat := 2 ^ 56

/-- `RADIX_MAX_CHUNKS`. -/
abbrev radixMaxChunks : Nat := 2 ^ (8 + 12 + 12 + 12)

-- =============================================================== tables

/-- A bitmap leaf: the `AtomicU64` words of one `l3` mapping. -/
abbrev Leaf := Nat → BitVec 64

/-- A pointer table over children of type `α`. -/
abbrev Table (α : Type) := Nat → Option α

/-- `Radix`: the top table, of tables, of tables, of leaves. -/
structure Radix where
  l0 : Table (Table (Table Leaf))

/-- `Radix::new`: a zeroed top table. -/
def Radix.new : Radix := ⟨fun _ => none⟩

/-- `ptr.add(idx)` followed by a load, on a table of `size` entries:
`none` when `idx` is past the mapping. -/
def entryAt {α : Type} (t : Table α) (size idx : Nat) :
    Option (Option α) :=
  if idx < size then some (t idx) else none

/-- `get_or_alloc` and `get_or_alloc_l3`: the child at `idx`, or a
fresh zeroed one when the entry is null. The new child is installed by
the caller, which stores the updated child back (`Table.store`). -/
def getOrAlloc {α : Type} (t : Table α) (size idx : Nat) (fresh : α) :
    Option α :=
  (entryAt t size idx).map fun entry => entry.getD fresh

/-- Write the pointer of `child` into entry `idx`. -/
def Table.store {α : Type} (t : Table α) (idx : Nat) (child : α) :
    Table α :=
  Function.update t idx (some child)

/-- `split`: the three child indices and the chunk index in the leaf. -/
def split (idx : Nat) : Nat × Nat × Nat × Nat :=
  (idx / 2 ^ (12 + 12 + 12) % l0Size, idx / 2 ^ (12 + 12) % l1Size,
    idx / 2 ^ 12 % l2Size, idx % l3Size)

/-- The descent every writer makes: `get_or_alloc` down to the leaf of
`(i0, i1, i2)`, then `f` on the leaf, the result stored back through
the tables on the path. -/
def Radix.withLeaf (r : Radix) (i0 i1 i2 : Nat)
    (f : Leaf → Option Leaf) : Option Radix := do
  let l1 ← getOrAlloc r.l0 l0Size i0 (fun _ => none)
  let l2 ← getOrAlloc l1 l1Size i1 (fun _ => none)
  let l3 ← getOrAlloc l2 l2Size i2 (fun _ => 0)
  let l3' ← f l3
  return ⟨r.l0.store i0 (l1.store i1 (l2.store i2 l3'))⟩

-- ========================================================= leaf updates

/-- `fetch_or(mask)` when marking, `fetch_and(!mask)` when clearing. -/
def applyMask (val : Bool) (mask word : BitVec 64) : BitVec 64 :=
  if val then word ||| mask else word &&& ~~~mask

/-- One read-modify-write of leaf word `wordIdx`. -/
def markWord (l3 : Leaf) (wordIdx : Nat) (mask : BitVec 64)
    (val : Bool) : Option Leaf :=
  if wordIdx < l3BitmapWords then
    some (Function.update l3 wordIdx (applyMask val mask (l3 wordIdx)))
  else none

/-- `low_mask & high_mask` for the bits `first..=last` of one word. -/
def rangeMask (firstBit lastBit : Nat) : BitVec 64 :=
  let lowMask := BitVec.allOnes 64 <<< firstBit
  let highMask :=
    if lastBit = l3WordBits - 1 then BitVec.allOnes 64
    else 1#64 <<< (lastBit + 1) - 1#64
  lowMask &&& highMask

/-- The mask `set_range` applies to `wordIdx` when it marks the leaf
chunks `i3..=leafEnd`. -/
def wordMask (i3 leafEnd wordIdx : Nat) : BitVec 64 :=
  let firstBit := if wordIdx = i3 / l3WordBits then i3 % l3WordBits else 0
  let lastBit :=
    if wordIdx = leafEnd / l3WordBits then leafEnd % l3WordBits
    else l3WordBits - 1
  rangeMask firstBit lastBit

/-- The inner loop of `set_range`: every word from the one holding `i3`
to the one holding `leafEnd`. -/
def markLeaf (val : Bool) (i3 leafEnd : Nat) (l3 : Leaf) : Option Leaf :=
  let firstWord := i3 / l3WordBits
  let lastWord := leafEnd / l3WordBits
  (List.range' firstWord (lastWord + 1 - firstWord)).foldlM
    (fun l wordIdx => markWord l wordIdx (wordMask i3 leafEnd wordIdx) val)
    l3

-- ==================================================== `Radix` operations

/-- `Radix::set`. -/
def Radix.set (r : Radix) (chunkIdx : Nat) (val : Bool) : Option Radix :=
  if radixMaxChunks ≤ chunkIdx then some r
  else
    let (i0, i1, i2, i3) := split chunkIdx
    r.withLeaf i0 i1 i2 fun l3 =>
      markWord l3 (i3 / l3WordBits) (1#64 <<< (i3 % l3WordBits)) val

/-- The outer loop of `Radix::set_range`: one leaf per pass. -/
def Radix.setRangeLoop (val : Bool) (endIdx : Nat) :
    Nat → Nat → Radix → Option Radix
  | 0, _, _ => none
  | fuel + 1, chunkIdx, r => do
      let (i0, i1, i2, i3) := split chunkIdx
      let chunksLeftInLeaf := l3Size - i3
      let chunksLeftInRange := endIdx - chunkIdx + 1
      let chunksInLeaf := min chunksLeftInLeaf chunksLeftInRange
      let leafEnd := i3 + chunksInLeaf - 1
      let r' ← r.withLeaf i0 i1 i2 (markLeaf val i3 leafEnd)
      if chunksInLeaf = chunksLeftInRange then return r'
      else Radix.setRangeLoop val endIdx fuel (chunkIdx + chunksInLeaf) r'

/-- `Radix::set_range`, with one pass of fuel per chunk of the range:
each pass covers at least one chunk. -/
def Radix.setRange (r : Radix) (startIdx endIdx : Nat) (val : Bool) :
    Option Radix :=
  Radix.setRangeLoop val endIdx (endIdx - startIdx + 1) startIdx r

/-- `Radix::get`: a null table on the path reads as not owned. -/
def Radix.get (r : Radix) (chunkIdx : Nat) : Option Bool :=
  if radixMaxChunks ≤ chunkIdx then some false
  else do
    let (i0, i1, i2, i3) := split chunkIdx
    let some l1 ← entryAt r.l0 l0Size i0 | return false
    let some l2 ← entryAt l1 l1Size i1 | return false
    let some l3 ← entryAt l2 l2Size i2 | return false
    let wordIdx := i3 / l3WordBits
    let mask := 1#64 <<< (i3 % l3WordBits)
    if wordIdx < l3BitmapWords then return (l3 wordIdx &&& mask) != 0
    else none

-- ================================================ `RadixTree` operations

/-- `RadixTree`. A null `nodes.l0` (`new_const`) is `none`. -/
structure RadixTree where
  nodes : Option Radix

/-- `RadixTree::new_const`: not yet mapped. -/
def RadixTree.newConst : RadixTree := ⟨none⟩

/-- `RadixTree::new`. -/
def RadixTree.new : RadixTree := ⟨some Radix.new⟩

/-- `valid_user_addr`. -/
def validUserAddr (addr : Nat) : Bool := addr < maxAddr

/-- `RadixTree::set_single_big`. -/
def RadixTree.setSingleBig (t : RadixTree) (addr : Nat) (val : Bool) :
    Option RadixTree :=
  if !validUserAddr addr then some t
  else do
    let nodes ← t.nodes
    let nodes' ← nodes.set (addr / chunkSize) val
    return ⟨some nodes'⟩

/-- `RadixTree::set_range`. -/
def RadixTree.setRange (t : RadixTree) (addr size : Nat) (val : Bool) :
    Option RadixTree :=
  if size = 0 ∨ !validUserAddr addr then some t
  else
    match checkedAdd addr (size - 1) with
    | none => some t
    | some endAddr =>
        if !validUserAddr endAddr then some t
        else do
          let nodes ← t.nodes
          let nodes' ← nodes.setRange (addr / chunkSize)
            (endAddr / chunkSize) val
          return ⟨some nodes'⟩

/-- `RadixTree::is_owned`; `none` is the abort on an invalid address. -/
def RadixTree.isOwned (t : RadixTree) (addr : Nat) : Option Bool :=
  match t.nodes with
  | none => some false
  | some nodes =>
      if !validUserAddr addr then none else nodes.get (addr / chunkSize)

end RsMalloc.RadixMap
