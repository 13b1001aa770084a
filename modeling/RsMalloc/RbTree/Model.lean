/-
The pointer red-black tree behind `BIG_META_MAP`
(`internals/rbtree.rs`).

# Memory

Nodes live in a heap from addresses to node records; an address outside
every chunk has no record, and null is address 0. Reading or writing
through an address without a record is a fault, so a run that ends
without one dereferenced neither null nor a stray pointer. Each public
operation holds the tree's lock from start to end, so operations are
state transformers and the lock itself does not appear.

# Loops

A `while` of the source is a recursion with fuel, and running out of
fuel is a second kind of fault; the proofs give how much is always
enough.

# The kernel

`os n` is the address `mmap_anonymous` returns for the `n`-th chunk.
The mapping is zero-filled: color byte 0 is `Red`.

# Mirrored code

The source writes every rebalancing case twice, once for each side. The
two are the same code with `left` and `right` exchanged, so here a side
is an argument; `rotateLeft` and `rotateRight` name its two values.
-/
import RsMalloc.Lib.RedBlack
import Mathlib.Logic.Function.Basic

namespace RsMalloc.RbTree

open RedBlack (Color Side)

abbrev Ptr := Nat

abbrev Key := Nat

structure BigAllocMeta where
  next : Ptr
  size : Nat
  order : Nat
  buddyRegion : Nat
  aligned : Bool
  deriving DecidableEq, Repr

structure Node where
  key : Key
  bigMeta : BigAllocMeta
  left : Ptr
  right : Ptr
  parent : Ptr
  color : Color
  deriving DecidableEq, Repr

def Node.child (n : Node) : Side → Ptr
  | .left => n.left
  | .right => n.right

def Node.setChild (n : Node) (d : Side) (p : Ptr) : Node :=
  match d with
  | .left => { n with left := p }
  | .right => { n with right := p }

abbrev nodeChunk : Nat := 1024

/-- `size_of::<Node>()`: the metadata is 16-aligned. -/
abbrev nodeSize : Nat := 96

/-- `root`, `free_list`, the heap of nodes, and how many chunks were
mapped. -/
structure RBTree where
  root : Ptr
  freeList : Ptr
  node : Ptr → Option Node
  chunks : Nat

def RBTree.new : RBTree := ⟨0, 0, fun _ => none, 0⟩

inductive Fault
  | badPointer
  | outOfFuel
  deriving DecidableEq, Repr

abbrev M := StateT RBTree (Except Fault)

-- ====================================================== memory accesses

/-- `*p` as a value. -/
def load (p : Ptr) : M Node := fun h =>
  match h.node p with
  | none => .error .badPointer
  | some n => .ok (n, h)

def RBTree.set (h : RBTree) (p : Ptr) (n : Node) : RBTree :=
  { h with node := Function.update h.node p (some n) }

/-- Write fields of `*p`. -/
def modify (p : Ptr) (f : Node → Node) : M Unit := fun h =>
  match h.node p with
  | none => .error .badPointer
  | some n => .ok ((), h.set p (f n))

/-- `(*p).left` or `(*p).right`. -/
def child (p : Ptr) (d : Side) : M Ptr := do
  let n ← load p
  pure (n.child d)

/-- `(*p).parent`. -/
def parentOf (p : Ptr) : M Ptr := do
  let n ← load p
  pure n.parent

/-- `(*p).color`. -/
def colorAt (p : Ptr) : M Color := do
  let n ← load p
  pure n.color

def setChild (p : Ptr) (d : Side) (q : Ptr) : M Unit :=
  modify p fun n => n.setChild d q

/-- `if !p.is_null() { (*p).parent = q }`. -/
def setParentNonNull (p q : Ptr) : M Unit :=
  if p = 0 then pure () else modify p fun n => { n with parent := q }

def loadRoot : M Ptr := fun h => .ok (h.root, h)

def storeRoot (p : Ptr) : M Unit := fun h => .ok ((), { h with root := p })

def loadFreeList : M Ptr := fun h => .ok (h.freeList, h)

def storeFreeList (p : Ptr) : M Unit := fun h =>
  .ok ((), { h with freeList := p })

def setColor (p : Ptr) (c : Color) : M Unit :=
  modify p fun n => { n with color := c }

/-- `if !p.is_null() { (*p).color = c }`. -/
def setColorNonNull (p : Ptr) (c : Color) : M Unit :=
  if p = 0 then pure () else setColor p c

def colorOf (p : Ptr) : M Color :=
  if p = 0 then pure .black
  else colorAt p

-- ============================================================= search

def findNodeLoop : Nat → Key → Ptr → M Ptr
  | 0, _, _ => throw .outOfFuel
  | fuel + 1, key, x =>
      if x = 0 then pure 0
      else do
        let n ← load x
        if key = n.key then pure x
        else findNodeLoop fuel key (if key < n.key then n.left else n.right)

def findNode (fuel : Nat) (key : Key) : M Ptr := do
  let x ← loadRoot
  findNodeLoop fuel key x

/-- The descent of `tree_insert`: `none` once an existing key took the
new metadata, otherwise the last node passed. -/
def treeInsertLoop : Nat → Key → BigAllocMeta → Ptr → Ptr → M (Option Ptr)
  | 0, _, _, _, _ => throw .outOfFuel
  | fuel + 1, key, m, y, x =>
      if x = 0 then pure (some y)
      else do
        let n ← load x
        if key = n.key then do
          modify x fun n => { n with bigMeta := m }
          pure none
        else if key < n.key then treeInsertLoop fuel key m x n.left
        else treeInsertLoop fuel key m x n.right

-- ========================================================== rotations

/-- The link to `x` in its parent `up`, or the root, becomes a link to
`y`. Side `d` is the one the source compares with. -/
def relink (d : Side) (up x y : Ptr) : M Unit :=
  if up = 0 then storeRoot y
  else do
    let u ← child up d
    if x = u then setChild up d y else setChild up d.other y

/-- `x` sinks to side `d`, its child on the other side rises. -/
def rotate (d : Side) (x : Ptr) : M Unit := do
  let y ← child x d.other
  let b ← child y d
  setChild x d.other b
  let b ← child y d
  setParentNonNull b x
  let up ← parentOf x
  modify y fun n => { n with parent := up }
  let up ← parentOf x
  relink d up x y
  setChild y d x
  modify x fun n => { n with parent := y }

def rotateLeft : Ptr → M Unit := rotate .left

def rotateRight : Ptr → M Unit := rotate .right

def transplant (u v : Ptr) : M Unit := do
  let up ← parentOf u
  relink .left up u v
  setParentNonNull v up

def minimum : Nat → Ptr → M Ptr
  | 0, _ => throw .outOfFuel
  | fuel + 1, x => do
      let l ← child x .left
      if l = 0 then pure x else minimum fuel l

-- ========================================================== insertion

/-- `if z == (*zp).right { z = zp; self.rotate_left(z); }`, for the
side the parent is on. -/
def insertFixupInner (d : Side) (z zp : Ptr) : M Ptr := do
  let inner ← child zp d.other
  if z = inner then do
    rotate d zp
    pure zp
  else pure z

/-- One pass of `insert_fixup` with the parent on side `d` of the
grandparent; returns the next `z`. -/
def insertFixupSide (d : Side) (z zp zpp : Ptr) : M Ptr := do
  let y ← child zpp d.other
  let c ← colorOf y
  if c = .red then do
    setColor zp .black
    setColor y .black
    setColor zpp .red
    pure zpp
  else do
    let z ← insertFixupInner d z zp
    let zp ← parentOf z
    let zpp ← parentOf zp
    setColor zp .black
    setColor zpp .red
    rotate d.other zpp
    pure z

def insertFixupLoop : Nat → Ptr → M Unit
  | 0, _ => throw .outOfFuel
  | fuel + 1, z => do
      let zp ← parentOf z
      let c ← colorOf zp
      if c = .red then do
        let zpp ← parentOf zp
        let l ← child zpp .left
        let z ← insertFixupSide (if zp = l then .left else .right) z zp zpp
        insertFixupLoop fuel z
      else pure ()

def insertFixup (fuel : Nat) (z : Ptr) : M Unit := do
  insertFixupLoop fuel z
  let root ← loadRoot
  setColor root .black

-- =========================================================== deletion

/-- The case of a red sibling: afterwards the sibling is black. -/
def deleteFixupSibling (d : Side) (xParent w : Ptr) : M Ptr := do
  let c ← colorOf w
  if c = .red then do
    setColor w .black
    setColor xParent .red
    rotate d xParent
    child xParent d.other
  else pure w

/-- `if color_of((*w).right) == Black { … }`: a red inner nephew turns
outwards; returns the sibling to go on with. -/
def deleteFixupNephew (d : Side) (xParent w : Ptr) : M Ptr := do
  let far ← child w d.other
  let c ← colorOf far
  if c = .black then do
    let near ← child w d
    setColorNonNull near .black
    setColor w .red
    rotate d.other w
    child xParent d.other
  else pure w

/-- A nephew is red: rotations end the shortage, and the loop goes on
from the root. -/
def deleteFixupFinish (d : Side) (xParent w : Ptr) : M (Ptr × Ptr) := do
  let w ← deleteFixupNephew d xParent w
  let c ← colorAt xParent
  setColor w c
  setColor xParent .black
  let far ← child w d.other
  setColorNonNull far .black
  rotate d xParent
  let root ← loadRoot
  pure (root, 0)

/-- One pass of `delete_fixup` with `x` on side `d` of its parent;
returns the next `x` and `x_parent`. -/
def deleteFixupSide (d : Side) (xParent : Ptr) : M (Ptr × Ptr) := do
  let w ← child xParent d.other
  let w ← deleteFixupSibling d xParent w
  let near ← child w d
  let nearColor ← colorOf near
  let far ← child w d.other
  let farColor ← colorOf far
  if nearColor = .black ∧ farColor = .black then do
    setColor w .red
    let up ← parentOf xParent
    pure (xParent, up)
  else deleteFixupFinish d xParent w

/-- Returns the `x` the loop ends with. -/
def deleteFixupLoop : Nat → Ptr → Ptr → M Ptr
  | 0, _, _ => throw .outOfFuel
  | fuel + 1, x, xParent => do
      let root ← loadRoot
      let c ← colorOf x
      if x ≠ root ∧ c = .black then
        if xParent = 0 then pure x
        else do
          let l ← child xParent .left
          let next ← deleteFixupSide (if x = l then .left else .right) xParent
          deleteFixupLoop fuel next.1 next.2
      else pure x

def deleteFixup (fuel : Nat) (x xParent : Ptr) : M Unit := do
  let x ← deleteFixupLoop fuel x xParent
  setColorNonNull x .black

-- ========================================================= node chunks

/-- Zero-filled memory read as a node. -/
def zeroNode : Node := ⟨0, ⟨0, 0, 0, 0, false⟩, 0, 0, 0, .red⟩

/-- `ptr.add(i)`. -/
def nodeAt (ptr : Ptr) (i : Nat) : Ptr := ptr + i * nodeSize

/-- `p` is one of the nodes of the chunk at `ptr`. -/
def inChunk (ptr p : Ptr) : Bool :=
  ptr ≤ p ∧ p < ptr + nodeChunk * nodeSize ∧ (p - ptr) % nodeSize = 0

/-- The `mmap_anonymous` of one chunk. -/
def mapChunk (os : Nat → Ptr) : M Ptr := fun h =>
  .ok (os h.chunks, { h with
    node := fun p =>
      if inChunk (os h.chunks) p then some zeroNode else h.node p
    chunks := h.chunks + 1 })

/-- `for i in 0..NODE_CHUNK` from `i` on, with `n` passes to go. -/
def linkChunk (ptr : Ptr) : Nat → Nat → M Unit
  | _, 0 => pure ()
  | i, n + 1 => do
      setChild (nodeAt ptr i) .left
        (if i + 1 < nodeChunk then nodeAt ptr (i + 1) else 0)
      linkChunk ptr (i + 1) n

def allocChunk (os : Nat → Ptr) : M Unit := do
  let ptr ← mapChunk os
  linkChunk ptr 0 nodeChunk
  let oldHead ← loadFreeList
  setChild (nodeAt ptr (nodeChunk - 1)) .left oldHead
  storeFreeList ptr

/-- `if self.free_list.load(..).is_null() { self.alloc_chunk(); }`. -/
def ensureFree (os : Nat → Ptr) : M Unit := do
  let free ← loadFreeList
  if free = 0 then allocChunk os else pure ()

def allocNode (os : Nat → Ptr) (key : Key) (m : BigAllocMeta) : M Ptr := do
  ensureFree os
  let head ← loadFreeList
  let next ← child head .left
  storeFreeList next
  modify head fun _ => ⟨key, m, 0, 0, 0, .red⟩
  pure head

def freeNode (node : Ptr) : M Unit := do
  let head ← loadFreeList
  setChild node .left head
  storeFreeList node

-- =================================================== public operations

/-- Hang the new node `z` below `y`, or at the root. -/
def linkNew (key : Key) (y z : Ptr) : M Unit :=
  if y = 0 then storeRoot z
  else do
    let n ← load y
    if key < n.key then setChild y .left z else setChild y .right z

def treeInsert (os : Nat → Ptr) (fuel : Nat) (key : Key)
    (m : BigAllocMeta) : M Unit := do
  let x ← loadRoot
  let found ← treeInsertLoop fuel key m 0 x
  match found with
  | none => pure ()
  | some y => do
      let z ← allocNode os key m
      modify z fun n => { n with parent := y }
      linkNew key y z
      insertFixup fuel z

/-- The successor `y` takes the place of `z`, and the color of `z`. -/
def replaceBy (z y : Ptr) : M Unit := do
  transplant z y
  let l ← child z .left
  setChild y .left l
  let l ← child y .left
  modify l fun n => { n with parent := y }
  let c ← colorAt z
  setColor y c

/-- Take `y`, which is below the right child of `z`, out of its place
and give it the right subtree of `z`. -/
def spliceSuccessor (z y : Ptr) : M Unit := do
  let r ← child y .right
  transplant y r
  let r ← child z .right
  setChild y .right r
  let r ← child y .right
  modify r fun n => { n with parent := y }

/-- The part of `delete_node` for two children: returns
`y_original_color`, `x` and `x_parent`. -/
def deleteTwo (fuel : Nat) (z : Ptr) : M (Color × Ptr × Ptr) := do
  let r ← child z .right
  let y ← minimum fuel r
  let c ← colorAt y
  let x ← child y .right
  let yp ← parentOf y
  if yp = z then do
    replaceBy z y
    pure (c, x, y)
  else do
    spliceSuccessor z y
    replaceBy z y
    pure (c, x, yp)

/-- Unlink `z`: returns `y_original_color`, `x` and `x_parent`. -/
def unlinkNode (fuel : Nat) (z : Ptr) : M (Color × Ptr × Ptr) := do
  let c ← colorAt z
  let l ← child z .left
  let r ← child z .right
  let up ← parentOf z
  if l = 0 then do
    transplant z r
    pure (c, r, up)
  else if r = 0 then do
    transplant z l
    pure (c, l, up)
  else deleteTwo fuel z

def deleteNode (fuel : Nat) (z : Ptr) : M Unit := do
  let u ← unlinkNode fuel z
  rebalance fuel u
  freeNode z
where
  /-- `if y_original_color == Black { self.delete_fixup(x, x_parent) }`. -/
  rebalance (fuel : Nat) (u : Color × Ptr × Ptr) : M Unit :=
    if u.1 = .black then deleteFixup fuel u.2.1 u.2.2 else pure ()

def insert (os : Nat → Ptr) (fuel : Nat) (key : Key) (m : BigAllocMeta) :
    M Unit :=
  treeInsert os fuel key m

def get (fuel : Nat) (key : Key) : M (Option BigAllocMeta) := do
  let node ← findNode fuel key
  if node = 0 then pure none
  else do
    let n ← load node
    pure (some n.bigMeta)

def replace (fuel : Nat) (key : Key) (m : BigAllocMeta) :
    M (Option BigAllocMeta) := do
  let node ← findNode fuel key
  if node = 0 then pure none
  else do
    let n ← load node
    modify node fun n => { n with bigMeta := m }
    pure (some n.bigMeta)

def remove (fuel : Nat) (key : Key) : M (Option BigAllocMeta) := do
  let node ← findNode fuel key
  if node = 0 then pure none
  else do
    let n ← load node
    deleteNode fuel node
    pure (some n.bigMeta)

-- ============================================================ histories

inductive Call
  | insert (key : Key) (m : BigAllocMeta)
  | get (key : Key)
  | replace (key : Key) (m : BigAllocMeta)
  | remove (key : Key)

/-- One call; `insert` returns nothing. -/
def Call.exec (os : Nat → Ptr) (fuel : Nat) : Call → M (Option BigAllocMeta)
  | .insert key m => do
      RbTree.insert os fuel key m
      pure none
  | .get key => RbTree.get fuel key
  | .replace key m => RbTree.replace fuel key m
  | .remove key => RbTree.remove fuel key

/-- A sequence of calls with what each returned. -/
def run (os : Nat → Ptr) (fuel : Nat) :
    List Call → M (List (Option BigAllocMeta))
  | [] => pure []
  | c :: cs => do
      let out ← c.exec os fuel
      let outs ← run os fuel cs
      pure (out :: outs)

/-- What `mmap` promises: chunks are not at null and do not overlap. -/
structure FreshChunks (os : Nat → Ptr) : Prop where
  ne_null : ∀ n, os n ≠ 0
  disjoint : ∀ m n, m ≠ n →
    os m + nodeChunk * nodeSize ≤ os n ∨ os n + nodeChunk * nodeSize ≤ os m

-- ====================================================== the abstract map

/-- The reference: a finite map from keys to metadata. -/
abbrev MetaMap := Key → Option BigAllocMeta

def MetaMap.step (f : MetaMap) : Call → Option BigAllocMeta × MetaMap
  | .insert key m => (none, Function.update f key (some m))
  | .get key => (f key, f)
  | .replace key m =>
      (f key, if (f key).isSome then Function.update f key (some m) else f)
  | .remove key => (f key, Function.update f key none)

def MetaMap.run : MetaMap → List Call → List (Option BigAllocMeta)
  | _, [] => []
  | f, c :: cs => (f.step c).1 :: run (f.step c).2 cs

end RsMalloc.RbTree
