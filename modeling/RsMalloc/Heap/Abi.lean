/-
The functions that programs link against.

# The C interface

`malloc` and its relatives check their arguments, work out a size and go
on to the functions of the heap; `errno` is left out, but the code that
`posix_memalign` returns is not.

# The Rust interface

A `GlobalAlloc` is called with a `Layout`. Up to an alignment of 16 the
plain path is taken, above it the aligned one.

# Calls

`Call` are all of them, with the accesses of a program to its own memory
and with what the allocator's own threads do beside it: trims, the clock,
the switch of `relief_paths`, the destructor at the end of a thread.
-/
import RsMalloc.Heap.Model

namespace RsMalloc.Heap

open Conc

-- ============================================================= outcomes

/-- How a call ends. -/
inductive Outcome where
  | returns (value : Nat)
  /-- `posix_memalign` returns an error code. -/
  | fails (code : Errno)
  /-- `log_and_abort`. -/
  | aborts (error : RSMallocError)
  deriving DecidableEq, Repr

/-- A result, or the end of the process. -/
def Outcome.of {α : Type} (value : α → Nat) : Except RSMallocError α → Outcome
  | .ok a => .returns (value a)
  | .error e => .aborts e

-- ========================================================= the C interface

/-- `zero`. -/
def zero (ptr len : Nat) : HeapM Unit :=
  Prog.modify (State.onMem fun m => Mem.zero m ptr len)

/-- `is_power_of_two`. -/
def isPowerOfTwo (n : Nat) : Bool := decide (n = Buddy.nextPowerOfTwo n)

/-- `malloc`. -/
def malloc (cfg : Config) (fuel tid size : Nat) : HeapM Outcome := do
  let ptr ← rsAlloc cfg fuel tid size false
  return .returns ptr

/-- `calloc`. -/
def calloc (cfg : Config) (fuel tid nmemb size : Nat) : HeapM Outcome := do
  let ptr ← rsCalloc cfg fuel tid size nmemb
  return .of id ptr

/-- `realloc`. -/
def realloc (cfg : Config) (fuel tid ptr newSize : Nat) :
    HeapM Outcome := do
  let new ← rsRealloc cfg fuel tid ptr newSize
  return .of Prod.fst new

/-- `reallocarray`. -/
def reallocarray (cfg : Config) (fuel tid ptr nmemb size : Nat) :
    HeapM Outcome :=
  match checkedMul nmemb size with
  | none => return .returns 0
  | some totalSize => realloc cfg fuel tid ptr totalSize

/-- `recallocarray`. An `old_size` that overflows counts as zero. -/
def recallocarray (cfg : Config)
    (fuel tid ptr oldnmemb newnmemb size : Nat) : HeapM Outcome :=
  if ptr = 0 then calloc cfg fuel tid newnmemb size
  else
    match checkedMul newnmemb size with
    | none => return .returns 0
    | some newSize =>
        let oldSize := (checkedMul oldnmemb size).getD 0
        if newSize ≤ oldSize then realloc cfg fuel tid ptr newSize
        else do
          match ← realloc cfg fuel tid ptr newSize with
          | .returns newPtr =>
              if newPtr = 0 then return .returns 0
              else do
                zero (newPtr + oldSize) (newSize - oldSize)
                return .returns newPtr
          | stopped => return stopped

/-- `posix_memalign`: what it stores through `memptr`, or its code. -/
def posixMemalign (cfg : Config) (fuel tid alignment size : Nat) :
    HeapM Outcome := do
  match ← posixAlignInner cfg fuel tid alignment size with
  | .error code => return .fails code
  | .ok (ptr, _) => return .returns ptr

/-- `memalign`. -/
def memalign (cfg : Config) (fuel tid alignment size : Nat) :
    HeapM Outcome := do
  let (ptr, _) ← memalignInner cfg fuel tid alignment size
  return .returns ptr

/-- `aligned_alloc`. -/
def alignedAlloc (cfg : Config) (fuel tid alignment size : Nat) :
    HeapM Outcome :=
  if alignment = 0 ∨ isPowerOfTwo alignment = false
      ∨ size % alignment ≠ 0 then
    return .returns 0
  else memalign cfg fuel tid alignment size

/-- `valloc`. -/
def valloc (cfg : Config) (fuel tid size : Nat) : HeapM Outcome :=
  memalign cfg fuel tid 4096 size

/-- The size `pvalloc` rounds to, if it does not overflow. -/
def pvallocSize (size : Nat) : Option Nat :=
  if size = 0 then some 4096
  else (checkedAdd size 4095).map fun v => v / 4096 * 4096

/-- `pvalloc`. -/
def pvalloc (cfg : Config) (fuel tid size : Nat) : HeapM Outcome :=
  match pvallocSize size with
  | none => return .returns 0
  | some roundedSize => memalign cfg fuel tid 4096 roundedSize

/-- `free`, and so `free_sized` and `free_aligned_sized`. -/
def free (cfg : Config) (ptr : Nat) : HeapM Outcome := do
  let done ← rsFree cfg ptr
  return .of (fun _ => 0) done

/-- `malloc_usable_size`. -/
def mallocUsableSize (cfg : Config) (ptr : Nat) : HeapM Outcome := do
  let size ← Prog.read fun h => usableSize cfg h ptr
  return .of id size

/-- `malloc_trim`. -/
def mallocTrim (cfg : Config) (fuel requestedSize : Nat) :
    HeapM Outcome := do
  let buddyTrim ← trimOld fuel requestedSize
  let smallTrim ←
    (if requestedSize - buddyTrim ≠ 0 ∨ requestedSize = 0 then
      onSlab (Slab.trimSmall cfg fuel (requestedSize - buddyTrim))
    else pure 0)
  let total := min (buddyTrim + smallTrim) (2 ^ 64 - 1)
  return .returns (if total ≠ 0 then 1 else 0)

-- ====================================================== the Rust interface

/-- A `Layout`: the alignment is a power of two, and the size, rounded up
to it, is at most `isize::MAX`. -/
structure Layout where
  size : Nat
  align : Nat
  power : ∃ k, align = 2 ^ k
  fits : size + (align - 1) < 2 ^ 63

/-- `GlobalAlloc::alloc`. -/
def alloc (cfg : Config) (fuel tid : Nat) (layout : Layout) :
    HeapM Outcome :=
  if layout.align ≤ 16 then malloc cfg fuel tid layout.size
  else memalign cfg fuel tid layout.align layout.size

/-- `GlobalAlloc::dealloc`. -/
def dealloc (cfg : Config) (ptr : Nat) (_ : Layout) : HeapM Outcome :=
  free cfg ptr

/-- `GlobalAlloc::realloc`. -/
def reallocLayout (cfg : Config) (fuel tid ptr : Nat) (_ : Layout)
    (newSize : Nat) : HeapM Outcome :=
  realloc cfg fuel tid ptr newSize

/-- `GlobalAlloc::alloc_zeroed`. -/
def allocZeroed (cfg : Config) (fuel tid : Nat) (layout : Layout) :
    HeapM Outcome :=
  if layout.align ≤ 16 then calloc cfg fuel tid layout.size 1
  else do
    match ← alloc cfg fuel tid layout with
    | .returns ptr =>
        if ptr = 0 then return .returns 0
        else do
          zero ptr layout.size
          return .returns ptr
    | stopped => return stopped

-- ================================================================== calls

/-- What goes on in a process. -/
inductive Call where
  | malloc (size : Nat)
  | calloc (nmemb size : Nat)
  | realloc (ptr newSize : Nat)
  | reallocarray (ptr nmemb size : Nat)
  | recallocarray (ptr oldnmemb newnmemb size : Nat)
  | posixMemalign (alignment size : Nat)
  | memalign (alignment size : Nat)
  | alignedAlloc (alignment size : Nat)
  | valloc (size : Nat)
  | pvalloc (size : Nat)
  | free (ptr : Nat)
  | mallocUsableSize (ptr : Nat)
  | mallocTrim (requestedSize : Nat)
  | alloc (layout : Layout)
  | dealloc (ptr : Nat) (layout : Layout)
  | reallocLayout (ptr : Nat) (layout : Layout) (newSize : Nat)
  | allocZeroed (layout : Layout)
  | rsTrim (trim : RSMallocTrim)
  /-- The program reads a byte of its own memory. -/
  | load (addr : Nat)
  /-- The program writes a byte of its own memory. -/
  | store (addr value : Nat)
  /-- `BUDDY_BACKEND.init`. -/
  | init (size : Nat)
  /-- `cleanup_thread_bulk`, when a thread ends. -/
  | exit
  /-- `CURRENT_STAMP.store`. -/
  | tick (stamp : Nat)
  /-- `DISABLE_BUDDY.store`. -/
  | relief (disable : Bool)

/-- The program of a call. -/
def Call.prog (cfg : Config) (fuel tid : Nat) : Call → HeapM Outcome
  | .malloc size => Heap.malloc cfg fuel tid size
  | .calloc nmemb size => Heap.calloc cfg fuel tid nmemb size
  | .realloc ptr newSize => Heap.realloc cfg fuel tid ptr newSize
  | .reallocarray ptr nmemb size =>
      Heap.reallocarray cfg fuel tid ptr nmemb size
  | .recallocarray ptr oldnmemb newnmemb size =>
      Heap.recallocarray cfg fuel tid ptr oldnmemb newnmemb size
  | .posixMemalign alignment size =>
      Heap.posixMemalign cfg fuel tid alignment size
  | .memalign alignment size => Heap.memalign cfg fuel tid alignment size
  | .alignedAlloc alignment size =>
      Heap.alignedAlloc cfg fuel tid alignment size
  | .valloc size => Heap.valloc cfg fuel tid size
  | .pvalloc size => Heap.pvalloc cfg fuel tid size
  | .free ptr => Heap.free cfg ptr
  | .mallocUsableSize ptr => Heap.mallocUsableSize cfg ptr
  | .mallocTrim requestedSize => Heap.mallocTrim cfg fuel requestedSize
  | .alloc layout => Heap.alloc cfg fuel tid layout
  | .dealloc ptr layout => Heap.dealloc cfg ptr layout
  | .reallocLayout ptr layout newSize =>
      Heap.reallocLayout cfg fuel tid ptr layout newSize
  | .allocZeroed layout => Heap.allocZeroed cfg fuel tid layout
  | .rsTrim trim => do
      let size ← Heap.rsTrim cfg fuel trim
      return .returns size
  | .load addr => Prog.read fun h => .returns (h.mem addr).toNat
  | .store addr value =>
      Prog.atomic fun _ h =>
        (.returns 0, h.onMem fun m => Mem.store 1 m addr value)
  | .init size => do
      buddyInit cfg size
      return .returns 0
  | .exit => do
      onSlab (Slab.cleanupThreadBulk cfg tid)
      return .returns 0
  | .tick stamp =>
      Prog.atomic fun _ h =>
        (.returns 0, h.onSlab fun s => { s with stamp := stamp })
  | .relief disable =>
      Prog.atomic fun _ h => (.returns 0, { h with disableBuddy := disable })

end RsMalloc.Heap
