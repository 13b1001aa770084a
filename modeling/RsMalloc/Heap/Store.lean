/-
What an allocator is for.

# Grants

A program that was given memory holds a `Grant`: a pointer, the size it
asked for, the alignment, the bytes it may use, and what is in them. A
`Grant` that is too small for its size or not aligned cannot be built.

# The store

`store` is the contract between a program and its allocator, without a
word on headers, caches or mappings. To free or reallocate a pointer,
and to read or write a byte, one has to hold the grant that it belongs
to. An allocation gives a grant or null; a reallocation keeps what was in
the bytes, and leaves everything as it was if it fails; and whatever
happens, no byte belongs to two grants. Nothing ever aborts.

# Two reservations

The bytes of a `calloc` are zero, with one exception: behind a request
too large for the size classes the first four need not be. And a new
size so close to the end of the address space that rounding it up wraps
around is not to be asked for in a `realloc`.
-/
import Mathlib.Algebra.Order.Ring.Nat
import RsMalloc.Lib.Contract
import RsMalloc.Heap.Abi
import RsMalloc.Heap.Calls

namespace RsMalloc.Heap

open Conc

-- ================================================================ grants

/-- Memory that a program was given. -/
structure Grant where
  ptr : Nat
  size : Nat
  align : Nat
  /-- `malloc_usable_size`. -/
  usable : Nat
  bytes : Nat → UInt8
  room : size ≤ usable
  pos : 0 < usable
  aligned : align ∣ ptr
  low : pageSize ≤ ptr
  high : ptr + usable ≤ userLimit

namespace Grant

/-- The address belongs to the grant. -/
def Has (g : Grant) (x : Nat) : Prop := g.ptr ≤ x ∧ x < g.ptr + g.usable

instance (g : Grant) (x : Nat) : Decidable (g.Has x) :=
  inferInstanceAs (Decidable (_ ∧ _))

/-- Write one byte. -/
def write (g : Grant) (i : Nat) (b : UInt8) : Grant :=
  { g with bytes := Function.update g.bytes i b }

end Grant

/-- No byte belongs to two of them. -/
def Disjointly (L : Multiset Grant) : Prop :=
  ∀ x, L.countP (fun g => g.Has x) ≤ 1

-- ============================================================ allocations

/-- A grant of the given size and alignment. -/
def Fresh (size align : Nat) (g : Grant) : Prop :=
  g.size = size ∧ g.align = align

/-- The first `n` bytes are zero. -/
def Cleared (n : Nat) (g : Grant) : Prop := ∀ i < n, g.bytes i = 0

/-- The first `n` bytes are zero, as far as `calloc` makes sure. -/
def CallocCleared (n : Nat) (g : Grant) : Prop :=
  ∀ i < n, g.bytes i = 0 ∨ i < 4 ∧ 2097152 < n

/-- New memory, or null. -/
inductive Allocates (fresh : Grant → Prop) : Outcome → Multiset Grant → Prop
  | null : Allocates fresh (.returns 0) 0
  | granted {g : Grant} (is : fresh g) : Allocates fresh (.returns g.ptr) {g}

/-- A pointer that is not null comes with its grant. -/
theorem Allocates.grant {fresh : Grant → Prop} {ptr : Nat}
    {k : Multiset Grant} (h : Allocates fresh (.returns ptr) k)
    (hptr : ptr ≠ 0) : ∃ g, k = {g} ∧ g.ptr = ptr ∧ fresh g := by
  generalize ho : Outcome.returns ptr = o at h
  cases h with
  | null => exact absurd (Outcome.returns.inj ho) hptr
  | granted is => exact ⟨_, rfl, (Outcome.returns.inj ho).symm, is⟩

/-- The answers of `posix_memalign`. -/
inductive PosixAllocates (alignment size : Nat) :
    Outcome → Multiset Grant → Prop
  | inval (bad : ¬ ValidAlign alignment) :
      PosixAllocates alignment size (.fails .inval) 0
  | nomem (valid : ValidAlign alignment) :
      PosixAllocates alignment size (.fails .nomem) 0
  | granted {g : Grant} (valid : ValidAlign alignment)
      (is : Fresh size alignment g) :
      PosixAllocates alignment size (.returns g.ptr) {g}

/-- Reallocation to `n` bytes, those from `b` on to be zero. -/
inductive Reallocates (n b : Nat) :
    Multiset Grant → Outcome → Multiset Grant → Prop
  | fresh {o : Outcome} {k : Multiset Grant}
      (new : Allocates (Fresh n 16) o k) : Reallocates n b 0 o k
  | freed {g : Grant} (none : n = 0) : Reallocates n b {g} (.returns 0) 0
  | kept {g : Grant} (some : 0 < n) : Reallocates n b {g} (.returns 0) {g}
  | moved {g g' : Grant} (some : 0 < n) (is : Fresh n g.align g')
      (bytes : ∀ i < n, i < g.usable → i < b → g'.bytes i = g.bytes i)
      (rest : ∀ i < n, b ≤ i → g'.bytes i = 0) :
      Reallocates n b {g} (.returns g'.ptr) {g'}

-- ============================================================== the store

/-- The caller holds what the pointer points to, unless it is null. -/
def Owns (ptr : Nat) (k : Multiset Grant) : Prop :=
  ptr = 0 ∧ k = 0 ∨ ∃ g, k = {g} ∧ g.ptr = ptr

/-- The size `realloc` rounds up to is representable, or is known not to
be. -/
def Roundable (cfg : Config) (n : Nat) : Prop :=
  n + headerSize < 2 ^ 64 → ¬ Wraps cfg (n + headerSize)

/-- What a caller has to hold. -/
def takes (cfg : Config) : Call → Multiset Grant → Prop
  | .realloc ptr n, k => Owns ptr k ∧ Roundable cfg n
  | .reallocarray ptr nmemb size, k =>
      Owns ptr k ∧ Roundable cfg (nmemb * size)
  | .recallocarray ptr _ newnmemb size, k =>
      Owns ptr k ∧ Roundable cfg (newnmemb * size)
  | .reallocLayout ptr _ n, k => Owns ptr k ∧ Roundable cfg n
  | .free ptr, k => Owns ptr k
  | .dealloc ptr _, k => Owns ptr k
  | .mallocUsableSize ptr, k => Owns ptr k
  | .load addr, k => ∃ g, k = {g} ∧ g.Has addr
  | .store addr _, k => ∃ g, k = {g} ∧ g.Has addr
  | _, k => k = 0

/-- What it may be told, and what it holds then. -/
def gives : Call → Multiset Grant → Outcome → Multiset Grant → Prop
  | .malloc size, _, o, k' => Allocates (Fresh size 16) o k'
  | .calloc nmemb size, _, o, k' =>
      Allocates (fun g => Fresh (nmemb * size) 16 g
        ∧ CallocCleared (nmemb * size) g) o k'
  | .realloc _ n, k, o, k' => Reallocates n n k o k'
  | .reallocarray _ nmemb size, k, o, k' =>
      if nmemb * size < 2 ^ 64 then
        Reallocates (nmemb * size) (nmemb * size) k o k'
      else o = .returns 0 ∧ k' = k
  | .recallocarray _ oldnmemb newnmemb size, k, o, k' =>
      k = 0 ∧ Allocates (fun g => Fresh (newnmemb * size) 16 g
        ∧ CallocCleared (newnmemb * size) g) o k'
      ∨ k ≠ 0 ∧ if newnmemb * size < 2 ^ 64 then
          Reallocates (newnmemb * size)
            (if oldnmemb * size < 2 ^ 64 then oldnmemb * size else 0) k o k'
        else o = .returns 0 ∧ k' = k
  | .posixMemalign alignment size, _, o, k' =>
      PosixAllocates alignment size o k'
  | .memalign alignment size, _, o, k' =>
      Allocates (fun g => ValidAlign (max alignment 8)
        ∧ Fresh size (max alignment 8) g) o k'
  | .alignedAlloc alignment size, _, o, k' =>
      Allocates (fun g => (∃ i, alignment = 2 ^ i) ∧ alignment ∣ size
        ∧ Fresh size (max alignment 8) g) o k'
  | .valloc size, _, o, k' => Allocates (Fresh size 4096) o k'
  | .pvalloc size, _, o, k' =>
      Allocates (fun g => ∃ n, size ≤ n ∧ 0 < n ∧ n < max size 1 + 4096
        ∧ 4096 ∣ n ∧ Fresh n 4096 g) o k'
  | .free _, _, o, k' => o = .returns 0 ∧ k' = 0
  | .dealloc _ _, _, o, k' => o = .returns 0 ∧ k' = 0
  | .mallocUsableSize _, k, o, k' =>
      k' = k ∧ (k = 0 ∧ o = .returns 0
        ∨ ∃ g, k = {g} ∧ o = .returns g.usable)
  | .mallocTrim _, _, o, k' => (o = .returns 0 ∨ o = .returns 1) ∧ k' = 0
  | .alloc layout, _, o, k' =>
      Allocates (Fresh layout.size
        (if layout.align ≤ 16 then 16 else layout.align)) o k'
  | .reallocLayout _ _ n, k, o, k' => Reallocates n n k o k'
  | .allocZeroed layout, _, o, k' =>
      Allocates (fun g =>
        if layout.align ≤ 16 then
          Fresh layout.size 16 g ∧ CallocCleared layout.size g
        else Fresh layout.size layout.align g ∧ Cleared layout.size g) o k'
  | .rsTrim _, _, o, k' => (∃ n, o = .returns n) ∧ k' = 0
  | .load addr, k, o, k' => k' = k
      ∧ ∃ g, k = {g} ∧ o = .returns (g.bytes (addr - g.ptr)).toNat
  | .store addr value, k, o, k' => o = .returns 0
      ∧ ∃ g, k = {g} ∧ k' = {g.write (addr - g.ptr) (UInt8.ofNat value)}
  | _, _, o, k' => o = .returns 0 ∧ k' = 0

/-- The contract between a program and its allocator. -/
def store (cfg : Config) : Contract Call Outcome Grant where
  takes := takes cfg
  gives := gives
  fits := Disjointly

end RsMalloc.Heap
