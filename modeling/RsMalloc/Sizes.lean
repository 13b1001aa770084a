/-
Size classes and the constants derived from them (utility.rs).

The source computes its tables in `const` blocks; here a table of the
classes is the function of the class index that fills it, and the two
tables that `match_size_class` reads unchecked are lists with their own
length. `usize` arithmetic wraps
modulo `2^64` in the release profile, which matters for `align_to` on
sizes near the top of the range.
-/
import Mathlib.Algebra.Order.Ring.Nat
import Mathlib.Data.List.Basic
import Mathlib.Data.Nat.Log

namespace RsMalloc

/-- `size_of::<Header>()`. -/
abbrev headerSize : Nat := 16

/-- `size_of::<MetaData>()`. -/
abbrev metaDataSize : Nat := 48

/-- `SIZE_CLASSES`. -/
def sizeClasses : List Nat :=
  [16, 32, 48, 64, 80, 96, 128,
   160, 192, 256, 320, 384, 512,
   768, 1024, 1280, 1536, 1792, 2048, 2560, 3072,
   3840, 4096, 8192, 12288, 16384, 24576,
   32768, 65536, 131072, 262144, 524288, 1048576, 2097152]

/-- `NUM_SIZE_CLASSES`. -/
abbrev numSizeClasses : Nat := 34

/-- `SIZE_CLASSES[class]`, the payload of a class. -/
def sizeClass (class_ : Nat) : Nat := sizeClasses.getD class_ 0

/-- `usize::checked_add`. -/
def checkedAdd (a b : Nat) : Option Nat :=
  if a + b < 2 ^ 64 then some (a + b) else none

/-- `usize::checked_mul`. -/
def checkedMul (a b : Nat) : Option Nat :=
  if a * b < 2 ^ 64 then some (a * b) else none

/-- `align_to`: `(size + (align - 1)) & !(align - 1)` for a power of
two, with the addition wrapping. -/
def alignTo (size align : Nat) : Nat :=
  (size + (align - 1)) % 2 ^ 64 / align * align

/-- `align_to(payload + Header::SIZE, 16)`, the block of a class. -/
def blockSize (class_ : Nat) : Nat :=
  alignTo (sizeClass class_ + headerSize) 16

-- =============================================================== refills

/-- `refill_target_bytes`. -/
def refillTargetBytes (payload : Nat) : Nat :=
  if payload ≤ 128 then 32 * 1024
  else if payload ≤ 512 then 16 * 1024
  else if payload ≤ 1536 then 16 * 1024
  else 16 * 1024

/-- `ITERATIONS[class]`: the blocks one refill asks for. -/
def iterations (class_ : Nat) : Nat :=
  max (refillTargetBytes (sizeClass class_) / blockSize class_) 1

/-- `num_blocks` of `alloc_metadata`, after the rest of the last page
is used up. -/
def spanBlocks (class_ : Nat) : Nat :=
  let total := metaDataSize + blockSize class_ * iterations class_
  let availableBytes := (total + 4095) / 4096 * 4096 - metaDataSize
  max (availableBytes / blockSize class_) (iterations class_)

/-- `total` of `alloc_metadata`, and `refill_total_bytes_for_payload`. -/
def spanTotal (class_ : Nat) : Nat :=
  metaDataSize + blockSize class_ * spanBlocks class_

/-- `MIN_REFILL_BYTES`. -/
def minRefillBytes : Nat :=
  alignTo ((List.range numSizeClasses).foldl
    (fun least class_ => min least (spanTotal class_)) (2 ^ 64 - 1)) 4096

/-- `CACHE_HIGH_BLOCKS[class]`. -/
def cacheHighBlocks (class_ : Nat) : Nat :=
  let block := blockSize class_
  let blocks :=
    if block > 1024 * 128 then 1
    else if sizeClass class_ < 256 then 1024 * 128 / block
    else if sizeClass class_ < 1024 * 16 then 1024 * 96 / block
    else 1024 * 96 / block
  max blocks 1

-- ============================================================== matching

/-- `SIZE_LUT`: its entry `index` is the first class that holds
`(index + 1) * 16` bytes. -/
def sizeLut : List Nat :=
  (List.range 256).map fun index =>
    sizeClasses.findIdx fun size => (index + 1) * 16 ≤ size

/-- `LARGE_SIZE_LUT`. -/
def largeSizeLut : List Nat := [0, 23, 24, 25, 26, 26, 27, 27]

/-- `match_size_class` with each `get_unchecked` as an access that may
fail: the outer `none` is a read outside a table. -/
def matchSizeClassChecked (size : Nat) : Option (Option Nat) :=
  if size = 0 then some (some 0)
  else if size ≤ 4096 then sizeLut[(size - 1) / 16]?.map some
  else if size > 2097152 then some none
  else if size ≤ 32768 then largeSizeLut[(size - 1) / 4096]?.map some
  else some (some (Nat.log2 (size - 1) + 1 + 12))

/-- `match_size_class` as its callers see it. -/
def matchSizeClass (size : Nat) : Option Nat :=
  (matchSizeClassChecked size).join

/-- What `get_size_4096_class` returns (Sync/Once.lean). -/
abbrev size4096Class : Nat := 22

-- ================================================================= facts

/-- A class has a payload and room for its header. -/
theorem blockSize_eq {c : Nat} (hc : c < numSizeClasses) :
    blockSize c = sizeClass c + headerSize ∧ 16 ≤ sizeClass c
      ∧ sizeClass c ≤ 2097152 ∧ 16 ∣ sizeClass c := by
  revert c
  decide

/-- The blocks of a span fill it up to less than a page. -/
theorem spanTotal_bounds {c : Nat} (hc : c < numSizeClasses) :
    1 ≤ spanBlocks c ∧ spanTotal c ≤ 2 ^ 22 := by
  revert c
  decide

/-- A refill asks for some blocks, and not for many. -/
theorem iterations_bounds {c : Nat} (hc : c < numSizeClasses) :
    1 ≤ iterations c ∧ iterations c ≤ 2 ^ 15 := by
  revert c
  decide

/-- A class with one block per refill has one block per span. -/
theorem spanBlocks_of_iterations {c : Nat} (hc : c < numSizeClasses)
    (h : iterations c = 1) : spanBlocks c = 1 := by
  revert c
  decide

/-- The linear scan that the tables stand for. -/
def referenceMatch (size : Nat) : Option Nat :=
  sizeClasses.findIdx? fun class_ => size ≤ class_

/-- The scan cannot tell sizes apart that have no class between them. -/
theorem referenceMatch_between {lo hi size : Nat} (hlo : lo < size)
    (hhi : size ≤ hi) (hgap : ∀ c ∈ sizeClasses, lo < c → hi ≤ c) :
    referenceMatch size = referenceMatch hi := by
  have hsame : ∀ l : List Nat, (∀ c ∈ l, lo < c → hi ≤ c) →
      l.findIdx? (fun c => decide (size ≤ c))
        = l.findIdx? (fun c => decide (hi ≤ c)) := by
    intro l hl
    induction l with
    | nil => rfl
    | cons c l ih =>
        have hc : decide (size ≤ c) = decide (hi ≤ c) := by
          refine decide_eq_decide.2 ⟨fun h => ?_, fun h => hhi.trans h⟩
          exact hl c (List.mem_cons_self ..) (by omega)
        rw [List.findIdx?_cons, List.findIdx?_cons, hc,
          ih fun c' hc' => hl c' (List.mem_cons_of_mem _ hc')]
  exact hsame sizeClasses hgap

/-- Where the scan finds nothing. -/
theorem referenceMatch_none {size : Nat} :
    referenceMatch size = none ↔ 2097152 < size := by
  rw [referenceMatch, List.findIdx?_eq_none_iff]
  simp only [decide_eq_false_iff_not, Nat.not_le]
  constructor
  · intro h
    exact h 2097152 (by decide)
  · intro h c hc
    have htop : ∀ c ∈ sizeClasses, c ≤ 2097152 := by decide
    exact (htop c hc).trans_lt h

/-- Three ways to the same class: a table in steps of 16 bytes, a table
in steps of 4096 bytes, and the next power of two. Neither table is
read outside its bounds. -/
theorem matchSizeClassChecked_eq (size : Nat) :
    matchSizeClassChecked size = some (referenceMatch size) := by
  -- what each way finds at the end of a step, in one finite check
  have hsmall : ∀ i < 256, (∀ c ∈ sizeClasses, i * 16 < c →
      (i + 1) * 16 ≤ c)
        ∧ sizeLut[i]?.map some = some (referenceMatch ((i + 1) * 16)) := by
    decide +kernel
  have hlarge : ∀ i < 8, 1 ≤ i → (∀ c ∈ sizeClasses, i * 4096 < c →
      (i + 1) * 4096 ≤ c) ∧ largeSizeLut[i]?.map some
        = some (referenceMatch ((i + 1) * 4096)) := by decide +kernel
  have hpow : ∀ k < 21, 15 ≤ k → (∀ c ∈ sizeClasses, 2 ^ k < c →
      2 ^ (k + 1) ≤ c) ∧ referenceMatch (2 ^ (k + 1)) = some (k + 1 + 12) := by
    decide +kernel
  unfold matchSizeClassChecked
  split
  · next hz =>
    subst hz
    rfl
  · split
    · obtain ⟨hgap, hfound⟩ := hsmall ((size - 1) / 16) (by omega)
      rw [referenceMatch_between (by omega) (by omega) hgap, hfound]
    · split
      · next hbig => rw [referenceMatch_none.2 hbig]
      · split
        · obtain ⟨hgap, hfound⟩ := hlarge ((size - 1) / 4096) (by omega)
            (by omega)
          rw [referenceMatch_between (by omega) (by omega) hgap, hfound]
        · have hne : size - 1 ≠ 0 := by omega
          have hlo : 15 ≤ Nat.log2 (size - 1) :=
            (Nat.le_log2 hne).2 (by omega)
          have hhi : Nat.log2 (size - 1) < 21 :=
            (Nat.log2_lt hne).2 (by omega)
          have hge : 2 ^ Nat.log2 (size - 1) ≤ size - 1 :=
            Nat.log2_self_le hne
          have hlt : size - 1 < 2 ^ (Nat.log2 (size - 1) + 1) :=
            Nat.lt_log2_self
          obtain ⟨hgap, hfound⟩ := hpow _ hhi hlo
          rw [referenceMatch_between (by omega) (by omega) hgap, hfound]

theorem matchSizeClass_eq (size : Nat) :
    matchSizeClass size = referenceMatch size := by
  rw [matchSizeClass, matchSizeClassChecked_eq]
  rfl

/-- A request is given a class that holds it. -/
theorem matchSizeClass_spec {size c : Nat}
    (h : matchSizeClass size = some c) :
    c < numSizeClasses ∧ size ≤ sizeClass c := by
  rw [matchSizeClass_eq, referenceMatch,
    List.findIdx?_eq_some_iff_findIdx_eq] at h
  obtain ⟨hlt, rfl⟩ := h
  have hfits := List.findIdx_getElem (w := hlt)
  rw [decide_eq_true_eq] at hfits
  refine ⟨hlt, ?_⟩
  rwa [sizeClass, List.getD_eq_getElem?_getD, List.getElem?_eq_getElem hlt]

/-- A larger size is not found earlier. -/
theorem referenceMatch_mono {size size' c c' : Nat} (hle : size ≤ size')
    (h : referenceMatch size = some c) (h' : referenceMatch size' = some c') :
    c ≤ c' := by
  rw [referenceMatch, List.findIdx?_eq_some_iff_findIdx_eq] at h h'
  obtain ⟨-, rfl⟩ := h
  obtain ⟨hlt', rfl⟩ := h'
  have hfits := (List.findIdx_eq hlt').1 rfl |>.1
  by_contra hno
  have hmiss := List.not_of_lt_findIdx (Nat.lt_of_not_le hno)
  simp only [decide_eq_true_eq, decide_eq_false_iff_not] at hfits hmiss
  omega

/-- `match_size_class` reads its tables within their bounds and finds
the first class that holds the size, and none above the largest one. A
larger size never gets a smaller class. -/
theorem match_size_class_is_scan (size : Nat) :
    matchSizeClassChecked size
        = some (sizeClasses.findIdx? fun class_ => decide (size ≤ class_))
      ∧ matchSizeClassChecked size = some (matchSizeClass size)
      ∧ (matchSizeClass size = none ↔ 2097152 < size)
      ∧ ∀ size' c c', size ≤ size' → matchSizeClass size = some c →
        matchSizeClass size' = some c' → c ≤ c' := by
  refine ⟨matchSizeClassChecked_eq size, ?_, ?_, fun size' c c' hle h h' => ?_⟩
  · rw [matchSizeClass_eq]
    exact matchSizeClassChecked_eq size
  · rw [matchSizeClass_eq]
    exact referenceMatch_none
  · rw [matchSizeClass_eq] at h h'
    exact referenceMatch_mono hle h h'

theorem minRefillBytes_eq : minRefillBytes = 12288 := by decide

end RsMalloc
