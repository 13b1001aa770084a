/-
The heap keeps the contract of an allocator.

# Backing

`Backs cfg g x`: the grant `g` that a program holds is backed by the
allocation `x`, a part of the heap with its entry in the map of big
allocations. Grants that are backed by the parts of one heap never share
a byte (`disjointly_of_backed`).

# Calls

For each function of the interface there is one triple: run by a caller
whose grants are backed, it answers as the store would, and what the
store gives for the answer is backed again.

# Histories

Therefore every history of calls, in which nobody frees, reads or writes
what is not theirs, is a history of the store. Two things are assumed of
it. No header has the address `ALIGN_TAG`, which `find_original_ptr`
would take for a tag (`TagFree`); the compiled-in tag is no address of a
header, a drawn one may be. And memory for metadata, the chunks of
`BIG_META_MAP` and the nodes of the ownership map, is mapped when it is
asked for: the source aborts when it is refused, and the maps of the
model grow by themselves.
-/
import Mathlib.Algebra.Order.Ring.Nat
import RsMalloc.Heap.Store
import RsMalloc.Heap.Realloc
import RsMalloc.Heap.Trims

namespace RsMalloc.Heap

open Conc

open RbTree (BigAllocMeta)

open Slab (payload)

variable {cfg : Config} {E : Env → Prop} {P : State → Prop} {s : State}
  {g : Grant} {x : Part × Option BigAllocMeta} {f : Res}

-- =============================================================== backing

/-- The grant is backed by the allocation. -/
structure Backs (cfg : Config) (g : Grant)
    (x : Part × Option BigAllocMeta) : Prop where
  live : ∃ raw align, Holding cfg ⟨g.ptr, raw, g.size, align⟩ x
    ∧ g.align = align.getD 16 ∧ g.ptr + g.usable = raw + capacity x
  bytes : ∀ i < g.usable, g.bytes i = x.1.data (g.ptr + i)

namespace Backs

/-- The bytes of a grant are bytes of the part. -/
theorem has (h : Backs cfg g x) {y : Nat} (hy : g.Has y) : x.1.Has y := by
  obtain ⟨raw, align, hold, -, hend⟩ := h.live
  have hr := hold.allocated.range
  have hraw := hold.raw
  have hlow : payload x.1 ≤ g.ptr := by
    rcases hold.aim with ⟨-, heq, -⟩ | ⟨a, -, ht⟩
    · exact (heq.trans hold.raw).ge
    · have hbehind := ht.behind
      simp only at hraw hbehind
      omega
  unfold Piece.HasRange at hr
  unfold Grant.Has at hy
  simp only [payload] at hraw hlow
  exact ⟨by omega, by omega⟩

/-- A grant shows what is in memory. -/
theorem mem (h : Backs cfg g x) (hI : HInv cfg s ({x} + f)) {y : Nat}
    (hy : g.Has y) : s.mem y = g.bytes (y - g.ptr) := by
  have hin := h.has hy
  unfold Grant.Has at hy
  obtain ⟨H, hsp⟩ := hI.front
  have hmem : s.mem y = x.1.data y := hsp.holds.agree x.1 (by simp) y hin
  rw [hmem, h.bytes _ (by omega), Nat.add_sub_cancel' hy.1]

/-- The holder writes into its grant. -/
theorem write (h : Backs cfg g x) (hI : HInv cfg s ({x} + f))
    {a n : Nat} {m : Mem} {bytes : Nat → UInt8}
    (hm : Mem.Only a n s.mem m) (ha : g.ptr ≤ a)
    (hn : a + n ≤ g.ptr + g.usable)
    (hb : ∀ i < g.usable, bytes i = m (g.ptr + i)) :
    HInv cfg (s.onMem fun _ => m) ({withData m x} + f)
      ∧ Backs cfg { g with bytes := bytes } (withData m x) := by
  obtain ⟨raw, align, hold, hal, hend⟩ := h.live
  obtain ⟨hI', hold', hcap⟩ := hold.write hI hm ha (hend ▸ hn)
  exact ⟨hI', ⟨raw, align, hold', hal, by rw [hcap]; exact hend⟩, hb⟩

end Backs

/-- A pointer that a caller holds is a grant. -/
theorem Holding.granted {l : Live} (h : Holding cfg l x)
    (hI : HInv cfg s ({x} + f)) :
    ∃ g : Grant, g.ptr = l.ptr ∧ Fresh l.size (l.align.getD 16) g
      ∧ (∀ i, g.bytes i = x.1.data (l.ptr + i)) ∧ Backs cfg g x := by
  obtain ⟨hlow, -, hle⟩ := h.bounds hI
  have hb := h.allocated.bounds hI
  have hraw := h.raw
  have hroom := h.room
  have hpos := h.pos
  have halign : l.align.getD 16 ∣ l.ptr := by
    rcases h.aim with ⟨hal, heq, -⟩ | ⟨a, hal, ht⟩
    · rw [hal, heq, h.raw]
      exact Dvd.dvd.add h.allocated.align (dvd_refl 16)
    · rw [hal]
      exact ht.align
  simp only [payload] at hraw
  refine ⟨⟨l.ptr, l.size, l.align.getD 16, l.raw + capacity x - l.ptr,
    fun i => x.1.data (l.ptr + i), by omega, by omega, halign, hlow, ?_⟩,
    rfl, ⟨rfl, rfl⟩, fun _ => rfl, ⟨l.raw, l.align, h, rfl, ?_⟩,
    fun _ _ => rfl⟩
  · simp only [userLimit]
    omega
  · simp only
    omega

/-- Grants that one heap backs share no byte. -/
theorem disjointly_of_backed {L : Multiset Grant}
    (h : Contract.Backed (HInv cfg) (Backs cfg) s L) : Disjointly L := by
  intro y
  obtain ⟨X, hI, hrel⟩ := h
  obtain ⟨H, hsp⟩ := hI.space
  have hone : cover (parts X) y ≤ 1 := by
    have hle := hsp.holds.once y
    rw [cover_add] at hle
    omega
  refine le_trans ?_ hone
  clear hI hsp hone
  induction hrel with
  | zero => exact le_rfl
  | @cons g x L X hb _ ih =>
      obtain ⟨p, e⟩ := x
      rw [Multiset.countP_cons, ← Multiset.singleton_add, parts_add,
        parts_singleton, cover_add, cover_singleton]
      have hif : (if g.Has y then 1 else 0) ≤ if p.Has y then 1 else 0 := by
        split
        · next hy => rw [if_pos (hb.has hy)]
        · exact Nat.zero_le _
      omega

-- ============================================================ allocating

/-- What an allocation leaves its caller. -/
def Granted (cfg : Config) (fresh : Grant → Prop) (o : Outcome)
    (r : Res) : Prop :=
  ∃ k, Allocates fresh o k ∧ Multiset.Rel (Backs cfg) k r

section Allocating

variable {fresh : Grant → Prop}

theorem Granted.null : Granted cfg fresh (.returns 0) 0 :=
  ⟨0, .null, .zero⟩

theorem Granted.mono {fresh' : Grant → Prop} {o : Outcome} {r : Res}
    (h : Granted cfg fresh o r) (hf : ∀ g, fresh g → fresh' g) :
    Granted cfg fresh' o r := by
  obtain ⟨k, hk, hrel⟩ := h
  refine ⟨k, ?_, hrel⟩
  cases hk with
  | null => exact .null
  | granted is => exact .granted (hf _ is)

theorem Granted.of_holding {l : Live} (h : Holding cfg l x)
    (hI : HInv cfg s ({x} + f))
    (hf : ∀ g, Fresh l.size (l.align.getD 16) g →
      (∀ i, g.bytes i = x.1.data (l.ptr + i)) → fresh g) :
    Granted cfg fresh (.returns l.ptr) {x} := by
  obtain ⟨g, hptr, hfresh, hbytes, hb⟩ := h.granted hI
  rw [← hptr]
  exact ⟨{g}, .granted (hf g hfresh hbytes), .cons hb .zero⟩

theorem malloc_runs (fuel tid size : Nat) :
    Runs E P (HInv cfg) (malloc cfg fuel tid size)
      (fun o _ r => Granted cfg (Fresh size 16) o r) s 0 := by
  refine (rsAlloc_runs fuel tid size false).andThen fun a s' r hr =>
    Runs.inv fun f _ hI => Runs.ret ?_
  by_cases ha : a = 0
  · subst ha
    cases hr
    exact .null
  · obtain ⟨x, rfl, hx⟩ := hr.holding ha
    exact .of_holding hx hI fun _ hfresh _ => hfresh

theorem calloc_runs (fuel tid nmemb size : Nat) :
    Runs E P (HInv cfg) (calloc cfg fuel tid nmemb size)
      (fun o _ r => Granted cfg (fun g => Fresh (nmemb * size) 16 g
        ∧ CallocCleared (nmemb * size) g) o r) s 0 := by
  refine (rsCalloc_runs fuel tid size nmemb).andThen fun a s' r hr =>
    Runs.inv fun f _ hI => Runs.ret ?_
  rw [Nat.mul_comm size nmemb] at hr
  rcases hr with ⟨rfl, rfl⟩ | ⟨a, x, rfl, -, rfl, hx, hzero, hlarge⟩
  · exact .null
  · refine .of_holding hx hI fun g hfresh hbytes =>
      ⟨hfresh, fun i hi => ?_⟩
    rw [hbytes]
    by_cases hfour : 4 ≤ i
    · exact Or.inl (hzero.rest i hi hfour)
    · rcases hzero.stamp with hfirst | ⟨r, hk, -, -⟩
      · exact Or.inl (hfirst i hi (Nat.lt_of_not_le hfour))
      · refine Or.inr ⟨Nat.lt_of_not_le hfour, hlarge ?_⟩
        -- only big allocations lie in the blocks of a region
        obtain ⟨p, e⟩ := x
        cases e with
        | some m => rfl
        | none =>
            obtain ⟨c, hm⟩ := hx.allocated
            have hb := hm.isBlock
            simp only at hk
            rw [hk] at hb
            cases hb

/-- The answers of `posix_memalign`. -/
theorem posixMemalign_runs (hs : Secrets cfg)
    (fuel tid alignment size : Nat) :
    Runs E P (HInv cfg) (posixMemalign cfg fuel tid alignment size)
      (fun o _ r => ∃ k, PosixAllocates alignment size o k
        ∧ Multiset.Rel (Backs cfg) k r) s 0 := by
  refine (posixAlignInner_runs hs fuel tid alignment size).andThen
    fun a s' r hr => Runs.inv fun f _ hI => ?_
  cases a with
  | error e =>
      obtain ⟨rfl, hinval⟩ := hr
      refine Runs.ret ⟨0, ?_, .zero⟩
      cases e with
      | inval => exact .inval (hinval.1 rfl)
      | nomem => exact .nomem (not_not.1 fun h => Errno.noConfusion (hinval.2 h))
  | ok b =>
      obtain ⟨-, x, rfl, hx⟩ := hr
      obtain ⟨g, hptr, hfresh, -, hb⟩ := hx.granted hI
      refine Runs.ret ⟨{g}, ?_, .cons hb .zero⟩
      rw [← show g.ptr = b.1 from hptr]
      exact .granted (hx.validAlign rfl) hfresh

/-- `memalign` allocates with the larger of the alignment and 8, if that
is a power of two. -/
theorem memalign_runs (hs : Secrets cfg) (fuel tid alignment size : Nat) :
    Runs E P (HInv cfg) (memalign cfg fuel tid alignment size)
      (fun o _ r => Granted cfg (fun g => ValidAlign (max alignment 8)
        ∧ Fresh size (max alignment 8) g) o r) s 0 := by
  refine (memalignInner_runs hs fuel tid alignment size).andThen
    fun a s' r hr => Runs.inv fun f _ hI => Runs.ret ?_
  rcases hr with ⟨rfl, rfl⟩ | ⟨-, x, rfl, hx⟩
  · exact .null
  · exact .of_holding hx hI fun g hfresh _ => ⟨hx.validAlign rfl, hfresh⟩

theorem alignedAlloc_runs (hs : Secrets cfg)
    (fuel tid alignment size : Nat) :
    Runs E P (HInv cfg) (alignedAlloc cfg fuel tid alignment size)
      (fun o _ r => Granted cfg (fun g => (∃ i, alignment = 2 ^ i)
        ∧ alignment ∣ size ∧ Fresh size (max alignment 8) g) o r) s 0 := by
  unfold alignedAlloc
  split
  · exact Runs.ret .null
  · next hno =>
    rw [not_or, not_or, Bool.not_eq_false, not_not] at hno
    obtain ⟨-, hpow, hdvd⟩ := hno
    exact (memalign_runs hs fuel tid alignment size).mono fun o s' r hr =>
      hr.mono fun g hg => ⟨eq_nextPowerOfTwo_iff.1 (of_decide_eq_true hpow),
        Nat.dvd_of_mod_eq_zero hdvd, hg.2⟩

theorem valloc_runs (hs : Secrets cfg) (fuel tid size : Nat) :
    Runs E P (HInv cfg) (valloc cfg fuel tid size)
      (fun o _ r => Granted cfg (Fresh size 4096) o r) s 0 :=
  (memalign_runs hs fuel tid 4096 size).mono fun _ _ _ hr =>
    hr.mono fun _ hg => hg.2

/-- `pvalloc` rounds up to whole pages, of which there is at least
one. -/
theorem pvallocSize_spec {size n : Nat} (h : pvallocSize size = some n) :
    size ≤ n ∧ 0 < n ∧ n < max size 1 + 4096 ∧ 4096 ∣ n := by
  unfold pvallocSize at h
  split at h
  · cases h
    omega
  · obtain ⟨v, hv, rfl⟩ := Option.map_eq_some_iff.1 h
    unfold checkedAdd at hv
    split at hv <;> cases hv
    omega

theorem pvalloc_runs (hs : Secrets cfg) (fuel tid size : Nat) :
    Runs E P (HInv cfg) (pvalloc cfg fuel tid size)
      (fun o _ r => Granted cfg (fun g => ∃ n, size ≤ n ∧ 0 < n
        ∧ n < max size 1 + 4096 ∧ 4096 ∣ n ∧ Fresh n 4096 g) o r) s 0 := by
  unfold pvalloc
  split
  · exact Runs.ret .null
  · next n hn =>
    obtain ⟨h₁, h₂, h₃, h₄⟩ := pvallocSize_spec hn
    exact (memalign_runs hs fuel tid 4096 n).mono fun _ _ _ hr =>
      hr.mono fun _ hg => ⟨n, h₁, h₂, h₃, h₄, hg.2⟩

/-- `GlobalAlloc::alloc`. -/
theorem alloc_runs (hs : Secrets cfg) (fuel tid : Nat) (layout : Layout) :
    Runs E P (HInv cfg) (alloc cfg fuel tid layout)
      (fun o _ r => Granted cfg (Fresh layout.size
        (if layout.align ≤ 16 then 16 else layout.align)) o r) s 0 := by
  unfold alloc
  split
  · exact malloc_runs fuel tid layout.size
  · next hlarge =>
    have hmax : max layout.align 8 = layout.align :=
      Nat.max_eq_left (by omega)
    refine (memalign_runs hs fuel tid layout.align layout.size).mono
      fun o s' r hr => hr.mono fun g hg => ?_
    rw [hmax] at hg
    exact hg.2

end Allocating

-- ============================================================== clearing

theorem rel_singleton_left {g : Grant} {r : Res} :
    Multiset.Rel (Backs cfg) {g} r ↔ ∃ x, Backs cfg g x ∧ r = {x} := by
  rw [← Multiset.cons_zero, Multiset.rel_cons_left]
  constructor
  · rintro ⟨x, r', hb, hr, rfl⟩
    rw [Multiset.rel_zero_left] at hr
    rw [hr]
    exact ⟨x, hb, rfl⟩
  · rintro ⟨x, hb, rfl⟩
    exact ⟨x, 0, hb, .zero, rfl⟩

/-- Some bytes of the grant are zero now. -/
def Grant.clear (g : Grant) (i n : Nat) : Grant :=
  { g with bytes := fun j => if i ≤ j ∧ j < i + n then 0 else g.bytes j }

theorem zero_runs (hb : Backs cfg g x) {i n : Nat} (hn : i + n ≤ g.usable) :
    Runs E P (HInv cfg) (zero (g.ptr + i) n)
      (fun _ _ r => Multiset.Rel (Backs cfg) {g.clear i n} r) s {x} := by
  refine Runs.modify fun f _ hI => ?_
  have hbytes : ∀ j < g.usable, (g.clear i n).bytes j
      = Mem.zero s.mem (g.ptr + i) n (g.ptr + j) := by
    intro j hj
    unfold Grant.clear
    dsimp only
    split
    · exact (Mem.zero_apply (by omega) (by omega)).symm
    · rw [Mem.zero_apply_of_not (by omega), hb.mem hI ⟨by omega, by omega⟩,
        Nat.add_sub_cancel_left]
  obtain ⟨hI', hb'⟩ := hb.write hI
    (fun y hy => Mem.zero_apply_of_not hy) (Nat.le_add_right ..) (by omega)
    hbytes
  exact ⟨_, hI', .cons hb' .zero⟩

/-- `GlobalAlloc::alloc_zeroed`. -/
theorem allocZeroed_runs (hs : Secrets cfg) (fuel tid : Nat)
    (layout : Layout) :
    Runs E P (HInv cfg) (allocZeroed cfg fuel tid layout)
      (fun o _ r => Granted cfg (fun g => if layout.align ≤ 16 then
          Fresh layout.size 16 g ∧ CallocCleared layout.size g
        else Fresh layout.size layout.align g ∧ Cleared layout.size g) o r)
      s 0 := by
  unfold allocZeroed
  by_cases hsmall : layout.align ≤ 16
  · simp only [if_pos hsmall]
    refine (calloc_runs fuel tid layout.size 1).mono fun o s' r hr => ?_
    rw [Nat.mul_one] at hr
    exact hr
  · simp only [if_neg hsmall]
    refine (alloc_runs hs fuel tid layout).andThen fun o s' r hr => ?_
    rw [if_neg hsmall] at hr
    obtain ⟨k, hk, hrel⟩ := hr
    cases hk with
    | null =>
        rw [Multiset.rel_zero_left] at hrel
        rw [hrel]
        exact Runs.ret .null
    | @granted g hfresh =>
        obtain ⟨x, hb, rfl⟩ := rel_singleton_left.1 hrel
        have hroom := g.room
        have hlow := g.low
        simp only [pageSize] at hlow
        simp only
        rw [hfresh.1] at hroom
        rw [if_neg (by omega), ← Nat.add_zero g.ptr]
        refine (zero_runs hb (by omega)).andThen fun _ s'' r hrel => ?_
        refine Runs.ret ⟨_, .granted (g := g.clear 0 layout.size)
          ⟨hfresh, fun i hi => ?_⟩, hrel⟩
        exact if_pos ⟨Nat.zero_le i, by omega⟩

-- ====================================================== held pointers

section Held

variable {k : Multiset Grant} {r : Res} {ptr n : Nat}

/-- Null owns nothing, and any other pointer one allocation. -/
theorem Owns.cases (hown : Owns ptr k) (hrel : Multiset.Rel (Backs cfg) k r) :
    ptr = 0 ∧ k = 0 ∧ r = 0
      ∨ ∃ g x, k = {g} ∧ r = {x} ∧ g.ptr = ptr ∧ Backs cfg g x := by
  rcases hown with ⟨rfl, rfl⟩ | ⟨g, rfl, rfl⟩
  · exact Or.inl ⟨rfl, rfl, Multiset.rel_zero_left.1 hrel⟩
  · obtain ⟨x, hb, rfl⟩ := rel_singleton_left.1 hrel
    exact Or.inr ⟨g, x, rfl, rfl, rfl, hb⟩

/-- `free` takes back everything that was held. -/
theorem free_runs (hs : Secrets cfg) (hP : TagFree cfg P)
    (hown : Owns ptr k) (hrel : Multiset.Rel (Backs cfg) k r) :
    Runs E P (HInv cfg) (free cfg ptr)
      (fun o _ r' => o = .returns 0 ∧ r' = 0) s r := by
  rcases hown.cases hrel with ⟨rfl, rfl, rfl⟩ | ⟨g, x, rfl, rfl, rfl, hb⟩
  · exact Runs.ret ⟨rfl, rfl⟩
  · obtain ⟨raw, align, hold, -⟩ := hb.live
    refine (rsFree_runs hs hP hold).andThen fun a s' r hr => ?_
    obtain ⟨rfl, rfl⟩ := hr
    exact Runs.ret ⟨rfl, rfl⟩

/-- Null is not in the ownership map. -/
theorem isOwned_null {X : Res} (hI : HInv cfg s X) :
    isOwned s 0 = .ok false := by
  obtain ⟨H, hsp⟩ := hI.space
  obtain ⟨t, ht⟩ := hsp.tree
  have hnot : ¬ Claimed (parts X + H) 0 := by
    rintro ⟨p, hp, y, hy, -, hchunk⟩
    have hlow := (hsp.bounds hp hy).1
    simp only [pageSize] at hlow
    omega
  have howned := hsp.owned 0 (by omega)
  rw [ht, RadixMap.isOwned_eq (by omega), Option.some.injEq] at howned
  have hfalse := Bool.not_eq_true _ ▸ mt howned.1 hnot
  rw [isOwned, ht, RadixMap.isOwned_eq (by omega), hfalse]

/-- `malloc_usable_size`. -/
theorem mallocUsableSize_runs (hs : Secrets cfg) (hP : TagFree cfg P)
    (hown : Owns ptr k) (hrel : Multiset.Rel (Backs cfg) k r) :
    Runs E P (HInv cfg) (mallocUsableSize cfg ptr)
      (fun o _ r' => (k = 0 ∧ o = .returns 0
        ∨ ∃ g, k = {g} ∧ o = .returns g.usable) ∧ r' = r) s r := by
  refine Runs.inv fun f hPs hI => ?_
  rcases hown.cases hrel with ⟨rfl, rfl, rfl⟩ | ⟨g, x, rfl, rfl, rfl, hb⟩
  · refine Runs.readThen (Runs.ret ⟨Or.inl ⟨rfl, ?_⟩, rfl⟩)
    rw [usableSize, isOwned_null hI]
    rfl
  · obtain ⟨raw, align, hold, -, hend⟩ := hb.live
    refine Runs.readThen (Runs.ret ⟨Or.inr ⟨g, rfl, ?_⟩, rfl⟩)
    rw [hold.usable hI hs (hP s _ hPs hI), ← hend, Nat.add_sub_cancel_left]
    rfl

-- ========================================================== reallocating

/-- What a reallocation leaves its caller. -/
def Regranted (cfg : Config) (n b : Nat) (k : Multiset Grant) (o : Outcome)
    (r : Res) : Prop :=
  ∃ k', Reallocates n b k o k' ∧ Multiset.Rel (Backs cfg) k' r

/-- Null is reallocated by an allocation. -/
theorem reallocNull_runs (fuel tid : Nat) :
    Runs E P (HInv cfg) (realloc cfg fuel tid 0 n)
      (fun o _ r => Regranted cfg n n 0 o r) s 0 := by
  unfold realloc rsRealloc
  rw [if_pos rfl]
  refine Runs.andThen (S := fun o _ r => ∃ a, o = .ok (a, a)
    ∧ Granted cfg (Fresh n 16) (.returns a) r) ?_ fun o s' r hr => ?_
  · refine (rsAlloc_runs fuel tid (max n 1) false).andThen fun a s' r hr =>
      Runs.inv fun f _ hI => Runs.ret ⟨a, rfl, ?_⟩
    by_cases ha : a = 0
    · subst ha
      cases hr
      exact .null
    · obtain ⟨x, rfl, hx⟩ := hr.holding ha
      have hroom := hx.room
      have hmax := Nat.le_max_left n 1
      have hx' : Holding cfg ⟨a, a, n, none⟩ x := hx.resize (by
        simp only at hroom ⊢
        omega)
      exact .of_holding hx' hI fun _ hfresh _ => hfresh
  · obtain ⟨a, rfl, k, hk, hrel⟩ := hr
    exact Runs.ret ⟨k, .fresh hk, hrel⟩

/-- The outcome of `rs_realloc` for the holder of a grant. -/
theorem Backs.realloced {raw raw' q : Nat} {align : Option Nat} (hb : Backs cfg g x)
    (hal : g.align = align.getD 16)
    (hend : g.ptr + g.usable = raw + capacity x)
    (hI : HInv cfg s (r + f)) (hn : 0 < n)
    (h : Realloced cfg ⟨g.ptr, raw, g.size, align⟩ n x q raw' r) :
    Regranted cfg n n {g} (.returns q) r := by
  have husable : Live.usable ⟨g.ptr, raw, g.size, align⟩ x = g.usable := by
    rw [Live.usable, ← hend, Nat.add_sub_cancel_left]
  cases h with
  | @kept y _ held =>
      refine ⟨{g}, .kept hn, .cons ⟨⟨raw, align, held.holding, hal, ?_⟩,
        fun i hi => ?_⟩ .zero⟩
      · rw [held.capacity]
        exact hend
      · rw [hb.bytes i hi]
        exact (held.bytes i (husable ▸ hi)).symm
  | @done _ _ y ne holding bytes =>
      obtain ⟨g', hptr, hfresh, hbytes, hb'⟩ := holding.granted hI
      rw [← show g'.ptr = q from hptr]
      rw [husable] at bytes
      refine ⟨{g'}, .moved hn ⟨hfresh.1, hfresh.2.trans hal.symm⟩
        (fun i hi hu _ => ?_) (fun i hi hle => absurd hi (by omega)),
        .cons hb' .zero⟩
      rw [hbytes, hb.bytes i hu]
      exact bytes i (Nat.lt_min.2 ⟨hu, hi⟩)

theorem realloc_runs (hs : Secrets cfg) (hP : TagFree cfg P)
    (fuel tid : Nat) (hown : Owns ptr k) (hround : Roundable cfg n)
    (hrel : Multiset.Rel (Backs cfg) k r) :
    Runs E P (HInv cfg) (realloc cfg fuel tid ptr n)
      (fun o _ r' => Regranted cfg n n k o r') s r := by
  rcases hown.cases hrel with ⟨rfl, rfl, rfl⟩ | ⟨g, x, rfl, rfl, rfl, hb⟩
  · exact reallocNull_runs fuel tid
  obtain ⟨raw, align, hold, hal, hend⟩ := hb.live
  have hlow := g.low
  simp only [pageSize] at hlow
  rcases Nat.eq_zero_or_pos n with rfl | hn
  · unfold realloc rsRealloc
    rw [if_neg (by omega), if_pos rfl]
    refine Runs.andThen (S := fun o _ r => o = .ok (0, 0) ∧ r = 0) ?_
      fun o s' r hr => ?_
    · refine (rsFree_runs hs hP hold).andThen fun a s' r hr => ?_
      obtain ⟨rfl, rfl⟩ := hr
      exact Runs.ret ⟨rfl, rfl⟩
    · obtain ⟨rfl, rfl⟩ := hr
      exact Runs.ret ⟨0, .freed rfl, .zero⟩
  · refine (rsRealloc_runs hs hP fuel tid n hn hold).andThen fun o s' r hr =>
      Runs.inv fun f _ hI => ?_
    obtain ⟨q, raw', rfl, hdone | hover⟩ := hr
    · exact Runs.ret (hb.realloced hal hend hI hn hdone)
    · cases hover with
      | mk _ _ total wraps => exact absurd wraps (hround total)

theorem reallocarray_runs (hs : Secrets cfg) (hP : TagFree cfg P)
    (fuel tid nmemb size : Nat) (hown : Owns ptr k)
    (hround : Roundable cfg (nmemb * size))
    (hrel : Multiset.Rel (Backs cfg) k r) :
    Runs E P (HInv cfg) (reallocarray cfg fuel tid ptr nmemb size)
      (fun o _ r' => if nmemb * size < 2 ^ 64 then
          Regranted cfg (nmemb * size) (nmemb * size) k o r'
        else o = .returns 0 ∧ r' = r) s r := by
  unfold reallocarray checkedMul
  split
  · next htotal =>
    split at htotal
    · cases htotal
    · next hwide =>
      simp only [if_neg hwide]
      exact Runs.ret ⟨rfl, rfl⟩
  · next total htotal =>
    split at htotal <;> cases htotal
    next hfits =>
    simp only [if_pos hfits]
    exact realloc_runs hs hP fuel tid hown hround hrel

/-- Nothing is cleared in a reallocation that does not grow. -/
theorem Reallocates.shrink {b : Nat} {o : Outcome} {k' : Multiset Grant}
    (h : Reallocates n n k o k') (hb : n ≤ b) : Reallocates n b k o k' := by
  cases h with
  | fresh new => exact .fresh new
  | freed none => exact .freed none
  | kept some => exact .kept some
  | moved some is bytes _ =>
      exact .moved some is (fun i hi hu _ => bytes i hi hu hi)
        fun i hi hle => absurd hi (by omega)

/-- The ways out of a reallocation of one grant. -/
theorem Reallocates.grant_cases {b : Nat} {o : Outcome}
    {k' : Multiset Grant} (h : Reallocates n b {g} o k') (hn : 0 < n) :
    o = .returns 0 ∧ k' = {g}
      ∨ ∃ g', o = .returns g'.ptr ∧ k' = {g'} ∧ Fresh n g.align g'
        ∧ (∀ i < n, i < g.usable → i < b → g'.bytes i = g.bytes i)
        ∧ ∀ i < n, b ≤ i → g'.bytes i = 0 := by
  generalize hk : ({g} : Multiset Grant) = k at h
  cases h with
  | fresh _ => exact absurd hk (Multiset.singleton_ne_zero g)
  | freed none => omega
  | kept _ => exact Or.inl ⟨rfl, rfl⟩
  | moved _ is bytes rest =>
      obtain rfl := Multiset.singleton_inj.1 hk
      exact Or.inr ⟨_, rfl, rfl, is, bytes, rest⟩

/-- The bytes behind the old ones are cleared. -/
theorem recallocGrown_runs {b : Nat} (hs : Secrets cfg) (hP : TagFree cfg P)
    (fuel tid : Nat) (hb : Backs cfg g x) (hround : Roundable cfg n)
    (hlt : b < n) :
    Runs E P (HInv cfg) (do
        match ← realloc cfg fuel tid g.ptr n with
        | .returns newPtr =>
            if newPtr = 0 then return .returns 0
            else do
              zero (newPtr + b) (n - b)
              return .returns newPtr
        | stopped => return stopped)
      (fun o _ r' => Regranted cfg n b {g} o r') s {x} := by
  have hn : 0 < n := by omega
  refine (realloc_runs hs hP fuel tid (Or.inr ⟨g, rfl, rfl⟩) hround
    (.cons hb .zero)).andThen fun o s' r hr => ?_
  obtain ⟨k', hk', hrel⟩ := hr
  obtain ⟨rfl, rfl⟩ | ⟨g', rfl, rfl, hfresh, hbytes, -⟩ := hk'.grant_cases hn
  · exact Runs.ret ⟨{g}, .kept hn, hrel⟩
  · obtain ⟨x', hb', rfl⟩ := rel_singleton_left.1 hrel
    have hroom := g'.room
    have hlow := g'.low
    rw [hfresh.1] at hroom
    simp only [pageSize] at hlow
    dsimp only
    rw [if_neg (by omega)]
    have hmoved : Reallocates n b {g} (.returns g'.ptr)
        {g'.clear b (n - b)} := by
      have hclear : Fresh n g.align (g'.clear b (n - b)) := hfresh
      refine .moved hn hclear (fun i hi hu hold => ?_) fun i hi hge => ?_
      · exact (if_neg (by omega)).trans (hbytes i hi hu hi)
      · exact if_pos (by omega)
    exact (zero_runs hb' (by omega)).andThen fun _ s'' r hrel =>
      Runs.ret ⟨_, hmoved, hrel⟩

theorem recallocarray_runs (hs : Secrets cfg) (hP : TagFree cfg P)
    (fuel tid oldnmemb newnmemb size : Nat) (hown : Owns ptr k)
    (hround : Roundable cfg (newnmemb * size))
    (hrel : Multiset.Rel (Backs cfg) k r) :
    Runs E P (HInv cfg)
      (recallocarray cfg fuel tid ptr oldnmemb newnmemb size)
      (fun o _ r' =>
        k = 0 ∧ Granted cfg (fun g => Fresh (newnmemb * size) 16 g
          ∧ CallocCleared (newnmemb * size) g) o r'
        ∨ k ≠ 0 ∧ if newnmemb * size < 2 ^ 64 then
            Regranted cfg (newnmemb * size)
              (if oldnmemb * size < 2 ^ 64 then oldnmemb * size else 0)
              k o r'
          else o = .returns 0 ∧ r' = r) s r := by
  unfold recallocarray
  rcases hown.cases hrel with ⟨rfl, rfl, rfl⟩ | ⟨g, x, rfl, rfl, rfl, hb⟩
  · rw [if_pos rfl]
    exact (calloc_runs fuel tid newnmemb size).mono fun _ _ _ hr =>
      Or.inl ⟨rfl, hr⟩
  have hlow := g.low
  simp only [pageSize] at hlow
  rw [if_neg (by omega)]
  have hold : (if oldnmemb * size < 2 ^ 64 then oldnmemb * size else 0)
      = (checkedMul oldnmemb size).getD 0 := by
    unfold checkedMul
    split <;> rfl
  simp only [hold]
  generalize (checkedMul oldnmemb size).getD 0 = b
  refine Runs.mono (Q := fun o _ r' => if newnmemb * size < 2 ^ 64 then
      Regranted cfg (newnmemb * size) b {g} o r'
    else o = .returns 0 ∧ r' = {x}) ?_
    fun _ _ _ hr => Or.inr ⟨Multiset.singleton_ne_zero g, hr⟩
  by_cases hfits : newnmemb * size < 2 ^ 64
  · simp only [checkedMul, if_pos hfits]
    split
    · next hle =>
      refine (realloc_runs hs hP fuel tid (Or.inr ⟨g, rfl, rfl⟩) hround
        (.cons hb .zero)).mono fun o s' r hr => ?_
      obtain ⟨k', hk', hrel⟩ := hr
      exact ⟨k', hk'.shrink hle, hrel⟩
    · next hgt => exact recallocGrown_runs hs hP fuel tid hb hround (by omega)
  · simp only [checkedMul, if_neg hfits]
    exact Runs.ret ⟨rfl, rfl⟩

end Held

-- ==================================================== everything else

section Others

/-- The holder of a grant reads one of its bytes. -/
theorem load_runs (hb : Backs cfg g x) {addr : Nat} (hin : g.Has addr) :
    Runs E P (HInv cfg)
      (Prog.read fun h => Outcome.returns (h.mem addr).toNat)
      (fun o _ r => o = .returns (g.bytes (addr - g.ptr)).toNat ∧ r = {x})
      s {x} := by
  refine Runs.inv fun f _ hI => Runs.read ⟨?_, rfl⟩
  rw [hb.mem hI hin]

/-- The holder of a grant writes one of its bytes. -/
theorem store_runs (hb : Backs cfg g x) {addr value : Nat}
    (hin : g.Has addr) :
    Runs E P (HInv cfg)
      (Prog.atomic fun _ h =>
        (Outcome.returns 0, h.onMem fun m => Mem.store 1 m addr value))
      (fun o _ r => o = .returns 0 ∧ Multiset.Rel (Backs cfg)
        {g.write (addr - g.ptr) (UInt8.ofNat value)} r) s {x} := by
  refine Runs.atomic fun _ f _ _ hI => ?_
  have hat := hin
  unfold Grant.Has at hat
  have hbytes : ∀ j < g.usable,
      (g.write (addr - g.ptr) (UInt8.ofNat value)).bytes j
        = Mem.store 1 s.mem addr value (g.ptr + j) := by
    intro j hj
    by_cases heq : j = addr - g.ptr
    · have hself : g.ptr + (addr - g.ptr) = addr := by omega
      rw [heq, hself, Mem.store, if_pos ⟨le_rfl, Nat.lt_succ_self addr⟩,
        Nat.sub_self, Nat.pow_zero, Nat.div_one]
      exact Function.update_self ..
    · rw [Mem.store_apply_of_not (by omega), hb.mem hI ⟨by omega, by omega⟩,
        Nat.add_sub_cancel_left]
      exact Function.update_of_ne heq ..
  obtain ⟨hI', hb'⟩ := hb.write hI
    (fun y hy => Mem.store_apply_of_not hy) hat.1 (by omega) hbytes
  exact ⟨_, hI', rfl, .cons hb' .zero⟩

theorem mallocTrim_runs (fuel requested : Nat) :
    Runs E P (HInv cfg) (mallocTrim cfg fuel requested)
      (fun o _ r => (o = .returns 0 ∨ o = .returns 1) ∧ r = 0) s 0 := by
  refine (trimInner_runs fuel requested false).andThen fun buddy s₁ r hr => ?_
  obtain ⟨rfl, -⟩ := hr
  refine Runs.andThen (S := fun _ _ r => r = 0) ?_ fun small s₂ r hr => ?_
  · split
    · exact (trimSmall_runs fuel _).mono fun _ _ _ hr => hr.1
    · exact Runs.ret rfl
  · obtain rfl := hr
    refine Runs.ret ⟨?_, rfl⟩
    split
    · exact Or.inr rfl
    · exact Or.inl rfl

/-- `BUDDY_BACKEND.init`. -/
theorem buddyInit_runs (size : Nat) :
    Runs E P (HInv cfg) (buddyInit cfg size) (fun _ _ r => r = 0) s 0 := by
  refine Runs.andThen (S := fun _ _ r => r = 0)
    (Runs.atomic fun _ f _ _ hI => ⟨0, ?_, rfl⟩) fun first s₁ r hr => ?_
  · exact hI.settings s.growOrder true s.buddyInit s.disableBuddy
  obtain rfl := hr
  refine Runs.when (fun _ => ?_) fun _ => rfl
  refine Runs.andThen (S := fun _ _ r => r = 0) (Runs.ask fun _ _ => rfl)
    fun cpu s₂ r hr => ?_
  obtain rfl := hr
  refine Runs.andThen (S := fun _ _ r => r = 0)
    (Runs.modify fun f _ hI => ⟨0, ?_, rfl⟩) fun _ s₃ r hr => ?_
  · exact hI.settings _ s₂.once s₂.buddyInit s₂.disableBuddy
  obtain rfl := hr
  exact (addRegion_runs _ _ true).andThen fun _ _ _ hr => Runs.ret hr

/-- `cleanup_thread_bulk`. -/
theorem cleanupThreadBulk_runs (tid : Nat) :
    Runs E P (HInv cfg) (onSlab (Slab.cleanupThreadBulk cfg tid))
      (fun _ _ r => r = 0) s 0 := by
  refine (onSlab_runs (A := 0) (Slab.cleanupThreadBulk_safe tid)
    nofun
    fun a A' hA' q hq => ?_).mono fun a s' x hx => ?_
  · rw [hA'] at hq
    exact absurd hq (Multiset.notMem_zero q)
  · obtain ⟨-, A', rfl, rfl⟩ := hx
    rfl

end Others

-- ============================================================= histories

section Histories

variable {k : Multiset Grant} {r : Res}

/-- A call that neither takes nor gives. -/
theorem answered {c : Call} {o : Outcome}
    (hr : r = 0) (hgives : gives c k o 0) :
    ∃ k', gives c k o k' ∧ Multiset.Rel (Backs cfg) k' r :=
  ⟨0, hgives, Multiset.rel_zero_left.2 hr⟩

/-- Every call keeps the contract. -/
theorem call_runs (hs : Secrets cfg) (hP : TagFree cfg P) (fuel tid : Nat)
    (c : Call) (htakes : takes cfg c k)
    (hrel : Multiset.Rel (Backs cfg) k r) :
    Runs E P (HInv cfg) (c.prog cfg fuel tid)
      (fun o _ r' => ∃ k', gives c k o k' ∧ Multiset.Rel (Backs cfg) k' r')
      s r := by
  -- what takes nothing owns nothing
  have hnone : k = 0 → r = 0 := fun hk =>
    Multiset.rel_zero_left.1 (hk ▸ hrel)
  cases c with
  | malloc size =>
      obtain rfl := hnone htakes
      exact malloc_runs fuel tid size
  | calloc nmemb size =>
      obtain rfl := hnone htakes
      exact calloc_runs fuel tid nmemb size
  | realloc ptr n =>
      exact realloc_runs hs hP fuel tid htakes.1 htakes.2 hrel
  | reallocarray ptr nmemb size =>
      refine (reallocarray_runs hs hP fuel tid nmemb size htakes.1 htakes.2
        hrel).mono fun o s' r' hr => ?_
      split at hr
      · next hfits =>
        obtain ⟨k', hk', hrel'⟩ := hr
        exact ⟨k', Eq.mpr (if_pos hfits) hk', hrel'⟩
      · next hwide =>
        obtain ⟨rfl, rfl⟩ := hr
        exact ⟨k, Eq.mpr (if_neg hwide) ⟨rfl, rfl⟩, hrel⟩
  | recallocarray ptr oldnmemb newnmemb size =>
      refine (recallocarray_runs hs hP fuel tid oldnmemb newnmemb size
        htakes.1 htakes.2 hrel).mono fun o s' r' hr => ?_
      rcases hr with ⟨rfl, k', hk', hrel'⟩ | ⟨hne, hr⟩
      · exact ⟨k', Or.inl ⟨rfl, hk'⟩, hrel'⟩
      · split at hr
        · next hfits =>
          obtain ⟨k', hk', hrel'⟩ := hr
          exact ⟨k', Or.inr ⟨hne, Eq.mpr (if_pos hfits) hk'⟩, hrel'⟩
        · next hwide =>
          obtain ⟨rfl, rfl⟩ := hr
          exact ⟨k, Or.inr ⟨hne, Eq.mpr (if_neg hwide) ⟨rfl, rfl⟩⟩, hrel⟩
  | posixMemalign alignment size =>
      obtain rfl := hnone htakes
      exact posixMemalign_runs hs fuel tid alignment size
  | memalign alignment size =>
      obtain rfl := hnone htakes
      exact memalign_runs hs fuel tid alignment size
  | alignedAlloc alignment size =>
      obtain rfl := hnone htakes
      exact alignedAlloc_runs hs fuel tid alignment size
  | valloc size =>
      obtain rfl := hnone htakes
      exact valloc_runs hs fuel tid size
  | pvalloc size =>
      obtain rfl := hnone htakes
      exact pvalloc_runs hs fuel tid size
  | free ptr =>
      exact (free_runs hs hP htakes hrel).mono fun _ _ _ hr =>
        answered hr.2 ⟨hr.1, rfl⟩
  | dealloc ptr layout =>
      exact (free_runs hs hP htakes hrel).mono fun _ _ _ hr =>
        answered hr.2 ⟨hr.1, rfl⟩
  | mallocUsableSize ptr =>
      refine (mallocUsableSize_runs hs hP htakes hrel).mono
        fun o s' r' hr => ⟨k, ⟨rfl, hr.1⟩, ?_⟩
      rw [hr.2]
      exact hrel
  | mallocTrim requested =>
      obtain rfl := hnone htakes
      exact (mallocTrim_runs fuel requested).mono fun _ _ _ hr =>
        answered hr.2 ⟨hr.1, rfl⟩
  | alloc layout =>
      obtain rfl := hnone htakes
      exact alloc_runs hs fuel tid layout
  | reallocLayout ptr layout n =>
      exact realloc_runs hs hP fuel tid htakes.1 htakes.2 hrel
  | allocZeroed layout =>
      obtain rfl := hnone htakes
      exact allocZeroed_runs hs fuel tid layout
  | rsTrim trim =>
      obtain rfl := hnone htakes
      exact (rsTrim_runs fuel trim).andThen fun n _ _ hr =>
        Runs.ret (answered hr.1 ⟨⟨n, rfl⟩, rfl⟩)
  | load addr =>
      obtain ⟨g, rfl, hin⟩ := htakes
      obtain ⟨x, hb, rfl⟩ := rel_singleton_left.1 hrel
      refine (load_runs hb hin).mono fun o s' r' hr =>
        ⟨{g}, ⟨rfl, g, rfl, hr.1⟩, ?_⟩
      rw [hr.2]
      exact hrel
  | store addr value =>
      obtain ⟨g, rfl, hin⟩ := htakes
      obtain ⟨x, hb, rfl⟩ := rel_singleton_left.1 hrel
      exact (store_runs hb hin).mono fun o s' r' hr =>
        ⟨_, ⟨hr.1, g, rfl, rfl⟩, hr.2⟩
  | init size =>
      obtain rfl := hnone htakes
      exact (buddyInit_runs size).andThen fun _ _ _ hr =>
        Runs.ret (answered hr ⟨rfl, rfl⟩)
  | exit =>
      obtain rfl := hnone htakes
      exact (cleanupThreadBulk_runs tid).andThen fun _ _ _ hr =>
        Runs.ret (answered hr ⟨rfl, rfl⟩)
  | tick stamp =>
      obtain rfl := hnone htakes
      refine Runs.atomic fun _ f _ _ hI => ?_
      dsimp only
      exact ⟨0, hI.slabSame rfl rfl rfl rfl, answered rfl ⟨rfl, rfl⟩⟩
  | relief disable =>
      obtain rfl := hnone htakes
      exact Runs.atomic fun _ f _ _ hI =>
        ⟨0, hI.settings s.growOrder s.once s.buddyInit disable,
          answered rfl ⟨rfl, rfl⟩⟩

/-- The programs of a call. -/
def progs (cfg : Config) (c : Call) : Set (HeapM Outcome) :=
  {p | ∃ fuel tid, p = c.prog cfg fuel tid}

/-- Nobody owns anything before the first call. -/
theorem new_hinv (m : Mem) : HInv cfg (State.new m) 0 := by
  refine ⟨fun _ _ => [], fun _ => ⟨.direct false, 0, 0, m⟩, ?_, List.nodup_nil,
    nofun,
    nofun,
    nofun, fun k m => ?_⟩
  · exact Slab.new_inv m
  · constructor
    · intro h
      cases h
    · rintro ⟨p, hp, -⟩
      exact absurd hp (Multiset.notMem_zero _)

/-- What callers hold after a lawful history is backed. -/
theorem backed_of_calls (hs : Secrets cfg) (hP : TagFree cfg P) {m : Mem}
    {h : List (Call × Outcome)}
    (hcalls : Contract.Calls E P (progs cfg) (State.new m) h s)
    (hlaw : (store cfg).Lawful h) :
    ∃ L, (store cfg).Run h L
      ∧ Contract.Backed (HInv cfg) (Backs cfg) s L := by
  refine Contract.refines (new_hinv m) (fun s L => disjointly_of_backed)
    (fun c k p s r hp htakes hrel => ?_) hcalls hlaw
  obtain ⟨fuel, tid, rfl⟩ := hp
  exact call_runs hs hP fuel tid c htakes hrel

/-- Two calls, one after the other. -/
def inTurn (cfg : Config) (fuel tid : Nat) (c d : Call) :
    HeapM (Outcome × Outcome) := do
  let a ← c.prog cfg fuel tid
  let b ← d.prog cfg fuel tid
  return (a, b)

theorem calls_of_exec (cfg : Config) (m : Mem) (c d : Call)
    (a b : Outcome) (env : Nat → Env) (fuel tid : Nat)
    (hexec : ((inTurn cfg fuel tid c d).exec env (State.new m)).map Prod.fst
      = some (a, b)) :
    ∃ s, Contract.Calls (fun _ => True) (fun _ => True) (progs cfg)
      (State.new m) [(d, b), (c, a)] s := by
  obtain ⟨⟨ab, s⟩, hexec, rfl⟩ := Option.map_eq_some_iff.1 hexec
  obtain ⟨a, s₁, hfirst, hrest⟩ := (Ran.of_exec (E := fun _ => True)
    (P := fun _ => True) (fun _ => trivial) (fun _ => trivial) hexec).bind
  obtain ⟨b, s₂, hsecond, hret⟩ := hrest.bind
  cases hret
  exact ⟨s, .cons (.cons (.nil trivial) ⟨fuel, tid, rfl⟩ hfirst)
    ⟨fuel, tid, rfl⟩ hsecond⟩

/-- To free what `malloc` has returned is lawful. -/
theorem lawful_malloc_free {size ptr : Nat} (hptr : ptr ≠ 0) :
    (store cfg).Lawful
      [(.free ptr, .returns 0), (.malloc size, .returns ptr)] := by
  refine ⟨⟨trivial, fun L _ => ⟨0, Multiset.zero_le L, rfl⟩⟩,
    fun L hrun => ?_⟩
  cases hrun with
  | cons _ step =>
      cases step with
      | mk _ gives _ =>
          obtain ⟨g, rfl, hg, -⟩ := Allocates.grant gives hptr
          exact ⟨{g}, Multiset.le_add_right .., Or.inr ⟨g, rfl, hg⟩⟩

theorem single_secrets : Secrets (Config.single 8388608) := by
  constructor <;> decide

theorem single_tagFree :
    TagFree (Config.single 8388608) (fun _ => True) :=
  tagFree_of_secret (by decide)

/-- The heap is an allocator: every history of calls by callers who hold
what they use is a history of the store, and memory shows what is in
their grants. -/
theorem heap_refines_store (hs : Secrets cfg) (hP : TagFree cfg P)
    {m : Mem} {h : List (Call × Outcome)}
    (hcalls : Contract.Calls E P (progs cfg) (State.new m) h s)
    (hlaw : (store cfg).Lawful h) :
    ∃ L, (store cfg).Run h L
      ∧ ∀ g ∈ L, ∀ i < g.usable, s.mem (g.ptr + i) = g.bytes i := by
  obtain ⟨L, hrun, X, hI, hrel⟩ := backed_of_calls hs hP hcalls hlaw
  refine ⟨L, hrun, fun g hg i hi => ?_⟩
  obtain ⟨L', rfl⟩ := Multiset.exists_cons_of_mem hg
  obtain ⟨x, X', hb, -, rfl⟩ := Multiset.rel_cons_left.1 hrel
  rw [← Multiset.singleton_add] at hI
  rw [hb.mem hI ⟨Nat.le_add_right .., by omega⟩, Nat.add_sub_cancel_left]

/-- A pointer of 4 MiB is a mapping of its own, and is freed again. -/
theorem heap_refines_store_mapping :
    ∃ L, (store (Config.single 8388608)).Run
      [(.free 1048592, .returns 0), (.malloc 4194304, .returns 1048592)]
      L := by
  obtain ⟨s, hcalls⟩ := calls_of_exec (Config.single 8388608) (fun _ => 0)
    (.malloc 4194304) (.free 1048592) (.returns 1048592) (.returns 0)
    (fun _ => { offer := some 1048576 }) 0 0 (by decide +kernel)
  obtain ⟨L, hrun, -⟩ := heap_refines_store single_secrets single_tagFree
    hcalls (lawful_malloc_free (by decide))
  exact ⟨L, hrun⟩

end Histories

end RsMalloc.Heap
