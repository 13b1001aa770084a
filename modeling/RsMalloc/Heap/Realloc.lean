/-
Reallocation.

# Outcomes

`Realloced cfg l n x q raw r`: the caller of `rs_realloc` for `n` bytes
held the pointer `l` by the allocation `x`, was given `q`, and owns `r`
afterwards. Null leaves it what it had, with the same bytes, though the
block under it may have doubled (`kept`). Any other pointer has `n`
bytes and starts with the old ones (`done`). There is one way out that
does not keep this promise (`Overrun`): the rounding of the new size runs
over the end of the address space, and a block of the backend passes for
large enough.

# Ways out

Every way out that moves is `moveTo_runs`; it needs both allocations at
once. The loop that doubles a block keeps the entry in step with the
block at each turn (`growLoop_runs`).
-/
import RsMalloc.Heap.Calls
import RsMalloc.Slab.Growth
import RsMalloc.Slab.Steal

namespace RsMalloc.Heap

open Conc

open RbTree (BigAllocMeta)

open Slab (payload)

open Buddy (IsTile)

variable {cfg : Config} {E : Env → Prop} {P : State → Prop} {s : State}

-- ============================================================== outcomes

/-- The `n` bytes at `b` in `y` are those at `a` in `x`. -/
def SameBytes (n a b : Nat) (x y : Part × Option BigAllocMeta) : Prop :=
  ∀ i < n, y.1.data (b + i) = x.1.data (a + i)

/-- The bytes of the allocation from the pointer on. -/
def Live.usable (l : Live) (x : Part × Option BigAllocMeta) : Nat :=
  l.raw + capacity x - l.ptr

/-- The pointer is held as before, by a block that may have grown. -/
structure StillHeld (cfg : Config) (l : Live)
    (x y : Part × Option BigAllocMeta) : Prop where
  holding : Holding cfg l y
  capacity : capacity y = capacity x
  bytes : SameBytes (l.usable x) l.ptr l.ptr x y

/-- What becomes of an allocation. -/
inductive Realloced (cfg : Config) (l : Live) (newSize : Nat)
    (x : Part × Option BigAllocMeta) : Nat → Nat → Res → Prop
  | kept {y : Part × Option BigAllocMeta} (raw : Nat)
      (held : StillHeld cfg l x y) : Realloced cfg l newSize x 0 raw {y}
  | done {q raw : Nat} {y : Part × Option BigAllocMeta} (ne : q ≠ 0)
      (holding : Holding cfg ⟨q, raw, newSize, l.align⟩ y)
      (bytes : SameBytes (min (l.usable x) newSize) l.ptr q x y) :
      Realloced cfg l newSize x q raw {y}

/-- A block of the backend is recorded with a size it does not have. -/
inductive Overrun (cfg : Config) (l : Live) (newSize : Nat) :
    Part × Option BigAllocMeta → Nat → Res → Prop
  | mk {p : Part} {m : BigAllocMeta} (block : m.buddyRegion ≠ 0)
      (lt : m.size < newSize) (total : newSize + headerSize < 2 ^ 64)
      (wraps : Wraps cfg (newSize + headerSize)) :
      Overrun cfg l newSize (p, some m) l.ptr
        {(p, some { m with next := 0, size := newSize })}

variable {x : Part × Option BigAllocMeta}

variable {l : Live}

theorem StillHeld.refl (h : Holding cfg l x) : StillHeld cfg l x x :=
  ⟨h, rfl, fun _ _ => rfl⟩

variable {y : Part × Option BigAllocMeta}

theorem StillHeld.usable_eq (h : StillHeld cfg l x y) :
    l.usable y = l.usable x := by
  rw [Live.usable, Live.usable, h.capacity]

theorem StillHeld.trans {z : Part × Option BigAllocMeta}
    (h : StillHeld cfg l x y) (h' : StillHeld cfg l y z) :
    StillHeld cfg l x z :=
  ⟨h'.holding, h'.capacity.trans h.capacity, fun i hi =>
    (h'.bytes i (by rw [h.usable_eq]; exact hi)).trans (h.bytes i hi)⟩

variable {newSize : Nat}

/-- An attempt to grow in place comes before. -/
theorem Realloced.of_held {q raw : Nat} {r : Res} (h : StillHeld cfg l x y)
    (h' : Realloced cfg l newSize y q raw r) :
    Realloced cfg l newSize x q raw r := by
  cases h' with
  | kept raw held => exact .kept raw (h.trans held)
  | done ne holding bytes =>
      rw [h.usable_eq] at bytes
      exact .done ne holding fun i hi => (bytes i hi).trans
        (h.bytes i (hi.trans_le (Nat.min_le_left ..)))

/-- A pointer that keeps its payload, for a smaller or a larger size. -/
theorem Holding.resize (h : Holding cfg l x)
    (hroom : l.ptr + newSize ≤ l.raw + capacity x) :
    Holding cfg ⟨l.ptr, l.raw, newSize, l.align⟩ x :=
  ⟨h.allocated, h.raw, hroom, h.pos, h.aim⟩

-- ================================================================ moving

section Moving

variable {l l' : Live} {x y : Part × Option BigAllocMeta} {n : Nat}

/-- The bytes of an allocation are those of the memory. -/
theorem Allocated.data_eq {f : Res} (h : Allocated cfg x)
    (hI : HInv cfg s ({x} + f)) {a : Nat} (ha : payload x.1 ≤ a)
    (hn : a < payload x.1 + capacity x) : s.mem a = x.1.data a := by
  have hr := h.range
  unfold Piece.HasRange at hr
  simp only [payload] at ha hn
  have hin : x.1.Has a := ⟨by omega, by omega⟩
  obtain ⟨H, hsp⟩ := hI.front
  exact hsp.holds.agree x.1 (by simp) a hin

/-- The new pointer is given the bytes of the old one, and the old one is
freed. -/
theorem moveTo_runs (hs : Secrets cfg) (hP : TagFree cfg P)
    (h : Holding cfg l x) (h' : Holding cfg l' y)
    (hn : l.ptr + n ≤ l.raw + capacity x)
    (hn' : l'.ptr + n ≤ l'.raw + capacity y) :
    Runs E P (HInv cfg) (moveTo cfg l.ptr l'.ptr n)
      (fun o _ r => o = .ok l'.ptr ∧ ∃ z, r = {z} ∧ Holding cfg l' z
        ∧ SameBytes n l.ptr l'.ptr x z) s ({x} + {y}) := by
  refine Runs.inv fun f _ hI => ?_
  rw [add_comm ({x} : Res), add_assoc] at hI
  have hlow := (h'.bounds hI).1
  unfold moveTo
  rw [if_neg (by omega)]
  refine Runs.bind (Runs.modify fun f _ hI => ?_)
  have hIx := hI
  rw [add_assoc] at hIx
  rw [add_comm ({x} : Res), add_assoc] at hI
  obtain ⟨hI', hz, -⟩ := h'.write (a := l'.ptr) (n := n)
    (m := Mem.copy s.mem l'.ptr l.ptr n) hI
    (fun y hy => Mem.copy_apply_of_not hy) le_rfl hn'
  have hsame : SameBytes n l.ptr l'.ptr x
      (withData (Mem.copy s.mem l'.ptr l.ptr n) y) := by
    intro i hi
    have hle := (h.bounds hIx).2.2
    have hraw := h.raw
    refine (Mem.copy_apply (Nat.le_add_right ..) (by omega)).trans ?_
    rw [Nat.add_sub_cancel_left]
    exact h.allocated.data_eq hIx (by omega) (by omega)
  rw [← add_assoc, add_comm _ ({x} : Res)] at hI'
  refine ⟨_, hI', ?_⟩
  refine (rsFree_runs hs hP h).seq fun o s' r hr => ?_
  obtain ⟨rfl, rfl⟩ := hr
  rw [zero_add]
  exact Runs.ret ⟨rfl, _, rfl, hz, hsame⟩

/-- Allocate, copy and free: the way out of an allocation that is held by
its payload. -/
theorem allocMove_runs (hs : Secrets cfg) (hP : TagFree cfg P)
    (fuel tid newSize : Nat) (h : Holding cfg l x) (hal : l.align = none)
    (hptr : l.ptr = l.raw) :
    Runs E P (HInv cfg)
      (do
        let new ← rsAlloc cfg fuel tid newSize false
        moveTo cfg l.ptr new (min (capacity x) newSize))
      (fun o _ r => ∃ q, o = .ok q ∧ Realloced cfg l newSize x q q r) s
      {x} := by
  have huse : l.usable x = capacity x := by
    rw [Live.usable, hptr, Nat.add_sub_cancel_left]
  rw [← zero_add ({x} : Res)]
  refine (rsAlloc_runs fuel tid newSize false).seq fun a s' r hr => ?_
  by_cases hz : a = 0
  · subst hz
    cases hr
    rw [zero_add, moveTo, if_pos rfl]
    exact Runs.ret ⟨0, rfl, .kept 0 (.refl h)⟩
  · obtain ⟨y, rfl, hy⟩ := hr.holding hz
    have hroom := hy.room
    simp only at hroom
    rw [add_comm ({y} : Res)]
    refine (moveTo_runs hs hP h hy ?_ ?_).mono fun o s'' r hpost => ?_
    · rw [hptr]
      exact Nat.add_le_add_left (Nat.min_le_left ..) _
    · simp only
      omega
    · obtain ⟨rfl, z, rfl, hz', hsame⟩ := hpost
      refine ⟨a, rfl, .done hz ?_ ?_⟩
      · rw [hal]
        exact hz'
      · rw [huse]
        exact hsame

end Moving

-- =============================================================== growing

section Growing

variable {p q : Part} {m m' : BigAllocMeta}

/-- The allocation `q` recorded as `m'` starts where `p` recorded as `m`
does, is at least as long, and has its bytes. -/
structure Extends (m : BigAllocMeta) (p : Part) (m' : BigAllocMeta)
    (q : Part) : Prop where
  base : q.base = p.base
  len : p.len ≤ q.len
  kind : q.kind = p.kind
  region : m'.buddyRegion = m.buddyRegion
  aligned : m'.aligned = m.aligned
  data : ∀ x, p.Has x → q.data x = p.data x

theorem Extends.big (h : Extends m p m' q) (hp : Big cfg m p)
    (hseat : Seat cfg m' q) (hroom : m'.size + headerSize ≤ q.len) :
    Big cfg m' q := by
  have hload : ∀ w k, k + w ≤ headerSize →
      Mem.load w q.data (q.base + k) = Mem.load w p.data (p.base + k) := by
    intro w k hk
    have hlen := hp.room
    rw [h.base]
    exact Mem.load_congr fun x h₁ h₂ => h.data x ⟨by omega, by omega⟩
  refine ⟨hseat, hroom, ?_, ?_, ?_⟩
  · rw [h.base]
    exact hp.page
  · exact (hload 8 0 (by decide)).trans hp.link
  · exact (hload 2 10 (by decide)).trans hp.magic

/-- `mremap` of a mapping that is not aligned. Without a new length it
fails; with one it does not shrink the mapping. -/
theorem mremap_runs {e : Option BigAllocMeta} {n : Nat}
    (hk : p.kind = .direct false) (hpos : 0 < p.len)
    (hpage : p.len % pageSize = 0) (hn : n % pageSize = 0)
    (hle : n = 0 ∨ p.len ≤ n) :
    Runs E P (HInv cfg) (mremap p.base p.len n)
      (fun o _ r => o = none ∧ r = {(p, e)}
        ∨ o = some p.base ∧ ∃ q, r = {(q, e)} ∧ q.base = p.base
          ∧ q.len = n ∧ p.len ≤ n ∧ q.kind = p.kind
          ∧ ∀ x, p.Has x → q.data x = p.data x) s {(p, e)} := by
  refine Runs.atomic fun env f _ _ hI => ?_
  simp only [Ground.mremap, pageUp_of_mod hpage, pageUp_of_mod hn]
  split
  · next hok =>
    have hle' : p.len ≤ n := hle.resolve_left (Nat.ne_of_gt hok.2.1)
    split
    · next hge =>
      have heq : n = p.len := Nat.le_antisymm hge hle'
      rw [heq, Nat.sub_self, Ground.munmap, if_pos rfl]
      exact ⟨_, hI, Or.inr ⟨rfl, p, rfl, rfl, rfl, le_rfl, rfl,
        fun _ _ => rfl⟩⟩
    · next hlt =>
      rw [Nat.not_le] at hlt
      split
      · next hfree =>
        let q : Part := ⟨.direct false, p.base, n,
          Mem.zero s.slab.ground.mem (p.base + p.len) (n - p.len)⟩
        refine ⟨{(q, e)}, hI.relabel (fun r hr => ?_) (fun _ => Kind.noConfusion) rfl
          (hpos.trans hlt) fun H hF hH =>
            hH.remap hk hpos hlt hfree.1 hfree.2 hF,
          Or.inr ⟨rfl, q, rfl, rfl, rfl, hle', hk.symm, fun x hx => ?_⟩⟩
        · rw [hk] at hr
          cases hr
        · obtain ⟨H, hsp⟩ := hI.front
          have hend := hx.2
          exact (Mem.zero_apply_of_not (by omega)).trans
            (hsp.holds.agree p (by simp) x hx)
      · exact ⟨_, hI, Or.inl ⟨rfl, rfl⟩⟩
  · exact ⟨_, hI, Or.inl ⟨rfl, rfl⟩⟩

/-- What the two ways to grow in place leave. -/
def GrewBig (cfg : Config) (m : BigAllocMeta) (p : Part) (newSize : Nat)
    (o : Option Nat) (r : Res) : Prop :=
  ∃ q m', r = {(q, some m')} ∧ Extends m p m' q ∧ Big cfg m' q
    ∧ (o = none ∧ m'.size = m.size
      ∨ o = some (p.base + headerSize) ∧ m'.size = newSize)

theorem remapBig_runs (hp : Big cfg m p) (hzero : m.buddyRegion = 0)
    (hk : p.kind = .direct false) (hlt : m.size < newSize)
    (htotal : newSize + headerSize < 2 ^ 64) :
    Runs E P (HInv cfg)
      (remapBig (p.base + headerSize) p.base p.len
        (estimateAndAlign2mb cfg (newSize + headerSize)) newSize)
      (fun o _ r => GrewBig cfg m p newSize o r) s {(p, some m)} := by
  refine Runs.inv fun f _ hI => ?_
  have hsize := hp.size_lt hI
  have hlen : p.len = estimateAndAlign2mb cfg (m.size + headerSize) := by
    rcases hp.seat with ⟨hne, -⟩ | ⟨-, -, hlen⟩
    · exact absurd hzero hne
    · exact hlen
  have hno : ¬ Wraps cfg (m.size + headerSize) := not_wraps_of_lt (by omega)
  have hpage : p.len % pageSize = 0 := by
    rw [hlen]
    exact (estimate_of_not_wraps (by omega) hno).2.2
  have hnew : estimateAndAlign2mb cfg (newSize + headerSize) % pageSize = 0
      ∧ (estimateAndAlign2mb cfg (newSize + headerSize) = 0
        ∨ newSize + headerSize
            ≤ estimateAndAlign2mb cfg (newSize + headerSize)
          ∧ p.len ≤ estimateAndAlign2mb cfg (newSize + headerSize)) := by
    by_cases hwrap : Wraps cfg (newSize + headerSize)
    · rw [estimate_of_wraps htotal hwrap]
      exact ⟨rfl, Or.inl rfl⟩
    · obtain ⟨hle, -, hmod⟩ := estimate_of_not_wraps htotal hwrap
      refine ⟨hmod, Or.inr ⟨hle, ?_⟩⟩
      rw [hlen]
      exact estimate_mono (by omega) htotal hwrap
  refine (mremap_runs hk hp.pos hpage hnew.1
    (hnew.2.imp_right And.right)).andThen fun o s' r hr => ?_
  rcases hr with ⟨rfl, rfl⟩ | ⟨rfl, q, rfl, hbase, hqlen, hge, hqk, hdata⟩
  · exact Runs.ret ⟨p, m, rfl, ⟨rfl, le_rfl, rfl, rfl, rfl, fun _ _ => rfl⟩,
      hp, Or.inl ⟨rfl, rfl⟩⟩
  · have hroom := (hnew.2.resolve_left (by have := hp.pos; omega)).1
    have hal : m.aligned = false := by
      rcases hp.seat with ⟨hne, -⟩ | ⟨-, hdir, -⟩
      · exact absurd hzero hne
      · rw [hk, Kind.direct.injEq] at hdir
        exact hdir.symm
    dsimp only
    rw [← hbase]
    refine (bigMapReplace_runs (by have := hp.pos; omega)).andThen
      fun _ s'' r hr => ?_
    obtain ⟨-, rfl⟩ := hr
    have hext : Extends m p { next := 0, size := newSize
                              order := orderForSize
                                (estimateAndAlign2mb cfg
                                  (newSize + headerSize))
                              buddyRegion := 0, aligned := false } q :=
      ⟨hbase, by omega, hqk, hzero.symm, hal.symm, hdata⟩
    refine Runs.ret ⟨q, _, rfl, hext, hext.big hp (.mapping rfl ?_ hqlen) ?_,
      Or.inr ⟨by rw [hbase], rfl⟩⟩
    · rw [hqk, hk]
    · rw [hqlen]
      exact hroom

/-- The loop that doubles the block of `m`, which has become the block
`q` recorded as `m'`. -/
theorem growLoop_runs (hp : Big cfg m p) (hne : m.buddyRegion ≠ 0)
    {alignedNew : Nat} (hnew : newSize + headerSize ≤ alignedNew) (n : Nat)
    (hext : Extends m p m' q) (hq : Big cfg m' q) (hsize : m'.size = m.size) :
    Runs E P (HInv cfg)
      (growLoop (p.base + headerSize) alignedNew newSize m n p.base m'.order)
      (fun o _ r => GrewBig cfg m p newSize o r) s {(q, some m')} := by
  induction n generalizing s q m' with
  | zero => exact Runs.ret ⟨q, m', rfl, hext, hq, Or.inl ⟨rfl, hsize⟩⟩
  | succ n ih =>
      have htile : IsTile (.tile m.buddyRegion) m'.order q := by
        rw [← hext.region]
        rcases hq.seat with ⟨-, htile⟩ | ⟨hzero, -⟩
        · exact htile
        · exact absurd (hext.region ▸ hzero) hne
      unfold growLoop
      split
      · exact Runs.ret ⟨q, m', rfl, hext, hq, Or.inl ⟨rfl, hsize⟩⟩
      rw [← hext.base]
      refine (backendGrow_runs (e := some m') htile).andThen
        fun o s' r hr => ?_
      cases o with
      | none =>
          obtain rfl : r = {(q, some m')} := hr
          exact Runs.ret ⟨q, m', rfl, hext, hq, Or.inl ⟨rfl, hsize⟩⟩
      | some b =>
          obtain ⟨addr, order⟩ := b
          obtain ⟨rfl, rfl, q', rfl, hbase, htile', hdata⟩ := hr
          have hlen : q'.len = 2 * q.len := by
            rw [htile'.len, htile.len, Nat.pow_succ, Nat.mul_comm]
          have hlong := hext.len
          have hpos := hp.pos
          -- the entry catches up with the block
          have hext' : ∀ k, Extends m p
              { m with next := 0, size := k, order := m'.order + 1 } q' :=
            fun k => ⟨hbase.trans hext.base, by omega,
              by rw [htile'.kind, ← htile.kind, hext.kind], rfl, rfl,
              fun x hx => (hdata x ⟨by have := hx.1; rw [hext.base]; omega, by
                have := hx.2
                rw [hext.base]
                omega⟩).trans (hext.data x hx)⟩
          have hseat : ∀ k, Seat cfg
              { m with next := 0, size := k, order := m'.order + 1 } q' :=
            fun k => .block hne htile'
          dsimp only
          rw [← hbase]
          refine (bigMapReplace_runs (by omega)).andThen fun _ s'' r hr => ?_
          obtain ⟨-, rfl⟩ := hr
          split
          · next hfits =>
            refine (bigMapReplace_runs (by omega)).andThen
              fun _ s₂ r hr => Runs.ret ?_
            obtain ⟨-, rfl⟩ := hr
            refine ⟨q', _, rfl, hext' newSize, (hext' newSize).big hp
              (hseat newSize) ?_, Or.inr ⟨?_, rfl⟩⟩
            · rw [htile'.len]
              exact hnew.trans hfits
            · rw [hbase, hext.base]
          · have hroom := hp.room
            have hnext := ih (s := s'') (hext' m.size)
              ((hext' m.size).big hp (hseat m.size) (by simp only; omega)) rfl
            rw [← hext.base, ← hbase] at hnext
            exact hnext

end Growing

-- ======================================================= big allocations

section BigAllocations

variable {l : Live} {p q : Part} {m m' : BigAllocMeta}

theorem Holding.ptr_eq (h : Holding cfg l (p, some m))
    (hal : l.align = none) : l.ptr = l.raw ∧ l.ptr = p.base + headerSize
      ∧ p.kind ≠ .direct true := by
  have hbig : Big cfg m p := h.allocated
  rcases h.aim with ⟨-, hptr, hk⟩ | ⟨a, ha, -⟩
  · exact ⟨hptr, hptr.trans (h.raw.trans hbig.payload_eq), hk⟩
  · rw [hal] at ha
    cases ha

/-- The pointer to an allocation that was extended in place. -/
theorem Extends.holding (hext : Extends m p m' q) (hq : Big cfg m' q)
    (h : Holding cfg l (p, some m)) (hal : l.align = none)
    (hsize : m.size ≤ m'.size) (hnew : newSize ≤ m'.size) :
    Holding cfg ⟨l.ptr, l.raw, newSize, none⟩ (q, some m') := by
  obtain ⟨hraw, hptr, hk⟩ := h.ptr_eq hal
  have hpos := h.pos
  simp only [capacity] at hpos
  refine ⟨hq, ?_, ?_, ?_, Or.inl ⟨rfl, hraw, ?_⟩⟩
  · rw [hq.payload_eq, hext.base, ← hptr]
    exact hraw.symm
  · simp only [capacity]
    omega
  · simp only [capacity]
    omega
  · rw [hext.kind]
    exact hk

theorem Extends.bytes (hext : Extends m p m' q) (hp : Big cfg m p)
    (hptr : l.ptr = l.raw) (hbase : l.ptr = p.base + headerSize) :
    SameBytes (l.usable (p, some m)) l.ptr l.ptr (p, some m)
      (q, some m') := by
  intro i hi
  have hroom := hp.room
  simp only [Live.usable, capacity] at hi
  exact hext.data _ ⟨by omega, by omega⟩

/-- Both ways to grow in place end alike: with the block where it is, or
with a move. -/
theorem grewBig_runs (hs : Secrets cfg) (hP : TagFree cfg P) (fuel tid : Nat)
    (hgt : m.size < newSize) (h : Holding cfg l (p, some m))
    (hal : l.align = none) (k : Option Nat → HeapM (Except RSMallocError Nat))
    (hsome : ∀ new, k (some new) = return .ok new) (hnone : k none = do
      let new ← rsAlloc cfg fuel tid newSize false
      moveTo cfg l.ptr new (min m.size newSize)) :
    ∀ o s r, GrewBig cfg m p newSize o r → Runs E P (HInv cfg) (k o)
      (fun o _ r => ∃ q, o = .ok q
        ∧ (Realloced cfg l newSize (p, some m) q q r
          ∨ Overrun cfg l newSize (p, some m) q r)) s r := by
  have hbig : Big cfg m p := h.allocated
  obtain ⟨hraw, hptr, -⟩ := h.ptr_eq hal
  rintro o s r ⟨q, m', rfl, hext, hq, ⟨rfl, hsize⟩ | ⟨rfl, hsize⟩⟩
  · have hroom := h.room
    simp only [capacity] at hroom
    have hheld : StillHeld cfg l (p, some m) (q, some m') := by
      refine ⟨?_, hsize, hext.bytes hbig hraw hptr⟩
      have hold : l.size ≤ m'.size := by omega
      have hkeep := hext.holding hq h hal hsize.ge hold
      rw [← hal] at hkeep
      exact hkeep
    rw [hnone, ← hsize]
    exact (allocMove_runs hs hP fuel tid newSize hheld.holding hal
      hraw).mono fun _ _ _ => Exists.imp fun _ => And.imp_right fun hr =>
        Or.inl (hr.of_held hheld)
  · rw [hsome]
    refine Runs.ret ⟨l.ptr, by rw [hptr], Or.inl (.done ?_ ?_ ?_)⟩
    · simp only [hptr, headerSize]
      omega
    · have hkeep := hext.holding hq h hal (by omega) hsize.ge
      rw [← hal, ← hraw] at hkeep
      exact hkeep
    · exact fun i hi => hext.bytes hbig hraw hptr i
        (hi.trans_le (Nat.min_le_left ..))

/-- `big_realloc`. -/
theorem bigRealloc_runs (hs : Secrets cfg)
    (hP : TagFree cfg P) (fuel tid newSize : Nat)
    (h : Holding cfg l (p, some m)) (hal : l.align = none) :
    Runs E P (HInv cfg) (bigRealloc cfg fuel tid l.ptr newSize)
      (fun o _ r => ∃ q, o = .ok q
        ∧ (Realloced cfg l newSize (p, some m) q q r
          ∨ Overrun cfg l newSize (p, some m) q r)) s {(p, some m)} := by
  have hbig : Big cfg m p := h.allocated
  obtain ⟨hraw, hptr, hkind⟩ := h.ptr_eq hal
  refine Runs.inv fun f _ hI => ?_
  have hne : l.ptr ≠ 0 := by
    rw [hptr]
    simp only [headerSize]
    omega
  have hlt := hbig.size_lt hI
  unfold bigRealloc
  refine Runs.readThen ?_
  rw [show s.bigMap l.ptr = some m by rw [hptr]; exact hI.entry_eq hbig.pos]
  dsimp only
  split
  · next hle =>
    have hkeep : Holding cfg ⟨l.ptr, l.raw, newSize, l.align⟩ (p, some m) :=
      h.resize (by rw [hraw]; exact Nat.add_le_add_left hle _)
    rw [← hraw] at hkeep
    exact Runs.ret ⟨l.ptr, rfl, Or.inl (.done hne hkeep fun _ _ => rfl)⟩
  next hgt =>
  rw [Nat.not_le] at hgt
  split
  · exact (allocMove_runs hs hP fuel tid newSize h hal hraw).mono
      fun _ _ _ => Exists.imp fun _ => And.imp_right Or.inl
  split
  · exact Runs.ret ⟨0, rfl, Or.inl (.kept 0 (.refl h))⟩
  next total htotal =>
  obtain ⟨hfit, rfl⟩ : newSize + headerSize < 2 ^ 64
      ∧ total = newSize + headerSize := by
    unfold checkedAdd at htotal
    split at htotal <;> cases htotal
    exact ⟨by assumption, rfl⟩
  have hmod : (m.size + headerSize) % 2 ^ 64 = m.size + headerSize :=
    Nat.mod_eq_of_lt (by omega)
  by_cases hblock : m.buddyRegion = 0
  · have hdir : p.kind = .direct false := by
      rcases hbig.seat with ⟨hn, -⟩ | ⟨-, hk, -⟩
      · exact absurd hblock hn
      · cases hm : m.aligned with
        | true => exact absurd (hm ▸ hk) hkind
        | false => exact hm ▸ hk
    have hlen : p.len = estimateAndAlign2mb cfg (m.size + headerSize) := by
      rcases hbig.seat with ⟨hn, -⟩ | ⟨-, -, hlen⟩
      · exact absurd hblock hn
      · exact hlen
    simp only [hblock, ne_eq, not_true_eq_false, decide_false,
      Bool.false_eq_true, false_and, if_false, hmod, ← hlen]
    rw [hptr, Nat.add_sub_cancel]
    exact (remapBig_runs hbig hblock hdir hgt hfit).andThen
      (grewBig_runs hs hP fuel tid hgt h hal _ (fun _ => rfl)
        (by rw [hptr]))
  · have htile : IsTile (.tile m.buddyRegion) m.order p := by
      rcases hbig.seat with ⟨-, htile⟩ | ⟨hz, -⟩
      · exact htile
      · exact absurd hz hblock
    simp only [ne_eq, hblock, not_false_eq_true, decide_true, true_and,
      if_true]
    split
    · next hfits =>
      rw [hptr]
      refine (bigMapReplace_runs hbig.pos).andThen fun _ s' r hr =>
        Runs.ret ?_
      obtain ⟨-, rfl⟩ := hr
      rw [← hptr]
      by_cases hwrap : Wraps cfg (newSize + headerSize)
      · exact ⟨l.ptr, rfl, Or.inr (.mk hblock hgt hfit hwrap)⟩
      · have hext : Extends m p { m with next := 0, size := newSize } p :=
          ⟨rfl, le_rfl, rfl, rfl, rfl, fun _ _ => rfl⟩
        have hnew : newSize + headerSize ≤ p.len := by
          rw [htile.len]
          exact (estimate_of_not_wraps hfit hwrap).1.trans hfits
        have hq := hext.big hbig (.block hblock htile) hnew
        have hkeep := hext.holding hq h hal hgt.le le_rfl
        rw [← hal, ← hraw] at hkeep
        exact ⟨l.ptr, rfl, Or.inl (.done hne hkeep fun _ _ => rfl)⟩
    · next hsmall =>
      have hwrap : ¬ Wraps cfg (newSize + headerSize) := by
        intro hwrap
        rw [estimate_of_wraps hfit hwrap] at hsmall
        exact hsmall (Nat.zero_le _)
      have hloop := growLoop_runs (E := E) (P := P) (s := s) hbig hblock
        (estimate_of_not_wraps hfit hwrap).1 (Buddy.maxOrder - m.order)
        ⟨rfl, le_rfl, rfl, rfl, rfl, fun _ _ => rfl⟩ hbig rfl
      rw [hptr, Nat.add_sub_cancel]
      exact hloop.andThen (grewBig_runs hs hP fuel tid hgt h hal _
        (fun _ => rfl) (by rw [hptr]))

end BigAllocations

-- ===================================================== small allocations

section SmallAllocations

variable {l : Live} {p : Part} {c : Nat}

/-- `small_realloc`. -/
theorem smallRealloc_runs (hs : Secrets cfg)
    (hP : TagFree cfg P) (fuel tid newSize : Nat)
    (h : Holding cfg l (p, none)) (hal : l.align = none) :
    Runs E P (HInv cfg) (smallRealloc cfg fuel tid l.ptr newSize)
      (fun o _ r => ∃ q, o = .ok q
        ∧ Realloced cfg l newSize (p, none) q q r) s {(p, none)} := by
  obtain ⟨c, hmark⟩ := h.allocated
  obtain ⟨hptr, hkind⟩ : l.ptr = l.raw ∧ p.kind ≠ .direct true := by
    rcases h.aim with ⟨-, hptr, hk⟩ | ⟨a, ha, -⟩
    · exact ⟨hptr, hk⟩
    · rw [hal] at ha
      cases ha
  have hpay : l.ptr = header p + headerSize := hptr.trans h.raw
  have hne : l.ptr ≠ 0 := by
    rw [hpay]
    simp only [headerSize]
    omega
  have hcap : capacity (p, none) = sizeClass c := by
    rw [capacity, hmark.cls]
  have huse : l.usable (p, none) = sizeClass c := by
    rw [Live.usable, hptr, Nat.add_sub_cancel_left, hcap]
  have hmove : ∀ s, Runs E P (HInv cfg)
      (do
        let new ← rsAlloc cfg fuel tid newSize false
        moveTo cfg l.ptr new (min (sizeClass c) newSize))
      (fun o _ r => ∃ q, o = .ok q
        ∧ Realloced cfg l newSize (p, none) q q r) s {(p, none)} := by
    intro s
    rw [← hcap]
    exact allocMove_runs hs hP fuel tid newSize h hal hptr
  refine Runs.inv fun f _ hI => ?_
  have hcls : Header.cls s.mem (l.ptr - headerSize) = c := by
    rw [hpay, Nat.add_sub_cancel, ← hmark.cls]
    exact h.allocated.load_eq hI (Nat.le_add_right ..)
      (by simp only [headerSize]; omega)
  unfold smallRealloc
  refine Runs.readThen ?_
  rw [hcls]
  dsimp only
  split
  · next hle =>
    have hkeep : Holding cfg ⟨l.ptr, l.raw, newSize, l.align⟩ (p, none) :=
      h.resize (by rw [hptr, hcap]; exact Nat.add_le_add_left hle _)
    rw [← hptr] at hkeep
    exact Runs.ret ⟨l.ptr, rfl, .done hne hkeep fun _ _ => rfl⟩
  next hgt =>
  rw [Nat.not_le] at hgt
  split
  · exact hmove s
  next c' hc' =>
  obtain ⟨hlt', hfits⟩ := matchSizeClass_spec hc'
  split
  · next heq =>
    subst heq
    exact absurd hfits (Nat.not_le.2 hgt)
  rw [hpay, Nat.add_sub_cancel]
  refine Runs.andThen (S := fun grown _ r => ∃ A', r = bare A'
    ∧ Slab.Regrown cfg c c' cfg.magic p grown A') ?_ fun grown s' r hr => ?_
  · split
    · next hone =>
      rw [← bare_singleton]
      refine (onSlab_runs (Slab.growInplace_safe fuel hmark hone.1 hlt' hone.2
        (hgt.trans_le hfits)) (fun q hq => ?_)
        fun grown A' hA' q hq => ?_).mono fun grown s' r hr => hr.2
      · rw [Multiset.mem_singleton.1 hq]
        exact hmark.isBlock
      · rcases hA' with ⟨-, rfl⟩ | ⟨-, q', rfl, -, hmark', -⟩
        · rw [Multiset.mem_singleton.1 hq]
          exact hmark.isBlock
        · rw [Multiset.mem_singleton.1 hq]
          exact hmark'.isBlock
    · exact Runs.ret ⟨{p}, bare_singleton.symm, Or.inl ⟨rfl, rfl⟩⟩
  obtain ⟨A', rfl, ⟨rfl, rfl⟩ | ⟨rfl, q, rfl, hhead, hmark', hdata⟩⟩ := hr
  · rw [if_neg Bool.false_ne_true, bare_singleton, ← hpay]
    exact hmove s'
  · rw [if_pos rfl, bare_singleton, ← hpay]
    have hsize := (blockSize_eq hmark.lt).1
    have hcap' : capacity (q, none) = sizeClass c' := by
      rw [capacity, hmark'.cls]
    refine Runs.ret ⟨l.ptr, rfl, .done hne ⟨⟨c', hmark'⟩, ?_, ?_, ?_,
      Or.inl ⟨hal, rfl, ?_⟩⟩ fun i hi => ?_⟩
    · rw [payload, hhead]
      exact hpay
    · rw [hcap']
      exact Nat.add_le_add_left hfits _
    · rw [hcap']
      simp only
      omega
    · intro hk
      have hb := hmark'.isBlock
      rw [hk] at hb
      cases hb
    · rw [huse] at hi
      have hi' := hi.trans_le (Nat.min_le_left ..)
      simp only [headerSize] at hpay hsize
      exact hdata _ (by omega) (by omega)

end SmallAllocations

-- ============================================================ rs_realloc

section Reallocation

variable {l : Live} {x : Part × Option BigAllocMeta}

/-- An alignment that the address has divides the one that is
observed. -/
theorem dvd_observedAlignment {a k : Nat} (hpos : 0 < a) (hlt : a < 2 ^ 64)
    (hdvd : 2 ^ k ∣ a) : 2 ^ k ∣ observedAlignment a := by
  have hne : BitVec.ofNat 64 a ≠ 0 := by
    intro hz
    have hnat := congrArg BitVec.toNat hz
    rw [BitVec.toNat_ofNat, Nat.mod_eq_of_lt hlt] at hnat
    exact Nat.ne_of_gt hpos hnat
  obtain ⟨ht, hset, -⟩ := Slab.trailingZeros_spec hne
  refine Nat.pow_dvd_pow 2 (Nat.le_of_not_lt fun hk => ?_)
  rw [BitVec.getLsbD_ofNat, decide_eq_true ht, Bool.true_and] at hset
  obtain ⟨d, rfl⟩ := hdvd
  rw [Nat.testBit_two_pow_mul, decide_eq_false (Nat.not_le.2 hk)] at hset
  cases hset

/-- What is aligned as an address was observed to be has the alignment
of that address. -/
theorem Holding.realigned {a b ptr new raw size : Nat} {p : Part}
    (h : Holding cfg ⟨new, raw, size, some (max (observedAlignment ptr) 8)⟩ x)
    (ht : Tagged cfg a ptr b p) (hpos : 0 < ptr) (hlt : ptr < 2 ^ 64) :
    Holding cfg ⟨new, raw, size, some a⟩ x := by
  refine ⟨h.allocated, h.raw, h.room, h.pos, Or.inr ⟨a, rfl, ?_⟩⟩
  rcases h.aim with ⟨hnone, -⟩ | ⟨b, hb, ht'⟩
  · cases hnone
  · cases hb
    refine ⟨ht.valid, ht'.behind, ?_, ht'.tag, ht'.origin, ht'.whole⟩
    obtain ⟨h8, k, rfl⟩ := ht.valid
    refine dvd_trans ?_ ht'.align
    have hobs := dvd_observedAlignment hpos hlt ht.align
    have hge : 2 ^ k ≤ observedAlignment ptr :=
      Nat.le_of_dvd (Nat.two_pow_pos _) hobs
    rwa [Nat.max_eq_left (h8.trans hge)]

/-- `rs_realloc` of a live pointer. -/
theorem rsRealloc_runs (hs : Secrets cfg)
    (hP : TagFree cfg P) (fuel tid newSize : Nat)
    (hnew : 0 < newSize) (h : Holding cfg l x) :
    Runs E P (HInv cfg) (rsRealloc cfg fuel tid l.ptr newSize)
      (fun o _ r => ∃ q raw, o = .ok (q, raw)
        ∧ (Realloced cfg l newSize x q raw r
          ∨ Overrun cfg l newSize x q r)) s {x} := by
  refine Runs.inv fun f hPs hI => ?_
  obtain ⟨hlow, hhigh, hle⟩ := h.bounds hI
  have hne : l.ptr ≠ 0 := by omega
  unfold rsRealloc
  rw [if_neg hne, if_neg (Nat.ne_of_gt hnew)]
  refine Runs.readThen ?_
  rw [h.owned hI]
  refine Runs.readThen ?_
  rw [h.original hI hs (hP s _ hPs hI)]
  dsimp only
  rcases h.aim with ⟨hal, hptr, -⟩ | ⟨a, ha, ht⟩
  · rw [if_neg (not_not.2 hptr.symm), ← hptr]
    refine Runs.readThen ?_
    have hmagic := h.allocated.magic_eq hI
    have hhead : l.ptr - headerSize = header x.1 := by
      rw [hptr, h.raw, payload, Nat.add_sub_cancel]
    rw [hhead, hmagic]
    refine Runs.andThen (S := fun o _ r => ∃ q, o = .ok q
      ∧ (Realloced cfg l newSize x q q r ∨ Overrun cfg l newSize x q r)) ?_
      fun o s' r hr => ?_
    · obtain ⟨p, e⟩ := x
      cases e with
      | none =>
          have hno : cfg.magic % 2 ^ 16 ≠ cfg.bigMagic := by
            rw [Nat.mod_eq_of_lt hs.magic]
            exact hs.magic_big
          simp only [Option.isSome_none, Bool.false_eq_true, if_false, hno]
          exact (smallRealloc_runs hs hP fuel tid newSize h hal).mono
            fun _ _ _ => Exists.imp fun _ => And.imp_right Or.inl
      | some m =>
          simp only [Option.isSome_some, if_true, Nat.mod_eq_of_lt hs.big]
          exact bigRealloc_runs hs hP fuel tid newSize h hal
    · obtain ⟨q, rfl, hr⟩ := hr
      exact Runs.ret ⟨q, q, rfl, hr⟩
  · have hbehind := ht.behind
    simp only [tagSize] at hbehind
    rw [if_pos (by omega)]
    refine Runs.readThen ?_
    rw [h.usable hI hs (hP s _ hPs hI)]
    dsimp only
    split
    · next hfits =>
      refine Runs.ret ⟨l.ptr, l.raw, rfl, Or.inl (.done hne
        (h.resize ?_) fun _ _ => rfl)⟩
      have hpos := h.pos
      omega
    · next hgt =>
      rw [← zero_add ({x} : Res)]
      refine (memalignInner_runs hs fuel tid (observedAlignment l.ptr)
        newSize).seq fun o s' r hr => ?_
      obtain ⟨new, raw⟩ := o
      rcases hr with ⟨ho, rfl⟩ | ⟨hnz, y, rfl, hy⟩
      · cases ho
        dsimp only
        rw [moveTo, if_pos rfl, zero_add]
        exact Runs.ret ⟨0, 0, rfl, Or.inl (.kept 0 (.refl h))⟩
      · have hroom := hy.room
        have hpos := h.pos
        simp only at hroom hnz
        rw [add_comm ({y} : Res)]
        dsimp only
        refine (moveTo_runs hs hP h hy (n := min (l.raw + capacity x - l.ptr)
          newSize) (by omega) (by simp only; omega)).andThen fun o s'' r hr => ?_
        obtain ⟨rfl, z, rfl, hz, hsame⟩ := hr
        exact Runs.ret ⟨new, raw, rfl, Or.inl (.done hnz
          (ha ▸ hz.realigned ht (by omega) (by omega)) hsame)⟩

end Reallocation

end RsMalloc.Heap
