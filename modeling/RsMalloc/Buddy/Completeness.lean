/-
What the search for a block finds.

# Holes

An aligned block of the region is vacant when it meets no live block,
and a hole when no larger vacant block lies around it. In a run in which
`free`s are apart, whenever no operation is in flight, the free lists
are a list of the holes, each under its order (`RegionAt.hole_iff`): a
vacant block lies inside a block on a list because buddies that are
both free have been joined.

# The search

`alloc_from_region` goes through the orders from the requested one up
and takes the head of the first list that has one. So it fails only
when no block of the requested order is vacant, and otherwise takes the
lower end of a smallest hole that is large enough. `try_grow_inplace`
looks at one bit; it finds the upper half exactly when that half is
vacant, because a hole around it would reach into the live block.
-/
import RsMalloc.Buddy.Coalescing

namespace RsMalloc.Buddy

open Conc

-- ================================================================ holes

/-- An aligned block of the region that meets no live block. -/
structure Vacant (g : Geometry) (live : Multiset Block) (c : Block) :
    Prop where
  aligned : AlignedAt g c.order c.addr
  top : c.addr + 2 ^ c.order ≤ g.base + g.totalSize
  clear : ∀ b ∈ live, ∀ x, b.Has x → ¬ c.Has x

/-- A vacant block with no larger one around it. -/
structure Hole (g : Geometry) (live : Multiset Block) (c : Block) :
    Prop where
  vacant : Vacant g live c
  widest : ∀ d, Vacant g live d → d.order ≤ maxOrder → d.Has c.addr →
    d.order ≤ c.order

section Holes

variable {κ : Type} [DecidableEq κ] {g : Geometry} {tile : κ}
  {birth a k : Nat} {s : RegionState} {lists : Nat → List (Piece κ)}
  {R : Multiset (Piece κ)} {p q : Piece κ}

/-- The tiling of the region, the lists apart from what is owned. -/
theorem RegionAt.tiling_lists (h : RegionAt g tile birth s lists R) :
    Tiling g.base g.totalSize minOrder maxOrder
      (freeBlocks (fun k => (lists k).map Piece.base) + tiles tile R) := by
  have ht := h.tiling
  rwa [tiles_add, h.tiles_free] at ht

omit [DecidableEq κ] in
theorem mem_freeBlocks_lists (hk : k ∈ orders) (hp : p ∈ lists k) :
    (⟨p.base, k⟩ : Block)
      ∈ freeBlocks fun k => (lists k).map Piece.base :=
  mem_freeBlocks.2 ⟨hk, List.mem_map.2 ⟨p, hp, rfl⟩⟩

section Covers

variable (h : RegionAt g tile birth s lists R)
include h

/-- A block on a list is vacant. -/
theorem RegionAt.vacant (hk : k ∈ orders) (hp : p ∈ lists k) :
    Vacant g (tiles tile R) ⟨p.base, k⟩ where
  aligned := (h.placed_free hk hp).alignedAt
  top := (h.placed_free hk hp).top
  clear b hb x hx hpx := by
    have hle : {(⟨p.base, k⟩ : Block)} + {b}
        ≤ freeBlocks (fun k => (lists k).map Piece.base) + tiles tile R :=
      add_le_add (Multiset.singleton_le.2 (mem_freeBlocks_lists hk hp))
        (Multiset.singleton_le.2 hb)
    have hapart := h.tiling_lists.apart _ _ hle
    unfold Block.Has at hx hpx
    simp only at hapart hpx
    omega

/-- Blocks on the lists of two orders are apart. -/
theorem RegionAt.lists_apart {j : Nat} (hj : j ∈ orders) (hk : k ∈ orders)
    (hjk : j ≠ k) (hp : p ∈ lists j) (hq : q ∈ lists k) :
    p.base + 2 ^ j ≤ q.base ∨ q.base + 2 ^ k ≤ p.base := by
  refine h.tiling_lists.apart ⟨p.base, j⟩ ⟨q.base, k⟩ ?_
  refine le_trans ?_ (Multiset.le_add_right _ _)
  rw [Multiset.singleton_add]
  refine (Multiset.cons_le_of_notMem ?_).2
    ⟨mem_freeBlocks_lists hj hp,
      Multiset.singleton_le.2 (mem_freeBlocks_lists hk hq)⟩
  rw [Multiset.mem_singleton, Block.mk.injEq]
  exact fun heq => hjk heq.2

/-- A vacant block lies in a block on a list. -/
theorem RegionAt.around (hg : g.Ok) (hapart : BuddiesApart g s)
    (hk : k ∈ orders) (hv : Vacant g (tiles tile R) ⟨a, k⟩) :
    ∃ j ∈ orders, k ≤ j ∧ ∃ p ∈ lists j,
      p.base ≤ a ∧ a + 2 ^ k ≤ p.base + 2 ^ j :=
  h.inside hg hapart hk hv.aligned hv.top hv.clear

/-- The lists hold the holes. -/
theorem RegionAt.hole_iff (hg : g.Ok) (hapart : BuddiesApart g s)
    (hk : k ∈ orders) :
    Hole g (tiles tile R) ⟨a, k⟩ ↔ ∃ p ∈ lists k, p.base = a := by
  have hpos := Nat.two_pow_pos k
  constructor
  · intro hh
    obtain ⟨j, hj, hkj, p, hp, hlow, hup⟩ := h.around hg hapart hk hh.vacant
    have hjk : j ≤ k := hh.widest ⟨p.base, j⟩ (h.vacant hj hp)
      (Finset.mem_Icc.1 hj).2 ⟨hlow, by simp only; omega⟩
    obtain rfl : j = k := le_antisymm hjk hkj
    exact ⟨p, hp, by omega⟩
  · rintro ⟨p, hp, rfl⟩
    refine ⟨h.vacant hk hp, fun d hd hmax hhas => ?_⟩
    -- a larger vacant block would lie in a block on another list
    by_contra hlt
    rw [Nat.not_le] at hlt
    have hd' : d.order ∈ orders := Finset.mem_Icc.2
      ⟨(Finset.mem_Icc.1 hk).1.trans hlt.le, hmax⟩
    obtain ⟨j, hj, hdj, q, hq, hlow, hup⟩ := h.around hg hapart hd' hd
    have hne : k ≠ j := (hlt.trans_le hdj).ne
    have hboth := h.lists_apart hk hj hne hp hq
    unfold Block.Has at hhas
    simp only at hhas
    omega

end Covers

end Holes

-- =========================================================== the search

section Search

variable {g : Geometry} {s : RegionState} {mask : BitVec 8}

/-- The split loop returns. -/
theorem splitDown_total (addr life trim r n : Nat) :
    (splitDown g addr life trim r n).Total := by
  induction n with
  | zero => trivial
  | succ n ih =>
      exact (Prog.Total.atomic _).bind fun _ =>
        (Prog.Total.atomic _).bind fun _ => ih

/-- Alone, the search takes the head of the first list that has one. -/
theorem allocScan_exec (r : Nat) (env : Nat → Unit) {n o : Nat}
    (hmask : ∀ k, o ≤ k → k < o + n →
      (mask &&& orderBit k = 0 ↔ s.free (orderIndex k) = 0)) :
    ((∀ k, o ≤ k → k < o + n → s.free (orderIndex k) = 0)
      ∧ (allocScan g r mask n o).exec env s = some (none, s))
    ∨ ∃ k trim s', o ≤ k ∧ k < o + n ∧ s.free (orderIndex k) ≠ 0
      ∧ (∀ j, o ≤ j → j < k → s.free (orderIndex j) = 0)
      ∧ (allocScan g r mask n o).exec env s
        = some (some (s.free (orderIndex k), trim), s') := by
  induction n generalizing o with
  | zero => exact Or.inl ⟨fun k h₁ h₂ => by omega, rfl⟩
  | succ n ih =>
      unfold allocScan
      by_cases hhead : s.free (orderIndex o) = 0
      · rw [if_pos ((hmask o le_rfl (by omega)).2 hhead)]
        have hnext : ∀ k, o ≤ k → k = o ∨ o + 1 ≤ k := by omega
        rcases @ih (o + 1) fun k h₁ h₂ => hmask k (by omega) (by omega) with
          ⟨hall, hrun⟩ | ⟨k, trim, s', h₁, h₂, hne, hleast, hrun⟩
        · refine Or.inl ⟨fun k h₁ h₂ => ?_, hrun⟩
          rcases hnext k h₁ with rfl | h
          · exact hhead
          · exact hall k h (by omega)
        · refine Or.inr ⟨k, trim, s', by omega, by omega, hne,
            fun j hj hjk => ?_, hrun⟩
          rcases hnext j hj with rfl | h
          · exact hhead
          · exact hleast j h hjk
      · rw [if_neg fun hbit => hhead ((hmask o le_rfl (by omega)).1 hbit)]
        have htake : takeHead g o s = (some (s.free (orderIndex o),
            FreeBlock.lifeTime s.mem (s.free (orderIndex o)),
            FreeBlock.trimState s.mem (s.free (orderIndex o))),
            removeFreeBlock g o (s.free (orderIndex o)) s) := if_neg hhead
        simp only [Prog.bind_eq, Prog.exec_atomic, htake]
        obtain ⟨_, env', s', hrun⟩ := (splitDown_total (g := g)
          (s.free (orderIndex o))
          (FreeBlock.lifeTime s.mem (s.free (orderIndex o)))
          (FreeBlock.trimState s.mem (s.free (orderIndex o))) r
          (o - r)).exec_bind (fun _ => Prog.ret (some
            (s.free (orderIndex o),
              FreeBlock.trimState s.mem (s.free (orderIndex o)))))
          (fun j => env (j + 1))
          (removeFreeBlock g o (s.free (orderIndex o)) s)
        exact Or.inr ⟨o, _, s', le_rfl, by omega, hhead,
          fun j h₁ h₂ => by omega, hrun⟩

/-- The bits that `alloc_from_region` loads say which lists have a
head. -/
theorem Masked.loaded (h : Masked s) {r k : Nat} (hk : k ∈ orders)
    (hrk : r ≤ k) :
    s.nonemptyMask &&& (BitVec.allOnes 8 <<< orderIndex r) &&& orderBit k
      = 0 ↔ s.free (orderIndex k) = 0 := by
  have hidx := orderIndex_lt hk
  have hle : orderIndex r ≤ orderIndex k := Nat.sub_le_sub_right hrk _
  have hbit := BitWord.and_bitMask_ne_zero
    (v := s.nonemptyMask &&& (BitVec.allOnes 8 <<< orderIndex r)) hidx
  rw [BitVec.getLsbD_and, BitVec.getLsbD_shiftLeft] at hbit
  have hones : (BitVec.allOnes 8).getLsbD (orderIndex k - orderIndex r)
      = true := by
    rw [BitVec.getLsbD_allOnes, decide_eq_true_iff]
    omega
  rw [hones] at hbit
  simp only [hidx, Nat.not_lt.2 hle, decide_true, decide_false,
    Bool.not_false, Bool.and_true] at hbit
  refine not_iff_not.1 (Iff.trans ?_ (h k hk))
  rw [← hbit, bne_iff_ne]
  rfl

/-- Alone, `alloc_from_region` takes the head of the first list from the
requested order up that has one. -/
theorem allocFromRegion_exec (hg : g.Ok) (h : Masked s) {r : Nat}
    (hr : r ∈ orders) (env : Nat → Unit) :
    ((∀ k ∈ orders, r ≤ k → s.free (orderIndex k) = 0)
      ∧ ∃ s', (allocFromRegion g r).exec env s = some (none, s'))
    ∨ ∃ k ∈ orders, ∃ trim s', r ≤ k ∧ s.free (orderIndex k) ≠ 0
      ∧ (∀ j ∈ orders, r ≤ j → j < k → s.free (orderIndex j) = 0)
      ∧ (allocFromRegion g r).exec env s
        = some (some (s.free (orderIndex k), trim), s') := by
  obtain ⟨hmin, hmax⟩ := Finset.mem_Icc.1 hr
  have horder := hg.order
  have hin : ∀ k, r ≤ k → k < r + (g.order + 1 - r) → k ∈ orders :=
    fun k h₁ h₂ => Finset.mem_Icc.2 ⟨by omega, by omega⟩
  unfold allocFromRegion
  rw [if_neg (by omega)]
  simp only [Prog.bind_eq, Prog.read, Prog.exec_atomic]
  split
  · next hzero =>
    refine Or.inl ⟨fun k hk hrk => (h.loaded hk hrk).1 ?_, s, rfl⟩
    rw [hzero]
    exact BitVec.zero_and
  · rcases allocScan_exec (g := g) (s := s) r (fun j => env (j + 1))
      fun k h₁ h₂ => h.loaded (hin k h₁ h₂) h₁ with
      ⟨hall, hrun⟩ | ⟨k, trim, s', h₁, h₂, hne, hleast, hrun⟩
    · refine Or.inl ⟨fun k hk hrk => hall k hrk ?_, s, hrun⟩
      have := (Finset.mem_Icc.1 hk).2
      omega
    · exact Or.inr ⟨k, hin k h₁ h₂, trim, s', h₁, hne,
        fun j _ h₁ h₂ => hleast j h₁ h₂, hrun⟩

end Search

-- ============================================== runs of one region

section Runs

variable {T : Type} [Fintype T] [DecidableEq T]
  {base size nodeId stamp : Nat} {m : Mem}
  {w : World T RegionState Unit Call (Option (Nat × Nat)) Block}

/-- In every run in which no two `free`s overlap in one block of the
largest order, when no operation is in flight `alloc_from_region` fails
only if no aligned block of the requested order is clear of the live
blocks; otherwise it takes the lower end of a hole, and no hole of the
requested order or more is smaller. -/
theorem alloc_best_fit (base size nodeId stamp : Nat) (m : Mem)
    (hpos : 0 < base)
    (hfits : base + normalizeRegionSize size ≤ 2 ^ 64)
    (hw : ReachIn (api T (newGeometry base size nodeId))
      (fun w => FreesApart (newGeometry base size nodeId) w.thread)
      (start T base size nodeId stamp m) w)
    (hidle : ∀ t, w.thread t = none) (env : Nat → Unit) {r : Nat}
    (hr : r ∈ orders) :
    ((∃ s', (allocFromRegion (newGeometry base size nodeId) r).exec env
          w.state = some (none, s'))
      ∧ ∀ a, ¬ Vacant (newGeometry base size nodeId) w.live ⟨a, r⟩)
    ∨ ∃ a trim s' k,
      (allocFromRegion (newGeometry base size nodeId) r).exec env w.state
        = some (some (a, trim), s')
      ∧ r ≤ k ∧ Hole (newGeometry base size nodeId) w.live ⟨a, k⟩
      ∧ ∀ c ∈ orders, r ≤ c → ∀ b,
        Hole (newGeometry base size nodeId) w.live ⟨b, c⟩ → k ≤ c := by
  have hg := newGeometry_ok nodeId hpos hfits
  have hapart := buddiesApart_of_reach hpos hfits hw
  obtain ⟨L, lists, hlive, hat⟩ := regionAt_of_reach hpos hfits hw.reach hidle
  have hempty : ∀ k ∈ orders, w.state.free (orderIndex k) = 0 →
      ∀ p, p ∉ lists k :=
    fun k hk hzero p hp => hat.head_ne hg hk hp hzero
  rw [← hlive]
  rcases allocFromRegion_exec hg hat.mask hr env with
    ⟨hall, hrun⟩ | ⟨k, hk, trim, s', hrk, hne, hleast, hrun⟩
  · refine Or.inl ⟨hrun, fun a hv => ?_⟩
    obtain ⟨j, hj, hrj, p, hp, -⟩ := hat.around hg hapart hr hv
    exact hempty j hj (hall j hj hrj) p hp
  · refine Or.inr ⟨_, trim, s', k, hrun, hrk, ?_, fun c hc hrc b hb => ?_⟩
    · refine (hat.hole_iff hg hapart hk).2 ?_
      obtain ⟨e, hseg⟩ := (hat.order k hk).seg
      cases hl : lists k with
      | nil =>
          rw [hl] at hseg
          exact absurd hseg.1 hne
      | cons p l =>
          rw [hl] at hseg
          exact ⟨p, List.mem_cons_self .., hseg.1⟩
    · obtain ⟨p, hp, -⟩ := (hat.hole_iff hg hapart hc).1 hb
      by_contra hlt
      exact hempty c hc (hleast c hc hrc (by omega)) p hp

end Runs

/-- One thread takes half of a region. -/
theorem half_taken :
    ∃ w : World (Fin 1) RegionState Unit Call (Option (Nat × Nat)) Block,
      ReachIn (api (Fin 1) (newGeometry 4096 0 0))
        (fun w => FreesApart (newGeometry 4096 0 0) w.thread)
        (start (Fin 1) 4096 0 0 0 fun _ => 0) w
      ∧ (∀ t, w.thread t = none) ∧ w.live = {⟨4096, 25⟩} := by
  have h₀ : Reach (api (Fin 1) (newGeometry 4096 0 0))
      (start (Fin 1) 4096 0 0 0 fun _ => 0) _ := .init
  have h₁ := h₀.exec 0 (.alloc 25 (by decide)) (fun _ => ()) rfl
    (Multiset.zero_le _) rfl
  refine ⟨_, h₁.reachIn fun w => .of_subsingleton w.thread,
    fun _ => rfl, ?_⟩
  decide

/-- Half of a region is taken: a block of half its size is there, the
whole is not. -/
theorem alloc_best_fit_half :
    ∃ w : World (Fin 1) RegionState Unit Call (Option (Nat × Nat)) Block,
      w.live = {⟨4096, 25⟩}
      ∧ ∀ r ∈ orders,
        ((∃ s', (allocFromRegion (newGeometry 4096 0 0) r).exec
              (fun _ => ()) w.state = some (none, s'))
          ∧ ∀ a, ¬ Vacant (newGeometry 4096 0 0) w.live ⟨a, r⟩)
        ∨ ∃ a trim s' k,
          (allocFromRegion (newGeometry 4096 0 0) r).exec (fun _ => ())
              w.state = some (some (a, trim), s')
          ∧ r ≤ k ∧ Hole (newGeometry 4096 0 0) w.live ⟨a, k⟩
          ∧ ∀ c ∈ orders, r ≤ c → ∀ b,
            Hole (newGeometry 4096 0 0) w.live ⟨b, c⟩ → k ≤ c := by
  obtain ⟨w, hw, hidle, hlive⟩ := half_taken
  exact ⟨w, hlive, fun r hr => alloc_best_fit 4096 0 0 0 (fun _ => 0)
    (by decide) (by decide) hw hidle (fun _ => ()) hr⟩

-- ==================================================== growth in place

section Grow

variable {κ : Type} [DecidableEq κ] {g : Geometry} {tile : κ}
  {birth a k : Nat} {s : RegionState} {lists : Nat → List (Piece κ)}
  {R : Multiset (Piece κ)} {b : Block}

/-- The upper half next to a live block is vacant when it is on the
list: a larger block around it would reach into the live one. -/
theorem RegionAt.upper_vacant (h : RegionAt g tile birth s lists R)
    (hg : g.Ok) (hapart : BuddiesApart g s) (hb : b ∈ tiles tile R)
    (hhalf : 2 ^ (b.order + 1) ∣ b.addr - g.base) :
    Vacant g (tiles tile R) ⟨b.addr + 2 ^ b.order, b.order⟩
      ↔ b.addr + 2 ^ b.order ∈ (lists b.order).map Piece.base := by
  have hmem : b ∈ freeBlocks (fun k => (lists k).map Piece.base)
      + tiles tile R := Multiset.mem_add.2 (Or.inr hb)
  have horder : b.order ∈ orders :=
    Finset.mem_Icc.2 (h.tiling_lists.order b hmem)
  constructor
  · intro hv
    obtain ⟨j, hj, hle, p, hp, hlow, hup⟩ := h.around hg hapart horder hv
    obtain hlt | rfl := Nat.lt_or_eq_of_le hle
    · -- the double block around both halves is inside `p` as well
      have hpow : 2 ^ (b.order + 1) = 2 ^ b.order + 2 ^ b.order := by ring
      have hpos := Nat.two_pow_pos b.order
      have hdouble : g.base ≤ b.addr
          ∧ 2 ^ (b.order + 1) ∣ b.addr - g.base :=
        ⟨(h.tiling_lists.aligned b hmem).1, hhalf⟩
      have hin := Tiling.sub_of_meet
        (b := ⟨b.addr, b.order + 1⟩) (c := ⟨p.base, j⟩)
        (x := b.addr + 2 ^ b.order) hdouble
        (h.vacant hj hp).aligned hlt ⟨by simp only; omega,
          by simp only; omega⟩ ⟨hlow, by simp only; omega⟩
      simp only at hin
      refine absurd ?_ ((h.vacant hj hp).clear b hb b.addr b.has_addr)
      exact ⟨hin.1, by simp only; omega⟩
    · exact List.mem_map.2 ⟨p, hp, by omega⟩
  · intro hl
    obtain ⟨p, hp, hbase⟩ := List.mem_map.1 hl
    rw [← hbase]
    exact h.vacant horder hp

/-- Alone, `try_grow_inplace` on a live block takes the upper half
exactly when there is one and it is vacant. -/
theorem RegionAt.grow_exec (h : RegionAt g tile birth s lists R)
    (hg : g.Ok) (hapart : BuddiesApart g s) (hb : b ∈ tiles tile R)
    (env : Nat → Unit) :
    ∃ o s', (tryGrowInplace g b.addr b.order).exec env s = some (o, s')
      ∧ (o = none ∨ o = some (b.addr, b.order + 1))
      ∧ (o ≠ none ↔ b.order < maxOrder
        ∧ 2 ^ (b.order + 1) ∣ b.addr - g.base
        ∧ Vacant g (tiles tile R) ⟨b.addr + 2 ^ b.order, b.order⟩) := by
  obtain ⟨p, hp, rfl⟩ := Multiset.mem_map.1 hb
  obtain ⟨hp, hkind⟩ := Multiset.mem_filter.1 hp
  have hplaced : Placed g (key p).order p :=
    h.placed (Multiset.mem_add.2 (Or.inr hp)) hkind (h.len p hp hkind)
  have hal := hplaced.alignedAt
  unfold tryGrowInplace
  rw [hg.order]
  by_cases hmax : maxOrder ≤ (key p).order
  · rw [if_pos hmax]
    refine ⟨none, s, rfl, Or.inl rfl, ?_⟩
    exact iff_of_false (fun hne => hne rfl)
      fun hlt => Nat.not_lt.2 hmax hlt.1
  rw [if_neg hmax]
  have hin : inRegion g (key p).addr = true := hplaced.inRegion
  rw [if_neg (by rw [hin]; decide)]
  have hpos := Nat.two_pow_pos (key p).order
  rcases buddyOf_cases hal.1 hal.2 with ⟨hup, hhalf⟩ | ⟨hdown, hlow, hodd⟩
  · -- a lower half: the bit of the upper half decides
    have hbuddy : buddy g (key p).addr (key p).order
        = (key p).addr + 2 ^ (key p).order := hup
    have hin' := buddy_inRegion hg hplaced (Nat.lt_of_not_le hmax)
    have hvac := h.upper_vacant hg hapart hb hhalf
    have hbits := (h.orderAgrees hg hplaced.order).bits _ hal.buddy.1
      hal.buddy.2
    have hbase : p.base = (key p).addr := rfl
    rw [hbase, hbuddy] at hin' hbits
    have hgrown : blockIsFree g ((key p).addr + 2 ^ (key p).order)
          (key p).order s = true
        ↔ (key p).order < maxOrder
          ∧ 2 ^ ((key p).order + 1) ∣ (key p).addr - g.base
          ∧ Vacant g (tiles tile R)
            ⟨(key p).addr + 2 ^ (key p).order, (key p).order⟩ := by
      rw [hbits, ← hvac]
      exact ⟨fun hv => ⟨Nat.lt_of_not_le hmax, hhalf, hv⟩, fun hv => hv.2.2⟩
    simp only [hbuddy]
    rw [if_neg (by omega), if_neg (by rw [hin']; decide)]
    simp only [Prog.bind_eq, Prog.exec_atomic, takeBuddy, ← hgrown]
    cases blockIsFree g ((key p).addr + 2 ^ (key p).order) (key p).order s
    · exact ⟨none, _, rfl, Or.inl rfl, by simp⟩
    · exact ⟨_, _, rfl, Or.inr rfl, by simp⟩
  · -- an upper half: its buddy is below it
    have hbuddy : buddy g (key p).addr (key p).order + 2 ^ (key p).order
        = (key p).addr := hdown
    simp only
    rw [if_pos (by omega)]
    refine ⟨none, s, rfl, Or.inl rfl, ?_⟩
    refine iff_of_false (fun hne => hne rfl) fun hgrow => ?_
    have hself := hal.buddy_lower hgrow.2.1
    have hbase : p.base = (key p).addr := rfl
    rw [hbase] at hself
    omega

end Grow

/-- In every run in which no two `free`s overlap in one block of the
largest order, when no operation is in flight `try_grow_inplace` doubles
a live block exactly when the block is a lower half below the largest
order and its upper half is clear of the live blocks. -/
theorem grow_exact {T : Type} [Fintype T] [DecidableEq T]
    (base size nodeId stamp : Nat) (m : Mem) (hpos : 0 < base)
    (hfits : base + normalizeRegionSize size ≤ 2 ^ 64)
    {w : World T RegionState Unit Call (Option (Nat × Nat)) Block}
    (hw : ReachIn (api T (newGeometry base size nodeId))
      (fun w => FreesApart (newGeometry base size nodeId) w.thread)
      (start T base size nodeId stamp m) w)
    (hidle : ∀ t, w.thread t = none) (env : Nat → Unit) {b : Block}
    (hb : b ∈ w.live) :
    ∃ o s', (tryGrowInplace (newGeometry base size nodeId) b.addr
          b.order).exec env w.state = some (o, s')
      ∧ (o = none ∨ o = some (b.addr, b.order + 1))
      ∧ (o ≠ none ↔ b.order < maxOrder
        ∧ 2 ^ (b.order + 1) ∣ b.addr - base
        ∧ Vacant (newGeometry base size nodeId) w.live
          ⟨b.addr + 2 ^ b.order, b.order⟩) := by
  have hg := newGeometry_ok nodeId hpos hfits
  obtain ⟨L, lists, hlive, hat⟩ := regionAt_of_reach hpos hfits hw.reach hidle
  rw [← hlive] at hb ⊢
  exact hat.grow_exec hg (buddiesApart_of_reach hpos hfits hw) hb env

/-- Half of a region is taken and can grow to the whole. -/
theorem grow_exact_half :
    ∃ (w : World (Fin 1) RegionState Unit Call (Option (Nat × Nat)) Block)
      (o : Option (Nat × Nat)) (s' : RegionState), w.live = {⟨4096, 25⟩}
      ∧ (tryGrowInplace (newGeometry 4096 0 0) 4096 25).exec (fun _ => ())
        w.state = some (o, s')
      ∧ (o = none ∨ o = some (4096, 26))
      ∧ (o ≠ none ↔ 25 < maxOrder ∧ 2 ^ 26 ∣ 4096 - 4096
        ∧ Vacant (newGeometry 4096 0 0) w.live ⟨4096 + 2 ^ 25, 25⟩) := by
  obtain ⟨w, hw, hidle, hlive⟩ := half_taken
  obtain ⟨o, s', hgrow⟩ := grow_exact 4096 0 0 0 (fun _ => 0) (by decide)
    (by decide) hw hidle (fun _ => ()) (b := ⟨4096, 25⟩)
    (by rw [hlive]; exact Multiset.mem_singleton_self _)
  exact ⟨w, o, s', hlive, hgrow⟩

end RsMalloc.Buddy
