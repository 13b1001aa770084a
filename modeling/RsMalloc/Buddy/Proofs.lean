/-
Every interleaving of buddy operations keeps the region tiled.

# The argument

`RegionInv` relates the region's state to the pieces that others own.
The operations are proved one at a time as owners of their block
(`Conc.Safe`): the split loop of `alloc_from_region` cuts the block it
took and gives the upper half back; the loop of `free` joins its block
with the buddy it took off a list; `try_grow_inplace` does so once. No
proof mentions another thread: what a step may rely on is the invariant
next to an arbitrary frame, and the frame is left as it is.

The last section puts the operations in a pool of threads.
-/
import RsMalloc.Buddy.FreeLists

namespace RsMalloc.Buddy

open Conc

variable {κ : Type}

-- =========================================================== node writes

namespace FreeBlock

variable {m : Mem} {a life trim x : Nat}

theorem lifeTime_new : lifeTime (new m a life trim) a = life % 2 ^ 32 := by
  unfold lifeTime new setTrimState
  rw [Mem.load_store_of_disjoint (Or.inl (by omega))]
  exact Mem.load_store_mod

theorem trimState_new : trimState (new m a life trim) a = trim % 2 ^ 8 :=
  Mem.load_store_mod

theorem new_of_ge (h : a + 21 ≤ x) : new m a life trim x = m x := by
  unfold new setTrimState setLifeTime setPrev setNext
  rw [Mem.store_of_ge (by omega), Mem.store_of_ge (by omega),
    Mem.store_of_ge (by omega), Mem.store_of_ge (by omega)]

end FreeBlock

/-- The piece with a fresh node. -/
def withNode (p : Piece κ) (life trim : Nat) : Piece κ :=
  { p with data := FreeBlock.new p.data p.base life trim }

variable {m : Mem}

theorem holds_withNode {p : Piece κ} {F : Multiset (Piece κ)}
    (h : Holds m ({p} + F)) (hlen : 21 ≤ p.len) (life trim : Nat) :
    Holds (FreeBlock.new m p.base life trim) ({withNode p life trim} + F) := by
  have h₁ := h.store (a := p.base) (w := 8) (v := 0) ⟨le_rfl, by omega⟩
  have h₂ := h₁.store (a := p.base + 8) (w := 8) (v := 0)
    ⟨Nat.le_add_right .., by simp only [Piece.store_base, Piece.store_len]; omega⟩
  have h₃ := h₂.store (a := p.base + 16) (w := 4) (v := life)
    ⟨Nat.le_add_right .., by simp only [Piece.store_base, Piece.store_len]; omega⟩
  exact h₃.store (a := p.base + 20) (w := 1) (v := trim)
    ⟨Nat.le_add_right .., by simp only [Piece.store_base, Piece.store_len]; omega⟩

-- ============================================ what owners do to their part

/-- A block of order `k` of the region. -/
structure IsTile (tile : κ) (k : Nat) (p : Piece κ) : Prop where
  kind : p.kind = tile
  len : p.len = 2 ^ k

section Tiles

variable {tile : κ} {k : Nat} {p : Piece κ}

theorem IsTile.key (h : IsTile tile k p) : key p = ⟨p.base, k⟩ :=
  key_of_len h.len

/-- The two halves of a block. -/
def lowerHalf (k : Nat) (p : Piece κ) : Piece κ :=
  ⟨p.kind, p.base, 2 ^ k, p.data⟩

/-- See `lowerHalf`. -/
def upperHalf (k : Nat) (p : Piece κ) : Piece κ :=
  ⟨p.kind, p.base + 2 ^ k, 2 ^ k, p.data⟩

theorem IsTile.lower (h : IsTile tile (k + 1) p) :
    IsTile tile k (lowerHalf k p) := ⟨h.kind, rfl⟩

theorem IsTile.upper (h : IsTile tile (k + 1) p) :
    IsTile tile k (upperHalf k p) := ⟨h.kind, rfl⟩

theorem len_of_isTile (h : IsTile tile k p) :
    p.len = 2 ^ (key p).order := by
  rw [h.key]
  exact h.len

/-- The lower half of an untouched block is untouched. -/
theorem Untouched.lower {birth : Nat} (h : Untouched birth p)
    (hp : IsTile tile (k + 1) p) : Untouched birth (lowerHalf k p) where
  life := h.life
  state := h.state
  zero x h₁ h₂ := by
    refine h.zero x h₁ (h₂.trans_le ?_)
    rw [hp.len]
    exact Nat.add_le_add_left
      (Nat.pow_le_pow_right (by decide) (Nat.le_succ k)) _

/-- So is the upper half once it has its node. -/
theorem Untouched.upper {birth : Nat} (h : Untouched birth p)
    (hp : IsTile tile (k + 1) p) (hbirth : birth < 2 ^ 32) :
    Untouched birth
      (withNode (upperHalf k p) birth trimNotAllocated) where
  life := by
    refine FreeBlock.lifeTime_new.trans ?_
    exact Nat.mod_eq_of_lt hbirth
  state := FreeBlock.trimState_new
  zero x h₁ h₂ := by
    have hpow : 2 ^ (k + 1) = 2 ^ k + 2 ^ k := by ring
    have hlen := hp.len
    have hge : p.base + 2 ^ k + 21 ≤ x := h₁
    have hlt : x < p.base + 2 ^ k + 2 ^ k := h₂
    refine (FreeBlock.new_of_ge hge).trans (h.zero x ?_ ?_)
    · omega
    · omega

/-- The two halves of a block are buddies. -/
theorem buddy_upperHalf {g : Geometry} (hp : Placed g (k + 1) p) :
    buddy g (upperHalf k p).base k = (lowerHalf k p).base := by
  obtain ⟨i, hi⟩ := hp.at_
  have hpow : 2 ^ (k + 1) = 2 ^ k * 2 := Nat.pow_succ ..
  have hoff : p.base + 2 ^ k - g.base = 2 ^ k * (2 * i + 1) := by
    rw [hi, hpow, Nat.add_assoc, Nat.add_sub_cancel_left]
    ring
  have hodd : (2 * i + 1) ^^^ 1 = 2 * i := by
    rw [Nat.xor_one_of_odd ⟨i, rfl⟩, Nat.add_sub_cancel]
  show g.base + ((p.base + 2 ^ k - g.base) ^^^ (1 <<< k)) = p.base
  rw [hoff, mul_xor_two_pow, hodd, hi, hpow]
  ring

/-- The buddy of a block below the largest order is in the region. -/
theorem buddy_inRegion {g : Geometry} (hg : g.Ok) (hp : Placed g k p)
    (hk : k + 1 ≤ maxOrder) : inRegion g (buddy g p.base k) = true := by
  obtain ⟨i, hi⟩ := hp.at_
  obtain ⟨d, hd⟩ := (Nat.pow_dvd_pow 2 hk).trans hg.whole
  have htop := hp.top
  have hbase : g.base ≤ p.base := by omega
  have hal : 2 ^ k ∣ p.base - g.base := ⟨i, by
    rw [hi, Nat.add_sub_cancel_left, Nat.mul_comm]⟩
  have hpow : 2 ^ (k + 1) = 2 ^ k + 2 ^ k := by ring
  have hpos := Nat.two_pow_pos k
  unfold inRegion
  rw [Bool.and_eq_true, decide_eq_true_iff, decide_eq_true_iff]
  rcases buddyOf_cases hbase hal with ⟨hb, c, hc⟩ | ⟨hb, hlow, -⟩
  · have hbud : buddy g p.base k = p.base + 2 ^ k := hb
    rw [hbud]
    refine ⟨by omega, ?_⟩
    -- both ends are multiples of twice the size
    have hlt : c < d := by
      apply Nat.lt_of_mul_lt_mul_left (a := 2 ^ (k + 1))
      rw [← hc, ← hd]
      omega
    have hle : 2 ^ (k + 1) * (c + 1) ≤ 2 ^ (k + 1) * d :=
      Nat.mul_le_mul_left _ hlt
    rw [Nat.mul_add, ← hc, ← hd] at hle
    omega
  · have hbud : buddy g p.base k + 2 ^ k = p.base := hb
    have hlow' : g.base ≤ buddy g p.base k := hlow
    exact ⟨hlow', by omega⟩

/-- The lower half of a placed block is placed. -/
theorem Placed.lower {g : Geometry} (h : Placed g (k + 1) p) (hk : minOrder ≤ k) :
    Placed g k (lowerHalf k p) := by
  obtain ⟨i, hi⟩ := h.at_
  have hpow : 2 ^ (k + 1) = 2 ^ k * 2 := Nat.pow_succ ..
  have htop := h.top
  have horder := (Finset.mem_Icc.1 h.order).2
  refine ⟨Finset.mem_Icc.2 ⟨hk, by omega⟩, ⟨2 * i, ?_⟩, ?_⟩
  · show p.base = _
    rw [hi, hpow]
    ring
  · show p.base + 2 ^ k ≤ _
    omega

theorem cover_eq_count {T : Multiset (Piece κ)}
    (h : ∀ p ∈ T, p.len = 2 ^ (key p).order) (x : Nat) :
    cover T x = Block.count (T.map key) x := by
  rw [cover, Block.count, Multiset.countP_map, Multiset.countP_eq_card_filter]
  congr 1
  refine Multiset.filter_congr fun p hp => ?_
  rw [Piece.Has, Block.Has, ← h p hp]
  rfl

end Tiles

section Owners

variable [DecidableEq κ] {g : Geometry} {tile : κ} {birth k : Nat}
  {s s' : RegionState} {lists : Nat → List (Piece κ)} {p q : Piece κ}
  {A A' R : Multiset (Piece κ)}

theorem RegionAt.holds_front (h : RegionAt g tile birth s lists (A + R)) :
    Holds s.mem (A + (freePieces lists + R)) := by
  have hh := h.holds
  rwa [add_left_comm] at hh

theorem RegionAt.tiling_front
    (h : RegionAt g tile birth s lists (A + R)) :
    Tiling g.base g.totalSize minOrder maxOrder
      (tiles tile A + tiles tile (freePieces lists + R)) := by
  have ht := h.tiling
  rwa [add_left_comm, tiles_add] at ht

/-- The owner of `A` turns it into `A'`; the lists are not touched. -/
theorem RegionAt.exchange (h : RegionAt g tile birth s lists (A + R))
    (hfree : s'.free = s.free) (hbits : s'.freeBitmap = s.freeBitmap)
    (hmask : s'.nonemptyMask = s.nonemptyMask)
    (hacc : s'.accesses = s.accesses)
    (hholds : Holds s'.mem (A' + (freePieces lists + R)))
    (hlen : ∀ p ∈ A', p.kind = tile → p.len = 2 ^ (key p).order)
    (htiling : Tiling g.base g.totalSize minOrder maxOrder
      (tiles tile A' + tiles tile (freePieces lists + R))) :
    RegionAt g tile birth s' lists (A' + R) where
  holds := by
    rw [add_left_comm]
    exact hholds
  order k hk := by
    rw [hfree, hbits]
    exact h.order k hk
  len p hp := (Multiset.mem_add.1 hp).elim (hlen p) fun hR =>
    h.len p (Multiset.mem_add.2 (Or.inr hR))
  tiling := by
    rw [add_left_comm, tiles_add]
    exact htiling
  mask k hk := by
    rw [hmask, hfree]
    exact h.mask k hk
  words a ha := h.words a (hacc ▸ ha)

/-- A block that is owned is placed. -/
theorem RegionInv.placed (h : RegionInv g tile birth s ({p} + R))
    (hp : IsTile tile k p) : Placed g k p := by
  obtain ⟨lists, hr⟩ := h
  exact hr.placed (by simp) hp.kind hp.len

/-- Writing a node into an owned block. -/
theorem node_inv (h : RegionInv g tile birth s ({p} + R))
    (hp : IsTile tile k p) (life trim : Nat) :
    RegionInv g tile birth
      { s with mem := FreeBlock.new s.mem p.base life trim }
      ({withNode p life trim} + R) := by
  have hroom := (h.placed hp).room
  obtain ⟨lists, hr⟩ := h
  refine ⟨lists, hr.exchange rfl rfl rfl rfl ?_ ?_ ?_⟩
  · exact holds_withNode hr.holds_front (by rw [hp.len]; omega) life trim
  · intro q hq _
    rw [Multiset.mem_singleton] at hq
    subst hq
    exact hr.len p (by simp) hp.kind
  · have ht := hr.tiling_front
    rw [tiles_singleton hp.kind] at ht
    rw [tiles_singleton (p := withNode p life trim) hp.kind]
    exact ht

/-- Halving an owned block. -/
theorem cut_inv (h : RegionInv g tile birth s ({p} + R))
    (hp : IsTile tile (k + 1) p) (hk : minOrder ≤ k) :
    RegionInv g tile birth s
      ({upperHalf k p} + ({lowerHalf k p} + R)) := by
  obtain ⟨lists, hr⟩ := h
  rw [← add_assoc, add_comm {upperHalf k p}]
  refine ⟨lists, hr.exchange rfl rfl rfl rfl ?_ ?_ ?_⟩
  · have hlen : p.len = 2 ^ k + 2 ^ k := by
      rw [hp.len]
      ring
    have hcut := hr.holds_front.cut hlen
    rw [← add_assoc] at hcut
    exact hcut
  · intro q hq _
    rcases mem_singleton_pair.1 hq with rfl | rfl
    · exact len_of_isTile hp.lower
    · exact len_of_isTile hp.upper
  · have ht := hr.tiling_front
    rw [tiles_singleton hp.kind, hp.key] at ht
    rw [tiles_add, tiles_singleton hp.lower.kind,
      tiles_singleton hp.upper.kind, hp.lower.key, hp.upper.key]
    exact ht.split hk

/-- Joining an owned block with its buddy. -/
theorem join_inv (h : RegionInv g tile birth s ({q} + ({p} + R)))
    (hp : IsTile tile k p) (hq : IsTile tile k q)
    (hbud : q.base = buddy g p.base k) (hk : k + 1 ≤ maxOrder) :
    RegionInv g tile birth s
      ({⟨tile, min p.base q.base, 2 ^ (k + 1), s.mem⟩} + R) := by
  obtain ⟨lists, hr⟩ := h
  rw [← add_assoc, add_comm ({q} : Multiset (Piece κ))] at hr
  have hmem : key p ∈ tiles tile {p}
      + tiles tile {q} + tiles tile (freePieces lists + R) := by
    rw [tiles_singleton hp.kind]
    simp
  have ht := hr.tiling_front
  rw [tiles_add] at ht
  obtain ⟨hbase, hal⟩ := ht.aligned _ hmem
  rw [hp.key] at hbase hal
  have hpow : 2 ^ (k + 1) = 2 ^ k + 2 ^ k := by ring
  have hjoined : IsTile tile (k + 1)
      (⟨tile, min p.base q.base, 2 ^ (k + 1), s.mem⟩ : Piece κ) :=
    ⟨rfl, rfl⟩
  refine ⟨lists, hr.exchange rfl rfl rfl rfl ?_ ?_ ?_⟩
  · have hh := hr.holds_front
    rw [add_assoc] at hh
    rcases buddyOf_cases hbase hal with ⟨hb, -⟩ | ⟨hb, -, -⟩
    · have hqb : q.base = p.base + p.len := by
        rw [hbud, hp.len]
        exact hb
      have hj := hh.join hqb tile
      rw [hp.len, hq.len, ← hpow] at hj
      rwa [Nat.min_eq_left (by omega)]
    · have hpb : p.base = q.base + q.len := by
        rw [hbud, hq.len]
        exact hb.symm
      rw [add_left_comm] at hh
      have hj := hh.join hpb tile
      rw [hp.len, hq.len, ← hpow] at hj
      rwa [Nat.min_eq_right (by omega)]
  · intro r hr' _
    rw [Multiset.mem_singleton] at hr'
    subst hr'
    exact len_of_isTile hjoined
  · rw [tiles_singleton hp.kind, tiles_singleton hq.kind, hp.key, hq.key,
      hbud] at ht
    rw [tiles_singleton hjoined.kind, hjoined.key, hbud]
    exact ht.merge hk

/-- Reading the bit of a block in the region. -/
theorem seen_inv {addr : Nat} (hg : g.Ok) (h : RegionInv g tile birth s R)
    (hk : k ∈ orders) (hin : inRegion g addr = true) :
    RegionInv g tile birth
      { s with accesses := bitmapAccess g addr k :: s.accesses } R := by
  obtain ⟨lists, hr⟩ := h
  exact ⟨lists, hr.holds, hr.order, hr.len, hr.tiling, hr.mask,
    hr.words.cons hg hk hin rfl⟩

/-- The bit of the buddy is set exactly when the buddy is on the list. -/
theorem RegionAt.buddy_listed (h : RegionAt g tile birth s lists R)
    (hplaced : Placed g k p)
    (hfree : blockIsFree g (buddy g p.base k) k s = true) :
    ∃ q ∈ lists k, q.base = buddy g p.base k := by
  obtain ⟨q, hq, hbase⟩ := ((h.order k hplaced.order).bits _).1 hfree
  refine ⟨q, hq, ?_⟩
  obtain ⟨i, hi⟩ := hplaced.at_
  rw [hbase, bitmapLocation, buddy, hi, Nat.add_sub_cancel_left,
    Nat.add_sub_cancel_left, Nat.mul_comm i, mul_xor_two_pow,
    Nat.shiftRight_eq_div_pow, Nat.mul_div_cancel_left _ (Nat.two_pow_pos k),
    Nat.mul_comm]

end Owners

-- ============================================================== ledgers

/-- The number of the block of the largest order around an address. -/
def topOf (g : Geometry) (a : Nat) : Nat := (a - g.base) / 2 ^ maxOrder

theorem topOf_buddy {g : Geometry} {a k : Nat} (hk : k < maxOrder) :
    topOf g (buddy g a k) = topOf g a := by
  have hpow : 1 <<< k < 2 ^ maxOrder := by
    rw [Nat.one_shiftLeft]
    exact Nat.pow_lt_pow_right (by decide) hk
  unfold topOf buddy
  rw [Nat.add_sub_cancel_left, Nat.xor_div_two_pow, Nat.div_eq_of_lt hpow,
    Nat.xor_zero]

/-- How resources stand for blocks. `own p` is a block that its owner
may do anything with, `last p` is the block that a `free` is about to
push, `turn i` is what a `free` in the `i`-th block of the largest order
holds besides its block. -/
structure Ledger (κ τ : Type) where
  pieces : Multiset τ →+ Multiset (Piece κ)
  own : Piece κ → τ
  last : Piece κ → τ
  turn : Nat → Multiset τ
  pieces_own : ∀ p, pieces {own p} = {p}
  pieces_last : ∀ p, pieces {last p} = {p}
  pieces_turn : ∀ i, pieces (turn i) = 0

namespace Ledger

variable {τ : Type} {v : Ledger κ τ} {p : Piece κ} {R : Multiset τ}

theorem pieces_own_add : v.pieces ({v.own p} + R) = {p} + v.pieces R := by
  rw [map_add, v.pieces_own]

theorem pieces_last_add : v.pieces ({v.last p} + R) = {p} + v.pieces R := by
  rw [map_add, v.pieces_last]

theorem pieces_turn_add {i : Nat} :
    v.pieces (v.turn i + R) = v.pieces R := by
  rw [map_add, v.pieces_turn, zero_add]

variable [DecidableEq κ]

/-- Resources that are the blocks themselves. -/
def plain (κ : Type) : Ledger κ (Piece κ) where
  pieces := AddMonoidHom.id _
  own := id
  last := id
  turn _ := 0
  pieces_own _ := rfl
  pieces_last _ := rfl
  pieces_turn _ := rfl

/-- The invariant of a region, with a condition `X` on the memory, the
bitmaps and what is owned. -/
def Inv (v : Ledger κ τ) (X : Mem → (Nat → Bitmap) → Multiset τ → Prop)
    (g : Geometry) (tile : κ) (birth : Nat) (s : RegionState)
    (R : Multiset τ) : Prop :=
  RegionInv g tile birth s (v.pieces R) ∧ X s.mem s.freeBitmap R

/-- The condition survives what the operations do. -/
structure Keeps (v : Ledger κ τ)
    (X : Mem → (Nat → Bitmap) → Multiset τ → Prop) (g : Geometry)
    (tile : κ) (birth : Nat) : Prop where
  owned : ∀ m b p R, X m b ({v.own p} + R) ↔ X m b R
  renewed : ∀ m b p p' R, p'.base = p.base → p'.len = p.len →
    X m b ({v.last p} + R) → X m b ({v.last p'} + R)
  noded : ∀ s k p W R life trim, RegionInv g tile birth s ({p} + W) →
    IsTile tile k p → X s.mem s.freeBitmap R →
    X (FreeBlock.new s.mem p.base life trim) s.freeBitmap R
  removed : ∀ s k p lists R, RegionAt g tile birth s lists (v.pieces R) →
    k ∈ orders → p ∈ lists k → X s.mem s.freeBitmap R →
    X (removeFreeBlock g k p.base s).mem
      (removeFreeBlock g k p.base s).freeBitmap R
  /-- The upper half is pushed by the owner of the lower one. -/
  halved : ∀ s k p q R, RegionInv g tile birth s ({p} + ({q} + v.pieces R)) →
    IsTile tile k p → IsTile tile k q → k < maxOrder →
    buddy g p.base k = q.base → X s.mem s.freeBitmap R →
    X (pushFreeBlock g k p.base s).mem
      (pushFreeBlock g k p.base s).freeBitmap R
  /-- Coalescing ends at a block whose buddy is not free. -/
  settled : ∀ s k p R, IsTile tile k p →
    (k < maxOrder → blockIsFree g (buddy g p.base k) k s = false) →
    X s.mem s.freeBitmap (v.turn (topOf g p.base) + R) →
    X s.mem s.freeBitmap ({v.last p} + R)
  pushed : ∀ s k p R, RegionInv g tile birth s ({p} + v.pieces R) →
    IsTile tile k p → X s.mem s.freeBitmap ({v.last p} + R) →
    X (pushFreeBlock g k p.base s).mem
      (pushFreeBlock g k p.base s).freeBitmap (v.turn (topOf g p.base) + R)

theorem plain_keeps {g : Geometry} {tile : κ} {b : Nat} :
    (plain κ).Keeps (fun _ _ _ => True) g tile b where
  owned _ _ _ _ := Iff.rfl
  renewed _ _ _ _ _ _ _ _ := trivial
  noded _ _ _ _ _ _ _ _ _ _ := trivial
  removed _ _ _ _ _ _ _ _ _ := trivial
  halved _ _ _ _ _ _ _ _ _ _ _ := trivial
  settled _ _ _ _ _ _ _ := trivial
  pushed _ _ _ _ _ _ _ := trivial

section Inv

variable {X : Mem → (Nat → Bitmap) → Multiset τ → Prop} {g : Geometry}
  {tile : κ} {birth k : Nat} {s s' : RegionState} {p' : Piece κ}

/-- A block that is owned is one of the region's blocks. -/
theorem Inv.region (h : v.Inv X g tile birth s ({v.own p} + R)) :
    RegionInv g tile birth s ({p} + v.pieces R) := by
  have hr := h.1
  rwa [pieces_own_add] at hr

/-- The locked section of `free` and `try_grow_inplace`: the buddy is
joined to the owned block, or it is not free and nothing happens. -/
theorem Inv.takeBuddy (hg : g.Ok) (hX : v.Keeps X g tile birth)
    (hI : v.Inv X g tile birth s ({v.own p} + R)) (hp : IsTile tile k p)
    (hk : k + 1 ≤ maxOrder) :
    match Buddy.takeBuddy g (buddy g p.base k) k s with
    | (true, s') => ∃ p', p'.base = min p.base (buddy g p.base k)
        ∧ IsTile tile (k + 1) p' ∧ Placed g (k + 1) p'
        ∧ (∀ x, p.Has x → p'.data x = p.data x)
        ∧ v.Inv X g tile birth s' ({v.own p'} + R)
    | (false, s') => blockIsFree g (buddy g p.base k) k s' = false
        ∧ v.Inv X g tile birth s' ({v.own p} + R) := by
  have hplaced := hI.region.placed hp
  have hseen := seen_inv hg hI.1 hplaced.order (buddy_inRegion hg hplaced hk)
  unfold Buddy.takeBuddy
  dsimp only
  cases hfree : blockIsFree g (buddy g p.base k) k s with
  | false =>
      rw [if_neg Bool.false_ne_true]
      exact ⟨hfree, hseen, hI.2⟩
  | true =>
      rw [if_pos rfl]
      dsimp only
      obtain ⟨lists, hr⟩ := hseen
      obtain ⟨q, hq, hbud⟩ := hr.buddy_listed hplaced hfree
      have hqtile : IsTile tile k q :=
        ⟨(hr.order k hplaced.order).kind q hq,
          (hr.order k hplaced.order).len q hq⟩
      have hinv := remove_inv hg hr hplaced.order hq
      have hx := hX.removed _ k q lists _ hr hplaced.order hq hI.2
      rw [pieces_own_add] at hinv
      rw [hbud] at hinv hx
      generalize removeFreeBlock g k (buddy g p.base k) _ = s' at hinv hx ⊢
      have hjoin := join_inv hinv hp hqtile hbud hk
      refine ⟨_, by rw [hbud], ⟨rfl, rfl⟩, hjoin.placed ⟨rfl, rfl⟩,
        fun x hx => ?_, ?_, (hX.owned _ _ _ _).2 ((hX.owned _ _ _ _).1 hx)⟩
      · obtain ⟨lists, hr⟩ := hinv
        exact hr.holds.agree p (by simp) x hx
      · rw [Ledger.pieces_own_add]
        exact hjoin

end Inv

end Ledger

-- ======================================================== the operations

section Operations

variable [DecidableEq κ] {τ : Type} {v : Ledger κ τ}
  {X : Mem → (Nat → Bitmap) → Multiset τ → Prop} {g : Geometry} {tile : κ}
  {birth k : Nat} {p : Piece κ}

/-- What a caller of `alloc_from_region` owns afterwards. -/
def Allocated (v : Ledger κ τ) (tile : κ) (birth k : Nat)
    (o : Option (Nat × Nat)) (r : Multiset τ) : Prop :=
  match o with
  | none => r = 0
  | some (addr, trim) => ∃ p, r = {v.own p} ∧ p.base = addr
      ∧ IsTile tile k p ∧ (trim = trimNotAllocated → Untouched birth p)

section Programs

variable (hg : g.Ok) (hX : v.Keeps X g tile birth)
include hg hX

/-- The locked section of the search takes the first block of a list. -/
theorem takeHead_safe (hk : k ∈ orders) :
    Safe (v.Inv X g tile birth)
      (Prog.atomic fun _ s => takeHead g k s : Prog RegionState Unit _)
      (fun o r => match o with
        | none => r = 0
        | some (addr, life, trim) => ∃ p, r = {v.own p} ∧ p.base = addr
            ∧ IsTile tile k p ∧ Placed g k p ∧ trim < 2 ^ 8
            ∧ (trim = trimNotAllocated → Untouched birth p ∧ life = birth))
      0 := by
  refine Safe.atomic fun _ s f hI => ?_
  rw [zero_add] at hI
  obtain ⟨⟨lists, hr⟩, hx⟩ := hI
  have hok := hr.order k hk
  obtain ⟨e, hseg⟩ := hok.seg
  unfold takeHead
  by_cases hhead : s.free (orderIndex k) = 0
  · rw [if_pos hhead]
    refine ⟨0, ?_, rfl⟩
    rw [zero_add]
    refine ⟨⟨lists, ?_, ?_, hr.len, hr.tiling, ?_, ?_⟩, ?_⟩
    · rw [markOrderEmptyIfNeeded_mem]
      exact hr.holds
    · intro j hj
      rw [markOrderEmptyIfNeeded_free, markOrderEmptyIfNeeded_freeBitmap]
      exact hr.order j hj
    · exact hr.mask.emptied hk rfl (fun _ _ => rfl) id
    · intro a ha
      rw [markOrderEmptyIfNeeded_accesses] at ha
      exact hr.words a ha
    · rw [markOrderEmptyIfNeeded_mem, markOrderEmptyIfNeeded_freeBitmap]
      exact hx
  · rw [if_neg hhead]
    cases hl : lists k with
    | nil =>
        rw [hl] at hseg
        exact absurd hseg.1 hhead
    | cons p l =>
        have hp : p ∈ lists k := hl ▸ List.mem_cons_self ..
        rw [hl] at hseg
        have hbase : p.base = s.free (orderIndex k) := hseg.1
        have hplaced := hr.placed_free hk hp
        have hroom := hplaced.room
        have hlen := hok.len p hp
        have hown : Holds s.mem ({p} + ((l : Multiset (Piece κ))
            + otherPieces lists k + v.pieces f)) := by
          have hh := hr.holds
          rw [freePieces_split lists hk, hl, ← Multiset.cons_coe,
            ← Multiset.singleton_add] at hh
          rwa [add_assoc, add_assoc, ← add_assoc (l : Multiset (Piece κ))]
            at hh
        have hlife : FreeBlock.lifeTime s.mem p.base
            = FreeBlock.lifeTime p.data p.base :=
          hown.load_eq ⟨by omega, by omega⟩
        have htrim : FreeBlock.trimState s.mem p.base
            = FreeBlock.trimState p.data p.base :=
          hown.load_eq ⟨by omega, by omega⟩
        rw [← hbase, htrim, hlife]
        dsimp only
        refine ⟨{v.own p}, ⟨?_, ?_⟩, p, rfl, rfl,
          ⟨hok.kind p hp, hlen⟩, hplaced, Mem.load_lt, fun hst => ?_⟩
        · rw [Ledger.pieces_own_add]
          exact remove_inv hg hr hk hp
        · exact (hX.owned _ _ _ _).2 (hX.removed s k p lists f hr hk hp hx)
        · have hun := hok.fresh p hp hst
          exact ⟨hun, hun.life⟩

/-- The split loop keeps the lower half and gives the upper one back. -/
theorem splitDown_safe {requested n life trim : Nat}
    (hreq : minOrder ≤ requested) (hp : IsTile tile (requested + n) p)
    (hplaced : Placed g (requested + n) p) (htrim : trim < 2 ^ 8)
    (hun : trim = trimNotAllocated → Untouched birth p ∧ life = birth) :
    Safe (v.Inv X g tile birth)
      (splitDown g p.base life trim requested n)
      (fun _ r => ∃ p', r = {v.own p'} ∧ p'.base = p.base
        ∧ IsTile tile requested p'
        ∧ (trim = trimNotAllocated → Untouched birth p')) {v.own p} := by
  induction n generalizing p with
  | zero => exact Safe.ret ⟨p, rfl, rfl, hp, fun h => (hun h).1⟩
  | succ n ih =>
      have hk : minOrder ≤ requested + n := Nat.le_add_right_of_le hreq
      have hmax := (Finset.mem_Icc.1 hplaced.order).2
      apply Safe.bind
      refine Safe.modify fun s f hI => ?_
      refine ⟨{v.own (withNode (upperHalf (requested + n) p) life trim)}
        + {v.own (lowerHalf (requested + n) p)}, ⟨?_, ?_⟩, ?_⟩
      · rw [add_assoc, Ledger.pieces_own_add, Ledger.pieces_own_add]
        exact node_inv (cut_inv hI.region hp hk) hp.upper life trim
      · rw [add_assoc, hX.owned, hX.owned]
        exact hX.noded s _ _ _ f life trim (cut_inv hI.region hp hk) hp.upper
          ((hX.owned _ _ _ _).1 hI.2)
      apply Safe.bind
      refine Safe.modify fun s f hI => ?_
      obtain ⟨hr, hx⟩ := hI
      rw [add_assoc, Ledger.pieces_own_add, Ledger.pieces_own_add] at hr
      rw [add_assoc, hX.owned, hX.owned] at hx
      refine ⟨{v.own (lowerHalf (requested + n) p)}, ⟨?_, ?_⟩, ?_⟩
      · rw [Ledger.pieces_own_add]
        refine push_inv hg hr hp.kind rfl fun hst => ?_
        have h0 : trim = trimNotAllocated := by
          rw [← Nat.mod_eq_of_lt htrim]
          exact FreeBlock.trimState_new.symm.trans hst
        obtain ⟨hup, rfl⟩ := hun h0
        subst h0
        refine hup.upper hp ?_
        rw [← hup.life]
        exact Mem.load_lt
      · refine (hX.owned _ _ _ _).2 ?_
        exact hX.halved s (requested + n) _ _ f hr
          ⟨hp.upper.kind, hp.upper.len⟩ hp.lower (by omega)
          (buddy_upperHalf hplaced) hx
      · refine ih hp.lower (hplaced.lower hk) fun h0 => ?_
        obtain ⟨hup, hlife⟩ := hun h0
        exact ⟨hup.lower hp, hlife⟩

/-- The search loop: nothing, or a block of the requested order. -/
theorem allocScan_safe {requested n : Nat} {mask : BitVec 8}
    (hreq : minOrder ≤ requested) (hk : requested ≤ k)
    (hn : k + n = maxOrder + 1) :
    Safe (v.Inv X g tile birth) (allocScan g requested mask n k)
      (Allocated v tile birth requested) 0 := by
  induction n generalizing k with
  | zero => exact Safe.ret rfl
  | succ n ih =>
      unfold allocScan
      split
      · exact ih (Nat.le_succ_of_le hk) (by omega)
      · have hmem : k ∈ orders :=
          Finset.mem_Icc.2 ⟨hreq.trans hk, by omega⟩
        apply Safe.bind
        refine (takeHead_safe hg hX hmem).mono fun o r ho => ?_
        cases o with
        | none =>
            have hr : r = 0 := ho
            subst hr
            exact ih (Nat.le_succ_of_le hk) (by omega)
        | some b =>
            obtain ⟨addr, life, trim⟩ := b
            obtain ⟨p, rfl, rfl, htile, hplaced, htrim, hun⟩ := ho
            rw [← Nat.add_sub_cancel' hk] at htile hplaced
            apply Safe.bind
            refine (splitDown_safe hg hX hreq htile hplaced htrim hun).mono
              ?_
            rintro _ _ ⟨p', rfl, hbase, htile', hun'⟩
            exact Safe.ret ⟨p', rfl, hbase, htile', hun'⟩

/-- `alloc_from_region`. -/
theorem allocFromRegion_safe (hk : minOrder ≤ k) :
    Safe (v.Inv X g tile birth) (allocFromRegion g k)
      (Allocated v tile birth k) 0 := by
  unfold allocFromRegion
  split
  · exact Safe.ret rfl
  · rename_i hle
    apply Safe.bind
    refine Safe.read fun s f _ => ?_
    split
    · exact Safe.ret rfl
    · refine allocScan_safe hg hX hk le_rfl ?_
      rw [hg.order] at hle ⊢
      omega

/-- What the coalescing loop leaves in the `i`-th block of the largest
order: that block, or one whose buddy was found busy. -/
def Coalesced (v : Ledger κ τ) (g : Geometry) (tile : κ) (i : Nat)
    (c : Nat × Nat) (r : Multiset τ) : Prop :=
  ∃ p', p'.base = c.1 ∧ IsTile tile c.2 p' ∧ topOf g p'.base = i
    ∧ (c.2 = maxOrder ∧ r = {v.own p'} + v.turn i ∨ r = {v.last p'})

/-- The coalescing loop. -/
theorem coalesce_safe {n : Nat} (hp : IsTile tile k p) (hplaced : Placed g k p)
    (hn : k + n = maxOrder) {i : Nat} (hi : topOf g p.base = i) :
    Safe (v.Inv X g tile birth) (coalesce g n p.base k)
      (Coalesced v g tile i) ({v.own p} + v.turn i) := by
  induction n generalizing k p with
  | zero => exact Safe.ret ⟨p, rfl, hp, hi, Or.inl ⟨hn, rfl⟩⟩
  | succ n ih =>
      have hk : k + 1 ≤ maxOrder := by omega
      unfold coalesce
      dsimp only
      rw [buddy_inRegion hg hplaced hk, Bool.not_true,
        if_neg Bool.false_ne_true]
      apply Safe.bind
      refine Safe.atomic fun _ s f hI => ?_
      rw [add_assoc] at hI
      have hout := hI.takeBuddy hg hX hp hk
      generalize takeBuddy g (buddy g p.base k) k s = out at hout ⊢
      obtain ⟨_ | _, s'⟩ := out
      · -- the buddy is busy: the block is the one to push
        obtain ⟨hfree, hI'⟩ := hout
        refine ⟨{v.last p}, ⟨?_, ?_⟩, ?_⟩
        · have hr := hI'.1
          rw [Ledger.pieces_own_add, Ledger.pieces_turn_add] at hr
          rw [Ledger.pieces_last_add]
          exact hr
        · refine hX.settled s' k p f hp (fun _ => hfree) ?_
          rw [hi]
          exact (hX.owned _ _ _ _).1 hI'.2
        · rw [if_neg Bool.false_ne_true]
          exact Safe.ret ⟨p, rfl, hp, hi, Or.inr rfl⟩
      · obtain ⟨p', hbase, htile, hplaced', -, hI'⟩ := hout
        refine ⟨{v.own p'} + v.turn i, ?_, ?_⟩
        · rw [add_assoc]
          exact hI'
        · rw [if_pos rfl, ← hbase]
          refine ih htile hplaced' (by omega) ?_
          rw [hbase]
          rcases min_choice p.base (buddy g p.base k) with h | h
          · rw [h, hi]
          · rw [h, topOf_buddy hk, hi]

/-- `free` gives the whole block back. -/
theorem free_safe (hp : IsTile tile k p) (hplaced : Placed g k p) :
    Safe (v.Inv X g tile birth) (free g p.base k)
      (fun _ r => r = v.turn (topOf g p.base))
      ({v.own p} + v.turn (topOf g p.base)) := by
  obtain ⟨hmin, hmax⟩ := Finset.mem_Icc.1 hplaced.order
  unfold free
  rw [if_neg (by omega), hplaced.inRegion, Bool.not_true,
    if_neg Bool.false_ne_true, if_neg (by rw [hg.order]; omega)]
  apply Safe.bind
  refine (coalesce_safe hg hX hp hplaced (by rw [hg.order]; omega) rfl).mono ?_
  rintro ⟨current, order⟩ r ⟨p', rfl, htile, htop, hr⟩
  rw [← htop] at hr ⊢
  dsimp only at htile hr ⊢
  apply Safe.bind
  refine Safe.read fun s f _ => ?_
  apply Safe.bind
  refine Safe.modify fun s' f' hI => ?_
  -- from here on the block is the one to push
  have hlast : v.Inv X g tile birth s' ({v.last p'} + f') := by
    rcases hr with ⟨rfl, rfl⟩ | rfl
    · rw [add_assoc] at hI
      refine ⟨?_, hX.settled s' maxOrder p' f' htile (by omega)
        ((hX.owned _ _ _ _).1 hI.2)⟩
      have hreg := hI.1
      rw [Ledger.pieces_own_add, Ledger.pieces_turn_add] at hreg
      rw [Ledger.pieces_last_add]
      exact hreg
    · exact hI
  obtain ⟨hreg, hx⟩ := hlast
  rw [Ledger.pieces_last_add] at hreg
  have hnode : IsTile tile order (withNode p' s.stamp trimAllocated) :=
    ⟨htile.kind, htile.len⟩
  refine ⟨{v.last (withNode p' s.stamp trimAllocated)}, ⟨?_, ?_⟩, ?_⟩
  · rw [Ledger.pieces_last_add]
    exact node_inv hreg htile s.stamp trimAllocated
  · exact hX.noded s' order p' _ _ _ _ hreg htile
      (hX.renewed _ _ p' _ f' rfl rfl hx)
  refine Safe.modify fun s'' f'' hI =>
    ⟨v.turn (topOf g p'.base), ⟨?_, ?_⟩, rfl⟩
  · have hreg' := hI.1
    rw [Ledger.pieces_last_add] at hreg'
    rw [Ledger.pieces_turn_add]
    -- the node says that the block has been handed out
    have hpush : RegionInv g tile birth (pushFreeBlock g order
        (withNode p' s.stamp trimAllocated).base s'') (v.pieces f'') :=
      push_inv hg hreg' hnode.kind hnode.len fun hst =>
        absurd (FreeBlock.trimState_new.symm.trans hst) (by decide)
    exact hpush
  · have hreg' := hI.1
    rw [Ledger.pieces_last_add] at hreg'
    exact hX.pushed s'' order (withNode p' s.stamp trimAllocated) f'' hreg'
      hnode hI.2

/-- `try_grow_inplace` leaves the block, or doubles it upwards with its
contents in place. -/
theorem tryGrowInplace_safe (hp : IsTile tile k p) (hplaced : Placed g k p) :
    Safe (v.Inv X g tile birth) (tryGrowInplace g p.base k)
      (fun o r => match o with
        | none => r = {v.own p}
        | some (addr, order) => addr = p.base ∧ order = k + 1
            ∧ ∃ p', r = {v.own p'} ∧ p'.base = p.base
              ∧ IsTile tile (k + 1) p'
              ∧ ∀ x, p.Has x → p'.data x = p.data x) {v.own p} := by
  unfold tryGrowInplace
  split
  · exact Safe.ret rfl
  · rename_i hlt
    rw [hplaced.inRegion, Bool.not_true, if_neg Bool.false_ne_true]
    dsimp only
    split
    · exact Safe.ret rfl
    · rename_i hge
      split
      · exact Safe.ret rfl
      · rw [hg.order] at hlt
        apply Safe.bind
        refine Safe.atomic fun _ s f hI => ?_
        have hout := hI.takeBuddy hg hX hp (by omega)
        generalize takeBuddy g (buddy g p.base k) k s = out at hout ⊢
        obtain ⟨_ | _, s'⟩ := out
        · refine ⟨{v.own p}, hout.2, ?_⟩
          rw [if_neg Bool.false_ne_true]
          exact Safe.ret rfl
        · obtain ⟨p', hbase, htile, -, hdata, hI'⟩ := hout
          rw [Nat.min_eq_left (Nat.le_of_not_lt hge)] at hbase
          refine ⟨{v.own p'}, hI', ?_⟩
          rw [if_pos rfl]
          exact Safe.ret ⟨rfl, rfl, p', rfl, hbase, htile, hdata⟩

end Programs

end Operations

-- ============================================================== creation

/-- The size of a new region is a power of two, 64 MiB at least. -/
theorem normalizeRegionSize_eq (size : Nat) :
    ∃ n, maxOrder ≤ n ∧ normalizeRegionSize size = 2 ^ n := by
  have hnext : ∃ n, nextPowerOfTwo size = 2 ^ n := by
    unfold nextPowerOfTwo
    split
    · exact ⟨0, rfl⟩
    · exact ⟨_, rfl⟩
  obtain ⟨n, hn⟩ := hnext
  unfold normalizeRegionSize
  rw [hn]
  split
  · rcases Nat.le_total maxOrder n with hle | hle
    · refine ⟨n, hle, Nat.max_eq_left ?_⟩
      exact Nat.pow_le_pow_right (by decide) hle
    · refine ⟨maxOrder, le_rfl, Nat.max_eq_right ?_⟩
      exact Nat.pow_le_pow_right (by decide) hle
  · exact ⟨maxOrder, le_rfl, Nat.max_self _⟩

/-- So it is a whole number of blocks of the largest order. -/
theorem normalizeRegionSize_div (size : Nat) :
    normalizeRegionSize size
      = normalizeRegionSize size / maxBlockSize * 2 ^ maxOrder := by
  obtain ⟨n, hle, hn⟩ := normalizeRegionSize_eq size
  rw [hn]
  exact (Nat.div_mul_cancel (Nat.pow_dvd_pow 2 hle)).symm

theorem newGeometry_ok {base size : Nat} (nodeId : Nat) (hpos : 0 < base)
    (hfits : base + normalizeRegionSize size ≤ 2 ^ 64) :
    (newGeometry base size nodeId).Ok :=
  ⟨hpos, hfits, rfl,
    ⟨_, (normalizeRegionSize_div size).trans (Nat.mul_comm ..)⟩⟩

section RawBlocks

variable {g : Geometry} {tile : κ}

/-- The `n` blocks of the largest order from the `i`-th on, as
`add_region` finds them in the memory `m`. -/
def rawBlocks (g : Geometry) (tile : κ) (m : Mem) (i n : Nat) :
    List (Piece κ) :=
  (List.range' i n).map fun j =>
    ⟨tile, g.base + j * 2 ^ maxOrder, 2 ^ maxOrder, m⟩

theorem rawBlocks_tile {i n : Nat} {p : Piece κ}
    (hp : p ∈ (rawBlocks g tile m i n : Multiset (Piece κ))) :
    IsTile tile maxOrder p ∧ p.data = m := by
  obtain ⟨i, -, rfl⟩ := List.mem_map.1 (Multiset.mem_coe.1 hp)
  exact ⟨⟨rfl, rfl⟩, rfl⟩

variable {n : Nat} {m : Mem} (htotal : g.totalSize = n * 2 ^ maxOrder)
include htotal

/-- The blocks fill the region. -/
theorem rawBlocks_tiling :
    Tiling g.base g.totalSize minOrder maxOrder
      ((rawBlocks g tile m 0 n : Multiset (Piece κ)).map key) := by
  have hkeys : (rawBlocks g tile m 0 n : Multiset (Piece κ)).map key
      = ((List.range n).map fun i =>
        (⟨g.base + i * 2 ^ maxOrder, maxOrder⟩ : Block)) := by
    rw [rawBlocks, Multiset.map_coe, List.map_map, List.range_eq_range']
    congr 1
    refine List.map_congr_left fun i _ => ?_
    exact key_of_len rfl
  rw [hkeys, htotal]
  exact Tiling.uniform (by decide) le_rfl

theorem rawBlocks_cover (x : Nat) :
    cover (rawBlocks g tile m 0 n : Multiset (Piece κ)) x
      = if g.base ≤ x ∧ x < g.base + g.totalSize then 1 else 0 := by
  rw [cover_eq_count fun p hp => len_of_isTile (rawBlocks_tile hp).1,
    (rawBlocks_tiling htotal).exact]

/-- They are what is in the region's memory. -/
theorem rawBlocks_holds :
    Holds m (rawBlocks g tile m 0 n : Multiset (Piece κ)) := by
  refine ⟨fun x => ?_, fun p hp x _ => ?_⟩
  · rw [rawBlocks_cover htotal]
    split <;> omega
  · rw [(rawBlocks_tile hp).2]

end RawBlocks

section Creation

variable [DecidableEq κ] {g : Geometry} {tile : κ} {birth stamp : Nat}
  {s : RegionState} {F : Multiset (Piece κ)}

/-- The fill loop puts every block on the list. -/
theorem fillRegion_inv (hg : g.Ok) {n i : Nat}
    (hzero : ∀ x, g.base ≤ x → x < g.base + g.totalSize → m x = 0)
    (htotal : g.totalSize = (i + n) * 2 ^ maxOrder)
    (hbirth : birth = stamp % 2 ^ 32) (h : RegionInv g tile birth s
      ((rawBlocks g tile m i n : Multiset (Piece κ)) + F)) :
    RegionInv g tile birth
      (fillRegion g stamp n (i * maxBlockSize) s) F := by
  induction n generalizing i s with
  | zero =>
      rw [rawBlocks, List.range'_zero, List.map_nil, Multiset.coe_nil,
        zero_add] at h
      exact h
  | succ n ih =>
      have hlt : i * maxBlockSize < g.totalSize := by
        rw [htotal]
        exact Nat.mul_lt_mul_of_pos_right (by omega) (Nat.two_pow_pos _)
      unfold fillRegion
      rw [if_pos hlt]
      have hstep : i * maxBlockSize + maxBlockSize = (i + 1) * maxBlockSize :=
        (Nat.succ_mul ..).symm
      rw [hstep]
      refine ih (by rw [htotal]; congr 1; omega) ?_
      -- the first of the remaining blocks gets its node and is pushed
      let p : Piece κ :=
        ⟨tile, g.base + i * 2 ^ maxOrder, 2 ^ maxOrder, m⟩
      have hp : IsTile tile maxOrder p := ⟨rfl, rfl⟩
      have hsplit : (rawBlocks g tile m i (n + 1) : Multiset (Piece κ))
          = {p} + (rawBlocks g tile m (i + 1) n : Multiset (Piece κ)) := by
        rw [rawBlocks, List.range'_succ, List.map_cons, ← Multiset.cons_coe,
          ← Multiset.singleton_add]
        rfl
      rw [hsplit, add_assoc] at h
      have htop := (h.placed hp).top
      have hnode := node_inv h hp stamp trimNotAllocated
      refine push_inv hg hnode hp.kind hp.len fun _ => ⟨?_, ?_, ?_⟩
      · rw [hbirth]
        exact FreeBlock.lifeTime_new
      · exact FreeBlock.trimState_new
      · intro x h₁ h₂
        have hge : p.base + 21 ≤ x := h₁
        have hlt' : x < p.base + 2 ^ maxOrder := h₂
        have hbase : g.base ≤ p.base := Nat.le_add_right ..
        exact (FreeBlock.new_of_ge hge).trans
          (hzero x (by omega) (by omega))

/-- Before the loop every block is the creator's. -/
theorem rawBlocks_inv {n : Nat} (htotal : g.totalSize = n * 2 ^ maxOrder)
    (hheld : Holds s.mem ((rawBlocks g tile m 0 n : Multiset (Piece κ)) + F))
    (hF : ∀ p ∈ F, p.kind ≠ tile) (hfree : ∀ i, s.free i = 0)
    (hbits : ∀ i, s.freeBitmap i = Bitmap.empty) (hmask : s.nonemptyMask = 0)
    (hacc : s.accesses = []) :
    RegionInv g tile birth s
      ((rawBlocks g tile m 0 n : Multiset (Piece κ)) + F) := by
  have hempty : freePieces (fun _ => ([] : List (Piece κ))) = 0 :=
    Finset.sum_eq_zero fun _ _ => rfl
  refine ⟨fun _ => [], ?_, fun k _ => ?_, fun p hp hk => ?_, ?_,
    fun k _ => ?_, fun a ha => ?_⟩
  · rw [hempty, zero_add]
    exact hheld
  · refine ⟨⟨0, hfree _, rfl⟩, fun i => ?_, nofun, nofun, nofun⟩
    rw [hbits, Bitmap.get_empty]
    simp
  · rcases Multiset.mem_add.1 hp with hp | hp
    · exact len_of_isTile (rawBlocks_tile hp).1
    · exact absurd hk (hF p hp)
  · rw [hempty, zero_add, tiles_add, tiles_of_ne hF, add_zero, tiles,
      Multiset.filter_eq_self.2 fun p hp => (rawBlocks_tile hp).1.kind]
    exact rawBlocks_tiling htotal
  · rw [hmask, hfree]
    simp
  · rw [hacc] at ha
    cases ha

/-- A region as `add_region` publishes it. -/
theorem newRegion_inv {base size nodeId : Nat}
    (hg : (newGeometry base size nodeId).Ok) :
    RegionInv (newGeometry base size nodeId) tile (stamp % 2 ^ 32)
      (newRegion base size nodeId stamp m) 0 := by
  have htotal := normalizeRegionSize_div size
  unfold newRegion
  refine fillRegion_inv hg (m := Mem.zero m base (normalizeRegionSize size))
    (i := 0) (fun x h₁ h₂ => Mem.zero_apply h₁ h₂) ?_ rfl ?_
  · rw [Nat.zero_add]
    exact htotal
  · refine rawBlocks_inv htotal ?_ (fun p hp => ?_) (fun _ => rfl)
      (fun _ => rfl) rfl rfl
    · rw [add_zero]
      exact rawBlocks_holds htotal
    · exact absurd hp (Multiset.notMem_zero p)

end Creation

-- ====================================================== threads on a region

/-- What a thread may call. A request is at least of the smallest order,
as `alloc` makes sure; `tick` is the trimmer thread setting
`CURRENT_STAMP`. -/
inductive Call where
  | alloc (order : Nat) (h : minOrder ≤ order)
  | free (block : Block)
  | grow (block : Block)
  | tick (stamp : Nat)

/-- The program of a call. -/
def Call.prog (g : Geometry) :
    Call → Prog RegionState Unit (Option (Nat × Nat))
  | .alloc order _ => allocFromRegion g order
  | .free b => do
      Buddy.free g b.addr b.order
      return none
  | .grow b => tryGrowInplace g b.addr b.order
  | .tick stamp => do
      Prog.modify fun s => { s with stamp := stamp }
      return none

/-- The live block a call is given. -/
def Call.takes : Call → Multiset Block
  | .alloc _ _ => 0
  | .free b => {b}
  | .grow b => {b}
  | .tick _ => 0

/-- The block that is live once a call has returned. -/
def Call.gives : Call → Option (Nat × Nat) → Multiset Block
  | .alloc order _, some (addr, _) => {⟨addr, order⟩}
  | .alloc _ _, none => 0
  | .free _, _ => 0
  | .grow _, some (addr, order) => {⟨addr, order⟩}
  | .grow b, none => {b}
  | .tick _, _ => 0

/-- The operations on one region, for threads `T`. -/
def api (T : Type) (g : Geometry) :
    Api T RegionState Unit Call (Option (Nat × Nat)) Block where
  prog _ := Call.prog g
  takes := Call.takes
  gives := Call.gives

/-- A region just added: nothing is live and no thread is in a call. -/
def start (T : Type) (base size nodeId stamp : Nat) (m : Mem) :
    World T RegionState Unit Call (Option (Nat × Nat)) Block where
  state := newRegion base size nodeId stamp m
  live := 0
  thread _ := none

/-- What a call holds besides the blocks it is given. -/
def Call.turn {τ : Type} (v : Ledger Unit τ) (g : Geometry) :
    Call → Multiset τ
  | .free b => v.turn (topOf g b.addr)
  | _ => 0

/-- Every call is safe on the block it is given. -/
theorem call_safe {τ : Type} {v : Ledger Unit τ}
    {X : Mem → (Nat → Bitmap) → Multiset τ → Prop} {g : Geometry}
    {birth : Nat}
    (hg : g.Ok) (hX : v.Keeps X g () birth) (c : Call)
    {A : Multiset (Piece Unit)} {f : Multiset τ} {s : RegionState}
    (hkey : A.map key = c.takes)
    (hI : v.Inv X g () birth s (A.map v.own + c.turn v g + f)) :
    Safe (v.Inv X g () birth) (c.prog g)
      (fun o r => ∃ A' : Multiset (Piece Unit), r = A'.map v.own + c.turn v g
        ∧ A'.map key = c.gives o) (A.map v.own + c.turn v g) := by
  have hone : ∀ b : Block, A.map key = {b} → ∃ p, A = {p}
      ∧ p.base = b.addr ∧ IsTile () b.order p ∧ Placed g b.order p := by
    intro b hb
    obtain ⟨p, rfl, hp⟩ := Multiset.map_eq_singleton.1 hb
    rw [Multiset.map_singleton, add_assoc] at hI
    have htile : IsTile () b.order p := by
      obtain ⟨lists, hr⟩ := hI.region
      refine ⟨rfl, ?_⟩
      rw [← hp]
      exact hr.len p (by simp) rfl
    exact ⟨p, rfl, by rw [← hp]; rfl, htile, hI.region.placed htile⟩
  cases c with
  | alloc order h =>
      have hA : A = 0 := Multiset.map_eq_zero.1 hkey
      subst hA
      refine (allocFromRegion_safe hg hX h).mono fun o r ho => ?_
      cases o with
      | none => exact ⟨0, ho, rfl⟩
      | some b =>
          obtain ⟨addr, trim⟩ := b
          obtain ⟨p, rfl, rfl, htile, -⟩ := ho
          refine ⟨{p}, rfl, ?_⟩
          rw [Multiset.map_singleton, htile.key]
          rfl
  | free b =>
      obtain ⟨p, rfl, hbase, htile, hplaced⟩ := hone b hkey
      have hturn : (Call.free b).turn v g = v.turn (topOf g p.base) := by
        rw [hbase]
        rfl
      unfold Call.prog
      apply Safe.bind
      rw [hturn, ← hbase]
      refine (free_safe hg hX htile hplaced).mono fun _ r hr => ?_
      exact Safe.ret ⟨0, by rw [hr, Multiset.map_zero, zero_add], rfl⟩
  | grow b =>
      obtain ⟨p, rfl, hbase, htile, hplaced⟩ := hone b hkey
      show Safe _ (tryGrowInplace g b.addr b.order) _ _
      rw [← hbase]
      refine (tryGrowInplace_safe hg hX htile hplaced).mono fun o r ho => ?_
      cases o with
      | none => exact ⟨{p}, ho, hkey⟩
      | some c =>
          obtain ⟨addr, order⟩ := c
          obtain ⟨rfl, rfl, p', rfl, hbase', htile', -⟩ := ho
          refine ⟨{p'}, rfl, ?_⟩
          rw [Multiset.map_singleton, htile'.key, hbase']
          rfl
  | tick stamp =>
      have hA : A = 0 := Multiset.map_eq_zero.1 hkey
      subst hA
      unfold Call.prog
      apply Safe.bind
      refine Safe.modify fun s f hI => ?_
      refine ⟨0, ⟨?_, hI.2⟩, Safe.ret ⟨0, rfl, rfl⟩⟩
      obtain ⟨lists, hr⟩ := hI.1
      exact ⟨lists, hr.holds, hr.order, hr.len, hr.tiling, hr.mask,
        hr.words⟩

/-- The blocks on the free lists, given by their addresses. -/
def freeBlocks (free : Nat → List Nat) : Multiset Block :=
  ∑ k ∈ orders, ((free k).map fun addr => (⟨addr, k⟩ : Block))

/-- The blocks that pieces are, however they are grouped. -/
theorem map_key_sum {ι : Type} (S : Finset ι)
    (f : ι → Multiset (Piece κ)) :
    (∑ i ∈ S, f i).map key = ∑ i ∈ S, (f i).map key :=
  map_sum (Multiset.mapAddMonoidHom key) f S

section Lists

variable [DecidableEq κ] {g : Geometry} {tile : κ} {birth k : Nat}
  {s : RegionState} {lists : Nat → List (Piece κ)} {R : Multiset (Piece κ)}
  (h : RegionAt g tile birth s lists R)
include h

theorem RegionAt.freeBlocks_eq : (freePieces lists).map key
      = freeBlocks fun k => (lists k).map Piece.base := by
  rw [freePieces, map_key_sum, freeBlocks]
  refine Finset.sum_congr rfl fun k hk => ?_
  rw [Multiset.map_coe, List.map_map]
  congr 1
  refine List.map_congr_left fun p hp => ?_
  exact key_of_len ((h.order k hk).len p hp)

/-- A node of a list is read from memory as it is in its piece. -/
theorem RegionAt.read_free (hk : k ∈ orders) {p : Piece κ}
    (hp : p ∈ lists k) : FreeBlock.next s.mem p.base = links.next p
      ∧ FreeBlock.prev s.mem p.base = links.prev p := by
  have hroom := (h.placed_free hk hp).room
  have hlen := (h.order k hk).len p hp
  obtain ⟨F, hF⟩ := Multiset.exists_cons_of_mem
    (Multiset.mem_add.2 (Or.inl (mem_freePieces hk hp)))
  have hh := h.holds
  rw [hF, ← Multiset.singleton_add] at hh
  constructor
  · exact hh.load_eq ⟨le_rfl, Nat.add_le_add_left (by omega) _⟩
  · refine hh.load_eq ⟨Nat.le_add_right .., ?_⟩
    omega

/-- The free lists as they stand in memory. -/
theorem RegionAt.linkedSeg (hk : k ∈ orders) :
    LinkedSeg (FreeBlock.next s.mem) (s.free (orderIndex k))
      ((lists k).map Piece.base) 0 := by
  obtain ⟨e, hseg⟩ := (h.order k hk).seg
  exact hseg.linkedSeg fun p hp => (h.read_free hk hp).1

end Lists

/-- In every reachable state every block has an owner. -/
theorem owned_of_reach {T : Type} [Fintype T] [DecidableEq T]
    {base size nodeId stamp : Nat} (hpos : 0 < base)
    (hfits : base + normalizeRegionSize size ≤ 2 ^ 64)
    {w : World T RegionState Unit Call (Option (Nat × Nat)) Block}
    (hw : Reach (api T (newGeometry base size nodeId))
      (start T base size nodeId stamp m) w) :
    ∃ (L : Multiset (Piece Unit)) (held : T → Multiset (Piece Unit)),
      L.map key = w.live ∧ (∀ t, w.thread t = none → held t = 0)
      ∧ RegionInv (newGeometry base size nodeId) () (stamp % 2 ^ 32)
        w.state (L + ∑ t, held t) := by
  have hg := newGeometry_ok nodeId hpos hfits
  let I := (Ledger.plain Unit).Inv (fun _ _ _ => True)
    (newGeometry base size nodeId) () (stamp % 2 ^ 32)
  have hfirst : Owned (api T (newGeometry base size nodeId)) I key
      (fun _ => True) (start T base size nodeId stamp m) 0 (fun _ => 0) := by
    refine ⟨⟨rfl, fun _ _ => trivial⟩, fun _ _ => rfl, ⟨?_, trivial⟩, nofun⟩
    rw [Finset.sum_const_zero, add_zero]
    exact newRegion_inv hg
  have hcall : ∀ (t : T) c r s f,
      StandsFor key (fun _ => True) (c.takes) r → I s (r + f) →
      Safe I ((api T (newGeometry base size nodeId)).prog t c)
        (fun a r' => StandsFor key (fun _ => True) (c.gives a) r') r := by
    intro t c r s f hr hI
    have hturn : c.turn (Ledger.plain Unit) (newGeometry base size nodeId)
        = 0 := by cases c <;> rfl
    have hown : ∀ A : Multiset (Piece Unit), A.map (Ledger.plain Unit).own
        + c.turn (Ledger.plain Unit) (newGeometry base size nodeId) = A := by
      intro A
      rw [hturn, add_zero]
      exact Multiset.map_id A
    have h := call_safe hg Ledger.plain_keeps c (A := r) (f := f) (s := s)
      hr.1 (by rw [hown]; exact hI)
    rw [hown] at h
    refine h.mono fun o r' ho => ?_
    obtain ⟨A', rfl, hkey⟩ := ho
    rw [hown]
    exact ⟨hkey, fun _ _ => trivial⟩
  obtain ⟨L, held, h⟩ := Owned.reach ⟨0, _, hfirst⟩ hcall hw
  exact ⟨L, held, h.live.1, h.idle, h.inv.1⟩

/-- In every reachable state of any number of threads that allocate,
free live blocks and grow live blocks on one region, the live blocks,
the blocks on the free lists and the blocks that operations in flight
hold tile the region. A thread between calls holds nothing. -/
theorem buddy_tiling_safe {T : Type} [Fintype T] [DecidableEq T]
    (base size nodeId stamp : Nat) (m : Mem) (hpos : 0 < base)
    (hfits : base + normalizeRegionSize size ≤ 2 ^ 64)
    {w : World T RegionState Unit Call (Option (Nat × Nat)) Block}
    (hw : Reach (api T (newGeometry base size nodeId))
      (start T base size nodeId stamp m) w) :
    ∃ (free : Nat → List Nat) (held : T → Multiset Block),
      (∀ k ∈ orders, LinkedSeg (FreeBlock.next w.state.mem)
        (w.state.free (orderIndex k)) (free k) 0)
      ∧ (∀ t, w.thread t = none → held t = 0)
      ∧ Tiling base (normalizeRegionSize size) minOrder maxOrder
          (w.live + freeBlocks free + ∑ t, held t)
      ∧ Block.Apart (w.live + freeBlocks free + ∑ t, held t) := by
  obtain ⟨L, held, hlive, hidle, lists, hr⟩ := owned_of_reach hpos hfits hw
  have htiling : Tiling base (normalizeRegionSize size) minOrder maxOrder
      (w.live + freeBlocks (fun k => (lists k).map Piece.base)
        + ∑ t, (held t).map key) := by
    have ht := hr.tiling
    rw [tiles, Multiset.filter_eq_self.2 fun _ _ => rfl, Multiset.map_add,
      Multiset.map_add, map_key_sum, hr.freeBlocks_eq, hlive,
      ← add_assoc, add_comm (freeBlocks _)] at ht
    exact ht
  refine ⟨fun k => (lists k).map Piece.base, fun t => (held t).map key,
    fun k hk => hr.linkedSeg hk, fun t ht => ?_, htiling, htiling.apart⟩
  show (held t).map key = 0
  rw [hidle t ht, Multiset.map_zero]

/-- One thread splits the only block of a 64 MiB region and holds its
lower half; another has taken the upper half, which the first put on the
list, before the first goes on to the next split. -/
theorem buddy_tiling_safe_splitting :
    ∃ (w : World (Fin 2) RegionState Unit Call (Option (Nat × Nat)) Block)
      (free : Nat → List Nat) (held : Fin 2 → Multiset Block),
      w.live = {⟨4096 + 2 ^ 25, 25⟩}
      ∧ (w.thread 0).isSome ∧ w.thread 1 = none
      ∧ w.state.nonemptyMask = 0
      ∧ (∀ k ∈ orders, LinkedSeg (FreeBlock.next w.state.mem)
        (w.state.free (orderIndex k)) (free k) 0)
      ∧ (∀ t, w.thread t = none → held t = 0)
      ∧ Tiling 4096 (normalizeRegionSize 0) minOrder maxOrder
          (w.live + freeBlocks free + ∑ t, held t)
      ∧ Block.Apart (w.live + freeBlocks free + ∑ t, held t) := by
  have h₀ : Reach (api (Fin 2) (newGeometry 4096 0 0))
      (start (Fin 2) 4096 0 0 0 fun _ => 0) _ := .init
  -- the call, its load of the mask, its locked section, and the two
  -- steps of the first split: the header of the upper half and its push
  have h₁ := h₀.step
    (.call 0 (.alloc 24 (by decide)) rfl (Multiset.zero_le _))
  have h₂ := h₁.step (.run 0 () rfl)
  have h₃ := h₂.step (.run 0 () rfl)
  have h₄ := h₃.step (.run 0 () rfl)
  have h₅ := h₄.step (.run 0 () rfl)
  -- the other thread's call, up to its return
  have h₆ := h₅.step
    (.call 1 (.alloc 25 (by decide)) rfl (Multiset.zero_le _))
  have h₇ := h₆.step (.run 1 () rfl)
  have h₈ := h₇.step (.run 1 () rfl)
  have h₉ := h₈.step (.finish 1 rfl)
  obtain ⟨free, held, h⟩ := buddy_tiling_safe 4096 0 0 0 (fun _ => 0)
    (by decide) (by decide) h₉
  exact ⟨_, free, held, rfl, rfl, rfl, rfl, h⟩

end RsMalloc.Buddy
