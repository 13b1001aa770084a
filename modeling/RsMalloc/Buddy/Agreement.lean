/-
The four records of what is free in a region agree.

# The records

A block of order `k` that nobody uses is on the doubly linked list of
its order; its bit in the bitmap of that order is set; and the bit of
the order in `nonempty_mask` is set. `RegionAt` already holds all of it
together, so `OrderAgrees` is only its reading on the region's own
state, without pieces.

# The layout

The bitmaps lie behind the `BuddyRegion` in one mapping, one after the
other in the order of the orders. `alloc_region_node` computes the size
of that mapping and `add_region` the addresses, each in a loop of its
own; `regionNodeBytes_eq` and `bitmapLayout_within` compare the two
loops.
-/
import RsMalloc.Buddy.Proofs

namespace RsMalloc.Buddy

open Conc

-- ============================================================ the layout

/-- The words of the bitmaps of `n` orders from `order` on. -/
def layoutWords (size n order : Nat) : Nat :=
  ((List.range' order n).map (freeBitmapWords size)).sum

theorem layoutWords_succ (size n order : Nat) :
    layoutWords size (n + 1) order
      = freeBitmapWords size order + layoutWords size n (order + 1) := by
  rw [layoutWords, List.range'_succ, List.map_cons, List.sum_cons]
  rfl

section Layout

variable {size n order bitmap bytes : Nat}

/-- The layout loop fills the space it is given from the front. -/
theorem bitmapLayout_within :
    ∀ b ∈ bitmapLayout size n order bitmap, bitmap ≤ b.1
      ∧ b.1 + 8 * b.2 ≤ bitmap + 8 * layoutWords size n order := by
  induction n generalizing order bitmap with
  | zero => nofun
  | succ n ih =>
      intro b hb
      rw [layoutWords_succ]
      unfold bitmapLayout at hb
      rcases List.mem_cons.1 hb with hb | hb
      · subst hb
        dsimp only
        omega
      · have h := ih b hb
        omega

/-- Each bitmap ends before the next one starts. -/
theorem bitmapLayout_pairwise :
    (bitmapLayout size n order bitmap).Pairwise
      fun b c => b.1 + 8 * b.2 ≤ c.1 := by
  induction n generalizing order bitmap with
  | zero => exact List.Pairwise.nil
  | succ n ih =>
      unfold bitmapLayout
      apply List.pairwise_cons.2
      refine ⟨fun c hc => ?_, ih⟩
      exact (bitmapLayout_within c hc).1

/-- There is one bitmap for each order. -/
theorem bitmapLayout_words :
    (bitmapLayout size n order bitmap).map Prod.snd
      = (List.range' order n).map (freeBitmapWords size) := by
  induction n generalizing order bitmap with
  | zero => rfl
  | succ n ih =>
      unfold bitmapLayout
      rw [List.map_cons, List.range'_succ, List.map_cons, ih]

/-- No bitmap of a region is longer than a 64-bit address space needs. -/
theorem freeBitmapWords_le (hsize : size ≤ 2 ^ 64)
    (horder : minOrder ≤ order) : freeBitmapWords size order ≤ 2 ^ 37 := by
  have hdiv : size >>> order ≤ 2 ^ 42 := by
    rw [Nat.shiftRight_eq_div_pow]
    calc size / 2 ^ order ≤ size / 2 ^ minOrder :=
          Nat.div_le_div_left (Nat.pow_le_pow_right (by decide) horder)
            (Nat.two_pow_pos _)
      _ ≤ 2 ^ 64 / 2 ^ minOrder := Nat.div_le_div_right hsize
  unfold freeBitmapWords
  omega

/-- The size loop adds the words up, without overflow. -/
theorem bitmapBytes_eq (hsize : size ≤ 2 ^ 64) (horder : minOrder ≤ order)
    (hroom : bytes + n * 2 ^ 40 < 2 ^ 64) :
    bitmapBytes size n order bytes
      = some (bytes + 8 * layoutWords size n order) := by
  induction n generalizing order bytes with
  | zero => rfl
  | succ n ih =>
      have hwords := freeBitmapWords_le hsize horder
      have hmul : checkedMul (freeBitmapWords size order) 8
          = some (freeBitmapWords size order * 8) := if_pos (by omega)
      have hadd : checkedAdd bytes (freeBitmapWords size order * 8)
          = some (bytes + freeBitmapWords size order * 8) :=
        if_pos (by omega)
      have hrest := @ih (order + 1)
        (bytes + freeBitmapWords size order * 8) (by omega) (by omega)
      have hsum : bytes + freeBitmapWords size order * 8
            + 8 * layoutWords size n (order + 1)
          = bytes + 8 * layoutWords size (n + 1) order := by
        rw [layoutWords_succ]
        omega
      rw [hsum] at hrest
      unfold bitmapBytes
      simp only [hmul, hadd, Option.bind_eq_bind, Option.bind_some]
      exact hrest

/-- The mapping of a region node has room for the node and all its
bitmaps. -/
theorem regionNodeBytes_eq (hsize : size ≤ 2 ^ 64) :
    ∃ nodeBytes, regionNodeBytes size = some nodeBytes
      ∧ regionNodeSize
          + 8 * layoutWords size (maxOrder + 1 - minOrder) minOrder
        ≤ nodeBytes := by
  have hroom : 0 + (maxOrder + 1 - minOrder) * 2 ^ 40 < 2 ^ 64 := by decide
  have hbytes := bitmapBytes_eq hsize (Nat.le_refl minOrder) hroom
  have hle : layoutWords size (maxOrder + 1 - minOrder) minOrder
      ≤ 5 * 2 ^ 37 := by
    have h := List.sum_le_card_nsmul
      ((List.range' minOrder (maxOrder + 1 - minOrder)).map
        (freeBitmapWords size)) (2 ^ 37) (fun w hw => ?_)
    · rw [List.length_map, List.length_range'] at h
      exact h
    · obtain ⟨k, hk, rfl⟩ := List.mem_map.1 hw
      exact freeBitmapWords_le hsize (List.mem_range'_1.1 hk).1
  rw [Nat.zero_add] at hbytes
  generalize layoutWords size (maxOrder + 1 - minOrder) minOrder = words
    at hbytes hle ⊢
  have hnode : regionNodeSize = 512 := rfl
  have hadd : checkedAdd regionNodeSize (8 * words)
      = some (regionNodeSize + 8 * words) := if_pos (by omega)
  refine ⟨alignTo (regionNodeSize + 8 * words) 4096, ?_, ?_⟩
  · unfold regionNodeBytes
    simp only [hbytes, hadd, Option.bind_eq_bind, Option.bind_some,
      Option.pure_def]
  · unfold alignTo
    omega

end Layout

-- ========================================================== the agreement

/-- The links of the nodes in memory. -/
def FreeBlock.memLinks (m : Mem) : Links Nat Nat where
  addr a := a
  next a := FreeBlock.next m a
  prev a := FreeBlock.prev m a

/-- The records of order `k` agree: `l` is its list, followed from its
head through the nodes in memory, with correct `prev` links and null
before the first node; the bit of a block is set when it is on the
list; the bit of the order is set when the list is not empty. -/
structure OrderAgrees (g : Geometry) (s : RegionState) (k : Nat)
    (l : List Nat) : Prop where
  list : ∃ last, DSeg (FreeBlock.memLinks s.mem) 0
    (s.free (orderIndex k)) l last 0
  nodup : l.Nodup
  bits : ∀ a, g.base ≤ a → 2 ^ k ∣ a - g.base →
    (blockIsFree g a k s = true ↔ a ∈ l)
  mask : s.nonemptyMask.getLsbD (orderIndex k) = true ↔ l ≠ []

section Agreement

variable {κ : Type} [DecidableEq κ] {g : Geometry} {tile : κ}
  {birth k : Nat} {s : RegionState} {lists : Nat → List (Piece κ)}
  {R : Multiset (Piece κ)}

/-- The blocks of a list start at different addresses. -/
theorem RegionAt.bases_nodup (h : RegionAt g tile birth s lists R)
    (hk : k ∈ orders) : ((lists k).map Piece.base).Nodup := by
  have hpos : ∀ p ∈ lists k, 0 < p.len := by
    intro p hp
    rw [(h.order k hk).len p hp]
    exact Nat.two_pow_pos k
  have hh := h.holds
  rw [freePieces_split lists hk, add_assoc] at hh
  have hpw := hh.pairwise hpos
  refine List.pairwise_map.2 (hpw.imp_of_mem fun {p q} hp hq hpq => ?_)
  have hp' := hpos p hp
  have hq' := hpos q hq
  omega

/-- The records of every order agree. -/
theorem RegionAt.orderAgrees (h : RegionAt g tile birth s lists R)
    (hg : g.Ok) (hk : k ∈ orders) :
    OrderAgrees g s k ((lists k).map Piece.base) where
  list := by
    obtain ⟨e, hseg⟩ := (h.order k hk).seg
    refine ⟨e, hseg.map Piece.base (fun _ _ => rfl) ?_ ?_⟩
    · exact fun p hp => (h.read_free hk hp).1
    · exact fun p hp => (h.read_free hk hp).2
  nodup := h.bases_nodup hk
  bits a ha hal := by
    obtain ⟨i, hi⟩ := hal
    have haddr : g.base + i * 2 ^ k = a := by
      rw [Nat.mul_comm, ← hi]
      exact Nat.add_sub_cancel' ha
    have hloc : bitmapLocation g a k = i := by
      rw [bitmapLocation, hi, Nat.shiftRight_eq_div_pow,
        Nat.mul_div_cancel_left _ (Nat.two_pow_pos k)]
    unfold blockIsFree
    rw [(h.order k hk).bits, hloc, haddr, List.mem_map]
  mask := by
    rw [h.mask k hk]
    obtain ⟨e, hseg⟩ := (h.order k hk).seg
    constructor
    · intro hne hnil
      rw [List.map_eq_nil_iff.1 hnil] at hseg
      exact hne hseg.1
    · intro hne
      obtain ⟨p, hp⟩ := List.exists_mem_of_ne_nil _
        fun hnil => hne (List.map_eq_nil_iff.2 hnil)
      exact h.head_ne hg hk hp

end Agreement

/-- In every reachable state of threads that allocate, free live blocks
and grow live blocks, the records of every order agree; every bitmap
access so far was to a word of its bitmap; and the bitmaps of a region
node, one for each order, are apart inside its mapping. -/
theorem buddy_records_agree {T : Type} [Fintype T] [DecidableEq T]
    (base size nodeId stamp regionPtr : Nat) (m : Mem) (hpos : 0 < base)
    (hfits : base + normalizeRegionSize size ≤ 2 ^ 64)
    {w : World T RegionState Unit Call (Option (Nat × Nat)) Block}
    (hw : Reach (api T (newGeometry base size nodeId))
      (start T base size nodeId stamp m) w) :
    (∀ k ∈ orders, ∃ l,
        OrderAgrees (newGeometry base size nodeId) w.state k l)
      ∧ (∀ a ∈ w.state.accesses, a.1 ∈ orders
        ∧ a.2 < freeBitmapWords (normalizeRegionSize size) a.1)
      ∧ ∃ nodeBytes,
        regionNodeBytes (normalizeRegionSize size) = some nodeBytes
        ∧ (regionBitmaps regionPtr (normalizeRegionSize size)).map Prod.snd
          = (List.range' minOrder 5).map
            (freeBitmapWords (normalizeRegionSize size))
        ∧ (regionBitmaps regionPtr (normalizeRegionSize size)).Pairwise
          (fun b c => b.1 + 8 * b.2 ≤ c.1)
        ∧ ∀ b ∈ regionBitmaps regionPtr (normalizeRegionSize size),
          regionPtr + regionNodeSize ≤ b.1
          ∧ b.1 + 8 * b.2 ≤ regionPtr + nodeBytes := by
  obtain ⟨L, held, -, -, lists, hr⟩ := owned_of_reach hpos hfits hw
  have hg := newGeometry_ok nodeId hpos hfits
  have hsize : normalizeRegionSize size ≤ 2 ^ 64 := by omega
  obtain ⟨nodeBytes, hbytes, hroom⟩ := regionNodeBytes_eq hsize
  refine ⟨fun k hk => ⟨_, hr.orderAgrees hg hk⟩, hr.words, nodeBytes,
    hbytes, bitmapLayout_words, bitmapLayout_pairwise, fun b hb => ?_⟩
  have hin := bitmapLayout_within b hb
  omega

/-- One thread halves the only block of a 64 MiB region. -/
theorem buddy_records_agree_split :
    ∃ w : World (Fin 1) RegionState Unit Call (Option (Nat × Nat)) Block,
      w.live = {⟨4096, 25⟩}
      ∧ ∀ k ∈ orders, ∃ l, OrderAgrees (newGeometry 4096 0 0) w.state k l := by
  have h₀ : Reach (api (Fin 1) (newGeometry 4096 0 0))
      (start (Fin 1) 4096 0 0 0 fun _ => 0) _ := .init
  have h₁ := h₀.step
    (.call 0 (.alloc 25 (by decide)) rfl (Multiset.zero_le _))
  -- the mask, the block of order 26, the node of the upper half, its push
  have h₂ := h₁.step (.run 0 () rfl)
  have h₃ := h₂.step (.run 0 () rfl)
  have h₄ := h₃.step (.run 0 () rfl)
  have h₅ := h₄.step (.run 0 () rfl)
  have h₆ := h₅.step (.finish 0 rfl)
  exact ⟨_, rfl, (buddy_records_agree 4096 0 0 0 0 (fun _ => 0) (by decide)
    (by decide) h₆).1⟩

end RsMalloc.Buddy
