/-
The free lists of a buddy region, as pieces of memory.

# The invariant

A block of the region is a piece of memory labelled `tile`. The region
owns the blocks on its free lists: for each order a doubly linked list
of pieces, linked through the nodes in the pieces' own bytes
(`OrderOk`). Everything else is owned by callers and by operations in
flight. `RegionInv` says that both together tile the region.

A block on a list whose `trim_state` says that it was never handed out
is zero behind its node, and carries the `life_time` its region was
created with (`Untouched`).

# Linking and unlinking

`relink_front` and `relink_back` rewrite the one link that a push or a
removal changes in a neighbour; the neighbour stays the same block
(`Relinked`). `push_inv` and `remove_inv` are the effect of
`push_free_block` and `remove_free_block` on the whole region.
-/
import Mathlib.Algebra.BigOperators.Group.Finset.Basic
import Mathlib.Algebra.Order.BigOperators.Group.Finset
import Mathlib.Order.Interval.Finset.Nat
import Mathlib.Tactic.Abel
import RsMalloc.Buddy.Model
import RsMalloc.Lib.DList
import RsMalloc.Lib.Pieces
import RsMalloc.Lib.Tiling

namespace RsMalloc.Buddy

variable {κ : Type} {k : Nat} {lists : Nat → List (Piece κ)}

-- ======================================================== the node fields

namespace FreeBlock

variable {m : Mem} {b v : Nat}

theorem next_setNext (hv : v < 2 ^ 64) : next (setNext m b v) b = v :=
  Mem.load_store (by simpa using hv)

theorem prev_setPrev (hv : v < 2 ^ 64) : prev (setPrev m b v) b = v :=
  Mem.load_store (by simpa using hv)

theorem prev_setNext : prev (setNext m b v) b = prev m b :=
  Mem.load_store_of_disjoint (Or.inr le_rfl)

theorem next_setPrev : next (setPrev m b v) b = next m b :=
  Mem.load_store_of_disjoint (Or.inl le_rfl)

end FreeBlock

-- ================================================================= pieces

/-- How the free lists are linked through the pieces. -/
def links : Links (Piece κ) Nat where
  addr p := p.base
  next p := FreeBlock.next p.data p.base
  prev p := FreeBlock.prev p.data p.base

/-- The block a piece is. -/
def key (p : Piece κ) : Block := ⟨p.base, Nat.log2 p.len⟩

theorem key_of_len {p : Piece κ} (h : p.len = 2 ^ k) : key p = ⟨p.base, k⟩ := by
  rw [key, h, Nat.log2_two_pow]

/-- `p'` is the block `p` with other links. -/
structure Relinked (p p' : Piece κ) : Prop where
  kind : p'.kind = p.kind
  base : p'.base = p.base
  len : p'.len = p.len
  rest : ∀ x, p.base + 16 ≤ x → p'.data x = p.data x

namespace Relinked

variable {p p' p'' : Piece κ}

theorem refl (p : Piece κ) : Relinked p p := ⟨rfl, rfl, rfl, fun _ _ => rfl⟩

theorem trans (h : Relinked p p') (h' : Relinked p' p'') :
    Relinked p p'' where
  kind := h'.kind.trans h.kind
  base := h'.base.trans h.base
  len := h'.len.trans h.len
  rest x hx := by
    rw [h'.rest x (by rw [h.base]; exact hx)]
    exact h.rest x hx

theorem store (p : Piece κ) {a v : Nat} (ha : a + 8 ≤ p.base + 16) :
    Relinked p (p.store 8 a v) :=
  ⟨rfl, rfl, rfl, fun _ hx => Mem.store_of_ge (ha.trans hx)⟩

theorem lifeTime (h : Relinked p p') : FreeBlock.lifeTime p'.data p'.base
    = FreeBlock.lifeTime p.data p.base := by
  rw [h.base]
  exact Mem.load_congr fun x hx _ => h.rest x hx

theorem trimState (h : Relinked p p') :
    FreeBlock.trimState p'.data p'.base
      = FreeBlock.trimState p.data p.base := by
  rw [h.base]
  refine Mem.load_congr fun x hx _ => h.rest x ?_
  omega

theorem key (h : Relinked p p') : key p' = key p := by
  rw [Buddy.key, Buddy.key, h.base, h.len]

end Relinked

/-- A block that was never handed out: zero behind its node, with the
`life_time` of its region. -/
structure Untouched (birth : Nat) (p : Piece κ) : Prop where
  life : FreeBlock.lifeTime p.data p.base = birth
  state : FreeBlock.trimState p.data p.base = trimNotAllocated
  zero : ∀ x, p.base + 21 ≤ x → x < p.base + p.len → p.data x = 0

theorem Untouched.relinked {birth : Nat} {p p' : Piece κ}
    (h : Untouched birth p) (hr : Relinked p p') : Untouched birth p' where
  life := hr.lifeTime.trans h.life
  state := hr.trimState.trans h.state
  zero x h₁ h₂ := by
    rw [hr.base] at h₁ h₂
    rw [hr.len] at h₂
    rw [hr.rest x (by omega)]
    exact h.zero x h₁ h₂

-- ==================================================== rewriting one link

section Relink

variable {m : Mem} {F : Multiset (Piece κ)} {l : List (Piece κ)}
  {b h n e v : Nat}

/-- `if next != null { (*next).prev = v }` on the list from `h`. -/
theorem relink_front (hm : Holds m ((l : Multiset (Piece κ)) + F))
    (hseg : DSeg links b h l e 0) (hlen : ∀ p ∈ l, 16 ≤ p.len)
    (hpos : ∀ p ∈ l, p.base ≠ 0) (hv : v < 2 ^ 64) :
    ∃ l' e', DSeg links v h l' e' 0
      ∧ Holds (if h ≠ 0 then FreeBlock.setPrev m h v else m)
        ((l' : Multiset (Piece κ)) + F)
      ∧ List.Forall₂ Relinked l l' := by
  cases l with
  | nil =>
      obtain ⟨rfl, -⟩ := hseg
      exact ⟨[], v, ⟨rfl, rfl⟩, by simpa using hm, List.Forall₂.nil⟩
  | cons p l =>
      have hlen' := hlen p (List.mem_cons_self ..)
      have hh : p.base = h := hseg.1
      have hne : h ≠ 0 := hh ▸ hpos p (List.mem_cons_self ..)
      refine ⟨p.store 8 (p.base + 8) v :: l, e, ?_, ?_, ?_⟩
      · have hnew := hseg.replace_head
          (p.store 8 (p.base + 8) v) rfl FreeBlock.next_setPrev
        rwa [show links.prev (p.store 8 (p.base + 8) v) = v from
          FreeBlock.prev_setPrev hv] at hnew
      · rw [if_pos hne, ← hh]
        rw [← Multiset.cons_coe, ← Multiset.singleton_add, add_assoc]
          at hm ⊢
        exact hm.store ⟨by omega, by omega⟩
      · refine List.Forall₂.cons (Relinked.store p (by omega)) ?_
        exact List.forall₂_same.2 fun q _ => Relinked.refl q

/-- `if prev == null { head = v } else { (*prev).next = v }` at the end
`e` of the list from `h`. -/
theorem relink_back (hm : Holds m ((l : Multiset (Piece κ)) + F)) (hseg : DSeg links 0 h l e n)
    (hlen : ∀ p ∈ l, 16 ≤ p.len) (hpos : ∀ p ∈ l, p.base ≠ 0)
    (hv : v < 2 ^ 64) :
    ∃ l', DSeg links 0 (if e = 0 then v else h) l' e v
      ∧ Holds (if e = 0 then m else FreeBlock.setNext m e v)
        ((l' : Multiset (Piece κ)) + F)
      ∧ List.Forall₂ Relinked l l' := by
  rcases List.eq_nil_or_concat' l with rfl | ⟨l, p, rfl⟩
  · obtain ⟨rfl, rfl⟩ := hseg
    rw [if_pos rfl, if_pos rfl]
    exact ⟨[], ⟨rfl, rfl⟩, hm, List.Forall₂.nil⟩
  · have hp : p ∈ l ++ [p] := by simp
    have hlen' := hlen p hp
    have he : e = p.base := hseg.concat_ends.1
    have hne : e ≠ 0 := he ▸ hpos p hp
    rw [if_neg hne, if_neg hne, he]
    refine ⟨l ++ [p.store 8 p.base v], ?_, ?_, ?_⟩
    · have hnew := hseg.replace_last (p.store 8 p.base v) rfl
        FreeBlock.prev_setNext
      rwa [show links.next (p.store 8 p.base v) = v from
        FreeBlock.next_setNext hv, he] at hnew
    · rw [← Multiset.coe_add, Multiset.coe_singleton,
        add_comm (l : Multiset (Piece κ)), add_assoc] at hm ⊢
      exact hm.store ⟨le_rfl, by omega⟩
    · refine List.rel_append (List.forall₂_same.2 fun q _ =>
        Relinked.refl q) (List.Forall₂.cons ?_ List.Forall₂.nil)
      exact Relinked.store p (by omega)

/-- The writes of `remove_free_block` on the list around `p`: the two
neighbours are linked to each other, and `p` is left as it was. -/
theorem unlink {p : Piece κ} {l₁ l₂ : List (Piece κ)}
    (hm : Holds m (((l₁ ++ p :: l₂ : List _) : Multiset (Piece κ)) + F))
    (hseg : DSeg links 0 h (l₁ ++ p :: l₂) e 0)
    (hlen : ∀ q ∈ l₁ ++ p :: l₂, 16 ≤ q.len)
    (hpos : ∀ q ∈ l₁ ++ p :: l₂, q.base ≠ 0)
    (hn : FreeBlock.next m p.base = n) (hb : FreeBlock.prev m p.base = b) :
    ∃ l' e', DSeg links 0 (if b = 0 then n else h) l' e' 0
      ∧ Holds (if n ≠ 0 then FreeBlock.setPrev
            (if b = 0 then m else FreeBlock.setNext m b n) n b
          else if b = 0 then m else FreeBlock.setNext m b n)
        ((l' : Multiset (Piece κ)) + ({p} + F))
      ∧ List.Forall₂ Relinked (l₁ ++ l₂) l' := by
  obtain ⟨e₁, _, hseg₁, -, hprev, hseg₂⟩ := DSeg.append_iff.1 hseg
  have hplen := hlen p (by simp)
  rw [← Multiset.coe_add, ← Multiset.cons_coe, ← Multiset.singleton_add]
    at hm
  have hre : (l₁ : Multiset (Piece κ)) + ({p} + l₂) + F
      = {p} + ((l₁ : Multiset (Piece κ)) + (l₂ + F)) := by abel
  rw [hre] at hm
  -- the node of the block is read off its piece
  have hnext : links.next p = n :=
    Eq.trans (hm.load_eq ⟨le_rfl, by omega⟩).symm hn
  have hback : e₁ = b := by
    rw [← hprev, ← hb]
    exact (hm.load_eq ⟨by omega, by omega⟩).symm
  subst hback
  rw [hnext] at hseg₂
  have hnlt : n < 2 ^ 64 := hn ▸ Mem.load_lt
  have hblt : e₁ < 2 ^ 64 := hb ▸ Mem.load_lt
  -- first the block before it, then the block behind it
  rw [add_left_comm] at hm
  obtain ⟨l₁', hseg₁', hm₁, hrel₁⟩ := relink_back hm hseg₁
    (fun q hq => hlen q (List.mem_append_left _ hq))
    (fun q hq => hpos q (List.mem_append_left _ hq)) hnlt
  have hre : (l₁' : Multiset (Piece κ)) + ({p} + ((l₂ : Multiset (Piece κ))
      + F)) = (l₂ : Multiset (Piece κ)) + (l₁' + ({p} + F)) := by abel
  rw [hre] at hm₁
  have hmem : ∀ q ∈ l₂, q ∈ l₁ ++ p :: l₂ := fun q hq =>
    List.mem_append_right _ (List.mem_cons_of_mem _ hq)
  obtain ⟨l₂', e', hseg₂', hm₂, hrel₂⟩ := relink_front hm₁ hseg₂
    (fun q hq => hlen q (hmem q hq)) (fun q hq => hpos q (hmem q hq)) hblt
  refine ⟨l₁' ++ l₂', e', DSeg.append_iff.2 ⟨_, _, hseg₁', hseg₂'⟩, ?_,
    List.rel_append hrel₁ hrel₂⟩
  rw [← Multiset.coe_add, add_comm (l₁' : Multiset (Piece κ)), add_assoc]
  exact hm₂

end Relink

/-- The orders of a region. -/
abbrev orders : Finset Nat := Finset.Icc minOrder maxOrder

/-- What `add_region` guarantees of a region's fixed fields. -/
structure Geometry.Ok (g : Geometry) : Prop where
  pos : 0 < g.base
  fits : g.base + g.totalSize ≤ 2 ^ 64
  order : g.order = maxOrder
  whole : 2 ^ maxOrder ∣ g.totalSize

-- ===================================================== where blocks lie

/-- Where a block of order `k` may lie. -/
structure Placed (g : Geometry) (k : Nat) (p : Piece κ) : Prop where
  order : k ∈ orders
  at_ : ∃ i, p.base = g.base + i * 2 ^ k
  top : p.base + 2 ^ k ≤ g.base + g.totalSize

section Placed

variable {g : Geometry} {k : Nat} {p : Piece κ} {l l' : List (Piece κ)}

namespace Placed

theorem base_pos (h : Placed g k p) (hg : g.Ok) : p.base ≠ 0 := by
  obtain ⟨i, hi⟩ := h.at_
  have hpos := hg.pos
  omega

theorem base_lt (h : Placed g k p) (hg : g.Ok) : p.base < 2 ^ 64 := by
  have htop := h.top
  have hfits := hg.fits
  have hpos := Nat.two_pow_pos k
  omega

/-- A block has room for its node. -/
theorem room (h : Placed g k p) : 4096 ≤ 2 ^ k := by
  have hk : 22 ≤ k := (Finset.mem_Icc.1 h.order).1
  calc 4096 ≤ 2 ^ 22 := by decide
    _ ≤ 2 ^ k := Nat.pow_le_pow_right (by decide) hk

theorem inRegion (h : Placed g k p) : inRegion g p.base = true := by
  obtain ⟨i, hi⟩ := h.at_
  have htop := h.top
  have hpos := Nat.two_pow_pos k
  unfold Buddy.inRegion
  rw [Bool.and_eq_true, decide_eq_true_iff, decide_eq_true_iff]
  omega

/-- The bit of a block stands for its address. -/
theorem bit_iff (h : Placed g k p) (i : Nat) :
    i = bitmapLocation g p.base k ↔ p.base = g.base + i * 2 ^ k := by
  obtain ⟨j, hj⟩ := h.at_
  have hloc : bitmapLocation g p.base k = j := by
    rw [bitmapLocation, hj, Nat.add_sub_cancel_left, Nat.shiftRight_eq_div_pow,
      Nat.mul_div_cancel _ (Nat.two_pow_pos k)]
  rw [hloc, hj]
  constructor
  · rintro rfl
    rfl
  · intro heq
    exact (Nat.eq_of_mul_eq_mul_right (Nat.two_pow_pos k)
      (Nat.add_left_cancel heq)).symm

end Placed

/-- Facts about the blocks of a list survive relinking. -/
theorem forall_relinked {P : Piece κ → Prop}
    (hP : ∀ p p', Relinked p p' → P p → P p')
    (hrel : List.Forall₂ Relinked l l') (h : ∀ p ∈ l, P p) :
    ∀ p ∈ l', P p := by
  induction hrel with
  | nil => exact h
  | cons hp _ ih =>
      intro q hq
      rcases List.mem_cons.1 hq with rfl | hq
      · exact hP _ _ hp (h _ (List.mem_cons_self ..))
      · exact ih (fun p hp' => h p (List.mem_cons_of_mem _ hp')) q hq

theorem exists_base_relinked (hrel : List.Forall₂ Relinked l l') (a : Nat) :
    (∃ p ∈ l', p.base = a) ↔ ∃ p ∈ l, p.base = a := by
  induction hrel with
  | nil => rfl
  | cons hp _ ih =>
      simp only [List.exists_mem_cons_iff, ih, hp.base]

end Placed

-- ============================================================ the region

/-- The pieces on the free lists. -/
def freePieces (lists : Nat → List (Piece κ)) : Multiset (Piece κ) :=
  ∑ k ∈ orders, (lists k : Multiset (Piece κ))

/-- The pieces on the other lists than that of order `k`. -/
def otherPieces (lists : Nat → List (Piece κ)) (k : Nat) :
    Multiset (Piece κ) :=
  ∑ j ∈ orders.erase k, (lists j : Multiset (Piece κ))

theorem freePieces_split (lists : Nat → List (Piece κ)) (hk : k ∈ orders) :
    freePieces lists
      = (lists k : Multiset (Piece κ)) + otherPieces lists k :=
  (Finset.add_sum_erase _ _ hk).symm

theorem freePieces_update (lists : Nat → List (Piece κ)) (hk : k ∈ orders)
    (l : List (Piece κ)) :
    freePieces (Function.update lists k l)
      = (l : Multiset (Piece κ)) + otherPieces lists k := by
  rw [freePieces_split _ hk, Function.update_self, otherPieces, otherPieces]
  congr 1
  refine Finset.sum_congr rfl fun j hj => ?_
  rw [Function.update_of_ne (Finset.ne_of_mem_erase hj)]

theorem mem_freePieces {p : Piece κ} (hk : k ∈ orders) (hp : p ∈ lists k) :
    p ∈ freePieces lists := by
  rw [freePieces_split lists hk]
  exact Multiset.mem_add.2 (Or.inl hp)

/-- The region's own structures for one order: the list from its head,
the bitmap, and what is known of the blocks on the list. -/
structure OrderOk (g : Geometry) (tile : κ) (birth k head : Nat)
    (bitmap : Bitmap) (l : List (Piece κ)) : Prop where
  seg : ∃ e, DSeg links 0 head l e 0
  bits : ∀ i, bitmap.get i = true
    ↔ ∃ p ∈ l, p.base = g.base + i * 2 ^ k
  kind : ∀ p ∈ l, p.kind = tile
  len : ∀ p ∈ l, p.len = 2 ^ k
  fresh : ∀ p ∈ l, FreeBlock.trimState p.data p.base = trimNotAllocated →
    Untouched birth p

namespace OrderOk

variable {g : Geometry} {tile : κ} {birth k head : Nat} {bitmap : Bitmap}
  {l l₀ l' : List (Piece κ)} {p : Piece κ}

/-- What is known of some blocks of the list survives relinking. -/
theorem relinked (h : OrderOk g tile birth k head bitmap l)
    (hsub : ∀ q ∈ l₀, q ∈ l) (hrel : List.Forall₂ Relinked l₀ l') :
    (∀ q ∈ l', q.kind = tile) ∧ (∀ q ∈ l', q.len = 2 ^ k)
      ∧ ∀ q ∈ l', FreeBlock.trimState q.data q.base = trimNotAllocated →
        Untouched birth q := by
  refine ⟨?_, ?_, ?_⟩
  · exact forall_relinked (fun _ _ hrel hq => hrel.kind.trans hq) hrel
      fun q hq => h.kind q (hsub q hq)
  · exact forall_relinked (fun _ _ hrel hq => hrel.len.trans hq) hrel
      fun q hq => h.len q (hsub q hq)
  · refine forall_relinked (fun q q' hq hf hst => ?_) hrel
      fun q hq => h.fresh q (hsub q hq)
    rw [hq.trimState] at hst
    exact (hf hst).relinked hq

/-- The bitmap after a removal: the bit of `p` is cleared, and no other
block of the list has that bit. -/
theorem bits_clear {l₁ l₂ : List (Piece κ)}
    (h : OrderOk g tile birth k head bitmap (l₁ ++ p :: l₂))
    (hp : Placed g k p) (hne : ∀ q ∈ l₁ ++ l₂, q.base ≠ p.base) (i : Nat) :
    (bitmap.clear (bitmapLocation g p.base k)).get i = true
      ↔ ∃ q ∈ l₁ ++ l₂, q.base = g.base + i * 2 ^ k := by
  rw [Bitmap.get_clear, Bool.and_eq_true, Bool.not_eq_true',
    decide_eq_false_iff_not, h.bits i, hp.bit_iff]
  constructor
  · rintro ⟨hnot, q, hq, hqb⟩
    rcases List.mem_append.1 hq with hq | hq
    · exact ⟨q, List.mem_append_left _ hq, hqb⟩
    · rcases List.mem_cons.1 hq with rfl | hq
      · exact absurd hqb hnot
      · exact ⟨q, List.mem_append_right _ hq, hqb⟩
  · rintro ⟨q, hq, hqb⟩
    refine ⟨fun hpb => hne q hq (hqb.trans hpb.symm), q, ?_, hqb⟩
    exact (List.sublist_cons_self p l₂).append_left l₁ |>.mem hq

end OrderOk

/-- Replacing one list, its head and its bitmap. -/
theorem order_update {g : Geometry} {tile : κ} {birth : Nat}
    {s s' : RegionState} {l : List (Piece κ)}
    (h : ∀ j ∈ orders, OrderOk g tile birth j (s.free (orderIndex j))
      (s.freeBitmap (orderIndex j)) (lists j)) (hk : k ∈ orders)
    (hfree : ∀ j ≠ orderIndex k, s'.free j = s.free j)
    (hbits : ∀ j ≠ orderIndex k, s'.freeBitmap j = s.freeBitmap j)
    (hl : OrderOk g tile birth k (s'.free (orderIndex k))
      (s'.freeBitmap (orderIndex k)) l) :
    ∀ j ∈ orders, OrderOk g tile birth j (s'.free (orderIndex j))
      (s'.freeBitmap (orderIndex j)) (Function.update lists k l j) := by
  intro j hj
  by_cases hjk : j = k
  · subst hjk
    rw [Function.update_self]
    exact hl
  · have hne : orderIndex j ≠ orderIndex k := by
      have h₁ := (Finset.mem_Icc.1 hj).1
      have h₂ := (Finset.mem_Icc.1 hk).1
      unfold orderIndex
      omega
    rw [Function.update_of_ne hjk, hfree _ hne, hbits _ hne]
    exact h j hj

variable [DecidableEq κ]

/-- The blocks that pieces labelled `tile` are. -/
def tiles (tile : κ) (T : Multiset (Piece κ)) : Multiset Block :=
  (T.filter fun p => p.kind = tile).map key

section Tiles

variable {tile : κ} {A B : Multiset (Piece κ)} {p : Piece κ}

@[simp] theorem tiles_add :
    tiles tile (A + B) = tiles tile A + tiles tile B := by
  rw [tiles, Multiset.filter_add, Multiset.map_add]
  rfl

theorem tiles_singleton (h : p.kind = tile) :
    tiles tile {p} = {key p} := by
  rw [tiles, Multiset.filter_singleton, if_pos h, Multiset.map_singleton]

/-- Pieces with other labels are no blocks of the region. -/
theorem tiles_of_ne (h : ∀ p ∈ A, p.kind ≠ tile) : tiles tile A = 0 := by
  rw [tiles, Multiset.filter_eq_nil.2 h]
  rfl

theorem mem_tiles (h : p.kind = tile) (hp : p ∈ A) :
    key p ∈ tiles tile A :=
  Multiset.mem_map_of_mem key (Multiset.mem_filter.2 ⟨hp, h⟩)

/-- Relinking changes no block. -/
theorem tiles_relinked {l l' : List (Piece κ)}
    (h : List.Forall₂ Relinked l l') :
    tiles tile (l' : Multiset (Piece κ))
      = tiles tile (l : Multiset (Piece κ)) := by
  induction h with
  | nil => rfl
  | cons hp _ ih =>
      rename_i p p' l l' _
      rw [← Multiset.cons_coe, ← Multiset.cons_coe,
        ← Multiset.singleton_add, ← Multiset.singleton_add, tiles_add,
        tiles_add, ih]
      congr 1
      rw [tiles, tiles, Multiset.filter_singleton,
        Multiset.filter_singleton, hp.kind]
      split
      · rw [Multiset.map_singleton, Multiset.map_singleton, hp.key]
      · rfl

end Tiles

-- ====================================================== mask and words

/-- The bit of an order in `nonempty_mask` says whether its list has a
head. -/
def Masked (s : RegionState) : Prop :=
  ∀ k ∈ orders, s.nonemptyMask.getLsbD (orderIndex k) = true
    ↔ s.free (orderIndex k) ≠ 0

section Masked

variable {s s' : RegionState} {j k : Nat}

theorem orderIndex_lt (hk : k ∈ orders) : orderIndex k < 8 := by
  have h : k ≤ 26 := (Finset.mem_Icc.1 hk).2
  show k - 22 < 8
  omega

theorem orderIndex_ne (hj : j ∈ orders) (hk : k ∈ orders) (h : j ≠ k) :
    orderIndex j ≠ orderIndex k := by
  have hj' := (Finset.mem_Icc.1 hj).1
  have hk' := (Finset.mem_Icc.1 hk).1
  unfold orderIndex
  omega

theorem getLsbD_orderBit (hj : j ∈ orders) :
    (orderBit k).getLsbD (orderIndex j)
      = decide (orderIndex j = orderIndex k) :=
  BitWord.getLsbD_bitMask (orderIndex_lt hj)

variable (h : Masked s) (hk : k ∈ orders)
  (hmask : s'.nonemptyMask = s.nonemptyMask)
  (hfree : ∀ i ≠ orderIndex k, s'.free i = s.free i)
include h hk hmask hfree

/-- The list of order `k` got a head. -/
theorem Masked.nonempty (hhead : s'.free (orderIndex k) ≠ 0) :
    Masked (markOrderNonempty k s') := by
  intro j hj
  show (s'.nonemptyMask ||| orderBit k).getLsbD _ = true ↔ s'.free _ ≠ 0
  rw [BitVec.getLsbD_or, getLsbD_orderBit hj, hmask]
  by_cases hjk : j = k
  · subst hjk
    simp [hhead]
  · have hne := orderIndex_ne hj hk hjk
    rw [hfree _ hne, ← h j hj]
    simp [hne]

/-- The list of order `k` may have lost its head. -/
theorem Masked.emptied
    (hhead : s'.free (orderIndex k) ≠ 0 → s.free (orderIndex k) ≠ 0) :
    Masked (markOrderEmptyIfNeeded k s') := by
  intro j hj
  unfold markOrderEmptyIfNeeded
  by_cases hjk : j = k
  · subst hjk
    split
    · next hzero =>
      rw [BitVec.getLsbD_and, BitVec.getLsbD_not, getLsbD_orderBit hj]
      simp [hzero]
    · next hne =>
      rw [hmask, h j hj]
      exact iff_of_true (hhead hne) hne
  · have hne := orderIndex_ne hj hk hjk
    split
    · rw [BitVec.getLsbD_and, BitVec.getLsbD_not, getLsbD_orderBit hj,
        hfree _ hne, ← h j hj, hmask]
      simp [hne, orderIndex_lt hj]
    · rw [hmask, hfree _ hne, h j hj]

end Masked

/-- Every bitmap access so far was to a word of the bitmap. -/
def Accessed (g : Geometry) (s : RegionState) : Prop :=
  ∀ a ∈ s.accesses, a.1 ∈ orders ∧ a.2 < freeBitmapWords g.totalSize a.1

/-- A block that starts in the region has a bit. -/
theorem bitmapAccess_lt {g : Geometry} {addr : Nat} (hg : g.Ok)
    (hk : k ∈ orders) (h : inRegion g addr = true) :
    (bitmapAccess g addr k).1 ∈ orders
      ∧ (bitmapAccess g addr k).2 < freeBitmapWords g.totalSize k := by
  refine ⟨hk, ?_⟩
  have hmax : k ≤ maxOrder := (Finset.mem_Icc.1 hk).2
  obtain ⟨q, hq⟩ := (Nat.pow_dvd_pow 2 hmax).trans hg.whole
  unfold inRegion at h
  rw [Bool.and_eq_true, decide_eq_true_iff, decide_eq_true_iff] at h
  have hloc : bitmapLocation g addr k < q := by
    rw [bitmapLocation, Nat.shiftRight_eq_div_pow]
    refine Nat.div_lt_of_lt_mul ?_
    rw [← hq]
    omega
  have hwords : g.totalSize >>> k = q := by
    rw [hq, Nat.shiftRight_eq_div_pow,
      Nat.mul_div_cancel_left _ (Nat.two_pow_pos k)]
  show bitmapLocation g addr k / 64 < (g.totalSize >>> k + 63) / 64
  rw [hwords]
  omega

theorem Accessed.cons {g : Geometry} {s s' : RegionState} {addr : Nat}
    (h : Accessed g s) (hg : g.Ok) (hk : k ∈ orders)
    (hin : inRegion g addr = true)
    (hs : s'.accesses = bitmapAccess g addr k :: s.accesses) :
    Accessed g s' := by
  intro a ha
  rw [hs] at ha
  rcases List.mem_cons.1 ha with rfl | ha
  · exact bitmapAccess_lt hg hk hin
  · exact h a ha

/-- The region with its free lists, next to the pieces `R` that callers
and operations own. -/
structure RegionAt (g : Geometry) (tile : κ) (birth : Nat)
    (s : RegionState) (lists : Nat → List (Piece κ))
    (R : Multiset (Piece κ)) : Prop where
  holds : Holds s.mem (freePieces lists + R)
  order : ∀ k ∈ orders, OrderOk g tile birth k (s.free (orderIndex k))
    (s.freeBitmap (orderIndex k)) (lists k)
  len : ∀ p ∈ R, p.kind = tile → p.len = 2 ^ (key p).order
  tiling : Tiling g.base g.totalSize minOrder maxOrder
    (tiles tile (freePieces lists + R))
  mask : Masked s
  words : Accessed g s

/-- The invariant of a region. -/
def RegionInv (g : Geometry) (tile : κ) (birth : Nat) (s : RegionState)
    (R : Multiset (Piece κ)) : Prop :=
  ∃ lists, RegionAt g tile birth s lists R

section Region

variable {g : Geometry} {tile : κ} {birth k : Nat} {s : RegionState}
  {lists : Nat → List (Piece κ)} {p : Piece κ} {R : Multiset (Piece κ)}

/-- Every block of the region is placed. -/
theorem RegionAt.placed (h : RegionAt g tile birth s lists R)
    (hp : p ∈ freePieces lists + R) (hkind : p.kind = tile)
    (hlen : p.len = 2 ^ k) : Placed g k p := by
  have hmem := mem_tiles hkind hp
  rw [key_of_len hlen] at hmem
  obtain ⟨hbase, i, hi⟩ := h.tiling.aligned _ hmem
  simp only at hbase hi
  refine ⟨Finset.mem_Icc.2 (h.tiling.order _ hmem), ⟨i, ?_⟩,
    h.tiling.within hmem⟩
  rw [Nat.mul_comm, ← hi]
  exact (Nat.add_sub_cancel' hbase).symm

theorem RegionAt.placed_free (h : RegionAt g tile birth s lists R)
    (hk : k ∈ orders) (hp : p ∈ lists k) : Placed g k p :=
  h.placed (Multiset.mem_add.2 (Or.inl (mem_freePieces hk hp)))
    ((h.order k hk).kind p hp) ((h.order k hk).len p hp)

/-- A list with a block has a head. -/
theorem RegionAt.head_ne (h : RegionAt g tile birth s lists R)
    (hg : g.Ok) (hk : k ∈ orders) (hp : p ∈ lists k) :
    s.free (orderIndex k) ≠ 0 := by
  obtain ⟨e, hseg⟩ := (h.order k hk).seg
  cases hl : lists k with
  | nil =>
      rw [hl] at hp
      cases hp
  | cons q l =>
      have hq : q ∈ lists k := hl ▸ List.mem_cons_self ..
      rw [hl] at hseg
      rw [← show q.base = _ from hseg.1]
      exact (h.placed_free hk hq).base_pos hg

/-- `push_free_block`: an owned block goes to the front of the list of
its order. -/
theorem push_inv (hg : g.Ok) (h : RegionInv g tile birth s ({p} + R))
    (hkind : p.kind = tile) (hlen : p.len = 2 ^ k)
    (hfresh : FreeBlock.trimState p.data p.base = trimNotAllocated →
      Untouched birth p) :
    RegionInv g tile birth (pushFreeBlock g k p.base s) R := by
  obtain ⟨lists, hr⟩ := h
  have hplaced := hr.placed (by simp) hkind hlen
  have hk := hplaced.order
  have hroom := hplaced.room
  have hok := hr.order k hk
  obtain ⟨e, hseg⟩ := hok.seg
  generalize hhead : s.free (orderIndex k) = head at hseg
  have hheadlt : head < 2 ^ 64 := by
    cases hl : lists k with
    | nil =>
        rw [hl] at hseg
        rw [hseg.1]
        decide
    | cons q l =>
        have hq : q ∈ lists k := hl ▸ List.mem_cons_self ..
        rw [hl] at hseg
        rw [← show q.base = head from hseg.1]
        exact (hr.placed_free hk hq).base_lt hg
  -- the block's own node
  let p₁ := (p.store 8 (p.base + 8) 0).store 8 p.base head
  have hrel₁ : Relinked p p₁ :=
    (Relinked.store p (by omega)).trans
      (Relinked.store _ (by simp only [Piece.store_base]; omega))
  have hprev : links.prev p₁ = 0 :=
    FreeBlock.prev_setNext.trans (FreeBlock.prev_setPrev (by decide))
  have hnext : links.next p₁ = head := FreeBlock.next_setNext hheadlt
  have h₁ : Holds (FreeBlock.setNext (FreeBlock.setPrev s.mem p.base 0)
      p.base head) ((lists k : Multiset (Piece κ))
        + ({p₁} + (otherPieces lists k + R))) := by
    have h₀ := hr.holds
    rw [freePieces_split lists hk] at h₀
    have hre : (lists k : Multiset (Piece κ)) + otherPieces lists k
        + ({p} + R) = {p} + ((lists k : Multiset (Piece κ))
          + (otherPieces lists k + R)) := by abel
    rw [hre] at h₀
    have h₂ := (h₀.store (a := p.base + 8) (w := 8) (v := 0)
      ⟨by omega, by omega⟩).store (a := p.base) (w := 8) (v := head)
      ⟨le_rfl, by simp only [Piece.store_base, Piece.store_len]; omega⟩
    rw [add_left_comm] at h₂
    exact h₂
  -- the old head's `prev`
  obtain ⟨l', e', hseg', hm', hrel⟩ := relink_front h₁ hseg
    (fun q hq => by rw [hok.len q hq]; omega)
    (fun q hq => (hr.placed_free hk hq).base_pos hg) (hplaced.base_lt hg)
  obtain ⟨hkinds, hlens, hstates⟩ := hok.relinked (fun _ hq => hq) hrel
  refine ⟨Function.update lists k (p₁ :: l'), ?_, ?_, ?_, ?_, ?_, ?_⟩
  · rw [freePieces_update lists hk, ← Multiset.cons_coe,
      ← Multiset.singleton_add]
    have hre : {p₁} + (l' : Multiset (Piece κ)) + otherPieces lists k + R
        = (l' : Multiset (Piece κ)) + ({p₁} + (otherPieces lists k + R)) := by
      abel
    rw [hre, pushFreeBlock, hhead]
    exact hm'
  · refine order_update hr.order hk (fun j hj => ?_) (fun j hj => ?_) ?_
    · exact Function.update_of_ne hj _ _
    · exact Function.update_of_ne hj _ _
    · simp only [pushFreeBlock, markOrderNonempty, Function.update_self]
      refine ⟨⟨e', ?_⟩, fun i => ?_, ?_, ?_, ?_⟩
      · have hpush : DSeg links (links.prev p₁) p.base (p₁ :: l') e' 0 :=
          DSeg.push (by rw [hnext]; exact hseg')
        rw [hprev] at hpush
        exact hpush
      · rw [Bitmap.get_set, Bool.or_eq_true, decide_eq_true_iff, hok.bits i,
          hplaced.bit_iff, List.exists_mem_cons_iff,
          exists_base_relinked hrel]
        rfl
      · exact List.forall_mem_cons.2 ⟨hkind, hkinds⟩
      · exact List.forall_mem_cons.2 ⟨hlen, hlens⟩
      · refine List.forall_mem_cons.2 ⟨fun hst => ?_, hstates⟩
        rw [hrel₁.trimState] at hst
        exact (hfresh hst).relinked hrel₁
  · intro q hq
    exact hr.len q (Multiset.mem_add.2 (Or.inr hq))
  · have ht := hr.tiling
    rw [freePieces_split lists hk, tiles_add, tiles_add, tiles_add] at ht
    rw [freePieces_update lists hk, ← Multiset.cons_coe,
      ← Multiset.singleton_add, tiles_add, tiles_add, tiles_add,
      tiles_relinked hrel, tiles_singleton (hrel₁.kind.trans hkind),
      hrel₁.key, ← tiles_singleton hkind]
    have hre : ∀ A B C D : Multiset Block,
        A + B + C + D = B + C + (A + D) := by
      intro A B C D
      abel
    rw [hre]
    exact ht
  · refine hr.mask.nonempty hk rfl (fun i hi => ?_) ?_
    · exact Function.update_of_ne hi _ _
    · show Function.update s.free (orderIndex k) p.base (orderIndex k) ≠ 0
      rw [Function.update_self]
      exact hplaced.base_pos hg
  · exact hr.words.cons hg hk hplaced.inRegion rfl

@[simp] theorem markOrderEmptyIfNeeded_mem (k : Nat) (s : RegionState) :
    (markOrderEmptyIfNeeded k s).mem = s.mem := by
  unfold markOrderEmptyIfNeeded
  split <;> rfl

@[simp] theorem markOrderEmptyIfNeeded_free (k : Nat) (s : RegionState) :
    (markOrderEmptyIfNeeded k s).free = s.free := by
  unfold markOrderEmptyIfNeeded
  split <;> rfl

@[simp] theorem markOrderEmptyIfNeeded_freeBitmap (k : Nat)
    (s : RegionState) :
    (markOrderEmptyIfNeeded k s).freeBitmap = s.freeBitmap := by
  unfold markOrderEmptyIfNeeded
  split <;> rfl

@[simp] theorem markOrderEmptyIfNeeded_accesses (k : Nat)
    (s : RegionState) :
    (markOrderEmptyIfNeeded k s).accesses = s.accesses := by
  unfold markOrderEmptyIfNeeded
  split <;> rfl

section Remove

variable {g : Geometry} {k b n m : Nat} {s : RegionState}

/-- What `remove_free_block` leaves, by the links of the block. -/
theorem removeFreeBlock_mem (hn : FreeBlock.next s.mem b = n)
    (hm : FreeBlock.prev s.mem b = m) :
    (removeFreeBlock g k b s).mem
      = if n ≠ 0 then
          FreeBlock.setPrev
            (if m = 0 then s.mem else FreeBlock.setNext s.mem m n) n m
        else if m = 0 then s.mem else FreeBlock.setNext s.mem m n := by
  unfold removeFreeBlock
  rw [hn, hm]
  exact markOrderEmptyIfNeeded_mem ..

theorem removeFreeBlock_free (hn : FreeBlock.next s.mem b = n)
    (hm : FreeBlock.prev s.mem b = m) :
    (removeFreeBlock g k b s).free
      = if m = 0 then Function.update s.free (orderIndex k) n
        else s.free := by
  unfold removeFreeBlock
  rw [hn, hm]
  exact markOrderEmptyIfNeeded_free ..

theorem removeFreeBlock_freeBitmap :
    (removeFreeBlock g k b s).freeBitmap
      = Function.update s.freeBitmap (orderIndex k)
        ((s.freeBitmap (orderIndex k)).clear (bitmapLocation g b k)) :=
  markOrderEmptyIfNeeded_freeBitmap ..

end Remove

/-- `remove_free_block`: a block of a list becomes the caller's, with
its node as it was. -/
theorem remove_inv (hg : g.Ok) (hr : RegionAt g tile birth s lists R)
    (hk : k ∈ orders) (hp : p ∈ lists k) :
    RegionInv g tile birth (removeFreeBlock g k p.base s) ({p} + R) := by
  have hplaced := hr.placed_free hk hp
  have hroom := hplaced.room
  have hok := hr.order k hk
  have hplen := hok.len p hp
  have hholds := hr.holds
  have ht := hr.tiling
  rw [freePieces_split lists hk, add_assoc] at hholds ht
  obtain ⟨l₁, l₂, hl⟩ := List.append_of_mem hp
  have hrest : ∀ q ∈ l₁ ++ l₂, q ∈ lists k := fun q hq =>
    hl ▸ ((List.sublist_cons_self p l₂).append_left l₁).mem hq
  obtain ⟨e, hseg⟩ := hok.seg
  have hne : ∀ q ∈ l₁ ++ l₂, q.base ≠ p.base := by
    intro q hq
    have h := hholds
    rw [hl, Multiset.coe_eq_coe.2 List.perm_middle, ← Multiset.cons_coe,
      ← Multiset.singleton_add, add_assoc] at h
    refine h.base_ne (Multiset.mem_add.2 (Or.inl hq)) (by omega) ?_
    rw [hok.len q (hrest q hq)]
    exact Nat.two_pow_pos k
  have hmems : ∀ q ∈ l₁ ++ p :: l₂, q ∈ lists k := fun q hq => hl ▸ hq
  have hunlink := unlink (hl ▸ hholds) (hl ▸ hseg)
    (fun q hq => by rw [hok.len q (hmems q hq)]; omega)
    (fun q hq => (hr.placed_free hk (hmems q hq)).base_pos hg) rfl rfl
  obtain ⟨l', e', hseg', hm', hrel⟩ := hunlink
  obtain ⟨hkinds, hlens, hstates⟩ := hok.relinked hrest hrel
  refine ⟨Function.update lists k l', ?_, ?_, ?_, ?_, ?_, ?_⟩
  · rw [freePieces_update lists hk, removeFreeBlock_mem rfl rfl, add_assoc,
      add_left_comm (otherPieces lists k)]
    exact hm'
  · refine order_update hr.order hk (fun j hj => ?_) (fun j hj => ?_) ?_
    · rw [removeFreeBlock_free rfl rfl]
      split
      · exact Function.update_of_ne hj _ _
      · rfl
    · rw [removeFreeBlock_freeBitmap]
      exact Function.update_of_ne hj _ _
    · rw [removeFreeBlock_free rfl rfl, removeFreeBlock_freeBitmap,
        Function.update_self]
      refine ⟨⟨e', ?_⟩, fun i => ?_, hkinds, hlens, hstates⟩
      · split at hseg'
        · next hz =>
          rw [if_pos hz, Function.update_self]
          exact hseg'
        · next hz =>
          rw [if_neg hz]
          exact hseg'
      · rw [OrderOk.bits_clear (hl ▸ hok) hplaced hne,
          exists_base_relinked hrel]
  · intro q hq hqk
    rcases mem_singleton_add.1 hq with rfl | hq
    · rw [key_of_len hplen]
      exact hplen
    · exact hr.len q hq hqk
  · rw [hl, Multiset.coe_eq_coe.2 List.perm_middle, ← Multiset.cons_coe,
      ← Multiset.singleton_add] at ht
    rw [freePieces_update lists hk]
    simp only [tiles_add, tiles_relinked hrel] at ht ⊢
    rw [add_assoc, add_left_comm (tiles tile (otherPieces lists k)),
      ← add_assoc, add_comm (tiles tile (l₁ ++ l₂ : List _))]
    exact ht
  · unfold removeFreeBlock
    refine hr.mask.emptied hk rfl (fun i hi => ?_) fun _ => ?_
    · dsimp only
      split
      · exact Function.update_of_ne hi _ _
      · rfl
    · exact hr.head_ne hg hk hp
  · exact hr.words.cons hg hk hplaced.inRegion
      (markOrderEmptyIfNeeded_accesses ..)

end Region

end RsMalloc.Buddy
