/-
When buddies that are both free are joined.

# The race

`free` looks at the buddy under the lock of its order, lets the lock go
and takes it again to push. Two threads that free two buddies at the
same time can both find the other's block busy and both push. The last
theorem of this module is such a run: it ends with nothing live and no
block of the largest order.

# Without it

Only two `free`s that overlap do this. The split loop pushes an upper
half whose buddy it owns, so no other thread can be about to push that
buddy; `try_grow_inplace` pushes nothing. And a block and its buddy lie
in one block of the largest order. So a run in which no two `free`s
overlap in one such block (`FreesApart`) keeps buddies apart, whatever
else overlaps.

The argument is an ownership one. A `free` needs the `turn` of the block
of the largest order that it is in, of which there is one. When it has
found the buddy busy it trades the turn for the right to push
(`Token.last`), and the invariant remembers that the buddy of such a
block is not free; the push gives the turn back. `turnApi` are the calls
with the turns among what they take and give, and a run in which `free`s
are apart is a run of those (`withTurn_step`).
-/
import RsMalloc.Buddy.Agreement

namespace RsMalloc.Buddy

open Conc

-- ================================================================= bits

/-- The bit of a block in the bitmaps of a region. -/
def bitOf (g : Geometry) (b : Nat → Bitmap) (addr order : Nat) : Bool :=
  (b (orderIndex order)).get (bitmapLocation g addr order)

/-- The address of a block of order `k`. -/
def AlignedAt (g : Geometry) (k a : Nat) : Prop :=
  g.base ≤ a ∧ 2 ^ k ∣ a - g.base

section Bits

variable {g : Geometry} {a b j k : Nat} {s : RegionState}

theorem AlignedAt.location_inj (ha : AlignedAt g k a) (hb : AlignedAt g k b)
    (h : bitmapLocation g a k = bitmapLocation g b k) : a = b := by
  obtain ⟨ha₁, i, hi⟩ := ha
  obtain ⟨hb₁, j, hj⟩ := hb
  unfold bitmapLocation at h
  rw [hi, hj, Nat.shiftRight_eq_div_pow, Nat.shiftRight_eq_div_pow,
    Nat.mul_div_cancel_left _ (Nat.two_pow_pos k),
    Nat.mul_div_cancel_left _ (Nat.two_pow_pos k)] at h
  rw [← h] at hj
  omega

theorem AlignedAt.buddy (ha : AlignedAt g k a) :
    AlignedAt g k (buddy g a k) := by
  obtain ⟨-, i, hi⟩ := ha
  refine ⟨Nat.le_add_right .., ⟨i ^^^ 1, ?_⟩⟩
  unfold Buddy.buddy
  rw [hi, mul_xor_two_pow, Nat.add_sub_cancel_left]

theorem AlignedAt.buddy_buddy (ha : AlignedAt g k a) :
    Buddy.buddy g (Buddy.buddy g a k) k = a := by
  obtain ⟨ha₁, i, hi⟩ := ha
  unfold Buddy.buddy
  rw [hi, mul_xor_two_pow, Nat.add_sub_cancel_left, mul_xor_two_pow,
    Nat.xor_assoc, Nat.xor_self, Nat.xor_zero, ← hi]
  exact Nat.add_sub_cancel' ha₁

theorem AlignedAt.buddy_ne (ha : AlignedAt g k a) :
    Buddy.buddy g a k ≠ a := by
  obtain ⟨ha₁, i, hi⟩ := ha
  intro h
  unfold Buddy.buddy at h
  rw [hi, mul_xor_two_pow] at h
  have hmul : 2 ^ k * (i ^^^ 1) = 2 ^ k * i := by omega
  have hxor := Nat.eq_of_mul_eq_mul_left (Nat.two_pow_pos k) hmul
  rcases Nat.even_or_odd i with hev | hodd
  · rw [Nat.xor_one_of_even hev] at hxor
    omega
  · obtain ⟨c, rfl⟩ := hodd
    rw [Nat.xor_one_of_odd ⟨c, rfl⟩] at hxor
    omega

/-- The buddy of a lower half is the upper half. -/
theorem AlignedAt.buddy_lower (ha : AlignedAt g k a)
    (h : 2 ^ (k + 1) ∣ a - g.base) : Buddy.buddy g a k = a + 2 ^ k := by
  obtain ⟨q, hq⟩ := h
  have hoff : a - g.base = 2 ^ k * (2 * q) := by
    rw [hq]
    ring
  have hbase := ha.1
  unfold Buddy.buddy
  rw [hoff, mul_xor_two_pow, Nat.xor_one_of_even ⟨q, by ring⟩, Nat.mul_add,
    ← hoff]
  omega

theorem Placed.alignedAt {κ : Type} {p : Piece κ} (h : Placed g k p) :
    AlignedAt g k p.base := by
  obtain ⟨i, hi⟩ := h.at_
  refine ⟨by omega, ⟨i, ?_⟩⟩
  rw [hi, Nat.add_sub_cancel_left, Nat.mul_comm]

/-- Taking a block off its list sets no bit. -/
theorem bitOf_remove
    (h : bitOf g (removeFreeBlock g j b s).freeBitmap a k = true) :
    bitOf g s.freeBitmap a k = true := by
  unfold bitOf at h ⊢
  rw [removeFreeBlock_freeBitmap] at h
  by_cases hjk : orderIndex k = orderIndex j
  · rw [hjk, Function.update_self, Bitmap.get_clear, Bool.and_eq_true] at h
    rw [hjk]
    exact h.2
  · rwa [Function.update_of_ne hjk] at h

/-- Pushing a block changes no bit of another order, -/
theorem bitOf_push_of_ne (hj : j ∈ orders) (hk : k ∈ orders) (h : k ≠ j) :
    bitOf g (pushFreeBlock g j b s).freeBitmap a k
      = bitOf g s.freeBitmap a k := by
  have hbits : (pushFreeBlock g j b s).freeBitmap
      = Function.update s.freeBitmap (orderIndex j)
        ((s.freeBitmap (orderIndex j)).set (bitmapLocation g b j)) := rfl
  unfold bitOf
  rw [hbits, Function.update_of_ne (orderIndex_ne hk hj h)]

/-- and of its own order it sets the block's bit. -/
theorem bitOf_push (ha : AlignedAt g k a) (hb : AlignedAt g k b)
    (h : bitOf g (pushFreeBlock g k b s).freeBitmap a k = true) :
    a = b ∨ bitOf g s.freeBitmap a k = true := by
  have hbits : (pushFreeBlock g k b s).freeBitmap
      = Function.update s.freeBitmap (orderIndex k)
        ((s.freeBitmap (orderIndex k)).set (bitmapLocation g b k)) := rfl
  unfold bitOf at h ⊢
  rw [hbits, Function.update_self, Bitmap.get_set, Bool.or_eq_true,
    decide_eq_true_iff] at h
  rcases h with h | h
  · exact Or.inl (ha.location_inj hb h)
  · exact Or.inr h

end Bits

variable {g : Geometry}

/-- A block that somebody owns is on no list. -/
theorem RegionInv.bitOf_owned {κ : Type} [DecidableEq κ] {tile : κ}
    {birth k : Nat} {s : RegionState} {p : Piece κ} {R : Multiset (Piece κ)}
    (h : RegionInv g tile birth s ({p} + R)) (hp : IsTile tile k p) :
    bitOf g s.freeBitmap p.base k = false := by
  have hplaced := h.placed hp
  have hpos := Nat.two_pow_pos k
  obtain ⟨lists, hr⟩ := h
  rw [← Bool.not_eq_true]
  intro hbit
  obtain ⟨q, hq, hbase⟩ := ((hr.order k hplaced.order).bits _).1 hbit
  have hqp : q.base = p.base := by
    rw [hbase]
    exact ((hplaced.bit_iff _).1 rfl).symm
  have hqlen := (hr.order k hplaced.order).len q hq
  have hlen := hp.len
  refine hr.holds_front.base_ne ?_ (by omega) (by omega) hqp
  exact Multiset.mem_add.2 (Or.inl (mem_freePieces hplaced.order hq))

-- =============================================================== tokens

/-- What a thread can own: a block, the block that it is about to push
and whose buddy it has found busy, the turn to free in the `i`-th block
of the largest order. -/
inductive Token where
  | own (p : Piece Unit)
  | last (p : Piece Unit)
  | turn (i : Nat)

namespace Token

/-- The block of a token. -/
def pieces : Token → Multiset (Piece Unit)
  | own p => {p}
  | last p => {p}
  | turn _ => 0

/-- The block of the largest order of a turn, or of what it was traded
for. -/
def top (g : Geometry) : Token → Option Nat
  | own _ => none
  | last p => some (topOf g p.base)
  | turn i => some i

end Token

/-- The ledger of tokens. -/
def turns : Ledger Unit Token where
  pieces :=
    { toFun := fun R => R.bind Token.pieces
      map_zero' := Multiset.zero_bind _
      map_add' := fun R R' => Multiset.add_bind R R' _ }
  own := .own
  last := .last
  turn i := {.turn i}
  pieces_own _ := Multiset.singleton_bind ..
  pieces_last _ := Multiset.singleton_bind ..
  pieces_turn _ := Multiset.singleton_bind ..

theorem mem_pieces_last {p : Piece Unit} {R : Multiset Token}
    (h : .last p ∈ R) : p ∈ turns.pieces R :=
  Multiset.mem_bind.2 ⟨.last p, h, Multiset.mem_singleton_self p⟩

/-- Buddies are apart: no two are both on the list of their order, and
the buddy of a block that is about to be pushed is on no list. At most
one thread has the turn of a block of the largest order. -/
structure Merging (g : Geometry) (b : Nat → Bitmap) (R : Multiset Token) :
    Prop where
  apart : ∀ k ∈ orders, k < maxOrder → ∀ a, AlignedAt g k a →
    bitOf g b a k = true → bitOf g b (buddy g a k) k = false
  last : ∀ p, .last p ∈ R → ∀ k ∈ orders, k < maxOrder → p.len = 2 ^ k →
    bitOf g b (buddy g p.base k) k = false
  one : ∀ i, R.countP (fun t => t.top g = some i) ≤ 1

namespace Merging

variable {g : Geometry} {b : Nat → Bitmap} {R : Multiset Token}
  {t t' : Token} {p q : Piece Unit} {W : Multiset (Piece Unit)}
  {birth i k : Nat} {s : RegionState}

/-- Trade one token for another that is the same turn. -/
theorem trade (h : Merging g b ({t} + R)) (ht : t.top g = t'.top g)
    (hlast : ∀ p, t' = .last p → ∀ k ∈ orders, k < maxOrder →
      p.len = 2 ^ k → bitOf g b (buddy g p.base k) k = false) :
    Merging g b ({t'} + R) where
  apart := h.apart
  last p hp := by
    rcases Multiset.mem_add.1 hp with hp | hp
    · exact hlast p (Multiset.mem_singleton.1 hp).symm
    · exact h.last p (Multiset.mem_add.2 (Or.inr hp))
  one i := by
    have hone := h.one i
    rw [Multiset.singleton_add, Multiset.countP_cons] at hone ⊢
    rwa [ht] at hone

/-- A thread with a turn knows that nobody else is about to push there. -/
theorem alone (h : Merging g b ({t} + R)) (ht : t.top g = some i)
    (hp : .last p ∈ R) : topOf g p.base ≠ i := by
  rintro rfl
  have hone := h.one (topOf g p.base)
  rw [Multiset.singleton_add, Multiset.countP_cons, if_pos ht] at hone
  have hpos : 0 < R.countP (fun t => t.top g = some (topOf g p.base)) :=
    Multiset.countP_pos.2 ⟨_, hp, rfl⟩
  omega

/-- A block that is about to be pushed is one of the region's blocks. -/
theorem last_placed (hr : RegionInv g () birth s (W + turns.pieces R))
    (hq : .last q ∈ R) (hlen : q.len = 2 ^ k) : Placed g k q := by
  obtain ⟨lists, hl⟩ := hr
  have hmem := mem_pieces_last hq
  exact hl.placed (by simp [hmem]) rfl hlen

/-- Bits may be cleared. -/
theorem mono {b' : Nat → Bitmap} (h : Merging g b R)
    (hb : ∀ a k, bitOf g b' a k = true → bitOf g b a k = true) :
    Merging g b' R where
  apart k hk hlt a ha hbit := by
    have hold := h.apart k hk hlt a ha (hb a k hbit)
    rw [← Bool.not_eq_true] at hold ⊢
    exact fun hnew => hold (hb _ _ hnew)
  last p hp k hk hlt hlen := by
    have hold := h.last p hp k hk hlt hlen
    rw [← Bool.not_eq_true] at hold ⊢
    exact fun hnew => hold (hb _ _ hnew)
  one := h.one

/-- A block may be pushed when its buddy is on no list and nobody else
is about to push that buddy. -/
theorem push (h : Merging g s.freeBitmap R) (hp : Placed g k p)
    (hbuddy : k < maxOrder →
      bitOf g s.freeBitmap (buddy g p.base k) k = false)
    (hother : k < maxOrder → ∀ q, .last q ∈ R → q.len = 2 ^ k →
      AlignedAt g k q.base ∧ q.base ≠ buddy g p.base k) :
    Merging g (pushFreeBlock g k p.base s).freeBitmap R where
  apart j hj hlt a ha hbit := by
    by_cases hjk : j = k
    · subst hjk
      rw [← Bool.not_eq_true]
      intro hnew
      have hpal := hp.alignedAt
      rcases bitOf_push ha hpal hbit with rfl | hold
      · rcases bitOf_push ha.buddy hpal hnew with hself | hold
        · exact ha.buddy_ne hself
        · rw [hbuddy hlt] at hold
          cases hold
      · rcases bitOf_push ha.buddy hpal hnew with hself | hold'
        · rw [← hself, ha.buddy_buddy, hold] at hbuddy
          cases hbuddy hlt
        · rw [h.apart j hj hlt a ha hold] at hold'
          cases hold'
    · rw [bitOf_push_of_ne hp.order hj hjk] at hbit ⊢
      exact h.apart j hj hlt a ha hbit
  last q hq j hj hlt hlen := by
    have hold := h.last q hq j hj hlt hlen
    by_cases hjk : j = k
    · subst hjk
      rw [← Bool.not_eq_true]
      intro hnew
      obtain ⟨hal, hne⟩ := hother hlt q hq hlen
      rcases bitOf_push hal.buddy hp.alignedAt hnew with hself | hold'
      · refine hne ?_
        rw [← hself, hal.buddy_buddy]
      · rw [hold] at hold'
        cases hold'
    · rw [bitOf_push_of_ne hp.order hj hjk]
      exact hold
  one := h.one

/-- The condition survives what the operations do. -/
theorem keeps : turns.Keeps (fun _ => Merging g) g () birth where
  owned m b p R := by
    constructor
    · intro h
      refine ⟨h.apart, fun q hq => h.last q ?_, ?_⟩
      · exact Multiset.mem_add.2 (Or.inr hq)
      · intro i
        have hone := h.one i
        rwa [Multiset.singleton_add, Multiset.countP_cons_of_neg _ (by nofun)]
          at hone
    · intro h
      refine ⟨h.apart, fun q hq => h.last q ?_, ?_⟩
      · rcases Multiset.mem_add.1 hq with hq | hq
        · cases Multiset.mem_singleton.1 hq
        · exact hq
      · intro i
        rw [Multiset.singleton_add, Multiset.countP_cons_of_neg _ (by nofun)]
        exact h.one i
  renewed m b p p' R hbase hlen h := by
    have htop : Token.top g (.last p) = Token.top g (.last p') :=
      congrArg (fun a => some (topOf g a)) hbase.symm
    refine h.trade htop fun q hq k hk hlt hqlen => ?_
    cases hq
    rw [hbase]
    have hmem : .last p ∈ {Token.last p} + R :=
      mem_singleton_add_self
    exact h.last p hmem k hk hlt (hlen ▸ hqlen)
  noded s k p W R life trim _ _ h := h
  removed s k p lists R _ _ _ h := h.mono fun _ _ => bitOf_remove
  halved s k p q R hr hp hq hk hbud h := by
    refine h.push (hr.placed hp) (fun _ => ?_) fun _ r hlast hlen => ?_
    · rw [hbud]
      rw [add_left_comm] at hr
      exact hr.bitOf_owned hq
    · rw [hbud]
      have hmem := mem_pieces_last hlast
      have hpos := Nat.two_pow_pos k
      have hqlen := hq.len
      have hplaced : Placed g k r := by
        rw [← add_assoc] at hr
        exact last_placed hr hlast hlen
      refine ⟨hplaced.alignedAt, ?_⟩
      rw [add_left_comm] at hr
      obtain ⟨lists, hl⟩ := hr
      exact hl.holds_front.base_ne (by simp [hmem]) (by omega) (by omega)
  settled s k p R hp hfree h := by
    refine h.trade rfl fun q hq j hj hlt hlen => ?_
    cases hq
    have hjk : j = k := Nat.pow_right_injective (le_refl 2)
      (hlen.symm.trans hp.len)
    subst hjk
    exact hfree hlt
  pushed s k p R hr hp h := by
    have hplaced := hr.placed hp
    have hfree := h.last p
      mem_singleton_add_self
    have hpush := h.push hplaced
      (fun hlt => hfree k hplaced.order hlt hp.len) fun hlt q hq hlen => ?_
    · refine hpush.trade rfl fun _ hq => ?_
      cases hq
    · rcases Multiset.mem_add.1 hq with hq | hq
      · cases Multiset.mem_singleton.1 hq
        exact ⟨hplaced.alignedAt, hplaced.alignedAt.buddy_ne.symm⟩
      · refine ⟨(last_placed hr hq hlen).alignedAt, fun hbud => ?_⟩
        -- a buddy lies in the same block of the largest order
        refine h.alone rfl hq ?_
        rw [hbud, topOf_buddy hlt]

end Merging

-- ================================================ calls that take turns

/-- The turn a call needs. -/
def Call.needs (g : Geometry) : Call → Multiset (Block ⊕ Nat)
  | .free b => {.inr (topOf g b.addr)}
  | _ => 0

/-- The operations on one region, with the turns among what a call takes
and gives. -/
def turnApi (T : Type) (g : Geometry) :
    Api T RegionState Unit Call (Option (Nat × Nat)) (Block ⊕ Nat) where
  prog _ := Call.prog g
  takes c := c.takes.map .inl + c.needs g
  gives c o := (c.gives o).map .inl + c.needs g

/-- What a token is to a caller. -/
def Token.key : Token → Block ⊕ Nat
  | .own p => .inl (Buddy.key p)
  | .last p => .inl (Buddy.key p)
  | .turn i => .inr i

/-- A token that a caller may hold. -/
def Token.Held (t : Token) : Prop := ∀ p, t ≠ .last p

/-- What stands for the blocks and the turn of a call. -/
theorem standsFor_takes {c : Call} {r : Multiset Token}
    (h : StandsFor Token.key Token.Held (c.takes.map .inl + c.needs g) r) :
    ∃ A : Multiset (Piece Unit), r = A.map turns.own + c.turn turns g
      ∧ A.map key = c.takes := by
  obtain ⟨hkey, hheld⟩ := h
  have hblock : ∀ t ∈ r, ∀ b, t.key = .inl b →
      ∃ p, t = .own p ∧ Buddy.key p = b := by
    intro t ht b hb
    cases t with
    | own p => exact ⟨p, rfl, Sum.inl.inj hb⟩
    | last p => exact absurd rfl (hheld _ ht p)
    | turn _ => cases hb
  cases c with
  | alloc order h =>
      have hr : r = 0 := Multiset.map_eq_zero.1 hkey
      exact ⟨0, hr, rfl⟩
  | free b =>
      have hkey' : r.map Token.key
          = .inl b ::ₘ {.inr (topOf g b.addr)} := hkey
      have hmem : .inl b ∈ r.map Token.key := by
        rw [hkey']
        exact Multiset.mem_cons_self ..
      obtain ⟨t, ht, htb⟩ := Multiset.mem_map.1 hmem
      obtain ⟨p, rfl, hp⟩ := hblock t ht b htb
      obtain ⟨r', rfl⟩ := Multiset.exists_cons_of_mem ht
      rw [Multiset.map_cons, htb, Multiset.cons_inj_right] at hkey'
      obtain ⟨u, rfl, hu⟩ := Multiset.map_eq_singleton.1 hkey'
      have hturn : u = .turn (topOf g b.addr) := by
        cases u with
        | turn i => exact congrArg Token.turn (Sum.inr.inj hu)
        | own _ => cases hu
        | last _ => cases hu
      subst hturn
      exact ⟨{p}, rfl, by rw [Multiset.map_singleton, hp]; rfl⟩
  | grow b =>
      have hkey' : r.map Token.key = {.inl b} := hkey
      obtain ⟨t, rfl, ht⟩ := Multiset.map_eq_singleton.1 hkey'
      obtain ⟨p, rfl, hp⟩ := hblock t (Multiset.mem_singleton_self t) b ht
      exact ⟨{p}, rfl, by rw [Multiset.map_singleton, hp]; rfl⟩
  | tick stamp =>
      have hr : r = 0 := Multiset.map_eq_zero.1 hkey
      exact ⟨0, hr, rfl⟩

/-- What a call leaves stands for what it gives. -/
theorem standsFor_gives {c : Call} {o : Option (Nat × Nat)}
    {A : Multiset (Piece Unit)} (h : A.map key = c.gives o) :
    StandsFor Token.key Token.Held ((c.gives o).map .inl + c.needs g)
      (A.map turns.own + c.turn turns g) := by
  have hturn : (c.turn turns g).map Token.key = c.needs g
      ∧ ∀ t ∈ c.turn turns g, t.Held := by
    cases c with
    | free b =>
        refine ⟨rfl, fun t ht => ?_⟩
        rw [Multiset.mem_singleton.1 ht]
        exact fun _ => nofun
    | _ => exact ⟨rfl, nofun⟩
  refine ⟨?_, fun t ht => ?_⟩
  · rw [Multiset.map_add, hturn.1, ← h, Multiset.map_map, Multiset.map_map]
    rfl
  · rcases Multiset.mem_add.1 ht with ht | ht
    · obtain ⟨p, -, rfl⟩ := Multiset.mem_map.1 ht
      exact fun _ => nofun
    · exact hturn.2 t ht

section Pool

variable {T : Type}

/-- What each thread is executing. -/
abbrev Threads (T : Type) :=
  T → Option (Call × Prog RegionState Unit (Option (Nat × Nat)))

/-- No two threads are in `free` in one block of the largest order. -/
def FreesApart (g : Geometry) (f : Threads T) : Prop :=
  ∀ t u b c p q, f t = some (.free b, p) → f u = some (.free c, q) →
    topOf g b.addr = topOf g c.addr → t = u

theorem FreesApart.of_subsingleton [Subsingleton T] (f : Threads T) :
    FreesApart g f :=
  fun _ _ _ _ _ _ _ _ _ => Subsingleton.elim _ _

/-- Some thread is in `free` in the `i`-th block of the largest order. -/
def Freeing (g : Geometry) (f : Threads T) (i : Nat) : Prop :=
  ∃ t b p, f t = some (.free b, p) ∧ topOf g b.addr = i

/-- Only finitely many blocks are being freed. -/
theorem exists_lt_of_freeing [Fintype T] (g : Geometry) (f : Threads T) :
    ∃ n, ∀ i, Freeing g f i → i < n := by
  have hone : ∀ t, ∃ n, ∀ b p, f t = some (.free b, p) →
      topOf g b.addr < n := by
    intro t
    by_cases h : ∃ b p, f t = some (.free b, p)
    · obtain ⟨b, p, h⟩ := h
      refine ⟨topOf g b.addr + 1, fun c q hc => ?_⟩
      rw [h] at hc
      cases hc
      exact Nat.lt_succ_self _
    · exact ⟨0, fun b p hb => absurd ⟨b, p, hb⟩ h⟩
  choose n hn using hone
  refine ⟨∑ t, n t, ?_⟩
  rintro i ⟨t, b, p, h, rfl⟩
  exact (hn t b p h).trans_le (Finset.single_le_sum
    (fun _ _ => Nat.zero_le _) (Finset.mem_univ t))

open Classical in
/-- The turns of the first `n` blocks of the largest order that no
thread has taken. -/
noncomputable def turnOf (g : Geometry) (n : Nat) (f : Threads T) :
    Multiset (Block ⊕ Nat) :=
  ((Finset.range n).filter fun i => ¬ Freeing g f i).val.map .inr

section Turn

variable [DecidableEq T] {g : Geometry} {f : Threads T} {t : T} {c : Call}
  {n : Nat} {p p' : Prog RegionState Unit (Option (Nat × Nat))}

/-- What is being freed without the call of one thread. -/
theorem freeing_iff (h : f t = some (c, p)) {i : Nat} :
    Freeing g f i ↔ Freeing g (Function.update f t none) i
      ∨ .inr i ∈ c.needs g := by
  constructor
  · rintro ⟨u, b, q, hu, hi⟩
    by_cases hut : u = t
    · subst hut
      rw [h] at hu
      cases hu
      exact Or.inr (hi ▸ Multiset.mem_singleton_self _)
    · exact Or.inl ⟨u, b, q, by rwa [Function.update_of_ne hut], hi⟩
  · rintro (⟨u, b, q, hu, hi⟩ | hi)
    · by_cases hut : u = t
      · subst hut
        rw [Function.update_self] at hu
        cases hu
      · rw [Function.update_of_ne hut] at hu
        exact ⟨u, b, q, hu, hi⟩
    · cases c with
      | free b =>
          exact ⟨t, b, p, h, (Sum.inr.inj (Multiset.mem_singleton.1 hi)).symm⟩
      | _ => cases hi

/-- A thread that is in a call has the turn that the call needs. -/
theorem turnOf_drop (h : f t = some (c, p)) (hone : FreesApart g f)
    (hn : ∀ i, Freeing g f i → i < n) :
    turnOf g n (Function.update f t none) = turnOf g n f + c.needs g := by
  classical
  unfold turnOf
  cases c with
  | free b =>
      have hself : Freeing g f (topOf g b.addr) := ⟨t, b, p, h, rfl⟩
      have hidle : ¬ Freeing g (Function.update f t none)
          (topOf g b.addr) := by
        rintro ⟨u, c, q, hu, hi⟩
        by_cases hut : u = t
        · subst hut
          rw [Function.update_self] at hu
          cases hu
        · rw [Function.update_of_ne hut] at hu
          exact hut (hone u t c b q p hu h hi)
      have hset : ((Finset.range n).filter fun i =>
            ¬ Freeing g (Function.update f t none) i)
          = insert (topOf g b.addr)
            ((Finset.range n).filter fun i => ¬ Freeing g f i) := by
        ext i
        have hi : .inr i ∈ (Call.free b).needs g ↔ i = topOf g b.addr :=
          Multiset.mem_singleton.trans Sum.inr_injective.eq_iff
        rw [Finset.mem_insert, Finset.mem_filter, Finset.mem_filter,
          freeing_iff h, hi, Finset.mem_range]
        constructor
        · rintro ⟨hlt, hnot⟩
          by_cases heq : i = topOf g b.addr
          · exact Or.inl heq
          · exact Or.inr ⟨hlt, not_or.2 ⟨hnot, heq⟩⟩
        · rintro (rfl | ⟨hlt, hnot⟩)
          · exact ⟨hn _ hself, hidle⟩
          · exact ⟨hlt, (not_or.1 hnot).1⟩
      rw [hset, Finset.insert_val_of_notMem, Multiset.map_cons,
        ← Multiset.singleton_add, add_comm]
      · rfl
      · exact fun hmem => (Finset.mem_filter.1 hmem).2 hself
  | _ =>
      have hsame : ∀ i, Freeing g (Function.update f t none) i
          ↔ Freeing g f i := fun i =>
        ⟨fun hi => (freeing_iff h).2 (Or.inl hi),
          fun hi => ((freeing_iff h).1 hi).resolve_right nofun⟩
      simp only [hsame]
      exact (add_zero _).symm

end Turn

/-- The world with the turns among what callers hold. -/
noncomputable def withTurn (g : Geometry) (n : Nat)
    (w : World T RegionState Unit Call (Option (Nat × Nat)) Block) :
    World T RegionState Unit Call (Option (Nat × Nat)) (Block ⊕ Nat) :=
  ⟨w.state, w.live.map .inl + turnOf g n w.thread, w.thread⟩

variable [DecidableEq T] {g : Geometry} {n : Nat}
  {w w' : World T RegionState Unit Call (Option (Nat × Nat)) Block}

/-- A step of a run in which `free`s are apart is a step in which each
that frees has its turn. -/
theorem withTurn_step (hs : Step (api T g) w w')
    (hw : FreesApart g w.thread) (hw' : FreesApart g w'.thread)
    (hn : ∀ i, Freeing g w.thread i → i < n)
    (hn' : ∀ i, Freeing g w'.thread i → i < n) :
    Step (turnApi T g) (withTurn g n w) (withTurn g n w') := by
  cases hs with
  | call t c idle held =>
      obtain ⟨L, hL⟩ := Multiset.le_iff_exists_add.1 held
      have hsub : w.live - (api T g).takes c = L := by
        rw [hL, add_tsub_cancel_left]
      have hdrop := turnOf_drop (Function.update_self ..) hw' hn'
      rw [Function.update_idem, ← idle, Function.update_eq_self] at hdrop
      have hlive : (withTurn g n w).live = (turnApi T g).takes c
          + (L.map .inl + turnOf g n (Function.update w.thread t
            (some (c, (api T g).prog t c)))) := by
        show w.live.map .inl + turnOf g n w.thread = _
        rw [hL, Multiset.map_add, hdrop]
        show c.takes.map .inl + _ + _ = c.takes.map .inl + c.needs g + _
        abel
      have hstep : Step (turnApi T g) (withTurn g n w) _ := .call t c idle
        (hlive ▸ Multiset.le_add_right ..)
      rw [hlive, add_tsub_cancel_left] at hstep
      rw [hsub]
      exact hstep
  | @run t i c u k busy =>
      have hstep : Step (turnApi T g) (withTurn g n w) _ := .run t i busy
      have hdrop := turnOf_drop (Function.update_self ..) hw' hn'
      rw [Function.update_idem, turnOf_drop busy hw hn,
        add_left_inj] at hdrop
      unfold withTurn at hstep ⊢
      rw [← hdrop]
      exact hstep
  | @finish t c a done =>
      have hstep : Step (turnApi T g) (withTurn g n w) _ := .finish t done
      have hlive : (withTurn g n w).live + (turnApi T g).gives c a
          = (w.live + (api T g).gives c a).map .inl
            + turnOf g n (Function.update w.thread t none) := by
        rw [turnOf_drop done hw hn, Multiset.map_add]
        show w.live.map .inl + turnOf g n w.thread
          + ((c.gives a).map .inl + c.needs g)
          = w.live.map .inl + (c.gives a).map .inl + _
        abel
      rw [hlive] at hstep
      exact hstep

/-- A run in which `free`s are apart, with enough turns. -/
theorem withTurn_reach [Fintype T] (hw : ReachIn (api T g)
      (fun w => FreesApart g w.thread) w w') :
    ∃ k, ∀ n ≥ k, Reach (turnApi T g) (withTurn g n w) (withTurn g n w') := by
  induction hw with
  | init _ => exact ⟨0, fun _ _ => .init⟩
  | @step w₁ w₂ h hs hP ih =>
      obtain ⟨k, hk⟩ := ih
      obtain ⟨k₁, hk₁⟩ := exists_lt_of_freeing g w₁.thread
      obtain ⟨k₂, hk₂⟩ := exists_lt_of_freeing g w₂.thread
      refine ⟨k + k₁ + k₂, fun n hn => ?_⟩
      refine (hk n (by omega)).step (withTurn_step hs h.holds hP ?_ ?_)
      · intro i hi
        have := hk₁ i hi
        omega
      · intro i hi
        have := hk₂ i hi
        omega

end Pool

-- ====================================================== buddies are apart

/-- No two buddies below the largest order are both free. -/
def BuddiesApart (g : Geometry) (s : RegionState) : Prop :=
  ∀ k ∈ orders, k < maxOrder → ∀ a, AlignedAt g k a →
    blockIsFree g a k s = true → blockIsFree g (buddy g a k) k s = false

/-- The fill loop pushes blocks of the largest order. -/
theorem bitOf_fillRegion {life n offset a k : Nat} {s : RegionState}
    (hk : k ∈ orders) (hlt : k < maxOrder) :
    bitOf g (fillRegion g life n offset s).freeBitmap a k
      = bitOf g s.freeBitmap a k := by
  induction n generalizing offset s with
  | zero => rfl
  | succ n ih =>
      unfold fillRegion
      split
      · rw [ih]
        exact bitOf_push_of_ne (by decide) hk hlt.ne
      · rfl

theorem bitOf_newRegion {base size nodeId stamp a k : Nat} {m : Mem}
    (hk : k ∈ orders) (hlt : k < maxOrder) :
    bitOf (newGeometry base size nodeId)
      (newRegion base size nodeId stamp m).freeBitmap a k = false :=
  (bitOf_fillRegion hk hlt).trans Bitmap.get_empty

section Runs

variable {T : Type} [Fintype T] [DecidableEq T]
  {base size nodeId stamp : Nat} {m : Mem}
  {w : World T RegionState Unit Call (Option (Nat × Nat)) Block}
  (hpos : 0 < base) (hfits : base + normalizeRegionSize size ≤ 2 ^ 64)
include hpos hfits

/-- Between operations, what is owned is what is live. -/
theorem regionAt_of_reach (hw : Reach (api T (newGeometry base size nodeId))
      (start T base size nodeId stamp m) w)
    (hidle : ∀ t, w.thread t = none) :
    ∃ (L : Multiset (Piece Unit)) (lists : Nat → List (Piece Unit)),
      tiles () L = w.live
      ∧ RegionAt (newGeometry base size nodeId) () (stamp % 2 ^ 32)
        w.state lists L := by
  obtain ⟨L, held, hlive, hnone, lists, hr⟩ := owned_of_reach hpos hfits hw
  rw [Finset.sum_eq_zero fun t _ => hnone t (hidle t), add_zero] at hr
  refine ⟨L, lists, ?_, hr⟩
  rw [tiles, Multiset.filter_eq_self.2 fun _ _ => rfl]
  exact hlive

/-- A run in which `free`s are apart keeps buddies apart. -/
theorem buddiesApart_of_reach
    (hw : ReachIn (api T (newGeometry base size nodeId))
      (fun w => FreesApart (newGeometry base size nodeId) w.thread)
      (start T base size nodeId stamp m) w) :
    BuddiesApart (newGeometry base size nodeId) w.state := by
  have hg := newGeometry_ok nodeId hpos hfits
  let I := turns.Inv (fun _ => Merging (newGeometry base size nodeId))
    (newGeometry base size nodeId) () (stamp % 2 ^ 32)
  obtain ⟨n, hn⟩ := withTurn_reach hw
  have hfirst : Owned (turnApi T (newGeometry base size nodeId)) I Token.key
      Token.Held (withTurn (newGeometry base size nodeId) n
        (start T base size nodeId stamp m)) ((Multiset.range n).map .turn)
      (fun _ => 0) := by
    refine ⟨⟨?_, fun t ht => ?_⟩, fun _ _ => rfl, ?_, nofun⟩
    · classical
      show _ = 0 + turnOf _ n fun _ => none
      unfold turnOf
      rw [zero_add, Multiset.map_map, Finset.filter_true_of_mem]
      · rfl
      · rintro i - ⟨t, b, p, h, -⟩
        cases h
    · obtain ⟨i, -, rfl⟩ := Multiset.mem_map.1 ht
      exact fun _ => nofun
    · rw [Finset.sum_const_zero, add_zero]
      refine ⟨?_, fun k hk hlt a _ hbit => ?_, fun p hp => ?_, fun i => ?_⟩
      · have hzero : turns.pieces ((Multiset.range n).map .turn) = 0 := by
          show ((Multiset.range n).map Token.turn).bind Token.pieces = 0
          rw [Multiset.bind_map]
          exact Multiset.bind_zero _
        rw [hzero]
        exact newRegion_inv hg
      · cases (bitOf_newRegion hk hlt).symm.trans hbit
      · obtain ⟨i, -, hi⟩ := Multiset.mem_map.1 hp
        cases hi
      · rw [Multiset.countP_map, ← Multiset.countP_eq_card_filter]
        refine (Multiset.countP_congr rfl fun j _ => ?_).trans_le
          (Multiset.nodup_iff_count_le_one.1 (Multiset.nodup_range n) i)
        exact propext (Option.some_inj.trans eq_comm)
  have hcall : ∀ (_ : T) (c : Call) r s f,
      StandsFor Token.key Token.Held
        (c.takes.map .inl + c.needs (newGeometry base size nodeId)) r →
      I s (r + f) → Safe I (c.prog (newGeometry base size nodeId))
        (fun a r' => StandsFor Token.key Token.Held ((c.gives a).map .inl
          + c.needs (newGeometry base size nodeId)) r') r := by
    intro _ c r s f hr hI
    obtain ⟨A, rfl, hkey⟩ := standsFor_takes hr
    refine (call_safe hg Merging.keeps c hkey hI).mono fun o r' ho => ?_
    obtain ⟨A', rfl, hkey'⟩ := ho
    exact standsFor_gives hkey'
  obtain ⟨L, held, h⟩ := Owned.reach ⟨_, _, hfirst⟩ hcall (hn n le_rfl)
  exact h.inv.2.apart

end Runs

/-- The blocks of the largest order. -/
def maxBlocks (g : Geometry) : List Nat :=
  (List.range (g.totalSize / 2 ^ maxOrder)).map fun i =>
    g.base + i * 2 ^ maxOrder

theorem mem_maxBlocks {a : Nat} (hg : g.Ok) : a ∈ maxBlocks g
    ↔ AlignedAt g maxOrder a ∧ a + 2 ^ maxOrder ≤ g.base + g.totalSize := by
  obtain ⟨n, hn⟩ := hg.whole
  have hdiv : g.totalSize / 2 ^ maxOrder = n := by
    rw [hn]
    exact Nat.mul_div_cancel_left _ (Nat.two_pow_pos _)
  unfold maxBlocks
  rw [hdiv, hn, List.mem_map]
  generalize hu : 2 ^ maxOrder = u
  have hpos : 0 < u := hu ▸ Nat.two_pow_pos maxOrder
  constructor
  · rintro ⟨i, hi, rfl⟩
    have hle : u * (i + 1) ≤ u * n :=
      Nat.mul_le_mul_left u (List.mem_range.1 hi)
    rw [Nat.mul_add, Nat.mul_one, Nat.mul_comm u i] at hle
    refine ⟨⟨Nat.le_add_right .., ⟨i, ?_⟩⟩, by omega⟩
    rw [Nat.add_sub_cancel_left, hu, Nat.mul_comm]
  · rintro ⟨⟨hbase, i, hi⟩, htop⟩
    rw [hu] at hi
    refine ⟨i, List.mem_range.2 ?_, ?_⟩
    · have hlt : u * i < u * n := by omega
      exact Nat.lt_of_mul_lt_mul_left hlt
    · rw [Nat.mul_comm, ← hi]
      exact Nat.add_sub_cancel' hbase

/-- The block of the largest order around a block. -/
theorem mem_maxBlocks_around {κ : Type} {k : Nat} {p : Piece κ} (hg : g.Ok)
    (hp : Placed g k p) :
    ∃ c ∈ maxBlocks g, c ≤ p.base ∧ p.base < c + 2 ^ maxOrder := by
  obtain ⟨n, hn⟩ := hg.whole
  obtain ⟨i, hi⟩ := hp.at_
  have htop := hp.top
  have hbase : g.base ≤ p.base := by omega
  have hpos := Nat.two_pow_pos k
  have hdm := Nat.div_add_mod (p.base - g.base) (2 ^ maxOrder)
  have hmod := Nat.mod_lt (p.base - g.base) (Nat.two_pow_pos maxOrder)
  generalize (p.base - g.base) / 2 ^ maxOrder = d at hdm
  generalize (p.base - g.base) % 2 ^ maxOrder = e at hdm hmod
  have hlt : 2 ^ maxOrder * d < 2 ^ maxOrder * n := by omega
  have hle : 2 ^ maxOrder * (d + 1) ≤ 2 ^ maxOrder * n :=
    Nat.mul_le_mul_left _ (Nat.lt_of_mul_lt_mul_left hlt)
  rw [Nat.mul_add, Nat.mul_one] at hle
  refine ⟨g.base + 2 ^ maxOrder * d, (mem_maxBlocks hg).2
    ⟨⟨Nat.le_add_right .., ⟨d, Nat.add_sub_cancel_left ..⟩⟩, ?_⟩, ?_, ?_⟩
  · omega
  · omega
  · omega

section Cover

variable {κ : Type} [DecidableEq κ] {g : Geometry} {tile : κ}
  {birth a k r : Nat} {s : RegionState} {lists : Nat → List (Piece κ)}
  {R : Multiset (Piece κ)}

/-- The blocks on the lists. -/
theorem RegionAt.tiles_free (h : RegionAt g tile birth s lists R) :
    tiles tile (freePieces lists)
      = freeBlocks fun k => (lists k).map Piece.base := by
  rw [← h.freeBlocks_eq, tiles, Multiset.filter_eq_self.2]
  intro p hp
  obtain ⟨k, hk, hpk⟩ := Multiset.mem_sum.1 hp
  exact (h.order k hk).kind p hpk

theorem mem_freeBlocks {free : Nat → List Nat} {b : Block} :
    b ∈ freeBlocks free ↔ b.order ∈ orders ∧ b.addr ∈ free b.order := by
  unfold freeBlocks
  rw [Multiset.mem_sum]
  constructor
  · rintro ⟨k, hk, hb⟩
    obtain ⟨a, ha, rfl⟩ := List.mem_map.1 (Multiset.mem_coe.1 hb)
    exact ⟨hk, ha⟩
  · rintro ⟨hk, hb⟩
    exact ⟨b.order, hk, Multiset.mem_coe.2 (List.mem_map.2 ⟨_, hb, rfl⟩)⟩

/-- An aligned block that meets no block that is owned lies in a block
on a list. -/
theorem RegionAt.inside (h : RegionAt g tile birth s lists R) (hg : g.Ok)
    (hapart : BuddiesApart g s) (hr : r ∈ orders) (ha : AlignedAt g r a)
    (htop : a + 2 ^ r ≤ g.base + g.totalSize)
    (hmeet : ∀ b ∈ tiles tile R, ∀ x, b.Has x →
      ¬ (⟨a, r⟩ : Block).Has x) :
    ∃ k ∈ orders, r ≤ k ∧ ∃ p ∈ lists k,
      p.base ≤ a ∧ a + 2 ^ r ≤ p.base + 2 ^ k := by
  obtain ⟨hmin, hmax⟩ := Finset.mem_Icc.1 hr
  have ht := h.tiling
  rw [tiles_add, h.tiles_free] at ht
  have hin := ht.inside (c := ⟨a, r⟩) hmin ha htop hmeet ?_
  · obtain ⟨b, hb, hle, hge⟩ := hin
    obtain ⟨hk, hmem⟩ := mem_freeBlocks.1 hb
    obtain ⟨p, hp, hbase⟩ := List.mem_map.1 hmem
    have hpow : 2 ^ r ≤ 2 ^ b.order := by
      simp only at hle hge
      omega
    refine ⟨b.order, hk, ?_, p, hp, ?_, ?_⟩
    · exact (Nat.pow_le_pow_iff_right (by decide)).1 hpow
    · rw [hbase]
      exact hle
    · rw [hbase]
      exact hge
  · -- two halves on the list would be buddies
    intro k hk c hc hlow hup
    obtain ⟨hko, hlow⟩ := mem_freeBlocks.1 hlow
    obtain ⟨-, hup⟩ := mem_freeBlocks.1 hup
    simp only at hk hko hlow hup
    obtain ⟨p, hp, rfl⟩ := List.mem_map.1 hlow
    have hal := (h.placed_free hko hp).alignedAt
    have hbits := (h.orderAgrees hg hko).bits
    have hfree := hapart k hko (by omega) p.base hal
      ((hbits _ hal.1 hal.2).2 hlow)
    have hbud := hal.buddy_lower hc
    have hal' := hal.buddy
    rw [hbud] at hfree hal'
    rw [(hbits _ hal'.1 hal'.2).2 hup] at hfree
    cases hfree

/-- A region of which nothing is owned is only blocks of the largest
order. -/
theorem RegionAt.only_max (h : RegionAt g tile birth s lists R)
    (hg : g.Ok) (hapart : BuddiesApart g s) (hR : tiles tile R = 0) :
    (∀ k ∈ orders, k < maxOrder → lists k = [])
      ∧ ((lists maxOrder).map Piece.base).Perm (maxBlocks g) := by
  have hmax : maxOrder ∈ orders := by decide
  have hall : ∀ a ∈ maxBlocks g, a ∈ (lists maxOrder).map Piece.base := by
    intro a ha
    obtain ⟨hal, htop⟩ := (mem_maxBlocks hg).1 ha
    obtain ⟨k, hk, hle, p, hp, h₁, h₂⟩ := h.inside hg hapart hmax hal htop
      (by rw [hR]; nofun)
    have hkmax : k = maxOrder := le_antisymm (Finset.mem_Icc.1 hk).2 hle
    subst hkmax
    exact List.mem_map.2 ⟨p, hp, by omega⟩
  refine ⟨fun k hk hlt => ?_, ?_⟩
  · -- a smaller block would lie in one of them
    rw [List.eq_nil_iff_forall_not_mem]
    intro p hp
    obtain ⟨c, hc, h₁, h₂⟩ :=
      mem_maxBlocks_around hg (h.placed_free hk hp)
    have ht := h.tiling
    rw [tiles_add, hR, add_zero, h.tiles_free] at ht
    have hsmall : (⟨p.base, k⟩ : Block)
        ∈ freeBlocks fun k => (lists k).map Piece.base :=
      mem_freeBlocks.2 ⟨hk, List.mem_map.2 ⟨p, hp, rfl⟩⟩
    have hlarge : (⟨c, maxOrder⟩ : Block)
        ∈ freeBlocks fun k => (lists k).map Piece.base :=
      mem_freeBlocks.2 ⟨hmax, hall c hc⟩
    have hboth := ht.apart ⟨p.base, k⟩ ⟨c, maxOrder⟩ (by
      rw [Multiset.singleton_add]
      refine (Multiset.cons_le_of_notMem ?_).2
        ⟨hsmall, Multiset.singleton_le.2 hlarge⟩
      rw [Multiset.mem_singleton, Block.mk.injEq]
      exact fun heq => hlt.ne heq.2)
    simp only at hboth
    have hpos := Nat.two_pow_pos k
    omega
  · refine (List.perm_ext_iff_of_nodup (h.bases_nodup hmax) ?_).2
      fun a => ⟨fun ha => ?_, hall a⟩
    · refine List.nodup_range.map fun i j hij => ?_
      simp only [Nat.add_left_cancel_iff] at hij
      exact Nat.eq_of_mul_eq_mul_right (Nat.two_pow_pos maxOrder) hij
    · obtain ⟨p, hp, rfl⟩ := List.mem_map.1 ha
      have hplaced := h.placed_free hmax hp
      exact (mem_maxBlocks hg).2 ⟨hplaced.alignedAt, hplaced.top⟩

end Cover

/-- In every run in which no two `free`s overlap in one block of the
largest order, when no operation is in flight no two buddies below the
largest order are both on the list of their order; and when nothing is
live the region is again only blocks of the largest order. -/
theorem frees_coalesce {T : Type} [Fintype T] [DecidableEq T]
    (base size nodeId stamp : Nat) (m : Mem) (hpos : 0 < base)
    (hfits : base + normalizeRegionSize size ≤ 2 ^ 64)
    {w : World T RegionState Unit Call (Option (Nat × Nat)) Block}
    (hw : ReachIn (api T (newGeometry base size nodeId))
      (fun w => FreesApart (newGeometry base size nodeId) w.thread)
      (start T base size nodeId stamp m) w)
    (hidle : ∀ t, w.thread t = none) :
    ∃ free : Nat → List Nat,
      (∀ k ∈ orders, LinkedSeg (FreeBlock.next w.state.mem)
        (w.state.free (orderIndex k)) (free k) 0)
      ∧ (∀ k ∈ orders, k < maxOrder → ∀ a ∈ free k,
        buddy (newGeometry base size nodeId) a k ∉ free k)
      ∧ (w.live = 0 → (∀ k ∈ orders, k < maxOrder → free k = [])
        ∧ (free maxOrder).Perm (maxBlocks (newGeometry base size nodeId))) := by
  have hg := newGeometry_ok nodeId hpos hfits
  have hapart := buddiesApart_of_reach hpos hfits hw
  obtain ⟨L, lists, hlive, hr⟩ := regionAt_of_reach hpos hfits hw.reach hidle
  refine ⟨fun k => (lists k).map Piece.base, fun k hk => hr.linkedSeg hk,
    fun k hk hlt a ha hbud => ?_, fun hzero => ?_⟩
  · obtain ⟨p, hp, rfl⟩ := List.mem_map.1 ha
    have hal := (hr.placed_free hk hp).alignedAt
    have hbits := (hr.orderAgrees hg hk).bits
    have hfree := hapart k hk hlt p.base hal ((hbits _ hal.1 hal.2).2 ha)
    rw [(hbits _ hal.buddy.1 hal.buddy.2).2 hbud] at hfree
    cases hfree
  · obtain ⟨hsmall, hlarge⟩ := hr.only_max hg hapart (hlive.trans hzero)
    refine ⟨fun k hk hlt => ?_, hlarge⟩
    show (lists k).map Piece.base = []
    rw [hsmall k hk hlt, List.map_nil]

/-- One thread takes half of a region and frees it. -/
theorem frees_coalesce_half :
    ∃ (w : World (Fin 1) RegionState Unit Call (Option (Nat × Nat)) Block)
      (free : Nat → List Nat), w.live = 0
      ∧ (∀ k ∈ orders, LinkedSeg (FreeBlock.next w.state.mem)
        (w.state.free (orderIndex k)) (free k) 0)
      ∧ (∀ k ∈ orders, k < maxOrder → free k = [])
      ∧ (free maxOrder).Perm (maxBlocks (newGeometry 4096 0 0)) := by
  have h₀ : Reach (api (Fin 1) (newGeometry 4096 0 0))
      (start (Fin 1) 4096 0 0 0 fun _ => 0) _ := .init
  have h₁ := h₀.exec 0 (.alloc 25 (by decide)) (fun _ => ()) rfl
    (Multiset.zero_le _) rfl
  have h₂ := h₁.exec 0 (.free ⟨4096, 25⟩) (fun _ => ()) rfl (by decide) rfl
  obtain ⟨free, hlist, -, hall⟩ := frees_coalesce 4096 0 0 0 (fun _ => 0)
    (by decide) (by decide)
    (h₂.reachIn fun w => .of_subsingleton w.thread) fun _ => rfl
  have hzero := hall (by decide)
  exact ⟨_, free, by decide, hlist, hzero.1, hzero.2⟩

/-- Two threads free the two halves of a region at the same time. Each
finds the other's half busy, and both halves end up on the list. -/
theorem frees_coalesce_race :
    ∃ w : World (Fin 2) RegionState Unit Call (Option (Nat × Nat)) Block,
      Reach (api (Fin 2) (newGeometry 4096 0 0))
        (start (Fin 2) 4096 0 0 0 fun _ => 0) w
      ∧ (∀ t, w.thread t = none) ∧ w.live = 0
      ∧ blockIsFree (newGeometry 4096 0 0) 4096 25 w.state = true
      ∧ blockIsFree (newGeometry 4096 0 0)
        (buddy (newGeometry 4096 0 0) 4096 25) 25 w.state = true := by
  have h₀ : Reach (api (Fin 2) (newGeometry 4096 0 0))
      (start (Fin 2) 4096 0 0 0 fun _ => 0) _ := .init
  have h₁ := h₀.exec 0 (.alloc 25 (by decide)) (fun _ => ()) rfl
    (Multiset.zero_le _) rfl
  have h₂ := h₁.exec 1 (.alloc 25 (by decide)) (fun _ => ()) rfl
    (Multiset.zero_le _) rfl
  have h₃ := h₂.step (.call 0 (.free ⟨4096, 25⟩) rfl (by decide))
  have h₄ := h₃.step (.call 1 (.free ⟨4096 + 2 ^ 25, 25⟩) rfl (by decide))
  -- both look at the other's half
  have h₅ := h₄.step (.run 0 () rfl)
  have h₆ := h₅.step (.run 1 () rfl)
  -- each loads the stamp, writes its node and pushes
  have h₇ := h₆.step (.run 0 () rfl)
  have h₈ := h₇.step (.run 0 () rfl)
  have h₉ := h₈.step (.run 0 () rfl)
  have k₁ := h₉.step (.run 1 () rfl)
  have k₂ := k₁.step (.run 1 () rfl)
  have k₃ := k₂.step (.run 1 () rfl)
  have k₄ := k₃.step (.finish 0 rfl)
  have k₅ := k₄.step (.finish 1 rfl)
  refine ⟨_, k₅, fun t => ?_, by decide, by decide, by decide⟩
  match t with
  | 0 => rfl
  | 1 => rfl

end RsMalloc.Buddy
