/-
Tilings by blocks of power-of-two size.

A tiling of `[base, base + total)` is a multiset of blocks `⟨a, k⟩`,
each of size `2^k` at an offset from `base` that is a multiple of
`2^k`, such that every address of the interval lies in exactly one
block and no other address lies in any. Halving a block and joining a
block with its buddy keep a tiling; nothing else is needed of either.
-/
import Mathlib.Algebra.Order.Group.Multiset
import Mathlib.Data.Nat.Bitwise
import Mathlib.Tactic.Ring

/-- A block of `2^order` addresses from `addr` on. -/
structure Block where
  addr : Nat
  order : Nat
  deriving DecidableEq, Repr

namespace Block

/-- The address lies in the block. -/
def Has (b : Block) (x : Nat) : Prop :=
  b.addr ≤ x ∧ x < b.addr + 2 ^ b.order

instance (b : Block) (x : Nat) : Decidable (b.Has x) :=
  inferInstanceAs (Decidable (_ ∧ _))

theorem has_addr (b : Block) : b.Has b.addr :=
  ⟨le_rfl, Nat.lt_add_of_pos_right (Nat.two_pow_pos _)⟩

/-- How many of the blocks contain the address. -/
def count (B : Multiset Block) (x : Nat) : Nat :=
  B.countP fun b => b.Has x

variable {A B : Multiset Block} {b : Block} {x : Nat}

@[simp] theorem count_add : count (A + B) x = count A x + count B x :=
  Multiset.countP_add ..

@[simp] theorem count_singleton :
    count {b} x = if b.Has x then 1 else 0 := by
  rw [count, ← Multiset.cons_zero, Multiset.countP_cons,
    Multiset.countP_zero, Nat.zero_add]

theorem count_pos : 0 < count B x ↔ ∃ b ∈ B, b.Has x :=
  Multiset.countP_pos

theorem count_eq_zero : count B x = 0 ↔ ∀ b ∈ B, ¬ b.Has x :=
  Multiset.countP_eq_zero

/-- An address that is counted once lies in one of the blocks. -/
theorem existsUnique_of_count (h : count B x = 1) :
    ∃! b, b ∈ B ∧ b.Has x := by
  rw [count, Multiset.countP_eq_card_filter, Multiset.card_eq_one] at h
  obtain ⟨b, hb⟩ := h
  have hmem : ∀ c, (c ∈ B ∧ c.Has x) ↔ c = b := fun c => by
    rw [← Multiset.mem_singleton, ← hb, Multiset.mem_filter]
  exact ⟨b, (hmem b).2 rfl, fun c hc => (hmem c).1 hc⟩

/-- The block of the same size that makes up a block of twice the size
with this one. -/
def buddyOf (base : Nat) (b : Block) : Nat :=
  base + ((b.addr - base) ^^^ (1 <<< b.order))

end Block

-- ===================================================== buddy arithmetic

/-- Flipping bit `k` of a multiple of `2^k` moves to the neighbouring
multiple. -/
theorem mul_xor_two_pow (q k : Nat) :
    (2 ^ k * q) ^^^ (1 <<< k) = 2 ^ k * (q ^^^ 1) := by
  rw [Nat.mul_comm, Nat.mul_comm (2 ^ k), ← Nat.shiftLeft_eq,
    ← Nat.shiftLeft_eq, Nat.shiftLeft_xor_distrib]

/-- The buddy of an aligned block is the other half of the aligned
block of the next order around both. -/
theorem buddyOf_cases {base a k : Nat} (hb : base ≤ a)
    (ha : 2 ^ k ∣ a - base) :
    (Block.buddyOf base ⟨a, k⟩ = a + 2 ^ k ∧ 2 ^ (k + 1) ∣ a - base) ∨
    (Block.buddyOf base ⟨a, k⟩ + 2 ^ k = a
      ∧ base ≤ Block.buddyOf base ⟨a, k⟩
      ∧ 2 ^ (k + 1) ∣ Block.buddyOf base ⟨a, k⟩ - base) := by
  obtain ⟨q, hq⟩ := ha
  have hbud : Block.buddyOf base ⟨a, k⟩ = base + 2 ^ k * (q ^^^ 1) := by
    show base + ((a - base) ^^^ (1 <<< k)) = _
    rw [hq, mul_xor_two_pow]
  rcases Nat.even_or_odd q with hev | hodd
  · left
    rw [hbud, Nat.xor_one_of_even hev, Nat.mul_add, Nat.mul_one]
    refine ⟨by omega, ?_⟩
    obtain ⟨c, rfl⟩ := hev
    exact ⟨c, by rw [hq]; ring⟩
  · right
    obtain ⟨c, rfl⟩ := hodd
    have hx : (2 * c + 1) ^^^ 1 = 2 * c := by
      rw [Nat.xor_one_of_odd ⟨c, rfl⟩, Nat.add_sub_cancel]
    rw [hbud, hx]
    refine ⟨?_, by omega, ⟨c, ?_⟩⟩
    · have hexp : 2 ^ k * (2 * c + 1) = 2 ^ k * (2 * c) + 2 ^ k := by ring
      omega
    · rw [Nat.add_sub_cancel_left]
      ring

-- ============================================================== tilings

/-- The blocks tile `[base, base + total)`, with orders from `lo` to
`hi`. -/
structure Tiling (base total lo hi : Nat) (B : Multiset Block) : Prop where
  order : ∀ b ∈ B, lo ≤ b.order ∧ b.order ≤ hi
  aligned : ∀ b ∈ B, base ≤ b.addr ∧ 2 ^ b.order ∣ b.addr - base
  exact : ∀ x, Block.count B x
    = if base ≤ x ∧ x < base + total then 1 else 0

/-- No two of the blocks have an address in common. -/
def Block.Apart (B : Multiset Block) : Prop :=
  ∀ b c, {b} + {c} ≤ B →
    b.addr + 2 ^ b.order ≤ c.addr ∨ c.addr + 2 ^ c.order ≤ b.addr

namespace Tiling

variable {base total lo hi a k : Nat} {A A' B : Multiset Block}
  {b c : Block}

/-- Exchange some blocks for others that cover the same addresses. -/
theorem exchange (h : Tiling base total lo hi (A + B))
    (ho : ∀ b ∈ A', lo ≤ b.order ∧ b.order ≤ hi)
    (ha : ∀ b ∈ A', base ≤ b.addr ∧ 2 ^ b.order ∣ b.addr - base)
    (hc : ∀ x, Block.count A' x = Block.count A x) :
    Tiling base total lo hi (A' + B) where
  order b hb := (Multiset.mem_add.1 hb).elim (ho b) fun hB =>
    h.order b (Multiset.mem_add.2 (Or.inr hB))
  aligned b hb := (Multiset.mem_add.1 hb).elim (ha b) fun hB =>
    h.aligned b (Multiset.mem_add.2 (Or.inr hB))
  exact x := by
    rw [Block.count_add, hc, ← Block.count_add]
    exact h.exact x

/-- A block lies inside the interval. -/
theorem within (h : Tiling base total lo hi B) (hb : b ∈ B) :
    b.addr + 2 ^ b.order ≤ base + total := by
  have hpos := Nat.two_pow_pos b.order
  have hlast : b.Has (b.addr + 2 ^ b.order - 1) := ⟨by omega, by omega⟩
  have hcount : 0 < Block.count B (b.addr + 2 ^ b.order - 1) :=
    Block.count_pos.2 ⟨b, hb, hlast⟩
  rw [h.exact] at hcount
  split at hcount
  · omega
  · exact absurd hcount (lt_irrefl 0)

/-- The blocks of a tiling are apart. -/
theorem apart (h : Tiling base total lo hi B) : Block.Apart B := by
  intro b c hle
  obtain ⟨B, rfl⟩ := Multiset.le_iff_exists_add.1 hle
  rw [add_assoc] at h
  by_contra hno
  rw [not_or, Nat.not_le, Nat.not_le] at hno
  have hboth : ∀ x, b.Has x → ¬ c.Has x := by
    intro x hb hc
    have hx := h.exact x
    rw [Block.count_add, Block.count_add, Block.count_singleton,
      Block.count_singleton, if_pos hb, if_pos hc] at hx
    split at hx <;> omega
  rcases Nat.le_total b.addr c.addr with hle | hle
  · exact hboth c.addr ⟨hle, hno.1⟩ c.has_addr
  · exact hboth b.addr b.has_addr ⟨hle, hno.2⟩

/-- An address of a block lies in exactly one of its halves. -/
theorem has_halves (x : Nat) :
    ((⟨a, k + 1⟩ : Block).Has x
      ↔ (⟨a, k⟩ : Block).Has x ∨ (⟨a + 2 ^ k, k⟩ : Block).Has x)
    ∧ ((⟨a, k⟩ : Block).Has x → ¬ (⟨a + 2 ^ k, k⟩ : Block).Has x) := by
  have hpow : 2 ^ (k + 1) = 2 ^ k + 2 ^ k := by ring
  have hpos := Nat.two_pow_pos k
  unfold Block.Has
  simp only [hpow]
  omega

/-- The two halves of a block cover what the block covers. -/
theorem count_halves (x : Nat) :
    Block.count ({⟨a, k⟩} + {⟨a + 2 ^ k, k⟩}) x
      = Block.count {⟨a, k + 1⟩} x := by
  obtain ⟨hiff, hnot⟩ := has_halves (a := a) (k := k) x
  simp only [Block.count_add, Block.count_singleton, hiff]
  by_cases h₁ : (⟨a, k⟩ : Block).Has x
  · rw [if_pos h₁, if_neg (hnot h₁), if_pos (Or.inl h₁)]
  · by_cases h₂ : (⟨a + 2 ^ k, k⟩ : Block).Has x
    · rw [if_neg h₁, if_pos h₂, if_pos (Or.inr h₂)]
    · rw [if_neg h₁, if_neg h₂, if_neg (not_or.2 ⟨h₁, h₂⟩)]

/-- Halve a block. -/
theorem split (h : Tiling base total lo hi ({⟨a, k + 1⟩} + B))
    (hk : lo ≤ k) :
    Tiling base total lo hi (({⟨a, k⟩} + {⟨a + 2 ^ k, k⟩}) + B) := by
  have hmem : (⟨a, k + 1⟩ : Block) ∈ ({⟨a, k + 1⟩} + B : Multiset Block) :=
    Multiset.mem_add.2 (Or.inl (Multiset.mem_singleton_self _))
  have ho := h.order _ hmem
  obtain ⟨hb, q, hq⟩ := h.aligned _ hmem
  simp only at ho hb hq
  refine h.exchange (fun b hb' => ?_) (fun b hb' => ?_) count_halves
  · rcases Multiset.mem_add.1 hb' with h₁ | h₁ <;>
      rw [Multiset.mem_singleton] at h₁ <;> subst h₁ <;>
      exact ⟨hk, by simp only; omega⟩
  · rcases Multiset.mem_add.1 hb' with h₁ | h₁ <;>
      rw [Multiset.mem_singleton] at h₁ <;> subst h₁
    · exact ⟨hb, ⟨2 * q, by simp only; rw [hq]; ring⟩⟩
    · refine ⟨Nat.le_add_right_of_le hb, ⟨2 * q + 1, ?_⟩⟩
      have hsub : a + 2 ^ k - base = (a - base) + 2 ^ k :=
        Nat.sub_add_comm hb
      simp only
      rw [hsub, hq]
      ring

/-- Of two aligned blocks that meet, the smaller lies in the larger. -/
theorem sub_of_meet {x : Nat} (hb : base ≤ b.addr ∧ 2 ^ b.order ∣ b.addr - base)
    (hc : base ≤ c.addr ∧ 2 ^ c.order ∣ c.addr - base)
    (ho : b.order ≤ c.order) (hxb : b.Has x) (hxc : c.Has x) :
    c.addr ≤ b.addr ∧ b.addr + 2 ^ b.order ≤ c.addr + 2 ^ c.order := by
  obtain ⟨hb₁, i, hi⟩ := hb
  obtain ⟨hc₁, j, hj⟩ := hc
  obtain ⟨d, hd⟩ := Nat.exists_eq_add_of_le ho
  have hpow : 2 ^ c.order = 2 ^ b.order * 2 ^ d := by
    rw [hd, Nat.pow_add]
  rw [hpow, Nat.mul_assoc] at hj
  obtain ⟨h₁, h₂⟩ := hxb
  obtain ⟨h₃, h₄⟩ := hxc
  rw [hpow] at h₄ ⊢
  generalize 2 ^ b.order = u at *
  -- in units of the smaller size
  have hlow : 2 ^ d * j < i + 1 := by
    refine Nat.lt_of_mul_lt_mul_left (a := u) ?_
    rw [← hj, Nat.mul_add, ← hi]
    omega
  have hhigh : i < 2 ^ d * j + 2 ^ d := by
    refine Nat.lt_of_mul_lt_mul_left (a := u) ?_
    rw [← hi, Nat.mul_add, ← hj]
    omega
  have h₅ : u * (2 ^ d * j) ≤ u * i := Nat.mul_le_mul_left u (by omega)
  have h₆ : u * (i + 1) ≤ u * (2 ^ d * j + 2 ^ d) :=
    Nat.mul_le_mul_left u (by omega)
  rw [← hj, ← hi] at h₅
  rw [Nat.mul_add, Nat.mul_add, ← hi, ← hj] at h₆
  omega

/-- An aligned block that only blocks of `A` meet lies in one of them,
if `A` has no two buddies below its order. -/
theorem inside (h : Tiling base total lo hi (A + B))
    (hlo : lo ≤ c.order) (hc : base ≤ c.addr ∧ 2 ^ c.order ∣ c.addr - base)
    (htop : c.addr + 2 ^ c.order ≤ base + total)
    (hmeet : ∀ b ∈ B, ∀ x, b.Has x → ¬ c.Has x)
    (hapart : ∀ k < c.order, ∀ a, 2 ^ (k + 1) ∣ a - base →
      (⟨a, k⟩ : Block) ∈ A → (⟨a + 2 ^ k, k⟩ : Block) ∉ A) :
    ∃ b ∈ A, b.addr ≤ c.addr
      ∧ c.addr + 2 ^ c.order ≤ b.addr + 2 ^ b.order := by
  obtain ⟨a, k⟩ := c
  simp only at *
  obtain ⟨n, rfl⟩ := Nat.exists_eq_add_of_le hlo
  -- on the order: the blocks around both halves are one block, or buddies
  induction n generalizing a with
  | zero =>
      have hpos := Nat.two_pow_pos (lo + 0)
      have hcount := h.exact a
      rw [if_pos ⟨hc.1, by omega⟩] at hcount
      obtain ⟨b, hb, hx⟩ := Block.count_pos.1 (hcount ▸ Nat.one_pos)
      have hhas : (⟨a, lo + 0⟩ : Block).Has a := Block.has_addr _
      rcases Multiset.mem_add.1 hb with hA | hB
      · exact ⟨b, hA, sub_of_meet (b := ⟨a, lo + 0⟩) hc (h.aligned b hb)
          (h.order b hb).1 hhas hx⟩
      · exact absurd hhas (hmeet b hB a hx)
  | succ n ih =>
      have hpow : 2 ^ (lo + (n + 1)) = 2 ^ (lo + n) + 2 ^ (lo + n) := by ring
      have hpos := Nat.two_pow_pos (lo + n)
      obtain ⟨hbase, q, hq⟩ := hc
      have hhalves := fun x =>
        (has_halves (a := a) (k := lo + n) x).1
      have hlow := ih a (Nat.le_add_right ..)
        ⟨hbase, ⟨2 * q, by rw [hq, hpow]; ring⟩⟩ (by omega)
        (fun b hb x hx hin => hmeet b hb x hx ((hhalves x).2 (Or.inl hin)))
        (fun k hk => hapart k (by omega))
      have hup := ih (a + 2 ^ (lo + n)) (Nat.le_add_right ..)
        ⟨by omega, ⟨2 * q + 1, by
          rw [Nat.sub_add_comm hbase, hq, hpow]
          ring⟩⟩ (by omega)
        (fun b hb x hx hin => hmeet b hb x hx ((hhalves x).2 (Or.inr hin)))
        (fun k hk => hapart k (by omega))
      obtain ⟨b, hb, hb₁, hb₂⟩ := hlow
      obtain ⟨d, hd, hd₁, hd₂⟩ := hup
      have hwhole : (⟨a, lo + (n + 1)⟩ : Block).Has a := Block.has_addr _
      have hal : base ≤ a ∧ 2 ^ (lo + (n + 1)) ∣ a - base := ⟨hbase, q, hq⟩
      have hmem : ∀ e ∈ A, e ∈ A + B := fun e he =>
        Multiset.mem_add.2 (Or.inl he)
      by_cases hbo : lo + (n + 1) ≤ b.order
      · exact ⟨b, hb, sub_of_meet (b := ⟨a, lo + (n + 1)⟩) hal
          (h.aligned b (hmem b hb)) hbo hwhole ⟨hb₁, by omega⟩⟩
      by_cases hdo : lo + (n + 1) ≤ d.order
      · exact ⟨d, hd, sub_of_meet (b := ⟨a, lo + (n + 1)⟩) hal
          (h.aligned d (hmem d hd)) hdo (x := a + 2 ^ (lo + n))
          ⟨by simp only; omega, by simp only; omega⟩ ⟨hd₁, by omega⟩⟩
      -- both halves are blocks of their own
      have hhalf : ∀ (e : Block) (x : Nat), e.addr ≤ x →
          x + 2 ^ (lo + n) ≤ e.addr + 2 ^ e.order →
          ¬ lo + (n + 1) ≤ e.order → e = ⟨x, lo + n⟩ := by
        intro e x h₁ h₂ h₃
        have hle : lo + n ≤ e.order :=
          (Nat.pow_le_pow_iff_right (a := 2) (by decide)).1 (by omega)
        have heq : e.order = lo + n := by omega
        rw [heq] at h₂
        have haddr : e.addr = x := by omega
        rw [← heq, ← haddr]
      rw [hhalf b a hb₁ hb₂ hbo] at hb
      rw [hhalf d _ hd₁ hd₂ hdo] at hd
      exact absurd hd (hapart (lo + n) (by omega) a ⟨q, hq⟩ hb)

/-- Join a block with its buddy. -/
theorem merge
    (h : Tiling base total lo hi
      (({⟨a, k⟩} + {⟨Block.buddyOf base ⟨a, k⟩, k⟩}) + B))
    (hk : k + 1 ≤ hi) :
    Tiling base total lo hi
      ({⟨min a (Block.buddyOf base ⟨a, k⟩), k + 1⟩} + B) := by
  have hmem : (⟨a, k⟩ : Block) ∈ (({⟨a, k⟩}
      + {⟨Block.buddyOf base ⟨a, k⟩, k⟩}) + B : Multiset Block) := by
    simp
  have ho := h.order _ hmem
  obtain ⟨hb, ha⟩ := h.aligned _ hmem
  simp only at ho hb ha
  rcases buddyOf_cases hb ha with ⟨hbud, hal⟩ | ⟨hbud, hlow, hal⟩
  · rw [hbud] at h ⊢
    rw [Nat.min_eq_left (Nat.le_add_right _ _)]
    refine h.exchange (fun c hc => ?_) (fun c hc => ?_)
      fun x => (count_halves x).symm <;>
      rw [Multiset.mem_singleton] at hc <;> subst hc
    · exact ⟨by simp only; omega, hk⟩
    · exact ⟨hb, hal⟩
  · rw [Nat.min_eq_right (by omega)]
    have hhalves : ∀ x, Block.count {⟨Block.buddyOf base ⟨a, k⟩, k + 1⟩} x
        = Block.count ({⟨a, k⟩} + {⟨Block.buddyOf base ⟨a, k⟩, k⟩}) x := by
      intro x
      rw [← count_halves x, hbud, add_comm]
    refine h.exchange (fun c hc => ?_) (fun c hc => ?_) hhalves <;>
      rw [Multiset.mem_singleton] at hc <;> subst hc
    · exact ⟨by simp only; omega, hk⟩
    · exact ⟨hlow, hal⟩

/-- Blocks of one size in a row. -/
theorem uniform {n : Nat} (hlo : lo ≤ k) (hhi : k ≤ hi) :
    Tiling base (n * 2 ^ k) lo hi
      ((List.range n).map fun i => (⟨base + i * 2 ^ k, k⟩ : Block)) where
  order b hb := by
    obtain ⟨i, -, rfl⟩ := List.mem_map.1 (Multiset.mem_coe.1 hb)
    exact ⟨hlo, hhi⟩
  aligned b hb := by
    obtain ⟨i, -, rfl⟩ := List.mem_map.1 (Multiset.mem_coe.1 hb)
    exact ⟨Nat.le_add_right .., ⟨i, by simp only; rw [Nat.add_sub_cancel_left, Nat.mul_comm]⟩⟩
  exact x := by
    induction n with
    | zero =>
        rw [if_neg (by omega)]
        rfl
    | succ n ih =>
        rw [List.range_succ, List.map_append, ← Multiset.coe_add,
          Block.count_add, ih, List.map_singleton, Multiset.coe_singleton,
          Block.count_singleton]
        have hmul : (n + 1) * 2 ^ k = n * 2 ^ k + 2 ^ k := by ring
        rw [hmul]
        by_cases hx : (⟨base + n * 2 ^ k, k⟩ : Block).Has x
        · have hge : base + n * 2 ^ k ≤ x := hx.1
          have hlt : x < base + n * 2 ^ k + 2 ^ k := hx.2
          rw [if_pos hx, if_neg (by omega), if_pos (by omega)]
        · have hnot : ¬ (base + n * 2 ^ k ≤ x
              ∧ x < base + n * 2 ^ k + 2 ^ k) := hx
          rw [if_neg hx, Nat.add_zero]
          refine if_congr ?_ rfl rfl
          have hpos := Nat.two_pow_pos k
          omega

end Tiling
