/-
Ownership of memory in pieces.

A piece is a window of addresses together with the contents its owner
has left there. A multiset of pieces is held in a memory when no
address lies in two of them and the memory shows each piece's contents.
Both facts are local: whoever owns the pieces `A` may change the memory
inside them, and cut or join them, without looking at the pieces `F` of
anybody else (`Holds.replace`).

`cover T x` counts the pieces of `T` around the address `x`. It is
additive, so statements about the whole of memory reduce to the pieces
that change.
-/
import Mathlib.Algebra.Order.Group.Multiset
import RsMalloc.Lib.ByteMem

theorem mem_singleton_add {α : Type} {a b : α} {s : Multiset α} :
    b ∈ {a} + s ↔ b = a ∨ b ∈ s := by
  rw [Multiset.singleton_add, Multiset.mem_cons]

theorem mem_singleton_pair {α : Type} {a b c : α} :
    c ∈ ({a} + {b} : Multiset α) ↔ c = a ∨ c = b := by
  rw [mem_singleton_add, Multiset.mem_singleton]

theorem mem_singleton_add_self {α : Type} {a : α} {s : Multiset α} :
    a ∈ {a} + s := mem_singleton_add.2 (Or.inl rfl)

/-- A window of memory with its contents; `kind` is the owner's label. -/
structure Piece (κ : Type) where
  kind : κ
  base : Nat
  len : Nat
  data : Mem

namespace Piece

variable {κ : Type} {p : Piece κ} {a v w x : Nat}

/-- The address `x` lies in the window. -/
def Has (p : Piece κ) (x : Nat) : Prop :=
  p.base ≤ x ∧ x < p.base + p.len

instance (p : Piece κ) (x : Nat) : Decidable (p.Has x) :=
  inferInstanceAs (Decidable (_ ∧ _))

/-- `w` bytes at `a` lie in the window. -/
def HasRange (p : Piece κ) (a w : Nat) : Prop :=
  p.base ≤ a ∧ a + w ≤ p.base + p.len

/-- Write into the piece. -/
def store (w : Nat) (p : Piece κ) (a v : Nat) : Piece κ :=
  { p with data := Mem.store w p.data a v }

@[simp] theorem store_kind : (p.store w a v).kind = p.kind := rfl
@[simp] theorem store_base : (p.store w a v).base = p.base := rfl
@[simp] theorem store_len : (p.store w a v).len = p.len := rfl
@[simp] theorem store_data :
    (p.store w a v).data = Mem.store w p.data a v := rfl

end Piece

-- ============================================================= coverage

section Cover

variable {κ : Type} {T A B : Multiset (Piece κ)} {p : Piece κ} {x : Nat}

/-- How many of the pieces contain the address. -/
def cover (T : Multiset (Piece κ)) (x : Nat) : Nat :=
  T.countP fun p => p.Has x

@[simp] theorem cover_add : cover (A + B) x = cover A x + cover B x :=
  Multiset.countP_add ..

@[simp] theorem cover_singleton :
    cover {p} x = if p.Has x then 1 else 0 := by
  rw [cover, ← Multiset.cons_zero, Multiset.countP_cons,
    Multiset.countP_zero, Nat.zero_add]

theorem cover_pos : 0 < cover T x ↔ ∃ p ∈ T, p.Has x :=
  Multiset.countP_pos

end Cover

-- ============================================================== holding

/-- The memory `m` holds the pieces: they are apart, and `m` shows the
contents of each. -/
structure Holds {κ : Type} (m : Mem) (T : Multiset (Piece κ)) : Prop where
  once : ∀ x, cover T x ≤ 1
  agree : ∀ p ∈ T, ∀ x, p.Has x → m x = p.data x

namespace Holds

variable {κ : Type} {m m' : Mem} {A A' F : Multiset (Piece κ)}
  {p q : Piece κ} {a v w x : Nat}

/-- The owner of `A` may change the memory inside `A` and re-partition
it into `A'`; the pieces of others stay held. -/
theorem replace (h : Holds m (A + F)) (hc : ∀ x, cover A' x ≤ cover A x)
    (hm : ∀ x, cover A x = 0 → m' x = m x)
    (ha : ∀ p ∈ A', ∀ x, p.Has x → m' x = p.data x) :
    Holds m' (A' + F) where
  once x := by
    have h₁ := h.once x
    have h₂ := hc x
    rw [cover_add] at h₁ ⊢
    omega
  agree p hp x hx := by
    rcases Multiset.mem_add.1 hp with hp | hp
    · exact ha p hp x hx
    · have hF : 0 < cover F x := cover_pos.2 ⟨p, hp, hx⟩
      have h₁ := h.once x
      rw [cover_add] at h₁
      rw [hm x (by omega)]
      exact h.agree p (Multiset.mem_add.2 (Or.inr hp)) x hx

/-- Re-partitioning without touching the memory. -/
theorem recut (h : Holds m (A + F)) (hc : ∀ x, cover A' x ≤ cover A x)
    (ha : ∀ p ∈ A', ∀ x, p.Has x → m x = p.data x) : Holds m (A' + F) :=
  h.replace hc (fun _ _ => rfl) ha

/-- Pieces may be forgotten. -/
theorem drop (h : Holds m (A + F)) : Holds m F := by
  have hF : Holds m (0 + F) := h.recut (fun _ => Nat.zero_le _)
    nofun
  rwa [zero_add] at hF

/-- A word inside an owned piece reads as the piece says. -/
theorem load_eq (h : Holds m ({p} + F)) (hr : p.HasRange a w) :
    Mem.load w m a = Mem.load w p.data a := by
  refine Mem.load_congr fun x h₁ h₂ => ?_
  refine h.agree p (Multiset.mem_add.2 (Or.inl ?_)) x ⟨?_, ?_⟩
  · exact Multiset.mem_singleton_self p
  · exact hr.1.trans h₁
  · exact h₂.trans_le hr.2

/-- Writing inside an owned piece. -/
theorem update (h : Holds m ({p} + F)) (hq : q.base = p.base)
    (hl : q.len = p.len) (hm : ∀ x, ¬ p.Has x → m' x = m x)
    (ha : ∀ x, p.Has x → m' x = q.data x) : Holds m' ({q} + F) := by
  have hiff : ∀ x, q.Has x ↔ p.Has x := by
    intro x
    rw [Piece.Has, Piece.Has, hq, hl]
  refine h.replace (fun x => ?_) (fun x hx => ?_) fun q' hq' x hx => ?_
  · rw [cover_singleton, cover_singleton]
    simp only [hiff, le_refl]
  · refine hm x fun hp => ?_
    rw [cover_singleton, if_pos hp] at hx
    exact one_ne_zero hx
  · rw [Multiset.mem_singleton] at hq'
    subst hq'
    exact ha x ((hiff x).1 hx)

/-- A store inside an owned piece. -/
theorem store (h : Holds m ({p} + F)) (hr : p.HasRange a w) :
    Holds (Mem.store w m a v) ({p.store w a v} + F) := by
  have hin : ∀ x, a ≤ x ∧ x < a + w → p.Has x := fun x hx =>
    ⟨hr.1.trans hx.1, hx.2.trans_le hr.2⟩
  refine h.update rfl rfl (fun x hx => ?_) fun x hx => ?_
  · exact Mem.store_apply_of_not fun hw => hx (hin x hw)
  · rw [Piece.store_data, Mem.store, Mem.store]
    split
    · rfl
    · exact h.agree p mem_singleton_add_self x hx

/-- Cut a piece in two. -/
theorem cut (h : Holds m ({p} + F)) {n k : Nat} (hn : p.len = n + k) :
    Holds m ({⟨p.kind, p.base, n, p.data⟩}
      + ({⟨p.kind, p.base + n, k, p.data⟩} + F)) := by
  rw [← add_assoc]
  have hdata : ∀ x, p.Has x → m x = p.data x :=
    h.agree p mem_singleton_add_self
  refine h.recut (fun x => ?_) fun q hq x hx => ?_
  · simp only [cover_add, cover_singleton]
    by_cases h₁ : (⟨p.kind, p.base, n, p.data⟩ : Piece κ).Has x
    · have hp : p.Has x := ⟨h₁.1, h₁.2.trans_le (by simp only; omega)⟩
      have h₂ : ¬ (⟨p.kind, p.base + n, k, p.data⟩ : Piece κ).Has x :=
        fun h₂ => absurd h₁.2 (Nat.not_lt.2 h₂.1)
      rw [if_pos h₁, if_neg h₂, if_pos hp]
    · by_cases h₂ : (⟨p.kind, p.base + n, k, p.data⟩ : Piece κ).Has x
      · have hlt := h₂.2
        have hge := h₂.1
        simp only at hlt hge
        have hp : p.Has x := ⟨by omega, by omega⟩
        rw [if_neg h₁, if_pos h₂, if_pos hp]
      · rw [if_neg h₁, if_neg h₂]
        exact Nat.zero_le _
  · rcases mem_singleton_pair.1 hq with rfl | rfl <;>
      have hlt := hx.2 <;> have hge := hx.1 <;> simp only at hlt hge
    · exact hdata x ⟨by omega, by omega⟩
    · exact hdata x ⟨by omega, by omega⟩

/-- Join two neighbouring pieces; the contents are those of the
memory. -/
theorem join (h : Holds m ({p} + ({q} + F))) (hq : q.base = p.base + p.len)
    (a : κ) : Holds m ({⟨a, p.base, p.len + q.len, m⟩} + F) := by
  rw [← add_assoc] at h
  refine h.recut (fun x => ?_) fun q' hq' x _ => ?_
  · simp only [cover_add, cover_singleton]
    by_cases hx : (⟨a, p.base, p.len + q.len, m⟩ : Piece κ).Has x
    · have hlt := hx.2
      have hge := hx.1
      simp only at hlt hge
      rw [if_pos hx]
      by_cases h₁ : p.Has x
      · rw [if_pos h₁]
        exact Nat.le_add_right _ _
      · have h₂ : q.Has x := by
          refine ⟨?_, by omega⟩
          by_contra hno
          exact h₁ ⟨hge, by omega⟩
        rw [if_pos h₂]
        exact Nat.le_add_left _ _
    · rw [if_neg hx]
      exact Nat.zero_le _
  · rw [Multiset.mem_singleton] at hq'
    subst hq'
    rfl

/-- Two pieces held together have no address in common. -/
theorem apart (h : Holds m ({p} + ({q} + F))) (hp : p.Has x) : ¬ q.Has x := by
  intro hq
  have h₁ := h.once x
  rw [cover_add, cover_add, cover_singleton, cover_singleton, if_pos hp,
    if_pos hq] at h₁
  omega

/-- The same, as a statement about the two windows. -/
theorem apart_windows (h : Holds m ({p} + ({q} + F))) (hp : 0 < p.len)
    (hq : 0 < q.len) :
    p.base + p.len ≤ q.base ∨ q.base + q.len ≤ p.base := by
  by_contra hno
  rw [not_or, Nat.not_le, Nat.not_le] at hno
  rcases Nat.le_total p.base q.base with hle | hle
  · exact h.apart (x := q.base) ⟨hle, hno.1⟩ ⟨le_rfl, by omega⟩
  · exact h.apart (x := p.base) ⟨le_rfl, by omega⟩ ⟨hle, hno.2⟩

/-- Pieces in a list have windows apart. -/
theorem pairwise {l : List (Piece κ)} {F : Multiset (Piece κ)}
    (h : Holds m ((l : Multiset (Piece κ)) + F)) (hpos : ∀ p ∈ l, 0 < p.len) :
    l.Pairwise fun p q =>
      p.base + p.len ≤ q.base ∨ q.base + q.len ≤ p.base := by
  induction l generalizing F with
  | nil => exact List.Pairwise.nil
  | cons p l ih =>
      rw [← Multiset.cons_coe, ← Multiset.singleton_add] at h
      refine List.pairwise_cons.2 ⟨fun q hq => ?_, ih (F := {p} + F) ?_
        fun q hq => hpos q (List.mem_cons_of_mem _ hq)⟩
      · obtain ⟨l', hl'⟩ := Multiset.exists_cons_of_mem
          (show q ∈ (l : Multiset (Piece κ)) from hq)
        rw [hl', ← Multiset.singleton_add, add_assoc, add_assoc] at h
        exact h.apart_windows (hpos p (List.mem_cons_self ..))
          (hpos q (List.mem_cons_of_mem _ hq))
      · rw [add_assoc, add_left_comm] at h
        exact h

/-- Pieces held together start at different addresses. -/
theorem base_ne (h : Holds m ({p} + F)) (hq : q ∈ F) (hp : 0 < p.len)
    (hl : 0 < q.len) : q.base ≠ p.base := by
  obtain ⟨F', rfl⟩ := Multiset.exists_cons_of_mem hq
  rw [← Multiset.singleton_add] at h
  intro heq
  rcases h.apart_windows hp hl with h₁ | h₁ <;> omega

end Holds
