/-
Rows of blocks.

The blocks of a row have one size and do not overlap; `Rows` is a family
of rows, with a size for each, in which no two blocks overlap. Windows
that do not overlap have together at most the bytes of the space they
lie in (`sum_windows_le`).
-/
import Mathlib.Algebra.Order.Ring.Nat
import Mathlib.Data.List.Nodup
import Mathlib.Data.List.Perm.Subperm
import Mathlib.Data.Set.Lattice
import Mathlib.Order.CompletePartialOrder

-- ================================================================== a row

/-- Different blocks of `n` bytes, below `N`, that do not overlap. -/
structure Row (N n : Nat) (l : List Nat) : Prop where
  nodup : l.Nodup
  apart : ∀ h ∈ l, ∀ h' ∈ l, h ≠ h' → h + n ≤ h' ∨ h' + n ≤ h
  top : ∀ h ∈ l, h + n ≤ N

theorem Row.sub {N n : Nat} {l l' : List Nat} (h : Row N n l)
    (hnd : l'.Nodup) (hsub : ∀ b ∈ l', b ∈ l) : Row N n l' where
  nodup := hnd
  apart b hb b' hb' := h.apart b (hsub b hb) b' (hsub b' hb')
  top b hb := h.top b (hsub b hb)

-- ============================================================ many of them

/-- A row for each index of `I`; no two blocks overlap. -/
structure Rows {ι : Type} (I : Set ι) (N : Nat) (bytes : ι → Nat)
    (blocks : ι → List Nat) : Prop where
  row : ∀ p ∈ I, Row N (bytes p) (blocks p)
  apart : ∀ p ∈ I, ∀ q ∈ I, p ≠ q → ∀ h ∈ blocks p, ∀ h' ∈ blocks q,
    h + bytes p ≤ h' ∨ h' + bytes q ≤ h

/-- Some of the rows, under other names. -/
theorem Rows.comap {ι κ : Type} {I : Set ι} {N : Nat} {bytes : ι → Nat}
    {blocks : ι → List Nat} (h : Rows I N bytes blocks) (f : κ → ι)
    (hf : ∀ p q, f p = f q → p = q) :
    Rows { p | f p ∈ I } N (fun p => bytes (f p)) (fun p => blocks (f p)) where
  row p hp := h.row (f p) hp
  apart p hp q hq hne := h.apart (f p) hp (f q) hq fun heq => hne (hf p q heq)

/-- Rows of some of the blocks, in any order. -/
theorem Rows.sub {ι : Type} {I : Set ι} {N : Nat} {bytes : ι → Nat}
    {blocks blocks' : ι → List Nat} (h : Rows I N bytes blocks)
    (hs : ∀ p ∈ I, (blocks' p).Subperm (blocks p)) :
    Rows I N bytes blocks' where
  row p hI := by
    refine (h.row p hI).sub ?_ fun b hb => (hs p hI).subset hb
    obtain ⟨l, hperm, hsub⟩ := hs p hI
    exact hperm.nodup_iff.1 (hsub.nodup (h.row p hI).nodup)
  apart p hI q hJ hne a ha b hb :=
    h.apart p hI q hJ hne a ((hs p hI).subset ha) b ((hs q hJ).subset hb)

/-- The `n` indices of `a` from `b` on. -/
def stretch (a b n : Nat) : Set (Nat × Nat) :=
  { p | p.1 = a ∧ b ≤ p.2 ∧ p.2 < b + n }

theorem stretch_zero (a b : Nat) : stretch a b 0 = ∅ :=
  Set.eq_empty_of_forall_notMem fun p hp => by
    have := hp.2
    omega

theorem stretch_succ (a b n : Nat) :
    stretch a b (n + 1) = {(a, b)} ∪ stretch a (b + 1) n := by
  ext p
  simp only [stretch, Set.mem_ofPred_eq, Set.mem_union,
    Set.mem_singleton_iff, Prod.ext_iff]
  omega

theorem stretch_disjoint (a b n : Nat) :
    Disjoint {(a, b)} (stretch a (b + 1) n) := by
  rw [Set.disjoint_singleton_left]
  intro h
  have : b + 1 ≤ b := h.2.1
  omega

/-- Windows that do not overlap have together at most `N` bytes if they
lie below `N`. -/
theorem sum_windows_le {α : Type} {N : Nat} {start len : α → Nat}
    {l : List α}
    (hd : l.Pairwise fun a b =>
      start a + len a ≤ start b ∨ start b + len b ≤ start a)
    (htop : ∀ a ∈ l, start a + len a ≤ N) : (l.map len).sum ≤ N := by
  have hlen : (l.flatMap fun a => List.range' (start a) (len a)).length
      = (l.map len).sum := by
    simp [List.length_flatMap]
  have hnd : (l.flatMap fun a => List.range' (start a) (len a)).Nodup := by
    rw [List.nodup_flatMap]
    refine ⟨fun a _ => List.nodup_range', hd.imp fun {a b} hab => ?_⟩
    intro x hxa hxb
    rw [List.mem_range'_1] at hxa hxb
    omega
  have hsub : (l.flatMap fun a => List.range' (start a) (len a))
      ⊆ List.range N := by
    intro x hx
    obtain ⟨a, ha, hxa⟩ := List.mem_flatMap.1 hx
    rw [List.mem_range'_1] at hxa
    have := htop a ha
    rw [List.mem_range]
    omega
  rw [← hlen]
  calc (l.flatMap fun a => List.range' (start a) (len a)).length
      ≤ (List.range N).length := (hnd.subperm hsub).length_le
    _ = N := List.length_range
