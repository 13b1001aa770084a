/-
A state whose places hold resources.

`At s k X` says that place `k` of the state `s` holds the resources
`X`; `G s T` is what is known of all resources together. `Stocked At G s
R`: the places hold what they hold, and together with the resources `R`
of everybody else they make up a `T` with `G s T`. Only finitely many
places are occupied, so the sum exists for any set of places.

`exchange` is the one rule for an operation on the state: it names the
place it works on and what it trades there; every other place only has
to read the same in the new state.
-/
import Mathlib.Algebra.BigOperators.Group.Finset.Basic
import Mathlib.Algebra.Order.BigOperators.Group.Finset
import Mathlib.Algebra.Order.Group.Multiset
import Mathlib.Tactic.Abel

section Depot

variable {σ π τ : Type}

/-- The places `S` of the state `s` hold `C`, all others nothing, and
`R` is held elsewhere. -/
structure Depot (At : σ → π → Multiset τ → Prop)
    (G : σ → Multiset τ → Prop) (s : σ) (R : Multiset τ) (S : Finset π)
    (C : π → Multiset τ) : Prop where
  outside : ∀ k, k ∉ S → C k = 0
  place : ∀ k, At s k (C k)
  whole : G s (∑ k ∈ S, C k + R)

/-- Some places hold some resources. -/
def Stocked (At : σ → π → Multiset τ → Prop)
    (G : σ → Multiset τ → Prop) (s : σ) (R : Multiset τ) : Prop :=
  ∃ S C, Depot At G s R S C

end Depot

namespace Stocked

variable {σ π τ : Type} {At : σ → π → Multiset τ → Prop}
  {G : σ → Multiset τ → Prop} {s s' : σ} {A A' F R : Multiset τ}

/-- What is known of all resources holds of some superset of one's
own. -/
theorem elim (h : Stocked At G s R) : ∃ H, G s (R + H) := by
  obtain ⟨S, C, hd⟩ := h
  refine ⟨∑ k ∈ S, C k, ?_⟩
  rw [add_comm]
  exact hd.whole

/-- No place changes, and the owner of `A` comes to own something
else. -/
theorem update {Q : Multiset τ → Prop} (h : Stocked At G s (A + F))
    (hAt : ∀ k Y, At s k Y → At s' k Y)
    (hG : ∀ H, G s (A + H) → ∃ A', G s' (A' + H) ∧ Q A') :
    ∃ A', Stocked At G s' (A' + F) ∧ Q A' := by
  obtain ⟨S, C, hd⟩ := h
  have hwhole := hd.whole
  rw [add_left_comm] at hwhole
  obtain ⟨A', hG', hQ⟩ := hG _ hwhole
  refine ⟨A', ⟨S, C, hd.outside, fun k => hAt k _ (hd.place k), ?_⟩, hQ⟩
  rw [add_left_comm]
  exact hG'

/-- Place `k` trades with the owner of `A`. -/
theorem exchange [DecidableEq π] (k : π) {Q : Multiset τ → Prop}
    (h : Stocked At G s (A + F))
    (hstep : ∀ X H, At s k X → G s (X + (A + H)) →
      ∃ X' A', At s' k X' ∧ G s' (X' + (A' + H)) ∧ Q A'
        ∧ ∀ j Y, j ≠ k → Y ≤ H → At s j Y → At s' j Y) :
    ∃ A', Stocked At G s' (A' + F) ∧ Q A' := by
  obtain ⟨S, C, hd⟩ := h
  -- everything in the other places, next to the frame
  have hsum : ∑ j ∈ S, C j = C k + ∑ j ∈ S.erase k, C j := by
    by_cases hk : k ∈ S
    · exact (Finset.add_sum_erase S C hk).symm
    · rw [hd.outside k hk, zero_add, Finset.erase_eq_of_notMem hk]
  have hwhole := hd.whole
  rw [hsum, show C k + ∑ j ∈ S.erase k, C j + (A + F)
    = C k + (A + (∑ j ∈ S.erase k, C j + F)) by abel] at hwhole
  obtain ⟨X', A', hk', hG', hQ, hrest⟩ :=
    hstep (C k) _ (hd.place k) hwhole
  refine ⟨A', ⟨insert k S, Function.update C k X', ?_, ?_, ?_⟩, hQ⟩
  · intro j hj
    rw [Finset.mem_insert, not_or] at hj
    rw [Function.update_of_ne hj.1]
    exact hd.outside j hj.2
  · intro j
    by_cases hjk : j = k
    · subst hjk
      rw [Function.update_self]
      exact hk'
    · rw [Function.update_of_ne hjk]
      refine hrest j (C j) hjk ?_ (hd.place j)
      by_cases hj : j ∈ S
      · have hmem : j ∈ S.erase k := Finset.mem_erase.2 ⟨hjk, hj⟩
        exact (Finset.single_le_sum_of_canonicallyOrdered hmem).trans
          (Multiset.le_add_right _ _)
      · rw [hd.outside j hj]
        exact Multiset.zero_le _
  · have hsum' : ∑ j ∈ insert k S, Function.update C k X' j
        = X' + ∑ j ∈ S.erase k, C j := by
      rw [← Finset.insert_erase (Finset.mem_insert_self k S),
        Finset.erase_insert_eq_erase,
        Finset.sum_insert (Finset.notMem_erase k S), Function.update_self]
      congr 1
      refine Finset.sum_congr rfl fun j hj => ?_
      rw [Function.update_of_ne (Finset.ne_of_mem_erase hj)]
    rw [hsum', show X' + ∑ j ∈ S.erase k, C j + (A' + F)
      = X' + (A' + (∑ j ∈ S.erase k, C j + F)) by abel]
    exact hG'

end Stocked
