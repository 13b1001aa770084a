/-
What the callers of a component may rely on, and that it holds.

# Contracts

Callers hold things. A `Contract` says, for each call, what a caller has
to hold for it (`takes`), what the call may answer and what its caller
holds afterwards (`gives`), and what is true of everything that is held
at any time (`fits`). `Contract.Run h L`: calls with the answers `h`,
newest first, may have left the callers with `L`. Nothing here mentions
how the component works.

A history is lawful if every call was made by someone who held what it
takes, whichever of the runs that fit the answers so far it was.

# Components

A call of the component is any of some programs over its state.
`Contract.refines` is the rule: if each program, run on resources that
stand for what the call takes, answers as the contract says and leaves
resources that stand for what it gives, then every lawful history of the
component is one of the contract.
-/
import Mathlib.Algebra.BigOperators.Group.Multiset.Basic
import RsMalloc.Lib.Runs

namespace Conc

/-- What the callers of a component may rely on. -/
structure Contract (C α K : Type) where
  takes : C → Multiset K → Prop
  gives : C → Multiset K → α → Multiset K → Prop
  fits : Multiset K → Prop

namespace Contract

section Histories

variable {C α K : Type} (D : Contract C α K)

/-- One call: its caller gives up what it takes, and gets what it
gives. -/
inductive Step : Multiset K → C → α → Multiset K → Prop
  | mk {k l k' : Multiset K} {c : C} {a : α} (takes : D.takes c k)
      (gives : D.gives c k a k') (fits : D.fits (k' + l)) :
      Step (k + l) c a (k' + l)

/-- What callers may hold after the calls `h`, newest first. -/
inductive Run : List (C × α) → Multiset K → Prop
  | nil : Run [] 0
  | cons {h : List (C × α)} {L L' : Multiset K} {c : C} {a : α}
      (run : Run h L) (step : D.Step L c a L') : Run ((c, a) :: h) L'

/-- Every call was made by someone who held what it takes. -/
def Lawful : List (C × α) → Prop
  | [] => True
  | (c, _) :: h => Lawful h ∧ ∀ L, D.Run h L → ∃ k ≤ L, D.takes c k

end Histories

-- =========================================================== components

section Components

variable {σ ι C α K τ : Type}

/-- The calls `h`, newest first, have led from `s₀` to `s`. -/
inductive Calls (E : ι → Prop) (P : σ → Prop)
    (progs : C → Set (Prog σ ι α)) (s₀ : σ) :
    List (C × α) → σ → Prop
  | nil (start : P s₀) : Calls E P progs s₀ [] s₀
  | cons {h : List (C × α)} {s s' : σ} {c : C} {a : α} {p : Prog σ ι α}
      (calls : Calls E P progs s₀ h s) (prog : p ∈ progs c)
      (ran : Ran E P p s a s') : Calls E P progs s₀ ((c, a) :: h) s'

variable {E : ι → Prop} {P : σ → Prop} {progs : C → Set (Prog σ ι α)}
  {s₀ s : σ} {h : List (C × α)}

theorem Calls.last (hc : Calls E P progs s₀ h s) : P s := by
  induction hc with
  | nil start => exact start
  | cons _ _ ran ih => exact ran.last ih

variable {D : Contract C α K} {I : σ → Multiset τ → Prop}
  {V : K → τ → Prop}

/-- What is held stands for resources that the state accounts for. -/
def Backed (I : σ → Multiset τ → Prop) (V : K → τ → Prop) (s : σ)
    (L : Multiset K) : Prop :=
  ∃ r, I s r ∧ Multiset.Rel V L r

/-- One call of the component is one of the contract. -/
theorem Backed.step {c : C} {a : α} {p : Prog σ ι α} {s' : σ}
    {L k : Multiset K} (hb : Backed I V s L) (hP : P s) (hk : k ≤ L)
    (htakes : D.takes c k)
    (hfits : ∀ L, Backed I V s' L → D.fits L)
    (hruns : ∀ r, Multiset.Rel V k r → Runs E P I p
      (fun a _ r' => ∃ k', D.gives c k a k' ∧ Multiset.Rel V k' r') s r)
    (ran : Ran E P p s a s') :
    ∃ L', D.Step L c a L' ∧ Backed I V s' L' := by
  obtain ⟨l, rfl⟩ := Multiset.le_iff_exists_add.1 hk
  obtain ⟨r, hI, hrel⟩ := hb
  obtain ⟨r₁, r₂, h₁, h₂, rfl⟩ := Multiset.rel_add_left.1 hrel
  obtain ⟨r', hI', k', hgives, hrel'⟩ := hruns r₁ h₁ r₂ hP hI a s' ran
  have hback : Backed I V s' (k' + l) := ⟨r' + r₂, hI', hrel'.add h₂⟩
  exact ⟨k' + l, .mk htakes hgives (hfits _ hback), hback⟩

/-- Every lawful history of the component is one of the contract. -/
theorem refines (hstart : I s₀ 0)
    (hfits : ∀ s L, Backed I V s L → D.fits L)
    (hruns : ∀ c k p s r, p ∈ progs c → D.takes c k →
      Multiset.Rel V k r → Runs E P I p
        (fun a _ r' => ∃ k', D.gives c k a k' ∧ Multiset.Rel V k' r') s r)
    (hcalls : Calls E P progs s₀ h s) (hlaw : D.Lawful h) :
    ∃ L, D.Run h L ∧ Backed I V s L := by
  induction hcalls with
  | nil _ => exact ⟨0, .nil, 0, hstart, .zero⟩
  | cons calls prog ran ih =>
      obtain ⟨L, hrun, hback⟩ := ih hlaw.1
      obtain ⟨k, hk, htakes⟩ := hlaw.2 L hrun
      obtain ⟨L', hstep, hback'⟩ := hback.step calls.last hk htakes
        (hfits _) (fun r hr => hruns _ _ _ _ r prog htakes hr) ran
      exact ⟨L', hrun.cons hstep, hback'⟩

end Components

end Contract

end Conc
