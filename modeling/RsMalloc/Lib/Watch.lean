/-
Programs whose next step is watched.

# Debts

A thread may owe something to the shared state between two of its
steps: it has done one half of an update and not yet the other. Next to
the resources it owns, a thread then has a debt, an element of a monoid
`M`, and the invariant of the state may depend on the sum of all debts.

`Watched I W p Q r d` reads: a thread that owns `r` and owes `d` may run
`p` among others, as with `Safe`, and in addition the relation `W` holds
between each step that `p` is about to take and what the thread owes at
that moment. A thread that has returned or halted owes nothing.

# Pools

`Watching` is ownership of a world of such threads. It survives every
step of every thread, so in every reachable world a debt is the debt of
a thread whose next step `W` knows about.
-/
import RsMalloc.Lib.Prog

namespace Conc

section Watched

variable {σ ι α β τ M : Type} [AddCommMonoid M]

/-- A thread that owns `r` and owes `d` may run the program. -/
def Watched (I : σ → Multiset τ → M → Prop) (W : (ι → σ → σ) → M → Prop) :
    Prog σ ι α → (α → Multiset τ → Prop) → Multiset τ → M → Prop
  | .ret a, Q, r, d => d = 0 ∧ Q a r
  | .step u n, Q, r, d => W u d ∧ ∀ i s f e, I s (r + f) (d + e) →
      ∃ r' d', I (u i s) (r' + f) (d' + e) ∧ Watched I W (n i s) Q r' d'
  | .halt, _, _, d => d = 0

namespace Watched

variable {I : σ → Multiset τ → M → Prop} {W : (ι → σ → σ) → M → Prop}
  {Q Q' : α → Multiset τ → Prop} {r : Multiset τ} {d : M}

theorem ret {a : α} (h : Q a r) :
    Watched I W (.ret a : Prog σ ι α) Q r 0 := ⟨rfl, h⟩

theorem halt : Watched I W (.halt : Prog σ ι α) Q r 0 := rfl

variable {k : α → Prog σ ι β} {p : Prog σ ι α} {f : ι → σ → α × σ}

/-- Weaken what is known of the result. -/
theorem mono (h : Watched I W p Q r d) (hQ : ∀ a r', Q a r' → Q' a r') :
    Watched I W p Q' r d := by
  induction p generalizing r d with
  | ret a => exact ⟨h.1, hQ a r h.2⟩
  | step u n ih =>
      refine ⟨h.1, fun i s f e hI => ?_⟩
      obtain ⟨r', d', hI', hn⟩ := h.2 i s f e hI
      exact ⟨r', d', hI', ih i s hn⟩
  | halt => exact h

/-- Programs compose: between them nothing is owed. -/
theorem bind {Q : β → Multiset τ → Prop}
    (h : Watched I W p (fun a r' => Watched I W (k a) Q r' 0) r d) :
    Watched I W (p.bind k) Q r d := by
  induction p generalizing r d with
  | ret a =>
      obtain ⟨rfl, hk⟩ := h
      exact hk
  | step u n ih =>
      refine ⟨h.1, fun i s f e hI => ?_⟩
      obtain ⟨r', d', hI', hn⟩ := h.2 i s f e hI
      exact ⟨r', d', hI', ih i s hn⟩
  | halt => exact h

/-- A resource the program does not need is still there afterwards. -/
theorem frame (h : Watched I W p Q r d) (g : Multiset τ) :
    Watched I W p (fun a r' => ∃ r₁, r' = r₁ + g ∧ Q a r₁) (r + g) d := by
  induction p generalizing r d with
  | ret a => exact ⟨h.1, r, rfl, h.2⟩
  | step u n ih =>
      refine ⟨h.1, fun i s f e hI => ?_⟩
      rw [add_assoc] at hI
      obtain ⟨r', d', hI', hn⟩ := h.2 i s (g + f) e hI
      rw [← add_assoc] at hI'
      exact ⟨r' + g, d', hI', ih i s hn⟩
  | halt => exact h

/-- One atomic step, after which nothing is owed. -/
theorem atomic (hW : W (fun i s => (f i s).2) d)
    (h : ∀ i s g e, I s (r + g) (d + e) →
      ∃ r', I (f i s).2 (r' + g) e ∧ Q (f i s).1 r') :
    Watched I W (Prog.atomic f) Q r d := by
  refine ⟨hW, fun i s g e hI => ?_⟩
  obtain ⟨r', hI', hQ⟩ := h i s g e hI
  exact ⟨r', 0, by rwa [zero_add], rfl, hQ⟩

/-- One atomic step and what follows it, before which something may be
owed. -/
theorem atomicThen {Q : β → Multiset τ → Prop} (hW : W (fun i s => (f i s).2) d)
    (h : ∀ i s g e, I s (r + g) (d + e) →
      ∃ r' d', I (f i s).2 (r' + g) (d' + e)
        ∧ Watched I W (k (f i s).1) Q r' d') :
    Watched I W ((Prog.atomic f).bind k) Q r d :=
  ⟨hW, h⟩

theorem when {c : Prop} [Decidable c] {p : Prog σ ι Unit}
    {Q : Unit → Multiset τ → Prop} (h₁ : c → Watched I W p Q r 0)
    (h₂ : ¬ c → Q () r) : Watched I W (Prog.when c p) Q r 0 := by
  unfold Prog.when
  split
  · next hc => exact h₁ hc
  · next hc => exact ret (h₂ hc)

end Watched

/-- A program that leaves its thread what it owns and never owes
anything. -/
def Steady (I : σ → Multiset τ → M → Prop) (W : (ι → σ → σ) → M → Prop)
    (p : Prog σ ι α) : Prop :=
  ∀ r, Watched I W p (fun _ r' => r' = r) r 0

namespace Steady

variable {I : σ → Multiset τ → M → Prop} {W : (ι → σ → σ) → M → Prop}
  {p : Prog σ ι α} {r : Multiset τ}

/-- Go on after a steady program. -/
theorem andThen {Q : β → Multiset τ → Prop} {k : α → Prog σ ι β}
    (h : Steady I W p) (hk : ∀ a, Watched I W (k a) Q r 0) :
    Watched I W (p.bind k) Q r 0 := by
  apply Watched.bind
  refine (h r).mono fun a r' hr => ?_
  rw [hr]
  exact hk a

theorem bind {k : α → Prog σ ι β} (h : Steady I W p)
    (hk : ∀ a, Steady I W (k a)) : Steady I W (p.bind k) :=
  fun r => h.andThen fun a => hk a r

theorem atomic {f : ι → σ → α × σ} (hW : W (fun i s => (f i s).2) 0)
    (h : ∀ i s g e, I s g e → I (f i s).2 g e) :
    Steady I W (Prog.atomic f) :=
  fun r => Watched.atomic hW fun i s g e hI => by
    rw [zero_add] at hI
    exact ⟨r, h i s _ e hI, rfl⟩

theorem when {c : Prop} [Decidable c] {p : Prog σ ι Unit}
    (h : Steady I W p) : Steady I W (Prog.when c p) :=
  fun r => Watched.when (fun _ => h r) fun _ => rfl

end Steady

end Watched

-- ================================================================ pools

section Watching

variable {T σ ι C α K τ M : Type} [Fintype T] [AddCommMonoid M]

/-- Who owns and who owes what in a world. -/
structure Watching (api : Api T σ ι C α K)
    (I : σ → Multiset τ → M → Prop) (W : (ι → σ → σ) → M → Prop)
    (key : τ → K) (V : τ → Prop) (w : World T σ ι C α K) (L : Multiset τ)
    (held : T → Multiset τ) (owes : T → M) : Prop where
  live : StandsFor key V w.live L
  idle : ∀ t, w.thread t = none → held t = 0 ∧ owes t = 0
  inv : I w.state (L + ∑ t, held t) (∑ t, owes t)
  watched : ∀ t c p, w.thread t = some (c, p) →
    Watched I W p (fun a r => StandsFor key V (api.gives c a) r) (held t)
      (owes t)

namespace Watching

variable {api : Api T σ ι C α K} {I : σ → Multiset τ → M → Prop}
  {W : (ι → σ → σ) → M → Prop} {key : τ → K} {V : τ → Prop}
  {w w' w₀ : World T σ ι C α K} {L : Multiset τ} {held : T → Multiset τ}
  {owes : T → M}

/-- What is known of a thread between calls or in the middle of one. -/
def Fits (api : Api T σ ι C α K) (I : σ → Multiset τ → M → Prop)
    (W : (ι → σ → σ) → M → Prop) (key : τ → K) (V : τ → Prop)
    (e : Option (C × Prog σ ι α)) (x : Multiset τ × M) : Prop :=
  (e = none → x.1 = 0 ∧ x.2 = 0) ∧ ∀ c p, e = some (c, p) →
    Watched I W p (fun a r' => StandsFor key V (api.gives c a) r') x.1 x.2

theorem fits (h : Watching api I W key V w L held owes) (t : T) :
    Fits api I W key V (w.thread t) (held t, owes t) :=
  ⟨h.idle t, h.watched t⟩

variable [DecidableEq T]

/-- A world in which thread `t` and the callers exchanged something. -/
theorem update (h : Watching api I W key V w L held owes) (t : T)
    {e : Option (C × Prog σ ι α)} {s : σ} {l : Multiset K}
    {L' r : Multiset τ} {d : M} (hlive : StandsFor key V l L')
    (hinv : I s (L' + (r + ∑ u ∈ Finset.univ.erase t, held u))
      (d + ∑ u ∈ Finset.univ.erase t, owes u))
    (ht : Fits api I W key V e (r, d)) :
    Watching api I W key V ⟨s, l, Function.update w.thread t e⟩ L'
      (Function.update held t r) (Function.update owes t d) := by
  have hfits : ∀ u, Fits api I W key V (Function.update w.thread t e u)
      (Function.update held t r u, Function.update owes t d u) := by
    intro u
    by_cases hut : u = t
    · subst hut
      simp only [Function.update_self]
      exact ht
    · simp only [Function.update_of_ne hut]
      exact h.fits u
  refine ⟨hlive, fun u => (hfits u).1, ?_, fun u => (hfits u).2⟩
  rw [sum_update, sum_update]
  exact hinv

variable [DecidableEq K]

/-- Every step of every thread keeps it. -/
theorem step (h : Watching api I W key V w L held owes)
    (hcall : ∀ t c r, StandsFor key V (api.takes c) r →
      Watched I W (api.prog t c)
        (fun a r' => StandsFor key V (api.gives c a) r') r 0)
    (hs : Step api w w') :
    ∃ L' held' owes', Watching api I W key V w' L' held' owes' := by
  have hinv := h.inv
  cases hs with
  | call t c idle le =>
      obtain ⟨r, L', rfl, hr, hL⟩ := h.live.split le
      rw [sum_split held t, sum_split owes t, (h.idle t idle).1,
        (h.idle t idle).2, zero_add, add_assoc] at hinv
      refine ⟨L', Function.update held t r, Function.update owes t 0,
        h.update t hL ?_ ⟨nofun, fun c' p heq => ?_⟩⟩
      · rw [add_left_comm]
        exact hinv
      · cases heq
        exact hcall t c r hr
  | @run t i c u n busy =>
      rw [sum_split held t, sum_split owes t, add_left_comm] at hinv
      obtain ⟨r', d', hI', hn⟩ :=
        (h.watched t c _ busy).2 i w.state _ _ hinv
      refine ⟨L, Function.update held t r', Function.update owes t d',
        h.update t h.live ?_ ⟨nofun, fun c' p heq => ?_⟩⟩
      · rw [add_left_comm]
        exact hI'
      · cases heq
        exact hn
  | @finish t c a done =>
      obtain ⟨hzero, hgives⟩ := h.watched t c _ done
      refine ⟨L + held t, Function.update held t 0,
        Function.update owes t 0, h.update t (h.live.add hgives) ?_
          ⟨fun _ => ⟨rfl, rfl⟩, nofun⟩⟩
      rw [sum_split held t, sum_split owes t, hzero] at hinv
      rw [zero_add, add_assoc]
      exact hinv

/-- So does every run. -/
theorem reach
    (h₀ : ∃ L held owes, Watching api I W key V w₀ L held owes)
    (hcall : ∀ t c r, StandsFor key V (api.takes c) r →
      Watched I W (api.prog t c)
        (fun a r' => StandsFor key V (api.gives c a) r') r 0)
    (hr : Reach api w₀ w) :
    ∃ L held owes, Watching api I W key V w L held owes := by
  induction hr with
  | init => exact h₀
  | step _ hs ih =>
      obtain ⟨L, held, owes, h⟩ := ih
      exact h.step hcall hs

end Watching

end Watching

end Conc
