/-
Programs that run alone.

`Alone E b p Q s`: whatever the environment answers, as long as every
answer satisfies `E`, the program `p` started in `s` returns in a state
and with a result that satisfy `Q`, or halts and `b` holds. With `b`
false it returns; with `b` true nothing is said of a run that uses up
its budget.

The rules follow the structure of the program: a proof about a loop is
an induction on its budget that uses the rule of each step.
-/
import RsMalloc.Lib.Prog

namespace Conc

variable {σ ι α β : Type} {p : Prog σ ι α}

/-- Every run of `p` alone from `s` ends in `Q`. -/
def Alone (E : ι → Prop) (b : Prop) :
    Prog σ ι α → (α → σ → Prop) → σ → Prop
  | .ret a, Q, s => Q a s
  | .step u n, Q, s => ∀ i, E i → Alone E b (n i s) Q (u i s)
  | .halt, _, _ => b

namespace Alone

variable {E : ι → Prop} {b : Prop} {Q Q' : α → σ → Prop} {s : σ}

theorem ret {a : α} (h : Q a s) : Alone E b (.ret a : Prog σ ι α) Q s := h

theorem mono (h : Alone E b p Q s) (hQ : ∀ a s, Q a s → Q' a s) :
    Alone E b p Q' s := by
  induction p generalizing s with
  | ret a => exact hQ a s h
  | step u n ih => exact fun i hi => ih i s (h i hi)
  | halt => exact h

theorem bind {Q : β → σ → Prop} {k : α → Prog σ ι β}
    (h : Alone E b p (fun a => Alone E b (k a) Q) s) :
    Alone E b (p.bind k) Q s := by
  induction p generalizing s with
  | ret a => exact h
  | step u n ih => exact fun i hi => ih i s (h i hi)
  | halt => exact h

/-- Run `p` with what is known of it, then the rest. -/
theorem seq {P : α → σ → Prop} {Q : β → σ → Prop} {k : α → Prog σ ι β}
    (h : Alone E b p P s) (hk : ∀ a s, P a s → Alone E b (k a) Q s) :
    Alone E b (p.bind k) Q s :=
  bind (h.mono hk)

theorem atomic {f : ι → σ → α × σ} (h : ∀ i, E i → Q (f i s).1 (f i s).2) :
    Alone E b (Prog.atomic f) Q s := h

theorem read {f : σ → α} (h : Q (f s) s) :
    Alone E b (Prog.read f : Prog σ ι α) Q s := fun _ _ => h

theorem modify {f : σ → σ} {Q : Unit → σ → Prop} (h : Q () (f s)) :
    Alone E b (Prog.modify f : Prog σ ι Unit) Q s := fun _ _ => h

theorem ask {f : ι → α} (h : ∀ i, E i → Q (f i) s) :
    Alone E b (Prog.ask f : Prog σ ι α) Q s := h

theorem when {c : Prop} [Decidable c] {p : Prog σ ι Unit}
    {Q : Unit → σ → Prop} (hpos : c → Alone E b p Q s)
    (hneg : ¬ c → Q () s) : Alone E b (Prog.when c p) Q s := by
  rw [Prog.when]
  split
  · exact hpos ‹_›
  · exact hneg ‹_›

/-- A program of a component, inside the larger state that `put` writes
the component back to. -/
theorem lift {τ κ : Type} {get : τ → σ} {put : τ → σ → τ} {ans : κ → ι}
    {F : κ → Prop} (hget : ∀ t s, get (put t s) = s)
    (hput : ∀ t s s', put (put t s) s' = put t s')
    (hself : ∀ t, put t (get t) = t) (hF : ∀ j, F j → E (ans j))
    {Q : α → τ → Prop} {t : τ}
    (h : Alone E b p (fun a s => Q a (put t s)) (get t)) :
    Alone F b (p.lift get put ans) Q t := by
  induction p generalizing t with
  | ret a =>
      have h : Q a (put t (get t)) := h
      rw [hself] at h
      exact h
  | step u n ih =>
      intro j hj
      refine ih (ans j) (get t) ?_
      have h := h (ans j) (hF j hj)
      simp only [hget, hput]
      exact h
  | halt => exact h

/-- A run that returns does so in `Q`. -/
theorem of_exec (h : Alone E b p Q s) {env : Nat → ι} (henv : ∀ j, E (env j))
    {a : α} {s' : σ} (hrun : p.exec env s = some (a, s')) : Q a s' := by
  induction p generalizing env s with
  | ret a =>
      cases hrun
      exact h
  | step u n ih => exact ih _ _ (h _ (henv 0)) (fun j => henv (j + 1)) hrun
  | halt => cases hrun

/-- Every run returns, in `Q`. -/
theorem exec (h : Alone E False p Q s) {env : Nat → ι} (henv : ∀ j, E (env j)) :
    ∃ a s', p.exec env s = some (a, s') ∧ Q a s' := by
  induction p generalizing env s with
  | ret a => exact ⟨a, s, rfl, h⟩
  | step u n ih => exact ih _ _ (h _ (henv 0)) fun j => henv (j + 1)
  | halt => exact h.elim

end Alone

-- ============================================================ invariants

/-- A run of the program that returns keeps `J`; in between `J` may
fail. -/
def Stays (E : ι → Prop) (J : σ → Prop) (p : Prog σ ι α) : Prop :=
  ∀ s, J s → Alone E True p (fun _ => J) s

namespace Stays

variable {E : ι → Prop} {J : σ → Prop}

theorem ret (a : α) : Stays E J (.ret a : Prog σ ι α) := fun _ h => h

theorem halt : Stays E J (.halt : Prog σ ι α) := fun _ _ => trivial

theorem atomic {f : ι → σ → α × σ} (h : ∀ i s, J s → J (f i s).2) :
    Stays E J (Prog.atomic f) := fun s hs i _ => h i s hs

theorem read (f : σ → α) : Stays E J (Prog.read f : Prog σ ι α) :=
  atomic fun _ _ h => h

theorem modify {f : σ → σ} (h : ∀ s, J s → J (f s)) :
    Stays E J (Prog.modify f : Prog σ ι Unit) := atomic fun _ => h

theorem bind {k : α → Prog σ ι β} (h : Stays E J p)
    (hk : ∀ a, Stays E J (k a)) : Stays E J (p.bind k) :=
  fun s hs => (h s hs).seq fun a s' hs' => hk a s' hs'

theorem when {c : Prop} [Decidable c] {p : Prog σ ι Unit}
    (h : Stays E J p) : Stays E J (Prog.when c p) :=
  fun s hs => Alone.when (fun _ => h s hs) fun _ => hs

end Stays

end Conc
