/-
Programs that refine a machine, with other threads at work.

`Amid R T p Q g s`: between the steps of `p` other threads may change
the state by `R`, and the environment may answer anything; each step of
`p` itself is then a step `T` of an abstract machine whose state `g` is
kept beside the program, and `p` returns, with a result and in states
that satisfy `Q`. What others may do can depend on where the machine is,
so `g` also says what the thread has to itself.
-/
import RsMalloc.Lib.Prog

namespace Conc

variable {σ ι α β γ : Type}

/-- Every run of `p` among others follows the machine and ends in
`Q`. -/
def Amid (R : γ → σ → σ → Prop) (T : γ → σ → γ → σ → Prop) :
    Prog σ ι α → (α → γ → σ → Prop) → γ → σ → Prop
  | .ret a, Q, g, s => Q a g s
  | .step u n, Q, g, s => ∀ i s₁, R g s s₁ →
      ∃ g', T g s₁ g' (u i s₁) ∧ Amid R T (n i s₁) Q g' (u i s₁)
  | .halt, _, _, _ => False

namespace Amid

variable {R : γ → σ → σ → Prop} {T : γ → σ → γ → σ → Prop}
  {Q Q' : α → γ → σ → Prop} {g : γ} {s : σ} {p : Prog σ ι α}

theorem ret {a : α} (h : Q a g s) : Amid R T (.ret a : Prog σ ι α) Q g s :=
  h

theorem mono (h : Amid R T p Q g s) (hQ : ∀ a g' s', Q a g' s' → Q' a g' s') :
    Amid R T p Q' g s := by
  induction p generalizing g s with
  | ret a => exact hQ a g s h
  | step u n ih =>
      intro i s₁ hR
      obtain ⟨g', hT, hn⟩ := h i s₁ hR
      exact ⟨g', hT, ih i s₁ hn⟩
  | halt => exact h

theorem bind {Q : β → γ → σ → Prop} {k : α → Prog σ ι β}
    (h : Amid R T p (fun a g' s' => Amid R T (k a) Q g' s') g s) :
    Amid R T (p.bind k) Q g s := by
  induction p generalizing g s with
  | ret a => exact h
  | step u n ih =>
      intro i s₁ hR
      obtain ⟨g', hT, hn⟩ := h i s₁ hR
      exact ⟨g', hT, ih i s₁ hn⟩
  | halt => exact h

/-- Run `p` with what is known of it, then the rest. -/
theorem seq {P : α → γ → σ → Prop} {Q : β → γ → σ → Prop} {k : α → Prog σ ι β}
    (h : Amid R T p P g s)
    (hk : ∀ a g' s', P a g' s' → Amid R T (k a) Q g' s') :
    Amid R T (p.bind k) Q g s :=
  bind (h.mono hk)

theorem atomic {f : ι → σ → α × σ}
    (h : ∀ i s₁, R g s s₁ →
      ∃ g', T g s₁ g' (f i s₁).2 ∧ Q (f i s₁).1 g' (f i s₁).2) :
    Amid R T (Prog.atomic f) Q g s := h

theorem when {c : Prop} [Decidable c] {p : Prog σ ι Unit}
    {Q : Unit → γ → σ → Prop} (hpos : c → Amid R T p Q g s)
    (hneg : ¬ c → Q () g s) : Amid R T (Prog.when c p) Q g s := by
  unfold Prog.when
  split
  · next hc => exact hpos hc
  · next hc => exact hneg hc

end Amid

end Conc
