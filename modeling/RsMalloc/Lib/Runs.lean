/-
Runs of one program, and what its caller owns afterwards.

# Runs

`Ran E P p s a s'`: the program `p`, started in `s`, has returned `a` in
the state `s'`. The environment has answered anything that satisfies
`E`, and every state after a step satisfies `P`. A program whose budget
is used up has not returned.

# Triples

`Runs E P I p Q s r` reads: if the invariant `I` holds in `s` for the
owner of `r`, next to whatever others own, then a run of `p` from `s`
that returns `a` in `s'` leaves its owner an `r'` with `Q a s' r'`, and
leaves the others what they had. Between the steps of `p` the invariant
may fail. The rules follow the structure of the program.
-/
import RsMalloc.Lib.Prog

namespace Conc

variable {σ ι α β R : Type} {k : α → Prog σ ι β}

-- ================================================================== runs

/-- The program has run from `s` and returned `a` in `s'`. -/
inductive Ran (E : ι → Prop) (P : σ → Prop) :
    Prog σ ι α → σ → α → σ → Prop
  | ret (a : α) (s : σ) : Ran E P (.ret a) s a s
  | step {u : ι → σ → σ} {n : ι → σ → Prog σ ι α} {s s' : σ} {a : α}
      (i : ι) (env : E i) (on : P (u i s)) (rest : Ran E P (n i s) (u i s) a s') :
      Ran E P (.step u n) s a s'

namespace Ran

variable {E : ι → Prop} {P : σ → Prop} {p : Prog σ ι α} {s s' : σ} {a : α}

/-- The last state of a run satisfies `P` too. -/
theorem last (h : Ran E P p s a s') (hs : P s) : P s' := by
  induction h with
  | ret a s => exact hs
  | step i env on rest ih => exact ih on

/-- A run of two programs in turn passes through a state between
them. -/
theorem bind {b : β} (h : Ran E P (p.bind k) s b s') :
    ∃ a t, Ran E P p s a t ∧ Ran E P (k a) t b s' := by
  induction p generalizing s with
  | ret a => exact ⟨a, s, .ret a s, h⟩
  | step u n ih =>
      cases h with
      | step i env on rest =>
          obtain ⟨a, t, hp, hk⟩ := ih i s rest
          exact ⟨a, t, .step i env on hp, hk⟩
  | halt => cases h

/-- A run with given answers. -/
theorem of_exec {env : Nat → ι} (hE : ∀ j, E (env j)) (hP : ∀ s, P s)
    (h : p.exec env s = some (a, s')) : Ran E P p s a s' := by
  induction p generalizing s env with
  | ret b =>
      cases h
      exact .ret _ _
  | step u n ih =>
      exact .step (env 0) (hE 0) (hP _)
        (ih (env 0) s (fun j => hE (j + 1)) h)
  | halt => cases h

end Ran

-- =============================================================== triples

section Runs

variable [AddCommMonoid R]

/-- A run of the program from `s` by the owner of `r` ends in `Q`. -/
def Runs (E : ι → Prop) (P : σ → Prop) (I : σ → R → Prop)
    (p : Prog σ ι α) (Q : α → σ → R → Prop) (s : σ) (r : R) : Prop :=
  ∀ f, P s → I s (r + f) → ∀ a s', Ran E P p s a s' →
    ∃ r', I s' (r' + f) ∧ Q a s' r'

namespace Runs

variable {E : ι → Prop} {P : σ → Prop} {I : σ → R → Prop} {p : Prog σ ι α}
  {Q Q' : α → σ → R → Prop} {s : σ} {r : R}

theorem ret {a : α} (h : Q a s r) : Runs E P I (.ret a) Q s r := by
  intro f _ hI b s' hran
  cases hran
  exact ⟨r, hI, h⟩

theorem halt : Runs E P I .halt Q s r := by
  intro f _ hI b s' hran
  cases hran

/-- Weaken what is known of the result. -/
theorem mono (h : Runs E P I p Q s r)
    (hQ : ∀ a s' r', Q a s' r' → Q' a s' r') : Runs E P I p Q' s r := by
  intro f hP hI a s' hran
  obtain ⟨r', hI', hpost⟩ := h f hP hI a s' hran
  exact ⟨r', hI', hQ a s' r' hpost⟩

/-- What the invariant says of the state may be used at any time. -/
theorem inv (h : ∀ f, P s → I s (r + f) → Runs E P I p Q s r) :
    Runs E P I p Q s r :=
  fun f hP hI => h f hP hI f hP hI

/-- Programs compose: the second starts with what the first left. -/
theorem bind {Q : β → σ → R → Prop}
    (h : Runs E P I p (fun a s' r' => Runs E P I (k a) Q s' r') s r) :
    Runs E P I (p.bind k) Q s r := by
  intro f hP hI b s' hran
  obtain ⟨a, t, hp, hk⟩ := hran.bind
  obtain ⟨r', hI', hnext⟩ := h f hP hI a t hp
  exact hnext f (hp.last hP) hI' b s' hk

/-- A resource the program does not need is still there afterwards. -/
theorem frame (h : Runs E P I p Q s r) (g : R) :
    Runs E P I p (fun a s' r' => ∃ r₁, r' = r₁ + g ∧ Q a s' r₁) s
      (r + g) := by
  intro f hP hI a s' hran
  rw [add_assoc] at hI
  obtain ⟨r', hI', hpost⟩ := h (g + f) hP hI a s' hran
  rw [← add_assoc] at hI'
  exact ⟨r' + g, hI', r', rfl, hpost⟩

/-- Run the first program on a part of what the caller owns. -/
theorem seq {Q : β → σ → R → Prop} {S : α → σ → R → Prop} {g : R}
    (h : Runs E P I p S s r)
    (hk : ∀ a s' r', S a s' r' → Runs E P I (k a) Q s' (r' + g)) :
    Runs E P I (p.bind k) Q s (r + g) := by
  refine bind ((h.frame g).mono fun a s' r' hpost => ?_)
  obtain ⟨r₁, rfl, hS⟩ := hpost
  exact hk a s' r₁ hS

/-- Run the first program on all the caller owns. -/
theorem andThen {Q : β → σ → R → Prop} {S : α → σ → R → Prop}
    (h : Runs E P I p S s r)
    (hk : ∀ a s' r', S a s' r' → Runs E P I (k a) Q s' r') :
    Runs E P I (p.bind k) Q s r :=
  bind (h.mono hk)

/-- One atomic step. -/
theorem atomic {f : ι → σ → α × σ}
    (h : ∀ i g, E i → P s → I s (r + g) →
      ∃ r', I (f i s).2 (r' + g) ∧ Q (f i s).1 (f i s).2 r') :
    Runs E P I (Prog.atomic f) Q s r := by
  intro g hP hI a s' hran
  cases hran with
  | step i env on rest =>
      cases rest
      exact h i g env hP hI

theorem read {f : σ → α} (h : Q (f s) s r) :
    Runs E P I (Prog.read f) Q s r :=
  atomic fun _ _ _ _ hI => ⟨r, hI, h⟩

/-- A read goes on with what the state shows. -/
theorem readThen {f : σ → α} {Q : β → σ → R → Prop}
    (h : Runs E P I (k (f s)) Q s r) :
    Runs E P I ((Prog.read f).bind k) Q s r :=
  bind (read h)

theorem ask {f : ι → α} (h : ∀ i, E i → Q (f i) s r) :
    Runs E P I (Prog.ask f) Q s r :=
  atomic fun i _ hE _ hI => ⟨r, hI, h i hE⟩

theorem modify {f : σ → σ} {Q : Unit → σ → R → Prop}
    (h : ∀ g, P s → I s (r + g) → ∃ r', I (f s) (r' + g) ∧ Q () (f s) r') :
    Runs E P I (Prog.modify f) Q s r :=
  atomic fun _ g _ hP hI => h g hP hI

theorem when {c : Prop} [Decidable c] {p : Prog σ ι Unit}
    {Q : Unit → σ → R → Prop} (hpos : c → Runs E P I p Q s r)
    (hneg : ¬ c → Q () s r) : Runs E P I (Prog.when c p) Q s r := by
  unfold Prog.when
  split
  · next hc => exact hpos hc
  · next hc => exact ret (hneg hc)

end Runs

/-- A run of a component's program inside a larger state: what it does
to the component it has put back there. The invariant may not depend on
what `put` forgets. -/
theorem Ran.lift {τ κ : Type} {J : σ → R → Prop} {get : τ → σ}
    {put : τ → σ → τ} {ans : κ → ι} {E : κ → Prop} {P : τ → Prop}
    {Q : α → R → Prop} {p : Prog σ ι α} {t t' : τ} {a : α} {r f : R}
    (h : Ran E P (p.lift get put ans) t a t') (hsafe : Safe J p Q r)
    (hJ : ∀ t s r, J s r → J (get (put t s)) r)
    (hput : ∀ t s s', put (put t s) s' = put t s')
    (hself : ∀ t, put t (get t) = t) (hI : J (get t) (r + f)) :
    ∃ s r', t' = put t s ∧ J s (r' + f) ∧ Q a r' := by
  induction p generalizing t r with
  | ret b =>
      cases h
      exact ⟨_, r, (hself _).symm, hI, hsafe⟩
  | step u n ih =>
      cases h with
      | step i env on rest =>
          obtain ⟨r', hI', hn⟩ := hsafe (ans i) (get t) f hI
          obtain ⟨s, r'', ht', hs, hQ⟩ :=
            ih (ans i) (get t) rest hn (hJ t _ _ hI')
          rw [hput] at ht'
          exact ⟨s, r'', ht', hs, hQ⟩
  | halt => cases h

end Runs

end Conc
