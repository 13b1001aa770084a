/-
Programs of atomic steps, and what their threads own.

# Programs

A `Prog σ ι α` is a tree of atomic steps over a shared state `σ`. Each
step consults one answer `i : ι` of the environment (a scheduler's
choice, the result of a system call), updates the state and goes on
with a program that may depend on what it read. `halt` is a thread that
takes no further step: a loop whose budget is used up, or an aborted
process. Loops are unrolled to a budget, and every result below holds
for each budget.

# Ownership

`Safe I p Q r` reads: a thread that owns the resource `r` may run `p`,
whatever the other threads do, provided the global invariant `I` holds
before each of its steps; each of its steps keeps `I` and changes only
what the thread owns, and when `p` returns `a` the thread owns some
`r'` with `Q a r'`. The frame `f` of a step is everything owned by
someone else, so two threads whose programs are safe on their own are
safe together.

# Pools

A `World` is a shared state, the entries that callers hold (`live`) and
the call each thread is executing. `Owned.step` is the soundness
argument: ownership of the whole world survives every step of every
thread.
-/
import Mathlib.Algebra.BigOperators.Fin
import Mathlib.Data.Multiset.Fintype
import Mathlib.Data.Fintype.BigOperators

namespace Conc

-- ============================================================= programs

/-- A program over the shared state `σ` with environment answers `ι`. -/
inductive Prog (σ ι α : Type) : Type where
  | ret (a : α)
  | step (upd : ι → σ → σ) (next : ι → σ → Prog σ ι α)
  | halt

namespace Prog

variable {σ ι α β γ : Type}

/-- Run `p`, then the program its result selects. -/
def bind : Prog σ ι α → (α → Prog σ ι β) → Prog σ ι β
  | ret a, k => k a
  | step u n, k => step u fun i s => (n i s).bind k
  | halt, _ => halt

instance : Monad (Prog σ ι) where
  pure := ret
  bind := bind

@[simp] theorem pure_eq (a : α) : (pure a : Prog σ ι α) = ret a := rfl

@[simp] theorem bind_eq (p : Prog σ ι α) (k : α → Prog σ ι β) :
    p >>= k = p.bind k := rfl

@[simp] theorem ret_bind (a : α) (k : α → Prog σ ι β) :
    (ret a : Prog σ ι α).bind k = k a := rfl

/-- One atomic step. -/
def atomic (f : ι → σ → α × σ) : Prog σ ι α :=
  step (fun i s => (f i s).2) fun i s => ret (f i s).1

/-- A step that only reads. -/
def read (f : σ → α) : Prog σ ι α := atomic fun _ s => (f s, s)

/-- A step that only writes. -/
def modify (f : σ → σ) : Prog σ ι Unit := atomic fun _ s => ((), f s)

/-- One answer of the environment. -/
def ask (f : ι → α) : Prog σ ι α := atomic fun i s => (f i, s)

/-- `if c { p }`. -/
def when (c : Prop) [Decidable c] (p : Prog σ ι Unit) : Prog σ ι Unit :=
  if c then p else ret ()

/-- Run `p` alone, the environment answering `env 0`, `env 1`, … in
turn; `none` if `p` halts. -/
def exec : (Nat → ι) → Prog σ ι α → σ → Option (α × σ)
  | _, ret a, s => some (a, s)
  | env, step u n, s =>
      exec (fun j => env (j + 1)) (n (env 0) s) (u (env 0) s)
  | _, halt, _ => none

theorem bind_assoc {γ : Type} (p : Prog σ ι α) (k : α → Prog σ ι β)
    (l : β → Prog σ ι γ) :
    (p.bind k).bind l = p.bind fun a => (k a).bind l := by
  induction p with
  | ret a => rfl
  | step u n ih =>
      show step _ _ = step _ _
      congr 1
      funext i s
      exact ih i s
  | halt => rfl

/-- A step, then the rest. -/
theorem exec_atomic (f : ι → σ → α × σ) (k : α → Prog σ ι β)
    (env : Nat → ι) (s : σ) :
    ((atomic f).bind k).exec env s
      = (k (f (env 0) s).1).exec (fun j => env (j + 1)) (f (env 0) s).2 :=
  rfl

variable {p : Prog σ ι α} {k : α → Prog σ ι β} {env : Nat → ι}

/-- A read goes on with what the state shows. -/
theorem exec_readThen {f : σ → α} {s : σ} {o : Option (β × σ)}
    (h : (k (f s)).exec (fun j => env (j + 1)) s = o) :
    ((read f).bind k).exec env s = o := h

/-- Run a program of a component inside a larger state. -/
def lift {τ κ : Type} (get : τ → σ) (put : τ → σ → τ) (ans : κ → ι) :
    Prog σ ι α → Prog τ κ α
  | ret a => ret a
  | step u n =>
      step (fun i t => put t (u (ans i) (get t)))
        fun i t => (n (ans i) (get t)).lift get put ans
  | halt => halt

/-- The program takes steps until it returns, whatever it reads. -/
def Total : Prog σ ι α → Prop
  | ret _ => True
  | step _ n => ∀ i s, Total (n i s)
  | halt => False

theorem Total.bind (h : p.Total) (hk : ∀ a, (k a).Total) :
    (p.bind k).Total := by
  induction p with
  | ret a => exact hk a
  | step u n ih => exact fun i s => ih i s (h i s)
  | halt => exact h.elim

theorem Total.atomic (f : ι → σ → α × σ) : (atomic f).Total :=
  fun _ _ => trivial

/-- Run alone, it returns. -/
theorem Total.exec (h : p.Total) (env : Nat → ι) (s : σ) :
    ∃ a s', p.exec env s = some (a, s') := by
  induction p generalizing env s with
  | ret a => exact ⟨a, s, rfl⟩
  | step u n ih => exact ih (env 0) s (h (env 0) s) _ _
  | halt => exact h.elim

/-- Run alone, it goes on with the program its result selects. -/
theorem Total.exec_bind (h : p.Total) (k : α → Prog σ ι β) (env : Nat → ι)
    (s : σ) : ∃ a env' s', (p.bind k).exec env s = (k a).exec env' s' := by
  induction p generalizing env s with
  | ret a => exact ⟨a, env, s, rfl⟩
  | step u n ih => exact ih (env 0) s (h (env 0) s) _ _
  | halt => exact h.elim

/-- Every step of the program leaves `f` of the state alone. -/
def Keeps {γ : Type} (f : σ → γ) : Prog σ ι α → Prop
  | ret _ => True
  | step u n => ∀ i s, f (u i s) = f s ∧ Keeps f (n i s)
  | halt => True

section Keeps

variable {γ : Type} {f : σ → γ}

theorem Keeps.bind (h : p.Keeps f) (hk : ∀ a, (k a).Keeps f) :
    (p.bind k).Keeps f := by
  induction p with
  | ret a => exact hk a
  | step u n ih => exact fun i s => ⟨(h i s).1, ih i s (h i s).2⟩
  | halt => trivial

theorem Keeps.atomic {g : ι → σ → α × σ}
    (h : ∀ i s, f (g i s).2 = f s) : (atomic g).Keeps f :=
  fun i s => ⟨h i s, trivial⟩

theorem Keeps.when {c : Prop} [Decidable c] {p : Prog σ ι Unit}
    (h : p.Keeps f) : (Prog.when c p).Keeps f := by
  unfold Prog.when
  split
  · exact h
  · trivial

/-- So does a run alone. -/
theorem Keeps.exec (h : p.Keeps f) {s s' : σ} {a : α}
    (hrun : p.exec env s = some (a, s')) : f s' = f s := by
  induction p generalizing env s with
  | ret b =>
      cases hrun
      rfl
  | step u n ih =>
      obtain ⟨hstep, hrest⟩ := h (env 0) s
      exact (ih (env 0) s hrest hrun).trans hstep
  | halt => cases hrun

end Keeps

/-- Seen through `get`, the steps of the first program are those of the
second. -/
def Over {τ : Type} (get : τ → σ) : Prog τ ι α → Prog σ ι α → Prop
  | ret a, ret b => a = b
  | step u n, step v m => ∀ i t,
      get (u i t) = v i (get t) ∧ Over get (n i t) (m i (get t))
  | halt, halt => True
  | _, _ => False

section Over

variable {τ : Type} {get : τ → σ}

theorem Over.bind {p : Prog τ ι α} {q : Prog σ ι α}
    {k : α → Prog τ ι β} {k' : α → Prog σ ι β} (h : Over get p q)
    (hk : ∀ a, Over get (k a) (k' a)) :
    Over get (p.bind k) (q.bind k') := by
  induction p generalizing q with
  | ret a =>
      cases q with
      | ret b =>
          obtain rfl : a = b := h
          exact hk a
      | step v m => exact h.elim
      | halt => exact h.elim
  | step u n ih =>
      cases q with
      | ret b => exact h.elim
      | step v m => exact fun i t => ⟨(h i t).1, ih i t (h i t).2⟩
      | halt => exact h.elim
  | halt =>
      cases q with
      | ret b => exact h.elim
      | step v m => exact h.elim
      | halt => trivial

theorem Over.atomic {f : ι → τ → α × τ} {g : ι → σ → α × σ}
    (h : ∀ i t, (f i t).1 = (g i (get t)).1
      ∧ get (f i t).2 = (g i (get t)).2) :
    Over get (Prog.atomic f) (Prog.atomic g) :=
  fun i t => ⟨(h i t).2, (h i t).1⟩

theorem Over.when {c : Prop} [Decidable c] {p : Prog τ ι Unit}
    {q : Prog σ ι Unit} (h : Over get p q) :
    Over get (Prog.when c p) (Prog.when c q) := by
  unfold Prog.when
  split
  · exact h
  · exact rfl

end Over

end Prog

-- ============================================================ ownership

section Safe

variable {σ ι α β R : Type} [AddCommMonoid R]

/-- A thread that owns `r` may run the program; it returns with `Q`. -/
def Safe (I : σ → R → Prop) :
    Prog σ ι α → (α → R → Prop) → R → Prop
  | .ret a, Q, r => Q a r
  | .step u n, Q, r => ∀ i s f, I s (r + f) →
      ∃ r', I (u i s) (r' + f) ∧ Safe I (n i s) Q r'
  | .halt, _, _ => True

variable {I : σ → R → Prop} {Q Q' : α → R → Prop} {r : R} {p : Prog σ ι α}
  {k : α → Prog σ ι β}

namespace Safe

theorem ret {a : α} (h : Q a r) : Safe I (.ret a : Prog σ ι α) Q r := h

theorem halt : Safe I (.halt : Prog σ ι α) Q r := trivial

/-- Weaken what is known of the result. -/
theorem mono (h : Safe I p Q r) (hQ : ∀ a r', Q a r' → Q' a r') :
    Safe I p Q' r := by
  induction p generalizing r with
  | ret a => exact hQ a r h
  | step u n ih =>
      intro i s f hI
      obtain ⟨r', hI', hn⟩ := h i s f hI
      exact ⟨r', hI', ih i s hn⟩
  | halt => trivial

/-- Programs compose: the second starts with what the first left. -/
theorem bind {Q : β → R → Prop}
    (h : Safe I p (fun a r' => Safe I (k a) Q r') r) :
    Safe I (p.bind k) Q r := by
  induction p generalizing r with
  | ret a => exact h
  | step u n ih =>
      intro i s f hI
      obtain ⟨r', hI', hn⟩ := h i s f hI
      exact ⟨r', hI', ih i s hn⟩
  | halt => trivial

/-- A resource the program does not need is still there afterwards. -/
theorem frame (h : Safe I p Q r) (g : R) :
    Safe I p (fun a r' => ∃ r₁, r' = r₁ + g ∧ Q a r₁) (r + g) := by
  induction p generalizing r with
  | ret a => exact ⟨r, rfl, h⟩
  | step u n ih =>
      intro i s f hI
      rw [add_assoc] at hI
      obtain ⟨r', hI', hn⟩ := h i s (g + f) hI
      refine ⟨r' + g, ?_, ih i s hn⟩
      rw [add_assoc]
      exact hI'
  | halt => trivial

/-- Run the first program on a part of what the thread owns. -/
theorem seq {Q : β → R → Prop} {P : α → R → Prop} {g : R} (h : Safe I p P r)
    (hk : ∀ a r', P a r' → Safe I (k a) Q (r' + g)) :
    Safe I (p.bind k) Q (r + g) := by
  apply Safe.bind
  refine (h.frame g).mono ?_
  rintro a _ ⟨r', rfl, hP⟩
  exact hk a r' hP

/-- One atomic step: show that it keeps the invariant and what the
thread owns afterwards. -/
theorem atomic {f : ι → σ → α × σ}
    (h : ∀ i s g, I s (r + g) →
      ∃ r', I (f i s).2 (r' + g) ∧ Q (f i s).1 r') :
    Safe I (Prog.atomic f) Q r := h

/-- A step that only reads changes nothing; the invariant may be used
to learn about what was read. -/
theorem read {f : σ → α} (h : ∀ s g, I s (r + g) → Q (f s) r) :
    Safe I (Prog.read f : Prog σ ι α) Q r :=
  fun _ s g hI => ⟨r, hI, h s g hI⟩

/-- A read whose outcome follows from what the thread owns. -/
theorem read_known {f : σ → α} {Q : β → R → Prop} {v : α}
    (h : ∀ s g, I s (r + g) → f s = v) (hk : Safe I (k v) Q r) :
    Safe I ((Prog.read f).bind k) Q r := by
  intro i s g hI
  refine ⟨r, hI, ?_⟩
  show Safe I (k (f s)) Q r
  rw [h s g hI]
  exact hk

theorem modify {f : σ → σ} {Q : Unit → R → Prop}
    (h : ∀ s g, I s (r + g) → ∃ r', I (f s) (r' + g) ∧ Q () r') :
    Safe I (Prog.modify f : Prog σ ι Unit) Q r :=
  fun _ s g hI => h s g hI

theorem ask {f : ι → α} (h : ∀ i, Q (f i) r) :
    Safe I (Prog.ask f : Prog σ ι α) Q r :=
  fun i _ _ hI => ⟨r, hI, h i⟩

theorem when {c : Prop} [Decidable c] {p : Prog σ ι Unit}
    {Q : Unit → R → Prop} (h₁ : c → Safe I p Q r) (h₂ : ¬ c → Q () r) :
    Safe I (Prog.when c p) Q r := by
  unfold Prog.when
  split
  · next hc => exact h₁ hc
  · next hc => exact h₂ hc

/-- What the invariant gives away for free may be taken before the
first step. -/
theorem acquire {u : ι → σ → σ} {n : ι → σ → Prog σ ι α} {r' : R}
    (hI : ∀ s f, I s (r + f) → I s (r' + f))
    (h : Safe I (.step u n) Q r') : Safe I (.step u n) Q r :=
  fun i s f hs => h i s f (hI s f hs)

/-- What is safe stays safe when part of the frame is set aside. -/
theorem aside (h : Safe I p Q r) (x : R) :
    Safe (fun s r => I s (r + x)) p Q r := by
  induction p generalizing r with
  | ret a => exact h
  | step u n ih =>
      intro i s f hI
      rw [add_assoc] at hI
      obtain ⟨r', hI', hn⟩ := h i s (f + x) hI
      refine ⟨r', ?_, ih i s hn⟩
      show I (u i s) (r' + f + x)
      rw [add_assoc]
      exact hI'
  | halt => trivial

/-- A program that runs alone ends in a state that satisfies the
invariant, with the frame untouched. -/
theorem exec (h : Safe I p Q r) {env : Nat → ι} {s s' : σ} {a : α} {f : R}
    (hI : I s (r + f)) (hrun : p.exec env s = some (a, s')) :
    ∃ r', I s' (r' + f) ∧ Q a r' := by
  induction p generalizing r env s with
  | ret b =>
      cases hrun
      exact ⟨r, hI, h⟩
  | step u n ih =>
      obtain ⟨r', hI', hn⟩ := h (env 0) s f hI
      exact ih (env 0) s hn hI' hrun
  | halt => cases hrun

end Safe

/-- A program that leaves its thread what it owns, whatever that is. -/
def Neutral (I : σ → R → Prop) (p : Prog σ ι α) : Prop :=
  ∀ r, Safe I p (fun _ r' => r' = r) r

namespace Neutral

theorem ret (a : α) : Neutral I (.ret a : Prog σ ι α) := fun _ => rfl

theorem read (f : σ → α) : Neutral I (Prog.read f : Prog σ ι α) :=
  fun _ => Safe.read fun _ _ _ => rfl

theorem ask (f : ι → α) : Neutral I (Prog.ask f : Prog σ ι α) :=
  fun _ => Safe.ask fun _ => rfl

theorem atomic {f : ι → σ → α × σ} (h : ∀ i s r, I s r → I (f i s).2 r) :
    Neutral I (Prog.atomic f) :=
  fun r => Safe.atomic fun i s _ hI => ⟨r, h i s _ hI, rfl⟩

theorem when {c : Prop} [Decidable c] {p : Prog σ ι Unit}
    (h : Neutral I p) : Neutral I (Prog.when c p) :=
  fun r => Safe.when (fun _ => h r) fun _ => rfl

/-- Go on after a neutral program. -/
theorem andThen {Q : β → R → Prop} (h : Neutral I p)
    (hk : ∀ a, Safe I (k a) Q r) : Safe I (p.bind k) Q r := by
  apply Safe.bind
  refine (h r).mono fun a r' hr => ?_
  rw [hr]
  exact hk a

theorem bind (h : Neutral I p) (hk : ∀ a, Neutral I (k a)) :
    Neutral I (p.bind k) :=
  fun r => h.andThen fun a => hk a r

end Neutral

end Safe

-- ================================================ sums over the threads

section Threads

variable {T K τ : Type}

/-- A part of the image of a multiset is the image of a part. -/
theorem exists_le_map_eq {s : Multiset K} {t : Multiset τ} {f : τ → K}
    (h : s ≤ t.map f) : ∃ u ≤ t, u.map f = s := by
  induction s using Multiset.induction_on generalizing t with
  | empty => exact ⟨0, Multiset.zero_le t, rfl⟩
  | cons a s ih =>
      have hmem : a ∈ t.map f := Multiset.mem_of_le h (Multiset.mem_cons_self a s)
      obtain ⟨b, hb, rfl⟩ := Multiset.mem_map.1 hmem
      obtain ⟨t', rfl⟩ := Multiset.exists_cons_of_mem hb
      rw [Multiset.map_cons, Multiset.cons_le_cons_iff] at h
      obtain ⟨u, hu, rfl⟩ := ih h
      exact ⟨b ::ₘ u, (Multiset.cons_le_cons_iff b).2 hu, by simp⟩

variable [DecidableEq T]

/-- A fact about every thread survives an update of one thread that
satisfies it. -/
theorem forall_update {β γ : Type} {P : β → γ → Prop} {f : T → β}
    {g : T → γ} (t : T) {b : β} {c : γ} (h : ∀ u, P (f u) (g u))
    (ht : P b c) (u : T) :
    P (Function.update f t b u) (Function.update g t c u) := by
  by_cases hut : u = t
  · subst hut
    rw [Function.update_self, Function.update_self]
    exact ht
  · rw [Function.update_of_ne hut, Function.update_of_ne hut]
    exact h u

variable [Fintype T]

/-- What thread `t` owns, apart from what the others own. -/
theorem sum_split {M : Type} [AddCommMonoid M] (held : T → M) (t : T) :
    ∑ u, held u = held t + ∑ u ∈ Finset.univ.erase t, held u :=
  (Finset.add_sum_erase _ _ (Finset.mem_univ t)).symm

theorem sum_update {M : Type} [AddCommMonoid M] (held : T → M) (t : T)
    (r : M) :
    ∑ u, Function.update held t r u
      = r + ∑ u ∈ Finset.univ.erase t, held u := by
  rw [sum_split _ t, Function.update_self]
  congr 1
  refine Finset.sum_congr rfl fun u hu => ?_
  rw [Function.update_of_ne (Finset.ne_of_mem_erase hu)]

end Threads

-- ================================================================ pools

/-- The calls a thread may make: their programs, the live entries a
call takes from its caller and those its result hands back. -/
structure Api (T σ ι C α K : Type) where
  prog : T → C → Prog σ ι α
  takes : C → Multiset K
  gives : C → α → Multiset K

/-- A shared state, the entries callers hold, and the call each thread
is executing (`none`: the thread is between calls). -/
structure World (T σ ι C α K : Type) where
  state : σ
  live : Multiset K
  thread : T → Option (C × Prog σ ι α)

section Pool

variable {T σ ι C α K : Type} [DecidableEq T] [DecidableEq K]

/-- One step of one thread. A call starts with entries its caller
holds, runs one atomic step at a time, and ends by handing entries
back. -/
inductive Step (api : Api T σ ι C α K) :
    World T σ ι C α K → World T σ ι C α K → Prop
  | call {w : World T σ ι C α K} (t : T) (c : C)
      (idle : w.thread t = none) (held : api.takes c ≤ w.live) :
      Step api w
        { state := w.state, live := w.live - api.takes c,
          thread := Function.update w.thread t (some (c, api.prog t c)) }
  | run {w : World T σ ι C α K} (t : T) (i : ι) {c : C}
      {u : ι → σ → σ} {n : ι → σ → Prog σ ι α}
      (busy : w.thread t = some (c, .step u n)) :
      Step api w
        { state := u i w.state, live := w.live,
          thread := Function.update w.thread t (some (c, n i w.state)) }
  | finish {w : World T σ ι C α K} (t : T) {c : C} {a : α}
      (done : w.thread t = some (c, .ret a)) :
      Step api w
        { state := w.state, live := w.live + api.gives c a,
          thread := Function.update w.thread t none }

/-- The worlds a run reaches. -/
inductive Reach (api : Api T σ ι C α K) (w₀ : World T σ ι C α K) :
    World T σ ι C α K → Prop
  | init : Reach api w₀ w₀
  | step {w w' : World T σ ι C α K} (h : Reach api w₀ w)
      (hs : Step api w w') : Reach api w₀ w'

/-- The worlds a run reaches that stays inside `P`. -/
inductive ReachIn (api : Api T σ ι C α K) (P : World T σ ι C α K → Prop)
    (w₀ : World T σ ι C α K) : World T σ ι C α K → Prop
  | init (h : P w₀) : ReachIn api P w₀ w₀
  | step {w w' : World T σ ι C α K} (h : ReachIn api P w₀ w)
      (hs : Step api w w') (hP : P w') : ReachIn api P w₀ w'

section Runs

variable {api : Api T σ ι C α K} {w₀ w : World T σ ι C α K}
  {P : World T σ ι C α K → Prop} {t : T} {c : C} {p : Prog σ ι α} {a : α}
  {s s' : σ} {l : Multiset K} {f : T → Option (C × Prog σ ι α)} {env : Nat → ι}

theorem ReachIn.holds (h : ReachIn api P w₀ w) : P w := by
  cases h with
  | init h => exact h
  | step _ _ hP => exact hP

theorem ReachIn.reach (h : ReachIn api P w₀ w) : Reach api w₀ w := by
  induction h with
  | init _ => exact .init
  | step _ hs _ ih => exact ih.step hs

theorem Reach.reachIn (hP : ∀ w, P w) (h : Reach api w₀ w) :
    ReachIn api P w₀ w := by
  induction h with
  | init => exact .init (hP w₀)
  | step _ hs ih => exact ih.step hs (hP _)

/-- No thread is stuck when every call runs to its end. -/
theorem Reach.total (hcall : ∀ t c, (api.prog t c).Total)
    (h₀ : ∀ t, w₀.thread t = none) (h : Reach api w₀ w)
    (busy : w.thread t = some (c, p)) : p.Total := by
  induction h generalizing t c p with
  | init =>
      rw [h₀ t] at busy
      cases busy
  | step _ hs ih =>
      cases hs with
      | call u c' idle held =>
          by_cases hu : t = u
          · subst hu
            simp only [Function.update_self, Option.some.injEq,
              Prod.mk.injEq] at busy
            rw [← busy.2]
            exact hcall t c'
          · simp only [Function.update_of_ne hu] at busy
            exact ih busy
      | run u i busy' =>
          by_cases hu : t = u
          · subst hu
            simp only [Function.update_self, Option.some.injEq,
              Prod.mk.injEq] at busy
            rw [← busy.2]
            exact ih busy' i _
          · simp only [Function.update_of_ne hu] at busy
            exact ih busy
      | finish u done =>
          by_cases hu : t = u
          · subst hu
            simp only [Function.update_self] at busy
            cases busy
          · simp only [Function.update_of_ne hu] at busy
            exact ih busy

/-- One step of a thread. -/
theorem Reach.one {u : ι → σ → σ} {n : ι → σ → Prog σ ι α}
    (h : Reach api w₀ ⟨s, l, Function.update f t (some (c, .step u n))⟩)
    (i : ι) :
    Reach api w₀ ⟨u i s, l, Function.update f t (some (c, n i s))⟩ := by
  have hs := h.step (.run t i (Function.update_self ..))
  rw [Function.update_idem] at hs
  exact hs

/-- A thread that runs alone from here on. -/
theorem Reach.runs (h : Reach api w₀ ⟨s, l, Function.update f t (some (c, p))⟩)
    (hrun : p.exec env s = some (a, s')) :
    Reach api w₀ ⟨s', l, Function.update f t (some (c, .ret a))⟩ := by
  induction p generalizing s env with
  | ret b =>
      cases hrun
      exact h
  | step u n ih => exact ih (env 0) s (h.one (env 0)) hrun
  | halt => cases hrun

/-- A call that runs alone from its start to its end. -/
theorem Reach.exec (t : T) (c : C) (env : Nat → ι) (h : Reach api w₀ w)
    (idle : w.thread t = none) (held : api.takes c ≤ w.live)
    (hrun : (api.prog t c).exec env w.state = some (a, s')) :
    Reach api w₀ ⟨s', w.live - api.takes c + api.gives c a, w.thread⟩ := by
  have hdone := (h.step (.call t c idle held)).runs hrun
  have hend := hdone.step (.finish t (Function.update_self ..))
  rw [Function.update_idem, ← idle, Function.update_eq_self] at hend
  exact hend

end Runs

end Pool

section Ownership

variable {T σ ι C α K τ : Type} [Fintype T]

/-- The resources `r` stand for the entries `l`: they have their keys,
and each of them is what a caller may hold. -/
def StandsFor (key : τ → K) (V : τ → Prop) (l : Multiset K)
    (r : Multiset τ) : Prop :=
  r.map key = l ∧ ∀ x ∈ r, V x

namespace StandsFor

variable {key : τ → K} {V : τ → Prop} {l l' : Multiset K}
  {r r' : Multiset τ}

theorem zero : StandsFor key V 0 0 :=
  ⟨rfl, nofun⟩

theorem add (h : StandsFor key V l r) (h' : StandsFor key V l' r') :
    StandsFor key V (l + l') (r + r') :=
  ⟨by rw [Multiset.map_add, h.1, h'.1],
    fun x hx => (Multiset.mem_add.1 hx).elim (h.2 x) (h'.2 x)⟩

/-- Some of the entries are given away. -/
theorem split [DecidableEq K] (h : StandsFor key V l r) (hle : l' ≤ l) :
    ∃ r₁ r₂, r = r₁ + r₂ ∧ StandsFor key V l' r₁
      ∧ StandsFor key V (l - l') r₂ := by
  obtain ⟨hkeys, hvalid⟩ := h
  rw [← hkeys] at hle
  obtain ⟨r₁, hr, hkey⟩ := exists_le_map_eq hle
  obtain ⟨r₂, rfl⟩ := Multiset.le_iff_exists_add.1 hr
  refine ⟨r₁, r₂, rfl,
    ⟨hkey, fun x hx => hvalid x (Multiset.mem_add.2 (Or.inl hx))⟩,
    ?_, fun x hx => hvalid x (Multiset.mem_add.2 (Or.inr hx))⟩
  rw [← hkeys, Multiset.map_add, hkey, add_tsub_cancel_left]

end StandsFor

/-- Who owns what in a world: callers own `L`, which stands for the
live entries; thread `t` owns `held t`, nothing when it is between
calls; and every thread's remaining program is safe on what it owns. -/
structure Owned (api : Api T σ ι C α K) (I : σ → Multiset τ → Prop)
    (key : τ → K) (V : τ → Prop) (w : World T σ ι C α K) (L : Multiset τ)
    (held : T → Multiset τ) : Prop where
  live : StandsFor key V w.live L
  idle : ∀ t, w.thread t = none → held t = 0
  inv : I w.state (L + ∑ t, held t)
  safe : ∀ t c p, w.thread t = some (c, p) →
    Safe I p (fun a r => StandsFor key V (api.gives c a) r) (held t)

namespace Owned

variable {api : Api T σ ι C α K} {I : σ → Multiset τ → Prop} {key : τ → K}
  {V : τ → Prop} {w w' : World T σ ι C α K} {L : Multiset τ}
  {held : T → Multiset τ}

/-- What is known of a thread between calls or in the middle of one. -/
def Fits (api : Api T σ ι C α K) (I : σ → Multiset τ → Prop)
    (key : τ → K) (V : τ → Prop) (e : Option (C × Prog σ ι α))
    (r : Multiset τ) : Prop :=
  (e = none → r = 0) ∧ ∀ c p, e = some (c, p) →
    Safe I p (fun a r' => StandsFor key V (api.gives c a) r') r

theorem fits (h : Owned api I key V w L held) (t : T) :
    Fits api I key V (w.thread t) (held t) :=
  ⟨h.idle t, h.safe t⟩

variable [DecidableEq T]

/-- Ownership of a world in which thread `t` and the callers exchanged
resources. -/
theorem update (h : Owned api I key V w L held) (t : T)
    {e : Option (C × Prog σ ι α)} {s : σ} {l : Multiset K}
    {L' r : Multiset τ} (hlive : StandsFor key V l L')
    (hinv : I s (L' + (r + ∑ u ∈ Finset.univ.erase t, held u)))
    (ht : Fits api I key V e r) :
    Owned api I key V ⟨s, l, Function.update w.thread t e⟩ L'
      (Function.update held t r) where
  live := hlive
  idle u := (forall_update t h.fits ht u).1
  inv := by
    rw [sum_update]
    exact hinv
  safe u := (forall_update t h.fits ht u).2

variable [DecidableEq K]

/-- Ownership survives every step of every thread. -/
theorem step (h : Owned api I key V w L held)
    (hcall : ∀ t c r s f, StandsFor key V (api.takes c) r → I s (r + f) →
      Safe I (api.prog t c)
        (fun a r' => StandsFor key V (api.gives c a) r') r)
    (hs : Step api w w') :
    ∃ L' held', Owned api I key V w' L' held' := by
  have hinv := h.inv
  cases hs with
  | call t c idle le =>
      obtain ⟨r, L', rfl, hr, hL⟩ := h.live.split le
      rw [sum_split held t, h.idle t idle, zero_add, add_assoc] at hinv
      refine ⟨L', Function.update held t r, h.update t hL ?_ ⟨nofun, ?_⟩⟩
      · rw [add_left_comm]
        exact hinv
      · rintro _ _ ⟨rfl, rfl⟩
        exact hcall t c r w.state _ hr hinv
  | @run t i c u n busy =>
      rw [sum_split held t, add_left_comm] at hinv
      obtain ⟨r', hI', hn⟩ := h.safe t c _ busy i w.state _ hinv
      refine ⟨L, Function.update held t r',
        h.update t h.live ?_ ⟨nofun, ?_⟩⟩
      · rw [add_left_comm]
        exact hI'
      · rintro _ _ ⟨rfl, rfl⟩
        exact hn
  | @finish t c a done =>
      refine ⟨L + held t, Function.update held t 0, h.update t
        (h.live.add (h.safe t c _ done)) ?_ ⟨fun _ => rfl, nofun⟩⟩
      rw [sum_split held t] at hinv
      rw [zero_add, add_assoc]
      exact hinv

omit [DecidableEq T] [DecidableEq K] in
/-- Something that nobody needs is set aside. -/
theorem aside (h : Owned api I key V w L held) {x : Multiset τ}
    (hx : I w.state (L + ∑ t, held t + x)) :
    Owned api (fun s r => I s (r + x)) key V w L held :=
  ⟨h.live, h.idle, hx, fun t c p busy => (h.safe t c p busy).aside x⟩

/-- Every reachable world has an owner for everything, when the first
one has and every call is safe on the entries it takes. -/
theorem reach {w₀ : World T σ ι C α K}
    (h₀ : ∃ L held, Owned api I key V w₀ L held)
    (hcall : ∀ t c r s f, StandsFor key V (api.takes c) r → I s (r + f) →
      Safe I (api.prog t c)
        (fun a r' => StandsFor key V (api.gives c a) r') r)
    (hr : Reach api w₀ w) : ∃ L held, Owned api I key V w L held := by
  induction hr with
  | init => exact h₀
  | step _ hs ih =>
      obtain ⟨L, held, h⟩ := ih
      exact h.step hcall hs

end Owned

end Ownership

end Conc
