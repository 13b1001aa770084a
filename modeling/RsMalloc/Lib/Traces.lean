/-
Traces of calls and returns, and simulation between two objects.

# Objects

An object gives each call of each thread a program over its state. A
`Pool` is the state and what each thread has left to run. `Traces` are
the calls and returns that a run of the pool shows to its clients,
newest first, whatever order the threads' steps come in.

# Simulation

One object implements another when every trace of the first is a trace
of the second. `Simulation` is the proof rule: a relation between the
two pools that calls and returns keep in step, where a step inside a
call of the first is answered by at most one step of the same call of
the second. When the calls of the second are one step each, this is
linearizability, and the answering step is the linearization point.
What is assumed of the clients is a condition on traces (`P`).

# Sections

`Prog.atomically p` runs `p` from its start to its end in one step.
`Partly` describes a run of `p` that is not over; its end is an end of
`p` run in one step (`Partly.exec`). For calls of one step each,
`abstract_simulation` replaces the state by what it stands for.
-/
import RsMalloc.Lib.Prog

namespace Conc

variable {T σ σ' ι ι' C α : Type}

-- ============================================================== sections

namespace Prog

/-- The program in one step; it stays where it is when a run would not
end. -/
def atomically (p : Prog σ ι α) : Prog σ (Nat → ι) α :=
  .step (fun env s => ((p.exec env s).map Prod.snd).getD s) fun env s =>
    match p.exec env s with
    | some (a, _) => .ret a
    | none => .halt

/-- The one step does what a run does. -/
theorem atomically_step {p : Prog σ ι α} {env : Nat → ι} {s s' : σ} {a : α}
    (h : p.exec env s = some (a, s')) :
    ∃ u n, p.atomically = .step u n ∧ u env s = s' ∧ n env s = .ret a := by
  refine ⟨_, _, rfl, ?_, ?_⟩
  · rw [h]
    rfl
  · rw [h]

end Prog

/-- After some steps of `p₀` from `s₀`, `p` is left in the state `s`. -/
inductive Partly (p₀ : Prog σ ι α) (s₀ : σ) : Prog σ ι α → σ → Prop
  | start : Partly p₀ s₀ p₀ s₀
  | step {u : ι → σ → σ} {n : ι → σ → Prog σ ι α} {s : σ} (i : ι)
      (h : Partly p₀ s₀ (.step u n) s) : Partly p₀ s₀ (n i s) (u i s)

/-- The rest of a run ends as a run from the start does. -/
theorem Partly.exec {p₀ p : Prog σ ι α} {s₀ s : σ} (h : Partly p₀ s₀ p s)
    (env : Nat → ι) : ∃ env', p₀.exec env' s₀ = p.exec env s := by
  induction h generalizing env with
  | start => exact ⟨env, rfl⟩
  | step i _ ih => exact ih fun j => j.casesOn i env

-- =============================================================== objects

/-- What a client sees of a call. -/
inductive Event (T C α : Type) where
  | call (t : T) (c : C)
  | ret (t : T) (c : C) (a : α)

/-- The state of an object, and what each thread has left of its call
(`none`: the thread is between calls). -/
structure Pool (T σ ι C α : Type) where
  state : σ
  thread : T → Option (C × Prog σ ι α)

/-- No thread is in a call. -/
def Pool.idle (s : σ) : Pool T σ ι C α := ⟨s, fun _ => none⟩

section Threads

variable [DecidableEq T] {prog : T → C → Prog σ ι α} {tr : List (Event T C α)}

namespace Pool

/-- Thread `t` goes on with `e`. -/
def set (w : Pool T σ ι C α) (t : T) (e : Option (C × Prog σ ι α)) :
    Pool T σ ι C α :=
  { w with thread := Function.update w.thread t e }

/-- Thread `t` takes a step of its call. -/
def run (w : Pool T σ ι C α) (t : T) (c : C) (u : ι → σ → σ)
    (n : ι → σ → Prog σ ι α) (i : ι) : Pool T σ ι C α :=
  ⟨u i w.state, Function.update w.thread t (some (c, n i w.state))⟩

section

variable {w : Pool T σ ι C α} {t v : T} {c : C} {u : ι → σ → σ}
  {n : ι → σ → Prog σ ι α} {i : ι} {e : Option (C × Prog σ ι α)}

@[simp] theorem set_self : (w.set t e).thread t = e :=
  Function.update_self ..

theorem set_of_ne (h : v ≠ t) : (w.set t e).thread v = w.thread v :=
  Function.update_of_ne h ..

@[simp] theorem run_state : (w.run t c u n i).state = u i w.state := rfl

@[simp] theorem run_self :
    (w.run t c u n i).thread t = some (c, n i w.state) :=
  Function.update_self ..

theorem run_of_ne (h : v ≠ t) :
    (w.run t c u n i).thread v = w.thread v :=
  Function.update_of_ne h ..

end

end Pool

/-- The traces of an object, newest event first, and where they lead. -/
inductive Traces (prog : T → C → Prog σ ι α) (s₀ : σ) :
    List (Event T C α) → Pool T σ ι C α → Prop
  | init : Traces prog s₀ [] (.idle s₀)
  | call {tr : List (Event T C α)} {w : Pool T σ ι C α} (t : T) (c : C)
      (h : Traces prog s₀ tr w) (idle : w.thread t = none) :
      Traces prog s₀ (.call t c :: tr) (w.set t (some (c, prog t c)))
  | run {tr : List (Event T C α)} {w : Pool T σ ι C α} {c : C}
      {u : ι → σ → σ} {n : ι → σ → Prog σ ι α} (t : T) (i : ι)
      (h : Traces prog s₀ tr w) (busy : w.thread t = some (c, .step u n)) :
      Traces prog s₀ tr (w.run t c u n i)
  | ret {tr : List (Event T C α)} {w : Pool T σ ι C α} {c : C} {a : α}
      (t : T) (h : Traces prog s₀ tr w)
      (done : w.thread t = some (c, .ret a)) :
      Traces prog s₀ (.ret t c a :: tr) (w.set t none)

/-- Thread `t` runs alone to the end of its call. -/
theorem Traces.runs {s₀ s s' : σ} {f : T → Option (C × Prog σ ι α)} {t : T}
    {c : C} {p : Prog σ ι α} {a : α} {env : Nat → ι}
    (h : Traces prog s₀ tr ⟨s, Function.update f t (some (c, p))⟩)
    (hrun : p.exec env s = some (a, s')) :
    Traces prog s₀ (.ret t c a :: tr) ⟨s', Function.update f t none⟩ := by
  induction p generalizing s env with
  | ret b =>
      cases hrun
      have hend := h.ret t (Function.update_self ..)
      simp only [Pool.set, Function.update_idem] at hend
      exact hend
  | step u n ih =>
      have hs := h.run t (env 0) (Function.update_self ..)
      simp only [Pool.run, Function.update_idem] at hs
      exact ih (env 0) s hs hrun
  | halt => cases hrun

/-- A call that runs alone from its start to its end. -/
theorem Traces.exec {s₀ s' : σ} {w : Pool T σ ι C α} {a : α} (t : T) (c : C)
    (env : Nat → ι) (h : Traces prog s₀ tr w) (idle : w.thread t = none)
    (hrun : (prog t c).exec env w.state = some (a, s')) :
    Traces prog s₀ (.ret t c a :: .call t c :: tr) ⟨s', w.thread⟩ := by
  have hend := (h.call t c idle).runs hrun
  rw [← idle, Function.update_eq_self] at hend
  exact hend

-- ============================================================ simulation

/-- `R` relates the pools of two objects along the traces in `P`. -/
structure Simulation (prog : T → C → Prog σ ι α)
    (prog' : T → C → Prog σ' ι' α) (s₀ : σ) (s₀' : σ')
    (P : List (Event T C α) → Prop)
    (R : List (Event T C α) → Pool T σ ι C α → Pool T σ' ι' C α → Prop) :
    Prop where
  past : ∀ {e tr}, P (e :: tr) → P tr
  init : R [] (.idle s₀) (.idle s₀')
  call : ∀ {tr w w' t} (c : C), P (.call t c :: tr) → R tr w w' →
    w.thread t = none → w'.thread t = none ∧ R (.call t c :: tr)
      (w.set t (some (c, prog t c))) (w'.set t (some (c, prog' t c)))
  run : ∀ {tr w w' t c u n} (i : ι), P tr → R tr w w' →
    w.thread t = some (c, .step u n) →
    R tr (w.run t c u n i) w' ∨ ∃ u' n' i',
      w'.thread t = some (c, .step u' n')
      ∧ R tr (w.run t c u n i) (w'.run t c u' n' i')
  ret : ∀ {tr w w' t c a}, P (.ret t c a :: tr) → R tr w w' →
    w.thread t = some (c, .ret a) → w'.thread t = some (c, .ret a)
    ∧ R (.ret t c a :: tr) (w.set t none) (w'.set t none)

/-- Every such trace of the first object is a trace of the second. -/
theorem Simulation.traces {prog' : T → C → Prog σ' ι' α} {s₀ : σ} {s₀' : σ'}
    {P : List (Event T C α) → Prop}
    {R : List (Event T C α) → Pool T σ ι C α → Pool T σ' ι' C α → Prop}
    (hR : Simulation prog prog' s₀ s₀' P R) {w : Pool T σ ι C α}
    (h : Traces prog s₀ tr w) (hP : P tr) :
    ∃ w', Traces prog' s₀' tr w' ∧ R tr w w' := by
  induction h with
  | init => exact ⟨_, .init, hR.init⟩
  | call t c _ idle ih =>
      obtain ⟨w', h', hr⟩ := ih (hR.past hP)
      obtain ⟨idle', hr'⟩ := hR.call c hP hr idle
      exact ⟨_, h'.call t c idle', hr'⟩
  | run t i _ busy ih =>
      obtain ⟨w', h', hr⟩ := ih hP
      rcases hR.run i hP hr busy with hr' | ⟨u', n', i', busy', hr'⟩
      · exact ⟨w', h', hr'⟩
      · exact ⟨_, h'.run t i' busy', hr'⟩
  | ret t _ done ih =>
      obtain ⟨w', h', hr⟩ := ih (hR.past hP)
      obtain ⟨done', hr'⟩ := hR.ret hP hr done
      exact ⟨_, h'.ret t done', hr'⟩

-- =========================================================== abstraction

/-- A call of one step that is still to come counts. -/
def pending : Option (C × Prog σ ι α) → Nat
  | some (_, .step _ _) => 1
  | _ => 0

/-- Only the thread that moves counts differently. -/
theorem sum_pending_set [Fintype T] (w : Pool T σ ι C α) (t : T)
    (e : Option (C × Prog σ ι α)) :
    ∑ v, pending ((w.set t e).thread v) + pending (w.thread t)
      = ∑ v, pending (w.thread v) + pending e := by
  have hupd : (fun v => pending ((w.set t e).thread v))
      = Function.update (fun v => pending (w.thread v)) t (pending e) :=
    Function.comp_update pending w.thread t e
  rw [hupd, sum_update, sum_split (fun v => pending (w.thread v)) t]
  omega

/-- A thread of two pools whose calls are one step each. -/
inductive Alike (body : C → Prog σ ι α) (op : C → σ' → α × σ') :
    Option (C × Prog σ (Nat → ι) α) → Option (C × Prog σ' Unit α) → Prop
  | idle : Alike body op none none
  | before (c : C) : Alike body op (some (c, (body c).atomically))
      (some (c, Prog.atomic fun _ => op c))
  | done (c : C) (a : α) :
      Alike body op (some (c, .ret a)) (some (c, .ret a))

section Alike

variable {body : C → Prog σ ι α} {op : C → σ' → α × σ'}
  {e : Option (C × Prog σ (Nat → ι) α)}
  {e' : Option (C × Prog σ' Unit α)} {c : C}

theorem Alike.of_none (h : Alike body op e e') (he : e = none) :
    e' = none := by
  cases h with
  | idle => rfl
  | before c => cases he
  | done c a => cases he

theorem Alike.of_step (h : Alike body op e e')
    {u : (Nat → ι) → σ → σ}
    {n : (Nat → ι) → σ → Prog σ (Nat → ι) α}
    (he : e = some (c, .step u n)) :
    e' = some (c, Prog.atomic fun _ => op c)
      ∧ (body c).atomically = .step u n := by
  cases h with
  | idle => cases he
  | before c =>
      obtain ⟨rfl, hat⟩ := Prod.mk.inj (Option.some.inj he)
      exact ⟨rfl, hat⟩
  | done c a => cases he

theorem Alike.of_ret (h : Alike body op e e') {a : α}
    (he : e = some (c, .ret a)) : e' = some (c, .ret a) := by
  cases h with
  | idle => cases he
  | before c => cases he
  | done c a =>
      cases he
      rfl

end Alike

/-- After `k` sections the state `s` stands for `m`, and every section
run from there gives the abstract answer; then the calls are those of
the abstract object. `n` bounds the length of the traces. -/
theorem abstract_simulation [Fintype T] {body : C → Prog σ ι α}
    {op : C → σ' → α × σ'} {A : Nat → σ → σ' → Prop} {n : Nat} {s₀ : σ}
    {m₀ : σ'} (h₀ : A 0 s₀ m₀)
    (hop : ∀ k < n, ∀ c s m env, A k s m → ∃ s',
      (body c).exec env s = some ((op c m).1, s')
      ∧ A (k + 1) s' (op c m).2) :
    Simulation (T := T) (fun _ c => (body c).atomically)
      (fun _ c => Prog.atomic fun _ => op c) s₀ m₀
      (fun tr => tr.length ≤ n) fun tr w w' => ∃ k,
        A k w.state w'.state ∧ k + ∑ t, pending (w.thread t) ≤ tr.length
        ∧ ∀ t, Alike body op (w.thread t) (w'.thread t) where
  past h := (Nat.le_succ _).trans h
  init := ⟨0, h₀, by simp [Pool.idle, pending], fun _ => .idle⟩
  call := by
    rintro tr w w' t c - ⟨k, hA, hk, hsame⟩ idle
    have ht := hsame t
    rw [idle] at ht
    have hsum := sum_pending_set w t (some (c, (body c).atomically))
    have hone : pending (some (c, (body c).atomically)) = 1 := rfl
    refine ⟨ht.of_none rfl, k, hA, ?_, fun v => ?_⟩
    · rw [List.length_cons]
      omega
    · by_cases hv : v = t
      · subst hv
        rw [Pool.set_self, Pool.set_self]
        exact .before c
      · rw [Pool.set_of_ne hv, Pool.set_of_ne hv]
        exact hsame v
  run := by
    rintro tr w w' t c u n' env hP ⟨k, hA, hk, hsame⟩ busy
    have hsum := sum_pending_set w t (some (c, n' env w.state))
    obtain ⟨hbefore, hat⟩ := (hsame t).of_step busy
    have hle : pending (w.thread t) ≤ ∑ v, pending (w.thread v) := by
      rw [sum_split _ t]
      exact Nat.le_add_right ..
    have hone : pending (w.thread t) = 1 := by
      rw [busy]
      rfl
    obtain ⟨s', hrun, hA'⟩ := hop k (by omega) c w.state w'.state env hA
    obtain ⟨u₀, n₀, hat', hu, hn⟩ := Prog.atomically_step hrun
    obtain ⟨rfl, rfl⟩ := Prog.step.inj (hat.symm.trans hat')
    right
    refine ⟨_, _, (), hbefore, k + 1, ?_, ?_, fun v => ?_⟩
    · rw [Pool.run_state, hu]
      exact hA'
    · have hzero : pending (some (c, n' env w.state)) = 0 := by
        rw [hn]
        rfl
      have hthread : (w.run t c u n' env).thread
          = (w.set t (some (c, n' env w.state))).thread := rfl
      rw [hthread]
      omega
    · by_cases hv : v = t
      · subst hv
        rw [Pool.run_self, Pool.run_self, hn]
        exact .done c _
      · rw [Pool.run_of_ne hv, Pool.run_of_ne hv]
        exact hsame v
  ret := by
    rintro tr w w' t c a - ⟨k, hA, hk, hsame⟩ done
    have hsum := sum_pending_set w t none
    have hzero : pending (none : Option (C × Prog σ (Nat → ι) α)) = 0 := rfl
    refine ⟨(hsame t).of_ret done, k, hA, ?_, fun v => ?_⟩
    · rw [List.length_cons]
      omega
    · by_cases hv : v = t
      · subst hv
        rw [Pool.set_self, Pool.set_self]
        exact .idle
      · rw [Pool.set_of_ne hv, Pool.set_of_ne hv]
        exact hsame v

end Threads

end Conc
