/-
`OnceLock`: one initialiser runs, and everybody sees its value.

A run goes through three states (`Shows`). Nobody has won the
compare-exchange; or one thread has and is part of the way through its
closure, the only one that touches the data; or the closure is over,
and the value stays what it wrote. A thread that is not the winner
reads the state byte until it is 2 and only then the value (`Phase`).
-/
import RsMalloc.Sync.Model

namespace RsMalloc.Sync

open Conc Once OnceLock

variable {T C σ ι V : Type}
  {u : ι → OnceState (σ × Option V) → OnceState (σ × Option V)}
  {n : ι → OnceState (σ × Option V) →
    Prog (OnceState (σ × Option V)) ι (Option V)}

-- ======================================================= the initialiser

/-- The closure runs the initialiser and stores its value. -/
theorem init_exec {f : Prog σ ι V} {env : Nat → ι} {s : σ} {o : Option V}
    {d : σ × Option V} (h : (init f).exec env (s, o) = some ((), d)) :
    ∃ v s', f.exec env s = some (v, s') ∧ d = (s', some v) := by
  induction f generalizing env s with
  | ret v =>
      cases h
      exact ⟨v, s, rfl, rfl⟩
  | step u n ih => exact ih (env 0) s h
  | halt => cases h

/-- The end of `get_or_init`. -/
def readValue : Unit → Prog (OnceState (σ × Option V)) ι (Option V) :=
  fun _ => Prog.read fun s => s.data.2

/-- What is left once the compare-exchange is won, `p` of the closure
among it. -/
def initialising (fuel : Nat) (p : Prog (σ × Option V) ι Unit) :
    Prog (OnceState (σ × Option V)) ι (Option V) :=
  ((((closure p).bind fun _ =>
    Prog.modify fun s => { s with state := 2 }).bind fun _ =>
    wait fuel)).bind readValue

variable {p : Prog (σ × Option V) ι Unit}

/-- The winner takes a step of the closure, or is done with it. -/
theorem initialising_step {fuel : Nat} {c c' : C}
    (h : some (c, initialising fuel p) = some (c', .step u n)) :
    c = c' ∧
      ((p = .ret () ∧ ∀ i s, u i s = { s with state := 2 }
          ∧ n i s = (wait fuel).bind readValue)
        ∨ ∃ v m, p = .step v m ∧ ∀ i s,
          u i s = { s with data := v i s.data }
          ∧ n i s = initialising fuel (m i s.data)) := by
  cases p with
  | ret a =>
      cases h
      exact ⟨rfl, Or.inl ⟨rfl, fun _ _ => ⟨rfl, rfl⟩⟩⟩
  | step v m =>
      cases h
      exact ⟨rfl, Or.inr ⟨v, m, rfl, fun _ _ => ⟨rfl, rfl⟩⟩⟩
  | halt => cases h

theorem initialising_ne_ret {fuel : Nat} {c c' : C} {a : Option V} :
    some (c, initialising fuel p) ≠ some (c', .ret a) := by
  intro h
  cases p with
  | ret b => cases h
  | step v m => cases h
  | halt => cases h

-- ========================================================== the others

/-- Thread `t` has not won; `state` is the state byte, `value` what is
stored once that is 2. -/
inductive Phase (fuel : Nat) (f : C → Prog σ ι V)
    (tr : List (Event T C (Option V))) (state : Nat) (value : Option V)
    (t : T) :
    Option (C × Prog (OnceState (σ × Option V)) ι (Option V)) → Prop
  | idle : Phase fuel f tr state value t none
  | entered (c : C) (mem : .call t c ∈ tr) :
      Phase fuel f tr state value t (some (c, getOrInit fuel (f c)))
  | racing (c : C) (mem : .call t c ∈ tr) :
      Phase fuel f tr state value t
        (some (c, (start fuel (init (f c))).bind readValue))
  | waiting (c : C) (n : Nat) :
      Phase fuel f tr state value t (some (c, (wait n).bind readValue))
  | reading (c : C) (ready : state = 2) :
      Phase fuel f tr state value t (some (c, readValue ()))
  | done (c : C) (ready : state = 2) :
      Phase fuel f tr state value t (some (c, .ret value))

section Phase

variable {fuel state : Nat} {f : C → Prog σ ι V}
  {tr tr' : List (Event T C (Option V))} {value : Option V} {t : T} {c : C}
  {e : Option (C × Prog (OnceState (σ × Option V)) ι (Option V))}

/-- A longer trace, and a state byte that reached 2. -/
theorem Phase.mono {state' : Nat} {value' : Option V}
    (h : Phase fuel f tr state value t e) (htr : ∀ x ∈ tr, x ∈ tr')
    (hstate : state = 2 → state' = 2 ∧ value' = value) :
    Phase fuel f tr' state' value' t e := by
  cases h with
  | idle => exact .idle
  | entered c mem => exact .entered c (htr _ mem)
  | racing c mem => exact .racing c (htr _ mem)
  | waiting c n => exact .waiting c n
  | reading c ready => exact .reading c (hstate ready).1
  | done c ready =>
      rw [← (hstate ready).2]
      exact .done c (hstate ready).1

theorem Phase.of_ret (h : Phase fuel f tr state value t e) {a : Option V}
    (he : e = some (c, .ret a)) : state = 2 ∧ a = value := by
  cases h with
  | idle => cases he
  | entered c mem => cases he
  | racing c mem => cases he
  | waiting c n =>
      cases n with
      | zero => cases he
      | succ n => cases he
  | reading c ready => cases he
  | done c ready =>
      cases he
      exact ⟨ready, rfl⟩

/-- A step of such a thread changes nothing, unless it wins. -/
theorem Phase.of_step (h : Phase fuel f tr state value t e)
    (he : e = some (c, .step u n)) (i : ι)
    {s : OnceState (σ × Option V)} (hs : s.state = state)
    (hvalue : state = 2 → s.data.2 = value) :
    (u i s = s ∧ Phase fuel f tr state value t (some (c, n i s)))
      ∨ (state = 0 ∧ u i s = { s with state := 1 }
        ∧ n i s = initialising fuel (init (f c)) ∧ .call t c ∈ tr) := by
  cases h with
  | idle => cases he
  | entered c mem =>
      cases he
      refine Or.inl ⟨rfl, ?_⟩
      show Phase _ _ _ _ _ _ (some (c, Prog.bind (if s.state = 2 then _
        else _) _))
      split
      · next h2 => exact .reading c (hs.symm.trans h2)
      · exact .racing c mem
  | racing c mem =>
      cases he
      by_cases h0 : s.state = 0
      · have hwon : compareExchange s = (true, { s with state := 1 }) :=
          if_pos h0
        refine Or.inr ⟨hs.symm.trans h0, ?_, ?_, mem⟩
        · show (compareExchange s).2 = _
          rw [hwon]
        · show Prog.bind (Prog.bind (Prog.when
            ((compareExchange s).1 = true) _) _) _ = _
          rw [hwon]
          rfl
      · have hlost : compareExchange s = (false, s) := if_neg h0
        refine Or.inl ⟨?_, ?_⟩
        · show (compareExchange s).2 = s
          rw [hlost]
        · show Phase _ _ _ _ _ _ (some (c, Prog.bind (Prog.bind
            (Prog.when ((compareExchange s).1 = true) _) _) _))
          rw [hlost]
          exact .waiting c fuel
  | waiting c k =>
      cases k with
      | zero => cases he
      | succ k =>
          cases he
          refine Or.inl ⟨rfl, ?_⟩
          show Phase _ _ _ _ _ _ (some (c, Prog.bind (if s.state ≠ 2 then _
            else _) _))
          split
          · exact .waiting c k
          · next h2 => exact .reading c (hs.symm.trans (not_not.1 h2))
  | reading c ready =>
      cases he
      refine Or.inl ⟨rfl, ?_⟩
      show Phase _ _ _ _ _ _ (some (c, .ret s.data.2))
      rw [hvalue ready]
      exact .done c ready
  | done c ready => cases he

end Phase

-- =========================================================== whole runs

/-- Where a run of `get_or_init`s stands, and what it has shown. -/
inductive Shows (fuel : Nat) (f : C → Prog σ ι V) (s₀ : σ)
    (tr : List (Event T C (Option V)))
    (w : Pool T (OnceState (σ × Option V)) ι C (Option V)) : Prop
  | fresh (state : w.state = ⟨0, s₀, none⟩)
      (phase : ∀ t, Phase fuel f tr 0 none t (w.thread t))
      (silent : ∀ t c a, .ret t c a ∉ tr)
  | running (t : T) (c : C) (p : Prog (σ × Option V) ι Unit)
      (d : σ × Option V) (mem : .call t c ∈ tr) (state : w.state = ⟨1, d⟩)
      (winner : w.thread t = some (c, initialising fuel p))
      (part : Partly (init (f c)) (s₀, none) p d)
      (phase : ∀ u ≠ t, Phase fuel f tr 1 none u (w.thread u))
      (silent : ∀ t c a, .ret t c a ∉ tr)
  | ready (t : T) (c : C) (env : Nat → ι) (v : V) (s : σ)
      (mem : .call t c ∈ tr) (init : (f c).exec env s₀ = some (v, s))
      (state : w.state = ⟨2, s, some v⟩)
      (phase : ∀ t, Phase fuel f tr 2 (some v) t (w.thread t))
      (agree : ∀ t c a, .ret t c a ∈ tr → a = some v)

section Runs

variable [DecidableEq T] {fuel : Nat} {f : C → Prog σ ι V} {s₀ : σ}
  {tr : List (Event T C (Option V))}
  {w : Pool T (OnceState (σ × Option V)) ι C (Option V)} {t : T} {c : C}

/-- A call or a return of a thread that is not the winner. -/
theorem Shows.set (h : Shows fuel f s₀ tr w) {e : Event T C (Option V)}
    {x : Option (C × Prog (OnceState (σ × Option V)) ι (Option V))}
    (ht : ∀ c p, w.thread t ≠ some (c, initialising fuel p))
    (hx : ∀ state value, Phase fuel f (e :: tr) state value t x)
    (he : ∀ state value, Phase fuel f tr state value t (w.thread t) →
      ∀ t' c' a, e = .ret t' c' a → state = 2 ∧ a = value) :
    Shows fuel f s₀ (e :: tr) (w.set t x) := by
  have hmem : ∀ y ∈ tr, y ∈ e :: tr := fun y hy => List.mem_cons_of_mem _ hy
  have hphase : ∀ {state : Nat} {value : Option V} (v : T),
      Phase fuel f tr state value v (w.thread v) →
      Phase fuel f (e :: tr) state value v ((w.set t x).thread v) := by
    intro state value v hv
    by_cases hvt : v = t
    · subst hvt
      rw [Pool.set_self]
      exact hx state value
    · rw [Pool.set_of_ne hvt]
      exact hv.mono hmem fun h => ⟨h, rfl⟩
  cases h with
  | fresh state phase silent =>
      refine .fresh state (fun v => hphase v (phase v)) fun t' c' a hin => ?_
      rcases List.mem_cons.1 hin with hin | hin
      · cases (he 0 none (phase t) t' c' a hin.symm).1
      · exact silent t' c' a hin
  | running t₀ c₀ p d mem state winner part phase silent =>
      have hne : t₀ ≠ t := by
        rintro rfl
        exact ht c₀ p winner
      refine .running t₀ c₀ p d (hmem _ mem) state ?_ part
        (fun v hv => hphase v (phase v hv)) fun t' c' a hin => ?_
      · rw [Pool.set_of_ne hne]
        exact winner
      · rcases List.mem_cons.1 hin with hin | hin
        · cases (he 1 none (phase t hne.symm) t' c' a hin.symm).1
        · exact silent t' c' a hin
  | ready t₀ c₀ env v s mem init state phase agree =>
      refine .ready t₀ c₀ env v s (hmem _ mem) init state
        (fun u => hphase u (phase u)) fun t' c' a hin => ?_
      rcases List.mem_cons.1 hin with hin | hin
      · exact (he 2 (some v) (phase t) t' c' a hin.symm).2
      · exact agree t' c' a hin

/-- A step inside a call. -/
theorem Shows.run (h : Shows fuel f s₀ tr w) (i : ι)
    (busy : w.thread t = some (c, .step u n)) :
    Shows fuel f s₀ tr (w.run t c u n i) := by
  have hphase : ∀ {state : Nat} {value : Option V} (v : T),
      Phase fuel f tr state value v (w.thread v) →
      Phase fuel f tr state value t (some (c, n i w.state)) →
      Phase fuel f tr state value v ((w.run t c u n i).thread v) := by
    intro state value v hv ht
    by_cases hvt : v = t
    · subst hvt
      rw [Pool.run_self]
      exact ht
    · rw [Pool.run_of_ne hvt]
      exact hv
  cases h with
  | fresh state phase silent =>
      rcases (phase t).of_step busy i (s := w.state) (by rw [state])
          nofun with ⟨hu, ht⟩ | ⟨-, hu, hn, mem⟩
      · refine .fresh ?_ (fun v => hphase v (phase v) ht) silent
        rw [Pool.run_state, hu]
        exact state
      · refine .running t c (init (f c)) (s₀, none) mem ?_ ?_ .start
          (fun v hv => ?_) silent
        · rw [Pool.run_state, hu, state]
        · rw [Pool.run_self, hn]
        · rw [Pool.run_of_ne hv]
          exact (phase v).mono (fun _ hy => hy) nofun
  | running t₀ c₀ p d mem state winner part phase silent =>
      by_cases ht : t = t₀
      · subst ht
        obtain ⟨rfl, hcases⟩ := initialising_step (winner.symm.trans busy)
        rcases hcases with ⟨rfl, hstep⟩ | ⟨v, m, rfl, hstep⟩
        · -- the closure is over
          obtain ⟨hu, hn⟩ := hstep i w.state
          obtain ⟨env, henv⟩ := part.exec fun _ => i
          obtain ⟨v, s, hrun, rfl⟩ := init_exec henv
          refine .ready t c₀ env v s mem hrun ?_ (fun z => ?_)
            fun t' c' a hin => absurd hin (silent t' c' a)
          · rw [Pool.run_state, hu, state]
          · by_cases hz : z = t
            · subst hz
              rw [Pool.run_self, hn]
              exact .waiting c₀ fuel
            · rw [Pool.run_of_ne hz]
              exact (phase z hz).mono (fun _ hy => hy) nofun
        · obtain ⟨hu, hn⟩ := hstep i w.state
          refine .running t c₀ (m i d) (v i d) mem ?_ ?_ (part.step i)
            (fun z hz => ?_) silent
          · rw [Pool.run_state, hu, state]
          · rw [Pool.run_self, hn, state]
          · rw [Pool.run_of_ne hz]
            exact phase z hz
      · rcases (phase t ht).of_step busy i (s := w.state) (by rw [state])
            nofun with ⟨hu, hp⟩ | ⟨hzero, -⟩
        · refine .running t₀ c₀ p d mem ?_ ?_ part
            (fun v hv => hphase v (phase v hv) hp) silent
          · rw [Pool.run_state, hu]
            exact state
          · rw [Pool.run_of_ne (Ne.symm ht)]
            exact winner
        · cases hzero
  | ready t₀ c₀ env v s mem init state phase agree =>
      rcases (phase t).of_step busy i (s := w.state) (by rw [state])
          (fun _ => by rw [state]) with ⟨hu, ht⟩ | ⟨hzero, -⟩
      · refine .ready t₀ c₀ env v s mem init ?_
          (fun z => hphase z (phase z) ht) agree
        rw [Pool.run_state, hu]
        exact state
      · cases hzero

/-- Every run. -/
theorem shows_of_traces
    (h : Traces (fun _ c => getOrInit fuel (f c)) ⟨0, s₀, none⟩ tr w) :
    Shows fuel f s₀ tr w := by
  induction h with
  | init => exact .fresh rfl (fun _ => .idle) fun _ _ _ => List.not_mem_nil
  | call t c _ idle ih =>
      refine ih.set (fun c p hp => ?_)
        (fun _ _ => .entered c (List.mem_cons_self ..))
        fun _ _ _ t' c' a he => ?_
      · rw [idle] at hp
        cases hp
      · cases he
  | run t i _ busy ih => exact ih.run i busy
  | ret t _ done ih =>
      refine ih.set (fun c p hp => ?_) (fun _ _ => .idle)
        fun _ _ hphase t' c' a he => ?_
      · exact initialising_ne_ret (hp.symm.trans done)
      · cases he
        exact hphase.of_ret done

end Runs

/-- However the steps of the threads are interleaved, nobody returns
from `get_or_init` before an initialiser is over; then the state is what
one run of the initialiser of one of the calls leaves, and every return
shows the value of that run. -/
theorem getOrInit_once [DecidableEq T] (fuel : Nat) (f : C → Prog σ ι V)
    (s₀ : σ) {tr : List (Event T C (Option V))}
    {w : Pool T (OnceState (σ × Option V)) ι C (Option V)}
    (h : Traces (fun _ c => getOrInit fuel (f c)) ⟨0, s₀, none⟩ tr w) :
    (w.state.state ≠ 2 ∧ ∀ t c a, .ret t c a ∉ tr)
    ∨ ∃ t c env v s, .call t c ∈ tr ∧ (f c).exec env s₀ = some (v, s)
      ∧ w.state = ⟨2, s, some v⟩
      ∧ ∀ t c a, .ret t c a ∈ tr → a = some v := by
  cases shows_of_traces h with
  | fresh state phase silent =>
      refine Or.inl ⟨?_, silent⟩
      rw [state]
      exact Nat.zero_ne_add_one 1
  | running t c p d mem state winner part phase silent =>
      refine Or.inl ⟨?_, silent⟩
      rw [state]
      exact Nat.succ_ne_self 1 ∘ Eq.symm
  | ready t c env v s mem init state phase agree =>
      exact Or.inr ⟨t, c, env, v, s, mem, init, state, agree⟩

/-- Two threads ask for the class of 4096 bytes at once: the second one
waits. -/
theorem getOrInit_once_class :
    ∃ (w : Pool (Fin 2) (OnceState (Unit × Option Nat)) Unit Unit
        (Option Nat)) (tr : List (Event (Fin 2) Unit (Option Nat))),
      .ret 0 () (some size4096Class) ∈ tr
      ∧ .ret 1 () (some size4096Class) ∈ tr
      ∧ ((w.state.state ≠ 2 ∧ ∀ t c a, .ret t c a ∉ tr)
        ∨ ∃ t c env v s, .call t c ∈ tr
          ∧ class4096Init.exec env () = some (v, s)
          ∧ w.state = ⟨2, s, some v⟩
          ∧ ∀ t c a, .ret t c a ∈ tr → a = some v) := by
  have h₀ : Traces (T := Fin 2) (fun _ (_ : Unit) => getSize4096Class 2)
      ⟨0, (), none⟩ [] _ := .init
  have h₁ := (h₀.call 0 () rfl).call 1 () rfl
  -- both find the state byte 0, thread 0 wins
  have h₂ := (h₁.run 0 () rfl).run 1 () rfl
  have h₃ := (h₂.run 0 () rfl).run 1 () rfl
  -- thread 1 looks at the state byte before the value is stored
  have h₄ := ((h₃.run 1 () rfl).run 0 () rfl).run 0 () rfl
  have h₅ := ((h₄.run 1 () rfl).run 1 () rfl).ret 1 rfl
  have h₆ := ((h₅.run 0 () rfl).run 0 () rfl).ret 0 rfl
  exact ⟨_, _, List.mem_cons_self .., List.mem_cons_of_mem _
    (List.mem_cons_self ..), getOrInit_once 2 (fun _ => class4096Init) () h₆⟩

end RsMalloc.Sync
