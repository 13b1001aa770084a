/-
A function that holds a spin lock throughout runs as if in one step.

The relation between the pool with the lock and the pool whose calls
are one step each is `Matches`. While the lock is free the data are the
same, and every thread is between calls, waiting for the lock, or done
(`Outside`). While a thread holds the lock the other pool has not moved
since it took it: what the holder has left is a part of its section,
run from the data of the other pool (`Partly`). When it drops the guard
the other pool runs the whole section.
-/
import RsMalloc.Sync.Model

namespace RsMalloc.Sync

open Conc SpinLock

variable {T C σ ι α : Type}

/-- What is left once the lock is taken. -/
def holding (p : Prog σ ι α) : Prog (Guarded σ) ι α :=
  (inside p).bind fun a => dropGuard.bind fun _ => .ret a

/-- A thread that does not hold the lock, in both pools. -/
inductive Outside (body : C → Prog σ ι α) :
    Option (C × Prog (Guarded σ) ι α) →
    Option (C × Prog σ (Nat → ι) α) → Prop
  | idle : Outside body none none
  | waiting (c : C) (n : Nat) : Outside body
      (some (c, (lock n).bind fun _ => holding (body c)))
      (some (c, (body c).atomically))
  | done (c : C) (a : α) :
      Outside body (some (c, .ret a)) (some (c, .ret a))

/-- The pool with the lock and the pool of calls that are one step. -/
inductive Matches (body : C → Prog σ ι α)
    (w : Pool T (Guarded σ) ι C α) (w' : Pool T σ (Nat → ι) C α) : Prop
  | free (state : w.state = ⟨false, w'.state⟩)
      (outside : ∀ t, Outside body (w.thread t) (w'.thread t))
  | held (t : T) (c : C) (p : Prog σ ι α) (d : σ)
      (state : w.state = ⟨true, d⟩)
      (holder : w.thread t = some (c, holding p))
      (before : w'.thread t = some (c, (body c).atomically))
      (part : Partly (body c) w'.state p d)
      (outside : ∀ u ≠ t, Outside body (w.thread u) (w'.thread u))

section Outside

variable {body : C → Prog σ ι α} {e : Option (C × Prog (Guarded σ) ι α)}
  {e' : Option (C × Prog σ (Nat → ι) α)} {c : C} {a : α}
  {u : ι → Guarded σ → Guarded σ}
  {n : ι → Guarded σ → Prog (Guarded σ) ι α}

theorem Outside.none_iff (h : Outside body e e') (he : e = none) :
    e' = none := by
  cases h with
  | idle => rfl
  | waiting c n => cases he
  | done c a => cases he

theorem Outside.of_ret (h : Outside body e e')
    (he : e = some (c, .ret a)) : e' = some (c, .ret a) := by
  cases h with
  | idle => cases he
  | waiting c n =>
      cases n with
      | zero => cases he
      | succ n => cases he
  | done c a =>
      cases he
      rfl

/-- A step of a thread outside is a try for the lock. -/
theorem Outside.of_step (h : Outside body e e')
    (he : e = some (c, .step u n)) :
    e' = some (c, (body c).atomically) ∧ ∃ k, ∀ i s,
      u i s = (compareExchange s).2 ∧ n i s
        = if (compareExchange s).1 then holding (body c)
          else (lock k).bind fun _ => holding (body c) := by
  cases h with
  | idle => cases he
  | waiting c k =>
      cases k with
      | zero => cases he
      | succ k =>
          cases he
          refine ⟨rfl, k, fun i s => ⟨rfl, ?_⟩⟩
          show Prog.bind (if (compareExchange s).1 then _ else _) _ = _
          split
          · rfl
          · rfl
  | done c a => cases he

end Outside

/-- What a holder can do next: a step of its section, or drop the
guard. -/
theorem holding_step {c c' : C} {p : Prog σ ι α}
    {u : ι → Guarded σ → Guarded σ}
    {n : ι → Guarded σ → Prog (Guarded σ) ι α}
    (h : some (c, holding p) = some (c', .step u n)) :
    c = c' ∧
      ((∃ a, p = .ret a ∧ ∀ i s, u i s = { s with state := false }
          ∧ n i s = .ret a)
        ∨ ∃ v m, p = .step v m ∧ ∀ i s,
          u i s = { s with data := v i s.data }
          ∧ n i s = holding (m i s.data)) := by
  cases p with
  | ret a =>
      cases h
      exact ⟨rfl, Or.inl ⟨a, rfl, fun _ _ => ⟨rfl, rfl⟩⟩⟩
  | step v m =>
      cases h
      exact ⟨rfl, Or.inr ⟨v, m, rfl, fun _ _ => ⟨rfl, rfl⟩⟩⟩
  | halt => cases h

theorem holding_ne_ret {c c' : C} {p : Prog σ ι α} {a : α} :
    some (c, holding p) ≠ some (c', .ret a) := by
  intro h
  cases p with
  | ret b => cases h
  | step v m => cases h
  | halt => cases h

variable [DecidableEq T]

/-- A thread outside moves in both pools at once. -/
theorem Matches.set {body : C → Prog σ ι α} {w : Pool T (Guarded σ) ι C α}
    {w' : Pool T σ (Nat → ι) C α} {t : T}
    {e : Option (C × Prog (Guarded σ) ι α)}
    {e' : Option (C × Prog σ (Nat → ι) α)} (h : Matches body w w')
    (ht : ∀ c p, w.thread t ≠ some (c, holding p))
    (he : Outside body e e') :
    Outside body (w.thread t) (w'.thread t)
      ∧ Matches body (w.set t e) (w'.set t e') := by
  have hstay : ∀ v, Outside body (w.thread v) (w'.thread v) →
      Outside body ((w.set t e).thread v) ((w'.set t e').thread v) := by
    intro v hv
    by_cases hvt : v = t
    · subst hvt
      rw [Pool.set_self, Pool.set_self]
      exact he
    · rw [Pool.set_of_ne hvt, Pool.set_of_ne hvt]
      exact hv
  cases h with
  | free state outside =>
      exact ⟨outside t, .free state fun v => hstay v (outside v)⟩
  | held t₀ c₀ p d state holder before part outside =>
      have hne : t₀ ≠ t := by
        rintro rfl
        exact ht c₀ p holder
      refine ⟨outside t hne.symm, .held t₀ c₀ p d state ?_ ?_ part
        fun v hv => hstay v (outside v hv)⟩
      · rw [Pool.set_of_ne hne]
        exact holder
      · rw [Pool.set_of_ne hne]
        exact before

/-- The lock makes a section one step. -/
theorem matches_simulation (fuel : Nat) (body : C → Prog σ ι α) (s₀ : σ) :
    Simulation (T := T) (fun _ c => locked fuel (body c))
      (fun _ c => (body c).atomically) ⟨false, s₀⟩ s₀ (fun _ => True)
      (fun _ => Matches body) where
  past _ := trivial
  init := .free rfl fun _ => .idle
  call := by
    intro tr w w' t c _ h idle
    obtain ⟨hout, hset⟩ := h.set (t := t)
      (fun c p hp => by rw [idle] at hp; cases hp) (.waiting c fuel)
    exact ⟨hout.none_iff idle, hset⟩
  run := by
    intro tr w w' t c u n i _ h busy
    cases h with
    | free state outside =>
        -- the compare-exchange takes the free lock
        obtain ⟨before, k, hstep⟩ := (outside t).of_step busy
        obtain ⟨hu, hn⟩ := hstep i w.state
        rw [state] at hu hn
        left
        refine .held t c (body c) w'.state ?_ ?_ before .start fun v hv => ?_
        · rw [Pool.run_state, state, hu]
          rfl
        · rw [Pool.run_self, state, hn]
          rfl
        · rw [Pool.run_of_ne hv]
          exact outside v
    | held t₀ c₀ p d state holder before part outside =>
        by_cases ht : t = t₀
        · subst ht
          obtain ⟨rfl, hcases⟩ := holding_step (holder.symm.trans busy)
          rcases hcases with ⟨a, rfl, hstep⟩ | ⟨v, m, rfl, hstep⟩
          · -- the guard is dropped: the other pool runs the section
            obtain ⟨hu, hn⟩ := hstep i w.state
            obtain ⟨env, henv⟩ := part.exec fun _ => i
            obtain ⟨u', n', hat, hu', hn'⟩ := Prog.atomically_step henv
            right
            refine ⟨u', n', env, hat ▸ before, .free ?_ fun v => ?_⟩
            · rw [Pool.run_state, Pool.run_state, hu, hu', state]
            · by_cases hv : v = t
              · subst hv
                rw [Pool.run_self, Pool.run_self, hn, hn']
                exact .done c₀ a
              · rw [Pool.run_of_ne hv, Pool.run_of_ne hv]
                exact outside v hv
          · obtain ⟨hu, hn⟩ := hstep i w.state
            left
            refine .held t c₀ (m i d) (v i d) ?_ ?_ before (part.step i)
              fun z hz => ?_
            · rw [Pool.run_state, hu, state]
            · rw [Pool.run_self, hn, state]
            · rw [Pool.run_of_ne hz]
              exact outside z hz
        · -- another thread tries in vain
          obtain ⟨before', k, hstep⟩ := (outside t ht).of_step busy
          obtain ⟨hu, hn⟩ := hstep i w.state
          rw [state] at hu hn
          left
          refine .held t₀ c₀ p d ?_ ?_ before part fun z hz => ?_
          · rw [Pool.run_state, state, hu]
            rfl
          · rw [Pool.run_of_ne (Ne.symm ht)]
            exact holder
          · by_cases hzt : z = t
            · subst hzt
              rw [Pool.run_self, before', state, hn]
              exact .waiting c k
            · rw [Pool.run_of_ne hzt]
              exact outside z hz
  ret := by
    intro tr w w' t c a _ h done
    obtain ⟨hout, hset⟩ := h.set (t := t)
      (fun _ _ hp => holding_ne_ret (hp.symm.trans done)) .idle
    exact ⟨hout.of_ret done, hset⟩

end RsMalloc.Sync
