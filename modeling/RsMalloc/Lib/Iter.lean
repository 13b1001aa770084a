/-
Iterators.

An iterator is a state with a `next` that answers with an item or with
`none`. `nth next n s` is the answer to the call with `n` calls before
it, so a statement about all `n` also says what happens to a caller who
goes on after `none`. `Yields next s l`: the items of `l` in order, and
`none` forever. `Collects` is what a caller gets who stops at the first
`none` or at the first error.
-/
import Mathlib.Data.List.Basic

namespace Iter

variable {σ α ε : Type}

/-- The answer to a call, and the iterator afterwards. -/
abbrev Next (σ α : Type) := σ → Option α × σ

/-- The answer after `n` calls. -/
def nth (next : Next σ α) : Nat → σ → Option α
  | 0, s => (next s).1
  | n + 1, s => nth next n (next s).2

/-- The items of the list, and then nothing any more. -/
def Yields (next : Next σ α) (s : σ) (l : List α) : Prop :=
  ∀ n, nth next n s = l[n]?

/-- The items of the first `n` calls, up to the first `none`: what a
`for` loop runs over. -/
def items (next : Next σ α) : Nat → σ → List α
  | 0, _ => []
  | n + 1, s =>
      match next s with
      | (none, _) => []
      | (some a, s) => a :: items next n s

/-- `collect` into a `Result`. -/
inductive Collects (next : Next σ (Except ε α)) :
    σ → Except ε (List α) → Prop
  | done {s : σ} (h : (next s).1 = none) : Collects next s (.ok [])
  | fail {s : σ} {e : ε} (h : (next s).1 = some (.error e)) :
      Collects next s (.error e)
  | more {s : σ} {a : α} {r : Except ε (List α)}
      (h : (next s).1 = some (.ok a)) (rest : Collects next (next s).2 r) :
      Collects next s (r.map (a :: ·))

section Yields

variable {next : Next σ α} {s t : σ} {a : α} {l : List α}

theorem Yields.cons (h : next s = (some a, t)) (hl : Yields next t l) :
    Yields next s (a :: l) := by
  intro n
  cases n with
  | zero => rw [nth, h, List.getElem?_cons_zero]
  | succ n =>
      rw [nth, h, List.getElem?_cons_succ]
      exact hl n

theorem Yields.head (h : Yields next s (a :: l)) :
    (next s).1 = some a ∧ Yields next (next s).2 l :=
  ⟨h 0, fun n => h (n + 1)⟩

theorem Yields.none (h : Yields next s []) : (next s).1 = none := h 0

/-- An iterator that answers `none` and stays so. -/
theorem Yields.nil {P : σ → Prop} (hs : P s)
    (hP : ∀ s, P s → (next s).1 = .none ∧ P (next s).2) :
    Yields next s [] := by
  intro n
  rw [List.getElem?_nil]
  induction n generalizing s with
  | zero => exact (hP s hs).1
  | succ n ih => exact ih (hP s hs).2

/-- Two states with the same answer and the same state behind it. -/
theorem Yields.congr (h : next s = next t) (hl : Yields next t l) :
    Yields next s l := by
  intro n
  rw [← hl n]
  cases n with
  | zero => rw [nth, nth, h]
  | succ n => rw [nth, nth, h]

/-- An iterator yields one list only. -/
theorem Yields.unique {l' : List α} (h : Yields next s l)
    (h' : Yields next s l') : l = l' :=
  List.ext_getElem? fun n => (h n).symm.trans (h' n)

/-- With enough calls a loop runs over all that is yielded. -/
theorem Yields.items_eq {n : Nat} (h : Yields next s l)
    (hn : l.length < n) : items next n s = l := by
  induction n generalizing s l with
  | zero => exact absurd hn (Nat.not_lt_zero _)
  | succ n ih =>
      rw [items]
      cases hs : next s with
      | mk o s' =>
          cases l with
          | nil =>
              have hnone := h.none
              rw [hs] at hnone
              cases hnone
              rfl
          | cons a l =>
              obtain ⟨hhead, hrest⟩ := h.head
              rw [hs] at hhead hrest
              cases hhead
              exact congrArg (a :: ·) (ih hrest (Nat.lt_of_succ_lt_succ hn))

end Yields

section Collects

variable {next : Next σ (Except ε α)} {s : σ} {l : List α}
  {r : Except ε (List α)} {a : α} {e : ε}

theorem collects_none (h : (next s).1 = none) :
    Collects next s r ↔ r = .ok [] := by
  constructor
  · intro hr
    cases hr with
    | done => rfl
    | fail he => rw [h] at he; cases he
    | more ha => rw [h] at ha; cases ha
  · rintro rfl
    exact .done h

theorem collects_error (h : (next s).1 = some (.error e)) :
    Collects next s r ↔ r = .error e := by
  constructor
  · intro hr
    cases hr with
    | done hn => rw [h] at hn; cases hn
    | fail he => rw [h] at he; cases he; rfl
    | more ha => rw [h] at ha; cases ha
  · rintro rfl
    exact .fail h

theorem collects_ok (h : (next s).1 = some (.ok a)) :
    Collects next s r
      ↔ ∃ r', Collects next (next s).2 r' ∧ r = r'.map (a :: ·) := by
  constructor
  · intro hr
    cases hr with
    | done hn => rw [h] at hn; cases hn
    | fail he => rw [h] at he; cases he
    | more ha hr => rw [h] at ha; cases ha; exact ⟨_, hr, rfl⟩
  · rintro ⟨r', hr', rfl⟩
    exact .more h hr'

/-- Items without an error are collected. -/
theorem Yields.collects (h : Yields next s (l.map .ok)) :
    Collects next s r ↔ r = .ok l := by
  induction l generalizing s r with
  | nil => exact collects_none h.none
  | cons a l ih =>
      obtain ⟨hhead, hrest⟩ := h.head
      simp only [collects_ok hhead, ih hrest, exists_eq_left]
      rfl

/-- The first error is what is collected. -/
theorem Yields.collects_first {l' : List (Except ε α)}
    (h : Yields next s (l.map .ok ++ .error e :: l')) :
    Collects next s r ↔ r = .error e := by
  induction l generalizing s r with
  | nil => exact collects_error h.head.1
  | cons a l ih =>
      obtain ⟨hhead, hrest⟩ := h.head
      simp only [collects_ok hhead, ih hrest, exists_eq_left]
      rfl

end Collects

end Iter
