/-
Programs on arrays, with the bounds checked.

# Runs

A function that indexes arrays and may give up is a value of `Run`. It
returns, or it stops: with `none`, where the source returns `None`, or
with `outOfBounds`, where it would access an array beyond its end. The
model checks every index; the code need not.

# Rules

`Meets r Q`: the run does not leave the bounds, and what it returns
satisfies `Q`. There is one rule for each way to build a run. A loop
follows a fold over plain values: `Meets.foldlM` is a simulation.

`Table n a f`: the array `a` of `n` entries holds the values of `f`. A
write to it is an update of `f`.
-/
import Mathlib.Data.List.Basic

namespace Arrays

variable {α β σ τ : Type}

-- ================================================================== runs

/-- Why a run has stopped. -/
inductive Stop where
  | outOfBounds
  | none
  deriving DecidableEq, Repr

abbrev Run (α : Type) := Except Stop α

def read (a : List α) (i : Nat) : Run α :=
  match a[i]? with
  | some x => .ok x
  | none => .error .outOfBounds

def write (a : List α) (i : Nat) (x : α) : Run (List α) :=
  if i < a.length then .ok (a.set i x) else .error .outOfBounds

/-- The operator `?`. -/
def ofOption : Option α → Run α
  | some a => .ok a
  | none => .error .none

-- ================================================================= rules

/-- The run stays within bounds, and returns what satisfies `Q`. -/
structure Meets (r : Run α) (Q : α → Prop) : Prop where
  bounds : r ≠ .error .outOfBounds
  post : ∀ a, r = .ok a → Q a

section Rules

variable {r : Run α} {Q Q' : α → Prop}

theorem Meets.ret {a : α} (h : Q a) : Meets (.ok a) Q :=
  ⟨nofun, fun _ ha => Except.ok.inj ha ▸ h⟩

theorem Meets.stop : Meets (.error .none) Q := ⟨nofun, nofun⟩

theorem Meets.mono (h : Meets r Q) (hQ : ∀ a, Q a → Q' a) : Meets r Q' :=
  ⟨h.bounds, fun a ha => hQ a (h.post a ha)⟩

theorem Meets.bind {k : α → Run β} {Q : β → Prop}
    (h : Meets r fun a => Meets (k a) Q) : Meets (r >>= k) Q := by
  cases r with
  | ok a => exact h.post a rfl
  | error e =>
      cases e with
      | outOfBounds => exact absurd rfl h.bounds
      | none => exact .stop

/-- The rule for `bind`, with the condition in between given. -/
theorem Meets.andThen {k : α → Run β} {R : β → Prop} (h : Meets r Q)
    (hk : ∀ a, Q a → Meets (k a) R) : Meets (r >>= k) R :=
  (h.mono hk).bind

theorem Meets.ofOption {o : Option α} (h : ∀ a, o = some a → Q a) :
    Meets (ofOption o) Q := by
  cases o with
  | none => exact .stop
  | some a => exact .ret (h a rfl)

/-- A loop does what a fold does. -/
theorem Meets.foldlM {l : List β} {body : σ → β → Run σ} {g : τ → β → τ}
    {R : σ → τ → Prop} {s : σ} {t : τ}
    (hbody : ∀ b ∈ l, ∀ s t, R s t → Meets (body s b) (R · (g t b)))
    (h : R s t) : Meets (l.foldlM body s) (R · (l.foldl g t)) := by
  induction l generalizing s t with
  | nil => exact .ret h
  | cons b l ih =>
      rw [List.foldlM_cons, List.foldl_cons]
      obtain ⟨hfirst, hrest⟩ := List.forall_mem_cons.1 hbody
      exact (hfirst s t h).andThen fun s' hs' => ih hrest hs'

/-- A loop over the indices of an array that reads the entry first is a
loop over the entries. -/
theorem foldlM_read (l : List α) (k : σ → α → Run σ) (s : σ) :
    (List.range l.length).foldlM (fun s i => read l i >>= k s) s
      = l.foldlM k s := by
  -- the entries before the index are done
  have hfrom : ∀ (rest done : List α) (s : σ),
      (List.range' done.length rest.length).foldlM
          (fun s i => read (done ++ rest) i >>= k s) s
        = rest.foldlM k s := by
    intro rest
    induction rest with
    | nil => intro done s; rfl
    | cons a rest ih =>
        intro done s
        have hread : read (done ++ a :: rest) done.length = .ok a := by
          rw [read, List.getElem?_append_right (Nat.le_refl _), Nat.sub_self]
          rfl
        rw [List.length_cons, List.range'_succ, List.foldlM_cons,
          List.foldlM_cons, hread]
        refine bind_congr fun s' => ?_
        have hrest := ih (done ++ [a]) s'
        rw [List.append_assoc, List.length_append] at hrest
        exact hrest
  rw [List.range_eq_range']
  exact hfrom l [] s

end Rules

-- ================================================================ tables

/-- The array has `n` entries, the values of `f`. -/
structure Table (n : Nat) (a : List α) (f : Nat → α) : Prop where
  length : a.length = n
  get : ∀ i < n, a[i]? = some (f i)

namespace Table

variable {n i : Nat} {a : List α} {f g : Nat → α} {x : α}

theorem congr (h : Table n a f) (hfg : ∀ i < n, f i = g i) :
    Table n a g :=
  ⟨h.length, fun i hi => hfg i hi ▸ h.get i hi⟩

theorem replicate : Table n (List.replicate n x) fun _ => x :=
  ⟨List.length_replicate, fun i hi => by
    rw [List.getElem?_replicate, if_pos hi]⟩

theorem read {Q : α → Prop} (h : Table n a f) (hi : i < n) (hQ : Q (f i)) :
    Meets (read a i) Q := by
  rw [Arrays.read, h.get i hi]
  exact .ret hQ

theorem write (h : Table n a f) (hi : i < n) :
    Meets (write a i x) (Table n · (Function.update f i x)) := by
  rw [Arrays.write, if_pos (h.length.symm ▸ hi)]
  refine .ret ⟨by rw [List.length_set, h.length], fun j hj => ?_⟩
  by_cases hij : i = j
  · subst hij
    rw [List.getElem?_set_self (h.length.symm ▸ hi), Function.update_self]
  · rw [List.getElem?_set_ne hij, h.get j hj,
      Function.update_of_ne (Ne.symm hij)]

/-- What a loop of writes leaves. -/
theorem foldl_update (l : List Nat) (f g : Nat → α) (j : Nat) :
    l.foldl (fun f i => Function.update f i (g i)) f j
      = if j ∈ l then g j else f j := by
  induction l generalizing f with
  | nil => rfl
  | cons i l ih =>
      rw [List.foldl_cons, ih]
      by_cases hl : j ∈ l
      · rw [if_pos hl, if_pos (List.mem_cons_of_mem i hl)]
      · rw [if_neg hl]
        by_cases hij : j = i
        · subst hij
          rw [Function.update_self, if_pos (List.mem_cons_self ..)]
        · rw [Function.update_of_ne hij, if_neg]
          exact List.not_mem_cons_of_ne_of_not_mem hij hl

/-- Writes at given indices. -/
theorem writes {l : List Nat} (h : Table n a f) (hl : ∀ i ∈ l, i < n) :
    Meets (l.foldlM (fun a i => Arrays.write a i (g i)) a)
      (Table n · (l.foldl (fun f i => Function.update f i (g i)) f)) :=
  .foldlM (fun i hi _ _ hs => hs.write (hl i hi)) h

/-- Every entry is written. -/
theorem fill (h : Table n a f) :
    Meets ((List.range n).foldlM (fun a i => Arrays.write a i (g i)) a)
      (Table n · g) :=
  (h.writes fun _ hi => List.mem_range.1 hi).mono fun _ ha =>
    ha.congr fun i hi => by
      rw [foldl_update, if_pos (List.mem_range.2 hi)]

end Table

end Arrays
