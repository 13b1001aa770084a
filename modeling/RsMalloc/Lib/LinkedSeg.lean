/-
Singly linked segments over an arbitrary successor function.

`LinkedSeg next p l q`: starting at `p` and following `next`, one
visits exactly the cells of `l`, in order, and arrives at `q`. A whole
null-terminated list is a segment that ends at null; a chain whose last
cell still points somewhere is a segment that ends there. Nothing is
said about distinctness: a caller that updates `next` at one cell asks
for `Nodup` where it needs it.

`NSeg` is the same notion for nodes that carry their address and their
link with them: changing the link of a node replaces the node.
-/
import Mathlib.Data.List.Basic
import Mathlib.Logic.Function.Iterate

variable {α : Type*}

/-- Following `next` from `p` visits `l` and arrives at `q`. -/
def LinkedSeg (next : α → α) : α → List α → α → Prop
  | p, [], q => p = q
  | p, a :: l, q => p = a ∧ LinkedSeg next (next a) l q

namespace LinkedSeg

variable {next next' : α → α} {p q r a : α} {l l₁ l₂ : List α}

@[simp] theorem nil_iff : LinkedSeg next p [] q ↔ p = q := Iff.rfl

@[simp] theorem cons_iff :
    LinkedSeg next p (a :: l) q ↔ p = a ∧ LinkedSeg next (next a) l q :=
  Iff.rfl

/-- Segments compose at the cell where the first one arrives. -/
theorem append_iff :
    LinkedSeg next p (l₁ ++ l₂) q
      ↔ ∃ m, LinkedSeg next p l₁ m ∧ LinkedSeg next m l₂ q := by
  induction l₁ generalizing p with
  | nil => simp
  | cons a l₁ ih =>
      simp only [List.cons_append, cons_iff, ih]
      constructor
      · rintro ⟨hp, m, h₁, h₂⟩
        exact ⟨m, ⟨hp, h₁⟩, h₂⟩
      · rintro ⟨m, ⟨hp, h₁⟩, h₂⟩
        exact ⟨hp, m, h₁, h₂⟩

/-- A segment only reads `next` at its own cells. -/
theorem congr (hagree : ∀ b ∈ l, next' b = next b)
    (h : LinkedSeg next p l q) : LinkedSeg next' p l q := by
  induction l generalizing p with
  | nil => exact h
  | cons a l ih =>
      obtain ⟨hp, hrest⟩ := h
      refine ⟨hp, ?_⟩
      rw [hagree a (List.mem_cons_self ..)]
      exact ih (fun b hb => hagree b (List.mem_cons_of_mem _ hb)) hrest

/-- Writing `next` at a cell outside the segment keeps it. -/
theorem update_of_notMem [DecidableEq α] (ha : a ∉ l)
    (h : LinkedSeg next p l q) :
    LinkedSeg (Function.update next a r) p l q := by
  refine h.congr fun b hb => Function.update_of_ne ?_ _ _
  rintro rfl
  exact ha hb

/-- The first cell of a non-empty segment is where it starts. -/
theorem head_eq (h : LinkedSeg next p (a :: l) q) : p = a := h.1

/-- Writing `next` at the last cell of a duplicate-free segment
redirects where it arrives. -/
theorem update_last [DecidableEq α] (hnd : (l ++ [a]).Nodup)
    (h : LinkedSeg next p (l ++ [a]) q) :
    LinkedSeg (Function.update next a r) p (l ++ [a]) r := by
  obtain ⟨m, h₁, hm, -⟩ := append_iff.1 h
  have ha : a ∉ l := fun hmem =>
    (List.nodup_append.1 hnd).2.2 a hmem a (List.mem_singleton_self a) rfl
  refine append_iff.2 ⟨m, h₁.update_of_notMem ha, hm, ?_⟩
  simp

/-- Two segments from one cell that both stop at `q`, a cell neither
visits, visit the same cells: a null-terminated list is determined by
its head. -/
theorem unique (h₁ : LinkedSeg next p l₁ q) (h₂ : LinkedSeg next p l₂ q)
    (hq₁ : q ∉ l₁) (hq₂ : q ∉ l₂) : l₁ = l₂ := by
  induction l₁ generalizing p l₂ with
  | nil =>
      cases l₂ with
      | nil => rfl
      | cons b l₂ =>
          rw [nil_iff] at h₁
          exact absurd (List.mem_cons.2 (Or.inl (h₁ ▸ h₂.1))) hq₂
  | cons a l₁ ih =>
      cases l₂ with
      | nil =>
          rw [nil_iff] at h₂
          exact absurd (List.mem_cons.2 (Or.inl (h₂ ▸ h₁.1))) hq₁
      | cons b l₂ =>
          obtain ⟨hpa, h₁⟩ := h₁
          obtain ⟨hpb, h₂⟩ := h₂
          subst hpa
          subst hpb
          rw [ih h₁ h₂ (fun h => hq₁ (List.mem_cons_of_mem _ h))
            (fun h => hq₂ (List.mem_cons_of_mem _ h))]

end LinkedSeg

-- ==================================================== segments of nodes

/-- Following the links of the nodes from `h` visits `ns` and arrives
at `t`. -/
def NSeg {ν α : Type} (addr next : ν → α) : α → List ν → α → Prop
  | h, [], t => h = t
  | h, n :: ns, t => addr n = h ∧ NSeg addr next (next n) ns t

namespace NSeg

variable {ν α : Type} {addr next : ν → α} {h t : α} {n : ν}
  {ns ns₁ ns₂ : List ν}

@[simp] theorem nil_iff : NSeg addr next h [] t ↔ h = t := Iff.rfl

@[simp] theorem cons_iff : NSeg addr next h (n :: ns) t
    ↔ addr n = h ∧ NSeg addr next (next n) ns t := Iff.rfl

/-- Segments compose at a link. -/
theorem append_iff : NSeg addr next h (ns₁ ++ ns₂) t
    ↔ ∃ m, NSeg addr next h ns₁ m ∧ NSeg addr next m ns₂ t := by
  induction ns₁ generalizing h with
  | nil =>
      constructor
      · intro hs
        exact ⟨h, rfl, hs⟩
      · rintro ⟨m, rfl, hs⟩
        exact hs
  | cons n ns₁ ih =>
      simp only [List.cons_append, cons_iff, ih]
      constructor
      · rintro ⟨ha, m, h₁, h₂⟩
        exact ⟨m, ⟨ha, h₁⟩, h₂⟩
      · rintro ⟨m, ⟨ha, h₁⟩, h₂⟩
        exact ⟨ha, m, h₁, h₂⟩

/-- Give the last node another link. -/
theorem replace_last (n' : ν) (hs : NSeg addr next h (ns ++ [n]) t)
    (ha : addr n' = addr n) : NSeg addr next h (ns ++ [n']) (next n') := by
  obtain ⟨m, h₁, h₂, -⟩ := append_iff.1 hs
  exact append_iff.2 ⟨m, h₁, ha.trans h₂, rfl⟩

/-- A segment that does not end where it starts has a first node. -/
theorem exists_cons (hs : NSeg addr next h ns t) (hne : h ≠ t) :
    ∃ n ns', ns = n :: ns' ∧ addr n = h
      ∧ NSeg addr next (next n) ns' t := by
  cases ns with
  | nil => exact absurd hs hne
  | cons n ns => exact ⟨n, ns, rfl, hs.1, hs.2⟩

/-- Nodes whose links a successor function reads form a segment of
their addresses. -/
theorem linkedSeg {succ : α → α} (hs : NSeg addr next h ns t)
    (hn : ∀ n ∈ ns, succ (addr n) = next n) :
    LinkedSeg succ h (ns.map addr) t := by
  induction ns generalizing h with
  | nil => exact hs
  | cons n ns ih =>
      obtain ⟨ha, hrest⟩ := hs
      refine ⟨ha.symm, ?_⟩
      rw [hn n (List.mem_cons_self ..)]
      exact ih hrest fun m hm => hn m (List.mem_cons_of_mem _ hm)

end NSeg
