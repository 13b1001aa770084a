/-
Doubly linked segments.

A node has an address and two links. `DSeg L b h ns l t`: from the link
`h` one visits the nodes `ns` in order; the first one's `prev` link is
`b`, every other one's `prev` link is the address of the node before
it; the last link out is `t` and `l` is the address of the last node
(`b` if there is none). Changing a link of one node replaces that node
in the list, so each operation on a list in memory is stated by the
replaced nodes.
-/
import Mathlib.Data.List.Basic
import RsMalloc.Lib.LinkedSeg

/-- How to read the address and the links of a node. -/
structure Links (ν α : Type) where
  addr : ν → α
  next : ν → α
  prev : ν → α

/-- A doubly linked segment. -/
def DSeg {ν α : Type} (L : Links ν α) : α → α → List ν → α → α → Prop
  | b, h, [], l, t => h = t ∧ b = l
  | b, h, n :: ns, l, t =>
      L.addr n = h ∧ L.prev n = b ∧ DSeg L (L.addr n) (L.next n) ns l t

namespace DSeg

variable {ν α : Type} {L : Links ν α} {b h l t : α} {n : ν}
  {ns ns₁ ns₂ : List ν}

@[simp] theorem nil_iff : DSeg L b h [] l t ↔ h = t ∧ b = l := Iff.rfl

@[simp] theorem cons_iff : DSeg L b h (n :: ns) l t ↔ L.addr n = h
    ∧ L.prev n = b ∧ DSeg L (L.addr n) (L.next n) ns l t := Iff.rfl

/-- Segments compose at a link. -/
theorem append_iff : DSeg L b h (ns₁ ++ ns₂) l t
    ↔ ∃ m k, DSeg L b h ns₁ m k ∧ DSeg L m k ns₂ l t := by
  induction ns₁ generalizing b h with
  | nil =>
      constructor
      · intro hs
        exact ⟨b, h, ⟨rfl, rfl⟩, hs⟩
      · rintro ⟨m, k, ⟨rfl, rfl⟩, hs⟩
        exact hs
  | cons n ns₁ ih =>
      simp only [List.cons_append, cons_iff, ih]
      constructor
      · rintro ⟨ha, hp, m, k, h₁, h₂⟩
        exact ⟨m, k, ⟨ha, hp, h₁⟩, h₂⟩
      · rintro ⟨m, k, ⟨ha, hp, h₁⟩, h₂⟩
        exact ⟨ha, hp, m, k, h₁, h₂⟩

/-- Give the first node another `prev` link. -/
theorem replace_head (n' : ν) (hs : DSeg L b h (n :: ns) l t)
    (ha : L.addr n' = L.addr n) (hn : L.next n' = L.next n) :
    DSeg L (L.prev n') h (n' :: ns) l t := by
  obtain ⟨h₁, -, h₃⟩ := hs
  refine ⟨ha.trans h₁, rfl, ?_⟩
  rw [ha, hn]
  exact h₃

/-- Give the last node another `next` link. -/
theorem replace_last (n' : ν) (hs : DSeg L b h (ns ++ [n]) l t)
    (ha : L.addr n' = L.addr n) (hp : L.prev n' = L.prev n) :
    DSeg L b h (ns ++ [n']) l (L.next n') := by
  obtain ⟨m, k, h₁, h₂, h₃, -, h₄⟩ := append_iff.1 hs
  refine append_iff.2 ⟨m, k, h₁, ha.trans h₂, hp.trans h₃, rfl, ?_⟩
  rw [ha]
  exact h₄

/-- The links at the end of a segment are those of its last node. -/
theorem concat_ends (hs : DSeg L b h (ns ++ [n]) l t) :
    l = L.addr n ∧ t = L.next n := by
  obtain ⟨m, k, -, -, -, h₃, h₄⟩ := append_iff.1 hs
  exact ⟨h₄.symm, h₃.symm⟩

/-- Put a node in front. -/
theorem push (hs : DSeg L (L.addr n) (L.next n) ns l t) :
    DSeg L (L.prev n) (L.addr n) (n :: ns) l t := ⟨rfl, rfl, hs⟩

/-- Forgetting the `prev` links leaves a singly linked segment. -/
theorem linkedSeg {next : α → α} (hs : DSeg L b h ns l t)
    (hn : ∀ n ∈ ns, next (L.addr n) = L.next n) :
    LinkedSeg next h (ns.map L.addr) t := by
  induction ns generalizing b h with
  | nil => exact hs.1
  | cons n ns ih =>
      obtain ⟨ha, -, hrest⟩ := hs
      refine ⟨ha.symm, ?_⟩
      rw [hn n (List.mem_cons_self ..)]
      exact ih hrest fun m hm => hn m (List.mem_cons_of_mem _ hm)

/-- The same segment, read by other means. -/
theorem map {μ : Type} {K : Links μ α} (f : ν → μ)
    (hs : DSeg L b h ns l t) (ha : ∀ n ∈ ns, K.addr (f n) = L.addr n)
    (hn : ∀ n ∈ ns, K.next (f n) = L.next n)
    (hp : ∀ n ∈ ns, K.prev (f n) = L.prev n) :
    DSeg K b h (ns.map f) l t := by
  induction ns generalizing b h with
  | nil => exact hs
  | cons n ns ih =>
      obtain ⟨h₁, h₂, h₃⟩ := hs
      have hmem := List.mem_cons_self (a := n) (l := ns)
      refine ⟨(ha n hmem).trans h₁, (hp n hmem).trans h₂, ?_⟩
      rw [ha n hmem, hn n hmem]
      exact ih h₃ (fun m hm => ha m (List.mem_cons_of_mem _ hm))
        (fun m hm => hn m (List.mem_cons_of_mem _ hm))
        fun m hm => hp m (List.mem_cons_of_mem _ hm)

end DSeg
