/-
Red-black trees with a focus.

A tree carries an arbitrary entry at each node. A focus is a subtree
together with the frames above it, innermost first; `zip` closes the
focus again. Left and right are one argument, a `Side`, so that a
mirrored pair of cases is one statement: `node d c near e far` has its
`near` child on side `d`.

# Balance

`Balanced t c n` is the usual invariant: the root of `t` has colour
`c`, no red node has a red child, and every path to a leaf meets `n`
black nodes. `Hole fs n` says the same of the frames around a missing
subtree of black height `n`, and says nothing about the colour of what
is missing. That is the freedom both repair loops need: an insertion
holds a red subtree under a possibly red frame, a deletion holds a
subtree one black node short.
-/
import Mathlib.Data.List.Basic

namespace RedBlack

variable {ε : Type*}

inductive Color
  | red
  | black
  deriving DecidableEq, Repr

inductive Side
  | left
  | right
  deriving DecidableEq, Repr

def Side.other : Side → Side
  | .left => .right
  | .right => .left

@[simp] theorem Side.other_left : Side.left.other = .right := rfl

@[simp] theorem Side.other_right : Side.right.other = .left := rfl

@[simp] theorem Side.other_other (d : Side) : d.other.other = d := by
  cases d <;> rfl

theorem Side.eq_or_eq_other (d d' : Side) : d' = d ∨ d' = d.other := by
  cases d <;> cases d' <;> simp

inductive ColorTree (ε : Type*)
  | nil
  | bin (c : Color) (l : ColorTree ε) (e : ε) (r : ColorTree ε)

/-- A node whose child on side `d` is `near`. -/
def ColorTree.node (d : Side) (c : Color) (near : ColorTree ε) (e : ε)
    (far : ColorTree ε) : ColorTree ε :=
  match d with
  | .left => .bin c near e far
  | .right => .bin c far e near

/-- Entries in search order. -/
def ColorTree.entries : ColorTree ε → List ε
  | .nil => []
  | .bin _ l e r => l.entries ++ e :: r.entries

variable {d : Side} {c : Color} {a b t : ColorTree ε} {e : ε}

@[simp] theorem ColorTree.entries_nil : (ColorTree.nil : ColorTree ε).entries = [] := rfl

@[simp] theorem ColorTree.entries_bin {l r : ColorTree ε} :
    (ColorTree.bin c l e r).entries = l.entries ++ e :: r.entries := rfl

/-- Colour of the root; a missing tree counts as black. -/
def ColorTree.rootColor : ColorTree ε → Color
  | .nil => .black
  | .bin c _ _ _ => c

@[simp] theorem ColorTree.rootColor_node :
    (ColorTree.node d c a e b).rootColor = c := by
  cases d <;> rfl

/-- Every node is a node seen from either side. -/
theorem ColorTree.eq_nil_or_node (d : Side) (t : ColorTree ε) :
    t = .nil ∨ ∃ c a e b, t = .node d c a e b := by
  cases t with
  | nil => exact .inl rfl
  | bin c l e r =>
      cases d with
      | left => exact .inr ⟨c, l, e, r, rfl⟩
      | right => exact .inr ⟨c, r, e, l, rfl⟩

theorem ColorTree.node_ne_nil : ColorTree.node d c a e b ≠ .nil := by
  cases d <;> exact fun h => nomatch h

theorem ColorTree.node_other :
    ColorTree.node d.other c a e b = .node d c b e a := by
  cases d <;> rfl

/-- A recoloured node holds the same entries in the same order. -/
theorem ColorTree.entries_recolor {c' : Color} :
    (ColorTree.node d c a e b).entries = (ColorTree.node d c' a e b).entries :=
  by cases d <;> rfl

theorem ColorTree.entries_node_congr {c' : Color} {a' b' : ColorTree ε}
    (ha : a.entries = a'.entries) (hb : b.entries = b'.entries) :
    (ColorTree.node d c a e b).entries = (ColorTree.node d c' a' e b').entries := by
  cases d <;> simp [node, ha, hb]

/-- A rotation keeps the entries in order, whatever it recolours. -/
theorem ColorTree.entries_rotate {c₁ c₂ c₃ c₄ : Color} {g : ColorTree ε}
    {x y : ε} :
    (ColorTree.node d c₁ a x (.node d c₂ b y g)).entries
      = (ColorTree.node d c₃ (.node d c₄ a x b) y g).entries := by
  cases d <;> simp [node]

-- ============================================================= frames

/-- One node above the focus: the focus hangs on `side`. -/
structure Frame (ε : Type*) where
  side : Side
  color : Color
  entry : ε
  sibling : ColorTree ε

def Frame.plug (f : Frame ε) (t : ColorTree ε) : ColorTree ε :=
  .node f.side f.color t f.entry f.sibling

/-- Close a focus, innermost frame first. -/
def zip : List (Frame ε) → ColorTree ε → ColorTree ε
  | [], t => t
  | f :: fs, t => zip fs (f.plug t)

variable {f : Frame ε} {fs gs : List (Frame ε)} {n : Nat}

@[simp] theorem zip_nil : zip [] t = t := rfl

@[simp] theorem zip_cons :
    zip (f :: fs) t = zip fs (f.plug t) := rfl

theorem zip_append : zip (fs ++ gs) t = zip gs (zip fs t) := by
  induction fs generalizing t with
  | nil => rfl
  | cons f fs ih => exact ih

theorem plug_ne_nil : f.plug t ≠ .nil :=
  ColorTree.node_ne_nil

theorem zip_ne_nil (ht : t ≠ .nil) : zip fs t ≠ .nil := by
  induction fs generalizing t with
  | nil => exact ht
  | cons f fs ih => exact ih plug_ne_nil

/-- The focus can be put on any entry. -/
theorem exists_zip_of_mem (he : e ∈ t.entries) :
    ∃ fs c a b, t = zip fs (.node .left c a e b) := by
  induction t with
  | nil => exact nomatch he
  | bin c l x r ihl ihr =>
      rw [ColorTree.entries_bin, List.mem_append, List.mem_cons] at he
      rcases he with he | he | he
      · obtain ⟨fs, c', a, b, hl⟩ := ihl he
        refine ⟨fs ++ [⟨.left, c, x, r⟩], c', a, b, ?_⟩
        rw [zip_append, ← hl]
        rfl
      · rw [he]
        exact ⟨[], c, l, r, rfl⟩
      · obtain ⟨fs, c', a, b, hr⟩ := ihr he
        refine ⟨fs ++ [⟨.right, c, x, l⟩], c', a, b, ?_⟩
        rw [zip_append, ← hr]
        rfl

/-- The focus may move to the sibling. -/
theorem plug_sibling {s : ColorTree ε} :
    Frame.plug ⟨d, c, e, s⟩ t = Frame.plug ⟨d.other, c, e, t⟩ s :=
  ColorTree.node_other.symm

/-- Entries to the left of the focus. -/
def before : List (Frame ε) → List ε
  | [] => []
  | f :: fs => before fs ++ match f.side with
      | .left => []
      | .right => f.sibling.entries ++ [f.entry]

/-- Entries to the right of the focus. -/
def after : List (Frame ε) → List ε
  | [] => []
  | f :: fs => (match f.side with
      | .left => f.entry :: f.sibling.entries
      | .right => []) ++ after fs

theorem before_append : before (fs ++ gs) = before gs ++ before fs := by
  induction fs with
  | nil => simp [before]
  | cons f fs ih => simp [before, ih]

theorem entries_zip :
    (zip fs t).entries = before fs ++ t.entries ++ after fs := by
  induction fs generalizing t with
  | nil => simp [before, after]
  | cons f fs ih =>
      obtain ⟨d, c, e, s⟩ := f
      rw [zip_cons, ih]
      cases d <;> simp [Frame.plug, ColorTree.node, before, after]

/-- The entries around the entry of a node. -/
theorem entries_zip_node :
    (zip fs (.node .left c a e b)).entries
      = (before fs ++ a.entries) ++ e :: (b.entries ++ after fs) := by
  rw [entries_zip]
  simp [ColorTree.node]

theorem entries_zip_congr (fs : List (Frame ε)) {t' : ColorTree ε}
    (h : t.entries = t'.entries) : (zip fs t).entries = (zip fs t').entries :=
  by rw [entries_zip, entries_zip, h]

/-- Each frame holds an entry. -/
theorem length_add_le_entries_zip (fs : List (Frame ε)) (t : ColorTree ε) :
    fs.length + t.entries.length ≤ (zip fs t).entries.length := by
  induction fs generalizing t with
  | nil => simp
  | cons f fs ih =>
      obtain ⟨d, c, e, s⟩ := f
      have hplug : t.entries.length + 1
          ≤ (Frame.plug ⟨d, c, e, s⟩ t).entries.length := by
        cases d <;> simp [Frame.plug, ColorTree.node]
      have hrec := ih (Frame.plug ⟨d, c, e, s⟩ t)
      rw [List.length_cons, zip_cons]
      omega

-- ============================================================ balance

/-- Root colour `c`, no red node under a red one, `n` black nodes on
every path. -/
inductive Balanced : ColorTree ε → Color → Nat → Prop
  | nil : Balanced .nil .black 0
  | red {l r : ColorTree ε} {e : ε} {n : Nat} :
      Balanced l .black n → Balanced r .black n →
      Balanced (.bin .red l e r) .red n
  | black {l r : ColorTree ε} {e : ε} {c₁ c₂ : Color} {n : Nat} :
      Balanced l c₁ n → Balanced r c₂ n →
      Balanced (.bin .black l e r) .black (n + 1)

theorem Balanced.rootColor (h : Balanced t c n) : t.rootColor = c := by
  cases h <;> rfl

theorem Balanced.node_red (ha : Balanced a .black n)
    (hb : Balanced b .black n) : Balanced (.node d .red a e b) .red n := by
  cases d with
  | left => exact .red ha hb
  | right => exact .red hb ha

theorem Balanced.node_black {c₁ c₂ : Color} (ha : Balanced a c₁ n)
    (hb : Balanced b c₂ n) :
    Balanced (.node d .black a e b) .black (n + 1) := by
  cases d with
  | left => exact .black ha hb
  | right => exact .black hb ha

theorem Balanced.of_node_red (h : Balanced (.node d .red a e b) c n) :
    c = .red ∧ Balanced a .black n ∧ Balanced b .black n := by
  cases d with
  | left => cases h with | red ha hb => exact ⟨rfl, ha, hb⟩
  | right => cases h with | red hb ha => exact ⟨rfl, ha, hb⟩

theorem Balanced.of_node_black (h : Balanced (.node d .black a e b) c n) :
    c = .black ∧ ∃ m c₁ c₂,
      n = m + 1 ∧ Balanced a c₁ m ∧ Balanced b c₂ m := by
  cases d with
  | left =>
      cases h with | black ha hb => exact ⟨rfl, _, _, _, rfl, ha, hb⟩
  | right =>
      cases h with | black hb ha => exact ⟨rfl, _, _, _, rfl, ha, hb⟩

/-- A red tree has a root. -/
theorem Balanced.exists_node_of_red (d : Side) (ht : Balanced t .red n) :
    ∃ a e b, t = .node d .red a e b ∧ Balanced a .black n
      ∧ Balanced b .black n := by
  rcases t.eq_nil_or_node d with heq | ⟨c, a, e, b, heq⟩
  · subst heq
    cases ht
  · subst heq
    have hc : c = .red := by
      have hroot := ht.rootColor
      rwa [ColorTree.rootColor_node] at hroot
    subst hc
    obtain ⟨-, ha, hb⟩ := ht.of_node_red
    exact ⟨a, e, b, rfl, ha, hb⟩

theorem Balanced.ne_nil_of_red (ht : Balanced t .red n) : t ≠ .nil := by
  intro heq
  subst heq
  cases ht

/-- A tree of positive black height has a root. -/
theorem Balanced.exists_node (d : Side) (h : Balanced t c (n + 1)) :
    ∃ a e b, t = .node d c a e b := by
  rcases t.eq_nil_or_node d with ht | ⟨c', a, e, b, ht⟩
  · subst ht
    cases h
  · subst ht
    have hc := h.rootColor
    rw [ColorTree.rootColor_node] at hc
    exact ⟨a, e, b, by rw [hc]⟩

/-- The tree with its root coloured black. -/
def ColorTree.blacken : ColorTree ε → ColorTree ε
  | .nil => .nil
  | .bin _ l e r => .bin .black l e r

@[simp] theorem ColorTree.entries_blacken : t.blacken.entries = t.entries := by
  cases t <;> rfl

@[simp] theorem ColorTree.blacken_node :
    (ColorTree.node d c a e b).blacken = .node d .black a e b := by
  cases d <;> rfl

theorem Balanced.blacken (h : Balanced t c n) :
    ∃ m, Balanced t.blacken .black m := by
  cases h with
  | nil => exact ⟨_, .nil⟩
  | red hl hr => exact ⟨_, .black hl hr⟩
  | black hl hr => exact ⟨_, .black hl hr⟩

/-- The innermost frame is black. -/
def TopBlack : List (Frame ε) → Prop
  | [] => False
  | f :: _ => f.color = .black

/-- Around a missing subtree of black height `n` the frames are
balanced; a red frame sits under a black one. -/
inductive Hole : List (Frame ε) → Nat → Prop
  | root {n : Nat} : Hole [] n
  | black {d : Side} {e : ε} {s : ColorTree ε} {c : Color} {n : Nat}
      {fs : List (Frame ε)} :
      Balanced s c n → Hole fs (n + 1) → Hole (⟨d, .black, e, s⟩ :: fs) n
  | red {d : Side} {e : ε} {s : ColorTree ε} {n : Nat} {fs : List (Frame ε)} :
      Balanced s .black n → TopBlack fs → Hole fs n →
      Hole (⟨d, .red, e, s⟩ :: fs) n

/-- A hole takes every balanced subtree of its height whose root is
black or hangs from a black frame. -/
theorem Hole.fill (hfs : Hole fs n) (ht : Balanced t c n)
    (hc : c = .red → TopBlack fs) : ∃ m, Balanced (zip fs t) .black m := by
  induction hfs generalizing t c with
  | root =>
      cases c with
      | red => exact (hc rfl).elim
      | black => exact ⟨_, ht⟩
  | black hs _ ih => exact ih (ht.node_black hs) (fun h => nomatch h)
  | red hs htop _ ih =>
      cases c with
      | red => exact nomatch hc rfl
      | black => exact ih (ht.node_red hs) (fun _ => htop)

/-- The sibling of a hole; a red one hangs from a black frame. -/
theorem Hole.sibling {s : ColorTree ε} (h : Hole (⟨d, c, e, s⟩ :: fs) n) :
    ∃ cs, Balanced s cs n ∧ (cs = .red → c = .black ∧ Hole fs (n + 1)) := by
  cases h with
  | black hs hfs => exact ⟨_, hs, fun _ => ⟨rfl, hfs⟩⟩
  | red hs _ _ => exact ⟨_, hs, fun hc => nomatch hc⟩

/-- Opening a balanced tree anywhere gives a balanced subtree and a hole
that takes it. -/
theorem Balanced.unzip {m : Nat} (h : Balanced (zip fs t) .black m) :
    ∃ c n, Balanced t c n ∧ Hole fs n ∧ (c = .red → TopBlack fs) := by
  induction fs generalizing t m with
  | nil => exact ⟨_, _, h, .root, fun h => nomatch h⟩
  | cons f fs ih =>
      obtain ⟨c, n, hf, hfs, htop⟩ := ih h
      obtain ⟨d, fc, e, s⟩ := f
      cases fc with
      | red =>
          obtain ⟨hc, ht, hs⟩ := hf.of_node_red
          exact ⟨.black, n, ht, .red hs (htop hc) hfs, fun h => nomatch h⟩
      | black =>
          obtain ⟨-, k, c₁, c₂, hn, ht, hs⟩ := hf.of_node_black
          subst hn
          exact ⟨c₁, k, ht, .black hs hfs, fun _ => rfl⟩

/-- Balance does not read entries: a node may change its own. -/
theorem Balanced.set_entry {c' : Color} (h : Balanced (.node d c a e b) c' n)
    (e' : ε) : Balanced (.node d c a e' b) c' n := by
  cases c with
  | red =>
      obtain ⟨hc, ha, hb⟩ := h.of_node_red
      rw [hc]
      exact ha.node_red hb
  | black =>
      obtain ⟨hc, m, c₁, c₂, hn, ha, hb⟩ := h.of_node_black
      rw [hc, hn]
      exact ha.node_black hb

/-- Nor does it at a frame. -/
theorem Hole.set_entry {s : ColorTree ε} (h : Hole (gs ++ ⟨d, c, e, s⟩ :: fs) n)
    (e' : ε) : Hole (gs ++ ⟨d, c, e', s⟩ :: fs) n := by
  induction gs generalizing n with
  | nil =>
      cases h with
      | black hs hfs => exact .black hs hfs
      | red hs htop hfs => exact .red hs htop hfs
  | cons g gs ih =>
      cases h with
      | black hs hfs => exact .black hs (ih hfs)
      | red hs htop hfs =>
          refine .red hs ?_ (ih hfs)
          cases gs with
          | nil => exact htop
          | cons => exact htop

end RedBlack
