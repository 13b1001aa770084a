/-
Trees in the node heap.

`Focus h₀ h fs t` says that heap `h` holds the subtree `t` under the
frames `fs`: child and parent pointers, keys, metadata and colours are
those of the tree, the root pointer is its root, no address occurs
twice, and everything outside the tree is as it was in `h₀`. Moving the
focus costs nothing (`focus_cons`), so each pointer operation is proved
once, at the place where it writes, and used under any frames.
-/
import RsMalloc.RbTree.Model
import Mathlib.Data.List.Perm.Basic
import Mathlib.Data.List.Nodup

namespace RsMalloc.RbTree

open RedBlack

/-- What a tree node stores besides links and colour. -/
structure Entry where
  addr : Ptr
  key : Key
  bigMeta : BigAllocMeta

variable {h h' h₀ : RBTree} {p q : Ptr} {n : Node} {d : Side} {c : Color}
  {e : Entry} {t a b : ColorTree Entry} {f : Frame Entry} {fs : List (Frame Entry)}

-- ======================================================= running steps

theorem bind_ok {α β : Type} {m : M α} {k : α → M β} {x : α}
    (hm : m h = .ok (x, h')) : (m >>= k) h = k x h' := by
  show Except.bind (m h) _ = _
  rw [hm]
  rfl

theorem load_ok (hp : h.node p = some n) : load p h = .ok (n, h) := by
  simp only [load, hp]

theorem modify_ok {g : Node → Node} (hp : h.node p = some n) :
    modify p g h = .ok ((), h.set p (g n)) := by
  simp only [modify, hp]

theorem child_ok (hp : h.node p = some n) :
    child p d h = .ok (n.child d, h) :=
  bind_ok (load_ok hp)

theorem parentOf_ok (hp : h.node p = some n) :
    parentOf p h = .ok (n.parent, h) :=
  bind_ok (load_ok hp)

theorem colorAt_ok (hp : h.node p = some n) :
    colorAt p h = .ok (n.color, h) :=
  bind_ok (load_ok hp)

@[simp] theorem set_node_same : (h.set p n).node p = some n :=
  Function.update_self ..

theorem set_node_ne (hq : q ≠ p) : (h.set p n).node q = h.node q :=
  Function.update_of_ne hq ..

-- =================================================== pointers of a tree

/-- Address of the root, null for the empty tree. -/
def ptr : ColorTree Entry → Ptr
  | .nil => 0
  | .bin _ _ e _ => e.addr

/-- The parent pointer of whatever hangs below the frames. -/
def top : List (Frame Entry) → Ptr
  | [] => 0
  | f :: _ => f.entry.addr

def addrs (t : ColorTree Entry) : List Ptr := t.entries.map Entry.addr

def frameAddrs : List (Frame Entry) → List Ptr
  | [] => []
  | f :: fs => f.entry.addr :: (addrs f.sibling ++ frameAddrs fs)

@[simp] theorem ptr_nil : ptr .nil = 0 := rfl

@[simp] theorem ptr_node : ptr (.node d c a e b) = e.addr := by
  cases d <;> rfl

@[simp] theorem ptr_plug : ptr (f.plug t) = f.entry.addr := ptr_node

@[simp] theorem top_nil : top [] = 0 := rfl

@[simp] theorem top_cons : top (f :: fs) = f.entry.addr := rfl

@[simp] theorem addrs_nil : addrs .nil = [] := rfl

theorem addrs_node_perm :
    (addrs (.node d c a e b)).Perm (e.addr :: (addrs a ++ addrs b)) := by
  cases d with
  | left => simp [addrs, ColorTree.node, List.perm_middle]
  | right =>
      have hmid : (addrs (.node .right c a e b)).Perm
          (e.addr :: (addrs b ++ addrs a)) := by
        simp [addrs, ColorTree.node, List.perm_middle]
      exact hmid.trans (List.perm_append_comm.cons _)

@[simp] theorem mem_addrs_node :
    p ∈ addrs (.node d c a e b) ↔ p = e.addr ∨ p ∈ addrs a ∨ p ∈ addrs b := by
  rw [addrs_node_perm.mem_iff, List.mem_cons, List.mem_append]

theorem plug_perm :
    (addrs t ++ frameAddrs (f :: fs)).Perm
      (addrs (f.plug t) ++ frameAddrs fs) := by
  refine List.Perm.trans ?_ (addrs_node_perm.symm.append_right _)
  simp only [frameAddrs, ← List.append_assoc, ← List.cons_append]
  exact (List.perm_middle.append_right _).trans (by simp)

/-- The record of a node whose child on side `d` is `near`. -/
def nodeOf (d : Side) (c : Color) (e : Entry) (near far up : Ptr) : Node :=
  match d with
  | .left => ⟨e.key, e.bigMeta, near, far, up, c⟩
  | .right => ⟨e.key, e.bigMeta, far, near, up, c⟩

section NodeOf

variable {near far up near' far' up' : Ptr} {c' : Color}

@[simp] theorem nodeOf_child :
    (nodeOf d c e near far up).child d = near := by
  cases d <;> rfl

@[simp] theorem nodeOf_child_other :
    (nodeOf d c e near far up).child d.other = far := by
  cases d <;> rfl

@[simp] theorem nodeOf_setChild :
    (nodeOf d c e near far up).setChild d near' = nodeOf d c e near' far up := by
  cases d <;> rfl

@[simp] theorem nodeOf_setChild_other :
    (nodeOf d c e near far up).setChild d.other far'
      = nodeOf d c e near far' up := by
  cases d <;> rfl

@[simp] theorem nodeOf_parent : (nodeOf d c e near far up).parent = up := by
  cases d <;> rfl

@[simp] theorem nodeOf_color : (nodeOf d c e near far up).color = c := by
  cases d <;> rfl

@[simp] theorem nodeOf_key : (nodeOf d c e near far up).key = e.key := by
  cases d <;> rfl

@[simp] theorem nodeOf_bigMeta :
    (nodeOf d c e near far up).bigMeta = e.bigMeta := by
  cases d <;> rfl

@[simp] theorem nodeOf_setParent :
    { nodeOf d c e near far up with parent := up' }
      = nodeOf d c e near far up' := by
  cases d <;> rfl

@[simp] theorem nodeOf_setColor :
    { nodeOf d c e near far up with color := c' }
      = nodeOf d c' e near far up := by
  cases d <;> rfl

end NodeOf

-- ============================================================ in memory

/-- The nodes of `t` are in memory, with `up` above the root. -/
def TreeAt (N : Ptr → Option Node) : Ptr → ColorTree Entry → Prop
  | _, .nil => True
  | up, .bin c l e r =>
      e.addr ≠ 0 ∧ N e.addr = some (nodeOf .left c e (ptr l) (ptr r) up)
        ∧ TreeAt N e.addr l ∧ TreeAt N e.addr r

/-- The frames are in memory, with `q` in the hole. -/
def FramesAt (N : Ptr → Option Node) (root : Ptr) :
    List (Frame Entry) → Ptr → Prop
  | [], q => root = q
  | f :: fs, q =>
      f.entry.addr ≠ 0
        ∧ N f.entry.addr
          = some (nodeOf f.side f.color f.entry q (ptr f.sibling) (top fs))
        ∧ TreeAt N f.entry.addr f.sibling ∧ FramesAt N root fs f.entry.addr

variable {N N' : Ptr → Option Node} {up root : Ptr}

theorem treeAt_node :
    TreeAt N up (.node d c a e b)
      ↔ e.addr ≠ 0 ∧ N e.addr = some (nodeOf d c e (ptr a) (ptr b) up)
        ∧ TreeAt N e.addr a ∧ TreeAt N e.addr b := by
  cases d with
  | left => rfl
  | right =>
      simp only [ColorTree.node, TreeAt, and_comm (a := TreeAt N e.addr b)]
      rfl

theorem TreeAt.congr (ht : TreeAt N up t)
    (hN : ∀ p ∈ addrs t, N' p = N p) : TreeAt N' up t := by
  induction t generalizing up with
  | nil => trivial
  | bin c l e r ihl ihr =>
      obtain ⟨h0, he, hl, hr⟩ := ht
      have hmem : ∀ p, p ∈ addrs (.bin c l e r)
          ↔ p = e.addr ∨ p ∈ addrs l ∨ p ∈ addrs r :=
        fun p => mem_addrs_node (d := .left)
      refine ⟨h0, ?_, ihl hl ?_, ihr hr ?_⟩
      · rw [hN _ ((hmem _).2 (.inl rfl))]
        exact he
      · exact fun p hp => hN p ((hmem p).2 (.inr (.inl hp)))
      · exact fun p hp => hN p ((hmem p).2 (.inr (.inr hp)))

theorem FramesAt.congr (hfs : FramesAt N root fs q)
    (hN : ∀ p ∈ frameAddrs fs, N' p = N p) : FramesAt N' root fs q := by
  induction fs generalizing q with
  | nil => exact hfs
  | cons f fs ih =>
      obtain ⟨h0, he, hs, hrest⟩ := hfs
      refine ⟨h0, ?_, hs.congr ?_, ih hrest ?_⟩
      · rw [hN _ List.mem_cons_self]
        exact he
      · intro p hp
        exact hN p (List.mem_cons_of_mem _ (List.mem_append_left _ hp))
      · intro p hp
        exact hN p (List.mem_cons_of_mem _ (List.mem_append_right _ hp))

/-- A tree in memory is rooted at null only if it is empty. -/
theorem TreeAt.eq_nil (ht : TreeAt N up t) (h0 : ptr t = 0) : t = .nil := by
  cases t with
  | nil => rfl
  | bin c l e r => exact absurd h0 ht.1

theorem TreeAt.isSome_of_mem (ht : TreeAt N up t) (hp : p ∈ addrs t) :
    (N p).isSome := by
  induction t generalizing up with
  | nil => exact nomatch hp
  | bin c l e r ihl ihr =>
      obtain ⟨-, he, hl, hr⟩ := ht
      rcases (mem_addrs_node (d := .left)).1 hp with hp | hp | hp
      · rw [hp, he]
        rfl
      · exact ihl hl hp
      · exact ihr hr hp

theorem ptr_mem_addrs (h0 : ptr t ≠ 0) : ptr t ∈ addrs t := by
  cases t with
  | nil => exact absurd rfl h0
  | bin c l e r => simp [addrs, ptr]

/-- Only the root of a subtree knows its parent. -/
theorem TreeAt.reparent {up' : Ptr} (ht : TreeAt N up t)
    (hnodup : (addrs t).Nodup)
    (hroot : ∀ n, N (ptr t) = some n →
      N' (ptr t) = some { n with parent := up' })
    (hrest : ∀ p ∈ addrs t, p ≠ ptr t → N' p = N p) :
    TreeAt N' up' t := by
  cases t with
  | nil => trivial
  | bin c l e r =>
      obtain ⟨h0, he, hl, hr⟩ := ht
      have hperm := (addrs_node_perm (d := .left) (c := c) (a := l)
        (b := r) (e := e)).nodup_iff.1 hnodup
      obtain ⟨hnot, -⟩ := List.nodup_cons.1 hperm
      rw [List.mem_append, not_or] at hnot
      refine ⟨h0, hroot _ he, hl.congr ?_, hr.congr ?_⟩
      · intro p hp
        refine hrest p ((mem_addrs_node (d := .left)).2 (.inr (.inl hp))) ?_
        exact fun heq => hnot.1 (by rw [← show p = e.addr from heq]; exact hp)
      · intro p hp
        refine hrest p ((mem_addrs_node (d := .left)).2 (.inr (.inr hp))) ?_
        exact fun heq => hnot.2 (by rw [← show p = e.addr from heq]; exact hp)

-- ============================================================== focus

/-- Heap `h` holds `t` under the frames `fs`, and outside of them is as
`h₀` was. -/
structure Focus (h₀ h : RBTree) (fs : List (Frame Entry))
    (t : ColorTree Entry) : Prop where
  frames : FramesAt h.node h.root fs (ptr t)
  tree : TreeAt h.node (top fs) t
  nodup : (addrs t ++ frameAddrs fs).Nodup
  outside : ∀ p, p ∉ addrs t ++ frameAddrs fs → h.node p = h₀.node p
  freeList : h.freeList = h₀.freeList
  chunks : h.chunks = h₀.chunks

/-- The focus moves up to a frame, or down into it. -/
theorem focus_cons :
    Focus h₀ h (f :: fs) t ↔ Focus h₀ h fs (f.plug t) := by
  constructor
  · intro F
    obtain ⟨h0, he, hs, hrest⟩ := F.frames
    refine ⟨?_, ?_, plug_perm.nodup_iff.1 F.nodup, ?_, F.freeList, F.chunks⟩
    · rw [ptr_plug]
      exact hrest
    · exact treeAt_node.2 ⟨h0, he, F.tree, hs⟩
    · intro p hp
      exact F.outside p fun hmem => hp (plug_perm.mem_iff.1 hmem)
  · intro F
    obtain ⟨h0, he, ht, hs⟩ := treeAt_node.1 F.tree
    have hrest := F.frames
    rw [ptr_plug] at hrest
    refine ⟨⟨h0, he, hs, hrest⟩, ht, plug_perm.nodup_iff.2 F.nodup, ?_,
      F.freeList, F.chunks⟩
    intro p hp
    exact F.outside p fun hmem => hp (plug_perm.mem_iff.2 hmem)

theorem zip_perm {gs : List (Frame Entry)} :
    (addrs t ++ frameAddrs (gs ++ fs)).Perm
      (addrs (zip gs t) ++ frameAddrs fs) := by
  induction gs generalizing t with
  | nil => exact .refl _
  | cons g gs ih => exact plug_perm.trans ih

theorem focus_zip {gs : List (Frame Entry)} :
    Focus h₀ h (gs ++ fs) t ↔ Focus h₀ h fs (zip gs t) := by
  induction gs generalizing t with
  | nil => exact Iff.rfl
  | cons g gs ih => exact focus_cons.trans ih

/-- The focus moves to the root of the whole tree. -/
theorem focus_root : Focus h₀ h fs t ↔ Focus h₀ h [] (zip fs t) := by
  rw [← focus_zip, List.append_nil]

/-- The focus moves to the sibling. -/
theorem focus_sibling {s : ColorTree Entry} :
    Focus h₀ h (⟨d, c, e, s⟩ :: fs) t
      ↔ Focus h₀ h (⟨d.other, c, e, t⟩ :: fs) s := by
  rw [focus_cons, focus_cons, plug_sibling]

/-- The record at the focus. -/
theorem Focus.node_eq (F : Focus h₀ h fs (.node d c a e b)) :
    h.node e.addr = some (nodeOf d c e (ptr a) (ptr b) (top fs)) :=
  (treeAt_node.1 F.tree).2.1

theorem Focus.addr_ne_null (F : Focus h₀ h fs (.node d c a e b)) :
    e.addr ≠ 0 :=
  (treeAt_node.1 F.tree).1

theorem Focus.top_ne_null (F : Focus h₀ h (f :: fs) t) : top (f :: fs) ≠ 0 :=
  F.frames.1

/-- `color_of` reads the colour of a subtree, null included. -/
theorem Focus.colorOf_ok (F : Focus h₀ h fs t) :
    colorOf (ptr t) h = .ok (t.rootColor, h) := by
  cases t with
  | nil => rfl
  | bin c l e r =>
      rw [colorOf, if_neg (show ptr (.bin c l e r) ≠ 0 from F.tree.1)]
      exact colorAt_ok F.tree.2.1

theorem Focus.loadRoot_ok (F : Focus h₀ h [] t) :
    loadRoot h = .ok (ptr t, h) := by
  rw [loadRoot, show h.root = ptr t from F.frames]

/-- The focus and its sibling are different nodes, unless both are
empty. -/
theorem Focus.ptr_ne_sibling (F : Focus h₀ h (f :: fs) t)
    (h0 : ptr t ≠ 0 ∨ ptr f.sibling ≠ 0) : ptr t ≠ ptr f.sibling := by
  intro heq
  have hnd := List.nodup_append.1 F.nodup
  have ht : ptr t ∈ addrs t := by
    refine ptr_mem_addrs fun hz => ?_
    rcases h0 with h0 | h0
    · exact h0 hz
    · exact h0 (heq ▸ hz)
  have hs : ptr f.sibling ∈ addrs f.sibling := by
    refine ptr_mem_addrs fun hz => ?_
    rcases h0 with h0 | h0
    · exact h0 (heq.trans hz)
    · exact h0 hz
  exact hnd.2.2 _ ht _
    (List.mem_cons_of_mem _ (List.mem_append_left _ hs)) heq

/-- Comparing with the parent's left child finds the side. -/
theorem Focus.side_ok (F : Focus h₀ h (f :: fs) t)
    (hne : ptr t ≠ ptr f.sibling) :
    ∃ l, child f.entry.addr .left h = .ok (l, h)
      ∧ (if ptr t = l then Side.left else .right) = f.side := by
  refine ⟨_, child_ok F.frames.2.1, ?_⟩
  cases hside : f.side with
  | left => exact if_pos rfl
  | right => exact if_neg hne

/-- A heap that agrees on all that matters has the same focus. -/
theorem Focus.write {t' : ColorTree Entry} (F : Focus h₀ h fs t)
    (hframes : FramesAt h'.node h'.root fs (ptr t'))
    (htree : TreeAt h'.node (top fs) t')
    (hperm : (addrs t).Perm (addrs t'))
    (hout : ∀ p, p ∉ addrs t ++ frameAddrs fs → h'.node p = h.node p)
    (hfree : h'.freeList = h.freeList) (hchunks : h'.chunks = h.chunks) :
    Focus h₀ h' fs t' := by
  have happ := hperm.append_right (frameAddrs fs)
  refine ⟨hframes, htree, happ.nodup_iff.1 F.nodup, ?_,
    hfree.trans F.freeList, hchunks.trans F.chunks⟩
  intro p hp
  have hp' : p ∉ addrs t ++ frameAddrs fs :=
    fun hmem => hp (happ.mem_iff.1 hmem)
  rw [hout p hp', F.outside p hp']

/-- Writing the record at the focus without moving its links. -/
theorem Focus.set_record (F : Focus h₀ h fs (.node d c a e b))
    (c' : Color) (e' : Entry) (haddr : e'.addr = e.addr) :
    Focus h₀ (h.set e.addr (nodeOf d c' e' (ptr a) (ptr b) (top fs))) fs
      (.node d c' a e' b) := by
  obtain ⟨h0, -, ha, hb⟩ := treeAt_node.1 F.tree
  have hperm : (addrs (.node d c a e b)).Perm (addrs (.node d c' a e' b)) := by
    refine addrs_node_perm.trans (List.Perm.trans ?_ addrs_node_perm.symm)
    rw [haddr]
  have hnodup := (addrs_node_perm.append_right (frameAddrs fs)).nodup_iff.1
    F.nodup
  rw [List.cons_append, List.nodup_cons, List.mem_append, List.mem_append]
    at hnodup
  obtain ⟨hnot, -⟩ := hnodup
  have hkeep : ∀ p, p ≠ e.addr →
      (h.set e.addr (nodeOf d c' e' (ptr a) (ptr b) (top fs))).node p
        = h.node p := fun p hp => set_node_ne hp
  refine F.write ?_ (treeAt_node.2 ⟨?_, ?_, ?_, ?_⟩) hperm ?_ rfl rfl
  · have hfr := F.frames
    rw [ptr_node] at hfr ⊢
    rw [haddr]
    refine hfr.congr fun p hp => hkeep p ?_
    intro heq
    exact hnot (.inr (heq ▸ hp))
  · rw [haddr]
    exact h0
  · rw [haddr]
    exact set_node_same
  · rw [haddr]
    exact ha.congr fun p hp => hkeep p fun heq => hnot (.inl (.inl (heq ▸ hp)))
  · rw [haddr]
    exact hb.congr fun p hp => hkeep p fun heq => hnot (.inl (.inr (heq ▸ hp)))
  · intro p hp
    refine hkeep p fun heq => hp (List.mem_append_left _ ?_)
    exact mem_addrs_node.2 (.inl heq)

/-- Recolouring the focus. -/
theorem Focus.setColor_ok (F : Focus h₀ h fs (.node d c a e b))
    (c' : Color) :
    ∃ h', setColor e.addr c' h = .ok ((), h')
      ∧ Focus h₀ h' fs (.node d c' a e b) := by
  refine ⟨_, modify_ok F.node_eq, ?_⟩
  rw [nodeOf_setColor]
  exact F.set_record c' e rfl

/-- `if !p.is_null() { (*p).color = c }` on a subtree. -/
theorem Focus.setColorNonNull_ok (F : Focus h₀ h fs (.node d c a e b))
    (c' : Color) :
    ∃ h', setColorNonNull e.addr c' h = .ok ((), h')
      ∧ Focus h₀ h' fs (.node d c' a e b) := by
  rw [setColorNonNull, if_neg F.addr_ne_null]
  exact F.setColor_ok c'

-- ============================================================= relink

/-- At most the nodes of `A`, and the root pointer, are written. -/
structure Writes (A : List Ptr) (h h' : RBTree) : Prop where
  node : ∀ p, p ∉ A → h'.node p = h.node p
  freeList : h'.freeList = h.freeList
  chunks : h'.chunks = h.chunks

theorem Writes.set : Writes [p] h (h.set p n) :=
  ⟨fun _ hq => set_node_ne fun heq => hq (List.mem_singleton.2 heq), rfl, rfl⟩

theorem Writes.trans {A B : List Ptr} {h'' : RBTree} (h₁ : Writes A h h')
    (h₂ : Writes B h' h'') : Writes (A ++ B) h h'' := by
  refine ⟨fun p hp => ?_, h₂.freeList.trans h₁.freeList,
    h₂.chunks.trans h₁.chunks⟩
  rw [List.mem_append, not_or] at hp
  rw [h₂.node p hp.2, h₁.node p hp.1]

theorem Writes.treeAt {A : List Ptr} (hw : Writes A h h')
    (ht : TreeAt h.node up t) (hA : ∀ p ∈ addrs t, p ∉ A) :
    TreeAt h'.node up t :=
  ht.congr fun p hp => hw.node p (hA p hp)

theorem Writes.framesAt {A : List Ptr} (hw : Writes A h h')
    (hfs : FramesAt h.node root fs q) (hA : ∀ p ∈ frameAddrs fs, p ∉ A) :
    FramesAt h'.node root fs q :=
  hfs.congr fun p hp => hw.node p (hA p hp)

/-- Writing the hole of the innermost frame. -/
theorem FramesAt.set_hole (hfs : FramesAt h.node h.root (f :: fs) q)
    (hnodup : (frameAddrs (f :: fs)).Nodup) (y : Ptr) :
    FramesAt (h.set f.entry.addr (nodeOf f.side f.color f.entry y
        (ptr f.sibling) (top fs))).node h.root (f :: fs) y
      ∧ Writes (frameAddrs (f :: fs)) h (h.set f.entry.addr
        (nodeOf f.side f.color f.entry y (ptr f.sibling) (top fs))) := by
  obtain ⟨hf0, -, hs, hrest⟩ := hfs
  obtain ⟨hfnot, -⟩ := List.nodup_cons.1 hnodup
  rw [List.mem_append, not_or] at hfnot
  refine ⟨⟨hf0, set_node_same, ?_, ?_⟩, ⟨?_, rfl, rfl⟩⟩
  · exact hs.congr fun p hp => set_node_ne fun heq => hfnot.1 (heq ▸ hp)
  · exact hrest.congr fun p hp => set_node_ne fun heq => hfnot.2 (heq ▸ hp)
  · intro p hp
    exact set_node_ne fun heq => hp (heq ▸ List.mem_cons_self)

/-- The link in the frames is redirected; nothing else is written. -/
theorem relink_ok {x y : Ptr} (d : Side) (hfs : FramesAt h.node h.root fs x)
    (h0 : x ≠ 0) (hx : x ∉ frameAddrs fs) (hnodup : (frameAddrs fs).Nodup) :
    ∃ h', relink d (top fs) x y h = .ok ((), h')
      ∧ FramesAt h'.node h'.root fs y ∧ Writes (frameAddrs fs) h h' := by
  cases fs with
  | nil => exact ⟨_, rfl, rfl, fun _ _ => rfl, rfl, rfl⟩
  | cons f fs =>
      have hset := hfs.set_hole hnodup y
      obtain ⟨hf0, hf, -, -⟩ := hfs
      -- whichever side the source compares with, it writes the hole
      have hwrite : relink d (top (f :: fs)) x y h = .ok ((), h.set f.entry.addr
          (nodeOf f.side f.color f.entry y (ptr f.sibling) (top fs))) := by
        rw [top_cons, relink, if_neg hf0, bind_ok (child_ok hf)]
        rcases Side.eq_or_eq_other d f.side with hd | hd
        · subst hd
          rw [nodeOf_child, if_pos rfl, setChild, modify_ok hf, nodeOf_setChild]
        · have hsib : x ≠ ptr f.sibling := by
            intro heq
            refine hx (List.mem_cons_of_mem _ (List.mem_append_left _ ?_))
            rw [heq]
            exact ptr_mem_addrs (heq ▸ h0)
          have hd' : d = f.side.other := by
            rw [hd, Side.other_other]
          rw [hd', nodeOf_child_other, if_neg hsib, setChild, modify_ok hf,
            Side.other_other, nodeOf_setChild]
      exact ⟨_, hwrite, hset⟩

/-- `if !v.is_null() { (*v).parent = q }` on a whole subtree. -/
theorem setParentNonNull_ok (ht : TreeAt h.node up t)
    (hnodup : (addrs t).Nodup) :
    ∃ h', setParentNonNull (ptr t) q h = .ok ((), h')
      ∧ TreeAt h'.node q t ∧ Writes (addrs t) h h' ∧ h'.root = h.root := by
  cases t with
  | nil => exact ⟨h, rfl, trivial, ⟨fun _ _ => rfl, rfl, rfl⟩, rfl⟩
  | bin c l e r =>
      have hset : setParentNonNull (ptr (.bin c l e r)) q h = .ok ((),
          h.set e.addr (nodeOf .left c e (ptr l) (ptr r) q)) := by
        show setParentNonNull e.addr q h = _
        rw [setParentNonNull, if_neg ht.1, modify_ok ht.2.1, nodeOf_setParent]
      refine ⟨_, hset, ?_, ⟨?_, rfl, rfl⟩, rfl⟩
      · refine ht.reparent hnodup (fun n hn => ?_) fun p _ hp => ?_
        · have hn' : nodeOf .left c e (ptr l) (ptr r) up = n :=
            Option.some.inj (ht.2.1.symm.trans hn)
          rw [← hn', nodeOf_setParent]
          exact set_node_same
        · exact set_node_ne hp
      · intro p hp
        exact set_node_ne fun heq =>
          hp (heq ▸ ptr_mem_addrs (t := .bin c l e r) ht.1)

-- =========================================================== rotation

/-- The addresses met by a rotation are pairwise distinct. -/
theorem rotate_distinct {c' : Color} {x y : Entry} {g : ColorTree Entry}
    (hnodup : (addrs (.node d c a x (.node d c' b y g))
      ++ frameAddrs fs).Nodup) :
    x.addr ≠ y.addr
      ∧ (∀ p ∈ addrs a, p ≠ x.addr ∧ p ≠ y.addr ∧ p ∉ addrs b
          ∧ p ∉ frameAddrs fs)
      ∧ (∀ p ∈ addrs b, p ≠ x.addr ∧ p ≠ y.addr ∧ p ∉ frameAddrs fs)
      ∧ (∀ p ∈ addrs g, p ≠ x.addr ∧ p ≠ y.addr ∧ p ∉ addrs b
          ∧ p ∉ frameAddrs fs)
      ∧ (∀ p ∈ frameAddrs fs, p ≠ x.addr ∧ p ≠ y.addr ∧ p ∉ addrs b)
      ∧ (addrs b).Nodup ∧ (frameAddrs fs).Nodup := by
  have hperm : (addrs (.node d c a x (.node d c' b y g))
      ++ frameAddrs fs).Perm
        (x.addr :: y.addr :: (addrs a ++ addrs b ++ addrs g
          ++ frameAddrs fs)) := by
    refine (addrs_node_perm.append_right _).trans ?_
    rw [List.cons_append]
    refine List.Perm.cons _ ((List.Perm.append_right _
      (addrs_node_perm.append_left _)).trans ?_)
    rw [List.append_assoc, List.cons_append]
    refine List.perm_middle.trans (List.Perm.of_eq ?_)
    simp
  have hn := hperm.nodup_iff.1 hnodup
  simp only [List.nodup_cons, List.mem_cons, List.mem_append, not_or,
    List.nodup_append] at hn
  obtain ⟨⟨hxy, ⟨⟨hxa, hxb⟩, hxg⟩, hxf⟩, ⟨⟨⟨hya, hyb⟩, hyg⟩, hyf⟩,
    ⟨⟨-, hb, hab⟩, -, habg⟩, hf, habgf⟩ := hn
  refine ⟨hxy, fun p hp => ⟨?_, ?_, ?_, ?_⟩, fun p hp => ⟨?_, ?_, ?_⟩,
    fun p hp => ⟨?_, ?_, ?_, ?_⟩, fun p hp => ⟨?_, ?_, ?_⟩, hb, hf⟩
  all_goals intro hq
  · exact hxa (hq ▸ hp)
  · exact hya (hq ▸ hp)
  · exact hab p hp p hq rfl
  · exact habgf p (.inl (.inl hp)) p hq rfl
  · exact hxb (hq ▸ hp)
  · exact hyb (hq ▸ hp)
  · exact habgf p (.inl (.inr hp)) p hq rfl
  · exact hxg (hq ▸ hp)
  · exact hyg (hq ▸ hp)
  · exact habg p (.inr hq) p hp rfl
  · exact habgf p (.inr hp) p hq rfl
  · exact hxf (hq ▸ hp)
  · exact hyf (hq ▸ hp)
  · exact habgf p (.inl (.inr hq)) p hp rfl

/-- A rotation at the focus. -/
theorem Focus.rotate_ok {c' : Color} {x y : Entry} {g : ColorTree Entry}
    (F : Focus h₀ h fs (.node d c a x (.node d c' b y g))) :
    ∃ h', rotate d x.addr h = .ok ((), h')
      ∧ Focus h₀ h' fs (.node d c' (.node d c a x b) y g) := by
  obtain ⟨hxy, hA, hB, hG, hF, hbn, hfn⟩ := rotate_distinct F.nodup
  obtain ⟨hx0, hx, ha, hyt⟩ := treeAt_node.1 F.tree
  obtain ⟨hy0, hy, hb, hg⟩ := treeAt_node.1 hyt
  have hfr := F.frames
  rw [ptr_node] at hx hfr
  have hxb : x.addr ∉ addrs b := fun hm => (hB _ hm).1 rfl
  have hyb : y.addr ∉ addrs b := fun hm => (hB _ hm).2.1 rfl
  have hxf : x.addr ∉ frameAddrs fs := fun hm => (hF _ hm).1 rfl
  have hyf : y.addr ∉ frameAddrs fs := fun hm => (hF _ hm).2.1 rfl
  -- the inner subtree moves from `y` to `x`
  let h₁ := h.set x.addr (nodeOf d c x (ptr a) (ptr b) (top fs))
  have hw₁ : Writes [x.addr] h h₁ := .set
  have hy₁ : h₁.node y.addr = _ := (set_node_ne hxy.symm).trans hy
  obtain ⟨h₂, hrun₂, hb₂, hw₂, hroot₂⟩ := setParentNonNull_ok (q := x.addr)
    (hw₁.treeAt hb fun p hp hm => (hB p hp).1 (List.mem_singleton.1 hm)) hbn
  have hx₂ : h₂.node x.addr = _ := (hw₂.node _ hxb).trans set_node_same
  have hy₂ : h₂.node y.addr = _ := (hw₂.node _ hyb).trans hy₁
  -- `y` takes the place of `x` below the frames
  let h₃ := h₂.set y.addr (nodeOf d c' y (ptr b) (ptr g) (top fs))
  have hw₃ : Writes ([x.addr] ++ addrs b ++ [y.addr]) h h₃ :=
    (hw₁.trans hw₂).trans .set
  have hx₃ : h₃.node x.addr = _ := (set_node_ne hxy).trans hx₂
  have hfr₃ : FramesAt h₃.node h₃.root fs x.addr := by
    rw [show h₃.root = h.root from hroot₂]
    refine hw₃.framesAt hfr fun p hp => ?_
    obtain ⟨hpx, hpy, hpb⟩ := hF p hp
    simp [hpx, hpy, hpb]
  obtain ⟨h₄, hrun₄, hfr₄, hw₄⟩ := relink_ok (y := y.addr) d hfr₃ hx0 hxf hfn
  have hx₄ : h₄.node x.addr = _ := (hw₄.node _ hxf).trans hx₃
  have hy₄ : h₄.node y.addr = _ := (hw₄.node _ hyf).trans set_node_same
  -- and `x` goes below `y`
  let h₅ := h₄.set y.addr (nodeOf d c' y x.addr (ptr g) (top fs))
  have hx₅ : h₅.node x.addr = _ := (set_node_ne hxy).trans hx₄
  let h₆ := h₅.set x.addr (nodeOf d c x (ptr a) (ptr b) y.addr)
  have hw₆ : Writes ([y.addr] ++ [x.addr]) h₄ h₆ := Writes.set.trans .set
  have hw : Writes ([x.addr] ++ addrs b ++ [y.addr] ++ frameAddrs fs
      ++ ([y.addr] ++ [x.addr])) h h₆ := (hw₃.trans hw₄).trans hw₆
  refine ⟨h₆, ?_, ?_⟩
  · rw [rotate, bind_ok (child_ok hx), nodeOf_child_other,
      bind_ok (child_ok hy), nodeOf_child, setChild, bind_ok (modify_ok hx),
      nodeOf_setChild_other, bind_ok (child_ok hy₁), nodeOf_child,
      bind_ok hrun₂, bind_ok (parentOf_ok hx₂), nodeOf_parent,
      bind_ok (modify_ok hy₂), nodeOf_setParent, bind_ok (parentOf_ok hx₃),
      nodeOf_parent, bind_ok hrun₄, setChild, bind_ok (modify_ok hy₄),
      nodeOf_setChild, modify_ok hx₅, nodeOf_setParent]
  · refine F.write ?_ (treeAt_node.2 ⟨hy0, ?_, treeAt_node.2
      ⟨hx0, set_node_same, ?_, ?_⟩, ?_⟩) ?_ ?_ hw.freeList hw.chunks
    · rw [ptr_node]
      refine hw₆.framesAt hfr₄ fun p hp => ?_
      obtain ⟨hpx, hpy, -⟩ := hF p hp
      simp [hpx, hpy]
    · rw [ptr_node]
      exact (set_node_ne hxy.symm).trans set_node_same
    · refine hw.treeAt ha fun p hp => ?_
      obtain ⟨hpx, hpy, hpb, hpf⟩ := hA p hp
      simp [hpx, hpy, hpb, hpf]
    · refine hb₂.congr fun p hp => ?_
      obtain ⟨hpx, hpy, hpf⟩ := hB p hp
      rw [hw₆.node p (by simp [hpx, hpy]), hw₄.node p hpf]
      exact set_node_ne hpy
    · refine hw.treeAt hg fun p hp => ?_
      obtain ⟨hpx, hpy, hpb, hpf⟩ := hG p hp
      simp [hpx, hpy, hpb, hpf]
    · rw [addrs, addrs, ColorTree.entries_rotate]
    · intro p hp
      simp only [List.mem_append, mem_addrs_node, not_or] at hp
      exact hw.node p (by simp [hp])

end RsMalloc.RbTree
