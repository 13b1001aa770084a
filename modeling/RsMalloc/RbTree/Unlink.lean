/-
Taking a node out of the tree (`transplant`, `minimum` and the first
half of `delete_node`).

The node with two children is replaced by its successor. Between the
writes the heap holds no tree: the successor is already out of its
place and the node still in. The lemmas below therefore speak of the
pieces, the frames, the two subtrees and the two records, and put the
tree together again at the end.
-/
import RsMalloc.RbTree.Delete

namespace RsMalloc.RbTree

open RedBlack

variable {h h₀ : RBTree} {d : Side} {c : Color} {y z : Entry}
  {t l r x a b : ColorTree Entry} {fs gs : List (Frame Entry)} {up u : Ptr}
  {n : Nat} {nu ny : Node} {fuel : Nat}

-- ========================================================== transplant

/-- A subtree takes the place of node `u`. -/
theorem transplant_ok (hfs : FramesAt h.node h.root fs u)
    (hu : h.node u = some nu) (hup : nu.parent = top fs) (h0 : u ≠ 0)
    (huf : u ∉ frameAddrs fs) (ht : TreeAt h.node up t)
    (hnodup : (addrs t ++ frameAddrs fs).Nodup) :
    ∃ h', transplant u (ptr t) h = .ok ((), h')
      ∧ FramesAt h'.node h'.root fs (ptr t) ∧ TreeAt h'.node (top fs) t
      ∧ Writes (addrs t ++ frameAddrs fs) h h' := by
  obtain ⟨htn, hfn, hcross⟩ := List.nodup_append.1 hnodup
  obtain ⟨h₁, hrun₁, hfs₁, hw₁⟩ := relink_ok (y := ptr t) .left hfs h0 huf hfn
  have ht₁ := hw₁.treeAt ht fun p hp hm => hcross p hp p hm rfl
  obtain ⟨h₂, hrun₂, ht₂, hw₂, hroot₂⟩ :=
    setParentNonNull_ok (q := top fs) ht₁ htn
  refine ⟨h₂, ?_, ?_, ht₂, ⟨fun p hp => ?_, ?_, ?_⟩⟩
  · rw [transplant, bind_ok (RbTree.parentOf_ok hu), hup, bind_ok hrun₁, hrun₂]
  · rw [hroot₂]
    exact hw₂.framesAt hfs₁ fun p hp hm => hcross p hm p hp rfl
  · rw [List.mem_append, not_or] at hp
    rw [hw₂.node p hp.1, hw₁.node p hp.2]
  · exact hw₂.freeList.trans hw₁.freeList
  · exact hw₂.chunks.trans hw₁.chunks

/-- A node with one child gives its place to that child. -/
theorem Focus.transplant_ok (F : Focus h₀ h fs (.node d c .nil z x)) :
    ∃ h', transplant z.addr (ptr x) h = .ok ((), h') ∧ Focus h h' fs x := by
  have hnodup := (addrs_node_perm.append_right (frameAddrs fs)).nodup_iff.1
    F.nodup
  rw [addrs_nil, List.nil_append, List.cons_append, List.nodup_cons,
    List.mem_append, not_or] at hnodup
  obtain ⟨⟨-, hzf⟩, hxf⟩ := hnodup
  obtain ⟨h0, hz, -, hx⟩ := treeAt_node.1 F.tree
  have hfs := F.frames
  rw [ptr_node] at hfs
  obtain ⟨h', hrun, hfs', hx', hw⟩ :=
    RbTree.transplant_ok hfs hz nodeOf_parent h0 hzf hx hxf
  exact ⟨h', hrun, hfs', hx', hxf, hw.node, hw.freeList, hw.chunks⟩

-- ============================================================= minimum

/-- `minimum` walks down the left spine. -/
theorem minimum_ok (F : Focus h₀ h fs t) (ht : t ≠ .nil)
    (hfuel : t.entries.length ≤ fuel) :
    ∃ gs c y x, minimum fuel (ptr t) h = .ok (y.addr, h)
      ∧ t = zip gs (.node .left c .nil y x) ∧ before gs = [] := by
  induction t generalizing fs fuel with
  | nil => exact absurd rfl ht
  | bin c l e r ihl _ =>
      obtain ⟨k, rfl⟩ : ∃ k, fuel = k + 1 := by
        refine ⟨fuel - 1, ?_⟩
        simp only [ColorTree.entries_bin, List.length_append, List.length_cons]
          at hfuel
        omega
      have hnode : h.node (ptr (.bin c l e r)) = _ := F.tree.2.1
      rw [minimum, bind_ok (child_ok hnode), nodeOf_child]
      by_cases hl : l = .nil
      · subst hl
        exact ⟨[], c, e, r, rfl, rfl, rfl⟩
      · have Fl : Focus h₀ h (⟨.left, c, e, r⟩ :: fs) l := focus_cons.2 F
        have hl0 : ptr l ≠ 0 := fun h0 => hl (Fl.tree.eq_nil h0)
        have hlen : l.entries.length ≤ k := by
          simp only [ColorTree.entries_bin, List.length_append, List.length_cons]
            at hfuel
          omega
        obtain ⟨gs, c', y, x, hrun, hzip, hbefore⟩ := ihl Fl hl hlen
        rw [if_neg hl0]
        refine ⟨gs ++ [⟨.left, c, e, r⟩], c', y, x, hrun, ?_, ?_⟩
        · rw [zip_append, ← hzip]
          rfl
        · rw [before_append, hbefore]
          rfl

-- ====================================================== two children

/-- With the successor `y` outside, holding its right subtree, and `z`
in place, `y` takes the place of `z`. -/
theorem replaceBy_ok (hfs : FramesAt h.node h.root fs z.addr)
    (hz : h.node z.addr = some nu) (hzup : nu.parent = top fs)
    (hzl : nu.left = ptr l) (hl : TreeAt h.node z.addr l) (hlnil : l ≠ .nil)
    (hy : h.node y.addr = some ny) (hykey : ny.key = y.key)
    (hymeta : ny.bigMeta = y.bigMeta) (hyr : ny.right = ptr r)
    (hr : TreeAt h.node y.addr r) (hz0 : z.addr ≠ 0) (hy0 : y.addr ≠ 0)
    (hznot : z.addr ∉ y.addr :: (addrs l ++ addrs r) ++ frameAddrs fs)
    (hnodup : (y.addr :: (addrs l ++ addrs r) ++ frameAddrs fs).Nodup) :
    ∃ h', replaceBy z.addr y.addr h = .ok ((), h')
      ∧ Focus h h' fs (.node .left nu.color l y r) := by
  simp only [List.cons_append, List.mem_cons, List.mem_append, not_or]
    at hznot
  obtain ⟨hzy, ⟨hzl', hzr'⟩, hzf⟩ := hznot
  simp only [List.cons_append, List.nodup_cons, List.mem_append, not_or]
    at hnodup
  obtain ⟨⟨⟨hyl', hyr'⟩, hyf⟩, hnd⟩ := hnodup
  obtain ⟨hlr, hfn, hcross⟩ := List.nodup_append.1 hnd
  obtain ⟨hln, -, hlcross⟩ := List.nodup_append.1 hlr
  -- `y` below the frames
  obtain ⟨h₁, hrun₁, hfs₁, hw₁⟩ := relink_ok (y := y.addr) .left hfs hz0 hzf hfn
  have hy₁ : h₁.node y.addr = some ny := (hw₁.node _ hyf).trans hy
  let h₂ := h₁.set y.addr { ny with parent := top fs }
  have hz₂ : h₂.node z.addr = some nu :=
    (set_node_ne hzy).trans ((hw₁.node _ hzf).trans hz)
  -- the left subtree of `z` below `y`
  let h₃ := h₂.set y.addr { ny with parent := top fs, left := ptr l }
  have hset₃ : setChild y.addr .left (ptr l) h₂ = .ok ((), h₃) :=
    modify_ok set_node_same
  have hchild₃ : child y.addr .left h₃ = .ok (ptr l, h₃) :=
    child_ok set_node_same
  have hw₃ : Writes (frameAddrs fs ++ [y.addr] ++ [y.addr]) h h₃ :=
    (hw₁.trans .set).trans .set
  have hl₃ : TreeAt h₃.node z.addr l := by
    refine hw₃.treeAt hl fun p hp => ?_
    have hpf : p ∉ frameAddrs fs := fun hm =>
      hcross p (List.mem_append_left _ hp) p hm rfl
    have hpy : p ≠ y.addr := fun heq => hyl' (heq ▸ hp)
    simp [hpf, hpy]
  obtain ⟨h₄, hrun₄, hl₄, hw₄, hroot₄⟩ :=
    setParentNonNull_ok (q := y.addr) hl₃ hln
  have hl0 : ptr l ≠ 0 := fun h0 => hlnil (hl.eq_nil h0)
  rw [setParentNonNull, if_neg hl0] at hrun₄
  have hz₄ : h₄.node z.addr = some nu :=
    (hw₄.node _ hzl').trans ((set_node_ne hzy).trans hz₂)
  have hy₄ : h₄.node y.addr = _ := (hw₄.node _ hyl').trans set_node_same
  let h₅ := h₄.set y.addr
    { ny with parent := top fs, left := ptr l, color := nu.color }
  have hw₅ : Writes (frameAddrs fs ++ [y.addr] ++ [y.addr] ++ addrs l
      ++ [y.addr]) h h₅ := (hw₃.trans hw₄).trans .set
  refine ⟨h₅, ?_, ?_, treeAt_node.2 ⟨hy0, ?_, ?_, ?_⟩, ?_, ?_,
    hw₅.freeList, hw₅.chunks⟩
  · rw [replaceBy, transplant, bind_assoc,
      bind_ok (RbTree.parentOf_ok hz), hzup, bind_assoc, bind_ok hrun₁,
      setParentNonNull, if_neg hy0, bind_ok (modify_ok hy₁),
      bind_ok (child_ok hz₂), show nu.child .left = _ from hzl,
      bind_ok hset₃, bind_ok hchild₃, bind_ok hrun₄,
      bind_ok (colorAt_ok hz₄), setColor, modify_ok hy₄]
  · rw [ptr_node, show h₅.root = h₁.root from hroot₄]
    have hw : Writes ([y.addr] ++ [y.addr] ++ addrs l ++ [y.addr]) h₁ h₅ :=
      ((Writes.set.trans .set).trans hw₄).trans .set
    refine hw.framesAt hfs₁ fun p hp => ?_
    have hpl : p ∉ addrs l := fun hm =>
      hcross p (List.mem_append_left _ hm) p hp rfl
    have hpy : p ≠ y.addr := fun heq => hyf (heq ▸ hp)
    simp [hpl, hpy]
  · rw [show h₅.node y.addr = _ from set_node_same]
    simp only [nodeOf, ← hykey, ← hymeta, ← hyr]
  · refine hl₄.congr fun p hp => set_node_ne fun heq => hyl' (heq ▸ hp)
  · refine hw₅.treeAt hr fun p hp => ?_
    have hpf : p ∉ frameAddrs fs := fun hm =>
      hcross p (List.mem_append_right _ hp) p hm rfl
    have hpl : p ∉ addrs l := fun hm => hlcross p hm p hp rfl
    have hpy : p ≠ y.addr := fun heq => hyr' (heq ▸ hp)
    simp [hpf, hpl, hpy]
  · refine (addrs_node_perm.append_right _).nodup_iff.2 ?_
    rw [List.cons_append, List.nodup_cons]
    refine ⟨?_, hnd⟩
    simp [hyl', hyr', hyf]
  · intro p hp
    simp only [List.mem_append, mem_addrs_node, not_or] at hp
    exact hw₅.node p (by simp [hp])

theorem ptr_zip_cons {f : Frame Entry} (t t' : ColorTree Entry) :
    ptr (zip (f :: gs) t) = ptr (zip (f :: gs) t') := by
  induction gs generalizing f t t' with
  | nil => rw [zip_cons, zip_cons, zip_nil, zip_nil, ptr_plug, ptr_plug]
  | cons g gs ih => exact ih (f.plug t) (f.plug t')

/-- The successor `y` below the right child of `z` leaves its place to
its right subtree `x` and takes the right subtree of `z`. -/
theorem spliceSuccessor_ok {g : Frame Entry} {cy cz : Color}
    (F : Focus h₀ h (g :: gs ++ ⟨.right, cz, z, l⟩ :: fs)
      (.node .left cy .nil y x)) :
    ∃ h', spliceSuccessor z.addr y.addr h = .ok ((), h')
      ∧ FramesAt h'.node h'.root fs z.addr
      ∧ h'.node z.addr = h.node z.addr
      ∧ TreeAt h'.node z.addr l
      ∧ h'.node y.addr = some (nodeOf .left cy y 0
          (ptr (zip (g :: gs) x)) (top (g :: gs ++ ⟨.right, cz, z, l⟩ :: fs)))
      ∧ TreeAt h'.node y.addr (zip (g :: gs) x)
      ∧ Writes (y.addr :: (addrs l ++ addrs (zip (g :: gs) x))
          ++ frameAddrs fs) h h' := by
  obtain ⟨h₁, hrun₁, F₁⟩ := F.transplant_ok
  have Fr : Focus h h₁ (⟨.right, cz, z, l⟩ :: fs) (zip (g :: gs) x) :=
    focus_zip.1 F₁
  obtain ⟨hz0, hz₁, hl₁, hfs₁⟩ := Fr.frames
  have hynot : y.addr ∉ addrs (zip (g :: gs) x)
      ++ frameAddrs (⟨.right, cz, z, l⟩ :: fs) := by
    intro hm
    have hnd := (addrs_node_perm.append_right _).nodup_iff.1 F.nodup
    exact (List.nodup_cons.1 hnd).1 (zip_perm.mem_iff.2 hm)
  have hy₁ : h₁.node y.addr = _ :=
    (Fr.outside _ hynot).trans F.node_eq
  simp only [frameAddrs, List.mem_append, List.mem_cons, not_or] at hynot
  obtain ⟨hyr, hyz, hyl, hyf⟩ := hynot
  have hnd := Fr.nodup
  simp only [frameAddrs, List.nodup_append, List.nodup_cons, List.mem_append,
    List.mem_cons, not_or] at hnd
  obtain ⟨hrn, ⟨⟨hzl, hzf⟩, -⟩, hcross⟩ := hnd
  let h₂ := h₁.set y.addr (nodeOf .left cy y 0 (ptr (zip (g :: gs) x))
    (top (g :: gs ++ ⟨.right, cz, z, l⟩ :: fs)))
  have hr₂ : TreeAt h₂.node z.addr (zip (g :: gs) x) :=
    Fr.tree.congr fun p hp => set_node_ne fun heq => hyr (heq ▸ hp)
  obtain ⟨h₃, hrun₃, hr₃, hw₃, hroot₃⟩ :=
    setParentNonNull_ok (q := y.addr) hr₂ hrn
  have hr0 : ptr (zip (g :: gs) x) ≠ 0 :=
    fun h0 => zip_ne_nil plug_ne_nil (hr₂.eq_nil h0)
  rw [setParentNonNull, if_neg hr0] at hrun₃
  -- only `y` and the root of the right subtree were written since `h₁`
  have hkeep : ∀ p, p ∉ addrs (zip (g :: gs) x) → p ≠ y.addr →
      h₃.node p = h₁.node p := fun p hp hpy =>
    (hw₃.node p hp).trans (set_node_ne hpy)
  have hzr : z.addr ∉ addrs (zip (g :: gs) x) :=
    fun hm => hcross _ hm _ (.inl rfl) rfl
  have hz₃ : h₃.node z.addr = h.node z.addr := by
    have Fz : Focus h₀ h (⟨.right, cz, z, l⟩ :: fs)
        (zip (g :: gs) (.node .left cy .nil y x)) := focus_zip.1 F
    rw [hkeep _ hzr (Ne.symm hyz), hz₁,
      show h.node z.addr = _ from Fz.frames.2.1,
      ptr_zip_cons x (.node .left cy .nil y x)]
  refine ⟨h₃, ?_, ?_, hz₃, ?_, ?_, hr₃, ?_, ?_, ?_⟩
  · have hset : setChild y.addr .right (ptr (zip (g :: gs) x)) h₁
        = .ok ((), h₂) := modify_ok hy₁
    have hchild : child y.addr .right h₂ = .ok (ptr (zip (g :: gs) x), h₂) :=
      child_ok set_node_same
    have hzr₁ : child z.addr .right h₁ = .ok (ptr (zip (g :: gs) x), h₁) :=
      child_ok hz₁
    have hyr₀ : child y.addr .right h = .ok (ptr x, h) := child_ok F.node_eq
    rw [spliceSuccessor, bind_ok hyr₀, bind_ok hrun₁, bind_ok hzr₁, bind_ok hset, bind_ok hchild, hrun₃]
  · rw [show h₃.root = h₁.root from hroot₃]
    refine hfs₁.congr fun p hp => hkeep p ?_ fun heq => hyf (heq ▸ hp)
    exact fun hm => hcross p hm p (.inr (.inr hp)) rfl
  · refine hl₁.congr fun p hp => hkeep p ?_ fun heq => hyl (heq ▸ hp)
    exact fun hm => hcross p hm p (.inr (.inl hp)) rfl
  · exact (hw₃.node _ hyr).trans set_node_same
  · intro p hp
    simp only [List.cons_append, List.mem_cons, List.mem_append, not_or] at hp
    obtain ⟨hpy, ⟨hpl, hpr⟩, hpf⟩ := hp
    by_cases hpz : p = z.addr
    · rw [hpz, hz₃]
    · rw [hkeep p hpr hpy, Fr.outside p]
      simp only [frameAddrs, List.mem_append, List.mem_cons, not_or]
      exact ⟨hpr, hpz, hpl, hpf⟩
  · exact hw₃.freeList.trans Fr.freeList
  · exact hw₃.chunks.trans Fr.chunks

theorem addrs_zip_node {cy : Color} :
    (addrs (zip gs (.node .left cy .nil y x))).Perm
      (y.addr :: addrs (zip gs x)) := by
  have hy : (addrs (.node .left cy .nil y x) ++ frameAddrs (gs ++ [])).Perm
      (addrs (zip gs (.node .left cy .nil y x)) ++ frameAddrs []) := zip_perm
  have hx : (addrs x ++ frameAddrs (gs ++ [])).Perm
      (addrs (zip gs x) ++ frameAddrs []) := zip_perm
  simp only [frameAddrs, List.append_nil] at hy hx
  exact hy.symm.trans ((addrs_node_perm.append_right _).trans (hx.cons _))

/-- The successor takes the place of a node with two children. -/
theorem deleteTwo_ok {cz : Color} (F : Focus h₀ h fs (.node .left cz l z r))
    (hl : l ≠ .nil) (hr : r ≠ .nil) (hfuel : r.entries.length ≤ fuel) :
    ∃ h' gs cy y x, r = zip gs (.node .left cy .nil y x) ∧ before gs = []
      ∧ deleteTwo fuel z.addr h
        = .ok ((cy, ptr x, top (gs ++ ⟨.right, cz, y, l⟩ :: fs)), h')
      ∧ Focus h h' (gs ++ ⟨.right, cz, y, l⟩ :: fs) x := by
  have Fr : Focus h₀ h (⟨.right, cz, z, l⟩ :: fs) r := focus_cons.2 F
  obtain ⟨gs, cy, y, x, hmin, hzip, hbefore⟩ := minimum_ok Fr hr hfuel
  have Fy : Focus h₀ h (gs ++ ⟨.right, cz, z, l⟩ :: fs)
      (.node .left cy .nil y x) := focus_zip.2 (hzip ▸ Fr)
  -- the addresses of `y`, `z`, both subtrees and the frames
  have hpz : (addrs (.node .left cz l z r) ++ frameAddrs fs).Perm
      (z.addr :: (y.addr :: (addrs l ++ addrs (zip gs x)) ++ frameAddrs fs)) := by
    refine (addrs_node_perm.append_right _).trans ?_
    have hmid := (hzip ▸ addrs_zip_node : (addrs r).Perm _)
    refine (List.Perm.cons _ ((hmid.append_left _).append_right _)).trans ?_
    exact (List.perm_middle.append_right _).cons _
  obtain ⟨hznot, hnodup⟩ := List.nodup_cons.1 (hpz.nodup_iff.1 F.nodup)
  obtain ⟨hz0, hz, hltree, -⟩ := treeAt_node.1 F.tree
  have hfr := F.frames
  rw [ptr_node] at hfr
  have hzr : child z.addr .right h = .ok (ptr r, h) := child_ok hz
  have hyr : child y.addr .right h = .ok (ptr x, h) := child_ok Fy.node_eq
  have hreads : deleteTwo fuel z.addr h
      = (if top (gs ++ ⟨.right, cz, z, l⟩ :: fs) = z.addr then do
          replaceBy z.addr y.addr
          pure (cy, ptr x, y.addr)
        else do
          spliceSuccessor z.addr y.addr
          replaceBy z.addr y.addr
          pure (cy, ptr x, top (gs ++ ⟨.right, cz, z, l⟩ :: fs))
        : M (Color × Ptr × Ptr)) h := by
    rw [deleteTwo, bind_ok hzr, bind_ok hmin, bind_ok (colorAt_ok Fy.node_eq),
      nodeOf_color, bind_ok hyr, bind_ok (RbTree.parentOf_ok Fy.node_eq),
      nodeOf_parent]
  rw [hreads]
  cases gs with
  | nil =>
      -- `y` is the right child of `z`
      obtain ⟨hy0, hy, -, hx⟩ := treeAt_node.1 Fy.tree
      obtain ⟨h', hrun, F'⟩ := replaceBy_ok hfr hz nodeOf_parent rfl hltree hl
        hy nodeOf_key nodeOf_bigMeta rfl hx hz0 hy0 hznot hnodup
      refine ⟨h', [], cy, y, x, hzip, hbefore, ?_, focus_cons.2 F'⟩
      rw [List.nil_append, top_cons, if_pos rfl, bind_ok hrun]
      rfl
  | cons g gs =>
      have hne : top (g :: gs ++ ⟨.right, cz, z, l⟩ :: fs) ≠ z.addr := by
        intro heq
        refine hznot (heq ▸ ?_)
        have hg : g.entry.addr ∈ addrs (zip (g :: gs) x) ++ frameAddrs [] :=
          zip_perm.mem_iff.1 (List.mem_append_right _ List.mem_cons_self)
        simp only [frameAddrs, List.append_nil] at hg
        exact List.mem_append_left _
          (List.mem_cons_of_mem _ (List.mem_append_right _ hg))
      obtain ⟨h₁, hrun₁, hfr₁, hz₁, hl₁, hy₁, hr₁, hw₁⟩ := spliceSuccessor_ok Fy
      obtain ⟨h₂, hrun₂, F₂⟩ := replaceBy_ok hfr₁ (hz₁.trans hz) nodeOf_parent
        rfl hl₁ hl hy₁ nodeOf_key nodeOf_bigMeta rfl hr₁ hz0 Fy.addr_ne_null
        hznot hnodup
      have F₂' : Focus h h₂ fs (.node .left cz l y (zip (g :: gs) x)) := by
        refine ⟨F₂.frames, F₂.tree, F₂.nodup, fun p hp => ?_,
          F₂.freeList.trans hw₁.freeList, F₂.chunks.trans hw₁.chunks⟩
        rw [F₂.outside p hp]
        refine hw₁.node p fun hm => hp ?_
        exact (addrs_node_perm.append_right _).mem_iff.2 hm
      refine ⟨h₂, g :: gs, cy, y, x, hzip, hbefore, ?_,
        focus_zip.2 (focus_cons.2 F₂')⟩
      rw [if_neg hne, bind_ok hrun₁, bind_ok hrun₂]
      rfl

-- ============================================================== unlink

/-- What taking out a node with at most one child does to the balance. -/
theorem balance_of_splice {cy : Color}
    (hy : Balanced (.node d cy .nil y x) c n) (hfs : Hole fs n) :
    (cy = .red → ∃ m, Balanced (zip fs x) .black m)
      ∧ (cy = .black → ∃ m, Short x m ∧ Hole fs (m + 1)) := by
  constructor
  · intro hcy
    subst hcy
    obtain ⟨-, -, hx⟩ := hy.of_node_red
    exact hfs.fill hx (fun hc => nomatch hc)
  · intro hcy
    subst hcy
    obtain ⟨-, m, -, cx, hm, -, hx⟩ := hy.of_node_black
    subst hm
    refine ⟨m, ?_, hfs⟩
    cases cx with
    | black => exact .inl hx
    | red =>
        obtain ⟨a, e, b, heq, ha, hb⟩ := hx.exists_node_of_red .left
        subst heq
        refine .inr ⟨ColorTree.rootColor_node, ?_⟩
        rw [ColorTree.blacken_node]
        exact ha.node_black hb

/-- `delete_node` up to the repair: the entry of `z` is gone and the
rest is in order; if a black node left its place, one subtree is one
black node short. -/
theorem unlinkNode_ok {m : Nat} (F : Focus h₀ h fs (.node .left c a z b))
    (hbal : Balanced (zip fs (.node .left c a z b)) .black m)
    (hfuel : b.entries.length ≤ fuel) :
    ∃ h' fs' x c', unlinkNode fuel z.addr h = .ok ((c', ptr x, top fs'), h')
      ∧ Focus h h' fs' x
      ∧ (zip fs' x).entries = before fs ++ (a.entries ++ b.entries) ++ after fs
      ∧ (c' = .red → ∃ m, Balanced (zip fs' x) .black m)
      ∧ (c' = .black → ∃ n, Short x n ∧ Hole fs' (n + 1)) := by
  obtain ⟨cz, n, hz, hfs, -⟩ := hbal.unzip
  have hl : child z.addr .left h = .ok (ptr a, h) := child_ok F.node_eq
  have hr : child z.addr .right h = .ok (ptr b, h) := child_ok F.node_eq
  have hreads : unlinkNode fuel z.addr h
      = (if ptr a = 0 then do
          transplant z.addr (ptr b)
          pure (c, ptr b, top fs)
        else if ptr b = 0 then do
          transplant z.addr (ptr a)
          pure (c, ptr a, top fs)
        else deleteTwo fuel z.addr : M (Color × Ptr × Ptr)) h := by
    rw [unlinkNode, bind_ok (colorAt_ok F.node_eq), nodeOf_color, bind_ok hl,
      bind_ok hr, bind_ok (RbTree.parentOf_ok F.node_eq), nodeOf_parent]
  rw [hreads]
  obtain ⟨-, -, hatree, hbtree⟩ := treeAt_node.1 F.tree
  by_cases ha : ptr a = 0
  · obtain rfl := hatree.eq_nil ha
    obtain ⟨h', hrun, F'⟩ := F.transplant_ok
    have hsplice := balance_of_splice hz hfs
    refine ⟨h', fs, b, c, ?_, F', ?_, hsplice.1, hsplice.2⟩
    · rw [if_pos ha, bind_ok hrun]
      rfl
    · rw [entries_zip, ColorTree.entries_nil, List.nil_append]
  · rw [if_neg ha]
    by_cases hb : ptr b = 0
    · obtain rfl := hbtree.eq_nil hb
      have Fm : Focus h₀ h fs (.node .right c .nil z a) := F
      obtain ⟨h', hrun, F'⟩ := Fm.transplant_ok
      have hz' : Balanced (.node .right c .nil z a) cz n := hz
      have hsplice := balance_of_splice hz' hfs
      refine ⟨h', fs, a, c, ?_, F', ?_, hsplice.1, hsplice.2⟩
      · rw [if_pos hb, bind_ok hrun]
        rfl
      · rw [entries_zip, ColorTree.entries_nil, List.append_nil]
    · rw [if_neg hb]
      have hanil : a ≠ .nil := fun heq => ha (heq ▸ rfl)
      have hbnil : b ≠ .nil := fun heq => hb (heq ▸ rfl)
      obtain ⟨h', gs, cy, y, x, hzip, hbefore, hrun, F'⟩ :=
        deleteTwo_ok F hanil hbnil hfuel
      -- the hole is where `y` was, below a frame that now carries `y`
      have hbal' : Balanced (zip (gs ++ ⟨.right, c, z, a⟩ :: fs)
          (.node .left cy .nil y x)) .black m := by
        rw [zip_append, ← hzip]
        exact hbal
      obtain ⟨c', n', hy, hhole, -⟩ := hbal'.unzip
      have hsplice := balance_of_splice hy (hhole.set_entry y)
      refine ⟨h', _, x, cy, hrun, F', ?_, hsplice.1, hsplice.2⟩
      have hb' : b.entries = y :: (zip gs x).entries := by
        rw [hzip, entries_zip, entries_zip, hbefore]
        rfl
      rw [zip_append, zip_cons, entries_zip, hb']
      simp [Frame.plug, ColorTree.node]

end RsMalloc.RbTree
