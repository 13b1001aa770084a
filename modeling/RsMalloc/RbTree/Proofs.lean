/-
The map and its invariants over whole histories.

`Inv` collects what holds between calls: the heap holds a balanced
search tree, the free list runs through the remaining nodes of the
mapped chunks, and no node is in both. Each call keeps it and acts on
the entries as the reference map prescribes (`exec_ok`); a history is
an induction over its calls.
-/
import RsMalloc.Lib.LinkedSeg
import RsMalloc.RbTree.Search
import RsMalloc.RbTree.Unlink

namespace RsMalloc.RbTree

open RedBlack

variable {os : Nat → Ptr} {h h' h₀ : RBTree} {t : ColorTree Entry}
  {fs : List (Frame Entry)} {fl : List Ptr} {k : Key} {m : BigAllocMeta}
  {fuel : Nat} {p ptr₀ : Ptr}

-- ========================================================== free nodes

/-- The free list is threaded through `left`. -/
def freeNext (h : RBTree) (p : Ptr) : Ptr :=
  match h.node p with
  | some n => n.left
  | none => 0

theorem freeNext_eq {n : Node} (hp : h.node p = some n) :
    freeNext h p = n.left := by
  simp only [freeNext, hp]

theorem freeNext_congr (hp : h'.node p = h.node p) :
    freeNext h' p = freeNext h p := by
  simp only [freeNext, hp]

/-- Between two calls. -/
structure Inv (os : Nat → Ptr) (h : RBTree) (t : ColorTree Entry)
    (fl : List Ptr) : Prop where
  focus : Focus h h [] t
  free : LinkedSeg (freeNext h) h.freeList fl 0
  nodup : (addrs t ++ fl).Nodup
  mapped : ∀ p, (h.node p).isSome ↔ p ∈ addrs t ++ fl
  chunk : ∀ p, (h.node p).isSome → ∃ n, n < h.chunks ∧ inChunk (os n) p
  sorted : Sorted t.entries
  balanced : ∃ m, Balanced t .black m

theorem inv_new : Inv os RBTree.new .nil [] := by
  refine ⟨⟨rfl, trivial, List.nodup_nil, fun _ _ => rfl, rfl, rfl⟩, rfl,
    List.nodup_nil, fun p => ?_, fun p hp => ?_, List.Pairwise.nil, 0, .nil⟩
  · simp [RBTree.new, addrs]
  · simp [RBTree.new] at hp

-- ============================================================== chunks

theorem nodeAt_inj {i j : Nat} (hij : nodeAt p i = nodeAt p j) : i = j :=
  Nat.eq_of_mul_eq_mul_right (by decide) (Nat.add_left_cancel hij)

theorem inChunk_iff :
    inChunk ptr₀ p ↔ ∃ i, i < nodeChunk ∧ p = nodeAt ptr₀ i := by
  rw [inChunk, decide_eq_true_eq]
  constructor
  · intro ⟨hle, hlt, hmod⟩
    refine ⟨(p - ptr₀) / nodeSize, ?_, ?_⟩
    · rw [Nat.div_lt_iff_lt_mul (by decide)]
      exact Nat.sub_lt_left_of_lt_add hle hlt
    · have hdiv := Nat.div_add_mod' (p - ptr₀) nodeSize
      rw [hmod, Nat.add_zero] at hdiv
      rw [nodeAt, hdiv, Nat.add_sub_cancel' hle]
  · intro ⟨i, hi, hp⟩
    subst hp
    refine ⟨Nat.le_add_right _ _, ?_, ?_⟩
    · exact Nat.add_lt_add_left
        (Nat.mul_lt_mul_of_pos_right hi (by decide)) _
    · rw [nodeAt, Nat.add_sub_cancel_left, Nat.mul_mod_left]

/-- The loop over a fresh chunk links each node to the next. -/
theorem linkChunk_ok {i n : Nat} (hin : i + n = nodeChunk)
    (hmap : ∀ j, j < nodeChunk → ∃ nd, h.node (nodeAt p j) = some nd) :
    ∃ h', linkChunk p i n h = .ok ((), h')
      ∧ (∀ j, i ≤ j → j < nodeChunk → ∃ nd, h'.node (nodeAt p j) = some nd
          ∧ nd.left = if j + 1 < nodeChunk then nodeAt p (j + 1) else 0)
      ∧ (∀ q, (∀ j, i ≤ j → j < nodeChunk → q ≠ nodeAt p j) →
          h'.node q = h.node q)
      ∧ h'.root = h.root ∧ h'.freeList = h.freeList
      ∧ h'.chunks = h.chunks := by
  induction n generalizing i h with
  | zero =>
      refine ⟨h, rfl, fun j hj hlt => ?_, fun _ _ => rfl, rfl, rfl, rfl⟩
      omega
  | succ n ih =>
      obtain ⟨nd, hnd⟩ := hmap i (by omega)
      let h₁ := h.set (nodeAt p i) (nd.setChild .left
        (if i + 1 < nodeChunk then nodeAt p (i + 1) else 0))
      have hmap₁ : ∀ j, j < nodeChunk → ∃ nd, h₁.node (nodeAt p j) = some nd := by
        intro j hj
        by_cases hji : j = i
        · subst hji
          exact ⟨_, set_node_same⟩
        · obtain ⟨nd', hnd'⟩ := hmap j hj
          exact ⟨nd', (set_node_ne fun heq => hji (nodeAt_inj heq)).trans hnd'⟩
      have hin₁ : i + 1 + n = nodeChunk := by omega
      obtain ⟨h₂, hrun, hlinks, hrest, hroot, hfree, hchunks⟩ :=
        ih hin₁ hmap₁
      have hstep : setChild (nodeAt p i) .left
          (if i + 1 < nodeChunk then nodeAt p (i + 1) else 0) h
            = .ok ((), h₁) := modify_ok hnd
      refine ⟨h₂, ?_, fun j hj hlt => ?_, fun q hq => ?_, hroot, hfree,
        hchunks⟩
      · rw [linkChunk, bind_ok hstep, hrun]
      · by_cases hji : j = i
        · subst hji
          refine ⟨_, (hrest _ fun j' hj' _ heq => ?_).trans set_node_same, rfl⟩
          have := nodeAt_inj heq
          omega
        · exact hlinks j (by omega) hlt
      · rw [hrest q fun j hj hlt => hq j (by omega) hlt]
        exact set_node_ne (hq i (Nat.le_refl i) (by omega))

/-- The nodes of a chunk, in address order. -/
def chunkNodes (ptr₀ : Ptr) : List Ptr :=
  (List.range' 0 nodeChunk).map (nodeAt ptr₀)

theorem mem_chunkNodes : p ∈ chunkNodes ptr₀ ↔ inChunk ptr₀ p := by
  rw [chunkNodes, List.mem_map, inChunk_iff]
  constructor
  · intro ⟨i, hi, hp⟩
    rw [List.mem_range'_1] at hi
    exact ⟨i, by omega, hp.symm⟩
  · intro ⟨i, hi, hp⟩
    refine ⟨i, ?_, hp.symm⟩
    rw [List.mem_range'_1]
    omega

theorem nodup_chunkNodes : (chunkNodes ptr₀).Nodup :=
  List.Nodup.map (fun _ _ => nodeAt_inj) (List.nodup_range' 1)

theorem linkedSeg_chunk {next : Ptr → Ptr} {i n : Nat}
    (hin : i + n = nodeChunk)
    (hnext : ∀ j, i ≤ j → j < nodeChunk → next (nodeAt p j)
      = if j + 1 < nodeChunk then nodeAt p (j + 1) else 0) :
    LinkedSeg next (if i < nodeChunk then nodeAt p i else 0)
      ((List.range' i n).map (nodeAt p)) 0 := by
  induction n generalizing i with
  | zero =>
      rw [if_neg (by omega)]
      rfl
  | succ n ih =>
      rw [if_pos (by omega)]
      refine ⟨rfl, ?_⟩
      rw [hnext i (Nat.le_refl i) (by omega)]
      exact ih (by omega) fun j hj => hnext j (by omega)

/-- A node of a chunk is not null and lies in no other chunk. -/
theorem FreshChunks.ne_null_of_inChunk (hos : FreshChunks os) {n : Nat}
    (hp : inChunk (os n) p) : p ≠ 0 := by
  rw [inChunk, decide_eq_true_eq] at hp
  intro h0
  rw [h0] at hp
  exact hos.ne_null n (Nat.le_zero.1 hp.1)

theorem FreshChunks.eq_of_inChunk (hos : FreshChunks os) {i j : Nat}
    (hi : inChunk (os i) p) (hj : inChunk (os j) p) : i = j := by
  rw [inChunk, decide_eq_true_eq] at hi hj
  by_cases hij : i = j
  · exact hij
  · exfalso
    rcases hos.disjoint i j hij with hle | hle
    · exact absurd (Nat.le_trans hle hj.1) (Nat.not_le_of_lt hi.2.1)
    · exact absurd (Nat.le_trans hle hi.1) (Nat.not_le_of_lt hj.2.1)

/-- An empty free list is refilled with a fresh chunk. -/
theorem allocChunk_ok (hos : FreshChunks os) (I : Inv os h t []) :
    ∃ h', allocChunk os h = .ok ((), h')
      ∧ Inv os h' t (chunkNodes (os h.chunks)) := by
  have hnull : h.freeList = 0 := I.free
  -- nothing of the new chunk was mapped
  have hfresh : ∀ p, inChunk (os h.chunks) p → p ∉ addrs t := by
    intro p hp hm
    obtain ⟨n, hn, hp'⟩ := I.chunk p ((I.mapped p).2 (List.mem_append_left _ hm))
    have heq := hos.eq_of_inChunk hp hp'
    omega
  let h₁ : RBTree := { h with
    node := fun p => if inChunk (os h.chunks) p then some zeroNode else h.node p
    chunks := h.chunks + 1 }
  have hin : ∀ j, j < nodeChunk → inChunk (os h.chunks) (nodeAt (os h.chunks) j) :=
    fun j hj => inChunk_iff.2 ⟨j, hj, rfl⟩
  have hmap : ∀ j, j < nodeChunk →
      ∃ nd, h₁.node (nodeAt (os h.chunks) j) = some nd :=
    fun j hj => ⟨zeroNode, if_pos (hin j hj)⟩
  obtain ⟨h₂, hrun₂, hlinks, hrest, hroot₂, hfree₂, hchunks₂⟩ :=
    linkChunk_ok (Nat.zero_add nodeChunk) hmap
  obtain ⟨last, hlast, hlt⟩ : ∃ last, nodeChunk - 1 = last
      ∧ last + 1 = nodeChunk := ⟨_, rfl, rfl⟩
  obtain ⟨nd, hnd, -⟩ := hlinks last (Nat.zero_le _) (by omega)
  let h₃ := h₂.set (nodeAt (os h.chunks) last)
    (nd.setChild .left h₂.freeList)
  let h₄ : RBTree := { h₃ with freeList := os h.chunks }
  -- the last link is rewritten with the old head, which is null
  have hlinks₄ : ∀ j, j < nodeChunk → ∃ nd,
      h₄.node (nodeAt (os h.chunks) j) = some nd
        ∧ nd.left = if j + 1 < nodeChunk then nodeAt (os h.chunks) (j + 1)
          else 0 := by
    intro j hj
    by_cases hjl : j = last
    · subst hjl
      refine ⟨_, set_node_same, ?_⟩
      rw [if_neg (by omega)]
      exact hfree₂.trans hnull
    · obtain ⟨nd', hnd', hl'⟩ := hlinks j (Nat.zero_le _) hj
      exact ⟨nd', (set_node_ne fun heq => hjl (nodeAt_inj heq)).trans hnd', hl'⟩
  have hout : ∀ p, ¬ inChunk (os h.chunks) p → h₄.node p = h.node p := by
    intro p hp
    have hne : ∀ j, j < nodeChunk → p ≠ nodeAt (os h.chunks) j :=
      fun j hj heq => hp (heq ▸ hin j hj)
    rw [show h₄.node p = h₂.node p from set_node_ne (hne _ (by omega)),
      hrest p fun j _ hj => hne j hj]
    exact if_neg hp
  have hsome : ∀ p, (h₄.node p).isSome
      ↔ p ∈ addrs t ++ chunkNodes (os h.chunks) := by
    intro p
    rw [List.mem_append, mem_chunkNodes]
    by_cases hp : inChunk (os h.chunks) p
    · obtain ⟨j, hj, heq⟩ := inChunk_iff.1 hp
      obtain ⟨nd', hnd', -⟩ := hlinks₄ j hj
      rw [heq] at hp ⊢
      simp [hnd', hp]
    · rw [hout p hp, I.mapped p, List.append_nil]
      simp [hp]
  refine ⟨h₄, ?_, ⟨?_, ?_, ?_, fun _ _ => rfl, rfl, rfl⟩, ?_, ?_, hsome, ?_,
    I.sorted, I.balanced⟩
  · have hset : setChild (nodeAt (os h.chunks) last) .left
        h₂.freeList h₂ = .ok ((), h₃) := modify_ok hnd
    rw [allocChunk, hlast, bind_ok (show mapChunk os h = .ok (os h.chunks, h₁) from rfl),
      bind_ok hrun₂,
      bind_ok (show loadFreeList h₂ = .ok (h₂.freeList, h₂) from rfl),
      bind_ok hset]
    rfl
  · show h₄.root = _
    rw [show h₄.root = h.root from hroot₂]
    exact I.focus.frames
  · exact I.focus.tree.congr fun p hp => hout p fun hc => hfresh p hc hp
  · exact I.focus.nodup
  · have hseg : LinkedSeg (freeNext h₄)
        (if 0 < nodeChunk then nodeAt (os h.chunks) 0 else 0)
        (chunkNodes (os h.chunks)) 0 := by
      refine linkedSeg_chunk (Nat.zero_add nodeChunk) fun j _ hj => ?_
      obtain ⟨nd', hnd', hl'⟩ := hlinks₄ j hj
      rw [freeNext_eq hnd', hl']
    rw [if_pos (by decide)] at hseg
    have hbase : nodeAt (os h.chunks) 0 = os h.chunks := by
      rw [nodeAt, Nat.zero_mul, Nat.add_zero]
    rw [hbase] at hseg
    exact hseg
  · refine List.nodup_append.2 ⟨?_, nodup_chunkNodes, ?_⟩
    · have hnd := I.nodup
      rwa [List.append_nil] at hnd
    · intro a ha b hb heq
      subst heq
      exact hfresh a (mem_chunkNodes.1 hb) ha
  · intro p hp
    rw [hsome, List.mem_append, mem_chunkNodes] at hp
    rcases hp with hp | hp
    · obtain ⟨n, hn, hc⟩ := I.chunk p ((I.mapped p).2 (List.mem_append_left _ hp))
      refine ⟨n, ?_, hc⟩
      rw [show h₄.chunks = h.chunks + 1 from hchunks₂]
      omega
    · refine ⟨h.chunks, ?_, hp⟩
      rw [show h₄.chunks = h.chunks + 1 from hchunks₂]
      omega

/-- `alloc_node` always finds a free node. -/
theorem ensureFree_ok (hos : FreshChunks os) (I : Inv os h t fl) :
    ∃ h' z fl', ensureFree os h = .ok ((), h') ∧ Inv os h' t (z :: fl') := by
  have hload : loadFreeList h = .ok (h.freeList, h) := rfl
  rw [ensureFree, bind_ok hload]
  cases fl with
  | nil =>
      obtain ⟨h', hrun, I'⟩ := allocChunk_ok hos I
      rw [if_pos (show h.freeList = 0 from I.free)]
      exact ⟨h', _, _, hrun, I'⟩
  | cons z fl =>
      have hz : (h.node z).isSome :=
        (I.mapped z).2 (List.mem_append_right _ List.mem_cons_self)
      obtain ⟨n, -, hc⟩ := I.chunk z hz
      have h0 : h.freeList ≠ 0 := by
        rw [I.free.1]
        exact hos.ne_null_of_inChunk hc
      rw [if_neg h0]
      exact ⟨h, z, fl, rfl, I⟩

/-- The invariant of a heap that holds a tree and is otherwise as `h₀`,
where the free nodes are those of `fl`. -/
theorem inv_of_focus (F : Focus h₀ h [] t)
    (hfree : LinkedSeg (freeNext h₀) h₀.freeList fl 0)
    (hnodup : (addrs t ++ fl).Nodup)
    (hmapped : ∀ p, p ∉ addrs t → ((h₀.node p).isSome ↔ p ∈ fl))
    (hchunk : ∀ p ∈ addrs t ++ fl, ∃ n, n < h₀.chunks ∧ inChunk (os n) p)
    (hsorted : Sorted t.entries) (hbal : ∃ m, Balanced t .black m) :
    Inv os h t fl := by
  have hcross := (List.nodup_append.1 hnodup).2.2
  have hout : ∀ p, p ∉ addrs t → h.node p = h₀.node p := by
    intro p hp
    refine F.outside p ?_
    rwa [frameAddrs, List.append_nil]
  have hsome : ∀ p, (h.node p).isSome ↔ p ∈ addrs t ++ fl := by
    intro p
    rw [List.mem_append]
    by_cases hp : p ∈ addrs t
    · simp only [hp, true_or, iff_true]
      exact F.tree.isSome_of_mem hp
    · rw [hout p hp, hmapped p hp]
      simp [hp]
  refine ⟨⟨F.frames, F.tree, F.nodup, fun _ _ => rfl, rfl, rfl⟩, ?_, hnodup,
    hsome, fun p hp => ?_, hsorted, hbal⟩
  · rw [F.freeList]
    refine hfree.congr fun p hp => freeNext_congr (hout p ?_)
    exact fun hm => hcross p hm p hp rfl
  · rw [F.chunks]
    exact hchunk p ((hsome p).1 hp)

-- ============================================================== insert

theorem sorted_insert {l₁ l₂ : List Entry} {e : Entry}
    (hs : Sorted (l₁ ++ l₂)) (h₁ : ∀ x ∈ l₁, x.key < e.key)
    (h₂ : ∀ x ∈ l₂, e.key < x.key) : Sorted (l₁ ++ e :: l₂) := by
  obtain ⟨hl₁, hl₂, hcross⟩ := List.pairwise_append.1 hs
  refine List.pairwise_append.2 ⟨hl₁, List.pairwise_cons.2 ⟨h₂, hl₂⟩, ?_⟩
  intro a ha b hb
  rcases List.mem_cons.1 hb with hb | hb
  · rw [hb]
    exact h₁ a ha
  · exact hcross a ha b hb

/-- The new node is hung where the descent ended. -/
theorem linkNew_ok {z : Ptr} (hfs : FramesAt h.node h.root fs 0)
    (hz : Zoomed k fs) (hnodup : (frameAddrs fs).Nodup) :
    ∃ h', linkNew k (top fs) z h = .ok ((), h')
      ∧ FramesAt h'.node h'.root fs z ∧ Writes (frameAddrs fs) h h' := by
  cases fs with
  | nil => exact ⟨_, rfl, rfl, fun _ _ => rfl, rfl, rfl⟩
  | cons f fs =>
      have hset := hfs.set_hole hnodup z
      obtain ⟨hf0, hf, -, -⟩ := hfs
      have hwrite : linkNew k (top (f :: fs)) z h = .ok ((), h.set f.entry.addr
          (nodeOf f.side f.color f.entry z (ptr f.sibling) (top fs))) := by
        rw [top_cons, linkNew, if_neg hf0, bind_ok (load_ok hf), nodeOf_key]
        obtain ⟨d, c, e, s⟩ := f
        cases d with
        | left => rw [if_pos hz.1, setChild, modify_ok hf, nodeOf_setChild]
        | right =>
            rw [if_neg (Nat.not_lt_of_gt hz.1), setChild, modify_ok hf,
              nodeOf_setChild]
      exact ⟨_, hwrite, hset⟩

theorem addrs_zip_nil : (addrs (zip fs .nil)).Perm (frameAddrs fs) := by
  have hperm : (addrs .nil ++ frameAddrs (fs ++ [])).Perm
      (addrs (zip fs .nil) ++ frameAddrs []) := zip_perm
  simp only [frameAddrs, addrs_nil, List.nil_append, List.append_nil] at hperm
  exact hperm.symm

/-- A free node takes the key and joins the tree in the empty place. -/
theorem attach_ok (hos : FreshChunks os) (I : Inv os h (zip fs .nil) fl)
    (hfuel : fs.length < fuel) (hzoom : Zoomed k fs) :
    ∃ h' t' fl' z, (do
        let z ← allocNode os k m
        modify z fun n => { n with parent := top fs }
        linkNew k (top fs) z
        insertFixup fuel z : M Unit) h = .ok ((), h')
      ∧ Inv os h' t' fl'
      ∧ t'.entries = before fs ++ ⟨z, k, m⟩ :: after fs := by
  obtain ⟨h₁, z, fl', hrun₁, I₁⟩ := ensureFree_ok hos I
  -- `z` is free: not null, not in the tree, not again on the list
  have hzsome : (h₁.node z).isSome :=
    (I₁.mapped z).2 (List.mem_append_right _ List.mem_cons_self)
  obtain ⟨nz, hnz⟩ := Option.isSome_iff_exists.1 hzsome
  obtain ⟨i, hi, hzc⟩ := I₁.chunk z hzsome
  have hz0 : z ≠ 0 := hos.ne_null_of_inChunk hzc
  obtain ⟨htn, hflz, hcross⟩ := List.nodup_append.1 I₁.nodup
  obtain ⟨hzfl, hfln⟩ := List.nodup_cons.1 hflz
  have hmem : ∀ p, p ∈ addrs (zip fs .nil) ↔ p ∈ frameAddrs fs :=
    fun p => addrs_zip_nil.mem_iff
  have hzfs : z ∉ frameAddrs fs := fun hm =>
    hcross z ((hmem z).2 hm) z List.mem_cons_self rfl
  have hfn : (frameAddrs fs).Nodup := addrs_zip_nil.nodup_iff.1 htn
  have hhead : h₁.freeList = z := I₁.free.1
  have hnext : LinkedSeg (freeNext h₁) nz.left fl' 0 := by
    have hseg := I₁.free.2
    rwa [freeNext_eq hnz] at hseg
  -- the node is taken off the list and filled in
  let h₂ : RBTree := { h₁ with freeList := nz.left }
  let h₃ := h₂.set z ⟨k, m, 0, 0, 0, .red⟩
  let h₄ := h₃.set z ⟨k, m, 0, 0, top fs, .red⟩
  have hkeep : ∀ p, p ≠ z → h₄.node p = h₁.node p := fun p hp =>
    (set_node_ne hp).trans (set_node_ne hp)
  have F₁ : Focus h₁ h₁ fs .nil := focus_root.2 I₁.focus
  have hfs₄ : FramesAt h₄.node h₄.root fs 0 :=
    F₁.frames.congr fun p hp => hkeep p fun heq => hzfs (heq ▸ hp)
  obtain ⟨h₅, hrun₅, hfs₅, hw₅⟩ := linkNew_ok (z := z) hfs₄ hzoom hfn
  have F₅ : Focus h₄ h₅ fs (.node .left .red .nil ⟨z, k, m⟩ .nil) := by
    refine ⟨?_, treeAt_node.2 ⟨hz0, ?_, trivial, trivial⟩, ?_, fun p hp => ?_,
      hw₅.freeList, hw₅.chunks⟩
    · rw [ptr_node]
      exact hfs₅
    · exact (hw₅.node z hzfs).trans set_node_same
    · exact List.nodup_cons.2 ⟨hzfs, hfn⟩
    · refine hw₅.node p fun hm => hp (List.mem_append_right _ hm)
  obtain ⟨m₁, hbal₁⟩ := I₁.balanced
  obtain ⟨c, n, hnil, hhole, -⟩ := hbal₁.unzip
  obtain rfl : n = 0 := by
    cases hnil
    rfl
  have hnew : Balanced (.node .left .red .nil (⟨z, k, m⟩ : Entry) .nil)
      .red 0 := Balanced.nil.node_red .nil
  obtain ⟨h₆, t', hrun₆, F₆, hentries, hbal⟩ :=
    insertFixup_ok F₅ hnew hhole hfuel
  rw [ptr_node] at hrun₆
  have hent : t'.entries = before fs ++ ⟨z, k, m⟩ :: after fs := by
    rw [hentries, entries_zip]
    simp [ColorTree.node]
  have hent₁ : (zip fs .nil).entries = before fs ++ after fs := by
    rw [entries_zip, ColorTree.entries_nil, List.append_nil]
  have haddrs : (addrs t').Perm (z :: addrs (zip fs .nil)) := by
    rw [addrs, addrs, hent, hent₁]
    exact List.perm_middle.map Entry.addr
  refine ⟨h₆, t', fl', z, ?_, inv_of_focus F₆ ?_ ?_ ?_ ?_ ?_ hbal, hent⟩
  · have hload : loadFreeList h₁ = .ok (z, h₁) := by
      rw [loadFreeList, hhead]
    have hstore : storeFreeList (nz.child .left) h₁ = .ok ((), h₂) := rfl
    have halloc : allocNode os k m h = .ok (z, h₃) := by
      rw [allocNode, bind_ok hrun₁, bind_ok hload, bind_ok (child_ok hnz),
        bind_ok hstore, bind_ok (modify_ok (show h₂.node z = some nz from hnz))]
      rfl
    have hparent : modify z (fun n => { n with parent := top fs }) h₃
        = .ok ((), h₄) := modify_ok set_node_same
    rw [bind_ok halloc, bind_ok hparent, bind_ok hrun₅, hrun₆]
  · refine hnext.congr fun p hp => freeNext_congr (hkeep p ?_)
    exact fun heq => hzfl (heq ▸ hp)
  · refine (haddrs.append_right _).nodup_iff.2 ?_
    exact (List.perm_middle.nodup_iff).1 I₁.nodup
  · intro p hp
    rw [haddrs.mem_iff, List.mem_cons, not_or] at hp
    rw [hkeep p hp.1, I₁.mapped p, List.mem_append, List.mem_cons]
    simp [hp]
  · intro p hp
    refine I₁.chunk p ((I₁.mapped p).2 ?_)
    rw [List.mem_append, haddrs.mem_iff] at hp
    rw [List.mem_append, List.mem_cons]
    rw [List.mem_cons] at hp
    tauto
  · rw [hent]
    have hs := I₁.sorted
    obtain ⟨hbefore, hafter⟩ := hzoom.bounds hs
    rw [hent₁] at hs
    exact sorted_insert hs hbefore hafter

/-- New metadata at a node of the tree. -/
theorem setMeta_inv {c : Color} {a b : ColorTree Entry} {e : Entry}
    (I : Inv os h (zip fs (.node .left c a e b)) fl)
    (F : Focus h h' fs (.node .left c a ⟨e.addr, e.key, m⟩ b)) :
    Inv os h' (zip fs (.node .left c a ⟨e.addr, e.key, m⟩ b)) fl
      ∧ lookup (zip fs (.node .left c a ⟨e.addr, e.key, m⟩ b)).entries
        = Function.update (lookup (zip fs (.node .left c a e b)).entries)
          e.key (some m)
      ∧ (zip fs (.node .left c a ⟨e.addr, e.key, m⟩ b)).entries.length
        = (zip fs (.node .left c a e b)).entries.length := by
  have haddrs : addrs (zip fs (.node .left c a ⟨e.addr, e.key, m⟩ b))
      = addrs (zip fs (.node .left c a e b)) := by
    simp only [addrs, entries_zip_node, List.map_append, List.map_cons]
  have hs := I.sorted
  rw [entries_zip_node] at hs
  have hne := hs.key_ne
  refine ⟨inv_of_focus (focus_root.1 F) I.free ?_ ?_ ?_ ?_ ?_, ?_, ?_⟩
  · rw [haddrs]
    exact I.nodup
  · intro p hp
    rw [haddrs] at hp
    rw [I.mapped p, List.mem_append]
    simp [hp]
  · intro p hp
    rw [haddrs] at hp
    exact I.chunk p ((I.mapped p).2 hp)
  · rw [entries_zip_node]
    obtain ⟨h₁, h₂, hcross⟩ := List.pairwise_append.1 hs
    obtain ⟨hlt, h₃⟩ := List.pairwise_cons.1 h₂
    refine List.pairwise_append.2 ⟨h₁, List.pairwise_cons.2 ⟨hlt, h₃⟩, ?_⟩
    intro x hx y hy
    rcases List.mem_cons.1 hy with hy | hy
    · rw [hy]
      exact hcross x hx e List.mem_cons_self
    · exact hcross x hx y (List.mem_cons_of_mem _ hy)
  · obtain ⟨n, hbal⟩ := I.balanced
    obtain ⟨c', n', hnode, hhole, htop⟩ := hbal.unzip
    exact hhole.fill (hnode.set_entry _) htop
  · rw [entries_zip_node, entries_zip_node, lookup_insert hne,
      lookup_insert (e := ⟨e.addr, e.key, m⟩) hne, Function.update_idem]
  · rw [entries_zip_node, entries_zip_node]
    simp only [List.length_append, List.length_cons]

/-- `insert` updates the map at its key. -/
theorem insert_ok (hos : FreshChunks os) (I : Inv os h t fl)
    (hfuel : t.entries.length < fuel) :
    ∃ h' t' fl', RbTree.insert os fuel k m h = .ok ((), h')
      ∧ Inv os h' t' fl'
      ∧ lookup t'.entries = Function.update (lookup t.entries) k (some m)
      ∧ t'.entries.length ≤ t.entries.length + 1 := by
  have hroot := I.focus.loadRoot_ok
  rw [RbTree.insert, treeInsert, bind_ok hroot]
  rcases treeInsertLoop_ok (k := k) (m := m) I.focus hfuel with
    ⟨hnil, hrun⟩ | ⟨c, a, e, b, h₁, hnode, hrun, F₁⟩
  · obtain ⟨hzip, hzoom, hentries, hne⟩ := seek_nil I.sorted hnil
    rw [hentries] at hne
    have hlen : (seek k [] t).1.length < fuel := by
      have hle := length_add_le_entries_zip (seek k [] t).1 .nil
      rw [← hzip] at hle
      omega
    obtain ⟨h', t', fl', z, hrun', I', hent⟩ :=
      attach_ok (m := m) hos (hzip ▸ I) hlen hzoom
    refine ⟨h', t', fl', ?_, I', ?_, ?_⟩
    · rw [top_nil] at hrun
      rw [bind_ok hrun]
      exact hrun'
    · rw [hent, hentries]
      exact lookup_insert (e := ⟨z, k, m⟩) hne
    · rw [hent, hentries]
      simp only [List.length_append, List.length_cons]
      omega
  · obtain ⟨hkey, hzip, -⟩ := seek_node I.sorted hnode
    obtain ⟨I', hlookup, hlen⟩ := setMeta_inv (hzip ▸ I) F₁
    rw [← hzip] at hlookup hlen
    refine ⟨h₁, _, fl, ?_, I', by rw [hlookup, hkey], by omega⟩
    rw [top_nil] at hrun
    rw [bind_ok hrun]
    rfl

-- ====================================================== get and replace

/-- `find_node` answers with null when the key is absent, otherwise with
the node that has it. -/
theorem findNode_cases (I : Inv os h t fl) (hfuel : t.entries.length < fuel) :
    (findNode fuel k h = .ok (0, h) ∧ lookup t.entries k = none)
    ∨ ∃ fs c a e b, findNode fuel k h = .ok (e.addr, h) ∧ e.key = k
      ∧ t = zip fs (.node .left c a e b)
      ∧ lookup t.entries k = some e.bigMeta
      ∧ Focus h h fs (.node .left c a e b) := by
  have hfind : findNode fuel k h = .ok (ptr (seek k [] t).2, h) := by
    rw [findNode, bind_ok I.focus.loadRoot_ok, findNodeLoop_ok I.focus hfuel]
  rcases (seek k [] t).2.eq_nil_or_node .left with hnil | ⟨c, a, e, b, hnode⟩
  · obtain ⟨-, -, -, hne⟩ := seek_nil I.sorted hnil
    rw [hnil, ptr_nil] at hfind
    exact Or.inl ⟨hfind, lookup_eq_none hne⟩
  · obtain ⟨hkey, hzip, hlookup⟩ := seek_node I.sorted hnode
    rw [hnode, ptr_node] at hfind
    exact Or.inr ⟨_, c, a, e, b, hfind, hkey, hzip, hlookup,
      focus_root.2 (hzip ▸ I.focus)⟩

theorem get_ok (I : Inv os h t fl) (hfuel : t.entries.length < fuel) :
    RbTree.get fuel k h = .ok (lookup t.entries k, h) := by
  rcases findNode_cases I hfuel with
    ⟨hfind, hnone⟩ | ⟨fs, c, a, e, b, hfind, -, -, hlookup, F⟩
  · rw [RbTree.get, bind_ok hfind, if_pos rfl, hnone]
    rfl
  · rw [RbTree.get, bind_ok hfind, if_neg F.addr_ne_null,
      bind_ok (load_ok F.node_eq), nodeOf_bigMeta, hlookup]
    rfl

/-- `replace` changes only a present key. -/
theorem replace_ok (I : Inv os h t fl) (hfuel : t.entries.length < fuel) :
    ∃ h' t', RbTree.replace fuel k m h = .ok (lookup t.entries k, h')
      ∧ Inv os h' t' fl
      ∧ lookup t'.entries = (if (lookup t.entries k).isSome then
          Function.update (lookup t.entries) k (some m) else lookup t.entries)
      ∧ t'.entries.length = t.entries.length := by
  rcases findNode_cases (k := k) I hfuel with
    ⟨hfind, hnone⟩ | ⟨fs, c, a, e, b, hfind, hkey, rfl, hlookup, F⟩
  · refine ⟨h, t, ?_, I, ?_, rfl⟩
    · rw [RbTree.replace, bind_ok hfind, if_pos rfl, hnone]
      rfl
    · rw [hnone]
      rfl
  · have F₁ := F.set_record c ⟨e.addr, e.key, m⟩ rfl
    obtain ⟨I', hlookup', hlen⟩ := setMeta_inv I F₁
    refine ⟨_, _, ?_, I', ?_, hlen⟩
    · rw [RbTree.replace, bind_ok hfind, if_neg F.addr_ne_null,
        bind_ok (load_ok F.node_eq), bind_ok (modify_ok F.node_eq),
        nodeOf_bigMeta, hlookup]
      rfl
    · rw [hlookup, hlookup', hkey]
      rfl

-- ============================================================== remove

/-- `delete_node`: the entry is gone and its node is free again. -/
theorem deleteNode_ok {c : Color} {a b : ColorTree Entry} {e : Entry}
    (I : Inv os h (zip fs (.node .left c a e b)) fl)
    (hfuel : (zip fs (.node .left c a e b)).entries.length < fuel) :
    ∃ h' t', deleteNode fuel e.addr h = .ok ((), h')
      ∧ Inv os h' t' (e.addr :: fl)
      ∧ t'.entries = (before fs ++ a.entries) ++ (b.entries ++ after fs) := by
  have F : Focus h h fs (.node .left c a e b) := focus_root.2 I.focus
  have hent : (zip fs (.node .left c a e b)).entries
      = (before fs ++ a.entries) ++ e :: (b.entries ++ after fs) :=
    entries_zip_node
  obtain ⟨n, hbal⟩ := I.balanced
  have hblen : b.entries.length ≤ fuel := by
    rw [hent] at hfuel
    simp only [List.length_append, List.length_cons] at hfuel
    omega
  obtain ⟨h₁, fs₁, x, c₁, hrun₁, F₁, hent₁, hred, hblack⟩ :=
    unlinkNode_ok F hbal hblen
  -- the repair, when a black node left its place
  have hrepair : ∃ h₂ t₂, deleteNode.rebalance fuel (c₁, ptr x, top fs₁) h₁
        = .ok ((), h₂)
      ∧ Focus h h₂ [] t₂ ∧ t₂.entries = (zip fs₁ x).entries
      ∧ ∃ m, Balanced t₂ .black m := by
    cases c₁ with
    | red => exact ⟨h₁, _, rfl, focus_root.1 F₁, rfl, hred rfl⟩
    | black =>
        obtain ⟨i, hshort, hhole⟩ := hblack rfl
        have hlen : fs₁.length < fuel := by
          have hle := length_add_le_entries_zip fs₁ x
          rw [hent₁] at hle
          rw [hent] at hfuel
          simp only [List.length_append, List.length_cons] at hfuel hle
          omega
        exact deleteFixup_ok F₁ hshort hhole hlen
  obtain ⟨h₂, t₂, hrun₂, F₂, hent₂, hbal₂⟩ := hrepair
  have hent' : t₂.entries
      = (before fs ++ a.entries) ++ (b.entries ++ after fs) := by
    rw [hent₂, hent₁]
    simp
  have hperm : (addrs (zip fs (.node .left c a e b))).Perm
      (e.addr :: addrs t₂) := by
    rw [addrs, addrs, hent, hent']
    exact List.perm_middle.map Entry.addr
  obtain ⟨henot, -⟩ := List.nodup_cons.1
    (hperm.nodup_iff.1 (List.nodup_append.1 I.nodup).1)
  -- the node is still mapped, with the record it had in the tree
  have he₂ : h₂.node e.addr
      = some (nodeOf .left c e (ptr a) (ptr b) (top fs)) := by
    refine (F₂.outside _ ?_).trans F.node_eq
    rwa [frameAddrs, List.append_nil]
  let h₃ := h₂.set e.addr ((nodeOf .left c e (ptr a) (ptr b) (top fs)).setChild
    .left h₂.freeList)
  let h₄ : RBTree := { h₃ with freeList := e.addr }
  have hkeep : ∀ p, p ≠ e.addr → p ∉ addrs t₂ → h₄.node p = h.node p := by
    intro p hpe hp
    rw [show h₄.node p = h₂.node p from set_node_ne hpe]
    refine F₂.outside p ?_
    rwa [frameAddrs, List.append_nil]
  have F₄ : Focus h₄ h₄ [] t₂ := by
    refine ⟨F₂.frames, ?_, F₂.nodup, fun _ _ => rfl, rfl, rfl⟩
    exact F₂.tree.congr fun p hp => set_node_ne fun heq => henot (heq ▸ hp)
  have hnodup : (addrs t₂ ++ e.addr :: fl).Nodup := by
    refine List.perm_middle.nodup_iff.2 ?_
    exact (hperm.append_right fl).nodup_iff.1 I.nodup
  have hcross := (List.nodup_append.1 hnodup).2
  refine ⟨h₄, t₂, ?_, inv_of_focus F₄ ?_ hnodup ?_ ?_ ?_ hbal₂, hent'⟩
  · have hset : setChild e.addr .left h₂.freeList h₂ = .ok ((), h₃) :=
      modify_ok he₂
    have hfree : freeNode e.addr h₂ = .ok ((), h₄) := by
      rw [freeNode,
        bind_ok (show loadFreeList h₂ = .ok (h₂.freeList, h₂) from rfl),
        bind_ok hset]
      rfl
    rw [deleteNode, bind_ok hrun₁, bind_ok hrun₂, hfree]
  · refine ⟨rfl, ?_⟩
    rw [freeNext_eq (show h₄.node e.addr = _ from set_node_same)]
    have hhead : h₂.freeList = h.freeList := F₂.freeList
    have hseg := I.free
    rw [← hhead] at hseg
    refine hseg.congr fun p hp => freeNext_congr (hkeep p ?_ ?_)
    · exact fun heq => (List.nodup_cons.1 hcross.1).1 (heq ▸ hp)
    · exact fun hm => hcross.2 p hm p (List.mem_cons_of_mem _ hp) rfl
  · intro p hp
    rw [List.mem_cons]
    by_cases hpe : p = e.addr
    · subst hpe
      rw [show h₄.node e.addr = _ from set_node_same]
      simp
    · rw [hkeep p hpe hp, I.mapped p, List.mem_append, hperm.mem_iff,
        List.mem_cons]
      simp [hpe, hp]
  · intro p hp
    have hmem : p ∈ addrs (zip fs (.node .left c a e b)) ++ fl := by
      rw [List.mem_append, hperm.mem_iff, List.mem_cons]
      rw [List.mem_append, List.mem_cons] at hp
      tauto
    obtain ⟨i, hi, hc⟩ := I.chunk p ((I.mapped p).2 hmem)
    exact ⟨i, by rw [show h₄.chunks = h.chunks from F₂.chunks]; exact hi, hc⟩
  · have hs := I.sorted
    rw [hent] at hs
    rw [hent']
    exact hs.sublist ((List.sublist_cons_self e _).append_left _)

/-- `remove` deletes exactly its key. -/
theorem remove_ok (I : Inv os h t fl) (hfuel : t.entries.length < fuel) :
    ∃ h' t' fl', RbTree.remove fuel k h = .ok (lookup t.entries k, h')
      ∧ Inv os h' t' fl'
      ∧ lookup t'.entries = Function.update (lookup t.entries) k none
      ∧ t'.entries.length ≤ t.entries.length := by
  rcases findNode_cases (k := k) I hfuel with
    ⟨hfind, hnone⟩ | ⟨fs, c, a, e, b, hfind, hkey, rfl, hlookup, F⟩
  · refine ⟨h, t, fl, ?_, I, ?_, Nat.le_refl _⟩
    · rw [RbTree.remove, bind_ok hfind, if_pos rfl, hnone]
      rfl
    · rw [← hnone, Function.update_eq_self]
  · obtain ⟨h', t', hrun, I', hent'⟩ := deleteNode_ok I hfuel
    refine ⟨h', t', _, ?_, I', ?_, ?_⟩
    · rw [RbTree.remove, bind_ok hfind, if_neg F.addr_ne_null,
        bind_ok (load_ok F.node_eq), bind_ok hrun, nodeOf_bigMeta, hlookup]
      rfl
    · have hs := I.sorted
      rw [entries_zip_node] at hs
      rw [hent', entries_zip_node, lookup_remove hs.key_ne, hkey]
    · rw [hent', entries_zip_node]
      simp only [List.length_append, List.length_cons]
      omega

-- =========================================================== histories

/-- One call keeps the invariant and does what the reference does. -/
theorem exec_ok (hos : FreshChunks os) (I : Inv os h t fl)
    (hfuel : t.entries.length < fuel) (call : Call) :
    ∃ h' t' fl', call.exec os fuel h
        = .ok (((lookup t.entries).step call).1, h')
      ∧ Inv os h' t' fl'
      ∧ lookup t'.entries = ((lookup t.entries).step call).2
      ∧ t'.entries.length ≤ t.entries.length + 1 := by
  cases call with
  | insert k m =>
      obtain ⟨h', t', fl', hrun, I', hlookup, hlen⟩ :=
        insert_ok (k := k) (m := m) hos I hfuel
      refine ⟨h', t', fl', ?_, I', hlookup, hlen⟩
      rw [Call.exec, bind_ok hrun]
      rfl
  | get k => exact ⟨h, t, fl, get_ok I hfuel, I, rfl, Nat.le_succ _⟩
  | replace k m =>
      obtain ⟨h', t', hrun, I', hlookup, hlen⟩ :=
        replace_ok (k := k) (m := m) I hfuel
      exact ⟨h', t', fl, hrun, I', hlookup, by omega⟩
  | remove k =>
      obtain ⟨h', t', fl', hrun, I', hlookup, hlen⟩ := remove_ok (k := k) I hfuel
      exact ⟨h', t', fl', hrun, I', hlookup, by omega⟩

theorem run_ok (hos : FreshChunks os) (I : Inv os h t fl)
    (calls : List Call) (hfuel : t.entries.length + calls.length < fuel) :
    ∃ h' t' fl', run os fuel calls h
        = .ok ((lookup t.entries).run calls, h')
      ∧ Inv os h' t' fl' := by
  induction calls generalizing h t fl with
  | nil => exact ⟨h, t, fl, rfl, I⟩
  | cons call calls ih =>
      rw [List.length_cons] at hfuel
      have hfuel₀ : t.entries.length < fuel := by omega
      obtain ⟨h₁, t₁, fl₁, hrun₁, I₁, hlookup, hlen⟩ :=
        exec_ok hos I hfuel₀ call
      have hfuel₁ : t₁.entries.length + calls.length < fuel := by omega
      obtain ⟨h₂, t₂, fl₂, hrun₂, I₂⟩ := ih I₁ hfuel₁
      refine ⟨h₂, t₂, fl₂, ?_, I₂⟩
      rw [run, bind_ok hrun₁, bind_ok hrun₂, hlookup]
      rfl

/-- Every history returns what a finite map returns; in particular no
call faults or runs out of fuel. -/
theorem rbtree_refines_map (hos : FreshChunks os) (calls : List Call)
    (hfuel : calls.length < fuel) :
    ∃ h, run os fuel calls RBTree.new
      = .ok (MetaMap.run (fun _ => none) calls, h) := by
  have hfuel₀ : (ColorTree.nil : ColorTree Entry).entries.length + calls.length
      < fuel := by
    rwa [ColorTree.entries_nil, List.length_nil, Nat.zero_add]
  obtain ⟨h, t, fl, hrun, -⟩ := run_ok hos inv_new calls hfuel₀
  exact ⟨h, hrun⟩

/-- Chunks mapped one after the other. -/
def adjacentChunks (n : Nat) : Ptr := (n + 1) * (nodeChunk * nodeSize)

theorem adjacentChunks_fresh : FreshChunks adjacentChunks := by
  constructor
  · intro n
    exact Nat.mul_ne_zero (Nat.succ_ne_zero n) (by decide)
  · intro i j hij
    unfold adjacentChunks
    rcases Nat.lt_or_gt_of_ne hij with hlt | hlt
    · left
      rw [← Nat.succ_mul]
      exact Nat.mul_le_mul_right _ (by omega)
    · right
      rw [← Nat.succ_mul]
      exact Nat.mul_le_mul_right _ (by omega)

theorem rbtree_refines_map_insert_remove :
    FreshChunks adjacentChunks
      ∧ ∃ h, run adjacentChunks 4
          [.insert 7 ⟨0, 4096, 0, 0, false⟩, .replace 7 ⟨0, 8192, 22, 0, true⟩,
            .remove 7] RBTree.new
        = .ok ([none, some ⟨0, 4096, 0, 0, false⟩,
            some ⟨0, 8192, 22, 0, true⟩], h) :=
  ⟨adjacentChunks_fresh, rbtree_refines_map adjacentChunks_fresh
    [.insert 7 ⟨0, 4096, 0, 0, false⟩, .replace 7 ⟨0, 8192, 22, 0, true⟩,
      .remove 7] (by decide)⟩

end RsMalloc.RbTree
