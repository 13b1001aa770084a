/-
The tree of nodes that threads share, seen through its paths.

`nodeAt m p` is the node the tree shows at a path of child indices.
`Tree` says that no two paths share a node, and that a node a thread
has mapped and not yet installed is on no path and still zero. Each
update of memory then has a simple effect: installing a node changes
one path, where nothing was; marking a word changes the chunks of that
word that the mask selects; mapping and unmapping change nothing.
-/
import RsMalloc.Radix.Shared
import RsMalloc.Radix.Proofs

namespace RsMalloc.RadixMap

open Conc

-- ================================================================= paths

/-- The node at a path from the top table; null where nothing is
installed. -/
def nodeAt (l0 : Nat) (m : Memory) (p : List Nat) : Nat :=
  p.foldl (fun a i => if a = 0 then 0 else m.table a i) l0

/-- The path of the leaf of a chunk. -/
def pathOf (c : Nat) : List Nat :=
  [(split c).1, (split c).2.1, (split c).2.2.1]

/-- What `Radix::get` answers in a memory at rest. -/
def chunkOwned (l0 : Nat) (m : Memory) (c : Nat) : Bool :=
  if radixMaxChunks ≤ c then false
  else if nodeAt l0 m (pathOf c) = 0 then false
  else leafBit (m.leaf (nodeAt l0 m (pathOf c))) (c % l3Size)

variable {l0 : Nat} {m m' : Memory} {p q : List Nat} {a b i v : Nat}

@[simp] theorem nodeAt_nil : nodeAt l0 m [] = l0 := rfl

theorem nodeAt_snoc (p : List Nat) (i : Nat) :
    nodeAt l0 m (p ++ [i])
      = if nodeAt l0 m p = 0 then 0 else m.table (nodeAt l0 m p) i := by
  unfold nodeAt
  rw [List.foldl_append]
  rfl

/-- Nothing is installed below a null entry. -/
theorem nodeAt_append_null (h : nodeAt l0 m p = 0) (q : List Nat) :
    nodeAt l0 m (p ++ q) = 0 := by
  induction q using List.reverseRecOn with
  | nil => simpa using h
  | append_singleton q i ih =>
      rw [← List.append_assoc, nodeAt_snoc, if_pos ih]

/-- Two chunks of one leaf have one path. -/
theorem pathOf_eq {c d : Nat} (hc : c < radixMaxChunks)
    (hd : d < radixMaxChunks) :
    pathOf d = pathOf c ↔ d / 4096 = c / 4096 := by
  rw [← split_path_eq hc hd]
  simp [pathOf]

/-- The nodes of the tree, and the nodes `F` that threads have mapped
and not installed. -/
structure Tree (l0 : Nat) (m : Memory) (F : Multiset Nat) : Prop where
  root : l0 ≠ 0
  depth : ∀ p, nodeAt l0 m p ≠ 0 → p.length ≤ 3
  inj : ∀ p q, nodeAt l0 m p ≠ 0 → nodeAt l0 m p = nodeAt l0 m q → p = q
  mapped : ∀ p, nodeAt l0 m p ≠ 0 → nodeAt l0 m p ∈ m.mapped
  apart : ∀ p, nodeAt l0 m p ∉ F
  fresh : ∀ a ∈ F, a ≠ 0 ∧ a ∈ m.mapped ∧ (∀ i, m.table a i = 0)
    ∧ ∀ w, m.leaf a w = 0
  nodup : F.Nodup

namespace Tree

variable {F : Multiset Nat}

/-- An update that moves no node. -/
theorem same (h : Tree l0 m F) (hnode : ∀ p, nodeAt l0 m' p = nodeAt l0 m p)
    {F' : Multiset Nat}
    (hmapped : ∀ p, nodeAt l0 m p ≠ 0 → nodeAt l0 m p ∈ m'.mapped)
    (hapart : ∀ p, nodeAt l0 m p ∉ F')
    (hfresh : ∀ a ∈ F', a ≠ 0 ∧ a ∈ m'.mapped ∧ (∀ i, m'.table a i = 0)
      ∧ ∀ w, m'.leaf a w = 0) (hnodup : F'.Nodup) : Tree l0 m' F' where
  root := h.root
  depth p := by
    rw [hnode p]
    exact h.depth p
  inj p q := by
    rw [hnode p, hnode q]
    exact h.inj p q
  mapped p := by
    rw [hnode p]
    exact hmapped p
  apart p := by
    rw [hnode p]
    exact hapart p
  fresh := hfresh
  nodup := hnodup

/-- Tables that agree on the nodes of the tree show the same tree. -/
theorem nodeAt_eq
    (htable : ∀ p, nodeAt l0 m p ≠ 0 →
      m'.table (nodeAt l0 m p) = m.table (nodeAt l0 m p)) (p : List Nat) :
    nodeAt l0 m' p = nodeAt l0 m p := by
  induction p using List.reverseRecOn with
  | nil => rfl
  | append_singleton p i ih =>
      rw [nodeAt_snoc, nodeAt_snoc, ih]
      by_cases hzero : nodeAt l0 m p = 0
      · rw [if_pos hzero, if_pos hzero]
      · rw [if_neg hzero, if_neg hzero, htable p hzero]

-- ------------------------------------------------------------- mapping

theorem nodeAt_map (h : Tree l0 m F) (ha : a ∉ m.mapped) (p : List Nat) :
    nodeAt l0 (m.map a) p = nodeAt l0 m p := by
  apply nodeAt_eq
  intro q hq
  have hne : nodeAt l0 m q ≠ a := by
    rintro rfl
    exact ha (h.mapped q hq)
  exact Function.update_of_ne hne ..

theorem map (h : Tree l0 m F) (hzero : a ≠ 0) (ha : a ∉ m.mapped) :
    Tree l0 (m.map a) (a ::ₘ F) := by
  refine h.same (h.nodeAt_map ha) (fun p hp => ?_) (fun p hp => ?_)
    (fun b hb => ?_) ?_
  · exact List.mem_cons_of_mem _ (h.mapped p hp)
  · cases Multiset.mem_cons.1 hp with
    | inl heq =>
        rw [← heq] at ha hzero
        exact ha (h.mapped p hzero)
    | inr hmem => exact h.apart p hmem
  · by_cases hba : b = a
    · subst hba
      refine ⟨hzero, List.mem_cons_self, fun i => ?_, fun w => ?_⟩
      · simp [Memory.map]
      · simp [Memory.map]
    · have hb' := h.fresh b (by simpa [hba] using hb)
      refine ⟨hb'.1, List.mem_cons_of_mem _ hb'.2.1, ?_, ?_⟩
      · simpa [Memory.map, hba] using hb'.2.2.1
      · simpa [Memory.map, hba] using hb'.2.2.2
  · exact Multiset.nodup_cons.2
      ⟨fun hmem => ha (h.fresh a hmem).2.1, h.nodup⟩

theorem unmap (h : Tree l0 m (a ::ₘ F)) : Tree l0 (m.unmap a) F := by
  have hnotin := (Multiset.nodup_cons.1 h.nodup).1
  have hnode : ∀ p, nodeAt l0 (m.unmap a) p = nodeAt l0 m p :=
    fun _ => rfl
  refine h.same hnode (fun p hp => ?_) (fun p hp => ?_)
    (fun b hb => ?_) (Multiset.nodup_cons.1 h.nodup).2
  · have hne : nodeAt l0 m p ≠ a := fun heq =>
      h.apart p (heq ▸ Multiset.mem_cons_self _ _)
    exact (List.mem_erase_of_ne hne).2 (h.mapped p hp)
  · exact h.apart p (Multiset.mem_cons_of_mem hp)
  · obtain ⟨hz, hm, ht, hl⟩ := h.fresh b (Multiset.mem_cons_of_mem hb)
    have hne : b ≠ a := fun heq => hnotin (heq ▸ hb)
    exact ⟨hz, (List.mem_erase_of_ne hne).2 hm, ht, hl⟩

-- ---------------------------------------------------------- installing

/-- Installing a fresh node shows it at one path. -/
theorem nodeAt_store (h : Tree l0 m (b ::ₘ F)) (ha : nodeAt l0 m p = a)
    (hzero : a ≠ 0) (hnull : m.table a i = 0) (q : List Nat) :
    nodeAt l0 (m.store a i b) q
      = if q = p ++ [i] then b else nodeAt l0 m q := by
  have hb := h.fresh b (Multiset.mem_cons_self _ _)
  have hba : b ≠ a := by
    rintro rfl
    exact h.apart p (ha ▸ Multiset.mem_cons_self _ _)
  induction q using List.reverseRecOn with
  | nil => simp
  | append_singleton q k ih =>
      rw [nodeAt_snoc, nodeAt_snoc, ih]
      by_cases hq : q = p ++ [i]
      · -- below the new node everything is null, as it was before
        have hold : nodeAt l0 m q = 0 := by
          rw [hq, nodeAt_snoc, ha, if_neg hzero, hnull]
        have hlen : q ++ [k] ≠ p ++ [i] := by
          rw [hq]
          simp
        rw [if_pos hq, if_neg hb.1, if_neg hlen, hold, if_pos rfl]
        show Function.update m.table a _ b k = 0
        rw [Function.update_of_ne hba]
        exact hb.2.2.1 k
      · rw [if_neg hq]
        by_cases hnode : nodeAt l0 m q = 0
        · rw [if_pos hnode, if_pos hnode, if_neg]
          intro heq
          have hqp := (List.append_inj' heq rfl).1
          rw [hqp, ha] at hnode
          exact hzero hnode
        · rw [if_neg hnode, if_neg hnode]
          by_cases hat : nodeAt l0 m q = a
          · have hqp : q = p := h.inj q p hnode (hat.trans ha.symm)
            show Function.update m.table a _ _ k = _
            rw [hat, Function.update_self, hqp]
            by_cases hk : k = i
            · subst hk
              simp
            · rw [Function.update_of_ne hk, if_neg (by simpa using hk)]
          · have hqp : q ++ [k] ≠ p ++ [i] := by
              intro heq
              rw [(List.append_inj' heq rfl).1] at hat
              exact hat ha
            rw [if_neg hqp]
            show Function.update m.table a _ _ k = _
            rw [Function.update_of_ne hat]

theorem store (h : Tree l0 m (b ::ₘ F)) (ha : nodeAt l0 m p = a)
    (hzero : a ≠ 0) (hlen : p.length ≤ 2) (hnull : m.table a i = 0) :
    Tree l0 (m.store a i b) F := by
  have hnode := h.nodeAt_store ha hzero hnull
  have hb := h.fresh b (Multiset.mem_cons_self _ _)
  obtain ⟨hnotin, hnodup⟩ := Multiset.nodup_cons.1 h.nodup
  refine ⟨h.root, fun q => ?_, fun q r => ?_, fun q => ?_, fun q => ?_,
    fun c hc => ?_, hnodup⟩
  · rw [hnode q]
    by_cases hq : q = p ++ [i]
    · intro _
      rw [hq, List.length_append, List.length_singleton]
      omega
    · rw [if_neg hq]
      exact h.depth q
  · rw [hnode q, hnode r]
    by_cases hq : q = p ++ [i]
    · by_cases hr : r = p ++ [i]
      · intro _ _
        rw [hq, hr]
      · rw [if_pos hq, if_neg hr]
        intro _ heq
        exact absurd (heq ▸ Multiset.mem_cons_self b F) (h.apart r)
    · rw [if_neg hq]
      by_cases hr : r = p ++ [i]
      · rw [if_pos hr]
        intro _ heq
        exact absurd (heq ▸ Multiset.mem_cons_self b F) (h.apart q)
      · rw [if_neg hr]
        exact h.inj q r
  · rw [hnode q]
    by_cases hq : q = p ++ [i]
    · rw [if_pos hq]
      exact fun _ => hb.2.1
    · rw [if_neg hq]
      exact h.mapped q
  · rw [hnode q]
    by_cases hq : q = p ++ [i]
    · rw [if_pos hq]
      exact hnotin
    · rw [if_neg hq]
      exact fun hmem => h.apart q (Multiset.mem_cons_of_mem hmem)
  · obtain ⟨hz, hm, ht, hl⟩ := h.fresh c (Multiset.mem_cons_of_mem hc)
    have hca : c ≠ a := by
      rintro rfl
      exact h.apart p (ha ▸ Multiset.mem_cons_of_mem hc)
    refine ⟨hz, hm, fun k => ?_, hl⟩
    show Function.update m.table a _ c k = 0
    rw [Function.update_of_ne hca]
    exact ht k

-- ------------------------------------------------------------- marking

theorem setWord (h : Tree l0 m F) (ha : nodeAt l0 m p = a) (w : Nat)
    (v : BitVec 64) : Tree l0 (m.setWord a w v) F := by
  have hnode : ∀ q, nodeAt l0 (m.setWord a w v) q = nodeAt l0 m q :=
    fun _ => rfl
  refine h.same hnode h.mapped h.apart (fun c hc => ?_) h.nodup
  obtain ⟨hz, hm, ht, hl⟩ := h.fresh c hc
  have hca : c ≠ a := by
    rintro rfl
    exact h.apart p (ha ▸ hc)
  refine ⟨hz, hm, ht, fun k => ?_⟩
  show Function.update m.leaf a _ c k = 0
  rw [Function.update_of_ne hca]
  exact hl k

end Tree

-- ============================================ what updates do to chunks

variable {F : Multiset Nat}

theorem chunkOwned_map (h : Tree l0 m F) (ha : a ∉ m.mapped) (c : Nat) :
    chunkOwned l0 (m.map a) c = chunkOwned l0 m c := by
  unfold chunkOwned
  rw [h.nodeAt_map ha]
  by_cases hzero : nodeAt l0 m (pathOf c) = 0
  · rw [if_pos hzero, if_pos hzero]
  · rw [if_neg hzero, if_neg hzero]
    have hne : nodeAt l0 m (pathOf c) ≠ a := by
      intro heq
      exact ha (heq ▸ h.mapped _ hzero)
    show (if _ then _ else leafBit (Function.update m.leaf a _ _) _) = _
    rw [Function.update_of_ne hne]

/-- A new leaf is all zero, and so was the missing one. -/
theorem chunkOwned_store (h : Tree l0 m (b ::ₘ F)) (ha : nodeAt l0 m p = a)
    (hzero : a ≠ 0) (hnull : m.table a i = 0) (c : Nat) :
    chunkOwned l0 (m.store a i b) c = chunkOwned l0 m c := by
  have hb := h.fresh b (Multiset.mem_cons_self _ _)
  unfold chunkOwned
  rw [h.nodeAt_store ha hzero hnull]
  by_cases hpath : pathOf c = p ++ [i]
  · have hold : nodeAt l0 m (pathOf c) = 0 := by
      rw [hpath, nodeAt_snoc, ha, if_neg hzero, hnull]
    have hbit : leafBit (m.leaf b) (c % l3Size) = false := by
      unfold leafBit
      rw [hb.2.2.2]
      exact BitVec.getLsbD_zero
    rw [if_pos hpath, if_neg hb.1, hold, if_pos rfl]
    show (if _ then _ else leafBit (m.leaf b) _) = _
    rw [hbit]
  · rw [if_neg hpath]
    rfl

/-- One read-modify-write of `set_range`, in chunk numbers. -/
theorem chunkOwned_mark (h : Tree l0 m F) {c d w : Nat} {leafEnd : Nat}
    {val : Bool} (hc : c < radixMaxChunks) (hd : d < radixMaxChunks)
    (ha : nodeAt l0 m (pathOf c) = a) (hzero : a ≠ 0)
    (hfirst : c % 4096 / 64 ≤ w) (hlast : w ≤ leafEnd / 64) :
    chunkOwned l0 (m.setWord a w
        (applyMask val (wordMask (c % 4096) leafEnd w) (m.leaf a w))) d
      = if d / 4096 = c / 4096 ∧ d % 4096 / 64 = w
          ∧ c % 4096 ≤ d % 4096 ∧ d % 4096 ≤ leafEnd
        then val else chunkOwned l0 m d := by
  have hmax : ¬ radixMaxChunks ≤ d := by omega
  have hnode : ∀ u, nodeAt l0 (m.setWord a w u) (pathOf d)
      = nodeAt l0 m (pathOf d) := fun _ => rfl
  unfold chunkOwned
  rw [if_neg hmax, if_neg hmax, hnode]
  by_cases hleaf : d / 4096 = c / 4096
  · have hpath : nodeAt l0 m (pathOf d) = a := by
      rw [(pathOf_eq hc hd).2 hleaf, ha]
    rw [hpath, if_neg hzero, if_neg hzero]
    have hbit : d % 4096 % 64 < 64 := Nat.mod_lt _ (by decide)
    show BitVec.getLsbD (Function.update m.leaf a
        (Function.update (m.leaf a) w _) a (d % 4096 / 64)) (d % 4096 % 64)
      = if _ then _
        else BitVec.getLsbD (m.leaf a (d % 4096 / 64)) (d % 4096 % 64)
    rw [Function.update_self]
    by_cases hw : d % 4096 / 64 = w
    · subst hw
      rw [Function.update_self, getLsbD_applyMask hbit,
        getLsbD_wordMask hfirst hlast]
      by_cases hin : c % 4096 ≤ d % 4096 ∧ d % 4096 ≤ leafEnd
      · rw [if_pos (by simpa using hin), if_pos ⟨hleaf, rfl, hin⟩]
      · rw [if_neg (by simpa using hin), if_neg (fun h => hin h.2.2)]
    · rw [Function.update_of_ne hw, if_neg (fun h => hw h.2.1)]
  · have hout : ¬ (d / 4096 = c / 4096 ∧ d % 4096 / 64 = w
        ∧ c % 4096 ≤ d % 4096 ∧ d % 4096 ≤ leafEnd) := fun h => hleaf h.1
    rw [if_neg hout]
    by_cases hnull : nodeAt l0 m (pathOf d) = 0
    · rw [if_pos hnull, if_pos hnull]
    · have hne : nodeAt l0 m (pathOf d) ≠ a := by
        intro heq
        have hpath := h.inj _ _ hnull (heq.trans ha.symm)
        exact hleaf ((pathOf_eq hc hd).1 hpath)
      rw [if_neg hnull, if_neg hnull]
      show leafBit (Function.update m.leaf a _ _) _ = _
      rw [Function.update_of_ne hne]

end RsMalloc.RadixMap
