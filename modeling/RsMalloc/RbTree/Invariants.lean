/-
The red-black invariants, read off the heap.

`RedBlackHeap` speaks of the pointers a reader of the source sees: the
nodes reachable from `root`, their colours, the black nodes on a path
down to null, parent pointers, and the chain of `free_list`. It follows
from the tree the heap holds between calls.
-/
import RsMalloc.RbTree.Proofs

namespace RsMalloc.RbTree

open RedBlack

/-- Reachable from the root through child pointers. -/
inductive InTree (h : RBTree) : Ptr → Prop
  | root : h.root ≠ 0 → InTree h h.root
  | child {p : Ptr} {n : Node} (d : Side) : InTree h p →
      h.node p = some n → n.child d ≠ 0 → InTree h (n.child d)

/-- Some path from `p` down to null meets `k` black nodes. -/
inductive BlackPath (h : RBTree) : Ptr → Nat → Prop
  | null : BlackPath h 0 0
  | node {p : Ptr} {n : Node} {k : Nat} (d : Side) : p ≠ 0 →
      h.node p = some n → BlackPath h (n.child d) k →
      BlackPath h p (k + if n.color = .black then 1 else 0)

structure RedBlackHeap (h : RBTree) : Prop where
  root_black : h.root ≠ 0 →
    ∃ n, h.node h.root = some n ∧ n.color = .black ∧ n.parent = 0
  red_child : ∀ p n, InTree h p → h.node p = some n → n.color = .red →
    ∀ d, colorOf (n.child d) h = .ok (.black, h)
  black_height : ∀ j k, BlackPath h h.root j → BlackPath h h.root k → j = k
  parent_link : ∀ p n, InTree h p → h.node p = some n →
    ∀ d, n.child d ≠ 0 → ∃ m, h.node (n.child d) = some m ∧ m.parent = p
  free_list : ∃ fl, LinkedSeg (freeNext h) h.freeList fl 0 ∧ fl.Nodup
    ∧ (∀ p, (h.node p).isSome ↔ InTree h p ∨ p ∈ fl)
    ∧ ∀ p, InTree h p → p ∉ fl

variable {os : Nat → Ptr} {h h₀ : RBTree} {t : ColorTree Entry} {fl : List Ptr}
  {fuel : Nat} {p : Ptr}

/-- Reachability through pointers is membership in the tree. -/
theorem inTree_of_mem {up : Ptr} (ht : TreeAt h.node up t)
    (hroot : ptr t ≠ 0 → InTree h (ptr t)) (hp : p ∈ addrs t) :
    InTree h p := by
  induction t generalizing up with
  | nil => exact nomatch hp
  | bin c l e r ihl ihr =>
      obtain ⟨h0, he, hl, hr⟩ := ht
      have hin : InTree h e.addr := hroot h0
      rw [show ColorTree.bin c l e r = .node .left c l e r from rfl,
        mem_addrs_node] at hp
      rcases hp with hp | hp | hp
      · rw [hp]
        exact hin
      · exact ihl hl (fun hne => .child .left hin he hne) hp
      · exact ihr hr (fun hne => .child .right hin he hne) hp

/-- At a reachable node the heap shows a focus of the tree. -/
theorem Inv.exists_focus (I : Inv os h t fl) (hp : InTree h p) :
    ∃ fs c a e b, t = zip fs (.node .left c a e b) ∧ p = e.addr
      ∧ Focus h h fs (.node .left c a e b) := by
  have hmem : p ∈ addrs t := by
    induction hp with
    | root h0 =>
        have hroot : h.root = ptr t := I.focus.frames
        rw [hroot] at h0 ⊢
        exact ptr_mem_addrs h0
    | @child p n d _ hn h0 ih =>
        obtain ⟨e, he, heq⟩ := List.mem_map.1 ih
        obtain ⟨fs, c, a, b, hzip⟩ := exists_zip_of_mem he
        have F : Focus h h fs (.node .left c a e b) :=
          focus_root.2 (hzip ▸ I.focus)
        have hnode := F.node_eq
        rw [heq, hn] at hnode
        obtain rfl := Option.some.inj hnode
        have hsub : ∀ q, q = ptr a ∨ q = ptr b → q ≠ 0 → q ∈ addrs t := by
          intro q hq hq0
          have hq' : q ∈ addrs (.node .left c a e b) ++ frameAddrs fs := by
            refine List.mem_append_left _ (mem_addrs_node.2 (.inr ?_))
            rcases hq with hq | hq
            · exact .inl (hq ▸ ptr_mem_addrs (hq ▸ hq0))
            · exact .inr (hq ▸ ptr_mem_addrs (hq ▸ hq0))
          have hroot : q ∈ addrs (zip fs (.node .left c a e b))
              ++ frameAddrs [] :=
            zip_perm.mem_iff.1 (by rwa [List.append_nil])
          rw [frameAddrs, List.append_nil, ← hzip] at hroot
          exact hroot
        cases d with
        | left => exact hsub _ (.inl rfl) h0
        | right => exact hsub _ (.inr rfl) h0
  obtain ⟨e, he, heq⟩ := List.mem_map.1 hmem
  obtain ⟨fs, c, a, b, hzip⟩ := exists_zip_of_mem he
  exact ⟨fs, c, a, e, b, hzip, heq.symm, focus_root.2 (hzip ▸ I.focus)⟩

/-- On every path the black nodes are counted by the black height. -/
theorem blackPath_eq {up : Ptr} {c : Color} {n k : Nat}
    (ht : TreeAt h.node up t) (hbal : Balanced t c n)
    (hpath : BlackPath h (ptr t) k) : k = n := by
  induction t generalizing up c n k with
  | nil =>
      cases hbal
      generalize hp : ptr .nil = p at hpath
      cases hpath with
      | null => rfl
      | node _ h0 _ _ => exact absurd hp.symm h0
  | bin c' l e r ihl ihr =>
      obtain ⟨h0, he, hl, hr⟩ := ht
      generalize hp : ptr (.bin c' l e r) = p at hpath
      have hpe : e.addr = p := hp
      cases hpath with
      | null => exact absurd hpe h0
      | @node _ nd k d _ hnd hrest =>
          rw [← hpe, he] at hnd
          obtain rfl := Option.some.inj hnd
          rw [nodeOf_color]
          cases hbal with
          | red hbl hbr =>
              cases d with
              | left => exact ihl hl hbl hrest
              | right => exact ihr hr hbr hrest
          | black hbl hbr =>
              cases d with
              | left => rw [ihl hl hbl hrest, if_pos rfl]
              | right => rw [ihr hr hbr hrest, if_pos rfl]

/-- The invariant between calls gives the heap-level reading. -/
theorem Inv.redBlackHeap (I : Inv os h t fl) : RedBlackHeap h := by
  have hroot : h.root = ptr t := I.focus.frames
  obtain ⟨m, hbal⟩ := I.balanced
  obtain ⟨-, hfln, hcross⟩ := List.nodup_append.1 I.nodup
  have hmem : ∀ p, InTree h p ↔ p ∈ addrs t := by
    intro p
    constructor
    · intro hp
      obtain ⟨fs, c, a, e, b, hzip, hpe, F⟩ := I.exists_focus hp
      have hin : e.addr ∈ addrs (zip fs (.node .left c a e b))
          ++ frameAddrs [] := by
        refine zip_perm.mem_iff.1 (List.mem_append_left _ ?_)
        exact mem_addrs_node.2 (.inl rfl)
      rw [frameAddrs, List.append_nil, ← hzip] at hin
      rw [hpe]
      exact hin
    · exact inTree_of_mem I.focus.tree fun h0 => hroot ▸ .root (hroot ▸ h0)
  refine ⟨?_, ?_, ?_, ?_, fl, I.free, hfln, ?_, ?_⟩
  · intro h0
    rw [hroot] at h0 ⊢
    rcases t.eq_nil_or_node .left with heq | ⟨c, a, e, b, heq⟩
    · rw [heq] at h0
      exact absurd rfl h0
    · subst heq
      refine ⟨_, by rw [ptr_node]; exact I.focus.node_eq, ?_, nodeOf_parent⟩
      rw [nodeOf_color]
      have hc := hbal.rootColor
      rwa [ColorTree.rootColor_node] at hc
  · intro p n hp hn hred d
    obtain ⟨fs, c, a, e, b, hzip, hpe, F⟩ := I.exists_focus hp
    rw [hpe, F.node_eq] at hn
    obtain rfl := Option.some.inj hn
    rw [nodeOf_color] at hred
    subst hred
    obtain ⟨c', n', hnode, -, -⟩ := Balanced.unzip (hzip ▸ hbal)
    obtain ⟨-, ha, hb⟩ := hnode.of_node_red
    have Fa : Focus h h (⟨.left, .red, e, b⟩ :: fs) a := focus_cons.2 F
    cases d with
    | left =>
        have hok := Fa.colorOf_ok
        rwa [ha.rootColor] at hok
    | right =>
        have hok := (focus_sibling.1 Fa).colorOf_ok
        rwa [hb.rootColor] at hok
  · intro j k hj hk
    rw [hroot] at hj hk
    rw [blackPath_eq I.focus.tree hbal hj, blackPath_eq I.focus.tree hbal hk]
  · intro p n hp hn d h0
    obtain ⟨fs, c, a, e, b, hzip, hpe, F⟩ := I.exists_focus hp
    rw [hpe, F.node_eq] at hn
    obtain rfl := Option.some.inj hn
    obtain ⟨-, -, ha, hb⟩ := treeAt_node.1 F.tree
    have hlink : ∀ s : ColorTree Entry, TreeAt h.node e.addr s → ptr s ≠ 0 →
        ∃ m, h.node (ptr s) = some m ∧ m.parent = p := by
      intro s hs hs0
      rcases s.eq_nil_or_node .left with heq | ⟨c', a', e', b', heq⟩
      · rw [heq] at hs0
        exact absurd rfl hs0
      · subst heq
        refine ⟨_, by rw [ptr_node]; exact (treeAt_node.1 hs).2.1, ?_⟩
        rw [nodeOf_parent, hpe]
    cases d with
    | left => exact hlink a ha h0
    | right => exact hlink b hb h0
  · intro p
    rw [I.mapped p, List.mem_append, hmem]
  · intro p hp hfl
    exact hcross p ((hmem p).1 hp) p hfl rfl

/-- Every history of calls ends without a fault, in a heap that keeps
the red-black invariants and loses no node. -/
theorem rbtree_keeps_invariants (hos : FreshChunks os) (calls : List Call)
    (hfuel : calls.length < fuel) :
    ∃ outs h, run os fuel calls RBTree.new = .ok (outs, h)
      ∧ RedBlackHeap h := by
  have hfuel₀ : (ColorTree.nil : ColorTree Entry).entries.length + calls.length
      < fuel := by
    rwa [ColorTree.entries_nil, List.length_nil, Nat.zero_add]
  obtain ⟨h, t, fl, hrun, I⟩ := run_ok hos inv_new calls hfuel₀
  exact ⟨_, h, hrun, I.redBlackHeap⟩

theorem rbtree_keeps_invariants_insert_remove :
    FreshChunks adjacentChunks
      ∧ ∃ outs h, run adjacentChunks 3
          [.insert 7 ⟨0, 4096, 0, 0, false⟩, .remove 7] RBTree.new
            = .ok (outs, h) ∧ RedBlackHeap h :=
  ⟨adjacentChunks_fresh, rbtree_keeps_invariants adjacentChunks_fresh
    [.insert 7 ⟨0, 4096, 0, 0, false⟩, .remove 7] (by decide)⟩

end RsMalloc.RbTree
