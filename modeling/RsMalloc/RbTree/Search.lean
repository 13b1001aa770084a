/-
Searching, and what the tree means as a map.

`seek` is the descent both loops of the source perform, on trees: it
ends at the node with the key, or at the empty subtree where the key
belongs. The entries in search order are what the map is read from
(`lookup`), so a mutation that changes them in one place changes the
map at one key.
-/
import RsMalloc.RbTree.Repr
import Mathlib.Data.List.Pairwise

namespace RsMalloc.RbTree

open RedBlack

variable {h h₀ : RBTree} {t : ColorTree Entry} {fs : List (Frame Entry)}
  {k : Key} {e : Entry} {l₁ l₂ : List Entry} {fuel : Nat}

-- ========================================================== the descent

def seek (k : Key) : List (Frame Entry) → ColorTree Entry →
    List (Frame Entry) × ColorTree Entry
  | fs, .nil => (fs, .nil)
  | fs, .bin c l e r =>
      if k = e.key then (fs, .bin c l e r)
      else if k < e.key then seek k (⟨.left, c, e, r⟩ :: fs) l
      else seek k (⟨.right, c, e, l⟩ :: fs) r

theorem zip_seek : zip (seek k fs t).1 (seek k fs t).2 = zip fs t := by
  induction t generalizing fs with
  | nil => rfl
  | bin c l e r ihl ihr =>
      rw [seek]
      split_ifs
      · rfl
      · exact ihl
      · exact ihr

/-- A node the descent stops at has the key. -/
theorem key_of_seek {d : Side} {c : Color} {a b : ColorTree Entry}
    (hs : (seek k fs t).2 = .node d c a e b) : e.key = k := by
  induction t generalizing fs with
  | nil => exact absurd hs.symm ColorTree.node_ne_nil
  | bin c' l e' r ihl ihr =>
      rw [seek] at hs
      split_ifs at hs with h₁ h₂
      · cases d <;> cases hs <;> exact h₁.symm
      · exact ihl hs
      · exact ihr hs

/-- Every frame is on the side the key belongs to. -/
def Zoomed (k : Key) : List (Frame Entry) → Prop
  | [] => True
  | f :: fs => (match f.side with
      | .left => k < f.entry.key
      | .right => f.entry.key < k) ∧ Zoomed k fs

theorem zoomed_seek (hz : Zoomed k fs) : Zoomed k (seek k fs t).1 := by
  induction t generalizing fs with
  | nil => exact hz
  | bin c l e r ihl ihr =>
      rw [seek]
      split_ifs with h₁ h₂
      · exact hz
      · exact ihl ⟨h₂, hz⟩
      · exact ihr ⟨Nat.lt_of_le_of_ne (Nat.le_of_not_lt h₂) (Ne.symm h₁), hz⟩

/-- Strictly increasing keys. -/
def Sorted (l : List Entry) : Prop :=
  l.Pairwise fun a b => a.key < b.key

/-- The key fits between the entries on both sides of the focus. -/
theorem Zoomed.bounds (hz : Zoomed k fs) (hs : Sorted (zip fs t).entries) :
    (∀ e ∈ before fs, e.key < k) ∧ ∀ e ∈ after fs, k < e.key := by
  induction fs generalizing t with
  | nil => exact ⟨fun _ he => (nomatch he), fun _ he => (nomatch he)⟩
  | cons f fs ih =>
      obtain ⟨d, c, e, s⟩ := f
      obtain ⟨hk, hz⟩ := hz
      obtain ⟨hbefore, hafter⟩ := ih hz hs
      have hplug : Sorted (Frame.plug ⟨d, c, e, s⟩ t).entries := by
        rw [zip_cons, entries_zip] at hs
        exact (List.pairwise_append.1 (List.pairwise_append.1 hs).1).2.1
      cases d with
      | left =>
          have hes := (List.pairwise_append.1 hplug).2.1
          refine ⟨fun x hx => ?_, fun x hx => ?_⟩
          · simp only [before, List.append_nil] at hx
            exact hbefore x hx
          · simp only [after, List.cons_append, List.mem_cons,
              List.mem_append] at hx
            rcases hx with hx | hx | hx
            · rw [hx]
              exact hk
            · exact Nat.lt_trans hk ((List.pairwise_cons.1 hes).1 x hx)
            · exact hafter x hx
      | right =>
          have hse := (List.pairwise_append.1 hplug).2.2
          refine ⟨fun x hx => ?_, fun x hx => ?_⟩
          · simp only [before, List.mem_append, List.mem_singleton] at hx
            rcases hx with hx | hx | hx
            · exact hbefore x hx
            · exact Nat.lt_trans (hse x hx e List.mem_cons_self) hk
            · rw [hx]
              exact hk
          · exact hafter x hx

/-- `find_node` follows the descent. -/
theorem findNodeLoop_ok (F : Focus h₀ h fs t)
    (hfuel : t.entries.length < fuel) :
    findNodeLoop fuel k (ptr t) h = .ok (ptr (seek k fs t).2, h) := by
  induction fuel generalizing fs t with
  | zero => omega
  | succ fuel ih =>
      cases t with
      | nil => rfl
      | bin c l e r =>
          have hlen : l.entries.length < fuel ∧ r.entries.length < fuel := by
            simp only [ColorTree.entries_bin, List.length_append,
              List.length_cons] at hfuel
            omega
          rw [findNodeLoop, if_neg (show ptr (.bin c l e r) ≠ 0 from F.tree.1),
            bind_ok (load_ok (show h.node (ptr (.bin c l e r)) = _ from
              F.tree.2.1)), nodeOf_key, seek]
          split_ifs with h₁ h₂
          · rfl
          · have Fl : Focus h₀ h (⟨.left, c, e, r⟩ :: fs) l := focus_cons.2 F
            exact ih Fl hlen.1
          · have Fr : Focus h₀ h (⟨.right, c, e, l⟩ :: fs) r := focus_cons.2 F
            exact ih Fr hlen.2

/-- `tree_insert` follows the descent; on an existing key it writes the
metadata and stops. -/
theorem treeInsertLoop_ok {m : BigAllocMeta} (F : Focus h₀ h fs t)
    (hfuel : t.entries.length < fuel) :
    ((seek k fs t).2 = .nil
        ∧ treeInsertLoop fuel k m (top fs) (ptr t) h
          = .ok (some (top (seek k fs t).1), h))
    ∨ ∃ c a e b h', (seek k fs t).2 = .node .left c a e b
        ∧ treeInsertLoop fuel k m (top fs) (ptr t) h = .ok (none, h')
        ∧ Focus h₀ h' (seek k fs t).1
          (.node .left c a ⟨e.addr, e.key, m⟩ b) := by
  induction fuel generalizing fs t with
  | zero => omega
  | succ fuel ih =>
      cases t with
      | nil => exact .inl ⟨rfl, rfl⟩
      | bin c l e r =>
          have hlen : l.entries.length < fuel ∧ r.entries.length < fuel := by
            simp only [ColorTree.entries_bin, List.length_append,
              List.length_cons] at hfuel
            omega
          have hnode : h.node (ptr (.bin c l e r)) = _ := F.tree.2.1
          rw [treeInsertLoop, if_neg (show ptr (.bin c l e r) ≠ 0 from F.tree.1),
            bind_ok (load_ok hnode), nodeOf_key, seek]
          split_ifs with h₁ h₂
          · right
            have F' : Focus h₀ h fs (.node .left c l e r) := F
            refine ⟨c, l, e, r, _, rfl, bind_ok (modify_ok hnode), ?_⟩
            exact F'.set_record c ⟨e.addr, e.key, m⟩ rfl
          · have Fl : Focus h₀ h (⟨.left, c, e, r⟩ :: fs) l := focus_cons.2 F
            exact ih Fl hlen.1
          · have Fr : Focus h₀ h (⟨.right, c, e, l⟩ :: fs) r := focus_cons.2 F
            exact ih Fr hlen.2

-- ============================================================= the map

/-- The map a list of entries stands for. -/
def lookup (l : List Entry) : MetaMap := fun k =>
  (l.find? fun e => e.key = k).map Entry.bigMeta

theorem lookup_eq_none (hk : ∀ x ∈ l₁, x.key ≠ k) : lookup l₁ k = none := by
  have hfind : l₁.find? (fun e => decide (e.key = k)) = none := by
    rw [List.find?_eq_none]
    intro x hx
    exact fun hdec => hk x hx (of_decide_eq_true hdec)
  rw [lookup, hfind]
  rfl

/-- One more entry is one more key. -/
theorem lookup_insert (hk : ∀ x ∈ l₁ ++ l₂, x.key ≠ e.key) :
    lookup (l₁ ++ e :: l₂)
      = Function.update (lookup (l₁ ++ l₂)) e.key (some e.bigMeta) := by
  funext k
  by_cases hke : k = e.key
  · subst hke
    have hfind : l₁.find? (fun x => decide (x.key = e.key)) = none := by
      rw [List.find?_eq_none]
      intro x hx hdec
      exact hk x (List.mem_append_left _ hx) (of_decide_eq_true hdec)
    simp [lookup, List.find?_append, hfind]
  · rw [Function.update_of_ne hke, lookup, lookup]
    have hne : ¬ e.key = k := fun heq => hke heq.symm
    simp [List.find?_append, hne]

/-- One entry less is one key less. -/
theorem lookup_remove (hk : ∀ x ∈ l₁ ++ l₂, x.key ≠ e.key) :
    lookup (l₁ ++ l₂)
      = Function.update (lookup (l₁ ++ e :: l₂)) e.key none := by
  rw [lookup_insert hk, Function.update_idem, ← lookup_eq_none hk,
    Function.update_eq_self]

/-- In a sorted list no other entry has the key. -/
theorem Sorted.key_ne (hs : Sorted (l₁ ++ e :: l₂)) :
    ∀ x ∈ l₁ ++ l₂, x.key ≠ e.key := by
  obtain ⟨-, htail, hcross⟩ := List.pairwise_append.1 hs
  intro x hx
  rcases List.mem_append.1 hx with hx | hx
  · exact Nat.ne_of_lt (hcross x hx e List.mem_cons_self)
  · exact Nat.ne_of_gt ((List.pairwise_cons.1 htail).1 x hx)

/-- A descent that ends empty: the key belongs there and is new. -/
theorem seek_nil (hs : Sorted t.entries) (hnil : (seek k [] t).2 = .nil) :
    t = zip (seek k [] t).1 .nil ∧ Zoomed k (seek k [] t).1
      ∧ t.entries = before (seek k [] t).1 ++ after (seek k [] t).1
      ∧ ∀ x ∈ t.entries, x.key ≠ k := by
  have hzip : t = zip (seek k [] t).1 .nil := by
    rw [← hnil, zip_seek, zip_nil]
  have hz : Zoomed k (seek k [] t).1 := zoomed_seek trivial
  have hentries : t.entries
      = before (seek k [] t).1 ++ after (seek k [] t).1 := by
    have happ := congrArg ColorTree.entries hzip
    rwa [entries_zip, ColorTree.entries_nil, List.append_nil] at happ
  refine ⟨hzip, hz, hentries, fun x hx => ?_⟩
  obtain ⟨hbefore, hafter⟩ := hz.bounds (hzip ▸ hs)
  rw [hentries] at hx
  rcases List.mem_append.1 hx with hx | hx
  · exact Nat.ne_of_lt (hbefore x hx)
  · exact Nat.ne_of_gt (hafter x hx)

/-- A descent that ends at a node: the node has the key. -/
theorem seek_node {c : Color} {a b : ColorTree Entry} (hs : Sorted t.entries)
    (hnode : (seek k [] t).2 = .node .left c a e b) :
    e.key = k ∧ t = zip (seek k [] t).1 (.node .left c a e b)
      ∧ lookup t.entries k = some e.bigMeta := by
  have hkey := key_of_seek hnode
  have hzip : t = zip (seek k [] t).1 (.node .left c a e b) := by
    rw [← hnode, zip_seek, zip_nil]
  refine ⟨hkey, hzip, ?_⟩
  rw [hzip, entries_zip_node] at hs
  rw [hzip, entries_zip_node, lookup_insert hs.key_ne, ← hkey, Function.update_self]

end RsMalloc.RbTree
