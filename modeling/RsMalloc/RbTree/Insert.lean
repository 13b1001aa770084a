/-
The repair after an insertion (`insert_fixup`).

The loop holds a red subtree `z` that is balanced in itself, in a hole
of its black height; only the edge above `z` may join two red nodes.
Each pass either recolours and moves `z` two frames up, or rotates and
leaves `z` under a black node, where the loop stops.
-/
import RsMalloc.RbTree.Repr

namespace RsMalloc.RbTree

open RedBlack

variable {h h₀ : RBTree} {d : Side} {c : Color} {e : Entry}
  {t u : ColorTree Entry} {f : Frame Entry} {fs gs : List (Frame Entry)}
  {n fuel : Nat}

/-- The parent pointer at the focus. -/
theorem Focus.parentOf_ok (F : Focus h₀ h fs t) (ht : t ≠ .nil) :
    parentOf (ptr t) h = .ok (top fs, h) := by
  rcases t.eq_nil_or_node .left with heq | ⟨c, a, e, b, heq⟩
  · exact absurd heq ht
  · subst heq
    rw [ptr_node, RbTree.parentOf_ok F.node_eq, nodeOf_parent]

/-- The colour above the focus. -/
theorem Focus.colorOf_top (F : Focus h₀ h (f :: fs) t) :
    colorOf f.entry.addr h = .ok (f.color, h) := by
  have hok := (focus_cons.1 F).colorOf_ok
  rw [ptr_plug] at hok
  rw [hok, Frame.plug, ColorTree.rootColor_node]

/-- Under a black node, or at the root, the loop stops. -/
theorem insertFixupLoop_stop (F : Focus h₀ h fs t) (ht : t ≠ .nil)
    (hfs : fs = [] ∨ TopBlack fs) :
    insertFixupLoop (fuel + 1) (ptr t) h = .ok ((), h) := by
  rw [insertFixupLoop, bind_ok (F.parentOf_ok ht)]
  cases fs with
  | nil => rfl
  | cons f fs =>
      have hblack : f.color = .black := by
        rcases hfs with hnil | hblack
        · cases hnil
        · exact hblack
      rw [top_cons, bind_ok F.colorOf_top, hblack]
      rfl

-- ============================================================ one pass

variable {s : ColorTree Entry}

/-- After the inner rotation the two red nodes are on one side. -/
theorem insertFixupInner_ok {d' : Side}
    (F : Focus h₀ h gs (.node d' .red t e s)) (d : Side)
    (ht : Balanced t .red n) (hs : Balanced s .black n) :
    ∃ h' t' e' s', insertFixupInner d (ptr t) e.addr h = .ok (ptr t', h')
      ∧ Focus h₀ h' gs (.node d .red t' e' s')
      ∧ Balanced t' .red n ∧ Balanced s' .black n
      ∧ (ColorTree.node d .red t' e' s').entries
        = (ColorTree.node d' .red t e s).entries := by
  obtain ⟨a, z, b, heq, ha, hb⟩ := ht.exists_node_of_red d
  subst heq
  rw [insertFixupInner]
  rcases Side.eq_or_eq_other d d' with hd | hd
  · -- outer already
    subst hd
    have Fz : Focus h₀ h (⟨d', .red, e, s⟩ :: gs) (.node d' .red a z b) :=
      focus_cons.2 F
    have hne := Fz.ptr_ne_sibling (.inl (by rw [ptr_node]; exact Fz.addr_ne_null))
    rw [bind_ok (child_ok F.node_eq), nodeOf_child_other, if_neg hne]
    exact ⟨h, _, e, s, rfl, F, ht, hs, rfl⟩
  · subst hd
    rw [ColorTree.node_other] at F ⊢
    obtain ⟨h', hrun, F'⟩ := F.rotate_ok
    rw [bind_ok (child_ok F.node_eq), nodeOf_child_other, if_pos rfl,
      bind_ok hrun]
    refine ⟨h', .node d .red s e a, z, b, ?_, F', hs.node_red ha, hb, ?_⟩
    · rw [ptr_node]
      rfl
    · exact ColorTree.entries_rotate.symm

/-- The uncle is red: recolour, go on from the grandparent. -/
theorem insertFixupSide_recolor {d' : Side} {g : Entry}
    (F : Focus h₀ h gs (.node d .black (.node d' .red t e s) g u))
    (hu : Balanced u .red n) :
    ∃ h' u', insertFixupSide d (ptr t) e.addr g.addr h = .ok (g.addr, h')
      ∧ Focus h₀ h' gs (.node d .red (.node d' .black t e s) g u')
      ∧ Balanced u' .black (n + 1) ∧ u'.entries = u.entries := by
  obtain ⟨a, y, b, heq, ha, hb⟩ := hu.exists_node_of_red d
  subst heq
  have Fp : Focus h₀ h (⟨d, .black, g, .node d .red a y b⟩ :: gs)
      (.node d' .red t e s) := focus_cons.2 F
  obtain ⟨h₁, hrun₁, F₁⟩ := Fp.setColor_ok .black
  obtain ⟨h₂, hrun₂, F₂⟩ := (focus_sibling.1 F₁).setColor_ok .black
  obtain ⟨h₃, hrun₃, F₃⟩ :=
    (focus_cons.1 (focus_sibling.2 F₂)).setColor_ok .red
  have hcolor := (focus_sibling.1 Fp).colorOf_ok
  refine ⟨h₃, .node d .black a y b, ?_, F₃, ha.node_black hb,
    ColorTree.entries_recolor⟩
  rw [insertFixupSide, bind_ok (child_ok F.node_eq), nodeOf_child_other,
    bind_ok hcolor, ColorTree.rootColor_node, if_pos rfl, bind_ok hrun₁, ptr_node,
    bind_ok hrun₂, bind_ok hrun₃]
  rfl

/-- The uncle is black: rotate, and `z` ends under a black node. -/
theorem insertFixupSide_rotate {d' : Side} {g : Entry}
    (F : Focus h₀ h gs (.node d .black (.node d' .red t e s) g u))
    (ht : Balanced t .red n) (hs : Balanced s .black n)
    (hu : Balanced u .black n) :
    ∃ h' t' e' s', insertFixupSide d (ptr t) e.addr g.addr h
        = .ok (ptr t', h')
      ∧ Focus h₀ h' gs (.node d .black t' e' s')
      ∧ Balanced t' .red n ∧ Balanced s' .red n
      ∧ (ColorTree.node d .black t' e' s').entries
        = (ColorTree.node d .black (.node d' .red t e s) g u).entries := by
  have Fp : Focus h₀ h (⟨d, .black, g, u⟩ :: gs) (.node d' .red t e s) :=
    focus_cons.2 F
  obtain ⟨h₁, z, p, s', hrun₁, F₁, hz, hs', hentries⟩ :=
    insertFixupInner_ok Fp d ht hs
  have Fz : Focus h₀ h₁ (⟨d, .red, p, s'⟩ :: ⟨d, .black, g, u⟩ :: gs) z :=
    focus_cons.2 F₁
  obtain ⟨h₂, hrun₂, F₂⟩ := F₁.setColor_ok .black
  obtain ⟨h₃, hrun₃, F₃⟩ := (focus_cons.1 F₂).setColor_ok .red
  have Frot : Focus h₀ h₃ gs
      (.node d.other .red u g (.node d.other .black s' p z)) := by
    rw [ColorTree.node_other, ColorTree.node_other]
    exact F₃
  obtain ⟨h₄, hrun₄, F₄⟩ := Frot.rotate_ok
  rw [ColorTree.node_other, ColorTree.node_other] at F₄
  have hcolor := (focus_sibling.1 Fp).colorOf_ok
  refine ⟨h₄, z, p, .node d .red s' g u, ?_, F₄, hz, hs'.node_red hu, ?_⟩
  · rw [insertFixupSide, bind_ok (child_ok F.node_eq), nodeOf_child_other,
      bind_ok hcolor, hu.rootColor, if_neg (fun hc => nomatch hc),
      bind_ok hrun₁, bind_ok (Fz.parentOf_ok hz.ne_nil_of_red), top_cons,
      bind_ok (RbTree.parentOf_ok F₁.node_eq), nodeOf_parent, top_cons,
      bind_ok hrun₂, bind_ok hrun₃, bind_ok hrun₄]
    rfl
  · exact ColorTree.entries_rotate.trans
      (ColorTree.entries_node_congr (c := .black) hentries rfl)

-- ============================================================ the loop

/-- The loop ends, and with a black root the tree is balanced. -/
theorem insertFixupLoop_ok (F : Focus h₀ h fs t) (ht : Balanced t .red n)
    (hfs : Hole fs n) (hfuel : fs.length < fuel) :
    ∃ h' t', insertFixupLoop fuel (ptr t) h = .ok ((), h')
      ∧ Focus h₀ h' [] t' ∧ t' ≠ .nil ∧ t'.entries = (zip fs t).entries
      ∧ ∃ m, Balanced t'.blacken .black m := by
  induction fuel generalizing fs t n h with
  | zero => omega
  | succ fuel ih =>
  have hnil := ht.ne_nil_of_red
  cases hfs with
  | root =>
      exact ⟨h, t, insertFixupLoop_stop F hnil (.inl rfl), F, hnil, rfl,
        ht.blacken⟩
  | black hs hfs =>
      obtain ⟨m, hm⟩ := (Hole.black hs hfs).fill ht (fun _ => rfl)
      exact ⟨h, _, insertFixupLoop_stop F hnil (.inr rfl), focus_root.1 F,
        zip_ne_nil hnil, rfl, hm.blacken⟩
  | @red d' e s _ fs hs htop hfs =>
      cases hfs with
      | root => exact htop.elim
      | red => exact nomatch htop
      | @black d g u cu _ gs hu hgs =>
          have Fg := focus_cons.1 (focus_cons.1 F)
          have hne := (focus_cons.1 F).ptr_ne_sibling
            (.inl (by rw [ptr_plug]; exact F.top_ne_null))
          obtain ⟨l, hl, hside⟩ := (focus_cons.1 F).side_ok hne
          rw [ptr_plug] at hside
          have hlen : gs.length < fuel := by
            simp only [List.length_cons] at hfuel
            omega
          have hpass : insertFixupLoop (fuel + 1) (ptr t) h
              = (insertFixupSide d (ptr t) e.addr g.addr
                  >>= insertFixupLoop fuel) h := by
            rw [insertFixupLoop, bind_ok (F.parentOf_ok hnil), top_cons,
              bind_ok F.colorOf_top, if_pos rfl]
            have hpp := (focus_cons.1 F).parentOf_ok plug_ne_nil
            rw [ptr_plug] at hpp
            rw [bind_ok hpp, top_cons, bind_ok hl, hside]
          rw [hpass]
          cases cu with
          | red =>
              obtain ⟨h', u', hrun, F', hu', hentries⟩ :=
                insertFixupSide_recolor Fg hu
              obtain ⟨h'', t', hloop, F'', hne', hent, hbal⟩ :=
                ih F' ((ht.node_black hs).node_red hu') hgs hlen
              rw [bind_ok hrun]
              rw [ptr_node] at hloop
              refine ⟨h'', t', hloop, F'', hne', hent.trans ?_, hbal⟩
              refine entries_zip_congr _ ?_
              exact ColorTree.entries_node_congr ColorTree.entries_recolor hentries
          | black =>
              obtain ⟨h', z, p, s', hrun, F', hz, hs', hentries⟩ :=
                insertFixupSide_rotate Fg ht hs hu
              have Fz : Focus h₀ h' (⟨d, .black, p, s'⟩ :: gs) z :=
                focus_cons.2 F'
              obtain ⟨k, rfl⟩ : ∃ k, fuel = k + 1 := ⟨fuel - 1, by omega⟩
              obtain ⟨m, hm⟩ := hgs.fill (hz.node_black (d := d) (e := p) hs')
                (fun hc => nomatch hc)
              rw [bind_ok hrun,
                insertFixupLoop_stop Fz hz.ne_nil_of_red (.inr rfl)]
              exact ⟨h', _, rfl, focus_root.1 F', zip_ne_nil ColorTree.node_ne_nil,
                entries_zip_congr _ hentries, hm.blacken⟩

/-- `insert_fixup` restores a balanced tree with the same entries. -/
theorem insertFixup_ok (F : Focus h₀ h fs t) (ht : Balanced t .red n)
    (hfs : Hole fs n) (hfuel : fs.length < fuel) :
    ∃ h' t', insertFixup fuel (ptr t) h = .ok ((), h')
      ∧ Focus h₀ h' [] t' ∧ t'.entries = (zip fs t).entries
      ∧ ∃ m, Balanced t' .black m := by
  obtain ⟨h₁, t₁, hrun₁, F₁, hne, hentries, hbal⟩ :=
    insertFixupLoop_ok F ht hfs hfuel
  rcases t₁.eq_nil_or_node .left with heq | ⟨c, a, e, b, heq⟩
  · exact absurd heq hne
  · subst heq
    obtain ⟨h₂, hrun₂, F₂⟩ := F₁.setColor_ok .black
    refine ⟨h₂, _, ?_, F₂, ColorTree.entries_recolor.trans hentries, ?_⟩
    · rw [insertFixup, bind_ok hrun₁, bind_ok F₁.loadRoot_ok, ptr_node, hrun₂]
    · rwa [ColorTree.blacken_node] at hbal

end RsMalloc.RbTree
