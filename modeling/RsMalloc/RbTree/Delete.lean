/-
The repair after a deletion (`delete_fixup`).

The loop holds a subtree `x`, possibly empty, in a hole that is one
black node higher than `x`. As long as `x` is black its sibling has
positive black height, so `w` is never null and neither is the nephew
that a rotation lifts. A pass either moves the shortage one frame up or
ends it by rotations at the parent.
-/
import RsMalloc.RbTree.Insert

namespace RsMalloc.RbTree

open RedBlack

variable {h h₀ : RBTree} {d : Side} {c : Color} {e : Entry}
  {t s a b : ColorTree Entry} {f : Frame Entry} {fs gs : List (Frame Entry)}
  {n fuel : Nat}

/-- One black node short of height `n + 1`: black and balanced at `n`,
or red and balanced at `n + 1` once its root is black. -/
def Short (t : ColorTree Entry) (n : Nat) : Prop :=
  Balanced t .black n
    ∨ t.rootColor = .red ∧ Balanced t.blacken .black (n + 1)

-- ====================================================== stopping cases

/-- The root pointer is the outermost frame. -/
theorem FramesAt.root_mem {N : Ptr → Option Node} {root q : Ptr}
    (hfs : FramesAt N root (f :: fs) q) :
    root ∈ frameAddrs (f :: fs) ∧ root ≠ 0 := by
  induction fs generalizing f q with
  | nil =>
      obtain ⟨h0, -, -, hroot⟩ := hfs
      rw [show root = f.entry.addr from hroot]
      exact ⟨List.mem_cons_self, h0⟩
  | cons g fs ih =>
      obtain ⟨hmem, h0⟩ := ih hfs.2.2.2
      exact ⟨List.mem_cons_of_mem _ (List.mem_append_right _ hmem), h0⟩

theorem Focus.ptr_ne_root (F : Focus h₀ h (f :: fs) t) : ptr t ≠ h.root := by
  obtain ⟨hmem, h0⟩ := F.frames.root_mem
  intro heq
  have ht : ptr t ∈ addrs t := ptr_mem_addrs (by rwa [heq])
  exact (List.nodup_append.1 F.nodup).2.2 _ ht _ hmem heq

theorem deleteFixupLoop_red {xp : Ptr} (F : Focus h₀ h fs t)
    (ht : t.rootColor = .red) :
    deleteFixupLoop (fuel + 1) (ptr t) xp h = .ok (ptr t, h) := by
  rw [deleteFixupLoop, bind_ok (show loadRoot h = .ok (h.root, h) from rfl),
    bind_ok F.colorOf_ok, ht, if_neg (fun hc => nomatch hc.2)]
  rfl

theorem deleteFixupLoop_root {xp : Ptr} (F : Focus h₀ h [] t) :
    deleteFixupLoop (fuel + 1) (ptr t) xp h = .ok (ptr t, h) := by
  have hroot : h.root = ptr t := F.frames
  rw [deleteFixupLoop, bind_ok (show loadRoot h = .ok (h.root, h) from rfl),
    bind_ok F.colorOf_ok, if_neg (fun hc => hc.1 hroot.symm)]
  rfl

-- =========================================================== one pass

/-- A red sibling is rotated away: afterwards the sibling is black, and
either the frames above are the same or the parent is red. -/
theorem deleteFixupSibling_ok (F : Focus h₀ h (⟨d, c, e, s⟩ :: fs) t)
    (hfs : Hole (⟨d, c, e, s⟩ :: fs) (n + 1)) :
    ∃ h' c' s' fs', deleteFixupSibling d e.addr (ptr s) h = .ok (ptr s', h')
      ∧ Focus h₀ h' (⟨d, c', e, s'⟩ :: fs') t
      ∧ Hole (⟨d, c', e, s'⟩ :: fs') (n + 1) ∧ Balanced s' .black (n + 1)
      ∧ (zip (⟨d, c', e, s'⟩ :: fs') t).entries
        = (zip (⟨d, c, e, s⟩ :: fs) t).entries
      ∧ (fs' = fs ∨ c' = .red) := by
  have hcolor := (focus_sibling.1 F).colorOf_ok
  obtain ⟨cs, hs, hred⟩ := hfs.sibling
  cases cs with
  | black =>
      refine ⟨h, c, s, fs, ?_, F, hfs, hs, rfl, .inl rfl⟩
      rw [deleteFixupSibling, bind_ok hcolor, hs.rootColor,
        if_neg (fun hc => nomatch hc)]
      rfl
  | red =>
      obtain ⟨hc, hup⟩ := hred rfl
      subst hc
      obtain ⟨near, w, far, heq, hnear, hfar⟩ := hs.exists_node_of_red d
      subst heq
      obtain ⟨h₁, hrun₁, F₁⟩ :=
        (focus_sibling.1 F).setColor_ok .black
      obtain ⟨h₂, hrun₂, F₂⟩ :=
        (focus_cons.1 (focus_sibling.2 F₁)).setColor_ok .red
      obtain ⟨h₃, hrun₃, F₃⟩ := F₂.rotate_ok
      have F₃' : Focus h₀ h₃ (⟨d, .black, w, far⟩ :: fs)
          (.node d .red t e near) := focus_cons.2 F₃
      refine ⟨h₃, .red, near, ⟨d, .black, w, far⟩ :: fs, ?_,
        focus_cons.2 F₃', .red hnear rfl (.black hfar hup), hnear, ?_,
        .inr rfl⟩
      · rw [deleteFixupSibling, bind_ok hcolor, ColorTree.rootColor_node,
          if_pos rfl, ptr_node, bind_ok hrun₁, bind_ok hrun₂,
          bind_ok hrun₃, child_ok F₃'.node_eq, nodeOf_child_other]
      · exact entries_zip_congr fs ColorTree.entries_rotate.symm

/-- After the inner rotation the far nephew is red. -/
theorem deleteFixupNephew_ok {w : Entry} {ca cb : Color}
    (F : Focus h₀ h (⟨d, c, e, .node d .black a w b⟩ :: fs) t)
    (ha : Balanced a ca n) (hb : Balanced b cb n)
    (hred : ¬ (ca = .black ∧ cb = .black)) :
    ∃ h' a' w' b' ca', deleteFixupNephew d e.addr w.addr h
        = .ok (w'.addr, h')
      ∧ Focus h₀ h' (⟨d, c, e, .node d .black a' w' b'⟩ :: fs) t
      ∧ Balanced a' ca' n ∧ Balanced b' .red n
      ∧ (ColorTree.node d .black a' w' b').entries
        = (ColorTree.node d .black a w b).entries := by
  have Fw := focus_sibling.1 F
  have Ffar : Focus h₀ h (⟨d.other, .black, w, a⟩ :: ⟨d.other, c, e, t⟩ :: fs)
      b := by
    refine focus_cons.2 ?_
    rw [Frame.plug, ColorTree.node_other]
    exact Fw
  cases cb with
  | red =>
      refine ⟨h, a, w, b, ca, ?_, F, ha, hb, rfl⟩
      rw [deleteFixupNephew, bind_ok (child_ok Fw.node_eq),
        nodeOf_child_other, bind_ok Ffar.colorOf_ok, hb.rootColor,
        if_neg Color.noConfusion]
      rfl
  | black =>
      cases ca with
      | black => exact absurd ⟨rfl, rfl⟩ hred
      | red =>
          -- the near nephew `v` is red: it rises above `w`
          obtain ⟨b', v, a', heq, hb', ha'⟩ := ha.exists_node_of_red d.other
          subst heq
          have Fnear := focus_sibling.1 Ffar
          obtain ⟨h₁, hrun₁, F₁⟩ := Fnear.setColorNonNull_ok .black
          obtain ⟨h₂, hrun₂, F₂⟩ :=
            (focus_cons.1 (focus_sibling.2 F₁)).setColor_ok .red
          obtain ⟨h₃, hrun₃, F₃⟩ := F₂.rotate_ok
          have F₃' : Focus h₀ h₃
              (⟨d, c, e, .node d .black a' v (.node d .red b' w b)⟩ :: fs)
              t := by
            refine focus_sibling.2 ?_
            rw [ColorTree.node_other, ColorTree.node_other] at F₃
            exact F₃
          refine ⟨h₃, a', v, .node d .red b' w b, .black, ?_, F₃', ha',
            hb'.node_red hb, ?_⟩
          · rw [deleteFixupNephew, bind_ok (child_ok Fw.node_eq),
              nodeOf_child_other, bind_ok Ffar.colorOf_ok, hb.rootColor,
              if_pos rfl, bind_ok (child_ok Fw.node_eq), nodeOf_child,
              ptr_node, bind_ok hrun₁, bind_ok hrun₂, bind_ok hrun₃,
              child_ok F₃'.frames.2.1, nodeOf_child_other, ptr_node]
          · rw [ColorTree.node_other]
            exact ColorTree.entries_rotate

/-- With a red nephew the pass ends the shortage. -/
theorem deleteFixupFinish_ok {w : Entry} {ca cb : Color}
    (F : Focus h₀ h (⟨d, c, e, .node d .black a w b⟩ :: fs) t)
    (hfs : Hole (⟨d, c, e, .node d .black a w b⟩ :: fs) (n + 1))
    (ht : Balanced t .black n) (ha : Balanced a ca n) (hb : Balanced b cb n)
    (hred : ¬ (ca = .black ∧ cb = .black)) :
    ∃ h' t', deleteFixupFinish d e.addr w.addr h = .ok ((ptr t', 0), h')
      ∧ Focus h₀ h' [] t'
      ∧ t'.entries
        = (zip (⟨d, c, e, .node d .black a w b⟩ :: fs) t).entries
      ∧ ∃ m, Balanced t' .black m := by
  obtain ⟨h₁, a', w', b', ca', hrun₁, F₁, ha', hb', hentries⟩ :=
    deleteFixupNephew_ok F ha hb hred
  have Fe := focus_cons.1 F₁
  obtain ⟨h₂, hrun₂, F₂⟩ := (focus_sibling.1 F₁).setColor_ok c
  obtain ⟨h₃, hrun₃, F₃⟩ :=
    (focus_cons.1 (focus_sibling.2 F₂)).setColor_ok .black
  -- down to the far nephew, which turns black
  have Fw : Focus h₀ h₃ (⟨d.other, .black, e, t⟩ :: fs)
      (.node d c a' w' b') := focus_sibling.1 (focus_cons.2 F₃)
  obtain ⟨x, v, y, heq, hx, hy⟩ := hb'.exists_node_of_red d
  subst heq
  have Fv : Focus h₀ h₃
      (⟨d.other, c, w', a'⟩ :: ⟨d.other, .black, e, t⟩ :: fs)
      (.node d .red x v y) := by
    refine focus_cons.2 ?_
    rw [Frame.plug, ColorTree.node_other]
    exact Fw
  obtain ⟨h₄, hrun₄, F₄⟩ := Fv.setColorNonNull_ok .black
  have Frot : Focus h₀ h₄ fs
      (.node d .black t e (.node d c a' w' (.node d .black x v y))) := by
    have F₄' := focus_cons.1 F₄
    rw [Frame.plug, ColorTree.node_other] at F₄'
    exact focus_cons.1 (focus_sibling.2 F₄')
  obtain ⟨h₅, hrun₅, F₅⟩ := Frot.rotate_ok
  have Froot := focus_root.1 F₅
  refine ⟨h₅, _, ?_, Froot, ?_, ?_⟩
  · have hroot := Froot.loadRoot_ok
    rw [deleteFixupFinish, bind_ok hrun₁, bind_ok (colorAt_ok Fe.node_eq),
      nodeOf_color, bind_ok hrun₂, bind_ok hrun₃,
      bind_ok (child_ok Fw.node_eq), nodeOf_child_other, ptr_node,
      bind_ok hrun₄, bind_ok hrun₅, bind_ok hroot]
    rfl
  · have hw : (ColorTree.node d c a' w' (.node d .black x v y)).entries
        = (ColorTree.node d .black a w b).entries :=
      (ColorTree.entries_node_congr rfl ColorTree.entries_recolor).trans hentries
    have hrot : (ColorTree.node d c (.node d .black t e a') w'
          (.node d .black x v y)).entries
        = (ColorTree.node d c t e (.node d c a' w' (.node d .black x v y))).entries :=
      ColorTree.entries_rotate.symm
    exact entries_zip_congr fs
      (hrot.trans (ColorTree.entries_node_congr rfl hw))
  · have hleft := ht.node_black (d := d) (e := e) ha'
    have hright := hx.node_black (d := d) (e := v) hy
    cases hfs with
    | black _ hup =>
        exact hup.fill (hleft.node_black hright) Color.noConfusion
    | red _ htop hup => exact hup.fill (hleft.node_red hright) (fun _ => htop)

/-- One pass: the shortage moves to the parent, or it is over. -/
theorem deleteFixupSide_ok (F : Focus h₀ h (⟨d, c, e, s⟩ :: fs) t)
    (hfs : Hole (⟨d, c, e, s⟩ :: fs) (n + 1)) (ht : Balanced t .black n) :
    (∃ h' t' fs' n', deleteFixupSide d e.addr h = .ok ((ptr t', top fs'), h')
      ∧ Focus h₀ h' fs' t' ∧ Short t' n' ∧ Hole fs' (n' + 1)
      ∧ (zip fs' t').entries = (zip (⟨d, c, e, s⟩ :: fs) t).entries
      ∧ (fs' = fs ∨ t'.rootColor = .red))
    ∨ ∃ h' t', deleteFixupSide d e.addr h = .ok ((ptr t', 0), h')
      ∧ Focus h₀ h' [] t'
      ∧ t'.entries = (zip (⟨d, c, e, s⟩ :: fs) t).entries
      ∧ ∃ m, Balanced t' .black m := by
  obtain ⟨h₁, c₁, s₁, fs₁, hrun₁, F₁, hfs₁, hs₁, hentries₁, hup⟩ :=
    deleteFixupSibling_ok F hfs
  obtain ⟨a, w, b, heq⟩ := hs₁.exists_node d
  subst heq
  obtain ⟨-, k, ca, cb, hk, ha, hb⟩ := hs₁.of_node_black
  obtain rfl : n = k := Nat.succ.inj hk
  have Fw := focus_sibling.1 F₁
  have Fnear : Focus h₀ h₁ (⟨d, .black, w, b⟩ :: ⟨d.other, c₁, e, t⟩ :: fs₁)
      a := focus_cons.2 Fw
  have hreads : deleteFixupSide d e.addr h
      = (if ca = .black ∧ cb = .black then do
          setColor w.addr .red
          let up ← parentOf e.addr
          pure (e.addr, up)
        else deleteFixupFinish d e.addr w.addr : M (Ptr × Ptr)) h₁ := by
    rw [deleteFixupSide, bind_ok (child_ok F.frames.2.1), nodeOf_child_other,
      bind_ok hrun₁, ptr_node, bind_ok (child_ok Fw.node_eq), nodeOf_child,
      bind_ok Fnear.colorOf_ok, ha.rootColor, bind_ok (child_ok Fw.node_eq),
      nodeOf_child_other, bind_ok (focus_sibling.1 Fnear).colorOf_ok,
      hb.rootColor]
  rw [hreads]
  by_cases hblack : ca = .black ∧ cb = .black
  · left
    obtain ⟨rfl, rfl⟩ := hblack
    obtain ⟨h₂, hrun₂, F₂⟩ := Fw.setColor_ok .red
    have F₂' := focus_cons.1 (focus_sibling.2 F₂)
    have hw := ha.node_red (d := d) (e := w) hb
    have hentries : (zip fs₁ (.node d c₁ t e (.node d .red a w b))).entries
        = (zip (⟨d, c, e, s⟩ :: fs) t).entries :=
      (entries_zip_congr _ (ColorTree.entries_node_congr rfl
        ColorTree.entries_recolor)).trans hentries₁
    have hrun : (do
          setColor w.addr .red
          let up ← parentOf e.addr
          pure (e.addr, up) : M (Ptr × Ptr)) h₁
        = .ok ((ptr (.node d c₁ t e (.node d .red a w b)), top fs₁), h₂) := by
      rw [bind_ok hrun₂, bind_ok (RbTree.parentOf_ok F₂'.node_eq),
        nodeOf_parent, ptr_node]
      rfl
    rw [if_pos ⟨rfl, rfl⟩]
    cases hfs₁ with
    | black _ hhole =>
        refine ⟨h₂, _, fs₁, n + 1, hrun, F₂', .inl (ht.node_black hw), hhole,
          hentries, ?_⟩
        rcases hup with hup | hup
        · exact .inl hup
        · exact nomatch hup
    | red _ htop hhole =>
        refine ⟨h₂, _, fs₁, n, hrun, F₂', .inr ⟨ColorTree.rootColor_node, ?_⟩,
          hhole, hentries, .inr ColorTree.rootColor_node⟩
        rw [ColorTree.blacken_node]
        exact ht.node_black hw
  · right
    rw [if_neg hblack]
    obtain ⟨h₂, t₂, hrun₂, F₂, hentries₂, hbal⟩ :=
      deleteFixupFinish_ok F₁ hfs₁ ht ha hb hblack
    exact ⟨h₂, t₂, hrun₂, F₂, hentries₂.trans hentries₁, hbal⟩

-- ============================================================ the loop

/-- The loop ends at a node whose blackening balances the tree. -/
theorem deleteFixupLoop_ok (F : Focus h₀ h fs t) (ht : Short t n)
    (hfs : Hole fs (n + 1)) (hfuel : fs.length < fuel) :
    ∃ h' t' fs', deleteFixupLoop fuel (ptr t) (top fs) h = .ok (ptr t', h')
      ∧ Focus h₀ h' fs' t' ∧ (zip fs' t').entries = (zip fs t).entries
      ∧ ∃ m, Balanced (zip fs' t'.blacken) .black m := by
  induction fuel generalizing fs t n h with
  | zero => omega
  | succ fuel ih =>
  rcases ht with ht | ⟨hred, hbal⟩
  · cases fs with
    | nil =>
        exact ⟨h, t, [], deleteFixupLoop_root F, F, rfl, ht.blacken⟩
    | cons f fs =>
        obtain ⟨d, c, e, s⟩ := f
        have hlen : fs.length < fuel := by
          simp only [List.length_cons] at hfuel
          omega
        obtain ⟨k, hk⟩ : ∃ k, fuel = k + 1 := ⟨fuel - 1, by omega⟩
        -- the sibling has a root, so the sides can be told apart
        obtain ⟨cs, hs, -⟩ := hfs.sibling
        obtain ⟨sa, se, sb, hseq⟩ := hs.exists_node .left
        have hs0 : ptr s ≠ 0 := by
          rw [hseq, ptr_node]
          have Fs := focus_sibling.1 F
          rw [hseq] at Fs
          exact Fs.addr_ne_null
        obtain ⟨l, hl, hside⟩ := F.side_ok (F.ptr_ne_sibling (.inr hs0))
        have hpass : deleteFixupLoop (fuel + 1) (ptr t)
            (top (⟨d, c, e, s⟩ :: fs)) h
              = (deleteFixupSide d e.addr
                  >>= fun next => deleteFixupLoop fuel next.1 next.2) h := by
          rw [deleteFixupLoop,
            bind_ok (show loadRoot h = .ok (h.root, h) from rfl),
            bind_ok F.colorOf_ok, ht.rootColor, if_pos ⟨F.ptr_ne_root, rfl⟩,
            if_neg F.top_ne_null, top_cons, bind_ok hl, hside]
        rw [hpass]
        rcases deleteFixupSide_ok F hfs ht with
          ⟨h₁, t₁, fs₁, n₁, hrun₁, F₁, ht₁, hfs₁, hent₁, hor⟩
          | ⟨h₁, t₁, hrun₁, F₁, hent₁, m, hm⟩
        · rw [bind_ok hrun₁]
          rcases hor with hor | hor
          · subst hor
            obtain ⟨h₂, t₂, fs₂, hrun₂, F₂, hent₂, hbal₂⟩ :=
              ih F₁ ht₁ hfs₁ hlen
            exact ⟨h₂, t₂, fs₂, hrun₂, F₂, hent₂.trans hent₁, hbal₂⟩
          · subst hk
            refine ⟨h₁, t₁, fs₁, deleteFixupLoop_red F₁ hor, F₁, hent₁, ?_⟩
            rcases ht₁ with ht₁ | ⟨-, ht₁⟩
            · exact nomatch ht₁.rootColor.symm.trans hor
            · exact hfs₁.fill ht₁ (fun hc => nomatch hc)
        · subst hk
          rw [bind_ok hrun₁]
          exact ⟨h₁, t₁, [], deleteFixupLoop_root F₁, F₁, hent₁, hm.blacken⟩
  · exact ⟨h, t, fs, deleteFixupLoop_red F hred, F, rfl,
      hfs.fill hbal (fun hc => nomatch hc)⟩

/-- `delete_fixup` restores a balanced tree with the same entries. -/
theorem deleteFixup_ok (F : Focus h₀ h fs t) (ht : Short t n)
    (hfs : Hole fs (n + 1)) (hfuel : fs.length < fuel) :
    ∃ h' t', deleteFixup fuel (ptr t) (top fs) h = .ok ((), h')
      ∧ Focus h₀ h' [] t' ∧ t'.entries = (zip fs t).entries
      ∧ ∃ m, Balanced t' .black m := by
  obtain ⟨h₁, t₁, fs₁, hrun₁, F₁, hent₁, hbal⟩ :=
    deleteFixupLoop_ok F ht hfs hfuel
  rw [deleteFixup, bind_ok hrun₁]
  rcases t₁.eq_nil_or_node .left with heq | ⟨c, a, e, b, heq⟩
  · subst heq
    exact ⟨h₁, _, rfl, focus_root.1 F₁, hent₁, hbal⟩
  · subst heq
    obtain ⟨h₂, hrun₂, F₂⟩ := F₁.setColorNonNull_ok .black
    rw [ptr_node]
    rw [ColorTree.blacken_node] at hbal
    exact ⟨h₂, _, hrun₂, focus_root.1 F₂,
      (entries_zip_congr _ ColorTree.entries_recolor).trans hent₁, hbal⟩

end RsMalloc.RbTree
