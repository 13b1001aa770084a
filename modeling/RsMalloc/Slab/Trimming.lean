/-
One pass of `trim_small`, alone.

A normal transfer list is detached, sorted into the blocks to give back
and the blocks to put back, and the former are given back one by one.
Sorting writes only links (`SortedOut`); giving back writes only inside
the blocks it gives back, and records each `madvise` call (`Released`).
So a pass over one CPU and class touches nothing but its own blocks, and
a pass over all of them meets each list as it was at the start (`Pass`).
-/
import RsMalloc.Ground.Fields
import RsMalloc.Lib.Rows
import RsMalloc.Slab.Transfers

namespace RsMalloc.Slab

open Conc

attribute [local irreducible] Mem.load

variable {cfg : Config} {E : Env → Prop} {halts : Prop}

-- ================================================================ blocks

/-- `page_start` of `release_memory`. -/
def pagesFrom (header : Nat) : Nat :=
  (header + headerSize + pageSize - 1) / pageSize * pageSize

/-- `page_end` of `release_memory`. -/
def pagesTo (header size : Nat) : Nat :=
  (header + headerSize + size) / pageSize * pageSize

/-- At least one whole page lies inside the payload. -/
def HasPage (header size : Nat) : Prop := pagesFrom header < pagesTo header size

instance (header size : Nat) : Decidable (HasPage header size) :=
  inferInstanceAs (Decidable (_ < _))

/-- The bytes of a block, header and payload. -/
def blockBytes (class_ : Nat) : Nat := headerSize + sizeClass class_

/-- The block is old enough to be given back: in use before, and free
for longer than `age`. -/
def Cold (m : Mem) (stamp age header : Nat) : Prop :=
  stamp - Header.lifeTime m header > age ∧ Header.flags m header = 2

instance (m : Mem) (stamp age header : Nat) :
    Decidable (Cold m stamp age header) :=
  inferInstanceAs (Decidable (_ ∧ _))

/-- Different blocks of one class that do not overlap. -/
abbrev BlockRow (class_ : Nat) (l : List Nat) : Prop :=
  Row userLimit (blockBytes class_) l

namespace BlockRow

variable {class_ a : Nat} {l q : List Nat} {m m' : Mem}

section Headers

variable (h : BlockRow class_ l) (ha : a ∈ l)
include h ha

/-- Headers of different blocks do not overlap. -/
theorem headers {b : Nat} (hb : b ∈ l) (hne : b ≠ a) :
    b + 16 ≤ a ∨ a + blockBytes class_ ≤ b := by
  have := h.apart b hb a ha hne
  simp only [blockBytes, headerSize] at this ⊢
  omega

/-- A change inside one block is not seen in the links of others. -/
theorem seg (hm : Mem.Only a (blockBytes class_) m m') {p r : Nat}
    (hq : ∀ b ∈ q, b ∈ l ∧ b ≠ a) (hs : LinkedSeg (Header.next m) p q r) :
    LinkedSeg (Header.next m') p q r := by
  refine hs.congr fun b hb => hm.load ?_
  have := h.headers ha (hq b hb).1 (hq b hb).2
  omega

/-- A new link is not seen in lists of other blocks. -/
theorem setNext_seg {g : Ground} {v p r : Nat} (hq : ∀ b ∈ q, b ∈ l)
    (hna : a ∉ q) (hs : LinkedSeg (Header.next g.mem) p q r) :
    LinkedSeg (Header.next (Header.setNext a v g).mem) p q r := by
  refine h.seg ha (.store (le_refl _) ?_)
    (fun b hb => ⟨hq b hb, fun heq => hna (heq ▸ hb)⟩) hs
  simp only [blockBytes, headerSize]
  omega

theorem lt : a < 2 ^ 64 := by
  have := h.top a ha
  simp only [userLimit] at this
  omega

end Headers

/-- The head of a list of blocks is a block or null. -/
theorem head_lt (h : BlockRow class_ l) {p : Nat} (hq : ∀ b ∈ q, b ∈ l)
    (hs : LinkedSeg (Header.next m) p q 0) : p < 2 ^ 64 := by
  cases q with
  | nil =>
      rw [show p = 0 from hs]
      decide
  | cons b q =>
      rw [hs.head_eq]
      exact h.lt (hq b (List.mem_cons_self ..))

end BlockRow

variable {l : List Nat}

theorem setNext_onlyAt {a v : Nat} {g : Ground} (ha : a ∈ l) :
    Mem.OnlyAt l 8 g.mem (Header.setNext a v g).mem :=
  .of_only (.store (le_refl _) (le_refl _)) ha (le_refl _) (le_refl _)

/-- The state beside the lists of one CPU and class, and beside
memory. -/
structure Beside (class_ cpu : Nat) (s s' : State) : Prop where
  list : ∀ k, ¬ OfCpu k class_ cpu → s'.list k = s.list k
  stamp : s'.stamp = s.stamp
  trimLock : s'.trimLock = s.trimLock
  ages : s'.ages = s.ages

namespace Beside

variable {class_ cpu : Nat} {s s' s'' : State}

theorem refl (class_ cpu : Nat) (s : State) : Beside class_ cpu s s :=
  ⟨fun _ _ => rfl, rfl, rfl, rfl⟩

theorem trans (h : Beside class_ cpu s s') (h' : Beside class_ cpu s' s'') :
    Beside class_ cpu s s'' where
  list k hk := (h'.list k hk).trans (h.list k hk)
  stamp := h'.stamp.trans h.stamp
  trimLock := h'.trimLock.trans h.trimLock
  ages := h'.ages.trans h.ages

theorem onGround (f : Ground → Ground) : Beside class_ cpu s (s.onGround f) :=
  ⟨fun _ _ => rfl, rfl, rfl, rfl⟩

theorem of_pushed {k : Shelf} {start tail : Nat}
    (h : Pushed k start tail s s') (hk : OfCpu k class_ cpu) :
    Beside class_ cpu s s' where
  list k' hk' := by
    rw [h.list, Function.update_of_ne]
    rintro rfl
    exact hk' hk
  stamp := h.stamp
  trimLock := h.trimLock
  ages := h.ages

end Beside

-- =============================================================== sorting

/-- What sorting has done once it has come to the lists in `w`: the
blocks of `t` wait to be given back. -/
structure SortedOut (class_ cpu : Nat) (l : List Nat) (s s' : State)
    (t : List Nat) (w : Sorted) : Prop where
  mem : Mem.OnlyAt l 8 s.ground.mem s'.ground.mem
  beside : Beside class_ cpu s s'
  advice : s'.advice = s.advice
  seg : LinkedSeg (Header.next s'.ground.mem) w.trimList t 0
  start : w.totalPush ≠ 0 → w.pushListStart ∈ l ∧ w.pushListStart ∉ t

variable {class_ : Nat} {cpu : Nat} {s : State}

theorem SortedOut.after {t : List Nat} {s₁ s₂ : State} {w : Sorted}
    (h : SortedOut class_ cpu l s₁ s₂ t w)
    (hmem : Mem.OnlyAt l 8 s.ground.mem s₁.ground.mem)
    (hbeside : Beside class_ cpu s s₁) (hadvice : s₁.advice = s.advice) :
    SortedOut class_ cpu l s s₂ t w :=
  ⟨hmem.trans h.mem, hbeside.trans h.beside, h.advice.trans hadvice, h.seg,
    h.start⟩

/-- Links are not what a block is judged by. -/
theorem cold_congr {stamp age h : Nat} {m m' : Mem} (hrow : BlockRow class_ l)
    (hm : Mem.OnlyAt l 8 m m') (hh : h ∈ l) :
    Cold m' stamp age h ↔ Cold m stamp age h := by
  have hd : ∀ b ∈ l, h + 16 ≤ b ∨ b + 8 ≤ h + 8 := by
    intro b hb
    by_cases hbh : b = h
    · omega
    · have := hrow.headers hb hh (Ne.symm hbh)
      simp only [blockBytes, headerSize] at this
      omega
  have hflags : Header.flags m' h = Header.flags m h :=
    hm.load fun b hb => by
      have := hd b hb
      omega
  have hlife : Header.lifeTime m' h = Header.lifeTime m h :=
    hm.load fun b hb => by
      have := hd b hb
      omega
  rw [Cold, Cold, hflags, hlife]

/-- Links do not change which blocks are cold. -/
theorem filter_cold_congr {stamp age : Nat} {r : List Nat} {m m' : Mem}
    (hrow : BlockRow class_ l) (hm : Mem.OnlyAt l 8 m m')
    (hr : ∀ b ∈ r, b ∈ l) :
    r.filter (Cold m' stamp age ·) = r.filter (Cold m stamp age ·) :=
  List.filter_congr fun b hb =>
    decide_eq_decide.2 (cold_congr hrow hm (hr b hb))

/-- Where sorting stands at `next`: the blocks of `r` are ahead, those
of `t` wait to be given back, and the block the batch ends with is
neither. -/
structure SortsAlone (l : List Nat) (m : Mem) (next : Nat) (w : Sorted)
    (r t : List Nat) : Prop where
  nodup : (t ++ r).Nodup
  sub : ∀ b ∈ t ++ r, b ∈ l
  nonnull : 0 ∉ r
  ahead : LinkedSeg (Header.next m) next r 0
  waiting : LinkedSeg (Header.next m) w.trimList t 0
  start : w.totalPush ≠ 0 → w.pushListStart ∈ l ∧ w.pushListStart ∉ t ++ r

namespace SortsAlone

variable {class_ next b v start : Nat} {l r t : List Nat} {g : Ground}
  {m : Mem} {w : Sorted}

/-- The block at `next`, which is neither waiting nor ahead of
itself. -/
theorem block (h : SortsAlone l m next w (b :: r) t) :
    b = next ∧ next ≠ 0 ∧ next ∈ l ∧ next ∉ t ++ r
      ∧ LinkedSeg (Header.next m) (Header.next m next) r 0 := by
  obtain ⟨rfl, hrest⟩ := h.ahead
  have hnd := (List.perm_middle.nodup_iff).1 h.nodup
  exact ⟨rfl, fun h₀ => h.nonnull (h₀ ▸ List.mem_cons_self ..),
    h.sub next (by simp), (List.nodup_cons.1 hnd).1, hrest⟩

/-- A new link in a block that is neither waiting nor ahead. -/
theorem setNext (h : SortsAlone l g.mem next w r t) (hrow : BlockRow class_ l)
    (hb : b ∈ l) (hnot : b ∉ t ++ r) :
    SortsAlone l (Header.setNext b v g).mem next w r t where
  nodup := h.nodup
  sub := h.sub
  nonnull := h.nonnull
  ahead := hrow.setNext_seg hb (fun a ha => h.sub a (by simp [ha]))
    (fun hmem => hnot (by simp [hmem])) h.ahead
  waiting := hrow.setNext_seg hb (fun a ha => h.sub a (by simp [ha]))
    (fun hmem => hnot (by simp [hmem])) h.waiting
  start := h.start

/-- On to the next block, whatever the batch is now. -/
theorem tail (h : SortsAlone l m next w (b :: r) t) (w' : Sorted)
    (hlist : w'.trimList = w.trimList)
    (hstart : w'.totalPush ≠ 0 →
      w'.pushListStart ∈ l ∧ w'.pushListStart ∉ t ++ r) :
    SortsAlone l m (Header.next m next) w' r t where
  nodup := (List.nodup_cons.1 (List.perm_middle.nodup_iff.1 h.nodup)).2
  sub a ha := h.sub a
    (List.perm_middle.mem_iff.2 (List.mem_cons_of_mem _ ha))
  nonnull hmem := h.nonnull (List.mem_cons_of_mem _ hmem)
  ahead := h.block.2.2.2.2
  waiting := hlist ▸ h.waiting
  start := hstart

/-- A cold block goes to the front of those that wait. -/
theorem wait (h : SortsAlone l g.mem next w (b :: r) t)
    (hrow : BlockRow class_ l) :
    SortsAlone l (Header.setNext next w.trimList g).mem
      (Header.next g.mem next) { w with trimList := next } r
      (next :: t) := by
  obtain ⟨rfl, -, hin, hnot, -⟩ := h.block
  have hrest := (h.tail w rfl fun hp => ⟨(h.start hp).1, fun hmem =>
    (h.start hp).2 (List.perm_middle.mem_iff.2
      (List.mem_cons_of_mem _ hmem))⟩).setNext (v := w.trimList) hrow hin
        hnot
  have hnext : Header.next (Header.setNext b w.trimList g).mem b
      = w.trimList :=
    Header.next_setNext
      (hrow.head_lt (fun a ha => h.sub a (by simp [ha])) h.waiting)
  refine ⟨List.perm_middle.nodup_iff.1 h.nodup, fun a ha => h.sub a
    (List.perm_middle.mem_iff.2 ha), hrest.nonnull, hrest.ahead,
    ⟨rfl, ?_⟩, fun hp => ⟨(h.start hp).1, fun hmem =>
      (h.start hp).2 (List.perm_middle.mem_iff.2 hmem)⟩⟩
  show LinkedSeg _ (Header.next (Header.setNext b w.trimList g).mem b) t 0
  rw [hnext]
  exact hrest.waiting

/-- The block that the batch with the block at `next` ends with. -/
theorem last (h : SortsAlone l m next w (b :: r) t)
    (hstart : (if w.totalPush = 0 then next else w.pushListStart) = start) :
    start ∈ l ∧ start ∉ t ++ r := by
  obtain ⟨rfl, -, hin, hnot, -⟩ := h.block
  subst hstart
  split
  · exact ⟨hin, hnot⟩
  · next hp =>
    exact ⟨(h.start hp).1, fun hmem => (h.start hp).2
      (List.perm_middle.mem_iff.2 (List.mem_cons_of_mem _ hmem))⟩

end SortsAlone

/-- The first loop of `trim_small`, at the blocks `r` with the blocks of
`t` sorted out. -/
theorem sortList_alone {stamp age : Nat} (hrow : BlockRow class_ l) (fuel : Nat)
    {next : Nat} {w : Sorted} {r t : List Nat} (s : State)
    (hfuel : r.length < fuel) (h : SortsAlone l s.ground.mem next w r t) :
    Alone E halts (sortList cfg class_ cpu stamp age fuel next w)
      (fun w' s' => SortedOut class_ cpu l s s'
        ((r.filter (Cold s.ground.mem stamp age ·)).reverse ++ t) w') s := by
  induction fuel generalizing next w r t s with
  | zero => omega
  | succ fuel ih =>
      rw [sortList]
      cases r with
      | nil =>
          rw [if_pos (show next = 0 from h.ahead)]
          have hstart := h.start
          rw [List.append_nil] at hstart
          exact Alone.ret ⟨.refl _ _ _, .refl .., rfl, h.waiting, hstart⟩
      | cons b r =>
          obtain ⟨rfl, hne, hin, hnot, -⟩ := h.block
          rw [if_neg hne]
          apply Alone.bind
          apply Alone.read
          dsimp only
          rw [List.length_cons] at hfuel
          have hsub : ∀ a ∈ r, a ∈ l := fun a ha => h.sub a (by simp [ha])
          split
          · next hcold =>
            apply Alone.bind
            apply Alone.modify
            have hm := setNext_onlyAt (v := w.trimList) (g := s.ground) hin
            have hkeep : (b :: r).filter (Cold s.ground.mem stamp age ·)
                = b :: r.filter (Cold s.ground.mem stamp age ·) :=
              List.filter_cons_of_pos (decide_eq_true_iff.2 hcold)
            rw [hkeep, List.reverse_cons, List.append_assoc,
              ← filter_cold_congr hrow hm hsub]
            refine (ih (s.onGround _) (by omega) (h.wait hrow)).mono
              fun w' s' h' => ?_
            exact h'.after hm (.onGround _) rfl
          · next hcold =>
            apply Alone.bind
            apply Alone.modify
            have hm := setNext_onlyAt (v := w.pushList) (g := s.ground) hin
            have hdrop : (b :: r).filter (Cold s.ground.mem stamp age ·)
                = r.filter (Cold s.ground.mem stamp age ·) :=
              List.filter_cons_of_neg (mt decide_eq_true_iff.1 hcold)
            rw [hdrop]
            generalize hstart : (if w.totalPush = 0 then b
              else w.pushListStart) = start
            have hlast := h.last hstart
            split
            · -- the batch is full and goes back to the list
              refine (transferPush_alone _ class_ b start cpu _).seq
                fun _ s₂ hpush => ?_
              have hg₂ : s₂.ground = Header.setNext start
                  (s.list (.mail cpu class_))
                  (Header.setNext b w.pushList s.ground) := hpush.ground
              have hm₂ : Mem.OnlyAt l 8 s.ground.mem s₂.ground.mem := by
                rw [hg₂]
                exact hm.trans (setNext_onlyAt hlast.1)
              have hnext := ((h.tail { w with
                  pushList := 0, pushListStart := 0, totalPush := 0 } rfl
                fun hp => absurd rfl hp).setNext (v := w.pushList) hrow hin
                  hnot).setNext (v := s.list (.mail cpu class_)) hrow
                    hlast.1 hlast.2
              rw [← hg₂] at hnext
              rw [← filter_cold_congr hrow hm₂ hsub]
              refine (ih s₂ (by omega) hnext).mono fun w' s' h' => ?_
              exact h'.after hm₂ ((Beside.onGround _).trans
                (.of_pushed hpush (Or.inl rfl))) hpush.advice
            · have hnext := (h.tail { w with
                  pushList := b, pushListStart := start,
                  totalPush := w.totalPush + 1 } rfl
                fun _ => hlast).setNext (v := w.pushList) hrow hin hnot
              rw [← filter_cold_congr hrow hm hsub]
              refine (ih (s.onGround _) (by omega) hnext).mono
                fun w' s' h' => ?_
              exact h'.after hm (.onGround _) rfl

-- ============================================================ giving back

/-- The bytes that count for the calls that succeeded. -/
def counted (log : List Advice) : Nat :=
  ((log.filter (·.ok)).map (·.size)).sum

/-- The bytes of the ranges for which `madvise` succeeded. -/
def advised (log : List Advice) : Nat :=
  ((log.filter (·.ok)).map (·.len)).sum

theorem counted_append (l₁ l₂ : List Advice) :
    counted (l₁ ++ l₂) = counted l₁ + counted l₂ := by
  rw [counted, List.filter_append, List.map_append, List.sum_append]
  rfl

theorem advised_append (l₁ l₂ : List Advice) :
    advised (l₁ ++ l₂) = advised l₁ + advised l₂ := by
  rw [advised, List.filter_append, List.map_append, List.sum_append]
  rfl

/-- The call that `release_memory` makes for a block. -/
structure CallFor (E : Env → Prop) (class_ : Nat) (e : Advice) : Prop where
  size : e.size = sizeClass class_
  page : HasPage e.block e.size
  start : e.start = pagesFrom e.block
  len : e.len = pagesTo e.block e.size - pagesFrom e.block
  answer : ∃ i, E i ∧ i.ok = e.ok

/-- The blocks of `t` have been given back, as far as the budget goes,
with the calls `log`. -/
structure Released (E : Env → Prop) (class_ cpu requested : Nat)
    (t : List Nat) (total : Nat) (s : State) (log : List Advice)
    (total' : Nat) (s' : State) : Prop where
  advice : s'.advice = log ++ s.advice
  calls : ∀ e ∈ log, e.block ∈ t ∧ CallFor E class_ e
  total_eq : total' = total + counted log
  done : ∀ h ∈ t, HasPage h (sizeClass class_) →
    (requested ≠ 0 ∧ requested ≤ total')
      ∨ ∃ e ∈ log, e.block = h
          ∧ (e.ok = true → Header.flags s'.ground.mem h = 3)
  mem : Mem.OnlyAt t (blockBytes class_) s.ground.mem s'.ground.mem
  beside : Beside class_ cpu s s'

variable {requested : Nat} {total : Nat}

theorem Released.nil :
    Released E class_ cpu requested [] total s [] total s where
  advice := rfl
  calls := nofun
  total_eq := rfl
  done := nofun
  mem := .refl _ _ _
  beside := .refl ..

/-- One block, then the others. -/
theorem Released.cons {h total₁ total₂ : Nat} {t : List Nat} {s₁ s₂ : State}
    {log₁ log₂ : List Advice} (hrow : BlockRow class_ (h :: t))
    (h₁ : Released E class_ cpu requested [h] total s log₁ total₁ s₁)
    (h₂ : Released E class_ cpu requested t total₁ s₁ log₂ total₂ s₂) :
    Released E class_ cpu requested (h :: t) total s (log₂ ++ log₁)
      total₂ s₂ where
  advice := by rw [h₂.advice, h₁.advice, List.append_assoc]
  calls e he := by
    cases List.mem_append.1 he with
    | inl he =>
        exact ⟨List.mem_cons_of_mem _ (h₂.calls e he).1, (h₂.calls e he).2⟩
    | inr he =>
        obtain ⟨hb, hc⟩ := h₁.calls e he
        rw [List.mem_singleton] at hb
        exact ⟨hb ▸ List.mem_cons_self .., hc⟩
  total_eq := by
    rw [h₂.total_eq, h₁.total_eq, counted_append]
    omega
  done b hb hpage := by
    have hle : total₁ ≤ total₂ := by
      rw [h₂.total_eq]
      exact Nat.le_add_right ..
    cases List.mem_cons.1 hb with
    | inl heq =>
        subst heq
        cases h₁.done b (List.mem_singleton_self b) hpage with
        | inl hbudget => exact Or.inl ⟨hbudget.1, hbudget.2.trans hle⟩
        | inr hcall =>
            -- the other blocks leave its header alone
            obtain ⟨e, he, heb, hflag⟩ := hcall
            refine Or.inr ⟨e, List.mem_append_right _ he, heb, fun hok => ?_⟩
            rw [← hflag hok]
            refine h₂.mem.load fun a ha => ?_
            have hne : b ≠ a := fun heq =>
              (List.nodup_cons.1 hrow.nodup).1 (heq ▸ ha)
            have := hrow.headers (List.mem_cons_of_mem _ ha)
              (List.mem_cons_self ..) hne
            omega
    | inr hin =>
        refine (h₂.done b hin hpage).imp_right fun hcall => ?_
        obtain ⟨e, he, hrest⟩ := hcall
        exact ⟨e, List.mem_append_left _ he, hrest⟩
  mem := (h₁.mem.mono (by simp) (le_refl _)).trans
    (h₂.mem.mono (fun a ha => List.mem_cons_of_mem _ ha) (le_refl _))
  beside := h₁.beside.trans h₂.beside

/-- What `release_memory` does to a block, with the call `e`. -/
structure GaveBack (e : Advice) (s s' : State) : Prop where
  mem : Mem.Only (e.block + 16) e.size s.ground.mem s'.ground.mem
  advice : s'.advice = e :: s.advice
  list : s'.list = s.list
  stamp : s'.stamp = s.stamp
  trimLock : s'.trimLock = s.trimLock
  ages : s'.ages = s.ages

theorem GaveBack.discard {e : Advice} (s : State) (keep : Nat → Bool)
    (hlow : e.block + 16 ≤ e.start)
    (hhigh : e.start + e.len ≤ e.block + 16 + e.size) :
    GaveBack e s
      ((s.advise e).onGround (Ground.discard keep e.start e.len)) := by
  refine ⟨fun x hx => if_neg fun hin => hx ?_, rfl, rfl, rfl, rfl, rfl⟩
  omega

theorem GaveBack.refused (e : Advice) (s : State) :
    GaveBack e s (s.advise e) :=
  ⟨fun _ _ => rfl, rfl, rfl, rfl, rfl, rfl⟩

theorem releaseMemory_alone {header : Nat} {Q : Bool → State → Prop}
    (hno : ¬ HasPage header (sizeClass class_) → Q false s)
    (hyes : ∀ e s', e.block = header → CallFor E class_ e →
      GaveBack e s s' → Q e.ok s') :
    Alone E halts (releaseMemory header (sizeClass class_)) Q s := by
  unfold releaseMemory
  dsimp only
  split
  · next hge => exact Alone.ret (hno (Nat.not_lt.2 hge))
  · next hlt =>
    have hpage : HasPage header (sizeClass class_) := Nat.not_le.1 hlt
    have hlow : header + 16 ≤ pagesFrom header := by
      simp only [pagesFrom, headerSize, pageSize]
      omega
    have hhigh : pagesFrom header
        + (pagesTo header (sizeClass class_) - pagesFrom header)
          ≤ header + 16 + sizeClass class_ := by
      rw [Nat.add_sub_cancel' (Nat.le_of_lt hpage)]
      simp only [pagesTo, headerSize, pageSize]
      omega
    refine Alone.atomic fun i hi => ?_
    have hcall : CallFor E class_ ⟨header, sizeClass class_,
        pagesFrom header, pagesTo header (sizeClass class_)
          - pagesFrom header, i.ok⟩ :=
      ⟨rfl, hpage, rfl, rfl, i, hi, rfl⟩
    have hok := hyes _ _ rfl hcall (GaveBack.discard s i.keep hlow hhigh)
    have hrefused := hyes _ _ rfl hcall (GaveBack.refused _ s)
    split
    · next h =>
      rw [h] at hok ⊢
      exact hok
    · next h =>
      rw [Bool.not_eq_true] at h
      rw [h] at hrefused ⊢
      exact hrefused

/-- The second loop has come to a decision about a block: whether its
pages are gone, and with which call. -/
structure Decided (E : Env → Prop) (class_ cpu requested h total : Nat)
    (s : State) (log : List Advice) (didTrim : Bool) (s' : State) :
    Prop where
  advice : s'.advice = log ++ s.advice
  calls : ∀ e ∈ log, e.block = h ∧ CallFor E class_ e
  counted : counted log = if didTrim then sizeClass class_ else 0
  done : HasPage h (sizeClass class_) →
    (requested ≠ 0 ∧ requested ≤ total)
      ∨ ∃ e ∈ log, e.block = h ∧ e.ok = didTrim
  mem : Mem.Only (h + 16) (sizeClass class_) s.ground.mem s'.ground.mem
  beside : Beside class_ cpu s s'

/-- No call is made. -/
theorem Decided.idle {h : Nat} (hdone : HasPage h (sizeClass class_) →
      requested ≠ 0 ∧ requested ≤ total) :
    Decided E class_ cpu requested h total s [] false s where
  advice := rfl
  calls := nofun
  counted := rfl
  done hpage := Or.inl (hdone hpage)
  mem := .refl _ _ _
  beside := .refl ..

/-- The call is made. -/
theorem Decided.call {e : Advice} {s' : State} (hcall : CallFor E class_ e)
    (h : GaveBack e s s') :
    Decided E class_ cpu requested e.block total s [e] e.ok s' where
  advice := h.advice
  calls e' he' := by
    rw [List.mem_singleton] at he'
    subst he'
    exact ⟨rfl, hcall⟩
  counted := by
    rw [← hcall.size]
    cases hok : e.ok with
    | false => simp [Slab.counted, hok]
    | true => simp [Slab.counted, hok]
  done _ := Or.inr ⟨e, List.mem_singleton_self e, rfl, rfl⟩
  mem := by
    rw [← hcall.size]
    exact h.mem
  beside := ⟨fun k _ => by rw [h.list], h.stamp, h.trimLock, h.ages⟩

theorem decide_alone {header : Nat} (cpu : Nat) (s : State) :
    Alone E halts
      (if requested = 0 ∨ total < requested then
        releaseMemory header (sizeClass class_) else pure false)
      (fun didTrim s' => ∃ log,
        Decided E class_ cpu requested header total s log didTrim s') s := by
  split
  · refine releaseMemory_alone (fun hno => ⟨[], .idle fun h => ?_⟩)
      fun e s' heq hcall hback => ?_
    · exact absurd h hno
    · subst heq
      exact ⟨[e], .call hcall hback⟩
  · next hbudget =>
    rw [not_or, Nat.not_lt] at hbudget
    exact Alone.ret ⟨[], .idle fun _ => hbudget⟩

/-- The rest of the second loop's body: the block is marked and put
back. -/
theorem putBack_alone {stamp h : Nat} {didTrim : Bool} {log : List Advice}
    {s₁ : State} {k : SlabM Nat} {Q : Nat → State → Prop}
    (hd : Decided E class_ cpu requested h total s log didTrim s₁)
    (hk : ∀ s₃, Released E class_ cpu requested [h] total s log
        (if didTrim then total + sizeClass class_ else total) s₃ →
      Alone E halts k Q s₃) :
    Alone E halts
      (do
        Prog.when (didTrim = true)
          (Prog.modify (State.onGround (Header.setFlags h 3)))
        Prog.modify (State.onGround (Header.setLifeTime h stamp))
        (if didTrim then transferPushSingleTrimmed cfg class_ h cpu
        else transferPushSingle cfg class_ h cpu)
        k) Q s₁ := by
  have hmem : Mem.OnlyAt [h] (blockBytes class_) s.ground.mem
      s₁.ground.mem := by
    refine .of_only hd.mem (List.mem_singleton_self h) (by omega) ?_
    simp only [blockBytes, headerSize]
    omega
  have hhead : ∀ {m m' : Mem}, Mem.Only h 16 m m' →
      Mem.OnlyAt [h] (blockBytes class_) m m' := by
    intro m m' hm
    refine .of_only hm (List.mem_singleton_self h) (le_refl _) ?_
    simp only [blockBytes, headerSize]
    omega
  -- the push, from a state with the flags and the stamp written
  have hpush : ∀ {shelf s₂ s₃}, Pushed shelf h h s₂ s₃ →
      OfCpu shelf class_ cpu → s₂.advice = s₁.advice →
      Beside class_ cpu s₁ s₂ →
      Mem.OnlyAt [h] (blockBytes class_) s₁.ground.mem s₂.ground.mem →
      (didTrim = true → Header.flags s₂.ground.mem h = 3) →
      Released E class_ cpu requested [h] total s log
        (if didTrim then total + sizeClass class_ else total) s₃ := by
    intro shelf s₂ s₃ hp hof hadv hbeside hmem₂ hflag
    refine ⟨?_, fun e he => ?_, ?_, fun a ha hpage => ?_, ?_, ?_⟩
    · rw [hp.advice, hadv, hd.advice]
    · exact ⟨List.mem_singleton.2 (hd.calls e he).1, (hd.calls e he).2⟩
    · rw [hd.counted]
      split <;> rfl
    · rw [List.mem_singleton] at ha
      subst ha
      cases hd.done hpage with
      | inl hbudget =>
          refine Or.inl ⟨hbudget.1, ?_⟩
          split <;> omega
      | inr hcall =>
          obtain ⟨e, he, heb, hok⟩ := hcall
          refine Or.inr ⟨e, he, heb, fun heok => ?_⟩
          rw [hp.ground, Header.flags_setNext]
          exact hflag (hok ▸ heok)
    · rw [hp.ground]
      exact (hmem.trans hmem₂).trans (hhead Header.only_setNext)
    · exact (hd.beside.trans hbeside).trans (.of_pushed hp hof)
  cases didTrim with
  | false =>
      refine Alone.bind (Alone.ret (Alone.bind (Alone.modify ?_)))
      refine (transferPush_alone _ class_ h h cpu _).seq
        fun _ s₃ hp => hk s₃ ?_
      exact hpush hp (Or.inl rfl) rfl (.onGround _)
        (hhead Header.only_setLifeTime) Bool.noConfusion
  | true =>
      refine Alone.bind (Alone.modify (Alone.bind (Alone.modify ?_)))
      refine (transferPush_alone _ class_ h h cpu _).seq
        fun _ s₃ hp => hk s₃ ?_
      refine hpush hp (Or.inr rfl) rfl
        ((Beside.onGround _).trans (.onGround _))
        ((hhead Header.only_setFlags).trans (hhead Header.only_setLifeTime))
        fun _ => ?_
      exact Header.flags_setLifeTime.trans (Header.flags_setFlags (by decide))

/-- The second loop of `trim_small`. -/
theorem releaseList_alone {stamp : Nat} (fuel : Nat) {trimList : Nat}
    {t : List Nat} (s : State) (hfuel : t.length < fuel)
    (hrow : BlockRow class_ t) (h0 : 0 ∉ t)
    (ht : LinkedSeg (Header.next s.ground.mem) trimList t 0) :
    Alone E halts
      (releaseList cfg class_ cpu stamp requested fuel trimList total)
      (fun total' s' => ∃ log,
        Released E class_ cpu requested t total s log total' s') s := by
  induction fuel generalizing trimList total t s with
  | zero => omega
  | succ fuel ih =>
      rw [releaseList]
      cases t with
      | nil =>
          rw [if_pos (show trimList = 0 from ht)]
          exact Alone.ret ⟨[], Released.nil⟩
      | cons h t =>
          obtain ⟨rfl, hrest⟩ := ht
          have hne : trimList ≠ 0 := fun hz => h0 (hz ▸ List.mem_cons_self ..)
          rw [if_neg hne]
          apply Alone.bind
          apply Alone.read
          refine (decide_alone cpu s).seq fun didTrim s₁ hd => ?_
          obtain ⟨log₁, hd⟩ := hd
          refine putBack_alone hd fun s₂ h₁ => ?_
          rw [List.length_cons] at hfuel
          have hother : ∀ b ∈ t, b ∈ trimList :: t ∧ b ≠ trimList :=
            fun b hb => ⟨List.mem_cons_of_mem _ hb, fun heq =>
              (List.nodup_cons.1 hrow.nodup).1 (heq ▸ hb)⟩
          -- the links ahead are in other blocks
          have hseg : LinkedSeg (Header.next s₂.ground.mem)
              (Header.next s.ground.mem trimList) t 0 := by
            refine hrest.congr fun b hb => h₁.mem.load fun a ha => ?_
            rw [List.mem_singleton] at ha
            subst ha
            have := hrow.headers (List.mem_cons_self ..) (hother b hb).1
              (hother b hb).2
            omega
          refine (ih s₂ (by omega)
            (hrow.sub (List.nodup_cons.1 hrow.nodup).2
              fun b hb => (hother b hb).1)
            (fun h => h0 (List.mem_cons_of_mem _ h)) hseg).mono
            fun total' s' h₂ => ?_
          obtain ⟨log₂, h₂⟩ := h₂
          exact ⟨log₂ ++ log₁, h₁.cons hrow h₂⟩

-- ================================================================= shards

/-- The CPUs and classes that `trim_small` scans. -/
def shards (cfg : Config) : Set (Nat × Nat) :=
  { p | p.1 < cfg.ncpu ∧ size4096Class ≤ p.2 ∧ p.2 < numSizeClasses }

/-- The blocks of the normal lists that `trim_small` scans, none of
which overlap. -/
abbrev Laid (cfg : Config) (blocks : Nat × Nat → List Nat) : Prop :=
  Rows (shards cfg) userLimit (fun p => blockBytes p.2) blocks

/-- The normal lists of the shards `D` hold these blocks. -/
def Filled (blocks : Nat × Nat → List Nat) (D : Set (Nat × Nat))
    (s : State) : Prop :=
  ∀ p ∈ D, OnList s (.mail p.1 p.2) (blocks p)

/-- The shards `D` have been scanned, with the calls `log`. -/
structure Pass (E : Env → Prop) (requested : Nat)
    (blocks : Nat × Nat → List Nat) (D : Set (Nat × Nat)) (total : Nat)
    (s : State) (log : List Advice) (total' : Nat) (s' : State) : Prop where
  advice : s'.advice = log ++ s.advice
  calls : ∀ e ∈ log, ∃ p ∈ D, e.block ∈ blocks p ∧ CallFor E p.2 e
    ∧ Cold s.ground.mem s.stamp (s'.ages p.1 p.2) e.block
  total_eq : total' = total + counted log
  done : ∀ p ∈ D, ∀ h ∈ blocks p,
    Cold s.ground.mem s.stamp (s'.ages p.1 p.2) h →
    HasPage h (sizeClass p.2) →
    (requested ≠ 0 ∧ requested ≤ total')
      ∨ ∃ e ∈ log, e.block = h
          ∧ (e.ok = true → Header.flags s'.ground.mem h = 3)
  mem : ∀ x, (∀ p ∈ D, ∀ h ∈ blocks p, ¬ (h ≤ x ∧ x < h + blockBytes p.2)) →
    s'.ground.mem x = s.ground.mem x
  list : ∀ k, (∀ p ∈ D, ¬ OfCpu k p.2 p.1) → s'.list k = s.list k
  ages : ∀ p ∉ D, s'.ages p.1 p.2 = s.ages p.1 p.2
  aged : ∀ p ∈ D, blocks p ≠ [] → ∃ i, E i ∧ s'.ages p.1 p.2 = i.age
  stamp : s'.stamp = s.stamp
  trimLock : s'.trimLock = s.trimLock

namespace Pass

variable {requested total total₁ total₂ : Nat}
  {blocks : Nat × Nat → List Nat} {D D₁ D₂ : Set (Nat × Nat)}
  {s s₁ s₂ : State} {log log₁ log₂ : List Advice}

theorem nil : Pass E requested blocks ∅ total s [] total s where
  advice := rfl
  calls := nofun
  total_eq := rfl
  done _ hp := absurd hp (Set.notMem_empty _)
  mem _ _ := rfl
  list _ _ := rfl
  ages _ _ := rfl
  aged _ hp := absurd hp (Set.notMem_empty _)
  stamp := rfl
  trimLock := rfl

section Seen

variable (h : Pass E requested blocks D total s log total₁ s₁)
include h

/-- What lies in no block of the shards is not seen to change. -/
theorem load {a w : Nat} (hd : ∀ p ∈ D, ∀ b ∈ blocks p,
      a + w ≤ b ∨ b + blockBytes p.2 ≤ a) :
    Mem.load w s₁.ground.mem a = Mem.load w s.ground.mem a := by
  refine Mem.load_congr fun x h₁ h₂ => h.mem x fun p hp b hb hin => ?_
  have := hd p hp b hb
  omega

/-- The header of a block of another shard is not changed. -/
theorem header (hlaid : Laid cfg blocks) (hD : D ⊆ shards cfg) {p : Nat × Nat}
    (hp : p ∈ shards cfg) (hpD : p ∉ D) {b a w : Nat} (hb : b ∈ blocks p)
    (hlow : b ≤ a) (hhigh : a + w ≤ b + 16) :
    Mem.load w s₁.ground.mem a = Mem.load w s.ground.mem a := by
  refine h.load fun q hq b' hb' => ?_
  have hne : p ≠ q := fun heq => hpD (heq ▸ hq)
  have := hlaid.apart p hp q (hD hq) hne b hb b' hb'
  simp only [blockBytes, headerSize] at this ⊢
  omega

/-- It is judged as before. -/
theorem cold (hlaid : Laid cfg blocks) (hD : D ⊆ shards cfg) {p : Nat × Nat}
    (hp : p ∈ shards cfg) (hpD : p ∉ D) {b age : Nat} (hb : b ∈ blocks p) :
    Cold s₁.ground.mem s₁.stamp age b ↔ Cold s.ground.mem s.stamp age b := by
  have hflags : Header.flags s₁.ground.mem b = Header.flags s.ground.mem b :=
    h.header hlaid hD hp hpD hb (by omega) (by omega)
  have hlife : Header.lifeTime s₁.ground.mem b
      = Header.lifeTime s.ground.mem b :=
    h.header hlaid hD hp hpD hb (by omega) (by omega)
  rw [Cold, Cold, hflags, hlife, h.stamp]

end Seen

/-- A pass leaves the lists of other shards as they are. -/
theorem filled (h : Pass E requested blocks D₁ total s log total₁ s₁)
    (hlaid : Laid cfg blocks) (hD₁ : D₁ ⊆ shards cfg)
    (hD₂ : D₂ ⊆ shards cfg) (hdisj : Disjoint D₁ D₂)
    (hf : Filled blocks D₂ s) : Filled blocks D₂ s₁ := by
  intro p hp
  have hpD : p ∉ D₁ := Set.disjoint_right.1 hdisj hp
  have hlist : s₁.list (.mail p.1 p.2) = s.list (.mail p.1 p.2) := by
    refine h.list _ fun q hq hof => hpD ?_
    obtain ⟨hc, hv⟩ := OfCpu.unique hof (Or.inl rfl : OfCpu _ p.2 p.1)
    rw [← Prod.ext hv hc]
    exact hq
  refine ⟨?_, (hf p hp).2⟩
  rw [hlist]
  exact (hf p hp).1.congr fun b hb =>
    h.header hlaid hD₁ (hD₂ hp) hpD hb (le_refl _) (by omega)

/-- One pass, then another over other shards. -/
theorem trans (hlaid : Laid cfg blocks)
    (hD₁ : D₁ ⊆ shards cfg) (hD₂ : D₂ ⊆ shards cfg)
    (hdisj : Disjoint D₁ D₂)
    (h₁ : Pass E requested blocks D₁ total s log₁ total₁ s₁)
    (h₂ : Pass E requested blocks D₂ total₁ s₁ log₂ total₂ s₂) :
    Pass E requested blocks (D₁ ∪ D₂) total s (log₂ ++ log₁) total₂ s₂ where
  advice := by rw [h₂.advice, h₁.advice, List.append_assoc]
  calls e he := by
    cases List.mem_append.1 he with
    | inl he =>
        obtain ⟨p, hp, hb, hcall, hcold⟩ := h₂.calls e he
        have hpD : p ∉ D₁ := Set.disjoint_right.1 hdisj hp
        exact ⟨p, Or.inr hp, hb, hcall,
          (h₁.cold hlaid hD₁ (hD₂ hp) hpD hb).1 hcold⟩
    | inr he =>
        obtain ⟨p, hp, hb, hcall, hcold⟩ := h₁.calls e he
        rw [← h₂.ages p (Set.disjoint_left.1 hdisj hp)] at hcold
        exact ⟨p, Or.inl hp, hb, hcall, hcold⟩
  total_eq := by
    rw [h₂.total_eq, h₁.total_eq, counted_append]
    omega
  done p hp b hb hcold hpage := by
    cases hp with
    | inl hp =>
        -- the second pass leaves the header and the age alone
        have hpD : p ∉ D₂ := Set.disjoint_left.1 hdisj hp
        rw [h₂.ages p hpD] at hcold
        cases h₁.done p hp b hb hcold hpage with
        | inl hbudget =>
            refine Or.inl ⟨hbudget.1, hbudget.2.trans ?_⟩
            rw [h₂.total_eq]
            exact Nat.le_add_right ..
        | inr hcall =>
            obtain ⟨e, he, heb, hflag⟩ := hcall
            refine Or.inr ⟨e, List.mem_append_right _ he, heb, fun hok => ?_⟩
            rw [← hflag hok]
            exact h₂.header hlaid hD₂ (hD₁ hp) hpD hb (by omega) (by omega)
    | inr hp =>
        -- the first pass has left the header alone
        have hpD : p ∉ D₁ := Set.disjoint_right.1 hdisj hp
        have hcold := (h₁.cold hlaid hD₁ (hD₂ hp) hpD hb).2 hcold
        refine (h₂.done p hp b hb hcold hpage).imp_right fun hcall => ?_
        obtain ⟨e, he, hrest⟩ := hcall
        exact ⟨e, List.mem_append_left _ he, hrest⟩
  mem x hx := by
    rw [h₂.mem x fun p hp => hx p (Or.inr hp),
      h₁.mem x fun p hp => hx p (Or.inl hp)]
  list k hk := by
    rw [h₂.list k fun p hp => hk p (Or.inr hp),
      h₁.list k fun p hp => hk p (Or.inl hp)]
  ages p hp := by
    rw [Set.mem_union, not_or] at hp
    rw [h₂.ages p hp.2, h₁.ages p hp.1]
  aged p hp hne := by
    cases hp with
    | inl hp =>
        rw [h₂.ages p (Set.disjoint_left.1 hdisj hp)]
        exact h₁.aged p hp hne
    | inr hp => exact h₂.aged p hp hne
  stamp := h₂.stamp.trans h₁.stamp
  trimLock := h₂.trimLock.trans h₁.trimLock

end Pass

/-- The state between the scan of a shard and the blocks given back:
the blocks of `t` wait. -/
structure Waiting (class_ cpu age : Nat) (l t : List Nat) (s : State)
    (trimList : Nat) (s' : State) : Prop where
  seg : LinkedSeg (Header.next s'.ground.mem) trimList t 0
  mem : Mem.OnlyAt l 8 s.ground.mem s'.ground.mem
  advice : s'.advice = s.advice
  beside : Beside class_ cpu (s.scanned cpu class_ age) s'

variable {blocks : Nat × Nat → List Nat}

theorem Waiting.pass {age trimList total' : Nat} {s₁ s₂ : State}
    {log : List Advice} (hi : ∃ i, E i ∧ age = i.age)
    (hw : Waiting class_ cpu age (blocks (cpu, class_))
      ((blocks (cpu, class_)).filter
        (Cold s.ground.mem s.stamp age ·)).reverse s trimList s₁)
    (hr : Released E class_ cpu requested
      ((blocks (cpu, class_)).filter
        (Cold s.ground.mem s.stamp age ·)).reverse total s₁ log total' s₂) :
    Pass E requested blocks {(cpu, class_)} total s log total' s₂ := by
  have hmem : ∀ h, h ∈ ((blocks (cpu, class_)).filter
      (Cold s.ground.mem s.stamp age ·)).reverse
        ↔ h ∈ blocks (cpu, class_) ∧ Cold s.ground.mem s.stamp age h := by
    intro h
    rw [List.mem_reverse, List.mem_filter, decide_eq_true_iff]
  have hages : s₂.ages = (s.scanned cpu class_ age).ages := by
    rw [hr.beside.ages, hw.beside.ages]
  have hage : s₂.ages cpu class_ = age := by
    rw [hages]
    simp [State.scanned]
  have hbeside := hw.beside.trans hr.beside
  refine ⟨?_, fun e he => ?_, hr.total_eq, fun p hp h hh hcold hpage => ?_,
    fun x hx => ?_, fun k hk => ?_, fun p hp => ?_, fun p hp _ => ?_,
    hbeside.stamp, hbeside.trimLock⟩
  · rw [hr.advice, hw.advice]
  · obtain ⟨hwaits, hcall⟩ := hr.calls e he
    obtain ⟨hin, hcold⟩ := (hmem _).1 hwaits
    refine ⟨_, rfl, hin, hcall, ?_⟩
    rw [hage]
    exact hcold
  · cases hp
    rw [hage] at hcold
    exact hr.done h ((hmem h).2 ⟨hh, hcold⟩) hpage
  · have hx := hx _ rfl
    have h₁ : s₁.ground.mem x = s.ground.mem x :=
      hw.mem x fun h hh hin => hx h hh (by
        simp only [blockBytes, headerSize]
        omega)
    rw [hr.mem x fun h hh => hx h ((hmem h).1 hh).1, h₁]
  · exact hbeside.list k (hk _ rfl)
  · rw [hages]
    simp only [State.scanned]
    by_cases hv : p.1 = cpu
    · rw [hv, Function.update_self, Function.update_of_ne]
      exact fun hc => hp (Prod.ext hv hc)
    · rw [Function.update_of_ne hv]
  · cases hp
    rw [hage]
    exact hi

/-- One CPU and class of `trim_small`. -/
theorem trimShard_alone {fuel : Nat} (s : State)
    (hrow : BlockRow class_ (blocks (cpu, class_)))
    (hl : OnList s (.mail cpu class_) (blocks (cpu, class_)))
    (hfuel : (blocks (cpu, class_)).length < fuel) :
    Alone E halts (trimShard cfg fuel cpu class_ requested total)
      (fun total' s' => ∃ log,
        Pass E requested blocks {(cpu, class_)} total s log total' s') s := by
  unfold trimShard
  apply Alone.bind
  refine Alone.atomic fun _ _ => ?_
  have hdetach : Beside class_ cpu s (s.setList (.mail cpu class_) 0) :=
    ⟨fun k hk => Function.update_of_ne (fun h => hk (Or.inl h)) _ _,
      rfl, rfl, rfl⟩
  by_cases hzero : (detach (.mail cpu class_) s).1 = 0
  · rw [if_pos hzero]
    have hnil : blocks (cpu, class_) = [] :=
      not_not.1 fun hne => hl.head_ne_zero.2 hne hzero
    refine Alone.ret ⟨[], rfl, nofun, rfl,
      fun p hp h hh => ?_, fun _ _ => rfl, fun k hk => ?_, fun _ _ => rfl,
      fun p hp hne => ?_, rfl, rfl⟩
    · cases hp
      rw [hnil] at hh
      exact absurd hh List.not_mem_nil
    · exact hdetach.list k (hk _ rfl)
    · cases hp
      exact absurd hnil hne
  · rw [if_neg hzero]
    apply Alone.bind
    apply Alone.read
    apply Alone.bind
    refine Alone.atomic fun i hi => ?_
    have hsort : Alone E halts (sortList cfg class_ cpu s.stamp i.age fuel
        (s.list (.mail cpu class_)) ⟨0, 0, 0, 0⟩) _
        ((s.setList (.mail cpu class_) 0).scanned cpu class_ i.age) :=
      sortList_alone hrow fuel (t := []) _ hfuel
        ⟨hrow.nodup, fun b hb => hb, hl.2, hl.1, rfl,
          fun h => absurd rfl h⟩
    refine hsort.seq fun w s₁ hs => ?_
    rw [List.append_nil] at hs
    have hscan : Beside class_ cpu (s.scanned cpu class_ i.age)
        ((s.setList (.mail cpu class_) 0).scanned cpu class_ i.age) :=
      ⟨hdetach.list, rfl, rfl, rfl⟩
    -- the blocks that are not given back go first
    have hrelease : ∀ s₂, Waiting class_ cpu i.age (blocks (cpu, class_))
        ((blocks (cpu, class_)).filter
          (Cold s.ground.mem s.stamp i.age ·)).reverse s w.trimList s₂ →
        Alone E halts
          (releaseList cfg class_ cpu s.stamp requested fuel w.trimList total)
          (fun total' s' => ∃ log, Pass E requested blocks {(cpu, class_)}
            total s log total' s') s₂ := by
      intro s₂ hwait
      have hnd := hrow.nodup.filter (Cold s.ground.mem s.stamp i.age ·)
      have hlen := List.length_filter_le
        (Cold s.ground.mem s.stamp i.age ·) (blocks (cpu, class_))
      refine (releaseList_alone fuel s₂ ?_ (hrow.sub ?_ fun b hb => ?_) ?_
        hwait.seg).mono fun total' s' hr => ?_
      · rw [List.length_reverse]
        omega
      · exact List.nodup_reverse.2 hnd
      · exact (List.mem_filter.1 (List.mem_reverse.1 hb)).1
      · exact fun h => hl.2 (List.mem_filter.1 (List.mem_reverse.1 h)).1
      · obtain ⟨log, hr⟩ := hr
        exact ⟨log, hwait.pass ⟨i, hi, rfl⟩ hr⟩
    apply Alone.bind
    refine Alone.when (fun hpush => ?_) fun _ => ?_
    · obtain ⟨hin, hout⟩ := hs.start (Nat.ne_of_gt hpush)
      refine (transferPush_alone _ class_ _ _ cpu s₁).mono
        fun _ s₂ hp => hrelease s₂ ⟨?_, ?_, ?_, ?_⟩
      · rw [hp.ground]
        exact hrow.setNext_seg hin
          (fun b hb => (List.mem_filter.1 (List.mem_reverse.1 hb)).1)
          hout hs.seg
      · rw [hp.ground]
        exact hs.mem.trans (setNext_onlyAt hin)
      · exact hp.advice.trans hs.advice
      · exact (hscan.trans hs.beside).trans (.of_pushed hp (Or.inl rfl))
    · exact hrelease s₁ ⟨hs.seg, hs.mem, hs.advice, hscan.trans hs.beside⟩

-- =============================================================== all of it

/-- The shards of `n` CPUs from `cpu` on. -/
def cpuShards (cpu n : Nat) : Set (Nat × Nat) :=
  { p | (cpu ≤ p.1 ∧ p.1 < cpu + n)
      ∧ size4096Class ≤ p.2 ∧ p.2 < numSizeClasses }

theorem cpuShards_zero (cpu : Nat) : cpuShards cpu 0 = ∅ :=
  Set.eq_empty_of_forall_notMem fun p hp => by
    have := hp.1
    omega

theorem cpuShards_succ (cpu n : Nat) :
    cpuShards cpu (n + 1)
      = stretch cpu size4096Class (numSizeClasses - size4096Class)
        ∪ cpuShards (cpu + 1) n := by
  ext p
  simp only [cpuShards, stretch, Set.mem_ofPred_eq, Set.mem_union,
    size4096Class, numSizeClasses]
  omega

theorem cpuShards_disjoint (cpu n : Nat) :
    Disjoint
      (stretch cpu size4096Class (numSizeClasses - size4096Class))
      (cpuShards (cpu + 1) n) := by
  rw [Set.disjoint_left]
  intro p h h'
  have h₁ : p.1 = cpu := h.1
  have h₂ : cpu + 1 ≤ p.1 := h'.1.1
  omega

section Loops

variable {fuel requested : Nat} {blocks : Nat × Nat → List Nat}
  (hlaid : Laid cfg blocks)
  (hfuel : ∀ p ∈ shards cfg, (blocks p).length < fuel)

include hlaid

/-- A loop over shards: the first ones, then the rest. -/
theorem Pass.seq {D₁ D₂ : Set (Nat × Nat)} {p : SlabM Nat} {k : Nat → SlabM Nat}
    (hD₁ : D₁ ⊆ shards cfg) (hD₂ : D₂ ⊆ shards cfg) (hdisj : Disjoint D₁ D₂)
    (hf : Filled blocks (D₁ ∪ D₂) s)
    (h₁ : Filled blocks D₁ s → Alone E halts p (fun total₁ s₁ => ∃ log,
      Pass E requested blocks D₁ total s log total₁ s₁) s)
    (h₂ : ∀ total₁ s₁, Filled blocks D₂ s₁ →
      Alone E halts (k total₁) (fun total₂ s₂ => ∃ log,
        Pass E requested blocks D₂ total₁ s₁ log total₂ s₂) s₁) :
    Alone E halts (p.bind k) (fun total₂ s₂ => ∃ log,
      Pass E requested blocks (D₁ ∪ D₂) total s log total₂ s₂) s := by
  refine (h₁ fun p hp => hf p (Or.inl hp)).seq fun total₁ s₁ hp₁ => ?_
  obtain ⟨log₁, hp₁⟩ := hp₁
  refine (h₂ total₁ s₁ (hp₁.filled hlaid hD₁ hD₂ hdisj
    fun p hp => hf p (Or.inr hp))).mono fun total₂ s₂ hp₂ => ?_
  obtain ⟨log₂, hp₂⟩ := hp₂
  exact ⟨log₂ ++ log₁, hp₁.trans hlaid hD₁ hD₂ hdisj hp₂⟩

include hfuel

theorem trimClasses_alone (n class_ total : Nat) (s : State)
    (hD : stretch cpu class_ n ⊆ shards cfg)
    (hf : Filled blocks (stretch cpu class_ n) s) :
    Alone E halts (trimClasses cfg fuel cpu requested n class_ total)
      (fun total' s' => ∃ log, Pass E requested blocks
        (stretch cpu class_ n) total s log total' s') s := by
  induction n generalizing class_ total s with
  | zero =>
      rw [stretch_zero]
      exact Alone.ret ⟨[], .nil⟩
  | succ n ih =>
      rw [stretch_succ] at hf hD ⊢
      obtain ⟨hD₁, hD₂⟩ := Set.union_subset_iff.1 hD
      refine Pass.seq hlaid hD₁ hD₂ (stretch_disjoint ..) hf ?_ ?_
      · intro hf₁
        have hp : (cpu, class_) ∈ shards cfg := hD₁ rfl
        exact trimShard_alone s (hlaid.row _ hp) (hf₁ _ rfl) (hfuel _ hp)
      · exact fun total₁ s₁ hf₂ => ih (class_ + 1) total₁ s₁ hD₂ hf₂

theorem trimCpus_alone (n cpu total : Nat) (s : State)
    (hD : cpuShards cpu n ⊆ shards cfg)
    (hf : Filled blocks (cpuShards cpu n) s) :
    Alone E halts (trimCpus cfg fuel requested n cpu total)
      (fun total' s' => ∃ log, Pass E requested blocks
        (cpuShards cpu n) total s log total' s') s := by
  induction n generalizing cpu total s with
  | zero =>
      rw [cpuShards_zero]
      exact Alone.ret ⟨[], .nil⟩
  | succ n ih =>
      rw [cpuShards_succ] at hf hD ⊢
      obtain ⟨hD₁, hD₂⟩ := Set.union_subset_iff.1 hD
      refine Pass.seq hlaid hD₁ hD₂ (cpuShards_disjoint ..) hf ?_ ?_
      · exact fun hf₁ => trimClasses_alone hlaid hfuel _ _ total s hD₁ hf₁
      · exact fun total₁ s₁ hf₂ => ih (cpu + 1) total₁ s₁ hD₂ hf₂

/-- `trim_small` scans every shard, unless someone else is trimming. -/
theorem trimSmall_alone (s : State) (hf : Filled blocks (shards cfg) s) :
    Alone E halts (trimSmall cfg fuel requested)
      (fun total s' => ∃ D ⊆ shards cfg, ∃ log,
        Pass E requested blocks D 0 s log total s'
          ∧ (s.trimLock = false → D = shards cfg)) s := by
  unfold trimSmall
  apply Alone.bind
  refine Alone.atomic fun _ _ => ?_
  cases hlock : s.trimLock with
  | true =>
      exact Alone.ret ⟨∅, Set.empty_subset _, [], .nil, Bool.noConfusion⟩
  | false =>
      have hall : cpuShards 0 cfg.ncpu = shards cfg := by
        ext p
        simp only [cpuShards, shards, Set.mem_ofPred_eq]
        omega
      have hloop : Alone E halts (trimCpus cfg fuel requested cfg.ncpu 0 0)
          _ { s with trimLock := true } :=
        trimCpus_alone hlaid hfuel cfg.ncpu 0 0 _ hall.subset
          (fun p hp => hf p (hall ▸ hp))
      refine hloop.seq fun total s₁ h => ?_
      obtain ⟨log, h⟩ := h
      rw [hall] at h
      refine Alone.bind (Alone.modify (Alone.ret ?_))
      exact ⟨_, le_refl _, log, ⟨h.advice, h.calls, h.total_eq, h.done,
        h.mem, h.list, h.ages, h.aged, h.stamp, hlock.symm⟩, fun _ => rfl⟩

end Loops

end RsMalloc.Slab
