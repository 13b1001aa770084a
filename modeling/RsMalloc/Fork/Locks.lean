/-
Which locks are free in the child.

The list of regions that the child inherits is null-terminated in every
state of the parent (`Reach.list`), so the walk of `fork_child` ends and
frees exactly the locks of `Freed`. Of the locks a later call can wait
for, what is left are the locks of the pending queue and of the page
allocator: they are free in the child if no thread held them when the
parent forked, and if one did nothing the child does frees them
(`ChildRun.stays_held`).
-/
import RsMalloc.Fork.Model

namespace RsMalloc.Fork

variable {T : Type}

-- =================================================== the list of regions

/-- The list of regions ends at null. -/
def Process.Listed (s : Process T) (l : List Nat) : Prop :=
  LinkedSeg s.next s.regions l 0 ∧ 0 ∉ l

theorem Step.listed {s s' : Process T} {l : List Nat} (h : s.Listed l)
    (hs : Step s s') : ∃ l', s'.Listed l' := by
  cases hs with
  | acquire t k free => exact ⟨l, h⟩
  | release t k mine => exact ⟨l, h⟩
  | linkRegion t region locked fresh =>
      exact ⟨l, h.1.update_of_notMem (fresh l h.1), h.2⟩
  | storeRegions t region locked ne linked fresh =>
      refine ⟨region :: l, ⟨rfl, ?_⟩, ?_⟩
      · simp only
        rw [linked]
        exact h.1
      · intro hmem
        cases List.mem_cons.1 hmem with
        | inl heq => exact ne heq.symm
        | inr hin => exact h.2 hin

theorem Reach.list {s : Process T} (h : Reach s) : ∃ l, s.Listed l := by
  induction h with
  | new => exact ⟨[], rfl, List.not_mem_nil⟩
  | step h hs ih =>
      obtain ⟨l, hl⟩ := ih
      exact Step.listed hl hs

-- ================================================= what the handler frees

namespace Child

@[simp] theorem unlock_next (l : Lock) (c : Child) :
    (c.unlock l).next = c.next := rfl

@[simp] theorem unlock_regions (l : Lock) (c : Child) :
    (c.unlock l).regions = c.regions := rfl

theorem unlock_held (l k : Lock) (c : Child) :
    (c.unlock l).held k = if k = l then false else c.held k :=
  Function.update_apply ..

/-- `c'` is `c` with the locks of `P` freed. -/
structure Freed (P : Lock → Prop) (c c' : Child) : Prop where
  regions : c'.regions = c.regions
  next : c'.next = c.next
  free : ∀ l, P l → c'.held l = false
  same : ∀ l, ¬ P l → c'.held l = c.held l

theorem Freed.trans {P Q : Lock → Prop} {a b c : Child}
    (h₁ : Freed P a b) (h₂ : Freed Q b c) :
    Freed (fun l => P l ∨ Q l) a c where
  regions := h₂.regions.trans h₁.regions
  next := h₂.next.trans h₁.next
  free l hl := by
    by_cases hq : Q l
    · exact h₂.free l hq
    · rw [h₂.same l hq]
      exact h₁.free l (hl.resolve_right hq)
  same l hl := by
    rw [h₂.same l fun hq => hl (Or.inr hq)]
    exact h₁.same l fun hp => hl (Or.inl hp)

theorem Freed.iff {P Q : Lock → Prop} {a b : Child} (h : Freed P a b)
    (hpq : ∀ l, P l ↔ Q l) : Freed Q a b := by
  have heq : P = Q := funext fun l => propext (hpq l)
  exact heq ▸ h

theorem unlock_freed (k : Lock) (c : Child) :
    Freed (fun l => l = k) c (c.unlock k) where
  regions := rfl
  next := rfl
  free l hl := by rw [unlock_held, if_pos hl]
  same l hl := by rw [unlock_held, if_neg hl]

theorem resetOrders_freed (region n index : Nat) (c : Child) :
    Freed (fun l => ∃ i, index ≤ i ∧ i < index + n ∧ l = .order region i) c
      (resetOrders region n index c) := by
  induction n generalizing index c with
  | zero =>
      refine ⟨rfl, rfl, ?_, fun _ _ => rfl⟩
      intro l hl
      obtain ⟨i, hle, hlt, -⟩ := hl
      omega
  | succ n ih =>
      refine ((unlock_freed _ c).trans (ih (index + 1) _)).iff fun l => ?_
      constructor
      · intro hl
        cases hl with
        | inl heq => exact ⟨index, le_refl _, by omega, heq⟩
        | inr hin =>
            obtain ⟨i, hle, hlt, heq⟩ := hin
            exact ⟨i, by omega, by omega, heq⟩
      · intro hl
        obtain ⟨i, hle, hlt, heq⟩ := hl
        by_cases hi : i = index
        · exact Or.inl (hi ▸ heq)
        · exact Or.inr ⟨i, by omega, by omega, heq⟩

/-- The order locks of the regions in `l`. -/
def OrderOf (l : List Nat) (k : Lock) : Prop :=
  ∃ region ∈ l, ∃ i < numOrders, k = .order region i

/-- The walk ends with the list, and frees the order locks on it. -/
theorem resetRegions_freed {l : List Nat} {region fuel : Nat} (c : Child)
    (hl : LinkedSeg c.next region l 0) (h0 : 0 ∉ l)
    (hf : l.length ≤ fuel) :
    ∃ c', resetRegions fuel region c = some c' ∧ Freed (OrderOf l) c c' := by
  induction l generalizing region fuel c with
  | nil =>
      have hz : region = 0 := hl
      refine ⟨c, ?_, rfl, rfl, ?_, fun _ _ => rfl⟩
      · cases fuel with
        | zero => exact if_pos hz
        | succ n => exact if_pos hz
      · intro k hk
        obtain ⟨r, hr, -⟩ := hk
        exact absurd hr List.not_mem_nil
  | cons r l ih =>
      obtain ⟨rfl, hrest⟩ := hl
      have hne : region ≠ 0 := fun h => h0 (h ▸ List.mem_cons_self ..)
      cases fuel with
      | zero => exact absurd hf (Nat.not_succ_le_zero _)
      | succ fuel =>
          have hone := resetOrders_freed region numOrders 0 c
          have hseg : LinkedSeg (resetOrders region numOrders 0 c).next
              ((resetOrders region numOrders 0 c).next region) l 0 := by
            rw [hone.next]
            exact hrest
          obtain ⟨c', hc', hfr⟩ := ih (resetOrders region numOrders 0 c)
            hseg (fun h => h0 (List.mem_cons_of_mem _ h))
            (Nat.le_of_succ_le_succ hf)
          refine ⟨c', ?_, (hone.trans hfr).iff fun k => ?_⟩
          · show (if region = 0 then _ else _) = _
            rw [if_neg hne]
            exact hc'
          · constructor
            · intro hk
              cases hk with
              | inl hin =>
                  obtain ⟨i, -, hlt, heq⟩ := hin
                  exact ⟨region, List.mem_cons_self .., i, by omega, heq⟩
              | inr hin =>
                  obtain ⟨r, hr, i, hi, heq⟩ := hin
                  exact ⟨r, List.mem_cons_of_mem _ hr, i, hi, heq⟩
            · intro hk
              obtain ⟨r, hr, i, hi, heq⟩ := hk
              cases List.mem_cons.1 hr with
              | inl hrr =>
                  exact Or.inl ⟨i, Nat.zero_le _, by omega, hrr ▸ heq⟩
              | inr hin => exact Or.inr ⟨r, hin, i, hi, heq⟩

/-- The locks that `fork_child` frees, for the list `l` of regions. -/
inductive FreedAtFork (l : List Nat) : Lock → Prop
  | bootstrap : FreedAtFork l .bootstrap
  | trim : FreedAtFork l .trim
  | buddySpin : FreedAtFork l .buddySpin
  | bigMap : FreedAtFork l .bigMap
  | order {region index : Nat} (mem : region ∈ l) (lt : index < numOrders) :
      FreedAtFork l (.order region index)

theorem dropGuards_freed {c : Child} (ha : c.atforkGuard = true)
    (ht : c.trimAtforkGuard = true) :
    Freed (fun l => l = .trim ∨ l = .bootstrap) c
      c.dropTrimGuard.dropAtforkGuard := by
  have h₁ : Freed (fun l => l = .trim) c c.dropTrimGuard := by
    rw [dropTrimGuard, if_pos ht]
    exact ⟨rfl, rfl, (unlock_freed _ c).free, (unlock_freed _ c).same⟩
  have hkeep : c.dropTrimGuard.atforkGuard = true := by
    rw [dropTrimGuard, if_pos ht]
    exact ha
  refine h₁.trans ?_
  rw [dropAtforkGuard, if_pos hkeep]
  exact ⟨rfl, rfl, (unlock_freed _ _).free, (unlock_freed _ _).same⟩

/-- The handler returns, and frees exactly these locks. -/
theorem forkChild_freed {c : Child} {l : List Nat} {fuel : Nat}
    (ha : c.atforkGuard = true) (ht : c.trimAtforkGuard = true)
    (hl : LinkedSeg c.next c.regions l 0) (h0 : 0 ∉ l)
    (hf : l.length ≤ fuel) :
    ∃ c', forkChild fuel true c = some c' ∧ Freed (FreedAtFork l) c c' := by
  have h₁ := dropGuards_freed ha ht
  have h₂ := h₁.trans (unlock_freed .buddySpin _)
  have hseg : LinkedSeg
      (c.dropTrimGuard.dropAtforkGuard.unlock .buddySpin).next
      (c.dropTrimGuard.dropAtforkGuard.unlock .buddySpin).regions l 0 := by
    rw [h₂.next, h₂.regions]
    exact hl
  obtain ⟨c₃, hc₃, h₃⟩ := resetRegions_freed _ hseg h0 hf
  have h₄ := ((h₂.trans h₃).trans (unlock_freed .bigMap _)).trans
    (unlock_freed .trim _)
  refine ⟨{ (c₃.unlock .bigMap).unlock .trim with trimGuard := false },
    ?_, ?_⟩
  · rw [forkChild]
    simp only [resetLocksOnFork, hc₃, Option.bind_eq_bind, Option.bind_some,
      if_true]
  · have h₅ : Freed (FreedAtFork l) c ((c₃.unlock .bigMap).unlock .trim) := by
      refine h₄.iff fun k => ?_
      constructor
      · intro hk
        obtain ((((rfl | rfl) | rfl) | hin) | rfl) | rfl := hk
        · exact .trim
        · exact .bootstrap
        · exact .buddySpin
        · obtain ⟨r, hr, i, hi, rfl⟩ := hin
          exact .order hr hi
        · exact .bigMap
        · exact .trim
      · intro hk
        cases hk with
        | bootstrap => simp
        | trim => simp
        | buddySpin => simp
        | bigMap => simp
        | order mem lt =>
            exact Or.inl (Or.inl (Or.inr ⟨_, mem, _, lt, rfl⟩))
    exact ⟨h₅.regions, h₅.next, h₅.free, h₅.same⟩

end Child

-- =============================================== life with a held lock

/-- A lock that is held at the end of the handler, by nobody, stays held
whatever the child does. -/
theorem ChildStep.stays_held {x y : Child × (Lock → Bool)} {l : Lock}
    (hs : ChildStep x y) (h : x.1.held l = true ∧ x.2 l = false) :
    y.1.held l = true ∧ y.2 l = false := by
  cases hs with
  | acquire k free =>
      have hne : l ≠ k := by
        rintro rfl
        exact absurd (free.symm.trans h.1) Bool.false_ne_true
      simp only [Function.update_of_ne hne]
      exact h
  | release k mine =>
      have hne : l ≠ k := by
        rintro rfl
        exact absurd (h.2.symm.trans mine) Bool.false_ne_true
      simp only [Child.unlock, Function.update_of_ne hne]
      exact h

theorem ChildRun.stays_held {x y : Child × (Lock → Bool)} {l : Lock}
    (hr : ChildRun x y) (h : x.1.held l = true ∧ x.2 l = false) :
    y.1.held l = true ∧ y.2 l = false := by
  induction hr with
  | refl => exact h
  | step _ hs ih => exact hs.stays_held ih

-- ============================================= the locks of later calls

/-- Fork from any state of the parent in which `fork_prepare` has
returned. The handler of the child ends, and the locks that later calls
in the child can wait for are then all free if and only if at the fork
no thread was inside a critical section of the pending queue or of the
page allocator. A lock of these that was held is held in every later
state of the child, so that a call that needs it never returns. -/
theorem child_locks_free_iff [DecidableEq T] (cfg : Config)
    (trimGuard : Bool) {s : Process T} {f : T} (hr : Reach s)
    (hp : s.Prepared f) :
    ∃ enough, ∀ fuel ≥ enough, ∃ c,
      Child.forkChild fuel true (fork f trimGuard s) = some c
        ∧ ((∀ l, Later cfg c l → c.held l = false)
            ↔ (∀ node < cfg.queueNodes, ∀ class_ < numSizeClasses,
                  s.owner (.slot node class_) = none)
                ∧ ∀ node < cfg.pageNodes, s.owner (.arena node) = none)
        ∧ ∀ l, c.held l = true → ∀ y, ChildRun (c, fun _ => false) y →
            y.1.held l = true := by
  obtain ⟨l, hl, h0⟩ := hr.list
  refine ⟨l.length, fun fuel hf => ?_⟩
  obtain ⟨c, hc, hfr⟩ := Child.forkChild_freed (c := fork f trimGuard s)
    (decide_eq_true hp.1) (decide_eq_true hp.2) hl h0 hf
  -- the handler never writes these two arrays of locks
  have hslot : ∀ node class_, c.held (.slot node class_)
      = (s.owner (.slot node class_)).isSome :=
    fun node class_ => hfr.same _ (by rintro ⟨⟩)
  have harena : ∀ node, c.held (.arena node)
      = (s.owner (.arena node)).isSome :=
    fun node => hfr.same _ (by rintro ⟨⟩)
  refine ⟨c, hc, ⟨?_, ?_⟩, fun k hk y hy => (hy.stays_held ⟨hk, rfl⟩).1⟩
  · intro hall
    constructor
    · intro node hn class_ hc
      have := hall _ (.slot hn hc)
      rw [hslot] at this
      exact Option.isNone_iff_eq_none.1 (by simpa using this)
    · intro node hn
      have := hall _ (.arena hn)
      rw [harena] at this
      exact Option.isNone_iff_eq_none.1 (by simpa using this)
  · intro hnone k hk
    cases hk with
    | trim => exact hfr.free _ .trim
    | buddySpin => exact hfr.free _ .buddySpin
    | bigMap => exact hfr.free _ .bigMap
    | order list null mem lt =>
        -- the child walks the list it inherited
        rw [hfr.next, hfr.regions] at list
        exact hfr.free _ (.order (list.unique hl null h0 ▸ mem) lt)
    | slot node_lt class_lt =>
        rw [hslot, hnone.1 _ node_lt _ class_lt]
        rfl
    | arena lt =>
        rw [harena, hnone.2 _ lt]
        rfl

/-- Thread `true` is at work on a queue slot while thread `false` runs
`fork_prepare`. -/
def busyQueue : Process Bool where
  owner := Function.update (Function.update (Function.update
    (fun _ => none) (.slot 0 0) (some true)) .bootstrap (some false))
      .trim (some false)
  regions := 0
  next _ := 0

theorem busyQueue_reach : Reach busyQueue :=
  .step (.step (.step .new (.acquire true (.slot 0 0) rfl))
    (.acquire false .bootstrap rfl)) (.acquire false .trim rfl)

theorem child_locks_free_iff_busyQueue :
    Reach busyQueue ∧ busyQueue.Prepared false
      ∧ ∃ enough, ∀ fuel ≥ enough, ∃ c,
        Child.forkChild fuel true (fork false true busyQueue) = some c
          ∧ ¬ ∀ l, Later (.single 0) c l → c.held l = false := by
  refine ⟨busyQueue_reach, ⟨rfl, rfl⟩, ?_⟩
  obtain ⟨n, hn⟩ := child_locks_free_iff (.single 0) true busyQueue_reach
    (f := false) ⟨rfl, rfl⟩
  refine ⟨n, fun fuel hf => ?_⟩
  obtain ⟨c, hc, hiff, -⟩ := hn fuel hf
  refine ⟨c, hc, fun hall => ?_⟩
  have hfree := (hiff.1 hall).1 0 Nat.zero_lt_one 0 (by decide)
  cases hfree

/-- The child of `busyQueue` finds the queue slot taken for good. -/
theorem child_queue_lock_stuck :
    Reach busyQueue ∧ busyQueue.Prepared false
      ∧ ∃ c, Child.forkChild 0 true (fork false true busyQueue) = some c
        ∧ Later (.single 0) c (.slot 0 0)
        ∧ ∀ y, ChildRun (c, fun _ => false) y →
            y.1.held (.slot 0 0) = true := by
  refine ⟨busyQueue_reach, ⟨rfl, rfl⟩, _, rfl,
    .slot Nat.zero_lt_one (by decide), ?_⟩
  intro y hy
  exact (hy.stays_held ⟨rfl, rfl⟩).1

end RsMalloc.Fork
