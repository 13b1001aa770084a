/-
The transfer lists, one thread at a time.

With no other thread at work a function of the transfer cache is a
relation between the state before and the state after. The two
functions on a hint bit become plain updates of one bit
(`cpuBitSet_alone`, `cpuBitClear_alone`), and `transfer_pop_batch` has
the three outcomes of `PopOutcome`.

`Searched` and `Took` say what a search over several CPUs has done so
far: nothing but dropping hints of CPUs with nothing to give, or that
and one successful pop.
-/
import RsMalloc.Lib.Alone
import RsMalloc.Lib.Bitmap
import RsMalloc.Lib.LinkedSeg
import RsMalloc.Slab.Model

namespace RsMalloc.Slab

open Conc

variable {cfg : Config} {E : Env → Prop} {halts : Prop}

-- ============================================================= hint bits

/-- The word and the bit of a CPU's hint. -/
def hintPos (cfg : Config) (class_ cpu : Nat) : Nat × Nat :=
  (bitmapWord cfg class_ cpu, cpu % 64)

variable {v : Nat}

theorem hintPos_class {class_ v' : Nat} :
    hintPos cfg class_ v = hintPos cfg class_ v' ↔ v = v' := by
  simp only [hintPos, bitmapWord, Prod.mk.injEq]
  omega

/-- The bits of different classes are in different words. -/
theorem hintPos_inj {c c' v' : Nat} (hw : cfg.ncpu ≤ 64 * cfg.bitmapWords)
    (hv : v < cfg.ncpu) (hv' : v' < cfg.ncpu) :
    hintPos cfg c v = hintPos cfg c' v' ↔ c = c' ∧ v = v' := by
  constructor
  · intro h
    have hword : c * cfg.bitmapWords + v / 64
        = c' * cfg.bitmapWords + v' / 64 := congrArg Prod.fst h
    have hlt : v / 64 < cfg.bitmapWords := by omega
    have hlt' : v' / 64 < cfg.bitmapWords := by omega
    have hc : c = c' := by
      rcases Nat.lt_trichotomy c c' with hcc | hcc | hcc
      · have := Nat.mul_le_mul_right cfg.bitmapWords (Nat.succ_le_of_lt hcc)
        rw [Nat.succ_mul] at this
        omega
      · exact hcc
      · have := Nat.mul_le_mul_right cfg.bitmapWords (Nat.succ_le_of_lt hcc)
        rw [Nat.succ_mul] at this
        omega
    subst hc
    exact ⟨rfl, hintPos_class.1 h⟩
  · rintro ⟨rfl, rfl⟩
    rfl

namespace State

/-- The bit at a place of a bitmap. -/
def hintAt (s : State) (b : Hint) (p : Nat × Nat) : Bool :=
  (s.hint b p.1).getLsbD p.2

/-- Rewrite one word of a bitmap. -/
def onHint (b : Hint) (i : Nat) (f : BitVec 64 → BitVec 64) (s : State) :
    State :=
  { s.accessed i with
    hint := Function.update s.hint b
      (Function.update (s.hint b) i (f (s.hint b i))) }

/-- Set a bit. -/
def setHint (b : Hint) (p : Nat × Nat) (s : State) : State :=
  s.onHint b p.1 (· ||| 1#64 <<< p.2)

/-- Clear a bit. -/
def unsetHint (b : Hint) (p : Nat × Nat) (s : State) : State :=
  s.onHint b p.1 (· &&& ~~~(1#64 <<< p.2))

variable {s : State} {b b' : Hint} {p p' : Nat × Nat}

theorem words_of_accessed {i j : Nat} (h : (s.accessed i).words j = true) :
    s.words j = true ∨ j = i := by
  by_cases hj : j = i
  · exact Or.inr hj
  · exact Or.inl ((Function.update_of_ne hj _ _).symm.trans h)

variable {f : BitVec 64 → BitVec 64}

theorem onHint_self {i : Nat} (h : f (s.hint b i) = s.hint b i) :
    s.onHint b i f = s.accessed i := by
  rw [onHint, h, Function.update_eq_self, Function.update_eq_self]
  rfl

/-- A word that is read and rewritten is recorded once. -/
theorem accessed_onHint {i : Nat} :
    (s.accessed i).onHint b i f = s.onHint b i f := by
  rw [onHint, accessed, accessed, Function.update_idem]
  rfl

theorem onHint_hint {i j : Nat} :
    (s.onHint b i f).hint b' j
      = if b' = b ∧ j = i then f (s.hint b i) else s.hint b' j := by
  by_cases hb : b' = b
  · subst hb
    by_cases hj : j = i
    · subst hj
      simp [onHint]
    · simp [onHint, hj]
  · simp [onHint, hb]

theorem hintAt_setHint (hp' : p'.2 < 64) :
    (s.setHint b p).hintAt b' p'
      = (decide (b' = b ∧ p' = p) || s.hintAt b' p') := by
  rw [hintAt, setHint, onHint_hint]
  by_cases hw : b' = b ∧ p'.1 = p.1
  · obtain ⟨rfl, hw⟩ := hw
    rw [if_pos ⟨rfl, hw⟩, BitVec.getLsbD_or, BitWord.getLsbD_bitMask hp',
      Bool.or_comm, hintAt, hw]
    simp only [Prod.ext_iff, hw, true_and]
  · rw [if_neg hw, hintAt]
    have : ¬ (b' = b ∧ p' = p) := fun h => hw ⟨h.1, h.2 ▸ rfl⟩
    simp [this]

theorem hintAt_unsetHint (hp' : p'.2 < 64) :
    (s.unsetHint b p).hintAt b' p'
      = (!decide (b' = b ∧ p' = p) && s.hintAt b' p') := by
  rw [hintAt, unsetHint, onHint_hint]
  by_cases hw : b' = b ∧ p'.1 = p.1
  · obtain ⟨rfl, hw⟩ := hw
    rw [if_pos ⟨rfl, hw⟩, BitVec.getLsbD_and, BitVec.getLsbD_not,
      BitWord.getLsbD_bitMask hp', Bool.and_comm, hintAt, hw]
    simp only [Prod.ext_iff, hw, true_and, hp', decide_true, Bool.true_and]
  · rw [if_neg hw, hintAt]
    have : ¬ (b' = b ∧ p' = p) := fun h => hw ⟨h.1, h.2 ▸ rfl⟩
    simp [this]

theorem setHint_of_set (h : s.hintAt b p = true) :
    s.setHint b p = s.accessed p.1 := by
  refine onHint_self (BitVec.eq_of_getLsbD_eq fun i hi => ?_)
  rw [BitVec.getLsbD_or, BitWord.getLsbD_bitMask hi]
  by_cases hip : i = p.2
  · subst hip
    rw [show (s.hint b p.1).getLsbD p.2 = true from h]
    rfl
  · simp [hip]

theorem unsetHint_of_unset (h : s.hintAt b p = false) :
    s.unsetHint b p = s.accessed p.1 := by
  refine onHint_self (BitVec.eq_of_getLsbD_eq fun i hi => ?_)
  rw [BitVec.getLsbD_and, BitVec.getLsbD_not, BitWord.getLsbD_bitMask hi]
  by_cases hip : i = p.2
  · subst hip
    rw [show (s.hint b p.1).getLsbD p.2 = false from h]
    rfl
  · simp [hip, hi]

end State

theorem hintPos_lt (cfg : Config) (class_ cpu : Nat) :
    (hintPos cfg class_ cpu).2 < 64 :=
  Nat.mod_lt _ (by decide)

/-- Testing a word against the mask of a CPU reads its bit. -/
theorem and_cpuBit_eq_zero {s : State} {b : Hint} {class_ cpu : Nat} :
    s.hint b (bitmapWord cfg class_ cpu) &&& cpuBit cpu = 0
      ↔ s.hintAt b (hintPos cfg class_ cpu) = false := by
  have h := BitWord.and_bitMask_ne_zero
    (v := s.hint b (bitmapWord cfg class_ cpu)) (i := cpu % 64)
    (Nat.mod_lt _ (by decide))
  rw [State.hintAt, hintPos, ← h]
  exact bne_eq_false_iff_eq.symm

-- ================================================= functions on the hints

variable {s : State} {b : Hint} {class_ cpu : Nat}

theorem loadHint_alone {i : Nat} {Q : BitVec 64 → State → Prop}
    (h : Q (s.hint b i) (s.accessed i)) :
    Alone E halts (loadHint b i) Q s :=
  Alone.atomic fun _ _ => h

variable {k : Shelf} {s₁ s₂ s' : State} {Q : Unit → State → Prop}
  {batchSize : Nat}

theorem cpuBitSet_alone (h : Q () (s.setHint b (hintPos cfg class_ cpu))) :
    Alone E halts (cpuBitSet cfg b class_ cpu) Q s := by
  unfold cpuBitSet
  apply Alone.bind
  refine loadHint_alone (Alone.when (fun _ => ?_) fun hne => ?_)
  · rw [State.setHint, ← State.accessed_onHint] at h
    exact Alone.modify h
  · rw [and_cpuBit_eq_zero, Bool.not_eq_false] at hne
    rw [State.setHint_of_set hne] at h
    exact h

theorem cpuBitClear_alone (h : Q () (s.unsetHint b (hintPos cfg class_ cpu))) :
    Alone E halts (cpuBitClear cfg b class_ cpu) Q s := by
  unfold cpuBitClear
  apply Alone.bind
  refine loadHint_alone (Alone.when (fun _ => ?_) fun hne => ?_)
  · rw [State.unsetHint, ← State.accessed_onHint] at h
    exact Alone.modify h
  · rw [ne_eq, not_not, and_cpuBit_eq_zero] at hne
    rw [State.unsetHint_of_unset hne] at h
    exact h

theorem cpuIsEmpty_alone {Q : Bool → State → Prop}
    (h : Q (!s.hintAt b (hintPos cfg class_ cpu))
      (s.accessed (bitmapWord cfg class_ cpu))) :
    Alone E halts (cpuIsEmpty cfg b class_ cpu) Q s := by
  unfold cpuIsEmpty
  apply Alone.bind
  refine loadHint_alone (Alone.ret ?_)
  have heq : (s.hint b (bitmapWord cfg class_ cpu) &&& cpuBit cpu == 0)
      = !s.hintAt b (hintPos cfg class_ cpu) := by
    cases hbit : s.hintAt b (hintPos cfg class_ cpu) with
    | false => exact beq_iff_eq.2 (and_cpuBit_eq_zero.2 hbit)
    | true =>
        refine beq_eq_false_iff_ne.2 fun hz => ?_
        rw [and_cpuBit_eq_zero.1 hz] at hbit
        cases hbit
  rw [heq]
  exact h

theorem cpuTryMarking_alone {Q : Bool → State → Prop}
    (h : Q (!s.hintAt b (hintPos cfg class_ cpu))
      (s.setHint b (hintPos cfg class_ cpu))) :
    Alone E halts (cpuTryMarking cfg b class_ cpu) Q s := by
  unfold cpuTryMarking
  apply Alone.bind
  apply loadHint_alone
  by_cases hz : s.hint b (bitmapWord cfg class_ cpu) &&& cpuBit cpu = 0
  · rw [if_neg (not_not.2 hz)]
    apply Alone.bind
    rw [and_cpuBit_eq_zero.1 hz, State.setHint, ← State.accessed_onHint] at h
    exact Alone.modify (Alone.ret h)
  · rw [if_pos hz]
    rw [and_cpuBit_eq_zero, Bool.not_eq_false] at hz
    rw [hz, State.setHint_of_set hz] at h
    exact Alone.ret h

/-- With the normal list empty the hint is cleared, else it is set. -/
theorem clearHint_alone (hempty : s.list (.mail cpu class_) = 0 →
      Q () (s.unsetHint .nonempty (hintPos cfg class_ cpu)))
    (hfull : s.list (.mail cpu class_) ≠ 0 →
      Q () ((s.unsetHint .nonempty (hintPos cfg class_ cpu)).setHint
        .nonempty (hintPos cfg class_ cpu))) :
    Alone E halts (clearHint cfg class_ cpu) Q s := by
  unfold clearHint
  apply Alone.bind
  apply cpuBitClear_alone
  apply Alone.bind
  refine Alone.read (Alone.when ?_ ?_)
  · intro hne
    exact cpuBitSet_alone (hfull hne)
  · intro hz
    exact hempty (not_not.1 hz)

-- ================================================================ pushes

/-- The list is one of the two transfer lists of a CPU and class. -/
def OfCpu (k : Shelf) (class_ cpu : Nat) : Prop :=
  k = .mail cpu class_ ∨ k = .trimmed cpu class_

theorem OfCpu.unique {c c' v' : Nat} (h : OfCpu k c v) (h' : OfCpu k c' v') :
    c = c' ∧ v = v' := by
  cases h with
  | inl h =>
      subst h
      cases h' with
      | inl h' => cases h'; exact ⟨rfl, rfl⟩
      | inr h' => cases h'
  | inr h =>
      subst h
      cases h' with
      | inl h' => cases h'
      | inr h' => cases h'; exact ⟨rfl, rfl⟩

/-- What a push leaves alone. -/
structure Pushed (k : Shelf) (start tail : Nat) (s s' : State) : Prop where
  ground : s'.ground = Header.setNext tail (s.list k) s.ground
  list : s'.list = Function.update s.list k start
  stamp : s'.stamp = s.stamp
  trimLock : s'.trimLock = s.trimLock
  advice : s'.advice = s.advice
  ages : s'.ages = s.ages

theorem transferPush_alone (k : Shelf) (class_ start tail cpu : Nat)
    (s : State) :
    Alone E halts (transferPush cfg k class_ start tail cpu)
      (fun _ => Pushed k start tail s) s := by
  apply Alone.bind
  refine Alone.atomic fun _ _ => ?_
  refine Alone.when (fun _ => cpuBitSet_alone ?_) fun _ => ?_
  · exact ⟨rfl, rfl, rfl, rfl, rfl, rfl⟩
  · exact ⟨rfl, rfl, rfl, rfl, rfl, rfl⟩

-- ================================================================== pops

/-- Taking blocks off a list moves its head. -/
theorem popBatch_eq {n : Nat} (hne : s.list k ≠ 0) :
    ∃ b, popBatch k n s = (some b, s.setList k b.next)
      ∧ b.head = s.list k := by
  unfold popBatch
  rw [if_neg hne]
  exact ⟨_, rfl, rfl⟩

theorem popBatch_none {n : Nat} (h : s.list k = 0) :
    popBatch k n s = (none, s) := by
  unfold popBatch
  rw [if_pos h]

/-- The pop goes to the trimmed list only if the normal one is empty, so
the last block it can take is the last of both. -/
theorem mail_used_up (hk : k = .mail cpu class_
      ∨ k = .trimmed cpu class_ ∧ s.list (.mail cpu class_) = 0) :
    Function.update s.list k 0 (.mail cpu class_) = 0 := by
  cases hk with
  | inl hm =>
      subst hm
      exact Function.update_self ..
  | inr ht =>
      obtain ⟨rfl, hm⟩ := ht
      rw [Function.update_of_ne Shelf.noConfusion, hm]

/-- The outcomes of `transfer_pop_batch`. -/
inductive PopOutcome (cfg : Config) (class_ cpu batchSize : Nat) (s : State) :
    Option Batch → State → Prop
  /-- Blocks of the normal list, or of the trimmed one if the normal one
  is empty; the hint goes with the last block. -/
  | some {k : Shelf} {b : Batch} (hk : k = .mail cpu class_
        ∨ k = .trimmed cpu class_ ∧ s.list (.mail cpu class_) = 0)
      (hb : (popBatch k batchSize s).1 = some b) :
      PopOutcome cfg class_ cpu batchSize s (some b)
        (if b.next = 0 then (s.setList k b.next).unsetHint .nonempty
            (hintPos cfg class_ cpu)
          else s.setList k b.next)
  | none (hmail : s.list (.mail cpu class_) = 0)
      (htrimmed : s.list (.trimmed cpu class_) = 0) :
      PopOutcome cfg class_ cpu batchSize s none
        (s.unsetHint .nonempty (hintPos cfg class_ cpu))

theorem transferPopBatch_alone (class_ cpu batchSize : Nat) (s : State) :
    Alone E halts (transferPopBatch cfg class_ cpu batchSize)
      (PopOutcome cfg class_ cpu batchSize s) s := by
  -- after a pop from `k`, which leaves the normal list empty if it
  -- empties `k`
  have hafter : ∀ k b, (k = .mail cpu class_
      ∨ k = .trimmed cpu class_ ∧ s.list (.mail cpu class_) = 0) →
      (popBatch k batchSize s).1 = some b →
      Alone E halts
        ((Prog.when (b.next = 0) (clearHint cfg class_ cpu)).bind
          fun _ => .ret (some b))
        (PopOutcome cfg class_ cpu batchSize s) (s.setList k b.next) := by
    intro k b hk hb
    have hp : PopOutcome cfg class_ cpu batchSize s (some b) _ :=
      PopOutcome.some hk hb
    apply Alone.bind
    refine Alone.when (fun hz => ?_) fun hnz => ?_
    · rw [if_pos hz] at hp
      have hmail : (s.setList k b.next).list (.mail cpu class_) = 0 := by
        rw [hz]
        exact mail_used_up hk
      exact clearHint_alone (fun _ => Alone.ret hp)
        fun hne => absurd hmail hne
    · rw [if_neg hnz] at hp
      exact Alone.ret hp
  unfold transferPopBatch
  apply Alone.bind
  refine Alone.atomic fun _ _ => ?_
  by_cases hm : s.list (.mail cpu class_) = 0
  · rw [popBatch_none hm]
    apply Alone.bind
    refine Alone.atomic fun _ _ => ?_
    by_cases ht : s.list (.trimmed cpu class_) = 0
    · rw [popBatch_none ht]
      apply Alone.bind
      exact clearHint_alone (fun _ => Alone.ret (.none hm ht))
        fun hne => absurd hm hne
    · obtain ⟨b, hb, -⟩ := popBatch_eq (n := batchSize) ht
      have hrun := hafter _ b (Or.inr ⟨rfl, hm⟩) (congrArg Prod.fst hb)
      rw [hb]
      exact hrun
  · obtain ⟨b, hb, -⟩ := popBatch_eq (n := batchSize) hm
    have hrun := hafter _ b (Or.inl rfl) (congrArg Prod.fst hb)
    rw [hb]
    exact hrun

-- ========================================================= list contents

/-- The blocks on a list, in order. -/
def OnList (s : State) (k : Shelf) (l : List Nat) : Prop :=
  LinkedSeg (Header.next s.ground.mem) (s.list k) l 0 ∧ 0 ∉ l

/-- A list that holds a block has a head. -/
theorem OnList.head_ne_zero {l : List Nat} (h : OnList s k l) :
    s.list k ≠ 0 ↔ l ≠ [] := by
  cases l with
  | nil => exact ⟨fun hne => absurd h.1 hne, fun hne => absurd rfl hne⟩
  | cons a l =>
      refine ⟨fun _ => List.cons_ne_nil _ _, fun _ hz => h.2 ?_⟩
      rw [← hz, h.1.head_eq]
      exact List.mem_cons_self ..

/-- The chain `b` is the first `n` blocks of the list `l`, or all of it
if there are fewer. -/
structure Batch.Front (m : Mem) (l : List Nat) (n : Nat) (b : Batch) :
    Prop where
  count : b.count = min n l.length
  chain : LinkedSeg (Header.next m) b.head (l.take n) b.next
  tail : (l.take n).getLast? = some b.tail
  rest : LinkedSeg (Header.next m) b.next (l.drop n) 0

theorem walkBatch_front {m : Mem} (n tail count : Nat) {next : Nat}
    {l : List Nat} (hl : LinkedSeg (Header.next m) next l 0) (h0 : 0 ∉ l) :
    ∃ next', walkBatch m n tail next count
        = ((l.take n).getLastD tail, next', count + min n l.length)
      ∧ LinkedSeg (Header.next m) next (l.take n) next'
      ∧ LinkedSeg (Header.next m) next' (l.drop n) 0 := by
  induction n generalizing tail next count l with
  | zero =>
      refine ⟨next, ?_, rfl, hl⟩
      rw [walkBatch, Nat.zero_min]
      rfl
  | succ n ih =>
      cases l with
      | nil =>
          have hz : next = 0 := hl
          subst hz
          exact ⟨0, rfl, rfl, rfl⟩
      | cons a l =>
          obtain ⟨rfl, hrest⟩ := hl
          have hne : next ≠ 0 := fun h => h0 (h ▸ List.mem_cons_self ..)
          obtain ⟨next', heq, h₁, h₂⟩ := ih next (count + 1) hrest
            fun h => h0 (List.mem_cons_of_mem _ h)
          refine ⟨next', ?_, ⟨rfl, h₁⟩, h₂⟩
          rw [walkBatch, if_neg hne, heq, List.take_succ_cons,
            List.getLastD_cons, List.length_cons, Nat.add_min_add_right]
          congr 2
          omega

variable {b : Batch}

/-- A pop takes the front of the list. -/
theorem OnList.popBatch {l : List Nat} {n : Nat} (h : OnList s k l) (hn : 1 ≤ n)
    (hb : (popBatch k n s).1 = some b) : b.Front s.ground.mem l n := by
  cases l with
  | nil =>
      rw [popBatch_none h.1] at hb
      cases hb
  | cons a l =>
      obtain ⟨n, rfl⟩ := Nat.exists_eq_add_of_le' hn
      obtain ⟨ha, hrest⟩ := h.1
      obtain ⟨next', heq, h₁, h₂⟩ := walkBatch_front n (s.list k) 1 hrest
        fun hz => h.2 (List.mem_cons_of_mem _ hz)
      have hne := h.head_ne_zero.2 (List.cons_ne_nil _ _)
      rw [← ha] at heq
      rw [Slab.popBatch, if_neg hne, Nat.add_sub_cancel, heq] at hb
      cases hb
      refine ⟨?_, ⟨ha, h₁⟩, ?_, h₂⟩
      · rw [List.length_cons, Nat.add_min_add_right]
        exact Nat.add_comm ..
      · rw [List.take_succ_cons, ha, List.getLast?_cons,
          ← List.getLastD_eq_getLast?]

-- ============================================================== searches

/-- The word belongs to the class, and to one of the CPUs in use. -/
def CpuWord (cfg : Config) (class_ i : Nat) : Prop :=
  ∃ v < cfg.ncpu, i = bitmapWord cfg class_ v

/-- The accesses from one state to the next are to words of the class. -/
def WordsOf (cfg : Config) (class_ : Nat) (s s' : State) : Prop :=
  ∀ i, s'.words i = true → s.words i = true ∨ CpuWord cfg class_ i

theorem WordsOf.trans {s₃ : State} (h₁ : WordsOf cfg class_ s₁ s₂)
    (h₂ : WordsOf cfg class_ s₂ s₃) : WordsOf cfg class_ s₁ s₃ :=
  fun i h => (h₂ i h).elim (h₁ i) Or.inr

theorem WordsOf.accessed (hv : v < cfg.ncpu) (h : WordsOf cfg class_ s₁ s₂) :
    WordsOf cfg class_ s₁ (s₂.accessed (bitmapWord cfg class_ v)) :=
  h.trans fun _ hi => (State.words_of_accessed hi).imp_right fun hi =>
    ⟨v, hv, hi⟩

/-- A search that has taken nothing: hints have been dropped, but only
of CPUs whose two lists are empty. -/
structure Searched (cfg : Config) (class_ : Nat) (s s' : State) :
    Prop where
  ground : s'.ground = s.ground
  list : s'.list = s.list
  hint : ∀ p, p.2 < 64 → s.hintAt .nonempty p = true →
    s'.hintAt .nonempty p = true
      ∨ ∃ v < cfg.ncpu, p = hintPos cfg class_ v
          ∧ s.list (.mail v class_) = 0 ∧ s.list (.trimmed v class_) = 0
  words : WordsOf cfg class_ s s'

/-- A search that has taken `b`, from the list `k` of the CPU `v`. A
hint is lost where both lists are empty now, and that of `v` also when
its normal list was used up. -/
structure TookFrom (cfg : Config) (class_ batchSize v : Nat) (k : Shelf)
    (s : State) (b : Batch) (s' : State) : Prop where
  lt : v < cfg.ncpu
  shelf : k = .mail v class_
    ∨ k = .trimmed v class_ ∧ s.list (.mail v class_) = 0
  batch : (popBatch k batchSize s).1 = some b
  ground : s'.ground = s.ground
  list : s'.list = Function.update s.list k b.next
  hint : ∀ p, p.2 < 64 → s.hintAt .nonempty p = true →
    s'.hintAt .nonempty p = true
      ∨ ∃ v' < cfg.ncpu, p = hintPos cfg class_ v'
          ∧ s'.list (.mail v' class_) = 0
          ∧ (s'.list (.trimmed v' class_) = 0
            ∨ v' = v ∧ k = .mail v class_)
  words : WordsOf cfg class_ s s'

/-- A search that has taken `b`. -/
def Took (cfg : Config) (class_ batchSize : Nat) (s : State) (b : Batch)
    (s' : State) : Prop :=
  ∃ v k, TookFrom cfg class_ batchSize v k s b s'

theorem Searched.refl (cfg : Config) (class_ : Nat) (s : State) :
    Searched cfg class_ s s :=
  ⟨rfl, rfl, fun _ _ h => Or.inl h, fun _ => Or.inl⟩

theorem Searched.trans {s₃ : State} (h₁ : Searched cfg class_ s₁ s₂)
    (h₂ : Searched cfg class_ s₂ s₃) : Searched cfg class_ s₁ s₃ where
  ground := h₂.ground.trans h₁.ground
  list := h₂.list.trans h₁.list
  hint p hp hset := by
    cases h₁.hint p hp hset with
    | inl hset₂ =>
        rw [← h₁.list]
        exact h₂.hint p hp hset₂
    | inr hlost => exact Or.inr hlost
  words := h₁.words.trans h₂.words

/-- A load. -/
theorem Searched.accessed (class_ : Nat) (hv : v < cfg.ncpu) (s : State) :
    Searched cfg class_ s (s.accessed (bitmapWord cfg class_ v)) :=
  ⟨rfl, rfl, fun _ _ h => Or.inl h, .accessed hv fun _ => Or.inl⟩

/-- A step on the other bitmap leaves the hints. -/
theorem State.hintAt_beingStolen {i : Nat} {f : BitVec 64 → BitVec 64}
    {p : Nat × Nat} : (s.onHint .beingStolen i f).hintAt .nonempty p
      = s.hintAt .nonempty p := by
  rw [State.hintAt, State.hintAt, State.onHint_hint]
  simp

/-- A step on the other bitmap. -/
theorem Searched.of_hint {f : BitVec 64 → BitVec 64} (hv : v < cfg.ncpu)
    (h : Searched cfg class_ s₁ s₂) :
    Searched cfg class_ s₁
      (s₂.onHint .beingStolen (bitmapWord cfg class_ v) f) where
  ground := h.ground
  list := h.list
  hint p hp hset := by
    rw [State.hintAt_beingStolen]
    exact h.hint p hp hset
  words := h.words.accessed hv

/-- What a pop does depends on the list and on memory only. -/
theorem popBatch_congr {n : Nat} (hl : s₂.list = s₁.list)
    (hg : s₂.ground = s₁.ground) :
    (popBatch k n s₂).1 = (popBatch k n s₁).1 := by
  by_cases hz : s₁.list k = 0
  · rw [popBatch_none hz, popBatch_none (hl ▸ hz)]
  · simp only [popBatch, hl, hg, if_neg hz]

theorem Searched.took {s₃ : State} (h₁ : Searched cfg class_ s₁ s₂)
    (h₂ : Took cfg class_ batchSize s₂ b s₃) :
    Took cfg class_ batchSize s₁ b s₃ := by
  obtain ⟨v, k, h⟩ := h₂
  refine ⟨v, k, h.lt, ?_, ?_, h.ground.trans h₁.ground, ?_, ?_,
    h₁.words.trans h.words⟩
  · rw [← h₁.list]
    exact h.shelf
  · rw [← popBatch_congr h₁.list h₁.ground]
    exact h.batch
  · rw [← h₁.list]
    exact h.list
  · intro p hp hset
    cases h₁.hint p hp hset with
    | inl hset₂ => exact h.hint p hp hset₂
    | inr hlost =>
        -- lists that were empty before the pop are empty after it, for
        -- the pop was from a list that was not
        obtain ⟨v', hv', rfl, hm, ht⟩ := hlost
        have hne : s₂.list k ≠ 0 := by
          intro hz
          have hb := h.batch
          rw [popBatch_none hz] at hb
          cases hb
        rw [← h₁.list] at hm ht
        refine Or.inr ⟨v', hv', rfl, ?_, Or.inl ?_⟩
        · rw [h.list, Function.update_of_ne, hm]
          rintro rfl
          exact hne hm
        · rw [h.list, Function.update_of_ne, ht]
          rintro rfl
          exact hne ht

/-- The same for the other bitmap after the pop. -/
theorem Took.of_hint {f : BitVec 64 → BitVec 64} (hv : v < cfg.ncpu)
    (h : Took cfg class_ batchSize s₁ b s₂) :
    Took cfg class_ batchSize s₁ b
      (s₂.onHint .beingStolen (bitmapWord cfg class_ v) f) := by
  obtain ⟨w, k, h⟩ := h
  refine ⟨w, k, h.lt, h.shelf, h.batch, h.ground, h.list, ?_,
    h.words.accessed hv⟩
  intro p hp hset
  rw [State.hintAt_beingStolen]
  exact h.hint p hp hset

/-- An unsuccessful pop is a search of one CPU. -/
theorem Searched.of_popped (hv : cpu < cfg.ncpu)
    (h : PopOutcome cfg class_ cpu batchSize s none s') :
    Searched cfg class_ s s' := by
  cases h with
  | none hmail htrimmed =>
      refine ⟨rfl, rfl, fun p hp hset => ?_, .accessed hv fun _ => Or.inl⟩
      rw [State.hintAt_unsetHint hp]
      by_cases hpos : p = hintPos cfg class_ cpu
      · exact Or.inr ⟨cpu, hv, hpos, hmail, htrimmed⟩
      · left
        simp [hpos, hset]

theorem TookFrom.of_popped (hv : cpu < cfg.ncpu)
    (h : PopOutcome cfg class_ cpu batchSize s (some b) s') :
    ∃ k, TookFrom cfg class_ batchSize cpu k s b s' := by
  cases h with
  | @some k _ hk hb =>
      refine ⟨k, hv, hk, hb, ?_, ?_, ?_, ?_⟩
      · split
        · rfl
        · rfl
      · split
        · rfl
        · rfl
      · intro p hp hset
        split
        · next hz =>
          rw [State.hintAt_unsetHint hp]
          by_cases hpos : p = hintPos cfg class_ cpu
          · refine Or.inr ⟨cpu, hv, hpos, ?_, ?_⟩
            · show Function.update s.list k b.next _ = 0
              rw [hz]
              exact mail_used_up hk
            · cases hk with
              | inl hm => exact Or.inr ⟨rfl, hm⟩
              | inr ht =>
                  left
                  obtain ⟨rfl, hm⟩ := ht
                  show Function.update s.list _ b.next _ = 0
                  rw [Function.update_self, hz]
          · left
            simp only [hpos, and_false, decide_false, Bool.not_false,
              Bool.true_and]
            exact hset
        · exact Or.inl hset
      · split
        · exact .accessed hv fun _ => Or.inl
        · exact fun _ => Or.inl

theorem Took.of_popped (hv : cpu < cfg.ncpu)
    (h : PopOutcome cfg class_ cpu batchSize s (some b) s') :
    Took cfg class_ batchSize s b s' :=
  ⟨cpu, TookFrom.of_popped hv h⟩

end RsMalloc.Slab
