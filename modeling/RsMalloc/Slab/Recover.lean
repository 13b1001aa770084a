/-
Which transfer blocks a CPU can get back.

One hint bit stands for the normal and for the trimmed list of a CPU and
class. `Recoverable` says that it is set when either list holds a block;
then `try_pop` on that CPU finds one. Pushes, single pops and passes of
`trim_small` keep it. A batch pop clears the bit when it takes the last
block of the normal list, without looking at the trimmed one: it keeps
`Recoverable` unless there are trimmed blocks (`Drains`).
-/
import RsMalloc.Slab.Steal

namespace RsMalloc.Slab

open Conc Numa

variable {cfg : Config} {E : Env → Prop} {class_ cpu batchSize : Nat}
  {s : State}

-- =========================================================== operations

/-- The complete operations on the transfer lists. -/
inductive TransferOp where
  | pushBatch (class_ start tail cpu : Nat)
  | pushSingle (class_ header cpu : Nat)
  | pushSingleTrimmed (class_ header cpu : Nat)
  | popSingle (class_ cpu : Nat)
  | popBatch (class_ cpu batchSize : Nat)
  | tryPop (class_ batchSize cpu : Nat)
  | trim (requested : Nat)

namespace TransferOp

/-- The program of an operation; what it returns is not used. -/
def prog (cfg : Config) (fuel : Nat) : TransferOp → SlabM Unit
  | pushBatch c start tail cpu => transferPushBatch cfg c start tail cpu
  | pushSingle c header cpu => transferPushSingle cfg c header cpu
  | pushSingleTrimmed c header cpu =>
      transferPushSingleTrimmed cfg c header cpu
  | popSingle c cpu => do
      let _ ← transferPopSingle cfg c cpu
      return ()
  | popBatch c cpu n => do
      let _ ← transferPopBatch cfg c cpu n
      return ()
  | tryPop c n cpu => do
      let _ ← Slab.tryPop cfg c n cpu
      return ()
  | trim requested => do
      let _ ← trimSmall cfg fuel requested
      return ()

/-- It names a CPU and a class that exist. -/
def Valid (cfg : Config) : TransferOp → Prop
  | pushBatch c _ _ cpu => c < numSizeClasses ∧ cpu < cfg.ncpu
  | pushSingle c _ cpu => c < numSizeClasses ∧ cpu < cfg.ncpu
  | pushSingleTrimmed c _ cpu => c < numSizeClasses ∧ cpu < cfg.ncpu
  | popSingle c cpu => c < numSizeClasses ∧ cpu < cfg.ncpu
  | popBatch c cpu n => c < numSizeClasses ∧ cpu < cfg.ncpu ∧ 1 ≤ n
  | tryPop c n cpu => c < numSizeClasses ∧ cpu < cfg.ncpu ∧ 1 ≤ n
  | trim _ => True

end TransferOp

/-- The normal list holds at most `n` blocks, but some, and the trimmed
list holds others. -/
def Drains (s : State) (class_ cpu n : Nat) : Prop :=
  (∃ l, OnList s (.mail cpu class_) l ∧ l ≠ [] ∧ l.length ≤ n)
    ∧ s.list (.trimmed cpu class_) ≠ 0

/-- The operation takes no normal list to its end while there are
trimmed blocks. A `try_pop` takes from the CPU whose list has changed. -/
def TransferOp.Spares (s : State) : TransferOp → State → Prop
  | popBatch c cpu n, _ => ¬ Drains s c cpu n
  | tryPop c n _, s' => ∀ v,
      s'.list (.mail v c) ≠ s.list (.mail v c) → ¬ Drains s c v n
  | _, _ => True

/-- The states that sequences of operations lead to, from empty transfer
lists, each operation with the property `P` of the states it starts and
ends in. Between operations anything may happen that leaves the transfer
lists and the hints alone. -/
inductive Ran (cfg : Config) (P : State → TransferOp → State → Prop) :
    State → Prop
  | start {s : State}
      (empty : ∀ k c v, OfCpu k c v → s.list k = 0) : Ran cfg P s
  | op {s s' : State} {fuel : Nat} {env : Nat → Env} (h : Ran cfg P s)
      (o : TransferOp) (valid : o.Valid cfg) (ok : P s o s')
      (run : (o.prog cfg fuel).exec env s = some ((), s')) : Ran cfg P s'
  | between {s s' : State} (h : Ran cfg P s)
      (same : ∀ k c v, OfCpu k c v → s'.list k = s.list k)
      (hint : s'.hint .nonempty = s.hint .nonempty) : Ran cfg P s'

-- ========================================================== recoverable

/-- The hint of a CPU and class is set if one of its lists holds a
block. -/
def Recoverable (cfg : Config) (s : State) : Prop :=
  ∀ k c v, OfCpu k c v → c < numSizeClasses → v < cfg.ncpu →
    s.list k ≠ 0 → s.hintAt .nonempty (hintPos cfg c v) = true

theorem Recoverable.hinted (h : Recoverable cfg s)
    (hc : class_ < numSizeClasses) : Hinted cfg class_ s :=
  fun v hv hne => h _ class_ v (Or.inl rfl) hc hv hne

/-- The lists and the hints are all it is about. -/
theorem Recoverable.congr {s' : State} (h : Recoverable cfg s)
    (hl : ∀ k c v, OfCpu k c v → s'.list k = s.list k)
    (hh : s'.hint .nonempty = s.hint .nonempty) : Recoverable cfg s' := by
  intro k c v hk hc hv hne
  rw [hl k c v hk] at hne
  rw [State.hintAt, hh]
  exact h k c v hk hc hv hne

theorem Recoverable.onGround (h : Recoverable cfg s) (f : Ground → Ground) :
    Recoverable cfg (s.onGround f) :=
  h.congr (fun _ _ _ _ => rfl) rfl

/-- An emptied list asks for no hint. -/
theorem Recoverable.detach (h : Recoverable cfg s) (k : Shelf) :
    Recoverable cfg (s.setList k 0) := by
  intro k' c v hk hc hv hne
  by_cases heq : k' = k
  · exact absurd (heq ▸ Function.update_self ..) hne
  · exact h k' c v hk hc hv fun hz =>
      hne ((Function.update_of_ne heq _ _).trans hz)

/-- Only hints of CPUs with two empty lists are gone. -/
theorem Recoverable.searched {s' : State} (h : Recoverable cfg s)
    (hcov : Covers cfg) (hs : Searched cfg class_ s s') :
    Recoverable cfg s' := by
  intro k c v hk hc hv hne
  rw [hs.list] at hne
  cases hs.hint _ (hintPos_lt ..) (h k c v hk hc hv hne) with
  | inl hset => exact hset
  | inr hlost =>
      obtain ⟨v', hv', hpos, hm, ht⟩ := hlost
      obtain ⟨rfl, rfl⟩ := (hintPos_inj hcov.words hv hv').1 hpos
      cases hk with
      | inl hk => exact absurd (hk ▸ hm) hne
      | inr hk => exact absurd (hk ▸ ht) hne

-- =============================================================== pushes

/-- The first block on a list marks it; a list that held blocks was
marked before. -/
theorem transferPush_stays {k : Shelf} {start tail : Nat}
    (hc : class_ < numSizeClasses) (hcpu : cpu < cfg.ncpu)
    (hk : OfCpu k class_ cpu) :
    Stays E (Recoverable cfg)
      (transferPush cfg k class_ start tail cpu) := by
  intro s hs
  apply Alone.bind
  refine Alone.atomic fun _ _ => ?_
  have hother : ∀ k', k' ≠ k →
      (pushChain k start tail s).2.list k' = s.list k' :=
    fun k' hne => Function.update_of_ne hne _ _
  have hhint : (pushChain k start tail s).2.hint = s.hint := rfl
  refine Alone.when (fun _ => cpuBitSet_alone ?_) fun hne => ?_
  · intro k' c v hk' hc' hv hne
    rw [State.hintAt_setHint (hintPos_lt ..)]
    by_cases heq : k' = k
    · obtain ⟨rfl, rfl⟩ := (heq ▸ hk').unique hk
      simp
    · have hne' : s.list k' ≠ 0 := fun hz => hne ((hother k' heq).trans hz)
      have hset := hs k' c v hk' hc' hv hne'
      rw [State.hintAt, hhint, ← State.hintAt, hset, Bool.or_true]
  · intro k' c v hk' hc' hv hne'
    rw [State.hintAt, hhint]
    by_cases heq : k' = k
    · exact hs k' c v hk' hc' hv (heq ▸ hne)
    · exact hs k' c v hk' hc' hv fun hz => hne' ((hother k' heq).trans hz)

-- ================================================================= pops

/-- A batch that reaches the end of a list is the whole of it. -/
theorem walkBatch_seg (m : Mem) (n tail next count : Nat) :
    ∃ l, LinkedSeg (Header.next m) next l
        (walkBatch m n tail next count).2.1 ∧ 0 ∉ l ∧ l.length ≤ n := by
  induction n generalizing tail next count with
  | zero => exact ⟨[], rfl, List.not_mem_nil, le_refl _⟩
  | succ n ih =>
      rw [walkBatch]
      split
      · exact ⟨[], rfl, List.not_mem_nil, Nat.zero_le _⟩
      · next hne =>
        obtain ⟨l, hl, h0, hlen⟩ := ih next (Header.next m next) (count + 1)
        refine ⟨next :: l, ⟨rfl, hl⟩, ?_, Nat.succ_le_succ hlen⟩
        intro hmem
        cases List.mem_cons.1 hmem with
        | inl hz => exact hne hz.symm
        | inr hin => exact h0 hin

theorem popBatch_drained {k : Shelf} {n : Nat} {b : Batch} (hn : 1 ≤ n)
    (hb : (popBatch k n s).1 = some b) (hz : b.next = 0) :
    ∃ l, OnList s k l ∧ l ≠ [] ∧ l.length ≤ n := by
  by_cases hne : s.list k = 0
  · rw [popBatch_none hne] at hb
    cases hb
  · rw [popBatch, if_neg hne] at hb
    cases hb
    obtain ⟨l, hl, h0, hlen⟩ := walkBatch_seg s.ground.mem (n - 1)
      (s.list k) (Header.next s.ground.mem (s.list k)) 1
    refine ⟨s.list k :: l, ⟨⟨rfl, ?_⟩, ?_⟩, List.cons_ne_nil _ _, ?_⟩
    · rw [show (walkBatch s.ground.mem (n - 1) (s.list k)
        (Header.next s.ground.mem (s.list k)) 1).2.1 = 0 from hz] at hl
      exact hl
    · intro hmem
      cases List.mem_cons.1 hmem with
      | inl h => exact hne h.symm
      | inr hin => exact h0 hin
    · rw [List.length_cons]
      omega

/-- A successful pop that drains nothing. -/
theorem Recoverable.tookFrom {s' : State} {b : Batch} {v₀ : Nat}
    {k₀ : Shelf} (h : Recoverable cfg s) (hcov : Covers cfg)
    (hn : 1 ≤ batchSize)
    (ht : TookFrom cfg class_ batchSize v₀ k₀ s b s')
    (hspare : s'.list (.mail v₀ class_) ≠ s.list (.mail v₀ class_) →
      ¬ Drains s class_ v₀ batchSize) : Recoverable cfg s' := by
  intro k c v hk hc hv hne
  -- the list held a block before, and had its hint
  have hbefore : s.list k ≠ 0 := by
    intro hz
    by_cases heq : k = k₀
    · have hb := ht.batch
      rw [popBatch_none (heq ▸ hz)] at hb
      cases hb
    · rw [ht.list, Function.update_of_ne heq] at hne
      exact hne hz
  cases ht.hint _ (hintPos_lt ..) (h k c v hk hc hv hbefore) with
  | inl hset => exact hset
  | inr hlost =>
      obtain ⟨v', hv', hpos, hm, htr⟩ := hlost
      obtain ⟨rfl, rfl⟩ := (hintPos_inj hcov.words hv hv').1 hpos
      cases hk with
      | inl hk => exact absurd (hk ▸ hm) hne
      | inr hk =>
          subst hk
          cases htr with
          | inl hz => exact absurd hz hne
          | inr hdrained =>
              -- the normal list is used up and the trimmed one is not
              obtain ⟨rfl, rfl⟩ := hdrained
              have hnext : b.next = 0 := by
                rw [ht.list, Function.update_self] at hm
                exact hm
              refine absurd ⟨popBatch_drained hn ht.batch hnext, hbefore⟩
                (hspare fun hsame => ?_)
              have hb := ht.batch
              rw [popBatch_none (hsame ▸ hm)] at hb
              cases hb

theorem transferPopBatch_recoverable (hcov : Covers cfg)
    (hcpu : cpu < cfg.ncpu) (hn : 1 ≤ batchSize) (h : Recoverable cfg s)
    (hspare : ¬ Drains s class_ cpu batchSize) :
    Alone E True (transferPopBatch cfg class_ cpu batchSize)
      (fun _ => Recoverable cfg) s := by
  refine (transferPopBatch_alone class_ cpu batchSize s).mono
    fun out s' hout => ?_
  cases out with
  | none => exact h.searched hcov (Searched.of_popped hcpu hout)
  | some b =>
      obtain ⟨k, ht⟩ := TookFrom.of_popped hcpu hout
      exact h.tookFrom hcov hn ht fun _ => hspare

theorem tryPop_recoverable (hcov : Covers cfg)
    (hc : class_ < numSizeClasses) (hcpu : cpu < cfg.ncpu)
    (hn : 1 ≤ batchSize) (h : Recoverable cfg s) :
    Alone E True (tryPop cfg class_ batchSize cpu)
      (fun _ s' => (TransferOp.tryPop class_ batchSize cpu).Spares s s' →
        Recoverable cfg s') s := by
  refine (tryPop_alone s hcov (h.hinted hc) hcpu).mono
    fun out s' hout hspare => ?_
  cases out with
  | none => exact h.searched hcov hout.1
  | some b =>
      obtain ⟨v, k, ht⟩ := hout
      exact h.tookFrom hcov hn ht (hspare v)

/-- A list that lost its first block held one. -/
theorem Recoverable.popOne {k : Shelf} {b : Batch} (h : Recoverable cfg s)
    (hne : s.list k ≠ 0) : Recoverable cfg (s.setList k b.next) := by
  intro k' c v hk hc hv hne'
  refine h k' c v hk hc hv fun hz => ?_
  by_cases heq : k' = k
  · exact hne (heq ▸ hz)
  · exact hne' ((Function.update_of_ne heq _ _).trans hz)

/-- A single pop leaves the hint alone, but where it finds both lists
empty. -/
theorem transferPopSingle_stays (hcov : Covers cfg)
    (hcpu : cpu < cfg.ncpu) :
    Stays E (Recoverable cfg) (transferPopSingle cfg class_ cpu) := by
  intro s hs
  unfold transferPopSingle
  apply Alone.bind
  refine Alone.atomic fun _ _ => ?_
  by_cases hm : s.list (.mail cpu class_) = 0
  · rw [popBatch_none hm]
    apply Alone.bind
    refine Alone.atomic fun _ _ => ?_
    by_cases ht : s.list (.trimmed cpu class_) = 0
    · rw [popBatch_none ht]
      apply Alone.bind
      refine clearHint_alone (fun _ => Alone.ret ?_)
        fun hne => absurd hm hne
      have hp : PopOutcome cfg class_ cpu 1 s none _ := .none hm ht
      exact hs.searched hcov (Searched.of_popped hcpu hp)
    · obtain ⟨b, hb, -⟩ := popBatch_eq (n := 1) ht
      rw [hb]
      exact Alone.ret (hs.popOne ht)
  · obtain ⟨b, hb, -⟩ := popBatch_eq (n := 1) hm
    rw [hb]
    exact Alone.ret (hs.popOne hm)

-- ============================================================= trimming

theorem releaseMemory_stays (header size : Nat) :
    Stays E (Recoverable cfg) (releaseMemory header size) := by
  unfold releaseMemory
  dsimp only
  split
  · exact Stays.ret _
  · refine Stays.atomic fun env s hs => ?_
    split
    · exact hs.congr (fun _ _ _ _ => rfl) rfl
    · exact hs.congr (fun _ _ _ _ => rfl) rfl

theorem sortList_stays {stamp age : Nat} (hc : class_ < numSizeClasses)
    (hcpu : cpu < cfg.ncpu) (fuel next : Nat) (w : Sorted) :
    Stays E (Recoverable cfg)
      (sortList cfg class_ cpu stamp age fuel next w) := by
  induction fuel generalizing next w with
  | zero => exact Stays.halt
  | succ fuel ih =>
      rw [sortList]
      split
      · exact Stays.ret _
      · refine (Stays.read _).bind fun x => ?_
        have hlink : ∀ v, Stays E (Recoverable cfg)
            (Prog.modify (State.onGround (Header.setNext next v))) :=
          fun v => Stays.modify fun s hs => hs.onGround _
        dsimp only
        split
        · exact (hlink _).bind fun _ => ih _ _
        · refine (hlink _).bind fun _ => ?_
          split
          · exact (transferPush_stays hc hcpu (Or.inl rfl)).bind
              fun _ => ih _ _
          · exact ih _ _

theorem releaseList_stays {stamp requested : Nat}
    (hc : class_ < numSizeClasses) (hcpu : cpu < cfg.ncpu)
    (fuel trimList total : Nat) :
    Stays E (Recoverable cfg)
      (releaseList cfg class_ cpu stamp requested fuel trimList total) := by
  induction fuel generalizing trimList total with
  | zero => exact Stays.halt
  | succ fuel ih =>
      rw [releaseList]
      split
      · exact Stays.ret _
      · refine (Stays.read _).bind fun next => ?_
        refine Stays.bind ?_ fun didTrim => ?_
        · split
          · exact releaseMemory_stays _ _
          · exact Stays.ret _
        · refine (Stays.modify fun s hs => hs.onGround _).when.bind
            fun _ => ?_
          refine (Stays.modify fun s hs => hs.onGround _).bind fun _ => ?_
          refine Stays.bind ?_ fun _ => ih _ _
          split
          · exact transferPush_stays hc hcpu (Or.inr rfl)
          · exact transferPush_stays hc hcpu (Or.inl rfl)

theorem trimShard_stays {fuel requested total : Nat}
    (hc : class_ < numSizeClasses) (hcpu : cpu < cfg.ncpu) :
    Stays E (Recoverable cfg)
      (trimShard cfg fuel cpu class_ requested total) := by
  refine (Stays.atomic fun _ s hs => hs.detach _).bind fun output => ?_
  split
  · exact Stays.ret _
  · refine (Stays.read _).bind fun stamp => ?_
    refine Stays.bind (Stays.atomic fun _ s hs =>
      hs.congr (fun _ _ _ _ => rfl) rfl) fun age => ?_
    refine (sortList_stays hc hcpu fuel output _).bind fun w => ?_
    refine (transferPush_stays hc hcpu (Or.inl rfl)).when.bind fun _ => ?_
    exact releaseList_stays hc hcpu _ _ _

theorem trimSmall_stays {fuel requested : Nat} :
    Stays E (Recoverable cfg) (trimSmall cfg fuel requested) := by
  have hclasses : ∀ cpu, cpu < cfg.ncpu → ∀ n class_ total,
      class_ + n ≤ numSizeClasses → Stays E (Recoverable cfg)
        (trimClasses cfg fuel cpu requested n class_ total) := by
    intro cpu hcpu n
    induction n with
    | zero => exact fun _ _ _ => Stays.ret _
    | succ n ih =>
        intro class_ total hle
        exact (trimShard_stays (by omega) hcpu).bind
          fun total => ih (class_ + 1) total (by omega)
  have hcpus : ∀ n cpu total, cpu + n ≤ cfg.ncpu →
      Stays E (Recoverable cfg)
        (trimCpus cfg fuel requested n cpu total) := by
    intro n
    induction n with
    | zero => exact fun _ _ _ => Stays.ret _
    | succ n ih =>
        intro cpu total hle
        exact (hclasses cpu (by omega) _ _ _ (by decide)).bind
          fun total => ih (cpu + 1) total (by omega)
  refine Stays.bind (Stays.atomic fun _ s hs => ?_) fun locked => ?_
  · split
    · exact hs
    · exact hs.congr (fun _ _ _ _ => rfl) rfl
  · split
    · exact Stays.ret _
    · refine (hcpus _ _ _ (by omega)).bind fun total => ?_
      refine Stays.bind (Stays.modify fun s hs => ?_) fun _ => Stays.ret _
      exact hs.congr (fun _ _ _ _ => rfl) rfl

-- ================================================================= runs

theorem TransferOp.recoverable {fuel : Nat} (hcov : Covers cfg)
    (o : TransferOp) (hv : o.Valid cfg) (h : Recoverable cfg s) :
    Alone E True (o.prog cfg fuel)
      (fun _ s' => o.Spares s s' → Recoverable cfg s') s := by
  -- all but the batch pops keep it whatever they leave
  have hkept : ∀ {p : SlabM Unit}, Stays E (Recoverable cfg) p →
      Alone E True p (fun _ s' => o.Spares s s' → Recoverable cfg s') s :=
    fun hp => (hp s h).mono fun _ _ hs _ => hs
  cases o with
  | pushBatch c start tail v =>
      exact hkept (transferPush_stays hv.1 hv.2 (Or.inl rfl))
  | pushSingle c header v =>
      exact hkept (transferPush_stays hv.1 hv.2 (Or.inl rfl))
  | pushSingleTrimmed c header v =>
      exact hkept (transferPush_stays hv.1 hv.2 (Or.inr rfl))
  | popSingle c v =>
      exact hkept ((transferPopSingle_stays hcov hv.2).bind
        fun _ => Stays.ret _)
  | popBatch c v n =>
      by_cases hdrains : Drains s c v n
      · exact (transferPopBatch_alone c v n s).seq
          fun _ _ _ => Alone.ret fun hspare => absurd hdrains hspare
      · exact (transferPopBatch_recoverable hcov hv.2.1 hv.2.2 h
          hdrains).seq fun _ _ hs => Alone.ret fun _ => hs
  | tryPop c n v =>
      exact (tryPop_recoverable hcov hv.1 hv.2.1 hv.2.2 h).seq
        fun _ _ hs => hs
  | trim requested => exact hkept (trimSmall_stays.bind fun _ => Stays.ret _)

theorem Ran.recoverable (hcov : Covers cfg)
    (h : Ran cfg TransferOp.Spares s) : Recoverable cfg s := by
  induction h with
  | start empty => exact fun k c v hk _ _ hne => absurd (empty k c v hk) hne
  | op h o valid ok run ih =>
      exact (o.recoverable (E := fun _ => True) hcov valid ih).of_exec
        (fun _ => trivial) run ok
  | between h same hint ih => exact ih.congr same hint

/-- A CPU with a hint finds its own blocks. -/
theorem tryPop_own (hc : class_ < numSizeClasses) (hcpu : cpu < cfg.ncpu)
    (h : Recoverable cfg s) {k : Shelf} (hk : OfCpu k class_ cpu)
    (hne : s.list k ≠ 0) :
    Alone E False (tryPop cfg class_ batchSize cpu)
      (fun out _ => ∃ b, out = some b ∧ b.head ≠ 0) s := by
  unfold tryPop
  apply Alone.bind
  apply cpuIsEmpty_alone
  rw [h k class_ cpu hk hc hcpu hne]
  have hne' : (s.accessed (bitmapWord cfg class_ cpu)).list k ≠ 0 := hne
  generalize s.accessed (bitmapWord cfg class_ cpu) = s at hne' ⊢
  refine (transferPopBatch_alone class_ cpu batchSize s).seq
    fun out s' hout => ?_
  cases hout with
  | @some k' b hk' hb =>
      refine Alone.ret ⟨b, rfl, ?_⟩
      by_cases hz : s.list k' = 0
      · rw [popBatch_none hz] at hb
        cases hb
      · obtain ⟨b', hb', hhead⟩ := popBatch_eq (n := batchSize) hz
        rw [hb'] at hb
        cases hb
        rw [hhead]
        exact hz
  | none hmail htrimmed =>
      cases hk with
      | inl hk => exact absurd (hk ▸ hmail) hne'
      | inr hk => exact absurd (hk ▸ htrimmed) hne'

/-- In every sequence of complete operations from empty lists in which
no batch pop takes the last normal block of a CPU that has trimmed ones,
a CPU that has a normal or a trimmed block of a class gets one. -/
theorem own_blocks_recoverable (sys : Sys) (cfg : Config) {ncpu : Nat}
    (hncpu : ncpu ≤ usizeMax) {s : State}
    (hr : Ran (ensureCache sys ncpu cfg) TransferOp.Spares s)
    {class_ cpu batchSize : Nat} (hc : class_ < numSizeClasses)
    (hcpu : cpu < ncpu) (hne : s.list (.mail cpu class_) ≠ 0
      ∨ s.list (.trimmed cpu class_) ≠ 0)
    (env : Nat → Env) :
    ∃ b s', (tryPop (ensureCache sys ncpu cfg) class_ batchSize cpu).exec
        env s = some (some b, s') ∧ b.head ≠ 0 := by
  have hcov := ensureCache_covers sys hncpu cfg
  have hown : ∃ k, OfCpu k class_ cpu ∧ s.list k ≠ 0 := by
    cases hne with
    | inl hne => exact ⟨_, Or.inl rfl, hne⟩
    | inr hne => exact ⟨_, Or.inr rfl, hne⟩
  obtain ⟨k, hk, hne⟩ := hown
  rw [← ensureCache_ncpu sys ncpu cfg] at hcpu
  have htry : Alone (fun _ => True) False
      (tryPop (ensureCache sys ncpu cfg) class_ batchSize cpu) _ s :=
    tryPop_own hc hcpu (hr.recoverable hcov) hk hne
  obtain ⟨out, s', hrun, b, rfl, hhead⟩ :=
    htry.exec fun j => (trivial : (fun _ => True) (env j))
  exact ⟨b, s', hrun, hhead⟩

-- ======================================================== three blocks

/-- One CPU. -/
def oneCpuCache : Config :=
  ensureCache ⟨none, fun _ => none, true, true, true⟩ 1 (.single 0)

/-- Blocks of 8192 bytes, at 4080, at 20464 and at 36848, long unused. -/
def oldBlocks : State :=
  { State.new fun x => if x ∈ [4088, 20472, 36856] then 2 else 0 with
    stamp := 100 }

/-- Operations one after the other. -/
def runOps (cfg : Config) (fuel : Nat) :
    List TransferOp → State → Option State
  | [], s => some s
  | o :: ops, s => do
      let (_, s) ← (o.prog cfg fuel).exec (fun _ => {}) s
      runOps cfg fuel ops s

theorem Ran.runOps {P : State → TransferOp → State → Prop} {fuel : Nat}
    {ops : List TransferOp} {s s' : State} (h : Ran cfg P s)
    (hrun : runOps cfg fuel ops s = some s')
    (hops : ∀ o ∈ ops, o.Valid cfg ∧ ∀ s s', P s o s') : Ran cfg P s' := by
  induction ops generalizing s with
  | nil =>
      cases hrun
      exact h
  | cons o ops ih =>
      rw [Slab.runOps] at hrun
      cases hexec : (o.prog cfg fuel).exec (fun _ => {}) s with
      | none => simp [hexec] at hrun
      | some x =>
          simp only [hexec, Option.bind_eq_bind, Option.bind_some] at hrun
          obtain ⟨hv, hp⟩ := hops o (List.mem_cons_self ..)
          exact ih (h.op o hv (hp _ _) hexec) hrun
            fun o' ho => hops o' (List.mem_cons_of_mem _ ho)

theorem oldBlocks_empty (k : Shelf) (c v : Nat) (_ : OfCpu k c v) :
    oldBlocks.list k = 0 := rfl

/-- With two normal blocks, a pop of one leaves the other. -/
theorem not_drains_one
    (h : Header.next s.ground.mem (s.list (.mail cpu class_)) ≠ 0) :
    ¬ Drains s class_ cpu 1 := by
  rintro ⟨⟨l, hl, hne, hlen⟩, -⟩
  cases l with
  | nil => exact hne rfl
  | cons a l =>
      obtain rfl : l = [] := List.length_eq_zero_iff.1 (Nat.le_zero.1
        (Nat.le_of_succ_le_succ hlen))
      obtain ⟨ha, hend⟩ := hl.1
      exact h (ha ▸ hend)

/-- The first block is pushed and trimmed, then the others are pushed. -/
def sparingOps : List TransferOp :=
  [.pushSingle 23 4080 0, .trim 0, .pushSingle 23 20464 0,
    .pushSingle 23 36848 0]

/-- A batch pop of one of two normal blocks is spared, a single pop takes
the other: the trimmed block is found. -/
theorem own_blocks_recoverable_spared :
    ∃ s₁ s₂ s₃ b s', runOps oneCpuCache 4 sparingOps oldBlocks = some s₁
      ∧ s₁.list (.trimmed 0 23) = 4080 ∧ ¬ Drains s₁ 23 0 1
      ∧ ((TransferOp.popBatch 23 0 1).prog oneCpuCache 4).exec
          (fun _ => {}) s₁ = some ((), s₂)
      ∧ runOps oneCpuCache 4 [.popSingle 23 0] s₂ = some s₃
      ∧ s₃.list (.mail 0 23) = 0 ∧ s₃.list (.trimmed 0 23) = 4080
      ∧ (tryPop oneCpuCache 23 1 0).exec (fun _ => {}) s₃
          = some (some b, s')
      ∧ b.head ≠ 0 := by
  have hcheck : (runOps oneCpuCache 4 sparingOps oldBlocks).bind
      (fun s₁ => (((TransferOp.popBatch 23 0 1).prog oneCpuCache 4).exec
        (fun _ => {}) s₁).bind fun x =>
          (runOps oneCpuCache 4 [.popSingle 23 0] x.2).map fun s₃ =>
            (Header.next s₁.ground.mem (s₁.list (.mail 0 23)),
              s₁.list (.trimmed 0 23), s₃.list (.mail 0 23),
              s₃.list (.trimmed 0 23))) = some (20464, 4080, 0, 4080) := by
    decide +kernel
  obtain ⟨s₁, hrun₁, hcheck⟩ := Option.bind_eq_some_iff.1 hcheck
  obtain ⟨⟨⟨⟩, s₂⟩, hpop, hcheck⟩ := Option.bind_eq_some_iff.1 hcheck
  obtain ⟨s₃, hrun₃, hcheck⟩ := Option.map_eq_some_iff.1 hcheck
  simp only [Prod.mk.injEq] at hcheck
  obtain ⟨hnext, htrimmed, hmail, hleft⟩ := hcheck
  have hspare : ¬ Drains s₁ 23 0 1 := not_drains_one (by
    rw [hnext]
    decide)
  have hran₁ : Ran oneCpuCache TransferOp.Spares s₁ :=
    (Ran.start oldBlocks_empty).runOps hrun₁ (by
      simp only [sparingOps, List.forall_mem_cons]
      exact ⟨⟨⟨by decide, by decide⟩, fun _ _ => trivial⟩,
        ⟨trivial, fun _ _ => trivial⟩,
        ⟨⟨by decide, by decide⟩, fun _ _ => trivial⟩,
        ⟨⟨by decide, by decide⟩, fun _ _ => trivial⟩,
        nofun⟩)
  have hran₂ := hran₁.op (.popBatch 23 0 1)
    ⟨by decide, by decide, by decide⟩ hspare hpop
  have hran₃ : Ran oneCpuCache TransferOp.Spares s₃ :=
    hran₂.runOps hrun₃ fun o ho => by
      rw [List.mem_singleton.1 ho]
      exact ⟨⟨by decide, by decide⟩, fun _ _ => trivial⟩
  have hne : s₃.list (.trimmed 0 23) ≠ 0 := by
    rw [hleft]
    decide
  obtain ⟨b, s', hexec, hb⟩ := own_blocks_recoverable _ _ (by decide)
    hran₃ (by decide) Nat.zero_lt_one (Or.inr hne) fun _ => {}
  exact ⟨s₁, s₂, s₃, b, s', hrun₁, htrimmed, hspare, hpop, hrun₃, hmail,
    hleft, hexec, hb⟩

/-- The first block is pushed and trimmed, the second is pushed and taken
by a batch pop: the trimmed block has no hint. -/
def drainingOps : List TransferOp :=
  [.pushSingle 23 4080 0, .trim 0, .pushSingle 23 20464 0,
    .popBatch 23 0 1]

/-- After these operations the CPU has a trimmed block, and its
`try_pop` returns null. -/
theorem own_blocks_lost :
    ∃ s s', Ran oneCpuCache (fun _ _ _ => True) s
      ∧ s.list (.trimmed 0 23) ≠ 0
      ∧ (tryPop oneCpuCache 23 1 0).exec (fun _ => {}) s
          = some (none, s') := by
  have hcheck : (runOps oneCpuCache 4 drainingOps oldBlocks).map
      (fun s => (s.list (.trimmed 0 23),
        ((tryPop oneCpuCache 23 1 0).exec (fun _ => {}) s).map
          fun x => x.1.isNone)) = some (4080, some true) := by
    decide +kernel
  cases hrun : runOps oneCpuCache 4 drainingOps oldBlocks with
  | none =>
      rw [hrun] at hcheck
      cases hcheck
  | some s =>
      rw [hrun, Option.map_some, Option.some.injEq, Prod.mk.injEq] at hcheck
      have hran : Ran oneCpuCache (fun _ _ _ => True) s :=
        (Ran.start oldBlocks_empty).runOps hrun (by
          intro o ho
          refine ⟨?_, fun _ _ => trivial⟩
          revert o
          simp only [drainingOps, List.forall_mem_cons]
          exact ⟨⟨by decide, by decide⟩, trivial, ⟨by decide, by decide⟩,
            ⟨by decide, by decide, by decide⟩,
            nofun⟩)
      cases hexec : (tryPop oneCpuCache 23 1 0).exec (fun _ => {}) s with
      | none =>
          rw [hexec] at hcheck
          cases hcheck.2
      | some x =>
          obtain ⟨out, s'⟩ := x
          rw [hexec, Option.map_some, Option.some.injEq] at hcheck
          refine ⟨s, s', hran, ?_, ?_⟩
          · rw [hcheck.1]
            decide
          · have hnone : out = none := Option.isNone_iff_eq_none.1 hcheck.2
            rw [hexec, hnone]

end RsMalloc.Slab
