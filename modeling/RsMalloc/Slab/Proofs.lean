/-
The programs of the slab caches, each on what it owns.

A push is safe on a batch, a refill on nothing, a free on one block.
The proofs follow the programs; what a step does to the parts is said
in Stock.lean and Spans.lean, and no proof mentions another thread. The
hint bitmaps, the usage counters and the predictors own nothing, so the
programs that only touch them are neutral.
-/
import RsMalloc.Slab.Spans

namespace RsMalloc.Slab

open Conc

variable {cfg : Config}

-- no proof below computes with the bytes of memory
attribute [local irreducible] Mem.load

-- ====================================================== neutral programs

section Neutral

theorem loadHint_neutral (b : Hint) (i : Nat) :
    Neutral (Inv cfg) (loadHint b i) :=
  Neutral.atomic fun _ _ _ h => h.same rfl rfl rfl rfl

theorem rmwHint_neutral (b : Hint) (i : Nat) (f : BitVec 64 → BitVec 64) :
    Neutral (Inv cfg) (rmwHint b i f) :=
  Neutral.atomic fun _ _ _ h => h.same rfl rfl rfl rfl

theorem cpuBitSet_neutral (b : Hint) (class_ cpu : Nat) :
    Neutral (Inv cfg) (cpuBitSet cfg b class_ cpu) :=
  (loadHint_neutral b _).bind fun _ => (rmwHint_neutral b _ _).when

theorem cpuBitClear_neutral (b : Hint) (class_ cpu : Nat) :
    Neutral (Inv cfg) (cpuBitClear cfg b class_ cpu) :=
  (loadHint_neutral b _).bind fun _ => (rmwHint_neutral b _ _).when

theorem cpuIsEmpty_neutral (b : Hint) (class_ cpu : Nat) :
    Neutral (Inv cfg) (cpuIsEmpty cfg b class_ cpu) :=
  (loadHint_neutral b _).bind fun _ => Neutral.ret _

theorem cpuTryMarking_neutral (b : Hint) (class_ cpu : Nat) :
    Neutral (Inv cfg) (cpuTryMarking cfg b class_ cpu) := by
  unfold cpuTryMarking
  apply (loadHint_neutral b _).bind
  intro word
  split
  · exact Neutral.ret _
  · exact (rmwHint_neutral b _ _).bind fun _ => Neutral.ret _

theorem clearHint_neutral (class_ cpu : Nat) :
    Neutral (Inv cfg) (clearHint cfg class_ cpu) := by
  unfold clearHint
  apply (cpuBitClear_neutral _ _ _).bind
  intro _
  apply (Neutral.read _).bind
  intro head
  exact (cpuBitSet_neutral _ _ _).when

theorem cpuId_neutral : Neutral (Inv cfg) cpuId := Neutral.ask _

theorem addUsage_neutral (cpu class_ n : Nat) :
    Neutral (Inv cfg) (addUsage cpu class_ n) :=
  Neutral.atomic fun _ _ _ h => h.same rfl rfl rfl rfl

theorem observe_neutral (kind : Predictor) (tid class_ batch count : Nat) :
    Neutral (Inv cfg) (observe cfg kind tid class_ batch count) :=
  Neutral.atomic fun _ _ _ h => h.same rfl rfl rfl rfl

/-- A predictor asks for at least one block. -/
theorem predictBatch_safe (kind : Predictor) (tid class_ : Nat)
    (r : Multiset Part) :
    Safe (Inv cfg) (predictBatch cfg kind tid class_)
      (fun n r' => 0 < n ∧ r' = r) r := by
  apply Safe.atomic
  intro _ s g h
  refine ⟨r, h.same rfl rfl rfl rfl, ?_, rfl⟩
  have hone : 1 ≤ iterations class_ := Nat.le_max_right _ _
  dsimp only
  omega

end Neutral

-- ============================================================ list steps

/-- What a pop of one block returns: null, or a free block of the
class. -/
def Popped (cfg : Config) (c h : Nat) (r : Multiset Part) : Prop :=
  h = 0 ∧ r = 0 ∨ h ≠ 0 ∧ IsFree cfg c h r

/-- What a pop of up to `n` blocks returns. -/
def GotBatch (cfg : Config) (c n : Nat) (o : Option Batch)
    (r : Multiset Part) : Prop :=
  match o with
  | none => r = 0
  | some b => b.head ≠ 0 ∧ b.count ≤ max n 1
      ∧ IsBatch cfg c b.head b.tail b.count r

section Lists

variable {r : Multiset Part} {c start tail n : Nat}

/-- The atomic pop from any list. -/
theorem popBatch_safe (k : Shelf) (batchSize : Nat) :
    Safe (Inv cfg)
      (Prog.atomic fun (_ : Env) s => popBatch k batchSize s)
      (fun o r => GotBatch cfg k.cls batchSize o r) 0 := by
  apply Safe.atomic
  intro _ s g h
  rw [zero_add] at h
  rcases popBatch_inv k batchSize h with hnone | ⟨b, s', hsome, hcount, hne,
    r, hinv, hbatch⟩
  · rw [hnone]
    refine ⟨0, ?_, rfl⟩
    rw [zero_add]
    exact h
  · rw [hsome]
    exact ⟨r, hinv, hne, hcount, hbatch⟩

/-- A batch of one is a block. -/
theorem GotBatch.popped {b : Batch} (h : GotBatch cfg c 1 (some b) r) :
    Popped cfg c b.head r := by
  obtain ⟨hne, hcount, hb⟩ := h
  have hone : b.count = 1 := by
    have := hb.count_pos
    omega
  rw [hone] at hb
  exact Or.inr ⟨hne, hb.single⟩

/-- `RseqCore::pop`. -/
theorem rseqPop_safe (cpu class_ : Nat) :
    Safe (Inv cfg) (rseqPop cpu class_)
      (fun o r => match o with
        | none => r = 0
        | some h => Popped cfg class_ h r) 0 := by
  unfold rseqPop
  apply Safe.bind
  apply Safe.atomic
  intro env s g h
  split
  · exact ⟨0, h, rfl⟩
  · rw [zero_add] at h
    rcases popBatch_inv (.hot cpu class_) 1 h with hnone | ⟨b, s', hsome,
      hcount, hne, r, hinv, hbatch⟩
    · rw [hnone]
      refine ⟨0, ?_, ?_⟩
      · rw [zero_add]
        exact h
      · exact (addUsage_neutral cpu class_ _).when.andThen fun _ =>
          Or.inl ⟨rfl, rfl⟩
    · rw [hsome]
      refine ⟨r, hinv, ?_⟩
      exact (addUsage_neutral cpu class_ _).when.andThen fun _ =>
        GotBatch.popped ⟨hne, hcount, hbatch⟩

/-- `RseqCore::push_tailed`: the chain is on the list, or still the
caller's. -/
theorem rseqPush_safe (cpu : Nat) (hb : IsBatch cfg c start tail n r)
    (k : Nat) :
    Safe (Inv cfg) (rseqPush cpu c start tail k)
      (fun done r' => done = true ∧ r' = 0
        ∨ done = false ∧ IsBatch cfg c start tail n r') r := by
  unfold rseqPush
  apply Safe.bind
  apply Safe.atomic
  intro env s g h
  split
  · split
    · obtain ⟨r', hinv, hb'⟩ := torn_inv (.hot cpu c) hb h
      refine ⟨r', hinv, ?_⟩
      exact (addUsage_neutral cpu c _).when.andThen fun _ =>
        Or.inr ⟨rfl, hb'⟩
    · refine ⟨r, h, ?_⟩
      exact (addUsage_neutral cpu c _).when.andThen fun _ =>
        Or.inr ⟨rfl, hb⟩
  · refine ⟨0, ?_, ?_⟩
    · rw [zero_add]
      exact pushChain_inv (k := .hot cpu c) hb h
    · exact (addUsage_neutral cpu c _).when.andThen fun _ =>
        Or.inl ⟨rfl, rfl⟩

/-- The pushes to the transfer lists. -/
theorem transferPush_safe {k : Shelf} (class_ cpu : Nat)
    (hb : IsBatch cfg k.cls start tail n r) :
    Safe (Inv cfg) (transferPush cfg k class_ start tail cpu)
      (fun _ r' => r' = 0) r := by
  unfold transferPush
  apply Safe.bind
  apply Safe.atomic
  intro _ s g h
  refine ⟨0, ?_, (cpuBitSet_neutral _ _ _).when 0⟩
  rw [zero_add]
  exact pushChain_inv hb h

theorem transferPushBatch_safe (cpu : Nat)
    (hb : IsBatch cfg c start tail n r) :
    Safe (Inv cfg) (transferPushBatch cfg c start tail cpu)
      (fun _ r' => r' = 0) r :=
  transferPush_safe (k := .mail cpu c) c cpu hb

/-- `transfer_pop_single`. -/
theorem transferPopSingle_safe (class_ cpu : Nat) :
    Safe (Inv cfg) (transferPopSingle cfg class_ cpu)
      (fun h r => Popped cfg class_ h r) 0 := by
  unfold transferPopSingle
  apply Safe.bind
  refine (popBatch_safe (.mail cpu class_) 1).mono ?_
  rintro (_ | b) r hgot
  · cases hgot
    apply Safe.bind
    refine (popBatch_safe (.trimmed cpu class_) 1).mono ?_
    rintro (_ | b) r hgot
    · cases hgot
      exact (clearHint_neutral _ _).andThen fun _ => Or.inl ⟨rfl, rfl⟩
    · exact hgot.popped
  · exact hgot.popped

/-- `transfer_pop_batch`. -/
theorem transferPopBatch_safe (class_ cpu batchSize : Nat) :
    Safe (Inv cfg) (transferPopBatch cfg class_ cpu batchSize)
      (fun o r => GotBatch cfg class_ batchSize o r) 0 := by
  unfold transferPopBatch
  apply Safe.bind
  refine (popBatch_safe (.mail cpu class_) batchSize).mono ?_
  rintro (_ | b) r hgot
  · cases hgot
    apply Safe.bind
    refine (popBatch_safe (.trimmed cpu class_) batchSize).mono ?_
    rintro (_ | b) r hgot
    · cases hgot
      exact (clearHint_neutral _ _).andThen fun _ => rfl
    · exact (clearHint_neutral _ _).when.andThen fun _ => hgot
  · exact (clearHint_neutral _ _).when.andThen fun _ => hgot

end Lists

-- ============================================================== stealing

section Stealing

/-- Try one pop, and go on if it found nothing. -/
theorem orElse_safe {c n : Nat} {p q : SlabM (Option Batch)}
    (hp : Safe (Inv cfg) p (fun o r => GotBatch cfg c n o r) 0)
    (hq : Safe (Inv cfg) q (fun o r => GotBatch cfg c n o r) 0) :
    Safe (Inv cfg) (p.bind fun
      | some b => .ret (some b)
      | none => q) (fun o r => GotBatch cfg c n o r) 0 := by
  apply Safe.bind
  refine hp.mono ?_
  rintro (_ | b) r hgot
  · cases hgot
    exact hq
  · exact hgot

theorem stealBits_safe (class_ cpu batchSize wordIdx : Nat) (force : Bool)
    (n : Nat) (bits : BitVec 64) :
    Safe (Inv cfg) (stealBits cfg class_ cpu batchSize wordIdx force n bits)
      (fun o r => GotBatch cfg class_ batchSize o r) 0 := by
  induction n generalizing bits with
  | zero => exact rfl
  | succ n ih =>
      unfold stealBits
      split
      · exact rfl
      · dsimp only
        split
        · exact ih _
        · apply (cpuTryMarking_neutral _ _ _).andThen
          intro marked
          split
          · exact ih _
          · apply Safe.bind
            refine (transferPopBatch_safe class_ _ batchSize).mono ?_
            intro o r hgot
            apply (cpuBitClear_neutral _ _ _).andThen
            intro _
            cases o with
            | none =>
                cases hgot
                exact ih _
            | some b => exact hgot

theorem stealWord_safe (class_ cpu batchSize start end_ wordIdx : Nat)
    (force : Bool) :
    Safe (Inv cfg)
      (stealWord cfg class_ cpu batchSize start end_ wordIdx force)
      (fun o r => GotBatch cfg class_ batchSize o r) 0 := by
  unfold stealWord
  apply (loadHint_neutral _ _).andThen
  intro bits
  split
  · exact rfl
  · exact stealBits_safe ..

theorem stealWords_safe (class_ cpu batchSize start end_ n wordIdx : Nat) :
    Safe (Inv cfg)
      (stealWords cfg class_ cpu batchSize start end_ n wordIdx)
      (fun o r => GotBatch cfg class_ batchSize o r) 0 := by
  induction n generalizing wordIdx with
  | zero => exact rfl
  | succ n ih =>
      unfold stealWords
      apply orElse_safe (stealWord_safe _ _ _ _ _ _ _)
      apply orElse_safe (stealWord_safe _ _ _ _ _ _ _)
      exact ih _

theorem slowestNumaStealPath_safe (class_ cpu node batchSize n i : Nat) :
    Safe (Inv cfg)
      (slowestNumaStealPath cfg class_ cpu node batchSize n i)
      (fun o r => GotBatch cfg class_ batchSize o r) 0 := by
  induction n generalizing i with
  | zero => exact rfl
  | succ n ih =>
      unfold slowestNumaStealPath
      exact orElse_safe (stealWords_safe _ _ _ _ _ _ _) (ih _)

theorem popSlow_safe (class_ cpu batchSize : Nat) :
    Safe (Inv cfg) (popSlow cfg class_ cpu batchSize)
      (fun o r => GotBatch cfg class_ batchSize o r) 0 := by
  unfold popSlow
  split
  · exact orElse_safe (stealWords_safe _ _ _ _ _ _ _) (slowestNumaStealPath_safe _ _ _ _ _ _)
  · exact stealWords_safe ..

/-- `try_pop`. -/
theorem tryPop_safe (class_ batchSize cpu : Nat) :
    Safe (Inv cfg) (tryPop cfg class_ batchSize cpu)
      (fun o r => GotBatch cfg class_ batchSize o r) 0 := by
  unfold tryPop
  apply (cpuIsEmpty_neutral _ _ _).andThen
  intro empty
  split
  · exact popSlow_safe ..
  · exact orElse_safe (transferPopBatch_safe _ _ _) (popSlow_safe _ _ _)

end Stealing

-- ========================================================== push and pop

section PushPop

variable {r : Multiset Part} {c start tail n : Nat}

/-- One pass of a push, when what follows an abort is safe. -/
theorem pushOnce_safe {again : Nat → SlabM Unit}
    (hb : IsBatch cfg c start tail n r)
    (hagain : ∀ cpu r', IsBatch cfg c start tail n r' →
      Safe (Inv cfg) (again cpu) (fun _ r => r = 0) r') (k : Nat) :
    Safe (Inv cfg) (pushOnce cfg c start tail k again)
      (fun _ r' => r' = 0) r := by
  unfold pushOnce
  apply cpuId_neutral.andThen
  intro cpu
  apply (Neutral.read _).andThen
  intro usage
  split
  · exact transferPushBatch_safe cpu hb
  · apply Safe.bind
    refine (rseqPush_safe cpu hb k).mono ?_
    rintro done r' (⟨rfl, rfl⟩ | ⟨rfl, hb'⟩)
    · exact rfl
    · exact hagain cpu r' hb'

/-- `push_tailed`. -/
theorem pushTailed_safe (hb : IsBatch cfg c start tail n r) (k : Nat) :
    Safe (Inv cfg) (pushTailed cfg c start tail k) (fun _ r' => r' = 0) r :=
  pushOnce_safe hb (fun cpu _ hb' => transferPushBatch_safe cpu hb') k

/-- `push`. -/
theorem push_safe {h : Nat} (hb : IsFree cfg c h r) :
    Safe (Inv cfg) (push cfg c h) (fun _ r' => r' = 0) r := by
  have hloop : ∀ n r, IsBatch cfg c h h 1 r →
      Safe (Inv cfg) (pushLoop cfg c h n) (fun _ r' => r' = 0) r := by
    intro n
    induction n with
    | zero =>
        intro r hb
        exact pushOnce_safe hb
          (fun cpu _ hb' => transferPushBatch_safe cpu hb') 1
    | succ n ih =>
        intro r hb
        exact pushOnce_safe hb (fun _ r' hb' => ih r' hb') 1
  exact hloop 4 r hb.batch

/-- `pop`. -/
theorem pop_safe (fuel class_ : Nat) :
    Safe (Inv cfg) (pop cfg fuel class_)
      (fun h r => Popped cfg class_ h r) 0 := by
  unfold pop
  generalize 0 = loopCount
  induction fuel generalizing loopCount with
  | zero => exact trivial
  | succ fuel ih =>
      unfold popLoop
      apply cpuId_neutral.andThen
      intro cpu
      apply Safe.bind
      refine (rseqPop_safe cpu class_).mono ?_
      rintro (_ | h) r hpop
      · cases hpop
        dsimp only
        split
        · apply Safe.bind
          refine (transferPopSingle_safe class_ cpu).mono ?_
          intro mail r hmail
          split
          · exact hmail
          · next hz =>
            rcases hmail with ⟨-, rfl⟩ | ⟨hne, -⟩
            · exact ih 1
            · exact absurd hne hz
        · exact ih _
      · exact hpop

end PushPop

-- ================================================================= spans

/-- What looking for a span returns: null, or one of the class. -/
def GotSpan (cfg : Config) (c a : Nat) (r : Multiset Part) : Prop :=
  a = 0 ∧ r = 0 ∨ a ≠ 0 ∧ IsSpan cfg c a r

/-- What a refill returns: nothing, or a run of new blocks. -/
def Refilled (cfg : Config) (c maxInit : Nat)
    (o : Option (Nat × Nat × Nat)) (r : Multiset Part) : Prop :=
  match o with
  | none => r = 0
  | some (head, tail, count) =>
      head ≠ 0 ∧ IsRun cfg c maxInit head tail count r

section Spans

variable {r : Multiset Part} {c a maxInit : Nat} {D : Fate}

/-- `PENDING_QUEUE.insert`; without a slot for its node the span is left
where it is. -/
theorem queueInsert_safe (hr : IsSpan cfg c a r)
    (hlost : ∀ q, SpanOk cfg c q → queueSlot cfg (spanNode q) c = none →
      D c q) :
    Safe (InvOn cfg D) (queueInsert cfg c a) (fun _ r' => r' = 0) r := by
  obtain ⟨q, rfl, rfl, hok, -⟩ := hr
  unfold queueInsert
  apply Safe.bind
  apply Safe.atomic
  intro _ s g h
  obtain ⟨H, hsp⟩ := h.space
  have hnode : MetaData.nodeId s.ground.mem (spanAddr q) = spanNode q :=
    hok.read_node hsp (by simp)
  dsimp only
  rw [hnode]
  split
  · next hk =>
    refine ⟨0, ?_, rfl⟩
    rw [zero_add]
    exact h.retire hok (hlost q hok hk)
  · next k hk =>
    obtain ⟨n, rfl⟩ := queueSlot_eq hk
    refine ⟨_, h, Safe.modify fun s' g' h' => ⟨0, ?_, rfl⟩⟩
    rw [zero_add]
    exact enqueue_inv hok hk h'

/-- `PENDING_QUEUE.pop`. -/
theorem queuePop_safe (node class_ : Nat) :
    Safe (InvOn cfg D) (queuePop cfg node class_)
      (fun a r => GotSpan cfg class_ a r) 0 := by
  unfold queuePop
  split
  · exact Or.inl ⟨rfl, rfl⟩
  · next k hk =>
    obtain ⟨n, rfl⟩ := queueSlot_eq hk
    apply Safe.atomic
    intro _ s g h
    dsimp only
    split
    · exact ⟨0, h, Or.inl ⟨rfl, rfl⟩⟩
    · next hne =>
      rw [zero_add] at h
      obtain ⟨r, hinv, hspan⟩ := dequeue_inv h hne
      exact ⟨r, hinv, Or.inr ⟨hne, hspan⟩⟩

/-- `PAGE_ALLOCATOR.alloc` for a span. -/
theorem pageAlloc_safe (fuel node : Nat) (hc : c < numSizeClasses) :
    Safe (InvOn cfg D) (pageAlloc cfg fuel node c (spanTotal c))
      (fun o r => match o with
        | none => r = 0
        | some a => a % pageSize = 0 ∧ ∃ data,
            r = {⟨.fresh ⟨a, c⟩, a, pageUp (spanTotal c), data⟩}) 0 := by
  apply Safe.atomic
  intro env s g h
  rw [zero_add] at h
  obtain ⟨r, hinv, hout⟩ := pageAlloc_inv env fuel node (spanTotal c) h rfl
  generalize Pages.alloc cfg env fuel node (spanTotal c) s.ground s.pages
    = out at hinv hout
  obtain ⟨ptr, ground, pages⟩ := out
  rcases hout with ⟨hnone, rfl⟩ | ⟨ptr', m, data, hsome, halign, rfl⟩
  · cases hnone
    exact ⟨0, hinv, rfl⟩
  · cases hsome
    have hgrant := grant_inv (c := c) rfl hinv
    dsimp only at hgrant
    rw [alignTo_spanTotal hc] at hgrant ⊢
    exact ⟨_, hgrant, halign, data, rfl⟩

/-- `alloc_metadata`. -/
theorem allocMetadata_safe (fuel cpu : Nat) (hc : c < numSizeClasses) :
    Safe (InvOn cfg D) (allocMetadata cfg fuel c cpu)
      (fun o r => match o with
        | none => r = 0
        | some a => IsSpan cfg c a r) 0 := by
  unfold allocMetadata
  apply Safe.bind
  refine (queuePop_safe _ c).mono ?_
  rintro pending r hgot
  split
  · next hne =>
    rcases hgot with ⟨hz, -⟩ | ⟨-, hspan⟩
    · exact absurd hz hne
    · exact hspan
  · next hz =>
    rcases hgot with ⟨-, rfl⟩ | ⟨hne, -⟩
    case inr => exact absurd hne hz
    apply Safe.bind
    refine (pageAlloc_safe fuel _ hc).mono ?_
    rintro (_ | ptr) r hpages
    · exact hpages
    · obtain ⟨halign, data, rfl⟩ := hpages
      apply Safe.bind
      refine Safe.modify fun s' g' h' => ⟨_, register_inv rfl halign rfl h', ?_⟩
      apply Safe.bind
      refine Safe.modify fun s'' g'' h'' => ?_
      obtain ⟨r', hinv', hspan⟩ := newSpan_inv hc rfl halign rfl h''
      exact ⟨r', hinv', hspan⟩

/-- `init_blocks` and the count of what remains. -/
theorem carve_safe (stamp : Nat) (hD : ∀ q, UsedUp c q → D c q)
    (hr : IsSpan cfg c a r) (hmax : 0 < maxInit) :
    Safe (InvOn cfg D) (carve cfg c a maxInit stamp)
      (fun out r' => Carved cfg c a maxInit out.1 out.2 r') r := by
  apply Safe.atomic
  intro _ s g h
  exact carve_inv stamp hD hr hmax h rfl

/-- The end of both halves of `bulk_fill`: keep the span if blocks
remain. -/
theorem keepSpan_safe {head tail count remaining tid : Nat}
    (hr : Carved cfg c a maxInit (head, tail, count) remaining r)
    (hcount : count ≠ 0) :
    Safe (Inv cfg)
      ((Prog.when (remaining > 0)
        (Prog.modify (State.setSlot (.bulk tid c) a)) : SlabM Unit).bind
        fun _ => .ret (some (head, tail, count)))
      (fun o r => Refilled cfg c maxInit o r) r := by
  apply Safe.bind
  cases hr with
  | none => exact absurd rfl hcount
  | all hne hb =>
      exact Safe.when (fun hpos => absurd hpos (by omega))
        fun _ => ⟨hne, hb⟩
  | @some _ _ _ _ b r' hne hb hpos hspan =>
      refine Safe.when (fun _ => ?_) fun hz => absurd hpos hz
      refine Safe.modify fun s g h => ⟨b, ?_, hne, hb⟩
      rw [add_right_comm, add_comm (b + g)] at h
      exact putSlot_inv hspan (Or.inr fun _ => trivial) h

/-- The second half of `bulk_fill`. -/
theorem bulkFillFresh_safe (fuel tid cpu stamp : Nat) (hc : c < numSizeClasses)
    (hmax : 0 < maxInit) :
    Safe (Inv cfg) (bulkFillFresh cfg fuel tid c cpu maxInit stamp)
      (fun o r => Refilled cfg c maxInit o r) 0 := by
  unfold bulkFillFresh
  apply Safe.bind
  refine (allocMetadata_safe fuel cpu hc).mono ?_
  rintro (_ | a) r hgot
  · exact hgot
  · apply Safe.bind
    refine (carve_safe stamp (fun _ _ => trivial) hgot hmax).mono ?_
    rintro ⟨⟨head, tail, count⟩, remaining⟩ r' hr'
    dsimp only
    split
    · next hz => exact hr'.eq_zero hz
    · next hz => exact keepSpan_safe hr' hz

/-- `bulk_fill`. -/
theorem bulkFill_safe (fuel tid cpu : Nat) (hc : c < numSizeClasses)
    (hmax : 0 < maxInit) :
    Safe (Inv cfg) (bulkFill cfg fuel tid c cpu maxInit)
      (fun o r => Refilled cfg c maxInit o r) 0 := by
  unfold bulkFill
  apply (Neutral.read _).andThen
  intro stamp
  apply Safe.bind
  apply Safe.atomic
  intro env s g h
  rw [zero_add] at h
  obtain ⟨r, hinv, hgot⟩ := takeSlot_inv tid c h
  refine ⟨r, hinv.same rfl rfl rfl rfl, ?_⟩
  dsimp only
  rcases hgot with ⟨hz, rfl⟩ | ⟨hne, hspan⟩
  · rw [if_pos hz]
    exact bulkFillFresh_safe fuel tid cpu stamp hc hmax
  · rw [if_neg hne]
    apply Safe.bind
    refine (carve_safe stamp (fun _ _ => trivial) hspan hmax).mono ?_
    rintro ⟨⟨head, tail, count⟩, remaining⟩ r' hr'
    dsimp only
    split
    · next hpos => exact keepSpan_safe hr' (by omega)
    · next hz =>
      rw [hr'.eq_zero (by omega)]
      exact bulkFillFresh_safe fuel tid cpu stamp hc hmax

/-- `cleanup_thread_bulk`. -/
theorem cleanupThreadBulk_safe (tid : Nat) :
    Safe (Inv cfg) (cleanupThreadBulk cfg tid) (fun _ r' => r' = 0) 0 := by
  unfold cleanupThreadBulk
  generalize numSizeClasses = n
  generalize 0 = class_
  induction n generalizing class_ with
  | zero => exact rfl
  | succ n ih =>
      unfold drainPending
      apply Safe.bind
      apply Safe.atomic
      intro _ s g h
      rw [zero_add] at h
      obtain ⟨r, hinv, hgot⟩ := takeSlot_inv tid class_ h
      refine ⟨r, hinv, ?_⟩
      apply Safe.bind
      rcases hgot with ⟨hz, rfl⟩ | ⟨hne, hspan⟩
      · exact Safe.when (fun hne => absurd hz hne) fun _ => ih _
      · refine Safe.when (fun _ => ?_) fun hz => absurd hne hz
        refine (queueInsert_safe hspan fun _ _ _ => trivial).mono ?_
        rintro _ _ rfl
        exact ih _

end Spans

-- ============================================================ allocation

section Allocation

variable {r : Multiset Part} {c h start tail count : Nat}

/-- The owner of a block edits its header and leaves its mark alone. -/
theorem editHeader_safe {v : Nat} {f : Ground → Ground} (hf : Edit h h 16 f)
    (hmagic : ∀ g, Header.magic (f g).mem h = Header.magic g.mem h)
    (hb : IsMarked cfg c v h r) :
    Safe (Inv cfg) (Prog.modify (State.onGround f) : SlabM Unit)
      (fun _ r' => IsMarked cfg c v h r') r := by
  obtain ⟨q, -, -, hok⟩ := id hb
  have hblock := blockSize_eq hok.lt
  simp only [headerSize] at hblock
  exact Safe.modify fun _ _ hinv =>
    hf.inv_keeps le_rfl (by omega) hmagic hb hinv

/-- A block that has just been given to a caller. -/
def Handed (cfg : Config) (c h : Nat) (r : Multiset Part) : Prop :=
  ∃ q, r = {q} ∧ header q = h ∧ Marked cfg c cfg.magic q
    ∧ Header.flags q.data h = 2

/-- A batch of more than one is a block, linked to a smaller batch. -/
theorem IsBatch.uncons (h : IsBatch cfg c start tail count r)
    (hcount : 1 < count) :
    ∃ q r', r = {q} + r' ∧ header q = start ∧ FreeOk cfg c q
      ∧ IsBatch cfg c (link q) tail (count - 1) r' := by
  obtain ⟨l, q, t, rfl, hchain, htail, hc, hok⟩ := h
  cases l with
  | nil =>
      rw [List.length_nil] at hc
      omega
  | cons p l =>
      refine ⟨p, ((l ++ [q] : List Part) : Multiset Part), ?_, hchain.1,
        hok p (by simp), l, q, t, rfl, hchain.2, htail, ?_,
        fun x hx => hok x (List.mem_cons_of_mem _ hx)⟩
      · rw [singleton_add_coe, List.cons_append]
      · rw [List.length_cons] at hc
        omega

/-- The end of `take_one_from_batch`: the block is unlinked. -/
theorem unlink_safe {q : Part} (hne : header q ≠ 0) (hok : FreeOk cfg c q) :
    Safe (Inv cfg)
      ((Prog.modify (State.onGround (Header.setNext (header q) 0)) :
        SlabM Unit).bind fun _ => .ret (header q))
      (fun h r => Popped cfg c h r) {q} := by
  apply Safe.bind
  refine Safe.modify fun s g hinv => ?_
  obtain ⟨r, hinv', q', rfl, haddr, -, hok'⟩ :=
    relink_inv (v := 0) hok (by omega) (Or.inl rfl) hinv
  exact ⟨{q'}, hinv', Or.inr ⟨hne, q', rfl, haddr, hok'⟩⟩

/-- The start of a batch is not null. -/
theorem IsBatch.start_ne (h : IsBatch cfg c start tail count r) :
    start ≠ 0 := by
  obtain ⟨l, q, t, rfl, hchain, -, -, hok⟩ := h
  cases l with
  | nil =>
      rw [← hchain.1]
      exact (hok q (by simp)).ne
  | cons p l =>
      rw [← hchain.1]
      exact (hok p (by simp)).ne

/-- The rest of a batch goes to the cache. -/
theorem spill_safe {q : Part} (hok : FreeOk cfg c q)
    (hrest : IsBatch cfg c (link q) tail count r) :
    Safe (Inv cfg)
      ((Prog.read fun s => Header.next s.ground.mem (header q) :
        SlabM Nat).bind fun rest =>
          Prog.when (rest ≠ 0) (pushTailed cfg c rest tail count))
      (fun _ r' => r' = {q}) ({q} + r) := by
  apply Safe.read_known (v := link q)
  · intro s g hinv
    obtain ⟨H, hsp⟩ := hinv.space
    exact hok.next_eq hsp (by simp)
  · refine Safe.when (fun _ => ?_) fun hz => absurd hrest.start_ne hz
    rw [add_comm]
    refine ((pushTailed_safe hrest count).frame {q}).mono ?_
    rintro _ _ ⟨_, rfl, rfl⟩
    exact zero_add _

/-- `take_one_from_batch`: the first block stays, the others go to the
cache. -/
theorem takeOneFromBatch_safe (hne : start ≠ 0)
    (hb : IsBatch cfg c start tail count r) :
    Safe (Inv cfg) (takeOneFromBatch cfg c start tail count)
      (fun h r => Popped cfg c h r) r := by
  unfold takeOneFromBatch
  apply Safe.bind
  apply Safe.when
  · intro hcount
    obtain ⟨q, r', rfl, rfl, hok, hrest⟩ := hb.uncons hcount
    refine (spill_safe hok hrest).mono ?_
    rintro _ _ rfl
    exact unlink_safe hne hok
  · intro hcount
    have hone : count = 1 := by
      have := hb.count_pos
      omega
    subst hone
    obtain ⟨q, rfl, rfl, hok⟩ := hb.single
    exact unlink_safe hne hok

/-- `refill`. -/
theorem refill_safe (fuel tid cpu n : Nat) (hc : c < numSizeClasses) :
    Safe (Inv cfg) (refill cfg fuel tid c cpu n)
      (fun h r => Popped cfg c h r) 0 := by
  induction n with
  | zero =>
      unfold refill
      apply Safe.bind
      refine (tryPop_safe c 1 cpu).mono ?_
      rintro (_ | b) r hgot
      · exact Or.inl ⟨rfl, hgot⟩
      · exact hgot.popped
  | succ n ih =>
      unfold refill
      apply Safe.bind
      refine (predictBatch_safe .bulkFill tid c 0).mono ?_
      rintro bulkBatch _ ⟨hpos, rfl⟩
      apply Safe.bind
      refine (bulkFill_safe fuel tid cpu hc hpos).mono ?_
      rintro (_ | ⟨start, tail, count⟩) r hgot
      · cases hgot
        exact ih
      · obtain ⟨hne, hb⟩ := hgot
        apply (observe_neutral _ _ _ _ _).andThen
        intro _
        exact takeOneFromBatch_safe hne hb.batch

/-- `fill`. -/
theorem fill_safe (fuel tid : Nat) (hc : c < numSizeClasses) :
    Safe (Inv cfg) (fill cfg fuel tid c) (fun h r => Popped cfg c h r) 0 := by
  unfold fill
  apply Safe.bind
  refine (predictBatch_safe .transfer tid c 0).mono ?_
  rintro cacheBatch _ ⟨-, rfl⟩
  apply cpuId_neutral.andThen
  intro cpu
  apply Safe.bind
  refine (tryPop_safe c cacheBatch cpu).mono ?_
  rintro (_ | b) r hgot
  · cases hgot
    exact refill_safe fuel tid cpu _ hc
  · obtain ⟨hne, -, hb⟩ := hgot
    apply (observe_neutral _ _ _ _ _).andThen
    intro _
    exact takeOneFromBatch_safe hne hb

/-- The slab branch of `rs_alloc`: null, or the payload of a block that
is now the caller's and marked so. -/
theorem allocSmall_safe (fuel tid : Nat) (hc : c < numSizeClasses) :
    Safe (Inv cfg) (allocSmall cfg fuel tid c)
      (fun a r => a = 0 ∧ r = 0
        ∨ ∃ h, a = h + headerSize ∧ Handed cfg c h r) 0 := by
  unfold allocSmall
  apply Safe.bind
  refine (pop_safe fuel c).mono ?_
  intro popped r hpop
  apply Safe.bind
  have hgot : Safe (Inv cfg)
      (if popped = 0 then fill cfg fuel tid c else pure popped : SlabM Nat)
      (fun h r => Popped cfg c h r) r := by
    split
    · next hz =>
      rcases hpop with ⟨-, rfl⟩ | ⟨hne, -⟩
      · exact fill_safe fuel tid hc
      · exact absurd hz hne
    · exact hpop
  refine hgot.mono ?_
  intro header r hpop
  rcases hpop with ⟨rfl, rfl⟩ | ⟨hne, hb⟩
  · exact Or.inl ⟨rfl, rfl⟩
  · rw [if_neg hne]
    obtain ⟨q₀, -, -, hok₀⟩ := id hb
    have hblock := blockSize_eq hok₀.lt
    simp only [headerSize] at hblock
    apply Safe.bind
    refine Safe.modify fun s g hinv => ?_
    obtain ⟨r', hinv', q, hr, hq, hok, hdata⟩ :=
      (Edit.setMagic.comp Edit.setFlags).inv le_rfl (by omega) hb.block hinv
    refine ⟨r', hinv', Or.inr ⟨header, rfl, q, hr, hq, ⟨hok, ?_⟩, ?_⟩⟩
    · rw [hdata, hq, Header.magic_setFlags, Header.magic_setMagic]
    · rw [hdata, Header.flags_setFlags (by omega)]

/-- The slab branch of `rs_free` gives the block to a list. -/
theorem freeSmall_safe (hb : IsBlock cfg c h r) :
    Safe (Inv cfg) (freeSmall cfg (h + headerSize))
      (fun _ r' => r' = 0) r := by
  unfold freeSmall
  rw [Nat.add_sub_cancel]
  apply (Neutral.read _).andThen
  intro stamp
  obtain ⟨q₀, -, -, hok₀⟩ := id hb
  have hblock := blockSize_eq hok₀.lt
  simp only [headerSize] at hblock
  have hmark : Safe (Inv cfg) (Prog.modify (State.onGround fun g =>
      Header.setMagic h cfg.freedMagic (Header.setLifeTime h stamp g)) :
        SlabM Unit)
      (fun _ r' => IsFree cfg c h r') r :=
    Safe.modify fun _ _ hinv => (Edit.setLifeTime.comp Edit.setMagic).inv_marks
      le_rfl (by omega) (fun _ => Header.magic_setMagic) hb hinv
  apply Safe.bind
  refine hmark.mono fun _ r' hb' => ?_
  apply Safe.read_known (v := c)
  · intro s g hinv
    obtain ⟨q, rfl, rfl, hok⟩ := hb'
    obtain ⟨H, hsp⟩ := hinv.space
    exact hok.cls_eq hsp (by simp)
  · exact push_safe hb'

end Allocation

-- ============================================================== trimming

section Trimming

variable {r : Multiset Part} {c h : Nat} {l : List Part} {q : Part} {w : Sorted}

/-- The owner of a block and of a list puts the block in front. -/
theorem linkTo_safe (hok : FreeOk cfg c q) (hl : ListOf cfg c h l) :
    Safe (Inv cfg)
      (Prog.modify (State.onGround (Header.setNext (header q) h)) :
        SlabM Unit)
      (fun _ r => ∃ q', r = ((q' :: l : List Part) : Multiset Part)
        ∧ header q' = header q ∧ ListOf cfg c (header q) (q' :: l))
      ({q} + (l : Multiset Part)) := by
  apply Safe.modify
  intro s g hinv
  obtain ⟨H, hsp⟩ := hinv.space
  obtain ⟨hlt, hres⟩ := hl.head_bounds hsp fun p hp => by simp [hp]
  rw [add_assoc] at hinv
  obtain ⟨r, hinv', q', rfl, haddr, hlink, hok'⟩ :=
    relink_inv hok hlt hres hinv
  refine ⟨((q' :: l : List Part) : Multiset Part), ?_, q', rfl, haddr,
    ⟨haddr, ?_⟩, fun p hp => ?_⟩
  · rw [← singleton_add_coe, add_assoc]
    exact hinv'
  · rw [hlink]
    exact hl.1
  · rcases List.mem_cons.1 hp with rfl | hp
    · exact hok'
    · exact hl.2 p hp

/-- The two lists that the first loop of `trim_small` builds. -/
def Sorting (cfg : Config) (c : Nat) (w : Sorted) (r : Multiset Part) :
    Prop :=
  ∃ lt lp : List Part, r = (lp : Multiset Part) + lt
    ∧ ListOf cfg c w.trimList lt ∧ ListOf cfg c w.pushList lp
    ∧ lp.length = w.totalPush ∧ EndsAt lp w.pushListStart

/-- What the first loop of `trim_small` has set aside for the transfer
list is a batch. -/
theorem Sorting.batch (hw : Sorting cfg c w r) (hpos : 0 < w.totalPush) :
    ∃ b lt, r = b + ((lt : List Part) : Multiset Part)
      ∧ ListOf cfg c w.trimList lt
      ∧ IsBatch cfg c w.pushList w.pushListStart w.totalPush b := by
  obtain ⟨lt, lp, rfl, ht, hp, hlen, hend⟩ := hw
  have hne : lp ≠ [] := by
    intro hnil
    rw [hnil, List.length_nil] at hlen
    omega
  refine ⟨lp, lt, rfl, ht, ?_⟩
  rw [← hlen]
  exact hp.batch hne hend

theorem Sorting.trim (hw : Sorting cfg c w r) (hzero : w.totalPush = 0) :
    ∃ lt : List Part, r = lt ∧ ListOf cfg c w.trimList lt := by
  obtain ⟨lt, lp, rfl, ht, hp, hlen, hend⟩ := hw
  have hnil : lp = [] := List.length_eq_zero_iff.1 (hlen.trans hzero)
  refine ⟨lt, ?_, ht⟩
  rw [hnil, Multiset.coe_nil, zero_add]

/-- A block goes to the front of the list of blocks to give back. -/
theorem Sorting.toTrim (hok : FreeOk cfg c q) (hw : Sorting cfg c w r) :
    Safe (Inv cfg)
      (Prog.modify (State.onGround (Header.setNext (header q) w.trimList)) :
        SlabM Unit)
      (fun _ r' => Sorting cfg c { w with trimList := header q } r')
      ({q} + r) := by
  obtain ⟨lt, lp, rfl, ht, hp, hlen, hend⟩ := hw
  rw [add_left_comm, add_comm]
  refine ((linkTo_safe hok ht).frame lp).mono ?_
  rintro _ _ ⟨_, rfl, q', rfl, -, hl⟩
  exact ⟨q' :: lt, lp, add_comm _ _, hl, hp, hlen, hend⟩

/-- A block goes to the front of the list of blocks to push. -/
theorem Sorting.toPush (hok : FreeOk cfg c q) (hw : Sorting cfg c w r) :
    Safe (Inv cfg)
      (Prog.modify (State.onGround (Header.setNext (header q) w.pushList)) :
        SlabM Unit)
      (fun _ r' => Sorting cfg c
        { w with
          pushList := header q
          pushListStart :=
            if w.totalPush = 0 then header q else w.pushListStart
          totalPush := w.totalPush + 1 } r')
      ({q} + r) := by
  obtain ⟨lt, lp, rfl, ht, hp, hlen, hend⟩ := hw
  rw [← add_assoc]
  refine ((linkTo_safe hok hp).frame lt).mono ?_
  rintro _ _ ⟨_, rfl, q', rfl, haddr, hl⟩
  refine ⟨lt, q' :: lp, rfl, ht, hl, ?_, ?_⟩
  · rw [List.length_cons, hlen]
  · cases lp with
    | nil =>
        rw [List.length_nil] at hlen
        dsimp only
        rw [if_pos hlen.symm, ← haddr]
        exact EndsAt.single
    | cons p lp =>
        rw [List.length_cons] at hlen
        dsimp only
        rw [if_neg (by omega)]
        exact hend.cons (List.cons_ne_nil p lp)

/-- The first loop of `trim_small`. -/
theorem sortList_safe (cpu stamp age fuel : Nat) {next : Nat}
    (hl : ListOf cfg c next l) (hw : Sorting cfg c w r) :
    Safe (Inv cfg) (sortList cfg c cpu stamp age fuel next w)
      (fun w' r' => Sorting cfg c w' r') (r + (l : Multiset Part)) := by
  induction fuel generalizing next l w r with
  | zero => trivial
  | succ fuel ih =>
      unfold sortList
      cases l with
      | nil =>
          have hz : next = 0 := hl.1
          rw [if_pos hz, Multiset.coe_nil, add_zero]
          exact hw
      | cons q l =>
          have hok := hl.2 q (List.mem_cons_self ..)
          obtain ⟨hq, hrest⟩ := hl.1
          have hl' : ListOf cfg c (link q) l :=
            ⟨hrest, fun p hp => hl.2 p (List.mem_cons_of_mem _ hp)⟩
          rw [if_neg (hl.head_ne (List.cons_ne_nil q l)), ← hq]
          refine Safe.bind (Safe.read fun s g hinv => ?_)
          obtain ⟨H, hsp⟩ := hinv.space
          rw [hok.next_eq hsp (by simp)]
          rw [← singleton_add_coe, ← add_assoc, add_comm r]
          dsimp only
          split
          · exact Safe.seq (hw.toTrim hok) fun _ r' hw' => ih hl' hw'
          · refine Safe.seq (hw.toPush hok) fun _ r' hw' => ?_
            split
            · next hfull =>
              obtain ⟨b, lt, rfl, ht, hb⟩ := hw'.batch (by simp only; omega)
              rw [add_assoc]
              refine Safe.seq (transferPushBatch_safe cpu hb) ?_
              rintro _ _ rfl
              rw [zero_add]
              exact ih hl' ⟨lt, [], (zero_add _).symm, ht,
                ⟨rfl, nofun⟩, rfl,
                fun l₁ p h => absurd h (by simp)⟩
            · exact ih hl' hw'

/-- `release_memory` on a block that the caller owns. -/
theorem releaseMemory_safe (hb : IsFree cfg c h r) :
    Safe (Inv cfg) (releaseMemory h (sizeClass c))
      (fun _ r' => IsFree cfg c h r') r := by
  have hlt : c < numSizeClasses := by
    obtain ⟨q, -, -, hok⟩ := hb
    exact hok.lt
  have hblock := blockSize_eq hlt
  unfold releaseMemory
  dsimp only
  split
  · exact hb
  · next hlt =>
    apply Safe.atomic
    intro env s g hinv
    split
    · simp only [headerSize, pageSize] at hlt hblock ⊢
      exact (Edit.discard env.keep (by omega)).inv_keeps (by omega) (by omega)
        (fun g => (Ground.only_discard _ _ _ g).load (Or.inl (by omega))) hb
        (hinv.same rfl rfl rfl rfl)
    · exact ⟨r, hinv.same rfl rfl rfl rfl, hb⟩

/-- The second loop of `trim_small`. -/
theorem releaseList_safe (cpu stamp requested fuel : Nat) {next total : Nat}
    (hl : ListOf cfg c next l) :
    Safe (Inv cfg)
      (releaseList cfg c cpu stamp requested fuel next total)
      (fun _ r' => r' = 0) (l : Multiset Part) := by
  induction fuel generalizing next l total with
  | zero => trivial
  | succ fuel ih =>
      unfold releaseList
      cases l with
      | nil =>
          have hz : next = 0 := hl.1
          rw [if_pos hz]
          exact rfl
      | cons q l =>
          have hok := hl.2 q (List.mem_cons_self ..)
          obtain ⟨hq, hrest⟩ := hl.1
          have hl' : ListOf cfg c (link q) l :=
            ⟨hrest, fun p hp => hl.2 p (List.mem_cons_of_mem _ hp)⟩
          rw [if_neg (hl.head_ne (List.cons_ne_nil q l)), ← hq]
          apply Safe.read_known (v := link q)
          · intro s g hinv
            obtain ⟨H, hsp⟩ := hinv.space
            exact hok.next_eq hsp (by simp)
          · rw [← singleton_add_coe]
            have hb : IsFree cfg c (header q) {q} := ⟨q, rfl, rfl, hok⟩
            have htrim : Safe (Inv cfg)
                (if requested = 0 ∨ total < requested then
                  releaseMemory (header q) (sizeClass c)
                else pure false : SlabM Bool)
                (fun _ r' => IsFree cfg c (header q) r') {q} := by
              split
              · exact releaseMemory_safe hb
              · exact hb
            refine Safe.seq htrim fun didTrim r₁ hb₁ => ?_
            have hflag : Safe (Inv cfg)
                (Prog.when (didTrim = true) (Prog.modify (State.onGround
                  (Header.setFlags (header q) 3))) : SlabM Unit)
                (fun _ r' => IsFree cfg c (header q) r') r₁ :=
              Safe.when (fun _ => editHeader_safe Edit.setFlags
                (fun _ => Header.magic_setFlags) hb₁) fun _ => hb₁
            refine Safe.seq hflag fun _ r₂ hb₂ => ?_
            refine Safe.seq (editHeader_safe Edit.setLifeTime
              (fun _ => Header.magic_setLifeTime) hb₂) fun _ r₃ hb₃ => ?_
            have hpush : Safe (Inv cfg)
                (if didTrim then
                  transferPushSingleTrimmed cfg c (header q) cpu
                else transferPushSingle cfg c (header q) cpu)
                (fun _ r' => r' = 0) r₃ := by
              split
              · exact transferPush_safe (k := .trimmed cpu c) c cpu hb₃.batch
              · exact transferPush_safe (k := .mail cpu c) c cpu hb₃.batch
            refine Safe.seq hpush ?_
            rintro _ _ rfl
            rw [zero_add]
            exact ih hl'

/-- One CPU and class of `trim_small`. -/
theorem trimShard_safe (fuel cpu class_ requested total : Nat) :
    Safe (Inv cfg) (trimShard cfg fuel cpu class_ requested total)
      (fun _ r' => r' = 0) 0 := by
  unfold trimShard
  apply Safe.bind
  apply Safe.atomic
  intro _ s g hinv
  rw [zero_add] at hinv
  obtain ⟨r, hinv', l, rfl, hl⟩ := detach_inv (.mail cpu class_) hinv
  refine ⟨l, hinv', ?_⟩
  generalize (detach (.mail cpu class_) s).1 = output at hl ⊢
  split
  · next hz =>
    cases l with
    | nil => exact rfl
    | cons q l => exact absurd hz (hl.head_ne (List.cons_ne_nil q l))
  · apply (Neutral.read _).andThen
    intro stamp
    have hscan : Neutral (Inv cfg) (Prog.atomic fun env s =>
        (env.age, s.scanned cpu class_ env.age) : SlabM Nat) :=
      Neutral.atomic fun _ _ _ h => h.same rfl rfl rfl rfl
    apply hscan.andThen
    intro age
    have hstart : Sorting cfg class_ ⟨0, 0, 0, 0⟩ 0 :=
      ⟨[], [], rfl, ⟨rfl, nofun⟩,
        ⟨rfl, nofun⟩, rfl,
        fun l₁ p h => absurd h (by simp)⟩
    apply Safe.bind
    have hsort := sortList_safe cpu stamp age fuel hl hstart
    rw [zero_add] at hsort
    refine hsort.mono fun w r hw => ?_
    rcases Nat.eq_zero_or_pos w.totalPush with hz | hpos
    · obtain ⟨lt, rfl, ht⟩ := hw.trim hz
      apply Safe.bind
      refine Safe.when (fun hpos => absurd hpos (by omega)) fun _ => ?_
      exact releaseList_safe cpu stamp requested fuel ht
    · obtain ⟨b, lt, rfl, ht, hb⟩ := hw.batch hpos
      refine Safe.seq (Safe.when (fun _ => transferPushBatch_safe cpu hb)
        fun hz => absurd hpos hz) ?_
      rintro _ _ rfl
      rw [zero_add]
      exact releaseList_safe cpu stamp requested fuel ht

theorem trimClasses_safe (fuel cpu requested n class_ total : Nat) :
    Safe (Inv cfg) (trimClasses cfg fuel cpu requested n class_ total)
      (fun _ r' => r' = 0) 0 := by
  induction n generalizing class_ total with
  | zero => exact rfl
  | succ n ih =>
      unfold trimClasses
      apply Safe.bind
      refine (trimShard_safe fuel cpu class_ requested total).mono ?_
      rintro total' _ rfl
      exact ih _ _

theorem trimCpus_safe (fuel requested n cpu total : Nat) :
    Safe (Inv cfg) (trimCpus cfg fuel requested n cpu total)
      (fun _ r' => r' = 0) 0 := by
  induction n generalizing cpu total with
  | zero => exact rfl
  | succ n ih =>
      unfold trimCpus
      apply Safe.bind
      refine (trimClasses_safe fuel cpu requested _ _ total).mono ?_
      rintro total' _ rfl
      exact ih _ _

/-- `trim_small`. -/
theorem trimSmall_safe (fuel requested : Nat) :
    Safe (Inv cfg) (trimSmall cfg fuel requested) (fun _ r' => r' = 0) 0 := by
  unfold trimSmall
  apply Safe.bind
  apply Safe.atomic
  intro _ s g hinv
  split
  · exact ⟨0, hinv, rfl⟩
  · refine ⟨0, hinv.same rfl rfl rfl rfl, ?_⟩
    apply Safe.bind
    refine (trimCpus_safe fuel requested _ _ _).mono ?_
    rintro total _ rfl
    apply Safe.bind
    refine Safe.modify fun s g hinv => ⟨0, hinv.same rfl rfl rfl rfl, rfl⟩

end Trimming

end RsMalloc.Slab
