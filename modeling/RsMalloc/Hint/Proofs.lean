/-
The nonempty hint never hides a normal transfer list.

# The argument

Whoever makes the normal list non-empty, and whoever clears the bit, is
in debt until it has set the bit, seen it set, or seen the list empty.
The invariant `Hinted s r` says that a shard whose list is non-empty
and whose bit is clear has a debtor in `r`. Setting the bit and seeing
it set pay every debt of the shard at once, so there may be any number
of debtors: `r` is a multiset whose members belong to the threads.

A thread that is in debt may keep the debt as long as it likes, and one
that is not may take one on; `Hinted` is monotone in `r`. What has to
be shown is that each debt is paid before its thread returns.

# Layout

- the bits: no two shards share one (`hintIndex_inj`);
- `Hinted` and what each atomic access does to it;
- one lemma per function of the source, then the pool.
-/
import RsMalloc.Hint.Model

namespace RsMalloc.Hint

open Conc
open Transfer (Ptr pack unpackPtr)

variable {ncpu : Nat}

-- ============================================================== the bits

/-- The number of the shard's bit in the bitmap. -/
def hintIndex (sh : Shard ncpu) : Nat := hintWord sh * 64 + sh.cpu % 64

theorem hintIndex_div (sh : Shard ncpu) :
    hintIndex sh / 64 = hintWord sh := by
  unfold hintIndex
  omega

theorem hintIndex_mod (sh : Shard ncpu) :
    hintIndex sh % 64 = sh.cpu % 64 := by
  unfold hintIndex
  omega

/-- Every CPU has its word among the words of a class. -/
theorem cpu_div_lt (sh : Shard ncpu) : sh.cpu / 64 < bitmapWords ncpu := by
  have hcpu := sh.cpu.isLt
  unfold bitmapWords
  omega

theorem hintWord_div (sh : Shard ncpu) :
    hintWord sh / bitmapWords ncpu = sh.class_ := by
  have hlt := cpu_div_lt sh
  unfold hintWord
  rw [Nat.mul_comm, Nat.mul_add_div (by omega), Nat.div_eq_of_lt hlt,
    Nat.add_zero]

/-- No two shards share a bit. -/
theorem hintIndex_inj {sh sh' : Shard ncpu}
    (h : hintIndex sh = hintIndex sh') : sh = sh' := by
  have hword : hintWord sh = hintWord sh' := by
    rw [← hintIndex_div, h, hintIndex_div]
  have hbit : sh.cpu.val % 64 = sh'.cpu.val % 64 := by
    rw [← hintIndex_mod, h, hintIndex_mod]
  have hclass : sh.class_ = sh'.class_ := by
    apply Fin.ext
    rw [← hintWord_div, hword, hintWord_div]
  have hcpu : sh.cpu = sh'.cpu := by
    apply Fin.ext
    unfold hintWord at hword
    rw [hclass] at hword
    omega
  cases sh
  cases sh'
  cases hcpu
  cases hclass
  rfl

/-- The hint is a bit of the bitmap. -/
theorem hinted_eq (s : Shards ncpu) (sh : Shard ncpu) :
    s.hinted sh = s.nonemptyBitmap.get (hintIndex sh) := by
  unfold Shards.hinted Bitmap.get Slab.cpuBit
  rw [hintIndex_div, hintIndex_mod]

/-- The bit is set by the read-modify-write of `cpu_bit_set`. -/
theorem rmw_set_eq (m : Bitmap) (sh : Shard ncpu) :
    Function.update m (hintWord sh)
      (m (hintWord sh) ||| Slab.cpuBit sh.cpu) = m.set (hintIndex sh) := by
  unfold Bitmap.set Slab.cpuBit
  rw [hintIndex_div, hintIndex_mod]

/-- The bit is cleared by the read-modify-write of `cpu_bit_clear`. -/
theorem rmw_clear_eq (m : Bitmap) (sh : Shard ncpu) :
    Function.update m (hintWord sh)
      (m (hintWord sh) &&& ~~~Slab.cpuBit sh.cpu)
        = m.clear (hintIndex sh) := by
  unfold Bitmap.clear Slab.cpuBit
  rw [hintIndex_div, hintIndex_mod]

-- ======================================================== the invariant

/-- A shard with a list to hide has a debtor. -/
def Hinted (s : Shards ncpu) (r : Multiset (Shard ncpu)) : Prop :=
  ∀ sh, s.NonEmpty sh → s.hinted sh = false → sh ∈ r

variable {s s' : Shards ncpu} {r : Multiset (Shard ncpu)}
  {sh : Shard ncpu}

/-- Debts may be taken on. -/
theorem Hinted.more (h : Hinted s r) (d : Multiset (Shard ncpu)) :
    Hinted s (d + r) :=
  fun sh' hne hclear => Multiset.mem_add.2 (Or.inr (h sh' hne hclear))

/-- A debt is paid when the bit is set or the list is empty. -/
theorem Hinted.paid (h : Hinted s ({sh} + r))
    (hpaid : s.hinted sh = true ∨ ¬ s.NonEmpty sh) : Hinted s r := by
  intro sh' hne hclear
  cases Multiset.mem_add.1 (h sh' hne hclear) with
  | inl hmem =>
      rw [Multiset.mem_singleton.1 hmem] at hne hclear
      cases hpaid with
      | inl hset =>
          rw [hset] at hclear
          cases hclear
      | inr hempty => exact absurd hne hempty
  | inr hmem => exact hmem

/-- An access that leaves the normal lists and the bits alone. -/
theorem Hinted.same (h : Hinted s r)
    (hmail : ∀ sh', s'.mail sh' .list = s.mail sh' .list)
    (hbits : s'.nonemptyBitmap = s.nonemptyBitmap) : Hinted s' r := by
  intro sh' hne hclear
  unfold Shards.NonEmpty at hne
  unfold Shards.hinted at hclear
  rw [hmail] at hne
  rw [hbits] at hclear
  exact h sh' hne hclear

/-- A new word in one list, whose writer is in debt if the list was
empty before. -/
theorem Hinted.setMail (h : Hinted s r) (word : BitVec 64)
    (hdebt : ¬ s.NonEmpty sh → sh ∈ r) :
    Hinted (s.setMail sh .list word) r := by
  intro sh' hne hclear
  by_cases hsh : sh' = sh
  · subst hsh
    by_cases hold : s.NonEmpty sh'
    · exact h sh' hold hclear
    · exact hdebt hold
  · apply h sh' _ hclear
    unfold Shards.NonEmpty Shards.setMail at hne
    simp only [Function.update_of_ne hsh] at hne
    exact hne

-- ============================================================== accesses

/-- Write the header of a block. -/
theorem setHeader_neutral (b : Ptr) (f : HeaderFields → HeaderFields) :
    Neutral Hinted
      (Prog.modify (Shards.setHeader b f) : HintM ncpu Unit) :=
  Neutral.atomic fun _ _ _ h => h.same (fun _ => rfl) rfl

/-- An exchange of the trimmed word does not concern the hint. -/
theorem exchange_trimmed (sh : Shard ncpu) (old new : BitVec 64) :
    Neutral Hinted (compareExchange sh .trimmed old new) := by
  apply Neutral.atomic
  intro _ s r h
  split
  · refine h.same (fun sh' => ?_) rfl
    unfold Shards.setMail
    by_cases hsh : sh' = sh
    · subst hsh
      simp
    · simp [hsh]
  · exact h

/-- A pop or a detach exchanges a word that was not empty, so it makes
no list non-empty. -/
theorem exchange_nonEmpty (sh : Shard ncpu) (m : Mail)
    {old : BitVec 64} (new : BitVec 64) (hold : (unpackPtr old).1 ≠ 0) :
    Neutral Hinted (compareExchange sh m old new) := by
  cases m with
  | trimmed => exact exchange_trimmed sh old new
  | list =>
      apply Neutral.atomic
      intro _ s r h
      split
      · next hword =>
          refine h.setMail new fun hempty => absurd ?_ hempty
          unfold Shards.NonEmpty
          rw [hword]
          exact hold
      · exact h

/-- `mark_class_nonempty` pays a debt: by the bit it sees, or by the
bit it sets. -/
theorem markClassNonempty_pays (sh : Shard ncpu) :
    Safe Hinted (markClassNonempty sh) (fun _ r' => r' = 0) {sh} := by
  apply Safe.bind
  intro i s f h
  by_cases hset : s.hinted sh = true
  · refine ⟨0, ?_, ?_⟩
    · rw [zero_add]
      exact h.paid (Or.inl hset)
    · refine Safe.when (fun hzero => ?_) fun _ => rfl
      unfold Shards.hinted at hset
      rw [hzero] at hset
      cases hset
  · refine ⟨{sh}, h, ?_⟩
    refine Safe.when (fun _ => ?_) fun hne => ?_
    · apply Safe.modify
      intro s' g h'
      refine ⟨0, ?_, rfl⟩
      rw [zero_add, rmw_set_eq]
      intro sh' hne hclear
      rw [hinted_eq, Bitmap.get_set, Bool.or_eq_false_iff] at hclear
      have hother : sh' ≠ sh := by
        rintro rfl
        simp at hclear
      have hmem := h' sh' hne (by rw [hinted_eq]; exact hclear.2)
      cases Multiset.mem_add.1 hmem with
      | inl hmem => exact absurd (Multiset.mem_singleton.1 hmem) hother
      | inr hmem => exact hmem
    · exact absurd (bne_iff_ne.2 hne) hset

/-- Setting the bit never hurts. -/
theorem markClassNonempty_neutral (sh : Shard ncpu) :
    Neutral Hinted (markClassNonempty sh) := by
  apply Neutral.bind (Neutral.read _)
  intro word
  apply Neutral.when
  apply Neutral.atomic
  intro _ s r h sh' hne hclear
  simp only [rmw_set_eq] at hclear
  rw [hinted_eq, Bitmap.get_set, Bool.or_eq_false_iff] at hclear
  exact h sh' hne (by rw [hinted_eq]; exact hclear.2)

/-- `clear_class_hint` takes on a debt. -/
theorem clearClassHint_owes (sh : Shard ncpu) :
    Safe Hinted (clearClassHint sh) (fun _ r' => r' = {sh}) 0 := by
  apply Safe.bind
  intro i s f h
  refine ⟨{sh}, ?_, ?_⟩
  · rw [zero_add] at h
    exact h.more {sh}
  refine Safe.when (fun _ => ?_) fun _ => rfl
  apply Safe.modify
  intro s' g h'
  refine ⟨{sh}, ?_, rfl⟩
  rw [rmw_clear_eq]
  intro sh' hne hclear
  by_cases hsh : sh' = sh
  · rw [hsh]
    exact Multiset.mem_add.2 (Or.inl (Multiset.mem_singleton_self sh))
  · apply h' sh' hne
    rw [hinted_eq, Bitmap.get_clear] at hclear
    have hindex : hintIndex sh' ≠ hintIndex sh :=
      fun heq => hsh (hintIndex_inj heq)
    rw [hinted_eq]
    simpa [hindex] using hclear

/-- `clear_hint` pays the debt it takes on: the list it reads again is
empty, or it marks the shard. -/
theorem clearHint_neutral (sh : Shard ncpu) :
    Neutral Hinted (clearHint sh) := by
  intro r
  have hclear := (clearClassHint_owes sh).frame r
  rw [zero_add] at hclear
  apply Safe.bind
  refine hclear.mono fun _ r' hr => ?_
  obtain ⟨r₁, rfl, rfl⟩ := hr
  apply Safe.bind
  intro i s f h
  rw [add_assoc] at h
  by_cases hne : s.NonEmpty sh
  · refine ⟨{sh} + r, by rw [add_assoc]; exact h, ?_⟩
    refine Safe.when (fun _ => ?_) fun hempty => absurd hne hempty
    refine ((markClassNonempty_pays sh).frame r).mono fun _ r' hr => ?_
    obtain ⟨r₁, rfl, rfl⟩ := hr
    exact zero_add r
  · refine ⟨r, h.paid (Or.inr hne), ?_⟩
    exact Safe.when (fun hne' => absurd hne' hne) fun _ => rfl

-- ================================================================ pushes

/-- A push that fills an empty list marks the shard before it
returns. -/
theorem transferPush_neutral (sh : Shard ncpu) (m : Mail)
    (start tail : Ptr) (fuel : Nat) :
    Neutral Hinted (transferPush sh m start tail fuel) := by
  induction fuel with
  | zero => exact fun _ => Safe.halt
  | succ fuel ih =>
      apply Neutral.bind (Neutral.read _)
      intro old
      apply Neutral.bind (setHeader_neutral _ _)
      intro _
      cases m with
      | trimmed =>
          apply Neutral.bind (exchange_trimmed sh _ _)
          intro result
          cases result with
          | ok _ => exact Neutral.when (markClassNonempty_neutral sh)
          | error _ => exact ih
      | list =>
          intro r
          apply Safe.bind
          intro i s f h
          by_cases hword : s.mail sh .list = old
          · simp only [if_pos hword]
            by_cases hzero : (unpackPtr old).1 = 0
            · -- the exchange puts the thread in debt
              refine ⟨{sh} + r, ?_, ?_⟩
              · rw [add_assoc]
                refine (h.more {sh}).setMail _ fun _ => ?_
                exact Multiset.mem_add.2
                  (Or.inl (Multiset.mem_singleton_self sh))
              · refine Safe.when (fun _ => ?_) fun hne => absurd hzero hne
                refine ((markClassNonempty_pays sh).frame r).mono ?_
                intro _ r' hr
                obtain ⟨r₁, rfl, rfl⟩ := hr
                exact zero_add r
            · refine ⟨r, ?_, Safe.when (fun hz => absurd hz hzero)
                fun _ => rfl⟩
              refine h.setMail _ fun hempty => absurd ?_ hempty
              unfold Shards.NonEmpty
              rw [hword]
              exact hzero
          · simp only [if_neg hword]
            exact ⟨r, h, ih r⟩

-- ================================================================== pops

theorem transferPopSingle_neutral (sh : Shard ncpu) (fuel : Nat)
    (m : Mail) : Neutral Hinted (transferPopSingle sh fuel m) := by
  induction fuel generalizing m with
  | zero => exact fun _ => Safe.halt
  | succ fuel ih =>
      apply Neutral.bind (Neutral.read _)
      intro old
      dsimp only
      split
      · cases m with
        | list => exact ih .trimmed
        | trimmed =>
            exact Neutral.bind (clearHint_neutral sh) fun _ => Neutral.ret _
      · next hne =>
          apply Neutral.bind (Neutral.read _)
          intro next
          apply Neutral.bind (exchange_nonEmpty sh m _ hne)
          intro result
          cases result with
          | ok _ => exact Neutral.ret _
          | error _ => exact ih m

theorem popWalk_neutral (tail next : Ptr) (count n : Nat) :
    Neutral Hinted (popWalk tail next count n :
      HintM ncpu (Ptr × Ptr × Nat)) := by
  induction n generalizing tail next count with
  | zero => exact Neutral.ret _
  | succ n ih =>
      unfold popWalk
      split
      · exact Neutral.ret _
      · exact Neutral.bind (Neutral.read _) fun after => ih next after _

theorem transferPopBatch_neutral (sh : Shard ncpu) (batchSize fuel : Nat)
    (m : Mail) : Neutral Hinted (transferPopBatch sh batchSize fuel m) := by
  induction fuel generalizing m with
  | zero => exact fun _ => Safe.halt
  | succ fuel ih =>
      apply Neutral.bind (Neutral.read _)
      intro old
      dsimp only
      split
      · cases m with
        | list => exact ih .trimmed
        | trimmed =>
            exact Neutral.bind (clearHint_neutral sh) fun _ => Neutral.ret _
      · next hne =>
          apply Neutral.bind (Neutral.read _)
          intro first
          apply Neutral.bind (popWalk_neutral _ _ _ _)
          intro walked
          apply Neutral.bind (exchange_nonEmpty sh m _ hne)
          intro result
          cases result with
          | ok _ =>
              exact Neutral.bind (Neutral.when (clearHint_neutral sh))
                fun _ => Neutral.ret _
          | error _ => exact ih m

-- ============================================================== trimming

theorem detach_neutral (sh : Shard ncpu) (fuel : Nat) (list : BitVec 64) :
    Neutral Hinted (detach sh fuel list) := by
  induction fuel generalizing list with
  | zero => exact fun _ => Safe.halt
  | succ fuel ih =>
      unfold detach
      dsimp only
      split
      · exact Neutral.ret _
      · next hne =>
          apply Neutral.bind (exchange_nonEmpty sh .list _ hne)
          intro result
          cases result with
          | ok _ => exact Neutral.ret _
          | error new => exact ih new

theorem sortList_neutral (fuel : Nat) (sh : Shard ncpu)
    (stamp age n : Nat) (next : Ptr) (w : Sorting) :
    Neutral Hinted (sortList fuel sh stamp age n next w) := by
  induction n generalizing next w with
  | zero => exact fun _ => Safe.halt
  | succ n ih =>
      unfold sortList
      split
      · exact Neutral.ret _
      · apply Neutral.bind (Neutral.read _)
        intro oldNext
        apply Neutral.bind (Neutral.read _)
        intro lifeTime
        apply Neutral.bind (Neutral.read _)
        intro flags
        split
        · exact Neutral.bind (setHeader_neutral _ _) fun _ => ih _ _
        · apply Neutral.bind (setHeader_neutral _ _)
          intro _
          dsimp only
          split
          · exact Neutral.bind (transferPush_neutral sh .list _ _ fuel)
              fun _ => ih _ _
          · exact ih _ _

theorem releaseList_neutral (fuel : Nat) (sh : Shard ncpu)
    (stamp requested n : Nat) (trimList : Ptr) (total : Nat) :
    Neutral Hinted
      (releaseList fuel sh stamp requested n trimList total) := by
  induction n generalizing trimList total with
  | zero => exact fun _ => Safe.halt
  | succ n ih =>
      unfold releaseList
      split
      · exact Neutral.ret _
      · apply Neutral.bind (Neutral.read _)
        intro next
        refine Neutral.bind ?_ fun didTrim => ?_
        · split
          · exact Neutral.ask _
          · exact Neutral.ret _
        apply Neutral.bind (Neutral.when (setHeader_neutral _ _))
        intro _
        apply Neutral.bind (setHeader_neutral _ _)
        intro _
        refine Neutral.bind ?_ fun _ => ih _ _
        split
        · exact transferPush_neutral sh .trimmed _ _ fuel
        · exact transferPush_neutral sh .list _ _ fuel

theorem trimShard_neutral (fuel : Nat) (sh : Shard ncpu)
    (requested : Nat) : Neutral Hinted (trimShard fuel sh requested) := by
  apply Neutral.bind (Neutral.read _)
  intro list
  apply Neutral.bind (detach_neutral sh fuel list)
  intro output
  split
  · exact Neutral.ret _
  · apply Neutral.bind (Neutral.read _)
    intro stamp
    apply Neutral.bind (Neutral.ask _)
    intro age
    apply Neutral.bind (sortList_neutral fuel sh _ _ _ _ _)
    intro w
    apply Neutral.bind
      (Neutral.when (transferPush_neutral sh .list _ _ fuel))
    intro _
    exact releaseList_neutral fuel sh _ _ _ _ _

-- ================================================================ the pool

/-- Every call pays its debts before it returns. -/
theorem call_neutral (fuel : Nat) (c : ShardCall ncpu) :
    Neutral Hinted (c.prog fuel) := by
  cases c with
  | pushBatch sh start tail => exact transferPush_neutral sh .list _ _ fuel
  | pushSingle sh header => exact transferPush_neutral sh .list _ _ fuel
  | pushSingleTrimmed sh header =>
      exact transferPush_neutral sh .trimmed _ _ fuel
  | popSingle sh =>
      exact Neutral.bind (transferPopSingle_neutral sh fuel .list)
        fun _ => Neutral.ret _
  | popBatch sh batchSize =>
      exact Neutral.bind (transferPopBatch_neutral sh batchSize fuel .list)
        fun _ => Neutral.ret _
  | trim sh requested =>
      exact Neutral.bind (trimShard_neutral fuel sh requested)
        fun _ => Neutral.ret _
  | write b fields => exact setHeader_neutral b _
  | tick stamp =>
      exact Neutral.atomic fun _ _ _ h => h.same (fun _ => rfl) rfl

/-- Whatever the threads did, and however their accesses were
interleaved: once all of them are between calls, a shard with blocks on
its normal list has its bit set. -/
theorem hint_never_hides_list {T : Type} [Fintype T] [DecidableEq T]
    {fuel stamp : Nat} {header : Ptr → HeaderFields}
    {w : World T (Shards ncpu) TrimEnv (ShardCall ncpu) Unit Unit}
    (hr : Reach (shardApi T ncpu fuel) (shardStart T ncpu header stamp) w)
    (hquiet : ∀ t, w.thread t = none) (sh : Shard ncpu)
    (hne : w.state.NonEmpty sh) : w.state.hinted sh = true := by
  -- callers hold no debts, so nothing is valid in their hands
  have hstart : ∃ L held, Owned (shardApi T ncpu fuel) Hinted
      (fun _ => ()) (fun _ => False)
      (shardStart T ncpu header stamp) L held := by
    refine ⟨0, fun _ => 0, ⟨rfl, nofun⟩, fun _ _ => rfl, ?_, nofun⟩
    intro sh' hne' _
    have hzero : (unpackPtr 0).1 = 0 := by decide
    exact absurd hzero hne'
  obtain ⟨L, held, h⟩ := Owned.reach hstart (fun t c r s f hr _ => by
    refine (call_neutral fuel c r).mono fun _ r' hr' => ?_
    rw [hr']
    exact hr) hr
  have hL : L = 0 := Multiset.eq_zero_of_forall_notMem h.live.2
  have hheld : ∑ t, held t = 0 :=
    Finset.sum_eq_zero fun t _ => h.idle t (hquiet t)
  have hinv := h.inv
  rw [hL, hheld, add_zero] at hinv
  cases hset : w.state.hinted sh with
  | true => rfl
  | false => exact absurd (hinv sh hne hset) (Multiset.notMem_zero sh)

/-- One thread pushes one block: the list is non-empty and the bit is
set. -/
theorem hint_never_hides_list_push : ∃ w,
    Reach (shardApi Unit 1 1)
      (shardStart Unit 1 (fun _ => ⟨0, 0, 0⟩) 0) w
      ∧ w.state.NonEmpty ⟨0, 0⟩ ∧ w.state.hinted ⟨0, 0⟩ = true := by
  have hr : Reach (shardApi Unit 1 1)
      (shardStart Unit 1 (fun _ => ⟨0, 0, 0⟩) 0) _ :=
    Reach.init.exec () (.pushSingle ⟨0, 0⟩ 16#64) (fun _ => ⟨0, false⟩) rfl
      (Multiset.zero_le _) rfl
  refine ⟨_, hr, ?pushed,
    hint_never_hides_list hr (fun _ => rfl) ⟨0, 0⟩ ?pushed⟩
  show (unpackPtr _).1 ≠ 0
  decide

end RsMalloc.Hint
