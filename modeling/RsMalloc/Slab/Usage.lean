/-
The usage counters count the blocks of the per-CPU lists.

A restartable sequence changes a list in one step, and the update of the
`usage` word follows as a step of its own. Between the two the thread
may be preempted for any time, so the word alone says little: a pop may
overtake the push before it and the word wraps below zero. What holds at
every step is that the word and the updates under way together are the
length of the list, modulo `2^64`.

# Lengths

The lengths are those of `LenInv` in Stock.lean, which the list steps
change as they change the lists.

# Debts

An update under way is the debt of the thread that makes it (Watch.lean):
`Owes` says that a thread with a debt takes the step that settles it
next. `Counted` is the invariant: word plus debts is length.

# Calls

Threads push single blocks, push chains they have linked and pop, on any
CPU and for any class.
-/
import Mathlib.Algebra.BigOperators.Pi
import Mathlib.Data.Int.ModEq
import RsMalloc.Lib.Watch
import RsMalloc.Slab.Pool

namespace RsMalloc.Slab

open Conc

variable {cfg : Config} {D : Fate}

-- no proof below computes with the bytes of memory
attribute [local irreducible] Mem.load

-- =============================================================== lengths

/-- The blocks of a list word, by their headers. -/
def HotList (s : State) (cpu class_ : Nat) (l : List Nat) : Prop :=
  LinkedSeg (Header.next s.ground.mem) (s.list (.hot cpu class_)) l 0
    ∧ 0 ∉ l

theorem HotList.unique {s : State} {cpu c : Nat} {l l' : List Nat}
    (h : HotList s cpu c l) (h' : HotList s cpu c l') : l = l' :=
  h.1.unique h'.1 h.2 h'.2

/-- A list word shows its blocks. -/
theorem LenInv.hotList {s : State} {len : Shelf → Nat} {R : Multiset Part}
    (h : LenInv cfg D s len R) (cpu c : Nat) :
    ∃ l, HotList s cpu c l ∧ l.length = len (.hot cpu c)
      ∧ l.length < 2 ^ 64 := by
  obtain ⟨S, C, hd⟩ := h
  obtain ⟨⟨l, hX, hchain, hok⟩, hlen⟩ := hd.place (.list (.hot cpu c))
  -- the blocks of the list are among all parts
  have hle : (l : Multiset Part) ≤ ∑ k ∈ S, C k + R := by
    by_cases hS : Place.list (.hot cpu c) ∈ S
    · rw [← hX]
      exact (Finset.single_le_sum_of_canonicallyOrdered hS).trans
        (Multiset.le_add_right _ _)
    · rw [← hX, hd.outside _ hS]
      exact Multiset.zero_le _
  have hmem : ∀ p ∈ l, p ∈ ∑ k ∈ S, C k + R := fun p hp =>
    Multiset.mem_of_le hle hp
  refine ⟨l.map header, ⟨hchain.linkedSeg fun p hp => ?_, fun hz => ?_⟩,
    ?_, ?_⟩
  · exact (hok p hp).next_eq hd.whole (hmem p hp)
  · obtain ⟨p, hp, hzero⟩ := List.mem_map.1 hz
    exact (hok p hp).ne hzero
  · have hcard := hlen _ rfl
    rw [hX, Multiset.coe_card] at hcard
    rw [List.length_map]
    exact hcard
  · -- no header twice, and each of them an address that is not null
    have hnodup : (l.map header).Nodup := by
      have hsub := headers_nodup hd.whole
      obtain ⟨H, hH⟩ := Multiset.le_iff_exists_add.1 hle
      rw [hH, headers_add, headers_of_blocks fun p hp =>
        (hok p hp).isBlock] at hsub
      exact (Multiset.nodup_add.1 hsub).1
    have hsub : (l.map header).toFinset ⊆ Finset.Ico 1 (2 ^ 64) := by
      intro x hx
      obtain ⟨p, hp, rfl⟩ := List.mem_map.1 (List.mem_toFinset.1 hx)
      exact Finset.mem_Ico.2 ⟨Nat.pos_of_ne_zero (hok p hp).ne,
        ((hok p hp).bounds hd.whole (hmem p hp)).1⟩
    have hcard := Finset.card_le_card hsub
    rw [List.toFinset_card_of_nodup hnodup, Nat.card_Ico] at hcard
    omega

-- ================================================================= debts

/-- Who owes what to which counter. -/
abbrev Debt := Nat → Nat → ℤ

/-- The update of one counter by `n`. -/
def owed (cpu class_ : Nat) (n : ℤ) : Debt :=
  fun cpu' class' => if cpu' = cpu ∧ class' = class_ then n else 0

/-- The step of `addUsage`. -/
def usageStep (cpu class_ n : Nat) (s : State) : State :=
  { s with
    usage := Function.update s.usage cpu (Function.update (s.usage cpu)
      class_ ((s.usage cpu class_ + n) % 2 ^ 64)) }

/-- What a thread owes that is about to take a step: the update of a
counter that the step makes, nothing if it leaves the counters alone. -/
inductive Owes : (Env → State → State) → Debt → Prop
  /-- A step that changes no counter. -/
  | none {u : Env → State → State} (keeps : ∀ i s, (u i s).usage = s.usage) :
      Owes u 0
  /-- `lock add` or `lock inc` after a push. -/
  | add (cpu class_ n : Nat) :
      Owes (fun _ => usageStep cpu class_ n) (owed cpu class_ n)
  /-- `lock dec` after a pop. -/
  | sub (cpu class_ : Nat) :
      Owes (fun _ => usageStep cpu class_ (2 ^ 64 - 1)) (owed cpu class_ (-1))

/-- The counters and the updates under way give the lengths. -/
def Tally (s : State) (d : Debt) (len : Shelf → Nat) : Prop :=
  ∀ cpu c, s.usage cpu c < 2 ^ 64
    ∧ s.usage cpu c + d cpu c ≡ len (.hot cpu c) [ZMOD 2 ^ 64]

/-- The parts are where they belong, and the counters count. -/
def Counted (cfg : Config) (s : State) (R : Multiset Part) (d : Debt) :
    Prop :=
  ∃ len, LenInv cfg (fun _ _ => True) s len R ∧ Tally s d len

namespace Tally

variable {s s' : State} {d : Debt} {len len' : Shelf → Nat} {cpu c : Nat}

/-- A step that leaves the counters and the lengths of their lists
alone. -/
theorem same (h : Tally s d len) (hu : s'.usage = s.usage)
    (hlen : ∀ cpu c, len' (.hot cpu c) = len (.hot cpu c)) :
    Tally s' d len' := by
  intro cpu c
  rw [hu, hlen]
  exact h cpu c

/-- A commit: the list has changed, the counter has not. -/
theorem commit {m : Nat} {n : ℤ} (h : Tally s d len)
    (hu : s'.usage = s.usage) (hm : (m : ℤ) = n + len (.hot cpu c)) :
    Tally s' (owed cpu c n + d) (Function.update len (.hot cpu c) m) := by
  intro cpu' c'
  rw [hu]
  obtain ⟨hlt, hmod⟩ := h cpu' c'
  refine ⟨hlt, ?_⟩
  by_cases hk : cpu' = cpu ∧ c' = c
  · obtain ⟨rfl, rfl⟩ := hk
    simp only [Pi.add_apply, owed, and_self, if_true, Function.update_self]
    rw [hm, add_left_comm]
    exact hmod.add_left n
  · have hne : Shelf.hot cpu' c' ≠ .hot cpu c := by
      intro heq
      cases heq
      exact hk ⟨rfl, rfl⟩
    simp only [Pi.add_apply, owed, if_neg hk, zero_add,
      Function.update_of_ne hne]
    exact hmod

/-- The update of the counter settles the debt. -/
theorem settle {k : Nat} {n : ℤ} (h : Tally s (owed cpu c n + d) len)
    (hk : (k : ℤ) ≡ n [ZMOD 2 ^ 64]) :
    Tally (usageStep cpu c k s) d len := by
  intro cpu' c'
  obtain ⟨hlt, hmod⟩ := h cpu' c'
  by_cases hkey : cpu' = cpu ∧ c' = c
  · obtain ⟨rfl, rfl⟩ := hkey
    simp only [Pi.add_apply, owed, and_self, if_true] at hmod
    simp only [usageStep, Function.update_self]
    refine ⟨Nat.mod_lt _ (by norm_num), ?_⟩
    have hnew : (((s.usage cpu' c' + k) % 2 ^ 64 : Nat) : ℤ)
        ≡ s.usage cpu' c' + n [ZMOD 2 ^ 64] := by
      push_cast
      exact (Int.mod_modEq _ _).trans (hk.add_left _)
    rw [← add_assoc] at hmod
    exact (hnew.add_right _).trans hmod
  · simp only [Pi.add_apply, owed, if_neg hkey, zero_add] at hmod
    have hkept : (usageStep cpu c k s).usage cpu' c' = s.usage cpu' c' := by
      by_cases hcpu : cpu' = cpu
      · subst hcpu
        have hc : c' ≠ c := fun hc => hkey ⟨rfl, hc⟩
        simp only [usageStep, Function.update_self,
          Function.update_of_ne hc]
      · simp only [usageStep, Function.update_of_ne hcpu]
    rw [hkept]
    exact ⟨hlt, hmod⟩

/-- When nothing is under way the counter is the length. -/
theorem exact (h : Tally s d len) (hd : d cpu c = 0)
    (hlen : len (.hot cpu c) < 2 ^ 64) :
    s.usage cpu c = len (.hot cpu c) := by
  obtain ⟨hlt, hmod⟩ := h cpu c
  rw [hd, add_zero] at hmod
  have hnat : s.usage cpu c ≡ len (.hot cpu c) [MOD 2 ^ 64] := by
    apply Int.natCast_modEq_iff.1
    exact_mod_cast hmod
  exact hnat.eq_of_lt_of_lt hlt hlen

end Tally

namespace Counted

variable {s s' : State} {R F r : Multiset Part} {d : Debt}
  {c start tail n : Nat}

/-- A step that touches neither memory nor a place nor a counter. -/
theorem same (h : Counted cfg s R d) (hg : s'.ground = s.ground)
    (hl : s'.list = s.list) (hs : s'.slot = s.slot)
    (hp : s'.pages = s.pages) (hu : s'.usage = s.usage) :
    Counted cfg s' R d := by
  obtain ⟨len, hinv, htally⟩ := h
  exact ⟨len, hinv.same hg hl hs hp, htally.same hu fun _ _ => rfl⟩

/-- A push to a list that no counter counts. -/
theorem pushOther {k : Shelf} (hk : ∀ cpu c, k ≠ .hot cpu c)
    (hb : IsBatch cfg k.cls start tail n r) (h : Counted cfg s (r + F) d) :
    Counted cfg (pushChain k start tail s).2 F d := by
  obtain ⟨len, hinv, htally⟩ := h
  exact ⟨_, hinv.pushChain hb, htally.same rfl fun cpu c =>
    Function.update_of_ne (hk cpu c).symm _ _⟩

/-- A push that commits: its blocks are not counted yet. -/
theorem pushHot (cpu : Nat) (hb : IsBatch cfg c start tail n r)
    (h : Counted cfg s (r + F) d) :
    Counted cfg (pushChain (.hot cpu c) start tail s).2 F
      (owed cpu c n + d) := by
  obtain ⟨len, hinv, htally⟩ := h
  exact ⟨_, hinv.pushChain (k := .hot cpu c) hb,
    htally.commit rfl (by push_cast; rfl)⟩

/-- A pop from a list that no counter counts. -/
theorem popOther {k : Shelf} (hk : ∀ cpu c, k ≠ .hot cpu c)
    (batchSize : Nat) (h : Counted cfg s F d) :
    ∃ r, Counted cfg (popBatch k batchSize s).2 (r + F) d
      ∧ GotBatch cfg k.cls batchSize (popBatch k batchSize s).1 r := by
  obtain ⟨len, hinv, htally⟩ := h
  rcases hinv.popBatch k batchSize with hnone | ⟨b, s', hsome, husage, hne,
    hcount, -, r, hinv', hb⟩
  · rw [hnone]
    refine ⟨0, ⟨len, ?_, htally⟩, rfl⟩
    rwa [zero_add]
  · rw [hsome]
    exact ⟨r, ⟨_, hinv', htally.same husage fun cpu c =>
      Function.update_of_ne (hk cpu c).symm _ _⟩, hne, hcount, hb⟩

/-- A pop of one block that commits: the list is empty, or the block is
still counted. -/
theorem popHot (cpu : Nat) (h : Counted cfg s F d) :
    popBatch (.hot cpu c) 1 s = (none, s)
    ∨ ∃ b s', popBatch (.hot cpu c) 1 s = (some b, s') ∧ b.head ≠ 0
      ∧ ∃ r, Counted cfg s' (r + F) (owed cpu c (-1) + d)
        ∧ IsFree cfg c b.head r := by
  obtain ⟨len, hinv, htally⟩ := h
  rcases hinv.popBatch (.hot cpu c) 1 with hnone | ⟨b, s', hsome, husage,
    hne, hcount, hle, r, hinv', hb⟩
  · exact Or.inl hnone
  · have hone : b.count = 1 := by
      have := hb.count_pos
      omega
    rw [hone] at hb hinv' hle
    refine Or.inr ⟨b, s', hsome, hne, r, ⟨_, hinv', ?_⟩, hb.single⟩
    exact htally.commit husage (by omega)

end Counted

-- ============================================================== programs

section Programs

variable {r : Multiset Part} {c start tail n : Nat}

theorem popBatch_usage (k : Shelf) (batchSize : Nat) (s : State) :
    (popBatch k batchSize s).2.usage = s.usage := by
  unfold popBatch
  dsimp only
  split <;> rfl

theorem loadHint_steady (b : Hint) (i : Nat) :
    Steady (Counted cfg) Owes (loadHint b i) :=
  Steady.atomic (.none fun _ _ => rfl) fun _ _ _ _ h =>
    h.same rfl rfl rfl rfl rfl

/-- A step on hints only. -/
theorem rmwHint_steady (b : Hint) (i : Nat) (f : BitVec 64 → BitVec 64) :
    Steady (Counted cfg) Owes (rmwHint b i f) :=
  Steady.atomic (.none fun _ _ => rfl) fun _ _ _ _ h =>
    h.same rfl rfl rfl rfl rfl

theorem read_steady {α : Type} (f : State → α) :
    Steady (Counted cfg) Owes (Prog.read f) :=
  Steady.atomic (.none fun _ _ => rfl) fun _ _ _ _ h => h

theorem cpuId_steady : Steady (Counted cfg) Owes cpuId :=
  Steady.atomic (.none fun _ _ => rfl) fun _ _ _ _ h => h

theorem cpuBitSet_steady (b : Hint) (class_ cpu : Nat) :
    Steady (Counted cfg) Owes (cpuBitSet cfg b class_ cpu) :=
  (loadHint_steady b _).bind fun _ => (rmwHint_steady b _ _).when

theorem cpuBitClear_steady (b : Hint) (class_ cpu : Nat) :
    Steady (Counted cfg) Owes (cpuBitClear cfg b class_ cpu) :=
  (loadHint_steady b _).bind fun _ => (rmwHint_steady b _ _).when

theorem clearHint_steady (class_ cpu : Nat) :
    Steady (Counted cfg) Owes (clearHint cfg class_ cpu) := by
  unfold clearHint
  apply (cpuBitClear_steady _ _ _).bind
  intro _
  apply (read_steady _).bind
  intro head
  exact (cpuBitSet_steady _ _ _).when

/-- The update of a counter settles what its thread owes. -/
theorem addUsage_watched (cpu : Nat) {k : Nat} {d : ℤ}
    (howes : Owes (fun _ => usageStep cpu c k) (owed cpu c d))
    (hk : (k : ℤ) ≡ d [ZMOD 2 ^ 64]) :
    Watched (Counted cfg) Owes (addUsage cpu c k) (fun _ r' => r' = r) r
      (owed cpu c d) := by
  refine Watched.atomic howes fun i s g e hI => ⟨r, ?_, rfl⟩
  obtain ⟨len, hinv, htally⟩ := hI
  exact ⟨len, hinv.same rfl rfl rfl rfl, htally.settle hk⟩

/-- `RseqCore::pop`. -/
theorem rseqPop_watched (cpu class_ : Nat) :
    Watched (Counted cfg) Owes (rseqPop cpu class_)
      (fun o r => match o with
        | none => r = 0
        | some h => Popped cfg class_ h r) 0 0 := by
  unfold rseqPop
  refine Watched.atomicThen (.none fun env s => ?_) fun env s g e hI => ?_
  · have hkept := popBatch_usage (.hot cpu class_) 1 s
    split
    · rfl
    · split <;> next heq => rwa [heq] at hkept
  · rw [zero_add, zero_add] at hI
    split
    · exact ⟨0, 0, by rwa [zero_add, zero_add], Watched.ret rfl⟩
    · rcases hI.popHot (c := class_) cpu with hnone | ⟨b, s', hsome, hne,
        r, hI', hb⟩
      · rw [hnone]
        exact ⟨0, 0, by rwa [zero_add, zero_add],
          Watched.ret (Or.inl ⟨rfl, rfl⟩)⟩
      · rw [hsome]
        refine ⟨r, _, hI', ?_⟩
        dsimp only
        rw [Prog.when, if_pos hne]
        apply Watched.bind
        refine (addUsage_watched cpu (.sub cpu class_) (by decide)).mono ?_
        intro _ r' hr'
        rw [hr']
        exact Watched.ret (Or.inr ⟨hne, hb⟩)

/-- `RseqCore::push_tailed` with the true number of blocks: the chain is
on the list, or still the caller's. -/
theorem rseqPush_watched (cpu : Nat) (hb : IsBatch cfg c start tail n r) :
    Watched (Counted cfg) Owes (rseqPush cpu c start tail n)
      (fun done r' => done = true ∧ r' = 0
        ∨ done = false ∧ IsBatch cfg c start tail n r') r 0 := by
  unfold rseqPush
  refine Watched.atomicThen (.none fun env s => ?_) fun env s g e hI => ?_
  · split
    · split <;> rfl
    · rfl
  · rw [zero_add] at hI
    split
    · split
      · obtain ⟨len, hinv, htally⟩ := hI
        obtain ⟨r', hinv', hb'⟩ := hinv.torn (.hot cpu c) hb
        refine ⟨r', 0, ⟨len, hinv', ?_⟩, Watched.ret (Or.inr ⟨rfl, hb'⟩)⟩
        rw [zero_add]
        exact htally.same rfl fun _ _ => rfl
      · exact ⟨r, 0, by rwa [zero_add], Watched.ret (Or.inr ⟨rfl, hb⟩)⟩
    · refine ⟨0, owed cpu c n, ?_, ?_⟩
      · rw [zero_add]
        exact hI.pushHot cpu hb
      · apply Watched.bind
        refine (addUsage_watched cpu (.add cpu c n) rfl).mono ?_
        intro _ r' hr'
        exact Watched.ret (Or.inl ⟨rfl, hr'⟩)

/-- The pushes to the transfer lists. -/
theorem transferPush_watched {k : Shelf} (hk : ∀ cpu c, k ≠ .hot cpu c)
    (class_ cpu : Nat) (hb : IsBatch cfg k.cls start tail n r) :
    Watched (Counted cfg) Owes
      (transferPush cfg k class_ start tail cpu) (fun _ r' => r' = 0) r
      0 := by
  unfold transferPush
  apply Watched.bind
  refine Watched.atomic (.none fun _ _ => rfl) fun _ s g e hI => ?_
  rw [zero_add] at hI
  refine ⟨0, ?_, (cpuBitSet_steady _ _ _).when 0⟩
  rw [zero_add]
  exact hI.pushOther hk hb

theorem transferPushBatch_watched (cpu : Nat)
    (hb : IsBatch cfg c start tail n r) :
    Watched (Counted cfg) Owes (transferPushBatch cfg c start tail cpu)
      (fun _ r' => r' = 0) r 0 :=
  transferPush_watched (k := .mail cpu c) nofun c cpu hb

/-- The pops from the transfer lists. -/
theorem popOther_watched {k : Shelf} (hk : ∀ cpu c, k ≠ .hot cpu c)
    (batchSize : Nat) :
    Watched (Counted cfg) Owes
      (Prog.atomic fun (_ : Env) s => popBatch k batchSize s)
      (fun o r => GotBatch cfg k.cls batchSize o r) 0 0 := by
  refine Watched.atomic (.none fun _ s => popBatch_usage k batchSize s)
    fun _ s g e hI => ?_
  rw [zero_add, zero_add] at hI
  exact hI.popOther hk batchSize

/-- `transfer_pop_single`. -/
theorem transferPopSingle_watched (class_ cpu : Nat) :
    Watched (Counted cfg) Owes (transferPopSingle cfg class_ cpu)
      (fun h r => Popped cfg class_ h r) 0 0 := by
  unfold transferPopSingle
  apply Watched.bind
  refine (popOther_watched (k := .mail cpu class_) nofun 1).mono ?_
  intro o r hgot
  cases o with
  | some b => exact Watched.ret hgot.popped
  | none =>
      cases hgot
      apply Watched.bind
      refine (popOther_watched (k := .trimmed cpu class_) nofun 1).mono ?_
      intro o r hgot
      cases o with
      | some b => exact Watched.ret hgot.popped
      | none =>
          cases hgot
          exact (clearHint_steady _ _).andThen fun _ =>
            Watched.ret (Or.inl ⟨rfl, rfl⟩)

/-- One pass of a push, when what follows an abort is fine. -/
theorem pushOnce_watched {again : Nat → SlabM Unit}
    (hb : IsBatch cfg c start tail n r)
    (hagain : ∀ cpu r', IsBatch cfg c start tail n r' →
      Watched (Counted cfg) Owes (again cpu) (fun _ r => r = 0) r' 0) :
    Watched (Counted cfg) Owes (pushOnce cfg c start tail n again)
      (fun _ r' => r' = 0) r 0 := by
  unfold pushOnce
  apply cpuId_steady.andThen
  intro cpu
  apply (read_steady _).andThen
  intro usage
  split
  · exact transferPushBatch_watched cpu hb
  · apply Watched.bind
    refine (rseqPush_watched cpu hb).mono ?_
    intro done r' hpost
    cases hpost with
    | inl hdone =>
        obtain ⟨rfl, rfl⟩ := hdone
        exact Watched.ret rfl
    | inr habort =>
        obtain ⟨rfl, hb'⟩ := habort
        exact hagain cpu r' hb'

/-- `push_tailed`. -/
theorem pushTailed_watched (hb : IsBatch cfg c start tail n r) :
    Watched (Counted cfg) Owes (pushTailed cfg c start tail n)
      (fun _ r' => r' = 0) r 0 :=
  pushOnce_watched hb fun cpu _ hb' => transferPushBatch_watched cpu hb'

/-- `push`. -/
theorem push_watched {h : Nat} (hb : IsFree cfg c h r) :
    Watched (Counted cfg) Owes (push cfg c h) (fun _ r' => r' = 0) r 0 := by
  have hloop : ∀ n r, IsBatch cfg c h h 1 r →
      Watched (Counted cfg) Owes (pushLoop cfg c h n)
        (fun _ r' => r' = 0) r 0 := by
    intro n
    induction n with
    | zero =>
        intro r hb
        exact pushOnce_watched hb fun cpu _ hb' =>
          transferPushBatch_watched cpu hb'
    | succ n ih =>
        intro r hb
        exact pushOnce_watched hb fun _ r' hb' => ih r' hb'
  exact hloop 4 r hb.batch

/-- `pop`. -/
theorem pop_watched (fuel class_ : Nat) :
    Watched (Counted cfg) Owes (pop cfg fuel class_)
      (fun h r => Popped cfg class_ h r) 0 0 := by
  unfold pop
  generalize 0 = loopCount
  induction fuel generalizing loopCount with
  | zero => exact Watched.halt
  | succ fuel ih =>
      unfold popLoop
      apply cpuId_steady.andThen
      intro cpu
      apply Watched.bind
      refine (rseqPop_watched cpu class_).mono ?_
      intro o r hpop
      cases o with
      | some h => exact Watched.ret hpop
      | none =>
          cases hpop
          dsimp only
          split
          · apply Watched.bind
            refine (transferPopSingle_watched class_ cpu).mono ?_
            intro mail r hmail
            split
            · exact Watched.ret hmail
            · next hz =>
              rcases hmail with ⟨-, rfl⟩ | ⟨hne, -⟩
              · exact ih 1
              · exact absurd hne hz
          · exact ih _

end Programs

-- ================================================================= calls

/-- What threads do with the caches. -/
inductive CacheCall where
  | push (class_ header : Nat)
  /-- `push_tailed` of the blocks, linked in this order. -/
  | pushTailed (class_ : Nat) (blocks : List Nat) (nonempty : blocks ≠ [])
  | pop (fuel class_ : Nat)

/-- A thread links blocks that it holds. -/
def linkChain : List Nat → SlabM Unit
  | [] => return ()
  | [_] => return ()
  | a :: b :: l => do
      Prog.modify (State.onGround (Header.setNext a b))
      linkChain (b :: l)

/-- The program of a call. -/
def CacheCall.prog (cfg : Config) : CacheCall → SlabM Nat
  | .push class_ header => do
      Slab.push cfg class_ header
      return 0
  | .pushTailed class_ blocks nonempty => do
      linkChain blocks
      Slab.pushTailed cfg class_ (blocks.head nonempty)
        (blocks.getLast nonempty) blocks.length
      return 0
  | .pop fuel class_ => Slab.pop cfg fuel class_

/-- The blocks a call takes from its caller, each with its class. -/
def CacheCall.takes : CacheCall → Multiset (Nat × Nat)
  | .push class_ header => {(class_, header)}
  | .pushTailed class_ blocks _ => blocks.map (Prod.mk class_)
  | .pop _ _ => 0

/-- The blocks a call hands out. -/
def CacheCall.gives : CacheCall → Nat → Multiset (Nat × Nat)
  | .pop _ class_, header => if header = 0 then 0 else {(class_, header)}
  | _, _ => 0

/-- The calls of the threads `T`. -/
def cacheApi (T : Type) (cfg : Config) :
    Api T State Env CacheCall Nat (Nat × Nat) where
  prog _ := CacheCall.prog cfg
  takes := CacheCall.takes
  gives := CacheCall.gives

/-- The class and the header of a block. -/
def blockKey (p : Part) : Nat × Nat :=
  (Header.cls p.data (header p), header p)

/-- What a caller holds is a free block of some class. -/
def IsSpare (cfg : Config) (p : Part) : Prop := ∃ c, FreeOk cfg c p

variable {r : Multiset Part}

/-- The parts that stand for blocks of one class. -/
theorem standsFor_blocks {c : Nat} {l : List Nat}
    (h : StandsFor blockKey (IsSpare cfg)
      ((l.map (Prod.mk c) : List (Nat × Nat)) : Multiset (Nat × Nat)) r) :
    ∃ ps : List Part, r = ps ∧ ps.map header = l
      ∧ ∀ p ∈ ps, FreeOk cfg c p := by
  classical
  obtain ⟨hkey, hspare⟩ := h
  induction l generalizing r with
  | nil =>
      rw [List.map_nil, Multiset.coe_nil, Multiset.map_eq_zero] at hkey
      exact ⟨[], hkey, rfl, nofun⟩
  | cons a l ih =>
      rw [List.map_cons, ← Multiset.cons_coe, ← Multiset.map_eq_cons] at hkey
      obtain ⟨p, hp, hpa, hrest⟩ := hkey
      obtain ⟨ps, hps, hl, hok⟩ := ih hrest fun x hx =>
        hspare x (Multiset.mem_of_mem_erase hx)
      obtain ⟨c', hfree⟩ := hspare p hp
      rw [blockKey, hfree.cls, Prod.mk.injEq] at hpa
      obtain ⟨rfl, rfl⟩ := hpa
      refine ⟨p :: ps, ?_, ?_, fun x hx => ?_⟩
      · rw [← Multiset.cons_coe, ← hps, Multiset.cons_erase hp]
      · rw [List.map_cons, hl]
      · cases List.mem_cons.1 hx with
        | inl heq => exact heq ▸ hfree
        | inr hx => exact hok x hx

/-- A block in front of a batch that it is linked to. -/
theorem IsBatch.cons {c start tail n : Nat} {p : Part}
    (h : IsBatch cfg c start tail n r) (hok : FreeOk cfg c p)
    (hlink : link p = start) :
    IsBatch cfg c (header p) tail (n + 1) (r + {p}) := by
  obtain ⟨l, q, t, rfl, hchain, hq, hcount, hfree⟩ := h
  refine ⟨p :: l, q, t, ?_, ⟨rfl, ?_⟩, hq, ?_, fun x hx => ?_⟩
  · rw [add_comm, singleton_add_coe]
    rfl
  · rw [hlink]
    exact hchain
  · rw [hcount, List.length_cons]
  · cases List.mem_cons.1 hx with
    | inl heq => exact heq ▸ hok
    | inr hx => exact hfree x hx

/-- Blocks that are linked one after the other are a batch. -/
theorem linkChain_watched {c : Nat} (p : Part) (ps : List Part)
    (hok : ∀ x ∈ p :: ps, FreeOk cfg c x) :
    Watched (Counted cfg) Owes (linkChain ((p :: ps).map header))
      (fun _ r' => IsBatch cfg c (header p)
        (header ((p :: ps).getLast (List.cons_ne_nil p ps)))
        (ps.length + 1) r') ((p :: ps : List Part) : Multiset Part) 0 := by
  induction ps generalizing p with
  | nil =>
      refine Watched.ret (IsMarked.batch ⟨p, rfl, rfl, ?_⟩)
      exact hok p (List.mem_singleton_self p)
  | cons q ps ih =>
      have hp := hok p (List.mem_cons_self ..)
      have hrest : ∀ x ∈ q :: ps, FreeOk cfg c x := fun x hx =>
        hok x (List.mem_cons_of_mem _ hx)
      apply Watched.bind
      refine Watched.atomic (.none fun _ _ => rfl) fun i s g e hI => ?_
      obtain ⟨len, hinv, htally⟩ := hI
      rw [zero_add] at htally
      -- the next block is one that the thread holds too
      obtain ⟨H, hsp⟩ := hinv.space
      have hq : q ∈ (((p :: q :: ps : List Part) : Multiset Part) + g) + H :=
        by simp
      obtain ⟨hlt, hinited⟩ := (hrest q (List.mem_cons_self ..)).bounds hsp hq
      rw [← singleton_add_coe, add_assoc] at hinv
      obtain ⟨_, hinv', p', rfl, haddr, hlink, hp'⟩ :=
        hinv.relink hp hlt (Or.inr hinited)
      refine ⟨((q :: ps : List Part) : Multiset Part) + {p'},
        ⟨len, ?_, htally.same rfl fun _ _ => rfl⟩, ?_⟩
      · rw [add_comm _ ({p'} : Multiset Part), add_assoc]
        exact hinv'
      · refine ((ih q hrest).frame {p'}).mono ?_
        intro _ r' hr'
        obtain ⟨r₁, rfl, hb⟩ := hr'
        rw [← haddr]
        exact hb.cons hp' hlink

/-- Every call keeps count. -/
theorem cacheCall_watched (x : CacheCall)
    (hr : StandsFor blockKey (IsSpare cfg) x.takes r) :
    Watched (Counted cfg) Owes (x.prog cfg)
      (fun a r' => StandsFor blockKey (IsSpare cfg) (x.gives a) r') r 0 := by
  cases x with
  | push c h =>
      obtain ⟨ps, rfl, hps, hok⟩ := standsFor_blocks (l := [h]) hr
      obtain ⟨p, rfl, rfl⟩ := List.map_eq_singleton_iff.1 hps
      apply Watched.bind
      refine (push_watched ⟨p, rfl, rfl, hok p (by simp)⟩).mono ?_
      intro _ r' hr'
      rw [hr']
      exact Watched.ret .zero
  | pushTailed c l hne =>
      obtain ⟨ps, rfl, rfl, hok⟩ := standsFor_blocks hr
      cases ps with
      | nil => exact absurd rfl hne
      | cons p ps =>
          apply Watched.bind
          refine (linkChain_watched p ps hok).mono ?_
          intro _ r' hb
          apply Watched.bind
          rw [List.getLast_map, List.length_map]
          refine (pushTailed_watched hb).mono ?_
          intro _ r'' hr''
          rw [hr'']
          exact Watched.ret .zero
  | pop fuel c =>
      have hzero : r = 0 := Multiset.map_eq_zero.1 hr.1
      rw [hzero]
      refine (pop_watched fuel c).mono ?_
      intro h r' hpop
      rcases hpop with ⟨rfl, rfl⟩ | ⟨hne, p, rfl, rfl, hok⟩
      · exact .zero
      · refine ⟨?_, fun x hx => ?_⟩
        · rw [Multiset.map_singleton, blockKey, hok.cls]
          exact (if_neg hne).symm
        · rw [Multiset.mem_singleton] at hx
          exact ⟨c, hx ▸ hok⟩

-- ================================================================= worlds

/-- What the thread owes whose call is `e`. -/
def Due : Option (CacheCall × SlabM Nat) → Debt → Prop
  | some (_, .step u _), d => Owes u d
  | _, d => d = 0

/-- No thread is in a call, the callers' blocks and the places share
all of memory, and every counter is the length of its list. -/
structure Begins {T : Type} (cfg : Config)
    (w : World T State Env CacheCall Nat (Nat × Nat)) : Prop where
  idle : ∀ t, w.thread t = none
  stock : ∃ L, StandsFor blockKey (IsSpare cfg) w.live L
    ∧ Inv cfg w.state L
  counted : ∀ cpu c, ∃ l, HotList w.state cpu c l
    ∧ w.state.usage cpu c = l.length

section Worlds

variable {T : Type} [Fintype T]
  {w : World T State Env CacheCall Nat (Nat × Nat)}

/-- At the start nothing is owed. -/
theorem Begins.watching (h : Begins cfg w) :
    ∃ L held owes, Watching (cacheApi T cfg) (Counted cfg) Owes blockKey
      (IsSpare cfg) w L held owes := by
  obtain ⟨L, hlive, hinv⟩ := h.stock
  obtain ⟨len, hlen⟩ := hinv.exists_len
  refine ⟨L, fun _ => 0, fun _ => 0, hlive, fun _ _ => ⟨rfl, rfl⟩, ?_, ?_⟩
  · rw [Finset.sum_const_zero, add_zero, Finset.sum_const_zero]
    refine ⟨len, hlen, fun cpu c => ?_⟩
    obtain ⟨l, hl, hcount, hlt⟩ := hlen.hotList cpu c
    obtain ⟨l', hl', husage⟩ := h.counted cpu c
    rw [husage, ← hl.unique hl', ← hcount]
    refine ⟨hlt, ?_⟩
    rw [Pi.zero_apply, Pi.zero_apply, add_zero]
  · intro t c p hbusy
    rw [h.idle t] at hbusy
    cases hbusy

variable {L : Multiset Part} {held : T → Multiset Part} {owes : T → Debt}

/-- A debt is the update that its thread makes next. -/
theorem Watching.due (h : Watching (cacheApi T cfg) (Counted cfg) Owes
    blockKey (IsSpare cfg) w L held owes) (t : T) :
    Due (w.thread t) (owes t) := by
  cases hthread : w.thread t with
  | none => exact (h.idle t hthread).2
  | some e =>
      obtain ⟨c, p⟩ := e
      have hw := h.watched t c p hthread
      cases p with
      | ret a => exact hw.1
      | step u n => exact hw.1
      | halt => exact hw

/-- The counters, the debts and the lists of a world. -/
theorem Watching.counts (h : Watching (cacheApi T cfg) (Counted cfg) Owes
    blockKey (IsSpare cfg) w L held owes) (cpu c : Nat) :
    ∃ l, HotList w.state cpu c l
      ∧ w.state.usage cpu c + ∑ t, owes t cpu c ≡ l.length [ZMOD 2 ^ 64]
      ∧ ((∀ t, owes t cpu c = 0) → w.state.usage cpu c = l.length) := by
  obtain ⟨len, hlen, htally⟩ := h.inv
  obtain ⟨l, hl, hcount, hlt⟩ := hlen.hotList cpu c
  rw [hcount] at hlt
  refine ⟨l, hl, ?_, fun hzero => ?_⟩
  · have hmod := (htally cpu c).2
    rw [Finset.sum_apply, Finset.sum_apply, ← hcount] at hmod
    exact hmod
  · rw [hcount]
    refine htally.exact ?_ hlt
    rw [Finset.sum_apply, Finset.sum_apply]
    exact Finset.sum_eq_zero fun t _ => hzero t

end Worlds

-- ================================================================= exits

/-- A pop that aborts or finds the list empty changes nothing. -/
theorem rseqPop_exits (cpu class_ : Nat) (env : Nat → Env) (s : State)
    (h : (env 0).abort = true ∨ s.list (.hot cpu class_) = 0) :
    ∃ o, (rseqPop cpu class_).exec env s = some (o, s) := by
  unfold rseqPop
  by_cases habort : (env 0).abort = true
  · refine ⟨none, ?_⟩
    simp [Prog.atomic, Prog.bind, Prog.exec, habort]
  · have hempty := h.resolve_left habort
    refine ⟨some 0, ?_⟩
    simp [Prog.atomic, Prog.bind, Prog.exec, habort, popBatch, hempty,
      Prog.when]

/-- A push that aborts changes no counter and no list word. -/
theorem rseqPush_aborts (cpu class_ start tail n : Nat) (env : Nat → Env)
    (s : State) (h : (env 0).abort = true) :
    ∃ s', (rseqPush cpu class_ start tail n).exec env s = some (false, s')
      ∧ s'.usage = s.usage ∧ s'.list = s.list := by
  unfold rseqPush
  refine ⟨_, by simp [Prog.atomic, Prog.bind, Prog.exec, h, Prog.when]; rfl,
    ?_, ?_⟩
  · split <;> rfl
  · split <;> rfl

/-- No step of a push to a transfer list changes a counter. -/
theorem transferPush_keeps (k : Shelf) (class_ start tail cpu : Nat) :
    (transferPush cfg k class_ start tail cpu).Keeps State.usage := by
  unfold transferPush markClassNonempty cpuBitSet loadHint rmwHint
  refine (Prog.Keeps.atomic fun _ _ => rfl).bind fun oldHead => ?_
  refine ((Prog.Keeps.atomic fun _ _ => rfl).bind fun word => ?_).when
  exact (Prog.Keeps.atomic fun _ _ => rfl).when

-- ================================================================ result

/-- From any consistent start, at every step of any threads, the usage
word of every CPU and class and the updates under way are together the
length of the list, modulo `2^64`; the word is the length when none is
under way. Who owes an update makes it in its next step. A pop of an
empty list and an abort leave the words alone, and so does every step of
a push to a transfer list. -/
theorem usage_counts_blocks {T : Type} [Fintype T] [DecidableEq T]
    (cfg : Config) {w₀ w : World T State Env CacheCall Nat (Nat × Nat)}
    (h₀ : Begins cfg w₀) (hr : Reach (cacheApi T cfg) w₀ w) :
    (∃ owes : T → Debt, (∀ t, Due (w.thread t) (owes t)) ∧ ∀ cpu c,
      ∃ l, HotList w.state cpu c l
        ∧ w.state.usage cpu c + ∑ t, owes t cpu c ≡ l.length [ZMOD 2 ^ 64]
        ∧ ((∀ t, owes t cpu c = 0) → w.state.usage cpu c = l.length))
    ∧ (∀ cpu c (env : Nat → Env) s,
        (env 0).abort = true ∨ s.list (.hot cpu c) = 0 →
        ∃ o, (rseqPop cpu c).exec env s = some (o, s))
    ∧ (∀ cpu c start tail n (env : Nat → Env) s, (env 0).abort = true →
        ∃ s', (rseqPush cpu c start tail n).exec env s = some (false, s')
          ∧ s'.usage = s.usage ∧ s'.list = s.list)
    ∧ ∀ c start tail cpu,
        (transferPushBatch cfg c start tail cpu).Keeps State.usage
        ∧ (transferPushSingle cfg c start cpu).Keeps State.usage := by
  refine ⟨?_, rseqPop_exits, rseqPush_aborts, fun c start tail cpu =>
    ⟨transferPush_keeps _ _ _ _ _, transferPush_keeps _ _ _ _ _⟩⟩
  obtain ⟨L, held, owes, h⟩ := Watching.reach h₀.watching
    (fun _ x _ hx => cacheCall_watched x hx) hr
  exact ⟨owes, Watching.due h, Watching.counts h⟩

section Refilled

variable {T : Type} {c : Nat}

/-- A refill touches neither list words nor counters. -/
theorem allocMetadata_keeps (fuel class_ cpu : Nat) :
    (allocMetadata cfg fuel class_ cpu).Keeps
      fun s => (s.list, s.usage) := by
  unfold allocMetadata queuePop pageAlloc
  refine Prog.Keeps.bind ?_ fun pending => ?_
  · split
    · trivial
    · refine Prog.Keeps.atomic fun _ s => ?_
      dsimp only
      split <;> rfl
  · split
    · trivial
    · refine Prog.Keeps.bind (Prog.Keeps.atomic fun _ s => ?_) fun o => ?_
      · split <;> rfl
      · cases o with
        | none => trivial
        | some mem =>
            exact (Prog.Keeps.atomic fun _ _ => rfl).bind fun _ =>
              (Prog.Keeps.atomic fun _ _ => rfl).bind fun _ => trivial

theorem bulkFillFresh_keeps (fuel tid class_ cpu maxInit stamp : Nat) :
    (bulkFillFresh cfg fuel tid class_ cpu maxInit stamp).Keeps
      fun s => (s.list, s.usage) := by
  unfold bulkFillFresh carve
  refine (allocMetadata_keeps fuel class_ cpu).bind fun o => ?_
  cases o with
  | none => trivial
  | some metadata =>
      refine (Prog.Keeps.atomic fun _ _ => rfl).bind fun out => ?_
      dsimp only
      split
      · trivial
      · exact ((Prog.Keeps.atomic fun _ _ => rfl).when).bind fun _ => trivial

/-- The first refill of a system leaves its caller new blocks, the last
one among them, and the caches as they were. -/
theorem refilled_begins (m : Mem) {fuel tid cpu maxInit stamp : Nat}
    {env : Nat → Env} {head tail count : Nat} {s : State}
    (hc : c < numSizeClasses) (hmax : 0 < maxInit)
    (hrun : (bulkFillFresh cfg fuel tid c cpu maxInit stamp).exec env
      (State.new m) = some (some (head, tail, count), s)) :
    ∃ live, live.card = count ∧ (c, tail) ∈ live ∧ s.usage cpu c = 0
      ∧ Begins cfg (⟨s, live, fun _ => none⟩ :
        World T State Env CacheCall Nat (Nat × Nat)) := by
  have hnew : Inv cfg (State.new m) (0 + 0) := new_inv m
  obtain ⟨r, hinv, hne, hr⟩ :=
    (bulkFillFresh_safe fuel tid cpu stamp hc hmax).exec hnew hrun
  obtain ⟨l, q, t, rfl, -, rfl, hcount, hok⟩ := hr.batch
  rw [add_zero] at hinv
  have hkept := (bulkFillFresh_keeps fuel tid c cpu maxInit stamp).exec hrun
  obtain ⟨hlist, husage⟩ := Prod.mk.inj hkept
  have hlast : q ∈ l ++ [q] := List.mem_append_right _ (List.mem_singleton_self q)
  refine ⟨((l ++ [q] : List Part) : Multiset Part).map blockKey, ?_,
    Multiset.mem_map.2 ⟨q, hlast, ?_⟩, ?_, fun _ => rfl, ⟨_, ⟨rfl, fun p hp => ⟨c, hok p hp⟩⟩, hinv⟩,
    fun cpu' c' => ⟨[], ⟨?_, List.not_mem_nil⟩, ?_⟩⟩
  · rw [Multiset.card_map, Multiset.coe_card, List.length_append,
      List.length_singleton, hcount]
  · rw [blockKey, (hok q hlast).cls]
  · rw [husage]
    rfl
  · show s.list _ = 0
    rw [hlist]
    rfl
  · show s.usage cpu' c' = 0
    rw [husage]
    rfl

/-- A thread between the commit of its push and the update it owes. -/
theorem push_pending [DecidableEq T] {s : State}
    {live : Multiset (Nat × Nat)} {header : Nat} (t : T)
    (hheld : {(c, header)} ≤ live) (hlow : s.usage 0 c < cacheHighBlocks c) :
    ∃ n, Reach (cacheApi T cfg) ⟨s, live, fun _ => none⟩
      ⟨(pushChain (.hot 0 c) header header s).2, live - {(c, header)},
        Function.update (fun _ => none) t
          (some (.push c header, .step (fun _ => usageStep 0 c 1) n))⟩ := by
  have h₀ : Reach (cacheApi T cfg) _ ⟨s, live, fun _ => none⟩ := .init
  have h₁ := h₀.step (.call t (CacheCall.push c header) rfl hheld)
  -- the CPU and its counter are read, and the cache is not full
  have h₂ : Reach (cacheApi T cfg) _ ⟨s, live - {(c, header)},
      Function.update (fun _ => none) t (some (.push c header, Prog.bind
        (if s.usage 0 c ≥ cacheHighBlocks c then
          transferPushBatch cfg c header header 0
        else do
          let done ← rseqPush 0 c header header 1
          Prog.when (done = false) (pushLoop cfg c header 3))
        fun _ => .ret 0))⟩ := (Reach.one h₁ {}).one {}
  rw [if_neg (Nat.not_le.2 hlow)] at h₂
  exact ⟨_, h₂.one {}⟩

end Refilled

/-- A caller has pushed a new block and not yet counted it: the counter
says 0, the list holds the block, and the thread owes the update. -/
theorem usage_counts_blocks_pending :
    ∃ w : World (Fin 2) State Env CacheCall Nat (Nat × Nat),
      w.state.usage 0 0 = 0 ∧ ∃ owes : Fin 2 → Debt,
        (∀ t, Due (w.thread t) (owes t)) ∧ (∃ t, owes t 0 0 ≠ 0)
        ∧ ∃ l, HotList w.state 0 0 l ∧ l ≠ []
          ∧ w.state.usage 0 0 + ∑ t, owes t 0 0
            ≡ l.length [ZMOD 2 ^ 64] := by
  have hcheck : ((bulkFillFresh oneCpu 8 0 0 0 2 0).exec at65536
      (State.new fun _ => 0)).map Prod.fst = some (some (69680, 69712, 2)) := by
    decide +kernel
  obtain ⟨⟨o, s⟩, hrun, rfl⟩ := Option.map_eq_some_iff.1 hcheck
  obtain ⟨live, -, hmem, husage, h₀⟩ := refilled_begins (T := Fin 2)
    (fun _ => 0) (by decide) (by decide) hrun
  obtain ⟨n, hr⟩ := push_pending (0 : Fin 2)
    (Multiset.singleton_le.2 hmem) (by rw [husage]; decide)
  obtain ⟨owes, hdue, hcounts⟩ := (usage_counts_blocks oneCpu h₀ hr).1
  obtain ⟨l, hl, hmod, hexact⟩ := hcounts 0 0
  have hne : l ≠ [] := by
    rintro rfl
    have hhead : Function.update s.list (.hot 0 0) 69712 (.hot 0 0) = 0 :=
      hl.1
    rw [Function.update_self] at hhead
    cases hhead
  refine ⟨_, husage, owes, hdue, ?_, l, hl, hne, hmod⟩
  by_contra hnone
  have hlen := hexact fun t => not_not.1 fun h => hnone ⟨t, h⟩
  exact hne (List.length_eq_zero_iff.1 (hlen.symm.trans husage))

end RsMalloc.Slab
