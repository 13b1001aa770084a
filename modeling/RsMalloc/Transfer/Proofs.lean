/-
The transfer list is an atomic stack as long as the tag cannot wrap.

# The argument

The tag of the word is the number of successful updates modulo 256
(`tag_step`). A pop or a detach that loaded at update count `v` and
exchanges successfully at count `u` saw the same tag twice, so
`u ≡ v (mod 256)`; with `u - v ≤ 255` that forces `u = v`: the word
was never touched in between, and everything the pop read on the way
was the current list (`loadedAt_eq`). Until then a walk over relinked
blocks may have collected anything, and `LocalInv` says nothing about
it: its clauses about the walk are conditional on `updates = loadedAt`.

A push needs no such bound. Whatever happened since its load, a
successful exchange finds the head it wrote into its tail.

# Layout

- tagged words: `unpack_pack`, `tag_step`;
- the invariant `Inv`: the linked list is `list`, every block has one
  place, the tag counts updates, and each thread's position is
  justified (`LocalInv`);
- `tick_spec`: one step of one thread, with its effect on the stack;
- `inv_step`, `inv_run`, and the theorem.
-/
import RsMalloc.Transfer.Model
import Mathlib.Data.Nat.Bitwise

namespace RsMalloc.Transfer

-- ========================================================= tagged words

/-- The eight tag bits of a word. -/
def tagOf (word : BitVec 64) : BitVec 8 := word.extractLsb' 56 8

theorem getLsbD_tagMask {i : Nat} (hi : i < 64) :
    tagMask.getLsbD i = decide (56 ≤ i) := by
  revert i
  decide

theorem getLsbD_ptrMask {i : Nat} (hi : i < 64) :
    ptrMask.getLsbD i = decide (i < 56) := by
  unfold ptrMask
  rw [BitVec.getLsbD_not, getLsbD_tagMask hi]
  by_cases h : i < 56
  · simp [h, hi]
  · simp [h, Nat.not_lt.1 h]

theorem getLsbD_of_blockAddr {p : Ptr} (hp : p.toNat < 2 ^ 56) {i : Nat}
    (hi : 56 ≤ i) : p.getLsbD i = false := by
  show p.toNat.testBit i = false
  exact Nat.testBit_lt_two_pow
    (Nat.lt_of_lt_of_le hp (Nat.pow_le_pow_right (by decide) hi))

/-- A block address has no tag bits. -/
theorem and_ptrMask_of_lt {p : Ptr} (hp : p.toNat < 2 ^ 56) :
    p &&& ptrMask = p := by
  apply BitVec.eq_of_getLsbD_eq
  intro i hi
  rw [BitVec.getLsbD_and, getLsbD_ptrMask hi]
  by_cases h : i < 56
  · simp [h]
  · simp [getLsbD_of_blockAddr hp (Nat.not_lt.1 h)]

/-- The pointer survives packing, whatever the tag was. -/
theorem unpack_pack {p : Ptr} (hp : p.toNat < 2 ^ 56) (w : BitVec 64) :
    (unpackPtr (pack p w)).1 = p := by
  show pack p w &&& ptrMask = p
  apply BitVec.eq_of_getLsbD_eq
  intro i hi
  unfold pack
  rw [and_ptrMask_of_lt hp, BitVec.getLsbD_and, BitVec.getLsbD_or,
    BitVec.getLsbD_and, getLsbD_ptrMask hi, getLsbD_tagMask hi]
  by_cases h : i < 56
  · simp [h, Nat.not_le.2 h]
  · simp [h, getLsbD_of_blockAddr hp (Nat.not_lt.1 h)]

/-- Adding one tag step to a word adds one to its tag field. -/
theorem tag_field_succ (n : Nat) :
    (n + 2 ^ 56) % 2 ^ 64 / 2 ^ 56 % 2 ^ 8
      = (n / 2 ^ 56 % 2 ^ 8 + 1) % 2 ^ 8 := by
  omega

/-- Packing advances the tag by one, wrapping at 256. -/
theorem tagOf_pack (p : Ptr) (w : BitVec 64) :
    tagOf (pack p w) = tagOf w + 1 := by
  have hmask : tagOf (pack p w) = tagOf (w + tagStep) := by
    apply BitVec.eq_of_getLsbD_eq
    intro i hi
    unfold tagOf pack
    rw [BitVec.getLsbD_extractLsb', BitVec.getLsbD_extractLsb',
      BitVec.getLsbD_or, BitVec.getLsbD_and, BitVec.getLsbD_and,
      getLsbD_ptrMask (by omega), getLsbD_tagMask (by omega)]
    have hhigh : ¬ 56 + i < 56 := by omega
    simp [hhigh]
  have hstep : tagStep.toNat = 2 ^ 56 := by
    rw [tagStep, BitVec.toNat_shiftLeft]
    rfl
  rw [hmask]
  apply BitVec.eq_of_toNat_eq
  rw [tagOf, tagOf, BitVec.extractLsb'_toNat, BitVec.toNat_add,
    BitVec.toNat_add, hstep, BitVec.extractLsb'_toNat,
    Nat.shiftRight_eq_div_pow, Nat.shiftRight_eq_div_pow]
  exact tag_field_succ _

/-- Equal tags at two update counts at most 255 apart are one count:
the tag has not wrapped in between. -/
theorem count_eq_of_tag_eq {base : BitVec 8} {u v : Nat} (hvu : v ≤ u)
    (hnear : u - v ≤ 255)
    (htag : base + BitVec.ofNat 8 v = base + BitVec.ofNat 8 u) :
    v = u := by
  have hmod := congrArg BitVec.toNat htag
  simp only [BitVec.toNat_add, BitVec.toNat_ofNat] at hmod
  omega

-- ========================================================= the invariant

variable {Tid : Type}

/-- A load at `loadedAt` that saw `old`: the tag it saw is that count's
tag, and if nothing was exchanged since, the word is still `old`. -/
structure Loaded (base : BitVec 8) (s : State Tid) (old : BitVec 64)
    (loadedAt : Nat) : Prop where
  le : loadedAt ≤ s.updates
  tag : tagOf old = base + BitVec.ofNat 8 loadedAt
  head : (unpackPtr old).1 ≠ 0
  same : s.updates = loadedAt → s.word = old

/-- What a walk has collected, if nothing was exchanged since its load:
`count` blocks of the list, ending in `tail`, with `next` after them. -/
structure Walked (l : List Ptr) (batchSize : Nat) (tail : Ptr)
    (count : Nat) (next : Ptr) : Prop where
  pos : 1 ≤ count
  le_batch : count ≤ batchSize
  tail_eq : l[count - 1]? = some tail
  next_eq : next = (l.drop count).head?.getD 0

/-- What justifies a thread's position. -/
def LocalInv (base : BitVec 8) (s : State Tid) (t : Tid) : Local → Prop
  | .idle => True
  | .pushLoad start tail chain => Pushable s t start tail chain
  | .pushLink start tail chain _ => Pushable s t start tail chain
  | .pushCas start tail chain old =>
      Pushable s t start tail chain ∧ s.next tail = (unpackPtr old).1
  | .popLoad batchSize => 1 ≤ batchSize
  | .popFirst batchSize old loadedAt =>
      1 ≤ batchSize ∧ Loaded base s old loadedAt
  | .popWalk batchSize old loadedAt tail count next =>
      1 ≤ batchSize ∧ Loaded base s old loadedAt
        ∧ (s.updates = loadedAt → Walked s.list batchSize tail count next)
  | .detachLoad => True
  | .detachCas old loadedAt => Loaded base s old loadedAt

/-- The global invariant, over the tag the word had at update zero. -/
structure Inv (base : BitVec 8) (s : State Tid) : Prop where
  holds : Holds s s.list
  separated : Separated s
  addr_list : ∀ b ∈ s.list, BlockAddr b
  addr_own : ∀ t, ∀ b ∈ s.own t, BlockAddr b
  tag : tagOf s.word = base + BitVec.ofNat 8 s.updates
  locals : ∀ t, LocalInv base s t (s.pc t)

/-- A starting state satisfies the invariant, at its own tag. -/
theorem inv_init {s : State Tid} (h : Init s) :
    Inv (tagOf s.word - BitVec.ofNat 8 s.updates) s := by
  refine ⟨h.holds, h.separated, h.addr_list, h.addr_own, ?_, fun t => ?_⟩
  · exact (BitVec.sub_add_cancel _ _).symm
  · rw [h.idle t]
    trivial

variable {base : BitVec 8} {s s' : State Tid} {t : Tid} {start tail : Ptr}
  {chain l : List Ptr}

/-- The head of a linked list is its first block, null when it has
none. -/
theorem Holds.head_eq (h : Holds s l) :
    (unpackPtr s.word).1 = l.head?.getD 0 := by
  cases l with
  | nil => exact h
  | cons a l => exact h.1

/-- After `k` blocks the list continues at the next one, null when
there is none. -/
theorem Holds.drop (h : Holds s l) (k : Nat) :
    LinkedSeg s.next ((l.drop k).head?.getD 0) (l.drop k) 0 := by
  unfold Holds at h
  rw [← List.take_append_drop k l] at h
  obtain ⟨m, -, hrest⟩ := LinkedSeg.append_iff.1 h
  cases hd : l.drop k with
  | nil => rfl
  | cons a rest =>
      rw [hd] at hrest
      exact ⟨rfl, hrest.2⟩

/-- The `next` field of the block after `k` others. -/
theorem Holds.next_eq (h : Holds s l) {k : Nat} {a : Ptr}
    (ha : (l.drop k).head? = some a) :
    s.next a = (l.drop (k + 1)).head?.getD 0 := by
  have hseg := h.drop k
  cases hd : l.drop k with
  | nil => rw [hd] at ha; cases ha
  | cons b rest =>
      rw [hd, List.head?_cons] at ha
      injection ha with hba
      subst hba
      rw [hd] at hseg
      have hrest : l.drop (k + 1) = rest := by
        rw [← List.drop_drop, hd]
        rfl
      rw [hrest]
      cases rest with
      | nil => exact hseg.2
      | cons c rest => exact hseg.2.1

/-- A null word means an empty list. -/
theorem Inv.list_eq_nil (h : Inv base s) (hnull : (unpackPtr s.word).1 = 0) :
    s.list = [] := by
  cases hl : s.list with
  | nil => rfl
  | cons a l =>
      have hhead := h.holds.head_eq
      rw [hnull, hl] at hhead
      exact absurd hhead.symm
        (h.addr_list a (hl ▸ List.mem_cons_self ..)).1

/-- A load of the current word. -/
theorem Inv.loaded (h : Inv base s) (hhead : (unpackPtr s.word).1 ≠ 0) :
    Loaded base s s.word s.updates :=
  ⟨Nat.le_refl _, h.tag, hhead, fun _ => rfl⟩

variable {old : BitVec 64}

/-- A successful exchange of a pop or a detach whose tag cannot have
wrapped happens at the update count of its load. -/
theorem Loaded.eq_of_cas {loadedAt : Nat} (h : Inv base s)
    (hl : Loaded base s old loadedAt) (hcas : s.word = old)
    (hnear : s.updates - loadedAt ≤ 255) : s.updates = loadedAt := by
  have htag : base + BitVec.ofNat 8 loadedAt
      = base + BitVec.ofNat 8 s.updates := by
    rw [← hl.tag, ← h.tag, hcas]
  exact (count_eq_of_tag_eq hl.le hnear htag).symm

-- ==================================================== frames of one step

theorem Pushable.tail_mem (h : Pushable s t start tail chain) : tail ∈ chain :=
  List.mem_of_getLast? h.last

theorem Pushable.start_mem (h : Pushable s t start tail chain) :
    start ∈ chain := by
  cases chain with
  | nil => cases h.last
  | cons a l =>
      rw [h.linked.head_eq]
      exact List.mem_cons_self ..

/-- A pushable chain stays so while its owner keeps its blocks and
nobody writes their `next`. -/
theorem Pushable.frame (h : Pushable s t start tail chain)
    (hown : ∀ b ∈ s.own t, b ∈ s'.own t)
    (hnext : ∀ b ∈ s.own t, s'.next b = s.next b) :
    Pushable s' t start tail chain := by
  refine ⟨fun b hb => hown b (h.mine b hb), h.nodup, h.last, ?_⟩
  rw [hnext tail (h.mine tail h.tail_mem)]
  exact h.linked.congr fun b hb => hnext b (h.mine b hb)

/-- What a step may do to the word without disturbing a loaded thread:
leave it alone, or count an update. -/
def WordStep (s s' : State Tid) : Prop :=
  (s'.updates = s.updates ∧ s'.word = s.word ∧ s'.list = s.list)
    ∨ s.updates < s'.updates

theorem Loaded.frame {loadedAt : Nat} (hw : WordStep s s')
    (h : Loaded base s old loadedAt) : Loaded base s' old loadedAt := by
  rcases hw with ⟨hu, hword, -⟩ | hlt
  · refine ⟨hu ▸ h.le, h.tag, h.head, fun he => ?_⟩
    rw [hword]
    exact h.same (hu ▸ he)
  · have hle := h.le
    exact ⟨by omega, h.tag, h.head, fun he => by omega⟩

/-- A thread's justification survives every step that keeps its blocks
and their `next` fields. -/
theorem LocalInv.frame {l : Local} (hw : WordStep s s')
    (hown : ∀ b ∈ s.own t, b ∈ s'.own t)
    (hnext : ∀ b ∈ s.own t, s'.next b = s.next b) (h : LocalInv base s t l) :
    LocalInv base s' t l := by
  cases l with
  | idle => trivial
  | pushLoad start tail chain => exact Pushable.frame h hown hnext
  | pushLink start tail chain old => exact Pushable.frame h hown hnext
  | pushCas start tail chain old =>
      obtain ⟨hp, hlink⟩ := h
      refine ⟨hp.frame hown hnext, ?_⟩
      rw [hnext tail (hp.mine tail hp.tail_mem)]
      exact hlink
  | popLoad batchSize => exact h
  | popFirst batchSize old loadedAt => exact ⟨h.1, h.2.frame hw⟩
  | popWalk batchSize old loadedAt tail count next =>
      obtain ⟨hb, hl, hwalk⟩ := h
      refine ⟨hb, hl.frame hw, fun he => ?_⟩
      rcases hw with ⟨hu, -, hlist⟩ | hlt
      · rw [hlist]
        exact hwalk (hu ▸ he)
      · have hle := hl.le
        omega
  | detachLoad => trivial
  | detachCas old loadedAt => exact Loaded.frame hw h

-- ============================================================= the walk

/-- The block the walk continues at, unless it is at the end. -/
theorem head_drop_of_ne {k : Nat} (hne : (l.drop k).head?.getD 0 ≠ 0) :
    (l.drop k).head? = some ((l.drop k).head?.getD 0) := by
  cases hh : (l.drop k).head? with
  | none => rw [hh] at hne; exact absurd rfl hne
  | some a => rfl

/-- The first read of a pop collects the head. -/
theorem walked_first {batchSize loadedAt : Nat} (h : Inv base s)
    (hb : 1 ≤ batchSize) (hl : Loaded base s old loadedAt)
    (he : s.updates = loadedAt) :
    Walked s.list batchSize (unpackPtr old).1 1
      (s.next (unpackPtr old).1) := by
  have hhead : (unpackPtr old).1 = s.list.head?.getD 0 := by
    rw [← hl.same he]
    exact h.holds.head_eq
  have hsome : (s.list.drop 0).head? = some (unpackPtr old).1 := by
    rw [hhead]
    exact head_drop_of_ne (k := 0) (hhead ▸ hl.head)
  refine ⟨Nat.le_refl 1, hb, ?_, h.holds.next_eq hsome⟩
  rw [← hsome, List.drop_zero, List.head?_eq_getElem?]

/-- A further read collects the next block of the list. -/
theorem Walked.succ {batchSize count : Nat} {next : Ptr} (h : Inv base s)
    (hw : Walked s.list batchSize tail count next) (hlt : count < batchSize)
    (hne : next ≠ 0) :
    Walked s.list batchSize next (count + 1) (s.next next) := by
  have hsome : (s.list.drop count).head? = some next := by
    rw [hw.next_eq] at hne ⊢
    exact head_drop_of_ne hne
  refine ⟨by omega, hlt, ?_, h.holds.next_eq hsome⟩
  rw [Nat.add_sub_cancel, ← hsome, List.head?_drop]

/-- A walk that stopped has collected `min batchSize length` blocks. -/
theorem Walked.count_eq {batchSize count : Nat} {next : Ptr} (h : Inv base s)
    (hw : Walked s.list batchSize tail count next)
    (hstop : ¬ (count < batchSize ∧ next ≠ 0)) :
    count = min batchSize s.list.length := by
  have hpos := hw.pos
  have hle := hw.le_batch
  have hlen : count - 1 < s.list.length :=
    (List.getElem?_eq_some_iff.1 hw.tail_eq).1
  by_cases hlt : count < batchSize
  · -- stopped at a null `next`: the list ends here
    have hnull : next = 0 := by
      by_contra hne
      exact hstop ⟨hlt, hne⟩
    have hend : s.list.drop count = [] := by
      cases hd : s.list.drop count with
      | nil => rfl
      | cons a rest =>
          have hmem : a ∈ s.list :=
            List.mem_of_mem_drop (i := count) (hd ▸ List.mem_cons_self ..)
          have hzero := hw.next_eq
          rw [hnull, hd] at hzero
          exact absurd hzero.symm (h.addr_list a hmem).1
    have hge : s.list.length ≤ count := List.drop_eq_nil_iff.1 hend
    omega
  · omega

/-- Changing who owns which blocks keeps the invariant when every
thread in a loop keeps its own. -/
theorem inv_own {own : Tid → List Ptr} (h : Inv base s)
    (hsep : Separated { s with own := own })
    (haddr : ∀ t, ∀ b ∈ own t, BlockAddr b)
    (hkeep : ∀ t, s.pc t = .idle ∨ ∀ b ∈ s.own t, b ∈ own t) :
    Inv base { s with own := own } := by
  refine ⟨h.holds, hsep, h.addr_list, haddr, h.tag, fun t => ?_⟩
  rcases hkeep t with hidle | hsub
  · show LocalInv base _ t (s.pc t)
    rw [hidle]
    trivial
  · exact LocalInv.frame (s := s) (Or.inl ⟨rfl, rfl, rfl⟩) hsub
      (fun _ _ => rfl) (h.locals t)

variable [DecidableEq Tid]

/-- Moving one thread, with a justification for where it goes. -/
theorem inv_goto {l : Local} (h : Inv base s) (hl : LocalInv base s t l) :
    Inv base (s.goto t l) := by
  refine ⟨h.holds, ⟨h.separated.1, h.separated.2, h.separated.3,
    h.separated.4⟩, h.addr_list, h.addr_own, h.tag, fun u => ?_⟩
  have hframe : ∀ {l' : Local}, LocalInv base s u l' →
      LocalInv base (s.goto t l) u l' := fun hl' =>
    LocalInv.frame (s := s) (Or.inl ⟨rfl, rfl, rfl⟩) (fun _ hb => hb)
      (fun _ _ => rfl) hl'
  show LocalInv base (s.goto t l) u (Function.update s.pc t l u)
  by_cases hut : u = t
  · subst hut
    rw [Function.update_self]
    exact hframe hl
  · rw [Function.update_of_ne hut]
    exact hframe (h.locals u)

/-- Writing the `next` field of a block private to `t` keeps the
invariant, if `t` itself stays justified. -/
theorem inv_write {b v : Ptr} (h : Inv base s) (hb : b ∈ s.own t)
    (hself : LocalInv base { s with next := Function.update s.next b v } t
      (s.pc t)) : Inv base { s with next := Function.update s.next b v } := by
  refine ⟨?_, ⟨h.separated.1, h.separated.2, h.separated.3,
    h.separated.4⟩, h.addr_list, h.addr_own, h.tag, fun u => ?_⟩
  · exact LinkedSeg.update_of_notMem (h.separated.own_list t b hb) h.holds
  · by_cases hut : u = t
    · subst hut
      exact hself
    · refine LocalInv.frame (s := s) (Or.inl ⟨rfl, rfl, rfl⟩)
        (fun _ hc => hc) (fun c hc => ?_) (h.locals u)
      refine Function.update_of_ne ?_ _ _
      rintro rfl
      exact h.separated.own_own t u (Ne.symm hut) c hb hc

variable {word : BitVec 64}

/-- After a successful exchange only the exchanging thread's position
and blocks changed, and every other load is out of date. -/
theorem inv_exchange {list own : List Ptr} (h : Inv base s)
    (hholds : LinkedSeg s.next (unpackPtr word).1 list 0)
    (hsep : Separated (s.exchange t word list own))
    (hlist : ∀ b ∈ list, BlockAddr b) (hown : ∀ b ∈ own, BlockAddr b)
    (htag : tagOf word = tagOf s.word + 1) :
    Inv base (s.exchange t word list own) := by
  refine ⟨hholds, hsep, hlist, fun u => ?_, ?_, fun u => ?_⟩
  · show ∀ b ∈ Function.update s.own t own u, BlockAddr b
    by_cases hut : u = t
    · subst hut
      rw [Function.update_self]
      exact hown
    · rw [Function.update_of_ne hut]
      exact h.addr_own u
  · show tagOf word = base + BitVec.ofNat 8 (s.updates + 1)
    rw [htag, h.tag, BitVec.ofNat_add, BitVec.add_assoc]
    rfl
  · show LocalInv base _ u (Function.update s.pc t .idle u)
    by_cases hut : u = t
    · subst hut
      rw [Function.update_self]
      trivial
    · rw [Function.update_of_ne hut]
      refine LocalInv.frame (Or.inr (Nat.lt_succ_self _)) (fun b hb => ?_)
        (fun _ _ => rfl) (h.locals u)
      show b ∈ Function.update s.own t own u
      rw [Function.update_of_ne hut]
      exact hb

-- ========================================================= the exchanges

/-- Splicing a private chain in front of the list. -/
theorem separated_push (h : Separated s) (hp : Pushable s t start tail chain) :
    Separated (s.exchange t word (chain ++ s.list)
      ((s.own t).filter (· ∉ chain))) := by
  refine ⟨?_, fun u => ?_, fun u b hb hmem => ?_, fun u v huv b hb => ?_⟩
  · refine List.nodup_append.2 ⟨hp.nodup, h.list_nodup, ?_⟩
    rintro a ha b hb rfl
    exact h.own_list t a (hp.mine a ha) hb
  · show (Function.update s.own t _ u).Nodup
    by_cases hut : u = t
    · subst hut
      rw [Function.update_self]
      exact (h.own_nodup u).filter _
    · rw [Function.update_of_ne hut]
      exact h.own_nodup u
  · replace hb : b ∈ Function.update s.own t _ u := hb
    replace hmem : b ∈ chain ++ s.list := hmem
    by_cases hut : u = t
    · subst hut
      rw [Function.update_self] at hb
      simp only [List.mem_filter, decide_eq_true_eq] at hb
      rcases List.mem_append.1 hmem with hc | hl
      · exact hb.2 hc
      · exact h.own_list u b hb.1 hl
    · rw [Function.update_of_ne hut] at hb
      rcases List.mem_append.1 hmem with hc | hl
      · exact h.own_own u t hut b hb (hp.mine b hc)
      · exact h.own_list u b hb hl
  · replace hb : b ∈ Function.update s.own t _ u := hb
    show b ∉ Function.update s.own t _ v
    have hsub : ∀ w, b ∈ Function.update s.own t
        ((s.own t).filter (· ∉ chain)) w → b ∈ s.own w := by
      intro w hw
      by_cases hwt : w = t
      · subst hwt
        rw [Function.update_self] at hw
        exact (List.mem_filter.1 hw).1
      · rwa [Function.update_of_ne hwt] at hw
    exact fun hbv => h.own_own u v huv b (hsub u hb) (hsub v hbv)

/-- Taking a prefix of the list private. -/
theorem separated_take (h : Separated s) (n : Nat) :
    Separated (s.exchange t word (s.list.drop n)
      (s.list.take n ++ s.own t)) := by
  have hsplit : (s.list.take n ++ s.list.drop n).Nodup := by
    rw [List.take_append_drop]
    exact h.list_nodup
  obtain ⟨htake, hdrop, hdisj⟩ := List.nodup_append.1 hsplit
  refine ⟨hdrop, fun u => ?_, fun u b hb hmem => ?_,
    fun u v huv b hb hbv => ?_⟩
  · show (Function.update s.own t _ u).Nodup
    by_cases hut : u = t
    · subst hut
      rw [Function.update_self]
      refine List.nodup_append.2 ⟨htake, h.own_nodup u, ?_⟩
      rintro a ha b hb rfl
      exact h.own_list u a hb (List.mem_of_mem_take ha)
    · rw [Function.update_of_ne hut]
      exact h.own_nodup u
  · replace hb : b ∈ Function.update s.own t _ u := hb
    replace hmem : b ∈ s.list.drop n := hmem
    by_cases hut : u = t
    · subst hut
      rw [Function.update_self] at hb
      rcases List.mem_append.1 hb with ht | ho
      · exact hdisj b ht b hmem rfl
      · exact h.own_list u b ho (List.mem_of_mem_drop hmem)
    · rw [Function.update_of_ne hut] at hb
      exact h.own_list u b hb (List.mem_of_mem_drop hmem)
  · replace hb : b ∈ Function.update s.own t _ u := hb
    replace hbv : b ∈ Function.update s.own t _ v := hbv
    -- at most one of the two threads is `t`
    by_cases hut : u = t
    · subst hut
      rw [Function.update_self] at hb
      rw [Function.update_of_ne (Ne.symm huv)] at hbv
      rcases List.mem_append.1 hb with ht | ho
      · exact h.own_list v b hbv (List.mem_of_mem_take ht)
      · exact h.own_own u v huv b ho hbv
    · rw [Function.update_of_ne hut] at hb
      by_cases hvt : v = t
      · subst hvt
        rw [Function.update_self] at hbv
        rcases List.mem_append.1 hbv with ht | ho
        · exact h.own_list u b hb (List.mem_of_mem_take ht)
        · exact h.own_own u v huv b hb ho
      · rw [Function.update_of_ne hvt] at hbv
        exact h.own_own u v huv b hb hbv

/-- A successful push splices its chain in front of the current list,
however many updates fell between its load and its exchange. -/
theorem inv_push (h : Inv base s) (hp : Pushable s t start tail chain)
    (hlink : s.next tail = (unpackPtr s.word).1) :
    Inv base (s.exchange t (pack start s.word) (chain ++ s.list)
      ((s.own t).filter (· ∉ chain))) := by
  have hchain : ∀ b ∈ chain, BlockAddr b := fun b hb =>
    h.addr_own t b (hp.mine b hb)
  refine inv_exchange h ?_ (separated_push h.separated hp) ?_ ?_
    (tagOf_pack _ _)
  · rw [unpack_pack (hchain start hp.start_mem).2]
    refine LinkedSeg.append_iff.2 ⟨_, hp.linked, ?_⟩
    rw [hlink]
    exact h.holds
  · intro b hb
    rcases List.mem_append.1 hb with hb | hb
    · exact hchain b hb
    · exact h.addr_list b hb
  · intro b hb
    exact h.addr_own t b (List.mem_filter.1 hb).1

/-- Exchanging the word for the list after its first `n` blocks. -/
theorem inv_take (h : Inv base s) (n : Nat) :
    Inv base (s.exchange t
      (pack ((s.list.drop n).head?.getD 0) s.word) (s.list.drop n)
      (s.list.take n ++ s.own t)) := by
  have hhead : ((s.list.drop n).head?.getD 0).toNat < 2 ^ 56 := by
    cases hd : s.list.drop n with
    | nil => exact Nat.two_pow_pos 56
    | cons a rest =>
        exact (h.addr_list a (List.mem_of_mem_drop (i := n)
          (hd ▸ List.mem_cons_self ..))).2
  refine inv_exchange h ?_ (separated_take h.separated n) ?_ ?_
    (tagOf_pack _ _)
  · rw [unpack_pack hhead]
    exact h.holds.drop n
  · exact fun b hb => h.addr_list b (List.mem_of_mem_drop hb)
  · intro b hb
    rcases List.mem_append.1 hb with hb | hb
    · exact h.addr_list b (List.mem_of_mem_take hb)
    · exact h.addr_own t b hb

/-- A place of a block after thread `t`'s blocks changed to `own`. -/
theorem present_update {own : List Ptr} {b : Ptr}
    (hown : s'.own = Function.update s.own t own) :
    (b ∈ s'.list ∨ ∃ u, b ∈ s'.own u)
      ↔ (b ∈ s'.list ∨ b ∈ own ∨ ∃ u, u ≠ t ∧ b ∈ s.own u) := by
  refine or_congr_right ?_
  rw [hown]
  constructor
  · rintro ⟨u, hu⟩
    by_cases hut : u = t
    · subst hut
      rw [Function.update_self] at hu
      exact Or.inl hu
    · rw [Function.update_of_ne hut] at hu
      exact Or.inr ⟨u, hut, hu⟩
  · rintro (hb | ⟨u, hut, hu⟩)
    · exact ⟨t, by rwa [Function.update_self]⟩
    · exact ⟨u, by rwa [Function.update_of_ne hut]⟩

/-- The place of a block before, split at thread `t`. -/
theorem present_split (t : Tid) {b : Ptr} :
    (b ∈ s.list ∨ ∃ u, b ∈ s.own u)
      ↔ (b ∈ s.list ∨ b ∈ s.own t ∨ ∃ u, u ≠ t ∧ b ∈ s.own u) := by
  refine or_congr_right ⟨?_, ?_⟩
  · rintro ⟨u, hu⟩
    by_cases hut : u = t
    · exact Or.inl (hut ▸ hu)
    · exact Or.inr ⟨u, hut, hu⟩
  · rintro (hb | ⟨u, -, hu⟩)
    · exact ⟨t, hb⟩
    · exact ⟨u, hu⟩

/-- No step of a loop loses or invents a block. -/
theorem Atomic.conserves {obs : Obs} (h : Atomic t s s' obs) (b : Ptr) :
    (b ∈ s'.list ∨ ∃ u, b ∈ s'.own u)
      ↔ (b ∈ s.list ∨ ∃ u, b ∈ s.own u) := by
  cases obs with
  | silent => rw [h.1, h.2]
  | empty => rw [h.2.1, h.2.2, h.1]
  | pushed start tail =>
      obtain ⟨chain, hp, hlist, hown⟩ := h
      rw [present_update hown, present_split t, hlist, List.mem_append,
        List.mem_filter]
      by_cases hc : b ∈ chain
      · simp [hc, hp.mine b hc]
      · simp [hc]
  | popped batchSize head tail count =>
      obtain ⟨-, -, -, -, hlist, hown⟩ := h
      rw [present_update hown, present_split t, hlist, List.mem_append]
      conv_rhs => rw [← List.take_append_drop count s.list, List.mem_append]
      tauto
  | detached head =>
      obtain ⟨-, hlist, hown⟩ := h
      rw [present_update hown, present_split t, hlist, List.mem_append]
      simp [or_assoc]

-- ============================================================== one step

/-- A load, seen by a pop or a detach: empty, or a fresh `Loaded`. -/
theorem inv_load {obs : Obs} {l : Local} (h : Inv base s)
    (hl : (unpackPtr s.word).1 ≠ 0 → LocalInv base s t l)
    (hstep : (if (unpackPtr s.word).1 = 0 then some (s.goto t .idle, Obs.empty)
      else some (s.goto t l, Obs.silent)) = some (s', obs)) :
    Inv base s' ∧ Atomic t s s' obs := by
  by_cases hnull : (unpackPtr s.word).1 = 0
  · rw [if_pos hnull] at hstep
    cases hstep
    have hnil := h.list_eq_nil hnull
    exact ⟨inv_goto h trivial, hnil, hnil, rfl⟩
  · rw [if_neg hnull] at hstep
    cases hstep
    exact ⟨inv_goto h (hl hnull), rfl, rfl⟩

/-- One step of one thread keeps the invariant and acts on the stack
as the operation it reports. -/
theorem tick_spec {obs : Obs} (h : Inv base s) (hfresh : TagFresh t s)
    (hstep : tick t s = some (s', obs)) : Inv base s' ∧ Atomic t s s' obs := by
  have hlocal := h.locals t
  unfold tick at hstep
  unfold TagFresh at hfresh
  cases hpc : s.pc t with
  | idle => rw [hpc] at hstep; cases hstep
  | pushLoad start tail chain =>
      rw [hpc] at hstep hlocal
      cases hstep
      exact ⟨inv_goto h hlocal, rfl, rfl⟩
  | pushLink start tail chain old =>
      rw [hpc] at hstep hlocal
      cases hstep
      have hp : Pushable s t start tail chain := hlocal
      have htail : tail ∈ s.own t := hp.mine tail hp.tail_mem
      -- relinking the tail keeps the chain and redirects its end
      have hp' : Pushable { s with
          next := Function.update s.next tail (unpackPtr old).1 } t
          start tail chain := by
        refine ⟨hp.mine, hp.nodup, hp.last, ?_⟩
        obtain ⟨front, rfl⟩ := List.getLast?_eq_some_iff.1 hp.last
        show LinkedSeg (Function.update s.next tail _) start _
          (Function.update s.next tail _ tail)
        rw [Function.update_self]
        exact LinkedSeg.update_last hp.nodup hp.linked
      have hinv := inv_write (v := (unpackPtr old).1) h htail
        (by rw [hpc]; exact hp')
      refine ⟨inv_goto hinv ⟨hp', ?_⟩, rfl, rfl⟩
      exact Function.update_self ..
  | pushCas start tail chain old =>
      rw [hpc] at hstep hlocal
      obtain ⟨hp, hlink⟩ := hlocal
      by_cases hcas : s.word = old
      · subst hcas
        simp only [if_true] at hstep
        cases hstep
        exact ⟨inv_push h hp hlink, chain, hp, rfl, rfl⟩
      · simp only [if_neg hcas] at hstep
        cases hstep
        exact ⟨inv_goto h hp, rfl, rfl⟩
  | popLoad batchSize =>
      rw [hpc] at hstep hlocal
      exact inv_load (l := .popFirst batchSize s.word s.updates) h
        (fun hhead => ⟨hlocal, h.loaded hhead⟩) hstep
  | popFirst batchSize old loadedAt =>
      rw [hpc] at hstep hlocal
      cases hstep
      obtain ⟨hb, hl⟩ := hlocal
      exact ⟨inv_goto h ⟨hb, hl, fun he => walked_first h hb hl he⟩, rfl, rfl⟩
  | popWalk batchSize old loadedAt tail count next =>
      rw [hpc] at hstep hlocal hfresh
      obtain ⟨hb, hl, hwalk⟩ := hlocal
      by_cases hgo : count < batchSize ∧ next ≠ 0
      · simp only [if_pos hgo] at hstep
        cases hstep
        refine ⟨inv_goto h ⟨hb, hl, fun he => ?_⟩, rfl, rfl⟩
        exact (hwalk he).succ h hgo.1 hgo.2
      · simp only [if_neg hgo] at hstep
        by_cases hcas : s.word = old
        · simp only [if_pos hcas] at hstep
          -- the tag cannot have wrapped, so the walk read the list
          have he := hl.eq_of_cas h hcas (hfresh hgo)
          have hw := hwalk he
          have hcount := hw.count_eq h hgo
          have hhead : s.list.head? = some (unpackPtr old).1 := by
            have hh := h.holds.head_eq
            rw [hcas] at hh
            rw [hh]
            exact head_drop_of_ne (k := 0) (hh ▸ hl.head)
          rw [← hcount] at hstep
          cases hstep
          refine ⟨?_, hw.pos, hcount, hhead, hw.tail_eq, rfl, rfl⟩
          have hinv := inv_take (t := t) h count
          rw [← hw.next_eq, hcas] at hinv
          exact hinv
        · simp only [if_neg hcas] at hstep
          cases hstep
          exact ⟨inv_goto h hb, rfl, rfl⟩
  | detachLoad =>
      rw [hpc] at hstep
      exact inv_load (l := .detachCas s.word s.updates) h
        (fun hhead => h.loaded hhead) hstep
  | detachCas old loadedAt =>
      rw [hpc] at hstep hlocal
      by_cases hcas : s.word = old
      · simp only [if_pos hcas] at hstep
        have hhead : s.list.head? = some (unpackPtr old).1 := by
          have hh := h.holds.head_eq
          rw [hcas] at hh
          rw [hh]
          exact head_drop_of_ne (k := 0) (hh ▸ hlocal.head)
        cases hstep
        have hinv := inv_take (t := t) h s.list.length
        rw [List.drop_length, List.take_length, hcas] at hinv
        exact ⟨hinv, hhead, rfl, rfl⟩
      · simp only [if_neg hcas] at hstep
        exact inv_load (l := .detachCas s.word s.updates) h
          (fun hhead => h.loaded hhead) hstep

-- ================================================================== runs

theorem inv_adopt {b : Ptr} (h : Inv base s) (haddr : BlockAddr b)
    (hlist : b ∉ s.list) (hown : ∀ u, b ∉ s.own u) :
    Inv base { s with own := Function.update s.own t (b :: s.own t) } := by
  -- membership after: the new block for `t`, or as before
  have hmem : ∀ {u c}, c ∈ Function.update s.own t (b :: s.own t) u →
      (u = t ∧ c = b) ∨ c ∈ s.own u := by
    intro u c hc
    by_cases hut : u = t
    · subst hut
      rw [Function.update_self] at hc
      rcases List.mem_cons.1 hc with hcb | hc
      · exact Or.inl ⟨rfl, hcb⟩
      · exact Or.inr hc
    · rw [Function.update_of_ne hut] at hc
      exact Or.inr hc
  refine inv_own h ⟨h.separated.list_nodup, fun u => ?_, fun u c hc => ?_,
    fun u v huv c hc hcv => ?_⟩ (fun u c hc => ?_)
    fun u => Or.inr fun c hc => ?_
  · show (Function.update s.own t (b :: s.own t) u).Nodup
    by_cases hut : u = t
    · subst hut
      rw [Function.update_self]
      exact List.nodup_cons.2 ⟨hown u, h.separated.own_nodup u⟩
    · rw [Function.update_of_ne hut]
      exact h.separated.own_nodup u
  · rcases hmem hc with ⟨-, rfl⟩ | hc
    · exact hlist
    · exact h.separated.own_list u c hc
  · rcases hmem hc with ⟨hut, rfl⟩ | hc
    · rcases hmem hcv with ⟨hvt, -⟩ | hcv
      · exact huv (hut.trans hvt.symm)
      · exact hown v hcv
    · rcases hmem hcv with ⟨-, hcb⟩ | hcv
      · exact hown u (hcb ▸ hc)
      · exact h.separated.own_own u v huv c hc hcv
  · rcases hmem hc with ⟨-, rfl⟩ | hc
    · exact haddr
    · exact h.addr_own u c hc
  · by_cases hut : u = t
    · subst hut
      rw [Function.update_self]
      exact List.mem_cons_of_mem _ hc
    · rw [Function.update_of_ne hut]
      exact hc

theorem inv_give {u : Tid} {b : Ptr} (h : Inv base s) (hidle : s.pc t = .idle)
    (htu : t ≠ u) (hb : b ∈ s.own t) :
    Inv base { s with own := Function.update (Function.update s.own t
      ((s.own t).filter (· ≠ b))) u (b :: s.own u) } := by
  have hown : ∀ v, Function.update (Function.update s.own t
      ((s.own t).filter (· ≠ b))) u (b :: s.own u) v
      = if v = u then b :: s.own u
        else if v = t then (s.own t).filter (· ≠ b) else s.own v := by
    intro v
    by_cases hvu : v = u
    · subst hvu
      simp
    · by_cases hvt : v = t
      · subst hvt
        simp [hvu]
      · simp [hvu, hvt]
  -- membership after: `b` for `u`, or as before and not `b` at `t`
  have hmem : ∀ {v c}, c ∈ Function.update (Function.update s.own t
      ((s.own t).filter (· ≠ b))) u (b :: s.own u) v →
      (v = u ∧ c = b) ∨ (c ∈ s.own v ∧ c ≠ b) := by
    intro v c hc
    rw [hown v] at hc
    by_cases hvu : v = u
    · rw [if_pos hvu] at hc
      rcases List.mem_cons.1 hc with hcb | hc
      · exact Or.inl ⟨hvu, hcb⟩
      · refine Or.inr ⟨hvu ▸ hc, fun hcb => ?_⟩
        exact h.separated.own_own t u htu b hb (hcb ▸ hc)
    · rw [if_neg hvu] at hc
      by_cases hvt : v = t
      · rw [if_pos hvt] at hc
        simp only [List.mem_filter, decide_eq_true_eq] at hc
        exact Or.inr ⟨hvt ▸ hc.1, hc.2⟩
      · rw [if_neg hvt] at hc
        refine Or.inr ⟨hc, ?_⟩
        rintro rfl
        exact h.separated.own_own t v (Ne.symm hvt) c hb hc
  refine inv_own h ⟨h.separated.list_nodup, fun v => ?_, fun v c hc => ?_,
    fun v w hvw c hc hcw => ?_⟩ (fun v c hc => ?_) fun v => ?_
  · show (Function.update (Function.update s.own t _) u _ v).Nodup
    rw [hown v]
    by_cases hvu : v = u
    · rw [if_pos hvu]
      refine List.nodup_cons.2 ⟨?_, h.separated.own_nodup u⟩
      exact h.separated.own_own t u htu b hb
    · rw [if_neg hvu]
      by_cases hvt : v = t
      · rw [if_pos hvt]
        exact (h.separated.own_nodup t).filter _
      · rw [if_neg hvt]
        exact h.separated.own_nodup v
  · rcases hmem hc with ⟨-, rfl⟩ | ⟨hc, -⟩
    · exact h.separated.own_list t c hb
    · exact h.separated.own_list v c hc
  · rcases hmem hc with ⟨hv, hcb⟩ | ⟨hc, hcb⟩
    · rcases hmem hcw with ⟨hw, -⟩ | ⟨-, hne⟩
      · exact hvw (hv.trans hw.symm)
      · exact hne hcb
    · rcases hmem hcw with ⟨-, he⟩ | ⟨hcw, -⟩
      · exact hcb he
      · exact h.separated.own_own v w hvw c hc hcw
  · rcases hmem hc with ⟨-, rfl⟩ | ⟨hc, -⟩
    · exact h.addr_own t c hb
    · exact h.addr_own v c hc
  · by_cases hvt : v = t
    · exact Or.inl (hvt ▸ hidle)
    · refine Or.inr fun c hc => ?_
      rw [hown v]
      by_cases hvu : v = u
      · rw [if_pos hvu]
        exact List.mem_cons_of_mem _ (hvu ▸ hc)
      · rw [if_neg hvu, if_neg hvt]
        exact hc

/-- A chain private to an idle thread may be pushed, a pop or a detach
started, a private block relinked, handed over or taken in: all keep
the invariant, as does a step inside a loop. -/
theorem inv_step (h : Inv base s) (hstep : Step s s') : Inv base s' := by
  cases hstep with
  | push t start tail chain hidle hp => exact inv_goto h hp
  | pop t batchSize hidle hb => exact inv_goto h hb
  | detach t hidle => exact inv_goto h trivial
  | tick t hfresh htick => exact (tick_spec h hfresh htick).1
  | relink t b v hidle hb =>
      refine inv_write h hb ?_
      rw [hidle]
      trivial
  | give t u b hidle htu hb =>
      exact inv_give h hidle htu hb
  | adopt t b haddr hlist hown =>
      exact inv_adopt h haddr hlist hown

theorem inv_run {s₀ : State Tid} (h₀ : Inv base s₀) (hrun : Run s₀ s) :
    Inv base s := by
  induction hrun with
  | refl => exact h₀
  | step _ hstep ih => exact inv_step ih hstep

/-- The tagged transfer list is an atomic stack. In every reachable
state the blocks linked from the word are the history list and every
block has one place; and every further step of a thread, whatever ran
in between, is silent for the stack or acts as one atomic push of its
chain, one atomic pop of the first `min batchSize length` blocks, or
one atomic detach, and hands exactly these blocks over. -/
theorem transfer_list_is_atomic_stack {s₀ s : State Tid} (h₀ : Init s₀)
    (hrun : Run s₀ s) :
    Holds s s.list ∧ Separated s
      ∧ ∀ t s' obs, TagFresh t s → tick t s = some (s', obs) →
          Holds s' s'.list ∧ Separated s' ∧ Atomic t s s' obs
            ∧ ∀ b, (b ∈ s'.list ∨ ∃ u, b ∈ s'.own u)
                ↔ (b ∈ s.list ∨ ∃ u, b ∈ s.own u) := by
  have hinv := inv_run (inv_init h₀) hrun
  refine ⟨hinv.holds, hinv.separated, fun t s' obs hfresh htick => ?_⟩
  obtain ⟨hinv', hatomic⟩ := tick_spec hinv hfresh htick
  exact ⟨hinv'.holds, hinv'.separated, hatomic, hatomic.conserves⟩

/-- Two threads and a list of one block. -/
def oneBlock : State Bool where
  word := 0x10#64
  next := fun _ => 0
  pc := fun _ => .idle
  updates := 0
  list := [0x10#64]
  own := fun _ => []

/-- Thread `false` has loaded the word and read the block's `next`. -/
def oneBlockWalked : State Bool :=
  ((oneBlock.goto false (.popLoad 1)).goto false
    (.popFirst 1 0x10#64 0)).goto false (.popWalk 1 0x10#64 0 0x10#64 1 0)

theorem oneBlock_init : Init oneBlock := by
  refine ⟨fun _ => rfl, ⟨rfl, rfl⟩, ⟨?_, ?_, ?_, ?_⟩, ?_, ?_⟩
  · exact List.nodup_cons.2 ⟨List.not_mem_nil, List.nodup_nil⟩
  · exact fun _ => List.nodup_nil
  · exact fun _ b hb => absurd hb List.not_mem_nil
  · exact fun _ _ _ b hb => absurd hb List.not_mem_nil
  · intro b hb
    rw [List.mem_singleton.1 hb]
    exact ⟨by decide, by decide⟩
  · exact fun _ b hb => absurd hb List.not_mem_nil

theorem oneBlock_run : Run oneBlock oneBlockWalked := by
  have hpop : Run oneBlock (oneBlock.goto false (.popLoad 1)) :=
    .step .refl (.pop false 1 rfl (Nat.le_refl 1))
  have hload : Run oneBlock ((oneBlock.goto false (.popLoad 1)).goto false
      (.popFirst 1 0x10#64 0)) :=
    .step hpop (.tick false trivial rfl)
  exact .step hload (.tick false trivial rfl)

/-- The theorem at work on that run: the exchange pops the block. -/
theorem transfer_list_is_atomic_stack_oneBlock :
    Init oneBlock ∧ Run oneBlock oneBlockWalked
      ∧ ∃ s', tick false oneBlockWalked
            = some (s', .popped 1 0x10#64 0x10#64 1)
          ∧ Holds s' s'.list ∧ s'.list = [] ∧ s'.own false = [0x10#64] := by
  refine ⟨oneBlock_init, oneBlock_run, _, rfl, ?_, rfl, rfl⟩
  exact ((transfer_list_is_atomic_stack oneBlock_init oneBlock_run).2.2
    false _ _ (fun _ => Nat.zero_le _) rfl).1

end RsMalloc.Transfer
