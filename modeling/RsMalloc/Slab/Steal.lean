/-
Stealing finds every block it could take.

The loops of `first_nonempty_cpu_in_range`, from the inside out: over
the bits of a word, over the words of an interval, over the intervals of
the nodes. Each is described by `Outcome`: either one CPU has given up
blocks, or nothing has changed but hints and `miss` says which CPUs have
an empty normal list. The pass that respects `being_stolen` never has to
find anything: the forced pass behind it does.
-/
import RsMalloc.Numa.Proofs
import RsMalloc.Slab.Transfers

namespace RsMalloc.Slab

open Conc Numa

variable {cfg : Config} {E : Env → Prop} {halts : Prop}
  {class_ cpu batchSize : Nat} {s : State}

-- ============================================================== outcomes

/-- What a search ends with; `miss` is what is known if it found
nothing. -/
def Outcome (cfg : Config) (class_ batchSize : Nat) (s : State)
    (miss : Prop) : Option Batch → State → Prop
  | some b, s' => Took cfg class_ batchSize s b s'
  | none, s' => Searched cfg class_ s s' ∧ miss

theorem Outcome.mono {miss miss' : Prop} {out : Option Batch} {s' : State}
    (h : Outcome cfg class_ batchSize s miss out s') (hm : miss → miss') :
    Outcome cfg class_ batchSize s miss' out s' := by
  cases out with
  | some b => exact h
  | none => exact ⟨h.1, hm h.2⟩

/-- Search on from where an unsuccessful search has led. -/
theorem Outcome.after {miss : Prop} {out : Option Batch} {s' s'' : State}
    (h₁ : Searched cfg class_ s s')
    (h₂ : Outcome cfg class_ batchSize s' miss out s'') :
    Outcome cfg class_ batchSize s miss out s'' := by
  cases out with
  | some b => exact h₁.took h₂
  | none => exact ⟨h₁.trans h₂.1, h₂.2⟩

/-- Search, and search on if nothing was found. -/
theorem Outcome.orElse {miss₁ miss₂ : Prop} {p : SlabM (Option Batch)}
    {k : Option Batch → SlabM (Option Batch)}
    (hp : Alone E halts p (Outcome cfg class_ batchSize s miss₁) s)
    (hsome : ∀ b, k (some b) = .ret (some b))
    (hnone : ∀ s', Searched cfg class_ s s' → miss₁ →
      Alone E halts (k none) (Outcome cfg class_ batchSize s' miss₂) s') :
    Alone E halts (p.bind k) (Outcome cfg class_ batchSize s miss₂) s := by
  refine hp.seq fun out s' hout => ?_
  cases out with
  | some b =>
      rw [hsome]
      exact Alone.ret hout
  | none =>
      exact (hnone s' hout.1 hout.2).mono fun _ _ h => h.after hout.1

/-- The bit is set wherever the normal list holds a block. -/
def Hinted (cfg : Config) (class_ : Nat) (s : State) : Prop :=
  ∀ v < cfg.ncpu, s.list (.mail v class_) ≠ 0 →
    s.hintAt .nonempty (hintPos cfg class_ v) = true

theorem Hinted.searched {s' : State} (h : Hinted cfg class_ s)
    (hs : Searched cfg class_ s s') : Hinted cfg class_ s' := by
  intro v hv hne
  rw [hs.list] at hne
  cases hs.hint _ (hintPos_lt ..) (h v hv hne) with
  | inl hset => exact hset
  | inr hlost =>
      obtain ⟨v', -, hpos, hm, -⟩ := hlost
      rw [hintPos_class.1 hpos] at hne
      exact absurd hm hne

-- ================================================== the bits of one word

theorem word_zero (i : Nat) : (0 : BitVec 64).getLsbD i = false :=
  BitVec.getLsbD_zero

theorem trailingZeros_spec {w : BitVec 64} (hw : w ≠ 0) :
    trailingZeros w < 64 ∧ w.getLsbD (trailingZeros w) = true
      ∧ ∀ i < trailingZeros w, w.getLsbD i = false := by
  have hex : ∃ i ∈ List.range 64, w.getLsbD i = true := by
    by_contra hno
    refine hw (BitVec.eq_of_getLsbD_eq fun i hi => ?_)
    rw [word_zero, ← Bool.not_eq_true]
    exact fun h => hno ⟨i, List.mem_range.2 hi, h⟩
  have hlt := List.findIdx_lt_length_of_exists hex
  refine ⟨lt_of_lt_of_eq hlt List.length_range, ?_, fun i hi => ?_⟩
  · have hat := List.findIdx_getElem (w := hlt)
    rw [List.getElem_range] at hat
    exact hat
  · have hat := List.not_of_lt_findIdx (p := fun i => w.getLsbD i) hi
    rw [List.getElem_range] at hat
    exact hat

/-- The loop over the bits of a word. A budget of `n` is enough for a
word whose first `64 - n` bits are clear. -/
theorem stealBits_alone {wordIdx : Nat} {force : Bool} (n : Nat)
    (bits : BitVec 64) (s : State)
    (hlow : ∀ i < 64 - n, bits.getLsbD i = false)
    (hlt : ∀ i < 64, bits.getLsbD i = true → wordIdx * 64 + i < cfg.ncpu) :
    Alone E halts
      (stealBits cfg class_ cpu batchSize wordIdx force n bits)
      (Outcome cfg class_ batchSize s (force = true →
        ∀ i < 64, bits.getLsbD i = true → wordIdx * 64 + i ≠ cpu →
          s.list (.mail (wordIdx * 64 + i) class_) = 0)) s := by
  induction n generalizing bits s with
  | zero =>
      refine Alone.ret ⟨.refl .., fun _ i hi hset => ?_⟩
      rw [hlow i hi] at hset
      cases hset
  | succ n ih =>
      rw [stealBits]
      split
      · next hz =>
        subst hz
        refine Alone.ret ⟨.refl .., fun _ i _ hset => ?_⟩
        rw [word_zero] at hset
        cases hset
      · next hne =>
        obtain ⟨ht, hset, hbelow⟩ := trailingZeros_spec hne
        generalize htz : trailingZeros bits = t at ht hset hbelow ⊢
        have hge : 64 - (n + 1) ≤ t := by
          by_contra hlt'
          rw [hlow t (by omega)] at hset
          cases hset
        have hdrop : ∀ i < 64, (bits &&& (bits - 1)).getLsbD i
            = (bits.getLsbD i && decide (∃ j < i, bits.getLsbD j = true)) :=
          fun i hi => BitWord.getLsbD_and_sub_one hi
        -- the rest of the word, from a state that the search has led to
        have hrest : ∀ s', Searched cfg class_ s s' →
            (force = true → wordIdx * 64 + t ≠ cpu →
              s.list (.mail (wordIdx * 64 + t) class_) = 0) →
            Alone E halts (stealBits cfg class_ cpu batchSize wordIdx force n
              (bits &&& (bits - 1)))
              (Outcome cfg class_ batchSize s (force = true →
                ∀ i < 64, bits.getLsbD i = true → wordIdx * 64 + i ≠ cpu →
                  s.list (.mail (wordIdx * 64 + i) class_) = 0)) s' := by
          intro s' hs hvict
          have hih := ih (bits &&& (bits - 1)) s' ?_ ?_
          · refine hih.mono fun out s'' hout =>
              (hout.mono fun hmiss hf i hi hseti hicpu => ?_).after hs
            by_cases hit : i = t
            · subst hit
              exact hvict hf hicpu
            · rw [← hs.list]
              refine hmiss hf i hi ?_ hicpu
              rw [hdrop i hi, hseti, Bool.true_and, decide_eq_true_eq]
              refine ⟨t, ?_, hset⟩
              by_contra hnot
              rw [hbelow i (by omega)] at hseti
              cases hseti
          · intro i hi
            rw [hdrop i (by omega)]
            by_cases hit : i ≤ t
            · have hno : ¬ ∃ j < i, bits.getLsbD j = true := by
                rintro ⟨j, hj, hsetj⟩
                rw [hbelow j (by omega)] at hsetj
                cases hsetj
              simp [hno]
            · omega
          · intro i hi hseti
            rw [hdrop i hi, Bool.and_eq_true] at hseti
            exact hlt i hi hseti.1
        dsimp only
        split
        · next heq => exact hrest s (.refl ..) fun _ hcpu => absurd heq hcpu
        · next hcpu =>
          apply Alone.bind
          apply cpuTryMarking_alone
          have hv := hlt t ht hset
          have hs₁ := (Searched.refl cfg class_ s).of_hint hv
            (f := (· ||| 1#64 <<< (hintPos cfg class_
              (wordIdx * 64 + t)).2))
          split
          · next hskip =>
            refine hrest _ hs₁ fun hf => ?_
            rw [hf] at hskip
            simp at hskip
          · refine (transferPopBatch_alone class_ _ batchSize _).seq
              fun out s₂ hout => ?_
            apply Alone.bind
            apply cpuBitClear_alone
            cases out with
            | some b =>
                exact Alone.ret (hs₁.took
                  ((Took.of_popped hv hout).of_hint hv))
            | none =>
                refine hrest _ (hs₁.trans
                  ((Searched.of_popped hv hout).of_hint hv)) fun _ _ => ?_
                cases hout with
                | none hmail htrimmed => exact hmail

-- ============================================== the words of an interval

/-- The bits of a word that lie in an interval. -/
theorem rangeBits_getLsbD {start end_ wordIdx i : Nat} {bits : BitVec 64}
    (hi : i < 64) :
    (rangeBits start end_ wordIdx bits).getLsbD i
      = (bits.getLsbD i
        && decide ((wordIdx = start / 64 → start % 64 ≤ i)
          ∧ (wordIdx = end_ / 64 → i ≤ end_ % 64))) := by
  have hlow : (if wordIdx = start / 64
        then bits &&& (BitVec.allOnes 64 <<< (start % 64)) else bits).getLsbD i
      = (bits.getLsbD i && decide (wordIdx = start / 64 → start % 64 ≤ i)) := by
    split
    · next h =>
      rw [BitVec.getLsbD_and, BitVec.getLsbD_shiftLeft,
        BitVec.getLsbD_allOnes]
      simp only [hi, decide_true, Bool.true_and, h, true_implies]
      by_cases hle : start % 64 ≤ i
      · simp [hle, show i - start % 64 < 64 by omega]
      · simp [hle, show i < start % 64 by omega]
    · next h => simp [h]
  have hhigh : (if end_ % 64 = 63 then BitVec.allOnes 64
      else 1#64 <<< (end_ % 64 + 1) - 1#64).getLsbD i
        = decide (i ≤ end_ % 64) := by
    split
    · next h =>
      rw [BitVec.getLsbD_allOnes]
      exact decide_eq_decide.2 (by omega)
    · next h =>
      rw [BitWord.getLsbD_lowMask (by omega)]
      exact decide_eq_decide.2 (by omega)
  unfold rangeBits
  simp only
  split
  · next h =>
    rw [BitVec.getLsbD_and, hlow, hhigh, Bool.and_assoc]
    simp [h]
  · next h =>
    rw [hlow]
    simp [h]

variable {start end_ : Nat}

/-- The normal lists of the CPUs of an interval are empty, but for the
caller's own. -/
def NoneIn (class_ cpu : Nat) (s : State) (P : Nat → Prop) : Prop :=
  ∀ v, P v → v ≠ cpu → s.list (.mail v class_) = 0

theorem stealWord_alone {wordIdx : Nat} {force : Bool} (s : State)
    (hend : end_ < cfg.ncpu) (hle : wordIdx ≤ end_ / 64) :
    Alone E halts
      (stealWord cfg class_ cpu batchSize start end_ wordIdx force)
      (Outcome cfg class_ batchSize s (force = true →
        Hinted cfg class_ s → NoneIn class_ cpu s fun v =>
          v / 64 = wordIdx ∧ start ≤ v ∧ v ≤ end_)) s := by
  -- the hint of a CPU of the interval is among the bits that are tried
  have hbit : ∀ v, Hinted cfg class_ s → v / 64 = wordIdx → v ≤ end_ →
      s.list (.mail v class_) ≠ 0 →
      (s.hint .nonempty (class_ * cfg.bitmapWords + wordIdx)).getLsbD (v % 64)
        = true := by
    intro v hh hw hve hne
    have := hh v (by omega) hne
    rw [State.hintAt, hintPos, bitmapWord, hw] at this
    exact this
  have hload : Searched cfg class_ s
      (s.accessed (class_ * cfg.bitmapWords + wordIdx)) := by
    have h := Searched.accessed class_
      (show wordIdx * 64 < cfg.ncpu by omega) s
    rwa [bitmapWord, Nat.mul_div_cancel _ (by decide)] at h
  unfold stealWord
  apply Alone.bind
  apply loadHint_alone
  split
  · next hz =>
    refine Alone.ret ⟨hload, fun _ hh v hv hcpu => ?_⟩
    by_contra hne
    have := hbit v hh hv.1 hv.2.2 hne
    rw [hz, word_zero] at this
    cases this
  · refine (stealBits_alone 64 _ _ (fun i hi => absurd hi (by omega))
      ?_).mono ?_
    · intro i hi hset
      rw [rangeBits_getLsbD hi, Bool.and_eq_true, decide_eq_true_eq] at hset
      have := hset.2.2
      by_cases hw : wordIdx = end_ / 64
      · have := this hw
        omega
      · omega
    · intro out s' hout
      refine (hout.mono fun hmiss hf hh v hv hcpu => ?_).after hload
      by_contra hne
      have hin : wordIdx * 64 + v % 64 = v := by omega
      have hmiss := hmiss hf (v % 64) (by omega)
      rw [hin] at hmiss
      refine hne (hmiss ?_ hcpu)
      rw [rangeBits_getLsbD (by omega), hbit v hh hv.1 hv.2.2 hne,
        Bool.true_and, decide_eq_true_eq]
      omega

theorem stealWords_alone (n wordIdx : Nat) (s : State)
    (hh : Hinted cfg class_ s) (hend : end_ < cfg.ncpu)
    (hle : n = 0 ∨ wordIdx + n ≤ end_ / 64 + 1) :
    Alone E halts
      (stealWords cfg class_ cpu batchSize start end_ n wordIdx)
      (Outcome cfg class_ batchSize s (NoneIn class_ cpu s fun v =>
        wordIdx ≤ v / 64 ∧ v / 64 < wordIdx + n ∧ start ≤ v ∧ v ≤ end_))
      s := by
  induction n generalizing wordIdx s with
  | zero =>
      refine Alone.ret ⟨.refl .., fun v hv _ => ?_⟩
      omega
  | succ n ih =>
      rw [stealWords]
      refine Outcome.orElse (stealWord_alone s hend (by omega))
        (fun _ => rfl) fun s₁ h₁ _ => ?_
      refine Outcome.orElse (stealWord_alone s₁ hend (by omega))
        (fun _ => rfl) fun s₂ h₂ hmiss => ?_
      have hmiss := hmiss rfl (hh.searched h₁)
      refine (ih (wordIdx + 1) s₂ ((hh.searched h₁).searched h₂)
        (by omega)).mono fun out s' hout => hout.mono fun hrest v hv hcpu => ?_
      rw [← h₁.list]
      by_cases hw : v / 64 = wordIdx
      · exact hmiss v ⟨hw, hv.2.2⟩ hcpu
      · rw [← h₂.list]
        exact hrest v (by omega) hcpu

theorem firstNonemptyCpuInRange_alone (s : State)
    (hh : Hinted cfg class_ s) (hend : end_ < cfg.ncpu) :
    Alone E halts
      (firstNonemptyCpuInRange cfg class_ cpu batchSize start end_)
      (Outcome cfg class_ batchSize s (NoneIn class_ cpu s fun v =>
        start ≤ v ∧ v ≤ end_)) s := by
  unfold firstNonemptyCpuInRange
  refine (stealWords_alone _ _ s hh hend (by omega)).mono
    fun out s' hout => hout.mono fun hmiss v hv hcpu => hmiss v ?_ hcpu
  have h₁ : start / 64 ≤ v / 64 := Nat.div_le_div_right hv.1
  have h₂ : v / 64 ≤ end_ / 64 := Nat.div_le_div_right hv.2
  omega

-- ========================================================= the intervals

theorem slowestNumaStealPath_alone {node : Nat} (n i : Nat) (s : State)
    (hh : Hinted cfg class_ s) (hpos : 0 < cfg.nranges)
    (hrange : ∀ m < cfg.nranges, (cfg.cpuRange m).2 < cfg.ncpu) :
    Alone E halts
      (slowestNumaStealPath cfg class_ cpu node batchSize n i)
      (Outcome cfg class_ batchSize s (NoneIn class_ cpu s fun v =>
        ∃ j, i ≤ j ∧ j < i + n
          ∧ (cfg.cpuRange ((j + node) % cfg.nranges)).1 ≤ v
          ∧ v ≤ (cfg.cpuRange ((j + node) % cfg.nranges)).2)) s := by
  induction n generalizing i s with
  | zero =>
      refine Alone.ret ⟨.refl .., fun v hv _ => ?_⟩
      obtain ⟨j, hij, hlt, -⟩ := hv
      omega
  | succ n ih =>
      rw [slowestNumaStealPath]
      refine Outcome.orElse (firstNonemptyCpuInRange_alone s hh
        (hrange _ (Nat.mod_lt _ hpos))) (fun _ => rfl) fun s' hs hmiss => ?_
      refine (ih (i + 1) s' (hh.searched hs)).mono
        fun out s'' hout => hout.mono fun hrest v hv hcpu => ?_
      obtain ⟨j, hij, hlt, hin⟩ := hv
      by_cases hj : j = i
      · subst hj
        exact hmiss v hin hcpu
      · rw [← hs.list]
        exact hrest v ⟨j, by omega, by omega, hin⟩ hcpu

/-- The rotated walk comes by every node but the caller's own. -/
theorem rotation_covers {nranges node m : Nat} (hnode : node < nranges)
    (hm : m < nranges) (hne : m ≠ node) :
    ∃ j, 1 ≤ j ∧ j < 1 + (nranges - 1) ∧ (j + node) % nranges = m := by
  by_cases hlt : node < m
  · refine ⟨m - node, by omega, by omega, ?_⟩
    rw [show m - node + node = m by omega, Nat.mod_eq_of_lt hm]
  · refine ⟨m + nranges - node, by omega, by omega, ?_⟩
    rw [show m + nranges - node + node = m + nranges by omega,
      Nat.add_mod_right, Nat.mod_eq_of_lt hm]

theorem popSlow_alone (s : State) (hcov : Covers cfg)
    (hh : Hinted cfg class_ s) (hcpu : cpu < cfg.ncpu) :
    Alone E halts (popSlow cfg class_ cpu batchSize)
      (Outcome cfg class_ batchSize s
        (NoneIn class_ cpu s fun v => v < cfg.ncpu)) s := by
  have hpos : 0 < cfg.ncpu := Nat.lt_of_le_of_lt (Nat.zero_le cpu) hcpu
  unfold popSlow
  split
  · next hnuma =>
    have hrange := hcov.range hnuma hpos
    have hnode := hcov.node hnuma
    refine Outcome.orElse (firstNonemptyCpuInRange_alone s hh
      (hrange _ (hnode cpu hcpu).1)) (fun _ => rfl) fun s' hs hown => ?_
    refine (slowestNumaStealPath_alone _ _ s' (hh.searched hs)
      (Nat.lt_of_le_of_lt (Nat.zero_le _) (hnode cpu hcpu).1) hrange).mono
      fun out s'' hout => hout.mono fun hrest v hv hvcpu => ?_
    obtain ⟨hlt, hin⟩ := hnode v hv
    by_cases hsame : cfg.cpuToNode v = cfg.cpuToNode cpu
    · rw [hsame] at hin
      exact hown v hin hvcpu
    · obtain ⟨j, h₁, h₂, hmod⟩ :=
        rotation_covers (hnode cpu hcpu).1 hlt hsame
      have hrest := hrest v ⟨j, h₁, h₂, ?_⟩ hvcpu
      · rw [hs.list] at hrest
        exact hrest
      · rw [hmod]
        exact hin
  · refine (firstNonemptyCpuInRange_alone s hh (by omega)).mono
      fun out s' hout => hout.mono fun hmiss v hv hvcpu =>
        hmiss v ⟨Nat.zero_le v, by omega⟩ hvcpu

theorem tryPop_alone (s : State) (hcov : Covers cfg)
    (hh : Hinted cfg class_ s) (hcpu : cpu < cfg.ncpu) :
    Alone E halts (tryPop cfg class_ batchSize cpu)
      (Outcome cfg class_ batchSize s
        (∀ v < cfg.ncpu, s.list (.mail v class_) = 0)) s := by
  -- the caller's own list is empty, and the others are searched
  have hslow : ∀ s', Searched cfg class_ s s' →
      s.list (.mail cpu class_) = 0 →
      Alone E halts (popSlow cfg class_ cpu batchSize)
        (Outcome cfg class_ batchSize s'
          (∀ v < cfg.ncpu, s.list (.mail v class_) = 0)) s' := by
    intro s' hs hown
    refine (popSlow_alone s' hcov (hh.searched hs) hcpu).mono
      fun out s'' hout => hout.mono fun hmiss v hv => ?_
    by_cases hvcpu : v = cpu
    · rw [hvcpu]
      exact hown
    · have := hmiss v hv hvcpu
      rw [hs.list] at this
      exact this
  unfold tryPop
  apply Alone.bind
  apply cpuIsEmpty_alone
  have hload := Searched.accessed class_ hcpu s
  by_cases hset : s.hintAt .nonempty (hintPos cfg class_ cpu) = true
  · rw [hset]
    refine (transferPopBatch_alone class_ cpu batchSize _).seq
      fun out s' hout => ?_
    cases out with
    | some b => exact Alone.ret (hload.took (Took.of_popped hcpu hout))
    | none =>
        have hs := hload.trans (Searched.of_popped hcpu hout)
        cases hout with
        | none hmail htrimmed =>
            exact (hslow _ hs hmail).mono fun _ _ h => h.after hs
  · rw [Bool.not_eq_true] at hset
    rw [hset]
    refine (hslow _ hload ?_).mono fun _ _ h => h.after hload
    by_contra hne
    rw [hh cpu hcpu hne] at hset
    cases hset

-- ============================================ the words that are accessed

/-- The words of a class. -/
def ClassWords (cfg : Config) (class_ i : Nat) : Prop :=
  class_ * cfg.bitmapWords ≤ i ∧ i < (class_ + 1) * cfg.bitmapWords

theorem CpuWord.classWords {i : Nat} (hcov : Covers cfg)
    (h : CpuWord cfg class_ i) : ClassWords cfg class_ i := by
  obtain ⟨v, hv, rfl⟩ := h
  have hwords := hcov.words
  refine ⟨Nat.le_add_right .., ?_⟩
  rw [bitmapWord, Nat.succ_mul]
  omega

/-- A search accesses words of its class only. -/
theorem Outcome.words {miss : Prop} {out : Option Batch} {s' : State}
    (h : Outcome cfg class_ batchSize s miss out s') :
    WordsOf cfg class_ s s' := by
  cases out with
  | some b =>
      obtain ⟨v, k, hk⟩ := h
      exact hk.words
  | none => exact h.1.words

-- ====================================================== nothing is missed

/-- With nothing else at work, on any machine and from any contents of
the lists and of the bitmaps in which the hint of every non-empty normal
list is set, `try_pop` returns. It returns null only if the normal list
of the class is empty on every CPU. Otherwise it takes the first blocks
of one list, that of a normal list, or of a trimmed one whose normal
list is empty; all other lists, and memory, are as before. Every access
to a bitmap, recorded in `words`, is to a word of its class. -/
theorem steal_misses_nothing (sys : Sys) (cfg : Config) {ncpu : Nat}
    (hncpu : ncpu ≤ usizeMax) {class_ batchSize cpu : Nat}
    (hbatch : 1 ≤ batchSize) (hcpu : cpu < ncpu) (s : State)
    {contents : Shelf → List Nat}
    (hmail : ∀ v < ncpu, OnList s (.mail v class_) (contents (.mail v class_)))
    (htrimmed : ∀ v < ncpu,
      OnList s (.trimmed v class_) (contents (.trimmed v class_)))
    (hhint : ∀ v < ncpu, contents (.mail v class_) ≠ [] →
      s.hintAt .nonempty
        (hintPos (ensureCache sys ncpu cfg) class_ v) = true)
    (env : Nat → Env) :
    ∃ out s', (tryPop (ensureCache sys ncpu cfg) class_ batchSize cpu).exec
        env s = some (out, s')
      ∧ s'.ground = s.ground
      ∧ (match out with
        | none =>
            s'.list = s.list ∧ ∀ v < ncpu, contents (.mail v class_) = []
        | some b => ∃ v < ncpu, ∃ k,
            (k = .mail v class_
              ∨ k = .trimmed v class_ ∧ contents (.mail v class_) = [])
            ∧ b.Front s.ground.mem (contents k) batchSize
            ∧ s'.list = Function.update s.list k b.next)
      ∧ ∀ i, s'.words i = true → s.words i = true
          ∨ ClassWords (ensureCache sys ncpu cfg) class_ i := by
  have hcov := ensureCache_covers sys hncpu cfg
  have hn := ensureCache_ncpu sys ncpu cfg
  generalize ensureCache sys ncpu cfg = cfg' at hcov hn hhint ⊢
  subst hn
  have hh : Hinted cfg' class_ s := fun v hv hne =>
    hhint v hv ((hmail v hv).head_ne_zero.1 hne)
  have hempty : ∀ v < cfg'.ncpu, s.list (.mail v class_) = 0 →
      contents (.mail v class_) = [] := by
    intro v hv hz
    by_contra hne
    exact (hmail v hv).head_ne_zero.2 hne hz
  have htry : Alone (fun _ => True) False
      (tryPop cfg' class_ batchSize cpu) _ s := tryPop_alone s hcov hh hcpu
  obtain ⟨out, s', hrun, hout⟩ :=
    htry.exec fun j => (trivial : (fun _ => True) (env j))
  have hwords : ∀ i, s'.words i = true → s.words i = true
      ∨ ClassWords cfg' class_ i := fun i h =>
    (hout.words i h).imp_right fun hi => hi.classWords hcov
  refine ⟨out, s', hrun, ?_⟩
  cases out with
  | none =>
      obtain ⟨hs, hmiss⟩ := hout
      exact ⟨hs.ground, ⟨hs.list, fun v hv => hempty v hv (hmiss v hv)⟩,
        hwords⟩
  | some b =>
      obtain ⟨v, k, hk⟩ := hout
      have hchain : OnList s k (contents k) := by
        cases hk.shelf with
        | inl hm => exact hm ▸ hmail v hk.lt
        | inr ht => exact ht.1 ▸ htrimmed v hk.lt
      refine ⟨hk.ground, ⟨v, hk.lt, k, ?_, hchain.popBatch hbatch hk.batch,
        hk.list⟩, hwords⟩
      cases hk.shelf with
      | inl hm => exact Or.inl hm
      | inr ht => exact Or.inr ⟨ht.1, hempty v hk.lt ht.2⟩

/-- Two CPUs on a machine without node files, and one block on the
normal list of the other CPU. -/
def twoCpus : Config :=
  ensureCache ⟨none, fun _ => none, true, true, true⟩ 2 (.single 0)

/-- The state with that block at 4096. -/
def oneHotBlock : State :=
  { State.new fun _ => 0 with
    list := Function.update (fun _ => 0) (.mail 1 0) 4096
    hint := fun _ _ => 2 }

/-- Its lists. -/
def oneHotContents (k : Shelf) : List Nat :=
  if k = .mail 1 0 then [4096] else []

theorem steal_misses_nothing_twoCpus :
    ∃ b s', (tryPop twoCpus 0 8 0).exec (fun _ => {}) oneHotBlock
      = some (some b, s') := by
  have hmail : ∀ v < 2, OnList oneHotBlock (.mail v 0)
      (oneHotContents (.mail v 0)) := by
    intro v hv
    have hcase : v = 0 ∨ v = 1 := by omega
    cases hcase with
    | inl h =>
        subst h
        exact ⟨rfl, List.not_mem_nil⟩
    | inr h =>
        subst h
        exact ⟨⟨rfl, rfl⟩, by decide⟩
  have hhint : ∀ v < 2, oneHotContents (.mail v 0) ≠ [] →
      oneHotBlock.hintAt .nonempty (hintPos twoCpus 0 v) = true := by
    decide
  obtain ⟨out, s', hrun, -, hout, -⟩ := @steal_misses_nothing _ (.single 0)
    2 (by decide) 0 8 0 (by decide) (by decide) oneHotBlock oneHotContents
    hmail (fun _ _ => ⟨rfl, List.not_mem_nil⟩) hhint fun _ => {}
  cases out with
  | some b => exact ⟨b, s', hrun⟩
  | none => exact absurd (hout.2 1 (by decide)) (by decide)

end RsMalloc.Slab
