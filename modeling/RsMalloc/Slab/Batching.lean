/-
The adaptive batches (core_prim/predictor.rs, inner/alloc.rs).

# A refill

`fill` and `refill` ask a predictor how many blocks to request, obtain
some of them, and tell it what they have observed: what they obtained,
or one step more when they obtained all and the class has headroom.
`refilled` is the predictor after one refill, and `exec_refill` says
that this is what the two functions do to it.

# Results

`refilled_cases` lists what a refill can do to a predictor. A stored
batch below the limit is requested as it is, so it grows only when it
is obtained in full, and then by a step at least; a stored batch above
the limit is never compared with more than the limit. `after_low` keeps
the observations that the low count stands for: since the last change
of the batch they were all below a quarter of it.
-/
import RsMalloc.Slab.Model

namespace RsMalloc.Slab

open Conc

namespace AdaptiveBatching

-- ============================================================== a refill

section Refill

variable (cfg : Config) (kind : Predictor)

/-- The batch that is stored, after the lazy start. -/
def stored (p : AdaptiveBatching) : Nat :=
  (p.updateGlobalBatchValue cfg kind).batch

/-- `batch(fallback)`. -/
def request (limit : Nat) (p : AdaptiveBatching) : Nat :=
  min (max (p.stored cfg kind) 1) limit

/-- `observed`, when `count` of `batch` blocks were obtained. -/
def observed (limit batch count : Nat) : Nat :=
  if count = batch ∧ batch < limit then
    min (batch + max (batch / 4) 1) (2 ^ 64 - 1)
  else count

/-- The predictor after a refill that obtained `count` blocks. -/
def refilled (limit : Nat) (p : AdaptiveBatching) (count : Nat) :
    AdaptiveBatching :=
  (p.updateGlobalBatchValue cfg kind).updateRefill cfg kind
    (observed limit (p.request cfg kind limit) count) limit

/-- The arithmetic of a refill does not overflow. -/
structure Fits (limit : Nat) (p : AdaptiveBatching) (count : Nat) :
    Prop where
  lift : p.request cfg kind limit + max (p.request cfg kind limit / 4) 1
    < 2 ^ 64
  grow : p.stored cfg kind
      < max (observed limit (p.request cfg kind limit) count) 1 →
    p.stored cfg kind + p.stored cfg kind / 2 < 2 ^ 64
  quarter : max (observed limit (p.request cfg kind limit) count) 1
      ≤ p.stored cfg kind →
    max (observed limit (p.request cfg kind limit) count) 1 * 4 < 2 ^ 64
  low : p.lowCount + 1 < 2 ^ 8

end Refill

/-- A request and an observation change one predictor, by a refill. -/
theorem exec_refill (cfg : Config) (kind : Predictor)
    (tid class_ : Nat) (got : Nat → Nat) (env : Nat → Env) (s : State) :
    ∃ s', ((predictBatch cfg kind tid class_).bind fun batch =>
        (observe cfg kind tid class_ batch (got batch)).bind fun _ =>
          .ret batch).exec env s
        = some ((s.batching kind tid class_).request cfg kind
          (iterations class_), s')
      ∧ s'.batching kind tid class_
        = (s.batching kind tid class_).refilled cfg kind (iterations class_)
          (got ((s.batching kind tid class_).request cfg kind
            (iterations class_)))
      ∧ ∀ kind' tid' class', (kind', tid', class') ≠ (kind, tid, class_) →
        s'.batching kind' tid' class' = s.batching kind' tid' class' := by
  refine ⟨_, rfl, ?_, ?_⟩
  · simp only [Function.update_self]
    rfl
  · intro kind' tid' class' hne
    by_cases hkind : kind' = kind
    · subst hkind
      by_cases htid : tid' = tid
      · subst htid
        have hclass : class' ≠ class_ := fun heq => hne (by rw [heq])
        simp only [Function.update_self, Function.update_of_ne hclass]
      · simp only [Function.update_self, Function.update_of_ne htid]
    · simp only [Function.update_of_ne hkind]

-- =========================================================== one refill

section Cases

variable {cfg : Config} {kind : Predictor} {limit count : Nat}
  {p : AdaptiveBatching}

theorem start_once (cfg : Config) (kind : Predictor)
    (p : AdaptiveBatching) :
    (p.updateGlobalBatchValue cfg kind).once = true := by
  unfold updateGlobalBatchValue
  split
  · next h => exact h
  · rfl

theorem start_of_once (h : p.once = true) :
    p.updateGlobalBatchValue cfg kind = p := by
  unfold updateGlobalBatchValue
  rw [if_pos h]

/-- What a refill can obtain. -/
structure Obtains (cfg : Config) (kind : Predictor) (limit : Nat)
    (p : AdaptiveBatching) (count : Nat) : Prop where
  pos : 1 ≤ count
  le : count ≤ p.request cfg kind limit

/-- What a refill can do to a predictor with the batch `batch` and the
low count `low`. -/
inductive Change (limit batch low count : Nat) : AdaptiveBatching → Prop
  /-- All was obtained, and there is headroom. -/
  | grown {b : Nat} (hfull : count = max batch 1) (hroom : count < limit)
      (hlt : count < b) (hle : b ≤ limit) :
      Change limit batch low count ⟨b, 0, true⟩
  /-- There was no batch, and one block is the limit. -/
  | woken (hzero : batch = 0) (hone : limit = 1) :
      Change limit batch low count ⟨1, 0, true⟩
  /-- The fourth low observation in turn. -/
  | halved (hcount : count ≤ limit) (hlow : 4 * count < batch)
      (hfour : low = 3) : Change limit batch low count ⟨batch / 2, 0, true⟩
  | low (hlow : 4 * count < batch) (hless : low < 3) :
      Change limit batch low count ⟨batch, low + 1, true⟩
  | kept (hhigh : batch ≤ 4 * count)
      (hnot : ¬ (count = max batch 1 ∧ count < limit)) :
      Change limit batch low count ⟨batch, 0, true⟩

variable (hpos : 1 ≤ limit) (hlimit : limit ≤ 2 ^ 32)
include hpos hlimit

/-- What is observed: one step above a batch that is below the limit, or
what was obtained. -/
theorem observed_cases (h : Obtains cfg kind limit p count) :
    (count = max (p.stored cfg kind) 1 ∧ count < limit
        ∧ p.request cfg kind limit = count
        ∧ observed limit (p.request cfg kind limit) count
          = count + max (count / 4) 1)
      ∨ observed limit (p.request cfg kind limit) count = count
        ∧ ¬ (count = max (p.stored cfg kind) 1 ∧ count < limit) := by
  obtain ⟨hone, hle⟩ := h
  have hreq : p.request cfg kind limit
      = min (max (p.stored cfg kind) 1) limit := rfl
  generalize p.stored cfg kind = batch at hreq ⊢
  generalize p.request cfg kind limit = b at hreq hle ⊢
  unfold observed
  by_cases hfull : count = b ∧ b < limit
  · rw [if_pos hfull]
    exact Or.inl ⟨by omega, by omega, by omega, by omega⟩
  · rw [if_neg hfull]
    exact Or.inr ⟨rfl, by omega⟩

theorem refilled_cases (h : Obtains cfg kind limit p count)
    (hlow : (p.updateGlobalBatchValue cfg kind).lowCount < 4) :
    Change limit (p.stored cfg kind)
      (p.updateGlobalBatchValue cfg kind).lowCount count
      (p.refilled cfg kind limit count) := by
  have hobs := observed_cases hpos hlimit h
  have hle := h.le
  have hreq : p.request cfg kind limit
      = min (max (p.stored cfg kind) 1) limit := rfl
  unfold refilled updateRefill
  rw [start_of_once (start_once cfg kind p)]
  generalize observed limit (p.request cfg kind limit) count = obs at hobs ⊢
  generalize p.request cfg kind limit = b at hobs hle hreq
  have honce := start_once cfg kind p
  unfold stored at hobs hreq ⊢
  generalize p.updateGlobalBatchValue cfg kind = q at *
  obtain ⟨batch, low, once⟩ := q
  dsimp only at *
  subst honce
  rcases hobs with ⟨hfull, hroom, _, hobs⟩ | ⟨hobs, hnot⟩
  · rw [if_pos (by omega)]
    exact .grown hfull hroom (by omega) (by omega)
  · by_cases hbatch : batch = 0
    · have hcount := h.pos
      obtain rfl : count = 1 := by omega
      obtain rfl : limit = 1 := by omega
      subst hbatch hobs
      exact .woken rfl rfl
    · have hmax : max obs 1 = count := by
        have := h.pos
        omega
      rw [hmax, if_neg (by omega)]
      have hmod : count * 4 % 2 ^ 64 = 4 * count := by omega
      rw [hmod]
      by_cases hquarter : 4 * count < batch
      · rw [if_pos hquarter]
        by_cases hfour : low + 1 = 4
        · rw [if_pos hfour, show max (batch / 2) 1 = batch / 2 by omega]
          exact .halved (by omega) hquarter (by omega)
        · rw [if_neg hfour]
          exact .low hquarter (by omega)
      · rw [if_neg hquarter]
        exact .kept (by omega) hnot

/-- Nothing overflows. -/
theorem fits (h : Obtains cfg kind limit p count)
    (hlow : p.lowCount < 4) : Fits cfg kind limit p count := by
  have hobs := observed_cases hpos hlimit h
  have hone := h.pos
  have hle := h.le
  have hreq : p.request cfg kind limit
      = min (max (p.stored cfg kind) 1) limit := rfl
  constructor
  · omega
  · intro hgrow
    omega
  · intro hquarter
    omega
  · omega

end Cases

-- ============================================================= sequences

section Sequences

variable (cfg : Config) (kind : Predictor) (limit : Nat)

/-- The predictor of a new thread after `n` refills. -/
def after (counts : Nat → Nat) : Nat → AdaptiveBatching
  | 0 => .new
  | n + 1 => (after counts n).refilled cfg kind limit (counts n)

/-- The predictor after `n` refills that obtain all they request. -/
def satisfied (p : AdaptiveBatching) : Nat → AdaptiveBatching
  | 0 => p
  | n + 1 =>
      (satisfied p n).refilled cfg kind limit
        ((satisfied p n).request cfg kind limit)

/-- The observation of the `n`-th refill. -/
def observation (counts : Nat → Nat) (n : Nat) : Nat :=
  observed limit ((after cfg kind limit counts n).request cfg kind limit)
    (counts n)

end Sequences

section Runs

variable {cfg : Config} {kind : Predictor} {limit : Nat}
  {counts : Nat → Nat}

theorem refilled_once (p : AdaptiveBatching) (count : Nat) :
    (p.refilled cfg kind limit count).once = true := by
  have honce := start_once cfg kind (p.updateGlobalBatchValue cfg kind)
  unfold refilled updateRefill
  dsimp only
  split
  · exact honce
  · split
    · split
      · exact honce
      · exact honce
    · exact honce

/-- The low count of a new predictor is that of a started one. -/
theorem start_after (cfg : Config) (kind : Predictor) (limit : Nat)
    (counts : Nat → Nat) (n : Nat) :
    ((after cfg kind limit counts n).updateGlobalBatchValue cfg
      kind).lowCount = (after cfg kind limit counts n).lowCount := by
  cases n with
  | zero => rfl
  | succ n => exact congrArg lowCount (start_of_once (refilled_once _ _))

theorem stored_started (b low : Nat) :
    (⟨b, low, true⟩ : AdaptiveBatching).stored cfg kind = b := rfl

/-- The refills that the low count of `p` stands for, the last of the
first `n`: since then the batch is the same, and what was observed was
below a quarter of it. -/
structure LowRun (cfg : Config) (kind : Predictor) (limit : Nat)
    (counts : Nat → Nat) (n : Nat) (p : AdaptiveBatching) : Prop where
  low : p.lowCount < 4
  le : p.lowCount ≤ n
  run : ∀ i < n, n ≤ i + p.lowCount →
    (after cfg kind limit counts i).stored cfg kind = p.stored cfg kind
      ∧ 4 * observation cfg kind limit counts i < p.stored cfg kind

theorem lowRun_clear (n b : Nat) {once : Bool} :
    LowRun cfg kind limit counts n ⟨b, 0, once⟩ :=
  ⟨Nat.zero_lt_succ 3, Nat.zero_le n,
    fun _ hi hi' => absurd hi' (Nat.not_le_of_lt hi)⟩

variable (hpos : 1 ≤ limit) (hlimit : limit ≤ 2 ^ 32)
  (hcounts : ∀ n, Obtains cfg kind limit (after cfg kind limit counts n)
    (counts n))
include hpos hlimit hcounts

theorem after_step {n : Nat}
    (hlow : (after cfg kind limit counts n).lowCount < 4) :
    Change limit ((after cfg kind limit counts n).stored cfg kind)
      (after cfg kind limit counts n).lowCount (counts n)
      (after cfg kind limit counts (n + 1)) := by
  rw [← start_after] at hlow ⊢
  exact refilled_cases hpos hlimit (hcounts n) hlow

/-- What is obtained below a quarter of the batch is observed as it
is. -/
theorem observation_eq {n : Nat} (hlow : 4 * counts n
      < (after cfg kind limit counts n).stored cfg kind) :
    observation cfg kind limit counts n = counts n := by
  rcases observed_cases hpos hlimit (hcounts n) with
    ⟨hfull, _, _, _⟩ | ⟨hobs, _⟩
  · omega
  · exact hobs

/-- The observations that the low count stands for. -/
theorem after_low (n : Nat) :
    LowRun cfg kind limit counts n (after cfg kind limit counts n) := by
  induction n with
  | zero => exact lowRun_clear 0 1
  | succ n ih =>
      have hstep := after_step hpos hlimit hcounts ih.low
      generalize after cfg kind limit counts (n + 1) = p at hstep ⊢
      cases hstep with
      | grown => exact lowRun_clear _ _
      | woken => exact lowRun_clear _ _
      | halved => exact lowRun_clear _ _
      | kept => exact lowRun_clear _ _
      | low hquarter hless =>
          refine ⟨Nat.succ_lt_succ hless, Nat.succ_le_succ ih.le,
            fun i hi hi' => ?_⟩
          dsimp only at hi'
          by_cases hin : i = n
          · subst hin
            rw [observation_eq hpos hlimit hcounts hquarter]
            exact ⟨rfl, hquarter⟩
          · exact ih.run i (by omega) (by omega)

/-- The batch falls by halves only. -/
theorem after_halved {n : Nat}
    (hless : (after cfg kind limit counts (n + 1)).stored cfg kind
      < (after cfg kind limit counts n).stored cfg kind) :
    (after cfg kind limit counts (n + 1)).stored cfg kind
        = (after cfg kind limit counts n).stored cfg kind / 2
      ∧ 3 ≤ n
      ∧ ∀ i ≤ n, n ≤ i + 3 →
        (after cfg kind limit counts i).stored cfg kind
            = (after cfg kind limit counts n).stored cfg kind
          ∧ 4 * observation cfg kind limit counts i
            < (after cfg kind limit counts n).stored cfg kind := by
  obtain ⟨hlow, hle, hrun⟩ := after_low hpos hlimit hcounts n
  have hstep := after_step hpos hlimit hcounts hlow
  generalize after cfg kind limit counts (n + 1) = p at hstep hless ⊢
  cases hstep with
  | grown hfull hroom hlt =>
      rw [stored_started] at hless
      omega
  | woken hzero =>
      rw [hzero] at hless
      exact absurd hless (Nat.not_lt_zero _)
  | low => exact absurd hless (lt_irrefl _)
  | kept => exact absurd hless (lt_irrefl _)
  | halved _ hquarter hfour =>
      rw [hfour] at hle hrun
      refine ⟨rfl, hle, fun i hi hi' => ?_⟩
      by_cases hin : i = n
      · subst hin
        rw [observation_eq hpos hlimit hcounts hquarter]
        exact ⟨rfl, hquarter⟩
      · exact hrun i (by omega) hi'

end Runs

-- ============================================================== progress

section Progress

variable {cfg : Config} {kind : Predictor} {limit : Nat}
  {p : AdaptiveBatching}

theorem request_started (b low : Nat) :
    (⟨b, low, true⟩ : AdaptiveBatching).request cfg kind limit
      = min (max b 1) limit := rfl

theorem request_bounds (cfg : Config) (kind : Predictor)
    (hpos : 1 ≤ limit) (p : AdaptiveBatching) :
    1 ≤ p.request cfg kind limit ∧ p.request cfg kind limit ≤ limit := by
  unfold request
  omega

variable (hpos : 1 ≤ limit) (hlimit : limit ≤ 2 ^ 32)
include hpos hlimit

theorem lowCount_refilled {count : Nat}
    (h : Obtains cfg kind limit p count) (hlow : p.lowCount < 4) :
    (p.refilled cfg kind limit count).lowCount < 4
    ∧ Change limit (p.stored cfg kind)
      (p.updateGlobalBatchValue cfg kind).lowCount count
      (p.refilled cfg kind limit count) := by
  have hstart : (p.updateGlobalBatchValue cfg kind).lowCount < 4 := by
    unfold updateGlobalBatchValue
    split
    · exact hlow
    · exact Nat.zero_lt_succ 3
  have hchange := refilled_cases hpos hlimit h hstart
  refine ⟨?_, hchange⟩
  generalize p.refilled cfg kind limit count = p' at hchange ⊢
  cases hchange with
  | grown => exact Nat.zero_lt_succ 3
  | woken => exact Nat.zero_lt_succ 3
  | halved => exact Nat.zero_lt_succ 3
  | low _ hless => exact Nat.succ_lt_succ hless
  | kept => exact Nat.zero_lt_succ 3

/-- A request that is satisfied is followed by a larger one, up to the
limit. -/
theorem request_grows (hlow : p.lowCount < 4) :
    min (p.request cfg kind limit + 1) limit
      ≤ (p.refilled cfg kind limit
        (p.request cfg kind limit)).request cfg kind limit := by
  have hbounds := request_bounds cfg kind hpos p
  obtain ⟨_, hchange⟩ := lowCount_refilled hpos hlimit
    (⟨hbounds.1, le_refl _⟩ : Obtains cfg kind limit p _) hlow
  have hreq : p.request cfg kind limit
      = min (max (p.stored cfg kind) 1) limit := rfl
  generalize p.refilled cfg kind limit (p.request cfg kind limit) = p'
    at hchange ⊢
  cases hchange with
  | grown _ _ hlt hle =>
      rw [request_started]
      omega
  | woken _ hone =>
      rw [request_started]
      omega
  | halved _ hquarter =>
      rw [request_started]
      omega
  | low hquarter =>
      rw [request_started]
      omega
  | kept hhigh hnot =>
      rw [request_started]
      omega

theorem satisfied_low (hlow : p.lowCount < 4) (n : Nat) :
    (satisfied cfg kind limit p n).lowCount < 4 := by
  induction n with
  | zero => exact hlow
  | succ n ih =>
      exact (lowCount_refilled hpos hlimit
        ⟨(request_bounds cfg kind hpos _).1, le_refl _⟩ ih).1

/-- After as many refills as the limit is large the request is the
limit. -/
theorem satisfied_request (hlow : p.lowCount < 4) (n : Nat) :
    min (n + 1) limit
      ≤ (satisfied cfg kind limit p n).request cfg kind limit := by
  induction n with
  | zero =>
      have hbounds := (request_bounds cfg kind hpos p).1
      exact (min_le_left _ _).trans hbounds
  | succ n ih =>
      have hstep : (satisfied cfg kind limit p n).lowCount < 4 :=
        satisfied_low hpos hlimit hlow n
      have hgrow : _ ≤ (satisfied cfg kind limit p (n + 1)).request cfg kind
          limit := request_grows hpos hlimit hstep
      omega

end Progress

end AdaptiveBatching

-- ================================================================ result

open AdaptiveBatching

/-- The batches stay bounded and do not stay low. In a sequence of
refills of a new predictor each request is between one and the limit,
nothing overflows, and the stored batch falls only by half and after
four observations in turn below a quarter of it. From any state,
refills that obtain all they request lead to the limit, without a
smaller request on the way. -/
theorem batches_bounded_and_climb (cfg : Config) (kind : Predictor)
    {c : Nat} (hc : c < numSizeClasses) :
    (∀ counts : Nat → Nat,
      (∀ n, Obtains cfg kind (iterations c)
        (after cfg kind (iterations c) counts n) (counts n)) →
      ∀ n,
        (1 ≤ (after cfg kind (iterations c) counts n).request cfg kind
            (iterations c)
          ∧ (after cfg kind (iterations c) counts n).request cfg kind
            (iterations c) ≤ iterations c)
        ∧ (after cfg kind (iterations c) counts n).lowCount < 4
        ∧ Fits cfg kind (iterations c)
          (after cfg kind (iterations c) counts n) (counts n)
        ∧ ((after cfg kind (iterations c) counts (n + 1)).stored cfg kind
            < (after cfg kind (iterations c) counts n).stored cfg kind →
          (after cfg kind (iterations c) counts (n + 1)).stored cfg kind
            = (after cfg kind (iterations c) counts n).stored cfg kind / 2
          ∧ 3 ≤ n
          ∧ ∀ i ≤ n, n ≤ i + 3 →
            (after cfg kind (iterations c) counts i).stored cfg kind
              = (after cfg kind (iterations c) counts n).stored cfg kind
            ∧ 4 * observation cfg kind (iterations c) counts i
              < (after cfg kind (iterations c) counts n).stored cfg kind))
    ∧ ∀ p : AdaptiveBatching, p.lowCount < 4 →
      (∀ n, (satisfied cfg kind (iterations c) p n).request cfg kind
          (iterations c)
        ≤ (satisfied cfg kind (iterations c) p (n + 1)).request cfg kind
          (iterations c))
      ∧ ∃ n, ∀ m ≥ n, (satisfied cfg kind (iterations c) p m).request cfg
        kind (iterations c) = iterations c := by
  obtain ⟨hpos, hle⟩ := iterations_bounds hc
  have hlimit : iterations c ≤ 2 ^ 32 := hle.trans (by decide)
  refine ⟨fun counts hcounts n => ?_, fun p hlow => ⟨fun n => ?_, ?_⟩⟩
  · have hlow := (after_low hpos hlimit hcounts n).low
    exact ⟨request_bounds cfg kind hpos _, hlow,
      fits hpos hlimit (hcounts n) hlow, after_halved hpos hlimit hcounts⟩
  · have hstep : (satisfied cfg kind (iterations c) p n).lowCount < 4 :=
      satisfied_low hpos hlimit hlow n
    have hgrow : _ ≤ (satisfied cfg kind (iterations c) p (n + 1)).request
        cfg kind (iterations c) := request_grows hpos hlimit hstep
    have hbound := (request_bounds cfg kind hpos
      (satisfied cfg kind (iterations c) p n)).2
    omega
  · refine ⟨iterations c, fun m hm => ?_⟩
    have hreach : _ ≤ (satisfied cfg kind (iterations c) p m).request cfg
        kind (iterations c) := satisfied_request hpos hlimit hlow m
    have hbound := (request_bounds cfg kind hpos
      (satisfied cfg kind (iterations c) p m)).2
    omega

/-- Refills of one block each, and then refills in full. -/
theorem batches_bounded_and_climb_first :
    (∀ n, (after (.single 0) .transfer (iterations 0) (fun _ => 1)
        n).lowCount < 4)
    ∧ ∃ n, ∀ m ≥ n, (satisfied (.single 0) .transfer (iterations 0) .new
      m).request (.single 0) .transfer (iterations 0) = iterations 0 := by
  have h := batches_bounded_and_climb (.single 0) .transfer
    (show 0 < numSizeClasses by decide)
  refine ⟨fun n => (h.1 (fun _ => 1) (fun m => ⟨le_refl 1, ?_⟩) n).2.1,
    (h.2 .new (by decide)).2⟩
  exact (request_bounds _ _ (by decide) _).1

end RsMalloc.Slab
