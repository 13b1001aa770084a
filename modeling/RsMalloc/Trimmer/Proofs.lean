/-
What the trimmer thread does over whole runs.

# One trimmer

A thread that wins `TRIM_GUARD` owns the right to spawn until it has
spawned or has put the guard back (`Claim`). So there is never more
than one trimmer, and a failed spawn does not keep a later one from
succeeding.

# Relief

The buddy backend is off from a reading at or above the upper
percentage until two readings in a row are at or below the lower one
(`Under`): `relief_paths` keeps no more than that of its readings.

# The schedule

The counter of passes is an `i32` that grows by 100 and is compared
modulo 300. While it has not wrapped that is every third pass. Once it
has, a multiple of 100 is at a distance from the multiples of 300 that
comes back to 0 only after 25 wraps.
-/
import Mathlib.Tactic.Linarith
import RsMalloc.Trimmer.Model

namespace RsMalloc.Trimmer

open Conc

-- =========================================================== one trimmer

/-- What threads do to the state of `maybe_start_trimmer`: call it, or
change the number of cached bytes. -/
inductive Call where
  | maybeStartTrimmer
  | cached (bytes : Nat)

/-- The program of a call. -/
def Call.prog (trimThreshold : Nat) : Call → Prog Start Bool Unit
  | .maybeStartTrimmer => Trimmer.maybeStartTrimmer trimThreshold
  | .cached bytes => Prog.modify fun s => { s with totalCachedVa := bytes }

/-- Callers hold nothing. -/
def api (T : Type) (trimThreshold : Nat) :
    Api T Start Bool Call Unit Unit where
  prog _ := Call.prog trimThreshold
  takes _ := 0
  gives _ _ := 0

/-- No trimmer, and no thread in a call. -/
def start (T : Type) (bytes : Nat) : World T Start Bool Call Unit Unit where
  state := ⟨bytes, false, 0⟩
  live := 0
  thread _ := none

/-- `TRIM_GUARD` is set when there is a trimmer, or when a thread has
the right to spawn one: that thread owns a token. -/
inductive Claim (s : Start) (r : Multiset Unit) : Prop
  | free (guard : s.trimGuard = false) (none : s.trimmers = 0)
      (nobody : r = 0)
  | claimed (guard : s.trimGuard = true) (none : s.trimmers = 0)
      (owner : r = {()})
  | running (guard : s.trimGuard = true) (one : s.trimmers = 1)
      (nobody : r = 0)

/-- The owner of the token has the only one. -/
theorem Claim.owner {s : Start} {f : Multiset Unit}
    (h : Claim s ({()} + f)) :
    s.trimGuard = true ∧ s.trimmers = 0 ∧ f = 0 := by
  cases h with
  | free guard none nobody =>
      exact absurd nobody Multiset.cons_ne_zero
  | claimed guard none owner =>
      refine ⟨guard, none, ?_⟩
      exact (Multiset.cons_inj_right ()).1 owner
  | running guard one nobody =>
      exact absurd nobody Multiset.cons_ne_zero

/-- The owner spawns the trimmer, or puts the guard back. -/
theorem spawn_safe : Safe Claim (do
      let ok ← spawn
      Prog.when (!ok) (Prog.modify fun s => { s with trimGuard := false }) :
        Prog Start Bool Unit) (fun _ r => r = 0) {()} := by
  apply Safe.bind
  refine Safe.atomic fun ok s f hI => ?_
  obtain ⟨hguard, hnone, rfl⟩ := hI.owner
  cases ok with
  | true =>
      refine ⟨0, .running hguard ?_ rfl, rfl⟩
      show s.trimmers + 1 = 1
      rw [hnone]
  | false =>
      refine ⟨{()}, .claimed hguard hnone rfl, ?_⟩
      refine Safe.modify fun s f hI => ?_
      obtain ⟨-, hnone, rfl⟩ := hI.owner
      exact ⟨0, .free rfl hnone rfl, rfl⟩

theorem maybeStartTrimmer_safe (trimThreshold : Nat) :
    Safe Claim (maybeStartTrimmer trimThreshold) (fun _ r => r = 0) 0 := by
  unfold maybeStartTrimmer
  refine (Neutral.read _).andThen fun cached => ?_
  split
  · exact Safe.ret rfl
  refine (Neutral.read _).andThen fun guard => ?_
  split
  · exact Safe.ret rfl
  apply Safe.bind
  refine Safe.atomic fun ok s f hI => ?_
  rw [zero_add] at hI
  cases hguard : s.trimGuard with
  | true =>
      have hlost : compareExchange s = (false, s) := if_pos hguard
      rw [hlost]
      refine ⟨0, ?_, rfl⟩
      rw [zero_add]
      exact hI
  | false =>
      have hwon : compareExchange s = (true, { s with trimGuard := true }) :=
        if_neg (by rw [hguard]; decide)
      rw [hwon]
      cases hI with
      | free guard none nobody =>
          subst nobody
          exact ⟨{()}, .claimed rfl none rfl, spawn_safe⟩
      | claimed guard none owner =>
          rw [hguard] at guard
          cases guard
      | running guard one nobody =>
          rw [hguard] at guard
          cases guard

/-- Every call leaves its thread nothing. -/
theorem call_safe (trimThreshold : Nat) (c : Call) :
    Safe Claim (c.prog trimThreshold) (fun _ r => r = 0) 0 := by
  cases c with
  | maybeStartTrimmer => exact maybeStartTrimmer_safe trimThreshold
  | cached bytes =>
      refine Safe.modify fun s f hI => ⟨0, ?_, rfl⟩
      cases hI with
      | free guard none nobody => exact .free guard none nobody
      | claimed guard none owner => exact .claimed guard none owner
      | running guard one nobody => exact .running guard one nobody

/-- Alone, with enough cached bytes and no trimmer, a call whose spawn
succeeds starts one. -/
theorem maybeStartTrimmer_exec {trimThreshold : Nat} {s : Start}
    (h : trimThreshold ≤ s.totalCachedVa) (hguard : s.trimGuard = false) :
    (maybeStartTrimmer trimThreshold).exec (fun _ => true) s
      = some ((), { s with trimGuard := true, trimmers := s.trimmers + 1 }) := by
  obtain ⟨bytes, guard, trimmers⟩ := s
  obtain rfl : guard = false := hguard
  unfold maybeStartTrimmer
  simp only [Prog.bind_eq, Prog.read, Prog.exec_atomic]
  rw [if_neg (Nat.not_lt.2 h)]
  rfl

/-- However the threads' steps are interleaved there is at most one
trimmer. Between calls `TRIM_GUARD` says whether there is one; and if
there is none and enough is cached, a call whose spawn succeeds starts
one, whatever spawns have failed before. -/
theorem one_trimmer {T : Type} [Fintype T] [DecidableEq T]
    (trimThreshold bytes : Nat) {w : World T Start Bool Call Unit Unit}
    (hw : Reach (api T trimThreshold) (start T bytes) w) :
    w.state.trimmers ≤ 1
      ∧ ((∀ t, w.thread t = none) →
        (w.state.trimGuard = true ↔ w.state.trimmers = 1)
        ∧ (w.state.trimmers = 0 → trimThreshold ≤ w.state.totalCachedVa →
          ∃ s', (maybeStartTrimmer trimThreshold).exec (fun _ => true)
              w.state = some ((), s') ∧ s'.trimmers = 1)) := by
  -- a caller between calls has no token
  have hfirst : Owned (api T trimThreshold) Claim id (fun _ => False)
      (start T bytes) 0 (fun _ => 0) := by
    refine ⟨⟨rfl, nofun⟩, fun _ _ => rfl, ?_, nofun⟩
    rw [Finset.sum_const_zero, add_zero]
    exact .free rfl rfl rfl
  have hcall : ∀ (t : T) c r s f, StandsFor id (fun _ => False)
      ((api T trimThreshold).takes c) r → Claim s (r + f) →
      Safe Claim ((api T trimThreshold).prog t c) (fun a r' =>
        StandsFor id (fun _ => False) ((api T trimThreshold).gives c a) r')
        r := by
    rintro t c r s f ⟨hr, -⟩ -
    obtain rfl : r = 0 := (Multiset.map_id r).symm.trans hr
    refine (call_safe trimThreshold c).mono fun a r' hr' => ?_
    subst hr'
    exact ⟨rfl, nofun⟩
  obtain ⟨L, held, h⟩ := Owned.reach ⟨0, _, hfirst⟩ hcall hw
  have hL : L = 0 := Multiset.eq_zero_of_forall_notMem h.live.2
  have hinv := h.inv
  rw [hL, zero_add] at hinv
  refine ⟨?_, fun hidle => ?_⟩
  · cases hinv with
    | free guard none nobody => omega
    | claimed guard none owner => omega
    | running guard one nobody => omega
  · rw [Finset.sum_eq_zero fun t _ => h.idle t (hidle t)] at hinv
    have hexec : w.state.trimGuard = false → w.state.trimmers = 0 →
        trimThreshold ≤ w.state.totalCachedVa →
        ∃ s', (maybeStartTrimmer trimThreshold).exec (fun _ => true)
          w.state = some ((), s') ∧ s'.trimmers = 1 := by
      intro hguard hzero hbytes
      refine ⟨_, maybeStartTrimmer_exec hbytes hguard, ?_⟩
      show w.state.trimmers + 1 = 1
      rw [hzero]
    cases hinv with
    | free guard none nobody =>
        refine ⟨?_, hexec guard⟩
        rw [guard, none]
        decide
    | claimed guard none owner =>
        exact absurd owner.symm Multiset.cons_ne_zero
    | running guard one nobody =>
        refine ⟨iff_of_true guard one, fun hzero => ?_⟩
        rw [one] at hzero
        cases hzero

/-- Two threads want a trimmer; the spawn of the first fails, and the
second one's succeeds. -/
theorem one_trimmer_retry :
    ∃ w : World (Fin 2) Start Bool Call Unit Unit,
      (∀ t, w.thread t = none) ∧ w.state.trimmers = 1
      ∧ w.state.trimmers ≤ 1
      ∧ (w.state.trimGuard = true ↔ w.state.trimmers = 1) := by
  have h₀ : Reach (api (Fin 2) 10) (start (Fin 2) 16) _ := .init
  have h₁ := h₀.exec 0 .maybeStartTrimmer (fun _ => false) rfl
    (Multiset.zero_le _) rfl
  have h₂ := h₁.exec 1 .maybeStartTrimmer (fun _ => true) rfl
    (Multiset.zero_le _) rfl
  have h := one_trimmer 10 16 h₂
  exact ⟨_, fun _ => rfl, rfl, h.1, (h.2 fun _ => rfl).1⟩

-- ================================================================ relief

/-- Two readings in a row are at or below `enable`. -/
def Under (enable : Nat) (l : List Nat) : Prop :=
  ∃ x p q y, l = x ++ p :: q :: y ∧ p ≤ enable ∧ q ≤ enable

/-- Some reading was at or above `disable`, and no two in a row since
then were at or below `enable`. -/
def Pressed (disable enable : Nat) (l : List Nat) : Prop :=
  ∃ x p y, l = x ++ p :: y ∧ disable ≤ p ∧ ¬ Under enable y

/-- The last reading is at or below `enable`. -/
def LastUnder (enable : Nat) (l : List Nat) : Prop :=
  ∃ x p, l = x ++ [p] ∧ p ≤ enable

section Relief

variable {disable enable q : Nat} {l : List Nat}

theorem lastUnder_append : LastUnder enable (l ++ [q]) ↔ q ≤ enable := by
  constructor
  · rintro ⟨x, p, hl, hp⟩
    obtain ⟨-, hq⟩ := List.append_inj' hl rfl
    rw [List.singleton_inj.1 hq]
    exact hp
  · exact fun hq => ⟨l, q, rfl, hq⟩

/-- One more reading ends two in a row, if it and the one before are. -/
theorem under_append : Under enable (l ++ [q])
    ↔ Under enable l ∨ (LastUnder enable l ∧ q ≤ enable) := by
  constructor
  · rintro ⟨x, a, b, y, hl, ha, hb⟩
    rcases List.eq_nil_or_concat y with rfl | ⟨y, c, rfl⟩
    · have hl' : l ++ [q] = (x ++ [a]) ++ [b] := by simpa using hl
      obtain ⟨rfl, hq⟩ := List.append_inj' hl' rfl
      rw [List.singleton_inj.1 hq]
      exact Or.inr ⟨⟨x, a, rfl, ha⟩, hb⟩
    · have hl' : l ++ [q] = (x ++ a :: b :: y) ++ [c] := by simpa using hl
      exact Or.inl ⟨x, a, b, y, (List.append_inj' hl' rfl).1, ha, hb⟩
  · rintro (⟨x, a, b, y, rfl, ha, hb⟩ | ⟨⟨x, a, rfl, ha⟩, hq⟩)
    · exact ⟨x, a, b, y ++ [q], by simp, ha, hb⟩
    · exact ⟨x, a, q, [], by simp, ha, hq⟩

/-- One more reading sets the pressure off or is the second one under. -/
theorem pressed_append (h : enable < disable) :
    Pressed disable enable (l ++ [q]) ↔ disable ≤ q
      ∨ (Pressed disable enable l ∧ ¬ (LastUnder enable l ∧ q ≤ enable)) := by
  constructor
  · rintro ⟨x, p, y, hl, hp, hno⟩
    rcases List.eq_nil_or_concat y with rfl | ⟨y, c, rfl⟩
    · have hl' : l ++ [q] = x ++ [p] := hl
      obtain ⟨-, hq⟩ := List.append_inj' hl' rfl
      rw [List.singleton_inj.1 hq]
      exact Or.inl hp
    · have hl' : l ++ [q] = (x ++ p :: y) ++ [c] := by simpa using hl
      obtain ⟨rfl, hq⟩ := List.append_inj' hl' rfl
      obtain rfl := List.singleton_inj.1 hq
      rw [List.concat_eq_append, under_append, not_or] at hno
      refine Or.inr ⟨⟨x, p, y, rfl, hp, hno.1⟩, fun hlast => ?_⟩
      obtain ⟨⟨z, r, hz, hr⟩, hq⟩ := hlast
      -- the reading before is behind the one that set the pressure off
      rcases List.eq_nil_or_concat y with rfl | ⟨y, b, rfl⟩
      · obtain ⟨-, hpr⟩ := List.append_inj' hz rfl
        have := List.singleton_inj.1 hpr
        omega
      · have hz' : (x ++ p :: y) ++ [b] = z ++ [r] := by simpa using hz
        obtain ⟨-, hbr⟩ := List.append_inj' hz' rfl
        refine hno.2 ⟨⟨y, b, List.concat_eq_append, ?_⟩, hq⟩
        rw [List.singleton_inj.1 hbr]
        exact hr
  · rintro (hq | ⟨⟨x, p, y, rfl, hp, hno⟩, hlast⟩)
    · refine ⟨l, q, [], rfl, hq, ?_⟩
      rintro ⟨x, a, b, y, hl, -⟩
      cases x <;> cases hl
    · refine ⟨x, p, y ++ [q], by simp, hp, fun hunder => ?_⟩
      rcases under_append.1 hunder with hu | ⟨⟨z, r, rfl, hr⟩, hq⟩
      · exact hno hu
      · exact hlast ⟨⟨x ++ p :: z, r, by simp, hr⟩, hq⟩

/-- What `DISABLE_BUDDY` and `UNDER_AFTER` remember of the readings. -/
structure Remembers (disable enable : Nat) (l : List Nat) (s : Relief) :
    Prop where
  off : s.disableBuddy = true ↔ Pressed disable enable l
  le : s.underAfter ≤ 1
  one : s.underAfter = 1 ↔ s.disableBuddy = true ∧ LastUnder enable l

theorem remembers_new : Remembers disable enable [] ⟨false, 0⟩ where
  off := by
    refine iff_of_false Bool.false_ne_true ?_
    rintro ⟨x, p, y, hl, -⟩
    cases x <;> cases hl
  le := Nat.zero_le 1
  one := iff_of_false Nat.zero_ne_one fun h => Bool.false_ne_true h.1

/-- One reading. -/
theorem Remembers.step {s : Relief} (h : enable < disable)
    (hs : Remembers disable enable l s) :
    Remembers disable enable (l ++ [q]) (reliefPaths disable enable q s).2
      ∧ ((reliefPaths disable enable q s).1 = true
        ↔ disable ≤ q ∧ ¬ Pressed disable enable l) := by
  obtain ⟨off, underAfter⟩ := s
  obtain ⟨hoff, hle, hone⟩ := hs
  simp only at hoff hle hone
  rw [← hoff]
  unfold reliefPaths
  cases off with
  | false =>
      have hpressed : ¬ Pressed disable enable l := by
        rw [← hoff]
        decide
      by_cases hq : disable ≤ q
      · have hlast : ¬ q ≤ enable := by omega
        simp only [hq, Bool.not_false, and_self, if_true]
        refine ⟨⟨?_, Nat.zero_le 1, ?_⟩, by simp⟩
        · simp [pressed_append h, hq]
        · simp [lastUnder_append, hlast]
      · simp only [hq, Bool.false_eq_true, false_and, if_false]
        refine ⟨⟨?_, Nat.zero_le 1, ?_⟩, by simp⟩
        · simp [pressed_append h, hq, hpressed]
        · simp
  | true =>
      have hpressed : Pressed disable enable l := hoff.1 rfl
      simp only [Bool.not_true, Bool.false_eq_true, and_false, if_false,
        true_and]
      by_cases hq : q ≤ enable
      · have hlt : ¬ disable ≤ q := by omega
        rw [if_pos hq]
        by_cases hlast : LastUnder enable l
        · have hunder : underAfter = 1 := hone.2 ⟨rfl, hlast⟩
          rw [hunder]
          refine ⟨⟨?_, Nat.zero_le 1, ?_⟩, by simp⟩
          · simp [pressed_append h, hlt, hlast, hq]
          · simp
        · have hunder : underAfter = 0 := by
            by_contra hne
            exact hlast (hone.1 (by omega)).2
          have hfew : ¬ enableAfter ≤ 0 + 1 := by decide
          rw [hunder, if_neg hfew]
          refine ⟨⟨?_, le_rfl, ?_⟩, by simp⟩
          · simp [pressed_append h, hpressed, hlast]
          · simp [lastUnder_append, hq]
      · rw [if_neg hq]
        refine ⟨⟨?_, Nat.zero_le 1, ?_⟩, by simp⟩
        · simp [pressed_append h, hpressed, hq]
        · simp [lastUnder_append, hq]

end Relief

-- ========================================================== whole runs

/-- The readings of a run. -/
def readings (acts : List Action) : List Nat :=
  acts.filterMap fun
    | .relief pressure => some pressure
    | _ => none

section Pass

variable {set : Settings} {t : Tick} {s : Loop}

/-- A pass that takes no reading, or one that does. -/
theorem passRelief_cases (set : Settings) (t : Tick) (s : Loop) :
    (¬ (300 ∣ wrapI32 (s.totalElapsed + 100) ∧ set.disableRelief = false)
      ∧ passRelief set t s
        = ([], { s with totalElapsed := wrapI32 (s.totalElapsed + 100) }))
    ∨ ((300 ∣ wrapI32 (s.totalElapsed + 100) ∧ set.disableRelief = false)
      ∧ passRelief set t s
        = (.relief (checkMemoryPressure t.info)
            :: (if (reliefPaths set.disablePercentage set.enablePercentage
                (checkMemoryPressure t.info) s.relief).1
              then [.trimBuddy] else []),
          { s with
            totalElapsed := wrapI32 (s.totalElapsed + 100)
            relief := (reliefPaths set.disablePercentage
              set.enablePercentage (checkMemoryPressure t.info)
              s.relief).2 })) := by
  have hiff : ((wrapI32 (s.totalElapsed + 100)).tmod 300 = 0
      ∧ (!set.disableRelief) = true)
      ↔ (300 ∣ wrapI32 (s.totalElapsed + 100)
        ∧ set.disableRelief = false) := by
    rw [Int.dvd_iff_tmod_eq_zero, Bool.not_eq_true']
  unfold passRelief
  simp only
  by_cases h : 300 ∣ wrapI32 (s.totalElapsed + 100)
      ∧ set.disableRelief = false
  · exact Or.inr ⟨h, if_pos (hiff.2 h)⟩
  · exact Or.inl ⟨h, if_neg (mt hiff.1 h)⟩

@[simp] theorem readings_append (a b : List Action) :
    readings (a ++ b) = readings a ++ readings b := List.filterMap_append

/-- The second half of a pass is not about relief. -/
theorem passTrim_keeps (set : Settings) (t : Tick) (s : Loop) :
    readings (passTrim set t s).1 = []
      ∧ (passTrim set t s).2.totalElapsed = s.totalElapsed
      ∧ (passTrim set t s).2.relief = s.relief := by
  unfold passTrim
  simp only
  split
  · exact ⟨rfl, rfl, rfl⟩
  · exact ⟨rfl, rfl, rfl⟩

/-- What a pass does about relief. -/
theorem pass_relief (set : Settings) (t : Tick) (s : Loop) :
    (pass set t s).2.totalElapsed = wrapI32 (s.totalElapsed + 100)
      ∧ ((¬ (300 ∣ wrapI32 (s.totalElapsed + 100)
            ∧ set.disableRelief = false)
          ∧ readings (pass set t s).1 = []
          ∧ (pass set t s).2.relief = s.relief)
        ∨ ((300 ∣ wrapI32 (s.totalElapsed + 100)
            ∧ set.disableRelief = false)
          ∧ readings (pass set t s).1 = [checkMemoryPressure t.info]
          ∧ (pass set t s).2.relief
            = (reliefPaths set.disablePercentage set.enablePercentage
              (checkMemoryPressure t.info) s.relief).2)) := by
  obtain ⟨hnone, helapsed, hrelief⟩ :=
    passTrim_keeps set t (passRelief set t s).2
  have hstate : (pass set t s).2 = (passTrim set t (passRelief set t s).2).2 :=
    rfl
  have hacts : readings (pass set t s).1
      = readings (passRelief set t s).1 := by
    show readings (_ ++ _) = _
    rw [readings_append, hnone, List.append_nil]
  rw [hstate, helapsed, hrelief, hacts]
  rcases passRelief_cases set t s with ⟨hdue, heq⟩ | ⟨hdue, heq⟩
  · rw [heq]
    exact ⟨rfl, Or.inl ⟨hdue, rfl, rfl⟩⟩
  · rw [heq]
    refine ⟨rfl, Or.inr ⟨hdue, ?_, rfl⟩⟩
    split
    · rfl
    · rfl

end Pass

section Runs

variable {set : Settings} {ts : List Tick} {s : Loop}

theorem trimmerMain_append (ts : List Tick) (t : Tick) (s : Loop) :
    trimmerMain set (ts ++ [t]) s
      = ((trimmerMain set ts s).1 ++ (pass set t (trimmerMain set ts s).2).1,
        (pass set t (trimmerMain set ts s).2).2) := by
  induction ts generalizing s with
  | nil => simp [trimmerMain]
  | cons u ts ih => simp [trimmerMain, ih]

/-- The counter after a run. -/
theorem trimmerMain_elapsed (set : Settings) (ts : List Tick) (s : Loop) :
    wrapI32 (trimmerMain set ts s).2.totalElapsed
      = wrapI32 (s.totalElapsed + 100 * ts.length) := by
  induction ts generalizing s with
  | nil => simp [trimmerMain]
  | cons t ts ih =>
      show wrapI32 (trimmerMain set ts (pass set t s).2).2.totalElapsed = _
      rw [ih, (pass_relief set t s).1]
      unfold wrapI32
      rw [Int.bmod_add_bmod]
      congr 1
      rw [List.length_cons]
      omega

/-- A run remembers its readings. -/
theorem trimmerMain_remembers (h : set.enablePercentage
      < set.disablePercentage) {l : List Nat}
    (hs : Remembers set.disablePercentage set.enablePercentage l s.relief) :
    Remembers set.disablePercentage set.enablePercentage
      (l ++ readings (trimmerMain set ts s).1)
      (trimmerMain set ts s).2.relief := by
  induction ts generalizing s l with
  | nil =>
      show Remembers _ _ (l ++ []) s.relief
      rw [List.append_nil]
      exact hs
  | cons t ts ih =>
      show Remembers _ _ (l ++ readings ((pass set t s).1 ++ _)) _
      rw [readings_append, ← List.append_assoc]
      refine ih ?_
      rcases (pass_relief set t s).2 with ⟨-, hread, hrel⟩ | ⟨-, hread, hrel⟩
      · rw [hread, hrel, List.append_nil]
        exact hs
      · rw [hread, hrel]
        exact (hs.step h).1

/-- The pass after a run finds the counter at a multiple of 100, as far
as it has wrapped. -/
theorem trimmerMain_due (set : Settings) (ts : List Tick) (relief : Relief)
    (stamp : Nat) :
    wrapI32 ((trimmerMain set ts (Loop.new relief stamp)).2.totalElapsed
        + 100)
      = wrapI32 (100 * (ts.length + 1 : Nat)) := by
  have h := trimmerMain_elapsed set ts (Loop.new relief stamp)
  unfold wrapI32 at h ⊢
  rw [← Int.bmod_add_bmod, h, Int.bmod_add_bmod]
  congr 1
  show (0 : Int) + 100 * ts.length + 100 = _
  omega

end Runs

/-- A wrapped value is some number of wraps away. -/
theorem wrapI32_eq (x : Int) : ∃ k : Int, wrapI32 x = x - 4294967296 * k
    ∧ -2147483648 ≤ wrapI32 x ∧ wrapI32 x < 2147483648 := by
  have hwrap : wrapI32 x = if x % 4294967296 < 2147483648
      then x % 4294967296 else x % 4294967296 - 4294967296 := rfl
  have hdiv := Int.emod_def x 4294967296
  split at hwrap
  · exact ⟨x / 4294967296, by omega, by omega, by omega⟩
  · exact ⟨x / 4294967296 + 1, by omega, by omega, by omega⟩

/-- Before the counter wraps every third pass is due; the first 24 wraps
leave it at no multiple of 300. -/
theorem due_iff {n : Nat} (hn : n ≤ 1052266987) :
    300 ∣ wrapI32 (100 * (n : Int)) ↔ 3 ∣ n ∧ n ≤ 21474836 := by
  obtain ⟨k, hk, hlow, hhigh⟩ := wrapI32_eq (100 * (n : Int))
  have hwraps : 0 ≤ k ∧ k ≤ 24 := by omega
  rw [hk] at hlow hhigh ⊢
  constructor
  · rintro ⟨q, hq⟩
    -- a multiple of 100 is left only after a multiple of 25 wraps
    have heq : 1073741824 * k = 25 * (n - 3 * q) := by linarith
    have hdvd : (25 : Int) ∣ k :=
      Int.dvd_of_dvd_mul_right_of_gcd_one ⟨_, heq⟩ (by decide)
    have hzero : k = 0 :=
      Int.eq_zero_of_dvd_of_nonneg_of_lt hwraps.1
        (Int.lt_add_one_of_le hwraps.2) hdvd
    subst hzero
    omega
  · rintro ⟨hthird, hsmall⟩
    have hzero : k = 0 := by omega
    subst hzero
    omega

/-- From statics that remember the readings `l` of earlier trimmers, the
buddy backend is off after a run exactly when some reading was at or
above the upper percentage and no two in a row since then were at or
below the lower one; and the statics remember the readings of the run
too. -/
theorem relief_hysteresis (set : Settings) (ts : List Tick) (stamp : Nat)
    (h : set.enablePercentage < set.disablePercentage) {l : List Nat}
    {relief : Relief}
    (hl : Remembers set.disablePercentage set.enablePercentage l relief) :
    ((trimmerMain set ts (Loop.new relief stamp)).2.relief.disableBuddy = true
      ↔ Pressed set.disablePercentage set.enablePercentage
        (l ++ readings (trimmerMain set ts (Loop.new relief stamp)).1))
    ∧ Remembers set.disablePercentage set.enablePercentage
        (l ++ readings (trimmerMain set ts (Loop.new relief stamp)).1)
        (trimmerMain set ts (Loop.new relief stamp)).2.relief := by
  have hrun : Remembers _ _ _
      (trimmerMain set ts (Loop.new relief stamp)).2.relief :=
    trimmerMain_remembers h hl
  exact ⟨hrun.off, hrun⟩

/-- After the readings 90 and 70 of a first trimmer, the third pass of
the next one reads 60: the backend is on again. -/
theorem relief_hysteresis_on :
    Remembers 85 80 [90, 70] ⟨true, 1⟩
      ∧ (trimmerMain ⟨false, false, 85, 80⟩
        (List.replicate 3 ⟨⟨100, 40, 0, 0, 1⟩, 300, 10⟩)
        (Loop.new ⟨true, 1⟩ 0)).2.relief.disableBuddy = false
      ∧ ¬ Pressed 85 80 ([90, 70] ++ readings
        (trimmerMain ⟨false, false, 85, 80⟩
          (List.replicate 3 ⟨⟨100, 40, 0, 0, 1⟩, 300, 10⟩)
          (Loop.new ⟨true, 1⟩ 0)).1) := by
  have hl : Remembers 85 80 [90, 70] ⟨true, 1⟩ :=
    ((remembers_new.step (q := 90) (by decide)).1.step (q := 70)
      (by decide)).1
  have hrun := relief_hysteresis ⟨false, false, 85, 80⟩
    (List.replicate 3 ⟨⟨100, 40, 0, 0, 1⟩, 300, 10⟩) 0 (by decide) hl
  exact ⟨hl, by decide, fun hp => absurd (hrun.1.2 hp) (by decide)⟩

/-- A run of `n` passes takes `n / 3` readings until the counter wraps,
and for the next three years none. -/
theorem readings_stop (set : Settings) (ts : List Tick) (relief : Relief)
    (stamp : Nat) (hon : set.disableRelief = false)
    (hlen : ts.length ≤ 1052266987) :
    (readings (trimmerMain set ts (Loop.new relief stamp)).1).length
      = min ts.length 21474836 / 3 := by
  induction ts using List.reverseRecOn with
  | nil => rfl
  | append_singleton ts t ih =>
      rw [List.length_append, List.length_singleton] at hlen ⊢
      have hprev := ih (by omega)
      have hdue := due_iff (n := ts.length + 1) hlen
      rw [← trimmerMain_due set ts relief stamp] at hdue
      rw [trimmerMain_append, readings_append, List.length_append, hprev]
      rcases (pass_relief set t
          (trimmerMain set ts (Loop.new relief stamp)).2).2
        with ⟨hno, hread, -⟩ | ⟨hyes, hread, -⟩
      · rw [hread]
        have hnot : ¬ (3 ∣ ts.length + 1 ∧ ts.length + 1 ≤ 21474836) :=
          fun h => hno ⟨hdue.2 h, hon⟩
        rw [List.length_nil]
        omega
      · rw [hread]
        have hthird := hdue.1 hyes.1
        rw [List.length_singleton]
        omega

/-- Of 30000000 passes the last 8525164 take no reading. -/
theorem readings_stop_wrapped :
    (readings (trimmerMain ⟨false, false, 85, 80⟩
        (List.replicate 30000000 ⟨⟨100, 5, 0, 0, 1⟩, 300, 10⟩)
        (Loop.new ⟨false, 0⟩ 0)).1).length = 7158278 := by
  have h := readings_stop ⟨false, false, 85, 80⟩
    (List.replicate 30000000 ⟨⟨100, 5, 0, 0, 1⟩, 300, 10⟩) ⟨false, 0⟩ 0 rfl
    (by rw [List.length_replicate]; decide)
  rw [List.length_replicate] at h
  exact h

end RsMalloc.Trimmer
