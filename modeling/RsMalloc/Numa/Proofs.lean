/-
The topology covers every CPU.

`Populated` is the invariant of the first loop of `populate_cpu_ranges`:
each CPU seen so far lies in the interval of its node, and no interval
goes beyond the CPUs seen. `Covers` is what the slab cache relies on.
-/
import RsMalloc.Numa.Model

namespace RsMalloc.Numa

-- ============================================================== budgets

theorem skip_le (bytes : List Nat) :
    (skipAsciiWhitespace bytes).length ≤ bytes.length :=
  (List.dropWhile_sublist _).length_le

variable {bytes : List Nat} {rest : List Nat}

theorem parseDigits_le {n n' : Nat}
    (h : parseDigits n bytes = some (n', rest)) :
    rest.length ≤ bytes.length := by
  induction bytes generalizing n with
  | nil =>
      rw [parseDigits] at h
      cases h
      exact le_refl _
  | cons b bytes ih =>
      rw [parseDigits] at h
      split at h
      · cases hm : checkedMul n 10 with
        | none => simp [hm] at h
        | some m =>
            cases ha : checkedAdd m (b - 48) with
            | none => simp [hm, ha] at h
            | some k =>
                simp only [hm, ha, Option.bind_eq_bind, Option.bind_some] at h
                exact (ih h).trans (Nat.le_succ _)
      · cases h
        exact le_refl _

/-- A number has a digit. -/
theorem parseUsize_lt {n : Nat} (h : parseUsize bytes = some (n, rest)) :
    rest.length < bytes.length := by
  cases bytes with
  | nil => cases h
  | cons b bytes =>
      rw [parseUsize] at h
      split at h
      · next hd =>
        rw [parseDigits, if_pos hd] at h
        cases ha : checkedAdd 0 (b - 48) with
        | none => simp [checkedMul, ha] at h
        | some k =>
            simp only [checkedMul, Nat.zero_mul, Nat.two_pow_pos, if_true, ha,
              Option.bind_eq_bind, Option.bind_some] at h
            exact Nat.lt_succ_of_le (parseDigits_le h)
      · cases h

theorem parseEnd_le {start n : Nat}
    (h : parseEnd start bytes = some (n, rest)) :
    rest.length ≤ bytes.length := by
  unfold parseEnd at h
  split at h
  · have hlt := parseUsize_lt h
    have hskip := skip_le ‹List Nat›
    simp only [List.length_cons]
    omega
  · cases h
    exact le_refl _

theorem parseSeparator_le (h : parseSeparator bytes = some rest) :
    rest.length ≤ bytes.length := by
  cases bytes with
  | nil =>
      cases h
      exact le_refl _
  | cons b bytes =>
      rw [parseSeparator] at h
      split at h
      · cases h
        exact (skip_le bytes).trans (Nat.le_succ _)
      · cases h

/-- What `parse_range` has read when it succeeds. -/
theorem parseRange_eq_some {r : NumberRange}
    (h : parseRange bytes = some (r, rest)) :
    ∃ b₁ b₂, parseUsize bytes = some (r.start, b₁)
      ∧ parseEnd r.start (skipAsciiWhitespace b₁) = some (r.end_, b₂)
      ∧ parseSeparator (skipAsciiWhitespace b₂) = some rest
      ∧ r.start ≤ r.end_ := by
  unfold parseRange at h
  cases hu : parseUsize bytes with
  | none => simp [hu] at h
  | some x =>
      obtain ⟨start, b₁⟩ := x
      cases he : parseEnd start (skipAsciiWhitespace b₁) with
      | none => simp [hu, he] at h
      | some y =>
          obtain ⟨end_, b₂⟩ := y
          cases hs : parseSeparator (skipAsciiWhitespace b₂) with
          | none => simp [hu, he, hs] at h
          | some b₃ =>
              simp only [hu, he, hs, Option.bind_eq_bind,
                Option.bind_some] at h
              split at h
              · next hle =>
                cases h
                exact ⟨b₁, b₂, rfl, he, hs, hle⟩
              · cases h

/-- A range takes a byte. -/
theorem parseRange_lt {r : NumberRange}
    (h : parseRange bytes = some (r, rest)) : rest.length < bytes.length := by
  obtain ⟨b₁, b₂, hu, he, hs, -⟩ := parseRange_eq_some h
  have h₁ := parseUsize_lt hu
  have h₂ := parseEnd_le he
  have h₃ := parseSeparator_le hs
  have h₄ := skip_le b₁
  have h₅ := skip_le b₂
  omega

/-- The budget of `parse_number_ranges` never runs out. -/
theorem numberRanges_fuel {fuel : Nat} (h : bytes.length ≤ fuel) :
    numberRanges fuel bytes = parseNumberRanges bytes := by
  -- any two budgets that are large enough agree
  have hagree : ∀ n m : Nat, ∀ bytes : List Nat, bytes.length ≤ n →
      bytes.length ≤ m → numberRanges n bytes = numberRanges m bytes := by
    intro n
    induction n with
    | zero =>
        intro m bytes hn _
        have hnil : bytes = [] := List.eq_nil_of_length_eq_zero (by omega)
        subst hnil
        cases m with
        | zero => rfl
        | succ m => rfl
    | succ n ih =>
        intro m bytes hn hm
        have hskip := skip_le bytes
        cases hb : skipAsciiWhitespace bytes with
        | nil =>
            rw [numberRanges, numberRanges, hb]
        | cons b rest =>
            rw [hb, List.length_cons] at hskip
            cases m with
            | zero => omega
            | succ m =>
                rw [numberRanges, numberRanges, hb]
                simp only
                cases hr : parseRange (b :: rest) with
                | none => rfl
                | some x =>
                    obtain ⟨r, rest'⟩ := x
                    have hlt := parseRange_lt hr
                    rw [List.length_cons] at hlt
                    simp only [Option.bind_eq_bind, Option.bind_some]
                    rw [ih m rest' (by omega) (by omega)]
  exact hagree _ _ bytes h (le_refl _)

-- ========================================================= the intervals

/-- The CPUs below `k` have been seen. -/
structure Populated (nranges k : Nat) (cpuToNode : Nat → Nat)
    (cpuRanges : Nat → Nat × Nat) : Prop where
  node : ∀ c < k, cpuToNode c < nranges
    ∧ (cpuRanges (cpuToNode c)).1 ≤ c ∧ c ≤ (cpuRanges (cpuToNode c)).2
  seen : ∀ c < k, (cpuRanges (cpuToNode c)).1 ≠ usizeMax
  range : ∀ n, (cpuRanges n).1 = usizeMax
    ∨ (cpuRanges n).1 ≤ (cpuRanges n).2 ∧ (cpuRanges n).2 < k

theorem populateLoop_populated {nranges n k : Nat} (hpos : 0 < nranges)
    (hk : k + n ≤ usizeMax) {cpuToNode : Nat → Nat}
    {cpuRanges : Nat → Nat × Nat}
    (h : Populated nranges k cpuToNode cpuRanges) :
    Populated nranges (k + n)
      (populateLoop nranges n k cpuToNode cpuRanges).1
      (populateLoop nranges n k cpuToNode cpuRanges).2 := by
  induction n generalizing k cpuToNode cpuRanges with
  | zero => exact h
  | succ n ih =>
      rw [populateLoop, show k + (n + 1) = k + 1 + n by omega]
      apply ih (by omega)
      -- the node of this CPU, and that no other CPU's node changes
      generalize hf : (if cpuToNode k = invalidNode ∨ cpuToNode k ≥ nranges
        then Function.update cpuToNode k 0 else cpuToNode) = f
      have hnode : f k < nranges := by
        rw [← hf]
        split
        · rw [Function.update_self]
          exact hpos
        · omega
      have hother : ∀ c < k, f c = cpuToNode c := by
        intro c hc
        rw [← hf]
        split
        · exact Function.update_of_ne (by omega) _ _
        · rfl
      -- the interval of this node starts at a CPU seen so far
      generalize hst : (if (cpuRanges (f k)).1 = usizeMax then k
        else (cpuRanges (f k)).1) = start
      have hstart : start ≤ k := by
        rw [← hst]
        split
        · exact le_refl _
        · next hne =>
          obtain ⟨hle, hlt⟩ := (h.range (f k)).resolve_left hne
          omega
      have hsame : ∀ c < k, cpuToNode c = f k →
          start = (cpuRanges (f k)).1 := by
        intro c hc heq
        rw [← hst, if_neg (heq ▸ h.seen c hc)]
      have hnew : ∀ c < k + 1, f c < nranges
          ∧ (Function.update cpuRanges (f k) (start, k) (f c)).1 ≤ c
          ∧ c ≤ (Function.update cpuRanges (f k) (start, k) (f c)).2 := by
        intro c hc
        by_cases hck : c = k
        · subst hck
          rw [Function.update_self]
          exact ⟨hnode, hstart, le_refl _⟩
        · have hlt : c < k := by omega
          obtain ⟨hn, hlo, hhi⟩ := h.node c hlt
          rw [hother c hlt]
          by_cases heq : cpuToNode c = f k
          · rw [heq, Function.update_self]
            simp only
            rw [hsame c hlt heq]
            rw [heq] at hn hlo
            exact ⟨hn, hlo, by omega⟩
          · rw [Function.update_of_ne heq]
            exact ⟨hn, hlo, hhi⟩
      refine ⟨hnew, ?_, ?_⟩
      · intro c hc
        have hlo := (hnew c hc).2.1
        omega
      · intro m
        by_cases heq : m = f k
        · subst heq
          rw [Function.update_self]
          exact Or.inr ⟨hstart, Nat.lt_succ_self k⟩
        · rw [Function.update_of_ne heq]
          cases h.range m with
          | inl hmax => exact Or.inl hmax
          | inr hlt => exact Or.inr ⟨hlt.1, by omega⟩

/-- Each CPU lies in the interval of its node, and no interval goes
beyond the last CPU. -/
theorem populateCpuRanges_spec {ncpu nranges : Nat} (hpos : 0 < nranges)
    (hncpu : 0 < ncpu) (hmax : ncpu ≤ usizeMax) (cpuToNode : Nat → Nat) :
    let out := populateCpuRanges ncpu nranges cpuToNode
      fun _ => (usizeMax, 0)
    (∀ c < ncpu, out.1 c < nranges ∧ (out.2 (out.1 c)).1 ≤ c
        ∧ c ≤ (out.2 (out.1 c)).2)
      ∧ ∀ n < nranges, (out.2 n).2 < ncpu := by
  have hnew : Populated nranges 0 cpuToNode fun _ => (usizeMax, 0) :=
    ⟨fun c hc => absurd hc (Nat.not_lt_zero c),
      fun c hc => absurd hc (Nat.not_lt_zero c), fun _ => Or.inl rfl⟩
  have h := populateLoop_populated (n := ncpu) hpos (by omega) hnew
  rw [Nat.zero_add] at h
  simp only [populateCpuRanges]
  constructor
  · intro c hc
    rw [if_neg fun hm => h.seen c hc hm.2]
    exact h.node c hc
  · intro n hn
    split
    · exact hncpu
    · next hne => exact ((h.range n).resolve_left fun hm => hne ⟨hn, hm⟩).2

-- ============================================================== coverage

/-- What the slab cache relies on: each class has a bit for every CPU,
and on a NUMA machine the intervals cover the CPUs and nothing else. -/
structure Covers (cfg : Config) : Prop where
  words : cfg.ncpu ≤ 64 * cfg.bitmapWords
  node : cfg.isNuma = true → ∀ c < cfg.ncpu,
    cfg.cpuToNode c < cfg.nranges ∧ (cfg.cpuRange (cfg.cpuToNode c)).1 ≤ c
      ∧ c ≤ (cfg.cpuRange (cfg.cpuToNode c)).2
  range : cfg.isNuma = true → 0 < cfg.ncpu →
    ∀ n < cfg.nranges, (cfg.cpuRange n).2 < cfg.ncpu

/-- A topology with more than one node comes from
`populate_cpu_ranges`. -/
theorem parseNumaTopology_spec {sys : Sys} {ncpu : Nat} {t : NumaTopology}
    (h : parseNumaTopology sys ncpu = some t) (hn : 1 < t.nnodes) :
    ∃ nranges cpuToNode, 0 < nranges
      ∧ t.nranges = nranges
      ∧ (t.cpuToNode, t.cpuRanges) = populateCpuRanges ncpu nranges
          cpuToNode fun _ => (usizeMax, 0) := by
  have hsingle : singleNodeTopology sys ncpu ≠ some t := by
    intro hs
    unfold singleNodeTopology at hs
    split at hs
    · cases hs
      exact absurd hn (Nat.lt_irrefl 1)
    · cases hs
  unfold parseNumaTopology at h
  split at h
  · exact absurd h hsingle
  · next online _ =>
    cases hl : parseNumberList online with
    | none => simp [hl] at h
    | some nodes =>
        simp only [hl, Option.bind_eq_bind, Option.bind_some] at h
        split at h
        · exact absurd h hsingle
        · split at h
          · cases hr : readNodes sys ncpu (nodes.filter (· < 65536))
                fun _ => invalidNode with
            | none => simp [hr] at h
            | some f =>
                simp only [hr, Option.bind_some] at h
                cases h
                exact ⟨_, f, Nat.succ_pos _, rfl, rfl⟩
          · cases h

theorem ensureCache_ncpu (sys : Sys) (ncpu : Nat) (cfg : Config) :
    (ensureCache sys ncpu cfg).ncpu = ncpu := by
  unfold ensureCache
  split
  · rfl
  · rfl

/-- The cache that `ensure_cache` sets up is covered, whatever the
system answers. -/
theorem ensureCache_covers (sys : Sys) {ncpu : Nat} (hmax : ncpu ≤ usizeMax)
    (cfg : Config) : Covers (ensureCache sys ncpu cfg) := by
  have hwords : ncpu ≤ 64 * max ((ncpu + 1 + 63) / 64) 1 := by omega
  unfold ensureCache
  cases ht : parseNumaTopology sys ncpu with
  | none => exact ⟨hwords, fun h => (Bool.false_ne_true h).elim,
      fun h => (Bool.false_ne_true h).elim⟩
  | some t =>
      refine ⟨hwords, fun h c hc => ?_, fun h hpos n hn => ?_⟩
      · obtain ⟨nranges, f, hpos, hnr, hpop⟩ :=
          parseNumaTopology_spec ht (of_decide_eq_true h)
        have hspec := (populateCpuRanges_spec hpos
          (Nat.lt_of_le_of_lt (Nat.zero_le c) hc) hmax f).1 c hc
        rw [← hpop] at hspec
        simp only at hspec ⊢
        rw [hnr]
        exact hspec
      · obtain ⟨nranges, f, hpos', hnr, hpop⟩ :=
          parseNumaTopology_spec ht (of_decide_eq_true h)
        simp only at hn hpos ⊢
        rw [hnr] at hn
        have hspec := (populateCpuRanges_spec hpos' hpos hmax f).2 n hn
        rw [← hpop] at hspec
        exact hspec

end RsMalloc.Numa
