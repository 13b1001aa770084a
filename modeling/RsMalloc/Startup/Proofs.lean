/-
What starting the allocator makes sure of: whatever `getrandom` answers,
the magic values and the tag are what the heap needs (`Secrets`).
-/
import RsMalloc.Heap.Calls
import RsMalloc.Startup.Model

namespace RsMalloc.Startup

variable {random : Nat → Option Nat} {fuel : Nat} {s t : Statics}

/-- The configuration of the heap. -/
def Statics.config (s : Statics) (cfg : Config) : Config :=
  { cfg with
    maxRefillRetries := s.maxRefillRetries
    arenaSize := s.arenaSize
    predictorInitBatch := s.predictorInitBatch
    magic := s.magic
    freedMagic := s.freedMagic
    bigMagic := s.bigMagic
    alignTag := s.alignTag
    rsDisableThp := s.rsDisableThp }

/-- A loop that draws again ends with a value that needs no other. -/
theorem redraw_spec {bits value i v j : Nat} {again : Nat → Bool}
    (hlt : value < 2 ^ bits)
    (h : redraw random bits again fuel value i = some (v, j)) :
    v < 2 ^ bits ∧ again v = false := by
  induction fuel generalizing value i with
  | zero =>
      unfold redraw at h
      split at h
      · cases h
      · next hdone =>
        cases h
        exact ⟨hlt, by simpa using hdone⟩
  | succ n ih =>
      unfold redraw at h
      split at h
      · obtain ⟨bytes, -, hrest⟩ := Option.bind_eq_some_iff.1 h
        exact ih (Nat.mod_lt _ (Nat.two_pow_pos bits)) hrest
      · next hdone =>
        cases h
        exact ⟨hlt, by simpa using hdone⟩

theorem initMagic_spec {i : Nat}
    (h : initMagic random fuel s = some (t, i)) :
    ∃ main < 2 ^ 16, ∃ freed < 2 ^ 16, ∃ big < 2 ^ 16, main ≠ freed
      ∧ main ≠ big ∧ freed ≠ big ∧ t = { s with
        magic := main, freedMagic := freed, bigMagic := big } := by
  have hmod : ∀ n, n % 2 ^ 16 < 2 ^ 16 := fun n =>
    Nat.mod_lt n (Nat.two_pow_pos 16)
  obtain ⟨main, -, h⟩ := Option.bind_eq_some_iff.1 h
  obtain ⟨freed, -, h⟩ := Option.bind_eq_some_iff.1 h
  obtain ⟨big, -, h⟩ := Option.bind_eq_some_iff.1 h
  obtain ⟨⟨freed', j⟩, hfreed, h⟩ := Option.bind_eq_some_iff.1 h
  obtain ⟨⟨big', k⟩, hbig, h⟩ := Option.bind_eq_some_iff.1 h
  obtain ⟨hlt, hne⟩ := redraw_spec (hmod freed) hfreed
  obtain ⟨hlt', hne'⟩ := redraw_spec (hmod big) hbig
  cases h
  simp only [beq_eq_false_iff_ne, Bool.or_eq_false_iff] at hne hne'
  exact ⟨_, hmod main, freed', hlt, big', hlt', Ne.symm hne,
    Ne.symm hne'.2, Ne.symm hne'.1, rfl⟩

theorem initAlign_spec {i : Nat}
    (h : initAlign random fuel i s = some t) :
    ∃ tag < 2 ^ 64, tag ≠ 0 ∧ t = { s with alignTag := tag } := by
  obtain ⟨main, -, h⟩ := Option.bind_eq_some_iff.1 h
  obtain ⟨⟨tag, j⟩, htag, h⟩ := Option.bind_eq_some_iff.1 h
  obtain ⟨hlt, hne⟩ :=
    redraw_spec (Nat.mod_lt main (Nat.two_pow_pos 64)) htag
  cases h
  exact ⟨tag, hlt, by simpa using hne, rfl⟩

/-- The statics are those of the environment and the compiled-in magic
values, or magic values were drawn. -/
theorem bootstrap_cases {rseqSize : Nat} {rseqOffset : Int}
    {environ : List (List Nat)}
    (h : bootstrap rseqSize rseqOffset random fuel environ = some s) :
    (getEnvUsize "RS_DISABLE_RANDOMIZING" environ).getD 0 ≠ 0
        ∧ s = fromEnviron environ {}
      ∨ (getEnvUsize "RS_DISABLE_RANDOMIZING" environ).getD 0 = 0
        ∧ ∃ main < 2 ^ 16, ∃ freed < 2 ^ 16, ∃ big < 2 ^ 16,
        ∃ tag < 2 ^ 64, main ≠ freed ∧ main ≠ big ∧ freed ≠ big ∧ tag ≠ 0
        ∧ s = { fromEnviron environ {} with
          magic := main, freedMagic := freed, bigMagic := big,
          alignTag := tag } := by
  unfold bootstrap at h
  split at h
  · cases h
  simp only at h
  split at h
  · next hdrawn =>
    obtain ⟨⟨t, i⟩, hmagic, halign⟩ := Option.bind_eq_some_iff.1 h
    obtain ⟨main, hmain, freed, hfreed, big, hbig, h₁, h₂, h₃, rfl⟩ :=
      initMagic_spec hmagic
    obtain ⟨tag, htag, h₄, rfl⟩ := initAlign_spec halign
    exact Or.inr ⟨hdrawn, main, hmain, freed, hfreed, big, hbig, tag, htag,
      h₁, h₂, h₃, h₄, rfl⟩
  · next hfixed =>
    cases h
    exact Or.inl ⟨hfixed, rfl⟩

/-- However `getrandom` answers, a start that returns leaves secrets the
heap can run with; and if they were not drawn, no header's address is
taken for the tag. -/
theorem bootstrap_secrets {rseqSize : Nat} {rseqOffset : Int}
    {environ : List (List Nat)}
    (h : bootstrap rseqSize rseqOffset random fuel environ = some s)
    (cfg : Config) :
    Heap.Secrets (s.config cfg)
      ∧ ((getEnvUsize "RS_DISABLE_RANDOMIZING" environ).getD 0 ≠ 0 →
        ∀ P, Heap.TagFree (s.config cfg) P) := by
  rcases bootstrap_cases h with ⟨-, rfl⟩ | ⟨hdrawn, main, hmain, freed,
    hfreed, big, hbig, tag, htag, h₁, h₂, h₃, h₄, rfl⟩
  · refine ⟨?_, fun _ P => Heap.tagFree_of_secret ?_⟩
    · constructor <;> simp only [Statics.config, fromEnviron] <;> decide
    · simp only [Statics.config, fromEnviron]
      decide
  · exact ⟨⟨hmain, hfreed, hbig, h₁, h₂, h₃, Nat.pos_of_ne_zero h₄, htag⟩,
      fun hfixed => absurd hdrawn hfixed⟩

/-- The first two draws agree, so the second is drawn again. -/
theorem bootstrap_secrets_again :
    ∃ s, bootstrap 32 (-160) (fun i => some (i / 2 + 7)) 1 [] = some s
      ∧ ∀ cfg, Heap.Secrets (s.config cfg) := by
  obtain ⟨s, hs⟩ : ∃ s, bootstrap 32 (-160) (fun i => some (i / 2 + 7)) 1 []
      = some s := ⟨_, rfl⟩
  exact ⟨s, hs, fun cfg => (bootstrap_secrets hs cfg).1⟩

end RsMalloc.Startup
