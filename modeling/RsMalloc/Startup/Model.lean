/-
Starting the allocator (internals/env.rs, core_prim/random.rs,
core_prim/bootstrap.rs).

An entry of `environ` is the list of its bytes in front of the zero byte
that ends it, so the end of the list is where the source reads a zero.

`random i` is what the call number `i` of `getrandom` leaves in its
buffer, `none` if it fails. A result of `none` is a start that does not
return: an abort, or a loop that draws again and uses up its budget.
-/
import RsMalloc.Buddy.Model
import RsMalloc.Trimmer.Model

namespace RsMalloc.Startup

-- =========================================================== environment

/-- `as_bytes`, of an ASCII text. -/
def asBytes (text : String) : List Nat := text.toList.map Char.toNat

/-- The inner loop of `getenv_raw` from byte `i` of an entry: the number
of bytes that agree with the key, and the bytes behind them. -/
def agree (key : List Nat) : Nat → List Nat → Nat × List Nat
  | i, [] => (i, [])
  | i, b :: p =>
      if b = 61 then (i, b :: p)
      else if key.length ≤ i ∨ key[i]? ≠ some b then (i, b :: p)
      else agree key (i + 1) p

/-- `getenv_raw`: the bytes behind `=`. -/
def getenvRaw (key : List Nat) : List (List Nat) → Option (List Nat)
  | [] => none
  | entry :: env =>
      let (i, p) := agree key 0 entry
      if i = key.length ∧ p.head? = some 61 then some p.tail
      else getenvRaw key env

/-- The loop of `get_env_usize`. The arithmetic wraps. -/
def readUsize : Nat → List Nat → Nat
  | out, [] => out
  | out, b :: p =>
      if 48 ≤ b ∧ b ≤ 57 then readUsize ((out * 10 + (b - 48)) % 2 ^ 64) p
      else out

/-- `get_env_usize`. -/
def getEnvUsize (key : String) (environ : List (List Nat)) : Option Nat :=
  (getenvRaw (asBytes key) environ).map (readUsize 0)

-- =============================================================== statics

/-- The static variables that starting sets, with the values they are
compiled with. -/
structure Statics where
  arenaSize : Nat := 1024 * 1024 * 256
  maxRefillRetries : Nat := 3
  predictorInitBatch : Nat := 128
  buddyMaxCache : Nat := 0
  buddyAttemptHuge : Bool := false
  rsDisableThp : Bool := false
  trimThreshold : Nat := 1024 * 1024 * 10
  /-- `DISABLE_TRIM_THREAD`, `DISABLE_RELIEF` and the percentages. -/
  trimmer : Trimmer.Settings := ⟨true, false, 85, 80⟩
  /-- `from_le_bytes(*b"RS")`, and so on. -/
  magic : Nat := 0x5352
  freedMagic : Nat := 0x4D52
  bigMagic : Nat := 0x4252
  alignTag : Nat := 0x4E47494C414D5352

/-- What `bootstrap` reads from the environment. -/
def fromEnviron (environ : List (List Nat)) (s : Statics) : Statics :=
  let env := fun key => getEnvUsize key environ
  let disablePercentage :=
    min ((env "RS_BUDDY_RELIEF_DISABLE_PERCENTAGE").getD 85) 100
  { s with
    arenaSize := max ((env "RS_ARENA_SIZE").getD s.arenaSize) (256 * 1024)
    maxRefillRetries := (env "RS_MAX_REFILL_RETRIES").getD 3
    predictorInitBatch := (env "RS_PREDICTOR_INIT_BATCH").getD 128
    buddyMaxCache := Buddy.nextPowerOfTwo
      (min (max ((env "RS_BUDDY_PER_CACHE_SIZE").getD (1024 * 1024 * 64))
        (1024 * 1024 * 64)) (2 <<< 46))
    buddyAttemptHuge := (env "RS_BUDDY_ATTEMPT_HUGEPAGE").getD 0 != 0
    rsDisableThp := (env "RS_DISABLE_THP").getD 0 == 1
    trimThreshold := (env "RS_TRIMMER_THRESHOLD").getD (1024 * 1024 * 10)
    trimmer :=
      { disableTrimThread := (env "RS_DISABLE_TRIM_THREAD").getD 0 != 0
        disableRelief := (env "RS_ENABLE_RELIEF").getD 1 != 0
        disablePercentage := disablePercentage
        enablePercentage :=
          min ((env "RS_BUDDY_RELIEF_ENABLE_PERCENTAGE").getD 80)
            disablePercentage } }

-- ============================================================ randomness

/-- `while again(value) { getrandom(&mut value) }`, call `i` of
`getrandom` being the next. -/
def redraw (random : Nat → Option Nat) (bits : Nat) (again : Nat → Bool) :
    Nat → Nat → Nat → Option (Nat × Nat)
  | 0, value, i => if again value then none else some (value, i)
  | n + 1, value, i =>
      if again value then do
        let bytes ← random i
        redraw random bits again n (bytes % 2 ^ bits) (i + 1)
      else some (value, i)

/-- `init_magic`, and the number of the next call. -/
def initMagic (random : Nat → Option Nat) (fuel : Nat) (s : Statics) :
    Option (Statics × Nat) := do
  let main := (← random 0) % 2 ^ 16
  let freed := (← random 1) % 2 ^ 16
  let big := (← random 2) % 2 ^ 16
  let (freed, i) ← redraw random 16 (fun v => v == main) fuel freed 3
  let (big, i) ← redraw random 16 (fun v => v == freed || v == main) fuel
    big i
  return ({ s with magic := main, freedMagic := freed, bigMagic := big }, i)

/-- `init_align`, again while the tag is 0. -/
def initAlign (random : Nat → Option Nat) (fuel i : Nat) (s : Statics) :
    Option Statics := do
  let main := (← random i) % 2 ^ 64
  let (alignTag, _) ← redraw random 64 (fun v => v == 0) fuel main (i + 1)
  return { s with alignTag := alignTag }

/-- `bootstrap`: the statics that it leaves. -/
def bootstrap (rseqSize : Nat) (rseqOffset : Int)
    (random : Nat → Option Nat) (fuel : Nat) (environ : List (List Nat)) :
    Option Statics :=
  if rseqSize = 0 ∨ rseqOffset = 0 then none
  else
    let s := fromEnviron environ {}
    if (getEnvUsize "RS_DISABLE_RANDOMIZING" environ).getD 0 = 0 then do
      let (s, i) ← initMagic random fuel s
      initAlign random fuel i s
    else some s

end RsMalloc.Startup
