/-
The trimmer thread (trim.rs, inner/alloc.rs).

# Starting it

`maybe_start_trimmer` is called after a refill by any thread. It is a
program over `TOTAL_CACHED_VA`, `TRIM_GUARD` and the number of trimmer
threads that were spawned; the environment says whether a spawn
succeeds. The trimmer never returns.

# Its loop

One pass of `trimmer_main` is a function of what it reads: the answer
of `sysinfo`, the clock and `AVERAGE_BLOCK_TIMES`. Its calls into the
allocator are logged as actions. The loop counter is an `i32` and the
arithmetic is that of a release build, which wraps.
-/
import RsMalloc.Lib.Prog

namespace RsMalloc.Trimmer

open Conc

-- ============================================================== starting

/-- What `maybe_start_trimmer` reads and writes. -/
structure Start where
  totalCachedVa : Nat
  trimGuard : Bool
  trimmers : Nat
  deriving DecidableEq

/-- `TRIM_GUARD.compare_exchange(false, true)`. -/
def compareExchange (s : Start) : Bool × Start :=
  if s.trimGuard then (false, s) else (true, { s with trimGuard := true })

/-- `spawn(trimmer_main)`. -/
def spawn : Prog Start Bool Bool :=
  Prog.atomic fun ok s =>
    (ok, if ok then { s with trimmers := s.trimmers + 1 } else s)

/-- `maybe_start_trimmer`. -/
def maybeStartTrimmer (trimThreshold : Nat) : Prog Start Bool Unit := do
  let cached ← Prog.read Start.totalCachedVa
  if cached < trimThreshold then return ()
  let guard ← Prog.read Start.trimGuard
  if guard then return ()
  let won ← Prog.atomic fun _ => compareExchange
  Prog.when won do
    let ok ← spawn
    Prog.when (!ok) (Prog.modify fun s => { s with trimGuard := false })

-- ============================================================== pressure

/-- `usize::saturating_mul`. -/
def saturatingMul (a b : Nat) : Nat := min (a * b) (2 ^ 64 - 1)

/-- The fields of `sysinfo` that are read. -/
structure SysInfo where
  totalram : Nat
  freeram : Nat
  totalswap : Nat
  freeswap : Nat
  memUnit : Nat
  deriving DecidableEq, Repr

/-- `check_memory_pressure`. -/
def checkMemoryPressure (info : SysInfo) : Nat :=
  let unit := info.memUnit
  let totalRam := saturatingMul info.totalram unit
  let freeRam := saturatingMul info.freeram unit
  let totalSwap := saturatingMul info.totalswap unit
  let freeSwap := saturatingMul info.freeswap unit
  let totalAvailable := (freeRam + freeSwap) % 2 ^ 64
  let totalMemory := (totalRam + totalSwap) % 2 ^ 64
  if totalMemory = 0 then 50
  else
    let used := totalMemory - totalAvailable
    used * 100 % 2 ^ 64 / totalMemory

/-- `ENABLE_AFTER`. -/
abbrev enableAfter : Nat := 2

/-- `DISABLE_BUDDY` and `UNDER_AFTER`. -/
structure Relief where
  disableBuddy : Bool
  underAfter : Nat
  deriving DecidableEq, Repr

/-- `relief_paths` at a reading of the pressure: whether it calls
`BUDDY_BACKEND.trim(0)`. `disable` and `enable` are
`BUDDY_DISABLE_PERCENTAGE` and `BUDDY_ENABLE_PERCENTAGE`. -/
def reliefPaths (disable enable pressure : Nat) (s : Relief) :
    Bool × Relief :=
  if disable ≤ pressure ∧ !s.disableBuddy then (true, ⟨true, 0⟩)
  else if s.disableBuddy ∧ pressure ≤ enable then
    let under := s.underAfter + 1
    if enableAfter ≤ under then (false, ⟨false, 0⟩)
    else (false, { s with underAfter := under })
  else (false, { s with underAfter := 0 })

-- ============================================================== the loop

/-- What start-up sets for the loop. -/
structure Settings where
  disableRelief : Bool
  disableTrimThread : Bool
  disablePercentage : Nat
  enablePercentage : Nat

/-- What one pass reads: `sysinfo`, the milliseconds since `TIME_STAMP`,
`AVERAGE_BLOCK_TIMES`. -/
structure Tick where
  info : SysInfo
  millis : Nat
  average : Nat

/-- The variables of the loop and the statics it writes. -/
structure Loop where
  latestStamp : Nat
  totalElapsed : Int
  relief : Relief
  currentStamp : Nat

/-- At the start of `trimmer_main`, which resets none of the statics: a
trimmer that is started again, in a forked child, finds them as the last
one left them. -/
def Loop.new (relief : Relief) (stamp : Nat) : Loop := ⟨0, 0, relief, stamp⟩

/-- What a pass does to the allocator. -/
inductive Action where
  /-- `relief_paths()`, at a reading of the pressure. -/
  | relief (pressure : Nat)
  /-- `BUDDY_BACKEND.trim(0)`. -/
  | trimBuddy
  /-- `trim_small(0)` and `BUDDY_BACKEND.trim_old(0)`, at a stamp. -/
  | trimOld (stamp : Nat)
  deriving DecidableEq, Repr

/-- `+=` of an `i32`. -/
def wrapI32 (x : Int) : Int := Int.bmod x (2 ^ 32)

/-- `total_elapsed += 100;` and `relief_paths` if it is due. -/
def passRelief (set : Settings) (t : Tick) (s : Loop) :
    List Action × Loop :=
  let totalElapsed := wrapI32 (s.totalElapsed + 100)
  if totalElapsed.tmod 300 = 0 ∧ !set.disableRelief then
    let pressure := checkMemoryPressure t.info
    let r := reliefPaths set.disablePercentage set.enablePercentage
      pressure s.relief
    (.relief pressure :: if r.1 then [.trimBuddy] else [],
      { s with totalElapsed := totalElapsed, relief := r.2 })
  else ([], { s with totalElapsed := totalElapsed })

/-- The stamp is stored, and what is old is trimmed if it is time. -/
def passTrim (set : Settings) (t : Tick) (s : Loop) : List Action × Loop :=
  let stamp := t.millis / 100 % 2 ^ 32
  let s := { s with currentStamp := stamp }
  if stamp - s.latestStamp > max t.average 30 ∧ !set.disableTrimThread then
    ([.trimOld stamp], { s with latestStamp := stamp })
  else ([], s)

/-- One pass of `trimmer_main`, after its sleep. -/
def pass (set : Settings) (t : Tick) (s : Loop) : List Action × Loop :=
  let first := passRelief set t s
  let second := passTrim set t first.2
  (first.1 ++ second.1, second.2)

/-- `trimmer_main` for as many passes as there are ticks: the actions in
their order. -/
def trimmerMain (set : Settings) : List Tick → Loop → List Action × Loop
  | [], s => ([], s)
  | t :: ts, s =>
      let first := pass set t s
      let rest := trimmerMain set ts first.2
      (first.1 ++ rest.1, rest.2)

end RsMalloc.Trimmer
