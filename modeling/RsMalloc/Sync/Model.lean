/-
The allocator's own synchronisation (internals/lock.rs,
internals/once.rs, internals/oncelock.rs, utility.rs).

# State

Each primitive is modelled together with the data it guards: a spin
lock, or the state byte of a `Once`, next to the data. An atomic
operation is one step; code that runs between them is a program of its
own on the data, of as many steps as it likes.

# Spinning

A loop that waits is unrolled to a budget of passes; a thread that uses
its budget up takes no further step.
-/
import RsMalloc.Lib.Traces
import RsMalloc.Sizes

namespace RsMalloc.Sync

open Conc

variable {σ ι α V : Type}

-- ============================================================ spin lock

/-- A `SpinLock` and the data it guards. -/
structure Guarded (σ : Type) where
  state : Bool
  data : σ

namespace SpinLock

/-- `compare_exchange(false, true)`: whether it succeeded. -/
def compareExchange (s : Guarded σ) : Bool × Guarded σ :=
  if s.state then (false, s) else (true, { s with state := true })

/-- `lock`. -/
def lock : Nat → Prog (Guarded σ) ι Unit
  | 0 => .halt
  | n + 1 => do
      let ok ← Prog.atomic fun _ => compareExchange
      if ok then return () else lock n

/-- `LockGuard::drop`. -/
def dropGuard : Prog (Guarded σ) ι Unit :=
  Prog.modify fun s => { s with state := false }

/-- Code on the data that runs while the guard is alive. -/
def inside (body : Prog σ ι α) : Prog (Guarded σ) ι α :=
  body.lift Guarded.data (fun s d => { s with data := d }) id

/-- `let _guard = self.lock.lock();` and the rest of the function. -/
def locked (fuel : Nat) (body : Prog σ ι α) : Prog (Guarded σ) ι α := do
  lock fuel
  let a ← inside body
  dropGuard
  return a

end SpinLock

-- ================================================================= once

/-- The state byte of a `Once` and the data its closure writes. -/
structure OnceState (σ : Type) where
  state : Nat
  data : σ

namespace Once

/-- `compare_exchange(0, 1)`: whether it succeeded. -/
def compareExchange (s : OnceState σ) : Bool × OnceState σ :=
  if s.state = 0 then (true, { s with state := 1 }) else (false, s)

/-- `while self.state.load(..) != 2 { spin_loop(); }`. -/
def wait : Nat → Prog (OnceState σ) ι Unit
  | 0 => .halt
  | n + 1 => do
      let state ← Prog.read OnceState.state
      if state ≠ 2 then wait n else return ()

/-- The closure, on the data. -/
def closure (f : Prog σ ι α) : Prog (OnceState σ) ι α :=
  f.lift OnceState.data (fun s d => { s with data := d }) id

/-- `start`. -/
def start (fuel : Nat) (f : Prog σ ι Unit) : Prog (OnceState σ) ι Unit := do
  let won ← Prog.atomic fun _ => compareExchange
  Prog.when won do
    closure f
    Prog.modify fun s => { s with state := 2 }
  wait fuel

/-- `call_once`. -/
def callOnce (fuel : Nat) (f : Prog σ ι Unit) :
    Prog (OnceState σ) ι Unit := do
  let state ← Prog.read OnceState.state
  if state = 2 then return () else start fuel f

end Once

namespace OnceLock

/-- The closure that `get_or_init` hands to `call_once`, next to the
`MaybeUninit` value; `none` is memory that was not written. -/
def init (f : Prog σ ι V) : Prog (σ × Option V) ι Unit := do
  let val ← f.lift Prod.fst (fun d s => (s, d.2)) id
  Prog.modify fun d => (d.1, some val)

/-- `get_or_init`: the value that its reference shows. -/
def getOrInit (fuel : Nat) (f : Prog σ ι V) :
    Prog (OnceState (σ × Option V)) ι (Option V) := do
  Once.callOnce fuel (init f)
  Prog.read fun s => s.data.2

end OnceLock

/-- The initialiser of `CLASS_4096_OFFSET`. -/
def class4096Init : Prog Unit Unit Nat :=
  return (sizeClasses.findIdx? fun s => 4096 ≤ s).getD 22

/-- `get_size_4096_class`. -/
def getSize4096Class (fuel : Nat) :
    Prog (OnceState (Unit × Option Nat)) Unit (Option Nat) :=
  OnceLock.getOrInit fuel class4096Init

end RsMalloc.Sync
