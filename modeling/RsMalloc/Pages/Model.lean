/-
The page allocator (backend/page_allocator.rs).

Each NUMA node has a list of arenas. An arena is one mapping: a page
for its `PageArena` record, then a data area that is handed out from
the bottom (`current`) to the top (`end`). An arena with less than one
refill left is unlinked and never used again.

The records are typed (`arena : address → PageArena`), because
`PageArena` has no fixed layout; nothing else ever reads or writes
their pages. A call holds its node's mutex from the first load to the
last write and is one function of the state here, the `mmap` of a new
arena included.
-/
import RsMalloc.Ground.Model

namespace RsMalloc.Pages

/-- `PageArena`. -/
structure PageArena where
  next : Nat
  prev : Nat
  base : Nat
  end_ : Nat
  current : Nat
  deriving DecidableEq, Repr

/-- A page that reads as zero. -/
def PageArena.zeroed : PageArena := ⟨0, 0, 0, 0, 0⟩

/-- `NodeArenaState`. -/
structure NodeArenaState where
  current : Nat
  arenas : Nat
  deriving DecidableEq, Repr

/-- The records of all arenas and the state of every node. -/
structure PageState where
  arena : Nat → PageArena
  node : Nat → NodeArenaState

/-- Before the first arena. -/
def PageState.new : PageState where
  arena _ := .zeroed
  node _ := ⟨0, 0⟩

/-- Rewrite one record. -/
def PageState.setArena (s : PageState) (a : Nat) (r : PageArena) :
    PageState :=
  { s with arena := Function.update s.arena a r }

/-- Rewrite the state of one node. -/
def PageState.setNode (s : PageState) (n : Nat) (st : NodeArenaState) :
    PageState :=
  { s with node := Function.update s.node n st }

/-- `remove_arena`. The record's page is given back to the kernel when
arenas are large; it then reads as zero, or as before where the advice
had no effect. -/
def removeArena (cfg : Config) (env : Env) (n arena : Nat)
    (s : PageState) : PageState :=
  if arena = 0 then s
  else
    let next := (s.arena arena).next
    let prev := (s.arena arena).prev
    let s :=
      if prev ≠ 0 then s.setArena prev { s.arena prev with next := next }
      else s.setNode n { s.node n with arenas := next }
    let s :=
      if next ≠ 0 then s.setArena next { s.arena next with prev := prev }
      else s
    let s :=
      if (s.node n).current = arena then
        s.setNode n { s.node n with current := next }
      else s
    if 1024 * 1024 * 16 ≤ cfg.arenaSize ∧ env.ok then
      s.setArena arena .zeroed
    else s

/-- Take `size` bytes from `arena`, and unlink it if too little is
left: the common end of `allocate_current` and `allocate_search`. -/
def bump (cfg : Config) (env : Env) (n arena size : Nat)
    (s : PageState) : Option Nat × PageState :=
  match checkedAdd (s.arena arena).current size with
  | none => (none, s)
  | some next =>
      if next > (s.arena arena).end_ then (none, s)
      else
        let ptr := (s.arena arena).current
        let s := s.setArena arena { s.arena arena with current := next }
        if (s.arena arena).end_ - (s.arena arena).current < minRefillBytes
        then (some ptr, removeArena cfg env n arena s)
        else (some ptr, s)

/-- `allocate_current`. -/
def allocateCurrent (cfg : Config) (env : Env) (n size : Nat)
    (s : PageState) : Option Nat × PageState :=
  if (s.node n).current = 0 then (none, s)
  else bump cfg env n (s.node n).current size s

/-- `allocate_search`, from `arena` on. The fuel bounds the walk. -/
def allocateSearch (cfg : Config) (env : Env) (n size : Nat) :
    Nat → Nat → PageState → Option Nat × PageState
  | 0, _, s => (none, s)
  | fuel + 1, arena, s =>
      if arena = 0 then (none, s)
      else if arena = (s.node n).current then
        allocateSearch cfg env n size fuel (s.arena arena).next s
      else
        match bump cfg env n arena size s with
        | (some ptr, s') => (some ptr, s')
        | (none, _) =>
            allocateSearch cfg env n size fuel (s.arena arena).next s

/-- `new_arena_locked`. -/
def newArenaLocked (cfg : Config) (env : Env) (n requested : Nat)
    (g : Ground) (s : PageState) : Option Unit × Ground × PageState :=
  let dataSize := alignTo (max requested cfg.arenaSize) pageSize
  match checkedAdd pageSize dataSize with
  | none => (none, g, s)
  | some mapSize =>
      match g.mmap env.offer mapSize with
      | (none, g) => (none, g, s)
      | (some arena, g) =>
          let base := arena + pageSize
          match checkedAdd base dataSize with
          | none => (none, g, s)
          | some end_ =>
              let head := (s.node n).arenas
              let s := s.setArena arena ⟨head, 0, base, end_, base⟩
              let s :=
                if head ≠ 0 then
                  s.setArena head { s.arena head with prev := arena }
                else s
              (some (), g, s.setNode n ⟨arena, arena⟩)

/-- The node a call works on. -/
def nodeOf (cfg : Config) (nodeId : Nat) : Nat :=
  if nodeId ≥ cfg.pageNodes then 0 else nodeId

/-- `PageAllocator::alloc`. -/
def alloc (cfg : Config) (env : Env) (fuel nodeId size : Nat)
    (g : Ground) (s : PageState) : Option Nat × Ground × PageState :=
  let size := alignTo (max size 1) pageSize
  if cfg.pageNodes = 0 then (none, g, s)
  else
    let n := nodeOf cfg nodeId
    match allocateCurrent cfg env n size s with
    | (some ptr, s) => (some ptr, g, s)
    | (none, s) =>
        match allocateSearch cfg env n size fuel (s.node n).arenas s with
        | (some ptr, s) => (some ptr, g, s)
        | (none, s) =>
            match newArenaLocked cfg env n size g s with
            | (none, g, s) => (none, g, s)
            | (some (), g, s) =>
                let (ptr, s) := allocateCurrent cfg env n size s
                (ptr, g, s)

/-- The search loop of `try_grow_inplace`: the arena that contains
`addr` decides. -/
def growLoop (cfg : Config) (env : Env) (n addr oldSize newSize : Nat) :
    Nat → Nat → PageState → Bool × PageState
  | 0, _, s => (false, s)
  | fuel + 1, arena, s =>
      if arena = 0 then (false, s)
      else
        let r := s.arena arena
        if r.base ≤ addr ∧ addr < r.end_ then
          if (addr - r.base) % pageSize ≠ 0 then (false, s)
          else
            match checkedAdd addr oldSize with
            | none => (false, s)
            | some oldEnd =>
                if oldEnd ≠ r.current then (false, s)
                else
                  match checkedAdd addr newSize with
                  | none => (false, s)
                  | some newEnd =>
                      if newEnd > r.end_ then (false, s)
                      else
                        let s := s.setArena arena { r with current := newEnd }
                        if r.end_ - newEnd < minRefillBytes then
                          (true, removeArena cfg env n arena s)
                        else (true, s)
        else growLoop cfg env n addr oldSize newSize fuel r.next s

/-- `PageAllocator::try_grow_inplace`. -/
def tryGrowInplace (cfg : Config) (env : Env)
    (fuel nodeId ptr oldSize newSize : Nat) (s : PageState) :
    Bool × PageState :=
  if ptr = 0 ∨ newSize ≤ oldSize then (false, s)
  else
    let oldSize := alignTo (max oldSize 1) pageSize
    let newSize := alignTo (max newSize 1) pageSize
    if newSize ≤ oldSize then (true, s)
    else if cfg.pageNodes = 0 then (false, s)
    else
      let n := nodeOf cfg nodeId
      growLoop cfg env n ptr oldSize newSize fuel (s.node n).arenas s

end RsMalloc.Pages
