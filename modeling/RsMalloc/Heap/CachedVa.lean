/-
The bytes that the buddy backend counts for its regions.

# Model

`BUDDY_TOTAL_CACHED_VA` stands beside the heap (`Books`). The functions
here are `alloc_region_node` and `add_region` of the heap's model with
the counter: a mapping that succeeds is counted in the loop that made
it. Seen without the counter they are the functions of the heap
(`addRegion_over`).

# Failures

The kernel may refuse any of the tries, so a failed addition has
followed one of two ways. If no try for the data succeeded, nothing has
happened. If the data was mapped and every try for the node was refused,
the data is unmapped again, but it stays counted. `HalfMapped` is that
pattern. A node of the ownership map for which no memory can be mapped
aborts the process; such a run is left out, the map of the model grows
by itself.
-/
import RsMalloc.Heap.Backend

namespace RsMalloc.Heap

open Conc

-- ================================================================ books

/-- The heap and `BUDDY_TOTAL_CACHED_VA`. -/
structure Books where
  heap : State
  cachedVa : Nat

/-- A program of the heap that counts. -/
abbrev BooksM := Prog Books Env

namespace Books

/-- Work on the heap. -/
def onHeap (f : State → State) (b : Books) : Books :=
  { b with heap := f b.heap }

/-- The mappings of the process. -/
def maps (b : Books) : List (Nat × Nat) := b.heap.slab.ground.maps

/-- `mmap_anonymous`, and `add_buddy_cached_va` if it succeeds. -/
def tryMap (len : Nat) (env : Env) (b : Books) : Option Nat × Books :=
  let (a, g) := b.heap.slab.ground.mmap env.offer len
  (a, ⟨b.heap.onGround fun _ => g,
    if a.isSome then (b.cachedVa + len) % 2 ^ 64 else b.cachedVa⟩)

/-- The loops around it, at most `n` tries. -/
def mmapRetry (len : Nat) : Nat → BooksM (Option Nat)
  | 0 => return none
  | n + 1 => do
      match ← Prog.atomic (tryMap len) with
      | some a => return some a
      | none => mmapRetry len n

/-- `alloc_region_node`. -/
def allocRegionNode (cfg : Config) (regionSize : Nat) :
    BooksM (Option Nat) :=
  match Buddy.regionNodeBytes regionSize with
  | none => return none
  | some nodeSize => mmapRetry nodeSize cfg.maxRefillRetries

/-- The end of `add_region`, when both mappings exist. -/
def publish (size node : Nat) (init : Bool) (base region : Nat) :
    BooksM Bool := do
  Prog.modify (onHeap (State.onGround
    (Ground.setRange base (Buddy.normalizeRegionSize size) true)))
  Prog.modify (onHeap (publishRegion region
    (Buddy.newGeometry base size node)))
  Prog.when (init = true)
    (Prog.modify (onHeap fun h => { h with buddyInit := true }))
  return true

/-- `add_region`. -/
def addRegion (cfg : Config) (size node : Nat) (init : Bool) :
    BooksM Bool := do
  let normalizedSize := Buddy.normalizeRegionSize size
  match ← mmapRetry normalizedSize cfg.maxRefillRetries with
  | none => return false
  | some base =>
      match ← allocRegionNode cfg normalizedSize with
      | none => do
          Prog.modify (onHeap (State.onGround
            (Ground.munmap base normalizedSize)))
          return false
      | some region => publish size node init base region

end Books

-- ======================================================= without counting

section Over

theorem mmapRetry_over (len n : Nat) :
    Prog.Over Books.heap (Books.mmapRetry len n) (mmapRetry len n) := by
  induction n with
  | zero => exact rfl
  | succ n ih =>
      refine Prog.Over.bind (Prog.Over.atomic fun _ _ => ⟨rfl, rfl⟩)
        fun o => ?_
      cases o with
      | some a => exact rfl
      | none => exact ih

theorem modify_over (f : State → State) :
    Prog.Over Books.heap (Prog.modify (Books.onHeap f) : BooksM Unit)
      (Prog.modify f) :=
  Prog.Over.atomic fun _ _ => ⟨rfl, rfl⟩

/-- Without the counter it is the `add_region` of the heap. -/
theorem addRegion_over (cfg : Config) (size node : Nat) (init : Bool) :
    Prog.Over Books.heap (Books.addRegion cfg size node init)
      (addRegion cfg size node init) := by
  refine (mmapRetry_over _ _).bind fun o => ?_
  cases o with
  | none => exact rfl
  | some base =>
      refine Prog.Over.bind ?_ fun o => ?_
      · unfold Books.allocRegionNode allocRegionNode
        cases Buddy.regionNodeBytes (Buddy.normalizeRegionSize size) with
        | none => exact rfl
        | some nodeSize => exact mmapRetry_over _ _
      · cases o with
        | none => exact (modify_over _).bind fun _ => rfl
        | some region =>
            exact (modify_over _).bind fun _ => (modify_over _).bind fun _ =>
              (modify_over _).when.bind fun _ => rfl

end Over

-- ================================================================= tries

/-- The kernel places a mapping of `len` bytes at `a`. -/
def Offered (maps : List (Nat × Nat)) (len : Nat) (env : Env) (a : Nat) :
    Prop :=
  env.offer = some a ∧ 0 < len ∧ Placeable maps a (pageUp len)

/-- The kernel refuses a mapping of `len` bytes. -/
def Refused (maps : List (Nat × Nat)) (len : Nat) (env : Env) : Prop :=
  ∀ a, ¬ Offered maps len env a

/-- All of the first `n` tries are refused, or one of them is the first
that is not. -/
theorem refused_or_offered (maps : List (Nat × Nat)) (len : Nat)
    (env : Nat → Env) (n : Nat) :
    (∀ j < n, Refused maps len (env j))
    ∨ ∃ i a, i < n ∧ (∀ j < i, Refused maps len (env j))
      ∧ Offered maps len (env i) a := by
  induction n with
  | zero => exact Or.inl fun j hj => absurd hj (Nat.not_lt_zero j)
  | succ n ih =>
      rcases ih with hall | ⟨i, a, hi, hbefore, hat⟩
      · by_cases hn : Refused maps len (env n)
        · refine Or.inl fun j hj => ?_
          rcases Nat.lt_succ_iff_lt_or_eq.1 hj with hlt | rfl
          · exact hall j hlt
          · exact hn
        · obtain ⟨a, hat⟩ := not_forall_not.1 hn
          exact Or.inr ⟨n, a, Nat.lt_succ_self n, hall, hat⟩
      · exact Or.inr ⟨i, a, Nat.lt_succ_of_lt hi, hbefore, hat⟩

namespace Books

variable {α : Type} {b : Books} {len n : Nat} {env : Nat → Env}
  {k : Option Nat → BooksM α}

/-- The books after a mapping at `a`. -/
def mapped (a len : Nat) (b : Books) : Books :=
  ⟨b.heap.onGround fun g =>
    { g with
      mem := Mem.zero g.mem a (pageUp len)
      maps := (a, pageUp len) :: g.maps },
    (b.cachedVa + len) % 2 ^ 64⟩

theorem tryMap_refused {e : Env} (h : Refused b.maps len e) :
    tryMap len e b = (none, b) := by
  have hmmap : b.heap.slab.ground.mmap e.offer len
      = (none, b.heap.slab.ground) := by
    unfold Ground.mmap
    split
    · rfl
    · next a ha => exact if_neg fun hp => h a ⟨ha, hp⟩
  rw [tryMap, hmmap]
  rfl

theorem tryMap_offered {e : Env} {a : Nat} (h : Offered b.maps len e a) :
    tryMap len e b = (some a, b.mapped a len) := by
  obtain ⟨ha, hp⟩ := h
  have hmmap : b.heap.slab.ground.mmap e.offer len
      = (some a, { b.heap.slab.ground with
        mem := Mem.zero b.heap.slab.ground.mem a (pageUp len)
        maps := (a, pageUp len) :: b.heap.slab.ground.maps }) := by
    unfold Ground.mmap
    rw [ha]
    exact if_pos hp
  rw [tryMap, hmmap]
  rfl

/-- All tries are refused. -/
theorem exec_retry_none (h : ∀ j < n, Refused b.maps len (env j)) :
    ((mmapRetry len n).bind k).exec env b
      = (k none).exec (fun j => env (j + n)) b := by
  induction n generalizing env with
  | zero => rfl
  | succ n ih =>
      have hfirst := tryMap_refused (h 0 (Nat.succ_pos n))
      have hrest : ((mmapRetry len n).bind k).exec (fun j => env (j + 1)) b
          = (k none).exec (fun j => env (j + (n + 1))) b :=
        ih fun j hj => h (j + 1) (Nat.succ_lt_succ hj)
      unfold mmapRetry
      rw [Prog.bind_eq, Prog.bind_assoc, Prog.exec_atomic, hfirst]
      exact hrest

/-- The first try that is not refused is the last one. -/
theorem exec_retry_some {i a : Nat} (hi : i < n)
    (h : ∀ j < i, Refused b.maps len (env j))
    (hat : Offered b.maps len (env i) a) :
    ((mmapRetry len n).bind k).exec env b
      = (k (some a)).exec (fun j => env (j + (i + 1))) (b.mapped a len) := by
  induction n generalizing env i with
  | zero => exact absurd hi (Nat.not_lt_zero i)
  | succ n ih =>
      unfold mmapRetry
      rw [Prog.bind_eq, Prog.bind_assoc, Prog.exec_atomic]
      cases i with
      | zero =>
          rw [tryMap_offered hat]
          rfl
      | succ i =>
          rw [tryMap_refused (h 0 (Nat.succ_pos i))]
          have hrest : ∀ j < i, Refused b.maps len (env (j + 1)) :=
            fun j hj => h (j + 1) (Nat.succ_lt_succ hj)
          exact ih (Nat.lt_of_succ_lt_succ hi) hrest hat

/-- No node is mapped. -/
theorem exec_node_none {cfg : Config} {size : Nat}
    (h : ∀ nodeSize, Buddy.regionNodeBytes size = some nodeSize →
      ∀ j < cfg.maxRefillRetries, Refused b.maps nodeSize (env j)) :
    ∃ env', ∀ k : Option Nat → BooksM α,
      ((allocRegionNode cfg size).bind k).exec env b
        = (k none).exec env' b := by
  unfold allocRegionNode
  cases hbytes : Buddy.regionNodeBytes size with
  | none => exact ⟨env, fun _ => rfl⟩
  | some nodeSize => exact ⟨_, fun _ => exec_retry_none (h nodeSize hbytes)⟩

/-- The node is mapped. -/
theorem exec_node_some {cfg : Config} {size nodeSize i region : Nat}
    (hbytes : Buddy.regionNodeBytes size = some nodeSize)
    (hi : i < cfg.maxRefillRetries)
    (h : ∀ j < i, Refused b.maps nodeSize (env j))
    (hat : Offered b.maps nodeSize (env i) region) :
    ((allocRegionNode cfg size).bind k).exec env b
      = (k (some region)).exec (fun j => env (j + (i + 1)))
        (b.mapped region nodeSize) := by
  unfold allocRegionNode
  rw [hbytes]
  exact exec_retry_some hi h hat

theorem publishRegion_geometry (region : Nat) (g : Buddy.Geometry)
    (h : State) :
    ((publishRegion region g h).region region).geometry = g := by
  unfold publishRegion
  simp only [Function.update_self]

variable (env) in
/-- The region is written and published; no mapping is made. -/
theorem exec_publish (size node : Nat) (init : Bool) (base region : Nat)
    (b : Books) :
    ∃ b', (publish size node init base region).exec env b = some (true, b')
      ∧ b'.heap.regions = region :: b.heap.regions
      ∧ (b'.heap.region region).geometry = Buddy.newGeometry base size node
      ∧ b'.maps = b.maps ∧ b'.cachedVa = b.cachedVa := by
  cases init with
  | false => exact ⟨_, rfl, rfl, publishRegion_geometry _ _ _, rfl, rfl⟩
  | true => exact ⟨_, rfl, rfl, publishRegion_geometry _ _ _, rfl, rfl⟩

end Books

-- ============================================================== outcomes

/-- The pattern in which the data is mapped and the node is not: some
try for the data succeeds, and then all tries for the node are
refused. -/
def HalfMapped (cfg : Config) (size : Nat) (maps : List (Nat × Nat))
    (env : Nat → Env) : Prop :=
  let normalizedSize := Buddy.normalizeRegionSize size
  ∃ i base, i < cfg.maxRefillRetries
    ∧ (∀ j < i, Refused maps normalizedSize (env j))
    ∧ Offered maps normalizedSize (env i) base
    ∧ ∀ nodeSize, Buddy.regionNodeBytes normalizedSize = some nodeSize →
      ∀ j < cfg.maxRefillRetries,
        Refused ((base, normalizedSize) :: maps) nodeSize
          (env (j + (i + 1)))

/-- Nothing of a call is left but what it counted. -/
structure Undone (b b' : Books) : Prop where
  regions : b'.heap.regions = b.heap.regions
  radix : b'.heap.slab.ground.radix = b.heap.slab.ground.radix
  buddyInit : b'.heap.buddyInit = b.heap.buddyInit
  maps : b'.maps = b.maps

/-- Nothing of a call is left. -/
structure Traceless (b b' : Books) : Prop extends Undone b b' where
  cachedVa : b'.cachedVa = b.cachedVa

/-- One region was added, with two mappings, and their bytes were
counted. -/
def Added (size node : Nat) (b b' : Books) : Prop :=
  let normalizedSize := Buddy.normalizeRegionSize size
  ∃ region base nodeSize, b'.heap.regions = region :: b.heap.regions
    ∧ (b'.heap.region region).geometry = Buddy.newGeometry base size node
    ∧ b'.maps = (region, nodeSize) :: (base, normalizedSize) :: b.maps
    ∧ b'.cachedVa = (b.cachedVa + (normalizedSize + nodeSize)) % 2 ^ 64

theorem flatMap_leftOver_of_unmapped {maps : List (Nat × Nat)} {a n : Nat}
    (h : Unmapped maps a n) :
    maps.flatMap (Ground.leftOver a n) = maps := by
  induction maps with
  | nil => rfl
  | cons e maps ih =>
      rw [List.flatMap_cons, leftOver_of_apart (h e (List.mem_cons_self ..)),
        ih fun e' he => h e' (List.mem_cons_of_mem _ he)]
      rfl

/-- To unmap what was just mapped leaves the mappings from before. -/
theorem munmap_mapped {maps : List (Nat × Nat)} {a n : Nat}
    (hpos : 0 < n) (h : Unmapped maps a n) :
    ((a, n) :: maps).flatMap (Ground.leftOver a n) = maps := by
  have hself : Ground.leftOver a n (a, n) = [] := by
    unfold Ground.leftOver
    rw [if_neg (by dsimp only; omega), if_neg (by dsimp only; omega),
      if_neg (by dsimp only; omega)]
    rfl
  rw [List.flatMap_cons, hself, List.nil_append,
    flatMap_leftOver_of_unmapped h]

theorem pageUp_regionNodeBytes {size nodeSize : Nat}
    (h : Buddy.regionNodeBytes size = some nodeSize) :
    pageUp nodeSize = nodeSize := by
  unfold Buddy.regionNodeBytes at h
  obtain ⟨bytes, -, h⟩ := Option.bind_eq_some_iff.1 h
  obtain ⟨total, -, h⟩ := Option.bind_eq_some_iff.1 h
  obtain rfl : alignTo total 4096 = nodeSize := Option.some.inj h
  simp only [pageUp, pageSize, alignTo]
  omega

theorem normalizeRegionSize_bounds (size : Nat) :
    0 < Buddy.normalizeRegionSize size
      ∧ Buddy.normalizeRegionSize size < 2 ^ 64 := by
  unfold Buddy.normalizeRegionSize
  simp only [Buddy.maxBlockSize, Buddy.maxOrder]
  split <;> omega

section Outcomes

variable {cfg : Config} {size : Nat} {b : Books} {env : Nat → Env}

theorem maps_mapped (b : Books) (base size : Nat) :
    (b.mapped base (Buddy.normalizeRegionSize size)).maps
      = (base, Buddy.normalizeRegionSize size) :: b.maps := by
  show (base, pageUp _) :: b.maps = _
  rw [pageUp_normalizeRegionSize]

/-- No data: the call has done nothing. -/
theorem addRegion_refused (node : Nat) (init : Bool)
    (h : ∀ j < cfg.maxRefillRetries,
      Refused b.maps (Buddy.normalizeRegionSize size) (env j)) :
    (Books.addRegion cfg size node init).exec env b = some (false, b) :=
  Books.exec_retry_none h

/-- Data but no node: the data is gone again, but it was counted. -/
theorem addRegion_halfMapped (node : Nat) (init : Bool)
    (h : HalfMapped cfg size b.maps env) :
    ∃ b', (Books.addRegion cfg size node init).exec env b
        = some (false, b')
      ∧ Undone b b'
      ∧ b'.cachedVa
        = (b.cachedVa + Buddy.normalizeRegionSize size) % 2 ^ 64 := by
  obtain ⟨i, base, hi, hbefore, hat, hnode⟩ := h
  have hpage := pageUp_normalizeRegionSize size
  have hpos := hat.2.1
  have hfree : Unmapped b.maps base (Buddy.normalizeRegionSize size) := by
    rw [← hpage]
    exact hat.2.2.2.2.2
  simp only [← maps_mapped] at hnode
  obtain ⟨env', hrun⟩ := Books.exec_node_none (α := Bool) hnode
  refine ⟨(b.mapped base (Buddy.normalizeRegionSize size)).onHeap
    (State.onGround (Ground.munmap base (Buddy.normalizeRegionSize size))),
    (Books.exec_retry_some hi hbefore hat).trans (hrun _), ⟨rfl, ?_, rfl, ?_⟩,
    rfl⟩
  · show (Ground.munmap base _ _).radix = _
    rw [Ground.munmap, if_neg (by omega)]
    rfl
  · show (Ground.munmap base _ _).maps = _
    rw [Ground.munmap, if_neg (by omega)]
    show List.flatMap _ ((base, pageUp _) :: b.maps) = _
    rw [hpage]
    exact munmap_mapped hpos hfree

/-- Data and a node: the region is added. -/
theorem addRegion_added (node : Nat) (init : Bool) {i base : Nat}
    (hi : i < cfg.maxRefillRetries)
    (hbefore : ∀ j < i,
      Refused b.maps (Buddy.normalizeRegionSize size) (env j))
    (hat : Offered b.maps (Buddy.normalizeRegionSize size) (env i) base)
    {nodeSize i' region : Nat}
    (hbytes : Buddy.regionNodeBytes (Buddy.normalizeRegionSize size)
      = some nodeSize)
    (hi' : i' < cfg.maxRefillRetries)
    (hbefore' : ∀ j < i',
      Refused ((base, Buddy.normalizeRegionSize size) :: b.maps) nodeSize
        (env (j + (i + 1))))
    (hat' : Offered ((base, Buddy.normalizeRegionSize size) :: b.maps)
      nodeSize (env (i' + (i + 1))) region) :
    ∃ b', (Books.addRegion cfg size node init).exec env b = some (true, b')
      ∧ Added size node b b' := by
  rw [← maps_mapped] at hat'
  simp only [← maps_mapped] at hbefore'
  have hpage := pageUp_regionNodeBytes hbytes
  obtain ⟨b', hrun, hregions, hgeometry, hmaps, hcached⟩ :=
    Books.exec_publish (fun j => env (j + (i' + 1) + (i + 1))) size node
      init base region ((b.mapped base (Buddy.normalizeRegionSize size)).mapped region
        nodeSize)
  refine ⟨b', (Books.exec_retry_some hi hbefore hat).trans
    ((Books.exec_node_some hbytes hi' hbefore' hat').trans hrun),
    region, base, nodeSize, hregions, hgeometry, ?_, ?_⟩
  · rw [hmaps, ← maps_mapped]
    show (region, pageUp nodeSize) :: _ = _
    rw [hpage]
    rfl
  · rw [hcached]
    show ((b.cachedVa + _) % 2 ^ 64 + nodeSize) % 2 ^ 64 = _
    rw [Nat.mod_add_mod, Nat.add_assoc]

end Outcomes

/-- A region addition runs to its end. It leaves no trace when it fails
and adds one region with its bytes counted when it succeeds, exactly
unless the data is mapped and the node is not. -/
theorem region_addition_clean_iff (cfg : Config) (size node : Nat)
    (init : Bool) (env : Nat → Env) (b : Books) :
    ∃ added b',
      (Books.addRegion cfg size node init).exec env b = some (added, b')
      ∧ ((added = false → Traceless b b')
          ∧ (added = true → Added size node b b')
        ↔ ¬ HalfMapped cfg size b.maps env) := by
  by_cases hhalf : HalfMapped cfg size b.maps env
  · obtain ⟨b', hrun, -, hcached⟩ := addRegion_halfMapped node init hhalf
    refine ⟨false, b', hrun, fun hclean => ?_, fun hnot => absurd hhalf hnot⟩
    have hsame := (hclean.1 rfl).cachedVa
    have hbounds := normalizeRegionSize_bounds size
    omega
  · rcases refused_or_offered b.maps (Buddy.normalizeRegionSize size) env
      cfg.maxRefillRetries with hall | ⟨i, base, hi, hbefore, hat⟩
    · refine ⟨false, b, addRegion_refused node init hall, fun _ => hhalf,
        fun _ => ⟨fun _ => ⟨⟨rfl, rfl, rfl, rfl⟩, rfl⟩, nofun⟩⟩
    · have hnode : ¬ ∀ nodeSize,
          Buddy.regionNodeBytes (Buddy.normalizeRegionSize size)
            = some nodeSize →
          ∀ j < cfg.maxRefillRetries,
            Refused ((base, Buddy.normalizeRegionSize size) :: b.maps)
              nodeSize (env (j + (i + 1))) :=
        fun hnode => hhalf ⟨i, base, hi, hbefore, hat, hnode⟩
      rw [not_forall] at hnode
      obtain ⟨nodeSize, hnode⟩ := hnode
      rw [Classical.not_imp] at hnode
      obtain ⟨hbytes, hsome⟩ := hnode
      obtain ⟨i', region, hi', hbefore', hat'⟩ := (refused_or_offered
        ((base, Buddy.normalizeRegionSize size) :: b.maps) nodeSize
        (fun j => env (j + (i + 1))) cfg.maxRefillRetries).resolve_left hsome
      obtain ⟨b', hrun, hadded⟩ :=
        addRegion_added node init hi hbefore hat hbytes hi' hbefore' hat'
      exact ⟨true, b', hrun, fun _ => hhalf, fun _ => ⟨nofun, fun _ => hadded⟩⟩

/-- The data mapping succeeds, the node is refused, and the call fails
with 64 MiB counted. -/
theorem region_addition_miscounts :
    ((Books.addRegion (.single 4096) 1 0 true).exec
        (fun j => { offer := if j = 0 then some 4096 else none })
        ⟨State.new fun _ => 0, 0⟩).map
      (fun x => (x.1, x.2.heap.regions, x.2.maps, x.2.cachedVa))
      = some (false, [], [], 2 ^ 26) := by
  decide +kernel

end RsMalloc.Heap
