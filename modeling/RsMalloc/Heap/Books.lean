/-
The books of the heap are right after every lawful history.

# The books

Three records say who owns what: the map of big allocations, the
ownership map, and the free lists of the regions. None of them mentions
callers, and callers are not asked. Yet after any history of calls by
callers who hold what they use, the entries of the first are the big
grants, the second knows every grant and no page that is not mapped, and
each byte of a region is either in one free block or in the block of one
grant. As in Refinement.lean this is said of histories in which no
header has the address `ALIGN_TAG` (`TagFree`).

# Freed blocks

A small block that nobody holds has `FREED_MAGIC` in its header, however
often it changed hands and whatever was trimmed; so `free` of it is
always caught, and nothing is changed.
-/
import Mathlib.Algebra.Order.Ring.Nat
import RsMalloc.Heap.Refinement

namespace RsMalloc.Heap

open Conc

open RbTree (BigAllocMeta)

open Slab (payload)

open Buddy (freePieces tiles key orders)

variable {cfg : Config} {E : Env → Prop} {P : State → Prop} {s : State}
  {g : Grant} {p : Part} {e : Option BigAllocMeta} {m : BigAllocMeta}
  {L : Multiset Grant} {X : Res} {r k a : Nat}

-- ============================================================ big grants

/-- The grant ends where the payload with the entry `m` at `k` ends, and
starts in it. -/
structure Fills (g : Grant) (k : Nat) (m : BigAllocMeta) : Prop where
  start : k ≤ g.ptr
  stop : g.ptr + g.usable = k + m.size

theorem Backs.fills (hb : Backs cfg g (p, some m)) :
    Fills g (p.base + headerSize) m := by
  obtain ⟨raw, align, hold, -, hend⟩ := hb.live
  have hbig : Big cfg m p := hold.allocated
  have hraw : raw = p.base + headerSize := hold.raw.trans hbig.payload_eq
  refine ⟨?_, by rw [← hraw]; exact hend⟩
  rw [← hraw]
  rcases hold.aim with ⟨-, heq, -⟩ | ⟨b, -, ht⟩
  · exact heq.ge
  · exact (Nat.le_add_right ..).trans ht.behind

/-- Only big allocations lie in blocks of the backend. -/
theorem Backs.big_of_tile (hb : Backs cfg g (p, e)) (hk : p.kind = .tile r) :
    ∃ m, e = some m ∧ Big cfg m p := by
  obtain ⟨raw, align, hold, -⟩ := hb.live
  cases e with
  | none =>
      obtain ⟨c, hm⟩ := hold.allocated
      have hblock := hm.isBlock
      rw [hk] at hblock
      cases hblock
  | some m => exact ⟨m, rfl, hold.allocated⟩

/-- A small block has at most 2 MiB. -/
theorem Backs.size_le (hb : Backs cfg g (p, none)) : g.size ≤ 2097152 := by
  obtain ⟨raw, align, hold, -, hend⟩ := hb.live
  obtain ⟨c, hm⟩ := hold.allocated
  have hsize := (blockSize_eq hm.lt).2.2.1
  have hroom := hold.room
  have hle : raw ≤ g.ptr := by
    rcases hold.aim with ⟨-, heq, -⟩ | ⟨b, -, ht⟩
    · exact heq.ge
    · exact (Nat.le_add_right ..).trans ht.behind
  simp only [capacity, hm.cls] at hroom
  omega

/-- The map of big allocations is exact: each entry belongs to a grant
that is held, and each grant that is too large for the size classes has
one. -/
theorem bigMap_exact (hs : Secrets cfg) (hP : TagFree cfg P) {m₀ : Mem}
    {h : List (Call × Outcome)}
    (hcalls : Contract.Calls E P (progs cfg) (State.new m₀) h s)
    (hlaw : (store cfg).Lawful h) :
    ∃ L, (store cfg).Run h L
      ∧ (∀ k m, s.bigMap k = some m → ∃ g ∈ L, Fills g k m)
      ∧ ∀ g ∈ L, 2097152 < g.size →
        ∃ k m, s.bigMap k = some m ∧ Fills g k m := by
  obtain ⟨L, hrun, X, ⟨lists, node, hat⟩, hrel⟩ :=
    backed_of_calls hs hP hcalls hlaw
  refine ⟨L, hrun, fun k m hk => ?_, fun g hg hlarge => ?_⟩
  · obtain ⟨p, hp, rfl⟩ := (hat.entry k m).1 hk
    obtain ⟨g, hg, hb⟩ :=
      Multiset.exists_mem_of_rel_of_mem (Multiset.rel_flip.2 hrel) hp
    exact ⟨g, hg, Backs.fills hb⟩
  · obtain ⟨⟨p, e⟩, hp, hb⟩ := Multiset.exists_mem_of_rel_of_mem hrel hg
    cases e with
    | none => exact absurd hb.size_le (Nat.not_le.2 hlarge)
    | some m => exact ⟨_, m, (hat.entry _ m).2 ⟨p, hp, rfl⟩, hb.fills⟩

/-- The first region, and a block of it for a caller. -/
theorem init_malloc_calls : ∃ s, Contract.Calls (fun _ => True)
    (fun _ => True) (progs (Config.single 8388608))
    (State.new fun _ => 0)
    [(.malloc 4194304, .returns 1073741840),
      (.init 16777216, .returns 0)] s :=
  calls_of_exec (Config.single 8388608) (fun _ => 0) (.init 16777216)
    (.malloc 4194304) (.returns 0) (.returns 1073741840)
    (fun j => { offer := some (268435456 * (j + 1)) }) 10 0
    (by decide +kernel)

theorem init_malloc_lawful {cfg : Config} : (store cfg).Lawful
    [(.malloc 4194304, .returns 1073741840),
      (.init 16777216, .returns 0)] :=
  ⟨⟨trivial, fun L _ => ⟨0, Multiset.zero_le L, rfl⟩⟩,
    fun L _ => ⟨0, Multiset.zero_le L, rfl⟩⟩

/-- One block of the first region is given to a caller. -/
theorem bigMap_exact_block : ∃ (s : State) (L : Multiset Grant),
    (store (Config.single 8388608)).Run
      [(.malloc 4194304, .returns 1073741840),
        (.init 16777216, .returns 0)] L
    ∧ (∀ k m, s.bigMap k = some m → ∃ g ∈ L, Fills g k m)
    ∧ ∀ g ∈ L, 2097152 < g.size →
      ∃ k m, s.bigMap k = some m ∧ Fills g k m := by
  obtain ⟨s, hcalls⟩ := init_malloc_calls
  exact ⟨s, bigMap_exact single_secrets single_tagFree hcalls
    init_malloc_lawful⟩

-- ====================================================== the ownership map

/-- A mapping of its own that is not for the aligned path. -/
def PlainMapping (s : State) (g : Grant) : Prop :=
  ∃ m, s.bigMap g.ptr = some m ∧ m.buddyRegion = 0 ∧ m.aligned = false

/-- The ownership map knows all of a grant, but of a plain mapping only
the chunk in which it starts. -/
theorem Backs.owned {x : Part × Option BigAllocMeta} {f : Res}
    (hb : Backs cfg g x) (hI : HInv cfg s ({x} + f)) {y : Nat}
    (hy : g.Has y) : isOwned s y = .ok true
      ∨ PlainMapping s g ∧ g.ptr / 4096 < y / 4096 := by
  obtain ⟨raw, align, hold, -⟩ := hb.live
  by_cases hk : x.1.kind = .direct false
  · obtain ⟨p, e⟩ := x
    cases e with
    | none =>
        obtain ⟨c, hm⟩ := hold.allocated
        have hblock := hm.isBlock
        simp only at hk
        rw [hk] at hblock
        cases hblock
    | some m =>
        have hbig : Big cfg m p := hold.allocated
        rcases hold.aim with ⟨-, heq, -⟩ | ⟨b, -, ht⟩
        · have hptr : g.ptr = p.base + headerSize :=
            heq.trans (hold.raw.trans hbig.payload_eq)
          have hentry : s.bigMap g.ptr = some m := by
            rw [hptr]
            exact hI.entry_eq hbig.pos
          rcases hbig.seat with ⟨-, htile⟩ | ⟨hzero, hdir, -⟩
          · have hkind := htile.kind
            simp only at hk
            rw [hk] at hkind
            cases hkind
          · simp only at hk
            have hplain : PlainMapping s g := by
              rw [hk] at hdir
              exact ⟨m, hentry, hzero, (Kind.direct.inj hdir).symm⟩
            have hle : g.ptr / 4096 ≤ y / 4096 := Nat.div_le_div_right hy.1
            rcases Nat.eq_or_lt_of_le hle with hsame | hlt
            · -- the chunk of the payload is that of the mapping's base
              have hpage := hbig.page
              simp only [headerSize, pageSize] at hptr hpage
              refine Or.inl (Allocated.owned_of_tracks hI (z := p.base) ⟨le_rfl,
                Nat.lt_add_of_pos_right hbig.pos⟩ ?_ (by omega))
              rw [Tracks, hk]
            · exact Or.inr ⟨hplain, hlt⟩
        · exact absurd hk ht.whole
  · exact Or.inl (hold.allocated.owned_inside hI hk (hb.has hy))

/-- The ownership map is exact: it knows the pointer of every grant that
is held and all of its bytes, those of plain mappings behind their first
chunk excepted; and whatever it knows lies in a page that is mapped. -/
theorem radix_exact (hs : Secrets cfg) (hP : TagFree cfg P) {m₀ : Mem}
    {h : List (Call × Outcome)}
    (hcalls : Contract.Calls E P (progs cfg) (State.new m₀) h s)
    (hlaw : (store cfg).Lawful h) :
    ∃ L, (store cfg).Run h L
      ∧ (∀ g ∈ L, isOwned s g.ptr = .ok true
        ∧ ∀ y, g.Has y → isOwned s y = .ok true
          ∨ PlainMapping s g ∧ g.ptr / 4096 < y / 4096)
      ∧ ∀ a < 2 ^ 56, isOwned s a = .ok true →
        ∃ y, y / 4096 = a / 4096 ∧ Mapped s.slab.ground.maps y := by
  obtain ⟨L, hrun, X, hI, hrel⟩ := backed_of_calls hs hP hcalls hlaw
  refine ⟨L, hrun, fun g hg => ?_, fun a ha how => ?_⟩
  · obtain ⟨L', rfl⟩ := Multiset.exists_cons_of_mem hg
    obtain ⟨x, X', hb, -, rfl⟩ := Multiset.rel_cons_left.1 hrel
    rw [← Multiset.singleton_add] at hI
    obtain ⟨raw, align, hold, -⟩ := hb.live
    exact ⟨hold.owned hI, fun y hy => hb.owned hI hy⟩
  · obtain ⟨H, hsp⟩ := hI.space
    have hmap : s.slab.ground.radix.isOwned a = some true := by
      unfold isOwned at how
      split at how <;> cases how
      assumption
    obtain ⟨p, hp, y, hy, -, hchunk⟩ := (hsp.owned a ha).1 hmap
    exact ⟨y, hchunk, hsp.mapped p hp y hy⟩

theorem radix_exact_block : ∃ (s : State) (L : Multiset Grant),
    (store (Config.single 8388608)).Run
      [(.malloc 4194304, .returns 1073741840),
        (.init 16777216, .returns 0)] L
    ∧ (∀ g ∈ L, isOwned s g.ptr = .ok true
      ∧ ∀ y, g.Has y → isOwned s y = .ok true
        ∨ PlainMapping s g ∧ g.ptr / 4096 < y / 4096)
    ∧ ∀ a < 2 ^ 56, isOwned s a = .ok true →
      ∃ y, y / 4096 = a / 4096 ∧ Mapped s.slab.ground.maps y := by
  obtain ⟨s, hcalls⟩ := init_malloc_calls
  exact ⟨s, radix_exact single_secrets single_tagFree hcalls
    init_malloc_lawful⟩

-- ============================================================= the regions

/-- The block is free in the region. -/
def FreeIn (s : State) (r : Nat) (b : Block) : Prop :=
  b.order ∈ orders ∧ OnFree s r b.order b.addr

/-- The block of the region is the grant's. -/
def HeldIn (s : State) (r : Nat) (g : Grant) (b : Block) : Prop :=
  ∃ m, s.bigMap (b.addr + headerSize) = some m ∧ m.buddyRegion = r
    ∧ m.order = b.order ∧ Fills g (b.addr + headerSize) m

/-- The byte at `y` lies in a block of the grant. -/
def HeldAt (s : State) (r y : Nat) (g : Grant) : Prop :=
  ∃ b, HeldIn s r g b ∧ b.Has y

section Regions

variable {lists : Nat → Nat → List Part} {node : Nat → Part} {y : Nat}
  {b : Block}

/-- The free pieces of a region are its free blocks. -/
theorem HeapAt.mem_free (hat : HeapAt cfg s lists node X)
    (hr : r ∈ s.regions) :
    b ∈ tiles (.tile r) (freePieces (lists r)) ↔ FreeIn s r b := by
  have hok := hat.region r hr
  constructor
  · intro hb
    obtain ⟨p, hp, rfl⟩ := Multiset.mem_map.1 hb
    obtain ⟨hp, -⟩ := Multiset.mem_filter.1 hp
    obtain ⟨k, hk, hp⟩ := Multiset.mem_sum.1 hp
    rw [Buddy.key_of_len ((hok.order k hk).len p hp)]
    exact ⟨hk, hok.onFree hk ⟨p, hp, rfl⟩
      fun q hq => hat.placed_free hr hk hq⟩
  · obtain ⟨a, k⟩ := b
    rintro ⟨hk, ha⟩
    obtain ⟨p, hp, rfl, hlen⟩ := hat.free_block hr hk ha
    rw [← Buddy.key_of_len hlen]
    exact Multiset.mem_map.2 ⟨p, Multiset.mem_filter.2
      ⟨Buddy.mem_freePieces hk hp, (hok.order k hk).kind p hp⟩, rfl⟩

/-- A part of a region is the block of a grant. -/
theorem HeapAt.exists_heldIn (hat : HeapAt cfg s lists node X)
    (hrel : Multiset.Rel (Backs cfg) L X)
    (hb : b ∈ tiles (.tile r) (parts X)) : ∃ g ∈ L, HeldIn s r g b := by
  obtain ⟨p, hp, rfl⟩ := Multiset.mem_map.1 hb
  obtain ⟨hp, hkind⟩ := Multiset.mem_filter.1 hp
  obtain ⟨e, hp⟩ := exists_of_mem_parts hp
  obtain ⟨g, hg, hb⟩ :=
    Multiset.exists_mem_of_rel_of_mem (Multiset.rel_flip.2 hrel) hp
  obtain ⟨m, rfl, hbig⟩ := Backs.big_of_tile hb hkind
  rcases hbig.seat with ⟨-, htile⟩ | ⟨-, hdir, -⟩
  · have hregion := Kind.tile.inj (htile.kind.symm.trans hkind)
    rw [htile.key]
    exact ⟨g, hg, m, (hat.entry _ m).2 ⟨p, hp, rfl⟩, hregion, rfl,
      Backs.fills hb⟩
  · rw [hdir] at hkind
    cases hkind

/-- And the block of a grant is a part. -/
theorem HeapAt.mem_parts_of_heldIn (hat : HeapAt cfg s lists node X)
    (hr : r ∈ s.regions) (hrel : Multiset.Rel (Backs cfg) L X)
    (hb : HeldIn s r g b) : b ∈ tiles (.tile r) (parts X) := by
  obtain ⟨a, k⟩ := b
  obtain ⟨m, hentry, hregion, rfl, -⟩ := hb
  obtain ⟨p, hp, hbase⟩ := (hat.entry _ m).1 hentry
  obtain rfl := Nat.add_right_cancel hbase
  obtain ⟨g', -, hb⟩ :=
    Multiset.exists_mem_of_rel_of_mem (Multiset.rel_flip.2 hrel) hp
  obtain ⟨raw, align, hold, -⟩ := Backs.live hb
  have hbig : Big cfg m p := hold.allocated
  rcases hbig.seat with ⟨-, htile⟩ | ⟨hzero, -⟩
  · rw [hregion] at htile
    rw [← htile.key]
    exact Multiset.mem_map.2 ⟨p, Multiset.mem_filter.2
      ⟨mem_parts hp, htile.kind⟩, rfl⟩
  · exact absurd (hregion.symm.trans hzero) (hat.region_ne hr)

/-- Two grants do not have the same block: both would end with it. -/
theorem HeldIn.unique {g' : Grant} {L' : Multiset Grant}
    (hd : Disjointly (g ::ₘ L')) (hg' : g' ∈ L') (h : HeldIn s r g b) :
    ¬ HeldIn s r g' b := by
  rintro ⟨m', hentry', -, -, hfills'⟩
  obtain ⟨m, hentry, -, -, hfills⟩ := h
  rw [hentry] at hentry'
  cases hentry'
  have hpos := g.pos
  have hpos' := g'.pos
  have hstop := hfills.stop
  have hstop' := hfills'.stop
  have hlast := hd (g.ptr + g.usable - 1)
  rw [Multiset.countP_cons_of_pos _ ⟨by omega, by omega⟩] at hlast
  have hpos : 0 < L'.countP (·.Has (g.ptr + g.usable - 1)) :=
    Multiset.countP_pos.2 ⟨g', hg', by omega, by omega⟩
  omega

end Regions

/-- Nothing of a region is lost, and nothing is there twice: each byte of
it is either in exactly one free block and in no grant's, or in no free
block and in the block of exactly one grant. -/
theorem region_exact (hs : Secrets cfg) (hP : TagFree cfg P) {m₀ : Mem}
    {h : List (Call × Outcome)}
    (hcalls : Contract.Calls E P (progs cfg) (State.new m₀) h s)
    (hlaw : (store cfg).Lawful h) :
    ∃ L, (store cfg).Run h L
      ∧ ∀ r ∈ s.regions, ∀ y, (s.region r).geometry.base ≤ y →
        y < (s.region r).geometry.base + (s.region r).geometry.totalSize →
        ((∃! b, FreeIn s r b ∧ b.Has y) ∧ ∀ g ∈ L, ¬ HeldAt s r y g)
        ∨ ((∀ b, FreeIn s r b → ¬ b.Has y)
          ∧ ∃ g L', L = g ::ₘ L' ∧ HeldAt s r y g
            ∧ ∀ g' ∈ L', ¬ HeldAt s r y g') := by
  obtain ⟨L, hrun, hback⟩ := backed_of_calls hs hP hcalls hlaw
  have hd := disjointly_of_backed hback
  obtain ⟨X, ⟨lists, node, hat⟩, hrel⟩ := hback
  refine ⟨L, hrun, fun r hr y hlow hhigh => ?_⟩
  have hone := (hat.tiling r hr).exact y
  rw [if_pos ⟨hlow, hhigh⟩, Buddy.tiles_add, Block.count_add] at hone
  -- the one block around the byte is a free one or a part of a caller
  rcases Nat.eq_zero_or_pos
      (Block.count (tiles (.tile r) (parts X)) y) with hzero | hpos
  · have hfree := Block.existsUnique_of_count
      (B := tiles (.tile r) (freePieces (lists r))) (x := y) (by omega)
    simp only [hat.mem_free hr] at hfree
    refine Or.inl ⟨hfree, ?_⟩
    rintro g - ⟨b, hb, hy⟩
    exact Block.count_eq_zero.1 hzero b
      (hat.mem_parts_of_heldIn hr hrel hb) hy
  · have hzero : Block.count (tiles (.tile r) (freePieces (lists r))) y = 0 := by
      omega
    obtain ⟨b, ⟨hb, hy⟩, hunique⟩ := Block.existsUnique_of_count
      (B := tiles (.tile r) (parts X)) (x := y) (by omega)
    obtain ⟨g, hg, hheld⟩ := hat.exists_heldIn hrel hb
    obtain ⟨L', rfl⟩ := Multiset.exists_cons_of_mem hg
    refine Or.inr ⟨fun b hb => Block.count_eq_zero.1 hzero b
      ((hat.mem_free hr).2 hb), g, L', rfl, ⟨b, hheld, hy⟩, ?_⟩
    rintro g' hg' ⟨b', hb', hy'⟩
    obtain rfl := hunique b' ⟨hat.mem_parts_of_heldIn hr hrel hb', hy'⟩
    exact hheld.unique hd hg' hb'

theorem region_exact_block : ∃ (s : State) (L : Multiset Grant),
    (store (Config.single 8388608)).Run
      [(.malloc 4194304, .returns 1073741840),
        (.init 16777216, .returns 0)] L
    ∧ ∀ r ∈ s.regions, ∀ y, (s.region r).geometry.base ≤ y →
      y < (s.region r).geometry.base + (s.region r).geometry.totalSize →
      ((∃! b, FreeIn s r b ∧ b.Has y) ∧ ∀ g ∈ L, ¬ HeldAt s r y g)
      ∨ ((∀ b, FreeIn s r b → ¬ b.Has y)
        ∧ ∃ g L', L = g ::ₘ L' ∧ HeldAt s r y g
          ∧ ∀ g' ∈ L', ¬ HeldAt s r y g') := by
  obtain ⟨s, hcalls⟩ := init_malloc_calls
  exact ⟨s, region_exact single_secrets single_tagFree hcalls
    init_malloc_lawful⟩

-- ============================================================ freed blocks

/-- The block with its header at `a` is a caller's, or it is free and
its header says so. -/
theorem HInv.block_cases (hI : HInv cfg s X)
    (ha : a ∈ s.slab.ground.inited) :
    (∃ p e, (p, e) ∈ X ∧ p.kind.isBlock = true ∧ header p = a)
      ∨ ∃ p c T, Marked cfg c cfg.freedMagic p ∧ header p = a
        ∧ p ∈ T ∧ Space cfg s.slab.ground T := by
  obtain ⟨lists, node, hat⟩ := hI
  obtain ⟨C, hC, hsp, -⟩ := hat.places
  have hmem : a ∈ headers
      (parts X + (regionParts s.regions lists node + C)) := by
    rw [← hsp.inited]
    exact ha
  obtain ⟨p, hp, rfl⟩ := Multiset.mem_map.1 hmem
  obtain ⟨hp, hb⟩ := Multiset.mem_filter.1 hp
  rcases Multiset.mem_add.1 hp with hX | hrest
  · obtain ⟨e, he⟩ := exists_of_mem_parts hX
    exact Or.inl ⟨p, e, he, hb, rfl⟩
  rcases Multiset.mem_add.1 hrest with hregion | hC'
  · -- what a region owns has no header
    obtain ⟨r, hr, hfree | rfl⟩ := mem_regionParts.1 hregion
    · obtain ⟨k, hk, hp'⟩ := Multiset.mem_sum.1 hfree
      rw [((hat.region r hr).order k hk).kind p hp'] at hb
      cases hb
    · obtain ⟨m, hraw⟩ := (hat.region r hr).kind
      rw [hraw] at hb
      cases hb
  · obtain ⟨c, hok⟩ := hC.free p hC' hb
    exact Or.inr ⟨p, c, _, hok, rfl, hp, hsp⟩

/-- `rs_free` of a small block that is free. -/
theorem rsFree_freed {c : Nat} {T : Multiset Part} (hs : Secrets cfg)
    (hu : Untagged cfg s) (hok : Marked cfg c cfg.freedMagic p) (hp : p ∈ T)
    (hsp : Space cfg s.slab.ground T) (env : Nat → Env) :
    (rsFree cfg (header p + headerSize)).exec env s
      = some (.error .doubleFree, s) := by
  have hr := hok.range
  have hsize := blockSize_eq hok.lt
  unfold Piece.HasRange at hr
  simp only [headerSize] at hsize hr ⊢
  have hin : p.Has (header p + 16) := ⟨by omega, by omega⟩
  have hb := hsp.bounds hp hin
  simp only [pageSize, userLimit] at hb
  have howned : isOwned s (header p + 16) = .ok true := by
    have hclaim : Claimed T (header p + 16) := by
      refine ⟨p, hp, _, hin, ?_, rfl⟩
      have hblock := hok.isBlock
      unfold Kind.isBlock at hblock
      unfold Tracks
      split <;> simp_all
    rw [isOwned, (hsp.owned _ (by omega)).2 hclaim]
  have hnext : Mem.load 8 s.mem (header p) = link p :=
    hsp.load_eq hp ⟨hr.1, by omega⟩
  have horig : findOriginalPtr cfg s (header p + 16)
      = .ok (header p + 16) := by
    rw [findOriginalPtr, wrappingSub_of_le (by simp only [tagSize]; omega)
      (by omega), tagSize, Nat.add_sub_cancel, hnext, if_neg]
    have hpos := hs.tag_pos
    rcases hsp.links p hp hok.isBlock with hzero | hlink
    · omega
    · exact fun heq => hu (heq ▸ hlink)
  have hmagic : Header.magic s.mem (header p + 16 - 16) = cfg.freedMagic := by
    rw [Nat.add_sub_cancel]
    refine (hsp.load_eq hp ⟨?_, ?_⟩).trans
      (hok.magic.trans (Nat.mod_eq_of_lt hs.freed))
    · omega
    · omega
  unfold rsFree
  rw [if_neg (by omega)]
  refine Prog.exec_readThen ?_
  rw [howned]
  refine Prog.exec_readThen ?_
  rw [horig]
  refine Prog.exec_readThen ?_
  rw [hmagic, if_neg hs.magic_freed.symm, if_neg hs.freed_big, if_pos rfl]
  rfl

/-- A small block that nobody holds can not be freed: `rs_free` finds
that it is free already, and changes nothing. -/
theorem free_twice (hs : Secrets cfg) (hP : TagFree cfg P) {m₀ : Mem}
    {h : List (Call × Outcome)}
    (hcalls : Contract.Calls E P (progs cfg) (State.new m₀) h s)
    (hlaw : (store cfg).Lawful h) :
    ∃ L, (store cfg).Run h L ∧ ∀ a ∈ s.slab.ground.inited,
      (∀ g ∈ L, g.ptr < a + headerSize ∨ a + headerSize
        + sizeClass (Header.cls s.mem a) ≤ g.ptr) →
      ∀ env, (rsFree cfg (a + headerSize)).exec env s
        = some (.error .doubleFree, s) := by
  obtain ⟨L, hrun, X, hI, hrel⟩ := backed_of_calls hs hP hcalls hlaw
  refine ⟨L, hrun, fun a ha hnone env => ?_⟩
  rcases hI.block_cases ha with ⟨p, e, hmem, hb, rfl⟩ | ⟨p, c, T, hok, rfl, hp, hsp⟩
  · exfalso
    obtain ⟨X', rfl⟩ := Multiset.exists_cons_of_mem hmem
    obtain ⟨g, L', hback, -, rfl⟩ := Multiset.rel_cons_right.1 hrel
    rw [← Multiset.singleton_add] at hI
    obtain ⟨raw, align, hold, -, -⟩ := hback.live
    cases e with
    | some m =>
        rcases Big.seat hold.allocated with ⟨-, htile⟩ | ⟨-, hdir, -⟩
        · rw [htile.kind] at hb
          cases hb
        · rw [hdir] at hb
          cases hb
    | none =>
        have hcls : Header.cls s.mem (header p) = Header.cls p.data (header p) :=
          hold.allocated.load_eq hI (Nat.le_add_right ..)
            (by simp only [headerSize]; omega)
        have hle := (hold.bounds hI).2.2
        have hpos := hold.pos
        have hraw := hold.raw
        simp only [capacity, payload] at hpos hraw hle
        rcases hnone g (Multiset.mem_cons_self g L') with hlt | hge
        · omega
        · rw [hcls] at hge
          omega
  · exact rsFree_freed hs (hP s _ hcalls.last hI) hok hp hsp env

/-- A block of 2 MiB is freed, and then again. -/
theorem free_twice_small : ∃ (s : State) (L : Multiset Grant),
    (store (Config.single 8388608)).Run
      [(.free 33558592, .returns 0), (.malloc 2000000, .returns 33558592)] L
    ∧ ∀ a ∈ s.slab.ground.inited,
      (∀ g ∈ L, g.ptr < a + headerSize ∨ a + headerSize
        + sizeClass (Header.cls s.mem a) ≤ g.ptr) →
      ∀ env, (rsFree (Config.single 8388608) (a + headerSize)).exec env s
        = some (.error .doubleFree, s) := by
  obtain ⟨s, hcalls⟩ := calls_of_exec (Config.single 8388608) (fun _ => 0)
    (.malloc 2000000) (.free 33558592) (.returns 33558592) (.returns 0)
    (fun _ => { offer := some 33554432 }) 10 0 (by decide +kernel)
  exact ⟨s, free_twice single_secrets single_tagFree hcalls
    (lawful_malloc_free (by decide))⟩

end RsMalloc.Heap
