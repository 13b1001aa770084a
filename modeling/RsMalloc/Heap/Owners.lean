/-
Who owns what in the heap.

# Resources

A caller owns parts of memory. A big block is owned together with its
entry in `BIG_META_MAP`, whose key is the payload of the block (`Res`),
so there is no entry without its block and no block with two.

# The invariant

`HInv cfg s X`: next to what callers own as `X`, the slab caches own
their places and every region of the buddy backend owns its free blocks
and the mapping of its `BuddyRegion`; all of that is one `Space`. The
blocks of a region, free or owned, tile it, and `BIG_META_MAP` has
exactly the entries that are owned.

# Steps

A program of the slab caches may do in the heap what it may do on its
own (`onSlab_runs`), and so may a program of one region
(`onRegion_runs`). `HInv.exchange` is the rule for a step of the kernel
or of an owner on its own memory.
-/
import RsMalloc.Buddy.Proofs
import RsMalloc.Ground.Mappings
import RsMalloc.Heap.Model
import RsMalloc.Lib.Runs
import RsMalloc.Slab.Proofs

namespace RsMalloc.Heap

open Conc

open RbTree (BigAllocMeta)

open Buddy (OrderOk Masked tiles key freePieces orders)

-- ============================================================= resources

/-- What a caller owns: parts, each with its entry if it is recorded. -/
abbrev Res := Multiset (Part × Option BigAllocMeta)

/-- The parts without their entries. -/
def parts (X : Res) : Multiset Part := X.map Prod.fst

/-- Parts that are not recorded. -/
def bare (A : Multiset Part) : Res := A.map fun p => (p, none)

/-- A part of `X` is recorded as `m` under the key `k`. -/
def Entry (X : Res) (k : Nat) (m : BigAllocMeta) : Prop :=
  ∃ p, (p, some m) ∈ X ∧ k = p.base + headerSize

section Resources

variable {X Y : Res} {A B : Multiset Part} {p : Part}
  {e : Option BigAllocMeta} {k : Nat} {m : BigAllocMeta}

@[simp] theorem parts_zero : parts 0 = 0 := rfl

@[simp] theorem parts_add : parts (X + Y) = parts X + parts Y :=
  Multiset.map_add ..

@[simp] theorem parts_singleton : parts {(p, e)} = {p} :=
  Multiset.map_singleton ..

@[simp] theorem bare_singleton : bare {p} = {(p, none)} :=
  Multiset.map_singleton ..

@[simp] theorem parts_bare : parts (bare A) = A := by
  rw [parts, bare, Multiset.map_map]
  exact Multiset.map_id A

theorem mem_parts (h : (p, e) ∈ X) : p ∈ parts X :=
  Multiset.mem_map.2 ⟨_, h, rfl⟩

theorem exists_of_mem_parts (h : p ∈ parts X) : ∃ e, (p, e) ∈ X := by
  obtain ⟨⟨q, e⟩, hq, rfl⟩ := Multiset.mem_map.1 h
  exact ⟨e, hq⟩

@[simp] theorem entry_zero : ¬ Entry 0 k m := by
  rintro ⟨p, hp, -⟩
  exact absurd hp (Multiset.notMem_zero _)

@[simp] theorem entry_add :
    Entry (X + Y) k m ↔ Entry X k m ∨ Entry Y k m := by
  simp only [Entry, Multiset.mem_add, or_and_right, exists_or]

@[simp] theorem entry_singleton :
    Entry {(p, e)} k m ↔ e = some m ∧ k = p.base + headerSize := by
  constructor
  · rintro ⟨q, hq, hk⟩
    rw [Multiset.mem_singleton, Prod.mk.injEq] at hq
    exact ⟨hq.2.symm, hq.1 ▸ hk⟩
  · rintro ⟨rfl, hk⟩
    exact ⟨p, Multiset.mem_singleton_self _, hk⟩

@[simp] theorem entry_bare : ¬ Entry (bare A) k m := by
  rintro ⟨p, hp, -⟩
  obtain ⟨q, -, hq⟩ := Multiset.mem_map.1 hp
  cases hq

end Resources

-- =============================================================== regions

/-- What is known of the region `r`: its free lists are `lists`, and its
`BuddyRegion` lies in the mapping `node`. -/
structure RegionOk (s : State) (r : Nat) (lists : Nat → List Part)
    (node : Part) : Prop where
  geometry : (s.region r).geometry.Ok
  align : (s.region r).geometry.base % pageSize = 0
  order : ∀ k ∈ orders, OrderOk (s.region r).geometry (.tile r)
    (s.region r).birth k ((s.region r).free (Buddy.orderIndex k))
    ((s.region r).freeBitmap (Buddy.orderIndex k)) (lists k)
  mask : Masked (s.view r)
  kind : ∃ m, node.kind = .raw m
  base : node.base = r
  pos : 0 < node.len

/-- What the regions own. -/
def regionParts (regions : List Nat) (lists : Nat → Nat → List Part)
    (node : Nat → Part) : Multiset Part :=
  (regions.map fun r => freePieces (lists r) + {node r}).sum

section Regions

variable {s s' : State} {r : Nat} {regions : List Nat}
  {lists lists' : Nat → Nat → List Part} {node node' : Nat → Part}
  {p : Part}

@[simp] theorem regionParts_cons :
    regionParts (r :: regions) lists node
      = freePieces (lists r) + {node r} + regionParts regions lists node :=
  List.sum_cons

theorem regionParts_split (hr : r ∈ regions) :
    regionParts regions lists node = freePieces (lists r)
      + ({node r} + regionParts (regions.erase r) lists node) := by
  rw [← add_assoc, ← regionParts_cons]
  exact ((List.perm_cons_erase hr).map _).sum_eq

theorem regionParts_congr
    (h : ∀ r ∈ regions, lists' r = lists r ∧ node' r = node r) :
    regionParts regions lists' node' = regionParts regions lists node := by
  rw [regionParts, regionParts]
  congr 1
  refine List.map_congr_left fun r hr => ?_
  rw [(h r hr).1, (h r hr).2]

theorem mem_regionParts : p ∈ regionParts regions lists node
    ↔ ∃ r ∈ regions, p ∈ freePieces (lists r) ∨ p = node r := by
  induction regions with
  | nil => simp [regionParts]
  | cons a l ih => simp [ih, or_assoc]

/-- A region looks at its own record only. -/
theorem RegionOk.congr {lists : Nat → List Part} {node : Part}
    (h : RegionOk s r lists node) (hr : s'.region r = s.region r) :
    RegionOk s' r lists node where
  geometry := hr ▸ h.geometry
  align := hr ▸ h.align
  order k hk := by
    rw [hr]
    exact h.order k hk
  mask k hk := by
    have hm := h.mask k hk
    unfold State.view at hm ⊢
    rw [hr]
    exact hm
  kind := h.kind
  base := h.base
  pos := h.pos

/-- A region whose record shows what is known of its free lists. -/
theorem RegionOk.of_at {g : Buddy.Geometry} {birth : Nat}
    {t : Buddy.RegionState} {l : Nat → List Part} {W : Multiset Part}
    {node : Part} (h : Buddy.RegionAt g (Kind.tile r) birth t l W)
    (hself : s.region r = ⟨g, t.nonemptyMask, t.free, t.freeBitmap, birth⟩)
    (hg : g.Ok) (halign : g.base % pageSize = 0)
    (hkind : ∃ m, node.kind = .raw m) (hbase : node.base = r)
    (hpos : 0 < node.len) : RegionOk s r l node := by
  refine ⟨?_, ?_, fun k hk => ?_, fun k hk => ?_, hkind, hbase, hpos⟩
  · rw [hself]
    exact hg
  · rw [hself]
    exact halign
  · rw [hself]
    exact h.order k hk
  · rw [State.view, hself]
    exact h.mask k hk

/-- A free block is a block of its region. -/
theorem RegionOk.kind_free {lists : Nat → List Part} {node : Part}
    (h : RegionOk s r lists node) (hp : p ∈ freePieces lists) :
    p.kind = .tile r := by
  obtain ⟨k, hk, hpk⟩ := Multiset.mem_sum.1 hp
  exact (h.order k hk).kind p hpk

end Regions

-- ========================================================= the invariant

/-- What someone may own, as part and entry. -/
structure Ownable (regions : List Nat) (x : Part × Option BigAllocMeta) :
    Prop where
  tile : ∀ r, x.1.kind = .tile r →
    r ∈ regions ∧ x.1.len = 2 ^ (key x.1).order
  raw : ∀ m, x.1.kind = .raw m → 0 < x.1.len
  recorded : ∀ m, x.2 = some m → 0 < x.1.len

/-- The heap, with the parts of its regions named. -/
structure HeapAt (cfg : Config) (s : State)
    (lists : Nat → Nat → List Part) (node : Nat → Part) (X : Res) :
    Prop where
  slab : Slab.Inv cfg s.slab (parts X + regionParts s.regions lists node)
  nodup : s.regions.Nodup
  region : ∀ r ∈ s.regions, RegionOk s r (lists r) (node r)
  tiling : ∀ r ∈ s.regions, Tiling (s.region r).geometry.base
    (s.region r).geometry.totalSize Buddy.minOrder Buddy.maxOrder
    (tiles (.tile r) (freePieces (lists r) + parts X))
  owned : ∀ x ∈ X, Ownable s.regions x
  entry : ∀ k m, s.bigMap k = some m ↔ Entry X k m

/-- The slab caches, the regions and the owners of `X` share all of
memory. -/
def HInv (cfg : Config) (s : State) (X : Res) : Prop :=
  ∃ lists node, HeapAt cfg s lists node X

section Invariant

variable {cfg : Config} {s s' : State} {lists : Nat → Nat → List Part}
  {node : Nat → Part} {A A' f X : Res} {r : Nat} {p : Part}

theorem HeapAt.tile (h : HeapAt cfg s lists node X) (hp : p ∈ parts X)
    (hk : p.kind = .tile r) :
    r ∈ s.regions ∧ p.len = 2 ^ (key p).order := by
  obtain ⟨e, he⟩ := exists_of_mem_parts hp
  exact (h.owned _ he).tile r hk

/-- Something else is owned instead of `A`. -/
theorem HeapAt.owned_instead (h : HeapAt cfg s lists node (A + f))
    (hA' : ∀ x ∈ A', Ownable s.regions x) :
    ∀ x ∈ A' + f, Ownable s.regions x := by
  intro x hx
  rcases Multiset.mem_add.1 hx with hx | hx
  · exact hA' x hx
  · exact h.owned x (Multiset.mem_add.2 (Or.inr hx))

/-- What the slab caches hold besides. -/
theorem HeapAt.places (h : HeapAt cfg s lists node X) :
    ∃ C, Slab.Stored cfg C
      ∧ Space cfg s.slab.ground
        (parts X + (regionParts s.regions lists node + C))
      ∧ ∀ s' R, s'.list = s.slab.list → s'.slot = s.slab.slot →
        s'.pages = s.slab.pages → Space cfg s'.ground (R + C) →
        Slab.Inv cfg s' R := by
  obtain ⟨C, hC, hsp, hback⟩ := h.slab.places
  refine ⟨C, hC, ?_, fun s' R hl hs hp hsp' =>
    hback s' R hl hs hp (by rwa [add_comm])⟩
  rwa [← add_assoc, add_comm]

/-- The mappings that regions and callers have parts of. -/
theorem HeapAt.filled (h : HeapAt cfg s lists node (A + f)) :
    Filled (parts f + regionParts s.regions lists node) := by
  refine Filled.add (fun p hp m hm => ⟨p, hp, hm, ?_⟩)
    fun p hp m hm => ⟨p, hp, hm, ?_⟩
  · obtain ⟨e, he⟩ := exists_of_mem_parts hp
    exact (h.owned _ (Multiset.mem_add.2 (Or.inr he))).raw m hm
  · obtain ⟨r, hr, hfree | rfl⟩ := mem_regionParts.1 hp
    · rw [(h.region r hr).kind_free hfree] at hm
      cases hm
    · exact (h.region r hr).pos

/-- What an owner may get for the parts `A`: it keeps the blocks of
regions and the entries it has. -/
structure Trade (regions : List Nat) (A A' : Res) : Prop where
  tiles : ∀ r, tiles (.tile r) (parts A') = tiles (.tile r) (parts A)
  owned : ∀ x ∈ A', Ownable regions x
  entry : ∀ k m, Entry A' k m ↔ Entry A k m

variable {g : Ground} {q : Part} {e : Option BigAllocMeta}

/-- The parts `A` become `A'` by a step on memory and the kernel's
tables. -/
theorem HeapAt.exchange (h : HeapAt cfg s lists node (A + f))
    (ht : Trade s.regions A A')
    (hG : ∀ H, Filled H → Space cfg s.slab.ground (parts A + H) →
      Space cfg g (parts A' + H)) :
    HeapAt cfg (s.onGround fun _ => g) lists node (A' + f) := by
  obtain ⟨C, hC, hsp, hback⟩ := h.places
  have hfill : Filled (parts f + (regionParts s.regions lists node + C)) := by
    rw [← add_assoc]
    exact h.filled.add hC.filled
  refine ⟨?_, h.nodup, fun r hr => (h.region r hr).congr rfl,
    fun r hr => ?_, h.owned_instead ht.owned, fun k m => ?_⟩
  · refine hback _ _ rfl rfl rfl ?_
    rw [parts_add, add_assoc] at hsp
    rw [parts_add, add_assoc, add_assoc]
    exact hG _ hfill hsp
  · have htiling := h.tiling r hr
    rw [parts_add, Buddy.tiles_add, Buddy.tiles_add] at htiling
    show Tiling (s.region r).geometry.base _ _ _ _
    rw [parts_add, Buddy.tiles_add, Buddy.tiles_add, ht.tiles]
    exact htiling
  · refine (h.entry k m).trans ?_
    rw [entry_add, entry_add, ht.entry]

theorem HInv.exchange (h : HInv cfg s (A + f)) (ht : Trade s.regions A A')
    (hG : ∀ H, Filled H → Space cfg s.slab.ground (parts A + H) →
      Space cfg g (parts A' + H)) :
    HInv cfg (s.onGround fun _ => g) (A' + f) := by
  obtain ⟨lists, node, hat⟩ := h
  exact ⟨lists, node, hat.exchange ht hG⟩

/-- Everything that is owned lies in one space. -/
theorem HInv.space (h : HInv cfg s X) :
    ∃ H, Space cfg s.slab.ground (parts X + H) := by
  obtain ⟨lists, node, hat⟩ := h
  obtain ⟨C, -, hsp, -⟩ := hat.places
  exact ⟨_, hsp⟩

/-- The space, with one part in front. -/
theorem HInv.front {x : Part × Option BigAllocMeta}
    (h : HInv cfg s ({x} + f)) :
    ∃ H, Space cfg s.slab.ground ({x.1} + (parts f + H)) := by
  obtain ⟨H, hsp⟩ := h.space
  obtain ⟨p, e⟩ := x
  rw [parts_add, parts_singleton, add_assoc] at hsp
  exact ⟨H, hsp⟩

/-- What is owned lies in user space. -/
theorem HInv.bounds (h : HInv cfg s ({(p, e)} + f)) (hpos : 0 < p.len) :
    pageSize ≤ p.base ∧ p.base + p.len ≤ 2 ^ 47 := by
  obtain ⟨H, hsp⟩ := h.front
  have hp : p ∈ {p} + (parts f + H) := by simp
  exact ⟨(hsp.bounds hp (x := p.base) ⟨le_rfl, by omega⟩).1,
    hsp.end_le hp hpos⟩

/-- A trade without blocks of regions. -/
theorem Trade.of_not_tile {regions : List Nat}
    (hA : ∀ p ∈ parts A, ∀ r, p.kind ≠ .tile r)
    (hA' : ∀ x ∈ A', (∀ r, x.1.kind ≠ .tile r) ∧ 0 < x.1.len)
    (hentry : ∀ k m, Entry A' k m ↔ Entry A k m) :
    Trade regions A A' where
  tiles r := by
    rw [Buddy.tiles_of_ne fun p hp => hA p hp r,
      Buddy.tiles_of_ne fun p hp => ?_]
    obtain ⟨e, he⟩ := exists_of_mem_parts hp
    exact (hA' _ he).1 r
  owned x hx := ⟨fun r hk => absurd hk ((hA' x hx).1 r),
    fun _ _ => (hA' x hx).2, fun _ _ => (hA' x hx).2⟩
  entry := hentry

/-- An owner rewrites a part. -/
theorem HInv.rewrite (h : HInv cfg s ({(p, e)} + f)) (hk : q.kind = p.kind)
    (hb : q.base = p.base) (hl : q.len = p.len)
    (hG : ∀ H, Space cfg s.slab.ground ({p} + H) → Space cfg g ({q} + H)) :
    HInv cfg (s.onGround fun _ => g) ({(q, e)} + f) := by
  have hkey : key q = key p := by rw [key, key, hb, hl]
  obtain ⟨lists, node, hat⟩ := h
  have hp := hat.owned (p, e) mem_singleton_add_self
  refine ⟨lists, node, hat.exchange ⟨fun r => ?_, fun x hx => ?_,
    fun k m => ?_⟩ fun H _ hH => ?_⟩
  · rw [parts_singleton, parts_singleton, tiles, tiles,
      Multiset.filter_singleton, Multiset.filter_singleton, hk]
    split
    · rw [Multiset.map_singleton, Multiset.map_singleton, hkey]
    · rfl
  · rw [Multiset.mem_singleton.1 hx]
    refine ⟨?_, ?_, ?_⟩
    · rw [hk, hl, hkey]
      exact hp.tile
    · rw [hk, hl]
      exact hp.raw
    · rw [hl]
      exact hp.recorded
  · rw [entry_singleton, entry_singleton, hb]
  · rw [parts_singleton] at hH ⊢
    exact hG H hH

/-- A part of another kind takes the place of a part; neither is a block
of a region. -/
theorem HInv.relabel (h : HInv cfg s ({(p, e)} + f))
    (hp : ∀ r, p.kind ≠ .tile r) (hq : ∀ r, q.kind ≠ .tile r)
    (hb : q.base = p.base) (hpos : 0 < q.len)
    (hG : ∀ H, Filled H → Space cfg s.slab.ground ({p} + H) →
      Space cfg g ({q} + H)) :
    HInv cfg (s.onGround fun _ => g) ({(q, e)} + f) := by
  refine h.exchange (.of_not_tile (fun p' hp' => ?_) (fun x hx => ?_)
    fun k m => ?_) ?_
  · rw [parts_singleton, Multiset.mem_singleton] at hp'
    exact hp' ▸ hp
  · rw [Multiset.mem_singleton.1 hx]
    exact ⟨hq, hpos⟩
  · rw [entry_singleton, entry_singleton, hb]
  · intro H hF hH
    rw [parts_singleton] at hH ⊢
    exact hG H hF hH

end Invariant

-- ======================================================= slab programs

section Programs

variable {cfg : Config} {E : Env → Prop} {P : State → Prop} {α : Type}
  {s : State} {A : Multiset Part} {Q : α → Multiset Part → Prop}

theorem not_tile_of_block {q : Part} (h : q.kind.isBlock = true)
    (r : Nat) : q.kind ≠ .tile r := by
  intro hk
  rw [hk] at h
  cases h

theorem not_raw_of_block {q : Part} (h : q.kind.isBlock = true)
    (m : Nat × Nat) : q.kind ≠ .raw m := by
  intro hk
  rw [hk] at h
  cases h

/-- A program of the slab caches that trades in blocks. -/
theorem onSlab_runs {p : Slab.SlabM α} (hsafe : Safe (Slab.Inv cfg) p Q A)
    (hA : ∀ q ∈ A, q.kind.isBlock = true)
    (hQ : ∀ a A', Q a A' → ∀ q ∈ A', q.kind.isBlock = true) :
    Runs E P (HInv cfg) (onSlab p)
      (fun a s' x => s' = { s with slab := s'.slab }
        ∧ ∃ A', x = bare A' ∧ Q a A') s (bare A) := by
  intro f hP hI a s' hran
  obtain ⟨lists, node, hat⟩ := hI
  have hinv := hat.slab
  rw [parts_add, parts_bare, add_assoc] at hinv
  obtain ⟨t, A', rfl, hinv', hpost⟩ := Ran.lift hran hsafe
    (fun _ _ _ h => h) (fun _ _ _ => rfl) (fun _ => rfl) hinv
  rw [← add_assoc] at hinv'
  have hA' := hQ a A' hpost
  refine ⟨bare A', ⟨lists, node, ?_, hat.nodup,
    fun r hr => (hat.region r hr).congr rfl, fun r hr => ?_,
    hat.owned_instead fun x hx => ?_, fun k m => ?_⟩, rfl, A', rfl, hpost⟩
  · rw [parts_add, parts_bare]
    exact hinv'
  · have htiling := hat.tiling r hr
    rw [parts_add, parts_bare, Buddy.tiles_add, Buddy.tiles_add,
      Buddy.tiles_of_ne fun q hq => not_tile_of_block (hA q hq) r] at htiling
    rw [parts_add, parts_bare, Buddy.tiles_add, Buddy.tiles_add,
      Buddy.tiles_of_ne fun q hq => not_tile_of_block (hA' q hq) r]
    exact htiling
  · obtain ⟨q, hq, rfl⟩ := Multiset.mem_map.1 hx
    exact ⟨fun r hk => absurd hk (not_tile_of_block (hA' q hq) r),
      fun m hk => absurd hk (not_raw_of_block (hA' q hq) m), nofun⟩
  · refine (hat.entry k m).trans ?_
    simp

end Programs

-- ======================================================= region programs

section RegionPrograms

variable {cfg : Config} {E : Env → Prop} {P : State → Prop} {α : Type}
  {s : State} {A C : Multiset Part} {f X X' : Res} {r : Nat}
  {lists : Nat → Nat → List Part} {node : Nat → Part} {p : Part}

/-- What others own besides the free blocks of the region `r`. -/
def around (s : State) (r : Nat) (lists : Nat → Nat → List Part)
    (node : Nat → Part) (C : Multiset Part) (f : Res) : Multiset Part :=
  parts f + ({node r} + regionParts (s.regions.erase r) lists node + C)

variable {g : Buddy.Geometry} {birth : Nat} {t : Buddy.RegionState}
  {l : Nat → List Part} {Q : α → Multiset Part → Prop}

/-- No other part has the region's label. -/
theorem HeapAt.elsewhere (h : HeapAt cfg s lists node (X + f))
    (hr : r ∈ s.regions) (hC : Slab.Stored cfg C)
    (hp : p ∈ {node r} + regionParts (s.regions.erase r) lists node + C) :
    p.kind ≠ .tile r := by
  intro hk
  rcases Multiset.mem_add.1 hp with hp | hp
  · rcases Multiset.mem_add.1 hp with hp | hp
    · obtain ⟨m, hm⟩ := (h.region r hr).kind
      rw [Multiset.mem_singleton.1 hp, hm] at hk
      cases hk
    · obtain ⟨r', hr', hp | rfl⟩ := mem_regionParts.1 hp
      · have hmem := List.mem_of_mem_erase hr'
        rw [(h.region r' hmem).kind_free hp] at hk
        cases hk
        exact h.nodup.not_mem_erase hr'
      · obtain ⟨m, hm⟩ := (h.region r' (List.mem_of_mem_erase hr')).kind
        rw [hm] at hk
        cases hk
  · exact hC.tile p hp r hk

theorem HeapAt.tiles_around (h : HeapAt cfg s lists node (X + f))
    (hr : r ∈ s.regions) (hC : Slab.Stored cfg C) (B : Multiset Part) :
    tiles (.tile r) (B + around s r lists node C f)
      = tiles (.tile r) (B + parts f) := by
  rw [around, ← add_assoc, Buddy.tiles_add,
    Buddy.tiles_of_ne fun p hp => h.elsewhere hr hC hp, add_zero]

theorem HeapAt.split (hr : r ∈ s.regions) :
    parts (X + f) + (regionParts s.regions lists node + C)
      = freePieces (lists r) + parts X + around s r lists node C f := by
  rw [parts_add, regionParts_split hr, around]
  abel

/-- A free block is as long as its order says. -/
theorem freePieces_tile {head : Nat → Nat} {bits : Nat → Bitmap}
    (hord : ∀ k ∈ orders,
      OrderOk g (Kind.tile r) birth k (head k) (bits k) (l k))
    (hp : p ∈ freePieces l) : p.kind = .tile r ∧ p.len = 2 ^ (key p).order := by
  obtain ⟨k, hk, hpk⟩ := Multiset.mem_sum.1 hp
  have hlen := (hord k hk).len p hpk
  refine ⟨(hord k hk).kind p hpk, ?_⟩
  rw [Buddy.key_of_len hlen]
  exact hlen

/-- The invariant of one region next to all other parts. -/
theorem HeapAt.regionInv (h : HeapAt cfg s lists node (X + f))
    (hr : r ∈ s.regions) (hC : Slab.Stored cfg C)
    (hsp : Space cfg s.slab.ground
      (parts (X + f) + (regionParts s.regions lists node + C))) :
    Buddy.RegionAt (s.region r).geometry (.tile r) (s.region r).birth
      (s.view r) (lists r) (parts X + around s r lists node C f) := by
  have hok := h.region r hr
  rw [HeapAt.split hr] at hsp
  refine ⟨?_, hok.order, fun p hp hk => ?_, ?_, hok.mask, nofun⟩
  · rw [← add_assoc]
    exact hsp.holds
  · rw [around, ← add_assoc] at hp
    rcases Multiset.mem_add.1 hp with hp | hp
    · refine (h.tile ?_ hk).2
      rw [parts_add]
      exact hp
    · exact absurd hk (h.elsewhere hr hC hp)
  · have htiling := h.tiling r hr
    rw [parts_add, ← add_assoc] at htiling
    rw [← add_assoc, h.tiles_around hr hC]
    exact htiling

/-- Blocks of a region cover what their tiling says. -/
theorem cover_of_tiles {W : Multiset Part} {base total : Nat}
    (hA : ∀ p ∈ A, p.kind = .tile r ∧ p.len = 2 ^ (key p).order)
    (ht : Tiling base total Buddy.minOrder Buddy.maxOrder
      (tiles (.tile r) (A + W))) (x : Nat) :
    cover A x + Block.count (tiles (.tile r) W) x
      = if base ≤ x ∧ x < base + total then 1 else 0 := by
  have hexact := ht.exact x
  have hself : tiles (.tile r) A = A.map key := by
    rw [tiles, Multiset.filter_eq_self.2 fun p hp => (hA p hp).1]
  rw [Buddy.tiles_add, Block.count_add, hself] at hexact
  rw [Buddy.cover_eq_count fun p hp => (hA p hp).2, hexact]

/-- All blocks of a region that are free or owned as `A`. -/
theorem region_tile {W : Multiset Part}
    (h : Buddy.RegionAt g (Kind.tile r) birth t l (A + W))
    (hA : ∀ p ∈ A, p.kind = .tile r) (hp : p ∈ freePieces l + A) :
    p.kind = .tile r ∧ p.len = 2 ^ (key p).order := by
  rcases Multiset.mem_add.1 hp with hp | hp
  · exact freePieces_tile h.order hp
  · exact ⟨hA p hp, h.len p (Multiset.mem_add.2 (Or.inl hp)) (hA p hp)⟩

/-- The owners of blocks of one region, and the region itself, have cut
and joined them. -/
theorem HeapAt.putView (h : HeapAt cfg s lists node (X + f))
    (hr : r ∈ s.regions) (hC : Slab.Stored cfg C) (hsp : Space cfg s.slab.ground
      (parts (X + f) + (regionParts s.regions lists node + C)))
    (hback : ∀ s' R, s'.list = s.slab.list → s'.slot = s.slab.slot →
      s'.pages = s.slab.pages → Space cfg s'.ground (R + C) →
      Slab.Inv cfg s' R) (hX : ∀ p ∈ parts X, p.kind = .tile r)
    (hX' : ∀ p ∈ parts X', p.kind = .tile r)
    (hentry : ∀ k m, Entry X' k m ↔ Entry X k m)
    (hat : Buddy.RegionAt (s.region r).geometry (.tile r)
      (s.region r).birth t l (parts X' + around s r lists node C f)) :
    HeapAt cfg (s.putView r t) (Function.update lists r l) node
      (X' + f) := by
  have hok := h.region r hr
  have hold := h.regionInv hr hC hsp
  -- both cuts cover the region, apart from the blocks of others
  have hcover : ∀ x, cover (freePieces l + parts X') x
      = cover (freePieces (lists r) + parts X) x := by
    intro x
    have ht := hat.tiling
    have ht' := hold.tiling
    rw [← add_assoc] at ht ht'
    have h₁ := cover_of_tiles (fun p hp => region_tile hat hX' hp) ht x
    have h₂ := cover_of_tiles (fun p hp => region_tile hold hX hp) ht' x
    omega
  have hholds := hat.holds
  rw [← add_assoc] at hholds
  rw [HeapAt.split hr] at hsp
  have hsp' := hsp.retile (r := r)
    (fun p hp => Or.inr (region_tile hold hX hp).1)
    (fun p hp => (region_tile hat hX' hp).1) hcover hholds
  have hother : ∀ r' ∈ s.regions, r' ≠ r →
      (s.putView r t).region r' = s.region r' ∧
        Function.update lists r l r' = lists r' := fun r' _ hne =>
    ⟨Function.update_of_ne hne _ _, Function.update_of_ne hne _ _⟩
  have hself : (s.putView r t).region r = { s.region r with
      nonemptyMask := t.nonemptyMask, free := t.free,
      freeBitmap := t.freeBitmap } := Function.update_self ..
  refine ⟨?_, h.nodup, fun r' hr' => ?_, fun r' hr' => ?_,
    h.owned_instead fun x hx => ?_, fun k m => ?_⟩
  · refine hback _ _ rfl rfl rfl ?_
    have hparts : parts (X' + f) + regionParts s.regions
        (Function.update lists r l) node + C
        = freePieces l + parts X' + around s r lists node C f := by
      rw [add_assoc, HeapAt.split hr, Function.update_self, around, around,
        regionParts_congr fun r' (hr' : r' ∈ s.regions.erase r) =>
          ⟨(hother r' (List.mem_of_mem_erase hr') fun heq =>
            h.nodup.not_mem_erase (heq ▸ hr')).2, rfl⟩]
    show Space cfg _ (parts (X' + f) + regionParts s.regions
      (Function.update lists r l) node + C)
    rw [hparts]
    exact hsp'
  · by_cases heq : r' = r
    · subst heq
      rw [Function.update_self]
      exact .of_at hat hself hok.geometry hok.align hok.kind hok.base hok.pos
    · obtain ⟨h₁, h₂⟩ := hother r' hr' heq
      rw [h₂]
      exact (h.region r' hr').congr h₁
  · by_cases heq : r' = r
    · subst heq
      have ht := hat.tiling
      rw [← add_assoc, h.tiles_around hr hC, add_assoc] at ht
      rw [hself, Function.update_self, parts_add]
      exact ht
    · obtain ⟨h₁, h₂⟩ := hother r' hr' heq
      have ht := h.tiling r' hr'
      have hne : ∀ B : Multiset Part, (∀ p ∈ B, p.kind = .tile r) →
          tiles (.tile r') B = 0 := fun B hB =>
        Buddy.tiles_of_ne fun p hp hk => heq (by
          rw [hB p hp] at hk
          cases hk
          rfl)
      rw [parts_add, Buddy.tiles_add, Buddy.tiles_add,
        hne _ hX] at ht
      rw [h₁, h₂, parts_add, Buddy.tiles_add, Buddy.tiles_add,
        hne _ hX']
      exact ht
  · have hin := mem_parts hx
    have hkind := hX' x.1 hin
    have hlen := hat.len x.1 (Multiset.mem_add.2 (Or.inl hin)) hkind
    have hpos : 0 < x.1.len := by
      rw [hlen]
      exact Nat.two_pow_pos _
    refine ⟨fun r' hk => ?_, fun _ _ => hpos, fun _ _ => hpos⟩
    cases hkind.symm.trans hk
    exact ⟨hr, hlen⟩
  · refine (h.entry k m).trans ?_
    rw [entry_add, entry_add, hentry]

theorem putView_putView (s : State) (r : Nat) (t t' : Buddy.RegionState) :
    (s.putView r t).putView r t' = s.putView r t' := by
  unfold State.putView
  dsimp only
  rw [Function.update_idem, Function.update_self]
  rfl

theorem putView_view (s : State) (r : Nat) :
    s.putView r (s.view r) = s := by
  unfold State.putView State.view
  dsimp only
  rw [Function.update_eq_self]
  rfl

/-- The invariant of a region does not depend on the time, and not on
the accesses in the past. -/
theorem regionInv_view {R : Multiset Part}
    (h : Buddy.RegionInv g (Kind.tile r) birth t R) :
    Buddy.RegionInv g (Kind.tile r) birth ((s.putView r t).view r) R := by
  obtain ⟨l, hat⟩ := h
  have hview : (s.putView r t).view r
      = { t with stamp := s.slab.stamp, accesses := [] } := by
    rw [State.view, show (s.putView r t).region r = { s.region r with
      nonemptyMask := t.nonemptyMask, free := t.free,
      freeBitmap := t.freeBitmap } from Function.update_self ..]
    rfl
  rw [hview]
  exact ⟨l, hat.holds, hat.order, hat.len, hat.tiling, hat.mask, nofun⟩

variable {p : Prog Buddy.RegionState Unit α}

/-- A program of one region, run by an owner of some of its blocks, who
keeps the entries of those. -/
theorem onRegion_runs_of {S : α → Res → Prop} (hr : r ∈ s.regions)
    (hsafe : Safe ((Buddy.Ledger.plain Kind).Inv (fun _ _ _ => True)
      (s.region r).geometry (.tile r) (s.region r).birth) p Q (parts X))
    (hX : ∀ p ∈ parts X, p.kind = .tile r)
    (hQ : ∀ a A', Q a A' → ∃ X', A' = parts X' ∧ S a X'
      ∧ (∀ p ∈ parts X', p.kind = .tile r)
      ∧ ∀ k m, Entry X' k m ↔ Entry X k m) :
    Runs E P (HInv cfg) (onRegion r p)
      (fun a s' x => (∃ t, s' = s.putView r t) ∧ S a x) s X := by
  intro f hP hI a s' hran
  obtain ⟨lists, node, hat⟩ := hI
  obtain ⟨C, hC, hsp, hback⟩ := hat.places
  have hinv := hat.regionInv hr hC hsp
  obtain ⟨t, A', rfl, ⟨⟨l, hl⟩, -⟩, hpost⟩ := Ran.lift hran hsafe
    (fun t s R h => ⟨regionInv_view h.1, trivial⟩)
    (fun s t t' => putView_putView s r t t') (fun s => putView_view s r)
    ⟨⟨lists r, hinv⟩, trivial⟩
  obtain ⟨X', rfl, hS, hkind, hentry⟩ := hQ a A' hpost
  exact ⟨X', ⟨_, node, hat.putView hr hC hsp hback hX hkind hentry hl⟩,
    ⟨t, rfl⟩, hS⟩

/-- A program of one region that trades in blocks without entries. -/
theorem onRegion_runs (hr : r ∈ s.regions)
    (hsafe : Safe ((Buddy.Ledger.plain Kind).Inv (fun _ _ _ => True)
      (s.region r).geometry (.tile r) (s.region r).birth) p Q A)
    (hA : ∀ p ∈ A, p.kind = .tile r)
    (hQ : ∀ a A', Q a A' → ∀ p ∈ A', p.kind = .tile r) :
    Runs E P (HInv cfg) (onRegion r p)
      (fun a s' x => (∃ t, s' = s.putView r t)
        ∧ ∃ A', x = bare A' ∧ Q a A') s (bare A) := by
  refine onRegion_runs_of hr (by rw [parts_bare]; exact hsafe)
    (by rw [parts_bare]; exact hA) fun a A' hpost =>
      ⟨bare A', parts_bare.symm, ⟨A', rfl, hpost⟩, ?_, fun k m => ?_⟩
  · rw [parts_bare]
    exact hQ a A' hpost
  · simp

end RegionPrograms

end RsMalloc.Heap
