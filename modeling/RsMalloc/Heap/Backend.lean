/-
The kernel and the buddy backend, for those who call them.

# Mappings

`mmap_runs` and `munmap_runs`: a mapping is the caller's until it is
given back.

# Regions

`addRegion_runs`: two mappings become a region, or nothing is left of
them. `backendAlloc_runs`: the backend hands out a block of the order
that was asked for, and one that was never handed out before is zero
behind its node. `backendFree_runs` and `backendGrow_runs` are for the
owner of a block; a failed growth leaves the block as it is.
-/
import RsMalloc.Heap.Owners

namespace RsMalloc.Heap

open Conc

open RbTree (BigAllocMeta)

open Buddy (IsTile Untouched key tiles freePieces orders OrderOk)

variable {cfg : Config} {E : Env → Prop} {P : State → Prop} {s : State}

-- ============================================================== mappings

/-- A mapping of `n` bytes at `a` that is known to nobody else, and
reads as zero. -/
structure IsMapping (n a : Nat) (p : Part) : Prop where
  kind : p.kind = .raw (p.base, p.len)
  base : p.base = a
  len : p.len = pageUp n
  pos : 0 < n
  align : a % pageSize = 0
  zero : ∀ x, p.Has x → p.data x = 0

/-- What a caller of `mmap` gets. -/
def GotMapping (n : Nat) (o : Option Nat) (_ : State) (x : Res) : Prop :=
  match o with
  | none => x = 0
  | some a => ∃ p, x = {(p, none)} ∧ IsMapping n a p

theorem pageUp_pos {n : Nat} (h : 0 < n) : 0 < pageUp n :=
  h.trans_le (pageUp_spec n).1

variable {p q : Part} {e : Option BigAllocMeta} {lists : Nat → Nat → List Part}
  {node : Nat → Part} {X f : Res} {r k : Nat}

theorem mmap_runs (n : Nat) :
    Runs E P (HInv cfg) (mmap n) (GotMapping n) s 0 := by
  refine Runs.atomic fun env f _ _ hI => ?_
  dsimp only
  rcases Space.mmap_cases s.slab.ground env.offer n
    with hfail | ⟨a, hpos, hplace, hok⟩
  · rw [hfail]
    exact ⟨0, hI, rfl⟩
  · rw [hok]
    let p : Part := ⟨.raw (a, pageUp n), a, pageUp n,
      Mem.zero s.slab.ground.mem a (pageUp n)⟩
    refine ⟨{(p, none)}, hI.exchange (A := 0) (.of_not_tile ?_
      (fun x hx => ?_) fun k m => ?_) fun H _ hH => ?_, p, rfl, rfl, rfl, rfl, hpos,
      hplace.2.1, fun x hx => Mem.zero_apply hx.1 hx.2⟩
    · exact nofun
    · rw [Multiset.mem_singleton.1 hx]
      exact ⟨nofun, pageUp_pos hpos⟩
    · simp
    · rw [parts_zero, zero_add] at hH
      rw [parts_singleton]
      exact hH.map_fresh (pageUp_pos hpos) hplace

theorem mmapRetry_runs (n k : Nat) :
    Runs E P (HInv cfg) (mmapRetry n k) (GotMapping n) s 0 := by
  induction k generalizing s with
  | zero => exact Runs.ret rfl
  | succ k ih =>
      refine (mmap_runs n).andThen fun o s' x hx => ?_
      cases o with
      | none =>
          obtain rfl : x = 0 := hx
          exact ih
      | some a => exact Runs.ret hx

/-- A mapping is given back, whatever has been written to it. -/
theorem munmap_inv {n : Nat} (hI : HInv cfg s ({(p, none)} + f))
    (hk : p.kind = .raw (p.base, p.len)) (hpos : 0 < n)
    (hlen : p.len = pageUp n) :
    HInv cfg (s.onGround (Ground.munmap p.base n)) f := by
  have hinv : HInv cfg (s.onGround (Ground.munmap p.base n)) (0 + f) :=
    hI.exchange
      (.of_not_tile (fun q hq r hk' => ?_) ?_ fun k m => by simp)
      fun H hF hH => ?_
  · rw [zero_add] at hinv
    exact hinv
  · rw [parts_singleton, Multiset.mem_singleton] at hq
    rw [hq, hk] at hk'
    cases hk'
  · exact nofun
  · rw [parts_singleton] at hH
    have hhouse := hH.housed p (by simp)
    rw [Housed, hk] at hhouse
    rw [parts_zero, zero_add]
    exact hH.unmap hk hhouse.1 hpos hlen hF

theorem munmap_runs {n : Nat} (hk : p.kind = .raw (p.base, p.len))
    (hpos : 0 < n) (hlen : p.len = pageUp n) :
    Runs E P (HInv cfg) (munmap p.base n) (fun _ _ x => x = 0) s
      {(p, none)} :=
  Runs.modify fun f _ hI => ⟨0, by
    rw [zero_add]
    exact munmap_inv hI hk hpos hlen, rfl⟩

-- =============================================================== regions

/-- The record of a region is nowhere else. -/
theorem HeapAt.node_ne (h : HeapAt cfg s lists node ({(q, none)} + X))
    (hpos : 0 < q.len) : q.base ∉ s.regions := by
  intro hmem
  obtain ⟨C, -, hsp, -⟩ := h.places
  have hok := h.region _ hmem
  have hpos' := hok.pos
  have hbase := hok.base
  rw [parts_add, parts_singleton, add_assoc] at hsp
  refine hsp.holds.base_ne (Multiset.mem_add.2 (Or.inr (Multiset.mem_add.2
    (Or.inl (mem_regionParts.2 ⟨_, hmem, Or.inr rfl⟩))))) hpos hpos' ?_
  exact hbase

/-- Parts of others carry no label of a region that does not exist. -/
theorem HeapAt.no_tile {C : Multiset Part} (h : HeapAt cfg s lists node X)
    (hC : Slab.Stored cfg C) (hr : r ∉ s.regions)
    (hp : p ∈ parts X + (regionParts s.regions lists node + C)) :
    p.kind ≠ .tile r := by
  intro hk
  rcases Multiset.mem_add.1 hp with hp | hp
  · exact hr (h.tile hp hk).1
  · rcases Multiset.mem_add.1 hp with hp | hp
    · obtain ⟨r', hr', hp | rfl⟩ := mem_regionParts.1 hp
      · rw [(h.region r' hr').kind_free hp] at hk
        cases hk
        exact hr hr'
      · obtain ⟨m, hm⟩ := (h.region r' hr').kind
        rw [hm] at hk
        cases hk
    · exact hC.tile p hp r hk

/-- Filling a mapping that reads as zero, next to the parts `F`. -/
theorem fillRegion_mapping {F : Multiset Part} {g : Buddy.Geometry} {m : Mem}
    (hm : Holds m ({p} + F)) (hbase : p.base = g.base)
    (hlen : p.len = g.totalSize) (hzero : ∀ x, p.Has x → p.data x = 0)
    (hg : g.Ok) (hF : ∀ x ∈ F, x.kind ≠ .tile r) (stamp : Nat) :
    Buddy.RegionInv g (Kind.tile r) (stamp % 2 ^ 32)
      (Buddy.fillRegion g stamp (g.totalSize / Buddy.maxBlockSize) 0
        ⟨m, stamp, 0, fun _ => 0, fun _ => Bitmap.empty, []⟩) F := by
  have htotal : g.totalSize = g.totalSize / Buddy.maxBlockSize
      * 2 ^ Buddy.maxOrder := (Nat.div_mul_cancel hg.whole).symm
  have hhas : ∀ x, p.Has x ↔ g.base ≤ x ∧ x < g.base + g.totalSize := by
    intro x
    rw [Piece.Has, hbase, hlen]
  have hheld : Holds m ((Buddy.rawBlocks g (Kind.tile r) m 0
      (g.totalSize / Buddy.maxBlockSize) : Multiset Part) + F) := by
    refine hm.recut (fun x => ?_) fun q hq x _ => ?_
    · rw [Buddy.rawBlocks_cover htotal, cover_singleton]
      simp only [hhas, le_refl]
    · rw [(Buddy.rawBlocks_tile hq).2]
  have hinv := Buddy.fillRegion_inv (i := 0) hg (fun x h₁ h₂ => ?_)
    (by rw [Nat.zero_add]; exact htotal)
    (show stamp % 2 ^ 32 = stamp % 2 ^ 32 from rfl)
    (Buddy.rawBlocks_inv
      (s := ⟨m, stamp, 0, fun _ => 0, fun _ => Bitmap.empty, []⟩)
      htotal hheld hF (fun _ => rfl) (fun _ => rfl) rfl rfl)
  · rw [Nat.zero_mul] at hinv
    exact hinv
  · have hx := (hhas x).2 ⟨h₁, h₂⟩
    exact (hm.agree p (by simp) x hx).trans (hzero x hx)

/-- A mapping that is registered as a whole is filled with free blocks,
and becomes a region that goes by the address of another mapping. -/
theorem publishRegion_inv {g : Buddy.Geometry}
    (hI : HInv cfg s ({(p, none)} + ({(q, none)} + f)))
    (hp : p.kind = .direct true) (hbase : p.base = g.base)
    (hlen : p.len = g.totalSize) (hzero : ∀ x, p.Has x → p.data x = 0)
    (hg : g.Ok) (halign : g.base % pageSize = 0) (hq : ∃ m, q.kind = .raw m)
    (hpos : 0 < q.len) : HInv cfg (publishRegion q.base g s) f := by
  obtain ⟨lists, node, hat⟩ := hI
  have hnew : q.base ∉ s.regions := by
    rw [add_left_comm] at hat
    exact hat.node_ne hpos
  obtain ⟨C, hC, hsp, hback⟩ := hat.places
  generalize hr : q.base = r at hnew ⊢
  -- everything but the mapping that is filled
  let F := {q} + parts f + (regionParts s.regions lists node + C)
  have hsplit : parts ({(p, none)} + ({(q, none)} + f))
      + (regionParts s.regions lists node + C) = {p} + F := by
    rw [parts_add, parts_add, parts_singleton, parts_singleton, add_assoc]
  have hF : ∀ x ∈ F, x.kind ≠ .tile r := fun x hx =>
    hat.no_tile hC hnew (by
      rw [hsplit]
      exact Multiset.mem_add.2 (Or.inr hx))
  rw [hsplit] at hsp
  obtain ⟨l, hl⟩ := fillRegion_mapping hsp.holds hbase hlen hzero hg hF
    s.slab.stamp
  have hsp' := hsp.retile (r := r) (fun x hx => Or.inl ?_)
    (fun x hx => (freePieces_tile hl.order hx).1) (fun x => ?_) hl.holds
  · have hne : ∀ r' ∈ s.regions, r' ≠ r := fun r' hr' heq =>
      hnew (heq ▸ hr')
    have hkeep : ∀ {x}, x ∈ parts f →
        x ∈ parts ({(p, none)} + ({(q, none)} + f)) := by
      intro x hx
      rw [parts_add, parts_add]
      exact Multiset.mem_add.2 (Or.inr (Multiset.mem_add.2 (Or.inr hx)))
    refine ⟨Function.update lists r l, Function.update node r q, ?_,
      List.nodup_cons.2 ⟨hnew, hat.nodup⟩, fun r' hr' => ?_,
      fun r' hr' => ?_, fun x hx => ?_, fun k m => ?_⟩
    · refine hback _ _ rfl rfl rfl ?_
      show Space cfg _ (parts f + regionParts (r :: s.regions)
        (Function.update lists r l) (Function.update node r q) + C)
      rw [regionParts_cons, Function.update_self, Function.update_self,
        regionParts_congr fun r' hr' =>
          ⟨Function.update_of_ne (hne r' hr') l lists,
            Function.update_of_ne (hne r' hr') q node⟩,
        show parts f + (freePieces l + {q} + regionParts s.regions lists node)
          + C = freePieces l + F by simp only [F]; abel]
      exact hsp'
    · rcases List.mem_cons.1 hr' with rfl | hr'
      · rw [Function.update_self, Function.update_self]
        exact .of_at hl (Function.update_self ..) hg halign hq hr hpos
      · rw [Function.update_of_ne (hne r' hr'),
          Function.update_of_ne (hne r' hr')]
        exact (hat.region r' hr').congr
          (Function.update_of_ne (hne r' hr') _ _)
    · rcases List.mem_cons.1 hr' with rfl | hr'
      · rw [Function.update_self,
          show (publishRegion r' g s).region r' = _ from
            Function.update_self ..]
        have ht := hl.tiling
        rw [Buddy.tiles_add, Buddy.tiles_of_ne hF, add_zero] at ht
        rw [Buddy.tiles_add, Buddy.tiles_of_ne fun x hx =>
          hat.no_tile hC hnew (Multiset.mem_add.2 (Or.inl (hkeep hx))),
          add_zero]
        exact ht
      · have ht := hat.tiling r' hr'
        have hpq : ∀ x ∈ ({p} + {q} : Multiset Part), x.kind ≠ .tile r' := by
          intro x hx hk
          obtain ⟨m, hm⟩ := hq
          rcases Multiset.mem_add.1 hx with hx | hx
          · rw [Multiset.mem_singleton.1 hx, hp] at hk
            cases hk
          · rw [Multiset.mem_singleton.1 hx, hm] at hk
            cases hk
        rw [parts_add, parts_add, parts_singleton, parts_singleton,
          ← add_assoc ({p} : Multiset Part), Buddy.tiles_add,
          Buddy.tiles_add (A := {p} + {q}), Buddy.tiles_of_ne hpq, zero_add,
          ← Buddy.tiles_add] at ht
        rw [Function.update_of_ne (hne r' hr'),
          show (publishRegion r g s).region r' = s.region r' from
            Function.update_of_ne (hne r' hr') _ _]
        exact ht
    · have hown := hat.owned x (by simp [hx])
      exact ⟨fun r' hk => ⟨List.mem_cons_of_mem _ (hown.tile r' hk).1,
        (hown.tile r' hk).2⟩, hown.raw, hown.recorded⟩
    · refine (hat.entry k m).trans ?_
      rw [entry_add, entry_add]
      simp only [entry_singleton, reduceCtorEq, false_and, false_or]
  · rw [Multiset.mem_singleton.1 hx]
    exact hp
  · have hcover := cover_of_tiles (W := F)
      (fun x hx => freePieces_tile hl.order hx) hl.tiling x
    rw [Buddy.tiles_of_ne hF, ← hbase, ← hlen] at hcover
    rw [cover_singleton]
    exact hcover

/-- The other globals of the backend are nobody's. -/
theorem HInv.settings (h : HInv cfg s X) (growOrder : Nat)
    (once buddyInit disableBuddy : Bool) :
    HInv cfg { s with
      growOrder := growOrder, once := once, buddyInit := buddyInit,
      disableBuddy := disableBuddy } X := by
  obtain ⟨lists, node, hat⟩ := h
  exact ⟨lists, node, hat.slab, hat.nodup,
    fun r hr => (hat.region r hr).congr rfl, hat.tiling, hat.owned,
    hat.entry⟩

theorem pageUp_normalizeRegionSize (size : Nat) :
    pageUp (Buddy.normalizeRegionSize size)
      = Buddy.normalizeRegionSize size := by
  have hdiv := Buddy.normalizeRegionSize_div size
  have hpage := pageUp_spec (Buddy.normalizeRegionSize size)
  generalize Buddy.normalizeRegionSize size = n at hdiv hpage ⊢
  generalize n / Buddy.maxBlockSize = k at hdiv
  simp only [pageSize] at hpage
  rw [show 2 ^ Buddy.maxOrder = 4096 * 16384 from rfl] at hdiv
  omega

/-- What the caller of `alloc_region_node` gets. -/
def GotNode (o : Option Nat) (_ : State) (x : Res) : Prop :=
  match o with
  | none => x = 0
  | some region => ∃ q, x = {(q, none)} ∧ q.base = region
      ∧ (∃ m, q.kind = .raw m) ∧ 0 < q.len

theorem allocRegionNode_runs (size : Nat) :
    Runs E P (HInv cfg) (allocRegionNode cfg size) GotNode s 0 := by
  unfold allocRegionNode
  split
  · exact Runs.ret rfl
  · refine (mmapRetry_runs _ _).mono fun o s' x hx => ?_
    cases o with
    | none => exact hx
    | some a =>
        obtain ⟨q, rfl, hq⟩ := hx
        exact ⟨q, rfl, hq.base, ⟨_, hq.kind⟩, hq.len ▸ pageUp_pos hq.pos⟩

/-- A mapping is put into the ownership map as a whole. -/
theorem registerRange_inv {n : Nat} (hI : HInv cfg s ({(p, none)} + f))
    (hp : IsMapping n p.base p) :
    HInv cfg (s.onGround (Ground.setRange p.base n true))
      ({({ p with kind := .direct true }, none)} + f) := by
  have hpos := pageUp_pos hp.pos
  refine hI.relabel (fun r hk => ?_) nofun rfl (hp.len ▸ hpos)
    fun H _ hH => ?_
  · rw [hp.kind] at hk
    cases hk
  · have hhouse := hH.housed p (by simp)
    rw [Housed, hp.kind] at hhouse
    exact hH.registerRange hp.kind hhouse.1 hp.align hp.pos hp.len

/-- The two mappings become a region, or nothing is left of them. -/
theorem addRegion_runs (size node : Nat) (init : Bool) :
    Runs E P (HInv cfg) (addRegion cfg size node init)
      (fun _ _ x => x = 0) s 0 := by
  refine (mmapRetry_runs _ _).andThen fun o s' x hx => ?_
  cases o with
  | none => exact Runs.ret hx
  | some base =>
      obtain ⟨p, rfl, hp⟩ := hx
      obtain rfl := hp.base
      rw [← zero_add {(p, none)}]
      refine (allocRegionNode_runs _).seq fun o s' x hx => ?_
      cases o with
      | none =>
          obtain rfl : x = 0 := hx
          rw [zero_add]
          refine (munmap_runs hp.kind hp.pos hp.len).andThen ?_
          exact fun _ _ x hx => Runs.ret hx
      | some region =>
          obtain ⟨q, rfl, rfl, hq, hpos⟩ := hx
          refine Runs.bind (Runs.modify fun f _ hI => ?_)
          rw [add_comm {(q, none)}, add_assoc] at hI
          refine ⟨{({ p with kind := .direct true }, none)} + {(q, none)}, by
            rw [add_assoc]; exact registerRange_inv hI hp, ?_⟩
          refine Runs.bind (Runs.modify fun f' _ hI' => ?_)
          rw [add_assoc] at hI'
          have hlen := hp.len
          rw [pageUp_normalizeRegionSize] at hlen
          refine ⟨0, ?_, ?_⟩
          · rw [zero_add]
            obtain ⟨hbase, hend⟩ := hI'.bounds (hp.len ▸ pageUp_pos hp.pos)
            refine publishRegion_inv hI' rfl rfl hlen hp.zero
              (Buddy.newGeometry_ok node ?_ ?_) hp.align hq hpos
            · exact lt_of_lt_of_le (by decide) hbase
            · rw [← hlen]
              exact hend.trans (by decide)
          · refine Runs.bind (Runs.when (fun _ => ?_) fun _ => Runs.ret rfl)
            refine Runs.modify fun g _ hI'' => ⟨0, hI''.settings _ _ _ _,
              Runs.ret rfl⟩

-- ================================================================ blocks

/-- What the caller of `alloc` owns afterwards. -/
def GotBlock (order : Nat) (o : Option BuddyBlock) (s : State) (x : Res) :
    Prop :=
  match o with
  | none => x = 0
  | some b => b.order = order ∧ ∃ p, x = {(p, none)}
      ∧ IsTile (.tile b.region) order p ∧ p.base = b.addr
      ∧ (b.trimState = Buddy.trimNotAllocated →
        Untouched (s.region b.region).birth p)

theorem putView_birth (s : State) (r r' : Nat) (t : Buddy.RegionState) :
    ((s.putView r t).region r').birth = (s.region r').birth := by
  show (Function.update s.region r _ r').birth = _
  by_cases h : r' = r
  · rw [h, Function.update_self]
  · rw [Function.update_of_ne h]

/-- The regions that are left are those of the backend. -/
theorem allocFromRegions_runs {order : Nat} (horder : Buddy.minOrder ≤ order)
    (node : Nat) (l : List Nat) (hl : ∀ r ∈ l, r ∈ s.regions) :
    Runs E P (HInv cfg) (allocFromRegions order node l) (GotBlock order)
      s 0 := by
  induction l generalizing s with
  | nil => exact Runs.ret rfl
  | cons r l ih =>
      have hr := hl r (List.mem_cons_self ..)
      have hrest : ∀ r' ∈ l, r' ∈ s.regions := fun r' hr' =>
        hl r' (List.mem_cons_of_mem _ hr')
      refine Runs.inv fun f _ hI => ?_
      obtain ⟨lists, nodes, hat⟩ := hI
      have hok := hat.region r hr
      refine Runs.readThen ?_
      split
      · refine (onRegion_runs (A := 0) hr (Buddy.allocFromRegion_safe
          hok.geometry Buddy.Ledger.plain_keeps horder)
          nofun
          fun o A' ho p hp => ?_).andThen fun o s' x hx => ?_
        · cases o with
          | none =>
              rw [show A' = 0 from ho] at hp
              exact absurd hp (Multiset.notMem_zero p)
          | some b =>
              obtain ⟨q, hq, -, htile, -⟩ := ho
              rw [hq, Multiset.mem_singleton] at hp
              rw [hp]
              exact htile.kind
        · obtain ⟨⟨t, rfl⟩, A', rfl, ho⟩ := hx
          cases o with
          | none =>
              rw [show A' = 0 from ho]
              exact ih hrest
          | some b =>
              obtain ⟨q, rfl, hbase, htile, hfresh⟩ := ho
              refine Runs.ret ⟨rfl, q, bare_singleton, htile, hbase, ?_⟩
              intro hb
              rw [putView_birth]
              exact hfresh hb
      · exact ih hrest

theorem allocFromNode_runs {order : Nat} (horder : Buddy.minOrder ≤ order)
    (node : Nat) :
    Runs E P (HInv cfg) (allocFromNode order node) (GotBlock order) s 0 :=
  Runs.readThen (allocFromRegions_runs horder node _ fun _ hr => hr)

theorem allocFromRanges_runs {order : Nat} (horder : Buddy.minOrder ≤ order)
    (node n i : Nat) :
    Runs E P (HInv cfg) (allocFromRanges cfg order node n i)
      (GotBlock order) s 0 := by
  induction n generalizing s i with
  | zero => exact Runs.ret rfl
  | succ n ih =>
      refine (allocFromNode_runs horder _).andThen fun o s' x hx => ?_
      cases o with
      | none =>
          obtain rfl : x = 0 := hx
          exact ih (i + 1)
      | some b => exact Runs.ret hx

/-- `alloc` hands out a block of the order that was asked for. -/
theorem backendAlloc_runs (size node : Nat) :
    Runs E P (HInv cfg) (backendAlloc cfg size node)
      (GotBlock (max (orderForSize size) Buddy.minOrder)) s 0 := by
  have horder : Buddy.minOrder ≤ max (orderForSize size) Buddy.minOrder :=
    Nat.le_max_right ..
  unfold backendAlloc
  dsimp only
  split
  · exact Runs.ret rfl
  · refine (allocFromNode_runs horder node).andThen fun o s' x hx => ?_
    cases o with
    | some b => exact Runs.ret hx
    | none =>
        obtain rfl : x = 0 := hx
        refine Runs.readThen ?_
        refine (addRegion_runs _ _ _).andThen fun added s' x hx => ?_
        obtain rfl : x = 0 := hx
        refine Runs.andThen
          (S := GotBlock (max (orderForSize size) Buddy.minOrder)) ?_
          fun o s' x hx => ?_
        · split
          · exact allocFromNode_runs horder node
          · exact Runs.ret rfl
        · cases o with
          | some b => exact Runs.ret hx
          | none =>
              obtain rfl : x = 0 := hx
              dsimp only
              split
              · exact allocFromRanges_runs horder node _ _
              · exact Runs.ret rfl

/-- A region's record has an address. -/
theorem HeapAt.region_ne (hat : HeapAt cfg s lists node X)
    (hr : r ∈ s.regions) : r ≠ 0 := by
  intro hzero
  have hok := hat.region r hr
  obtain ⟨C, -, hsp, -⟩ := hat.places
  have hnode : node r ∈ parts X + (regionParts s.regions lists node + C) :=
    Multiset.mem_add.2 (Or.inr (Multiset.mem_add.2 (Or.inl
      (mem_regionParts.2 ⟨r, hr, Or.inr rfl⟩))))
  have hlow := (hsp.bounds hnode (x := (node r).base)
    ⟨le_rfl, Nat.lt_add_of_pos_right hok.pos⟩).1
  rw [hok.base, hzero] at hlow
  exact absurd hlow (by decide)

/-- What is known of the region of an owned block. -/
structure Seated (s : State) (r k : Nat) (p : Part) : Prop where
  region : r ∈ s.regions
  ne : r ≠ 0
  ok : (s.region r).geometry.Ok
  placed : Buddy.Placed (s.region r).geometry k p
  align : p.base % pageSize = 0

theorem HInv.seated (h : HInv cfg s ({(p, e)} + f))
    (hp : IsTile (.tile r) k p) : Seated s r k p := by
  obtain ⟨lists, node, hat⟩ := h
  have hr : r ∈ s.regions := by
    refine (hat.tile ?_ hp.kind).1
    rw [parts_add, parts_singleton]
    exact mem_singleton_add_self
  have hok := hat.region r hr
  obtain ⟨C, hC, hsp, -⟩ := hat.places
  have hreg := hat.regionInv hr hC hsp
  rw [parts_singleton] at hreg
  have hplaced : Buddy.Placed (s.region r).geometry k p :=
    Buddy.RegionInv.placed ⟨_, hreg⟩ hp
  refine ⟨hr, hat.region_ne hr, hok.geometry, hplaced, ?_⟩
  obtain ⟨i, hi⟩ := hplaced.at_
  have hk : 22 ≤ k := (Finset.mem_Icc.1 hplaced.order).1
  obtain ⟨d, hd⟩ := Nat.pow_dvd_pow 2 hk
  have halign := hok.align
  have hmul : i * 2 ^ k = 4096 * (1024 * (d * i)) := by
    rw [hd]
    ring
  simp only [pageSize] at halign ⊢
  omega

/-- A block with its entry, for another that starts where it does. -/
theorem tile_kept (hq : IsTile (.tile r) k q) (hb : q.base = p.base) :
    (∀ x ∈ parts {(q, e)}, x.kind = .tile r)
      ∧ ∀ k m, Entry {(q, e)} k m ↔ Entry {(p, e)} k m := by
  refine ⟨fun x hx => ?_, fun k m => ?_⟩
  · rw [parts_singleton, Multiset.mem_singleton] at hx
    rw [hx]
    exact hq.kind
  · rw [entry_singleton, entry_singleton, hb]

/-- The owner of a block gives it back. -/
theorem backendFree_runs (hp : IsTile (.tile r) k p) :
    Runs E P (HInv cfg) (backendFree r p.base k) (fun _ _ x => x = 0) s
      {(p, none)} := by
  refine Runs.inv fun f _ hI => ?_
  have hseat := hI.seated hp
  unfold backendFree
  rw [if_neg hseat.ne]
  refine Runs.readThen ?_
  have hsafe := Buddy.free_safe (k := k) hseat.ok
    (Buddy.Ledger.plain_keeps (b := (s.region r).birth)) hp hseat.placed
  refine (onRegion_runs_of (S := fun _ x => x = 0) hseat.region hsafe
    (tile_kept hp rfl).1 fun _ A' hA' => ⟨0, hA', rfl, ?_, fun k m => ?_⟩).mono
      fun _ s' x hx => hx.2
  · exact nofun
  · simp

/-- The owner of a block may find it doubled. -/
def Grown (r k : Nat) (p : Part) (e : Option BigAllocMeta)
    (o : Option (Nat × Nat)) (x : Res) : Prop :=
  match o with
  | none => x = {(p, e)}
  | some (addr, order) => addr = p.base ∧ order = k + 1
      ∧ ∃ p', x = {(p', e)} ∧ p'.base = p.base ∧ IsTile (.tile r) (k + 1) p'
        ∧ ∀ y, p.Has y → p'.data y = p.data y

theorem backendGrow_runs (hp : IsTile (.tile r) k p) :
    Runs E P (HInv cfg) (backendGrow r p.base k)
      (fun o _ x => Grown r k p e o x) s {(p, e)} := by
  refine Runs.inv fun f _ hI => ?_
  have hseat := hI.seated hp
  unfold backendGrow
  rw [if_neg hseat.ne]
  refine Runs.readThen ?_
  have hsafe := Buddy.tryGrowInplace_safe (k := k) hseat.ok
    (Buddy.Ledger.plain_keeps (b := (s.region r).birth)) hp hseat.placed
  refine (onRegion_runs_of (S := Grown r k p e) hseat.region hsafe
    (tile_kept hp rfl).1 fun o A' hA' => ?_).mono fun _ s' x hx => hx.2
  cases o with
  | none => exact ⟨{(p, e)}, hA', rfl, tile_kept hp rfl⟩
  | some b =>
      obtain ⟨addr, order⟩ := b
      obtain ⟨haddr, horder, p', rfl, hbase, htile, hdata⟩ := hA'
      exact ⟨{(p', e)}, rfl,
        ⟨haddr, horder, p', rfl, hbase, htile, hdata⟩, tile_kept htile hbase⟩

end RsMalloc.Heap
