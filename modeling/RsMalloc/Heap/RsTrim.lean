/-
`rs_trim` as a whole: what it reaches, and what it reports.

`Listing` is a heap whose free lists are in order: every list ends in
null and no two free blocks overlap. From such a heap the two stages do
not get in each other's way, since each writes only inside the blocks it
visits.
-/
import RsMalloc.Heap.Trimming

namespace RsMalloc.Heap

open Conc
open Slab (Advice advised counted shards Cold HasPage blockBytes)

attribute [local irreducible] Mem.load

variable {cfg : Config} {E : Env → Prop} {halts : Prop}

-- ================================================================ the heap

/-- A place for free blocks: the normal list of a CPU and class, or the
list of a region and order. -/
abbrev Cell := (Nat × Nat) ⊕ (Nat × Nat)

/-- The bytes of a block on the list. -/
def Cell.bytes : Cell → Nat
  | .inl p => blockBytes p.2
  | .inr q => 2 ^ q.2

/-- The lists that `rs_trim` scans. -/
def cells (cfg : Config) (h : State) : Set Cell :=
  { c | c.elim (· ∈ shards cfg) (· ∈ h.orders) }

/-- The free lists hold these blocks; no two of them overlap. -/
structure Listing (cfg : Config) (h : State) (blocks : Cell → List Nat) :
    Prop where
  rows : Rows (cells cfg h) userLimit Cell.bytes blocks
  small : Slab.Filled (fun p => blocks (.inl p)) (shards cfg) h.slab
  big : Listed (fun q => blocks (.inr q)) h.orders h
  regions : h.regions.Nodup

namespace Listing

variable {h : State} {blocks : Cell → List Nat}

theorem laid (hh : Listing cfg h blocks) :
    Slab.Laid cfg fun p => blocks (.inl p) :=
  hh.rows.comap Sum.inl fun _ _ => Sum.inl.inj

theorem bigRows (hh : Listing cfg h blocks) :
    Rows h.orders userLimit (fun q => 2 ^ q.2) fun q => blocks (.inr q) :=
  hh.rows.comap Sum.inr fun _ _ => Sum.inr.inj

/-- A small block does not overlap a free block of the backend. -/
theorem apart (hh : Listing cfg h blocks) {p : Nat × Nat}
    (hp : p ∈ shards cfg) {b : Nat} (hb : b ∈ blocks (.inl p))
    {x : Nat × Nat}
    (hx : x ∈ freeBlocks h.orders fun q => blocks (.inr q)) :
    b + blockBytes p.2 ≤ x.1 ∨ x.1 + 2 ^ x.2 ≤ b := by
  obtain ⟨r, hr, hxr⟩ := hx
  exact hh.rows.apart (.inl p) hp (.inr (r, x.2)) hr Sum.inl_ne_inr b hb
    x.1 hxr

end Listing

-- ============================================================ the two stages

/-- The ways through `rs_trim`: the first stage, and the second one if
the first has not trimmed enough for the request. -/
inductive Stages (cfg : Config) (E : Env → Prop)
    (blocks : Cell → List Nat) (requested : Nat) (h : State) :
    List Advice → List Advice → Nat → State → Prop
  | one {D : Set (Nat × Nat)} {big : List Advice} {stop : Bool} {size : Nat}
      {h₁ : State} (hD : D ⊆ freeBlocks h.orders fun q => blocks (.inr q))
      (hall : h.slab.trimLock = false →
        D = freeBlocks h.orders fun q => blocks (.inr q))
      (hbig : BigPass E true requested D 0 h big (stop, size) h₁)
      (henough : requested ≤ size) :
      Stages cfg E blocks requested h big [] size h₁
  | two {D D' : Set (Nat × Nat)} {big small : List Advice} {stop : Bool}
      {size n : Nat} {h₁ : State} {s : Slab.State}
      (hD : D ⊆ freeBlocks h.orders fun q => blocks (.inr q))
      (hall : h.slab.trimLock = false →
        D = freeBlocks h.orders fun q => blocks (.inr q))
      (hbig : BigPass E true requested D 0 h big (stop, size) h₁)
      (hmore : size < requested) (hD' : D' ⊆ shards cfg)
      (hall' : h.slab.trimLock = false → D' = shards cfg)
      (hsmall : Slab.Pass E (requested - size) (fun p => blocks (.inl p)) D'
        0 h₁.slab small n s) :
      Stages cfg E blocks requested h big small (size + n)
        { h₁ with slab := s }

variable {h : State} {blocks : Cell → List Nat}

/-- A block of the backend is large. -/
theorem Listing.block_big {x : Nat × Nat}
    (hx : x ∈ freeBlocks h.orders fun q => blocks (.inr q)) :
    pageSize < 2 ^ x.2 :=
  freeBlocks_big (fun _ hq => hq.2.1) x hx

section First

variable {forceTrim : Bool} {requested total : Nat} {D : Set (Nat × Nat)}
  {log : List Advice} {out : Bool × Nat} {h' : State}
  (hp : BigPass E forceTrim requested D total h log out h')
  (hh : Listing cfg h blocks)
  (hD : D ⊆ freeBlocks h.orders fun q => blocks (.inr q))
include hp hh hD

/-- The first stage leaves the normal lists as they are. -/
theorem BigPass.small {p : Nat × Nat} (hs : p ∈ shards cfg) {b : Nat}
    (hb : b ∈ blocks (.inl p)) {a w : Nat} (hlow : b ≤ a)
    (hhigh : a + w ≤ b + 16) :
    Mem.load w h'.mem a = Mem.load w h.mem a := by
  refine hp.load fun x hx => ?_
  have := hh.apart hs hb (hD hx)
  simp only [blockBytes, headerSize] at this
  omega

/-- It does not change which small blocks are cold. -/
theorem BigPass.cold {p : Nat × Nat} (hs : p ∈ shards cfg) {b : Nat}
    (hb : b ∈ blocks (.inl p)) (age : Nat) :
    Cold h'.slab.ground.mem h'.slab.stamp age b
      ↔ Cold h.mem h.slab.stamp age b := by
  have hflags : Header.flags h'.slab.ground.mem b = Header.flags h.mem b :=
    hp.small hh hD hs hb (by omega) (by omega)
  have hlife : Header.lifeTime h'.slab.ground.mem b
      = Header.lifeTime h.mem b :=
    hp.small hh hD hs hb (by omega) (by omega)
  have hstamp : h'.slab.stamp = h.slab.stamp :=
    congrArg (·.slab.stamp) hp.rest
  rw [Cold, Cold, hflags, hlife, hstamp]

theorem BigPass.filled :
    Slab.Filled (fun p => blocks (.inl p)) (shards cfg) h'.slab := by
  intro p hs
  have hlist : h'.slab.list = h.slab.list := congrArg (·.slab.list) hp.rest
  refine ⟨?_, (hh.small p hs).2⟩
  rw [hlist]
  exact (hh.small p hs).1.congr fun b hb =>
    hp.small hh hD hs hb (le_refl _) (by omega)

theorem BigPass.links :
    ∀ x ∈ freeBlocks h.orders fun q => blocks (.inr q),
      Buddy.FreeBlock.next h'.mem x.1 = Buddy.FreeBlock.next h.mem x.1 :=
  fun _ hx => hp.next (freeBlocks_spread hh.bigRows) hD
    (fun _ => Listing.block_big) hx

end First

/-- The sum of the first stage does not saturate. -/
theorem BigPass.total {forceTrim : Bool} {requested : Nat}
    {D : Set (Nat × Nat)} {log : List Advice} {out : Bool × Nat}
    {h' : State} (hp : BigPass E forceTrim requested D 0 h log out h')
    (hh : Listing cfg h blocks)
    (hD : D ⊆ freeBlocks h.orders fun q => blocks (.inr q)) :
    out.2 = advised log := by
  have hsize : ∀ e ∈ log, ∃ x ∈ D, e.block = x.1 ∧ e.len ≤ 2 ^ x.2 := by
    intro e he
    obtain ⟨x, hx, hcall⟩ := hp.calls e he
    exact ⟨x, hx, hcall.block, hcall.len ▸ Nat.sub_le ..⟩
  have hd : (log.filter (·.ok)).Pairwise fun e e' =>
      e.block + e.len ≤ e'.block ∨ e'.block + e'.len ≤ e.block := by
    have hne : log.Pairwise fun e e' => e.block ≠ e'.block :=
      List.pairwise_map.1 hp.nodup
    refine (hne.imp_of_mem fun {e e'} he he' hb => ?_).filter _
    obtain ⟨x, hx, hxb, hxl⟩ := hsize e he
    obtain ⟨y, hy, hyb, hyl⟩ := hsize e' he'
    have := freeBlocks_spread hh.bigRows x (hD hx) y (hD hy) fun h =>
      hb (by rw [hxb, hyb, h])
    omega
  have htop : ∀ e ∈ log.filter (·.ok), e.block + e.len ≤ userLimit := by
    intro e he
    obtain ⟨x, hx, hxb, hxl⟩ := hsize e (List.mem_filter.1 he).1
    obtain ⟨r, hr, hxr⟩ := hD hx
    have := (hh.bigRows.row _ hr).top _ hxr
    simp only at this
    omega
  have hbound : advised log ≤ userLimit := sum_windows_le hd htop
  have := hp.total_eq
  simp only [userLimit] at hbound
  omega

/-- `rs_trim`, alone. -/
theorem rsTrim_alone {fuel : Nat} (hh : Listing cfg h blocks)
    (hfuel : ∀ c ∈ cells cfg h, (blocks c).length < fuel)
    (t : RSMallocTrim) :
    Alone E halts (rsTrim cfg fuel t)
      (fun total h' => ∃ big small,
        Stages cfg E blocks t.getRequestSize h big small total h') h := by
  unfold rsTrim trim
  have hbig : Alone E halts (trimInner fuel t.getRequestSize true) _ h :=
    trimInner_alone h hh.bigRows (fun q hq => hfuel (.inr q) hq) hh.regions
      hh.big
  refine hbig.seq fun size h₁ hp => ?_
  obtain ⟨D, hD, big, stop, hp, hall⟩ := hp
  by_cases hmore : size < t.getRequestSize
  · rw [if_pos ⟨hmore, by omega⟩]
    have hsmall : Alone E halts
        (onSlab (Slab.trimSmall cfg fuel (t.getRequestSize - size)))
        (fun n h₂ => ∃ s, h₂ = { h₁ with slab := s } ∧ ∃ D' ⊆ shards cfg,
          ∃ small, Slab.Pass E (t.getRequestSize - size)
              (fun p => blocks (.inl p)) D' 0 h₁.slab small n s
            ∧ (h₁.slab.trimLock = false → D' = shards cfg)) h₁ :=
      onSlab_alone ((Slab.trimSmall_alone hh.laid
        (fun p hp => hfuel (.inl p) hp) h₁.slab (hp.filled hh hD)).mono
        fun n s hs => ⟨s, rfl, hs⟩)
    refine hsmall.seq fun n h₂ hs => ?_
    obtain ⟨s, rfl, D', hD', small, hs, hall'⟩ := hs
    have hstages : Stages cfg E blocks t.getRequestSize h big small (size + n)
        { h₁ with slab := s } :=
      .two hD hall hp hmore hD' (fun hl => hall' (by rw [hp.rest]; exact hl))
        hs
    by_cases hn : n > 0
    · rw [if_pos hn]
      exact Alone.ret ⟨big, small, hstages⟩
    · rw [if_neg hn]
      have hn : n = 0 := Nat.eq_zero_of_not_pos hn
      subst hn
      exact Alone.ret ⟨big, small, hstages⟩
  · rw [if_neg fun h => hmore h.1]
    exact Alone.ret ⟨big, [], .one hD hall hp (Nat.not_lt.1 hmore)⟩

-- ========================================================== what it reaches

/-- A block of the class that `trim_small` gives back, going by the
threshold `age`. -/
def Eligible (m : Mem) (stamp age class_ header : Nat) : Prop :=
  Cold m stamp age header ∧ HasPage header (sizeClass class_)

/-- Nothing is left to trim. No free block of the backend is in the
state of a block that was handed out and returned, and the blocks on the
normal lists that were eligible before are trimmed; `ages` are the
thresholds that the scans went by. -/
structure Reached (cfg : Config) (blocks : Cell → List Nat)
    (h h' : State) : Prop where
  big : ∀ q ∈ h'.orders, ∀ l, 0 ∉ l →
    LinkedSeg (Buddy.FreeBlock.next h'.mem)
      ((h'.region q.1).free (Buddy.orderIndex q.2)) l 0 →
    ∀ b ∈ l, Settled h'.mem b
  small : ∀ p ∈ shards cfg, ∀ b ∈ blocks (.inl p),
    Eligible h.mem h.slab.stamp (h'.slab.ages p.1 p.2) p.2 b →
    Header.flags h'.mem b = 3

/-- What `rs_trim` promises of its answer and of the heap it leaves. -/
def RSMallocTrim.Kept (cfg : Config) (blocks : Cell → List Nat)
    (h : State) (total : Nat) (h' : State) : RSMallocTrim → Prop
  | .all => Reached cfg blocks h h'
  | .request n => n ≤ total ∨ Reached cfg blocks h h'

/-- The free lists are the ones from before. -/
theorem settled_lists {h' : State} (hh : Listing cfg h blocks)
    (hregions : h'.regions = h.regions) (hregion : h'.region = h.region)
    (hlinks : ∀ x ∈ freeBlocks h.orders fun q => blocks (.inr q),
      Buddy.FreeBlock.next h'.mem x.1 = Buddy.FreeBlock.next h.mem x.1)
    (hset : ∀ x ∈ freeBlocks h.orders fun q => blocks (.inr q),
      Settled h'.mem x.1) :
    ∀ q ∈ h'.orders, ∀ l, 0 ∉ l →
      LinkedSeg (Buddy.FreeBlock.next h'.mem)
        ((h'.region q.1).free (Buddy.orderIndex q.2)) l 0 →
      ∀ b ∈ l, Settled h'.mem b := by
  intro q hq l h0 hl b hb
  rw [State.orders, hregions, hregion] at hq
  rw [hregion] at hl
  have hbefore : LinkedSeg (Buddy.FreeBlock.next h'.mem)
      ((h.region q.1).free (Buddy.orderIndex q.2)) (blocks (.inr q)) 0 :=
    (hh.big q hq).1.congr fun b hb => hlinks (b, q.2) ⟨q.1, hq, hb⟩
  rw [hl.unique hbefore h0 (hh.big q hq).2] at hb
  exact hset (b, q.2) ⟨q.1, hq, hb⟩

/-- The second stage does not touch the blocks of the backend. -/
theorem smallPass_block {requested total total' : Nat}
    {D : Set (Nat × Nat)} {log : List Advice} {s s' : Slab.State}
    (hp : Slab.Pass E requested (fun p => blocks (.inl p)) D total s log
      total' s') (hh : Listing cfg h blocks) (hD : D ⊆ shards cfg)
    {x : Nat × Nat}
    (hx : x ∈ freeBlocks h.orders fun q => blocks (.inr q)) {a w : Nat}
    (hlow : x.1 ≤ a) (hhigh : a + w ≤ x.1 + 32) :
    Mem.load w s'.ground.mem a = Mem.load w s.ground.mem a := by
  refine hp.load fun p hp b hb => ?_
  have := hh.apart (hD hp) hb hx
  have := Listing.block_big hx
  simp only [pageSize] at this
  omega

section Reach

variable (hok : ∀ i, E i → i.ok = true) (hlock : h.slab.trimLock = false)
  (hh : Listing cfg h blocks)

include hok hlock hh

/-- Enough is trimmed, or nothing is left to trim. -/
theorem Stages.reached {requested total : Nat} {big small : List Advice}
    {h' : State}
    (hs : Stages cfg E blocks requested h big small total h') :
    requested ≤ total ∨ Reached cfg blocks h h' := by
  cases hs with
  | one _ _ _ henough => exact Or.inl henough
  | @two D D' _ _ stop size n h₁ s hD hall hbig hmore hD' hall' hsmall =>
      by_cases henough : requested ≤ size + n
      · exact Or.inl henough
      · refine Or.inr ⟨?_, fun p hp b hb helig => ?_⟩
        · -- the first stage has seen all blocks, the second leaves them
          have hstop : stop = false := by
            cases hst : stop with
            | false => rfl
            | true =>
                have : requested ≤ size := (hbig.stopped hst).2
                omega
          refine settled_lists hh (congrArg (·.regions) hbig.rest)
            (congrArg (·.region) hbig.rest)
            (fun x hx => ?_) fun x hx => ?_
          · rw [← hbig.links hh hD x hx]
            exact smallPass_block hsmall hh hD' hx (le_refl _) (by omega)
          · have hst : Buddy.FreeBlock.trimState s.ground.mem x.1
                = Buddy.FreeBlock.trimState h₁.mem x.1 :=
              smallPass_block hsmall hh hD' hx (by omega) (by omega)
            show Settled s.ground.mem x.1
            rw [Settled, hst]
            exact hbig.done hstop rfl hok x (hall hlock ▸ hx)
        · -- the first stage has left the headers as they were
          have hcold := (hbig.cold hh hD hp hb _).2 helig.1
          cases hsmall.done p (hall' hlock ▸ hp) b hb hcold helig.2 with
          | inl hbudget => omega
          | inr hcall =>
              obtain ⟨e, he, _, hflag⟩ := hcall
              obtain ⟨_, _, _, hfor, _⟩ := hsmall.calls e he
              obtain ⟨i, hi, heok⟩ := hfor.answer
              exact hflag (heok ▸ hok i hi)

/-- Without a request the second stage does not run. -/
theorem Stages.all {total : Nat} {big small : List Advice} {h' : State}
    (hs : Stages cfg E blocks 0 h big small total h') :
    Reached cfg blocks h h' ↔ ∀ p ∈ shards cfg, ∀ b ∈ blocks (.inl p),
      ¬ Eligible h.mem h.slab.stamp (h.slab.ages p.1 p.2) p.2 b := by
  cases hs with
  | two _ _ _ hmore => omega
  | @one D _ stop _ _ hD hall hbig _ =>
      have hflags : ∀ p ∈ shards cfg, ∀ b ∈ blocks (.inl p),
          Header.flags h'.mem b = Header.flags h.mem b :=
        fun p hp b hb => hbig.small hh hD hp hb (by omega) (by omega)
      constructor
      · intro hr p hp b hb helig
        have hflag := hr.small p hp b hb (by rw [hbig.rest]; exact helig)
        rw [hflags p hp b hb, helig.1.2] at hflag
        omega
      · intro hnone
        have hstop : stop = false := by
          cases hst : stop with
          | false => rfl
          | true => exact absurd rfl (hbig.stopped hst).1
        refine ⟨settled_lists hh (congrArg (·.regions) hbig.rest)
            (congrArg (·.region) hbig.rest)
          (hbig.links hh hD) fun x hx => ?_, fun p hp b hb helig => ?_⟩
        · exact hbig.done hstop rfl hok x (hall hlock ▸ hx)
        · rw [hbig.rest] at helig
          exact absurd helig (hnone p hp b hb)

end Reach

/-- With every `madvise` succeeding, `rs_trim` reaches all it promises
exactly if there is a request, or no small block is eligible: without a
request the small blocks are not scanned. -/
theorem rs_trim_reaches_iff {fuel : Nat} (hh : Listing cfg h blocks)
    (hfuel : ∀ c ∈ cells cfg h, (blocks c).length < fuel)
    (hlock : h.slab.trimLock = false) (t : RSMallocTrim) (env : Nat → Env)
    (henv : ∀ j, (env j).ok = true) :
    ∃ total h', (rsTrim cfg fuel t).exec env h = some (total, h')
      ∧ (t.Kept cfg blocks h total h'
          ↔ (t = .all → ∀ p ∈ shards cfg, ∀ b ∈ blocks (.inl p),
              ¬ Eligible h.mem h.slab.stamp (h.slab.ages p.1 p.2) p.2
                b)) := by
  have hrun : Alone (fun i => i.ok = true) False (rsTrim cfg fuel t) _ h :=
    rsTrim_alone hh hfuel t
  obtain ⟨total, h', hexec, big, small, hs⟩ := hrun.exec henv
  refine ⟨total, h', hexec, ?_⟩
  cases t with
  | all =>
      rw [eq_self_iff_true, true_imp_iff]
      exact hs.all (fun _ hi => hi) hlock hh
  | request n =>
      exact ⟨fun _ => RSMallocTrim.noConfusion,
        fun _ => hs.reached (fun _ hi => hi) hlock hh⟩

/-- A heap without regions, whose only free block is a block of 8192
bytes at `a`, long unused. -/
def coldHeapAt (a : Nat) : State where
  slab :=
    { Slab.State.new (fun x => if x = a + 8 then 2 else 0) with
      stamp := 100
      list := Function.update (fun _ => 0) (.mail 0 23) a
      ages := fun _ _ => 10 }
  regions := []
  region _ := ⟨⟨0, 0, 0, 0⟩, 0, fun _ => 0, fun _ => Bitmap.empty, 0⟩

/-- Its free lists. -/
def coldBlocksAt (a : Nat) (c : Cell) : List Nat :=
  if c = .inl (0, 23) then [a] else []

/-- With the block at 4096: its payload starts off a page boundary. -/
def coldHeap : State := coldHeapAt 4096

def coldBlocks : Cell → List Nat := coldBlocksAt 4096

section

variable {a : Nat}

theorem mem_coldBlocks {c : Cell} {b : Nat} (hb : b ∈ coldBlocksAt a c) :
    c = .inl (0, 23) ∧ b = a := by
  unfold coldBlocksAt at hb
  split at hb
  · next hc => exact ⟨hc, List.mem_singleton.1 hb⟩
  · exact absurd hb List.not_mem_nil

theorem coldHeapAt_listing (ha : a = 4080 ∨ a = 4096) :
    Listing (.single 0) (coldHeapAt a) (coldBlocksAt a) where
  rows :=
    { row := fun c _ =>
        { nodup := by
            unfold coldBlocksAt
            split
            · exact List.nodup_singleton _
            · exact List.nodup_nil
          apart := fun b hb b' hb' hne => by
            rw [(mem_coldBlocks hb).2, (mem_coldBlocks hb').2] at hne
            exact absurd rfl hne
          top := fun b hb => by
            obtain ⟨rfl, rfl⟩ := mem_coldBlocks hb
            rcases ha with rfl | rfl <;> decide }
      apart := fun c _ c' _ hne b hb b' hb' => by
        rw [(mem_coldBlocks hb).1, (mem_coldBlocks hb').1] at hne
        exact absurd rfl hne }
  small p _ := by
    by_cases hp : p = (0, 23)
    · subst hp
      have hnext : Header.next (coldHeapAt a).slab.ground.mem a = 0
          ∧ 0 ∉ [a] := by
        rcases ha with rfl | rfl <;> decide +kernel
      exact ⟨⟨rfl, hnext.1⟩, hnext.2⟩
    · have hnil : coldBlocksAt a (.inl p) = [] :=
        if_neg fun h => hp (Sum.inl.inj h)
      show Slab.OnList _ _ (coldBlocksAt a (.inl p))
      rw [hnil]
      have hne : Slab.Shelf.mail p.1 p.2 ≠ .mail 0 23 := fun heq =>
        hp (Prod.ext (Slab.Shelf.mail.inj heq).1 (Slab.Shelf.mail.inj heq).2)
      have hhead : (coldHeapAt a).slab.list (.mail p.1 p.2) = 0 := by
        simp only [coldHeapAt]
        exact Function.update_of_ne hne a fun _ => 0
      exact ⟨hhead, List.not_mem_nil⟩
  big q hq := absurd hq.1 List.not_mem_nil
  regions := List.nodup_nil

theorem coldHeapAt_fuel (c : Cell) (_ : c ∈ cells (.single 0) (coldHeapAt a)) :
    (coldBlocksAt a c).length < 2 := by
  unfold coldBlocksAt
  split <;> simp

theorem coldHeapAt_eligible (ha : a = 4080 ∨ a = 4096) :
    Eligible (coldHeapAt a).mem (coldHeapAt a).slab.stamp 10 23 a := by
  rcases ha with rfl | rfl
  · exact ⟨⟨by decide +kernel, by decide +kernel⟩, by decide +kernel⟩
  · exact ⟨⟨by decide +kernel, by decide +kernel⟩, by decide +kernel⟩

end

theorem coldHeap_listing : Listing (.single 0) coldHeap coldBlocks :=
  coldHeapAt_listing (Or.inr rfl)

theorem coldHeap_eligible :
    Eligible coldHeap.mem coldHeap.slab.stamp 10 23 4096 :=
  coldHeapAt_eligible (Or.inr rfl)

theorem rs_trim_reaches_iff_request :
    ∃ total h', (rsTrim (.single 0) 2 (.request 4096)).exec (fun _ => {})
        coldHeap = some (total, h')
      ∧ (4096 ≤ total ∨ Reached (.single 0) coldBlocks coldHeap h') := by
  obtain ⟨total, h', hexec, hkept⟩ := rs_trim_reaches_iff coldHeap_listing
    coldHeapAt_fuel rfl (.request 4096) (fun _ => {}) fun _ => rfl
  exact ⟨total, h', hexec, hkept.2 RSMallocTrim.noConfusion⟩

/-- `rs_trim(All)` leaves the block as it is. -/
theorem rs_trim_all_leaves_small :
    ∃ total h', Listing (.single 0) coldHeap coldBlocks
      ∧ (rsTrim (.single 0) 2 .all).exec (fun _ => {}) coldHeap
          = some (total, h')
      ∧ ¬ RSMallocTrim.all.Kept (.single 0) coldBlocks coldHeap total h' := by
  have hcheck : ((rsTrim (.single 0) 2 .all).exec (fun _ => {}) coldHeap).map
      (fun r => (Header.flags r.2.mem 4096, r.2.slab.ages 0 23))
        = some (2, 10) := by
    decide +kernel
  obtain ⟨⟨total, h'⟩, hexec, heq⟩ := Option.map_eq_some_iff.1 hcheck
  obtain ⟨hflags, hages⟩ := Prod.mk.inj heq
  refine ⟨total, h', coldHeap_listing, hexec, fun hr => ?_⟩
  have hflag := hr.small (0, 23) ⟨by decide, by decide, by decide⟩ 4096
    (by decide) (by
      rw [hages]
      exact coldHeap_eligible)
  rw [hflags] at hflag
  cases hflag

-- ========================================================== what it reports

/-- The classes from 4096 bytes up are whole pages. -/
theorem sizeClass_pages {c : Nat} (hlow : size4096Class ≤ c)
    (hhigh : c < numSizeClasses) : pageSize ∣ sizeClass c := by
  revert c
  decide

/-- The payload of a block starts on a page boundary. -/
def PageAligned (header : Nat) : Prop := (header + headerSize) % pageSize = 0

/-- The range advised for a small block is a page short of what counts
for it, unless its payload starts on a page boundary. -/
theorem callFor_len {p : Nat × Nat} {e : Advice} (hp : p ∈ shards cfg)
    (he : Slab.CallFor E p.2 e) :
    e.len ≤ e.size ∧ (e.len = e.size ↔ PageAligned e.block) := by
  obtain ⟨k, hk⟩ := sizeClass_pages hp.2.1 hp.2.2
  have hlen := he.len
  have hpage := he.page
  rw [HasPage] at hpage
  rw [he.size, hk] at hpage hlen ⊢
  simp only [PageAligned, Slab.pagesFrom, Slab.pagesTo, headerSize, pageSize]
    at hpage hlen ⊢
  omega

/-- What is counted is at least what is advised, and the same only if
it is the same for each call that succeeded. -/
theorem counted_eq_advised_iff {P : Advice → Prop} (log : List Advice)
    (hlog : ∀ e ∈ log, e.len ≤ e.size ∧ (e.len = e.size ↔ P e)) :
    advised log ≤ counted log
      ∧ (counted log = advised log ↔ ∀ e ∈ log, e.ok = true → P e) := by
  induction log with
  | nil =>
      exact ⟨le_refl _, fun _ e he => absurd he List.not_mem_nil,
        fun _ => rfl⟩
  | cons e log ih =>
      obtain ⟨hle, hiff⟩ := ih fun e' he' =>
        hlog e' (List.mem_cons_of_mem _ he')
      obtain ⟨hlen, heq⟩ := hlog e (List.mem_cons_self ..)
      rw [List.forall_mem_cons, ← hiff, ← heq]
      cases hok : e.ok with
      | false =>
          have h₁ : advised (e :: log) = advised log := by
            simp [advised, hok]
          have h₂ : counted (e :: log) = counted log := by
            simp [counted, hok]
          rw [h₁, h₂]
          exact ⟨hle, fun h => ⟨Bool.noConfusion, h⟩, fun h => h.2⟩
      | true =>
          have h₁ : advised (e :: log) = e.len + advised log := by
            simp [advised, hok]
          have h₂ : counted (e :: log) = e.size + counted log := by
            simp [counted, hok]
          rw [h₁, h₂]
          refine ⟨by omega, fun h => ⟨fun _ => by omega, by omega⟩,
            fun h => ?_⟩
          have := h.1 rfl
          omega

/-- At the threshold `age`, every eligible block on the scanned lists
has its payload on a page boundary. -/
def OnBoundary (cfg : Config) (blocks : Cell → List Nat) (h : State)
    (age : Nat) : Prop :=
  ∀ p ∈ shards cfg, ∀ b ∈ blocks (.inl p),
    Eligible h.mem h.slab.stamp age p.2 b → PageAligned b

theorem cold_anti {m : Mem} {stamp age age' b : Nat} (hle : age ≤ age')
    (hcold : Cold m stamp age' b) : Cold m stamp age b :=
  ⟨Nat.lt_of_le_of_lt hle hcold.1, hcold.2⟩

section Reports

variable {lo hi requested total total' : Nat} {D : Set (Nat × Nat)}
  {log : List Advice} {s s' : Slab.State}
  (hages : ∀ i, E i → lo ≤ i.age ∧ i.age ≤ hi)
  (hcold : ∀ p ∈ shards cfg, ∀ b ∈ blocks (.inl p), ∀ age,
    Cold s.ground.mem s.stamp age b ↔ Cold h.mem h.slab.stamp age b)
  (hp : Slab.Pass E requested (fun p => blocks (.inl p)) D total s log
    total' s')
  (hD : D ⊆ shards cfg)

include hages hcold hp hD

/-- The calls are for blocks that are eligible at the lowest
threshold. -/
theorem smallPass_eligible {e : Advice} (he : e ∈ log) :
    ∃ p ∈ shards cfg, e.block ∈ blocks (.inl p)
      ∧ Eligible h.mem h.slab.stamp lo p.2 e.block
      ∧ e.len ≤ e.size ∧ (e.len = e.size ↔ PageAligned e.block) := by
  obtain ⟨p, hpD, hb, hcall, hc⟩ := hp.calls e he
  obtain ⟨i, hi, hage⟩ := hp.aged p hpD (List.ne_nil_of_mem hb)
  rw [hcold p (hD hpD) _ hb, hage] at hc
  exact ⟨p, hD hpD, hb,
    ⟨cold_anti (hages i hi).1 hc, hcall.size ▸ hcall.page⟩,
    callFor_len (hD hpD) hcall⟩

/-- What is counted was advised exactly if the blocks whose pages are
gone are on page boundaries. -/
theorem smallPass_exact : counted log = advised log
    ↔ ∀ e ∈ log, e.ok = true → PageAligned e.block := by
  refine (counted_eq_advised_iff (P := fun e => PageAligned e.block) log
    fun e he => ?_).2
  obtain ⟨_, _, _, _, hlen⟩ := smallPass_eligible hages hcold hp hD he
  exact hlen

/-- That is so if the eligible blocks are. -/
theorem smallPass_counted (hb : OnBoundary cfg blocks h lo) :
    counted log = advised log := by
  refine (smallPass_exact hages hcold hp hD).2 fun e he _ => ?_
  obtain ⟨p, hps, hin, helig, _⟩ := smallPass_eligible hages hcold hp hD he
  exact hb p hps _ hin helig

/-- A pass over all shards within its budget advises every block that is
eligible at the highest threshold. -/
theorem smallPass_onBoundary (hall : D = shards cfg)
    (hok : ∀ i, E i → i.ok = true)
    (hbudget : requested = 0 ∨ total' < requested)
    (heq : counted log = advised log) : OnBoundary cfg blocks h hi := by
  intro p hps b hb helig
  have hpD : p ∈ D := hall ▸ hps
  obtain ⟨i, hi, hage⟩ := hp.aged p hpD (List.ne_nil_of_mem hb)
  have hc : Cold s.ground.mem s.stamp (s'.ages p.1 p.2) b := by
    rw [hcold p hps b hb, hage]
    exact cold_anti (hages i hi).2 helig.1
  cases hp.done p hpD b hb hc helig.2 with
  | inl hspent => omega
  | inr hcall =>
      obtain ⟨e, he, rfl, -⟩ := hcall
      obtain ⟨_, _, _, hfor, _⟩ := hp.calls e he
      obtain ⟨j, hj, heok⟩ := hfor.answer
      exact (smallPass_exact hages hcold hp hD).1 heq e he (heok ▸ hok j hj)

end Reports

/-- Both stages: what the first counts it advised. -/
theorem Stages.reports {lo hi requested total : Nat}
    {big small : List Advice} {h' : State} (hh : Listing cfg h blocks)
    (hages : ∀ i, E i → lo ≤ i.age ∧ i.age ≤ hi)
    (hs : Stages cfg E blocks requested h big small total h') :
    h'.slab.advice = (small ++ big) ++ h.slab.advice
      ∧ (OnBoundary cfg blocks h lo → total = advised (small ++ big))
      ∧ (h.slab.trimLock = false → (∀ i, E i → i.ok = true) →
        total < requested → total = advised (small ++ big) →
        OnBoundary cfg blocks h hi) := by
  cases hs with
  | one hD _ hbig henough =>
      have hsize := hbig.total hh hD
      exact ⟨congrArg (·.slab.advice) hbig.rest, fun _ => hsize,
        fun _ _ hlt => by omega⟩
  | @two D D' _ _ stop size n h₁ s hD hall hbig hmore hD' hall' hsmall =>
      have hsize : size = advised big := hbig.total hh hD
      have hcold := fun p hp b hb age =>
        hbig.cold hh hD (p := p) (b := b) hp hb age
      have hn := hsmall.total_eq
      rw [Slab.advised_append]
      refine ⟨?_, fun hb => ?_, fun hlock hok hlt heq => ?_⟩
      · rw [List.append_assoc]
        exact hsmall.advice.trans
          (congrArg (small ++ ·.slab.advice) hbig.rest)
      · have := smallPass_counted hages hcold hsmall hD' hb
        omega
      · exact smallPass_onBoundary hages hcold hsmall hD' (hall' hlock) hok
          (Or.inr (by omega)) (by omega)

/-- With thresholds from `lo` to `hi`, the bytes that `trim_small`
answers, and the bytes that `rs_trim` answers to a request, are the bytes
of the ranges for which `madvise` succeeded if every block on the scanned
lists that is eligible at `lo` has its payload on a page boundary: what
is counted for a small block is the size of its class. When every
`madvise` succeeds, no other thread is trimming and the budget is not
used up, they are so only if that holds of the blocks eligible at `hi`. -/
theorem trim_reports_advised_iff {fuel : Nat} (hh : Listing cfg h blocks)
    (hfuel : ∀ c ∈ cells cfg h, (blocks c).length < fuel)
    (requested : Nat) (env : Nat → Env) {lo hi : Nat}
    (hages : ∀ j, lo ≤ (env j).age ∧ (env j).age ≤ hi) :
    (∃ total s' log,
      (Slab.trimSmall cfg fuel requested).exec env h.slab = some (total, s')
        ∧ s'.advice = log ++ h.slab.advice
        ∧ (OnBoundary cfg blocks h lo → total = advised log)
        ∧ (h.slab.trimLock = false → (∀ j, (env j).ok = true) →
          requested = 0 ∨ total < requested → total = advised log →
          OnBoundary cfg blocks h hi))
      ∧ ∃ total h' log,
        (rsTrim cfg fuel (.request requested)).exec env h = some (total, h')
          ∧ h'.slab.advice = log ++ h.slab.advice
          ∧ (OnBoundary cfg blocks h lo → total = advised log)
          ∧ (h.slab.trimLock = false → (∀ j, (env j).ok = true) →
            total < requested → total = advised log →
            OnBoundary cfg blocks h hi) := by
  -- the answers of the environment are those of `env`
  have henv : ∀ j, (fun i : Env => ∃ j, env j = i) (env j) :=
    fun j => ⟨j, rfl⟩
  have hages : ∀ i, (∃ j, env j = i) → lo ≤ i.age ∧ i.age ≤ hi := by
    rintro i ⟨j, rfl⟩
    exact hages j
  have hok : (∀ j, (env j).ok = true) →
      ∀ i, (∃ j, env j = i) → i.ok = true := by
    rintro hok i ⟨j, rfl⟩
    exact hok j
  constructor
  · have hrun : Alone (fun i => ∃ j, env j = i) False
        (Slab.trimSmall cfg fuel requested) _ h.slab :=
      Slab.trimSmall_alone hh.laid (fun p hp => hfuel (.inl p) hp) h.slab
        hh.small
    obtain ⟨total, s', hexec, D, hD, log, hp, hall⟩ := hrun.exec henv
    have hn := hp.total_eq
    have hcold : ∀ p ∈ shards cfg, ∀ b ∈ blocks (.inl p), ∀ age,
        Cold h.slab.ground.mem h.slab.stamp age b
          ↔ Cold h.mem h.slab.stamp age b := fun _ _ _ _ _ => Iff.rfl
    refine ⟨total, s', log, hexec, hp.advice, fun hb => ?_,
      fun hlock hall' hbudget heq => ?_⟩
    · have := smallPass_counted hages hcold hp hD hb
      omega
    · exact smallPass_onBoundary hages hcold hp hD (hall hlock) (hok hall')
        hbudget (by omega)
  · have hrun : Alone (fun i => ∃ j, env j = i) False
        (rsTrim cfg fuel (.request requested)) _ h :=
      rsTrim_alone hh hfuel (.request requested)
    obtain ⟨total, h', hexec, big, small, hs⟩ := hrun.exec henv
    obtain ⟨hadvice, hto, hfrom⟩ := hs.reports hh hages
    exact ⟨total, h', small ++ big, hexec, hadvice, hto,
      fun hlock hall => hfrom hlock (hok hall)⟩

/-- A block at 4080 has its payload on a page boundary, one at 4096 does
not. -/
theorem trim_reports_advised_iff_cold :
    (∃ total s' log,
      (Slab.trimSmall (.single 0) 2 0).exec (fun _ => {})
          (coldHeapAt 4080).slab = some (total, s')
        ∧ s'.advice = log ++ (coldHeapAt 4080).slab.advice
        ∧ total = advised log)
      ∧ ∃ total s' log,
        (Slab.trimSmall (.single 0) 2 0).exec (fun _ => {}) coldHeap.slab
            = some (total, s')
          ∧ s'.advice = log ++ coldHeap.slab.advice
          ∧ total ≠ advised log := by
  constructor
  · obtain ⟨total, s', log, hexec, hadvice, hto, -⟩ :=
      (trim_reports_advised_iff (coldHeapAt_listing (Or.inl rfl))
        coldHeapAt_fuel 0 (fun _ => {}) fun _ => ⟨le_refl 10, le_refl 10⟩).1
    refine ⟨total, s', log, hexec, hadvice, hto fun p _ b hb _ => ?_⟩
    rw [(mem_coldBlocks hb).2, PageAligned]
    decide
  · obtain ⟨total, s', log, hexec, hadvice, -, hfrom⟩ :=
      (trim_reports_advised_iff coldHeap_listing coldHeapAt_fuel 0
        (fun _ => {}) fun _ => ⟨le_refl 10, le_refl 10⟩).1
    refine ⟨total, s', log, hexec, hadvice, fun heq => ?_⟩
    have hb := hfrom rfl (fun _ => rfl) (Or.inl rfl) heq (0, 23)
      ⟨by decide, by decide, by decide⟩ 4096 (by decide) coldHeap_eligible
    rw [PageAligned] at hb
    exact absurd hb (by decide)

/-- `trim_small` advises 4096 bytes of the block and answers 8192, and
so does `rs_trim` to a request. -/
theorem trim_reports_too_much :
    (∃ s', (Slab.trimSmall (.single 0) 2 0).exec (fun _ => {}) coldHeap.slab
        = some (8192, s') ∧ advised s'.advice = 4096)
      ∧ ∃ h', (rsTrim (.single 0) 2 (.request 8192)).exec (fun _ => {})
          coldHeap = some (8192, h') ∧ advised h'.slab.advice = 4096 := by
  constructor
  · have hcheck : ((Slab.trimSmall (.single 0) 2 0).exec (fun _ => {})
        coldHeap.slab).map (fun r => (r.1, advised r.2.advice))
          = some (8192, 4096) := by
      decide +kernel
    obtain ⟨⟨total, s'⟩, hexec, heq⟩ := Option.map_eq_some_iff.1 hcheck
    obtain ⟨rfl, hadvised⟩ := Prod.mk.inj heq
    exact ⟨s', hexec, hadvised⟩
  · have hcheck : ((rsTrim (.single 0) 2 (.request 8192)).exec (fun _ => {})
        coldHeap).map (fun r => (r.1, advised r.2.slab.advice))
          = some (8192, 4096) := by
      decide +kernel
    obtain ⟨⟨total, h'⟩, hexec, heq⟩ := Option.map_eq_some_iff.1 hcheck
    obtain ⟨rfl, hadvised⟩ := Prod.mk.inj heq
    exact ⟨h', hexec, hadvised⟩

end RsMalloc.Heap
