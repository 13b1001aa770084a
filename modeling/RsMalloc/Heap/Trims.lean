/-
Trimming, for those who own something meanwhile.

`trim_inner` discards pages of free blocks of the backend and writes
into their nodes. It follows the links of the free lists without taking
a block off, so its loop keeps the address of a block whose bit is set
(`OnFree`); the links, the bits and the heads do not change on the way.
What is written lies inside one free block, behind its links
(`HInv.rewriteFree`), and so nobody who owns something notices.
-/
import RsMalloc.Heap.Backend
import RsMalloc.Slab.Pool

namespace RsMalloc.Buddy

variable {κ : Type} [DecidableEq κ] {g : Geometry} {tile : κ}
  {birth k a n : Nat} {s : RegionState} {lists : Nat → List (Piece κ)}
  {p : Piece κ} {l₁ l₂ : List (Piece κ)} {R : Multiset (Piece κ)}
  {m : Mem}

-- =========================================================== one free block

/-- A block in the middle of a list, with other contents behind its
links. -/
theorem RegionAt.rewriteFree (h : RegionAt g tile birth s lists R)
    (hk : k ∈ orders) (hl : lists k = l₁ ++ p :: l₂)
    (hm : Mem.Only a n s.mem m) (ha : p.base + 16 ≤ a)
    (hn : a + n ≤ p.base + p.len)
    (hst : FreeBlock.trimState m p.base ≠ trimNotAllocated) :
    RegionAt g tile birth { s with mem := m }
      (Function.update lists k (l₁ ++ { p with data := m } :: l₂)) R := by
  have hok := h.order k hk
  have hmem : ∀ q, q ∈ l₁ ∨ q ∈ l₂ → q ∈ lists k := by
    intro q hq
    rw [hl]
    rcases hq with hq | hq <;> simp [hq]
  have hp : p ∈ lists k := by simp [hl]
  -- the lists with the block taken out
  let F := (l₁ : Multiset (Piece κ)) + (l₂ : Multiset (Piece κ))
    + (otherPieces lists k + R)
  have hsplit : ∀ q : Piece κ, ((l₁ ++ q :: l₂ : List (Piece κ))
      : Multiset (Piece κ)) + otherPieces lists k + R = {q} + F := by
    intro q
    rw [← Multiset.coe_add, ← Multiset.cons_coe, ← Multiset.singleton_add]
    simp only [F]
    abel
  have hheld : Holds s.mem ({p} + F) := by
    have hh := h.holds
    rw [freePieces_split lists hk, hl, hsplit] at hh
    exact hh
  have hsame : ∀ w b, p.base ≤ b → b + w ≤ p.base + 16 →
      Mem.load w m b = Mem.load w p.data b := by
    intro w b h₁ h₂
    rw [hm.load (Or.inl (by omega))]
    exact hheld.load_eq ⟨h₁, by omega⟩
  refine ⟨?_, ?_, h.len, ?_, h.mask, h.words⟩
  · rw [freePieces_update lists hk, hsplit]
    refine hheld.update rfl rfl (fun x hx => hm x fun hin => ?_)
      fun _ _ => rfl
    exact hx ⟨by omega, by omega⟩
  · refine order_update h.order hk (fun _ _ => rfl) (fun _ _ => rfl)
      ⟨?_, fun i => ?_, ?_, ?_, ?_⟩
    · obtain ⟨e, hseg⟩ := hok.seg
      rw [hl] at hseg
      obtain ⟨b, c, h₁, h₂, h₃, h₄⟩ := DSeg.append_iff.1 hseg
      refine ⟨e, DSeg.append_iff.2 ⟨b, c, h₁, h₂, ?_, ?_⟩⟩
      · exact (hsame 8 (p.base + 8) (by omega) (by omega)).trans h₃
      · have hnext : links.next { p with data := m } = links.next p :=
          hsame 8 p.base le_rfl (by omega)
        rw [hnext]
        exact h₄
    · rw [hok.bits i, hl]
      simp only [List.mem_append, List.mem_cons, or_and_right, exists_or,
        exists_eq_left]
    · intro q hq
      rcases List.mem_append.1 hq with hq | hq
      · exact hok.kind q (hmem q (Or.inl hq))
      · rcases List.mem_cons.1 hq with rfl | hq
        · exact hok.kind p hp
        · exact hok.kind q (hmem q (Or.inr hq))
    · intro q hq
      rcases List.mem_append.1 hq with hq | hq
      · exact hok.len q (hmem q (Or.inl hq))
      · rcases List.mem_cons.1 hq with rfl | hq
        · exact hok.len p hp
        · exact hok.len q (hmem q (Or.inr hq))
    · intro q hq
      rcases List.mem_append.1 hq with hq | hq
      · exact hok.fresh q (hmem q (Or.inl hq))
      · rcases List.mem_cons.1 hq with rfl | hq
        · exact fun hzero => absurd hzero hst
        · exact hok.fresh q (hmem q (Or.inr hq))
  · have ht := h.tiling
    rw [freePieces_split lists hk, hl, hsplit, tiles_add,
      tiles_singleton (hok.kind p hp)] at ht
    rw [freePieces_update lists hk, hsplit, tiles_add,
      tiles_singleton (p := { p with data := m }) (hok.kind p hp)]
    exact ht

omit [DecidableEq κ] in
/-- The link of a block on a list leads to a block on the list. -/
theorem OrderOk.next {head : Nat} {bitmap : Bitmap}
    {l : List (Piece κ)} (h : OrderOk g tile birth k head bitmap l)
    (hp : p ∈ l) :
    links.next p = 0 ∨ ∃ q ∈ l, q.base = links.next p := by
  obtain ⟨e, hseg⟩ := h.seg
  obtain ⟨l₁, l₂, rfl⟩ := List.append_of_mem hp
  obtain ⟨b, c, -, -, -, hrest⟩ := DSeg.append_iff.1 hseg
  cases l₂ with
  | nil => exact Or.inl hrest.1
  | cons q l₂ => exact Or.inr ⟨q, by simp, hrest.1⟩

omit [DecidableEq κ] in
/-- So does the head. -/
theorem OrderOk.head {head : Nat} {bitmap : Bitmap}
    {l : List (Piece κ)} (h : OrderOk g tile birth k head bitmap l) :
    head = 0 ∨ ∃ q ∈ l, q.base = head := by
  obtain ⟨e, hseg⟩ := h.seg
  cases l with
  | nil => exact Or.inl hseg.1
  | cons q l => exact Or.inr ⟨q, by simp, hseg.1⟩

end RsMalloc.Buddy

namespace RsMalloc.Heap

open Conc

open Buddy (orders)

variable {cfg : Config} {E : Env → Prop} {P : State → Prop} {s s' : State}
  {X : Res} {r k a : Nat}

-- ============================================================= free blocks

/-- The bit of the block of order `k` at `a` is set in the region `r`. -/
def OnFree (s : State) (r k a : Nat) : Prop :=
  ∃ i, a = (s.region r).geometry.base + i * 2 ^ k
    ∧ ((s.region r).freeBitmap (Buddy.orderIndex k)).get i = true

theorem OnFree.congr (h : OnFree s r k a) (hr : s'.region = s.region) :
    OnFree s' r k a := by
  unfold OnFree
  rw [hr]
  exact h

theorem RegionOk.onFree {lists : Nat → List Part} {node : Part}
    (h : RegionOk s r lists node) (hk : k ∈ orders) {a : Nat}
    (ha : ∃ q ∈ lists k, q.base = a) (hplaced : ∀ q ∈ lists k,
      Buddy.Placed (s.region r).geometry k q) : OnFree s r k a := by
  obtain ⟨q, hq, rfl⟩ := ha
  obtain ⟨i, hi⟩ := (hplaced q hq).at_
  exact ⟨i, hi, ((h.order k hk).bits i).2 ⟨q, hq, hi⟩⟩

section FreeBlocks

variable {lists : Nat → Nat → List Part} {node : Nat → Part}
  (h : HeapAt cfg s lists node X) (hr : r ∈ s.regions) (hk : k ∈ orders)
include h hr hk

/-- The block whose bit is set, on its list. -/
theorem HeapAt.free_block (ha : OnFree s r k a) :
    ∃ p ∈ lists r k, p.base = a ∧ p.len = 2 ^ k := by
  obtain ⟨i, rfl, hbit⟩ := ha
  have hord := (h.region r hr).order k hk
  obtain ⟨p, hp, hbase⟩ := (hord.bits i).1 hbit
  exact ⟨p, hp, hbase, hord.len p hp⟩

theorem HeapAt.placed_free {p : Part} (hp : p ∈ lists r k) :
    Buddy.Placed (s.region r).geometry k p := by
  obtain ⟨C, hC, hsp, -⟩ := h.places
  rw [← zero_add X] at h hsp
  exact (h.regionInv hr hC hsp).placed_free hk hp

/-- A word of a free block reads as its part says. -/
theorem HeapAt.free_load {p : Part} (hp : p ∈ lists r k) {b w : Nat}
    (hb : p.HasRange b w) : Mem.load w s.mem b = Mem.load w p.data b := by
  obtain ⟨C, -, hsp, -⟩ := h.places
  refine hsp.load_eq (Multiset.mem_add.2 (Or.inr (Multiset.mem_add.2
    (Or.inl (mem_regionParts.2 ⟨r, hr, Or.inl ?_⟩))))) hb
  exact Buddy.mem_freePieces hk hp

end FreeBlocks

section FreeLists

variable (h : HInv cfg s X) (hr : r ∈ s.regions) (hk : k ∈ orders)
include h hr hk

/-- The head of a list is null or a free block. -/
theorem HInv.head_free :
    (s.region r).free (Buddy.orderIndex k) = 0
      ∨ OnFree s r k ((s.region r).free (Buddy.orderIndex k)) := by
  obtain ⟨lists, node, hat⟩ := h
  refine ((hat.region r hr).order k hk).head.imp_right fun hq => ?_
  exact (hat.region r hr).onFree hk hq fun q hq => hat.placed_free hr hk hq

/-- So is what a free block links to. -/
theorem HInv.next_free (ha : OnFree s r k a) :
    Buddy.FreeBlock.next s.mem a = 0
      ∨ OnFree s r k (Buddy.FreeBlock.next s.mem a) := by
  obtain ⟨lists, node, hat⟩ := h
  obtain ⟨p, hp, rfl, hlen⟩ := hat.free_block hr hk ha
  have hroom := (hat.placed_free hr hk hp).room
  have hnext : Buddy.FreeBlock.next s.mem p.base = Buddy.links.next p :=
    hat.free_load hr hk hp ⟨le_rfl, by omega⟩
  rw [hnext]
  refine (((hat.region r hr).order k hk).next hp).imp_right fun hq => ?_
  exact (hat.region r hr).onFree hk hq fun q hq => hat.placed_free hr hk hq

/-- A free block is rewritten behind its links. -/
theorem HInv.rewriteFree (ha : OnFree s r k a) {b n : Nat} {m : Mem}
    (hm : Mem.Only b n s.mem m) (hb : a + 16 ≤ b) (hn : b + n ≤ a + 2 ^ k)
    (hst : Buddy.FreeBlock.trimState m a ≠ Buddy.trimNotAllocated) :
    HInv cfg (s.onMem fun _ => m) X := by
  obtain ⟨lists, node, hat⟩ := h
  obtain ⟨p, hp, rfl, hlen⟩ := hat.free_block hr hk ha
  obtain ⟨l₁, l₂, hl⟩ := List.append_of_mem hp
  obtain ⟨C, hC, hsp, hback⟩ := hat.places
  rw [← zero_add X] at hat hsp ⊢
  have hreg := (hat.regionInv hr hC hsp).rewriteFree hk hl hm hb
    (by rw [hlen]; exact hn) hst
  have hput := hat.putView hr hC hsp hback
    nofun
    (fun q (hq : q ∈ parts (0 : Res)) => absurd hq (Multiset.notMem_zero q))
    (fun _ _ => Iff.rfl) hreg
  have hself : s.putView r { s.view r with mem := m }
      = s.onMem fun _ => m := by
    unfold State.putView State.view
    dsimp only
    rw [Function.update_eq_self]
    rfl
  rw [hself] at hput
  exact ⟨_, node, hput⟩

end FreeLists

/-- What the slab caches count and log is nobody's. -/
theorem HInv.slabSame (h : HInv cfg s X) {f : Slab.State → Slab.State}
    (hg : (f s.slab).ground = s.slab.ground)
    (hl : (f s.slab).list = s.slab.list)
    (hs : (f s.slab).slot = s.slab.slot)
    (hp : (f s.slab).pages = s.slab.pages) : HInv cfg (s.onSlab f) X := by
  obtain ⟨lists, node, hat⟩ := h
  exact ⟨lists, node, hat.slab.same hg hl hs hp, hat.nodup,
    fun r hr => (hat.region r hr).congr rfl, hat.tiling, hat.owned,
    hat.entry⟩

-- =============================================================== the loop

/-- A trim leaves the regions as they are, and nobody anything. -/
def Spared (s : State) (s' : State) (x : Res) : Prop :=
  x = 0 ∧ s'.regions = s.regions ∧ s'.region = s.region

theorem Spared.refl : Spared s s 0 := ⟨rfl, rfl, rfl⟩

theorem Spared.trans {s'' : State} {x : Res} (h : Spared s s' 0)
    (h' : Spared s' s'' x) : Spared s s'' x :=
  ⟨h'.1, h'.2.1.trans h.2.1, h'.2.2.trans h.2.2⟩

section Block

variable (hr : r ∈ s.regions) (hk : k ∈ orders) (ha : OnFree s r k a)
include hr hk ha

/-- A step that rewrites a free block. -/
theorem rewriteFree_runs {f : Mem → Mem} {b n : Nat}
    (hm : Mem.Only b n s.mem (f s.mem)) (hb : a + 16 ≤ b)
    (hn : b + n ≤ a + 2 ^ k) (hst : Buddy.FreeBlock.trimState (f s.mem) a
      ≠ Buddy.trimNotAllocated) :
    Runs E P (HInv cfg) (Prog.modify (State.onMem f))
      (fun _ s' x => Spared s s' x ∧ s'.mem = f s.mem) s 0 :=
  Runs.modify fun _ _ hI => ⟨0, hI.rewriteFree hr hk ha hm hb hn hst,
    ⟨rfl, rfl, rfl⟩, rfl⟩

/-- `madvise` for the pages of a free block behind the first. -/
theorem adviseBlock_runs
    (hst : Buddy.FreeBlock.trimState s.mem a ≠ Buddy.trimNotAllocated) :
    Runs E P (HInv cfg)
      (adviseBlock a (a + pageSize) (2 ^ k - pageSize))
      (fun _ s' x => Spared s s' x
        ∧ Buddy.FreeBlock.trimState s'.mem a
          ≠ Buddy.trimNotAllocated) s 0 := by
  have hroom : 4096 ≤ 2 ^ k :=
    le_trans (by decide) (Nat.pow_le_pow_right (by decide)
      (Finset.mem_Icc.1 hk).1 : 2 ^ 22 ≤ 2 ^ k)
  refine Runs.atomic fun env f _ _ hI => ?_
  have hlog := hI.slabSame (f := Slab.State.advise
    ⟨a, 2 ^ k - pageSize, a + pageSize, 2 ^ k - pageSize, env.ok⟩)
    rfl rfl rfl rfl
  dsimp only
  split
  · have honly : Mem.Only (a + pageSize) (2 ^ k - pageSize) s.mem
        (s.slab.ground.discard env.keep (a + pageSize)
          (2 ^ k - pageSize)).mem := fun x hx =>
      if_neg fun h => hx h.1
    have hst' : Buddy.FreeBlock.trimState (s.slab.ground.discard env.keep
        (a + pageSize) (2 ^ k - pageSize)).mem a
        ≠ Buddy.trimNotAllocated := by
      refine fun h => hst (Eq.trans (honly.load (Or.inl ?_)).symm h)
      simp only [pageSize]
      omega
    refine ⟨0, hlog.rewriteFree hr hk ha honly ?_ ?_ hst', ⟨rfl, rfl, rfl⟩,
      hst'⟩
    · simp only [pageSize]
      omega
    · simp only [pageSize]
      omega
  · exact ⟨0, hlog, ⟨rfl, rfl, rfl⟩, hst⟩

/-- A block is given back to the kernel, apart from its first page. -/
theorem trimBlock_runs
    (hst : Buddy.FreeBlock.trimState s.mem a ≠ Buddy.trimNotAllocated)
    (stamp trimmed : Nat) :
    Runs E P (HInv cfg) (trimBlock k stamp a trimmed)
      (fun _ s' x => Spared s s' x) s 0 := by
  have hroom : 4096 ≤ 2 ^ k :=
    le_trans (by decide) (Nat.pow_le_pow_right (by decide)
      (Finset.mem_Icc.1 hk).1 : 2 ^ 22 ≤ 2 ^ k)
  refine (adviseBlock_runs hr hk ha hst).andThen fun ok s₁ x hx => ?_
  obtain ⟨⟨rfl, hregions, hregion⟩, hst₁⟩ := hx
  have hr₁ : r ∈ s₁.regions := hregions ▸ hr
  have ha₁ := ha.congr hregion
  refine Runs.andThen (S := fun _ s' x => Spared s₁ s' x
    ∧ Buddy.FreeBlock.trimState s'.mem a ≠ Buddy.trimNotAllocated)
    (Runs.when (fun _ => ?_) fun _ => ⟨.refl, hst₁⟩) fun _ s₂ x hx => ?_
  · have hset : Buddy.FreeBlock.trimState (Buddy.FreeBlock.setTrimState
        s₁.mem a Buddy.trimTrimmed) a = Buddy.trimTrimmed :=
      Mem.load_store (by decide)
    refine (rewriteFree_runs (b := a + 20) (n := 1) hr₁ hk ha₁
      (.store le_rfl le_rfl) (by omega) (by omega) ?_).mono
      fun _ s' x hx => ⟨hx.1, ?_⟩
    · rw [hset]
      decide
    · rw [hx.2, hset]
      decide
  obtain ⟨⟨rfl, hregions₂, hregion₂⟩, hst₂⟩ := hx
  have hkept : Buddy.FreeBlock.trimState (Buddy.FreeBlock.setLifeTime
      s₂.mem a stamp) a = Buddy.FreeBlock.trimState s₂.mem a :=
    Mem.load_store_of_disjoint (Or.inr (by omega))
  refine (rewriteFree_runs (b := a + 16) (n := 4) (hregions₂ ▸ hr₁) hk
    (ha₁.congr hregion₂) (.store le_rfl le_rfl) (by omega) (by omega)
    (by rw [hkept]; exact hst₂)).andThen fun _ s₃ x hx => Runs.ret ?_
  exact Spared.trans ⟨rfl, hregions, hregion⟩
    (Spared.trans ⟨rfl, hregions₂, hregion₂⟩ hx.1)

end Block

/-- The walk along one free list. -/
theorem trimBlocks_runs (hk : k ∈ orders)
    (stamp avgLife requested : Nat) (force : Bool) (fuel : Nat)
    {trimmed : Nat} (hr : r ∈ s.regions) (ha : a = 0 ∨ OnFree s r k a) :
    Runs E P (HInv cfg)
      (trimBlocks k stamp avgLife requested force fuel a trimmed)
      (fun _ s' x => Spared s s' x) s 0 := by
  induction fuel generalizing s a trimmed with
  | zero => exact Runs.halt
  | succ fuel ih =>
      unfold trimBlocks
      split
      · exact Runs.ret .refl
      next hne =>
      have ha' := ha.resolve_left hne
      refine Runs.inv fun f _ hI => ?_
      have hnext := hI.next_free hr hk ha'
      refine Runs.readThen ?_
      dsimp only
      split
      · exact ih hr hnext
      next hst =>
      rw [not_or] at hst
      refine Runs.andThen (S := fun _ s' x => Spared s s' x) ?_
        fun trimmed s' x hx => ?_
      · split
        · exact trimBlock_runs hr hk ha' hst.1 stamp trimmed
        · exact Runs.ret .refl
      · obtain ⟨rfl, hregions, hregion⟩ := hx
        split
        · exact Runs.ret ⟨rfl, hregions, hregion⟩
        · exact (ih (hregions ▸ hr) (hnext.imp_right fun h =>
            h.congr hregion)).mono fun _ s'' x hx =>
            Spared.trans ⟨rfl, hregions, hregion⟩ hx

/-- The orders of one region. -/
theorem trimOrders_runs (stamp avgLife requested : Nat) (force : Bool)
    (fuel n order : Nat) {trimmed : Nat} (hr : r ∈ s.regions)
    (hlow : Buddy.minOrder ≤ order) (hhigh : order + n ≤ Buddy.maxOrder + 1) :
    Runs E P (HInv cfg)
      (trimOrders fuel stamp avgLife requested force r n order trimmed)
      (fun _ s' x => Spared s s' x) s 0 := by
  induction n generalizing s order trimmed with
  | zero => exact Runs.ret .refl
  | succ n ih =>
      have hk : order ∈ orders := Finset.mem_Icc.2 ⟨hlow, by omega⟩
      refine Runs.inv fun f _ hI => ?_
      have hhead := hI.head_free hr hk
      refine Runs.readThen ?_
      refine (trimBlocks_runs hk stamp avgLife requested force fuel hr
        hhead).andThen fun o s' x hx => ?_
      obtain ⟨rfl, hregions, hregion⟩ := hx
      dsimp only
      split
      · exact Runs.ret ⟨rfl, hregions, hregion⟩
      · exact (ih (order + 1) (hregions ▸ hr) (by omega) (by omega)).mono
          fun _ s'' x hx => Spared.trans ⟨rfl, hregions, hregion⟩ hx

/-- The regions of the backend. -/
theorem trimRegions_runs (stamp avgLife requested : Nat) (force : Bool)
    (fuel : Nat) {trimmed : Nat} (l : List Nat)
    (hl : ∀ r ∈ l, r ∈ s.regions) :
    Runs E P (HInv cfg)
      (trimRegions fuel stamp avgLife requested force l trimmed)
      (fun _ s' x => Spared s s' x) s 0 := by
  induction l generalizing s trimmed with
  | nil => exact Runs.ret .refl
  | cons r l ih =>
      have hr := hl r (List.mem_cons_self ..)
      refine Runs.inv fun f _ hI => ?_
      obtain ⟨lists, node, hat⟩ := hI
      have horder := (hat.region r hr).geometry.order
      refine Runs.readThen ?_
      rw [horder]
      refine (trimOrders_runs stamp avgLife requested force fuel _ _ hr
        le_rfl (by decide)).andThen fun o s' x hx => ?_
      obtain ⟨rfl, hregions, hregion⟩ := hx
      dsimp only
      split
      · exact Runs.ret ⟨rfl, hregions, hregion⟩
      · refine (ih fun r' hr' => ?_).mono fun _ s'' x hx =>
          Spared.trans ⟨rfl, hregions, hregion⟩ hx
        rw [hregions]
        exact hl r' (List.mem_cons_of_mem _ hr')

/-- `trim_inner`. -/
theorem trimInner_runs (fuel requested : Nat) (force : Bool) :
    Runs E P (HInv cfg) (trimInner fuel requested force)
      (fun _ s' x => Spared s s' x) s 0 := by
  refine Runs.andThen (S := fun _ s' x => Spared s s' x)
    (Runs.atomic fun env f _ _ hI => ?_) fun locked s₁ x hx => ?_
  · split
    · exact ⟨0, hI, .refl⟩
    · dsimp only
      exact ⟨0, hI.slabSame rfl rfl rfl rfl, rfl, rfl, rfl⟩
  obtain ⟨rfl, hregions, hregion⟩ := hx
  split
  · exact Runs.ret ⟨rfl, hregions, hregion⟩
  · refine Runs.readThen (Runs.bind (Runs.ask fun i _ =>
      Runs.readThen ?_))
    refine (trimRegions_runs _ _ _ _ _ _ fun r hr => hr).andThen
      fun o s₂ x hx => ?_
    obtain ⟨rfl, hregions₂, hregion₂⟩ := hx
    refine Runs.bind (Runs.modify fun f _ hI => ⟨0,
      hI.slabSame rfl rfl rfl rfl, Runs.ret ?_⟩)
    exact Spared.trans ⟨rfl, hregions, hregion⟩ ⟨rfl, hregions₂, hregion₂⟩

/-- `trim_small`, among the other calls. -/
theorem trimSmall_runs (fuel requested : Nat) :
    Runs E P (HInv cfg) (onSlab (Slab.trimSmall cfg fuel requested))
      (fun _ s' x => Spared s s' x) s 0 := by
  refine (onSlab_runs (A := 0) (Slab.trimSmall_safe fuel requested)
    nofun
    fun a A' hA' q hq => ?_).mono fun a s' x hx => ?_
  · rw [hA'] at hq
    exact absurd hq (Multiset.notMem_zero q)
  · obtain ⟨hs, A', rfl, rfl⟩ := hx
    rw [hs]
    exact ⟨rfl, rfl, rfl⟩

/-- `rs_trim`. -/
theorem rsTrim_runs (fuel : Nat) (t : RSMallocTrim) :
    Runs E P (HInv cfg) (rsTrim cfg fuel t)
      (fun _ s' x => Spared s s' x) s 0 := by
  refine (trimInner_runs fuel _ true).andThen fun size s₁ x hx => ?_
  obtain ⟨rfl, hregions, hregion⟩ := hx
  split
  · refine (trimSmall_runs fuel _).andThen fun small s₂ x hx => ?_
    have htrans := Spared.trans ⟨rfl, hregions, hregion⟩ hx
    split
    · exact Runs.ret htrans
    · exact Runs.ret htrans
  · exact Runs.ret ⟨rfl, hregions, hregion⟩

end RsMalloc.Heap
