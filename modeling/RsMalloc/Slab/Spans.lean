/-
Spans: taking pages from an arena, carving blocks out of them, and
keeping what is left for later.

# Carving

`init_blocks` works downwards from the last block it was asked for. The
part of the span that the loop still has to cut is one piece; each pass
takes the last block off it, writes its header with a link to the block
before, and enters it into the history (`initLoop_spec`). A class with
one block per span leaves the loop with the whole span in one part.

# Slots

A thread's own slot and a slot of `PENDING_QUEUE` hold spans the same
way, linked by `next_page`; `IsSpan` is a span in nobody's slot.
-/
import RsMalloc.Slab.Stock

namespace RsMalloc.Slab

variable {cfg : Config} {D : Fate} {T : Multiset Part} {g : Ground}

/-- One span of class `c` at `a`, linked to no other. -/
def IsSpan (cfg : Config) (c a : Nat) (r : Multiset Part) : Prop :=
  ∃ q : Part × Part, r = {q.1} + {q.2} ∧ spanAddr q = a ∧ SpanOk cfg c q
    ∧ spanNext q = 0

namespace SpanOk

variable {c : Nat} {q : Part × Part} (h : SpanOk cfg c q)
include h

theorem meta_len : q.1.len = metaDataSize :=
  h.record.len

/-- The record may be rewritten where the carving does not look. -/
theorem rewriteMeta {m : Mem}
    (hrec : Records (spanTotal c) { q.1 with data := m })
    (hnext : MetaData.next m q.1.base = q.2.base)
    (hnode : MetaData.nodeId m q.1.base = spanNode q) :
    SpanOk cfg c ({ q.1 with data := m }, q.2) :=
  ⟨h.lt, h.meta_kind, h.rest_kind, ⟨h.record.len, hrec⟩, h.align, hnext,
    h.node.imp fun _ hcpu => hnode.trans hcpu, h.rest, h.carved, h.whole⟩

/-- What the memory shows at a held span. -/
theorem read (hs : Space cfg g T) (hq : q.1 ∈ T) {w k : Nat} (hk : k + w ≤ 48) :
    Mem.load w g.mem (q.1.base + k) = Mem.load w q.1.data (q.1.base + k) := by
  have hr := h.metaRange
  unfold Piece.HasRange at hr
  exact hs.load_eq hq ⟨by omega, by omega⟩

/-- Where the memory says a held span starts and ends. -/
theorem read_records (hs : Space cfg g T) (hq : q.1 ∈ T) :
    Records (spanTotal c) { q.1 with data := g.mem } :=
  ⟨(h.read hs hq (w := 8) (k := 8) (by omega)).trans h.record.records.start,
    (h.read hs hq (w := 8) (k := 16) (by omega)).trans h.record.records.end_⟩

theorem read_next (hs : Space cfg g T) (hq : q.1 ∈ T) :
    MetaData.next g.mem q.1.base = q.2.base :=
  (h.read hs hq (w := 8) (k := 24) (by omega)).trans h.next

theorem read_nextPage (hs : Space cfg g T) (hq : q.1 ∈ T) :
    MetaData.nextPage g.mem q.1.base = spanNext q :=
  h.read hs hq (w := 8) (k := 0) (by omega)

theorem read_node (hs : Space cfg g T) (hq : q.1 ∈ T) :
    MetaData.nodeId g.mem q.1.base = spanNode q :=
  h.read hs hq (w := 2) (k := 32) (by omega)

/-- Where a held span is. -/
theorem bounds (hs : Space cfg g T) (hq : q.1 ∈ T) :
    spanAddr q ≠ 0 ∧ spanAddr q < 2 ^ 64 := by
  have hr := h.metaRange
  unfold Piece.HasRange at hr
  have hb := hs.bounds hq (x := q.1.base) ⟨le_rfl, by omega⟩
  simp only [pageSize, userLimit] at hb
  unfold spanAddr
  omega

/-- Writing into the record of a held span. -/
theorem writeMeta {H : Multiset Part} {m : Mem}
    (hm : Mem.Only q.1.base 48 g.mem m)
    (hrec : Records (spanTotal c) { q.1 with data := m })
    (hs : Space cfg g ({q.1} + H)) :
    Space cfg { g with mem := m } ({{ q.1 with data := m }} + H) :=
  hs.rewriteSound hm h.metaRange
    (fun hb => by rw [h.meta_kind] at hb; cases hb)
    (.record (p := { q.1 with data := m }) h.meta_kind ⟨h.record.len, hrec⟩)

/-- Giving a held span another `next_page`. -/
theorem setNextPage {H : Multiset Part} {v : Nat} (hv : v < 2 ^ 64)
    (hs : Space cfg g ({q.1} + {q.2} + H)) :
    ∃ q', SpanOk cfg c q' ∧ spanAddr q' = spanAddr q ∧ spanNext q' = v
      ∧ spanNode q' = spanNode q
      ∧ Space cfg (MetaData.setNextPage (spanAddr q) v g)
        ({q'.1} + {q'.2} + H) := by
  have hq : q.1 ∈ ({q.1} + {q.2} + H : Multiset Part) := by simp
  obtain ⟨hstart, hend⟩ := h.read_records hs hq
  have hnext := h.read_next hs hq
  have hnode := h.read_node hs hq
  have hrec : Records (spanTotal c)
      { q.1 with data := (MetaData.setNextPage q.1.base v g).mem } :=
    ⟨MetaData.start_setNextPage.trans hstart,
      MetaData.end_setNextPage.trans hend⟩
  rw [add_assoc] at hs
  refine ⟨_, h.rewriteMeta hrec (MetaData.next_setNextPage.trans hnext)
    (MetaData.nodeId_setNextPage.trans hnode), rfl,
    MetaData.nextPage_setNextPage hv,
    MetaData.nodeId_setNextPage.trans hnode, ?_⟩
  rw [add_assoc]
  exact h.writeMeta MetaData.only_setNextPage hrec hs

end SpanOk

-- ================================================================= slots

section Slots

variable {s : State} {F r : Multiset Part} {c a : Nat}

/-- The head of a slot fits a word. -/
theorem SpansOf.head_lt {k : Slot} {l : List (Part × Part)}
    (h : SpansOf cfg k a l) (hs : Space cfg g T) (hT : ∀ q ∈ l, q.1 ∈ T) :
    a < 2 ^ 64 := by
  cases l with
  | nil =>
      have hzero : a = 0 := h.chain
      omega
  | cons q l =>
      have hq : spanAddr q = a := h.chain.1
      rw [← hq]
      exact ((h.ok q (List.mem_cons_self ..)).bounds hs
        (hT q (List.mem_cons_self ..))).2

/-- A thread empties its own slot. -/
theorem takeSlot_inv (t c : Nat) (h : InvOn cfg D s F) :
    ∃ r, InvOn cfg D (s.setSlot (.bulk t c) 0) (r + F)
      ∧ (s.slot (.bulk t c) = 0 ∧ r = 0
        ∨ s.slot (.bulk t c) ≠ 0 ∧ IsSpan cfg c (s.slot (.bulk t c)) r) := by
  rw [← zero_add F] at h
  refine h.onSlot (.bulk t c) rfl rfl
    (fun j hj => Function.update_of_ne hj _ _) ?_
  intro l H hl hsp
  have hempty : SpansOf cfg (.bulk t c)
      ((s.setSlot (.bulk t c) 0).slot (.bulk t c)) [] :=
    ⟨Function.update_self .., nofun,
      fun _ _ _ => Nat.zero_le _, nofun⟩
  cases l with
  | nil => exact ⟨[], 0, hempty, hsp, Or.inl ⟨hl.chain, rfl⟩⟩
  | cons q l =>
      have hlen := hl.single t c rfl
      have hl' : l = [] := by
        rw [List.length_cons] at hlen
        exact List.length_eq_zero_iff.1 (by omega)
      subst hl'
      obtain ⟨hq, hnext⟩ := hl.chain
      have hok := hl.ok q (List.mem_cons_self ..)
      refine ⟨[], {q.1} + {q.2}, hempty, ?_, Or.inr ⟨?_, q, rfl, hq, hok,
        hnext⟩⟩
      · rw [spanParts_cons, spanParts_nil, add_zero, zero_add] at hsp
        rw [spanParts_nil, zero_add]
        exact hsp
      · rw [← hq]
        exact (hok.bounds hsp (by simp)).1

/-- A thread stores a span in its own slot. A span that was there before
is lost. -/
theorem putSlot_inv {t : Nat} (hr : IsSpan cfg c a r)
    (hlost : s.slot (.bulk t c) = 0 ∨ ∀ q, D c q)
    (h : InvOn cfg D s (r + F)) :
    InvOn cfg D (s.setSlot (.bulk t c) a) F := by
  obtain ⟨q, rfl, hq, hok, hnext⟩ := hr
  suffices hstep : ∃ A', InvOn cfg D (s.setSlot (.bulk t c) a) (A' + F)
      ∧ (A' = 0 ∨ ∃ q', A' = {q'.1} + {q'.2} ∧ SpanOk cfg c q'
        ∧ D c q') by
    obtain ⟨A', hinv, rfl | ⟨q', rfl, hok', hD⟩⟩ := hstep
    · rwa [zero_add] at hinv
    · exact hinv.retire hok' hD
  refine h.onSlot (.bulk t c) rfl rfl
    (fun j hj => Function.update_of_ne hj _ _) ?_
  intro l H hl hsp
  refine ⟨[q], spanParts l, ⟨?_, fun q' hq' => ?_, fun _ _ _ => le_rfl,
    nofun⟩, ?_, ?_⟩
  · have hslot : (s.setSlot (.bulk t c) a).slot (.bulk t c) = a :=
      Function.update_self ..
    rw [hslot]
    exact ⟨hq, hnext⟩
  · rw [List.mem_singleton] at hq'
    exact hq' ▸ hok
  · rw [spanParts_cons, spanParts_nil, add_zero, add_left_comm]
    exact hsp
  · cases l with
    | nil => exact Or.inl rfl
    | cons q' l =>
        have hlen := hl.single t c rfl
        have hl' : l = [] := by
          rw [List.length_cons] at hlen
          exact List.length_eq_zero_iff.1 (by omega)
        subst hl'
        have hok' := hl.ok q' (List.mem_cons_self ..)
        rcases hlost with hz | hD
        · have hne := (hok'.bounds hsp (by simp)).1
          rw [hl.chain.1] at hne
          exact absurd hz hne
        · refine Or.inr ⟨q', ?_, hok', hD q'⟩
          rw [spanParts_cons, spanParts_nil, add_zero]

/-- A slot of the queue is one of its class. -/
theorem queueSlot_eq {node : Nat} {k : Slot}
    (h : queueSlot cfg node c = some k) : ∃ n, k = .queue n c := by
  unfold queueSlot at h
  split at h
  · cases h
  · split at h
    · exact ⟨0, (Option.some.inj h).symm⟩
    · split at h
      · cases h
      · exact ⟨node, (Option.some.inj h).symm⟩

/-- A span goes to the front of the queue slot of its node. -/
theorem enqueue_inv {n : Nat} {q : Part × Part} (hok : SpanOk cfg c q)
    (hhome : queueSlot cfg (spanNode q) c = some (.queue n c))
    (h : InvOn cfg D s ({q.1} + {q.2} + F)) :
    InvOn cfg D ((s.onGround (MetaData.setNextPage (spanAddr q)
      (s.slot (.queue n c)))).setSlot (.queue n c) (spanAddr q)) F := by
  suffices hstep : ∃ A', InvOn cfg D ((s.onGround (MetaData.setNextPage
      (spanAddr q) (s.slot (.queue n c)))).setSlot (.queue n c) (spanAddr q))
      (A' + F) ∧ A' = 0 by
    obtain ⟨A', hinv, rfl⟩ := hstep
    rwa [zero_add] at hinv
  refine h.onSlot (.queue n c) rfl rfl
    (fun j hj => Function.update_of_ne hj _ _) ?_
  intro l H hl hsp
  have hlt := hl.head_lt hsp fun q' hq' =>
    Multiset.mem_add.2 (Or.inl (record_mem_spanParts hq'))
  rw [add_left_comm] at hsp
  obtain ⟨q', hok', haddr, hnext, hnode, hsp'⟩ := hok.setNextPage hlt hsp
  refine ⟨q' :: l, 0, ⟨⟨haddr.trans ?_, ?_⟩, fun p hp => ?_, nofun, ?_⟩, ?_,
    rfl⟩
  · exact (Function.update_self (Slot.queue n c) (spanAddr q) s.slot).symm
  · rw [hnext]
    exact hl.chain
  · rcases List.mem_cons.1 hp with rfl | hp
    · exact hok'
    · exact hl.ok p hp
  · rintro _ _ ⟨rfl, rfl⟩ p hp
    rcases List.mem_cons.1 hp with rfl | hp
    · rw [hnode]
      exact hhome
    · exact hl.home n c rfl p hp
  · rw [spanParts_cons, zero_add, add_assoc]
    exact hsp'

/-- The first span of a queue slot is taken off. -/
theorem dequeue_inv {n : Nat} (h : InvOn cfg D s F)
    (hne : s.slot (.queue n c) ≠ 0) :
    ∃ r, InvOn cfg D ((s.setSlot (.queue n c) (MetaData.nextPage s.ground.mem
        (s.slot (.queue n c)))).onGround
          (MetaData.setNextPage (s.slot (.queue n c)) 0)) (r + F)
      ∧ IsSpan cfg c (s.slot (.queue n c)) r := by
  rw [← zero_add F] at h
  refine h.onSlot (.queue n c) rfl rfl
    (fun j hj => Function.update_of_ne hj _ _) ?_
  intro l H hl hsp
  obtain ⟨q, l', rfl, hq, hrest⟩ := hl.chain.exists_cons hne
  have hok := hl.ok q (List.mem_cons_self ..)
  have hnext := hok.read_nextPage hsp
    (Multiset.mem_add.2 (Or.inl (record_mem_spanParts (List.mem_cons_self ..))))
  rw [spanParts_cons, add_assoc] at hsp
  obtain ⟨q', hok', haddr, hnext', -, hsp'⟩ :=
    hok.setNextPage (v := 0) (by omega) hsp
  refine ⟨l', {q'.1} + {q'.2}, ⟨?_, fun p hp => ?_, nofun, ?_⟩, ?_, q', rfl,
    haddr.trans hq, hok', hnext'⟩
  · have hslot : ((s.setSlot (.queue n c) (MetaData.nextPage s.ground.mem
        (s.slot (.queue n c)))).onGround (MetaData.setNextPage
          (s.slot (.queue n c)) 0)).slot (.queue n c)
        = MetaData.nextPage s.ground.mem (s.slot (.queue n c)) :=
      Function.update_self ..
    rw [hslot, ← hq]
    unfold spanAddr
    rw [hnext]
    exact hrest
  · exact hl.ok p (List.mem_cons_of_mem _ hp)
  · rintro _ _ ⟨rfl, rfl⟩ p hp
    exact hl.home n c rfl p (List.mem_cons_of_mem _ hp)
  · rw [← hq, add_left_comm]
    rw [zero_add] at hsp'
    exact hsp'

end Slots

-- ================================================================= pages

section Pages

variable {s : State} {F : Multiset Part} {c : Nat}

/-- A step of the page allocator on one node is not seen elsewhere. -/
theorem At.other_node {H Y : Multiset Part} {n : Nat} {g : Ground}
    {p : Pages.PageState} {j : Place}
    (hkeeps : Pages.Keeps cfg H n s.pages p) (hj : j ≠ .arenas n)
    (hY : Y ≤ H) (hAt : At cfg D s j Y) :
    At cfg D { s with ground := g, pages := p } j Y := by
  cases j with
  | list j => exact hAt
  | spans j => exact hAt
  | arenas n => exact hkeeps n Y (fun heq => hj (heq ▸ rfl)) hY hAt
  | retired => exact hAt

/-- What `PAGE_ALLOCATOR.alloc` hands out. -/
theorem pageAlloc_inv (env : Env) (fuel node size : Nat)
    (h : InvOn cfg D s F) {out : Option Nat × Ground × Pages.PageState}
    (hout : Pages.alloc cfg env fuel node size s.ground s.pages = out) :
    ∃ r, InvOn cfg D { s with ground := out.2.1, pages := out.2.2 } (r + F)
      ∧ (out.1 = none ∧ r = 0 ∨ ∃ ptr m data, out.1 = some ptr
        ∧ ptr % pageSize = 0
        ∧ r = {⟨.raw m, ptr, alignTo (max size 1) pageSize, data⟩}) := by
  rw [← zero_add F] at h
  refine Stocked.exchange (.arenas (Pages.nodeOf cfg node)) h ?_
  intro X H hX hsp
  rw [zero_add] at hsp
  have hspec := Pages.alloc_spec env size fuel hX hsp
  rw [hout] at hspec
  cases hspec with
  | none arenas space keeps =>
      refine ⟨_, 0, arenas, ?_, Or.inl ⟨rfl, rfl⟩,
        fun _ _ => At.other_node keeps⟩
      rw [zero_add]
      exact space
  | @some g' s' X' ptr m data arenas space above align keeps =>
      exact ⟨_, _, arenas, space, Or.inr ⟨ptr, m, data, rfl, align, rfl⟩,
        fun _ _ => At.other_node keeps⟩

/-- The pages are entered as a span. -/
theorem grant_inv {p : Part} {m : Nat × Nat} (hk : p.kind = .raw m)
    (h : InvOn cfg D s ({p} + F)) :
    InvOn cfg D (s.onGround (Ground.grant ⟨p.base, c⟩ p.len))
      ({{ p with kind := .fresh ⟨p.base, c⟩ }} + F) :=
  h.keep rfl rfl rfl fun _ hH => hH.grant hk

theorem alignTo_spanTotal (hc : c < numSizeClasses) :
    alignTo (max (spanTotal c) 1) pageSize = pageUp (spanTotal c) := by
  have hle := (spanTotal_bounds hc).2
  have hpos : 1 ≤ spanTotal c := by
    unfold spanTotal
    simp only [metaDataSize]
    omega
  rw [Nat.max_eq_left hpos]
  unfold alignTo pageUp
  rw [Nat.mod_eq_of_lt (by simp only [pageSize]; omega)]
  rfl

/-- Pages for a span are registered. -/
theorem register_inv {p : Part} {o : Origin} (hk : p.kind = .fresh o)
    (ha : p.base % pageSize = 0) (hl : p.len = pageUp (spanTotal c))
    (h : InvOn cfg D s ({p} + F)) :
    InvOn cfg D (s.onGround (Ground.setRange p.base (spanTotal c) true))
      ({{ p with kind := .span o }} + F) := by
  refine h.keep rfl rfl rfl fun H hH => ?_
  refine hH.register hk ha ?_ hl
  unfold spanTotal
  simp only [metaDataSize]
  omega

/-- The `MetaData` of a new span is written. -/
theorem newSpan_inv {p : Part} {cpu : Nat} (hc : c < numSizeClasses)
    (hk : p.kind = .span ⟨p.base, c⟩) (ha : p.base % pageSize = 0)
    (hl : p.len = pageUp (spanTotal c)) (h : InvOn cfg D s ({p} + F)) :
    ∃ r, InvOn cfg D (s.onGround (MetaData.write p.base 0 p.base
        (p.base + spanTotal c) (p.base + metaDataSize)
          (nodeForCpu cfg cpu))) (r + F)
      ∧ IsSpan cfg c p.base r := by
  have hup := (pageUp_spec (spanTotal c)).1
  have htot : metaDataSize ≤ spanTotal c := Nat.le_add_right _ _
  obtain ⟨H₀, hH₀⟩ := h.space
  rw [add_assoc] at hH₀
  have hlim := hH₀.end_le mem_singleton_add_self
    (by simp only [metaDataSize] at htot; omega)
  set m := (MetaData.write p.base 0 p.base (p.base + spanTotal c)
    (p.base + metaDataSize) (nodeForCpu cfg cpu) s.ground).mem with hm
  have hrec : RecordOk ⟨p.base, c⟩
      ⟨.record ⟨p.base, c⟩, p.base, metaDataSize, m⟩ :=
    ⟨rfl, MetaData.start_write (by omega), MetaData.end_write (by omega)⟩
  refine ⟨_, h.keep rfl rfl rfl fun H hH => ?_,
    (⟨.record ⟨p.base, c⟩, p.base, metaDataSize, m⟩,
      ⟨.rest ⟨p.base, c⟩, p.base + metaDataSize,
        p.len - metaDataSize, m⟩), rfl, rfl, ?_,
    MetaData.nextPage_write (by omega)⟩
  · rw [add_assoc]
    exact hH.record hk MetaData.only_write (by omega) hrec
  · refine ⟨hc, rfl, rfl, hrec, ha, MetaData.next_write ?_,
      ⟨cpu, MetaData.nodeId_write⟩, ?_, ⟨0, Nat.zero_le _, ?_⟩, fun _ => rfl⟩
    · simp only [metaDataSize] at htot ⊢
      omega
    · show p.base + metaDataSize + (p.len - metaDataSize)
        = p.base + pageUp (spanTotal c)
      omega
    · rw [Nat.zero_mul, Nat.add_zero]

end Pages

-- =============================================================== carving

section Carving

variable {g : Ground} {H r : Multiset Part} {c a base maxBlocks : Nat}
  (stamp : Nat) {out : (Nat × Nat × Nat) × Ground} {q : Part × Part}

/-- The block in `[base, base + blockSize c)` of a span gets its header
and leaves the span. -/
theorem newBlock_space {d : Mem} {head start i : Nat}
    (hc : c < numSizeClasses) (hmulti : iterations c ≠ 1)
    (halign : 16 ∣ base) (hlt : head < 2 ^ 64)
    (hres : head = 0 ∨ head ∈ g.inited) (hi : i < spanBlocks c)
    (hbase : base = start + metaDataSize + i * blockSize c)
    (hs : Space cfg g ({⟨.rest ⟨start, c⟩, base, blockSize c, d⟩} + H)) :
    ∃ q, header q = base ∧ link q = head ∧ q.kind = .block ⟨start, c⟩
      ∧ FreeOk cfg c q
      ∧ Space cfg { Header.write base head 1 c cfg.freedMagic stamp g with
          inited := base :: g.inited } ({q} + H) := by
  have hblock := blockSize_eq hc
  have honly : Mem.Only base 16 g.mem
      (Header.write base head 1 c cfg.freedMagic stamp g).mem :=
    Header.only_write
  have hnext : Header.next
      (Header.write base head 1 c cfg.freedMagic stamp g).mem base = head :=
    Header.next_write hlt
  have hcls : Header.cls
      (Header.write base head 1 c cfg.freedMagic stamp g).mem base = c :=
    Header.cls_write (by simp only [numSizeClasses] at hc; omega)
  have hne : base ≠ 0 := by
    have hb := hs.bounds mem_singleton_add_self (x := base)
      ⟨le_rfl, by simp only; omega⟩
    simp only [pageSize] at hb
    omega
  have hok : BlockOk cfg c ⟨.block ⟨start, c⟩, base, blockSize c,
      (Header.write base head 1 c cfg.freedMagic stamp g).mem⟩ := by
    refine ⟨hc, hne, ⟨⟨start, c⟩, ?_, hc, ⟨i, hi, hbase⟩, fun _ => rfl,
      fun hone => absurd hone hmulti⟩, ?_, hcls, halign,
      fun hone => absurd hone hmulti⟩
    · rw [blockKind, if_neg hmulti]
    · rw [extent, if_neg hmulti]
  have hlink : Linked g ⟨.block ⟨start, c⟩, base, blockSize c,
      (Header.write base head 1 c cfg.freedMagic stamp g).mem⟩ := by
    rw [Linked, link, header, hnext]
    exact hres
  have hnew := (hs.rewrite honly
    ⟨le_rfl, by simp only [headerSize] at hblock ⊢; omega⟩ rfl).becomeBlock
      rfl hlink hok
  exact ⟨⟨.block ⟨start, c⟩, base, blockSize c,
    (Header.write base head 1 c cfg.freedMagic stamp g).mem⟩, rfl, hnext, rfl,
    ⟨hok, Header.magic_write⟩, hnew⟩

/-- The loop of `init_blocks` cuts the last of `i` blocks off, again
and again, in front of the chain it has made so far. -/
theorem initLoop_spec {start k : Nat} (hc : c < numSizeClasses)
    (hmulti : iterations c ≠ 1) (halign : 16 ∣ base)
    (hbase : base = start + metaDataSize + k * blockSize c) (i : Nat)
    (hik : k + i ≤ spanBlocks c) {d : Mem} {l : List Part} {head tail : Nat}
    (hl : ListOf cfg c head l)
    (horigin : ∀ p ∈ l, p.kind.origin = some ⟨start, c⟩) (htail : EndsAt l tail)
    (hs : Space cfg g ({⟨.rest ⟨start, c⟩, base, i * blockSize c, d⟩}
      + ((l : Multiset Part) + H))) :
    ∃ l' head' tail' g',
      initLoop cfg c base (blockSize c) stamp i head tail g
        = (head', tail', g')
      ∧ ListOf cfg c head' l' ∧ EndsAt l' tail'
      ∧ (∀ p ∈ l', p.kind.origin = some ⟨start, c⟩)
      ∧ l'.map header = (List.range i).map (base + · * blockSize c)
        ++ l.map header
      ∧ Space cfg g' ((l' : Multiset Part) + H) := by
  induction i generalizing g d l head tail with
  | zero =>
      refine ⟨l, head, tail, g, rfl, hl, htail, horigin, rfl,
        hs.drop fun p hp => Or.inr ?_⟩
      rw [Multiset.mem_singleton] at hp
      rw [hp]
      exact ⟨rfl, Nat.zero_mul _⟩
  | succ i ih =>
      have hb := hl.head_bounds hs fun p hp => by simp [hp]
      have hcut := hs.cut (n := i * blockSize c) (k := blockSize c)
        (by simp only [Nat.succ_mul]) rfl
      dsimp only at hcut
      rw [add_left_comm] at hcut
      have hal : 16 ∣ base + i * blockSize c := by
        have hblock := blockSize_eq hc
        refine Nat.dvd_add halign (Nat.dvd_mul_left_of_dvd ?_ i)
        rw [hblock.1]
        exact Nat.dvd_add hblock.2.2.2 (by decide)
      obtain ⟨q, hq, hlink, hkind, hok, hsp⟩ :=
        newBlock_space stamp hc hmulti hal hb.1 hb.2 (i := k + i) (by omega)
          (by rw [hbase, Nat.add_mul, Nat.add_assoc]) hcut
      rw [add_left_comm ({q} : Multiset Part),
        ← add_assoc ({q} : Multiset Part), singleton_add_coe] at hsp
      have hl' : ListOf cfg c (base + i * blockSize c) (q :: l) := by
        refine ⟨⟨hq, ?_⟩, fun p hp => ?_⟩
        · rw [hlink]
          exact hl.1
        · rcases List.mem_cons.1 hp with rfl | hp
          · exact hok
          · exact hl.2 p hp
      have horigin' : ∀ p ∈ q :: l, p.kind.origin = some ⟨start, c⟩ := by
        intro p hp
        rcases List.mem_cons.1 hp with rfl | hp
        · rw [hkind]
          rfl
        · exact horigin p hp
      have htail' : EndsAt (q :: l)
          (if head = 0 then base + i * blockSize c else tail) := by
        cases l with
        | nil =>
            have hhead : head = 0 := hl.1
            rw [if_pos hhead, ← hq]
            exact EndsAt.single
        | cons p l =>
            have hhead := hl.head_ne (List.cons_ne_nil p l)
            rw [if_neg hhead]
            exact htail.cons (List.cons_ne_nil p l)
      obtain ⟨l'', head', tail', g', heq, hl'', ht'', ho'', hhead, hsp''⟩ :=
        ih (by omega) hl' horigin' htail' hsp
      refine ⟨l'', head', tail', g', heq, hl'', ht'', ho'', ?_, hsp''⟩
      rw [hhead, List.range_succ, List.map_append, List.map_singleton,
        List.map_cons, hq, List.append_assoc, List.singleton_append]

/-- The blocks a span has left. -/
theorem SpanOk.remaining (h : SpanOk cfg c q) :
    ∃ n, (q.1.base + spanTotal c - q.2.base) / blockSize c = n
      ∧ q.1.base + spanTotal c = q.2.base + n * blockSize c
      ∧ n * blockSize c ≤ q.2.len := by
  obtain ⟨k, hk, hbase⟩ := h.carved
  have hblock := blockSize_eq h.lt
  have hpos : 0 < blockSize c := by omega
  have hup := (pageUp_spec (spanTotal c)).1
  have hrest := h.rest
  have hend : q.1.base + spanTotal c
      = q.2.base + (spanBlocks c - k) * blockSize c := by
    have hsplit : blockSize c * spanBlocks c
        = k * blockSize c + (spanBlocks c - k) * blockSize c := by
      rw [← Nat.add_mul, Nat.add_sub_cancel' hk, Nat.mul_comm]
    unfold spanTotal
    omega
  refine ⟨spanBlocks c - k, ?_, hend, by omega⟩
  rw [hend, Nat.add_sub_cancel_left]
  exact Nat.mul_div_cancel _ hpos

section Solo

variable {q : Part × Part}

/-- The memory after the header of a block that takes its span with it
was written, and the span was used up. -/
def soloMem (cfg : Config) (c stamp : Nat) (q : Part × Part) (g : Ground) :
    Mem :=
  (MetaData.setNext q.1.base (q.2.base + 1 * blockSize c)
    (Header.write q.2.base 0 1 c cfg.freedMagic stamp g)).mem

variable (cfg g) in
/-- The record is in front of the header. -/
theorem soloMem_header (hc : c < numSizeClasses)
    (hfar : q.1.base + 48 ≤ q.2.base) :
    Header.next (soloMem cfg c stamp q g) q.2.base = 0
      ∧ Header.cls (soloMem cfg c stamp q g) q.2.base = c
      ∧ Header.magic (soloMem cfg c stamp q g) q.2.base
        = cfg.freedMagic % 2 ^ 16 := by
  have honly : Mem.Only q.1.base 48
      (Header.write q.2.base 0 1 c cfg.freedMagic stamp g).mem
      (soloMem cfg c stamp q g) := MetaData.only_setNext
  simp only [numSizeClasses] at hc
  exact ⟨(honly.load (Or.inr hfar)).trans (Header.next_write (by omega)),
    (honly.load (Or.inr (by omega))).trans (Header.cls_write (by omega)),
    (honly.load (Or.inr (by omega))).trans Header.magic_write⟩

/-- The record keeps its bounds, and has nothing left to hand out. -/
theorem soloMem_record (hok : SpanOk cfg c q) (hone : iterations c = 1)
    (hs : Space cfg g T) (hq : q.1 ∈ T)
    (hlt : q.1.base + spanTotal c < 2 ^ 64) :
    MetaData.start (soloMem cfg c stamp q g) q.1.base = q.1.base
      ∧ MetaData.end_ (soloMem cfg c stamp q g) q.1.base
        = q.1.base + spanTotal c
      ∧ MetaData.next (soloMem cfg c stamp q g) q.1.base
        = q.1.base + spanTotal c := by
  have hbase := hok.whole hone
  obtain ⟨hstart, hend⟩ := hok.read_records hs hq
  simp only at hstart hend
  have htot : q.2.base + 1 * blockSize c = q.1.base + spanTotal c := by
    rw [hbase, spanTotal, spanBlocks_of_iterations hok.lt hone]
    omega
  have hrec : ∀ k, k + 8 ≤ 48 → Mem.load 8
      (Header.write q.2.base 0 1 c cfg.freedMagic stamp g).mem
      (q.1.base + k) = Mem.load 8 g.mem (q.1.base + k) := fun k hk =>
    Header.only_write.load
      (Or.inl (by rw [hbase]; simp only [metaDataSize]; omega))
  refine ⟨?_, ?_, ?_⟩
  · exact MetaData.start_setNext.trans ((hrec 8 (by omega)).trans hstart)
  · exact MetaData.end_setNext.trans ((hrec 16 (by omega)).trans hend)
  · rw [← htot]
    exact MetaData.next_setNext (by omega)

/-- A block that takes its span with it. -/
theorem newSolo_space (hok : SpanOk cfg c q)
    (hone : iterations c = 1) (hs : Space cfg g ({q.1} + ({q.2} + H))) :
    ∃ p, header p = q.2.base ∧ link p = 0
      ∧ p.kind.origin = some ⟨q.1.base, c⟩ ∧ FreeOk cfg c p
      ∧ remainingBlocks (MetaData.setNext q.1.base
        (q.2.base + 1 * blockSize c) (Header.write q.2.base 0 1 c
          cfg.freedMagic stamp g)).mem q.1.base (blockSize c) = 0
      ∧ Space cfg (MetaData.setNext q.1.base (q.2.base + 1 * blockSize c)
        { Header.write q.2.base 0 1 c cfg.freedMagic stamp g with
          inited := q.2.base :: g.inited }) ({p} + H) := by
  have hbase := hok.whole hone
  have hblock := blockSize_eq hok.lt
  have hrest := hok.rest
  have hmeta := hok.meta_len
  have halign := hok.align
  have hup := (pageUp_spec (spanTotal c)).1
  have htot : spanTotal c = metaDataSize + blockSize c := by
    rw [spanTotal, spanBlocks_of_iterations hok.lt hone, Nat.mul_one]
  have hlen : 16 ≤ q.2.len := by
    simp only [headerSize] at hblock
    omega
  have hlim := hs.end_le (p := q.2) (by simp) (by omega)
  have hfar : q.1.base + 48 ≤ q.2.base := by rw [hbase]
  obtain ⟨hnext, hcls, hmagic⟩ :=
    soloMem_header cfg g stamp hok.lt hfar
  obtain ⟨hstart', hend', hnext'⟩ :=
    soloMem_record stamp hok hone hs (by simp) (by omega)
  -- the header, in the rest of the span
  have honly : Mem.Only q.2.base 16 g.mem
      (Header.write q.2.base 0 1 c cfg.freedMagic stamp g).mem :=
    Header.only_write
  rw [add_left_comm] at hs
  have hs₁ := hs.rewrite honly ⟨le_rfl, by omega⟩
    (by rw [hok.rest_kind]; rfl)
  -- the record, in front of it
  rw [add_left_comm] at hs₁
  have hs₂ := hok.writeMeta (MetaData.only_setNext
    (v := q.2.base + 1 * blockSize c)) ⟨hstart', hend'⟩ hs₁
  -- both together are the block
  have hsum : q.1.len + q.2.len = pageUp (spanTotal c) := by omega
  have hpok : BlockOk cfg c ⟨.solo ⟨q.1.base, c⟩, q.1.base,
      q.1.len + q.2.len, soloMem cfg c stamp q g⟩ := by
    rw [hsum]
    refine .ofAlone hok.lt hone hok.lt hone rfl (hbase ▸ hcls) ?_
      ⟨hstart', hend'⟩ hnext'
    simp only [pageSize] at halign
    simp only [metaDataSize]
    omega
  have hlink : link ⟨.solo ⟨q.1.base, c⟩, q.1.base, q.1.len + q.2.len,
      soloMem cfg c stamp q g⟩ = 0 := by
    simp only [link, header]
    rw [← hbase, hnext]
  have hs₃ := hs₂.becomeSolo (c := c) hok.meta_kind hok.rest_kind
    (by rw [hbase, ← hmeta]) (by simp only; omega) (by simp only; omega)
    (Or.inl hlink) hpok
  rw [← hbase] at hs₃
  refine ⟨⟨.solo ⟨q.1.base, c⟩, q.1.base, q.1.len + q.2.len,
    soloMem cfg c stamp q g⟩, hbase.symm, hlink, rfl, ⟨hpok, ?_⟩, ?_, hs₃⟩
  · simp only [header]
    rw [← hbase]
    exact hmagic
  · show (MetaData.end_ (soloMem cfg c stamp q g) q.1.base
      - MetaData.next (soloMem cfg c stamp q g) q.1.base) / blockSize c = 0
    rw [hend', hnext', Nat.sub_self, Nat.zero_div]

end Solo

/-- What one call of `init_blocks` makes: as many blocks as were asked
for and the span had left, one after the other from `head` on, linked
in that order up to a null link. -/
def IsRun (cfg : Config) (c maxBlocks head tail count : Nat)
    (r : Multiset Part) : Prop :=
  ∃ (l : List Part) (start : Nat), r = l ∧ ListOf cfg c head l
    ∧ EndsAt l tail
    ∧ l.map header = (List.range count).map (head + · * blockSize c)
    ∧ (∀ p ∈ l, p.kind.origin = some ⟨start, c⟩) ∧ 0 < count
    ∧ count = min ((start + spanTotal c - head) / blockSize c) maxBlocks

theorem IsRun.batch {head tail count : Nat} {r : Multiset Part}
    (h : IsRun cfg c maxBlocks head tail count r) :
    IsBatch cfg c head tail count r := by
  obtain ⟨l, start, rfl, hl, htail, hhead, -, hpos, -⟩ := h
  have hlen : l.length = count := by
    have hmap := congrArg List.length hhead
    rwa [List.length_map, List.length_map, List.length_range] at hmap
  have hne : l ≠ [] := by
    intro hnil
    rw [hnil, List.length_nil] at hlen
    omega
  rw [← hlen]
  exact hl.batch hne htail

/-- What `init_blocks` makes of a span, and how many blocks remain:
nothing, when it was used up; a run of blocks, when that uses it up; or
a run and the span. -/
inductive Carved (cfg : Config) (c a maxBlocks : Nat) :
    Nat × Nat × Nat → Nat → Multiset Part → Prop
  | none {remaining : Nat} : Carved cfg c a maxBlocks (0, 0, 0) remaining 0
  | all {head tail count : Nat} {b : Multiset Part} (ne : head ≠ 0)
      (run : IsRun cfg c maxBlocks head tail count b) :
      Carved cfg c a maxBlocks (head, tail, count) 0 b
  | some {head tail count remaining : Nat} {b r : Multiset Part}
      (ne : head ≠ 0) (run : IsRun cfg c maxBlocks head tail count b)
      (pos : 0 < remaining) (span : IsSpan cfg c a r) :
      Carved cfg c a maxBlocks (head, tail, count) remaining (b + r)

/-- Only a span that was used up gives no block. -/
theorem Carved.eq_zero {head tail count remaining : Nat}
    (h : Carved cfg c a maxBlocks (head, tail, count) remaining r)
    (hz : count = 0) : r = 0 := by
  generalize hout : (head, tail, count) = out at h
  cases h with
  | none => rfl
  | all ne run =>
      cases hout
      exact absurd hz (Nat.pos_iff_ne_zero.1 run.batch.count_pos)
  | some ne run pos span =>
      cases hout
      exact absurd hz (Nat.pos_iff_ne_zero.1 run.batch.count_pos)

/-- The record of a span whose next `n` blocks are gone. -/
theorem SpanOk.advance {n : Nat} {d : Mem} (hok : SpanOk cfg c q)
    (hmulti : iterations c ≠ 1)
    (hle : q.2.base + n * blockSize c ≤ q.1.base + spanTotal c)
    (hlt : q.2.base + n * blockSize c < 2 ^ 64)
    (hs : Space cfg g ({q.1} + ({⟨.rest ⟨q.1.base, c⟩,
      q.2.base + n * blockSize c, q.2.len - n * blockSize c, d⟩} + H))) :
    ∃ q', SpanOk cfg c q' ∧ spanAddr q' = spanAddr q ∧ spanNext q' = spanNext q
      ∧ q'.2.base = q.2.base + n * blockSize c
      ∧ Space cfg (MetaData.setNext q.1.base (q.2.base + n * blockSize c) g)
        ({q'.1} + ({q'.2} + H)) := by
  have hq : q.1 ∈ ({q.1} + ({⟨.rest ⟨q.1.base, c⟩,
      q.2.base + n * blockSize c, q.2.len - n * blockSize c, d⟩} + H) :
      Multiset Part) := by simp
  obtain ⟨hstart, hend⟩ := hok.read_records hs hq
  have hpage := hok.read_nextPage hs hq
  have hnode := hok.read_node hs hq
  have hrec : Records (spanTotal c) { q.1 with data :=
      (MetaData.setNext q.1.base (q.2.base + n * blockSize c) g).mem } :=
    ⟨MetaData.start_setNext.trans hstart, MetaData.end_setNext.trans hend⟩
  have hnew := hok.writeMeta MetaData.only_setNext hrec hs
  have hrest := hok.rest
  have hup := (pageUp_spec (spanTotal c)).1
  refine ⟨({ q.1 with data := (MetaData.setNext q.1.base
      (q.2.base + n * blockSize c) g).mem },
    ⟨.rest ⟨q.1.base, c⟩, q.2.base + n * blockSize c,
      q.2.len - n * blockSize c, d⟩),
    ⟨hok.lt, hok.meta_kind, rfl, ⟨hok.meta_len, hrec⟩, hok.align,
      MetaData.next_setNext hlt, hok.node.imp fun _ hcpu =>
        (MetaData.nodeId_setNext.trans hnode).trans hcpu, ?_, ?_,
      fun hone => absurd hone hmulti⟩, rfl, ?_, rfl, hnew⟩
  · show q.2.base + n * blockSize c + (q.2.len - n * blockSize c)
      = q.1.base + pageUp (spanTotal c)
    omega
  · obtain ⟨k, hk, hbase⟩ := hok.carved
    refine ⟨k + n, ?_, ?_⟩
    · have hblock := blockSize_eq hok.lt
      have hpos : 0 < blockSize c := by omega
      refine Nat.le_of_mul_le_mul_right ?_ hpos
      rw [Nat.add_mul, Nat.mul_comm (spanBlocks c)]
      unfold spanTotal at hle
      omega
    · show q.2.base + n * blockSize c = _
      rw [hbase, Nat.add_mul, Nat.add_assoc]
  · show MetaData.nextPage _ q.1.base = _
    rw [MetaData.nextPage_setNext, hpage]

/-- Blocks of a span with several are cut off its rest. -/
theorem initBlocks_multi {n : Nat} (hok : SpanOk cfg c q)
    (hmulti : iterations c ≠ 1) (hn : 0 < n)
    (hle : q.2.base + n * blockSize c ≤ q.1.base + spanTotal c)
    (hmin : n = min ((q.1.base + spanTotal c - q.2.base) / blockSize c)
      maxBlocks) (hs : Space cfg g ({q.1} + ({q.2} + H))) :
    ∃ head tail g' b q', initLoop cfg c q.2.base (blockSize c) stamp n 0 0 g
        = (head, tail, g')
      ∧ head ≠ 0 ∧ IsRun cfg c maxBlocks head tail n b ∧ SpanOk cfg c q'
      ∧ spanAddr q' = spanAddr q ∧ spanNext q' = spanNext q
      ∧ q'.2.base = q.2.base + n * blockSize c
      ∧ Space cfg (MetaData.setNext q.1.base (q.2.base + n * blockSize c) g')
        ({q'.1} + ({q'.2} + (b + H))) := by
  have hrest := hok.rest
  have hup := (pageUp_spec (spanTotal c)).1
  have hblock := blockSize_eq hok.lt
  have hdvd : 16 ∣ blockSize c := by
    rw [hblock.1]
    exact Nat.dvd_add hblock.2.2.2 (by decide)
  obtain ⟨k, hk, hbase⟩ := hok.carved
  have halign : 16 ∣ q.2.base := by
    have hal := hok.align
    have hmul := Nat.dvd_mul_left_of_dvd hdvd k
    simp only [pageSize, metaDataSize] at hal hbase
    omega
  have hroom : n * blockSize c ≤ q.2.len := by omega
  have hpos : blockSize c ≤ n * blockSize c := Nat.le_mul_of_pos_left _ hn
  have hkn : k + n ≤ spanBlocks c := by
    refine Nat.le_of_mul_le_mul_right (c := blockSize c) ?_ (by omega)
    rw [Nat.add_mul, Nat.mul_comm (spanBlocks c)]
    unfold spanTotal at hle
    omega
  -- the blocks, apart from what stays of the span
  rw [add_left_comm] at hs
  have hlim := hs.end_le (Multiset.mem_add.2
    (Or.inl (Multiset.mem_singleton_self q.2))) (by omega)
  have hcut := hs.cut (n := n * blockSize c)
    (k := q.2.len - n * blockSize c) (by omega)
    (by rw [hok.rest_kind]; rfl)
  rw [hok.rest_kind] at hcut
  have hstart : ListOf cfg c 0 [] := ⟨rfl, fun p hp => absurd hp
    List.not_mem_nil⟩
  rw [← zero_add ({(⟨.rest ⟨q.1.base, c⟩, q.2.base + n * blockSize c, _, _⟩
    : Part)} + ({q.1} + H)), ← Multiset.coe_nil] at hcut
  obtain ⟨l, head, tail, g', heq, hl, htail, ho, hhead, hsp⟩ :=
    initLoop_spec stamp hok.lt hmulti halign hbase n hkn hstart
      nofun
      (fun l₁ p h => absurd h (by simp)) hcut
  rw [List.map_nil, List.append_nil] at hhead
  have hfirst : head = q.2.base := by
    obtain ⟨n', rfl⟩ := Nat.exists_eq_succ_of_ne_zero (Nat.pos_iff_ne_zero.1 hn)
    cases l with
    | nil => simp [List.range_succ_eq_map] at hhead
    | cons p l =>
        rw [List.range_succ_eq_map, List.map_cons, List.map_cons] at hhead
        have h₀ := (List.cons.inj hhead).1
        rw [Nat.zero_mul, Nat.add_zero] at h₀
        rw [← h₀]
        exact hl.1.1.symm
  have hrun : IsRun cfg c maxBlocks head tail n (l : Multiset Part) := by
    refine ⟨l, q.1.base, rfl, hl, htail, ?_, ho, hn, ?_⟩
    · rw [hfirst]
      exact hhead
    · rw [hfirst]
      exact hmin
  have hne : head ≠ 0 := by
    rw [hfirst, hbase]
    simp only [metaDataSize]
    omega
  -- the record of what stays
  have hshift : (l : Multiset Part)
      + ({⟨.rest ⟨q.1.base, c⟩, q.2.base + n * blockSize c,
        q.2.len - n * blockSize c, q.2.data⟩} + ({q.1} + H))
      = {q.1} + ({⟨.rest ⟨q.1.base, c⟩, q.2.base + n * blockSize c,
        q.2.len - n * blockSize c, q.2.data⟩} + (l + H)) := by abel
  rw [hshift] at hsp
  obtain ⟨q', hok', haddr, hnext, hbase', hsp'⟩ :=
    hok.advance hmulti hle (by omega) hsp
  exact ⟨head, tail, g', _, q', heq, hne, hrun, hok', haddr, hnext, hbase',
    hsp'⟩

/-- What nobody needs of a span: nothing, or all that is left when it is
used up. -/
def Spent (cfg : Config) (c : Nat) (r : Multiset Part) : Prop :=
  r = 0 ∨ ∃ q, r = {q.1} + {q.2} ∧ SpanOk cfg c q ∧ UsedUp c q

/-- `init_blocks` on a span, and what it reports as remaining; a span
that is used up leaves its record and its last bytes behind. -/
theorem initBlocks_spec (hr : IsSpan cfg c a r) (hmax : 0 < maxBlocks)
    (hs : Space cfg g (r + H))
    (hout : initBlocks cfg c a (blockSize c) maxBlocks stamp g = out) :
    ∃ r' rest, Space cfg out.2 (rest + (r' + H)) ∧ Spent cfg c rest
      ∧ Carved cfg c a maxBlocks out.1
        (remainingBlocks out.2.mem a (blockSize c)) r' := by
  obtain ⟨q, rfl, rfl, hok, hnext⟩ := hr
  have hend := (hok.read_records hs (by simp)).end_
  have hbase := hok.read_next hs (by simp)
  simp only at hend
  obtain ⟨n, hn, hfull, -⟩ := hok.remaining
  unfold initBlocks remainingBlocks at hout
  dsimp only at hout
  unfold spanAddr at hout ⊢
  rw [hend, hbase, hn] at hout
  split at hout
  · next hz =>
    subst hout
    rw [hz, Nat.zero_mul, Nat.add_zero] at hfull
    refine ⟨0, {q.1} + {q.2}, ?_, Or.inr ⟨q, rfl, hok, hfull.symm⟩, .none⟩
    rw [zero_add]
    exact hs
  · next hpos =>
    rw [add_assoc] at hs
    by_cases hone : iterations c = 1
    · have hblock := blockSize_eq hok.lt
      have hn1 : n = 1 := by
        rw [spanTotal, spanBlocks_of_iterations hok.lt hone, Nat.mul_one,
          hok.whole hone] at hfull
        refine Nat.eq_of_mul_eq_mul_right (m := blockSize c) (by omega) ?_
        omega
      subst hn1
      obtain ⟨p, hp, hlink, ho, hpok, hzero, hsp⟩ :=
        newSolo_space stamp hok hone hs
      rw [Nat.min_eq_left hmax] at hout
      simp only [initLoop, Nat.zero_mul, Nat.add_zero, if_true] at hout
      subst hout
      refine ⟨{p}, 0, ?_, Or.inl rfl, ?_⟩
      · rw [zero_add]
        exact hsp
      have hne : q.2.base ≠ 0 := by
        rw [← hp]
        exact hpok.ne
      have hrun : IsRun cfg c maxBlocks q.2.base q.2.base 1 {p} := by
        refine ⟨[p], q.1.base, rfl, ⟨⟨hp, hlink⟩, fun p' hp' => ?_⟩, ?_, ?_,
          fun p' hp' => ?_, Nat.one_pos, ?_⟩
        · rw [List.mem_singleton] at hp'
          exact hp' ▸ hpok
        · rw [← hp]
          exact EndsAt.single
        · simp [hp]
        · rw [List.mem_singleton] at hp'
          exact hp' ▸ ho
        · rw [hn, Nat.min_eq_left hmax]
      have hall := Carved.all (a := q.1.base) hne hrun
      rw [← hzero] at hall
      exact hall
    · have hcount : 0 < min n maxBlocks := by omega
      have hle : q.2.base + min n maxBlocks * blockSize c
          ≤ q.1.base + spanTotal c := by
        rw [hfull]
        exact Nat.add_le_add_left
          (Nat.mul_le_mul_right _ (Nat.min_le_left _ _)) _
      have hmin : min n maxBlocks = min
          ((q.1.base + spanTotal c - q.2.base) / blockSize c) maxBlocks := by
        rw [hn]
      obtain ⟨head, tail, g', b, q', heq, hne, hrun, hok', haddr, hnext',
        hbase', hsp⟩ := initBlocks_multi stamp hok hone hcount hle hmin hs
      rw [heq] at hout
      dsimp only at hout
      subst hout
      have hrec := (hok'.read_records hsp (by simp)).end_
      have hnext₂ := hok'.read_next hsp (by simp)
      simp only at hrec
      have haddr' : q'.1.base = q.1.base := haddr
      rw [haddr'] at hrec hnext₂
      rw [← add_assoc] at hsp
      rcases Nat.eq_zero_or_pos (remainingBlocks (MetaData.setNext q.1.base
        (q.2.base + min n maxBlocks * blockSize c) g').mem q.1.base
          (blockSize c)) with hrem | hrem
      · refine ⟨b, {q'.1} + {q'.2}, hsp, Or.inr ⟨q', rfl, hok', ?_⟩, ?_⟩
        · obtain ⟨n', hn', hfull', -⟩ := hok'.remaining
          unfold remainingBlocks at hrem
          rw [hrec, hnext₂] at hrem
          rw [haddr', hrem] at hn'
          rw [← hn', Nat.zero_mul, Nat.add_zero] at hfull'
          exact hfull'.symm
        · dsimp only
          rw [hrem]
          exact .all hne hrun
      · refine ⟨b + ({q'.1} + {q'.2}), 0, ?_, Or.inl rfl, .some hne hrun hrem
          ⟨q', rfl, haddr, hok', hnext'.trans hnext⟩⟩
        rw [zero_add, add_comm b, add_assoc]
        exact hsp

/-- `carve` is `init_blocks` on a span the caller owns. -/
theorem carve_inv {s : State} {F : Multiset Part} {maxInit : Nat}
    (hD : ∀ q, UsedUp c q → D c q) (hr : IsSpan cfg c a r) (hmax : 0 < maxInit)
    (h : InvOn cfg D s (r + F))
    (hout : initBlocks cfg c a (blockSize c) maxInit stamp s.ground = out) :
    ∃ r', InvOn cfg D { s with ground := out.2 } (r' + F)
      ∧ Carved cfg c a maxInit out.1
        (remainingBlocks out.2.mem a (blockSize c)) r' := by
  suffices hstep : ∃ A', InvOn cfg D { s with ground := out.2 } (A' + F)
      ∧ ∃ rest r', A' = rest + r' ∧ Spent cfg c rest
        ∧ Carved cfg c a maxInit out.1
          (remainingBlocks out.2.mem a (blockSize c)) r' by
    obtain ⟨A', hinv, rest, r', rfl, hspent, hcarved⟩ := hstep
    rw [add_assoc] at hinv
    refine ⟨r', ?_, hcarved⟩
    rcases hspent with rfl | ⟨q, rfl, hok, hup⟩
    · rwa [zero_add] at hinv
    · exact hinv.retire hok (hD q hup)
  apply InvOn.update h
  · rfl
  · rfl
  · rfl
  · intro H hH
    obtain ⟨r', rest, hsp, hspent, hcarved⟩ :=
      initBlocks_spec stamp hr hmax hH hout
    rw [← add_assoc] at hsp
    exact ⟨rest + r', hsp, rest, r', rfl, hspent, hcarved⟩

end Carving

end RsMalloc.Slab
