/-
What the slab caches own, and how one step trades with them.

# Spans

A span that is not used up is two parts: its `MetaData` and the rest
behind the blocks it has given out (`SpanOk`). When a class has one
block per span, the block takes the whole span with it.

# Places

The places of the slab state are its list words, its slots and the
arenas of each node. `At` says what a place holds: a list word the
blocks linked from it, a slot the spans linked from it. One more place
keeps the spans that nothing points to any more; which spans may end up
there is a parameter (`Fate`), from all of them to only those that are
used up. `InvOn` puts all of this, next to whatever others own, into one
`Space`; each step below exchanges parts with one place and leaves the
others as they are. `LenInv` also says how many blocks each list word
has.
-/
import RsMalloc.Lib.Depot
import RsMalloc.Pages.Proofs
import RsMalloc.Slab.Model

namespace RsMalloc.Slab

variable {cfg : Config} {l : List (Part × Part)} {Q : Multiset Part → Prop}
  {r : Multiset Part} {c : Nat} {q : Part}

-- ================================================================ chains

/-- The blocks of `l` are linked from `h` to `t`. -/
abbrev Chain (h : Nat) (l : List Part) (t : Nat) : Prop :=
  NSeg header link h l t

theorem singleton_add_coe (p : Part) (l : List Part) :
    ({p} : Multiset Part) + l = ((p :: l : List Part) : Multiset Part) := by
  rw [Multiset.singleton_add, Multiset.cons_coe]

-- ================================================================= spans

/-- A span of class `c`: its `MetaData` and the rest behind its blocks.
It was made for the node of some CPU. -/
structure SpanOk (cfg : Config) (c : Nat) (q : Part × Part) : Prop where
  lt : c < numSizeClasses
  meta_kind : q.1.kind = .record ⟨q.1.base, c⟩
  rest_kind : q.2.kind = .rest ⟨q.1.base, c⟩
  record : RecordOk ⟨q.1.base, c⟩ q.1
  align : q.1.base % pageSize = 0
  next : MetaData.next q.1.data q.1.base = q.2.base
  node : ∃ cpu, MetaData.nodeId q.1.data q.1.base
    = nodeForCpu cfg cpu % 2 ^ 16
  rest : q.2.base + q.2.len = q.1.base + pageUp (spanTotal c)
  carved : ∃ k, k ≤ spanBlocks c ∧
    q.2.base = q.1.base + metaDataSize + k * blockSize c
  whole : iterations c = 1 → q.2.base = q.1.base + metaDataSize

/-- Where a span is. -/
def spanAddr (q : Part × Part) : Nat := q.1.base

/-- `next_page` of a span. -/
def spanNext (q : Part × Part) : Nat := MetaData.nextPage q.1.data q.1.base

/-- `node_id` of a span. -/
def spanNode (q : Part × Part) : Nat := MetaData.nodeId q.1.data q.1.base

/-- The parts of spans. -/
def spanParts (l : List (Part × Part)) : Multiset Part :=
  (l.map fun q => ({q.1} + {q.2} : Multiset Part)).sum

@[simp] theorem spanParts_nil : spanParts [] = 0 := rfl

@[simp] theorem spanParts_cons {q : Part × Part} :
    spanParts (q :: l) = {q.1} + {q.2} + spanParts l := by
  simp [spanParts]

theorem mem_spanParts {p : Part} :
    p ∈ spanParts l ↔ ∃ q ∈ l, p = q.1 ∨ p = q.2 := by
  induction l with
  | nil => simp
  | cons a l ih => simp [ih, or_assoc]

theorem record_mem_spanParts {q : Part × Part} (h : q ∈ l) :
    q.1 ∈ spanParts l :=
  mem_spanParts.2 ⟨q, h, Or.inl rfl⟩

theorem SpanOk.metaRange {q : Part × Part} (h : SpanOk cfg c q) :
    q.1.HasRange q.1.base 48 := by
  refine ⟨le_rfl, ?_⟩
  rw [h.record.len]

/-- Spans contain no blocks. -/
theorem headers_spanParts (h : ∀ q ∈ l, ∃ c, SpanOk cfg c q) :
    headers (spanParts l) = 0 := by
  induction l with
  | nil => rfl
  | cons q l ih =>
      obtain ⟨c, hok⟩ := h q (List.mem_cons_self ..)
      rw [spanParts_cons, headers_add, headers_add,
        headers_singleton_of_not (by rw [hok.meta_kind]; rfl),
        headers_singleton_of_not (by rw [hok.rest_kind]; rfl),
        ih fun q' hq => h q' (List.mem_cons_of_mem _ hq)]
      rfl

/-- All blocks of the span are given out. -/
def UsedUp (c : Nat) (q : Part × Part) : Prop :=
  q.2.base = q.1.base + spanTotal c

/-- Which spans of a class may be forgotten. -/
abbrev Fate := Nat → Part × Part → Prop

/-- Forgotten spans, each with its class. -/
def Retired (cfg : Config) (D : Fate) (X : Multiset Part) : Prop :=
  ∃ l : List (Nat × (Part × Part)), X = spanParts (l.map Prod.snd)
    ∧ ∀ e ∈ l, SpanOk cfg e.1 e.2 ∧ D e.1 e.2

theorem Retired.zero {D : Fate} : Retired cfg D 0 :=
  ⟨[], rfl, nofun⟩

theorem Retired.add {D : Fate} {X : Multiset Part} {q : Part × Part}
    (h : Retired cfg D X) (hok : SpanOk cfg c q) (hD : D c q) :
    Retired cfg D (X + ({q.1} + {q.2})) := by
  obtain ⟨l, rfl, hl⟩ := h
  refine ⟨(c, q) :: l, ?_, fun e he => ?_⟩
  · rw [List.map_cons, spanParts_cons, add_comm]
  · rcases List.mem_cons.1 he with rfl | he
    · exact ⟨hok, hD⟩
    · exact hl e he

-- ================================================================ places

/-- Where the slab state keeps parts. -/
inductive Place where
  | list (k : Shelf)
  | spans (k : Slot)
  | arenas (node : Nat)
  | retired
  deriving DecidableEq, Repr

/-- A block of class `c` that is not with a caller. -/
abbrev FreeOk (cfg : Config) (c : Nat) (p : Part) : Prop :=
  Marked cfg c cfg.freedMagic p

/-- The list from `h` holds the free blocks `l` of class `c`. -/
def ListOf (cfg : Config) (c h : Nat) (l : List Part) : Prop :=
  Chain h l 0 ∧ ∀ p ∈ l, FreeOk cfg c p

/-- The slot `k` with head `a` holds the spans `l`. A thread's own slot
holds at most one, a slot of the queue those of its own node. -/
structure SpansOf (cfg : Config) (k : Slot) (a : Nat)
    (l : List (Part × Part)) : Prop where
  chain : NSeg spanAddr spanNext a l 0
  ok : ∀ q ∈ l, SpanOk cfg k.cls q
  single : ∀ t c, k = .bulk t c → l.length ≤ 1
  home : ∀ n c, k = .queue n c →
    ∀ q ∈ l, queueSlot cfg (spanNode q) c = some k

/-- A place of the state holds the parts `X`. -/
def At (cfg : Config) (D : Fate) (s : State) :
    Place → Multiset Part → Prop
  | .list k, X => ∃ l : List Part, X = l ∧ ListOf cfg k.cls (s.list k) l
  | .spans k, X => ∃ l, X = spanParts l ∧ SpansOf cfg k (s.slot k) l
  | .arenas n, X => Pages.ArenasAt cfg s.pages n X
  | .retired, X => Retired cfg D X

/-- The places of `s` and the owners of `R` share all of memory. -/
def InvOn (cfg : Config) (D : Fate) (s : State) (R : Multiset Part) :
    Prop :=
  Stocked (At cfg D) (fun s T => Space cfg s.ground T) s R

/-- The same, when any span may be forgotten. -/
abbrev Inv (cfg : Config) (s : State) (R : Multiset Part) : Prop :=
  InvOn cfg (fun _ _ => True) s R

variable {D : Fate}

/-- Parts that places of the slab state may hold: blocks that are free,
and nothing of a buddy region or a direct mapping. -/
structure Stored (cfg : Config) (C : Multiset Part) : Prop where
  free : ∀ p ∈ C, p.kind.isBlock = true → ∃ c, FreeOk cfg c p
  tile : ∀ p ∈ C, ∀ r, p.kind ≠ .tile r
  direct : ∀ p ∈ C, ∀ aligned, p.kind ≠ .direct aligned
  filled : Filled C

namespace Stored

variable {A B : Multiset Part}

theorem zero : Stored cfg 0 := by
  constructor <;> exact nofun

theorem add (hA : Stored cfg A) (hB : Stored cfg B) :
    Stored cfg (A + B) where
  free p hp := (Multiset.mem_add.1 hp).elim (hA.free p) (hB.free p)
  tile p hp := (Multiset.mem_add.1 hp).elim (hA.tile p) (hB.tile p)
  direct p hp := (Multiset.mem_add.1 hp).elim (hA.direct p) (hB.direct p)
  filled := hA.filled.add hB.filled

theorem sum {S : Finset Place} {C : Place → Multiset Part}
    (h : ∀ k, Stored cfg (C k)) : Stored cfg (∑ k ∈ S, C k) := by
  classical
  induction S using Finset.induction_on with
  | empty => exact zero
  | insert k S hk ih =>
      rw [Finset.sum_insert hk]
      exact (h k).add ih

/-- Spans hold neither blocks nor raw memory. -/
theorem spans (h : ∀ q ∈ l, ∃ c, SpanOk cfg c q) :
    Stored cfg (spanParts l) := by
  have hkind : ∀ p ∈ spanParts l, ∃ o, p.kind = .record o
      ∨ p.kind = .rest o := by
    intro p hp
    obtain ⟨q, hq, rfl | rfl⟩ := mem_spanParts.1 hp
    · obtain ⟨c, hok⟩ := h q hq
      exact ⟨_, Or.inl hok.meta_kind⟩
    · obtain ⟨c, hok⟩ := h q hq
      exact ⟨_, Or.inr hok.rest_kind⟩
  refine ⟨fun p hp hb => ?_, fun p hp r hk => ?_, fun p hp b hk => ?_,
    fun p hp m hk => ?_⟩ <;>
    obtain ⟨o, ho | ho⟩ := hkind p hp <;> simp_all [Kind.isBlock]

/-- What one place holds. -/
theorem of_at {s : State} {k : Place} {X : Multiset Part}
    (h : At cfg D s k X) : Stored cfg X := by
  cases k with
  | list k =>
      obtain ⟨l, rfl, -, hok⟩ := h
      refine ⟨fun p hp _ => ⟨_, hok p hp⟩, fun p hp r hk => ?_,
        fun p hp b hk => ?_, fun p hp m hk => ?_⟩ <;>
        have hb := (hok p hp).isBlock <;> rw [hk] at hb <;> cases hb
  | spans k =>
      obtain ⟨l, rfl, hspans⟩ := h
      exact spans fun q hq => ⟨_, hspans.ok q hq⟩
  | arenas n =>
      obtain ⟨l, hl, rfl⟩ := h
      have hkind : ∀ p ∈ Pages.parts l, ∃ e ∈ l,
          p.kind = .raw (e.page.base, e.size) := by
        intro p hp
        obtain ⟨e, he, rfl | rfl⟩ := Pages.mem_parts.1 hp
        · exact ⟨e, he, (hl.ok e he).page_kind⟩
        · exact ⟨e, he, (hl.ok e he).rest_kind⟩
      refine ⟨fun p hp hb => ?_, fun p hp r hk => ?_, fun p hp b hk => ?_,
        fun p hp m hk => ?_⟩ <;> obtain ⟨e, he, hraw⟩ := hkind p hp
      · rw [hraw] at hb
        cases hb
      · rw [hraw] at hk
        cases hk
      · rw [hraw] at hk
        cases hk
      · refine ⟨e.page, Pages.page_mem_parts he, ?_, ?_⟩
        · rw [(hl.ok e he).page_kind, ← hraw, hk]
        · rw [(hl.ok e he).page_len]
          decide
  | retired =>
      obtain ⟨l, rfl, hl⟩ := h
      refine spans fun q hq => ?_
      obtain ⟨e, he, rfl⟩ := List.mem_map.1 hq
      exact ⟨e.1, (hl e he).1⟩

end Stored

namespace InvOn

variable {s s' : State} {A A' F R : Multiset Part}

/-- A place reads its own words only. -/
theorem at_congr (hl : s'.list = s.list) (hs : s'.slot = s.slot)
    (hp : s'.pages = s.pages) (k : Place) (X : Multiset Part) :
    At cfg D s' k X ↔ At cfg D s k X := by
  cases k with
  | list k => simp only [At, hl]
  | spans k => simp only [At, hs]
  | arenas n => simp only [At, hp]
  | retired => rfl

/-- A step in memory that its owner owns. -/
theorem update (h : InvOn cfg D s (A + F)) (hl : s'.list = s.list)
    (hs : s'.slot = s.slot) (hp : s'.pages = s.pages)
    (hG : ∀ H, Space cfg s.ground (A + H) →
      ∃ A', Space cfg s'.ground (A' + H) ∧ Q A') :
    ∃ A', InvOn cfg D s' (A' + F) ∧ Q A' :=
  Stocked.update h (fun k Y => (at_congr hl hs hp k Y).2) hG

/-- The same, when it is known what becomes of the parts. -/
theorem keep (h : InvOn cfg D s (A + F)) (hl : s'.list = s.list)
    (hs : s'.slot = s.slot) (hp : s'.pages = s.pages)
    (hG : ∀ H, Space cfg s.ground (A + H) → Space cfg s'.ground (A' + H)) :
    InvOn cfg D s' (A' + F) := by
  obtain ⟨_, hinv, rfl⟩ := update (Q := (· = A')) h hl hs hp
    fun H hH => ⟨A', hG H hH, rfl⟩
  exact hinv

/-- A step that touches neither memory nor a place. -/
theorem same (h : InvOn cfg D s R) (hg : s'.ground = s.ground)
    (hl : s'.list = s.list) (hs : s'.slot = s.slot)
    (hp : s'.pages = s.pages) : InvOn cfg D s' R := by
  rw [← zero_add R] at h ⊢
  refine keep h hl hs hp fun H hH => ?_
  rw [hg]
  exact hH

/-- Some space contains what one owns. -/
theorem space (h : InvOn cfg D s R) : ∃ H, Space cfg s.ground (R + H) :=
  Stocked.elim (G := fun (s : State) T => Space cfg s.ground T) h

/-- What is in the places, and how to put it back. -/
theorem places (h : InvOn cfg D s R) :
    ∃ C, Stored cfg C ∧ Space cfg s.ground (C + R) ∧
      ∀ s' R', s'.list = s.list → s'.slot = s.slot → s'.pages = s.pages →
        Space cfg s'.ground (C + R') → InvOn cfg D s' R' := by
  obtain ⟨S, C, hd⟩ := h
  refine ⟨_, ?_, hd.whole, fun s' R' hl hs hp hG =>
    ⟨S, C, hd.outside, fun k => (at_congr hl hs hp k _).2 (hd.place k),
      hG⟩⟩
  exact Stored.sum fun k => Stored.of_at (hd.place k)

/-- A step on one slot. -/
theorem onSlot (k : Slot) (h : InvOn cfg D s (A + F)) (hl : s'.list = s.list)
    (hp : s'.pages = s.pages) (hs : ∀ j, j ≠ k → s'.slot j = s.slot j)
    (hstep : ∀ l H, SpansOf cfg k (s.slot k) l →
      Space cfg s.ground (spanParts l + (A + H)) →
      ∃ l' A', SpansOf cfg k (s'.slot k) l'
        ∧ Space cfg s'.ground (spanParts l' + (A' + H)) ∧ Q A') :
    ∃ A', InvOn cfg D s' (A' + F) ∧ Q A' := by
  refine Stocked.exchange (.spans k) h ?_
  rintro X H ⟨l, rfl, hspans⟩ hG
  obtain ⟨l', A', hspans', hG', hQ⟩ := hstep l H hspans hG
  refine ⟨_, A', ⟨l', rfl, hspans'⟩, hG', hQ, fun j Y hj _ hY => ?_⟩
  cases j with
  | list j =>
      simp only [At, hl] at hY ⊢
      exact hY
  | spans j =>
      have hjk : j ≠ k := fun heq => hj (heq ▸ rfl)
      simp only [At, hs j hjk] at hY ⊢
      exact hY
  | arenas n =>
      simp only [At, hp] at hY ⊢
      exact hY
  | retired => exact hY

/-- A span is put aside. -/
theorem retire {q : Part × Part} (h : InvOn cfg D s ({q.1} + {q.2} + F))
    (hok : SpanOk cfg c q) (hD : D c q) : InvOn cfg D s F := by
  suffices hstep : ∃ A', InvOn cfg D s (A' + F) ∧ A' = 0 by
    obtain ⟨A', hinv, rfl⟩ := hstep
    rwa [zero_add] at hinv
  refine Stocked.exchange .retired h fun X H hX hG => ?_
  refine ⟨X + ({q.1} + {q.2}), 0, hX.add hok hD, ?_, rfl,
    fun _ _ _ _ hY => hY⟩
  rw [zero_add, add_assoc]
  exact hG

end InvOn

-- =============================================================== lengths

/-- A place holds the parts `X`, and a list word as many as its length
says. -/
def AtLen (cfg : Config) (D : Fate) (x : State × (Shelf → Nat)) (k : Place)
    (X : Multiset Part) : Prop :=
  At cfg D x.1 k X ∧ ∀ j, k = .list j → X.card = x.2 j

/-- The invariant, when the list word `k` has `len k` blocks. -/
def LenInv (cfg : Config) (D : Fate) (s : State) (len : Shelf → Nat)
    (R : Multiset Part) : Prop :=
  Stocked (AtLen cfg D) (fun x T => Space cfg x.1.ground T) (s, len) R

/-- The list words have some lengths. -/
theorem InvOn.exists_len {s : State} {R : Multiset Part}
    (h : InvOn cfg D s R) : ∃ len, LenInv cfg D s len R := by
  obtain ⟨S, C, hd⟩ := h
  refine ⟨fun j => (C (.list j)).card, S, C, hd.outside,
    fun k => ⟨hd.place k, fun j hj => ?_⟩, hd.whole⟩
  rw [hj]

namespace LenInv

variable {s s' : State} {len : Shelf → Nat} {A A' F R : Multiset Part}

/-- The lengths may be forgotten. -/
theorem inv (h : LenInv cfg D s len R) : InvOn cfg D s R := by
  obtain ⟨S, C, hd⟩ := h
  exact ⟨S, C, hd.outside, fun k => (hd.place k).1, hd.whole⟩

/-- A step in memory that its owner owns. -/
theorem update (h : LenInv cfg D s len (A + F)) (hl : s'.list = s.list)
    (hs : s'.slot = s.slot) (hp : s'.pages = s.pages)
    (hG : ∀ H, Space cfg s.ground (A + H) →
      ∃ A', Space cfg s'.ground (A' + H) ∧ Q A') :
    ∃ A', LenInv cfg D s' len (A' + F) ∧ Q A' :=
  Stocked.update h
    (fun k Y hY => ⟨(InvOn.at_congr hl hs hp k Y).2 hY.1, hY.2⟩) hG

/-- A step that touches neither memory nor a place. -/
theorem same (h : LenInv cfg D s len R) (hg : s'.ground = s.ground)
    (hl : s'.list = s.list) (hs : s'.slot = s.slot)
    (hp : s'.pages = s.pages) : LenInv cfg D s' len R := by
  rw [← zero_add R] at h
  obtain ⟨A', hinv, rfl⟩ := update (Q := (· = 0)) h hl hs hp
    fun H hH => ⟨0, by rwa [hg], rfl⟩
  rwa [zero_add] at hinv

/-- Some space contains what one owns. -/
theorem space (h : LenInv cfg D s len R) :
    ∃ H, Space cfg s.ground (R + H) := h.inv.space

/-- A step on one list word, which then has `n` blocks. -/
theorem onList (k : Shelf) {n : Nat} (h : LenInv cfg D s len (A + F))
    (hs : s'.slot = s.slot) (hp : s'.pages = s.pages)
    (hl : ∀ j, j ≠ k → s'.list j = s.list j)
    (hstep : ∀ (l : List Part) H, ListOf cfg k.cls (s.list k) l →
      l.length = len k →
      Space cfg s.ground ((l : Multiset Part) + (A + H)) →
      ∃ (l' : List Part) (A' : Multiset Part), l'.length = n
        ∧ ListOf cfg k.cls (s'.list k) l'
        ∧ Space cfg s'.ground ((l' : Multiset Part) + (A' + H)) ∧ Q A') :
    ∃ A', LenInv cfg D s' (Function.update len k n) (A' + F) ∧ Q A' := by
  refine Stocked.exchange (.list k) h ?_
  rintro X H ⟨⟨l, rfl, hlist⟩, hlen⟩ hG
  obtain ⟨l', A', hn, hlist', hG', hQ⟩ := hstep l H hlist (hlen k rfl) hG
  refine ⟨l', A', ⟨⟨l', rfl, hlist'⟩, ?_⟩, hG', hQ,
    fun j Y hj _ hY => ⟨?_, ?_⟩⟩
  · intro j hj
    cases hj
    exact hn.trans (Function.update_self k n len).symm
  · obtain ⟨hY, -⟩ := hY
    cases j with
    | list j =>
        have hjk : j ≠ k := fun heq => hj (heq ▸ rfl)
        simp only [At, hl j hjk] at hY ⊢
        exact hY
    | spans j =>
        simp only [At, hs] at hY ⊢
        exact hY
    | arenas n =>
        simp only [At, hp] at hY ⊢
        exact hY
    | retired => exact hY
  · rintro i rfl
    have hik : i ≠ k := fun heq => hj (heq ▸ rfl)
    exact (hY.2 i rfl).trans (Function.update_of_ne hik ..).symm

end LenInv

-- ============================================================ list steps

variable {l : List Part}

/-- A head of a list fits a word and is null or a header. -/
theorem ListOf.head_bounds {h : Nat} {g : Ground} {T : Multiset Part}
    (hl : ListOf cfg c h l) (hs : Space cfg g T) (hT : ∀ p ∈ l, p ∈ T) :
    h < 2 ^ 64 ∧ (h = 0 ∨ h ∈ g.inited) := by
  obtain ⟨hchain, hok⟩ := hl
  cases l with
  | nil =>
      have hzero : h = 0 := hchain
      exact ⟨by omega, Or.inl hzero⟩
  | cons p l =>
      have hp : header p = h := hchain.1
      have hb := (hok p (List.mem_cons_self ..)).bounds hs
        (hT p (List.mem_cons_self ..))
      rw [hp] at hb
      exact ⟨hb.1, Or.inr hb.2⟩

/-- Only the empty list has the null head. -/
theorem ListOf.head_ne {h : Nat} (hl : ListOf cfg c h l) (hne : l ≠ []) :
    h ≠ 0 := by
  obtain ⟨hchain, hok⟩ := hl
  cases l with
  | nil => exact absurd rfl hne
  | cons p l =>
      have hp : header p = h := hchain.1
      rw [← hp]
      exact (hok p (List.mem_cons_self ..)).ne

/-- A chain of `count` free blocks of class `c` from `start` to `tail`;
the last link may point anywhere. -/
def IsBatch (cfg : Config) (c start tail count : Nat)
    (r : Multiset Part) : Prop :=
  ∃ l q t, r = ((l ++ [q] : List Part) : Multiset Part)
    ∧ Chain start (l ++ [q]) t ∧ header q = tail ∧ count = l.length + 1
    ∧ ∀ p ∈ l ++ [q], FreeOk cfg c p

/-- One block of class `c`. -/
def IsBlock (cfg : Config) (c h : Nat) (r : Multiset Part) : Prop :=
  ∃ q, r = {q} ∧ header q = h ∧ BlockOk cfg c q

/-- One block of class `c` whose header shows the magic `v`. -/
def IsMarked (cfg : Config) (c v h : Nat) (r : Multiset Part) : Prop :=
  ∃ q, r = {q} ∧ header q = h ∧ Marked cfg c v q

/-- One free block of class `c`. -/
abbrev IsFree (cfg : Config) (c h : Nat) (r : Multiset Part) : Prop :=
  IsMarked cfg c cfg.freedMagic h r

theorem IsMarked.block {v h : Nat} (hb : IsMarked cfg c v h r) :
    IsBlock cfg c h r := by
  obtain ⟨q, hr, hq, hok⟩ := hb
  exact ⟨q, hr, hq, hok.toBlockOk⟩

theorem IsBatch.count_pos {start tail count : Nat}
    (h : IsBatch cfg c start tail count r) : 0 < count := by
  obtain ⟨l, q, t, -, -, -, hcount, -⟩ := h
  omega

theorem IsBatch.single {start tail : Nat} (h : IsBatch cfg c start tail 1 r) :
    IsFree cfg c start r := by
  obtain ⟨l, q, t, rfl, hchain, -, hcount, hok⟩ := h
  have hl : l = [] := List.length_eq_zero_iff.1 (by omega)
  subst hl
  exact ⟨q, rfl, hchain.1, hok q (List.mem_singleton_self q)⟩

theorem IsMarked.batch {h : Nat} (hb : IsFree cfg c h r) :
    IsBatch cfg c h h 1 r := by
  obtain ⟨q, rfl, hq, hok⟩ := hb
  refine ⟨[], q, link q, rfl, ⟨hq, rfl⟩, hq, rfl, fun p hp => ?_⟩
  rw [List.nil_append, List.mem_singleton] at hp
  exact hp ▸ hok

/-- The last block of the list has the header `tail`. -/
def EndsAt (l : List Part) (tail : Nat) : Prop :=
  ∀ l₁ q, l = l₁ ++ [q] → header q = tail

theorem EndsAt.single : EndsAt [q] (header q) := by
  intro l₁ q' heq
  have hlast := congrArg List.getLast? heq
  simp only [List.getLast?_singleton, List.getLast?_append,
    Option.some_or, Option.some.injEq] at hlast
  rw [hlast]

theorem EndsAt.cons {tail : Nat} (h : EndsAt l tail) (hne : l ≠ []) :
    EndsAt (q :: l) tail := by
  intro l₁ q' heq
  cases l₁ with
  | nil =>
      rw [List.nil_append, List.cons.injEq] at heq
      exact absurd heq.2 hne
  | cons p l₁ =>
      rw [List.cons_append, List.cons.injEq] at heq
      exact h l₁ q' heq.2

/-- A list that is not empty is a batch. -/
theorem ListOf.batch {h tail : Nat} (hl : ListOf cfg c h l) (hne : l ≠ [])
    (htail : EndsAt l tail) :
    IsBatch cfg c h tail l.length (l : Multiset Part) := by
  rcases List.eq_nil_or_concat' l with rfl | ⟨l₁, q, rfl⟩
  · exact absurd rfl hne
  · refine ⟨l₁, q, 0, rfl, hl.1, htail l₁ q rfl, ?_, hl.2⟩
    rw [List.length_append, List.length_singleton]

section Lists

variable {s : State} {len : Shelf → Nat} {F r H : Multiset Part}
  {c h start tail count : Nat}

/-- Relinking the last block of a held batch. -/
theorem relink_space {g : Ground} {v : Nat} (hok : FreeOk cfg c q)
    (hv : v < 2 ^ 64) (hvr : v = 0 ∨ v ∈ g.inited)
    (hs : Space cfg g (((l ++ [q] : List Part) : Multiset Part) + H)) :
    ∃ q', header q' = header q ∧ link q' = v ∧ FreeOk cfg c q'
      ∧ Space cfg (Header.setNext (header q) v g)
        (((l ++ [q'] : List Part) : Multiset Part) + H) := by
  rw [← Multiset.coe_add, Multiset.coe_singleton,
    show (l : Multiset Part) + {q} + H = {q} + (l + H) by abel] at hs
  have hq : q ∈ {q} + ((l : Multiset Part) + H) := by simp
  have hblock := blockSize_eq hok.lt
  simp only [headerSize] at hblock
  obtain ⟨hok', hnew⟩ := hok.write hs
    (Header.only_setNext (h := header q) (v := v)) le_rfl (by omega)
    (by rw [Header.cls_setNext]; exact hok.cls_eq hs hq)
    (by rw [Header.next_setNext hv]; exact hvr)
  refine ⟨{ q with data := (Header.setNext (header q) v g).mem }, rfl,
    Header.next_setNext hv, ⟨hok', ?_⟩, ?_⟩
  · exact Header.magic_setNext.trans ((hok.magic_eq hs hq).trans hok.magic)
  rw [← Multiset.coe_add, Multiset.coe_singleton, add_assoc, add_left_comm]
  exact hnew

section Push

variable {k : Shelf} (hb : IsBatch cfg k.cls start tail count r)
include hb

/-- A chain is put in front of a list, which grows by its blocks. -/
theorem pushChain_list {l₀ : List Part} (hl₀ : ListOf cfg k.cls (s.list k) l₀)
    (hsp : Space cfg s.ground ((l₀ : Multiset Part) + (r + H))) :
    ∃ l : List Part, l.length = count + l₀.length
      ∧ ListOf cfg k.cls start l
      ∧ Space cfg (pushChain k start tail s).2.ground (l + (0 + H)) := by
  obtain ⟨l, q, t, rfl, hchain, rfl, hcount, hok⟩ := hb
  have hmem : ∀ p ∈ l₀, p ∈ (l₀ : Multiset Part)
      + (((l ++ [q] : List Part) : Multiset Part) + H) := by
    intro p hp
    simp [hp]
  obtain ⟨hv, hvr⟩ := hl₀.head_bounds hsp hmem
  rw [add_left_comm] at hsp
  obtain ⟨q', haddr, hlink, hok', hsp'⟩ :=
    relink_space (hok q (by simp)) hv hvr hsp
  have hchain' := hchain.replace_last q' haddr
  refine ⟨(l ++ [q']) ++ l₀, ?_, ⟨?_, fun p hp => ?_⟩, ?_⟩
  · simp only [List.length_append, List.length_singleton]
    omega
  · refine NSeg.append_iff.2 ⟨s.list k, ?_, hl₀.1⟩
    rw [← hlink]
    exact hchain'
  · rcases List.mem_append.1 hp with hp | hp
    · rcases List.mem_append.1 hp with hp | hp
      · exact hok p (by simp [hp])
      · rw [List.mem_singleton] at hp
        exact hp ▸ hok'
    · exact hl₀.2 p hp
  · rw [zero_add, ← Multiset.coe_add, add_assoc]
    exact hsp'

/-- A push adds the blocks of the chain. -/
theorem LenInv.pushChain (h : LenInv cfg D s len (r + F)) :
    LenInv cfg D (Slab.pushChain k start tail s).2
      (Function.update len k (count + len k)) F := by
  suffices hstep : ∃ A', LenInv cfg D (Slab.pushChain k start tail s).2
      (Function.update len k (count + len k)) (A' + F) ∧ A' = 0 by
    obtain ⟨A', hinv, rfl⟩ := hstep
    rwa [zero_add] at hinv
  refine h.onList k rfl rfl (fun j hj => Function.update_of_ne hj _ _) ?_
  intro l₀ H hl₀ hlen hsp
  obtain ⟨l, hcount, hl, hsp'⟩ := pushChain_list hb hl₀ hsp
  have hhead : (Slab.pushChain k start tail s).2.list k = start :=
    Function.update_self ..
  refine ⟨l, 0, ?_, ?_, hsp', rfl⟩
  · rw [hcount, hlen]
  · rw [hhead]
    exact hl

theorem pushChain_inv (h : InvOn cfg D s (r + F)) :
    InvOn cfg D (pushChain k start tail s).2 F := by
  obtain ⟨len, hlen⟩ := h.exists_len
  exact (hlen.pushChain hb).inv

end Push

/-- The walk of a pop stops at a block of the list, with the rest of
the list behind it. -/
theorem walkBatch_spec {m : Mem} (n count : Nat) (hchain : Chain (link q) l 0)
    (hread : ∀ p ∈ l, Header.next m (header p) = link p) :
    ∃ l₁ q' l₂, q :: l = (l₁ ++ [q']) ++ l₂
      ∧ walkBatch m n (header q) (link q) count
        = (header q', link q', count + l₁.length)
      ∧ Chain (link q') l₂ 0 ∧ l₁.length ≤ n := by
  induction n generalizing q l count with
  | zero => exact ⟨[], q, l, rfl, rfl, hchain, le_rfl⟩
  | succ n ih =>
      unfold walkBatch
      split
      · next hz => exact ⟨[], q, l, rfl, rfl, hchain, Nat.zero_le _⟩
      · next hz =>
        obtain ⟨p, l', rfl, hp, hrest⟩ := hchain.exists_cons hz
        rw [← hp, hread p (List.mem_cons_self ..)]
        obtain ⟨l₁, q', l₂, heq, hwalk, hch, hlen⟩ := ih (count + 1)
          hrest (fun x hx => hread x (List.mem_cons_of_mem _ hx))
        refine ⟨q :: l₁, q', l₂, ?_, ?_, hch, ?_⟩
        · rw [heq, List.cons_append, List.cons_append]
        · rw [hwalk, List.length_cons, Nat.add_assoc, Nat.add_comm 1]
        · rw [List.length_cons]
          omega

/-- A pop takes a batch of at most the size asked for off the front of a
list that is not empty. -/
theorem popBatch_list {k : Shelf} (batchSize : Nat) (hne : s.list k ≠ 0)
    (hl : ListOf cfg k.cls (s.list k) l)
    (hsp : Space cfg s.ground ((l : Multiset Part) + (0 + H))) :
    let w := walkBatch s.ground.mem (batchSize - 1) (s.list k)
      (Header.next s.ground.mem (s.list k)) 1
    ∃ (l' : List Part) (r : Multiset Part), l.length = w.2.2 + l'.length
      ∧ ListOf cfg k.cls w.2.1 l'
      ∧ Space cfg s.ground ((l' : Multiset Part) + (r + H))
      ∧ w.2.2 ≤ max batchSize 1
      ∧ IsBatch cfg k.cls (s.list k) w.1 w.2.2 r := by
  intro w
  obtain ⟨q, l', rfl, hq, hrest⟩ := hl.1.exists_cons hne
  have hmem : ∀ p ∈ q :: l', p ∈ ((q :: l' : List Part) : Multiset Part)
      + (0 + H) := fun p hp => Multiset.mem_add.2 (Or.inl hp)
  have hread : ∀ p ∈ q :: l', Header.next s.ground.mem (header p)
      = link p := fun p hp => (hl.2 p hp).next_eq hsp (hmem p hp)
  obtain ⟨l₁, q', l₂, heq, hwalk, hch, hlen⟩ :=
    walkBatch_spec (m := s.ground.mem) (batchSize - 1) 1 hrest
      (fun p hp => hread p (List.mem_cons_of_mem _ hp))
  have hw : w = (header q', link q', 1 + l₁.length) := by
    show walkBatch _ _ _ _ _ = _
    rw [← hq, hread q (List.mem_cons_self ..), hwalk]
  have hchain : Chain (s.list k) (l₁ ++ [q']) (link q') := by
    have hall := hl.1
    rw [heq] at hall
    obtain ⟨m, h₁, h₂⟩ := NSeg.append_iff.1 hall
    obtain ⟨m', h₃, h₄, -⟩ := NSeg.append_iff.1 h₁
    exact NSeg.append_iff.2 ⟨m', h₃, h₄, rfl⟩
  rw [hw]
  refine ⟨l₂, ((l₁ ++ [q'] : List Part) : Multiset Part), ?_,
    ⟨hch, fun p hp => hl.2 p (by rw [heq]; simp [hp])⟩, ?_, ?_,
    l₁, q', link q', rfl, hchain, rfl, Nat.add_comm 1 _, fun p hp => ?_⟩
  · rw [heq]
    simp only [List.length_append, List.length_singleton]
    omega
  · rw [heq, ← Multiset.coe_add] at hsp
    rw [zero_add] at hsp
    rw [add_left_comm, ← add_assoc]
    exact hsp
  · dsimp only
    omega
  · refine hl.2 p ?_
    rw [heq]
    exact List.mem_append_left _ hp

/-- A pop finds nothing, or takes a batch of at most the size asked
for. -/
theorem LenInv.popBatch (k : Shelf) (batchSize : Nat) (h : LenInv cfg D s len F) :
    Slab.popBatch k batchSize s = (none, s)
    ∨ ∃ b s', Slab.popBatch k batchSize s = (some b, s')
      ∧ s'.usage = s.usage ∧ b.head ≠ 0 ∧ b.count ≤ max batchSize 1
      ∧ b.count ≤ len k
      ∧ ∃ r, LenInv cfg D s' (Function.update len k (len k - b.count))
          (r + F)
        ∧ IsBatch cfg k.cls b.head b.tail b.count r := by
  unfold Slab.popBatch
  dsimp only
  split
  · exact Or.inl rfl
  · next hne =>
    rw [← zero_add F] at h
    set w := walkBatch s.ground.mem (batchSize - 1) (s.list k)
      (Header.next s.ground.mem (s.list k)) 1 with hw
    suffices hstep : ∃ r, LenInv cfg D (s.setList k w.2.1)
        (Function.update len k (len k - w.2.2)) (r + F)
        ∧ w.2.2 ≤ max batchSize 1 ∧ w.2.2 ≤ len k
        ∧ IsBatch cfg k.cls (s.list k) w.1 w.2.2 r by
      obtain ⟨r, hinv, hcount, hle, hbatch⟩ := hstep
      exact Or.inr ⟨_, _, rfl, rfl, hne, hcount, hle, r, hinv, hbatch⟩
    refine h.onList k rfl rfl (fun j hj => Function.update_of_ne hj _ _) ?_
    intro l H hl hlen hsp
    obtain ⟨l', r, hsplit, hl', hsp', hcount, hbatch⟩ :=
      popBatch_list batchSize hne hl hsp
    have hhead : (s.setList k w.2.1).list k = w.2.1 :=
      Function.update_self ..
    rw [← hw] at hsplit hl' hcount hbatch
    refine ⟨l', r, by omega, ?_, hsp', hcount, by omega, hbatch⟩
    rw [hhead]
    exact hl'

/-- What a pop answers: nothing and no change, or a batch of at most
the size asked for. -/
theorem popBatch_inv (k : Shelf) (batchSize : Nat) (h : InvOn cfg D s F) :
    popBatch k batchSize s = (none, s)
    ∨ ∃ b s', popBatch k batchSize s = (some b, s')
      ∧ b.count ≤ max batchSize 1 ∧ b.head ≠ 0
      ∧ ∃ r, InvOn cfg D s' (r + F)
        ∧ IsBatch cfg k.cls b.head b.tail b.count r := by
  obtain ⟨len, hlen⟩ := h.exists_len
  rcases hlen.popBatch k batchSize with hnone | ⟨b, s', hsome, -, hne,
    hcount, -, r, hinv, hb⟩
  · exact Or.inl hnone
  · exact Or.inr ⟨b, s', hsome, hcount, hne, r, hinv.inv, hb⟩

/-- A whole list is taken. -/
theorem detach_inv (k : Shelf) (h : InvOn cfg D s F) :
    ∃ r, InvOn cfg D (detach k s).2 (r + F)
      ∧ ∃ l : List Part, r = l ∧ ListOf cfg k.cls (detach k s).1 l := by
  rw [← zero_add F] at h
  obtain ⟨len, hlen⟩ := h.exists_len
  suffices hstep : ∃ r, LenInv cfg D (detach k s).2
      (Function.update len k 0) (r + F)
      ∧ ∃ l : List Part, r = l ∧ ListOf cfg k.cls (detach k s).1 l by
    obtain ⟨r, hinv, hl⟩ := hstep
    exact ⟨r, hinv.inv, hl⟩
  refine hlen.onList k rfl rfl (fun j hj => Function.update_of_ne hj _ _) ?_
  intro l H hl _ hsp
  refine ⟨[], l, rfl, ⟨?_, nofun⟩, ?_, l,
    rfl, hl⟩
  · exact Function.update_self ..
  · rw [Multiset.coe_nil, zero_add]
    rw [zero_add] at hsp
    exact hsp

/-- An interrupted push has linked the last block to some list. -/
theorem torn_list {k : Shelf} {l₀ : List Part}
    (hb : IsBatch cfg c start tail count r)
    (hl₀ : ListOf cfg k.cls (s.list k) l₀)
    (hsp : Space cfg s.ground ((l₀ : Multiset Part) + (r + H))) :
    ∃ r', Space cfg (s.onGround (Header.setNext tail (s.list k))).ground
        ((l₀ : Multiset Part) + (r' + H))
      ∧ IsBatch cfg c start tail count r' := by
  obtain ⟨l, q, t, rfl, hchain, rfl, hcount, hok⟩ := hb
  obtain ⟨hv, hvr⟩ := hl₀.head_bounds hsp fun p hp =>
    Multiset.mem_add.2 (Or.inl hp)
  rw [add_left_comm] at hsp
  obtain ⟨q', haddr, hlink, hok', hsp'⟩ :=
    relink_space (hok q (by simp)) hv hvr hsp
  refine ⟨_, ?_, l, q', _, rfl, hchain.replace_last q' haddr, haddr,
    hcount, fun p hp => ?_⟩
  · rw [add_left_comm]
    exact hsp'
  · rcases List.mem_append.1 hp with hp | hp
    · exact hok p (List.mem_append.2 (Or.inl hp))
    · rw [List.mem_singleton] at hp
      exact hp ▸ hok'

/-- An interrupted push keeps all lengths. -/
theorem LenInv.torn (k : Shelf) (hb : IsBatch cfg c start tail count r)
    (h : LenInv cfg D s len (r + F)) :
    ∃ r', LenInv cfg D (s.onGround (Header.setNext tail (s.list k))) len
        (r' + F)
      ∧ IsBatch cfg c start tail count r' := by
  have hstep : ∃ r', LenInv cfg D
      (s.onGround (Header.setNext tail (s.list k)))
      (Function.update len k (len k)) (r' + F)
      ∧ IsBatch cfg c start tail count r' := by
    refine h.onList k rfl rfl (fun j _ => rfl) ?_
    intro l₀ H hl₀ hlen hsp
    obtain ⟨r', hsp', hb'⟩ := torn_list hb hl₀ hsp
    exact ⟨l₀, r', hlen, hl₀, hsp', hb'⟩
  rwa [Function.update_eq_self] at hstep

theorem torn_inv (k : Shelf) (hb : IsBatch cfg c start tail count r)
    (h : InvOn cfg D s (r + F)) :
    ∃ r', InvOn cfg D (s.onGround (Header.setNext tail (s.list k))) (r' + F)
      ∧ IsBatch cfg c start tail count r' := by
  obtain ⟨len, hlen⟩ := h.exists_len
  obtain ⟨r', hinv, hb'⟩ := hlen.torn k hb
  exact ⟨r', hinv.inv, hb'⟩

/-- The owner of a block links it to an address of its own choice. -/
theorem LenInv.relink {v : Nat} (hok : FreeOk cfg c q) (hv : v < 2 ^ 64)
    (hvr : v = 0 ∨ v ∈ s.ground.inited) (h : LenInv cfg D s len ({q} + F)) :
    ∃ r, LenInv cfg D (s.onGround (Header.setNext (header q) v)) len (r + F)
      ∧ ∃ q', r = {q'} ∧ header q' = header q ∧ link q' = v
        ∧ FreeOk cfg c q' := by
  apply LenInv.update h
  · rfl
  · rfl
  · rfl
  · intro H hH
    have hH' : Space cfg s.ground ((([] ++ [q] : List Part) : Multiset Part)
        + H) := hH
    obtain ⟨q', haddr, hlink, hok', hsp⟩ := relink_space hok hv hvr hH'
    exact ⟨{q'}, hsp, q', rfl, haddr, hlink, hok'⟩

theorem relink_inv {v : Nat} (hok : FreeOk cfg c q) (hv : v < 2 ^ 64)
    (hvr : v = 0 ∨ v ∈ s.ground.inited) (h : InvOn cfg D s ({q} + F)) :
    ∃ r, InvOn cfg D (s.onGround (Header.setNext (header q) v)) (r + F)
      ∧ ∃ q', r = {q'} ∧ header q' = header q ∧ link q' = v
        ∧ FreeOk cfg c q' := by
  obtain ⟨len, hlen⟩ := h.exists_len
  obtain ⟨r, hinv, hq⟩ := hlen.relink hok hv hvr
  exact ⟨r, hinv.inv, hq⟩

end Lists

-- ================================================================= edits

/-- A change of memory inside `[a, a + n)` that keeps the class and the
link of the block at `h`. -/
structure Edit (h a n : Nat) (f : Ground → Ground) : Prop where
  mem : ∀ g, f g = { g with mem := (f g).mem }
  only : ∀ g, Mem.Only a n g.mem (f g).mem
  cls : ∀ g, Header.cls (f g).mem h = Header.cls g.mem h
  next : ∀ g, Header.next (f g).mem h = Header.next g.mem h

namespace Edit

variable {h a n v : Nat} {f f' : Ground → Ground}

theorem comp (hf : Edit h a n f) (hf' : Edit h a n f') :
    Edit h a n (fun g => f' (f g)) where
  mem g := by rw [hf'.mem (f g), hf.mem g]
  only g := (hf.only g).trans (hf'.only _)
  cls g := (hf'.cls _).trans (hf.cls g)
  next g := (hf'.next _).trans (hf.next g)

theorem setFlags : Edit h h 16 (Header.setFlags h v) :=
  ⟨fun _ => rfl, fun _ => Header.only_setFlags,
    fun _ => Header.cls_setFlags, fun _ => Header.next_setFlags⟩

theorem setMagic : Edit h h 16 (Header.setMagic h v) :=
  ⟨fun _ => rfl, fun _ => Header.only_setMagic,
    fun _ => Header.cls_setMagic, fun _ => Header.next_setMagic⟩

theorem setLifeTime : Edit h h 16 (Header.setLifeTime h v) :=
  ⟨fun _ => rfl, fun _ => Header.only_setLifeTime,
    fun _ => Header.cls_setLifeTime, fun _ => Header.next_setLifeTime⟩

/-- Discarding behind the header. -/
theorem discard (keep : Nat → Bool) (ha : h + 16 ≤ a) :
    Edit h a n (Ground.discard keep a n) :=
  ⟨fun _ => rfl, Ground.only_discard keep a n,
    fun g => (Ground.only_discard keep a n g).load (Or.inl (by omega)),
    fun g => (Ground.only_discard keep a n g).load (Or.inl (by omega))⟩

section Edits

variable {cfg : Config} {s : State} {F r : Multiset Part} {c : Nat}
  (hf : Edit h a n f) (ha : h ≤ a) (hn : a + n ≤ h + blockSize c)
include hf ha hn

/-- The owner of a block edits it; it then holds what the memory
shows. -/
theorem inv (hb : IsBlock cfg c h r) (hinv : InvOn cfg D s (r + F)) :
    ∃ r', InvOn cfg D (s.onGround f) (r' + F)
      ∧ ∃ q, r' = {q} ∧ header q = h ∧ BlockOk cfg c q
        ∧ q.data = (f s.ground).mem := by
  obtain ⟨q, rfl, rfl, hok⟩ := hb
  apply InvOn.update hinv
  · rfl
  · rfl
  · rfl
  · intro H hH
    have hq : q ∈ {q} + H := by simp
    obtain ⟨hok', hnew⟩ := hok.write hH (hf.only s.ground) ha hn
      (by rw [hf.cls]; exact hok.cls_eq hH hq)
      (by rw [hf.next, hok.next_eq hH hq]; exact hH.links q hq hok.isBlock)
    refine ⟨{{ q with data := (f s.ground).mem }}, ?_, _, rfl, rfl, hok', rfl⟩
    show Space cfg (f s.ground) _
    rw [hf.mem]
    exact hnew

/-- An edit that marks the block. -/
theorem inv_marks (hv : ∀ g, Header.magic (f g).mem h = v % 2 ^ 16)
    (hb : IsBlock cfg c h r) (hinv : InvOn cfg D s (r + F)) :
    ∃ r', InvOn cfg D (s.onGround f) (r' + F) ∧ IsMarked cfg c v h r' := by
  obtain ⟨r', hinv', q, hr, rfl, hok, hdata⟩ := hf.inv ha hn hb hinv
  refine ⟨r', hinv', q, hr, rfl, hok, ?_⟩
  rw [hdata]
  exact hv s.ground

/-- An edit that leaves the mark of the block alone. -/
theorem inv_keeps
    (hmagic : ∀ g, Header.magic (f g).mem h = Header.magic g.mem h)
    (hb : IsMarked cfg c v h r) (hinv : InvOn cfg D s (r + F)) :
    ∃ r', InvOn cfg D (s.onGround f) (r' + F) ∧ IsMarked cfg c v h r' := by
  obtain ⟨p, rfl, rfl, hp⟩ := id hb
  obtain ⟨H, hH⟩ := hinv.space
  obtain ⟨r', hinv', q, hr, hq, hok, hdata⟩ := hf.inv ha hn hb.block hinv
  refine ⟨r', hinv', q, hr, hq, hok, ?_⟩
  rw [hdata, hq, hmagic]
  exact (hp.magic_eq hH (by simp)).trans hp.magic

end Edits

end Edit

end RsMalloc.Slab
