/-
The whole of memory, as the parts somebody owns.

# Parts

All memory the allocator accounts for is cut into labelled pieces. The
label says what the bytes are: fresh memory of an arena, pages handed
out for a span of slabs, the `MetaData` of such a span, the rest of it,
a block of it, a block of a buddy region, a mapping of its own. What
belongs to a span carries the span's origin. A slab block that is alone
in its span is one part with the span's `MetaData` in front of it
(`solo`), so that its owner may also rewrite that record and let the
block grow.

# Blocks

`BlockOk cfg c p`: the part is a block of class `c`. Its header shows
the class, it has the bytes the class needs, and it sits at a block
boundary of the span it came from. The record in front of a block that
is alone says that the span ends with it. `RecordOk o p`: the record of
a span with several blocks says where the span starts and ends.

# The space

`Space cfg g T`: the parts `T` are apart and hold what the memory
shows, they lie in mappings, which are apart too, the ownership map knows exactly the chunks
that callers may ask about, every span that was handed out is cut into
parts of `T`, and the headers that were ever initialised are exactly
those of the slab blocks in `T`. No block is linked to anything else.
The rules below say how mapping,
cutting, writing and registering memory change `T`; the parts of others
are never looked at.
-/
import Mathlib.Data.List.Pairwise
import Mathlib.Tactic.Abel
import RsMalloc.Ground.Fields
import RsMalloc.Lib.Pieces

namespace RsMalloc

-- ================================================================= parts

/-- What the bytes of a part are. -/
inductive Kind where
  /-- Of a mapping, and known to no table. -/
  | raw (m : Nat × Nat)
  /-- Handed out as a span, and not yet registered. -/
  | fresh (o : Origin)
  /-- A registered span without its `MetaData`. -/
  | span (o : Origin)
  /-- The `MetaData` of a span. -/
  | record (o : Origin)
  /-- The rest of a span behind its blocks. -/
  | rest (o : Origin)
  /-- Handed out for a span to grow into, and not yet registered. -/
  | more (o : Origin)
  /-- A slab block of a span with several. -/
  | block (o : Origin)
  /-- A slab block with the whole span it is alone in. -/
  | solo (o : Origin)
  /-- A block of a buddy region. -/
  | tile (region : Nat)
  /-- A mapping of its own. -/
  | direct (aligned : Bool)
  deriving DecidableEq, Repr

/-- A part of memory with its contents. -/
abbrev Part := Piece Kind

/-- Slab blocks. -/
def Kind.isBlock : Kind → Bool
  | .block _ => true
  | .solo _ => true
  | _ => false

/-- Parts that promise nothing about their contents. -/
def Kind.isPlain : Kind → Bool
  | .record _ => false
  | .block _ => false
  | .solo _ => false
  | _ => true

theorem Kind.isBlock_of_plain {k : Kind} (h : k.isPlain = true) :
    k.isBlock = false := by
  cases k <;> first | rfl | cases h

/-- Parts that may be cut anywhere. -/
def Kind.divides : Kind → Bool
  | .raw _ => true
  | .rest _ => true
  | .tile _ => true
  | _ => false

theorem Kind.plain_of_divides {k : Kind} (h : k.divides = true) :
    k.isPlain = true := by
  cases k <;> first | rfl | cases h

/-- The span a part belongs to. -/
def Kind.origin : Kind → Option Origin
  | .fresh o => some o
  | .span o => some o
  | .record o => some o
  | .rest o => some o
  | .more o => some o
  | .block o => some o
  | .solo o => some o
  | _ => none

/-- Where the `Header` of a block is. -/
def header (p : Part) : Nat :=
  match p.kind with
  | .solo _ => p.base + metaDataSize
  | _ => p.base

/-- The ownership map has to know the address `x` of the part: all of
it, but only the first chunk of an unaligned mapping. -/
def Tracks (p : Part) (x : Nat) : Prop :=
  match p.kind with
  | .raw _ => False
  | .fresh _ => False
  | .more _ => False
  | .direct false => x / 4096 = p.base / 4096
  | _ => True

/-- The headers of the slab blocks among the parts. -/
def headers (T : Multiset Part) : Multiset Nat :=
  (T.filter fun p => p.kind.isBlock = true).map header

section Headers

variable {A B : Multiset Part} {p q : Part}

@[simp] theorem headers_zero : headers 0 = 0 := rfl

@[simp] theorem headers_add : headers (A + B) = headers A + headers B := by
  rw [headers, Multiset.filter_add, Multiset.map_add]
  rfl

theorem headers_singleton_of_block (h : p.kind.isBlock = true) :
    headers {p} = {header p} := by
  rw [headers, Multiset.filter_singleton, if_pos h, Multiset.map_singleton]

theorem headers_singleton_of_not (h : p.kind.isBlock = false) :
    headers {p} = 0 := by
  rw [headers, Multiset.filter_singleton, if_neg (by simp [h])]
  rfl

theorem headers_of_not (h : ∀ p ∈ A, p.kind.isBlock = false) :
    headers A = 0 := by
  rw [headers, Multiset.filter_eq_nil.2 fun p hp => by simp [h p hp]]
  rfl

/-- A part with other contents has the same header. -/
theorem header_congr (hk : q.kind = p.kind) (hb : q.base = p.base) :
    header q = header p := by
  rw [header, header, hk, hb]

theorem headers_congr (hk : q.kind = p.kind) (hb : q.base = p.base) :
    headers {q} = headers {p} := by
  cases h : p.kind.isBlock with
  | true =>
      rw [headers_singleton_of_block h,
        headers_singleton_of_block (hk ▸ h), header_congr hk hb]
  | false =>
      rw [headers_singleton_of_not h, headers_singleton_of_not (hk ▸ h)]

end Headers

theorem pageUp_spec (n : Nat) :
    n ≤ pageUp n ∧ pageUp n < n + pageSize ∧ pageUp n % pageSize = 0 := by
  simp only [pageUp, pageSize]
  omega

-- ================================================================ blocks

/-- The link of a block. -/
def link (p : Part) : Nat := Header.next p.data (header p)

/-- The bytes of a block of class `c`, with the span when it is alone
in it. -/
def extent (c : Nat) : Nat :=
  if iterations c = 1 then pageUp (spanTotal c) else blockSize c

/-- The label of a block of class `c` from the span `o`. -/
def blockKind (c : Nat) (o : Origin) : Kind :=
  if iterations c = 1 then .solo o else .block o

theorem blockKind_isBlock (c : Nat) (o : Origin) :
    (blockKind c o).isBlock = true := by
  unfold blockKind
  split <;> rfl

/-- A block of class `c` sits at a block boundary of its span. Only a
block that is alone in its span may have grown out of the class it was
made for. -/
structure Sits (c : Nat) (o : Origin) (p : Part) : Prop where
  cls : o.cls < numSizeClasses
  index : ∃ i, i < spanBlocks o.cls
    ∧ header p = o.start + metaDataSize + i * blockSize o.cls
  several : iterations c ≠ 1 → o.cls = c
  alone : iterations c = 1 → iterations o.cls = 1 ∧ p.base = o.start

/-- The record at the start of a part says that a span of `n` bytes
starts there. -/
structure Records (n : Nat) (p : Part) : Prop where
  start : MetaData.start p.data p.base = p.base
  end_ : MetaData.end_ p.data p.base = p.base + n

/-- A block of class `c`. -/
structure BlockOk (cfg : Config) (c : Nat) (p : Part) : Prop where
  lt : c < numSizeClasses
  ne : header p ≠ 0
  origin : ∃ o, p.kind = blockKind c o ∧ Sits c o p
  len : p.len = extent c
  cls : Header.cls p.data (header p) = c
  align : 16 ∣ header p
  record : iterations c = 1 → Records (spanTotal c) p
    ∧ MetaData.next p.data p.base = p.base + spanTotal c

namespace BlockOk

variable {cfg : Config} {c : Nat} {p : Part}

theorem isBlock (h : BlockOk cfg c p) : p.kind.isBlock = true := by
  obtain ⟨o, hkind, -⟩ := h.origin
  rw [hkind]
  exact blockKind_isBlock c o

/-- A block that is alone in its span, from what its record and its
header say. -/
theorem ofAlone {o : Origin} {base : Nat} {m : Mem}
    (hc : c < numSizeClasses) (hone : iterations c = 1)
    (ho : o.cls < numSizeClasses) (hone' : iterations o.cls = 1)
    (hbase : base = o.start)
    (hcls : Header.cls m (base + metaDataSize) = c)
    (halign : 16 ∣ base + metaDataSize)
    (hrec : Records (spanTotal c)
      ⟨.solo o, base, pageUp (spanTotal c), m⟩)
    (hnext : MetaData.next m base = base + spanTotal c) :
    BlockOk cfg c ⟨.solo o, base, pageUp (spanTotal c), m⟩ := by
  refine ⟨hc, ?_, ⟨o, ?_, ho, ⟨0, ?_, ?_⟩, fun hne => absurd hone hne,
    fun _ => ⟨hone', hbase⟩⟩, ?_, hcls, halign, fun _ => ⟨hrec, hnext⟩⟩
  · simp only [header, metaDataSize]
    omega
  · rw [blockKind, if_pos hone]
  · rw [spanBlocks_of_iterations ho hone']
    exact Nat.one_pos
  · rw [Nat.zero_mul, ← hbase]
    rfl
  · rw [extent, if_pos hone]

/-- The block contains its header and the payload of its class. -/
theorem range (h : BlockOk cfg c p) :
    p.HasRange (header p) (blockSize c) := by
  have htotal : metaDataSize + blockSize c ≤ spanTotal c := by
    have hone := (spanTotal_bounds h.lt).1
    have hmul := Nat.mul_le_mul_left (blockSize c) hone
    unfold spanTotal
    omega
  have hup := (pageUp_spec (spanTotal c)).1
  have hlen := h.len
  obtain ⟨o, hkind, -⟩ := h.origin
  unfold extent at hlen
  unfold blockKind at hkind
  unfold Piece.HasRange header
  split at hkind
  · next hone =>
    rw [if_pos hone] at hlen
    rw [hkind]
    simp only [metaDataSize] at htotal ⊢
    omega
  · next hone =>
    rw [if_neg hone] at hlen
    rw [hkind]
    simp only
    omega

theorem headerRange (h : BlockOk cfg c p) : p.HasRange (header p) 16 := by
  have hr := h.range
  have hb := blockSize_eq h.lt
  simp only [headerSize] at hb
  unfold Piece.HasRange at hr ⊢
  omega

theorem has_header (h : BlockOk cfg c p) : p.Has (header p) := by
  have hr := h.headerRange
  unfold Piece.HasRange at hr
  exact ⟨hr.1, by omega⟩

/-- A block that is alone has its header behind the record. -/
theorem header_alone (h : BlockOk cfg c p) (hone : iterations c = 1) :
    header p = p.base + metaDataSize := by
  obtain ⟨o, hkind, -⟩ := h.origin
  rw [blockKind, if_pos hone] at hkind
  rw [header, hkind]

/-- The block may be rewritten from its header on, the class
excepted. -/
theorem rewrite (h : BlockOk cfg c p) {m : Mem}
    (hm : ∀ x, p.base ≤ x → x < header p → m x = p.data x)
    (hcls : Header.cls m (header p) = c) :
    BlockOk cfg c { p with data := m } := by
  obtain ⟨o, hkind, hsits⟩ := h.origin
  refine ⟨h.lt, h.ne, ⟨o, hkind, hsits.1, hsits.2, hsits.3, hsits.4⟩, h.len,
    hcls, h.align, fun hone => ?_⟩
  obtain ⟨⟨hstart, hend⟩, hnext⟩ := h.record hone
  have hhead := h.header_alone hone
  simp only [metaDataSize] at hhead
  have hload : ∀ k, k + 8 ≤ 48 → Mem.load 8 m (p.base + k)
      = Mem.load 8 p.data (p.base + k) := fun k hk =>
    Mem.load_congr fun x h₁ h₂ => hm x (by omega) (by omega)
  exact ⟨⟨(hload 8 (by omega)).trans hstart, (hload 16 (by omega)).trans hend⟩,
    (hload 24 (by omega)).trans hnext⟩

end BlockOk

/-- A block of class `c` whose header shows the magic `v`. -/
structure Marked (cfg : Config) (c v : Nat) (p : Part) : Prop
    extends BlockOk cfg c p where
  magic : Header.magic p.data (header p) = v % 2 ^ 16

/-- The record of a span with several blocks. -/
structure RecordOk (o : Origin) (p : Part) : Prop where
  len : p.len = metaDataSize
  records : Records (spanTotal o.cls) p

/-- The part is what its label promises. -/
def Sound (cfg : Config) (p : Part) : Prop :=
  match p.kind with
  | .record o => RecordOk o p
  | .block _ => ∃ c, BlockOk cfg c p
  | .solo _ => ∃ c, BlockOk cfg c p
  | _ => True

namespace Sound

variable {cfg : Config} {c : Nat} {p : Part} {o : Origin}

theorem plain (h : p.kind.isPlain = true) : Sound cfg p := by
  unfold Kind.isPlain at h
  unfold Sound
  split <;> simp_all

theorem record (hk : p.kind = .record o) (h : RecordOk o p) :
    Sound cfg p := by
  rw [Sound, hk]
  exact h

theorem block (h : BlockOk cfg c p) : Sound cfg p := by
  have hb := h.isBlock
  unfold Kind.isBlock at hb
  unfold Sound
  split <;> simp_all
  · exact ⟨c, h⟩
  · exact ⟨c, h⟩

theorem blockOk (h : Sound cfg p) (hb : p.kind.isBlock = true) :
    ∃ c, BlockOk cfg c p := by
  unfold Kind.isBlock at hb
  unfold Sound at h
  split at h <;> simp_all

end Sound

-- ============================================================= the space

/-- Some part has to be known at the chunk of `x`. -/
def Claimed (T : Multiset Part) (x : Nat) : Prop :=
  ∃ p ∈ T, ∃ y, p.Has y ∧ Tracks p y ∧ y / 4096 = x / 4096

theorem claimed_add {A B : Multiset Part} {x : Nat} :
    Claimed (A + B) x ↔ Claimed A x ∨ Claimed B x := by
  unfold Claimed
  simp only [Multiset.mem_add, or_and_right, exists_or]

/-- The address lies in the span. -/
def Span.Has (e : Span) (x : Nat) : Prop :=
  e.origin.start ≤ x ∧ x < e.origin.start + e.len

/-- Two spans have no address in common. -/
def Span.Apart (e e' : Span) : Prop := ∀ x, e.Has x → ¬ e'.Has x

/-- The part lies in the span it belongs to. -/
def Within (spans : List Span) (o : Origin) (p : Part) : Prop :=
  ∃ n, ⟨o, n⟩ ∈ spans ∧ o.start ≤ p.base ∧ p.base + p.len ≤ o.start + n

/-- The part lies in what its label names. -/
def Housed (g : Ground) (p : Part) : Prop :=
  match p.kind with
  | .raw m => m ∈ g.maps ∧ m.1 ≤ p.base ∧ p.base + p.len ≤ m.1 + m.2
  | .fresh o => ⟨o, p.len⟩ ∈ g.spans ∧ p.base = o.start
  | .span o => ⟨o, p.len⟩ ∈ g.spans ∧ p.base = o.start
  | .record o => Within g.spans o p ∧ p.base = o.start
  | .rest o => Within g.spans o p ∧ o.start < p.base
  | .more o => Within g.spans o p ∧ o.start < p.base
  | .block o => Within g.spans o p
  | .solo o => Within g.spans o p
  | .tile _ => True
  | .direct _ => (p.base, p.len) ∈ g.maps

namespace Housed

variable {g g' : Ground} {p q : Part} {o : Origin}

/-- The tables may only grow. -/
theorem mono (h : Housed g p) (hm : ∀ m ∈ g.maps, m ∈ g'.maps)
    (hs : ∀ e ∈ g.spans, e ∈ g'.spans) : Housed g' p := by
  have hwith : ∀ o, Within g.spans o p → Within g'.spans o p :=
    fun o ⟨n, hn, hin⟩ => ⟨n, hs _ hn, hin⟩
  unfold Housed at h ⊢
  split at h
  · exact ⟨hm _ h.1, h.2⟩
  · exact ⟨hs _ h.1, h.2⟩
  · exact ⟨hs _ h.1, h.2⟩
  · exact ⟨hwith _ h.1, h.2⟩
  · exact ⟨hwith _ h.1, h.2⟩
  · exact ⟨hwith _ h.1, h.2⟩
  · exact hwith _ h
  · exact hwith _ h
  · trivial
  · exact hm _ h

/-- A part of a span lies in it. -/
theorem within (h : Housed g p) (ho : p.kind.origin = some o) :
    Within g.spans o p := by
  have hwhole : ⟨o, p.len⟩ ∈ g.spans ∧ p.base = o.start →
      Within g.spans o p :=
    fun ⟨hmem, hbase⟩ => ⟨p.len, hmem, hbase.ge, by rw [hbase]⟩
  unfold Housed at h
  unfold Kind.origin at ho
  split at h <;> simp_all

/-- A part of a part that may be cut is housed as well. -/
theorem sub (h : Housed g p) (hk : q.kind = p.kind)
    (hd : p.kind.divides = true) (hb : p.base ≤ q.base)
    (hl : q.base + q.len ≤ p.base + p.len) : Housed g q := by
  unfold Kind.divides at hd
  unfold Housed at h ⊢
  rw [hk]
  split at hd
  · next m hm =>
    rw [hm] at h ⊢
    exact ⟨h.1, h.2.1.trans hb, hl.trans h.2.2⟩
  · next o ho =>
    rw [ho] at h ⊢
    obtain ⟨⟨n, hn, hlo, hhi⟩, hlt⟩ := h
    exact ⟨⟨n, hn, hlo.trans hb, hl.trans hhi⟩, hlt.trans_le hb⟩
  · next r hr => rw [hr]; trivial
  · cases hd

theorem congr (h : Housed g p) (hk : q.kind = p.kind)
    (hb : q.base = p.base) (hl : q.len = p.len) : Housed g q := by
  unfold Housed Within at h ⊢
  rw [hk, hb, hl]
  exact h

end Housed

/-- The spans that were handed out are apart and cut into parts. -/
structure Spanned (spans : List Span) (T : Multiset Part) : Prop where
  filled : ∀ e ∈ spans, ∀ x, e.Has x →
    ∃ p ∈ T, p.kind.origin = some e.origin ∧ p.Has x
  apart : spans.Pairwise Span.Apart

variable {spans : List Span}

/-- The parts `A` of spans are cut into `A'`. -/
theorem Spanned.replace {A A' F : Multiset Part} (h : Spanned spans (A + F))
    (hkept : ∀ q ∈ A, ∀ x, q.Has x → ∀ o, q.kind.origin = some o →
      ∃ p ∈ A', p.Has x ∧ p.kind.origin = some o) :
    Spanned spans (A' + F) where
  filled e he x hx := by
    obtain ⟨q, hq, ho, hqx⟩ := h.filled e he x hx
    rcases Multiset.mem_add.1 hq with hq | hq
    · obtain ⟨p, hp, hpx, hpo⟩ := hkept q hq x hqx e.origin ho
      exact ⟨p, Multiset.mem_add.2 (Or.inl hp), hpo, hpx⟩
    · exact ⟨q, Multiset.mem_add.2 (Or.inr hq), ho, hqx⟩
  apart := h.apart

/-- No mapping is empty, and two have no address in common. -/
structure MapsApart (maps : List (Nat × Nat)) : Prop where
  pos : ∀ e ∈ maps, 0 < e.2
  pairs : maps.Pairwise fun e e' => e.1 + e.2 ≤ e'.1 ∨ e'.1 + e'.2 ≤ e.1

/-- The block is linked to nothing, or to a header that was initialised
at some time. -/
def Linked (g : Ground) (p : Part) : Prop := link p = 0 ∨ link p ∈ g.inited

theorem Linked.mono {g g' : Ground} {p : Part} (h : Linked g p)
    (hin : ∀ a ∈ g.inited, a ∈ g'.inited) : Linked g' p :=
  h.imp_right (hin _)

/-- The parts `T` are what the state `g` holds. -/
structure Space (cfg : Config) (g : Ground) (T : Multiset Part) :
    Prop where
  holds : Holds g.mem T
  mapped : ∀ p ∈ T, ∀ x, p.Has x → Mapped g.maps x
  user : ∀ x, Mapped g.maps x → pageSize ≤ x ∧ x < userLimit
  apart : MapsApart g.maps
  tree : ∃ r, g.radix = ⟨some r⟩
  owned : ∀ x, x < 2 ^ 56 →
    (g.radix.isOwned x = some true ↔ Claimed T x)
  inited : (g.inited : Multiset Nat) = headers T
  links : ∀ p ∈ T, p.kind.isBlock = true → Linked g p
  sound : ∀ p ∈ T, Sound cfg p
  housed : ∀ p ∈ T, Housed g p
  spanned : Spanned g.spans T

/-- A mapping with an empty part among `T` also has one that is not. -/
def Filled (T : Multiset Part) : Prop :=
  ∀ p ∈ T, ∀ m, p.kind = .raw m → ∃ q ∈ T, q.kind = .raw m ∧ 0 < q.len

theorem Filled.add {A B : Multiset Part} (hA : Filled A) (hB : Filled B) :
    Filled (A + B) := by
  intro p hp m hm
  rcases Multiset.mem_add.1 hp with hp | hp
  · obtain ⟨q, hq, hqm⟩ := hA p hp m hm
    exact ⟨q, Multiset.mem_add.2 (Or.inl hq), hqm⟩
  · obtain ⟨q, hq, hqm⟩ := hB p hp m hm
    exact ⟨q, Multiset.mem_add.2 (Or.inr hq), hqm⟩

/-- The parts `A` may be cut into `A'`: nothing new is covered or
claimed, and nothing that is claimed or belongs to a span is lost. -/
structure Recuts (A A' : Multiset Part) : Prop where
  old : ∀ p ∈ A', ∀ x, p.Has x →
    ∃ q ∈ A, q.Has x ∧ (Tracks p x → Tracks q x)
  kept : ∀ q ∈ A, ∀ x, q.Has x → (∀ m, q.kind ≠ .raw m) →
    ∃ p ∈ A', p.Has x ∧ (Tracks q x → Tracks p x)
      ∧ p.kind.origin = q.kind.origin

namespace Recuts

variable {A A' : Multiset Part} {p q : Part}

theorem claimed (h : Recuts A A') {x : Nat} :
    Claimed A' x ↔ Claimed A x := by
  constructor
  · rintro ⟨p, hp, y, hy, ht, hxy⟩
    obtain ⟨q, hq, hqy, hqt⟩ := h.old p hp y hy
    exact ⟨q, hq, y, hqy, hqt ht, hxy⟩
  · rintro ⟨q, hq, y, hy, ht, hxy⟩
    have hraw : ∀ m, q.kind ≠ .raw m := by
      intro m hk
      rw [Tracks, hk] at ht
      exact ht
    obtain ⟨p, hp, hpy, hpt, -⟩ := h.kept q hq y hy hraw
    exact ⟨p, hp, y, hpy, hpt ht, hxy⟩

theorem spanned (h : Recuts A A') {F : Multiset Part}
    (hs : Spanned spans (A + F)) : Spanned spans (A' + F) := by
  refine hs.replace fun q hq x hx o ho => ?_
  have hraw : ∀ m, q.kind ≠ .raw m := by
    intro m hk
    rw [hk] at ho
    cases ho
  obtain ⟨p, hp, hpx, -, hpo⟩ := h.kept q hq x hx hraw
  exact ⟨p, hp, hpx, hpo.trans ho⟩

/-- One part takes the place of another. -/
theorem single (hb : q.base = p.base) (hl : q.len = p.len)
    (ht : ∀ x, Tracks q x ↔ Tracks p x)
    (ho : q.kind.origin = p.kind.origin) :
    Recuts {p} {q} := by
  have hhas : ∀ x, q.Has x ↔ p.Has x := by
    intro x
    rw [Piece.Has, Piece.Has, hb, hl]
  refine ⟨fun r hr x hx => ?_, fun r hr x hx _ => ?_⟩ <;>
    rw [Multiset.mem_singleton] at hr <;> subst hr
  · exact ⟨p, Multiset.mem_singleton_self p, (hhas x).1 hx, (ht x).1⟩
  · exact ⟨q, Multiset.mem_singleton_self q, (hhas x).2 hx, (ht x).2, ho⟩

variable {r : Part}

/-- Two neighbours become one part. -/
theorem join (hbase : q.base = p.base + p.len) (hb : r.base = p.base)
    (hl : r.len = p.len + q.len)
    (ht : ∀ x, Tracks r x → Tracks p x ∧ Tracks q x)
    (hp : (∀ m, p.kind ≠ .raw m) →
      (∀ x, Tracks r x) ∧ r.kind.origin = p.kind.origin)
    (hq : (∀ m, q.kind ≠ .raw m) →
      (∀ x, Tracks r x) ∧ r.kind.origin = q.kind.origin) :
    Recuts ({p} + {q}) {r} := by
  refine ⟨fun s hs x hx => ?_, fun s hs x hx hraw => ?_⟩
  · rw [Multiset.mem_singleton] at hs
    subst hs
    have h₁ := hx.1
    have h₂ := hx.2
    by_cases hlt : x < p.base + p.len
    · exact ⟨p, by simp, ⟨by omega, hlt⟩, fun h => (ht x h).1⟩
    · exact ⟨q, by simp, ⟨by omega, by omega⟩, fun h => (ht x h).2⟩
  · refine ⟨r, Multiset.mem_singleton_self r, ?_⟩
    have h₁ := hx.1
    have h₂ := hx.2
    rcases mem_singleton_pair.1 hs with rfl | rfl
    · exact ⟨⟨by omega, by omega⟩, fun _ => (hp hraw).1 x, (hp hraw).2⟩
    · exact ⟨⟨by omega, by omega⟩, fun _ => (hq hraw).1 x, (hq hraw).2⟩

/-- One part becomes two neighbours. -/
theorem halves (hb : q.base = p.base) (hbase : r.base = p.base + q.len)
    (hl : q.len + r.len = p.len)
    (ht : ∀ s ∈ ({q} + {r} : Multiset Part),
      (∀ x, Tracks s x ↔ Tracks p x) ∧ s.kind.origin = p.kind.origin) :
    Recuts {p} ({q} + {r}) := by
  refine ⟨fun s hs x hx => ?_, fun s hs x hx _ => ?_⟩
  · refine ⟨p, Multiset.mem_singleton_self p, ?_, ((ht s hs).1 x).1⟩
    have h₁ := hx.1
    have h₂ := hx.2
    rcases mem_singleton_pair.1 hs with rfl | rfl <;>
      exact ⟨by omega, by omega⟩
  · rw [Multiset.mem_singleton] at hs
    subst hs
    have h₁ := hx.1
    have h₂ := hx.2
    have hin : ∀ u ∈ ({q} + {r} : Multiset Part), u.Has x → ∃ u ∈ ({q} + {r}
        : Multiset Part), u.Has x ∧ (Tracks s x → Tracks u x)
          ∧ u.kind.origin = s.kind.origin := fun u hu hux =>
      ⟨u, hu, hux, ((ht u hu).1 x).2, (ht u hu).2⟩
    by_cases hlt : x < s.base + q.len
    · exact hin q (by simp) ⟨by omega, by omega⟩
    · exact hin r (by simp) ⟨by omega, by omega⟩

end Recuts

namespace Space

/-- Before anything is mapped there are no parts. -/
theorem new {cfg : Config} (m : Mem) :
    Space cfg ⟨m, [], RadixMap.RadixTree.new, [], []⟩ 0 := by
  refine ⟨⟨fun x => Nat.zero_le _, ?_⟩, ?_, ?_,
    ⟨by simp, List.Pairwise.nil⟩, ⟨_, rfl⟩, fun x hx => ?_, rfl, ?_, ?_, ?_,
    ?_, List.Pairwise.nil⟩
  · exact nofun
  · exact nofun
  · rintro x ⟨e, he, -⟩
    exact absurd he List.not_mem_nil
  · rw [RadixMap.RadixTree.new, RadixMap.isOwned_eq hx,
      RadixMap.owns_new]
    refine ⟨nofun, ?_⟩
    rintro ⟨p, hp, -⟩
    exact absurd hp (Multiset.notMem_zero p)
  · exact nofun
  · exact nofun
  · exact nofun
  · exact nofun

variable {cfg : Config} {g g' : Ground} {A A' F T : Multiset Part}
  {p q : Part} {m : Mem} {a n v w x : Nat}

theorem blocks (h : Space cfg g T) (hp : p ∈ T)
    (hb : p.kind.isBlock = true) : ∃ c, BlockOk cfg c p :=
  (h.sound p hp).blockOk hb

/-- An address of a part lies in user space. -/
theorem bounds (h : Space cfg g T) (hp : p ∈ T) (hx : p.Has x) :
    pageSize ≤ x ∧ x < userLimit :=
  h.user x (h.mapped p hp x hx)

/-- A part ends in user space. -/
theorem end_le (h : Space cfg g T) (hp : p ∈ T) (hpos : 0 < p.len) :
    p.base + p.len ≤ 2 ^ 47 := by
  have hb := (h.bounds hp (x := p.base + p.len - 1)
    ⟨by omega, by omega⟩).2
  simp only [userLimit] at hb
  omega

/-- The owner of `A` writes inside `A` and cuts it into `A'`; headers
are added to the history as blocks appear. -/
theorem recut (h : Space cfg g (A + F)) (hm : Holds g'.mem (A' + F))
    (hmaps : g'.maps = g.maps) (hradix : g'.radix = g.radix)
    (hspans : g'.spans = g.spans)
    (hin : (g'.inited : Multiset Nat) + headers A
      = g.inited + headers A')
    (hmono : ∀ a ∈ g.inited, a ∈ g'.inited)
    (hcut : Recuts A A')
    (hlinks : ∀ p ∈ A', p.kind.isBlock = true → Linked g' p)
    (hsound : ∀ p ∈ A', Sound cfg p)
    (hhouse : ∀ p ∈ A', Housed g p) :
    Space cfg g' (A' + F) where
  holds := hm
  mapped p hp x hx := by
    rw [hmaps]
    rcases Multiset.mem_add.1 hp with hp | hp
    · obtain ⟨q, hq, hqx, -⟩ := hcut.old p hp x hx
      exact h.mapped q (Multiset.mem_add.2 (Or.inl hq)) x hqx
    · exact h.mapped p (Multiset.mem_add.2 (Or.inr hp)) x hx
  user x hx := h.user x (hmaps ▸ hx)
  apart := hmaps ▸ h.apart
  tree := by
    rw [hradix]
    exact h.tree
  owned x hx := by
    rw [hradix, h.owned x hx, claimed_add, claimed_add, hcut.claimed]
  inited := by
    rw [h.inited, headers_add] at hin
    rw [headers_add]
    refine add_right_cancel (b := headers A) ?_
    rw [hin]
    abel
  links p hp hb := by
    rcases Multiset.mem_add.1 hp with hp | hp
    · exact hlinks p hp hb
    · exact (h.links p (Multiset.mem_add.2 (Or.inr hp)) hb).mono hmono
  sound p hp := by
    rcases Multiset.mem_add.1 hp with hp | hp
    · exact hsound p hp
    · exact h.sound p (Multiset.mem_add.2 (Or.inr hp))
  housed p hp := by
    rcases Multiset.mem_add.1 hp with hp | hp
    · exact (hhouse p hp).mono (by rw [hmaps]; exact fun _ h => h)
        (by rw [hspans]; exact fun _ h => h)
    · exact (h.housed p (Multiset.mem_add.2 (Or.inr hp))).mono
        (by rw [hmaps]; exact fun _ h => h)
        (by rw [hspans]; exact fun _ h => h)
  spanned := by
    rw [hspans]
    exact hcut.spanned h.spanned

/-- `recut` into one part. -/
theorem recutOne (h : Space cfg g (A + F)) (hm : Holds g'.mem ({q} + F))
    (hmaps : g'.maps = g.maps) (hradix : g'.radix = g.radix)
    (hspans : g'.spans = g.spans)
    (hin : (g'.inited : Multiset Nat) + headers A = g.inited + headers {q})
    (hmono : ∀ a ∈ g.inited, a ∈ g'.inited) (hcut : Recuts A {q})
    (hlink : q.kind.isBlock = true → Linked g' q) (hsound : Sound cfg q)
    (hhouse : Housed g q) : Space cfg g' ({q} + F) := by
  refine h.recut hm hmaps hradix hspans hin hmono hcut ?_ ?_ ?_ <;>
    intro r hr <;> rw [Multiset.mem_singleton] at hr <;> subst hr
  · exact hlink
  · exact hsound
  · exact hhouse

/-- Writing inside one part. -/
theorem update (h : Space cfg g ({p} + F))
    (hm : Holds m ({q} + F)) (hk : q.kind = p.kind)
    (hb : q.base = p.base) (hl : q.len = p.len)
    (hlink : q.kind.isBlock = true → Linked g q) (hok : Sound cfg q) :
    Space cfg { g with mem := m } ({q} + F) := by
  refine h.recutOne hm rfl rfl rfl ?_ (fun _ ha => ha)
    (.single hb hl (fun x => ?_) (by rw [hk])) hlink hok
    ((h.housed p mem_singleton_add_self).congr hk hb hl)
  · rw [headers_congr hk hb]
  · rw [Tracks, Tracks, hk, hb]

/-- Writing inside a window of one part; its contents are then those of
the memory, and it has to keep its promise. -/
theorem rewriteSound (h : Space cfg g ({p} + F))
    (hm : Mem.Only a n g.mem m) (hr : p.HasRange a n)
    (hlink : p.kind.isBlock = true → Linked g { p with data := m })
    (hok : Sound cfg { p with data := m }) :
    Space cfg { g with mem := m } ({{ p with data := m }} + F) := by
  refine h.update (h.holds.update rfl rfl (fun x hx => ?_) fun _ _ => rfl)
    rfl rfl rfl hlink hok
  refine hm x fun hin => hx ⟨?_, ?_⟩
  · exact hr.1.trans hin.1
  · exact hin.2.trans_le hr.2

/-- The same for a part that promises nothing. -/
theorem rewrite (h : Space cfg g ({p} + F)) (hm : Mem.Only a n g.mem m)
    (hr : p.HasRange a n) (hk : p.kind.isPlain = true) :
    Space cfg { g with mem := m } ({{ p with data := m }} + F) :=
  h.rewriteSound hm hr
    (fun hb => by rw [Kind.isBlock_of_plain hk] at hb; cases hb) (.plain hk)

/-- A word of a part reads as the part says. -/
theorem load_eq (h : Space cfg g T) (hp : p ∈ T) (hr : p.HasRange a w) :
    Mem.load w g.mem a = Mem.load w p.data a := by
  obtain ⟨T', rfl⟩ := Multiset.exists_cons_of_mem hp
  have hheld := h.holds
  rw [← Multiset.singleton_add] at hheld
  exact hheld.load_eq hr

/-- Parts that no table knows and parts without bytes may be
forgotten. -/
theorem drop (h : Space cfg g (A + F))
    (hA : ∀ p ∈ A, (∃ m, p.kind = .raw m)
      ∨ p.kind.isBlock = false ∧ p.len = 0) :
    Space cfg g F := by
  have hm : Holds g.mem (0 + F) := by
    rw [zero_add]
    exact h.holds.drop
  have hnone : headers A = 0 := by
    refine headers_of_not fun p hp => ?_
    rcases hA p hp with ⟨m, hk⟩ | ⟨hk, -⟩
    · rw [hk]
      rfl
    · exact hk
  have h' : Space cfg g (0 + F) := by
    refine h.recut hm rfl rfl rfl (by rw [hnone, headers_zero])
      (fun _ ha => ha) ⟨nofun, fun q hq x hx hraw => ?_⟩ nofun nofun nofun
    rcases hA q hq with ⟨m, hk⟩ | ⟨-, hlen⟩
    · exact absurd hk (hraw m)
    · have h₁ := hx.1
      have h₂ := hx.2
      omega
  rwa [zero_add] at h'

/-- Cut a part in two. -/
theorem cut (h : Space cfg g ({p} + F)) {n k : Nat} (hn : p.len = n + k)
    (ht : p.kind.divides = true) :
    Space cfg g ({⟨p.kind, p.base, n, p.data⟩}
      + ({⟨p.kind, p.base + n, k, p.data⟩} + F)) := by
  have hplain := Kind.plain_of_divides ht
  have hp := Kind.isBlock_of_plain hplain
  have hm := h.holds.cut hn
  rw [← add_assoc] at hm ⊢
  -- both halves are labelled as the whole and lie inside it
  have hsub : ∀ q ∈ ({⟨p.kind, p.base, n, p.data⟩} : Multiset Part)
      + {⟨p.kind, p.base + n, k, p.data⟩}, q.kind = p.kind
      ∧ p.base ≤ q.base ∧ q.base + q.len ≤ p.base + p.len := by
    intro q hq
    rcases mem_singleton_pair.1 hq with rfl | rfl
    · exact ⟨rfl, le_rfl, by simp only; omega⟩
    · exact ⟨rfl, by simp only; omega, by simp only; omega⟩
  have htracks : ∀ q : Part, q.kind = p.kind → ∀ x,
      Tracks q x ↔ Tracks p x := by
    intro q hq x
    unfold Kind.divides at ht
    unfold Tracks
    rw [hq]
    split <;> simp_all
  refine h.recut hm rfl rfl rfl ?_ (fun _ ha => ha) (.halves rfl rfl hn.symm
    fun q hq => ⟨htracks q (hsub q hq).1, by rw [(hsub q hq).1]⟩)
    (fun q hq hb => ?_) (fun q hq => ?_) fun q hq => ?_
  · rw [headers_add, headers_singleton_of_not hp,
      headers_singleton_of_not (p := ⟨p.kind, p.base, n, p.data⟩) hp,
      headers_singleton_of_not (p := ⟨p.kind, p.base + n, k, p.data⟩) hp,
      zero_add]
  · rw [(hsub q hq).1, hp] at hb
    cases hb
  · refine Sound.plain ?_
    rw [(hsub q hq).1]
    exact hplain
  · obtain ⟨hk, h₁, h₂⟩ := hsub q hq
    exact (h.housed p mem_singleton_add_self).sub hk ht h₁ h₂

variable {o : Origin}

/-- The `MetaData` of a span is written, and the span is cut behind
it. -/
theorem record (h : Space cfg g ({p} + F)) (hk : p.kind = .span o)
    (hm : Mem.Only p.base metaDataSize g.mem m) (hl : metaDataSize ≤ p.len)
    (hok : RecordOk o ⟨.record o, p.base, metaDataSize, m⟩) :
    Space cfg { g with mem := m } ({⟨.record o, p.base, metaDataSize, m⟩}
      + ({⟨.rest o, p.base + metaDataSize, p.len - metaDataSize, m⟩}
        + F)) := by
  have hhouse := h.housed p (by simp)
  rw [Housed, hk] at hhouse
  have hin : p.HasRange p.base metaDataSize := ⟨le_rfl, by omega⟩
  rw [← add_assoc]
  refine h.recut ?_ rfl rfl rfl ?_ (fun _ ha => ha)
    (.halves rfl rfl (Nat.add_sub_cancel' hl) fun q hq => ?_)
    (fun q hq hb => ?_) (fun q hq => ?_) fun q hq => ?_
  · refine h.holds.replace (fun x => ?_) (fun x hx => ?_) fun q hq x hx => ?_
    · rw [cover_add, cover_singleton, cover_singleton, cover_singleton]
      split
      · next h₁ =>
        rw [if_neg fun h₂ => absurd h₁.2 (Nat.not_lt.2 h₂.1),
          if_pos (c := p.Has x) ⟨h₁.1, h₁.2.trans_le (by simp only; omega)⟩]
      · split
        · next h₂ =>
          have hlo := h₂.1
          have hhi := h₂.2
          simp only at hlo hhi
          rw [if_pos (c := p.Has x) ⟨by omega, by omega⟩]
        · exact Nat.zero_le _
    · refine hm x fun hw => ?_
      rw [cover_singleton, if_pos ⟨hw.1, by omega⟩] at hx
      exact one_ne_zero hx
    · rcases mem_singleton_pair.1 hq with rfl | rfl <;> rfl
  · rw [headers_add, headers_singleton_of_not (p := p) (by rw [hk]; rfl),
      headers_singleton_of_not rfl, headers_singleton_of_not rfl, zero_add]
  · rw [hk]
    rcases mem_singleton_pair.1 hq with rfl | rfl <;>
      exact ⟨fun x => by rw [Tracks, Tracks, hk], rfl⟩
  · rcases mem_singleton_pair.1 hq with rfl | rfl <;> cases hb
  · rcases mem_singleton_pair.1 hq with rfl | rfl
    · exact .record rfl hok
    · exact .plain rfl
  · rcases mem_singleton_pair.1 hq with rfl | rfl
    · exact ⟨⟨p.len, hhouse.1, hhouse.2.ge, by simp only; omega⟩, hhouse.2⟩
    · simp only [metaDataSize] at hl ⊢
      exact ⟨⟨p.len, hhouse.1, by simp only; omega, by simp only; omega⟩,
        by simp only; omega⟩

/-- A piece of the rest of a span becomes a block of its own. -/
theorem becomeBlock {c : Nat} (h : Space cfg g ({p} + F))
    (hk : p.kind = .rest o) (hlink : Linked g { p with kind := .block o })
    (hok : BlockOk cfg c { p with kind := .block o }) :
    Space cfg { g with inited := p.base :: g.inited }
      ({{ p with kind := .block o }} + F) := by
  refine h.recutOne ?_ rfl rfl rfl ?_ (fun _ ha => List.mem_cons_of_mem _ ha)
    (.single rfl rfl (fun x => ?_) ?_)
    (fun _ => hlink.mono fun _ ha => List.mem_cons_of_mem _ ha) (.block hok)
    ((h.housed p mem_singleton_add_self).within (by rw [hk]; rfl))
  · refine h.holds.update rfl rfl (fun _ _ => rfl) fun x hx => ?_
    exact h.holds.agree p mem_singleton_add_self x hx
  · rw [headers_singleton_of_not (by rw [hk]; rfl),
      headers_singleton_of_block rfl, add_zero, ← Multiset.cons_coe,
      ← Multiset.singleton_add, add_comm]
    rfl
  · rw [Tracks, Tracks, hk]
  · rw [hk]
    rfl

/-- A span has one length. -/
theorem within_unique {n k : Nat} (hs : spans.Pairwise Span.Apart)
    (hn : ⟨o, n⟩ ∈ spans) (hk : ⟨o, k⟩ ∈ spans) (hnpos : 0 < n)
    (hkpos : 0 < k) : n = k := by
  by_contra hne
  have hsym : Std.Symm Span.Apart := ⟨fun _ _ h x hx hx' => h x hx' hx⟩
  have hap := hs.forall hn hk (by simpa using hne)
  exact hap o.start ⟨le_rfl, by simp only; omega⟩
    ⟨le_rfl, by simp only; omega⟩

/-- Two neighbours in one span lie in it together. -/
theorem within_join {r : Part} (hs : spans.Pairwise Span.Apart)
    (hp : Within spans o p) (hq : Within spans o q) (hpos : 0 < p.len)
    (hqpos : 0 < q.len) (hbase : q.base = p.base + p.len) (hb : r.base = p.base)
    (hl : r.len = p.len + q.len) : Within spans o r := by
  obtain ⟨n, hn, hlo, hhi⟩ := hp
  obtain ⟨k, hk, hlo', hhi'⟩ := hq
  have heq := within_unique hs hn hk (by omega) (by omega)
  subst heq
  exact ⟨n, hn, by omega, by omega⟩

/-- A whole span becomes one block, behind its `MetaData`. -/
theorem becomeSolo {c : Nat} (h : Space cfg g ({p} + ({q} + F)))
    (hp : p.kind = .record o) (hq : q.kind = .rest o)
    (hbase : q.base = p.base + p.len) (hpos : 0 < p.len) (hqpos : 0 < q.len)
    (hlink : Linked g ⟨.solo o, p.base, p.len + q.len, g.mem⟩)
    (hok : BlockOk cfg c ⟨.solo o, p.base, p.len + q.len, g.mem⟩) :
    Space cfg { g with inited := (p.base + metaDataSize) :: g.inited }
      ({⟨.solo o, p.base, p.len + q.len, g.mem⟩} + F) := by
  have hjoin := h.holds.join hbase (.solo o)
  have hwp := (h.housed p (by simp)).within (o := o) (by rw [hp]; rfl)
  have hwq := (h.housed q (by simp)).within (o := o) (by rw [hq]; rfl)
  have hap := h.spanned.apart
  rw [← add_assoc] at h
  refine h.recutOne hjoin rfl rfl rfl ?_
    (fun _ ha => List.mem_cons_of_mem _ ha) (.join hbase rfl rfl
      (fun x _ => ⟨by rw [Tracks, hp]; trivial, by rw [Tracks, hq]; trivial⟩)
      (fun _ => ⟨fun _ => trivial, by rw [hp]; rfl⟩)
      fun _ => ⟨fun _ => trivial, by rw [hq]; rfl⟩)
    (fun _ => hlink.mono fun _ ha => List.mem_cons_of_mem _ ha) (.block hok)
    (within_join hap hwp hwq hpos hqpos hbase rfl rfl)
  rw [headers_add, headers_singleton_of_not (by rw [hp]; rfl),
    headers_singleton_of_not (by rw [hq]; rfl),
    headers_singleton_of_block rfl, add_zero, add_zero,
    ← Multiset.cons_coe, ← Multiset.singleton_add, add_comm]
  rfl

/-- Two neighbouring parts of one mapping become one. -/
theorem joinRaw {l k : Nat × Nat} (h : Space cfg g ({p} + ({q} + F)))
    (hp : p.kind = .raw l) (hq : q.kind = .raw k)
    (hbase : q.base = p.base + p.len) (hlo : k.1 ≤ p.base) :
    Space cfg g ({⟨.raw k, p.base, p.len + q.len, g.mem⟩} + F) := by
  have hjoin := h.holds.join hbase (.raw k)
  have hhouse := h.housed q (by simp)
  rw [Housed, hq] at hhouse
  rw [← add_assoc] at h
  refine h.recutOne hjoin rfl rfl rfl ?_ (fun _ ha => ha)
    (.join hbase rfl rfl (fun _ => False.elim)
      (fun hraw => absurd hp (hraw l)) fun hraw => absurd hq (hraw k))
    nofun (.plain rfl) ⟨hhouse.1, hlo, by simp only; omega⟩
  rw [headers_add, headers_singleton_of_not (by rw [hp]; rfl),
    headers_singleton_of_not (by rw [hq]; rfl),
    headers_singleton_of_not rfl, zero_add]

end Space

-- ========================================================= held blocks

namespace BlockOk

variable {cfg : Config} {c : Nat} {p : Part}

section Placed

variable (h : BlockOk cfg c p) {g : Ground} {T : Multiset Part}
  (hs : Space cfg g T) (hp : p ∈ T)
include h hs hp

/-- The header of a held block is an address that fits a word, and was
initialised. -/
theorem bounds : header p < 2 ^ 64 ∧ header p ∈ g.inited := by
  have hb := hs.bounds hp h.has_header
  simp only [pageSize, userLimit] at hb
  refine ⟨by omega, Multiset.mem_coe.1 ?_⟩
  rw [hs.inited]
  exact Multiset.mem_map.2 ⟨p, Multiset.mem_filter.2 ⟨hp, h.isBlock⟩, rfl⟩

/-- What the memory shows at the header of a held block. -/
theorem next_eq : Header.next g.mem (header p) = RsMalloc.link p := by
  refine hs.load_eq hp ?_
  have hr := h.headerRange
  unfold Piece.HasRange at hr ⊢
  omega

theorem cls_eq : Header.cls g.mem (header p) = c := by
  rw [← h.cls]
  refine hs.load_eq hp ?_
  have hr := h.headerRange
  unfold Piece.HasRange at hr ⊢
  omega

/-- What the memory shows as the magic of a held block. -/
theorem magic_eq :
    Header.magic g.mem (header p) = Header.magic p.data (header p) := by
  refine hs.load_eq hp ?_
  have hr := h.headerRange
  unfold Piece.HasRange at hr ⊢
  omega

end Placed

/-- The owner of a block writes from its header on and keeps its
class. -/
theorem write (h : BlockOk cfg c p) {g : Ground} {F : Multiset Part}
    {m : Mem} {a n : Nat} (hs : Space cfg g ({p} + F))
    (hm : Mem.Only a n g.mem m) (ha : header p ≤ a)
    (hn : a + n ≤ header p + blockSize c)
    (hcls : Header.cls m (header p) = c)
    (hlink : Header.next m (header p) = 0
      ∨ Header.next m (header p) ∈ g.inited) :
    BlockOk cfg c { p with data := m }
      ∧ Space cfg { g with mem := m } ({{ p with data := m }} + F) := by
  have hr := h.range
  have hhead := h.has_header
  unfold Piece.HasRange at hr
  have hok : BlockOk cfg c { p with data := m } := by
    refine h.rewrite (fun x h₁ h₂ => ?_) hcls
    rw [hm x fun hin => absurd hin.1 (Nat.not_le.2 (h₂.trans_le ha))]
    exact hs.holds.agree p (by simp) x ⟨h₁, h₂.trans hhead.2⟩
  exact ⟨hok, hs.rewriteSound hm ⟨by omega, by omega⟩ (fun _ => hlink)
    (.block hok)⟩

end BlockOk

-- ============================================================ the kernel

namespace Space

variable {cfg : Config} {g g' : Ground} {F T : Multiset Part} {p : Part}
  {offer : Option Nat} {a n len x : Nat}

/-- What `mmap` returns: nothing, or a fresh mapping. -/
theorem mmap_cases (g : Ground) (offer : Option Nat) (len : Nat) :
    g.mmap offer len = (none, g)
    ∨ ∃ a, 0 < len ∧ Placeable g.maps a (pageUp len)
      ∧ g.mmap offer len = (some a,
        { g with
          mem := Mem.zero g.mem a (pageUp len)
          maps := (a, pageUp len) :: g.maps }) := by
  unfold Ground.mmap
  cases offer with
  | none => exact Or.inl rfl
  | some a =>
      dsimp only
      split
      · next h => exact Or.inr ⟨a, h.1, h.2, rfl⟩
      · exact Or.inl rfl

/-- A part that nobody asks about changes no table. -/
theorem spanned_raw (h : Spanned spans T) :
    Spanned spans ({p} + T) where
  filled e he x hx := by
    obtain ⟨q, hq, hqo, hqx⟩ := h.filled e he x hx
    exact ⟨q, Multiset.mem_add.2 (Or.inr hq), hqo, hqx⟩
  apart := h.apart

theorem claimed_untracked (hp : ∀ y, ¬ Tracks p y) :
    Claimed ({p} + T) x ↔ Claimed T x := by
  rw [claimed_add]
  refine or_iff_right ?_
  rintro ⟨q, hq, y, -, ht, -⟩
  rw [Multiset.mem_singleton] at hq
  rw [hq] at ht
  exact hp y ht

theorem claimed_raw {m : Nat × Nat} (hk : p.kind = .raw m) :
    Claimed ({p} + T) x ↔ Claimed T x := by
  refine claimed_untracked fun y ht => ?_
  rw [Tracks, hk] at ht
  exact ht

/-- A fresh mapping is a part of its own, and reads as zero. -/
theorem map_fresh (h : Space cfg g T) (hn : 0 < n)
    (hp : Placeable g.maps a n) :
    Space cfg { g with mem := Mem.zero g.mem a n, maps := (a, n) :: g.maps }
      ({⟨.raw (a, n), a, n, Mem.zero g.mem a n⟩} + T) := by
  obtain ⟨hpos, halign, hlim, hfree⟩ := hp
  -- no part of others meets the new mapping
  have hapart : ∀ p ∈ T, ∀ x, p.Has x → ¬ (a ≤ x ∧ x < a + n) := by
    intro p hp x hx hin
    obtain ⟨e, he, h₁, h₂⟩ := h.mapped p hp x hx
    rcases hfree e he with hf | hf <;> omega
  refine ⟨⟨fun x => ?_, fun p hp x hx => ?_⟩, fun p hp x hx => ?_,
    fun x hx => ?_, ⟨fun e he => ?_,
      List.pairwise_cons.2 ⟨fun e he => (hfree e he).symm, h.apart.pairs⟩⟩,
    h.tree, fun x hx => ?_, ?_, fun p hp hb => ?_,
    fun p hp => ?_, fun p hp => ?_, spanned_raw h.spanned⟩
  · rw [cover_add, cover_singleton]
    have h₁ := h.holds.once x
    split
    · next hx =>
        have hnone : cover T x = 0 := by
          by_contra hne
          obtain ⟨q, hq, hqx⟩ := cover_pos.1 (Nat.pos_of_ne_zero hne)
          exact hapart q hq x hqx hx
        omega
    · omega
  · rcases mem_singleton_add.1 hp with rfl | hp
    · rfl
    · exact (Mem.zero_apply_of_not (hapart p hp x hx)).trans
        (h.holds.agree p hp x hx)
  · rcases mem_singleton_add.1 hp with rfl | hp
    · exact ⟨(a, n), List.mem_cons_self .., hx⟩
    · obtain ⟨e, he, hex⟩ := h.mapped p hp x hx
      exact ⟨e, List.mem_cons_of_mem _ he, hex⟩
  · obtain ⟨e, he, hex⟩ := hx
    rcases List.mem_cons.1 he with rfl | he
    · simp only at hex
      simp only [pageSize, userLimit] at halign hlim ⊢
      omega
    · exact h.user x ⟨e, he, hex⟩
  · rcases List.mem_cons.1 he with rfl | he
    · exact hn
    · exact h.apart.pos e he
  · rw [claimed_raw rfl]
    exact h.owned x hx
  · rw [headers_add, headers_singleton_of_not rfl, zero_add]
    exact h.inited
  · rcases mem_singleton_add.1 hp with rfl | hp
    · cases hb
    · exact h.links p hp hb
  · rcases mem_singleton_add.1 hp with rfl | hp
    · exact .plain rfl
    · exact h.sound p hp
  · rcases mem_singleton_add.1 hp with rfl | hp
    · exact ⟨List.mem_cons_self .., le_rfl, le_rfl⟩
    · exact (h.housed p hp).mono (fun _ hm => List.mem_cons_of_mem _ hm)
        fun _ he => he

/-- Relabel a part that promises nothing, as the tables change. -/
theorem relabel {k : Kind} (h : Space cfg g ({p} + F))
    (hm : g'.mem = g.mem) (hmaps : g'.maps = g.maps)
    (hin : g'.inited = g.inited) (hp : p.kind.isPlain = true)
    (hk : k.isPlain = true)
    (hspans : ∀ e ∈ g.spans, e ∈ g'.spans)
    (hhouse : Housed g' { p with kind := k }) (htree : ∃ r, g'.radix = ⟨some r⟩)
    (howned : ∀ x, x < 2 ^ 56 → (g'.radix.isOwned x = some true
      ↔ Claimed ({{ p with kind := k }} + F) x))
    (hspanned : Spanned g'.spans ({{ p with kind := k }} + F)) :
    Space cfg g' ({{ p with kind := k }} + F) := by
  refine ⟨?_, fun q hq x hx => ?_, fun x hx => ?_, hmaps ▸ h.apart, htree,
    howned, ?_, fun q hq hb => ?_, fun q hq => ?_, fun q hq => ?_, hspanned⟩
  · rw [hm]
    refine h.holds.update rfl rfl (fun _ _ => rfl) fun x hx => ?_
    exact h.holds.agree p mem_singleton_add_self x hx
  · rw [hmaps]
    rcases mem_singleton_add.1 hq with rfl | hq
    · exact h.mapped p mem_singleton_add_self x hx
    · exact h.mapped q (Multiset.mem_add.2 (Or.inr hq)) x hx
  · rw [hmaps] at hx
    exact h.user x hx
  · have hold := h.inited
    rw [headers_add, headers_singleton_of_not (Kind.isBlock_of_plain hp)]
      at hold
    rw [hin, headers_add, headers_singleton_of_not (Kind.isBlock_of_plain hk)]
    exact hold
  · rcases mem_singleton_add.1 hq with rfl | hq
    · simp only [Kind.isBlock_of_plain hk] at hb
      cases hb
    · refine (h.links q (Multiset.mem_add.2 (Or.inr hq)) hb).mono ?_
      rw [hin]
      exact fun _ ha => ha
  · rcases mem_singleton_add.1 hq with rfl | hq
    · exact .plain hk
    · exact h.sound q (Multiset.mem_add.2 (Or.inr hq))
  · rcases Multiset.mem_add.1 hq with hq | hq
    · rw [Multiset.mem_singleton] at hq
      exact hq ▸ hhouse
    · exact (h.housed q (Multiset.mem_add.2 (Or.inr hq))).mono
        (by rw [hmaps]; exact fun _ hm => hm) hspans

/-- A part of others belongs to no span that is free of parts. -/
theorem filled_apart {m : Nat × Nat} (h : Spanned spans ({p} + F))
    (hm : Holds g.mem ({p} + F)) (hk : p.kind = .raw m) {e : Span}
    (he : e ∈ spans) (hx : p.Has x) : ¬ e.Has x := by
  intro hex
  obtain ⟨q, hq, hqo, hqx⟩ := h.filled e he x hex
  rcases Multiset.mem_add.1 hq with hq | hq
  · rw [Multiset.mem_singleton] at hq
    rw [hq, hk] at hqo
    cases hqo
  · obtain ⟨F', rfl⟩ := Multiset.exists_cons_of_mem hq
    rw [← Multiset.singleton_add] at hm
    exact hm.apart hx hqx

/-- The page allocator hands a part out as a span. -/
theorem grant {c : Nat} {m : Nat × Nat} (h : Space cfg g ({p} + F))
    (hk : p.kind = .raw m) :
    Space cfg (g.grant ⟨p.base, c⟩ p.len)
      ({{ p with kind := .fresh ⟨p.base, c⟩ }} + F) := by
  refine h.relabel rfl rfl rfl (by rw [hk]; rfl) rfl
    (fun _ he => List.mem_cons_of_mem _ he)
    ⟨List.mem_cons_self .., rfl⟩ h.tree
    (fun x hx => ?_) ⟨fun e he x hx => ?_, ?_⟩
  · refine (h.owned x hx).trans ?_
    rw [claimed_raw hk, claimed_untracked]
    exact fun _ ht => ht
  · rcases List.mem_cons.1 he with rfl | he
    · exact ⟨_, mem_singleton_add_self,
        rfl, hx⟩
    · obtain ⟨q, hq, hqo, hqx⟩ := h.spanned.filled e he x hx
      rcases Multiset.mem_add.1 hq with hq | hq
      · rw [Multiset.mem_singleton] at hq
        rw [hq, hk] at hqo
        cases hqo
      · exact ⟨q, Multiset.mem_add.2 (Or.inr hq), hqo, hqx⟩
  · refine List.pairwise_cons.2 ⟨fun e he => ?_, h.spanned.apart⟩
    exact fun x hx => filled_apart h.spanned h.holds hk he hx

/-- The ownership map has been set to `val` at the chunks of `P`, and is
as before elsewhere. -/
structure Registered (g g' : Ground) (P : Nat → Prop) (val : Bool) :
    Prop where
  rest : g' = { g with radix := g'.radix }
  tree : ∃ r, g'.radix = ⟨some r⟩
  inside : ∀ x, x < 2 ^ 56 → P x → g'.radix.isOwned x = some val
  outside : ∀ x, x < 2 ^ 56 → ¬ P x →
    g'.radix.isOwned x = g.radix.isOwned x

namespace Registered

/-- `RADIX.set_range`. -/
theorem range (htree : ∃ r, g.radix = ⟨some r⟩) (val : Bool) (hn : 0 < n)
    (ha : a + n ≤ 2 ^ 56) :
    Registered g (g.setRange a n val)
      (fun x => a / 4096 ≤ x / 4096 ∧ x / 4096 ≤ (a + (n - 1)) / 4096)
      val := by
  obtain ⟨r, hr⟩ := htree
  obtain ⟨r', hset, howned⟩ := RadixMap.setRange_isOwned r val hn ha
  have hradix : (g.setRange a n val).radix = ⟨some r'⟩ := by
    unfold Ground.setRange
    dsimp only
    rw [hr, hset]
    rfl
  refine ⟨rfl, ⟨r', hradix⟩, fun x hx hin => ?_, fun x hx hout => ?_⟩
  · rw [hradix, howned x hx, if_pos hin]
  · rw [hradix, howned x hx, if_neg hout, hr]

/-- `RADIX.set_single_big`. -/
theorem single (htree : ∃ r, g.radix = ⟨some r⟩) (val : Bool)
    (ha : a < 2 ^ 56) :
    Registered g (g.setSingleBig a val) (fun x => x / 4096 = a / 4096)
      val := by
  obtain ⟨r, hr⟩ := htree
  obtain ⟨r', hset, howned⟩ := RadixMap.setSingleBig_isOwned r val ha
  have hradix : (g.setSingleBig a val).radix = ⟨some r'⟩ := by
    unfold Ground.setSingleBig
    dsimp only
    rw [hr, hset]
    rfl
  refine ⟨rfl, ⟨r', hradix⟩, fun x hx hin => ?_, fun x hx hout => ?_⟩
  · rw [hradix, howned x hx, if_pos hin]
  · rw [hradix, howned x hx, if_neg hout, hr]

/-- What is claimed after chunks were added. -/
theorem owned {T' : Multiset Part} {P : Nat → Prop}
    (hreg : Registered g g' P true) (h : Space cfg g T)
    (hT' : ∀ x, Claimed T' x ↔ Claimed T x ∨ P x) (hx : x < 2 ^ 56) :
    g'.radix.isOwned x = some true ↔ Claimed T' x := by
  rw [hT' x, ← h.owned x hx]
  by_cases hP : P x
  · rw [hreg.inside x hx hP]
    exact ⟨fun _ => Or.inr hP, fun _ => rfl⟩
  · rw [hreg.outside x hx hP]
    exact ⟨Or.inl, fun hor => hor.resolve_right hP⟩

end Registered

/-- The chunks of a part that starts on a page and ends on one. -/
theorem claimed_pages (ha : p.base % pageSize = 0) (hn : 0 < n)
    (hl : p.len = pageUp n) (ht : ∀ x, Tracks p x) :
    Claimed {p} x ↔ p.base / 4096 ≤ x / 4096
      ∧ x / 4096 ≤ (p.base + (n - 1)) / 4096 := by
  have hpage := pageUp_spec n
  simp only [pageSize] at ha hpage
  constructor
  · rintro ⟨q, hq, y, ⟨h₁, h₂⟩, -, hxy⟩
    rw [Multiset.mem_singleton] at hq
    subst hq
    omega
  · rintro ⟨h₁, h₂⟩
    exact ⟨p, Multiset.mem_singleton_self p, x / 4096 * 4096,
      ⟨by omega, by omega⟩, ht _, by omega⟩

/-- A part that no table knew is registered under another label. -/
theorem registerAs {k : Kind} {P : Nat → Prop} (h : Space cfg g ({p} + F))
    (hnone : ∀ y, ¬ Tracks p y) (hp : p.kind.isPlain = true)
    (hk : k.isPlain = true) (horigin : k.origin = p.kind.origin)
    (hhouse : Housed g { p with kind := k })
    (hreg : Registered g g' P true)
    (hP : ∀ x, Claimed {{ p with kind := k }} x ↔ P x) :
    Space cfg g' ({{ p with kind := k }} + F) := by
  have hspans : g'.spans = g.spans := by rw [hreg.rest]
  have hmaps : g'.maps = g.maps := by rw [hreg.rest]
  have hclaim : ∀ x, Claimed ({{ p with kind := k }} + F) x
      ↔ Claimed ({p} + F) x ∨ P x := by
    intro x
    rw [claimed_add, hP, claimed_untracked hnone]
    exact or_comm
  refine h.relabel (by rw [hreg.rest]) hmaps (by rw [hreg.rest]) hp hk
    (fun _ he => hspans ▸ he) ?_ hreg.tree
    (fun x hx => hreg.owned h hclaim hx) ?_
  · exact hhouse.mono (fun _ hm => hmaps ▸ hm) fun _ he => hspans ▸ he
  · rw [hspans]
    refine h.spanned.replace fun q hq x hx o ho => ?_
    rw [Multiset.mem_singleton] at hq
    subst hq
    exact ⟨_, Multiset.mem_singleton_self _, hx, horigin.trans ho⟩

/-- The pages of a span are registered. The range may end inside the
last page. -/
theorem register {o : Origin} (h : Space cfg g ({p} + F))
    (hk : p.kind = .fresh o) (ha : p.base % pageSize = 0) (hn : 0 < n)
    (hl : p.len = pageUp n) :
    Space cfg (g.setRange p.base n true)
      ({{ p with kind := .span o }} + F) := by
  have hpage := pageUp_spec n
  have hlim := h.end_le mem_singleton_add_self (by omega)
  have hhouse := h.housed p mem_singleton_add_self
  rw [Housed, hk] at hhouse
  refine h.registerAs (fun y ht => ?_) (by rw [hk]; rfl) rfl
    (by rw [hk]; rfl) hhouse (.range h.tree true hn (by omega)) fun x =>
      claimed_pages (p := { p with kind := .span o }) ha hn hl
        fun _ => trivial
  rw [Tracks, hk] at ht
  exact ht

end Space

end RsMalloc
