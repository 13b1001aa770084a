/-
What a caller holds, and the calls that give and take it.

# Allocations

A caller owns a slab block, or a big allocation with its entry
(`Allocated`); `capacity` are the bytes of its payload. A pointer from
the aligned path lies inside the payload, behind two words that lead
back to it (`Tagged`). `Holding cfg l x`: the caller's record `l` of a
pointer is backed by what it owns as `x`.

# The tag

`find_original_ptr` takes the word in front of a pointer for a tag. In
front of a payload that is the link of the block's `Header`: null, or a
header. So it must not be that a header has the address `ALIGN_TAG`
(`Untagged`).
-/
import RsMalloc.Heap.Big
import RsMalloc.Slab.Pool

namespace RsMalloc.Heap

open Conc

open RbTree (BigAllocMeta)

open Slab (payload)

variable {cfg : Config} {E : Env → Prop} {P : State → Prop} {s : State}

-- =============================================================== secrets

/-- What `init_magic` and `init_align` make sure of. -/
structure Secrets (cfg : Config) : Prop where
  magic : cfg.magic < 2 ^ 16
  freed : cfg.freedMagic < 2 ^ 16
  big : cfg.bigMagic < 2 ^ 16
  magic_freed : cfg.magic ≠ cfg.freedMagic
  magic_big : cfg.magic ≠ cfg.bigMagic
  freed_big : cfg.freedMagic ≠ cfg.bigMagic
  tag_pos : 0 < cfg.alignTag
  tag_lt : cfg.alignTag < 2 ^ 64

/-- No header has the address `ALIGN_TAG`. -/
def Untagged (cfg : Config) (h : State) : Prop :=
  cfg.alignTag ∉ h.slab.ground.inited

/-- Nor has one where `P` holds. -/
def TagFree (cfg : Config) (P : State → Prop) : Prop :=
  ∀ h X, P h → HInv cfg h X → Untagged cfg h

/-- A tag that is no aligned address of user space is nowhere a
header's. -/
theorem tagFree_of_secret
    (h : ¬ (16 ∣ cfg.alignTag ∧ cfg.alignTag < userLimit)) :
    TagFree cfg P := by
  intro t X _ hI hmem
  obtain ⟨H, hsp⟩ := hI.space
  have hin : cfg.alignTag ∈ headers (parts X + H) := by
    rw [← hsp.inited]
    exact hmem
  obtain ⟨p, hp, heq⟩ := Multiset.mem_map.1 hin
  obtain ⟨hp, hb⟩ := Multiset.mem_filter.1 hp
  obtain ⟨c, hok⟩ := (hsp.sound p hp).blockOk hb
  refine h ⟨heq ▸ hok.align, ?_⟩
  rw [← heq]
  have hr := hok.range
  have hsize := (blockSize_eq hok.lt).1
  unfold Piece.HasRange at hr
  simp only [headerSize] at hsize
  exact (hsp.bounds hp ⟨hr.1, by omega⟩).2

-- =========================================================== allocations

/-- The part, with its entry, is an allocation of a caller. -/
def Allocated (cfg : Config) : Part × Option BigAllocMeta → Prop
  | (p, none) => ∃ c, Marked cfg c cfg.magic p
  | (p, some m) => Big cfg m p

/-- The bytes of its payload. -/
def capacity : Part × Option BigAllocMeta → Nat
  | (p, none) => sizeClass (Header.cls p.data (header p))
  | (_, some m) => m.size

theorem Big.header_eq {m : BigAllocMeta} {p : Part} (h : Big cfg m p) :
    header p = p.base := by
  rcases h.seat with ⟨-, htile⟩ | ⟨-, hk, -⟩
  · rw [header, htile.kind]
  · rw [header, hk]

theorem Big.payload_eq {m : BigAllocMeta} {p : Part} (h : Big cfg m p) :
    payload p = p.base + headerSize := by
  rw [payload, h.header_eq]

namespace Allocated

variable {x : Part × Option BigAllocMeta} {f : Res}

/-- The header and the payload lie in the part. -/
theorem range (h : Allocated cfg x) :
    x.1.HasRange (header x.1) (headerSize + capacity x) := by
  obtain ⟨p, e⟩ := x
  cases e with
  | none =>
      obtain ⟨c, hm⟩ := h
      have hr := hm.range
      rw [(blockSize_eq hm.lt).1, Nat.add_comm] at hr
      rw [capacity, hm.cls]
      exact hr
  | some m =>
      have hroom := Big.room h
      rw [Big.header_eq h, capacity]
      exact ⟨le_rfl, by simp only; omega⟩

theorem pos (h : Allocated cfg x) : 0 < x.1.len := by
  have hr := h.range
  unfold Piece.HasRange at hr
  simp only [headerSize] at hr
  omega

theorem align (h : Allocated cfg x) : 16 ∣ header x.1 := by
  obtain ⟨p, e⟩ := x
  cases e with
  | none =>
      obtain ⟨c, hm⟩ := h
      exact hm.align
  | some m =>
      have hpage := Big.page h
      rw [Big.header_eq h]
      simp only [pageSize] at hpage ⊢
      omega

/-- An address in the chunk of one that the ownership map has to know. -/
theorem owned_of_tracks {p : Part} {e : Option BigAllocMeta} {y z : Nat}
    (hI : HInv cfg s ({(p, e)} + f)) (hz : p.Has z) (ht : Tracks p z)
    (hyz : z / 4096 = y / 4096) : isOwned s y = .ok true := by
  obtain ⟨H, hsp⟩ := hI.front
  have hlim := (hsp.bounds (p := p) (by simp) hz).2
  simp only [userLimit] at hlim
  have hclaim : Claimed ({p} + (parts f + H)) y := ⟨p, by simp, z, hz, ht, hyz⟩
  rw [isOwned, (hsp.owned y (by omega)).2 hclaim]

variable (h : Allocated cfg x) (hI : HInv cfg s ({x} + f))
include h hI

/-- The ownership map knows the payload. -/
theorem owned_payload : isOwned s (payload x.1) = .ok true := by
  obtain ⟨p, e⟩ := x
  cases e with
  | none =>
      obtain ⟨c, hm⟩ := h
      have hr := hm.range
      have hsize := blockSize_eq hm.lt
      unfold Piece.HasRange at hr
      simp only [headerSize] at hsize
      refine owned_of_tracks hI (z := payload p) ⟨?_, ?_⟩ ?_ rfl
      · simp only [payload, headerSize]
        omega
      · simp only [payload, headerSize]
        omega
      · have hb := hm.isBlock
        unfold Kind.isBlock at hb
        unfold Tracks
        split <;> simp_all
  | some m =>
      have hbig : Big cfg m p := h
      have hpage := hbig.page
      refine owned_of_tracks hI (z := p.base) ⟨le_rfl, ?_⟩ ?_ ?_
      · exact Nat.lt_add_of_pos_right hbig.pos
      · rcases hbig.seat with ⟨-, htile⟩ | ⟨-, hk, -⟩
        · rw [Tracks, htile.kind]
          trivial
        · rw [Tracks, hk]
          split <;> simp_all
      · simp only [hbig.payload_eq, headerSize, pageSize] at hpage ⊢
        omega

/-- The ownership map knows the whole part, unless it is a mapping of
its own that was not aligned. -/
theorem owned_inside (hk : x.1.kind ≠ .direct false) {y : Nat}
    (hy : x.1.Has y) : isOwned s y = .ok true := by
  obtain ⟨p, e⟩ := x
  refine owned_of_tracks hI hy ?_ rfl
  cases e with
  | none =>
      obtain ⟨c, hm⟩ := h
      have hb := hm.isBlock
      unfold Kind.isBlock at hb
      unfold Tracks
      split <;> simp_all
  | some m =>
      rcases Big.seat h with ⟨-, htile⟩ | ⟨-, hdir, -⟩
      · rw [Tracks, htile.kind]
        trivial
      · cases hal : m.aligned with
        | true =>
            rw [Tracks, hdir, hal]
            trivial
        | false =>
            rw [hal] at hdir
            exact absurd hdir hk

/-- A word of the header or the payload reads as the part says. -/
theorem load_eq {a w : Nat} (ha : header x.1 ≤ a)
    (hw : a + w ≤ header x.1 + headerSize + capacity x) :
    Mem.load w s.mem a = Mem.load w x.1.data a := by
  have hr := h.range
  unfold Piece.HasRange at hr
  have hin : x.1.HasRange a w := ⟨by omega, by omega⟩
  obtain ⟨H, hsp⟩ := hI.front
  exact hsp.load_eq (p := x.1) (by simp) hin

/-- Everything lies in user space. -/
theorem bounds :
    pageSize ≤ header x.1
      ∧ header x.1 + headerSize + capacity x ≤ 2 ^ 47 := by
  have hb := HInv.bounds (p := x.1) (e := x.2) hI h.pos
  have hr := h.range
  unfold Piece.HasRange at hr
  omega

/-- The word in front of a payload is a link. -/
theorem link_cases :
    Header.next s.mem (header x.1) = 0
      ∨ Header.next s.mem (header x.1) ∈ s.slab.ground.inited := by
  have hload : Header.next s.mem (header x.1)
      = Header.next x.1.data (header x.1) :=
    h.load_eq hI le_rfl (by simp only [headerSize]; omega)
  rw [hload]
  obtain ⟨H, hsp⟩ := hI.front
  obtain ⟨p, e⟩ := x
  cases e with
  | none =>
      obtain ⟨c, hm⟩ := h
      exact hsp.links p (by simp) hm.isBlock
  | some m =>
      refine Or.inl ?_
      rw [Big.header_eq h]
      exact Big.link h

/-- The magic that the header shows. -/
theorem magic_eq :
    Header.magic s.mem (header x.1)
      = (if x.2.isSome then cfg.bigMagic else cfg.magic) % 2 ^ 16 := by
  have hload : Header.magic s.mem (header x.1)
      = Header.magic x.1.data (header x.1) :=
    h.load_eq hI (Nat.le_add_right ..) (by simp only [headerSize]; omega)
  rw [hload]
  obtain ⟨p, e⟩ := x
  cases e with
  | none =>
      obtain ⟨c, hm⟩ := h
      exact hm.magic
  | some m =>
      rw [Big.header_eq h]
      exact Big.magic h

end Allocated

-- ============================================================== pointers

/-- A pointer that a caller was given, the payload it lies in, the bytes
that were asked for, and the alignment if it is from the aligned
path. -/
structure Live where
  ptr : Nat
  raw : Nat
  size : Nat
  align : Option Nat
  deriving DecidableEq, Repr

/-- A power of two from 8 on. -/
def ValidAlign (alignment : Nat) : Prop :=
  8 ≤ alignment ∧ ∃ k, alignment = 2 ^ k

/-- The pointer is aligned to `a`, and the two words in front of it lead
back to the payload. -/
structure Tagged (cfg : Config) (a ptr raw : Nat) (p : Part) : Prop where
  valid : ValidAlign a
  behind : raw + tagSize ≤ ptr
  align : a ∣ ptr
  tag : Mem.load 8 p.data (ptr - tagSize) = cfg.alignTag
  origin : Mem.load 8 p.data (ptr - offsetSize) = raw
  whole : p.kind ≠ .direct false

/-- The caller's pointer is backed by the allocation `x`. -/
structure Holding (cfg : Config) (l : Live)
    (x : Part × Option BigAllocMeta) : Prop where
  allocated : Allocated cfg x
  raw : l.raw = payload x.1
  room : l.ptr + l.size ≤ l.raw + capacity x
  pos : l.ptr < l.raw + capacity x
  aim : (l.align = none ∧ l.ptr = l.raw ∧ x.1.kind ≠ .direct true)
    ∨ ∃ a, l.align = some a ∧ Tagged cfg a l.ptr l.raw x.1

theorem wrappingSub_of_le {a b : Nat} (hle : b ≤ a) (hlt : a < 2 ^ 64) :
    wrappingSub a b = a - b := by
  unfold wrappingSub
  omega

namespace Holding

variable {l : Live} {x : Part × Option BigAllocMeta} {f : Res}

theorem validAlign {a : Nat} (h : Holding cfg l x) (ha : l.align = some a) :
    ValidAlign a := by
  rcases h.aim with ⟨hnone, -⟩ | ⟨b, hb, ht⟩
  · rw [hnone] at ha
    cases ha
  · rw [hb] at ha
    cases ha
    exact ht.valid

variable (h : Holding cfg l x) (hI : HInv cfg s ({x} + f))
include h hI

theorem bounds : 4096 ≤ l.ptr ∧ l.ptr < 2 ^ 47 ∧ l.raw ≤ l.ptr := by
  have hb := h.allocated.bounds hI
  have hraw := h.raw
  have hpos := h.pos
  simp only [payload, headerSize, pageSize] at hraw hb
  rcases h.aim with ⟨-, heq, -⟩ | ⟨a, -, ht⟩
  · omega
  · have hbehind := ht.behind
    simp only [tagSize] at hbehind
    omega

theorem owned : isOwned s l.ptr = .ok true := by
  rcases h.aim with ⟨-, heq, -⟩ | ⟨a, -, ht⟩
  · rw [heq, h.raw]
    exact h.allocated.owned_payload hI
  · refine h.allocated.owned_inside hI ht.whole ?_
    have hr := h.allocated.range
    have hraw := h.raw
    have hpos := h.pos
    have hbehind := ht.behind
    unfold Piece.HasRange at hr
    simp only [payload] at hraw
    exact ⟨by omega, by omega⟩

/-- `find_original_ptr` finds the payload. -/
theorem original (hs : Secrets cfg) (hu : Untagged cfg s) :
    findOriginalPtr cfg s l.ptr = .ok l.raw := by
  obtain ⟨hlow, hhigh, -⟩ := h.bounds hI
  have hraw := h.raw
  rw [findOriginalPtr, wrappingSub_of_le (by simp only [tagSize]; omega)
      (by omega), wrappingSub_of_le (by simp only [offsetSize]; omega)
      (by omega)]
  rcases h.aim with ⟨-, heq, -⟩ | ⟨a, -, ht⟩
  · have hlink := h.allocated.link_cases hI
    have hword : l.ptr - tagSize = header x.1 := by
      simp only [payload, headerSize, tagSize] at hraw ⊢
      omega
    rw [hword, if_neg, heq]
    intro htag
    have htag' : Header.next s.mem (header x.1) = cfg.alignTag := htag
    have hpos := hs.tag_pos
    rcases hlink with hzero | hin
    · omega
    · exact hu (htag' ▸ hin)
  · have hpos := h.pos
    have hbehind := ht.behind
    simp only [payload, headerSize, tagSize] at hraw hbehind
    have hload : ∀ k, k + 8 ≤ 16 → Mem.load 8 s.mem (l.ptr - 16 + k)
        = Mem.load 8 x.1.data (l.ptr - 16 + k) := by
      intro k hk
      refine h.allocated.load_eq hI (by omega) ?_
      simp only [headerSize]
      omega
    have htag : Mem.load 8 s.mem (l.ptr - tagSize) = cfg.alignTag :=
      (hload 0 (by omega)).trans ht.tag
    have horigin : Mem.load 8 s.mem (l.ptr - offsetSize) = l.raw := by
      have heq : l.ptr - offsetSize = l.ptr - 16 + 8 := by
        simp only [offsetSize]
        omega
      rw [heq, hload 8 (by omega), ← heq]
      exact ht.origin
    have howned : isOwned s l.raw = .ok true := by
      rw [h.raw]
      exact h.allocated.owned_payload hI
    rw [if_pos htag]
    simp only [horigin, howned]

/-- `usable_size` is what is left of the payload. -/
theorem usable (hs : Secrets cfg) (hu : Untagged cfg s) :
    usableSize cfg s l.ptr = .ok (l.raw + capacity x - l.ptr) := by
  obtain ⟨hlow, hhigh, hle⟩ := h.bounds hI
  have hmagic := h.allocated.magic_eq hI
  have hraw : l.raw - headerSize = header x.1 := by
    rw [h.raw, payload, Nat.add_sub_cancel]
  simp only [usableSize, h.owned hI, h.original hI hs hu, hraw, hmagic]
  rw [wrappingSub_of_le hle (by omega)]
  obtain ⟨p, e⟩ := x
  cases e with
  | none =>
      have hno : cfg.magic % 2 ^ 16 ≠ cfg.bigMagic := by
        rw [Nat.mod_eq_of_lt hs.magic]
        exact hs.magic_big
      have hcls : Header.cls s.mem (header p) = Header.cls p.data (header p) :=
        h.allocated.load_eq hI (Nat.le_add_right ..)
          (by simp only [headerSize]; omega)
      simp only [Option.isSome_none, Bool.false_eq_true, if_false, hno, hcls,
        capacity, Except.ok.injEq]
      omega
  | some m =>
      have hbig : Big cfg m p := h.allocated
      have hentry : s.bigMap l.raw = some m := by
        rw [h.raw, hbig.payload_eq]
        exact hI.entry_eq hbig.pos
      simp only [Option.isSome_some, if_true, Nat.mod_eq_of_lt hs.big,
        hentry, capacity, Except.ok.injEq]
      omega

end Holding

-- ================================================================ writing

/-- The bytes of a part are those of the memory `m`. -/
abbrev withData (m : Mem) (x : Part × Option BigAllocMeta) :
    Part × Option BigAllocMeta :=
  ({ x.1 with data := m }, x.2)

section Writing

variable {l : Live} {x : Part × Option BigAllocMeta} {f : Res} {m : Mem}
  {a n : Nat}

/-- What is left of the fields of the header after a write behind it. -/
theorem Allocated.load_kept (h : Allocated cfg x)
    (hI : HInv cfg s ({x} + f)) (hm : Mem.Only a n s.mem m) {b w : Nat}
    (hb : header x.1 ≤ b) (hw : b + w ≤ a)
    (hn : a ≤ header x.1 + headerSize + capacity x) :
    Mem.load w m b = Mem.load w x.1.data b :=
  (hm.load (Or.inl hw)).trans (h.load_eq hI hb (by omega))

/-- The owner writes inside the payload. -/
theorem Allocated.write (h : Allocated cfg x) (hI : HInv cfg s ({x} + f))
    (hm : Mem.Only a n s.mem m) (ha : payload x.1 ≤ a)
    (hn : a + n ≤ payload x.1 + capacity x) :
    HInv cfg (s.onMem fun _ => m) ({withData m x} + f)
      ∧ Allocated cfg (withData m x)
      ∧ capacity (withData m x) = capacity x := by
  simp only [payload] at ha hn
  have hkept : ∀ w k, k + w ≤ 16 → Mem.load w m (header x.1 + k)
      = Mem.load w x.1.data (header x.1 + k) := fun w k hk =>
    h.load_kept hI hm (Nat.le_add_right ..)
      (by simp only [headerSize] at ha; omega) (by omega)
  have hlinked := h.link_cases hI
  have hnext : Header.next m (header x.1) = Header.next s.mem (header x.1) :=
    (hkept 8 0 (by omega)).trans (h.load_eq hI le_rfl
      (by simp only [headerSize]; omega)).symm
  have hrange := h.range
  obtain ⟨p, e⟩ := x
  cases e with
  | none =>
      obtain ⟨c, hmark⟩ := h
      dsimp only at ha hn
      have hcls : Header.cls m (header p) = c :=
        (hkept 1 9 (by omega)).trans hmark.cls
      have hsize : blockSize c = headerSize + capacity (p, none) := by
        rw [capacity, hmark.cls, (blockSize_eq hmark.lt).1, Nat.add_comm]
      have hwrite : ∀ H, Space cfg s.slab.ground ({p} + H) →
          BlockOk cfg c { p with data := m } ∧ Space cfg
            { s.slab.ground with mem := m } ({{ p with data := m }} + H) :=
        fun H hH => hmark.toBlockOk.write hH hm (by
            simp only [headerSize] at ha
            omega) (by omega) hcls (by
          rw [hnext]
          exact hlinked)
      obtain ⟨H, hsp⟩ := hI.front
      refine ⟨hI.rewrite rfl rfl rfl fun H hH => (hwrite H hH).2,
        ⟨c, (hwrite _ hsp).1, ?_⟩, ?_⟩
      · exact (hkept 2 10 (by omega)).trans hmark.magic
      · rw [capacity, capacity, hmark.cls]
        exact congrArg sizeClass hcls
  | some b =>
      have hbig : Big cfg b p := h
      have hhead := hbig.header_eq
      unfold Piece.HasRange at hrange
      simp only at ha hn hrange
      refine ⟨hI.rewrite rfl rfl rfl fun H hH => hH.rewrite hm
          ⟨by simp only [headerSize] at ha; omega, by omega⟩ hbig.plain,
        ⟨?_, hbig.room, hbig.page, ?_, ?_⟩, rfl⟩
      · rcases hbig.seat with ⟨hne, htile⟩ | ⟨hz, hk, hlen⟩
        · exact .block hne ⟨htile.kind, htile.len⟩
        · exact .mapping hz hk hlen
      · rw [← hbig.link, ← hhead]
        exact hkept 8 0 (by omega)
      · rw [← hbig.magic, ← hhead]
        exact hkept 2 10 (by omega)

/-- The caller writes behind its pointer. -/
theorem Holding.write (h : Holding cfg l x) (hI : HInv cfg s ({x} + f))
    (hm : Mem.Only a n s.mem m) (ha : l.ptr ≤ a)
    (hn : a + n ≤ l.raw + capacity x) :
    HInv cfg (s.onMem fun _ => m) ({withData m x} + f)
      ∧ Holding cfg l (withData m x)
      ∧ capacity (withData m x) = capacity x := by
  have hraw := h.raw
  obtain ⟨hlow, -, hle⟩ := h.bounds hI
  obtain ⟨hI', halloc, hcap⟩ := h.allocated.write hI hm
    (by omega) (by omega)
  refine ⟨hI', ⟨halloc, hraw, by rw [hcap]; exact h.room,
    by rw [hcap]; exact h.pos, ?_⟩, hcap⟩
  rcases h.aim with haim | ⟨k, hk, ht⟩
  · exact Or.inl haim
  · have hbehind := ht.behind
    have hpos := h.pos
    simp only [payload, headerSize, tagSize] at hraw hbehind
    have hkept : ∀ k, 8 ≤ k → k ≤ 16 → Mem.load 8 m (l.ptr - k)
        = Mem.load 8 x.1.data (l.ptr - k) := fun k h₁ h₂ =>
      (hm.load (Or.inl (by omega))).trans (h.allocated.load_eq hI
        (by omega) (by simp only [headerSize]; omega))
    refine Or.inr ⟨k, hk, ⟨ht.valid, ht.behind, ht.align, ?_, ?_, ht.whole⟩⟩
    · exact (hkept tagSize (by decide) (by decide)).trans ht.tag
    · exact (hkept offsetSize (by decide) (by decide)).trans ht.origin

end Writing

-- =============================================================== freeing

section Freeing

variable {l : Live} {x : Part × Option BigAllocMeta}

/-- `rs_free` of a payload, once it is found. -/
theorem freePayload_runs (hs : Secrets cfg) (h : Allocated cfg x) :
    Runs E P (HInv cfg)
      (do
        let magic ← Prog.read fun h =>
          Header.magic h.mem (payload x.1 - headerSize)
        if magic = cfg.magic then do
          onSlab (Slab.freeSmall cfg (payload x.1))
          return .ok ()
        else if magic = cfg.bigMagic then bigFree cfg (payload x.1)
        else if magic = cfg.freedMagic then return .error .doubleFree
        else return .error .attackOrCorruption :
          HeapM (Except RSMallocError Unit))
      (fun a _ r => a = .ok () ∧ r = 0) s {x} := by
  refine Runs.inv fun f _ hI => ?_
  have hmagic := h.magic_eq hI
  refine Runs.readThen ?_
  rw [payload, Nat.add_sub_cancel, hmagic]
  obtain ⟨p, e⟩ := x
  cases e with
  | none =>
      obtain ⟨c, hm⟩ := h
      rw [if_pos (by exact Nat.mod_eq_of_lt hs.magic)]
      refine ((onSlab_runs (A := {p})
        (Slab.freeSmall_safe ⟨p, rfl, rfl, hm.toBlockOk⟩) (fun q hq => ?_)
        fun a A' hA' q hq => ?_).andThen fun a s' r hr => Runs.ret ?_)
      · rw [Multiset.mem_singleton.1 hq]
        exact hm.isBlock
      · rw [hA'] at hq
        exact absurd hq (Multiset.notMem_zero q)
      · obtain ⟨-, A', rfl, rfl⟩ := hr
        exact ⟨rfl, rfl⟩
  | some m =>
      have hbig : Big cfg m p := h
      have hmod : cfg.bigMagic % 2 ^ 16 = cfg.bigMagic :=
        Nat.mod_eq_of_lt hs.big
      simp only [Option.isSome_some, if_true, hmod]
      rw [if_neg hs.magic_big.symm, hbig.header_eq]
      exact bigFree_runs hbig

/-- `rs_free` of a live pointer takes all of its allocation back. -/
theorem rsFree_runs (hs : Secrets cfg) (hP : TagFree cfg P)
    (h : Holding cfg l x) :
    Runs E P (HInv cfg) (rsFree cfg l.ptr)
      (fun a _ r => a = .ok () ∧ r = 0) s {x} := by
  refine Runs.inv fun f hPs hI => ?_
  have hlow := (h.bounds hI).1
  unfold rsFree
  rw [if_neg (by omega)]
  refine Runs.readThen ?_
  rw [h.owned hI]
  refine Runs.readThen ?_
  rw [h.original hI hs (hP s _ hPs hI), h.raw]
  exact freePayload_runs hs h.allocated

end Freeing

-- ============================================================ allocating

/-- What a caller of `rs_alloc` gets. -/
inductive GotPayload (cfg : Config) (size : Nat) (aligned : Bool) :
    Nat → State → Res → Prop
  | null (s : State) : GotPayload cfg size aligned 0 s 0
  | small {c : Nat} {p : Part} (s : State)
      (cls : matchSizeClass size = some c) (marked : Marked cfg c cfg.magic p)
      (flags : Header.flags p.data (header p) = allocatedFlag) :
      GotPayload cfg size aligned (payload p) s {(p, none)}
  | big {p : Part} {m : BigAllocMeta} {s : State}
      (cls : matchSizeClass size = none) (big : Big cfg m p)
      (size_eq : m.size = size) (aligned_eq : m.aligned = aligned)
      (flagged : Flagged s p) :
      GotPayload cfg size aligned (payload p) s {(p, some m)}

/-- `rs_alloc`. -/
theorem rsAlloc_runs (fuel tid size : Nat) (aligned : Bool) :
    Runs E P (HInv cfg) (rsAlloc cfg fuel tid size aligned)
      (GotPayload cfg size aligned) s 0 := by
  unfold rsAlloc
  split
  · next c hcls =>
    refine (onSlab_runs (A := 0)
      (Slab.allocSmall_safe fuel tid (matchSizeClass_spec hcls).1)
      nofun
      fun a A' hA' q hq => ?_).mono fun a s' r hr => ?_
    · rcases hA' with ⟨-, rfl⟩ | ⟨h, -, q', rfl, -, hmark, -⟩
      · exact absurd hq (Multiset.notMem_zero q)
      · rw [Multiset.mem_singleton.1 hq]
        exact hmark.isBlock
    · obtain ⟨-, A', rfl, ⟨rfl, rfl⟩ | ⟨h, rfl, q, rfl, rfl, hmark, hflags⟩⟩
        := hr
      · exact .null s'
      · rw [bare_singleton]
        exact .small s' hcls hmark hflags
  · next hcls =>
    refine (bigMalloc_runs size aligned).mono fun a s' r hr => ?_
    rcases hr with ⟨rfl, rfl⟩ | ⟨p, m, rfl, rfl, hbig, hsize, hal, hflag⟩
    · exact .null s'
    · rw [← hbig.payload_eq]
      exact .big hcls hbig hsize hal hflag

namespace GotPayload

variable {size a : Nat} {aligned : Bool} {r : Res}

/-- A payload that is not null has the bytes that were asked for. -/
theorem allocated (h : GotPayload cfg size aligned a s r) (ha : a ≠ 0) :
    ∃ x, r = {x} ∧ Allocated cfg x ∧ a = payload x.1 ∧ size ≤ capacity x
      ∧ 0 < capacity x ∧ x.1.kind ≠ .direct !aligned := by
  cases h with
  | null => exact absurd rfl ha
  | @small c p _ hcls hmark _ =>
      obtain ⟨hc, hle⟩ := matchSizeClass_spec hcls
      have hsize := (blockSize_eq hc).2.1
      refine ⟨(p, none), rfl, ⟨c, hmark⟩, rfl, ?_, ?_, fun hk => ?_⟩
      · rw [capacity, hmark.cls]
        exact hle
      · rw [capacity, hmark.cls]
        omega
      · have hb := hmark.isBlock
        rw [hk] at hb
        cases hb
  | @big p m _ hcls hbig hsize hal _ =>
      refine ⟨(p, some m), rfl, hbig, rfl, hsize.ge, ?_, fun hk => ?_⟩
      · rw [capacity, hsize]
        rcases Nat.eq_zero_or_pos size with rfl | hpos
        · cases hcls
        · exact hpos
      · rcases hbig.seat with ⟨-, htile⟩ | ⟨-, hdir, -⟩
        · rw [htile.kind] at hk
          cases hk
        · rw [hdir, hal, Kind.direct.injEq] at hk
          exact (Bool.eq_not_self aligned).1 hk

/-- The caller holds it by the payload. -/
theorem holding (h : GotPayload cfg size false a s r) (ha : a ≠ 0) :
    ∃ x, r = {x} ∧ Holding cfg ⟨a, a, size, none⟩ x := by
  obtain ⟨x, rfl, halloc, rfl, hle, hpos, hkind⟩ := h.allocated ha
  exact ⟨x, rfl, halloc, rfl, Nat.add_le_add_left hle _,
    Nat.lt_add_of_pos_right hpos, Or.inl ⟨rfl, rfl, hkind⟩⟩

end GotPayload

-- ============================================================== aligning

/-- What `posix_memalign` checks of an alignment. -/
theorem validAlign_iff {alignment : Nat} :
    ValidAlign alignment
      ↔ ¬ (alignment < 8 ∨ alignment ≠ Buddy.nextPowerOfTwo alignment) := by
  rw [not_or, not_not, Nat.not_lt, eq_nextPowerOfTwo_iff]
  rfl

/-- Rounding up to the next multiple. -/
theorem alignTo_spec {n a : Nat} (ha : 0 < a) (h : n + a ≤ 2 ^ 64) :
    n ≤ alignTo n a ∧ alignTo n a < n + a ∧ a ∣ alignTo n a := by
  rw [alignTo, Nat.mod_eq_of_lt (by omega)]
  have hdiv := Nat.div_add_mod (n + (a - 1)) a
  have hmod := Nat.mod_lt (n + (a - 1)) ha
  refine ⟨?_, ?_, Nat.dvd_mul_left ..⟩ <;>
    rw [Nat.mul_comm] at hdiv <;> omega

/-- What a caller of `posix_align_inner` gets. -/
def GotAligned (cfg : Config) (alignment size : Nat)
    (o : Except Errno (Nat × Nat)) (r : Res) : Prop :=
  match o with
  | .error e => r = 0 ∧ (e = .inval ↔ ¬ ValidAlign alignment)
  | .ok (ptr, raw) => ptr ≠ 0
      ∧ ∃ x, r = {x} ∧ Holding cfg ⟨ptr, raw, size, some alignment⟩ x

variable {x : Part × Option BigAllocMeta}

/-- The two words in front of an aligned pointer are written. -/
theorem tag_inv {f : Res} {ptr alignment : Nat} (size : Nat) (hs : Secrets cfg)
    (hvalid : ValidAlign alignment) (hI : HInv cfg s ({x} + f))
    (halloc : Allocated cfg x) (hwhole : x.1.kind ≠ .direct false)
    (hbehind : payload x.1 + tagSize ≤ ptr)
    (hroom : ptr + size < payload x.1 + capacity x) (hdvd : alignment ∣ ptr) :
    ∃ y, HInv cfg (s.onGround fun g =>
        (g.store 8 (ptr - tagSize) cfg.alignTag).store 8
          (ptr - offsetSize) (payload x.1)) ({y} + f)
      ∧ Holding cfg ⟨ptr, payload x.1, size, some alignment⟩ y := by
  have hbounds := halloc.bounds hI
  simp only [payload, tagSize, offsetSize, headerSize] at *
  let m := Mem.store 8 (Mem.store 8 s.mem (ptr - 16) cfg.alignTag)
    (ptr - 8) (header x.1 + 16)
  have hm : Mem.Only (ptr - 16) 16 s.mem m :=
    (Mem.Only.store le_rfl (by omega)).trans
      (.store (by omega) (by omega))
  obtain ⟨hI', halloc', hcap⟩ := halloc.write hI hm
    (by simp only [payload, headerSize]; omega)
    (by simp only [payload, headerSize]; omega)
  refine ⟨withData m x, hI', halloc', rfl, ?_, ?_, Or.inr ⟨alignment, rfl,
    hvalid, hbehind, hdvd, ?_, ?_, hwhole⟩⟩
  · rw [hcap]
    simp only
    omega
  · rw [hcap]
    simp only
    omega
  · refine (Mem.load_store_of_disjoint (by simp only [tagSize]; omega)).trans ?_
    exact Mem.load_store hs.tag_lt
  · exact Mem.load_store (by omega)

/-- `posix_align_inner`. -/
theorem posixAlignInner_runs (hs : Secrets cfg)
    (fuel tid alignment size : Nat) :
    Runs E P (HInv cfg) (posixAlignInner cfg fuel tid alignment size)
      (fun o _ r => GotAligned cfg alignment size o r) s 0 := by
  unfold posixAlignInner
  split
  · next hchecks =>
    exact Runs.ret ⟨rfl, fun _ => mt validAlign_iff.1 (not_not.2 hchecks),
      fun _ => rfl⟩
  next hchecks =>
  have hvalid := validAlign_iff.2 hchecks
  have hnomem : Errno.nomem = .inval ↔ ¬ ValidAlign alignment :=
    iff_of_false Errno.noConfusion (not_not.2 hvalid)
  split
  · exact Runs.ret ⟨rfl, hnomem⟩
  next total htotal =>
  have hsum : total = size + alignment + tagSize := by
    simp only [checkedAdd, Option.bind_eq_some_iff] at htotal
    obtain ⟨v, hv, htotal⟩ := htotal
    split at hv <;> cases hv
    split at htotal <;> cases htotal
    rfl
  refine (rsAlloc_runs fuel tid total true).andThen fun raw s' r hr => ?_
  split
  · next hz =>
    subst hz
    cases hr
    exact Runs.ret ⟨rfl, hnomem⟩
  next hne =>
  obtain ⟨x, rfl, halloc, rfl, hle, -, hwhole⟩ := hr.allocated hne
  refine Runs.bind (Runs.modify fun f _ hI => ?_)
  have hb := halloc.bounds hI
  have hstart : min (payload x.1 + tagSize) (2 ^ 64 - 1)
      = payload x.1 + tagSize := Nat.min_eq_left (by
    simp only [payload, headerSize, tagSize] at hb ⊢
    omega)
  rw [hstart]
  obtain ⟨h₁, h₂, h₃⟩ := alignTo_spec (n := payload x.1 + tagSize)
    (a := alignment) (by have := hvalid.1; omega) (by
      simp only [payload, headerSize, tagSize] at hb hsum ⊢
      omega)
  obtain ⟨y, hI', hy⟩ := tag_inv size hs hvalid hI halloc hwhole h₁ (by omega) h₃
  refine ⟨{y}, hI', Runs.ret ⟨?_, y, rfl, hy⟩⟩
  exact Nat.ne_of_gt (lt_of_lt_of_le (by simp only [tagSize]; omega) h₁)

/-- What a caller of `memalign_inner` gets. -/
def GotMemalign (cfg : Config) (alignment size : Nat) (o : Nat × Nat)
    (r : Res) : Prop :=
  o = (0, 0) ∧ r = 0
  ∨ o.1 ≠ 0 ∧ ∃ x, r = {x}
    ∧ Holding cfg ⟨o.1, o.2, size, some (max alignment 8)⟩ x

/-- `memalign_inner`. -/
theorem memalignInner_runs (hs : Secrets cfg)
    (fuel tid alignment size : Nat) :
    Runs E P (HInv cfg) (memalignInner cfg fuel tid alignment size)
      (fun o _ r => GotMemalign cfg alignment size o r) s 0 := by
  unfold memalignInner
  dsimp only
  split
  · exact Runs.ret (Or.inl ⟨rfl, rfl⟩)
  · refine (posixAlignInner_runs hs fuel tid _ size).andThen
      fun o s' r hr => ?_
    cases o with
    | error e => exact Runs.ret (Or.inl ⟨rfl, hr.1⟩)
    | ok b =>
        obtain ⟨hne, x, rfl, hx⟩ := hr
        exact Runs.ret (Or.inr ⟨hne, x, rfl, hx⟩)

-- ============================================================== clearing

/-- The payload from `a` on is zero, apart from the stamp of a region that
was made after the first tick of the clock. -/
structure Zeroed (s : State) (a n : Nat) (x : Part × Option BigAllocMeta) :
    Prop where
  rest : ∀ i < n, 4 ≤ i → x.1.data (a + i) = 0
  stamp : (∀ i < n, i < 4 → x.1.data (a + i) = 0)
    ∨ ∃ r, x.1.kind = .tile r ∧ (s.region r).birth ≠ 0
      ∧ Mem.load 4 x.1.data a = (s.region r).birth

theorem Zeroed.of_zero {a n : Nat} (h : ∀ i < n, x.1.data (a + i) = 0) :
    Zeroed s a n x :=
  ⟨fun i hi _ => h i hi, Or.inl fun i hi _ => h i hi⟩

theorem Zeroed.mono {a n k : Nat} (h : Zeroed s a k x) (hn : n ≤ k) :
    Zeroed s a n x :=
  ⟨fun i hi => h.rest i (hi.trans_le hn),
    h.stamp.imp_left fun h i hi => h i (hi.trans_le hn)⟩

/-- What `rs_calloc` knows of a payload it has got: it is cleared, or it
need not be. -/
def Clearable (s : State) (x : Part × Option BigAllocMeta) : Prop :=
  Header.flags x.1.data (header x.1) = allocatedFlag
  ∨ Header.flags x.1.data (header x.1) = trimmedFlag
  ∨ Header.flags x.1.data (header x.1) = zeroFlag
    ∧ header x.1 = x.1.base ∧ Blank s x.1

theorem Blank.zeroed {e : Option BigAllocMeta} {p : Part} {n : Nat}
    (h : Blank s p) (hn : headerSize + n ≤ p.len) :
    Zeroed s (p.base + headerSize) n (p, e) := by
  have hfirst : Mem.load 4 p.data (p.base + headerSize) = 0 →
      ∀ i < n, i < 4 → p.data (p.base + headerSize + i) = 0 := by
    intro hzero i _ hi
    rw [Mem.load_eq_zero_iff] at hzero
    exact hzero _ (Nat.le_add_right ..) (by omega)
  refine ⟨fun i hi hge => h.rest _ (by omega) (by omega), ?_⟩
  rcases h.stamp with hzero | ⟨r, hk, hbirth⟩
  · exact Or.inl (hfirst hzero)
  · by_cases hb : (s.region r).birth = 0
    · exact Or.inl (hfirst (hbirth.trans hb))
    · exact Or.inr ⟨r, hk, hb, hbirth⟩

/-- `calloc_zero!` on a payload of at least `n` bytes. -/
theorem callocZero_runs {actual n : Nat} (halloc : Allocated cfg x)
    (hclear : Clearable s x) (hactual : n ≤ actual) (hn : n ≤ capacity x) :
    Runs E P (HInv cfg) (Prog.modify (callocZero (payload x.1) actual n))
      (fun _ s' r => ∃ y, r = {y} ∧ Allocated cfg y
        ∧ y.1.kind = x.1.kind ∧ y.2 = x.2 ∧ payload y.1 = payload x.1
        ∧ capacity y = capacity x ∧ Zeroed s' (payload x.1) n y) s {x} := by
  refine Runs.modify fun f _ hI => ?_
  have hflags : Header.flags s.mem (payload x.1 - headerSize)
      = Header.flags x.1.data (header x.1) := by
    rw [payload, Nat.add_sub_cancel]
    exact halloc.load_eq hI (Nat.le_add_right ..)
      (by simp only [headerSize]; omega)
  unfold callocZero
  simp only [hflags, Nat.min_eq_right hactual]
  split
  · obtain ⟨hI', halloc', hcap⟩ := halloc.write (a := payload x.1) (n := n)
      (m := Mem.zero s.mem (payload x.1) n) hI
      (fun y hy => Mem.zero_apply_of_not hy) le_rfl (by omega)
    refine ⟨_, hI', _, rfl, halloc', rfl, rfl, rfl, hcap,
      .of_zero fun i hi => ?_⟩
    exact Mem.zero_apply (Nat.le_add_right ..) (by omega)
  · next hno =>
    refine ⟨_, hI, x, rfl, halloc, rfl, rfl, rfl, rfl, ?_⟩
    rcases hclear with hused | hused | ⟨-, hhead, hblank⟩
    · exact absurd (Or.inl hused) hno
    · exact absurd (Or.inr hused) hno
    · have hr := halloc.range
      unfold Piece.HasRange at hr
      rw [payload, hhead]
      exact hblank.zeroed (by omega)

/-- What a caller of `rs_calloc` gets. -/
def GotCleared (cfg : Config) (n : Nat) (o : Except RSMallocError Nat)
    (s : State) (r : Res) : Prop :=
  o = .ok 0 ∧ r = 0
  ∨ ∃ a x, o = .ok a ∧ a ≠ 0 ∧ r = {x}
    ∧ Holding cfg ⟨a, a, n, none⟩ x ∧ Zeroed s a n x
    ∧ (x.2.isSome → 2097152 < n)

theorem GotCleared.of_clear {n k : Nat} {r : Res} (hne : payload x.1 ≠ 0)
    (hn : n ≤ k) (hpos : 0 < k) (hk : k ≤ capacity x)
    (hkind : x.1.kind ≠ .direct true) (hlarge : x.2.isSome → 2097152 < n)
    (h : ∃ y, r = {y} ∧ Allocated cfg y ∧ y.1.kind = x.1.kind
      ∧ y.2 = x.2 ∧ payload y.1 = payload x.1 ∧ capacity y = capacity x
      ∧ Zeroed s (payload x.1) k y) :
    GotCleared cfg n (.ok (payload x.1)) s r := by
  obtain ⟨y, rfl, halloc, hsame, hentry, hpay, hcap, hzero⟩ := h
  rw [← hsame] at hkind
  refine Or.inr ⟨payload x.1, y, rfl, hne, rfl, ⟨halloc, hpay.symm, ?_, ?_,
    Or.inl ⟨rfl, rfl, hkind⟩⟩, hzero.mono hn, hentry ▸ hlarge⟩
  · rw [hcap]
    simp only
    omega
  · rw [hcap]
    simp only
    omega

/-- `rs_calloc`. -/
theorem rsCalloc_runs (fuel tid size nmem : Nat) :
    Runs E P (HInv cfg) (rsCalloc cfg fuel tid size nmem)
      (GotCleared cfg (size * nmem)) s 0 := by
  unfold rsCalloc
  split
  · exact Runs.ret (Or.inl ⟨rfl, rfl⟩)
  split
  · exact Runs.ret (Or.inl ⟨rfl, rfl⟩)
  next total htotal =>
  have hsum : total = size * nmem := by
    unfold checkedMul at htotal
    split at htotal <;> cases htotal
    exact Nat.mul_comm ..
  rw [← hsum]
  have hle : total ≤ max total 1 := Nat.le_max_left ..
  have hpos : 0 < max total 1 := lt_of_lt_of_le Nat.one_pos (Nat.le_max_right ..)
  refine (rsAlloc_runs fuel tid (max total 1) false).andThen fun a s' r hr => ?_
  split
  · next hz =>
    subst hz
    cases hr
    exact Runs.ret (Or.inl ⟨rfl, rfl⟩)
  next hne =>
  have hkind : ∀ x, r = {x} → x.1.kind ≠ .direct true := by
    intro x hx
    obtain ⟨y, hy, -, -, -, -, hk⟩ := hr.allocated hne
    rw [Multiset.singleton_inj.1 (hx.symm.trans hy)]
    exact hk
  cases hr with
  | null => exact absurd rfl hne
  | @small c p _ hcls hmark hflags =>
      obtain ⟨-, hfits⟩ := matchSizeClass_spec hcls
      have hcap : capacity (p, none) = sizeClass c := by
        rw [capacity, hmark.cls]
      rw [hcls]
      refine (callocZero_runs (x := (p, none)) ⟨c, hmark⟩ (Or.inl hflags) hfits
        (hfits.trans_eq hcap.symm)).andThen fun _ s'' r hr => Runs.ret ?_
      exact .of_clear hne hle hpos (hfits.trans_eq hcap.symm)
        (hkind _ rfl) nofun hr
  | @big p m _ hcls hbig hsize hal hflagged =>
      have hclear : Clearable s' (p, some m) := by
        rw [Clearable, hbig.header_eq]
        rcases hflagged with ⟨hflag, hblank⟩ | hflag | hflag
        · exact Or.inr (Or.inr ⟨hflag, rfl, hblank⟩)
        · exact Or.inl hflag
        · exact Or.inr (Or.inl hflag)
      rw [hcls]
      refine Runs.inv fun f _ hI => ?_
      have hentry : s'.bigMap (payload p) = some m := by
        rw [hbig.payload_eq]
        exact hI.entry_eq hbig.pos
      refine Runs.readThen ?_
      rw [hentry]
      refine (callocZero_runs (x := (p, some m)) hbig hclear hsize.ge
        hsize.ge).andThen fun _ s'' r hr => Runs.ret ?_
      refine .of_clear (x := (p, some m)) hne hle hpos hsize.ge
        (hkind _ rfl) (fun _ => ?_) hr
      rw [matchSizeClass_eq, referenceMatch_none] at hcls
      omega

end RsMalloc.Heap
