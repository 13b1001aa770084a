/-
A slab block that grows in place (realloc.rs).

A block that is alone in its span owns the span with its record. When
the page allocator has room behind the span, the bytes come to the
owner of the block as a part of the span that is not registered yet;
one more step registers them, writes the record and the class, and the
block is one of the larger class. Its payload keeps its bytes, its
header its mark.
-/
import RsMalloc.Ground.Growth
import RsMalloc.Slab.Proofs

namespace RsMalloc.Slab

open Conc

attribute [local irreducible] Mem.load

variable {cfg : Config} {D : Fate} {c c' v : Nat} {q : Part}

-- ================================================================== sizes

/-- What `align_to` makes of the bytes of a span with one block. -/
theorem alignTo_single (hc : c < numSizeClasses) (hone : iterations c = 1) :
    alignTo (metaDataSize + blockSize c) 4096 = pageUp (spanTotal c) := by
  have hlt := (spanTotal_bounds hc).2
  have htot : spanTotal c = metaDataSize + blockSize c := by
    rw [spanTotal, spanBlocks_of_iterations hc hone, Nat.mul_one]
  rw [← htot]
  simp only [alignTo, pageUp, pageSize]
  omega

theorem pageUp_pageUp (n : Nat) : pageUp (pageUp n) = pageUp n := by
  simp only [pageUp, pageSize]
  omega

/-- A larger class of one block per span takes more pages. -/
theorem pageUp_spanTotal_lt (hc : c < numSizeClasses)
    (hc' : c' < numSizeClasses) (hone : iterations c = 1)
    (hone' : iterations c' = 1) (hlt : sizeClass c < sizeClass c') :
    pageUp (spanTotal c) < pageUp (spanTotal c') := by
  have hall : ∀ c < numSizeClasses, ∀ c' < numSizeClasses,
      iterations c = 1 → iterations c' = 1 → sizeClass c < sizeClass c' →
      pageUp (spanTotal c) < pageUp (spanTotal c') := by
    decide +kernel
  exact hall c hc c' hc' hone hone' hlt

-- ================================================================== steps

section Steps

variable {s : State} {F : Multiset Part}

/-- A block that is alone, as a part. -/
theorem alone_part (hok : BlockOk cfg c q) (hone : iterations c = 1) :
    ∃ o, q.kind = .solo o ∧ q.base = o.start ∧ iterations o.cls = 1
      ∧ o.cls < numSizeClasses ∧ q.len = pageUp (spanTotal c)
      ∧ header q = q.base + metaDataSize := by
  obtain ⟨o, hkind, hsits⟩ := hok.origin
  obtain ⟨hone', hstart⟩ := hsits.alone hone
  have hlen := hok.len
  rw [blockKind, if_pos hone] at hkind
  rw [extent, if_pos hone] at hlen
  exact ⟨o, hkind, hstart, hone', hsits.cls, hlen, hok.header_alone hone⟩

/-- `try_grow_inplace` on the span of a block: nothing, or the bytes
behind it. -/
theorem pageGrow_inv (env : Env) (fuel node new : Nat)
    (hok : BlockOk cfg c q) (hone : iterations c = 1)
    (hnew : pageUp (spanTotal c) < new) (hpage : new % pageSize = 0)
    (hmax : new < 2 ^ 64 - pageSize) (h : InvOn cfg D s ({q} + F))
    {out : Bool × Pages.PageState}
    (hout : Pages.tryGrowInplace cfg env fuel node q.base
      (pageUp (spanTotal c)) new s.pages = out) :
    ∃ r, InvOn cfg D { s with
        pages := out.2
        ground := if out.1 then s.ground.regrant q.base new else s.ground }
        (r + F)
      ∧ (out.1 = false ∧ r = {q}
        ∨ out.1 = true ∧ ∃ o data, q.kind = .solo o
          ∧ r = {⟨.more o, q.base + q.len, new - q.len, data⟩} + {q}) := by
  obtain ⟨o, hkind, hstart, -, -, hlen, -⟩ := alone_part hok hone
  have hup := pageUp_spec (spanTotal c)
  have hpos : 0 < pageUp (spanTotal c) := by
    have htot : metaDataSize ≤ spanTotal c := Nat.le_add_right _ _
    simp only [metaDataSize] at htot
    omega
  have halign : ∀ n, n % pageSize = 0 → 0 < n → n < 2 ^ 64 - pageSize →
      alignTo (max n 1) pageSize = n := by
    intro n hn hpos hlt
    simp only [pageSize] at hn hlt
    simp only [alignTo, pageSize]
    omega
  refine Stocked.exchange (.arenas (Pages.nodeOf cfg node)) h ?_
  intro X H hX hsp
  have hspec := Pages.tryGrowInplace_spec env fuel q.base
    (pageUp (spanTotal c)) new hX hsp
  rw [hout, halign _ hup.2.2 hpos (by omega),
    halign _ hpage (by omega) hmax] at hspec
  have hle : ∀ {Y}, Y ≤ H → Y ≤ {q} + H := fun hY =>
    hY.trans (Multiset.le_add_left _ _)
  cases hspec with
  | no =>
      exact ⟨X, {q}, hX, hsp, Or.inl ⟨rfl, rfl⟩,
        fun _ _ hj hY => At.other_node (Pages.Keeps.refl _ _ _) hj hY⟩
  | fits hle => exact absurd hle (Nat.not_le.2 hnew)
  | @more s' X' m data hlt arenas space above keeps =>
      refine ⟨X', _, arenas, ?_, Or.inr ⟨rfl, o, data, hkind, rfl⟩,
        fun _ _ hj hY => At.other_node keeps hj (hle hY)⟩
      rw [show X' + ({(⟨.raw m, q.base + pageUp (spanTotal c),
          new - pageUp (spanTotal c), data⟩ : Part)} + ({q} + H))
        = {q} + ({⟨.raw m, q.base + pageUp (spanTotal c),
          new - pageUp (spanTotal c), data⟩} + (X' + H)) by abel] at space
      have hext := space.extend hkind hstart (by omega) rfl
        (by simp only [hlen]) (by simp only; omega)
      rw [show q.len + (new - pageUp (spanTotal c)) = new by omega] at hext
      rw [hlen, show ∀ A : Part, X' + ({A} + {q} + H)
        = {A} + ({q} + (X' + H)) by intro A; abel]
      exact hext

/-- The memory after the writes that let the block `q` grow: the end and
the free address of its record, then its class. -/
def grownMem (q : Part) (c' : Nat) (g : Ground) : Mem :=
  (Header.setCls (header q) c' (MetaData.setNext q.base
    (q.base + spanTotal c')
    (MetaData.setEnd q.base (q.base + spanTotal c') g))).mem

section Writes

variable {g : Ground}

/-- Outside the record only the byte of the class is written. -/
theorem grownMem_keep {x : Nat} (h₁ : x < q.base ∨ q.base + 48 ≤ x)
    (h₂ : x ≠ header q + 9) : grownMem q c' g x = g.mem x := by
  refine (Mem.Only.store le_rfl le_rfl x (by omega)).trans ?_
  exact (MetaData.only_setEnd.trans MetaData.only_setNext) x (by omega)

variable (hhead : header q = q.base + metaDataSize)
include hhead

theorem grownMem_load {a w : Nat} (h₁ : header q ≤ a)
    (h₂ : a + w ≤ header q + 9 ∨ header q + 10 ≤ a) :
    Mem.load w (grownMem q c' g) a = Mem.load w g.mem a := by
  simp only [metaDataSize] at hhead
  exact Mem.load_congr fun x h₃ h₄ => grownMem_keep (by omega) (by omega)

/-- All writes are inside the block's bytes. -/
theorem grownMem_only (hlen : metaDataSize + headerSize ≤ q.len) :
    Mem.Only q.base q.len g.mem (grownMem q c' g) := by
  simp only [metaDataSize, headerSize] at hhead hlen
  exact fun x hx => grownMem_keep (by omega) (by omega)

/-- The record afterwards: it ends behind the larger block, and has
nothing left to hand out. -/
theorem grownMem_record (hlt : q.base + spanTotal c' < 2 ^ 64) :
    MetaData.start (grownMem q c' g) q.base = MetaData.start g.mem q.base
      ∧ MetaData.end_ (grownMem q c' g) q.base = q.base + spanTotal c'
      ∧ MetaData.next (grownMem q c' g) q.base = q.base + spanTotal c' := by
  simp only [metaDataSize] at hhead
  have hmeta : ∀ w a, a + w ≤ q.base + 48 →
      Mem.load w (grownMem q c' g) a = Mem.load w (MetaData.setNext q.base
        (q.base + spanTotal c')
        (MetaData.setEnd q.base (q.base + spanTotal c') g)).mem a :=
    fun w a h₁ => Mem.load_store_of_disjoint (Or.inl (by omega))
  refine ⟨?_, ?_, ?_⟩
  · rw [MetaData.start, hmeta 8 _ (by omega)]
    exact MetaData.start_setNext.trans MetaData.start_setEnd
  · rw [MetaData.end_, hmeta 8 _ (by omega)]
    exact MetaData.end_setNext.trans (MetaData.end_setEnd hlt)
  · rw [MetaData.next, hmeta 8 _ (by omega)]
    exact MetaData.next_setNext hlt

end Writes

/-- The grown block as a part. -/
def grownPart (o : Origin) (q : Part) (c' : Nat) (g : Ground) : Part :=
  ⟨.solo o, q.base, pageUp (spanTotal c'), grownMem q c' g⟩

/-- A grown block is a block of the larger class, alone in its span. -/
theorem grownPart_ok {o : Origin} {g : Ground} {T : Multiset Part}
    (hq : BlockOk cfg c q) (hone : iterations c = 1)
    (hc' : c' < numSizeClasses) (hone' : iterations c' = 1)
    (hkind : q.kind = .solo o) (hlt : q.base + spanTotal c' < 2 ^ 64)
    (hg : Space cfg g T) (hmem : q ∈ T) :
    BlockOk cfg c' (grownPart o q c' g) := by
  obtain ⟨o₁, hkind₁, hstart, hone₁, hcls₁, -, hhead⟩ := alone_part hq hone
  rw [hkind] at hkind₁
  cases hkind₁
  obtain ⟨hrecStart, hrecEnd, hrecNext⟩ :=
    grownMem_record (g := g) hhead hlt
  refine .ofAlone hc' hone' hcls₁ hone₁ hstart ?_ (hhead ▸ hq.align)
    ⟨?_, hrecEnd⟩ hrecNext
  · rw [← hhead]
    exact Header.cls_setCls (by simp only [numSizeClasses] at hc'; omega)
  · refine hrecStart.trans ((hg.load_eq hmem ?_).trans
      (hq.record hone).1.start)
    have hr := hq.range
    unfold Piece.HasRange at hr ⊢
    simp only [metaDataSize] at hhead
    omega

/-- The record and the class of a block that has grown. -/
theorem grown_inv {o : Origin} {data : Mem} (hq : Marked cfg c v q)
    (hone : iterations c = 1) (hc' : c' < numSizeClasses)
    (hone' : iterations c' = 1) (hkind : q.kind = .solo o)
    (hlt : pageUp (spanTotal c) < pageUp (spanTotal c'))
    (halign : q.base % pageSize = 0)
    (h : InvOn cfg D s ({⟨.more o, q.base + q.len,
      pageUp (spanTotal c') - q.len, data⟩} + {q} + F)) :
    ∃ q', InvOn cfg D (s.onGround fun g =>
        Header.setCls (header q) c' ((MetaData.setNext q.base
          (MetaData.end_ (MetaData.setEnd q.base
            (q.base + spanTotal c') g).mem q.base)
          (MetaData.setEnd q.base (q.base + spanTotal c') g)).setRange
            q.base (pageUp (spanTotal c')) true)) ({q'} + F)
      ∧ header q' = header q ∧ Marked cfg c' v q'
      ∧ ∀ x, header q + 16 ≤ x → x < header q + blockSize c →
        q'.data x = q.data x := by
  obtain ⟨-, -, -, -, -, hlen, hhead⟩ := alone_part hq.toBlockOk hone
  have hup := pageUp_spec (spanTotal c')
  have hrange := hq.range
  have hroom := hq.headerRange
  unfold Piece.HasRange at hrange hroom
  obtain ⟨H₀, hH₀⟩ := h.space
  have hlim := hH₀.end_le (p := ⟨.more o, q.base + q.len,
    pageUp (spanTotal c') - q.len, data⟩) (by simp) (by simp only; omega)
  simp only at hlim
  have hmem : q ∈ ({⟨.more o, q.base + q.len,
      pageUp (spanTotal c') - q.len, data⟩} + {q} + F + H₀ :
      Multiset Part) := by simp
  have hend : q.base + spanTotal c' < 2 ^ 64 := by omega
  have hread := MetaData.end_setEnd (a := q.base) (g := s.ground) hend
  have hok' := grownPart_ok hq.toBlockOk hone hc' hone' hkind hend hH₀ hmem
  have hnew : header (grownPart o q c' s.ground) = header q := hhead.symm
  -- the header keeps its link and its mark, the payload its bytes
  have hlink : Linked s.ground (grownPart o q c' s.ground) := by
    have hold := hH₀.links q hmem hq.isBlock
    rw [Linked, ← hq.next_eq hH₀ hmem] at hold
    have hsame : Header.next (grownMem q c' s.ground) (header q)
        = Header.next s.ground.mem (header q) :=
      grownMem_load hhead le_rfl (Or.inl (by omega))
    rw [Linked, link, hnew]
    exact hsame.symm ▸ hold
  have hmagic : Header.magic (grownMem q c' s.ground) (header q)
      = v % 2 ^ 16 :=
    (grownMem_load hhead (by omega) (by omega)).trans
      ((hq.magic_eq hH₀ hmem).trans hq.magic)
  refine ⟨grownPart o q c' s.ground, h.keep rfl rfl rfl fun H hH => ?_,
    hnew, ⟨hok', by rw [hnew]; exact hmagic⟩, fun x h₁ h₂ => ?_⟩
  · -- register the bytes behind it, then join them to the block
    rw [add_assoc] at hH
    have htotal : q.len + (pageUp (spanTotal c') - q.len)
        = pageUp (spanTotal c') := by omega
    have hreg := hH.registerMore (n := pageUp (spanTotal c')) hkind rfl
      halign rfl (by rw [htotal, pageUp_pageUp]) (by omega)
    have hspace := hreg.swallow (m := grownMem q c' s.ground) (c := c')
      hkind rfl rfl (by omega) (by simp only; omega)
      (grownMem_only hhead (by simp only [headerSize]; omega))
    simp only [htotal] at hspace
    show Space cfg (Header.setCls (header q) c' (Ground.setRange q.base
      (pageUp (spanTotal c')) true (MetaData.setNext q.base
        (MetaData.end_ (MetaData.setEnd q.base (q.base + spanTotal c')
          s.ground).mem q.base)
        (MetaData.setEnd q.base (q.base + spanTotal c') s.ground)))) _
    rw [hread]
    exact hspace hlink hok'
  · refine (grownMem_keep (by simp only [metaDataSize] at hhead; omega)
      (by omega)).trans (hH₀.holds.agree q hmem x ⟨by omega, by omega⟩)

end Steps

-- ================================================================ growing

/-- What is left of a block after `small_realloc` has tried to let it
grow: the block as it was, or one of the larger class with the old
payload in place. -/
def Regrown (cfg : Config) (c c' v : Nat) (q : Part) (grown : Bool)
    (r : Multiset Part) : Prop :=
  grown = false ∧ r = {q}
  ∨ grown = true ∧ ∃ q', r = {q'} ∧ header q' = header q
    ∧ Marked cfg c' v q'
    ∧ ∀ x, header q + 16 ≤ x → x < header q + blockSize c →
      q'.data x = q.data x

/-- The middle of `small_realloc`. -/
theorem growInplace_safe (fuel : Nat) (hq : Marked cfg c v q)
    (hone : iterations c = 1) (hc' : c' < numSizeClasses)
    (hone' : iterations c' = 1) (hlt : sizeClass c < sizeClass c') :
    Safe (InvOn cfg D) (growInplace cfg fuel (header q) c c')
      (fun grown r => Regrown cfg c c' v q grown r) {q} := by
  obtain ⟨o, hkind, hstart, -, -, hlen, hhead⟩ :=
    alone_part hq.toBlockOk hone
  have hpages := pageUp_spanTotal_lt hq.lt hc' hone hone' hlt
  have hup' := pageUp_spec (spanTotal c')
  have hmax := (spanTotal_bounds hc').2
  have htot' : metaDataSize + blockSize c' = spanTotal c' := by
    rw [spanTotal, spanBlocks_of_iterations hc' hone', Nat.mul_one]
  unfold growInplace
  apply Safe.bind
  refine Safe.read fun s g hinv => ?_
  have hbase : (header q + 2 ^ 64 - metaDataSize) % 2 ^ 64 = q.base := by
    obtain ⟨H, hsp⟩ := hinv.space
    have hb := (hsp.bounds (p := q) (by simp) hq.has_header).2
    simp only [userLimit] at hb
    simp only [metaDataSize] at hhead ⊢
    omega
  dsimp only
  rw [hbase, alignTo_single hq.lt hone, alignTo_single hc' hone', htot']
  split
  · next hcheck =>
    apply Safe.bind
    refine Safe.atomic fun env s' g' hinv' => ?_
    obtain ⟨r, hinv'', hr⟩ := pageGrow_inv env fuel _ _ hq.toBlockOk hone
      hpages hup'.2.2 (by simp only [pageSize] at hup' ⊢; omega) hinv' rfl
    generalize Pages.tryGrowInplace cfg env fuel _ q.base
      (pageUp (spanTotal c)) (pageUp (spanTotal c')) s'.pages = out
      at hinv'' hr ⊢
    obtain ⟨grown, pages⟩ := out
    refine ⟨r, hinv'', ?_⟩
    apply Safe.bind
    rcases hr with ⟨hgrown, rfl⟩ | ⟨hgrown, o', data, hk', rfl⟩ <;>
      dsimp only at hgrown <;> subst hgrown
    · exact Safe.when (fun h => absurd h Bool.false_ne_true)
        fun _ => Or.inl ⟨rfl, rfl⟩
    · refine Safe.when (fun _ => ?_) fun h => absurd rfl h
      refine Safe.modify fun s'' g'' hinv₂ => ?_
      obtain ⟨q', hinv₃, hhead', hq', hdata⟩ := grown_inv hq hone hc' hone'
        hk' hpages hcheck.1 hinv₂
      exact ⟨{q'}, hinv₃, Or.inr ⟨rfl, q', rfl, hhead', hq', hdata⟩⟩
  · exact Or.inl ⟨rfl, rfl⟩

end RsMalloc.Slab
