/-
No small block is handed out twice or lost.

All operations of the slab caches run in a pool of threads. Between two
calls a thread holds nothing; in the middle of one it holds the parts
its program is safe on. The headers that were ever initialised are
those of the blocks in `Space`, so counting parts by where they are
counts blocks by where they are: with the callers, on one list word, or
in the hands of one thread.
-/
import Mathlib.Algebra.BigOperators.Group.Finset.Preimage
import RsMalloc.Slab.Proofs

namespace RsMalloc.Slab

open Conc

variable {cfg : Config}

-- ================================================================= calls

/-- The payload of a block. -/
def payload (p : Part) : Nat := header p + headerSize

/-- What a caller holds is a block of some class. -/
def IsLive (cfg : Config) (p : Part) : Prop := ∃ c, BlockOk cfg c p

/-- Every call is safe on the payloads it takes. -/
theorem call_safe (fuel tid : Nat) (c : Call) {r : Multiset Part}
    (hr : StandsFor payload (IsLive cfg) c.takes r) :
    Safe (Inv cfg) (c.prog cfg fuel tid)
      (fun a r' => StandsFor payload (IsLive cfg) (c.gives a) r') r := by
  have hzero : c.takes = 0 → r = 0 := by
    intro h
    rw [h] at hr
    exact Multiset.map_eq_zero.1 hr.1
  cases c with
  | alloc size small =>
      cases hzero rfl
      have hc := (matchSizeClass_spec
        (Option.some_get small).symm).1
      refine (allocSmall_safe fuel tid hc).mono ?_
      rintro a r (⟨rfl, rfl⟩ | ⟨h, rfl, q, rfl, rfl, hok, -⟩)
      · exact .zero
      · refine ⟨?_, fun p hp => ?_⟩
        · rw [Multiset.map_singleton, Call.gives,
            if_neg (by simp only [headerSize]; omega)]
          rfl
        · rw [Multiset.mem_singleton] at hp
          exact ⟨_, hp ▸ hok.toBlockOk⟩
  | free a =>
      obtain ⟨hkey, hlive⟩ := hr
      obtain ⟨q, rfl, rfl⟩ := Multiset.map_eq_singleton.1 hkey
      obtain ⟨c, hok⟩ := hlive q (Multiset.mem_singleton_self q)
      apply Safe.bind
      refine (freeSmall_safe ⟨q, rfl, rfl, hok⟩).mono ?_
      rintro _ _ rfl
      exact .zero
  | trim requested =>
      cases hzero rfl
      refine (trimSmall_safe fuel requested).mono ?_
      rintro _ _ rfl
      exact .zero
  | exit =>
      cases hzero rfl
      apply Safe.bind
      refine (cleanupThreadBulk_safe tid).mono ?_
      rintro _ _ rfl
      exact .zero
  | tick stamp =>
      cases hzero rfl
      apply Safe.bind
      refine Safe.modify fun s g hinv => ⟨0, ?_, .zero⟩
      exact hinv.same rfl rfl rfl rfl

/-- Before the first call nothing is held anywhere. -/
theorem new_inv {D : Fate} (m : Mem) : InvOn cfg D (State.new m) 0 := by
  refine ⟨∅, fun _ => 0, fun _ _ => rfl, fun k => ?_, ?_⟩
  · cases k with
    | list k =>
        exact ⟨[], rfl, rfl, nofun⟩
    | spans k =>
        exact ⟨[], rfl, rfl, nofun,
          fun _ _ _ => Nat.zero_le _,
          fun _ _ _ q hq => absurd hq List.not_mem_nil⟩
    | arenas n =>
        exact ⟨[], ⟨⟨0, rfl, rfl⟩, rfl,
          nofun,
          nofun⟩, rfl⟩
    | retired => exact .zero
  · rw [Finset.sum_empty, zero_add]
    exact Space.new m

-- ============================================================== accounts

/-- The headers of parts, as a homomorphism. -/
def headersHom : Multiset Part →+ Multiset Nat where
  toFun := headers
  map_zero' := headers_zero
  map_add' _ _ := headers_add

theorem headers_sum {ι : Type} (S : Finset ι) (C : ι → Multiset Part) :
    headers (∑ i ∈ S, C i) = ∑ i ∈ S, headers (C i) :=
  map_sum headersHom C S

/-- The headers of parts that are all blocks. -/
theorem headers_of_blocks {A : Multiset Part}
    (h : ∀ p ∈ A, p.kind.isBlock = true) : headers A = A.map header := by
  rw [headers, Multiset.filter_eq_self.2 h]

/-- No two blocks have one header. -/
theorem headers_nodup {g : Ground} {T : Multiset Part}
    (h : Space cfg g T) : (headers T).Nodup := by
  refine Multiset.nodup_iff_count_le_one.2 fun x => ?_
  refine le_trans ?_ (h.holds.once x)
  rw [headers, Multiset.count_map, Multiset.filter_filter, cover,
    Multiset.countP_eq_card_filter]
  refine Multiset.card_le_card ?_
  refine Multiset.le_filter.2 ⟨Multiset.filter_le _ _, fun p hp => ?_⟩
  obtain ⟨hmem, hx, hb⟩ := Multiset.mem_filter.1 hp
  obtain ⟨c, hok⟩ := h.blocks hmem hb
  rw [hx]
  exact hok.has_header

/-- Where the initialised blocks are: `live` with callers, `lists k` on
the list word `k`, and `held t` in the hands of thread `t`. -/
structure Accounts {T : Type} [Fintype T] (s : State)
    (live : Multiset Nat) (S : Finset Shelf) (lists : Shelf → List Nat)
    (held : T → Multiset Nat) : Prop where
  linked : ∀ k, LinkedSeg (Header.next s.ground.mem) (s.list k) (lists k) 0
  cls : ∀ k, ∀ h ∈ lists k, Header.cls s.ground.mem h = k.cls
  outside : ∀ k, k ∉ S → lists k = []
  whole : (s.ground.inited : Multiset Nat)
    = live + ∑ k ∈ S, (lists k : Multiset Nat) + ∑ t, held t
  once : s.ground.inited.Nodup

/-- Only list words hold blocks. -/
theorem At.headers_eq_zero {D : Fate} {s : State} {k : Place}
    {X : Multiset Part} (h : At cfg D s k X) (hk : ∀ j, Place.list j ≠ k) : headers X = 0 := by
  cases k with
  | list k => exact absurd rfl (hk k)
  | spans k =>
      obtain ⟨l, rfl, hl⟩ := h
      exact headers_spanParts fun q hq => ⟨_, hl.ok q hq⟩
  | arenas n =>
      obtain ⟨l, hl, rfl⟩ := h
      exact Pages.headers_parts hl.ok
  | retired =>
      obtain ⟨l, rfl, hl⟩ := h
      have hok : ∀ q ∈ l.map Prod.snd, ∃ c, SpanOk cfg c q := by
        intro q hq
        obtain ⟨e, he, rfl⟩ := List.mem_map.1 hq
        exact ⟨e.1, (hl e he).1⟩
      exact headers_spanParts hok

/-- What is owned accounts for every block. -/
theorem Inv.accounts {T : Type} [Fintype T] {s : State}
    {L : Multiset Part} {held : T → Multiset Part}
    (h : Inv cfg s (L + ∑ t, held t)) (hL : ∀ p ∈ L, IsLive cfg p) :
    ∃ S lists, Accounts s (L.map header) S lists
      fun t => headers (held t) := by
  obtain ⟨S, C, hout, hplace, hsp⟩ := h
  choose l hl hlist using fun k => hplace (.list k)
  have hmem : ∀ k, ∀ p ∈ l k,
      p ∈ ∑ j ∈ S, C j + (L + ∑ t, held t) := by
    intro k p hp
    refine Multiset.mem_add.2 (Or.inl (Multiset.mem_sum.2
      ⟨.list k, ?_, ?_⟩))
    · by_contra hk
      have hzero := hout _ hk
      rw [hl k] at hzero
      rw [(Multiset.coe_eq_zero _).1 hzero] at hp
      exact absurd hp List.not_mem_nil
    · rw [hl k]
      exact hp
  have hlists : ∀ k, headers (C (.list k))
      = ((l k).map header : Multiset Nat) := by
    intro k
    rw [hl k, headers_of_blocks fun p hp => ((hlist k).2 p hp).isBlock,
      Multiset.map_coe]
  have hinj : Function.Injective Place.list := fun _ _ heq =>
    Place.list.inj heq
  refine ⟨S.preimage Place.list hinj.injOn, fun k => (l k).map header,
    fun k => ?_, fun k h hh => ?_, fun k hk => ?_, ?_, ?_⟩
  · exact (hlist k).1.linkedSeg fun p hp =>
      ((hlist k).2 p hp).next_eq hsp (hmem k p hp)
  · obtain ⟨p, hp, rfl⟩ := List.mem_map.1 hh
    exact ((hlist k).2 p hp).cls_eq hsp (hmem k p hp)
  · have hzero := hout (.list k) fun hin => hk (Finset.mem_preimage.2 hin)
    rw [hl k] at hzero
    rw [(Multiset.coe_eq_zero _).1 hzero]
    rfl
  · rw [hsp.inited, headers_add, headers_add, headers_sum, headers_sum,
      headers_of_blocks (A := L) fun p hp => ?_]
    · have hsum := Finset.sum_preimage Place.list S hinj.injOn
        (fun k => headers (C k)) fun k _ hk => (hplace k).headers_eq_zero
          fun j hj => hk ⟨j, hj⟩
      rw [← hsum]
      simp only [hlists]
      abel
    · obtain ⟨c, hok⟩ := hL p hp
      exact hok.isBlock
  · have hnd := headers_nodup hsp
    rw [← hsp.inited] at hnd
    exact Multiset.coe_nodup.1 hnd

/-- In every reachable state of any number of threads, each initialised
block is in exactly one place: with a caller, on one list word of its
class, or in the hands of one thread that is in the middle of a call. So
no payload is live twice, and no block disappears. -/
theorem slab_blocks_accounted {T : Type} [Fintype T] [DecidableEq T]
    (cfg : Config) (fuel : Nat) (tid : T → Nat) (m : Mem)
    {w : World T State Env Call Nat Nat}
    (hr : Reach (api T cfg fuel tid) (start T m) w) :
    ∃ live S lists held, Accounts w.state live S lists held
      ∧ w.live = live.map (· + headerSize) ∧ w.live.Nodup
      ∧ ∀ t, w.thread t = none → held t = 0 := by
  have h₀ : ∃ L held, Owned (api T cfg fuel tid) (Inv cfg) payload
      (IsLive cfg) (start T m) L held := by
    refine ⟨0, fun _ => 0, .zero, fun _ _ => rfl, ?_, nofun⟩
    rw [Finset.sum_const_zero, add_zero]
    exact new_inv m
  obtain ⟨L, held, howned⟩ := Owned.reach h₀
    (fun t c r _ _ hr _ => call_safe fuel (tid t) c hr) hr
  obtain ⟨S, lists, hacc⟩ := howned.inv.accounts howned.live.2
  have hlive : w.live = (L.map header).map (· + headerSize) := by
    rw [← howned.live.1, Multiset.map_map]
    rfl
  refine ⟨_, S, lists, _, hacc, hlive, ?_, fun t ht => ?_⟩
  · have hnd := Multiset.coe_nodup.2 hacc.once
    rw [hacc.whole] at hnd
    rw [hlive]
    refine Multiset.Nodup.map (fun a b hab => Nat.add_right_cancel hab) ?_
    exact Multiset.nodup_of_le ((Multiset.le_add_right _ _).trans
      (Multiset.le_add_right _ _)) hnd
  · rw [howned.idle t ht]
    rfl

/-- One CPU, one node, and room for spans. -/
def oneCpu : Config := .single (256 * 1024)

/-- The kernel maps what it is asked for at 65536. -/
def at65536 : Nat → Env := fun _ => { offer := some 65536 }

/-- An allocation of the class of 4096 bytes. -/
def alloc4000 : Call := .alloc 4000 (by decide +kernel)

/-- Two threads allocate, and the first one frees its block again: of the
two blocks that were initialised one is with a caller and one on a
list. -/
theorem slab_blocks_accounted_freed :
    ∃ (w : World (Fin 2) State Env Call Nat Nat) (live : Multiset Nat)
      (S : Finset Shelf) (lists : Shelf → List Nat)
      (held : Fin 2 → Multiset Nat),
      w.state.ground.inited = [86064, 69680] ∧ w.live = {86080}
      ∧ w.state.list (.hot 0 22) = 69680
      ∧ Accounts w.state live S lists held
      ∧ w.live = live.map (· + headerSize) ∧ w.live.Nodup
      ∧ ∀ t, w.thread t = none → held t = 0 := by
  have hcheck : ((alloc4000.prog oneCpu 8 0).exec at65536
      (State.new fun _ => 0)).bind (fun x =>
        ((alloc4000.prog oneCpu 8 1).exec at65536 x.2).bind fun y =>
          (((Call.free 69696).prog oneCpu 8 0).exec at65536 y.2).map
            fun z => (x.1, y.1, z.2.ground.inited, z.2.list (.hot 0 22)))
      = some (69696, 86080, [86064, 69680], 69680) := by
    decide +kernel
  obtain ⟨⟨a, s₁⟩, hfirst, hcheck⟩ := Option.bind_eq_some_iff.1 hcheck
  obtain ⟨⟨b, s₂⟩, hsecond, hcheck⟩ := Option.bind_eq_some_iff.1 hcheck
  obtain ⟨⟨c, s₃⟩, hfree, hcheck⟩ := Option.map_eq_some_iff.1 hcheck
  simp only [Prod.mk.injEq] at hcheck
  obtain ⟨rfl, rfl, hinited, hlist⟩ := hcheck
  have h₀ : Reach (api (Fin 2) oneCpu 8 Fin.val)
      (start (Fin 2) fun _ => 0) _ := .init
  have h₁ : Reach _ _ ⟨s₁, {69696}, fun _ => none⟩ :=
    h₀.exec 0 alloc4000 at65536 rfl (Multiset.zero_le _) hfirst
  have h₂ : Reach _ _ ⟨s₂, {69696, 86080}, fun _ => none⟩ :=
    h₁.exec 1 alloc4000 at65536 rfl (Multiset.zero_le _) hsecond
  have hheld : Call.takes (.free 69696) ≤ {69696, 86080} := by decide
  have h₃ : Reach _ _ ⟨s₃, {86080}, fun _ => none⟩ :=
    h₂.exec 0 (Call.free 69696) at65536 rfl hheld hfree
  obtain ⟨live, S, lists, held, h⟩ :=
    slab_blocks_accounted oneCpu 8 Fin.val (fun _ => 0) h₃
  exact ⟨_, live, S, lists, held, hinited, rfl, hlist, h⟩

end RsMalloc.Slab
