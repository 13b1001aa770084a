/-
What a forced trim of the buddy backend does, to the byte.

`Sweep` is a relation that the loops of `trim_inner` build up (`Walk`):
the blocks it has given back, latest first, with everything that follows
from the list. The count is their bytes without the first page, the calls
are theirs, memory has changed inside them only, and nothing else of the
heap has changed. If the walk stopped, the block given back last is the
one that reached the request.

A block is given back when it is neither untouched nor trimmed already,
so the list is made of the blocks whose `trim_state` has changed.
-/
import RsMalloc.Heap.Trimming

namespace RsMalloc.Heap

open Conc
open Slab (Advice)

attribute [local irreducible] Mem.load

-- ============================================================ single blocks

/-- The bytes that a trim counts for a block. -/
def trimBytes (x : Nat × Nat) : Nat := 2 ^ x.2 - pageSize

/-- The call that a trim makes for a block, when it succeeds. -/
def adviceOf (x : Nat × Nat) : Advice :=
  ⟨x.1, trimBytes x, x.1 + pageSize, trimBytes x, true⟩

/-- What a trim may write of a block: `life_time`, `trim_state`, and the
pages after the first. -/
def Touched (x : Nat × Nat) (y : Nat) : Prop :=
  x.1 + 16 ≤ y ∧ y < x.1 + 21 ∨ x.1 + pageSize ≤ y ∧ y < x.1 + 2 ^ x.2

/-- The bytes counted for some blocks. -/
def sweptBytes (l : List (Nat × Nat)) : Nat := (l.map trimBytes).sum

/-- What is still to be trimmed, or the request is for everything. -/
def Below (requested total : Nat) : Prop :=
  requested = 0 ∨ total < requested

/-- The blocks of `D` were visited, and those of `log` given back. -/
structure Sweep (requested : Nat) (D : Set (Nat × Nat)) (total : Nat)
    (h : State) (log : List (Nat × Nat)) (out : Bool × Nat) (h' : State) :
    Prop where
  sub : ∀ x ∈ log, x ∈ D
  nodup : log.Nodup
  was : ∀ x ∈ log, ¬ Settled h.mem x.1
  now : ∀ x ∈ log,
    Buddy.FreeBlock.trimState h'.mem x.1 = Buddy.trimTrimmed
  mem : ∀ y, (∀ x ∈ log, ¬ Touched x y) → h'.mem y = h.mem y
  rest : h' = h.swept h'.mem (log.map adviceOf)
  total_eq : out.2 = min (total + sweptBytes log) (2 ^ 64 - 1)
  done : out.1 = false → ∀ x ∈ D, Settled h'.mem x.1
  below : Below requested total → out.1 = false → Below requested out.2
  stopped : Below requested total → out.1 = true →
    requested ≠ 0 ∧ requested ≤ out.2 ∧ ∃ x l, log = x :: l
      ∧ min (total + sweptBytes l) (2 ^ 64 - 1) < requested

namespace Sweep

variable {requested total : Nat} {D D₁ D₂ U : Set (Nat × Nat)}
  {h h' h'' : State} {log log₁ log₂ : List (Nat × Nat)}
  {out : Bool × Nat}

/-- Nothing is done, and nothing had to be. -/
theorem idle (htotal : total < 2 ^ 64)
    (hdone : ∀ x ∈ D, Settled h.mem x.1) :
    Sweep requested D total h [] (false, total) h where
  sub := nofun
  nodup := List.nodup_nil
  was := nofun
  now := nofun
  mem _ _ := rfl
  rest := rfl
  total_eq := by
    show total = min (total + 0) _
    omega
  done _ := hdone
  below hb _ := hb
  stopped _ := Bool.noConfusion

/-- A stop is a stop of the whole walk. -/
theorem widen {t : Nat} (hp : Sweep requested D₁ total h log (true, t) h')
    (hsub : D₁ ⊆ D) : Sweep requested D total h log (true, t) h' where
  sub x hx := hsub (hp.sub x hx)
  nodup := hp.nodup
  was := hp.was
  now := hp.now
  mem := hp.mem
  rest := hp.rest
  total_eq := hp.total_eq
  done := Bool.noConfusion
  below _ := Bool.noConfusion
  stopped := hp.stopped

/-- What none of the blocks given back touches is not seen to change. -/
theorem load (hp : Sweep requested D total h log out h') {a w : Nat}
    (hd : ∀ x ∈ log, ∀ y, a ≤ y → y < a + w → ¬ Touched x y) :
    Mem.load w h'.mem a = Mem.load w h.mem a :=
  Mem.load_congr fun y hy hy' => hp.mem y fun x hx => hd x hx y hy hy'

section Others

variable (hp : Sweep requested D total h log out h') (hD : D ⊆ U)
  (hU : Spread U) (hbig : ∀ x ∈ U, pageSize < 2 ^ x.2) {x : Nat × Nat}
  (hx : x ∈ U)
include hp hD hU hbig hx

/-- Nor is the first page of a block, but for what giving the block back
touches. -/
theorem load_page {a w : Nat} (ha : x.1 ≤ a) (hw : a + w ≤ x.1 + pageSize)
    (hself : x ∈ log → ∀ y, a ≤ y → y < a + w → ¬ Touched x y) :
    Mem.load w h'.mem a = Mem.load w h.mem a := by
  refine hp.load fun y hy z hz hz' htouch => ?_
  by_cases heq : y = x
  · subst heq
    exact hself hy z hz hz' htouch
  · have hy := hD (hp.sub y hy)
    have hapart := hU y hy x hx heq
    have hbx := hbig x hx
    have hby := hbig y hy
    simp only [pageSize, Touched] at hw hbx hby htouch
    omega

/-- The links of a block are not touched. -/
theorem next_eq :
    Buddy.FreeBlock.next h'.mem x.1 = Buddy.FreeBlock.next h.mem x.1 := by
  refine hp.load_page hD hU hbig hx le_rfl
    (Nat.add_le_add_left (by decide) _) fun _ z hz hz' htouch => ?_
  simp only [pageSize, Touched] at htouch
  omega

/-- A block that is not given back keeps its state. -/
theorem trimState_eq (hnot : x ∉ log) :
    Buddy.FreeBlock.trimState h'.mem x.1
      = Buddy.FreeBlock.trimState h.mem x.1 := by
  refine hp.load_page hD hU hbig hx (Nat.le_add_right ..) ?_
    fun hin => absurd hin hnot
  exact Nat.add_le_add_left (show 20 + 1 ≤ pageSize by decide) _

end Others

/-- Some blocks, then others. -/
theorem trans (hU : Spread U) (hbig : ∀ x ∈ U, pageSize < 2 ^ x.2)
    (hD₁ : D₁ ⊆ U) (hD₂ : D₂ ⊆ U) (hdisj : Disjoint D₁ D₂) {t : Nat}
    (h₁ : Sweep requested D₁ total h log₁ (false, t) h')
    (h₂ : Sweep requested D₂ t h' log₂ out h'') :
    Sweep requested (D₁ ∪ D₂) total h (log₂ ++ log₁) out h'' := by
  have hfirst : ∀ x ∈ D₁, Buddy.FreeBlock.trimState h''.mem x.1
      = Buddy.FreeBlock.trimState h'.mem x.1 := fun x hx =>
    h₂.trimState_eq hD₂ hU hbig (hD₁ hx) fun hin =>
      Set.disjoint_left.1 hdisj hx (h₂.sub x hin)
  have hsecond : ∀ x ∈ D₂, Buddy.FreeBlock.trimState h'.mem x.1
      = Buddy.FreeBlock.trimState h.mem x.1 := fun x hx =>
    h₁.trimState_eq hD₁ hU hbig (hD₂ hx) fun hin =>
      Set.disjoint_left.1 hdisj (h₁.sub x hin) hx
  have hbytes : ∀ l, min (t + sweptBytes l) (2 ^ 64 - 1)
      = min (total + sweptBytes (l ++ log₁)) (2 ^ 64 - 1) := by
    intro l
    have ht := h₁.total_eq
    simp only [sweptBytes, List.map_append, List.sum_append] at ht ⊢
    omega
  constructor
  case sub =>
    intro x hx
    exact (List.mem_append.1 hx).elim (fun hx => Or.inr (h₂.sub x hx))
      fun hx => Or.inl (h₁.sub x hx)
  case nodup =>
    refine h₂.nodup.append h₁.nodup fun x hx₂ hx₁ => ?_
    exact Set.disjoint_left.1 hdisj (h₁.sub x hx₁) (h₂.sub x hx₂)
  case was =>
    intro x hx
    cases List.mem_append.1 hx with
    | inl hx =>
        have hwas := h₂.was x hx
        rw [Settled, hsecond x (h₂.sub x hx)] at hwas
        exact hwas
    | inr hx => exact h₁.was x hx
  case now =>
    intro x hx
    cases List.mem_append.1 hx with
    | inl hx => exact h₂.now x hx
    | inr hx =>
        rw [hfirst x (h₁.sub x hx)]
        exact h₁.now x hx
  case mem =>
    intro y hy
    rw [h₂.mem y fun x hx => hy x (List.mem_append_left _ hx),
      h₁.mem y fun x hx => hy x (List.mem_append_right _ hx)]
  case rest =>
    rw [List.map_append]
    exact State.swept_trans h₁.rest h₂.rest
  case total_eq => rw [h₂.total_eq, hbytes]
  case done =>
    intro hout x hx
    cases hx with
    | inl hx =>
        rw [Settled, hfirst x hx]
        exact h₁.done rfl x hx
    | inr hx => exact h₂.done hout x hx
  case below => exact fun hb hout => h₂.below (h₁.below hb rfl) hout
  case stopped =>
    intro hb hout
    obtain ⟨hne, hle, x, l, rfl, hlt⟩ := h₂.stopped (h₁.below hb rfl) hout
    refine ⟨hne, hle, x, l ++ log₁, rfl, ?_⟩
    rw [← hbytes]
    exact hlt

end Sweep

-- ===================================================================== walk

/-- One block is given back. -/
theorem Sweep.call {requested total t : Nat} {x : Nat × Nat} {h h' : State}
    (htotal : total < 2 ^ 64) (hset : ¬ Settled h.mem x.1)
    (hnow : Buddy.FreeBlock.trimState h'.mem x.1 = Buddy.trimTrimmed)
    (hmem : ∀ y, ¬ Touched x y → h'.mem y = h.mem y)
    (hrest : h' = h.swept h'.mem [adviceOf x])
    (ht : t = min (total + trimBytes x) (2 ^ 64 - 1)) :
    Sweep requested {x} total h [x]
      (decide (true = true ∧ requested ≠ 0 ∧ t ≥ requested), t) h' where
  sub _ hy := List.mem_singleton.1 hy
  nodup := List.nodup_singleton x
  was y hy := by
    rw [List.mem_singleton.1 hy]
    exact hset
  now y hy := by
    rw [List.mem_singleton.1 hy]
    exact hnow
  mem y hy := hmem y (hy x (List.mem_singleton_self x))
  rest := hrest
  total_eq := by
    rw [ht, sweptBytes, List.map_singleton, List.sum_singleton]
  done _ y hy := by
    rw [Set.mem_singleton_iff.1 hy]
    exact Or.inr hnow
  below _ hout := by
    have hstop : ¬ (requested ≠ 0 ∧ t ≥ requested) := fun hstop =>
      of_decide_eq_false hout ⟨rfl, hstop⟩
    show requested = 0 ∨ t < requested
    omega
  stopped hb hout := by
    have hstop := of_decide_eq_true hout
    refine ⟨hstop.2.1, hstop.2.2, x, [], rfl, ?_⟩
    show min (total + 0) _ < requested
    have hb : requested = 0 ∨ total < requested := hb
    omega

/-- The part of `trim_inner` that gives a block back, when the advice
succeeds. -/
theorem trimBlock_sweeps {E : Env → Prop} {halts : Prop}
    (hE : ∀ i, E i → i.ok = true) {requested total stamp : Nat}
    {x : Nat × Nat} {h : State} (hx : pageSize < 2 ^ x.2)
    (htotal : total < 2 ^ 64) (hset : ¬ Settled h.mem x.1) :
    Alone E halts (trimBlock x.2 stamp x.1 total)
      (fun t h' => Sweep requested {x} total h [x]
        (decide (true = true ∧ requested ≠ 0 ∧ t ≥ requested), t) h') h := by
  unfold trimBlock adviseBlock
  apply Alone.bind
  refine Alone.atomic fun i hi => ?_
  rw [hE i hi]
  refine Alone.bind (Alone.modify (Alone.bind (Alone.modify (Alone.ret ?_))))
  refine Sweep.call htotal hset ?_ (fun y hy => ?_) rfl (if_pos rfl)
  · exact (Mem.load_store_of_disjoint (by omega)).trans
      (Mem.load_store (by decide))
  · simp only [Touched, not_or] at hy
    refine (Mem.store_apply_of_not (by omega)).trans
      ((Mem.store_apply_of_not (by omega)).trans (if_neg fun hin => ?_))
    simp only [pageSize] at hx hy hin
    omega

/-- The loops of a forced trim build up a sweep. -/
theorem Sweep.walk {E : Env → Prop} {halts : Prop}
    (hE : ∀ i, E i → i.ok = true) {requested stamp avgLife : Nat}
    {U : Set (Nat × Nat)} (hU : Spread U)
    (hbig : ∀ x ∈ U, pageSize < 2 ^ x.2) :
    Walk E halts true requested stamp avgLife U
      (fun D total h out h' => ∃ log, Sweep requested D total h log out h')
      where
  none htotal := ⟨[], .idle htotal fun x hx => absurd hx (Set.notMem_empty x)⟩
  skip _ htotal hset := by
    refine ⟨[], .idle htotal fun y hy => ?_⟩
    rw [Set.mem_singleton_iff.1 hy]
    exact hset
  visit {x total h} hx htotal hset := by
    rw [if_pos ⟨Or.inl rfl, hbig x hx⟩]
    exact (trimBlock_sweeps hE (hbig x hx) htotal hset).mono
      fun t h' hp => ⟨[x], hp⟩
  widen hp hsub := by
    obtain ⟨log, hp⟩ := hp
    exact ⟨log, hp.widen hsub⟩
  trans hD hD' hdisj h₁ h₂ := by
    obtain ⟨log₁, h₁⟩ := h₁
    obtain ⟨log₂, h₂⟩ := h₂
    exact ⟨_, h₁.trans hU hbig hD hD' hdisj h₂⟩
  bound hp := by
    obtain ⟨log, hp⟩ := hp
    have := hp.total_eq
    omega
  region hp := by
    obtain ⟨log, hp⟩ := hp
    rw [hp.rest]
    rfl
  next hp hD hx := by
    obtain ⟨log, hp⟩ := hp
    exact hp.next_eq hD hU hbig hx

-- ==================================================================== trim

/-- The backend's free lists hold these blocks. No two of them overlap,
and each is in one of the three states. -/
structure BuddyState (h : State) (free : Nat × Nat → List Nat) : Prop where
  rows : Rows h.orders userLimit (fun q => 2 ^ q.2) free
  listed : Listed free h.orders h
  regions : h.regions.Nodup
  state : ∀ x ∈ freeBlocks h.orders free,
    Settled h.mem x.1
      ∨ Buddy.FreeBlock.trimState h.mem x.1 = Buddy.trimAllocated

section Trim

variable {h h' : State} {free : Nat × Nat → List Nat} {requested : Nat}
  {log : List (Nat × Nat)} {out : Bool × Nat}

theorem not_settled_of_allocated {m : Mem} {b : Nat}
    (h : Buddy.FreeBlock.trimState m b = Buddy.trimAllocated) :
    ¬ Settled m b := by
  rw [Settled, h]
  decide

/-- The count does not saturate: the blocks lie in user space and do not
overlap. -/
theorem Sweep.total (hb : BuddyState h free)
    (hp : Sweep requested (freeBlocks h.orders free) 0 h log out h') :
    out.2 = sweptBytes log := by
  have hd : log.Pairwise fun x y =>
      x.1 + trimBytes x ≤ y.1 ∨ y.1 + trimBytes y ≤ x.1 := by
    refine hp.nodup.imp_of_mem fun {x y} hx hy hne => ?_
    have := freeBlocks_spread hb.rows x (hp.sub x hx) y (hp.sub y hy) hne
    have hx := Nat.sub_le (2 ^ x.2) pageSize
    have hy := Nat.sub_le (2 ^ y.2) pageSize
    exact this.imp (fun h => (Nat.add_le_add_left hx _).trans h)
      fun h => (Nat.add_le_add_left hy _).trans h
  have htop : ∀ x ∈ log, x.1 + trimBytes x ≤ userLimit := by
    intro x hx
    obtain ⟨r, hr, hxr⟩ := hp.sub x hx
    exact (Nat.add_le_add_left (Nat.sub_le ..) _).trans
      ((hb.rows.row _ hr).top _ hxr)
  have hbound : sweptBytes log ≤ userLimit := sum_windows_le hd htop
  have := hp.total_eq
  simp only [userLimit] at hbound
  omega

/-- The blocks given back are those whose state has changed. -/
theorem Sweep.mem_iff (hb : BuddyState h free)
    (hp : Sweep requested (freeBlocks h.orders free) 0 h log out h')
    (x : Nat × Nat) :
    x ∈ log ↔ x ∈ freeBlocks h.orders free
      ∧ Buddy.FreeBlock.trimState h.mem x.1 = Buddy.trimAllocated
      ∧ Buddy.FreeBlock.trimState h'.mem x.1 = Buddy.trimTrimmed := by
  constructor
  · intro hx
    have hin := hp.sub x hx
    exact ⟨hin, (hb.state x hin).resolve_left (hp.was x hx), hp.now x hx⟩
  · intro hx
    obtain ⟨hin, hbefore, hafter⟩ := hx
    by_contra hnot
    rw [hp.trimState_eq (le_refl _) (freeBlocks_spread hb.rows)
      (freeBlocks_big fun q hq => hq.2.1) hin hnot, hbefore] at hafter
    cases hafter

/-- What a forced trim reports of the blocks it has given back, latest
first: their bytes, and that the request was reached with the last of
them or no block is left. -/
structure Trimmed (requested : Nat) (h : State)
    (free : Nat × Nat → List Nat) (trimmed : List (Nat × Nat))
    (total : Nat) (h' : State) : Prop where
  nodup : trimmed.Nodup
  changed : ∀ x, x ∈ trimmed ↔ x ∈ freeBlocks h.orders free
    ∧ Buddy.FreeBlock.trimState h.mem x.1 = Buddy.trimAllocated
    ∧ Buddy.FreeBlock.trimState h'.mem x.1 = Buddy.trimTrimmed
  total_eq : total = (trimmed.map fun x => 2 ^ x.2 - 4096).sum
  budget :
    (0 < requested ∧ requested ≤ total ∧ ∃ x l, trimmed = x :: l
      ∧ (l.map fun x => 2 ^ x.2 - 4096).sum < requested)
    ∨ ∀ x ∈ freeBlocks h.orders free,
      Buddy.FreeBlock.trimState h'.mem x.1 ≠ Buddy.trimAllocated

/-- What it leaves alone: the lists, every byte of memory but the
`life_time`, the `trim_state` and the advised pages of those blocks, and
everything else but the record of its calls, one for each block, inside
it and behind its first page. -/
structure TrimFrame (h : State) (free : Nat × Nat → List Nat)
    (trimmed : List (Nat × Nat)) (h' : State) : Prop where
  listed : Listed free h'.orders h'
  mem : ∀ y, (∀ x ∈ trimmed, ¬ Touched x y) → h'.mem y = h.mem y
  rest : h' = h.swept h'.mem (trimmed.map adviceOf)
  inside : ∀ x ∈ trimmed, x.1 + pageSize ≤ (adviceOf x).start
    ∧ 0 < (adviceOf x).len
    ∧ (adviceOf x).start + (adviceOf x).len ≤ x.1 + 2 ^ x.2

/-- The relation says all of it. -/
theorem Sweep.trimmed {stop : Bool} {total : Nat} (hb : BuddyState h free)
    (hp : Sweep requested (freeBlocks h.orders free) 0 h log (stop, total)
      h') :
    Trimmed requested h free log total h' := by
  have htotal := hp.total hb
  have hbelow : Below requested 0 := (Nat.eq_zero_or_pos requested)
  refine ⟨hp.nodup, hp.mem_iff hb, htotal, ?_⟩
  cases stop with
  | false =>
      refine Or.inr fun x hx halloc => ?_
      exact not_settled_of_allocated halloc (hp.done rfl x hx)
  | true =>
      obtain ⟨hne, hle, x, l, rfl, hlt⟩ := hp.stopped hbelow rfl
      refine Or.inl ⟨Nat.pos_of_ne_zero hne, hle, x, l, rfl, ?_⟩
      have hpart : sweptBytes l ≤ sweptBytes (x :: l) := by
        simp only [sweptBytes, List.map_cons, List.sum_cons]
        omega
      have hlimit := hp.total_eq
      show sweptBytes l < requested
      simp only at hle htotal hlimit
      omega

theorem Sweep.frame (hb : BuddyState h free)
    (hp : Sweep requested (freeBlocks h.orders free) 0 h log out h') :
    TrimFrame h free log h' := by
  have hU := freeBlocks_spread hb.rows
  have hbig : ∀ x ∈ freeBlocks h.orders free, pageSize < 2 ^ x.2 :=
    freeBlocks_big fun q hq => hq.2.1
  refine ⟨?_, hp.mem, hp.rest, fun x hx => ?_⟩
  · have hregion : h'.region = h.region := by
      rw [hp.rest]
      rfl
    have horders : h'.orders = h.orders := by
      rw [hp.rest]
      rfl
    rw [horders]
    intro q hq
    refine ⟨?_, (hb.listed q hq).2⟩
    rw [hregion]
    exact (hb.listed q hq).1.congr fun b hbq =>
      hp.next_eq (x := (b, q.2)) (le_refl _) hU hbig ⟨q.1, hq, hbq⟩
  · have hsize := hbig x (hp.sub x hx)
    refine ⟨le_refl _, Nat.sub_pos_of_lt hsize, ?_⟩
    show x.1 + pageSize + (2 ^ x.2 - pageSize) ≤ _
    rw [Nat.add_assoc, Nat.add_sub_cancel' (le_of_lt hsize)]

/-- A forced `trim_inner` that obtains the lock, when every advice
succeeds, returns; it answers the bytes behind the first page of exactly
the free blocks that it has brought from allocated to trimmed. Either it
has reached a request with the last of them, or no free block is left in
the allocated state. It changes nothing else. -/
theorem forced_trim_exact {fuel : Nat} (hb : BuddyState h free)
    (hfuel : ∀ q ∈ h.orders, (free q).length < fuel)
    (hlock : h.slab.trimLock = false) (requested : Nat) {env : Nat → Env}
    (hok : ∀ j, (env j).ok = true) :
    ∃ total h' trimmed,
      (trimInner fuel requested true).exec env h = some (total, h')
      ∧ Trimmed requested h free trimmed total h'
      ∧ TrimFrame h free trimmed h' := by
  have hrun : Alone (fun i => i.ok = true) False
      (trimInner fuel requested true)
      (fun total h' => ∃ trimmed, Trimmed requested h free trimmed total h'
        ∧ TrimFrame h free trimmed h') h := by
    refine Walk.inner hlock hb.rows hfuel hb.regions hb.listed
      (fun _ _ => Sweep.walk (fun _ hi => hi) (freeBlocks_spread hb.rows)
        (freeBlocks_big fun q hq => hq.2.1)) ?_
    intro stop total h₁ hp
    obtain ⟨log, hp⟩ := hp
    have hp' : Sweep requested (freeBlocks h.orders free) 0 h log
        (stop, total) h₁.unlocked := by
      refine ⟨hp.sub, hp.nodup, hp.was, hp.now, hp.mem, ?_, hp.total_eq,
        hp.done, hp.below, hp.stopped⟩
      have hrest := congrArg State.unlocked hp.rest
      rw [State.unlocked_swept hlock] at hrest
      exact hrest
    exact ⟨log, hp'.trimmed hb, hp'.frame hb⟩
  obtain ⟨total, h', hexec, trimmed, htrimmed, hframe⟩ := hrun.exec hok
  exact ⟨total, h', trimmed, hexec, htrimmed, hframe⟩

end Trim

/-- A heap with one region, whose only block of 64 MiB was handed out
and returned. -/
def warmHeap : State :=
  { State.new (fun y => if y = 2 ^ 26 + 20 then 1 else 0) with
    regions := [4096]
    region := fun _ => ⟨⟨2 ^ 26, 2 ^ 26, 26, 0⟩, 16,
      fun i => if i = 4 then 2 ^ 26 else 0, fun _ => Bitmap.empty, 0⟩ }

/-- Its free lists. -/
def warmBlocks (q : Nat × Nat) : List Nat :=
  if q.2 = 26 then [2 ^ 26] else []

theorem mem_warmBlocks {q : Nat × Nat} {b : Nat} (hb : b ∈ warmBlocks q) :
    q.2 = 26 ∧ b = 2 ^ 26 := by
  unfold warmBlocks at hb
  split at hb
  · next hq => exact ⟨hq, List.mem_singleton.1 hb⟩
  · exact absurd hb List.not_mem_nil

theorem warmHeap_orders {q : Nat × Nat} (hq : q ∈ warmHeap.orders) :
    q.1 = 4096 ∧ 22 ≤ q.2 ∧ q.2 ≤ 26 :=
  ⟨List.mem_singleton.1 hq.1, hq.2⟩

theorem warmHeap_state : BuddyState warmHeap warmBlocks where
  rows :=
    { row := fun q _ =>
        { nodup := by
            unfold warmBlocks
            split
            · exact List.nodup_singleton _
            · exact List.nodup_nil
          apart := fun b hb b' hb' hne => by
            rw [(mem_warmBlocks hb).2, (mem_warmBlocks hb').2] at hne
            exact absurd rfl hne
          top := fun b hb => by
            obtain ⟨hq, rfl⟩ := mem_warmBlocks hb
            rw [hq]
            decide }
      apart := fun q hq q' hq' hne b hb b' hb' => by
        refine absurd (Prod.ext ?_ ?_) hne
        · rw [(warmHeap_orders hq).1, (warmHeap_orders hq').1]
        · rw [(mem_warmBlocks hb).1, (mem_warmBlocks hb').1] }
  listed q hq := by
    obtain ⟨-, hlow, hhigh⟩ := warmHeap_orders hq
    by_cases htop : q.2 = 26
    · have hnext : Buddy.FreeBlock.next warmHeap.mem (2 ^ 26) = 0 := by
        decide +kernel
      rw [warmBlocks, if_pos htop, htop]
      exact ⟨⟨rfl, hnext⟩, by decide⟩
    · have hindex : Buddy.orderIndex q.2 ≠ 4 := by
        simp only [Buddy.orderIndex, Buddy.minOrder]
        omega
      rw [warmBlocks, if_neg htop]
      exact ⟨if_neg hindex, List.not_mem_nil⟩
  regions := List.nodup_singleton _
  state x hx := by
    obtain ⟨r, hr, hxr⟩ := hx
    rw [(mem_warmBlocks hxr).2]
    exact Or.inr (by decide +kernel)

/-- A request of one byte gives back the block. -/
theorem forced_trim_exact_warm :
    ∃ total h' trimmed, (trimInner 2 1 true).exec (fun _ => {}) warmHeap
        = some (total, h')
      ∧ Trimmed 1 warmHeap warmBlocks trimmed total h'
      ∧ TrimFrame warmHeap warmBlocks trimmed h' := by
  refine forced_trim_exact warmHeap_state (fun q _ => ?_) rfl 1 fun _ => rfl
  unfold warmBlocks
  split <;> decide

end RsMalloc.Heap
