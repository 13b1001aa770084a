/-
One call of `rs_trim`, alone.

The buddy stage walks the free lists of every order of every region; it
writes only behind the links of the blocks it visits, so the lists stay
as they are (`BigPass`). The slab stage is `Slab.Pass`. Both record the
`madvise` calls they make; what is counted for a call of the buddy stage
is the length of its range, and what is counted for a call of the slab
stage is the size of the block.
-/
import RsMalloc.Heap.Model
import RsMalloc.Slab.Trimming

namespace RsMalloc.Heap

open Conc
open Slab (Advice advised counted)

attribute [local irreducible] Mem.load

variable {cfg : Config} {E : Env → Prop} {halts : Prop} {h : State}

/-- A program of the slab caches leaves the rest of the heap alone. -/
theorem onSlab_alone {α : Type} {p : Slab.SlabM α} {Q : α → State → Prop}
    (hp : Alone E halts p (fun a s => Q a { h with slab := s }) h.slab) :
    Alone E halts (onSlab p) Q h := by
  unfold onSlab
  apply Alone.lift
  · exact fun _ _ => rfl
  · exact fun _ _ _ => rfl
  · exact fun _ => rfl
  · exact fun _ hi => hi
  · exact hp

-- ================================================================== blocks

/-- The block was never handed out, or its pages are given back. -/
def Settled (m : Mem) (block : Nat) : Prop :=
  Buddy.FreeBlock.trimState m block = Buddy.trimNotAllocated
    ∨ Buddy.FreeBlock.trimState m block = Buddy.trimTrimmed

/-- The heap with other memory and more calls on record. -/
def State.swept (m : Mem) (calls : List Advice) (h : State) : State :=
  h.onSlab fun s =>
    { s with
      ground := { s.ground with mem := m }
      advice := calls ++ s.advice }

theorem State.swept_swept (m₁ m₂ : Mem) (c₁ c₂ : List Advice) (h : State) :
    (h.swept m₁ c₁).swept m₂ c₂ = h.swept m₂ (c₂ ++ c₁) := by
  simp only [State.swept, State.onSlab, List.append_assoc]

/-- Some calls, then others. -/
theorem State.swept_trans {h' h'' : State} {c₁ c₂ : List Advice}
    (h₁ : h' = h.swept h'.mem c₁) (h₂ : h'' = h'.swept h''.mem c₂) :
    h'' = h.swept h''.mem (c₂ ++ c₁) := by
  rw [h₁, State.swept_swept] at h₂
  exact h₂

/-- Blocks, as address and order, that do not overlap. -/
def Spread (U : Set (Nat × Nat)) : Prop :=
  ∀ x ∈ U, ∀ y ∈ U, x ≠ y → x.1 + 2 ^ x.2 ≤ y.1 ∨ y.1 + 2 ^ y.2 ≤ x.1

/-- The call that `trim_inner` makes for a block. -/
structure CallForBlock (E : Env → Prop) (x : Nat × Nat) (e : Advice) :
    Prop where
  block : e.block = x.1
  len : e.len = 2 ^ x.2 - pageSize
  size : e.size = e.len
  answer : ∃ i, E i ∧ i.ok = e.ok

/-- The blocks of `D` have been visited, with the calls `log`. -/
structure BigPass (E : Env → Prop) (forceTrim : Bool) (requested : Nat)
    (D : Set (Nat × Nat)) (total : Nat) (h : State) (log : List Advice)
    (out : Bool × Nat) (h' : State) : Prop where
  calls : ∀ e ∈ log, ∃ x ∈ D, CallForBlock E x e
  nodup : (log.map (·.block)).Nodup
  total_eq : out.2 = min (total + advised log) (2 ^ 64 - 1)
  done : out.1 = false → forceTrim = true → (∀ i, E i → i.ok = true) →
    ∀ x ∈ D, Settled h'.mem x.1
  stopped : out.1 = true → requested ≠ 0 ∧ requested ≤ out.2
  mem : ∀ y, (∀ x ∈ D, ¬ (x.1 + 16 ≤ y ∧ y < x.1 + 2 ^ x.2)) →
    h'.mem y = h.mem y
  rest : h' = h.swept h'.mem log

namespace BigPass

variable {forceTrim : Bool} {requested total : Nat}
  {D D₁ D₂ U : Set (Nat × Nat)} {h h' h'' : State}
  {log log₁ log₂ : List Advice} {out out₁ out₂ : Bool × Nat}

/-- Nothing is done, and nothing had to be. -/
theorem idle (htotal : total < 2 ^ 64)
    (hdone : forceTrim = true → ∀ x ∈ D, Settled h.mem x.1) :
    BigPass E forceTrim requested D total h [] (false, total) h where
  calls := nofun
  nodup := List.nodup_nil
  total_eq := by
    show total = min (total + 0) _
    omega
  done _ hf _ := hdone hf
  stopped := Bool.noConfusion
  mem _ _ := rfl
  rest := rfl

/-- Enough is trimmed: the other blocks are not visited. -/
theorem stop {stopped : Bool} {t : Nat}
    (h₁ : BigPass E forceTrim requested D₁ total h log (stopped, t) h')
    (hsub : D₁ ⊆ D) (ht : requested ≠ 0 ∧ requested ≤ t) :
    BigPass E forceTrim requested D total h log (true, t) h' where
  calls e he := by
    obtain ⟨x, hx, hcall⟩ := h₁.calls e he
    exact ⟨x, hsub hx, hcall⟩
  nodup := h₁.nodup
  total_eq := h₁.total_eq
  done := Bool.noConfusion
  stopped _ := ht
  mem y hy := h₁.mem y fun x hx => hy x (hsub hx)
  rest := h₁.rest

/-- What lies behind no link of a visited block is not seen to change. -/
theorem load (h₁ : BigPass E forceTrim requested D total h log out h')
    {a w : Nat} (hd : ∀ x ∈ D, a + w ≤ x.1 + 16 ∨ x.1 + 2 ^ x.2 ≤ a) :
    Mem.load w h'.mem a = Mem.load w h.mem a := by
  refine Mem.load_congr fun y hy hy' => h₁.mem y fun x hx hin => ?_
  have := hd x hx
  omega

/-- The first bytes of every block stay: its links. -/
theorem next (hU : Spread U)
    (h₁ : BigPass E forceTrim requested D total h log out h')
    (hD : D ⊆ U) (hbig : ∀ x ∈ U, pageSize < 2 ^ x.2) {x : Nat × Nat}
    (hx : x ∈ U) :
    Buddy.FreeBlock.next h'.mem x.1 = Buddy.FreeBlock.next h.mem x.1 := by
  refine h₁.load fun y hy => ?_
  by_cases heq : y = x
  · subst heq
    omega
  · have := hU y (hD hy) x hx heq
    have := hbig x hx
    simp only [pageSize] at this
    omega

/-- Some blocks, then others. -/
theorem trans (hU : Spread U) (hD₁ : D₁ ⊆ U) (hD₂ : D₂ ⊆ U)
    (hdisj : Disjoint D₁ D₂) (hbig : ∀ x ∈ U, pageSize < 2 ^ x.2) {t : Nat}
    (h₁ : BigPass E forceTrim requested D₁ total h log₁ (false, t) h')
    (h₂ : BigPass E forceTrim requested D₂ t h' log₂ out h'') :
    BigPass E forceTrim requested (D₁ ∪ D₂) total h (log₂ ++ log₁) out
      h'' where
  calls e he := by
    cases List.mem_append.1 he with
    | inl he =>
        obtain ⟨x, hx, hcall⟩ := h₂.calls e he
        exact ⟨x, Or.inr hx, hcall⟩
    | inr he =>
        obtain ⟨x, hx, hcall⟩ := h₁.calls e he
        exact ⟨x, Or.inl hx, hcall⟩
  nodup := by
    rw [List.map_append]
    refine h₂.nodup.append h₁.nodup fun b hb₂ hb₁ => ?_
    obtain ⟨e₁, he₁, rfl⟩ := List.mem_map.1 hb₁
    obtain ⟨e₂, he₂, heq⟩ := List.mem_map.1 hb₂
    obtain ⟨x₁, hx₁, hcall₁⟩ := h₁.calls e₁ he₁
    obtain ⟨x₂, hx₂, hcall₂⟩ := h₂.calls e₂ he₂
    -- a block that both visit would be in both sets
    have hne : x₁ ≠ x₂ := fun h => Set.disjoint_left.1 hdisj hx₁ (h ▸ hx₂)
    have h₁ := hcall₁.block
    have h₂ := hcall₂.block
    have := hU x₁ (hD₁ hx₁) x₂ (hD₂ hx₂) hne
    have := hbig x₁ (hD₁ hx₁)
    have := hbig x₂ (hD₂ hx₂)
    simp only [pageSize] at *
    omega
  total_eq := by
    have := h₁.total_eq
    rw [h₂.total_eq, Slab.advised_append]
    omega
  done hout hf hok x hx := by
    cases hx with
    | inl hx =>
        have hst : Buddy.FreeBlock.trimState h''.mem x.1
            = Buddy.FreeBlock.trimState h'.mem x.1 := by
          refine h₂.load fun y hy => ?_
          have hne : x ≠ y := fun h => Set.disjoint_left.1 hdisj hx (h ▸ hy)
          have := hU x (hD₁ hx) y (hD₂ hy) hne
          have := hbig x (hD₁ hx)
          simp only [pageSize] at this
          omega
        rw [Settled, hst]
        exact h₁.done rfl hf hok x hx
    | inr hx => exact h₂.done hout hf hok x hx
  stopped := h₂.stopped
  mem y hy := by
    rw [h₂.mem y fun x hx => hy x (Or.inr hx),
      h₁.mem y fun x hx => hy x (Or.inl hx)]
  rest := State.swept_trans h₁.rest h₂.rest

end BigPass

-- ==================================================================== loops

/-- What giving a block back leaves alone, with the calls made. -/
structure Around (x : Nat × Nat) (calls : List Advice) (h h' : State) :
    Prop where
  mem : Mem.Only (x.1 + 16) (2 ^ x.2 - 16) h.mem h'.mem
  rest : h' = h.swept h'.mem calls

theorem Around.trans {x : Nat × Nat} {c₁ c₂ : List Advice} {h' h'' : State}
    (h₁ : Around x c₁ h h') (h₂ : Around x c₂ h' h'') :
    Around x (c₂ ++ c₁) h h'' :=
  ⟨h₁.mem.trans h₂.mem, State.swept_trans h₁.rest h₂.rest⟩

theorem Around.advise {x : Nat × Nat} (h : State) (e : Advice) :
    Around x [e] h (h.onSlab (Slab.State.advise e)) :=
  ⟨.refl _ _ _, rfl⟩

theorem Around.discard {x : Nat × Nat} (h : State) (keep : Nat → Bool)
    {a n : Nat} (hlow : x.1 + 16 ≤ a) (hhigh : a + n ≤ x.1 + 2 ^ x.2) :
    Around x [] h
      (h.onSlab (Slab.State.onGround (Ground.discard keep a n))) := by
  refine ⟨fun y hy => if_neg fun hin => hy ?_, rfl⟩
  omega

theorem Around.store {x : Nat × Nat} (h : State) {w a v : Nat}
    (hlow : x.1 + 16 ≤ a) (hhigh : a + w ≤ x.1 + 2 ^ x.2) :
    Around x [] h (h.onMem fun m => Mem.store w m a v) :=
  ⟨.store hlow (by omega), rfl⟩

variable {total : Nat}

/-- One block is given back. -/
theorem BigPass.call {forceTrim : Bool} {requested : Nat} {x : Nat × Nat}
    {e : Advice} {h' : State} (htotal : total < 2 ^ 64)
    (hcall : CallForBlock E x e) (hset : e.ok = true → Settled h'.mem x.1)
    (hrest : Around x [e] h h') :
    BigPass E forceTrim requested {x} total h [e]
      (false, if e.ok then min (total + e.len) (2 ^ 64 - 1) else total)
      h' where
  calls e' he' := by
    rw [List.mem_singleton] at he'
    subst he'
    exact ⟨x, rfl, hcall⟩
  nodup := List.nodup_singleton _
  total_eq := by
    cases hok : e.ok with
    | false =>
        have : advised [e] = 0 := by simp [advised, hok]
        rw [this]
        show total = _
        omega
    | true =>
        have : advised [e] = e.len := by simp [advised, hok]
        rw [this]
        rfl
  done _ _ hall y hy := by
    cases hy
    obtain ⟨i, hi, hok⟩ := hcall.answer
    exact hset (hok ▸ hall i hi)
  stopped := Bool.noConfusion
  mem y hy := hrest.mem y fun hin => hy x rfl (by omega)
  rest := hrest.rest

/-- The part of `trim_inner` that gives a block back. -/
theorem trimBlock_alone {forceTrim : Bool} {requested order stamp curr : Nat}
    (h : State) (horder : pageSize < 2 ^ order) (htotal : total < 2 ^ 64) :
    Alone E halts (trimBlock order stamp curr total)
      (fun total' h' => ∃ log,
        BigPass E forceTrim requested {(curr, order)} total h log
          (false, total') h') h := by
  have hroom : ∀ n, n ≤ 4096 → curr + n ≤ curr + 2 ^ order := by
    intro n hn
    simp only [pageSize] at horder
    omega
  have hlife : ∀ h', Around (curr, order) [] h'
      (h'.onMem fun m => Buddy.FreeBlock.setLifeTime m curr stamp) :=
    fun h' => .store h' (le_refl _) (hroom 20 (by omega))
  have htrim : ∀ h', Around (curr, order) [] h'
      (h'.onMem fun m => Buddy.FreeBlock.setTrimState m curr
        Buddy.trimTrimmed) :=
    fun h' => .store h' (Nat.le_add_right _ 4) (hroom 21 (by omega))
  unfold trimBlock
  dsimp only
  obtain ⟨n, hn⟩ : ∃ n, n = 2 ^ order - pageSize := ⟨_, rfl⟩
  obtain ⟨a, ha⟩ : ∃ a, a = curr + pageSize := ⟨_, rfl⟩
  have hlow : curr + 16 ≤ a := by
    simp only [pageSize] at ha
    omega
  have hhigh : a + n ≤ curr + 2 ^ order := by omega
  rw [← hn, ← ha]
  apply Alone.bind
  refine Alone.atomic fun i hi => ?_
  have hcall : CallForBlock E (curr, order) ⟨curr, n, a, n, i.ok⟩ :=
    ⟨rfl, hn, rfl, i, hi, rfl⟩
  have hadvise := fun e => Around.advise (x := (curr, order)) h e
  cases hok : i.ok with
  | false =>
      rw [hok] at hcall
      refine Alone.bind (Alone.ret (Alone.bind (Alone.modify (Alone.ret
        ⟨_, BigPass.call htotal hcall Bool.noConfusion ?_⟩))))
      exact (hadvise _).trans (hlife _)
  | true =>
      rw [hok] at hcall
      refine Alone.bind (Alone.modify (Alone.bind (Alone.modify (Alone.ret
        ⟨_, BigPass.call htotal hcall (fun _ => Or.inr ?_) ?_⟩))))
      · exact (Mem.load_store_of_disjoint (by omega)).trans
          (Mem.load_store (by decide))
      · exact (((hadvise _).trans (.discard _ i.keep hlow hhigh)).trans
          (htrim _)).trans (hlife _)

/-- The blocks of a list of one order. -/
def blocksAt (order : Nat) (l : List Nat) : Set (Nat × Nat) :=
  { x | x.1 ∈ l ∧ x.2 = order }

theorem blocksAt_cons (order b : Nat) (l : List Nat) :
    blocksAt order (b :: l) = {(b, order)} ∪ blocksAt order l := by
  ext x
  simp only [blocksAt, List.mem_cons, Set.mem_ofPred_eq, Set.mem_union,
    Set.mem_singleton_iff, Prod.ext_iff]
  constructor
  · intro hx
    cases hx.1 with
    | inl h => exact Or.inl ⟨h, hx.2⟩
    | inr h => exact Or.inr ⟨h, hx.2⟩
  · intro hx
    cases hx with
    | inl h => exact ⟨Or.inl h.1, h.2⟩
    | inr h => exact ⟨Or.inr h.1, h.2⟩

/-- The rules by which the loops of `trim_inner` build up a relation `P`
between the blocks visited, the count and the state before, the outcome
and the state after; the blocks are among `U`. -/
structure Walk (E : Env → Prop) (halts : Prop) (forceTrim : Bool)
    (requested stamp avgLife : Nat) (U : Set (Nat × Nat))
    (P : Set (Nat × Nat) → Nat → State → Bool × Nat → State → Prop) :
    Prop where
  none : ∀ {total : Nat} {h : State}, total < 2 ^ 64 →
    P ∅ total h (false, total) h
  skip : ∀ {x : Nat × Nat} {total : Nat} {h : State}, x ∈ U →
    total < 2 ^ 64 → Settled h.mem x.1 → P {x} total h (false, total) h
  visit : ∀ {x : Nat × Nat} {total : Nat} {h : State}, x ∈ U →
    total < 2 ^ 64 → ¬ Settled h.mem x.1 →
    Alone E halts
      (if (forceTrim = true
            ∨ stamp - Buddy.FreeBlock.lifeTime h.mem x.1 > avgLife)
          ∧ 2 ^ x.2 > pageSize then
        trimBlock x.2 stamp x.1 total
      else pure total)
      (fun t h' => P {x} total h
        (decide (forceTrim = true ∧ requested ≠ 0 ∧ t ≥ requested), t) h') h
  widen : ∀ {D D' : Set (Nat × Nat)} {total t : Nat} {h h' : State},
    P D total h (true, t) h' → D ⊆ D' → P D' total h (true, t) h'
  trans : ∀ {D D' : Set (Nat × Nat)} {total t : Nat} {h h' h'' : State}
    {out : Bool × Nat}, D ⊆ U → D' ⊆ U → Disjoint D D' →
    P D total h (false, t) h' → P D' t h' out h'' →
    P (D ∪ D') total h out h''
  bound : ∀ {D : Set (Nat × Nat)} {total : Nat} {h h' : State}
    {out : Bool × Nat}, P D total h out h' → out.2 < 2 ^ 64
  region : ∀ {D : Set (Nat × Nat)} {total : Nat} {h h' : State}
    {out : Bool × Nat}, P D total h out h' → h'.region = h.region
  next : ∀ {D : Set (Nat × Nat)} {total : Nat} {h h' : State}
    {out : Bool × Nat} {x : Nat × Nat}, P D total h out h' → D ⊆ U →
    x ∈ U →
    Buddy.FreeBlock.next h'.mem x.1 = Buddy.FreeBlock.next h.mem x.1

/-- A pass is such a relation. -/
theorem BigPass.walk {forceTrim : Bool} {requested stamp avgLife : Nat}
    {U : Set (Nat × Nat)} (hU : Spread U)
    (hbig : ∀ x ∈ U, pageSize < 2 ^ x.2) :
    Walk E halts forceTrim requested stamp avgLife U
      (fun D total h out h' =>
        ∃ log, BigPass E forceTrim requested D total h log out h') where
  none htotal := ⟨[], .idle htotal fun _ x hx =>
    absurd hx (Set.notMem_empty x)⟩
  skip _ htotal hset := by
    refine ⟨[], .idle htotal fun _ y hy => ?_⟩
    rw [Set.mem_singleton_iff.1 hy]
    exact hset
  visit {x total h} hx htotal _ := by
    have hblock : Alone E halts
        (if (forceTrim = true
              ∨ stamp - Buddy.FreeBlock.lifeTime h.mem x.1 > avgLife)
            ∧ 2 ^ x.2 > pageSize then
          trimBlock x.2 stamp x.1 total
        else pure total)
        (fun t h' => ∃ log, BigPass E forceTrim requested {x} total h log
          (false, t) h') h := by
      split
      · exact trimBlock_alone h (hbig x hx) htotal
      · next hnot =>
        exact Alone.ret ⟨[], .idle htotal fun hforce =>
          absurd ⟨Or.inl hforce, hbig x hx⟩ hnot⟩
    refine hblock.mono fun t h' hp => ?_
    obtain ⟨log, hp⟩ := hp
    by_cases hstop : forceTrim = true ∧ requested ≠ 0 ∧ t ≥ requested
    · rw [decide_eq_true hstop]
      exact ⟨log, hp.stop (le_refl _) hstop.2⟩
    · rw [decide_eq_false hstop]
      exact ⟨log, hp⟩
  widen hp hsub := by
    obtain ⟨log, hp⟩ := hp
    exact ⟨log, hp.stop hsub (hp.stopped rfl)⟩
  trans hD hD' hdisj h₁ h₂ := by
    obtain ⟨log₁, h₁⟩ := h₁
    obtain ⟨log₂, h₂⟩ := h₂
    exact ⟨_, h₁.trans hU hD hD' hdisj hbig h₂⟩
  bound hp := by
    obtain ⟨log, hp⟩ := hp
    have := hp.total_eq
    omega
  region hp := by
    obtain ⟨log, hp⟩ := hp
    exact congrArg (·.region) hp.rest
  next hp hD hx := by
    obtain ⟨log, hp⟩ := hp
    exact hp.next hU hD hbig hx

section Loops

variable {forceTrim : Bool} {requested stamp avgLife : Nat}
  {U : Set (Nat × Nat)}
  {P : Set (Nat × Nat) → Nat → State → Bool × Nat → State → Prop}
  (W : Walk E halts forceTrim requested stamp avgLife U P)

include W

/-- The links of a list outlast a walk. -/
theorem Walk.seg {D : Set (Nat × Nat)} {p : Nat} (order : Nat)
    {out : Bool × Nat} {h' : State} {l : List Nat} (hp : P D total h out h')
    (hD : D ⊆ U) (hsub : blocksAt order l ⊆ U)
    (hl : LinkedSeg (Buddy.FreeBlock.next h.mem) p l 0) :
    LinkedSeg (Buddy.FreeBlock.next h'.mem) p l 0 :=
  hl.congr fun b hb => W.next (x := (b, order)) hp hD (hsub ⟨hb, rfl⟩)

/-- The loop of `trim_inner` over one list. -/
theorem Walk.blocks {order : Nat} (fuel : Nat) {curr : Nat} {l : List Nat}
    (h : State) (hfuel : l.length < fuel) (hnd : l.Nodup)
    (hsub : blocksAt order l ⊆ U) (h0 : 0 ∉ l)
    (hl : LinkedSeg (Buddy.FreeBlock.next h.mem) curr l 0)
    (htotal : total < 2 ^ 64) :
    Alone E halts
      (trimBlocks order stamp avgLife requested forceTrim fuel curr total)
      (fun out h' => P (blocksAt order l) total h out h') h := by
  induction fuel generalizing curr total l h with
  | zero => omega
  | succ fuel ih =>
      rw [trimBlocks]
      cases l with
      | nil =>
          have hempty : blocksAt order [] = ∅ :=
            Set.eq_empty_of_forall_notMem fun x hx =>
              List.not_mem_nil hx.1
          rw [if_pos (show curr = 0 from hl), hempty]
          exact Alone.ret (W.none htotal)
      | cons b l =>
          obtain ⟨rfl, hrest⟩ := hl
          have hne : curr ≠ 0 := fun hz => h0 (hz ▸ List.mem_cons_self ..)
          rw [if_neg hne]
          apply Alone.bind
          apply Alone.read
          dsimp only
          rw [blocksAt_cons] at hsub ⊢
          rw [List.length_cons] at hfuel
          obtain ⟨hD₁, hD₂⟩ := Set.union_subset_iff.1 hsub
          have hx : (curr, order) ∈ U := hD₁ rfl
          have hdisj : Disjoint {(curr, order)} (blocksAt order l) := by
            rw [Set.disjoint_singleton_left]
            exact fun hin => (List.nodup_cons.1 hnd).1 hin.1
          -- the rest of the list, whatever was done with this block
          have hnext : ∀ t h₁, P {(curr, order)} total h (false, t) h₁ →
              Alone E halts
                (trimBlocks order stamp avgLife requested forceTrim fuel
                  (Buddy.FreeBlock.next h.mem curr) t)
                (fun out h' => P ({(curr, order)} ∪ blocksAt order l) total h
                  out h') h₁ := by
            intro t h₁ hp₁
            refine (ih h₁ (by omega) (List.nodup_cons.1 hnd).2 hD₂
              (fun h => h0 (List.mem_cons_of_mem _ h))
              (W.seg order hp₁ hD₁ hD₂ hrest) (W.bound hp₁)).mono ?_
            exact fun out h' hp₂ => W.trans hD₁ hD₂ hdisj hp₁ hp₂
          split
          · next hset => exact hnext total h (W.skip hx htotal hset)
          · next hset =>
            refine (W.visit hx htotal hset).seq fun t h₁ hp₁ => ?_
            split
            · next hstop =>
              rw [decide_eq_true hstop] at hp₁
              exact Alone.ret (W.widen hp₁ Set.subset_union_left)
            · next hstop =>
              rw [decide_eq_false hstop] at hp₁
              exact hnext t h₁ hp₁

/-- A loop over lists: the first ones, then, unless enough is trimmed,
the rest. -/
theorem Walk.seq {D₁ D₂ : Set (Nat × Nat)} {p : HeapM (Bool × Nat)}
    {k : Nat → HeapM (Bool × Nat)} (hD₁ : D₁ ⊆ U) (hD₂ : D₂ ⊆ U)
    (hdisj : Disjoint D₁ D₂)
    (h₁ : Alone E halts p (fun out h₁ => P D₁ total h out h₁) h)
    (h₂ : ∀ t h₁, P D₁ total h (false, t) h₁ → t < 2 ^ 64 →
      Alone E halts (k t) (fun out h₂ => P D₂ t h₁ out h₂) h₁) :
    Alone E halts
      (p.bind fun out => if out.1 then Prog.ret (true, out.2) else k out.2)
      (fun out h₂ => P (D₁ ∪ D₂) total h out h₂) h := by
  refine h₁.seq fun out h₁ hp₁ => ?_
  obtain ⟨stop, t⟩ := out
  cases stop with
  | true => exact Alone.ret (W.widen hp₁ Set.subset_union_left)
  | false =>
      refine (h₂ t h₁ hp₁ (W.bound hp₁)).mono fun out h₂ hp₂ => ?_
      exact W.trans hD₁ hD₂ hdisj hp₁ hp₂

end Loops

-- ============================================================= free lists

/-- The orders of these regions, as region and order. -/
def ordersOf (region : Nat → Region) (rs : List Nat) : Set (Nat × Nat) :=
  { q | q.1 ∈ rs ∧ Buddy.minOrder ≤ q.2
      ∧ q.2 ≤ (region q.1).geometry.order }

theorem ordersOf_nil (region : Nat → Region) : ordersOf region [] = ∅ :=
  Set.eq_empty_of_forall_notMem fun _ hq => List.not_mem_nil hq.1

theorem ordersOf_cons (region : Nat → Region) (r : Nat) (rs : List Nat) :
    ordersOf region (r :: rs)
      = stretch r Buddy.minOrder
          ((region r).geometry.order + 1 - Buddy.minOrder)
        ∪ ordersOf region rs := by
  ext q
  obtain ⟨r', k⟩ := q
  simp only [ordersOf, stretch, List.mem_cons, Set.mem_ofPred_eq,
    Set.mem_union, Buddy.minOrder]
  constructor
  · intro hq
    cases hq.1 with
    | inl heq =>
        subst heq
        exact Or.inl ⟨rfl, by omega, by omega⟩
    | inr hin => exact Or.inr ⟨hin, hq.2⟩
  · intro hq
    cases hq with
    | inl hq =>
        obtain ⟨rfl, hlow, hhigh⟩ := hq
        exact ⟨Or.inl rfl, by omega, by omega⟩
    | inr hq => exact ⟨Or.inr hq.1, hq.2⟩

/-- The orders of the regions. -/
def State.orders (h : State) : Set (Nat × Nat) :=
  ordersOf h.region h.regions

/-- The free blocks of the regions, as address and order. -/
def freeBlocks (C : Set (Nat × Nat)) (free : Nat × Nat → List Nat) :
    Set (Nat × Nat) :=
  { x | ∃ r, (r, x.2) ∈ C ∧ x.1 ∈ free (r, x.2) }

/-- The free lists of these orders hold these blocks. -/
def Listed (free : Nat × Nat → List Nat) (C : Set (Nat × Nat))
    (h : State) : Prop :=
  ∀ q ∈ C, LinkedSeg (Buddy.FreeBlock.next h.mem)
      ((h.region q.1).free (Buddy.orderIndex q.2)) (free q) 0
    ∧ 0 ∉ free q

section Lists

variable {forceTrim : Bool} {requested stamp avgLife fuel : Nat}
  {C C₁ : Set (Nat × Nat)} {free : Nat × Nat → List Nat}
  {P : Set (Nat × Nat) → Nat → State → Bool × Nat → State → Prop}
  (hrows : Rows C userLimit (fun q => 2 ^ q.2) free)
  (horders : ∀ q ∈ C, Buddy.minOrder ≤ q.2)
  (hfuel : ∀ q ∈ C, (free q).length < fuel)
  (W : Walk E halts forceTrim requested stamp avgLife (freeBlocks C free) P)

include hrows

theorem freeBlocks_spread : Spread (freeBlocks C free) := by
  intro x hx y hy hne
  obtain ⟨r, hr, hxr⟩ := hx
  obtain ⟨r', hr', hyr⟩ := hy
  by_cases heq : (r, x.2) = (r', y.2)
  · obtain ⟨rfl, ho⟩ := Prod.mk.inj heq
    rw [← ho] at hyr ⊢
    exact (hrows.row _ hr).apart _ hxr _ hyr fun h => hne (Prod.ext h ho)
  · exact hrows.apart _ hr _ hr' heq _ hxr _ hyr

/-- Blocks of different lists are different. -/
theorem freeBlocks_disjoint {C₂ : Set (Nat × Nat)} (h₁ : C₁ ⊆ C) (h₂ : C₂ ⊆ C)
    (hdisj : Disjoint C₁ C₂) :
    Disjoint (freeBlocks C₁ free) (freeBlocks C₂ free) := by
  rw [Set.disjoint_left]
  intro x hx hx'
  obtain ⟨r, hr, hxr⟩ := hx
  obtain ⟨r', hr', hxr'⟩ := hx'
  have hne : (r, x.2) ≠ (r', x.2) := fun heq =>
    Set.disjoint_left.1 hdisj hr (heq ▸ hr')
  have := hrows.apart _ (h₁ hr) _ (h₂ hr') hne _ hxr _ hxr'
  have hpos : 0 < 2 ^ x.2 := Nat.two_pow_pos _
  simp only at this
  omega

omit hrows in
theorem freeBlocks_union (C₁ C₂ : Set (Nat × Nat)) :
    freeBlocks (C₁ ∪ C₂) free = freeBlocks C₁ free ∪ freeBlocks C₂ free := by
  ext x
  simp only [freeBlocks, Set.mem_union, Set.mem_ofPred_eq, or_and_right,
    exists_or]

omit hrows in
theorem freeBlocks_empty : freeBlocks ∅ free = ∅ :=
  Set.eq_empty_of_forall_notMem fun _ hx => by
    obtain ⟨_, hr, _⟩ := hx
    exact hr

omit hrows in
theorem freeBlocks_mono (h : C₁ ⊆ C) :
    freeBlocks C₁ free ⊆ freeBlocks C free := by
  intro x hx
  obtain ⟨r, hr, hxr⟩ := hx
  exact ⟨r, h hr, hxr⟩

omit hrows in
include horders in
theorem freeBlocks_big : ∀ x ∈ freeBlocks C free, pageSize < 2 ^ x.2 := by
  intro x hx
  obtain ⟨r, hr, _⟩ := hx
  calc pageSize < 2 ^ Buddy.minOrder := by decide
    _ ≤ 2 ^ x.2 := Nat.pow_le_pow_right (by decide) (horders (r, x.2) hr)

omit hrows in
include W in
/-- The lists outlast a walk. -/
theorem Walk.listed {D : Set (Nat × Nat)} {out : Bool × Nat} {h' : State}
    (hp : P D total h out h') (hD : D ⊆ freeBlocks C free) (hC₁ : C₁ ⊆ C)
    (hl : Listed free C₁ h) : Listed free C₁ h' := by
  intro q hq
  refine ⟨?_, (hl q hq).2⟩
  rw [W.region hp]
  refine W.seg q.2 hp hD (fun x hx => ?_) (hl q hq).1
  exact ⟨q.1, hx.2 ▸ hC₁ hq, hx.2 ▸ hx.1⟩

include hfuel W

/-- One order of a region. -/
theorem Walk.order {region order : Nat} (h : State) (hq : (region, order) ∈ C)
    (hl : Listed free {(region, order)} h) (htotal : total < 2 ^ 64) :
    Alone E halts
      (trimBlocks order stamp avgLife requested forceTrim fuel
        ((h.region region).free (Buddy.orderIndex order)) total)
      (fun out h' => P (freeBlocks {(region, order)} free) total h out h')
      h := by
  have hblocks : freeBlocks {(region, order)} free
      = blocksAt order (free (region, order)) := by
    ext x
    constructor
    · intro hx
      obtain ⟨r, hr, hxr⟩ := hx
      rw [Set.mem_singleton_iff] at hr
      exact ⟨hr ▸ hxr, congrArg Prod.snd hr⟩
    · intro hx
      obtain ⟨hin, rfl⟩ := hx
      exact ⟨region, rfl, hin⟩
  have hsub : blocksAt order (free (region, order)) ⊆ freeBlocks C free := by
    rw [← hblocks]
    exact freeBlocks_mono (Set.singleton_subset_iff.2 hq)
  rw [hblocks]
  exact W.blocks fuel h (hfuel _ hq) (hrows.row _ hq).nodup hsub (hl _ rfl).2
    (hl _ rfl).1 htotal

/-- The orders of a region. -/
theorem Walk.orders {region : Nat} (n order : Nat) (h : State)
    (hC : stretch region order n ⊆ C)
    (hl : Listed free (stretch region order n) h) (htotal : total < 2 ^ 64) :
    Alone E halts
      (trimOrders fuel stamp avgLife requested forceTrim region n order total)
      (fun out h' => P (freeBlocks (stretch region order n) free) total h
        out h') h := by
  induction n generalizing order total h with
  | zero =>
      rw [stretch_zero, freeBlocks_empty]
      exact Alone.ret (W.none htotal)
  | succ n ih =>
      rw [stretch_succ] at hC hl ⊢
      rw [freeBlocks_union]
      obtain ⟨hC₁, hC₂⟩ := Set.union_subset_iff.1 hC
      rw [trimOrders]
      apply Alone.bind
      apply Alone.read
      refine W.seq (freeBlocks_mono hC₁) (freeBlocks_mono hC₂)
        (freeBlocks_disjoint hrows hC₁ hC₂ (stretch_disjoint ..)) ?_ ?_
      · exact Walk.order hrows hfuel W h (hC₁ rfl)
          (fun q hq => hl q (Or.inl hq)) htotal
      · intro t h₁ hp₁ ht
        exact ih (order + 1) h₁ hC₂ (W.listed hp₁ (freeBlocks_mono hC₁) hC₂
          fun q hq => hl q (Or.inr hq)) ht

/-- The loop of `trim_inner` over the regions. -/
theorem Walk.regions (rs : List Nat) (h : State) (hnd : rs.Nodup)
    (hC : ordersOf h.region rs ⊆ C) (hl : Listed free (ordersOf h.region rs) h)
    (htotal : total < 2 ^ 64) :
    Alone E halts
      (trimRegions fuel stamp avgLife requested forceTrim rs total)
      (fun out h' => P (freeBlocks (ordersOf h.region rs) free) total h
        out h') h := by
  induction rs generalizing total h with
  | nil =>
      rw [ordersOf_nil, freeBlocks_empty]
      exact Alone.ret (W.none htotal)
  | cons r rs ih =>
      rw [ordersOf_cons] at hC hl ⊢
      rw [freeBlocks_union]
      obtain ⟨hC₁, hC₂⟩ := Set.union_subset_iff.1 hC
      have hdisj : Disjoint (stretch r Buddy.minOrder
          ((h.region r).geometry.order + 1 - Buddy.minOrder))
          (ordersOf h.region rs) := by
        rw [Set.disjoint_left]
        intro q hq hq'
        have hr : q.1 = r := hq.1
        exact (List.nodup_cons.1 hnd).1 (hr ▸ hq'.1)
      rw [trimRegions]
      apply Alone.bind
      apply Alone.read
      refine W.seq (freeBlocks_mono hC₁) (freeBlocks_mono hC₂)
        (freeBlocks_disjoint hrows hC₁ hC₂ hdisj) ?_ ?_
      · exact Walk.orders hrows hfuel W _ _ h hC₁
          (fun q hq => hl q (Or.inl hq)) htotal
      · intro t h₁ hp₁ ht
        have hl₁ := W.listed hp₁ (freeBlocks_mono hC₁) hC₂
          fun q hq => hl q (Or.inr hq)
        rw [← W.region hp₁] at hC₂ hl₁ ⊢
        exact ih h₁ (List.nodup_cons.1 hnd).2 hC₂ hl₁ ht

end Lists

-- =================================================================== stages

/-- The lock of the trim, taken. -/
def State.locked (h : State) : State :=
  h.onSlab fun s => { s with trimLock := true }

/-- The lock of the trim, free. -/
def State.unlocked (h : State) : State :=
  h.onSlab fun s => { s with trimLock := false }

theorem State.unlocked_swept (hlock : h.slab.trimLock = false) (m : Mem)
    (calls : List Advice) :
    (h.locked.swept m calls).unlocked = h.swept m calls := by
  obtain ⟨slab, regions, region, growOrder, once, buddyInit, disableBuddy,
    bigMap⟩ := h
  obtain ⟨ground, stamp, list, usage, slot, bulkInit, hint, batching, pages,
    trimLock, advice, ages⟩ := slab
  cases hlock
  rfl

/-- `trim_inner` with the lock, by a relation that its loops build
up. -/
theorem Walk.inner {forceTrim : Bool} {requested fuel : Nat}
    {free : Nat × Nat → List Nat}
    {P : Set (Nat × Nat) → Nat → State → Bool × Nat → State → Prop}
    {Q : Nat → State → Prop} (hlock : h.slab.trimLock = false)
    (hrows : Rows h.orders userLimit (fun q => 2 ^ q.2) free)
    (hfuel : ∀ q ∈ h.orders, (free q).length < fuel) (hnd : h.regions.Nodup)
    (hl : Listed free h.orders h)
    (W : ∀ stamp avgLife, Walk E halts forceTrim requested stamp avgLife
      (freeBlocks h.orders free) P)
    (hQ : ∀ stop total h', P (freeBlocks h.orders free) 0 h.locked
      (stop, total) h' → Q total h'.unlocked) :
    Alone E halts (trimInner fuel requested forceTrim) Q h := by
  unfold trimInner
  apply Alone.bind
  refine Alone.atomic fun _ _ => ?_
  rw [hlock]
  refine Alone.bind (Alone.read (Alone.bind (Alone.ask fun i _ => ?_)))
  refine Alone.bind (Alone.read ?_)
  have hloop : Alone E halts
      (trimRegions fuel h.slab.stamp i.age requested forceTrim h.regions 0)
      (fun out h' => P (freeBlocks h.orders free) 0 h.locked out h')
      h.locked :=
    Walk.regions hrows hfuel (W h.slab.stamp i.age) h.regions h.locked hnd
      (le_refl _) hl (Nat.two_pow_pos 64)
  refine hloop.seq fun out h₁ hp => ?_
  exact Alone.bind (Alone.modify (Alone.ret (hQ out.1 out.2 h₁ hp)))

/-- The buddy stage visits every free block, unless someone else is
trimming. -/
theorem trimInner_alone {forceTrim : Bool} {requested fuel : Nat}
    {free : Nat × Nat → List Nat} (h : State)
    (hrows : Rows h.orders userLimit (fun q => 2 ^ q.2) free)
    (hfuel : ∀ q ∈ h.orders, (free q).length < fuel)
    (hnd : h.regions.Nodup) (hl : Listed free h.orders h) :
    Alone E halts (trimInner fuel requested forceTrim)
      (fun total h' => ∃ D ⊆ freeBlocks h.orders free, ∃ log stop,
        BigPass E forceTrim requested D 0 h log (stop, total) h'
          ∧ (h.slab.trimLock = false → D = freeBlocks h.orders free)) h := by
  cases hlock : h.slab.trimLock with
  | true =>
      unfold trimInner
      apply Alone.bind
      refine Alone.atomic fun _ _ => ?_
      rw [hlock]
      have hidle : BigPass E forceTrim requested ∅ 0 h [] (false, 0) h :=
        .idle (by decide) fun _ x hx => absurd hx (Set.notMem_empty _)
      exact Alone.ret ⟨∅, Set.empty_subset _, [], false, hidle,
        Bool.noConfusion⟩
  | false =>
      refine Walk.inner hlock hrows hfuel hnd hl
        (fun _ _ => BigPass.walk (freeBlocks_spread hrows)
          (freeBlocks_big fun q hq => hq.2.1)) ?_
      intro stop total h' hp
      obtain ⟨log, hp⟩ := hp
      have hrest : h'.unlocked = h.swept h'.mem log := by
        rw [← State.unlocked_swept hlock, ← hp.rest]
      exact ⟨_, le_refl _, log, stop, ⟨hp.calls, hp.nodup, hp.total_eq,
        hp.done, hp.stopped, hp.mem, hrest⟩, fun _ => rfl⟩

end RsMalloc.Heap
