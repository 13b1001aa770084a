/-
Whole runs of the page allocator.

A run is any sequence of `alloc` and `try_grow_inplace` calls, the
latter on spans that were handed out before; the run remembers every
span with the bytes it has by now. Each call trades parts with the list
of one node, so the spans stay apart from each other, from the record
pages and from what the arenas still have.

# Unlinked arenas

An arena that is on no list is out of reach: no call reads its record
or writes it. This is said as commutation. Whatever the record is
replaced by, each call gives the same answer, and the replacement is
still there afterwards.
-/
import Mathlib.Logic.Relation
import RsMalloc.Lib.Depot
import RsMalloc.Pages.Proofs

namespace RsMalloc.Pages

-- ================================================================== runs

/-- The state of a run: `spans` holds the start and the bytes of every
span handed out so far. -/
structure Run where
  ground : Ground
  pages : PageState
  spans : List (Nat × Nat)

/-- Before the first call. -/
def Run.new (m : Mem) : Run :=
  ⟨⟨m, [], RadixMap.RadixTree.new, [], []⟩, PageState.new, []⟩

namespace Run

/-- A call of `alloc`. -/
def alloc (cfg : Config) (env : Env) (fuel nodeId size : Nat) (r : Run) :
    Run :=
  match Pages.alloc cfg env fuel nodeId size r.ground r.pages with
  | (none, g, s) => ⟨g, s, r.spans⟩
  | (some ptr, g, s) =>
      ⟨g, s, (ptr, alignTo (max size 1) pageSize) :: r.spans⟩

/-- A call of `try_grow_inplace` for the span `e`. -/
def grow (cfg : Config) (env : Env) (fuel nodeId newSize : Nat)
    (e : Nat × Nat) (r : Run) : Run :=
  match tryGrowInplace cfg env fuel nodeId e.1 e.2 newSize r.pages with
  | (false, s) => ⟨r.ground, s, r.spans⟩
  | (true, s) =>
      ⟨r.ground, s, (e.1, max e.2 (alignTo (max newSize 1) pageSize))
        :: r.spans.erase e⟩

end Run

/-- One call, with the sizes that callers pass. -/
inductive Step (cfg : Config) (r : Run) : Run → Prop
  | alloc (env : Env) (fuel nodeId size : Nat) (small : size ≤ 2 ^ 32) :
      Step cfg r (r.alloc cfg env fuel nodeId size)
  | grow (env : Env) (fuel nodeId newSize : Nat) (e : Nat × Nat)
      (live : e ∈ r.spans) (small : newSize ≤ 2 ^ 32) :
      Step cfg r (r.grow cfg env fuel nodeId newSize e)

/-- A run of calls. -/
def Steps (cfg : Config) : Run → Run → Prop :=
  Relation.ReflTransGen (Step cfg)

-- ============================================================ invariants

/-- The bytes of a part. -/
def window (p : Part) : Nat × Nat := (p.base, p.len)

/-- A part that was handed out: whole pages of the data area of one
arena. -/
structure Given (p : Part) : Prop where
  raw : ∃ m, p.kind = .raw m ∧ m.1 + pageSize ≤ p.base
  align : p.base % pageSize = 0
  pages : p.len % pageSize = 0
  pos : 0 < p.len
  small : p.len ≤ 2 ^ 32

/-- The arenas of all nodes and the spans share the memory. -/
def RunInv (cfg : Config) (r : Run) : Prop :=
  ∃ R : Multiset Part, R.map window = (r.spans : Multiset (Nat × Nat))
    ∧ (∀ p ∈ R, Given p)
    ∧ Stocked (fun st n X => ArenasAt cfg st.2 n X)
      (fun st T => Space cfg st.1 T) (r.ground, r.pages) R

section Steps

variable {cfg : Config} {r r' : Run}

/-- Whole pages stay as they are. -/
theorem alignTo_pages {n : Nat} (hn : n % pageSize = 0) (hpos : 0 < n)
    (hle : n ≤ 2 ^ 32) : alignTo (max n 1) pageSize = n := by
  rw [Nat.max_eq_left hpos]
  simp only [alignTo, pageSize] at hn ⊢
  omega

theorem alignTo_bounds {n : Nat} (hle : n ≤ 2 ^ 32) :
    0 < alignTo (max n 1) pageSize ∧ alignTo (max n 1) pageSize ≤ 2 ^ 32 := by
  simp only [alignTo, pageSize]
  omega

theorem RunInv.new (m : Mem) : RunInv cfg (Run.new m) := by
  refine ⟨0, rfl, nofun, ∅,
    fun _ => 0, fun _ _ => rfl, fun n => ?_, ?_⟩
  · exact ⟨[], ⟨⟨0, rfl, rfl⟩, rfl, nofun,
      nofun⟩, rfl⟩
  · rw [Finset.sum_empty, zero_add]
    exact Space.new m

theorem RunInv.alloc (h : RunInv cfg r) (env : Env)
    (fuel nodeId size : Nat) (hsize : size ≤ 2 ^ 32) :
    RunInv cfg (r.alloc cfg env fuel nodeId size) := by
  obtain ⟨R, hspans, hgood, hst⟩ := h
  rw [← zero_add R] at hst
  unfold Run.alloc
  generalize hout : Pages.alloc cfg env fuel nodeId size r.ground r.pages
    = out
  -- what the call takes from the list of its node
  have hstep : ∃ A, Stocked (fun st n X => ArenasAt cfg st.2 n X)
      (fun st T => Space cfg st.1 T) (out.2.1, out.2.2) (A + R)
      ∧ (out.1 = none ∧ A = 0 ∨ ∃ ptr p, out.1 = some ptr ∧ A = {p}
        ∧ window p = (ptr, alignTo (max size 1) pageSize) ∧ Given p) := by
    refine Stocked.exchange (nodeOf cfg nodeId) hst fun X H hX hsp => ?_
    rw [zero_add] at hsp
    have hspec := alloc_spec env size fuel hX hsp
    rw [hout] at hspec
    have hb := alignTo_bounds hsize
    cases hspec with
    | none arenas space keeps =>
        refine ⟨_, 0, arenas, ?_, Or.inl ⟨rfl, rfl⟩, fun j Y hj hY hAt =>
          keeps j Y hj hY hAt⟩
        rw [zero_add]
        exact space
    | @some g' s' X' ptr m data arenas space above align keeps =>
        exact ⟨_, _, arenas, space, Or.inr ⟨ptr, _, rfl, rfl, rfl,
          ⟨m, rfl, above⟩, align, Nat.mul_mod_left _ _, hb.1, hb.2⟩,
          fun j Y hj hY hAt => keeps j Y hj hY hAt⟩
  obtain ⟨A, hst', hA⟩ := hstep
  obtain ⟨o, g, s⟩ := out
  rcases hA with ⟨hnone, rfl⟩ | ⟨ptr, p, hsome, rfl, hwin, hgiven⟩
  · cases hnone
    rw [zero_add] at hst'
    exact ⟨R, hspans, hgood, hst'⟩
  · cases hsome
    refine ⟨{p} + R, ?_, fun q hq => ?_, hst'⟩
    · rw [Multiset.map_add, Multiset.map_singleton, hwin, hspans,
        Multiset.singleton_add, Multiset.cons_coe]
    · rcases Multiset.mem_add.1 hq with hq | hq
      · rw [Multiset.mem_singleton] at hq
        exact hq ▸ hgiven
      · exact hgood q hq

/-- Taking one span out of those that were handed out. -/
theorem exists_part {R : Multiset Part} {spans : List (Nat × Nat)}
    {e : Nat × Nat} (h : R.map window = (spans : Multiset (Nat × Nat)))
    (he : e ∈ spans) :
    ∃ p R', R = {p} + R' ∧ window p = e
      ∧ R'.map window = (spans.erase e : Multiset (Nat × Nat)) := by
  have hmem : e ∈ R.map window := by
    rw [h]
    exact he
  obtain ⟨p, hp, rfl⟩ := Multiset.mem_map.1 hmem
  obtain ⟨R', rfl⟩ := Multiset.exists_cons_of_mem hp
  refine ⟨p, R', (Multiset.singleton_add p R').symm, rfl, ?_⟩
  rw [Multiset.map_cons,
    Multiset.coe_eq_coe.2 (List.perm_cons_erase he), ← Multiset.cons_coe] at h
  exact (Multiset.cons_inj_right _).1 h

theorem RunInv.grow (h : RunInv cfg r) (env : Env)
    (fuel nodeId newSize : Nat) {e : Nat × Nat} (he : e ∈ r.spans)
    (hsize : newSize ≤ 2 ^ 32) :
    RunInv cfg (r.grow cfg env fuel nodeId newSize e) := by
  obtain ⟨R, hspans, hgood, hst⟩ := h
  obtain ⟨p, R', rfl, rfl, hrest⟩ := exists_part hspans he
  have hp := hgood p mem_singleton_add_self
  have hold := alignTo_pages hp.pages hp.pos hp.small
  have hb := alignTo_bounds hsize
  have hnew : alignTo (max newSize 1) pageSize % pageSize = 0 :=
    Nat.mul_mod_left _ _
  unfold Run.grow
  generalize hout : tryGrowInplace cfg env fuel nodeId (window p).1
    (window p).2 newSize r.pages = out
  have hstep : ∃ A, Stocked (fun st n X => ArenasAt cfg st.2 n X)
      (fun st T => Space cfg st.1 T) (r.ground, out.2) (A + R')
      ∧ (out.1 = false ∧ A = {p} ∨ out.1 = true ∧ ∃ q, A = {q} ∧ Given q
        ∧ window q = (p.base,
          max p.len (alignTo (max newSize 1) pageSize))) := by
    refine Stocked.exchange (nodeOf cfg nodeId) hst fun X H hX hsp => ?_
    have hspec := tryGrowInplace_spec env fuel p.base p.len newSize hX hsp
    have hout' : tryGrowInplace cfg env fuel nodeId p.base p.len newSize
      r.pages = out := hout
    rw [hout', hold] at hspec
    generalize alignTo (max newSize 1) pageSize = new at *
    cases hspec with
    | no =>
        exact ⟨X, {p}, hX, hsp, Or.inl ⟨rfl, rfl⟩, fun _ _ _ _ hAt => hAt⟩
    | fits le =>
        refine ⟨X, {p}, hX, hsp, Or.inr ⟨rfl, p, rfl, hp, ?_⟩,
          fun _ _ _ _ hAt => hAt⟩
        rw [Nat.max_eq_left le]
        rfl
    | @more s' X' m data lt arenas space above keeps =>
        obtain ⟨l, hraw, -⟩ := hp.raw
        rw [show X' + ({⟨.raw m, p.base + p.len, new - p.len, data⟩}
            + ({p} + H))
          = {p} + ({⟨.raw m, p.base + p.len, new - p.len, data⟩}
            + (X' + H)) by abel] at space
        have hjoin := space.joinRaw hraw rfl rfl (by omega)
        rw [add_left_comm] at hjoin
        refine ⟨X', _, arenas, hjoin, Or.inr ⟨rfl, _, rfl,
          ⟨⟨m, rfl, above⟩, hp.align, ?_, ?_, ?_⟩, ?_⟩, fun j Y hj hY hAt =>
            keeps j Y hj (hY.trans (Multiset.le_add_left _ _)) hAt⟩
        · simp only
          rw [Nat.add_sub_cancel' lt.le]
          exact hnew
        · simp only
          omega
        · simp only
          omega
        · rw [Nat.max_eq_right lt.le]
          simp only [window, Nat.add_sub_cancel' lt.le]
  obtain ⟨A, hst', hA⟩ := hstep
  obtain ⟨ok, s⟩ := out
  rcases hA with ⟨hok, rfl⟩ | ⟨hok, q, rfl, hq, hwin⟩ <;> cases hok
  · exact ⟨_, hspans, hgood, hst'⟩
  · refine ⟨{q} + R', ?_, fun q' hq' => ?_, hst'⟩
    · rw [Multiset.map_add, Multiset.map_singleton, hwin, hrest,
        Multiset.singleton_add, Multiset.cons_coe]
      rfl
    · rcases Multiset.mem_add.1 hq' with hq' | hq'
      · rw [Multiset.mem_singleton] at hq'
        exact hq' ▸ hq
      · exact hgood q' (Multiset.mem_add.2 (Or.inr hq'))

/-- Every call keeps the invariant. -/
theorem RunInv.step (h : RunInv cfg r) (hs : Step cfg r r') :
    RunInv cfg r' := by
  cases hs with
  | alloc env fuel nodeId size small =>
      exact h.alloc env fuel nodeId size small
  | grow env fuel nodeId newSize e live small =>
      exact h.grow env fuel nodeId newSize live small

theorem RunInv.steps (h : RunInv cfg r) (hs : Steps cfg r r') :
    RunInv cfg r' := by
  induction hs with
  | refl => exact h
  | tail _ hstep ih => exact ih.step hstep

end Steps

-- ====================================================== unlinked arenas

section Unlinked

variable {cfg : Config} {env : Env} {s : PageState} {a b n v size : Nat}
  {ρ : PageArena}

theorem arena_setArena_of_ne (h : b ≠ a) :
    (s.setArena a ρ).arena b = s.arena b :=
  Function.update_of_ne h _ _

theorem setArena_comm {r : PageArena} (h : b ≠ a) :
    (s.setArena a ρ).setArena b r = (s.setArena b r).setArena a ρ := by
  unfold PageState.setArena
  dsimp only
  rw [Function.update_comm h]

theorem relinkPrev_comm (hb : b ≠ a) :
    relinkPrev n b v (s.setArena a ρ) = (relinkPrev n b v s).setArena a ρ := by
  unfold relinkPrev
  split
  · rw [arena_setArena_of_ne hb, setArena_comm hb]
  · rfl

theorem relinkNext_comm (hb : b ≠ a) :
    relinkNext b v (s.setArena a ρ) = (relinkNext b v s).setArena a ρ := by
  unfold relinkNext
  split
  · rw [arena_setArena_of_ne hb, setArena_comm hb]
  · rfl

theorem moveCurrent_comm :
    moveCurrent n b v (s.setArena a ρ)
      = (moveCurrent n b v s).setArena a ρ := by
  unfold moveCurrent
  show (if (s.node n).current = b then _ else _) = _
  split <;> rfl

theorem dropRecord_comm (hb : b ≠ a) :
    dropRecord cfg env b (s.setArena a ρ)
      = (dropRecord cfg env b s).setArena a ρ := by
  unfold dropRecord
  split
  · exact setArena_comm hb
  · rfl

theorem removeArena_comm (hb : b ≠ a) (hprev : (s.arena b).prev ≠ a)
    (hnext : (s.arena b).next ≠ a) :
    removeArena cfg env n b (s.setArena a ρ)
      = (removeArena cfg env n b s).setArena a ρ := by
  by_cases hzero : b = 0
  · subst hzero
    rfl
  · rw [removeArena_eq cfg env hzero, removeArena_eq cfg env hzero,
      arena_setArena_of_ne hb, relinkPrev_comm hprev, relinkNext_comm hnext,
      moveCurrent_comm, dropRecord_comm hb]

/-- Replace the record at `a` in the state that a call returns. -/
def withRecord {α : Type} (a : Nat) (ρ : PageArena) (out : α × PageState) :
    α × PageState :=
  (out.1, out.2.setArena a ρ)

theorem bump_comm (hb : b ≠ a) (hprev : (s.arena b).prev ≠ a)
    (hnext : (s.arena b).next ≠ a) :
    bump cfg env n b size (s.setArena a ρ)
      = withRecord a ρ (bump cfg env n b size s) := by
  unfold bump
  rw [arena_setArena_of_ne hb]
  split
  · rfl
  · next next _ =>
    split
    · rfl
    · dsimp only
      rw [setArena_comm hb, arena_setArena_of_ne hb]
      split
      · rw [removeArena_comm hb]
        · rfl
        · rw [show (s.setArena b _).arena b = _ from Function.update_self ..]
          exact hprev
        · rw [show (s.setArena b _).arena b = _ from Function.update_self ..]
          exact hnext
      · rfl

/-- The arenas of node `n` are among `B`: no link leads out of it. -/
structure Closed (B : List Nat) (s : PageState) (n : Nat) : Prop where
  arenas : (s.node n).arenas ∈ 0 :: B
  current : (s.node n).current ∈ 0 :: B
  next : ∀ b ∈ B, (s.arena b).next ∈ 0 :: B
  prev : ∀ b ∈ B, (s.arena b).prev ∈ 0 :: B

variable {B : List Nat}

/-- An arena elsewhere is not where the links lead. -/
theorem ne_of_mem (ha : a ∉ 0 :: B) (hb : b ∈ 0 :: B) : b ≠ a := by
  rintro rfl
  exact ha hb

theorem mem_of_ne_zero (hb : b ∈ 0 :: B) (hne : b ≠ 0) : b ∈ B :=
  (List.mem_cons.1 hb).resolve_left hne

section Comm

variable (h : Closed B s n) (ha : a ∉ 0 :: B)
include h ha

theorem Closed.bump_comm (hb : b ∈ B) :
    bump cfg env n b size (s.setArena a ρ)
      = withRecord a ρ (bump cfg env n b size s) :=
  Pages.bump_comm (ne_of_mem ha (List.mem_cons_of_mem _ hb))
    (ne_of_mem ha (h.prev b hb)) (ne_of_mem ha (h.next b hb))

theorem allocateCurrent_comm :
    allocateCurrent cfg env n size (s.setArena a ρ)
      = withRecord a ρ (allocateCurrent cfg env n size s) := by
  unfold allocateCurrent
  show (if (s.node n).current = 0 then _ else _) = _
  split
  · rfl
  · next hne => exact h.bump_comm ha (mem_of_ne_zero h.current hne)

theorem allocateSearch_comm (fuel : Nat) {arena : Nat}
    (harena : arena ∈ 0 :: B) :
    allocateSearch cfg env n size fuel arena (s.setArena a ρ)
      = withRecord a ρ (allocateSearch cfg env n size fuel arena s) := by
  induction fuel generalizing arena with
  | zero => rfl
  | succ fuel ih =>
      unfold allocateSearch
      split
      · rfl
      · next hne =>
        have hmem := mem_of_ne_zero harena hne
        rw [arena_setArena_of_ne (ne_of_mem ha harena)]
        show (if arena = (s.node n).current then _ else _) = _
        split
        · exact ih (h.next arena hmem)
        · rw [h.bump_comm ha hmem]
          generalize bump cfg env n arena size s = out
          obtain ⟨o, s'⟩ := out
          cases o with
          | none => exact ih (h.next arena hmem)
          | some ptr => rfl

theorem growLoop_comm {addr old new : Nat} (fuel : Nat) {arena : Nat}
    (harena : arena ∈ 0 :: B) :
    growLoop cfg env n addr old new fuel arena (s.setArena a ρ)
      = withRecord a ρ (growLoop cfg env n addr old new fuel arena s) := by
  induction fuel generalizing arena with
  | zero => rfl
  | succ fuel ih =>
      unfold growLoop
      split
      · rfl
      · next hne =>
        have hmem := mem_of_ne_zero harena hne
        have hne' := ne_of_mem ha harena
        rw [arena_setArena_of_ne hne']
        dsimp only
        split
        case isFalse => exact ih (h.next arena hmem)
        split
        · rfl
        · split
          · rfl
          · split
            · rfl
            · split
              · rfl
              · split
                · rfl
                · rw [setArena_comm hne']
                  split
                  · rw [removeArena_comm hne']
                    · rfl
                    · rw [show (s.setArena arena _).arena arena = _ from
                        Function.update_self ..]
                      exact ne_of_mem ha (h.prev arena hmem)
                    · rw [show (s.setArena arena _).arena arena = _ from
                        Function.update_self ..]
                      exact ne_of_mem ha (h.next arena hmem)
                  · rfl

end Comm

theorem tryGrowInplace_comm {nodeId : Nat}
    (h : Closed B s (nodeOf cfg nodeId)) (ha : a ∉ 0 :: B)
    (fuel ptr old new : Nat) :
    tryGrowInplace cfg env fuel nodeId ptr old new (s.setArena a ρ)
      = withRecord a ρ (tryGrowInplace cfg env fuel nodeId ptr old new s) := by
  unfold tryGrowInplace
  split
  · rfl
  · dsimp only
    split
    · rfl
    · split
      · rfl
      · exact growLoop_comm h ha fuel h.arenas

/-- `new_arena_locked` decides by the kernel's answer alone, and a new
arena is where nothing was mapped. -/
theorem newArenaLocked_eq (cfg : Config) (env : Env) (n requested : Nat)
    (g : Ground) :
    (∃ g', (∀ m ∈ g.maps, m ∈ g'.maps)
      ∧ ∀ s, newArenaLocked cfg env n requested g s = (none, g', s))
    ∨ ∃ x base end_ g', (∀ m ∈ g.maps, m ∈ g'.maps) ∧ ¬ Mapped g.maps x
      ∧ ∀ s, newArenaLocked cfg env n requested g s
        = (some (), g', linkArena n x
          ⟨(s.node n).arenas, 0, base, end_, base⟩ s) := by
  unfold newArenaLocked
  dsimp only
  split
  · exact Or.inl ⟨g, fun _ hm => hm, fun s => rfl⟩
  · next mapSize _ =>
    rcases Space.mmap_cases g env.offer mapSize
      with hfail | ⟨x, hpos, hplace, hok⟩
    · rw [hfail]
      exact Or.inl ⟨g, fun _ hm => hm, fun s => rfl⟩
    · rw [hok]
      obtain ⟨-, -, -, hfree⟩ := hplace
      dsimp only
      split
      · exact Or.inl ⟨_, fun _ hm => List.mem_cons_of_mem _ hm, fun s => rfl⟩
      · next end_ _ =>
        refine Or.inr ⟨x, x + pageSize, end_, _,
          fun _ hm => List.mem_cons_of_mem _ hm, ?_, fun s => rfl⟩
        rintro ⟨m, hm, h₁, h₂⟩
        have hup := (pageUp_spec mapSize).1
        rcases hfree m hm with hf | hf <;> omega

/-- A call that finds no room changes nothing. -/
theorem bump_none (h : (bump cfg env n b size s).1 = none) :
    bump cfg env n b size s = (none, s) := by
  revert h
  unfold bump
  split
  · exact fun _ => rfl
  · split
    · exact fun _ => rfl
    · dsimp only
      split <;> nofun

theorem allocateCurrent_none
    (h : (allocateCurrent cfg env n size s).1 = none) :
    allocateCurrent cfg env n size s = (none, s) := by
  revert h
  unfold allocateCurrent
  split
  · exact fun _ => rfl
  · exact bump_none

theorem allocateSearch_none {fuel arena : Nat}
    (h : (allocateSearch cfg env n size fuel arena s).1 = none) :
    allocateSearch cfg env n size fuel arena s = (none, s) := by
  induction fuel generalizing arena with
  | zero => rfl
  | succ fuel ih =>
      revert h
      unfold allocateSearch
      split
      · exact fun _ => rfl
      · split
        · exact ih
        · split
          · nofun
          · exact ih

/-- What is mapped stays mapped. -/
theorem alloc_maps (env : Env) (fuel nodeId size : Nat) (g : Ground)
    (s : PageState) :
    ∀ m ∈ g.maps, m ∈ (alloc cfg env fuel nodeId size g s).2.1.maps := by
  unfold alloc
  dsimp only
  split
  · exact fun _ hm => hm
  · split
    · exact fun _ hm => hm
    · split
      · exact fun _ hm => hm
      · next s' _ =>
        rcases newArenaLocked_eq cfg env (nodeOf cfg nodeId)
            (alignTo (max size 1) pageSize) g
          with ⟨g', hm, hnone⟩ | ⟨x, base, end_, g', hm, -, hnew⟩
        · rw [hnone]
          exact hm
        · rw [hnew]
          exact hm

/-- The new arena serves the call that made it. -/
theorem linkArena_comm {x base end_ : Nat} (h : Closed B s n)
    (ha : a ∉ 0 :: B) (hx : x ≠ a) :
    allocateCurrent cfg env n size (linkArena n x
        ⟨((s.setArena a ρ).node n).arenas, 0, base, end_, base⟩
        (s.setArena a ρ))
      = withRecord a ρ (allocateCurrent cfg env n size (linkArena n x
        ⟨(s.node n).arenas, 0, base, end_, base⟩ s)) := by
  have hhead := ne_of_mem ha h.arenas
  have hlink : linkArena n x
      ⟨((s.setArena a ρ).node n).arenas, 0, base, end_, base⟩
        (s.setArena a ρ)
      = (linkArena n x ⟨(s.node n).arenas, 0, base, end_, base⟩ s).setArena
        a ρ := by
    unfold linkArena
    rw [setArena_comm hx]
    show (relinkNext (s.node n).arenas x _).setNode n ⟨x, x⟩ = _
    rw [relinkNext_comm hhead]
    rfl
  have hnode : ((linkArena n x ⟨(s.node n).arenas, 0, base, end_, base⟩
      s).node n) = ⟨x, x⟩ := Function.update_self ..
  rw [hlink]
  unfold allocateCurrent
  rw [show ((linkArena n x ⟨(s.node n).arenas, 0, base, end_, base⟩
    s).setArena a ρ).node n = ⟨x, x⟩ from hnode, hnode]
  dsimp only
  split
  · rfl
  · have hrec : ((linkArena n x ⟨(s.node n).arenas, 0, base, end_, base⟩
        s).arena x).next ≠ a ∧ ((linkArena n x
          ⟨(s.node n).arenas, 0, base, end_, base⟩ s).arena x).prev ≠ a := by
      have ha0 : 0 ≠ a := ne_of_mem ha (List.mem_cons_self ..)
      unfold linkArena relinkNext
      generalize (s.node n).arenas = head at hhead
      by_cases hhx : head = x
      · subst hhx
        simp only [PageState.setNode, PageState.setArena]
        split <;> simp [hx]
      · simp only [PageState.setNode, PageState.setArena]
        split <;> simp [Ne.symm hhx, hhead, ha0]
    exact bump_comm hx hrec.2 hrec.1

/-- `alloc` neither reads nor writes a record that is on no list. -/
theorem alloc_comm {g : Ground} {nodeId : Nat}
    (h : Closed B s (nodeOf cfg nodeId)) (ha : a ∉ 0 :: B)
    (hmap : Mapped g.maps a) (fuel size : Nat) :
    alloc cfg env fuel nodeId size g (s.setArena a ρ)
      = ((alloc cfg env fuel nodeId size g s).1,
        withRecord a ρ (alloc cfg env fuel nodeId size g s).2) := by
  unfold alloc
  generalize nodeOf cfg nodeId = n at h
  generalize alignTo (max size 1) pageSize = total
  dsimp only
  split
  · rfl
  · rw [allocateCurrent_comm h ha]
    rcases hcur : allocateCurrent cfg env n total s with ⟨_ | ptr, s₁⟩
    case some => rfl
    have hs₁ := allocateCurrent_none (s := s) (by rw [hcur])
    rw [hcur] at hs₁
    cases hs₁
    dsimp only [withRecord]
    have harenas : ((s.setArena a ρ).node n).arenas = (s.node n).arenas :=
      rfl
    rw [harenas, allocateSearch_comm h ha fuel h.arenas]
    rcases hsearch : allocateSearch cfg env n total fuel (s.node n).arenas s
      with ⟨_ | ptr, s₂⟩
    case some => rfl
    have hs₂ := allocateSearch_none (s := s) (by rw [hsearch])
    rw [hsearch] at hs₂
    cases hs₂
    dsimp only [withRecord]
    rcases newArenaLocked_eq cfg env n total g
      with ⟨g', -, hnone⟩ | ⟨x, base, end_, g', -, hfree, hnew⟩
    · rw [hnone, hnone]
    · rw [hnew, hnew]
      dsimp only
      have hx : x ≠ a := by
        rintro rfl
        exact hfree hmap
      rw [linkArena_comm h ha hx]
      rfl

end Unlinked

-- ========================================================== the theorem

/-- The links in the records of arenas. -/
def recordLinks (s : PageState) : Links Nat Nat where
  addr a := a
  next a := (s.arena a).next
  prev a := (s.arena a).prev

/-- The list of node `n` holds the arenas `l`, linked both ways. -/
def Lists (s : PageState) (n : Nat) (l : List Nat) : Prop :=
  0 ∉ l ∧ ∃ t, DSeg (recordLinks s) 0 (s.node n).arenas l t 0

/-- What holds of the spans and of the lists. -/
structure WellFormed (cfg : Config) (r : Run) : Prop where
  aligned : ∀ e ∈ r.spans, e.1 % pageSize = 0
  apart : r.spans.Pairwise fun e e' =>
    e.1 + e.2 ≤ e'.1 ∨ e'.1 + e'.2 ≤ e.1
  /-- Every mapping is an arena, its first page the record. -/
  inside : ∀ e ∈ r.spans, ∃ m ∈ r.ground.maps,
    m.1 + pageSize ≤ e.1 ∧ e.1 + e.2 ≤ m.1 + m.2
  refused : ∀ env fuel nodeId newSize, ∀ e ∈ r.spans,
    (tryGrowInplace cfg env fuel nodeId e.1 e.2 newSize r.pages).1 = false →
    (tryGrowInplace cfg env fuel nodeId e.1 e.2 newSize r.pages).2 = r.pages
  lists : ∀ n, ∃ l, Lists r.pages n l ∧ l.Nodup
    ∧ (r.pages.node n).current = (r.pages.node n).arenas
    ∧ ∀ a ∈ l, (r.pages.arena a).base ≤ (r.pages.arena a).current
      ∧ (r.pages.arena a).current ≤ (r.pages.arena a).end_
      ∧ minRefillBytes
        ≤ (r.pages.arena a).end_ - (r.pages.arena a).current

/-- The arena at `a` was made and is on no list. -/
def Unlinked (r : Run) (a : Nat) : Prop :=
  Mapped r.ground.maps a ∧ ∀ n l, Lists r.pages n l → a ∉ l

/-- Replace the record at `a`. -/
def Run.poke (r : Run) (a : Nat) (ρ : PageArena) : Run :=
  { r with pages := r.pages.setArena a ρ }

/-- No call reads or writes the record at `a`: with any other record in
its place a call does the same. -/
def Untouched (cfg : Config) (r : Run) (a : Nat) : Prop :=
  ∀ ρ env fuel nodeId size e,
    (r.poke a ρ).alloc cfg env fuel nodeId size
      = (r.alloc cfg env fuel nodeId size).poke a ρ
    ∧ (r.poke a ρ).grow cfg env fuel nodeId size e
      = (r.grow cfg env fuel nodeId size e).poke a ρ

section Lists

variable {cfg : Config} {r r' : Run} {s : PageState} {a n : Nat}

theorem ListAt.lists {l : List Arena} (h : ListAt cfg s n l)
    (hne : 0 ∉ bases l) : Lists s n (bases l) := by
  obtain ⟨t, hseg⟩ := h.list
  refine ⟨hne, t, hseg.map (fun e => e.page.base) (fun _ _ => rfl)
    (fun e he => ?_) fun e he => ?_⟩
  · show (s.arena e.page.base).next = e.record.next
    rw [h.record e he]
  · show (s.arena e.page.base).prev = e.record.prev
    rw [h.record e he]

/-- A node has one list. -/
theorem Lists.unique {l l' : List Nat} (h : Lists s n l)
    (h' : Lists s n l') : l = l' := by
  obtain ⟨hne, t, hseg⟩ := h
  obtain ⟨hne', t', hseg'⟩ := h'
  have h₁ : LinkedSeg (fun a => (s.arena a).next) _
      (l.map (recordLinks s).addr) 0 := hseg.linkedSeg fun _ _ => rfl
  have h₂ : LinkedSeg (fun a => (s.arena a).next) _
      (l'.map (recordLinks s).addr) 0 := hseg'.linkedSeg fun _ _ => rfl
  rw [show l.map (recordLinks s).addr = l from List.map_id l] at h₁
  rw [show l'.map (recordLinks s).addr = l' from List.map_id l'] at h₂
  exact h₁.unique h₂ hne hne'

/-- A record that is on no list may be replaced. -/
theorem Lists.setArena {l : List Nat} {ρ : PageArena}
    (h : Lists (s.setArena a ρ) n l) (ha : a ∉ l) : Lists s n l := by
  obtain ⟨hne, t, hseg⟩ := h
  have hof : ∀ b ∈ l, (s.setArena a ρ).arena b = s.arena b :=
    fun b hb => arena_setArena_of_ne fun heq => ha (heq ▸ hb)
  have hseg' := hseg.map (K := recordLinks s) id (fun _ _ => rfl)
    (fun b hb => by
      show (s.arena b).next = ((s.setArena a ρ).arena b).next
      rw [hof b hb])
    fun b hb => by
      show (s.arena b).prev = ((s.setArena a ρ).arena b).prev
      rw [hof b hb]
  rw [List.map_id] at hseg'
  exact ⟨hne, t, hseg'⟩

/-- The record pages of one node's list are apart. -/
theorem apart_of_place {g : Ground} {S : Finset Nat}
    {C : Nat → Multiset Part} {R : Multiset Part} {l : List Arena}
    (hout : ∀ k, k ∉ S → C k = 0) (hsp : Space cfg g (∑ k ∈ S, C k + R))
    (hl : ListAt cfg s n l) (hC : C n = parts l) :
    (bases l).Nodup ∧ 0 ∉ bases l := by
  by_cases hn : n ∈ S
  · rw [← Finset.add_sum_erase S C hn, hC, add_assoc] at hsp
    exact pages_apart hsp hl.ok
  · have hzero := hout n hn
    rw [hC] at hzero
    cases l with
    | nil => exact ⟨List.nodup_nil, List.not_mem_nil⟩
    | cons e l =>
        rw [parts_cons, add_assoc, Multiset.singleton_add] at hzero
        exact absurd hzero Multiset.cons_ne_zero

/-- The list of every node. -/
theorem RunInv.listAt (h : RunInv cfg r) (n : Nat) :
    ∃ l, ListAt cfg r.pages n l ∧ (bases l).Nodup ∧ 0 ∉ bases l := by
  obtain ⟨R, -, -, S, C, hout, hplace, hsp⟩ := h
  obtain ⟨l, hl, hC⟩ := hplace n
  exact ⟨l, hl, apart_of_place hout hsp hl hC⟩

/-- No link of a list leads out of it. -/
theorem ListAt.closed {l : List Arena} (h : ListAt cfg s n l) :
    Closed (bases l) s n := by
  obtain ⟨t, hseg⟩ := h.list
  -- the link into a suffix and the links inside stay in the list
  have hwalk : ∀ (l₂ l₁ : List Arena) (b k : Nat), l = l₁ ++ l₂ →
      b ∈ 0 :: bases l → DSeg Arena.links b k l₂ t 0 →
      k ∈ 0 :: bases l ∧ ∀ e ∈ l₂, e.record.next ∈ 0 :: bases l
        ∧ e.record.prev ∈ 0 :: bases l := by
    intro l₂
    induction l₂ with
    | nil =>
        intro l₁ b k _ _ hseg
        rw [hseg.1]
        exact ⟨List.mem_cons_self .., nofun⟩
    | cons e l₂ ih =>
        intro l₁ b k heq hb hseg
        have he : e.page.base ∈ 0 :: bases l :=
          List.mem_cons_of_mem _ (base_mem_bases (by simp [heq]))
        obtain ⟨hk, hprev, hrest⟩ := hseg
        obtain ⟨hnext, hall⟩ := ih (l₁ ++ [e]) e.page.base e.record.next
          (by simp [heq]) he hrest
        have hback : e.record.prev = b := hprev
        refine ⟨hk ▸ he, fun e' he' => ?_⟩
        rcases List.mem_cons.1 he' with rfl | he'
        · rw [hback]
          exact ⟨hnext, hb⟩
        · exact hall e' he'
  obtain ⟨hhead, hall⟩ := hwalk l [] 0 _ rfl (List.mem_cons_self ..) hseg
  refine ⟨hhead, h.head ▸ hhead, fun b hb => ?_, fun b hb => ?_⟩ <;>
    obtain ⟨e, he, rfl⟩ := mem_bases.1 hb <;> rw [h.record e he]
  · exact (hall e he).1
  · exact (hall e he).2

/-- The null page is never mapped. -/
theorem RunInv.ne_zero (h : RunInv cfg r) (ha : Mapped r.ground.maps a) :
    a ≠ 0 := by
  obtain ⟨R, -, -, hst⟩ := h
  obtain ⟨H, hsp⟩ := hst.elim
  have hb := (hsp.user a ha).1
  simp only [pageSize] at hb
  omega

theorem RunInv.untouched (h : RunInv cfg r) (ha : Unlinked r a) :
    Untouched cfg r a := by
  intro ρ env fuel nodeId size e
  obtain ⟨l, hl, -, hne⟩ := h.listAt (nodeOf cfg nodeId)
  have hoff : a ∉ 0 :: bases l := by
    rw [List.mem_cons, not_or]
    exact ⟨h.ne_zero ha.1, ha.2 _ _ (hl.lists hne)⟩
  constructor
  · unfold Run.alloc Run.poke
    dsimp only
    rw [alloc_comm hl.closed hoff ha.1]
    rcases Pages.alloc cfg env fuel nodeId size r.ground r.pages
      with ⟨_ | ptr, g, s⟩ <;> rfl
  · unfold Run.grow Run.poke
    dsimp only
    rw [tryGrowInplace_comm hl.closed hoff]
    rcases tryGrowInplace cfg env fuel nodeId e.1 e.2 size r.pages
      with ⟨_ | _, s⟩ <;> rfl

/-- The record of an unlinked arena may be replaced. -/
theorem RunInv.poke (h : RunInv cfg r) (ha : Unlinked r a)
    (ρ : PageArena) : RunInv cfg (r.poke a ρ) := by
  obtain ⟨R, hspans, hgood, S, C, hout, hplace, hsp⟩ := h
  refine ⟨R, hspans, hgood, S, C, hout, fun n => ?_, hsp⟩
  obtain ⟨l, hl, hC⟩ := hplace n
  have hne := (apart_of_place hout hsp hl hC).2
  exact ⟨l, ⟨hl.list, hl.head,
    hl.record.setArena (ha.2 n _ (hl.lists hne)), hl.ok⟩, hC⟩

/-- The step, from a state with another record at `a`. -/
theorem Untouched.step (h : Untouched cfg r a) (hs : Step cfg r r')
    (ρ : PageArena) : Step cfg (r.poke a ρ) (r'.poke a ρ) := by
  cases hs with
  | alloc env fuel nodeId size small =>
      rw [← (h ρ env fuel nodeId size (0, 0)).1]
      exact .alloc env fuel nodeId size small
  | grow env fuel nodeId newSize e live small =>
      rw [← (h ρ env fuel nodeId newSize e).2]
      exact .grow env fuel nodeId newSize e live small

theorem Untouched.record (h : Untouched cfg r a) (hs : Step cfg r r') :
    r'.pages.arena a = r.pages.arena a := by
  have hself : r.poke a (r.pages.arena a) = r := by
    unfold Run.poke PageState.setArena
    rw [Function.update_eq_self]
  have hfix : r'.poke a (r.pages.arena a) = r' := by
    cases hs with
    | alloc env fuel nodeId size small =>
        rw [← (h _ env fuel nodeId size (0, 0)).1, hself]
    | grow env fuel nodeId newSize e live small =>
        rw [← (h _ env fuel nodeId newSize e).2, hself]
  rw [← hfix]
  exact Function.update_self ..

theorem step_mapped (hs : Step cfg r r') (ha : Mapped r.ground.maps a) :
    Mapped r'.ground.maps a := by
  obtain ⟨m, hm, hin⟩ := ha
  refine ⟨m, ?_, hin⟩
  cases hs with
  | alloc env fuel nodeId size small =>
      have hmaps : m ∈ (Pages.alloc cfg env fuel nodeId size r.ground
          r.pages).2.1.maps := alloc_maps env fuel nodeId size _ _ m hm
      unfold Run.alloc
      rcases hout : Pages.alloc cfg env fuel nodeId size r.ground r.pages
        with ⟨_ | ptr, g, s⟩ <;> rw [hout] at hmaps <;> exact hmaps
  | grow env fuel nodeId newSize e live small =>
      unfold Run.grow
      split <;> exact hm

/-- An arena that is on no list stays so. -/
theorem RunInv.unlinked_step (h : RunInv cfg r) (ha : Unlinked r a)
    (hs : Step cfg r r') : Unlinked r' a := by
  refine ⟨step_mapped hs ha.1, fun n l hl hmem => ?_⟩
  -- with a record in its place that no arena has, `a` cannot be linked
  have hinv := (h.poke ha .zeroed).step ((h.untouched ha).step hs .zeroed)
  obtain ⟨l', hl', -, hne⟩ := hinv.listAt n
  have hoff : a ∉ bases l' := by
    intro hin
    obtain ⟨e, he, rfl⟩ := mem_bases.1 hin
    have hrec : PageArena.zeroed = e.record :=
      (Function.update_self ..).symm.trans (hl'.record e he)
    have hbase := (hl'.ok e he).base
    rw [← hrec] at hbase
    simp only [PageArena.zeroed, pageSize] at hbase
    omega
  have hlist := (hl'.lists hne).setArena hoff
  rw [hl.unique hlist] at hmem
  exact hoff hmem

theorem RunInv.unlinked_steps (h : RunInv cfg r) (ha : Unlinked r a)
    (hs : Steps cfg r r') :
    Unlinked r' a ∧ r'.pages.arena a = r.pages.arena a := by
  induction hs with
  | refl => exact ⟨ha, rfl⟩
  | tail hrun hstep ih =>
      have hinv := h.steps hrun
      exact ⟨hinv.unlinked_step ih.1 hstep,
        ((hinv.untouched ih.1).record hstep).trans ih.2⟩

/-- A growth that is refused changes nothing. -/
theorem growLoop_false {env : Env} {addr old new fuel arena : Nat}
    (h : (growLoop cfg env n addr old new fuel arena s).1 = false) :
    (growLoop cfg env n addr old new fuel arena s).2 = s := by
  induction fuel generalizing arena with
  | zero => rfl
  | succ fuel ih =>
      revert h
      unfold growLoop
      split
      · exact fun _ => rfl
      · dsimp only
        split
        case isFalse => exact ih
        split
        · exact fun _ => rfl
        · split
          · exact fun _ => rfl
          · split
            · exact fun _ => rfl
            · split
              · exact fun _ => rfl
              · split
                · exact fun _ => rfl
                · split <;> nofun

theorem tryGrowInplace_false {env : Env} {fuel nodeId ptr old new : Nat}
    (h : (tryGrowInplace cfg env fuel nodeId ptr old new s).1 = false) :
    (tryGrowInplace cfg env fuel nodeId ptr old new s).2 = s := by
  revert h
  unfold tryGrowInplace
  split
  · exact fun _ => rfl
  · dsimp only
    split
    · nofun
    · split
      · exact fun _ => rfl
      · exact growLoop_false

/-- The invariant says what the spans and the lists look like, when an
arena is made with room for a refill. -/
theorem RunInv.wellFormed (h : RunInv cfg r)
    (hmin : 256 * 1024 ≤ cfg.arenaSize)
    (hmax : cfg.arenaSize ≤ 2 ^ 64 - 4096) : WellFormed cfg r := by
  have hlists := fun n => h.listAt n
  obtain ⟨R, hspans, hgood, hst⟩ := h
  obtain ⟨H, hsp⟩ := hst.elim
  have hpart : ∀ e ∈ r.spans, ∃ p ∈ R, window p = e := by
    intro e he
    have hmem : e ∈ R.map window := by
      rw [hspans]
      exact he
    exact Multiset.mem_map.1 hmem
  refine ⟨fun e he => ?_, ?_, fun e he => ?_,
    fun _ _ _ _ _ _ hno => tryGrowInplace_false hno, fun n => ?_⟩
  · obtain ⟨p, hp, rfl⟩ := hpart e he
    exact (hgood p hp).align
  · obtain ⟨l, rfl⟩ := Quot.exists_rep R
    have hpw := hsp.holds.pairwise (l := l) fun p hp => (hgood p hp).pos
    have hperm : (l.map window).Perm r.spans := Multiset.coe_eq_coe.1 hspans
    refine (hperm.pairwise_iff fun h => h.symm).1 ?_
    exact List.pairwise_map.2 hpw
  · obtain ⟨p, hp, rfl⟩ := hpart e he
    obtain ⟨m, hraw, habove⟩ := (hgood p hp).raw
    have hhouse := hsp.housed p (Multiset.mem_add.2 (Or.inl hp))
    rw [Housed, hraw] at hhouse
    exact ⟨m, hhouse.1, habove, hhouse.2.2⟩
  · obtain ⟨l, hl, hnd, hne⟩ := hlists n
    refine ⟨bases l, hl.lists hne, hnd, hl.head, fun a ha => ?_⟩
    obtain ⟨e, he, rfl⟩ := mem_bases.1 ha
    have hok := hl.ok e he
    have hroom := hok.room hmin hmax
    have hlen := hok.rest_len
    have habove := hok.above
    have hbase := hok.base
    rw [hl.record e he]
    omega

end Lists

/-- In every run the spans are page aligned, apart and each in the data
area of one arena; a refused growth changes nothing; every node's list
is doubly linked from `current` and holds only arenas with room for a
refill; and an arena that is on no list is never read, never written
and never linked again. The arena size must not wrap when it is rounded
up to pages. -/
theorem page_spans_apart (cfg : Config) (m : Mem) {r : Run}
    (hmin : 256 * 1024 ≤ cfg.arenaSize)
    (hmax : cfg.arenaSize ≤ 2 ^ 64 - 4096) (hr : Steps cfg (Run.new m) r) :
    WellFormed cfg r ∧ ∀ a, Unlinked r a → Untouched cfg r a
      ∧ ∀ r', Steps cfg r r' →
        Unlinked r' a ∧ r'.pages.arena a = r.pages.arena a := by
  have hinv := (RunInv.new m).steps hr
  refine ⟨hinv.wellFormed hmin hmax, fun a ha => ⟨hinv.untouched ha,
    fun r' hs => hinv.unlinked_steps ha hs⟩⟩

/-- One node, with arenas of the given size. -/
def oneNode (arenaSize : Nat) : Config := .single arenaSize

/-- The first span, and a growth of it in place. -/
def grownRun : Run :=
  (((Run.new fun _ => 0).alloc (oneNode (256 * 1024))
    { offer := some 65536 } 1 0 4096).grow (oneNode (256 * 1024)) {} 1 0 12288
      (69632, 4096))

theorem page_spans_apart_grown :
    Steps (oneNode (256 * 1024)) (Run.new fun _ => 0) grownRun
      ∧ grownRun.spans = [(69632, 12288)]
      ∧ WellFormed (oneNode (256 * 1024)) grownRun := by
  have hrun : Steps (oneNode (256 * 1024)) (Run.new fun _ => 0) grownRun := by
    refine (Relation.ReflTransGen.single
      (.alloc { offer := some 65536 } 1 0 4096 (by decide))).tail
        (.grow {} 1 0 12288 (69632, 4096) ?_ (by decide))
    decide +kernel
  exact ⟨hrun, by decide +kernel,
    (page_spans_apart _ _ (by decide) (by decide) hrun).1⟩

/-- With an arena size that wraps, the first call links an arena without
room, and keeps it. -/
theorem page_spans_apart_wrapped :
    256 * 1024 ≤ (oneNode (2 ^ 64 - 1)).arenaSize
      ∧ ∃ r, Steps (oneNode (2 ^ 64 - 1)) (Run.new fun _ => 0) r
        ∧ ¬ WellFormed (oneNode (2 ^ 64 - 1)) r := by
  refine ⟨by decide, _, .single (.alloc { offer := some 65536 } 1 0 4096
    (by decide)), fun h => ?_⟩
  obtain ⟨l, ⟨-, t, hseg⟩, -, -, hall⟩ := h.lists 0
  have hhead : (((Run.new fun _ => 0).alloc (oneNode (2 ^ 64 - 1))
      { offer := some 65536 } 1 0 4096).pages.node 0).arenas = 65536 := rfl
  have hrec : ((Run.new fun _ => 0).alloc (oneNode (2 ^ 64 - 1))
      { offer := some 65536 } 1 0 4096).pages.arena 65536
      = ⟨0, 0, 69632, 69632, 69632⟩ := rfl
  rw [hhead] at hseg
  cases l with
  | nil => exact absurd hseg.1 (by decide)
  | cons a l =>
      have ha : a = 65536 := hseg.1
      have hroom := (hall a (List.mem_cons_self ..)).2.2
      rw [ha, hrec, minRefillBytes_eq] at hroom
      simp only at hroom
      omega

end RsMalloc.Pages
