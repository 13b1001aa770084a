/-
`BIG_META_MAP` shared between threads.

Every public function of the tree takes the tree's spin lock first and
holds it to its end. The model of a function is a state transformer; in
the machine it is a sequence of memory accesses. How it is cut into
steps is a parameter here (`Cuts`): whatever the cut, and whatever the
order of the threads' steps, clients see a map whose operations happen
one at a time, each between its call and its return.
-/
import RsMalloc.RbTree.Invariants
import RsMalloc.Sync.Locked

namespace RsMalloc.RbTree

open Conc RedBlack Sync

variable {ι α : Type} {os : Nat → Ptr}

/-- The steps of `p`, run without interruption, do what `f` does,
wherever `f` has no fault. -/
def Cuts (p : Prog RBTree ι α) (f : M α) : Prop :=
  ∀ env h a h', f h = .ok (a, h') → p.exec env h = some (a, h')

/-- The tree holds the map `f`, of at most `k` keys. -/
def Stands (os : Nat → Ptr) (k : Nat) (h : RBTree) (f : MetaMap) : Prop :=
  ∃ t fl, Inv os h t fl ∧ lookup t.entries = f ∧ t.entries.length ≤ k

theorem stands_new : Stands os 0 RBTree.new fun _ => none :=
  ⟨.nil, [], inv_new, rfl, Nat.le_refl 0⟩

/-- A call on a tree with few keys is a call on the map. -/
theorem Stands.exec {k fuel : Nat} {h : RBTree} {f : MetaMap}
    (hs : Stands os k h f) (hos : FreshChunks os) (hk : k < fuel)
    {c : Call} {p : Prog RBTree ι (Option BigAllocMeta)}
    (hp : Cuts p (c.exec os fuel)) (env : Nat → ι) :
    ∃ h', p.exec env h = some ((f.step c).1, h')
      ∧ Stands os (k + 1) h' (f.step c).2 := by
  obtain ⟨t, fl, I, rfl, hlen⟩ := hs
  obtain ⟨h', t', fl', hrun, I', hmap, hlen'⟩ :=
    exec_ok hos I (Nat.lt_of_le_of_lt hlen hk) c
  exact ⟨h', hp env h _ h' hrun, t', fl', I', hmap, by omega⟩

/-- However the functions are cut into steps and the steps of the
threads interleaved, the calls and returns on `BIG_META_MAP` are those
of a map whose operations are one step each; and while the lock is free
the heap is a red-black tree that holds that map. -/
theorem bigMap_linearizable {T : Type} [Fintype T] [DecidableEq T]
    (hos : FreshChunks os) (fuel spins : Nat)
    {cut : Call → Prog RBTree ι (Option BigAllocMeta)}
    (hcut : ∀ c, Cuts (cut c) (c.exec os fuel))
    {tr : List (Event T Call (Option BigAllocMeta))}
    {w : Pool T (Guarded RBTree) ι Call (Option BigAllocMeta)}
    (h : Traces (fun _ c => SpinLock.locked spins (cut c))
      ⟨false, RBTree.new⟩ tr w) (hfuel : tr.length ≤ fuel) :
    ∃ w' : Pool T MetaMap Unit Call (Option BigAllocMeta),
      Traces (fun _ c => Prog.atomic fun _ (f : MetaMap) => f.step c)
        (fun _ => none) tr w'
      ∧ (w.state.state = false → RedBlackHeap w.state.data
        ∧ ∀ key, RbTree.get (fuel + 1) key w.state.data
          = .ok (w'.state key, w.state.data)) := by
  obtain ⟨v, hv, hmatch⟩ :=
    (matches_simulation spins cut RBTree.new).traces h trivial
  have hop : ∀ k, k < fuel → ∀ c s (f : MetaMap) env, Stands os k s f →
      ∃ s', (cut c).exec env s = some ((f.step c).1, s')
        ∧ Stands os (k + 1) s' (f.step c).2 :=
    fun k hk c s f env hs => hs.exec hos hk (hcut c) env
  have habs := abstract_simulation (T := T) stands_new hop
  obtain ⟨w', hw', k, ⟨t, fl, I, hmap, hlen⟩, hk, -⟩ := habs.traces hv hfuel
  refine ⟨w', hw', fun hfree => ?_⟩
  cases hmatch with
  | free state outside =>
      rw [state]
      refine ⟨I.redBlackHeap, fun key => ?_⟩
      rw [← hmap]
      exact get_ok I (by omega)
  | held t c p d state holder before part outside =>
      rw [state] at hfree
      cases hfree

/-- The coarsest cut. -/
def whole (f : M α) : Prog RBTree Unit α :=
  .step (fun _ h => match f h with
    | .ok (_, h') => h'
    | .error _ => h) fun _ h => match f h with
    | .ok (a, _) => .ret a
    | .error _ => .halt

theorem whole_cuts (f : M α) : Cuts (whole f) f := by
  intro env h a h' hf
  show Prog.exec _ (match f h with
    | .ok (a, _) => .ret a
    | .error _ => .halt) (match f h with
    | .ok (_, h') => h'
    | .error _ => h) = _
  rw [hf]
  rfl

/-- One thread has looked up a key and is waiting for the lock with a
second look-up, while another is about to insert that key. -/
theorem bigMap_linearizable_contended :
    ∃ (w : Pool (Fin 2) (Guarded RBTree) Unit Call (Option BigAllocMeta))
      (w' : Pool (Fin 2) MetaMap Unit Call (Option BigAllocMeta)),
      w.state.state = true
      ∧ Traces (fun _ c => Prog.atomic fun _ (f : MetaMap) => f.step c)
        (fun _ => none) [.call 1 (.get 7),
          .call 0 (.insert 7 ⟨0, 4096, 0, 0, false⟩), .ret 1 (.get 7) none,
          .call 1 (.get 7)] w' := by
  have h₀ : Traces (T := Fin 2) (fun _ c => SpinLock.locked 2
      (whole (Call.exec adjacentChunks 4 c))) ⟨false, RBTree.new⟩ [] _ :=
    .init
  have h₁ := h₀.exec 1 (.get 7) (fun _ => ()) rfl rfl
  have h₂ := h₁.call 0 (.insert 7 ⟨0, 4096, 0, 0, false⟩) rfl
  have h₃ := h₂.run 0 () rfl
  have h₄ := h₃.call 1 (.get 7) rfl
  obtain ⟨w, hw, hheld⟩ : ∃ w, Traces _ _ _ w ∧ w.state.state = true :=
    ⟨_, h₄.run 1 () rfl, rfl⟩
  obtain ⟨w', hw', -⟩ := bigMap_linearizable adjacentChunks_fresh 4 2
    (fun c => whole_cuts (Call.exec adjacentChunks 4 c)) hw (by decide)
  exact ⟨w, w', hheld, hw'⟩

end RsMalloc.RbTree
