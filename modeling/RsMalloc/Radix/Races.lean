/-
Threads that run `set_range` on disjoint ranges do not disturb each
other.

# The argument

A chunk's bit is written only by the thread whose range holds the
chunk, so what is known of a chunk is known by the job that covers it.
The tokens that threads hold are

- `reached j k`: the chunks of job `j` below `k` have their new value
  and the others their old one. There is one such token for each job;
- `fresh a`: the node `a` is mapped, zeroed and private;
- `seen p a`: the tree shows `a` at `p`. It may be copied and dropped:
  it says that installed nodes stay;
- `saw c b`: a reader's answer, which no update can make wrong.

A thread that loses the race for an entry unmaps its own `fresh` node
and goes on with the `seen` one of the winner.

# Layout

- the invariant, and what each access does to it;
- one lemma per function;
- the jobs together, and the jobs one after another;
- the tables of Radix/Model.lean: `Radix.setRange` for each job gives
  the chunks that the shared tree ends with.
-/
import Mathlib.Algebra.Order.BigOperators.Group.List
import Mathlib.Algebra.Order.Group.Nat
import RsMalloc.Radix.Paths

namespace RsMalloc.RadixMap

open Conc

variable {J : Type} {l0 : Nat} {job : J → Job} {old : Nat → Bool}
  {m m' : Memory} {p : List Nat} {a b i k c : Nat} {j : J}

-- ========================================================= the invariant

/-- What a thread or a caller may hold. -/
inductive Token (J : Type) where
  | reached (j : J) (k : Nat)
  | fresh (a : Nat)
  | seen (p : List Nat) (a : Nat)
  | saw (c : Nat) (b : Bool)

/-- The private node of a token. -/
def Token.node? : Token J → Option Nat
  | .fresh a => some a
  | _ => none

/-- The job of a token. -/
def Token.job? : Token J → Option J
  | .reached j _ => some j
  | _ => none

/-- What the tokens say of the tree and its chunks. -/
structure Facts (l0 : Nat) (job : J → Job) (old : Nat → Bool)
    (m : Memory) (r : Multiset (Token J)) : Prop where
  seen : ∀ p a, .seen p a ∈ r → a ≠ 0 ∧ nodeAt l0 m p = a
  once : ∀ j, ∃ k r', r = .reached j k ::ₘ r' ∧ ∀ k', .reached j k' ∉ r'
  progress : ∀ j k, .reached j k ∈ r → ∀ c, (job j).Covers c →
    chunkOwned l0 m c = if c < k then (job j).val else old c
  rest : ∀ c, (∀ j, ¬ (job j).Covers c) → chunkOwned l0 m c = old c

/-- The tree, and what is known of its chunks. -/
structure Inv (l0 : Nat) (job : J → Job) (old : Nat → Bool) (m : Memory)
    (r : Multiset (Token J)) : Prop where
  tree : Tree l0 m (r.filterMap Token.node?)
  facts : Facts l0 job old m r

variable {r : Multiset (Token J)} {x : Token J}

@[simp] theorem nodes_fresh :
    (.fresh a ::ₘ r).filterMap Token.node?
      = a ::ₘ r.filterMap Token.node? :=
  Multiset.filterMap_cons_some _ _ _ rfl

@[simp] theorem nodes_other (hnode : x.node? = none) :
    (x ::ₘ r).filterMap Token.node? = r.filterMap Token.node? :=
  Multiset.filterMap_cons_none _ _ hnode

namespace Facts

/-- A token that names no job may come and go. -/
theorem cons_iff (hjob : x.job? = none) :
    Facts l0 job old m (x ::ₘ r) ↔
      Facts l0 job old m r
        ∧ ∀ p a, x = .seen p a → a ≠ 0 ∧ nodeAt l0 m p = a := by
  have hne : ∀ j k, .reached j k ≠ x := by
    rintro j k rfl
    cases hjob
  constructor
  · intro h
    refine ⟨⟨fun p a hmem => h.seen p a (Multiset.mem_cons_of_mem hmem),
      fun j => ?_, fun j k hmem => h.progress j k
        (Multiset.mem_cons_of_mem hmem), h.rest⟩, ?_⟩
    · obtain ⟨k, r', heq, hnone⟩ := h.once j
      have hmem : x ∈ .reached j k ::ₘ r' := heq ▸ Multiset.mem_cons_self x r
      have hx : x ∈ r' :=
        (Multiset.mem_cons.1 hmem).resolve_left (hne j k).symm
      obtain ⟨r'', rfl⟩ := Multiset.exists_cons_of_mem hx
      rw [Multiset.cons_swap, Multiset.cons_inj_right] at heq
      exact ⟨k, r'', heq,
        fun k' hk => hnone k' (Multiset.mem_cons_of_mem hk)⟩
    · rintro p a rfl
      exact h.seen p a (Multiset.mem_cons_self _ _)
  · rintro ⟨h, hx⟩
    refine ⟨fun p a hmem => ?_, fun j => ?_, fun j k hmem => ?_, h.rest⟩
    · cases Multiset.mem_cons.1 hmem with
      | inl heq => exact hx p a heq.symm
      | inr hmem => exact h.seen p a hmem
    · obtain ⟨k, r', rfl, hnone⟩ := h.once j
      refine ⟨k, x ::ₘ r', Multiset.cons_swap _ _ _, fun k' hk => ?_⟩
      cases Multiset.mem_cons.1 hk with
      | inl heq => exact hne j k' heq
      | inr hmem => exact hnone k' hmem
    · refine h.progress j k ?_
      exact (Multiset.mem_cons.1 hmem).resolve_left (hne j k)

/-- An update that keeps installed nodes and the chunks' values. -/
theorem same (h : Facts l0 job old m r)
    (hnode : ∀ p, nodeAt l0 m p ≠ 0 → nodeAt l0 m' p = nodeAt l0 m p)
    (hchunk : ∀ c, chunkOwned l0 m' c = chunkOwned l0 m c) :
    Facts l0 job old m' r where
  seen p a hmem := by
    obtain ⟨hzero, hat⟩ := h.seen p a hmem
    refine ⟨hzero, ?_⟩
    rw [hnode p (by rw [hat]; exact hzero), hat]
  once := h.once
  progress j k hmem c hc := by
    rw [hchunk]
    exact h.progress j k hmem c hc
  rest c hc := by
    rw [hchunk]
    exact h.rest c hc

/-- A job marks its chunks from `k` up to `k'`. -/
theorem advance (h : Facts l0 job old m (.reached j k ::ₘ r)) {k' : Nat}
    (hdisj : ∀ j', j' ≠ j → ∀ c, (job j').Covers c → ¬ (job j).Covers c)
    (hrange : ∀ c, k ≤ c → c < k' → (job j).Covers c) (hle : k ≤ k')
    (hnode : ∀ p, nodeAt l0 m' p = nodeAt l0 m p)
    (hchunk : ∀ c, chunkOwned l0 m' c
      = if k ≤ c ∧ c < k' then (job j).val else chunkOwned l0 m c) :
    Facts l0 job old m' (.reached j k' ::ₘ r) := by
  have hother : ∀ k'', .reached j k'' ∉ r := by
    obtain ⟨k₀, r', heq, hnone⟩ := h.once j
    intro k'' hmem
    rcases Multiset.cons_eq_cons.1 heq with ⟨-, rfl⟩ | ⟨-, cs, rfl, rfl⟩
    · exact hnone k'' hmem
    · exact hnone k (Multiset.mem_cons_self _ _)
  have hkeep : ∀ c, ¬ (job j).Covers c →
      chunkOwned l0 m' c = chunkOwned l0 m c := by
    intro c hc
    rw [hchunk, if_neg (fun hin => hc (hrange c hin.1 hin.2))]
  refine ⟨fun p a hmem => ?_, fun j' => ?_, fun j' l hmem c hc => ?_,
    fun c hc => ?_⟩
  · rw [hnode]
    refine h.seen p a (Multiset.mem_cons_of_mem ?_)
    exact (Multiset.mem_cons.1 hmem).resolve_left (by nofun)
  · by_cases hj : j' = j
    · subst hj
      exact ⟨k', r, rfl, hother⟩
    · obtain ⟨l, r', heq, hnone⟩ := h.once j'
      rcases Multiset.cons_eq_cons.1 heq with ⟨hsame, -⟩ | ⟨-, cs, rfl, rfl⟩
      · cases hsame
        exact absurd rfl hj
      · refine ⟨l, .reached j k' ::ₘ cs, Multiset.cons_swap _ _ _, ?_⟩
        intro l' hl
        cases Multiset.mem_cons.1 hl with
        | inl hsame =>
            cases hsame
            exact hj rfl
        | inr hmem => exact hnone l' (Multiset.mem_cons_of_mem hmem)
  · cases Multiset.mem_cons.1 hmem with
    | inl hsame =>
        cases hsame
        have hold := h.progress j k (Multiset.mem_cons_self _ _) c hc
        rw [hchunk, hold]
        by_cases hlow : c < k
        · rw [if_neg (by omega), if_pos hlow, if_pos (by omega)]
        · by_cases hnew : c < k'
          · rw [if_pos (by omega), if_pos hnew]
          · rw [if_neg (by omega), if_neg hlow, if_neg hnew]
    | inr hin =>
        have hj : j' ≠ j := by
          rintro rfl
          exact hother l hin
        rw [hkeep c (hdisj j' hj c hc)]
        exact h.progress j' l (Multiset.mem_cons_of_mem hin) c hc
  · rw [hkeep c (hc j)]
    exact h.rest c hc

end Facts

-- ============================================================== accesses

namespace Inv

theorem see (h : Inv l0 job old m r) (hzero : a ≠ 0)
    (hat : nodeAt l0 m p = a) : Inv l0 job old m (.seen p a ::ₘ r) where
  tree := by
    rw [nodes_other rfl]
    exact h.tree
  facts := by
    refine (Facts.cons_iff rfl).2 ⟨h.facts, ?_⟩
    rintro _ _ ⟨rfl, rfl⟩
    exact ⟨hzero, hat⟩

/-- A token that says nothing lasting may be dropped. -/
theorem drop (h : Inv l0 job old m (x ::ₘ r)) (hnode : x.node? = none)
    (hjob : x.job? = none) : Inv l0 job old m r where
  tree := by
    have htree := h.tree
    rw [nodes_other hnode] at htree
    exact htree
  facts := ((Facts.cons_iff hjob).1 h.facts).1

theorem map (h : Inv l0 job old m r) (hzero : a ≠ 0)
    (ha : a ∉ m.mapped) : Inv l0 job old (m.map a) (.fresh a ::ₘ r) where
  tree := by
    rw [nodes_fresh]
    exact h.tree.map hzero ha
  facts := by
    refine (Facts.cons_iff rfl).2 ⟨?_, nofun⟩
    exact h.facts.same (fun p _ => h.tree.nodeAt_map ha p)
      (chunkOwned_map h.tree ha)

theorem unmap (h : Inv l0 job old m (.fresh a ::ₘ r)) :
    Inv l0 job old (m.unmap a) r := by
  have htree := h.tree
  rw [nodes_fresh] at htree
  exact ⟨htree.unmap, ((Facts.cons_iff rfl).1 h.facts).1.same
    (fun _ _ => rfl) fun _ => rfl⟩

/-- The winner of the race for an entry. -/
theorem install (h : Inv l0 job old m (.fresh b ::ₘ .seen p a ::ₘ r))
    (hlen : p.length ≤ 2) (hnull : m.table a i = 0) :
    Inv l0 job old (m.store a i b) (.seen (p ++ [i]) b ::ₘ r) := by
  have htree := h.tree
  rw [nodes_fresh, nodes_other rfl] at htree
  have hfacts := ((Facts.cons_iff rfl).1 h.facts).1
  obtain ⟨hfacts, hseen⟩ := (Facts.cons_iff rfl).1 hfacts
  obtain ⟨hzero, hat⟩ := hseen p a rfl
  have hnode := htree.nodeAt_store hat hzero hnull
  have hb := htree.fresh b (Multiset.mem_cons_self _ _)
  refine see ⟨htree.store hat hzero hlen hnull, ?_⟩ hb.1 ?_
  · refine hfacts.same (fun q hq => ?_)
      (chunkOwned_store htree hat hzero hnull)
    rw [hnode q, if_neg]
    rintro rfl
    rw [nodeAt_snoc, hat, if_neg hzero] at hq
    exact hq hnull
  · rw [hnode, if_pos rfl]

/-- What a thread knows of a node it has seen. -/
theorem seen_spec (h : Inv l0 job old m (.seen p a ::ₘ r)) :
    a ≠ 0 ∧ nodeAt l0 m p = a :=
  h.facts.seen p a (Multiset.mem_cons_self _ _)

/-- The entry of a node that was seen. -/
theorem child (h : Inv l0 job old m (.seen p a ::ₘ r)) (i : Nat) :
    nodeAt l0 m (p ++ [i]) = m.table a i := by
  obtain ⟨hzero, hat⟩ := h.seen_spec
  rw [nodeAt_snoc, hat, if_neg hzero]

end Inv

-- ============================================================ installing

/-- The race for a null entry: this thread's node is installed, or the
thread sees who was first. -/
theorem exchangeNull_safe (hlen : p.length ≤ 2) :
    Safe (Inv l0 job old) (exchangeNull a i b)
      (fun result r => match result with
        | .ok _ => r = {.seen (p ++ [i]) b}
        | .error c => r = .fresh b ::ₘ {.seen (p ++ [i]) c})
      (.fresh b ::ₘ {.seen p a}) := by
  apply Safe.atomic
  intro _ m f h
  rw [Multiset.cons_add, Multiset.singleton_add] at h
  by_cases hnull : m.table a i = 0
  · simp only [if_pos hnull]
    refine ⟨{.seen (p ++ [i]) b}, ?_, rfl⟩
    rw [Multiset.singleton_add]
    exact h.install hlen hnull
  · simp only [if_neg hnull]
    refine ⟨.fresh b ::ₘ {.seen (p ++ [i]) (m.table a i)}, ?_, rfl⟩
    rw [Multiset.cons_add, Multiset.singleton_add, Multiset.cons_swap]
    rw [Multiset.cons_swap] at h
    exact (h.drop rfl rfl).see hnull (h.child i)

/-- `get_or_alloc`: the node at the entry, this thread's or
another's. -/
theorem getOrInstall_safe (hlen : p.length ≤ 2) :
    Safe (Inv l0 job old) (getOrInstall a i)
      (fun b r => r = {.seen (p ++ [i]) b}) {.seen p a} := by
  apply Safe.bind
  refine Safe.atomic fun _ m f h => ?_
  rw [Multiset.singleton_add] at h
  by_cases hval : m.table a i ≠ 0
  · refine ⟨{.seen (p ++ [i]) (m.table a i)}, ?_, ?_⟩
    · rw [Multiset.singleton_add]
      exact (h.drop rfl rfl).see hval (h.child i)
    · rw [if_pos hval]
      exact Safe.ret rfl
  · refine ⟨{.seen p a}, by rw [Multiset.singleton_add]; exact h, ?_⟩
    rw [if_neg hval]
    apply Safe.bind
    refine Safe.atomic fun kernel m f h => ?_
    rw [Multiset.singleton_add] at h
    have hnew := h.map (kernel.nonnull m.mapped) (kernel.unused m.mapped)
    refine ⟨.fresh (kernel.mmap m.mapped) ::ₘ {.seen p a}, ?_, ?_⟩
    · rw [Multiset.cons_add, Multiset.singleton_add]
      exact hnew
    generalize kernel.mmap m.mapped = new
    apply Safe.bind
    refine (exchangeNull_safe hlen).mono fun result r hr => ?_
    cases result with
    | ok _ => exact Safe.ret hr
    | error existing =>
        dsimp only at hr
        subst hr
        apply Safe.bind
        apply Safe.modify
        intro m f h
        rw [Multiset.cons_add] at h
        exact ⟨{.seen (p ++ [i]) existing}, h.unmap, Safe.ret rfl⟩

/-- The descent ends at the leaf of the chunk. -/
theorem descend_safe (hzero : l0 ≠ 0) :
    Safe (Inv l0 job old) (descend l0 c)
      (fun l3 r => r = {.seen (pathOf c) l3}) 0 := by
  have hroot : Safe (Inv l0 job old) (descend l0 c)
      (fun l3 r => r = {.seen (pathOf c) l3}) {.seen [] l0} := by
    apply Safe.bind
    refine (getOrInstall_safe (by simp)).mono fun l1 r hr => ?_
    subst hr
    apply Safe.bind
    refine (getOrInstall_safe (by simp)).mono fun l2 r hr => ?_
    subst hr
    exact getOrInstall_safe (by simp)
  refine Safe.acquire (fun m f h => ?_) hroot
  rw [zero_add] at h
  exact h.see hzero rfl

-- =============================================================== marking

/-- The chunk up to which a pass from `c` has come when the words before
`w` of its leaf are done. -/
def markedTo (c leafEnd w : Nat) : Nat :=
  c - c % 4096 + min (leafEnd + 1) (max (c % 4096) (64 * w))

/-- The chunks of one word. -/
theorem markedTo_succ {d leafEnd w : Nat} (hlt : leafEnd < 4096)
    (hfirst : c % 4096 / 64 ≤ w) (hlast : w ≤ leafEnd / 64) :
    (d / 4096 = c / 4096 ∧ d % 4096 / 64 = w ∧ c % 4096 ≤ d % 4096
        ∧ d % 4096 ≤ leafEnd)
      ↔ markedTo c leafEnd w ≤ d ∧ d < markedTo c leafEnd (w + 1) := by
  unfold markedTo
  omega

/-- The ranges of the jobs. -/
def Apart (job : J → Job) : Prop :=
  ∀ j j', j' ≠ j → ∀ c, (job j').Covers c → ¬ (job j).Covers c

/-- One read-modify-write moves the job on. -/
theorem Inv.mark (hjobs : Apart job) {l3 leafEnd w : Nat}
    (h : Inv l0 job old m
      (.seen (pathOf c) l3 ::ₘ .reached j (markedTo c leafEnd w) ::ₘ r))
    (hlt : leafEnd < 4096) (hle : c % 4096 ≤ leafEnd)
    (hfirst : c % 4096 / 64 ≤ w) (hlast : w ≤ leafEnd / 64)
    (hcov : ∀ d, c ≤ d → d ≤ c - c % 4096 + leafEnd → (job j).Covers d) :
    Inv l0 job old
      (m.setWord l3 w (applyMask (job j).val
        (wordMask (c % 4096) leafEnd w) (m.leaf l3 w)))
      (.seen (pathOf c) l3 ::ₘ .reached j (markedTo c leafEnd (w + 1))
        ::ₘ r) := by
  obtain ⟨hzero, hat⟩ := h.seen_spec
  have hdrop := h.drop rfl rfl
  have htree := hdrop.tree
  have hrange : ∀ d, markedTo c leafEnd w ≤ d →
      d < markedTo c leafEnd (w + 1) → (job j).Covers d := by
    intro d hlo hhi
    unfold markedTo at hlo hhi
    exact hcov d (by omega) (by omega)
  have hmax : ∀ d, (job j).Covers d → d < radixMaxChunks :=
    fun d hd => Nat.lt_of_le_of_lt hd.2 (job j).lt
  have hc : c < radixMaxChunks :=
    hmax c (hcov c (Nat.le_refl c) (by omega))
  refine Inv.see ⟨?_, hdrop.facts.advance (hjobs j) hrange ?_
    (fun _ => rfl) fun d => ?_⟩ hzero hat
  · rw [nodes_other rfl] at htree ⊢
    exact htree.setWord hat w _
  · unfold markedTo
    omega
  · by_cases hd : d < radixMaxChunks
    · rw [chunkOwned_mark htree hc hd hat hzero hfirst hlast]
      simp only [markedTo_succ hlt hfirst hlast]
    · rw [if_neg fun hin => hd (hmax d (hrange d hin.1 hin.2))]
      unfold chunkOwned
      rw [if_pos (by omega), if_pos (by omega)]

/-- The word loop marks the chunks of the pass and lets go of the
leaf. -/
theorem markWords_safe (hjobs : Apart job) {l3 leafEnd : Nat}
    (hlt : leafEnd < 4096) (hle : c % 4096 ≤ leafEnd)
    (hcov : ∀ d, c ≤ d → d ≤ c - c % 4096 + leafEnd → (job j).Covers d) :
    ∀ n w, c % 4096 / 64 ≤ w → w + n = leafEnd / 64 →
      Safe (Inv l0 job old)
        (markWords l3 (job j).val (c % 4096) leafEnd (n + 1) w)
        (fun _ r => r = {.reached j (markedTo c leafEnd (leafEnd / 64 + 1))})
        (.seen (pathOf c) l3 ::ₘ {.reached j (markedTo c leafEnd w)}) := by
  intro n
  induction n with
  | zero =>
      intro w hfirst hw
      apply Safe.bind
      apply Safe.modify
      intro m f h
      rw [Multiset.cons_add, Multiset.singleton_add] at h
      refine ⟨{.reached j (markedTo c leafEnd (leafEnd / 64 + 1))}, ?_,
        Safe.ret rfl⟩
      rw [Multiset.singleton_add, ← hw]
      exact (h.mark hjobs hlt hle hfirst (by omega) hcov).drop rfl rfl
  | succ n ih =>
      intro w hfirst hw
      apply Safe.bind
      apply Safe.modify
      intro m f h
      rw [Multiset.cons_add, Multiset.singleton_add] at h
      refine ⟨.seen (pathOf c) l3 ::ₘ
        {.reached j (markedTo c leafEnd (w + 1))}, ?_,
        ih (w + 1) (by omega) (by omega)⟩
      rw [Multiset.cons_add, Multiset.singleton_add]
      exact h.mark hjobs hlt hle hfirst (by omega) hcov

/-- One pass of `set_range`: `n` chunks from `c`, all in one leaf. -/
theorem markPass_safe (hjobs : Apart job) (hzero : l0 ≠ 0) {n : Nat}
    (hpos : 0 < n) (hleaf : c % 4096 + n ≤ 4096)
    (hcov : ∀ d, c ≤ d → d < c + n → (job j).Covers d) :
    Safe (Inv l0 job old) (markPass l0 (job j).val c n)
      (fun _ r => r = {.reached j (c + n)}) {.reached j c} := by
  have hdescend : Safe (Inv l0 job old) (descend l0 c)
      (fun l3 r => r = {.seen (pathOf c) l3}) 0 := descend_safe hzero
  rw [← zero_add {Token.reached j c}]
  refine hdescend.seq fun l3 r hr => ?_
  subst hr
  obtain ⟨leafEnd, hend⟩ : ∃ e, e = c % 4096 + n - 1 := ⟨_, rfl⟩
  have hmark : Safe (Inv l0 job old)
      (markWords l3 (job j).val (c % 4096) leafEnd
        (leafEnd / 64 - c % 4096 / 64 + 1) (c % 4096 / 64))
      (fun _ r => r = {.reached j (markedTo c leafEnd (leafEnd / 64 + 1))})
      (.seen (pathOf c) l3 ::ₘ
        {.reached j (markedTo c leafEnd (c % 4096 / 64))}) :=
    markWords_safe hjobs (by omega) (by omega)
      (fun d hlo hhi => hcov d hlo (by omega)) _ _ (Nat.le_refl _)
      (by omega)
  have hfrom : markedTo c leafEnd (c % 4096 / 64) = c := by
    unfold markedTo
    omega
  have hto : markedTo c leafEnd (leafEnd / 64 + 1) = c + n := by
    unfold markedTo
    omega
  have hcount : leafEnd / 64 + 1 - c % 4096 / 64
      = leafEnd / 64 - c % 4096 / 64 + 1 := by omega
  rw [hfrom, hto, ← hcount, hend] at hmark
  rw [Multiset.singleton_add]
  exact hmark

/-- The loop of `set_range` brings the job to its end. -/
theorem setRangeFrom_safe (hjobs : Apart job) (hzero : l0 ≠ 0) (j : J) :
    ∀ fuel c, (job j).startIdx ≤ c → c ≤ (job j).endIdx →
      (job j).endIdx - c < fuel →
      Safe (Inv l0 job old)
        (setRangeFrom l0 (job j).val (job j).endIdx fuel c)
        (fun _ r => r = {.reached j ((job j).endIdx + 1)})
        {.reached j c} := by
  intro fuel
  induction fuel with
  | zero =>
      intro c _ _ hfuel
      omega
  | succ fuel ih =>
      intro c hlo hhi hfuel
      have hmod : c % 4096 < 4096 := Nat.mod_lt _ (by decide)
      -- `n` is `chunks_in_leaf`, the run this pass covers
      obtain ⟨n, hn⟩ : ∃ n, n = min (4096 - c % 4096)
        ((job j).endIdx - c + 1) := ⟨_, rfl⟩
      have hpass : Safe (Inv l0 job old) (markPass l0 (job j).val c n)
          (fun _ r => r = {.reached j (c + n)}) {.reached j c} :=
        markPass_safe hjobs hzero (by omega) (by omega)
          fun d hd hd' => ⟨by omega, by omega⟩
      unfold setRangeFrom
      have hi3 : l3Size - (split c).2.2.2 = 4096 - c % 4096 := rfl
      simp only [hi3, ← hn]
      apply Safe.bind
      refine hpass.mono fun _ r hr => ?_
      subst hr
      by_cases hlast : n = (job j).endIdx - c + 1
      · rw [if_pos hlast]
        refine Safe.ret ?_
        rw [show c + n = (job j).endIdx + 1 by omega]
      · rw [if_neg hlast]
        exact ih (c + n) (by omega) (by omega) (by omega)

/-- `set_range` does its whole job. -/
theorem run_safe (hjobs : Apart job) (hzero : l0 ≠ 0) (j : J) :
    Safe (Inv l0 job old) ((job j).run l0)
      (fun _ r => r = {.reached j ((job j).endIdx + 1)})
      {.reached j (job j).startIdx} :=
  setRangeFrom_safe hjobs hzero j _ _ (Nat.le_refl _) (job j).le (by omega)

-- =============================================================== reading

/-- The old value of a chunk, or the one its job gives it. -/
def OldOrNew (job : J → Job) (old : Nat → Bool) (c : Nat) (b : Bool) :
    Prop :=
  b = old c ∨ ∃ j, (job j).Covers c ∧ b = (job j).val

/-- At any time a chunk has its old or its new value. -/
theorem Facts.oldOrNew (h : Facts l0 job old m r) (c : Nat) :
    OldOrNew job old c (chunkOwned l0 m c) := by
  by_cases hcov : ∃ j, (job j).Covers c
  · obtain ⟨j, hj⟩ := hcov
    obtain ⟨k, r', rfl, -⟩ := h.once j
    rw [h.progress j k (Multiset.mem_cons_self _ _) c hj]
    by_cases hk : c < k
    · rw [if_pos hk]
      exact Or.inr ⟨j, hj, rfl⟩
    · rw [if_neg hk]
      exact Or.inl rfl
  · rw [h.rest c fun j hj => hcov ⟨j, hj⟩]
    exact Or.inl rfl

/-- A reader's answer is recorded. -/
theorem Inv.record (h : Inv l0 job old m r) (c : Nat) (b : Bool) :
    Inv l0 job old m (.saw c b ::ₘ r) where
  tree := by
    rw [nodes_other rfl]
    exact h.tree
  facts := (Facts.cons_iff rfl).2 ⟨h.facts, nofun⟩

/-- What a reader of chunk `c` ends with. -/
def Saw (job : J → Job) (old : Nat → Bool) (c : Nat) (b : Bool)
    (r : Multiset (Token J)) : Prop :=
  r = {.saw c b} ∧ OldOrNew job old c b

/-- The reader ends with the value the chunk has at its last load. -/
theorem Inv.answer (h : Inv l0 job old m r) {b : Bool}
    (hb : chunkOwned l0 m c = b) :
    Inv l0 job old m (.saw c b ::ₘ r) ∧ Saw job old c b {.saw c b} := by
  refine ⟨h.record c b, rfl, ?_⟩
  rw [← hb]
  exact h.facts.oldOrNew c

/-- One level of `Radix::get`: a null entry means that the chunk is not
owned at this moment. -/
theorem readChild_safe {q : List Nat} {next : Nat → RadixM Bool}
    (hc : pathOf c = p ++ [i] ++ q)
    (hnext : ∀ b, Safe (Inv l0 job old) (next b) (Saw job old c)
      {.seen (p ++ [i]) b}) :
    Safe (Inv l0 job old)
      (do
        let b ← Prog.read fun m => m.table a i
        if b = 0 then return false else next b)
      (Saw job old c) {.seen p a} := by
  apply Safe.bind
  refine Safe.atomic fun _ m f h => ?_
  rw [Multiset.singleton_add] at h
  have hdrop := h.drop rfl rfl
  by_cases hnull : m.table a i = 0
  · have hfalse : chunkOwned l0 m c = false := by
      have hnode : nodeAt l0 m (pathOf c) = 0 := by
        rw [hc]
        exact nodeAt_append_null ((h.child i).trans hnull) q
      unfold chunkOwned
      rw [hnode, if_pos rfl, ite_self]
    obtain ⟨hsaw, hpost⟩ := hdrop.answer hfalse
    refine ⟨{.saw c false}, ?_, ?_⟩
    · rw [Multiset.singleton_add]
      exact hsaw
    · rw [if_pos hnull]
      exact Safe.ret hpost
  · refine ⟨{.seen (p ++ [i]) (m.table a i)}, ?_, ?_⟩
    · rw [Multiset.singleton_add]
      exact hdrop.see hnull (h.child i)
    · rw [if_neg hnull]
      exact hnext _

/-- `Radix::get` answers with the old or the new value. -/
theorem getChunk_safe (hzero : l0 ≠ 0) (hc : c < radixMaxChunks) :
    Safe (Inv l0 job old) (getChunk l0 c) (Saw job old c) 0 := by
  have hmax : ¬ radixMaxChunks ≤ c := by omega
  have hroot : Safe (Inv l0 job old) (getChunk l0 c) (Saw job old c)
      {.seen [] l0} := by
    unfold getChunk
    rw [if_neg hmax]
    refine readChild_safe (q := [(split c).2.1, (split c).2.2.1]) rfl
      fun l1 => ?_
    refine readChild_safe (q := [(split c).2.2.1]) rfl fun l2 => ?_
    refine readChild_safe (q := []) rfl fun l3 => ?_
    apply Safe.bind
    refine Safe.atomic fun _ m f h => ?_
    rw [Multiset.singleton_add] at h
    obtain ⟨hl3, hat⟩ := h.seen_spec
    have hpath : nodeAt l0 m (pathOf c) = l3 := hat
    have hbit : c % 4096 % 64 < 64 := Nat.mod_lt _ (by decide)
    have hb : chunkOwned l0 m c = ((m.leaf l3
        ((split c).2.2.2 / l3WordBits)
        &&& 1#64 <<< ((split c).2.2.2 % l3WordBits)) != 0) := by
      unfold chunkOwned
      rw [if_neg hmax, hpath, if_neg hl3]
      exact (BitWord.and_bitMask_ne_zero hbit).symm
    obtain ⟨hsaw, hpost⟩ := (h.drop rfl rfl).answer hb
    exact ⟨_, hsaw, Safe.ret hpost⟩
  unfold getChunk at hroot ⊢
  rw [if_neg hmax] at hroot ⊢
  refine Safe.acquire (fun m f h => ?_) hroot
  rw [zero_add] at h
  exact h.see hzero rfl

-- ============================================================= endings

theorem getOrInstall_total (a i : Nat) : (getOrInstall a i).Total := by
  refine Prog.Total.bind (Prog.Total.atomic _) fun val => ?_
  split
  · trivial
  · refine Prog.Total.bind (Prog.Total.atomic _) fun new => ?_
    refine Prog.Total.bind (Prog.Total.atomic _) fun result => ?_
    cases result with
    | ok _ => trivial
    | error _ =>
        exact Prog.Total.bind (Prog.Total.atomic _) fun _ => trivial

theorem markWords_total (l3 : Nat) (val : Bool) (i3 leafEnd n w : Nat) :
    (markWords l3 val i3 leafEnd n w).Total := by
  induction n generalizing w with
  | zero => trivial
  | succ n ih =>
      exact Prog.Total.bind (Prog.Total.atomic _) fun _ => ih (w + 1)

theorem markPass_total (l0 : Nat) (val : Bool) (c n : Nat) :
    (markPass l0 val c n).Total := by
  refine Prog.Total.bind ?_ fun l3 => markWords_total ..
  refine Prog.Total.bind (getOrInstall_total _ _) fun l1 => ?_
  refine Prog.Total.bind (getOrInstall_total _ _) fun l2 => ?_
  exact getOrInstall_total _ _

/-- Each pass covers a chunk, so the fuel lasts. -/
theorem setRangeFrom_total (val : Bool) {endIdx : Nat} :
    ∀ fuel c, c ≤ endIdx → endIdx - c < fuel →
      (setRangeFrom l0 val endIdx fuel c).Total := by
  intro fuel
  induction fuel with
  | zero =>
      intro c _ hfuel
      omega
  | succ fuel ih =>
      intro c hle hfuel
      have hi3 : (split c).2.2.2 < l3Size := Nat.mod_lt _ (by decide)
      refine Prog.Total.bind (markPass_total _ _ _ _) fun _ => ?_
      split
      · trivial
      · exact ih _ (by omega) (by omega)

theorem run_total (l0 : Nat) (j : Job) : (j.run l0).Total :=
  setRangeFrom_total _ _ _ j.le (by omega)

theorem getChunk_total (l0 c : Nat) : (getChunk l0 c).Total := by
  unfold getChunk
  split
  · trivial
  · refine Prog.Total.bind (Prog.Total.atomic _) fun l1 => ?_
    split
    · trivial
    · refine Prog.Total.bind (Prog.Total.atomic _) fun l2 => ?_
      split
      · trivial
      · refine Prog.Total.bind (Prog.Total.atomic _) fun l3 => ?_
        split
        · trivial
        · exact Prog.Total.bind (Prog.Total.atomic _) fun _ => trivial

theorem runJobs_total (l0 : Nat) (job : J → Job) (js : List J) :
    (runJobs l0 job js).Total := by
  induction js with
  | nil => trivial
  | cons j js ih => exact Prog.Total.bind (run_total l0 _) fun _ => ih

/-- `Radix::get` in a memory at rest. -/
theorem getChunk_exec (hzero : l0 ≠ 0) (c : Nat) (env : Nat → Kernel)
    (m : Memory) :
    (getChunk l0 c).exec env m = some (chunkOwned l0 m c, m) := by
  have hbit : c % 4096 % 64 < 64 := Nat.mod_lt _ (by decide)
  unfold getChunk chunkOwned
  by_cases hmax : radixMaxChunks ≤ c
  · rw [if_pos hmax, if_pos hmax]
    rfl
  · rw [if_neg hmax, if_neg hmax]
    have hpath : pathOf c = [] ++ [(split c).1] ++ [(split c).2.1]
        ++ [(split c).2.2.1] := rfl
    rw [hpath, nodeAt_snoc, nodeAt_snoc, nodeAt_snoc, nodeAt_nil,
      if_neg hzero]
    by_cases h1 : m.table l0 (split c).1 = 0
    · simp [Prog.exec, Prog.bind, Prog.read, Prog.atomic, h1]
    · by_cases h2 : m.table (m.table l0 (split c).1) (split c).2.1 = 0
      · simp [Prog.exec, Prog.bind, Prog.read, Prog.atomic, h1, h2]
      · by_cases h3 : m.table (m.table (m.table l0 (split c).1)
            (split c).2.1) (split c).2.2.1 = 0
        · simp [Prog.exec, Prog.bind, Prog.read, Prog.atomic, h1, h2, h3]
        · simp only [Prog.exec, Prog.bind, Prog.read, Prog.atomic, h1, h2,
            h3, if_false, Prog.bind_eq, Prog.pure_eq, Option.some.injEq,
            Prod.mk.injEq, and_true]
          exact BitWord.and_bitMask_ne_zero hbit

-- ======================================================= jobs in sequence

/-- The token of a job nobody has started. -/
def atStart (job : J → Job) (j : J) : Token J :=
  .reached j (job j).startIdx

/-- The token of a finished job. -/
def atEnd (job : J → Job) (j : J) : Token J :=
  .reached j ((job j).endIdx + 1)

theorem runJobs_safe (hjobs : Apart job) (hzero : l0 ≠ 0) (js : List J) :
    Safe (Inv l0 job old) (runJobs l0 job js)
      (fun _ r => r = (js : Multiset J).map (atEnd job))
      ((js : Multiset J).map (atStart job)) := by
  induction js with
  | nil => exact Safe.ret rfl
  | cons j js ih =>
      rw [← Multiset.cons_coe, Multiset.map_cons, Multiset.map_cons,
        ← Multiset.singleton_add (atStart job j)]
      refine (run_safe hjobs hzero j).seq fun _ r hr => ?_
      subst hr
      rw [add_comm]
      refine (ih.frame _).mono fun _ r hr => ?_
      obtain ⟨r₁, rfl, rfl⟩ := hr
      rw [add_comm, Multiset.singleton_add]
      rfl

/-- Before the first job every chunk has its old value. -/
theorem Inv.start (htree : Tree l0 m 0) {js : Multiset J} (hnodup : js.Nodup)
    (hall : ∀ j, j ∈ js) :
    Inv l0 job (chunkOwned l0 m) m (js.map (atStart job)) where
  tree := by
    have hnone : (js.map (atStart job)).filterMap Token.node? = 0 := by
      apply Multiset.eq_zero_of_forall_notMem
      intro a hmem
      obtain ⟨x, hx, hnode⟩ := (Multiset.mem_filterMap ..).1 hmem
      obtain ⟨j, -, rfl⟩ := Multiset.mem_map.1 hx
      cases hnode
    rw [hnone]
    exact htree
  facts := by
    refine ⟨fun p a hmem => ?_, fun j => ?_, fun j k hmem c hc => ?_,
      fun _ _ => rfl⟩
    · obtain ⟨j, -, heq⟩ := Multiset.mem_map.1 hmem
      cases heq
    · obtain ⟨js', rfl⟩ := Multiset.exists_cons_of_mem (hall j)
      refine ⟨(job j).startIdx, js'.map (atStart job),
        Multiset.map_cons _ _ _, fun k' hmem => ?_⟩
      obtain ⟨j', hj', heq⟩ := Multiset.mem_map.1 hmem
      cases heq
      exact (Multiset.nodup_cons.1 hnodup).1 hj'
    · obtain ⟨j', -, heq⟩ := Multiset.mem_map.1 hmem
      cases heq
      rw [if_neg (by have := hc.1; omega)]

/-- What the chunks are once every job is finished. -/
theorem Facts.finished (h : Facts l0 job old m r)
    (hend : ∀ j k, .reached j k ∈ r → k = (job j).endIdx + 1) (c : Nat) :
    (∀ j, (job j).Covers c → chunkOwned l0 m c = (job j).val)
      ∧ ((∀ j, ¬ (job j).Covers c) → chunkOwned l0 m c = old c) := by
  refine ⟨fun j hj => ?_, h.rest c⟩
  obtain ⟨k, r', rfl, -⟩ := h.once j
  have hk := hend j k (Multiset.mem_cons_self _ _)
  rw [h.progress j k (Multiset.mem_cons_self _ _) c hj, if_pos]
  have := hj.2
  omega

/-- The chunks after running the jobs alone, in any order. -/
theorem finished_of_exec (hjobs : Apart job) (htree : Tree l0 m 0)
    {order : List J} (hnodup : order.Nodup) (hall : ∀ j, j ∈ order)
    {env : Nat → Kernel}
    (hrun : (runJobs l0 job order).exec env m = some ((), m'))
    (c : Nat) :
    (∀ j, (job j).Covers c → chunkOwned l0 m' c = (job j).val)
      ∧ ((∀ j, ¬ (job j).Covers c) →
        chunkOwned l0 m' c = chunkOwned l0 m c) := by
  have hstart : Inv l0 job (chunkOwned l0 m) m
      ((order : Multiset J).map (atStart job) + 0) := by
    rw [add_zero]
    exact Inv.start htree (Multiset.coe_nodup.2 hnodup)
      fun j => Multiset.mem_coe.2 (hall j)
  obtain ⟨r, hinv, rfl⟩ :=
    (runJobs_safe hjobs htree.root order).exec hstart hrun
  rw [add_zero] at hinv
  refine hinv.facts.finished (fun j k hmem => ?_) c
  obtain ⟨j', -, heq⟩ := Multiset.mem_map.1 hmem
  cases heq
  rfl

-- ======================================================= jobs in threads

/-- What a token means to a caller. -/
def noticeOf (job : J → Job) : Token J → Notice J
  | .reached j k => if k = (job j).startIdx then .todo j else .done j
  | .saw c b => .saw c b
  | .fresh _ | .seen _ _ => .saw 0 false

/-- The tokens callers hold: jobs at their ends, and answers. -/
def Outside (job : J → Job) (old : Nat → Bool) : Token J → Prop
  | .reached j k => k = (job j).startIdx ∨ k = (job j).endIdx + 1
  | .saw c b => OldOrNew job old c b
  | .fresh _ | .seen _ _ => False

theorem notice_atStart (j : J) : noticeOf job (atStart job j) = .todo j :=
  if_pos rfl

theorem notice_atEnd (j : J) : noticeOf job (atEnd job j) = .done j := by
  have hle := (job j).le
  exact if_neg (by omega)

/-- Only a job at its start is still to do. -/
theorem eq_atStart {x : Token J} (hkey : noticeOf job x = .todo j)
    (hout : Outside job old x) : x = atStart job j := by
  cases x with
  | reached j' k =>
      by_cases hk : k = (job j').startIdx
      · rw [noticeOf, if_pos hk] at hkey
        cases hkey
        rw [hk]
        rfl
      · rw [noticeOf, if_neg hk] at hkey
        cases hkey
  | saw c b => cases hkey
  | fresh a => exact hout.elim
  | seen p a => exact hout.elim

/-- Callers hold no private nodes. -/
theorem Outside.nodes {L : Multiset (Token J)}
    (h : ∀ x ∈ L, Outside job old x) : L.filterMap Token.node? = 0 := by
  apply Multiset.eq_zero_of_forall_notMem
  intro a hmem
  obtain ⟨x, hx, hnode⟩ := (Multiset.mem_filterMap ..).1 hmem
  have hout := h x hx
  cases x with
  | fresh a => exact hout
  | reached j k => cases hnode
  | seen p a => cases hnode
  | saw c b => cases hnode

/-- Every call is safe on what it takes. -/
theorem radixCall_safe {T : Type} (hjobs : Apart job) (hzero : l0 ≠ 0)
    (t : T) (c : RadixCall J)
    (hr : StandsFor (noticeOf job) (Outside job old)
      ((radixApi T l0 job).takes c) r) :
    Safe (Inv l0 job old) ((radixApi T l0 job).prog t c)
      (fun b r' => StandsFor (noticeOf job) (Outside job old)
        ((radixApi T l0 job).gives c b) r') r := by
  obtain ⟨hkeys, hout⟩ := hr
  cases c with
  | write j =>
      obtain ⟨x, rfl, hkey⟩ := Multiset.map_eq_singleton.1 hkeys
      rw [eq_atStart hkey (hout x (Multiset.mem_singleton_self x))]
      apply Safe.bind
      refine (run_safe hjobs hzero j).mono fun _ r hr => ?_
      subst hr
      refine Safe.ret ⟨?_, ?_⟩
      · rw [Multiset.map_singleton]
        exact congrArg _ (notice_atEnd j)
      · intro x hx
        rw [Multiset.mem_singleton.1 hx]
        exact Or.inr rfl
  | read c hc =>
      rw [Multiset.map_eq_zero.1 hkeys]
      refine (getChunk_safe hzero hc).mono fun b r hr => ?_
      obtain ⟨rfl, hold⟩ := hr
      refine ⟨rfl, fun x hx => ?_⟩
      rw [Multiset.mem_singleton.1 hx]
      exact hold
-- ================================================================ tables

/-- The shared nodes show the chunks that the tables own. -/
def Shows (l0 : Nat) (m : Memory) (t : Radix) : Prop :=
  ∀ c, t.get c = some (chunkOwned l0 m c)

/-- Both answer `false` above the supported chunks. -/
theorem shows_iff {t : Radix} :
    Shows l0 m t ↔ ∀ c, c < radixMaxChunks → owns t c = chunkOwned l0 m c := by
  refine ⟨fun h c hc => ?_, fun h c => ?_⟩
  · exact Option.some.inj ((get_eq_owns hc).symm.trans (h c))
  · by_cases hc : radixMaxChunks ≤ c
    · rw [Radix.get, if_pos hc, chunkOwned, if_pos hc]
    · rw [get_eq_owns (by omega), h c (by omega)]

/-- `Radix.setRange` for one job after another. -/
def setRanges (job : J → Job) (order : List J) (t : Radix) :
    Option Radix :=
  order.foldlM
    (fun t j => t.setRange (job j).startIdx (job j).endIdx (job j).val) t

/-- The jobs do not meet, so each leaves its value on its chunks,
whatever comes after it. -/
theorem setRanges_spec (hjobs : Apart job) {order : List J}
    (hnodup : order.Nodup) (t : Radix) :
    ∃ t', setRanges job order t = some t' ∧ ∀ d, d < radixMaxChunks →
      (∀ j ∈ order, (job j).Covers d → owns t' d = (job j).val)
      ∧ ((∀ j ∈ order, ¬ (job j).Covers d) → owns t' d = owns t d) := by
  induction order generalizing t with
  | nil => exact ⟨t, rfl, fun d _ => ⟨nofun, fun _ => rfl⟩⟩
  | cons j js ih =>
      obtain ⟨hnew, hnodup⟩ := List.nodup_cons.1 hnodup
      obtain ⟨t₁, hset, howns₁⟩ :=
        setRange_spec t (job j).val (job j).le (job j).lt
      obtain ⟨t', hrest, howns⟩ := ih hnodup t₁
      refine ⟨t', ?_, fun d hd => ⟨fun j' hj' hcov => ?_, fun hnone => ?_⟩⟩
      · rw [setRanges, List.foldlM_cons, hset]
        exact hrest
      · cases hj' with
        | head =>
            -- no later job covers the chunk
            rw [(howns d hd).2 fun i hi hcov' =>
                hjobs i j (fun heq => hnew (heq ▸ hi)) d hcov hcov',
              howns₁ d hd]
            exact if_pos hcov
        | tail _ hj' => exact (howns d hd).1 j' hj' hcov
      · rw [(howns d hd).2 fun i hi => hnone i (.tail j hi), howns₁ d hd]
        exact if_neg (hnone j (.head js))

theorem Shows.new (l0 : Nat) : Shows l0 (Memory.new l0) Radix.new := by
  refine shows_iff.2 fun c _ => ?_
  simp [chunkOwned, owns, leafAt, Radix.new, leafBit, Memory.new]

section Pool

variable {T : Type} [Fintype T] [DecidableEq T] [Fintype J] [DecidableEq J]
  {m₀ : Memory} {w : World T Memory Kernel (RadixCall J) Bool (Notice J)}

section Reached

variable (hjobs : Apart job) (htree : Tree l0 m₀ 0)
  (hr : Reach (radixApi T l0 job) (radixStart T J m₀) w)
include hjobs htree hr

/-- Who holds which token in a reachable world. -/
theorem radix_owned :
    ∃ L held, Owned (radixApi T l0 job) (Inv l0 job (chunkOwned l0 m₀))
      (noticeOf job) (Outside job (chunkOwned l0 m₀)) w L held := by
  refine Owned.reach ⟨Finset.univ.val.map (atStart job), fun _ => 0,
    ⟨?_, fun x hx => ?_⟩, fun _ _ => rfl, ?_, fun t c p busy => ?_⟩
    (fun t c r _ _ hr _ => radixCall_safe hjobs htree.root t c hr) hr
  · rw [Multiset.map_map]
    exact Multiset.map_congr rfl fun j _ => notice_atStart j
  · obtain ⟨j, -, rfl⟩ := Multiset.mem_map.1 hx
    exact Or.inl rfl
  · rw [Finset.sum_const_zero, add_zero]
    exact Inv.start htree Finset.univ.nodup fun j => Finset.mem_univ j
  · cases busy

/-- Between calls the tokens are all with the callers. -/
theorem quiet_inv (hquiet : ∀ t, w.thread t = none) :
    ∃ L, StandsFor (noticeOf job) (Outside job (chunkOwned l0 m₀)) w.live L
      ∧ Inv l0 job (chunkOwned l0 m₀) w.state L := by
  obtain ⟨L, held, h⟩ := radix_owned hjobs htree hr
  have hheld : ∑ t, held t = 0 :=
    Finset.sum_eq_zero fun t _ => h.idle t (hquiet t)
  have hinv := h.inv
  rw [hheld, add_zero] at hinv
  exact ⟨L, h.live, hinv⟩

/-- Once every job is finished the chunks have their final values. -/
theorem finished_of_reach (hquiet : ∀ t, w.thread t = none)
    (hdone : ∀ j, .todo j ∉ w.live) (c : Nat) :
    (∀ j, (job j).Covers c → chunkOwned l0 w.state c = (job j).val)
      ∧ ((∀ j, ¬ (job j).Covers c) →
        chunkOwned l0 w.state c = chunkOwned l0 m₀ c) := by
  obtain ⟨L, ⟨hlive, hout⟩, hinv⟩ := quiet_inv hjobs htree hr hquiet
  refine hinv.facts.finished (fun j k hmem => ?_) c
  refine (hout _ hmem).resolve_left fun hk => hdone j ?_
  rw [← hlive]
  refine Multiset.mem_map.2 ⟨_, hmem, ?_⟩
  rw [hk]
  exact notice_atStart j

/-- The tables follow the shared tree: once every job is finished, its
chunks are those of `Radix.setRange` for the jobs in any order. -/
theorem shows_of_reach (hquiet : ∀ t, w.thread t = none)
    (hdone : ∀ j, .todo j ∉ w.live) {t : Radix} (hshows : Shows l0 m₀ t)
    {order : List J} (hnodup : order.Nodup) (hall : ∀ j, j ∈ order) :
    ∃ t', setRanges job order t = some t' ∧ Shows l0 w.state t' := by
  obtain ⟨t', hset, howns⟩ := setRanges_spec hjobs hnodup t
  refine ⟨t', hset, shows_iff.2 fun c hc => ?_⟩
  obtain ⟨hcov, hrest⟩ := finished_of_reach hjobs htree hr hquiet hdone c
  obtain ⟨hcov', hrest'⟩ := howns c hc
  by_cases hex : ∃ j, (job j).Covers c
  · obtain ⟨j, hj⟩ := hex
    rw [hcov j hj, hcov' j (hall j) hj]
  · have hnone : ∀ j, ¬ (job j).Covers c := fun j hj => hex ⟨j, hj⟩
    rw [hrest hnone, hrest' fun j _ => hnone j, shows_iff.1 hshows c hc]

end Reached

/-- Threads that run `set_range` on disjoint ranges, each once, while
others read: nobody gets stuck; when all jobs are finished, every chunk
is as after running them one after another in any order, and the tree
is ready for the next ones; an installed node is never replaced and
never unmapped; and a reader sees the old or the new value. -/
theorem radix_writers_independent (hjobs : Apart job)
    (htree : Tree l0 m₀ 0)
    (hr : Reach (radixApi T l0 job) (radixStart T J m₀) w) :
    (∀ t c p, w.thread t = some (c, p) → p ≠ .halt)
    ∧ ((∀ t, w.thread t = none) → (∀ j, .todo j ∉ w.live) →
        Tree l0 w.state 0
        ∧ ∀ order : List J, order.Nodup → (∀ j, j ∈ order) → ∀ env env',
          ∃ m', (runJobs l0 job order).exec env m₀ = some ((), m')
            ∧ ∀ c, ((getChunk l0 c).exec env' w.state).map Prod.fst
                = ((getChunk l0 c).exec env' m').map Prod.fst)
    ∧ (∀ p a, nodeAt l0 w.state p = a → a ≠ 0 →
        ∀ w', Reach (radixApi T l0 job) w w' →
          nodeAt l0 w'.state p = a ∧ a ∈ w'.state.mapped)
    ∧ ∀ c b, .saw c b ∈ w.live →
        (∀ env, (getChunk l0 c).exec env m₀ = some (b, m₀))
        ∨ ∃ j, (job j).Covers c ∧ b = (job j).val := by
  obtain ⟨L, held, h⟩ := radix_owned hjobs htree hr
  refine ⟨fun t c p busy => ?_, fun hquiet hdone => ⟨?_, ?_⟩, ?_, ?_⟩
  · have htotal := hr.total (fun t c => ?_) (fun _ => rfl) busy
    · rintro rfl
      exact htotal
    · cases c with
      | write j => exact (run_total l0 _).bind fun _ => trivial
      | read c _ => exact getChunk_total l0 c
  · obtain ⟨L, ⟨-, hout⟩, hinv⟩ := quiet_inv hjobs htree hr hquiet
    have htree' := hinv.tree
    rw [Outside.nodes hout] at htree'
    exact htree'
  · intro order hnodup hall env env'
    obtain ⟨_, m', hrun⟩ := (runJobs_total l0 job order).exec env m₀
    refine ⟨m', hrun, fun c => ?_⟩
    rw [getChunk_exec htree.root, getChunk_exec htree.root]
    have hpool := finished_of_reach hjobs htree hr hquiet hdone c
    have halone := finished_of_exec hjobs htree hnodup hall hrun c
    by_cases hcov : ∃ j, (job j).Covers c
    · obtain ⟨j, hj⟩ := hcov
      simp only [Option.map_some, hpool.1 j hj, halone.1 j hj]
    · have hnone : ∀ j, ¬ (job j).Covers c := fun j hj => hcov ⟨j, hj⟩
      simp only [Option.map_some, hpool.2 hnone, halone.2 hnone]
  · intro p a hat hzero w' hr'
    have hseen := h.inv.see hzero hat
    rw [← Multiset.singleton_add, add_comm] at hseen
    obtain ⟨L', held', h'⟩ := Owned.reach ⟨L, held, h.aside hseen⟩
      (fun t c r _ _ hr _ =>
        (radixCall_safe hjobs htree.root t c hr).aside _) hr'
    have hinv := h'.inv
    rw [add_comm, Multiset.singleton_add] at hinv
    obtain ⟨-, hat'⟩ := hinv.seen_spec
    refine ⟨hat', ?_⟩
    have hmapped := hinv.tree.mapped p
    rw [hat'] at hmapped
    exact hmapped hzero
  · intro c b hmem
    rw [← h.live.1] at hmem
    obtain ⟨x, hx, hkey⟩ := Multiset.mem_map.1 hmem
    have hout := h.live.2 x hx
    cases x with
    | saw c' b' =>
        cases hkey
        refine hout.imp_left fun hold env => ?_
        rw [getChunk_exec htree.root, hold]
    | reached j k =>
        cases hout with
        | inl hk =>
            subst hk
            exact absurd ((notice_atStart j).symm.trans hkey) nofun
        | inr hk =>
            subst hk
            exact absurd ((notice_atEnd j).symm.trans hkey) nofun
    | fresh a => exact hout.elim
    | seen p a => exact hout.elim

end Pool

/-- A zeroed top table is a tree. -/
theorem Tree.new (hzero : l0 ≠ 0) : Tree l0 (Memory.new l0) 0 := by
  have hnode : ∀ p, nodeAt l0 (Memory.new l0) p ≠ 0 → p = [] := by
    intro p
    induction p using List.reverseRecOn with
    | nil => exact fun _ => rfl
    | append_singleton p i _ =>
        intro hne
        rw [nodeAt_snoc] at hne
        split at hne
        · exact absurd rfl hne
        · exact absurd rfl hne
  refine ⟨hzero, fun p hp => ?_, fun p q hp heq => ?_, fun p hp => ?_,
    fun _ => Multiset.notMem_zero _, nofun, Multiset.nodup_zero⟩
  · rw [hnode p hp]
    exact Nat.zero_le 3
  · rw [hnode p hp, hnode q (heq ▸ hp)]
  · rw [hnode p hp]
    exact List.mem_singleton_self l0

/-- A kernel that maps above everything in use. -/
def sumKernel : Kernel where
  mmap l := l.sum + 1
  nonnull _ := Nat.succ_ne_zero _
  unused l hmem := by
    exact absurd (List.le_sum_of_mem hmem) (by omega)

/-- Two jobs on neighbouring chunks, which share a word. -/
def neighbours : Bool → Job
  | false => ⟨0, 0, true, by decide, by decide⟩
  | true => ⟨1, 1, true, by decide, by decide⟩

theorem neighbours_apart : Apart neighbours := by
  intro j j' hne c hc hc'
  unfold Job.Covers at hc hc'
  cases j with
  | false =>
      cases j' with
      | false => exact hne rfl
      | true =>
          simp only [neighbours] at hc hc'
          omega
  | true =>
      cases j' with
      | true => exact hne rfl
      | false =>
          simp only [neighbours] at hc hc'
          omega

/-- Both jobs are run to their ends. -/
theorem radix_writers_independent_neighbours : ∃ w,
    Reach (radixApi Unit 1 neighbours) (radixStart Unit Bool (Memory.new 1)) w
      ∧ (∀ t, w.thread t = none) ∧ (∀ j, .todo j ∉ w.live)
      ∧ Tree 1 w.state 0 := by
  have htotal : ∀ j, ((radixApi Unit 1 neighbours).prog ()
      (.write j)).Total :=
    fun j => (run_total 1 (neighbours j)).bind fun _ => trivial
  obtain ⟨_, s₁, hrun₁⟩ :=
    (htotal false).exec (fun _ => sumKernel) (Memory.new 1)
  obtain ⟨_, s₂, hrun₂⟩ := (htotal true).exec (fun _ => sumKernel) s₁
  have h₁ : Reach (radixApi Unit 1 neighbours)
      (radixStart Unit Bool (Memory.new 1)) _ :=
    Reach.init.exec () (.write false) (fun _ => sumKernel) rfl (by decide)
      hrun₁
  have hnext : ({.todo true} : Multiset (Notice Bool))
      ≤ Finset.univ.val.map .todo - {.todo false} + {.done false} := by
    decide
  have h₂ := h₁.exec () (RadixCall.write true) (fun _ => sumKernel) rfl
    hnext hrun₂
  have hdone : ∀ j, .todo j ∉ (Finset.univ.val.map .todo - {.todo false}
      + {.done false} - {.todo true} + {.done true}
        : Multiset (Notice Bool)) := by
    decide
  exact ⟨_, h₂, fun _ => rfl, hdone, ((radix_writers_independent
    neighbours_apart (Tree.new (by decide)) h₂).2.1 (fun _ => rfl)
      hdone).1⟩

end RsMalloc.RadixMap
