/-
What the NUMA topology says (internals/numa_parser.rs).

# The nodes of the CPUs

The nodes are read in the order of the list, and each overwrites the
CPUs of its own `cpulist`. So the last node that lists a CPU has it
(`readNodes_last`). A CPU that no node lists keeps `INVALID_NODE`, and
`populate_cpu_ranges` moves it to node 0.

# The intervals

`Hulls` is the invariant of the first loop of `populate_cpu_ranges`:
the interval of a node goes from the least to the greatest of its CPUs
seen so far. A node without CPUs still has the start `usize::MAX`, which
no CPU has.
-/
import Mathlib.Order.Bounds.Basic
import RsMalloc.Numa.Tables

namespace RsMalloc.Numa

-- ================================================= the nodes of the CPUs

section Nodes

variable {α : Type} {P : α → Prop} {l : List α} {a b : α}

/-- The last entry of the list that satisfies `P`. -/
def Last (P : α → Prop) (l : List α) (a : α) : Prop :=
  ∃ l₁ l₂, l = l₁ ++ a :: l₂ ∧ P a ∧ ∀ b ∈ l₂, ¬ P b

theorem Last.mem (h : Last P l a) : a ∈ l := by
  obtain ⟨l₁, l₂, rfl, _, _⟩ := h
  exact List.mem_append_right _ (List.mem_cons_self ..)

theorem Last.cons (h : Last P l a) : Last P (b :: l) a := by
  obtain ⟨l₁, l₂, rfl, ha, hrest⟩ := h
  exact ⟨b :: l₁, l₂, rfl, ha, hrest⟩

variable {ncpu c : Nat} {sys : Sys}

theorem clipped_mem (hc : c < ncpu) (r : NumberRange) :
    (∃ r', clippedCpuRange r ncpu = some r' ∧ c ∈ r'.iter)
      ↔ c ∈ r.iter := by
  unfold clippedCpuRange
  split
  · next hnone =>
    have hout : c ∉ r.iter := by
      rw [NumberRange.iter, List.mem_range'_1]
      omega
    simp [hout]
  · simp only [Option.some.injEq, exists_eq_left', NumberRange.iter,
      List.mem_range'_1]
    omega

/-- A `cpulist` gives its CPUs to the node. -/
theorem assignCpus_apply (hc : c < ncpu) (node : Nat)
    (rs : List NumberRange) (f : Nat → Nat) :
    assignCpus ncpu node rs f c
      = if c ∈ rs.flatMap NumberRange.iter then node else f c := by
  induction rs generalizing f with
  | nil => rfl
  | cons r rs ih =>
      have hmem := clipped_mem hc r
      rw [assignCpus, ih, List.flatMap_cons]
      simp only [List.mem_append]
      by_cases hrs : c ∈ rs.flatMap NumberRange.iter
      · rw [if_pos hrs, if_pos (Or.inr hrs)]
      · rw [if_neg hrs]
        cases hr : clippedCpuRange r ncpu with
        | none =>
            have hout : c ∉ r.iter := by
              intro hin
              obtain ⟨r', hr', _⟩ := hmem.2 hin
              rw [hr] at hr'
              cases hr'
            rw [if_neg (not_or.2 ⟨hout, hrs⟩)]
        | some r' =>
            have hiff : c ∈ r'.iter ↔ c ∈ r.iter := by
              rw [← hmem, hr]
              simp
            dsimp only
            rw [Arrays.Table.foldl_update _ _ fun _ => node]
            simp only [hiff, hrs, or_false]

/-- The node's `cpulist` contains the CPU. -/
def HasCpu (sys : Sys) (node cpu : Nat) : Prop :=
  ∃ bytes rs, sys.cpulist node = some bytes ∧ Text bytes rs
    ∧ cpu ∈ rs.flatMap NumberRange.iter

theorem hasCpu_iff {node : Nat} {bytes : List Nat} {rs : List NumberRange}
    (hbytes : sys.cpulist node = some bytes)
    (hrs : parseNumberRanges bytes = some rs) :
    HasCpu sys node c ↔ c ∈ rs.flatMap NumberRange.iter := by
  constructor
  · intro h
    obtain ⟨bytes', rs', hbytes', htext, hmem⟩ := h
    rw [hbytes] at hbytes'
    cases hbytes'
    rw [← parseNumberRanges_iff, hrs] at htext
    cases htext
    exact hmem
  · intro hmem
    exact ⟨bytes, rs, hbytes, parseNumberRanges_iff.1 hrs, hmem⟩

/-- The last node that lists a CPU has it. -/
theorem readNodes_last {nodes : List Nat} {f f' : Nat → Nat}
    (hc : c < ncpu) (h : readNodes sys ncpu nodes f = some f') :
    Last (HasCpu sys · c) nodes (f' c)
      ∨ (∀ m ∈ nodes, ¬ HasCpu sys m c) ∧ f' c = f c := by
  induction nodes generalizing f with
  | nil =>
      cases h
      exact Or.inr ⟨nofun, rfl⟩
  | cons node nodes ih =>
      rw [readNodes] at h
      cases hbytes : sys.cpulist node with
      | none => simp [hbytes] at h
      | some bytes =>
          cases hrs : parseNumberRanges bytes with
          | none => simp [hbytes, hrs] at h
          | some rs =>
              simp only [hbytes, hrs, Option.bind_eq_bind,
                Option.bind_some] at h
              have hiff := hasCpu_iff (c := c) hbytes hrs
              rcases ih h with hlast | ⟨hnone, heq⟩
              · exact Or.inl hlast.cons
              · rw [assignCpus_apply hc] at heq
                by_cases hmem : c ∈ rs.flatMap NumberRange.iter
                · rw [if_pos hmem] at heq
                  rw [heq]
                  exact Or.inl ⟨[], nodes, rfl, hiff.2 hmem, hnone⟩
                · rw [if_neg hmem] at heq
                  exact Or.inr ⟨List.forall_mem_cons.2
                    ⟨fun hhas => hmem (hiff.1 hhas), hnone⟩, heq⟩

end Nodes

-- ========================================================= the intervals

section Hulls

variable {nranges k : Nat} {f₀ f : Nat → Nat} {r : Nat → Nat × Nat}

/-- The node that a CPU ends up with. -/
def fixNode (nranges node : Nat) : Nat :=
  if node = invalidNode ∨ node ≥ nranges then 0 else node

/-- The CPUs below `k` of a node. -/
def cpusOf (f : Nat → Nat) (k node : Nat) : Set Nat :=
  {c | c < k ∧ f c = node}

/-- The CPUs below `k` have been seen. -/
structure Hulls (nranges k : Nat) (f₀ f : Nat → Nat)
    (r : Nat → Nat × Nat) : Prop where
  fixed : ∀ c < k, f c = fixNode nranges (f₀ c)
  rest : ∀ c, k ≤ c → f c = f₀ c
  empty : ∀ n, cpusOf f k n = ∅ → (r n).1 = usizeMax
  hull : ∀ n, (cpusOf f k n).Nonempty →
    IsLeast (cpusOf f k n) (r n).1 ∧ IsGreatest (cpusOf f k n) (r n).2

theorem hulls_zero (f : Nat → Nat) :
    Hulls nranges 0 f f fun _ => (usizeMax, 0) where
  fixed c hc := absurd hc (Nat.not_lt_zero c)
  rest _ _ := rfl
  empty _ _ := rfl
  hull n h := by
    obtain ⟨c, hc, _⟩ := h
    exact absurd hc (Nat.not_lt_zero c)

/-- One CPU. -/
theorem Hulls.step (h : Hulls nranges k f₀ f r) (hk : k < usizeMax) :
    Hulls nranges (k + 1) f₀ (Tables.populateStep nranges (f, r) k).1
      (Tables.populateStep nranges (f, r) k).2 := by
  unfold Tables.populateStep
  dsimp only
  generalize hf : (if f k = invalidNode ∨ f k ≥ nranges then
    Function.update f k 0 else f) = f'
  have hself : f' k = fixNode nranges (f₀ k) := by
    rw [← hf, fixNode, ← h.rest k (le_refl k)]
    split
    · exact Function.update_self ..
    · rfl
  have hother : ∀ c, c ≠ k → f' c = f c := by
    intro c hc
    rw [← hf]
    split
    · exact Function.update_of_ne hc _ _
    · rfl
  -- the sets grow by `k`, at the node of `k` only
  have hgrow : ∀ n, n ≠ f' k → cpusOf f' (k + 1) n = cpusOf f k n := by
    intro n hn
    ext c
    constructor
    · intro hc
      have hne : c ≠ k := fun heq => hn (heq ▸ hc.2.symm)
      exact ⟨by have := hc.1; omega, hother c hne ▸ hc.2⟩
    · intro hc
      have hne : c ≠ k := Nat.ne_of_lt hc.1
      exact ⟨Nat.lt_succ_of_lt hc.1, (hother c hne).trans hc.2⟩
  have hnode : cpusOf f' (k + 1) (f' k) = insert k (cpusOf f k (f' k)) := by
    ext c
    by_cases hck : c = k
    · subst hck
      exact iff_of_true ⟨Nat.lt_succ_self c, rfl⟩ (Or.inl rfl)
    · rw [Set.mem_insert_iff, or_iff_right hck]
      constructor
      · intro hc
        exact ⟨by have := hc.1; omega, hother c hck ▸ hc.2⟩
      · intro hc
        exact ⟨Nat.lt_succ_of_lt hc.1, (hother c hck).trans hc.2⟩
  refine ⟨fun c hc => ?_, fun c hc => ?_, fun n hn => ?_, fun n hn => ?_⟩
  · by_cases hck : c = k
    · rw [hck, hself]
    · rw [hother c hck, h.fixed c (by omega)]
  · rw [hother c (by omega), h.rest c (by omega)]
  · by_cases heq : n = f' k
    · rw [heq, hnode] at hn
      exact absurd hn (Set.insert_nonempty _ _).ne_empty
    · rw [Function.update_of_ne heq]
      rw [hgrow n heq] at hn
      exact h.empty n hn
  · by_cases heq : n = f' k
    · subst heq
      rw [hnode, Function.update_self]
      have hbelow : ∀ c ∈ cpusOf f k (f' k), c ≤ k := fun c hc => hc.1.le
      refine ⟨?_, Or.inl rfl, ?_⟩
      · dsimp only
        by_cases hempty : cpusOf f k (f' k) = ∅
        · rw [if_pos (h.empty _ hempty), hempty, insert_empty_eq]
          exact isLeast_singleton
        · have hleast :=
            (h.hull _ (Set.nonempty_iff_ne_empty.2 hempty)).1
          have hlt : (r (f' k)).1 < k := hleast.1.1
          rw [if_neg (by omega)]
          refine ⟨Or.inr hleast.1, fun c hc => ?_⟩
          cases hc with
          | inl hck => exact hck ▸ hlt.le
          | inr hc => exact hleast.2 hc
      · intro c hc
        cases hc with
        | inl hck => exact hck.le
        | inr hc => exact hbelow c hc
    · rw [hgrow n heq] at hn ⊢
      rw [Function.update_of_ne heq]
      exact h.hull n hn

theorem populateLoop_hulls {n : Nat} (h : Hulls nranges k f₀ f r)
    (hn : k + n ≤ usizeMax) :
    Hulls nranges (k + n) f₀ (populateLoop nranges n k f r).1
      (populateLoop nranges n k f r).2 := by
  induction n generalizing k f r with
  | zero => exact h
  | succ n ih =>
      rw [show k + (n + 1) = k + 1 + n by omega]
      exact ih (h.step (by omega)) (by omega)

/-- From the least to the greatest, or from 1 to 0. -/
def Hull (s : Set Nat) (a b : Nat) : Prop :=
  s.Nonempty ∧ IsLeast s a ∧ IsGreatest s b ∨ s = ∅ ∧ a = 1 ∧ b = 0

/-- `populate_cpu_ranges` as a whole. -/
theorem populateCpuRanges_hull (nranges : Nat) {ncpu : Nat}
    (hmax : ncpu ≤ usizeMax) (f₀ : Nat → Nat) :
    let out := populateCpuRanges ncpu nranges f₀ fun _ => (usizeMax, 0)
    (∀ c < ncpu, out.1 c = fixNode nranges (f₀ c))
      ∧ ∀ n < nranges, Hull (cpusOf out.1 ncpu n) (out.2 n).1 (out.2 n).2 := by
  have hzero : Hulls nranges 0 f₀ f₀ fun _ => (usizeMax, 0) := hulls_zero f₀
  have h := populateLoop_hulls (n := ncpu) hzero (by omega)
  rw [Nat.zero_add] at h
  simp only [populateCpuRanges]
  refine ⟨h.fixed, fun n hn => ?_⟩
  by_cases hempty : cpusOf (populateLoop nranges ncpu 0 f₀
      fun _ => (usizeMax, 0)).1 ncpu n = ∅
  · rw [if_pos ⟨hn, h.empty n hempty⟩]
    exact Or.inr ⟨hempty, rfl, rfl⟩
  · have hsome := Set.nonempty_iff_ne_empty.2 hempty
    have hull := h.hull n hsome
    have hlt := hull.1.1.1
    rw [if_neg fun hm => by omega]
    exact Or.inl ⟨hsome, hull⟩

end Hulls

-- ================================================================ result

section Result

variable {ncpu : Nat}

/-- The online nodes whose ids fit, in the order of the list. There are
none when the list cannot be read. -/
inductive Online (sys : Sys) : List Nat → Prop
  | unreadable (h : sys.online = none) : Online sys []
  | listed {bytes : List Nat} {rs : List NumberRange}
      (h : sys.online = some bytes) (htext : Text bytes rs) :
      Online sys ((rs.flatMap NumberRange.iter).filter (· < 65536))

/-- The node of a CPU, if the nodes of `ids` are online. -/
def NodeOf (sys : Sys) (ids : List Nat) (cpu n : Nat) : Prop :=
  (∃ m, Last (HasCpu sys · cpu) ids m
      ∧ n = if m = invalidNode then 0 else m)
    ∨ (∀ m ∈ ids, ¬ HasCpu sys m cpu) ∧ n = 0

/-- What the tables say of the files. -/
structure WellFormed (sys : Sys) (ncpu : Nat) (u : NumaTopology) : Prop where
  node : ∃ ids, Online sys ids
    ∧ ∀ cpu < ncpu, NodeOf sys ids cpu (u.cpuToNode cpu)
  below : ∀ cpu < ncpu, u.cpuToNode cpu < u.nranges
  hull : ∀ n < u.nranges, Hull (cpusOf u.cpuToNode ncpu n)
    (u.cpuRanges n).1 (u.cpuRanges n).2

theorem singleNodeTopology_wellFormed {sys : Sys} {u : NumaTopology}
    (hpos : 1 ≤ ncpu) (honline : Online sys [])
    (h : singleNodeTopology sys ncpu = some u) : WellFormed sys ncpu u := by
  unfold singleNodeTopology at h
  split at h
  · cases h
    refine ⟨⟨[], honline, fun cpu _ => Or.inr ⟨nofun, rfl⟩⟩,
      fun _ _ => Nat.one_pos, fun n hn => Or.inl ?_⟩
    dsimp only at hn
    obtain rfl : n = 0 := by omega
    refine ⟨⟨0, hpos, rfl⟩, ⟨⟨hpos, rfl⟩, fun c _ => Nat.zero_le c⟩,
      ⟨Nat.sub_lt hpos Nat.one_pos, rfl⟩, fun c hc => Nat.le_sub_one_of_lt hc.1⟩
  · cases h

/-- A listed node is below the number of ranges. -/
theorem le_foldl_max {l : List Nat} {a x : Nat} (h : x ∈ l ∨ x ≤ a) :
    x ≤ l.foldl max a := by
  induction l generalizing a with
  | nil => exact h.resolve_left (List.not_mem_nil)
  | cons y l ih =>
      apply ih
      cases h with
      | inl hx =>
          cases List.mem_cons.1 hx with
          | inl heq => exact Or.inr (heq ▸ le_max_right a y)
          | inr hl => exact Or.inl hl
      | inr ha => exact Or.inr (ha.trans (le_max_left a y))

/-- The nodes that have been read, after `populate_cpu_ranges`. -/
theorem nodeOf_fixNode {sys : Sys} {ids : List Nat} {f : Nat → Nat}
    {cpu : Nat} (hcpu : cpu < ncpu)
    (h : readNodes sys ncpu ids (fun _ => invalidNode) = some f) :
    NodeOf sys ids cpu (fixNode (ids.foldl max 0 + 1) (f cpu)) := by
  rcases readNodes_last hcpu h with hlast | ⟨hnone, heq⟩
  · have hle := le_foldl_max (a := 0) (Or.inl hlast.mem)
    refine Or.inl ⟨f cpu, hlast, ?_⟩
    unfold fixNode
    by_cases hinv : f cpu = invalidNode
    · rw [if_pos (Or.inl hinv), if_pos hinv]
    · rw [if_neg hinv, if_neg (not_or.2 ⟨hinv, by omega⟩)]
  · exact Or.inr ⟨hnone, by rw [heq, fixNode, if_pos (Or.inl rfl)]⟩

theorem fixNode_lt {nranges : Nat} (hpos : 0 < nranges) (node : Nat) :
    fixNode nranges node < nranges := by
  unfold fixNode
  split
  · exact hpos
  · omega

theorem parseNumaTopology_wellFormed {sys : Sys} {u : NumaTopology}
    (hpos : 1 ≤ ncpu) (hmax : ncpu ≤ usizeMax)
    (h : parseNumaTopology sys ncpu = some u) : WellFormed sys ncpu u := by
  rw [parseNumaTopology] at h
  cases honline : sys.online with
  | none =>
      rw [honline] at h
      exact singleNodeTopology_wellFormed hpos (.unreadable honline) h
  | some bytes =>
      rw [honline] at h
      cases hparse : parseNumberRanges bytes with
      | none => simp [parseNumberList, hparse] at h
      | some rs =>
          have hids := Online.listed honline (parseNumberRanges_iff.1 hparse)
          simp only [parseNumberList, hparse, Option.bind_eq_bind,
            Option.bind_some, Option.pure_def] at h
          generalize (rs.flatMap NumberRange.iter).filter (· < 65536) = ids
            at h hids
          split at h
          · next hnil =>
            rw [hnil] at hids
            exact singleNodeTopology_wellFormed hpos hids h
          · split at h
            · cases hread : readNodes sys ncpu ids fun _ => invalidNode with
              | none => simp [hread] at h
              | some f =>
                  simp only [hread, Option.bind_some] at h
                  cases h
                  obtain ⟨hfix, hhull⟩ := populateCpuRanges_hull
                    (ids.foldl max 0 + 1) hmax f
                  refine ⟨⟨ids, hids, fun cpu hcpu => ?_⟩,
                    fun cpu hcpu => ?_, hhull⟩
                  · dsimp only
                    rw [hfix cpu hcpu]
                    exact nodeOf_fixNode hcpu hread
                  · dsimp only
                    rw [hfix cpu hcpu]
                    exact fixNode_lt (Nat.succ_pos _) _
            · cases h

/-- The topology is well-formed, whatever the files contain: no array is
left, each CPU has the last online node that lists it, and each node has
the interval of its CPUs. -/
theorem numa_topology_well_formed (files : Tables.Files)
    (maps : Tables.Maps) (ncpu : Nat) (hpos : 1 ≤ ncpu)
    (hmax : ncpu < 2 ^ 64) :
    Tables.parseNumaTopology files maps ncpu ≠ .error .outOfBounds
    ∧ ∀ t, Tables.parseNumaTopology files maps ncpu = .ok t →
      (∃ ids, Online (Tables.sysOf files) ids
        ∧ ∀ cpu < ncpu, ∃ n, t.cpuToNode[cpu]? = some n
          ∧ NodeOf (Tables.sysOf files) ids cpu n ∧ n < t.nranges)
      ∧ ∀ n < t.nranges, ∃ r, t.cpuRanges[n]? = some r
        ∧ Hull {cpu | cpu < ncpu ∧ t.cpuToNode[cpu]? = some n}
          r.startCpu r.endCpu := by
  have hrefine := Tables.tables_refine files maps ncpu
  refine ⟨hrefine.bounds, fun t ht => ?_⟩
  obtain ⟨u, hu, href⟩ := hrefine.post t ht
  have hwell := parseNumaTopology_wellFormed hpos (Nat.le_sub_one_of_lt hmax) hu
  obtain ⟨ids, hids, hnode⟩ := hwell.node
  refine ⟨⟨ids, hids, fun cpu hcpu => ?_⟩, fun n hn => ?_⟩
  · refine ⟨_, href.cpus.get cpu hcpu, hnode cpu hcpu, ?_⟩
    rw [href.nranges]
    exact hwell.below cpu hcpu
  · rw [href.nranges] at hn
    refine ⟨_, href.ranges.get n hn, ?_⟩
    have hset : {cpu | cpu < ncpu ∧ t.cpuToNode[cpu]? = some n}
        = cpusOf u.cpuToNode ncpu n := by
      ext cpu
      refine and_congr_right fun hcpu => ?_
      rw [href.cpus.get cpu hcpu, Option.some.injEq]
    rw [hset]
    exact hwell.hull n hn

/-- Node 1 is missing, node 2 is there twice, and node 70000 and CPU 9
are out of range; both nodes list CPU 1, none CPU 2. -/
def sparseFiles : Tables.Files := fun path =>
  let text := fun s : String => some (s.toList.map Char.toNat)
  if path = Tables.onlinePath then text "0,2,2,70000"
  else if path = Tables.cpulistPath 0 then text "0-1,9"
  else if path = Tables.cpulistPath 2 then text "1,3"
  else none

theorem numa_topology_well_formed_sparse :
    Tables.parseNumaTopology sparseFiles ⟨true, true, true⟩ 4
      = .ok ⟨[0, 2, 0, 2], 4, [0, 2, 2], 3,
        [⟨0, 0, 2⟩, ⟨1, 1, 0⟩, ⟨2, 1, 3⟩], 3⟩
    ∧ (∃ ids, Online (Tables.sysOf sparseFiles) ids
      ∧ ∀ cpu < 4, ∃ n, [0, 2, 0, 2][cpu]? = some n
        ∧ NodeOf (Tables.sysOf sparseFiles) ids cpu n ∧ n < 3)
    ∧ Hull {cpu | cpu < 4 ∧ [0, 2, 0, 2][cpu]? = some 1} 1 0 := by
  have hrun : Tables.parseNumaTopology sparseFiles ⟨true, true, true⟩ 4
      = .ok ⟨[0, 2, 0, 2], 4, [0, 2, 2], 3,
        [⟨0, 0, 2⟩, ⟨1, 1, 0⟩, ⟨2, 1, 3⟩], 3⟩ := by decide +kernel
  have hwell := (numa_topology_well_formed sparseFiles ⟨true, true, true⟩ 4
    (by decide) (by decide)).2 _ hrun
  obtain ⟨r, hr, hhull⟩ := hwell.2 1 (by decide)
  cases hr
  exact ⟨hrun, hwell.1, hhull⟩

end Result

end RsMalloc.Numa
