/-
The NUMA topology as arrays (internals/numa_parser.rs).

# Model

`parse_numa_topology` maps three arrays and writes to them through raw
pointers. Here each array is a list, each access is checked, and a run
stops where the source returns `None` or would leave an array. A file
is what `read` stores in the buffer: at most 4096 bytes. The two passes
over the online nodes are loops over what the iterator yields.

# Refinement

`Numa.Model` has the same function with tables that are functions of
the index. `tables_refine`: a run stays within its arrays, and what it
returns holds the values of those tables. The counting pass and the
pass that fills in the node ids see the same list, so the second writes
as many entries as the first has counted; a count of 4096 bytes of text
cannot wrap.
-/
import Mathlib.Data.Nat.Digits.Lemmas
import RsMalloc.Lib.Arrays
import RsMalloc.Numa.NumberLists

namespace RsMalloc.Numa.Tables

open Arrays

-- ================================================================= model

/-- `NumaCpuRange`. -/
structure NumaCpuRange where
  nodeId : Nat
  startCpu : Nat
  endCpu : Nat
  deriving DecidableEq, Repr

/-- `NumaTopology`. -/
structure NumaTopology where
  cpuToNode : List Nat
  ncpu : Nat
  nodeIds : List Nat
  nnodes : Nat
  cpuRanges : List NumaCpuRange
  nranges : Nat
  deriving DecidableEq, Repr

/-- The contents of the files, by path. -/
abbrev Files := List Nat → Option (List Nat)

/-- Which of the three arrays can be mapped. -/
structure Maps where
  cpuToNode : Bool
  nodeIds : Bool
  cpuRanges : Bool
  deriving DecidableEq, Repr

/-- `read_file_stack`, with a buffer of 4096 bytes. -/
def readFileStack (files : Files) (path : List Nat) : Option (List Nat) :=
  (files path).map (List.take 4096)

/-- `mmap_array`, of entries of `size` bytes. -/
def mmapArray {α : Type} (ok : Bool) (count size : Nat) (zero : α) :
    Run (List α) :=
  if count = 0 then pure []
  else do
    let _ ← ofOption (checkedMul count size)
    if ok then pure (List.replicate count zero) else .error .none

/-- `init_cpu_to_node`. -/
def initCpuToNode (cpuToNode : List Nat) (ncpu node : Nat) :
    Run (List Nat) :=
  (List.range ncpu).foldlM (fun a cpu => write a cpu node) cpuToNode

/-- One CPU in `populate_cpu_ranges`. -/
def populateCpu (nranges : Nat) (arrays : List Nat × List NumaCpuRange)
    (cpu : Nat) : Run (List Nat × List NumaCpuRange) := do
  let (cpuToNode, cpuRanges) := arrays
  let node ← Arrays.read cpuToNode cpu
  let cpuToNode ←
    (if node = invalidNode ∨ node ≥ nranges then write cpuToNode cpu 0
    else pure cpuToNode)
  let node ← Arrays.read cpuToNode cpu
  let range ← Arrays.read cpuRanges node
  let startCpu :=
    if range.startCpu = usizeMax then cpu else range.startCpu
  let cpuRanges ← write cpuRanges node ⟨range.nodeId, startCpu, cpu⟩
  return (cpuToNode, cpuRanges)

/-- One node in the second loop of `populate_cpu_ranges`. -/
def closeRange (cpuRanges : List NumaCpuRange) (node : Nat) :
    Run (List NumaCpuRange) := do
  let range ← Arrays.read cpuRanges node
  if range.startCpu = usizeMax then
    write cpuRanges node ⟨range.nodeId, 1, 0⟩
  else pure cpuRanges

/-- `populate_cpu_ranges`. -/
def populateCpuRanges (cpuToNode : List Nat) (ncpu : Nat)
    (cpuRanges : List NumaCpuRange) (nranges : Nat) :
    Run (List Nat × List NumaCpuRange) := do
  let (cpuToNode, cpuRanges) ←
    (List.range ncpu).foldlM (populateCpu nranges) (cpuToNode, cpuRanges)
  let cpuRanges ← (List.range nranges).foldlM closeRange cpuRanges
  return (cpuToNode, cpuRanges)

/-- `single_node_topology`. -/
def singleNodeTopology (maps : Maps) (ncpu : Nat) : Run NumaTopology := do
  let cpuToNode ← mmapArray maps.cpuToNode ncpu 2 0
  let cpuToNode ← initCpuToNode cpuToNode ncpu 0
  let nodeIds ← mmapArray maps.nodeIds 1 2 0
  let nodeIds ← write nodeIds 0 0
  let cpuRanges ← mmapArray maps.cpuRanges 1 24 ⟨0, 0, 0⟩
  let cpuRanges ← write cpuRanges 0 ⟨0, 0, ncpu - 1⟩
  return ⟨cpuToNode, ncpu, nodeIds, 1, cpuRanges, 1⟩

-- ======================================================= names of files

/-- `"/sys/devices/system/node/online"`. -/
def onlinePath : List Nat :=
  "/sys/devices/system/node/online".toList.map Char.toNat

/-- `PREFIX`. -/
def pathStart : List Nat :=
  "/sys/devices/system/node/node".toList.map Char.toNat

/-- `SUFFIX`. -/
def pathEnd : List Nat :=
  "/cpulist".toList.map Char.toNat

/-- `*buf.get_mut(i)? = b; i += 1`. -/
def put (out : List Nat × Nat) (b : Nat) : Run (List Nat × Nat) :=
  if out.2 < out.1.length then pure (out.1.set out.2 b, out.2 + 1)
  else .error .none

/-- The loop that takes the digits of `n`, the last one first. -/
def takeDigits (digits : List Nat) (n d : Nat) : Run (List Nat × Nat) :=
  if 0 < n then do
    let digits ← write digits d (48 + n % 10)
    takeDigits digits (n / 10) (d + 1)
  else pure (digits, d)
  termination_by n
  decreasing_by exact Nat.div_lt_self ‹_› (by decide)

/-- The loop that writes the digits out, the first one first. -/
def putDigits (digits : List Nat) :
    Nat → List Nat × Nat → Run (List Nat × Nat)
  | 0, out => pure out
  | d + 1, out => do
      let b ← Arrays.read digits d
      putDigits digits d (← put out b)

/-- `format_node_cpulist_path`, with a buffer of 128 bytes. -/
def formatNodeCpulistPath (node : Nat) : Run (List Nat) := do
  let out ← pathStart.foldlM put (List.replicate 128 0, 0)
  let digits := List.replicate 20 0
  let (digits, d) ←
    (if node = 0 then do
      let digits ← write digits 0 48
      pure (digits, 1)
    else takeDigits digits node 0)
  let out ← putDigits digits d out
  let (buf, i) ← pathEnd.foldlM put out
  return buf.take i

-- ================================================================ parsing

/-- `item.ok()?`. -/
def accept {α : Type} : Except ParseListError α → Run α
  | .ok a => pure a
  | .error _ => .error .none

/-- The first pass over the online nodes. -/
def countNodes (online : List Nat) : Run Nat :=
  (numberItems online).foldlM
    (fun nnodes item => do
      let node ← accept item
      return if node < 65536 then (nnodes + 1) % 2 ^ 64 else nnodes) 0

/-- One node of the second pass. -/
def listNode (out : List Nat × Nat × Nat)
    (item : Except ParseListError Nat) : Run (List Nat × Nat × Nat) := do
  let (nodeIds, nodeIndex, maxNode) := out
  let node ← accept item
  if node < 65536 then do
    let nodeIds ← write nodeIds nodeIndex node
    return (nodeIds, (nodeIndex + 1) % 2 ^ 64, max maxNode node)
  else return (nodeIds, nodeIndex, maxNode)

/-- One range of a `cpulist`. -/
def assignRange (ncpu node : Nat) (cpuToNode : List Nat)
    (item : Except ParseListError NumberRange) : Run (List Nat) := do
  let range ← accept item
  match clippedCpuRange range ncpu with
  | none => pure cpuToNode
  | some range =>
      range.iter.foldlM (fun a cpu => write a cpu node) cpuToNode

/-- The `cpulist` of the `i`-th node. -/
def readNode (files : Files) (ncpu : Nat) (nodeIds cpuToNode : List Nat)
    (i : Nat) : Run (List Nat) := do
  let node ← Arrays.read nodeIds i
  let path ← formatNodeCpulistPath node
  let bytes ← ofOption (readFileStack files path)
  (rangeItems bytes).foldlM (assignRange ncpu node) cpuToNode

/-- The part of `parse_numa_topology` after the first pass. -/
def readTopology (files : Files) (maps : Maps) (ncpu : Nat)
    (online : List Nat) (nnodes : Nat) : Run NumaTopology := do
  let cpuToNode ← mmapArray maps.cpuToNode ncpu 2 0
  let cpuToNode ← initCpuToNode cpuToNode ncpu invalidNode
  let nodeIds ← mmapArray maps.nodeIds nnodes 2 0
  let (nodeIds, _, maxNode) ←
    (numberItems online).foldlM listNode (nodeIds, 0, 0)
  let nranges := maxNode + 1
  let cpuRanges ← mmapArray maps.cpuRanges nranges 24 ⟨0, 0, 0⟩
  let cpuRanges ← (List.range nranges).foldlM
    (fun a node => write a node ⟨node % 65536, usizeMax, 0⟩) cpuRanges
  let cpuToNode ←
    (List.range nnodes).foldlM (readNode files ncpu nodeIds) cpuToNode
  let (cpuToNode, cpuRanges) ←
    populateCpuRanges cpuToNode ncpu cpuRanges nranges
  return ⟨cpuToNode, ncpu, nodeIds, nnodes, cpuRanges, nranges⟩

/-- `parse_numa_topology`. -/
def parseNumaTopology (files : Files) (maps : Maps) (ncpu : Nat) :
    Run NumaTopology :=
  match readFileStack files onlinePath with
  | none => singleNodeTopology maps ncpu
  | some online => do
      let nnodes ← countNodes online
      if nnodes = 0 then singleNodeTopology maps ncpu
      else readTopology files maps ncpu online nnodes

-- ============================================================ the arrays

section Fill

variable {ncpu nranges : Nat}

/-- A new array holds zeros. -/
theorem mmapArray_table {α : Type} (ok : Bool) (count size : Nat)
    (zero : α) :
    Meets (mmapArray ok count size zero) (Table count · fun _ => zero) := by
  unfold mmapArray
  split
  · next h =>
    rw [h]
    exact .ret ⟨rfl, fun i hi => absurd hi (Nat.not_lt_zero i)⟩
  · refine (Meets.ofOption (Q := fun _ => True) fun _ _ => trivial).andThen
      fun _ _ => ?_
    split
    · exact .ret .replicate
    · exact .stop

/-- The step of `populateLoop`. -/
def populateStep (nranges : Nat) (t : (Nat → Nat) × (Nat → Nat × Nat))
    (cpu : Nat) : (Nat → Nat) × (Nat → Nat × Nat) :=
  let cpuToNode :=
    if t.1 cpu = invalidNode ∨ t.1 cpu ≥ nranges then
      Function.update t.1 cpu 0
    else t.1
  let node := cpuToNode cpu
  let start := if (t.2 node).1 = usizeMax then cpu else (t.2 node).1
  (cpuToNode, Function.update t.2 node (start, cpu))

theorem populateLoop_eq (n k : Nat) (f : Nat → Nat) (r : Nat → Nat × Nat) :
    populateLoop nranges n k f r
      = (List.range' k n).foldl (populateStep nranges) (f, r) := by
  induction n generalizing k f r with
  | zero => rfl
  | succ n ih =>
      rw [populateLoop, List.range'_succ, List.foldl_cons]
      exact ih _ _ _

/-- An entry of `cpu_ranges`. -/
def entry (r : Nat → Nat × Nat) (node : Nat) : NumaCpuRange :=
  ⟨node, (r node).1, (r node).2⟩

theorem entry_update (r : Nat → Nat × Nat) (node : Nat) (x : Nat × Nat) :
    Function.update (entry r) node ⟨node, x.1, x.2⟩
      = entry (Function.update r node x) := by
  funext n
  by_cases hn : n = node
  · subst hn
    rw [Function.update_self, entry, Function.update_self]
  · rw [Function.update_of_ne hn, entry, entry, Function.update_of_ne hn]

/-- The two arrays hold two tables. -/
structure Same (ncpu nranges : Nat)
    (arrays : List Nat × List NumaCpuRange)
    (t : (Nat → Nat) × (Nat → Nat × Nat)) : Prop where
  cpus : Table ncpu arrays.1 t.1
  ranges : Table nranges arrays.2 (entry t.2)

theorem populateCpu_same {arrays : List Nat × List NumaCpuRange}
    {t : (Nat → Nat) × (Nat → Nat × Nat)} {cpu : Nat} (hpos : 0 < nranges)
    (hcpu : cpu < ncpu) (h : Same ncpu nranges arrays t) :
    Meets (populateCpu nranges arrays cpu)
      (Same ncpu nranges · (populateStep nranges t cpu)) := by
  obtain ⟨a, b⟩ := arrays
  obtain ⟨f, r⟩ := t
  obtain ⟨ha, hb⟩ := h
  unfold populateCpu populateStep
  refine (ha.read hcpu ?_).bind
  dsimp only
  -- the node of the CPU is one of the table
  generalize hf : (if f cpu = invalidNode ∨ f cpu ≥ nranges then
    Function.update f cpu 0 else f) = f'
  have hnode : f' cpu < nranges := by
    rw [← hf]
    split
    · rw [Function.update_self]
      exact hpos
    · omega
  have hfix : Meets (if f cpu = invalidNode ∨ f cpu ≥ nranges then
      write a cpu 0 else pure a) (Table ncpu · f') := by
    rw [← hf]
    split
    · exact ha.write hcpu
    · exact .ret ha
  refine hfix.andThen fun a' ha' => ?_
  refine (ha'.read hcpu ?_).bind
  refine (hb.read hnode ?_).bind
  refine (hb.write hnode).andThen fun b' hb' => .ret ⟨ha', ?_⟩
  have hentry := entry_update r (f' cpu)
    (if (r (f' cpu)).1 = usizeMax then cpu else (r (f' cpu)).1, cpu)
  rw [← hentry]
  exact hb'

/-- The step of the second loop. -/
def closeStep (r : Nat → Nat × Nat) (node : Nat) : Nat → Nat × Nat :=
  if (r node).1 = usizeMax then Function.update r node (1, 0) else r

theorem closeRange_table {b : List NumaCpuRange} {r : Nat → Nat × Nat}
    {node : Nat} (hnode : node < nranges) (h : Table nranges b (entry r)) :
    Meets (closeRange b node)
      (Table nranges · (entry (closeStep r node))) := by
  unfold closeRange closeStep
  refine (h.read hnode ?_).bind
  by_cases hmax : (r node).1 = usizeMax
  · rw [if_pos hmax, if_pos (show (entry r node).startCpu = _ from hmax),
      ← entry_update]
    exact h.write hnode
  · rw [if_neg hmax, if_neg (show ¬ (entry r node).startCpu = _ from hmax)]
    exact .ret h

theorem foldl_closeStep (r : Nat → Nat × Nat) (n j : Nat) :
    (List.range n).foldl closeStep r j
      = if j < n ∧ (r j).1 = usizeMax then (1, 0) else r j := by
  induction n generalizing j with
  | zero => rfl
  | succ n ih =>
      rw [List.range_succ, List.foldl_append, List.foldl_cons,
        List.foldl_nil]
      -- the entry of `n` has not been touched
      generalize hr : (List.range n).foldl closeStep r = r' at ih ⊢
      have hn : r' n = r n := by
        rw [ih, if_neg fun h => Nat.lt_irrefl n h.1]
      rw [closeStep, hn]
      by_cases hmax : (r n).1 = usizeMax
      · rw [if_pos hmax]
        by_cases hj : j = n
        · subst hj
          rw [Function.update_self, if_pos ⟨Nat.lt_succ_self j, hmax⟩]
        · have hlt : j < n + 1 ↔ j < n := by omega
          rw [Function.update_of_ne hj, ih]
          simp only [hlt]
      · rw [if_neg hmax, ih]
        by_cases hj : j = n
        · subst hj
          rw [if_neg fun h => hmax h.2, if_neg fun h => hmax h.2]
        · have hlt : j < n + 1 ↔ j < n := by omega
          simp only [hlt]

/-- `populate_cpu_ranges`. -/
theorem populateCpuRanges_same {a : List Nat} {b : List NumaCpuRange}
    {f : Nat → Nat} {r : Nat → Nat × Nat} (hpos : 0 < nranges)
    (h : Same ncpu nranges (a, b) (f, r)) :
    Meets (populateCpuRanges a ncpu b nranges) (Same ncpu nranges ·
      (Numa.populateCpuRanges ncpu nranges f r)) := by
  have hloop : Meets
      ((List.range ncpu).foldlM (populateCpu nranges) (a, b))
      (Same ncpu nranges ·
        ((List.range ncpu).foldl (populateStep nranges) (f, r))) :=
    .foldlM (fun cpu hcpu s t hs =>
      populateCpu_same hpos (List.mem_range.1 hcpu) hs) h
  rw [List.range_eq_range', ← populateLoop_eq] at hloop
  unfold populateCpuRanges Numa.populateCpuRanges
  rw [List.range_eq_range']
  refine hloop.andThen fun s hs => ?_
  obtain ⟨a', b'⟩ := s
  generalize populateLoop nranges ncpu 0 f r = t at hs ⊢
  have hclose : Meets ((List.range nranges).foldlM closeRange b')
      (Table nranges · (entry ((List.range nranges).foldl closeStep t.2))) :=
    .foldlM (R := fun b r => Table nranges b (entry r))
      (fun node hnode _ _ hb => closeRange_table (List.mem_range.1 hnode) hb)
      hs.ranges
  refine hclose.andThen fun b'' hb'' => .ret ⟨hs.cpus, hb''.congr ?_⟩
  intro n hn
  rw [entry, entry, foldl_closeStep]

/-- A run's arrays hold the values of a topology. -/
structure Refines (ncpu : Nat) (t : NumaTopology)
    (u : Numa.NumaTopology) : Prop where
  size : t.ncpu = ncpu
  nnodes : t.nnodes = u.nnodes
  nranges : t.nranges = u.nranges
  cpus : Table ncpu t.cpuToNode u.cpuToNode
  ranges : Table u.nranges t.cpuRanges (entry u.cpuRanges)

theorem singleNodeTopology_refines (maps : Maps) (ncpu : Nat) :
    Meets (singleNodeTopology maps ncpu) (Refines ncpu ·
      ⟨fun _ => 0, 1, fun _ => (0, ncpu - 1), 1⟩) := by
  unfold singleNodeTopology
  refine (mmapArray_table _ _ _ _).andThen fun a ha => ?_
  refine ha.fill.andThen fun a ha => ?_
  refine (mmapArray_table _ _ _ _).andThen fun b hb => ?_
  refine (hb.write Nat.zero_lt_one).andThen fun b _ => ?_
  refine (mmapArray_table _ _ _ _).andThen fun c hc => ?_
  refine (hc.write Nat.zero_lt_one).andThen fun c hc => ?_
  refine .ret ⟨rfl, rfl, rfl, ha, hc.congr fun i hi => ?_⟩
  obtain rfl : i = 0 := by omega
  rw [Function.update_self]
  rfl

end Fill

-- ============================================================= the paths

section Paths

variable {l : List Nat} {out : List Nat × Nat}

/-- The bytes of `l` have been written to the buffer. -/
structure Written (l : List Nat) (out : List Nat × Nat) : Prop where
  index : out.2 = l.length
  bytes : out.1.take out.2 = l

theorem written_nil (buf : List Nat) : Written [] (buf, 0) := ⟨rfl, rfl⟩

theorem Written.set (h : Written l out) (b : Nat)
    (hlt : out.2 < out.1.length) :
    Written (l ++ [b]) (out.1.set out.2 b, out.2 + 1) := by
  refine ⟨?_, ?_⟩
  · rw [List.length_append, ← h.index, List.length_singleton]
  · rw [List.take_add_one, List.take_set_of_le (le_refl _), h.bytes,
      List.getElem?_set_self hlt]
    rfl

theorem put_written (h : Written l out) (b : Nat) :
    Meets (put out b) (Written (l ++ [b])) := by
  unfold put
  split
  · next hlt => exact .ret (h.set b hlt)
  · exact .stop

theorem puts_written (h : Written l out) (bytes : List Nat) :
    Meets (bytes.foldlM put out) (Written (l ++ bytes)) := by
  induction bytes generalizing l out with
  | nil =>
      rw [List.append_nil]
      exact .ret h
  | cons b bytes ih =>
      rw [List.foldlM_cons]
      refine (put_written h b).andThen fun out' h' => ?_
      rw [show l ++ b :: bytes = l ++ [b] ++ bytes by simp]
      exact ih h'

/-- A number of `k` digits needs `k` places. -/
theorem takeDigits_written {digits : List Nat} {n d k : Nat}
    (h : Written l (digits, d)) (hn : n < 10 ^ k)
    (hroom : d + k ≤ digits.length) :
    Meets (takeDigits digits n d)
      (Written (l ++ (Nat.digits 10 n).map (48 + ·))) := by
  induction k generalizing digits n d l with
  | zero =>
      obtain rfl : n = 0 := by omega
      rw [takeDigits, if_neg (Nat.lt_irrefl 0), Nat.digits_zero,
        List.map_nil, List.append_nil]
      exact .ret h
  | succ k ih =>
      rw [takeDigits]
      by_cases hpos : 0 < n
      · rw [if_pos hpos, write, if_pos (by omega),
          Nat.digits_def' (by decide) hpos, List.map_cons]
        rw [show l ++ (48 + n % 10) :: (Nat.digits 10 (n / 10)).map (48 + ·)
          = l ++ [48 + n % 10] ++ (Nat.digits 10 (n / 10)).map (48 + ·)
          by simp]
        refine ih (h.set _ (by show d < digits.length; omega)) ?_ ?_
        · rw [Nat.pow_succ] at hn
          exact Nat.div_lt_of_lt_mul (by omega)
        · rw [List.length_set]
          omega
      · obtain rfl : n = 0 := by omega
        rw [if_neg hpos, Nat.digits_zero, List.map_nil, List.append_nil]
        exact .ret h

theorem putDigits_written {digits : List Nat} {d : Nat}
    (h : Written l out) (hd : d ≤ digits.length) :
    Meets (putDigits digits d out)
      (Written (l ++ (digits.take d).reverse)) := by
  induction d generalizing l out with
  | zero =>
      rw [List.take_zero, List.reverse_nil, List.append_nil]
      exact .ret h
  | succ d ih =>
      rw [putDigits, Arrays.read, List.getElem?_eq_getElem hd]
      refine (put_written h _).andThen fun out' h' => ?_
      have hrest := ih h' (by omega)
      rw [List.append_assoc] at hrest
      rw [List.take_add_one, List.getElem?_eq_getElem hd,
        List.reverse_append]
      exact hrest

/-- A number in decimal. -/
def decimalDigits (n : Nat) : List Nat :=
  if n = 0 then [48] else ((Nat.digits 10 n).map (48 + ·)).reverse

/-- The path of a node's `cpulist`. -/
def cpulistPath (node : Nat) : List Nat :=
  pathStart ++ decimalDigits node ++ pathEnd

theorem formatNodeCpulistPath_eq {node : Nat} (hnode : node < 65536) :
    Meets (formatNodeCpulistPath node) (· = cpulistPath node) := by
  unfold formatNodeCpulistPath
  generalize List.replicate 128 0 = buf
  refine (puts_written (written_nil buf) pathStart).andThen fun out hout => ?_
  have hdigits : Meets
      (if node = 0 then do
        let digits ← write (List.replicate 20 0) 0 48
        pure (digits, 1)
      else takeDigits (List.replicate 20 0) node 0)
      (Written (decimalDigits node).reverse) := by
    unfold decimalDigits
    by_cases hzero : node = 0
    · rw [if_pos hzero, if_pos hzero]
      exact .ret ⟨rfl, rfl⟩
    · rw [if_neg hzero, if_neg hzero, List.reverse_reverse]
      have htake := takeDigits_written (k := 5)
        (written_nil (List.replicate 20 0)) (n := node) (by omega)
        (by rw [List.length_replicate]; omega)
      rwa [List.nil_append] at htake
  refine hdigits.andThen fun x hx => ?_
  obtain ⟨digits, d⟩ := x
  have hd : d ≤ digits.length := by
    have hlen := congrArg List.length hx.bytes
    rw [List.length_take, ← hx.index] at hlen
    dsimp only at hlen
    omega
  refine (putDigits_written hout hd).andThen fun out hout => ?_
  refine (puts_written hout pathEnd).andThen fun out hout => .ret ?_
  have hbytes := hout.bytes
  rw [show digits.take d = _ from hx.bytes, List.reverse_reverse,
    List.nil_append] at hbytes
  exact hbytes

end Paths

-- ============================================================ the passes

section Passes

variable {α σ : Type}

section Parses

variable {body : σ → Except ParseListError α → Run σ} {k : σ → α → Run σ}
  (hok : ∀ s a, body s (.ok a) = k s a)
include hok

/-- A loop over items without an error. -/
theorem foldlM_accept (l : List α) (s : σ) :
    (l.map .ok).foldlM body s = l.foldlM k s := by
  induction l generalizing s with
  | nil => rfl
  | cons a l ih =>
      rw [List.map_cons, List.foldlM_cons, List.foldlM_cons, hok]
      exact bind_congr ih

/-- An error ends the loop, if it has not left an array before. -/
theorem foldlM_error {P Q : σ → Prop}
    (herror : ∀ s e, body s (.error e) = .error .none) {l : List α} {s : σ}
    (h : Meets (l.foldlM k s) P) (e : ParseListError) :
    Meets ((l.map Except.ok ++ [Except.error e]).foldlM body s) Q := by
  rw [List.foldlM_append, foldlM_accept hok]
  refine h.andThen fun s' _ => ?_
  rw [List.foldlM_cons, herror]
  exact .stop

end Parses

/-- The ids of a range that fit. -/
theorem filter_range_le (a n : Nat) :
    ((List.range' a n).filter (· < 65536)).length ≤ 65536 := by
  have hsub : (List.range' a n).filter (· < 65536) ⊆ List.range 65536 := by
    intro x hx
    obtain ⟨_, hlt⟩ := List.mem_filter.1 hx
    exact List.mem_range.2 (of_decide_eq_true hlt)
  have hnodup : ((List.range' a n).filter (· < 65536)).Nodup :=
    (List.nodup_range' 1 Nat.one_pos).filter _
  have hle := (hnodup.subperm hsub).length_le
  rwa [List.length_range] at hle

theorem filter_flatMap_le (rs : List NumberRange) :
    ((rs.flatMap NumberRange.iter).filter (· < 65536)).length
      ≤ 65536 * rs.length := by
  induction rs with
  | nil => exact Nat.zero_le _
  | cons r rs ih =>
      rw [List.flatMap_cons, List.filter_append, List.length_append,
        List.length_cons]
      have hr := filter_range_le r.start (r.end_ + 1 - r.start)
      rw [NumberRange.iter]
      omega

/-- A text names at most one range a byte. -/
theorem Items.length_le {t : List Nat} {rs : List NumberRange}
    (h : Items t rs) : rs.length ≤ t.length := by
  induction h with
  | last hi =>
      obtain ⟨d, u, rfl, _⟩ := hi.head
      simp
  | more hi _ _ _ ih =>
      simp only [List.length_append, List.length_cons]
      omega

theorem Text.length_le {bytes : List Nat} {rs : List NumberRange}
    (h : Text bytes rs) : rs.length ≤ bytes.length := by
  cases h with
  | blank => exact Nat.zero_le _
  | items _ hitems =>
      have hle := Items.length_le hitems
      rw [List.length_append]
      omega

/-- The count of the first pass. -/
theorem foldl_count (xs : List Nat) (n : Nat)
    (h : n + (xs.filter (· < 65536)).length < 2 ^ 64) :
    xs.foldl (fun n node => if node < 65536 then (n + 1) % 2 ^ 64 else n) n
      = n + (xs.filter (· < 65536)).length := by
  induction xs generalizing n with
  | nil => rfl
  | cons x xs ih =>
      rw [List.foldl_cons]
      by_cases hx : x < 65536
      · rw [List.filter_cons_of_pos (by simpa using hx),
          List.length_cons] at h ⊢
        rw [if_pos hx, Nat.mod_eq_of_lt (by omega), ih _ (by omega)]
        omega
      · rw [List.filter_cons_of_neg (by simpa using hx)] at h ⊢
        rw [if_neg hx, ih _ h]

theorem countNodes_eq {online : List Nat} (hlen : online.length ≤ 4096) :
    Meets (countNodes online) fun n => ∃ xs, numberItems online = xs.map .ok
      ∧ parseNumberList online = some xs
      ∧ n = (xs.filter (· < 65536)).length ∧ n < 2 ^ 64 := by
  have hfold : ∀ xs : List Nat, Meets (xs.foldlM (fun n node =>
      pure (if node < 65536 then (n + 1) % 2 ^ 64 else n)) 0)
      (· = xs.foldl (fun n node =>
        if node < 65536 then (n + 1) % 2 ^ 64 else n) 0) := fun xs =>
    .foldlM (fun _ _ _ _ hst => .ret (by rw [hst])) rfl
  rcases numberItems_cases online with ⟨rs, htext, heq⟩ | ⟨xs, heq⟩
  · have hbound := filter_flatMap_le rs
    have hrs := Text.length_le htext
    rw [countNodes, heq, foldlM_accept fun _ _ => rfl]
    refine (hfold _).mono fun n hn => ?_
    rw [foldl_count _ _ (by omega), Nat.zero_add] at hn
    refine ⟨_, rfl, ?_, hn, by omega⟩
    rw [parseNumberList, parseNumberRanges_iff.2 htext]
    rfl
  · rw [countNodes, heq]
    exact foldlM_error (k := fun n node =>
      pure (if node < 65536 then (n + 1) % 2 ^ 64 else n))
      (fun _ _ => rfl) (fun _ _ => rfl) (hfold xs) _

/-- The second pass has seen the ids of `ids`. -/
structure Listed (n : Nat) (ids : List Nat) (out : List Nat × Nat × Nat) :
    Prop where
  length : out.1.length = n
  written : Written ids (out.1, out.2.1)
  max : out.2.2 = ids.foldl max 0

/-- It writes as many ids as have been counted. -/
theorem listNodes_listed {n : Nat} {ids xs : List Nat}
    {out : List Nat × Nat × Nat} (h : Listed n ids out)
    (hn : (ids ++ xs.filter (· < 65536)).length = n) (hlt : n < 2 ^ 64) :
    Meets ((xs.map .ok).foldlM listNode out)
      (Listed n (ids ++ xs.filter (· < 65536))) := by
  induction xs generalizing ids out with
  | nil =>
      rw [List.filter_nil, List.append_nil]
      exact .ret h
  | cons x xs ih =>
      obtain ⟨nodeIds, index, maxNode⟩ := out
      obtain ⟨hlen, hw, hmax⟩ := h
      have hindex := hw.index
      dsimp only at hlen hindex hmax
      rw [List.map_cons, List.foldlM_cons]
      by_cases hx : x < 65536
      · rw [List.filter_cons_of_pos (by simpa using hx)] at hn ⊢
        have hroom : index < nodeIds.length := by
          rw [List.length_append, List.length_cons] at hn
          omega
        have hstep : listNode (nodeIds, index, maxNode) (.ok x)
            = .ok (nodeIds.set index x, index + 1, max maxNode x) := by
          show (if x < 65536 then _ else _) = _
          rw [if_pos hx, write, if_pos hroom]
          show Except.ok _ = _
          rw [Nat.mod_eq_of_lt (by omega)]
        rw [hstep]
        have happend : ids ++ x :: xs.filter (· < 65536)
            = ids ++ [x] ++ xs.filter (· < 65536) := by simp
        rw [happend] at hn ⊢
        refine ih ⟨?_, hw.set x hroom, ?_⟩ hn
        · rw [List.length_set, hlen]
        · rw [List.foldl_append, ← hmax]
          rfl
      · rw [List.filter_cons_of_neg (by simpa using hx)] at hn ⊢
        have hstep : listNode (nodeIds, index, maxNode) (.ok x)
            = .ok (nodeIds, index, maxNode) := by
          show (if x < 65536 then _ else _) = _
          rw [if_neg hx]
          rfl
        rw [hstep]
        exact ih ⟨hlen, hw, hmax⟩ hn

/-- When all have been written the array is the list. -/
theorem Listed.ids_eq {n : Nat} {ids : List Nat}
    {out : List Nat × Nat × Nat} (h : Listed n ids out)
    (hn : ids.length = n) : out.1 = ids := by
  have hbytes := h.written.bytes
  rw [h.written.index] at hbytes
  rwa [List.take_of_length_le (by rw [h.length, hn])] at hbytes

end Passes

-- ============================================================ refinement

section Refinement

variable {files : Files} {maps : Maps} {ncpu : Nat} {f : Nat → Nat}

/-- What the system answers to a run that maps its arrays. -/
def sysOf (files : Files) : Sys where
  online := readFileStack files onlinePath
  cpulist node := readFileStack files (cpulistPath node)
  mapCpuToNode := true
  mapNodeIds := true
  mapCpuRanges := true

/-- One range without an error. -/
def assign (ncpu node : Nat) (cpuToNode : List Nat) (range : NumberRange) :
    Run (List Nat) :=
  match clippedCpuRange range ncpu with
  | none => pure cpuToNode
  | some range =>
      range.iter.foldlM (fun a cpu => write a cpu node) cpuToNode

/-- A clipped range is one of CPUs that exist. -/
theorem clipped_lt {range r : NumberRange}
    (h : clippedCpuRange range ncpu = some r) : ∀ cpu ∈ r.iter, cpu < ncpu := by
  intro cpu hcpu
  unfold clippedCpuRange at h
  split at h
  · cases h
  · next hn =>
    cases h
    rw [NumberRange.iter, List.mem_range'_1] at hcpu
    dsimp only at hcpu
    omega

theorem assign_table {node : Nat} {a : List Nat} (rs : List NumberRange)
    (h : Table ncpu a f) :
    Meets (rs.foldlM (assign ncpu node) a)
      (Table ncpu · (assignCpus ncpu node rs f)) := by
  induction rs generalizing a f with
  | nil => exact .ret h
  | cons r rs ih =>
      rw [List.foldlM_cons, assignCpus, assign]
      cases hr : clippedCpuRange r ncpu with
      | none => exact ih h
      | some r' =>
          exact (h.writes (clipped_lt hr)).andThen fun a' ha' => ih ha'

/-- The `cpulist` of one node. -/
theorem cpulist_table {node : Nat} {a : List Nat} (hnode : node < 65536)
    (h : Table ncpu a f) :
    Meets (do
        let path ← formatNodeCpulistPath node
        let bytes ← ofOption (readFileStack files path)
        (rangeItems bytes).foldlM (assignRange ncpu node) a)
      fun a' => ∃ bytes rs, (sysOf files).cpulist node = some bytes
        ∧ parseNumberRanges bytes = some rs
        ∧ Table ncpu a' (assignCpus ncpu node rs f) := by
  refine (formatNodeCpulistPath_eq hnode).andThen fun path hpath => ?_
  subst hpath
  refine (Meets.ofOption fun bytes hbytes => ?_).bind
  rcases rangeItems_cases bytes with ⟨rs, htext, heq⟩ | ⟨rs, _, heq⟩
  · rw [heq, foldlM_accept (k := assign ncpu node) fun _ _ => rfl]
    exact (assign_table rs h).mono fun a' ha' =>
      ⟨bytes, rs, hbytes, parseNumberRanges_iff.2 htext, ha'⟩
  · rw [heq]
    exact foldlM_error (k := assign ncpu node) (fun _ _ => rfl)
      (fun _ _ => rfl) (assign_table rs h) _

theorem readNodes_table {nodes a : List Nat}
    (hnodes : ∀ node ∈ nodes, node < 65536) (h : Table ncpu a f) :
    Meets (nodes.foldlM (fun a node => do
        let path ← formatNodeCpulistPath node
        let bytes ← ofOption (readFileStack files path)
        (rangeItems bytes).foldlM (assignRange ncpu node) a) a)
      fun a' => ∃ f', readNodes (sysOf files) ncpu nodes f = some f'
        ∧ Table ncpu a' f' := by
  induction nodes generalizing a f with
  | nil => exact .ret ⟨f, rfl, h⟩
  | cons node nodes ih =>
      obtain ⟨hnode, hrest⟩ := List.forall_mem_cons.1 hnodes
      rw [List.foldlM_cons]
      refine (cpulist_table hnode h).andThen fun a' ha' => ?_
      obtain ⟨bytes, rs, hbytes, hrs, ha'⟩ := ha'
      refine (ih hrest ha').mono fun a'' ha'' => ?_
      rw [readNodes, hbytes]
      simp only [Option.bind_eq_bind, Option.bind_some, hrs]
      exact ha''

theorem foldl_max_lt {l : List Nat} {a m : Nat} (ha : a < m)
    (hl : ∀ x ∈ l, x < m) : l.foldl max a < m := by
  induction l generalizing a with
  | nil => exact ha
  | cons x l ih =>
      obtain ⟨hx, hrest⟩ := List.forall_mem_cons.1 hl
      exact ih (max_lt ha hx) hrest

/-- After the first pass, with the ids that fit. -/
theorem readTopology_refines {online xs ids : List Nat} {nnodes : Nat}
    (hids : xs.filter (· < 65536) = ids)
    (hitems : numberItems online = xs.map .ok)
    (hcount : nnodes = ids.length) (hne : ids ≠ []) (hlt : nnodes < 2 ^ 64)
    (honline : (sysOf files).online = some online)
    (hparse : parseNumberList online = some xs) :
    Meets (readTopology files maps ncpu online nnodes) fun t =>
      ∃ u, Numa.parseNumaTopology (sysOf files) ncpu = some u
        ∧ Refines ncpu t u := by
  have hfits : ∀ node ∈ ids, node < 65536 := by
    intro node hnode
    rw [← hids] at hnode
    exact of_decide_eq_true (List.mem_filter.1 hnode).2
  unfold readTopology
  refine (mmapArray_table _ _ _ _).andThen fun a ha => ?_
  refine ha.fill.andThen fun a ha => ?_
  refine (mmapArray_table _ _ _ _).andThen fun b hb => ?_
  rw [hitems]
  -- the second pass fills `node_ids`
  have hnew : Listed nnodes [] (b, 0, 0) :=
    ⟨hb.length, written_nil b, rfl⟩
  have hlisted := listNodes_listed hnew
    (by rw [List.nil_append, hids, hcount]) hlt
  rw [List.nil_append, hids] at hlisted
  refine hlisted.andThen fun out hout => ?_
  have hout' := hout.ids_eq hcount.symm
  have hmax := hout.max
  obtain ⟨ids', index, maxNode⟩ := out
  dsimp only at hout' hmax
  subst hout' hmax
  refine (mmapArray_table _ _ _ _).andThen fun c hc => ?_
  refine hc.fill.andThen fun c hc => ?_
  have hloop : (List.range nnodes).foldlM (readNode files ncpu ids') a
      = ids'.foldlM (fun a node => do
        let path ← formatNodeCpulistPath node
        let bytes ← ofOption (readFileStack files path)
        (rangeItems bytes).foldlM (assignRange ncpu node) a) a := by
    rw [hcount]
    exact foldlM_read ids' _ a
  rw [hloop]
  refine (readNodes_table hfits ha).andThen fun a' ha' => ?_
  obtain ⟨f', hread, ha'⟩ := ha'
  -- the ids of the ranges fit
  have hentry : Table _ c (entry fun _ => (usizeMax, 0)) :=
    hc.congr fun node hnode => by
      have hmax := foldl_max_lt (show 0 < 65536 by decide) hfits
      rw [Nat.mod_eq_of_lt (by omega)]
      rfl
  refine (populateCpuRanges_same (Nat.succ_pos _) ⟨ha', hentry⟩).andThen
    fun x hx => .ret ?_
  have hmaps : ((sysOf files).mapCpuToNode && (sysOf files).mapNodeIds
      && (sysOf files).mapCpuRanges) = true := rfl
  have hsys : Numa.parseNumaTopology (sysOf files) ncpu
      = some ⟨(Numa.populateCpuRanges ncpu (ids'.foldl max 0 + 1) f'
          fun _ => (usizeMax, 0)).1, ids'.length,
        (Numa.populateCpuRanges ncpu (ids'.foldl max 0 + 1) f'
          fun _ => (usizeMax, 0)).2, ids'.foldl max 0 + 1⟩ := by
    rw [Numa.parseNumaTopology, honline]
    simp only [hparse, Option.bind_eq_bind, Option.bind_some]
    rw [hids, if_neg hne, if_pos hmaps, hread]
    rfl
  exact ⟨_, hsys, rfl, hcount, rfl, hx.cpus, hx.ranges⟩

/-- A run stays within its arrays, and returns the topology. -/
theorem tables_refine (files : Files) (maps : Maps) (ncpu : Nat) :
    Meets (parseNumaTopology files maps ncpu) fun t =>
      ∃ u, Numa.parseNumaTopology (sysOf files) ncpu = some u
        ∧ Refines ncpu t u := by
  have hsingle : Meets (singleNodeTopology maps ncpu) fun t =>
      ∃ u, Numa.singleNodeTopology (sysOf files) ncpu = some u
        ∧ Refines ncpu t u :=
    (singleNodeTopology_refines maps ncpu).mono fun t ht => ⟨_, rfl, ht⟩
  unfold parseNumaTopology
  cases honline : readFileStack files onlinePath with
  | none =>
      have hsys : (sysOf files).online = none := honline
      rw [Numa.parseNumaTopology, hsys]
      exact hsingle
  | some online =>
      have hsys : (sysOf files).online = some online := honline
      have hlen : online.length ≤ 4096 := by
        obtain ⟨bytes, _, rfl⟩ := Option.map_eq_some_iff.1 honline
        exact List.length_take_le ..
      refine (countNodes_eq hlen).andThen fun nnodes hcount => ?_
      obtain ⟨xs, hitems, hparse, hcount, hlt⟩ := hcount
      by_cases hzero : nnodes = 0
      · rw [if_pos hzero, Numa.parseNumaTopology, hsys]
        have hnil : xs.filter (· < 65536) = [] :=
          List.eq_nil_of_length_eq_zero (hcount ▸ hzero)
        simp only [hparse, Option.bind_eq_bind, Option.bind_some]
        rw [if_pos hnil]
        exact hsingle
      · rw [if_neg hzero]
        refine readTopology_refines rfl hitems hcount ?_ hlt hsys hparse
        intro hnil
        rw [hnil] at hcount
        exact hzero hcount

end Refinement

end RsMalloc.Numa.Tables
