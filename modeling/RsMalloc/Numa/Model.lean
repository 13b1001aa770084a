/-
The NUMA topology (internals/numa_parser.rs, rseq_core/slab_cache.rs).

# Lists of numbers

The kernel describes sets of nodes and of CPUs as text, `0-3,8,10-11`.
The iterators of the source walk an index over the bytes; here a parser
takes the bytes that are left. An iterator that yields an error makes
`parse_numa_topology` return `None`, whatever it yielded before, so a
text is parsed as a whole or not at all.

# Tables

`cpu_to_node` and `cpu_ranges` are arrays of `ncpu` and `nranges`
entries, here functions. `populate_cpu_ranges` gives each node the
least interval that holds its CPUs: intervals of different nodes may
overlap, and a node without CPUs gets the interval from 1 to 0.
-/
import RsMalloc.Ground.Model

namespace RsMalloc.Numa

-- ====================================================== lists of numbers

/-- `NumberRange`. -/
structure NumberRange where
  start : Nat
  end_ : Nat
  deriving DecidableEq, Repr

/-- `u8::is_ascii_whitespace`. -/
def isAsciiWhitespace (b : Nat) : Bool :=
  b = 32 || b = 9 || b = 10 || b = 12 || b = 13

/-- `skip_ascii_whitespace`. -/
def skipAsciiWhitespace (bytes : List Nat) : List Nat :=
  bytes.dropWhile isAsciiWhitespace

/-- The loop of `parse_usize`: the number and the bytes behind it, or
`none` when the number does not fit. -/
def parseDigits : Nat → List Nat → Option (Nat × List Nat)
  | n, [] => some (n, [])
  | n, b :: bytes =>
      if 48 ≤ b ∧ b ≤ 57 then do
        let n ← checkedAdd (← checkedMul n 10) (b - 48)
        parseDigits n bytes
      else some (n, b :: bytes)

/-- `parse_usize`. -/
def parseUsize : List Nat → Option (Nat × List Nat)
  | [] => none
  | b :: bytes =>
      if 48 ≤ b ∧ b ≤ 57 then parseDigits 0 (b :: bytes) else none

/-- The end of a range that starts with `start`. -/
def parseEnd (start : Nat) : List Nat → Option (Nat × List Nat)
  | 45 :: bytes => parseUsize (skipAsciiWhitespace bytes)
  | bytes => some (start, bytes)

/-- What follows a range: the end of the text, or a comma and more. -/
def parseSeparator : List Nat → Option (List Nat)
  | [] => some []
  | b :: bytes =>
      if b = 44 ∧ skipAsciiWhitespace bytes ≠ [] then
        some (skipAsciiWhitespace bytes)
      else none

/-- `parse_range` on bytes that do not start with whitespace: a range
and the bytes behind it; `none` is `ParseListError`. -/
def parseRange (bytes : List Nat) : Option (NumberRange × List Nat) := do
  let (start, bytes) ← parseUsize bytes
  let (end_, bytes) ← parseEnd start (skipAsciiWhitespace bytes)
  let bytes ← parseSeparator (skipAsciiWhitespace bytes)
  if start ≤ end_ then some (⟨start, end_⟩, bytes) else none

/-- The ranges of `parse_number_ranges`. Each range takes a byte, so a
budget of the length is enough. -/
def numberRanges : Nat → List Nat → Option (List NumberRange)
  | fuel, bytes =>
      match skipAsciiWhitespace bytes with
      | [] => some []
      | bytes =>
          match fuel with
          | 0 => none
          | fuel + 1 => do
              let (range, rest) ← parseRange bytes
              let ranges ← numberRanges fuel rest
              return range :: ranges

/-- `parse_number_ranges`. -/
def parseNumberRanges (bytes : List Nat) : Option (List NumberRange) :=
  numberRanges bytes.length bytes

/-- `NumberRange::iter`. -/
def NumberRange.iter (r : NumberRange) : List Nat :=
  List.range' r.start (r.end_ + 1 - r.start)

/-- `parse_number_list`. -/
def parseNumberList (bytes : List Nat) : Option (List Nat) := do
  let ranges ← parseNumberRanges bytes
  return ranges.flatMap NumberRange.iter

example : parseNumberList [48, 45, 50, 44, 52, 10] = some [0, 1, 2, 4] := by
  decide

-- ================================================================ tables

/-- `INVALID_NODE`. -/
abbrev invalidNode : Nat := 65535

/-- `usize::MAX`. -/
abbrev usizeMax : Nat := 2 ^ 64 - 1

/-- `NumaTopology`; the node ids are used only to find the CPUs. -/
structure NumaTopology where
  cpuToNode : Nat → Nat
  nnodes : Nat
  /-- `start_cpu` and `end_cpu` of each node. -/
  cpuRanges : Nat → Nat × Nat
  nranges : Nat

/-- `clipped_cpu_range`. -/
def clippedCpuRange (range : NumberRange) (ncpu : Nat) :
    Option NumberRange :=
  if ncpu = 0 ∨ range.start ≥ ncpu then none
  else some ⟨range.start, min range.end_ (ncpu - 1)⟩

/-- The loop over the ranges of one node's `cpulist`. -/
def assignCpus (ncpu node : Nat) :
    List NumberRange → (Nat → Nat) → Nat → Nat
  | [], cpuToNode => cpuToNode
  | range :: ranges, cpuToNode =>
      assignCpus ncpu node ranges
        (match clippedCpuRange range ncpu with
        | none => cpuToNode
        | some range =>
            range.iter.foldl (fun f cpu => Function.update f cpu node)
              cpuToNode)

/-- The first loop of `populate_cpu_ranges`, `n` CPUs left from `cpu`
on. -/
def populateLoop (nranges : Nat) :
    Nat → Nat → (Nat → Nat) → (Nat → Nat × Nat) →
      (Nat → Nat) × (Nat → Nat × Nat)
  | 0, _, cpuToNode, cpuRanges => (cpuToNode, cpuRanges)
  | n + 1, cpu, cpuToNode, cpuRanges =>
      let cpuToNode :=
        if cpuToNode cpu = invalidNode ∨ cpuToNode cpu ≥ nranges then
          Function.update cpuToNode cpu 0
        else cpuToNode
      let node := cpuToNode cpu
      let start :=
        if (cpuRanges node).1 = usizeMax then cpu else (cpuRanges node).1
      populateLoop nranges n (cpu + 1) cpuToNode
        (Function.update cpuRanges node (start, cpu))

/-- `populate_cpu_ranges`; its second loop gives the nodes without CPUs
an empty interval. -/
def populateCpuRanges (ncpu nranges : Nat) (cpuToNode : Nat → Nat)
    (cpuRanges : Nat → Nat × Nat) : (Nat → Nat) × (Nat → Nat × Nat) :=
  let (cpuToNode, cpuRanges) :=
    populateLoop nranges ncpu 0 cpuToNode cpuRanges
  (cpuToNode, fun node =>
    if node < nranges ∧ (cpuRanges node).1 = usizeMax then (1, 0)
    else cpuRanges node)

-- =============================================================== parsing

/-- What the system answers: the contents of `node/online` and of each
`nodeN/cpulist`, up to the 4096 bytes that are read, and whether the
three arrays can be mapped. -/
structure Sys where
  online : Option (List Nat)
  cpulist : Nat → Option (List Nat)
  mapCpuToNode : Bool
  mapNodeIds : Bool
  mapCpuRanges : Bool

/-- `single_node_topology`. -/
def singleNodeTopology (sys : Sys) (ncpu : Nat) : Option NumaTopology :=
  if sys.mapCpuToNode && sys.mapNodeIds && sys.mapCpuRanges then
    some ⟨fun _ => 0, 1, fun _ => (0, ncpu - 1), 1⟩
  else none

/-- The loop of `parse_numa_topology` over the nodes. -/
def readNodes (sys : Sys) (ncpu : Nat) :
    List Nat → (Nat → Nat) → Option (Nat → Nat)
  | [], cpuToNode => some cpuToNode
  | node :: nodes, cpuToNode => do
      let ranges ← parseNumberRanges (← sys.cpulist node)
      readNodes sys ncpu nodes (assignCpus ncpu node ranges cpuToNode)

/-- `parse_numa_topology`. -/
def parseNumaTopology (sys : Sys) (ncpu : Nat) : Option NumaTopology :=
  match sys.online with
  | none => singleNodeTopology sys ncpu
  | some online => do
      let nodes ← parseNumberList online
      let nodeIds := nodes.filter (· < 65536)
      if nodeIds = [] then singleNodeTopology sys ncpu
      else if sys.mapCpuToNode && sys.mapNodeIds && sys.mapCpuRanges then do
        let nranges := nodeIds.foldl max 0 + 1
        let cpuToNode ← readNodes sys ncpu nodeIds fun _ => invalidNode
        let (cpuToNode, cpuRanges) := populateCpuRanges ncpu nranges
          cpuToNode fun _ => (usizeMax, 0)
        return ⟨cpuToNode, nodeIds.length, cpuRanges, nranges⟩
      else none

/-- The part of `ensure_cache` that fills in the topology; without one
the cache is not a NUMA one. -/
def ensureCache (sys : Sys) (ncpu : Nat) (cfg : Config) : Config :=
  let cfg :=
    { cfg with
      ncpu := ncpu
      bitmapWords := max ((ncpu + 1 + 63) / 64) 1 }
  match parseNumaTopology sys ncpu with
  | some numa =>
      { cfg with
        isNuma := decide (numa.nnodes > 1)
        cpuToNode := numa.cpuToNode
        cpuRange := numa.cpuRanges
        nranges := numa.nranges }
  | none => { cfg with isNuma := false, nranges := 2 }

end RsMalloc.Numa
