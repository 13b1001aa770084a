import RsMalloc.Lib.LinkedSeg
import RsMalloc.Lib.RedBlack
import RsMalloc.Lib.Prog
import RsMalloc.Lib.Alone
import RsMalloc.Lib.ByteMem
import RsMalloc.Lib.Pieces
import RsMalloc.Lib.Depot
import RsMalloc.Lib.DList
import RsMalloc.Lib.Bitmap
import RsMalloc.Lib.Tiling
import RsMalloc.Lib.Rows
import RsMalloc.Sizes
import RsMalloc.Radix.Model
import RsMalloc.Radix.Proofs
import RsMalloc.Radix.Shared
import RsMalloc.Radix.Paths
import RsMalloc.Radix.Races
import RsMalloc.RbTree.Model
import RsMalloc.RbTree.Repr
import RsMalloc.RbTree.Search
import RsMalloc.RbTree.Insert
import RsMalloc.RbTree.Delete
import RsMalloc.RbTree.Unlink
import RsMalloc.RbTree.Proofs
import RsMalloc.RbTree.Invariants
import RsMalloc.Transfer.Model
import RsMalloc.Transfer.Proofs
import RsMalloc.Buddy.Model
import RsMalloc.Buddy.FreeLists
import RsMalloc.Buddy.Proofs
import RsMalloc.Buddy.Agreement
import RsMalloc.Buddy.Coalescing
import RsMalloc.Ground.Model
import RsMalloc.Ground.Fields
import RsMalloc.Ground.Space
import RsMalloc.Ground.Growth
import RsMalloc.Pages.Model
import RsMalloc.Pages.Proofs
import RsMalloc.Pages.Runs
import RsMalloc.Slab.Model
import RsMalloc.Slab.Stock
import RsMalloc.Slab.Spans
import RsMalloc.Slab.Proofs
import RsMalloc.Slab.Pool
import RsMalloc.Numa.Model
import RsMalloc.Numa.Proofs
import RsMalloc.Slab.Transfers
import RsMalloc.Slab.Steal
import RsMalloc.Slab.Recover
import RsMalloc.Slab.Trimming
import RsMalloc.Hint.Model
import RsMalloc.Hint.Proofs
import RsMalloc.Fork.Model
import RsMalloc.Fork.Locks
import RsMalloc.Heap.Model
import RsMalloc.Heap.Trimming
import RsMalloc.Heap.RsTrim
import RsMalloc.Slab.Growth
import RsMalloc.Ground.Mappings
import RsMalloc.Lib.Runs
import RsMalloc.Heap.Owners
import RsMalloc.Heap.Backend
import RsMalloc.Lib.Iter
import RsMalloc.Numa.NumberLists
import RsMalloc.Lib.Arrays
import RsMalloc.Numa.Tables
import RsMalloc.Numa.Topology
import RsMalloc.Slab.Batching
import RsMalloc.Lib.Watch
import RsMalloc.Slab.Usage
import RsMalloc.Heap.CachedVa
import RsMalloc.Heap.BuddyTrim
import RsMalloc.Lib.Amid
import RsMalloc.Slab.TrimPass
import RsMalloc.Heap.Big
import RsMalloc.Heap.Calls
import RsMalloc.Heap.Abi
import RsMalloc.Heap.Realloc
import RsMalloc.Heap.Trims
import RsMalloc.Lib.Contract
import RsMalloc.Heap.Books
import RsMalloc.Buddy.Completeness
import RsMalloc.Lib.Traces
import RsMalloc.RbTree.Shared
import RsMalloc.Sync.Once
import RsMalloc.Trimmer.Model
import RsMalloc.Trimmer.Proofs
import RsMalloc.Startup.Model
import RsMalloc.Startup.Proofs
