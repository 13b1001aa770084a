/-
Facts about the ground that no ownership is needed for.

The ownership map is read and written by chunks: `isOwned` of an
address below `2^56` is the bit of its chunk, and a registered range
changes the bits of the chunks it touches.

A field of a `Header` or a `MetaData` reads back what was written to
it, and is left alone by a write to another field; each write stays
inside its record.
-/
import RsMalloc.Ground.Model
import RsMalloc.Radix.Proofs

namespace RsMalloc

-- ================================================== the ownership map

namespace RadixMap

theorem isOwned_eq {r : Radix} {x : Nat} (hx : x < 2 ^ 56) :
    RadixTree.isOwned ⟨some r⟩ x = some (owns r (x / 4096)) := by
  have hc : x / chunkSize < radixMaxChunks := by
    simp only [chunkSize, radixMaxChunks]
    omega
  have hv : validUserAddr x = true := decide_eq_true hx
  simp only [RadixTree.isOwned, hv, Bool.not_true]
  exact get_eq_owns hc

/-- A fresh tree owns no chunk. -/
theorem owns_new (chunk : Nat) : owns Radix.new chunk = false := by
  simp [owns, leafAt, leafBit, Radix.new]

open Classical in
/-- A range below `2^56` is registered as a whole, and nothing else
changes. -/
theorem setRange_isOwned (r : Radix) {a n : Nat} (val : Bool)
    (hn : 0 < n) (ha : a + n ≤ 2 ^ 56) :
    ∃ r', RadixTree.setRange ⟨some r⟩ a n val = some ⟨some r'⟩
      ∧ ∀ x, x < 2 ^ 56 → RadixTree.isOwned ⟨some r'⟩ x
        = if a / 4096 ≤ x / 4096 ∧ x / 4096 ≤ (a + (n - 1)) / 4096
          then some val else RadixTree.isOwned ⟨some r⟩ x := by
  obtain ⟨r', hstep, howns⟩ := step_spec r (.setRange a n val)
  refine ⟨r', hstep, fun x hx => ?_⟩
  have hacc : (Call.setRange a n val).Accepted :=
    ⟨hn, by omega, by omega, by omega⟩
  rw [isOwned_eq hx, isOwned_eq hx,
    howns _ (by simp only [radixMaxChunks]; omega)]
  simp only [hacc, true_and, touches_setRange_iff hn]
  split <;> rfl

open Classical in
/-- The same for the chunk of one address. -/
theorem setSingleBig_isOwned (r : Radix) {a : Nat} (val : Bool)
    (ha : a < 2 ^ 56) :
    ∃ r', RadixTree.setSingleBig ⟨some r⟩ a val = some ⟨some r'⟩
      ∧ ∀ x, x < 2 ^ 56 → RadixTree.isOwned ⟨some r'⟩ x
        = if x / 4096 = a / 4096 then some val
          else RadixTree.isOwned ⟨some r⟩ x := by
  obtain ⟨r', hstep, howns⟩ := step_spec r (.setSingleBig a val)
  refine ⟨r', hstep, fun x hx => ?_⟩
  have hacc : (Call.setSingleBig a val).Accepted := ha
  rw [isOwned_eq hx, isOwned_eq hx,
    howns _ (by simp only [radixMaxChunks]; omega)]
  simp only [hacc, true_and, Call.Touches, eq_comm (a := a / 4096)]
  split <;> rfl

end RadixMap

-- ================================================================ fields

/-- A discarding advice stays inside its range. -/
theorem Ground.only_discard (keep : Nat → Bool) (a n : Nat) (g : Ground) :
    Mem.Only a n g.mem (g.discard keep a n).mem :=
  fun _ hx => if_neg fun hin => hx hin.1

namespace Header

variable {g : Ground} {h v : Nat}

theorem only_setNext : Mem.Only h 16 g.mem (setNext h v g).mem :=
  .store (by omega) (by omega)

theorem only_setFlags : Mem.Only h 16 g.mem (setFlags h v g).mem :=
  .store (by omega) (by omega)

theorem only_setCls : Mem.Only h 16 g.mem (setCls h v g).mem :=
  .store (by omega) (by omega)

theorem only_setMagic : Mem.Only h 16 g.mem (setMagic h v g).mem :=
  .store (by omega) (by omega)

theorem only_setLifeTime : Mem.Only h 16 g.mem (setLifeTime h v g).mem :=
  .store (by omega) (by omega)

theorem only_write {next flags cls magic lifeTime : Nat} :
    Mem.Only h 16 g.mem (write h next flags cls magic lifeTime g).mem :=
  (((only_setNext.trans only_setFlags).trans only_setCls).trans
    only_setMagic).trans only_setLifeTime

theorem next_setNext (hv : v < 2 ^ 64) : next (setNext h v g).mem h = v :=
  Mem.load_store (by simpa using hv)

theorem next_setFlags : next (setFlags h v g).mem h = next g.mem h :=
  Mem.load_store_of_disjoint (by omega)

theorem next_setCls : next (setCls h v g).mem h = next g.mem h :=
  Mem.load_store_of_disjoint (by omega)

theorem next_setMagic : next (setMagic h v g).mem h = next g.mem h :=
  Mem.load_store_of_disjoint (by omega)

theorem next_setLifeTime : next (setLifeTime h v g).mem h = next g.mem h :=
  Mem.load_store_of_disjoint (by omega)

theorem cls_setNext : cls (setNext h v g).mem h = cls g.mem h :=
  Mem.load_store_of_disjoint (by omega)

theorem cls_setFlags : cls (setFlags h v g).mem h = cls g.mem h :=
  Mem.load_store_of_disjoint (by omega)

theorem cls_setCls (hv : v < 256) : cls (setCls h v g).mem h = v :=
  Mem.load_store (by simpa using hv)

theorem cls_setMagic : cls (setMagic h v g).mem h = cls g.mem h :=
  Mem.load_store_of_disjoint (by omega)

theorem cls_setLifeTime : cls (setLifeTime h v g).mem h = cls g.mem h :=
  Mem.load_store_of_disjoint (by omega)

theorem flags_setNext : flags (setNext h v g).mem h = flags g.mem h :=
  Mem.load_store_of_disjoint (by omega)

theorem flags_setFlags (hv : v < 256) : flags (setFlags h v g).mem h = v :=
  Mem.load_store (by simpa using hv)

theorem flags_setCls : flags (setCls h v g).mem h = flags g.mem h :=
  Mem.load_store_of_disjoint (by omega)

theorem flags_setMagic : flags (setMagic h v g).mem h = flags g.mem h :=
  Mem.load_store_of_disjoint (by omega)

theorem flags_setLifeTime : flags (setLifeTime h v g).mem h = flags g.mem h :=
  Mem.load_store_of_disjoint (by omega)

theorem magic_setNext : magic (setNext h v g).mem h = magic g.mem h :=
  Mem.load_store_of_disjoint (by omega)

theorem magic_setFlags : magic (setFlags h v g).mem h = magic g.mem h :=
  Mem.load_store_of_disjoint (by omega)

theorem magic_setMagic : magic (setMagic h v g).mem h = v % 2 ^ 16 :=
  Mem.load_store_mod

theorem magic_setLifeTime :
    magic (setLifeTime h v g).mem h = magic g.mem h :=
  Mem.load_store_of_disjoint (by omega)

theorem next_write {n flags cls magic lifeTime : Nat} (hn : n < 2 ^ 64) :
    next (write h n flags cls magic lifeTime g).mem h = n := by
  rw [write, next_setLifeTime, next_setMagic, next_setCls, next_setFlags,
    next_setNext hn]

theorem cls_write {n flags c magic lifeTime : Nat} (hc : c < 256) :
    cls (write h n flags c magic lifeTime g).mem h = c := by
  rw [write, cls_setLifeTime, cls_setMagic, cls_setCls hc]

theorem flags_write {n v c magic lifeTime : Nat} (hv : v < 256) :
    flags (write h n v c magic lifeTime g).mem h = v := by
  rw [write, flags_setLifeTime, flags_setMagic, flags_setCls,
    flags_setFlags hv]

theorem magic_write {n flags c v lifeTime : Nat} :
    magic (write h n flags c v lifeTime g).mem h = v % 2 ^ 16 := by
  rw [write, magic_setLifeTime, magic_setMagic]

end Header

namespace MetaData

variable {g : Ground} {a v : Nat}

theorem only_setNextPage : Mem.Only a 48 g.mem (setNextPage a v g).mem :=
  .store (by omega) (by omega)

theorem only_setEnd : Mem.Only a 48 g.mem (setEnd a v g).mem :=
  .store (by omega) (by omega)

theorem only_setNext : Mem.Only a 48 g.mem (setNext a v g).mem :=
  .store (by omega) (by omega)

theorem only_write {np st en nx nd : Nat} :
    Mem.Only a 48 g.mem (write a np st en nx nd g).mem :=
  (((only_setNextPage.trans (.store (by omega) (by omega))).trans
    only_setEnd).trans only_setNext).trans (.store (by omega) (by omega))

theorem nextPage_write {np st en nx nd : Nat} (h : np < 2 ^ 64) :
    nextPage (write a np st en nx nd g).mem a = np := by
  unfold nextPage write Ground.store setNext setEnd setNextPage
    Ground.store
  rw [Mem.load_store_of_disjoint (by omega),
    Mem.load_store_of_disjoint (by omega),
    Mem.load_store_of_disjoint (by omega),
    Mem.load_store_of_disjoint (by omega)]
  exact Mem.load_store (by simpa using h)

theorem end_write {np st en nx nd : Nat} (h : en < 2 ^ 64) :
    end_ (write a np st en nx nd g).mem a = en := by
  unfold end_ write Ground.store setNext setEnd Ground.store
  rw [Mem.load_store_of_disjoint (by omega),
    Mem.load_store_of_disjoint (by omega)]
  exact Mem.load_store (by simpa using h)

theorem next_write {np st en nx nd : Nat} (h : nx < 2 ^ 64) :
    next (write a np st en nx nd g).mem a = nx := by
  unfold next write Ground.store setNext Ground.store
  rw [Mem.load_store_of_disjoint (by omega)]
  exact Mem.load_store (by simpa using h)

theorem start_write {np st en nx nd : Nat} (h : st < 2 ^ 64) :
    start (write a np st en nx nd g).mem a = st := by
  unfold start write Ground.store setNext setEnd setNextPage Ground.store
  rw [Mem.load_store_of_disjoint (by omega),
    Mem.load_store_of_disjoint (by omega),
    Mem.load_store_of_disjoint (by omega)]
  exact Mem.load_store (by simpa using h)

theorem nodeId_write {np st en nx nd : Nat} :
    nodeId (write a np st en nx nd g).mem a = nd % 2 ^ 16 :=
  Mem.load_store_mod

theorem nextPage_setNextPage (h : v < 2 ^ 64) :
    nextPage (setNextPage a v g).mem a = v :=
  Mem.load_store (by simpa using h)

theorem end_setNextPage : end_ (setNextPage a v g).mem a = end_ g.mem a :=
  Mem.load_store_of_disjoint (by omega)

theorem next_setNextPage : next (setNextPage a v g).mem a = next g.mem a :=
  Mem.load_store_of_disjoint (by omega)

theorem start_setNextPage : start (setNextPage a v g).mem a = start g.mem a :=
  Mem.load_store_of_disjoint (by omega)

theorem nodeId_setNextPage :
    nodeId (setNextPage a v g).mem a = nodeId g.mem a :=
  Mem.load_store_of_disjoint (by omega)

theorem start_setNext : start (setNext a v g).mem a = start g.mem a :=
  Mem.load_store_of_disjoint (by omega)

theorem nodeId_setNext : nodeId (setNext a v g).mem a = nodeId g.mem a :=
  Mem.load_store_of_disjoint (by omega)

theorem start_setEnd : start (setEnd a v g).mem a = start g.mem a :=
  Mem.load_store_of_disjoint (by omega)

theorem end_setEnd (h : v < 2 ^ 64) : end_ (setEnd a v g).mem a = v :=
  Mem.load_store (by simpa using h)

theorem nextPage_setNext : nextPage (setNext a v g).mem a = nextPage g.mem a :=
  Mem.load_store_of_disjoint (by omega)

theorem end_setNext : end_ (setNext a v g).mem a = end_ g.mem a :=
  Mem.load_store_of_disjoint (by omega)

theorem next_setNext (h : v < 2 ^ 64) : next (setNext a v g).mem a = v :=
  Mem.load_store (by simpa using h)

end MetaData

end RsMalloc
