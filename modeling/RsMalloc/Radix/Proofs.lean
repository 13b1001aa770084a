/-
`RADIX` is a set of chunks: every run of `set_range` and
`set_single_big` on a fresh tree leaves exactly the chunks whose last
accepted, touching call set them.

# Layers

- words: `rangeMask` selects exactly the bits `first..=last`
  (`getLsbD_rangeMask`), so one read-modify-write sets those bits and
  keeps the others (`getLsbD_applyMask`);
- leaves: the word loop marks exactly the leaf chunks `i3..=leafEnd`
  (`markLeaf_spec`), whatever words the range starts and ends in;
- trees: `withLeaf` rewrites one leaf and no other (`leafAt_withLeaf`),
  and a chunk index is its leaf number and its index in the leaf, so
  one pass of `set_range` marks a contiguous run of chunks
  (`owns_pass`) and the loop marks the range (`setRangeLoop_spec`);
- calls: each call acts on the set of owned chunks as its abstract
  counterpart (`step_spec`), and a run is a fold (`run_owned`).
-/
import RsMalloc.Radix.Model
import RsMalloc.Lib.Bitmap
import Mathlib.Data.List.Induction
import Mathlib.Data.Nat.Bitwise

namespace RsMalloc.RadixMap

open BitWord

-- ================================================================ words

/-- `(1 << n) - 1` is the word with the low `n` bits set. -/
theorem lowBits_eq {n : Nat} (hn : n < 64) :
    1#64 <<< n - 1#64 = BitVec.ofNat 64 (2 ^ n - 1) := by
  apply BitVec.eq_of_toNat_eq
  have hlt : 2 ^ n < 2 ^ 64 := Nat.pow_lt_pow_right (by decide) hn
  have hpos : 0 < 2 ^ n := Nat.two_pow_pos n
  simp only [BitVec.toNat_sub, BitVec.toNat_shiftLeft,
    BitVec.toNat_ofNat, Nat.shiftLeft_eq]
  omega

/-- The range mask holds exactly the bits from `f` to `l`. -/
theorem getLsbD_rangeMask {f l b : Nat} (hl : l < 64) (hb : b < 64) :
    (rangeMask f l).getLsbD b = decide (f ≤ b ∧ b ≤ l) := by
  have hhigh : (if l = l3WordBits - 1 then BitVec.allOnes 64
      else 1#64 <<< (l + 1) - 1#64).getLsbD b = decide (b ≤ l) := by
    by_cases hlast : l = l3WordBits - 1
    · rw [if_pos hlast, BitVec.getLsbD_allOnes]
      simp only [l3WordBits] at hlast
      simp only [hb, decide_true, hlast]
      exact (decide_eq_true (by omega)).symm
    · rw [if_neg hlast]
      simp only [l3WordBits] at hlast
      rw [lowBits_eq (by omega), BitVec.getLsbD_ofNat,
        Nat.testBit_two_pow_sub_one]
      simp only [hb, decide_true, Bool.true_and]
      exact decide_eq_decide.2 (by omega)
  have hlow : (BitVec.allOnes 64 <<< f).getLsbD b = decide (f ≤ b) := by
    rw [BitVec.getLsbD_shiftLeft, BitVec.getLsbD_allOnes]
    by_cases hf : b < f
    · simp [hf, hb]
    · simp only [hf, hb, decide_true, decide_false, Bool.not_false,
        Bool.true_and]
      rw [decide_eq_true (by omega), decide_eq_true (by omega)]
  unfold rangeMask
  rw [BitVec.getLsbD_and, hlow, hhigh, Bool.decide_and]

/-- A masked update writes `val` at the mask's bits and keeps the
rest. -/
theorem getLsbD_applyMask {val : Bool} {mask word : BitVec 64} {b : Nat}
    (hb : b < 64) :
    (applyMask val mask word).getLsbD b
      = if mask.getLsbD b then val else word.getLsbD b := by
  unfold applyMask
  cases val
  · rw [if_neg Bool.false_ne_true, BitVec.getLsbD_and,
      BitVec.getLsbD_not]
    cases hm : mask.getLsbD b <;> simp [hb]
  · rw [if_pos rfl, BitVec.getLsbD_or]
    cases hm : mask.getLsbD b <;> simp

-- =============================================================== leaves

/-- Bit `i` of a leaf. -/
def leafBit (l3 : Leaf) (i : Nat) : Bool :=
  (l3 (i / l3WordBits)).getLsbD (i % l3WordBits)

/-- The word loop over `n` words from `a`: in range it succeeds, each
visited word gets its mask once, the others are untouched. -/
theorem foldlM_markWord (val : Bool) (mask : Nat → BitVec 64) :
    ∀ (n a : Nat) (l3 : Leaf), a + n ≤ l3BitmapWords →
      ∃ l3', (List.range' a n).foldlM
          (fun l w => markWord l w (mask w) val) l3 = some l3'
        ∧ ∀ w, l3' w = if a ≤ w ∧ w < a + n
            then applyMask val (mask w) (l3 w) else l3 w := by
  intro n
  induction n with
  | zero =>
      intro a l3 _
      refine ⟨l3, rfl, fun w => ?_⟩
      rw [if_neg (by omega)]
  | succ n ih =>
      intro a l3 ha
      have hmark : markWord l3 a (mask a) val
          = some (Function.update l3 a (applyMask val (mask a) (l3 a))) :=
        if_pos (by omega)
      obtain ⟨l3', hrun, hword⟩ := ih (a + 1)
        (Function.update l3 a (applyMask val (mask a) (l3 a))) (by omega)
      refine ⟨l3', ?_, fun w => ?_⟩
      · rw [List.range'_succ, List.foldlM_cons, hmark]
        exact hrun
      · rw [hword w]
        by_cases hwa : w = a
        · subst hwa
          rw [if_neg (by omega), if_pos (by omega), Function.update_self]
        · rw [Function.update_of_ne hwa]
          by_cases hin : a + 1 ≤ w ∧ w < a + 1 + n
          · rw [if_pos hin, if_pos (by omega)]
          · rw [if_neg hin, if_neg (by omega)]

/-- Inside the words it visits, `wordMask` holds exactly the leaf
chunks of the range. -/
theorem getLsbD_wordMask {i3 leafEnd i : Nat}
    (hfirst : i3 / 64 ≤ i / 64) (hlast : i / 64 ≤ leafEnd / 64) :
    (wordMask i3 leafEnd (i / 64)).getLsbD (i % 64)
      = decide (i3 ≤ i ∧ i ≤ leafEnd) := by
  have hbit : i % 64 < 64 := Nat.mod_lt _ (by decide)
  have hend : leafEnd % 64 < 64 := Nat.mod_lt _ (by decide)
  simp only [wordMask, l3WordBits]
  by_cases hf : i / 64 = i3 / 64
  · by_cases hl : i / 64 = leafEnd / 64
    · rw [if_pos hf, if_pos hl, getLsbD_rangeMask hend hbit]
      exact decide_eq_decide.2 (by omega)
    · rw [if_pos hf, if_neg hl, getLsbD_rangeMask (by decide) hbit]
      exact decide_eq_decide.2 (by omega)
  · by_cases hl : i / 64 = leafEnd / 64
    · rw [if_neg hf, if_pos hl, getLsbD_rangeMask hend hbit]
      exact decide_eq_decide.2 (by omega)
    · rw [if_neg hf, if_neg hl, getLsbD_rangeMask (by decide) hbit]
      exact decide_eq_decide.2 (by omega)

/-- The word loop of `set_range` marks exactly the leaf chunks
`i3..=leafEnd`, with every word index in range. -/
theorem markLeaf_spec (val : Bool) (l3 : Leaf) {i3 leafEnd : Nat}
    (hle : i3 ≤ leafEnd) (hend : leafEnd < l3Size) :
    ∃ l3', markLeaf val i3 leafEnd l3 = some l3'
      ∧ ∀ i, leafBit l3' i
          = if i3 ≤ i ∧ i ≤ leafEnd then val else leafBit l3 i := by
  simp only [l3Size] at hend
  obtain ⟨l3', hrun, hword⟩ := foldlM_markWord val
    (wordMask i3 leafEnd) (leafEnd / 64 + 1 - i3 / 64) (i3 / 64) l3
    (by simp only [l3BitmapWords, l3Size, l3WordBits]; omega)
  refine ⟨l3', hrun, fun i => ?_⟩
  have hbit : i % 64 < 64 := Nat.mod_lt _ (by decide)
  simp only [leafBit, l3WordBits, hword]
  by_cases hin : i3 / 64 ≤ i / 64 ∧ i / 64 ≤ leafEnd / 64
  · rw [if_pos (by omega), getLsbD_applyMask hbit,
      getLsbD_wordMask hin.1 hin.2]
    simp only [decide_eq_true_eq]
  · rw [if_neg (by omega), if_neg (by omega)]

/-- The single-chunk update of `Radix::set`. -/
theorem markWord_spec (val : Bool) (l3 : Leaf) {i3 : Nat}
    (hi : i3 < l3Size) :
    ∃ l3', markWord l3 (i3 / l3WordBits) (1#64 <<< (i3 % l3WordBits)) val
        = some l3'
      ∧ ∀ i, leafBit l3' i = if i = i3 then val else leafBit l3 i := by
  simp only [l3Size] at hi
  refine ⟨_, if_pos (by
    simp only [l3BitmapWords, l3Size, l3WordBits]; omega), fun i => ?_⟩
  have hbit : i % 64 < 64 := Nat.mod_lt _ (by decide)
  simp only [leafBit, l3WordBits]
  by_cases hw : i / 64 = i3 / 64
  · rw [hw, Function.update_self, getLsbD_applyMask hbit,
      getLsbD_bitMask hbit]
    by_cases hi3 : i = i3
    · simp [hi3]
    · rw [if_neg hi3, if_neg (by simp only [decide_eq_true_eq]; omega)]
  · rw [Function.update_of_ne hw, if_neg (by rintro rfl; exact hw rfl)]

-- ================================================================ trees

/-- The leaf the tree shows at a path, all-zero when the path is not
mapped yet. -/
def leafAt (r : Radix) (i0 i1 i2 : Nat) : Leaf :=
  ((((r.l0 i0).getD fun _ => none) i1).getD (fun _ => none) i2).getD
    fun _ => 0

/-- An in-range entry reads its child or the fresh one. -/
theorem getOrAlloc_eq {α : Type} {t : Table α} {size idx : Nat}
    {fresh : α} (hidx : idx < size) :
    getOrAlloc t size idx fresh = some ((t idx).getD fresh) := by
  unfold getOrAlloc entryAt
  rw [if_pos hidx]
  rfl

/-- The descent runs `f` on the leaf the tree shows at the path, and
writes back that leaf only. -/
theorem leafAt_withLeaf {r : Radix} {i0 i1 i2 : Nat}
    {f : Leaf → Option Leaf} {l3' : Leaf}
    (h0 : i0 < l0Size) (h1 : i1 < l1Size) (h2 : i2 < l2Size)
    (hf : f (leafAt r i0 i1 i2) = some l3') :
    ∃ r', r.withLeaf i0 i1 i2 f = some r'
      ∧ ∀ j0 j1 j2, leafAt r' j0 j1 j2
          = if j0 = i0 ∧ j1 = i1 ∧ j2 = i2 then l3'
            else leafAt r j0 j1 j2 := by
  unfold leafAt at hf
  simp only [Radix.withLeaf, getOrAlloc_eq h0, getOrAlloc_eq h1,
    getOrAlloc_eq h2, Option.bind_eq_bind, Option.bind_some, hf]
  refine ⟨_, rfl, fun j0 j1 j2 => ?_⟩
  simp only [leafAt, Table.store]
  by_cases e0 : j0 = i0
  · subst e0
    by_cases e1 : j1 = i1
    · subst e1
      by_cases e2 : j2 = i2
      · subst e2
        simp
      · simp [e2]
    · simp [e1]
  · simp [e0]

/-- Ownership of a chunk, read off the leaves: the abstraction every
operation below is stated against. -/
def owns (r : Radix) (chunk : Nat) : Bool :=
  let (i0, i1, i2, i3) := split chunk
  leafBit (leafAt r i0 i1 i2) i3

/-- The child indices of a chunk are in range. -/
theorem split_lt (c : Nat) :
    (split c).1 < l0Size ∧ (split c).2.1 < l1Size
      ∧ (split c).2.2.1 < l2Size ∧ (split c).2.2.2 < l3Size :=
  ⟨Nat.mod_lt _ (by decide), Nat.mod_lt _ (by decide),
    Nat.mod_lt _ (by decide), Nat.mod_lt _ (by decide)⟩

/-- Below `RADIX_MAX_CHUNKS` two chunks share their path exactly when
they share their leaf number. -/
theorem split_path_eq {c d : Nat} (hc : c < radixMaxChunks)
    (hd : d < radixMaxChunks) :
    ((split d).1 = (split c).1 ∧ (split d).2.1 = (split c).2.1
        ∧ (split d).2.2.1 = (split c).2.2.1)
      ↔ d / 4096 = c / 4096 := by
  simp only [radixMaxChunks, split, l0Size, l1Size, l2Size] at *
  omega

/-- Rewriting the leaf of chunk `c` rewrites ownership inside that
leaf and nowhere else. -/
theorem owns_withLeaf {r : Radix} {c : Nat} {f : Leaf → Option Leaf}
    {l3' : Leaf} (hc : c < radixMaxChunks)
    (hf : f (leafAt r (split c).1 (split c).2.1 (split c).2.2.1)
      = some l3') :
    ∃ r', r.withLeaf (split c).1 (split c).2.1 (split c).2.2.1 f
        = some r'
      ∧ ∀ d, d < radixMaxChunks → owns r' d
          = if d / 4096 = c / 4096 then leafBit l3' (d % l3Size)
            else owns r d := by
  obtain ⟨h0, h1, h2, -⟩ := split_lt c
  obtain ⟨r', hrun, hleaf⟩ := leafAt_withLeaf h0 h1 h2 hf
  refine ⟨r', hrun, fun d hd => ?_⟩
  simp only [owns, hleaf, split_path_eq hc hd]
  by_cases hsame : d / 4096 = c / 4096
  · rw [if_pos hsame, if_pos hsame]
    rfl
  · rw [if_neg hsame, if_neg hsame]

/-- `get` reads ownership. -/
theorem get_eq_owns {r : Radix} {c : Nat} (hc : c < radixMaxChunks) :
    r.get c = some (owns r c) := by
  obtain ⟨h0, h1, h2, h3⟩ := split_lt c
  have hword : (split c).2.2.2 / l3WordBits < l3BitmapWords := by
    simp only [l3BitmapWords, l3Size, l3WordBits] at h3 ⊢
    omega
  have hbit : (split c).2.2.2 % l3WordBits < 64 :=
    Nat.mod_lt _ (by decide)
  unfold Radix.get
  rw [if_neg (by omega)]
  simp only [owns, leafAt, leafBit, entryAt, if_pos h0, if_pos h1,
    if_pos h2, Option.bind_eq_bind, Option.bind_some]
  cases hl1 : r.l0 (split c).1 with
  | none => simp
  | some l1 =>
      cases hl2 : l1 (split c).2.1 with
      | none => simp [hl2]
      | some l2 =>
          cases hl3 : l2 (split c).2.2.1 with
          | none => simp [hl2, hl3]
          | some l3 =>
              simp only [hl2, hl3, Option.getD_some, if_pos hword]
              rw [and_bitMask_ne_zero hbit]
              rfl

/-- `Radix::set` on a chunk in range. -/
theorem set_spec (r : Radix) {c : Nat} (val : Bool)
    (hc : c < radixMaxChunks) :
    ∃ r', r.set c val = some r'
      ∧ ∀ d, d < radixMaxChunks → owns r' d
          = if d = c then val else owns r d := by
  obtain ⟨-, -, -, h3⟩ := split_lt c
  obtain ⟨l3', hmark, hbits⟩ := markWord_spec val
    (leafAt r (split c).1 (split c).2.1 (split c).2.2.1) h3
  obtain ⟨r', hrun, howns⟩ := owns_withLeaf hc
    (f := fun l3 => markWord l3 ((split c).2.2.2 / l3WordBits)
      (1#64 <<< ((split c).2.2.2 % l3WordBits)) val) hmark
  refine ⟨r', ?_, fun d hd => ?_⟩
  · unfold Radix.set
    rw [if_neg (by omega)]
    exact hrun
  · rw [howns d hd, hbits]
    have hi3 : (split c).2.2.2 = c % 4096 := rfl
    simp only [hi3, l3Size]
    by_cases hdc : d = c
    · subst hdc
      simp
    · by_cases hsame : d / 4096 = c / 4096
      · rw [if_pos hsame, if_neg (by omega), if_neg hdc]
        -- the two chunks share the leaf, so the untouched bit is `d`'s
        have hpath := (split_path_eq hc hd).2 hsame
        simp only [owns, hpath.1, hpath.2.1, hpath.2.2]
        rfl
      · rw [if_neg hsame, if_neg hdc]

/-- One pass of the `set_range` loop marks `n` chunks from `c`, when
they stay inside the leaf of `c`. -/
theorem owns_pass (r : Radix) {c n : Nat} (val : Bool)
    (hc : c < radixMaxChunks) (hn : 0 < n)
    (hleaf : c % l3Size + n ≤ l3Size) :
    ∃ r', r.withLeaf (split c).1 (split c).2.1 (split c).2.2.1
          (markLeaf val (split c).2.2.2 ((split c).2.2.2 + n - 1)) = some r'
      ∧ ∀ d, d < radixMaxChunks → owns r' d
          = if c ≤ d ∧ d < c + n then val else owns r d := by
  have hi3 : (split c).2.2.2 = c % l3Size := rfl
  obtain ⟨l3', hmark, hbits⟩ := markLeaf_spec val
    (leafAt r (split c).1 (split c).2.1 (split c).2.2.1)
    (show c % l3Size ≤ c % l3Size + n - 1 by omega) (by omega)
  rw [hi3]
  obtain ⟨r', hrun, howns⟩ := owns_withLeaf hc hmark
  refine ⟨r', hrun, fun d hd => ?_⟩
  rw [howns d hd, hbits]
  simp only [l3Size] at hleaf ⊢
  by_cases hsame : d / 4096 = c / 4096
  · rw [if_pos hsame]
    by_cases hin : c ≤ d ∧ d < c + n
    · rw [if_pos hin, if_pos (by omega)]
    · rw [if_neg hin, if_neg (by omega)]
      have hpath := (split_path_eq hc hd).2 hsame
      simp only [owns, hpath.1, hpath.2.1, hpath.2.2]
      rfl
  · rw [if_neg hsame, if_neg (by omega)]

/-- The loop of `set_range` terminates within one pass per chunk and
marks exactly the chunks `chunkIdx..=endIdx`. -/
theorem setRangeLoop_spec {val : Bool} {endIdx : Nat}
    (hend : endIdx < radixMaxChunks) :
    ∀ (fuel c : Nat) (r : Radix), c ≤ endIdx → endIdx - c < fuel →
      ∃ r', Radix.setRangeLoop val endIdx fuel c r = some r'
        ∧ ∀ d, d < radixMaxChunks → owns r' d
            = if c ≤ d ∧ d ≤ endIdx then val else owns r d := by
  intro fuel
  induction fuel with
  | zero => intro c r _ hfuel; omega
  | succ fuel ih =>
      intro c r hce hfuel
      have hmod : c % l3Size < l3Size := Nat.mod_lt _ (by decide)
      have hi3 : (split c).2.2.2 = c % l3Size := rfl
      -- `n` is `chunks_in_leaf`, the run this pass covers
      obtain ⟨n, hn⟩ : ∃ n, n = min (l3Size - c % l3Size)
        (endIdx - c + 1) := ⟨_, rfl⟩
      obtain ⟨r₁, hpass, howns₁⟩ := owns_pass r (n := n) val
        (Nat.lt_of_le_of_lt hce hend) (by omega) (by omega)
      simp only [Radix.setRangeLoop, hi3, ← hn]
      rw [hi3] at hpass
      rw [hpass]
      simp only [Option.bind_eq_bind, Option.bind_some]
      by_cases hlast : n = endIdx - c + 1
      · rw [if_pos hlast]
        refine ⟨r₁, rfl, fun d hd => ?_⟩
        rw [howns₁ d hd]
        by_cases hin : c ≤ d ∧ d ≤ endIdx
        · rw [if_pos hin, if_pos (by omega)]
        · rw [if_neg hin, if_neg (by omega)]
      · rw [if_neg hlast]
        obtain ⟨r₂, hrest, howns₂⟩ := ih (c + n) r₁ (by omega) (by omega)
        refine ⟨r₂, hrest, fun d hd => ?_⟩
        rw [howns₂ d hd, howns₁ d hd]
        by_cases hin : c ≤ d ∧ d ≤ endIdx
        · rw [if_pos hin]
          by_cases hfirst : d < c + n
          · rw [if_neg (by omega), if_pos (by omega)]
          · rw [if_pos (by omega)]
        · rw [if_neg hin, if_neg (by omega), if_neg (by omega)]

/-- `Radix::set_range` on a range of supported chunks. -/
theorem setRange_spec (r : Radix) {startIdx endIdx : Nat} (val : Bool)
    (hle : startIdx ≤ endIdx) (hend : endIdx < radixMaxChunks) :
    ∃ r', r.setRange startIdx endIdx val = some r'
      ∧ ∀ d, d < radixMaxChunks → owns r' d
          = if startIdx ≤ d ∧ d ≤ endIdx then val else owns r d :=
  setRangeLoop_spec hend _ startIdx r hle (by omega)

-- ================================================================ calls

/-- A call on the ownership map. -/
inductive Call where
  | setRange (addr size : Nat) (val : Bool)
  | setSingleBig (addr : Nat) (val : Bool)
  deriving DecidableEq, Repr

/-- The value the call writes. -/
def Call.val : Call → Bool
  | .setRange _ _ val => val
  | .setSingleBig _ val => val

/-- The call is accepted: a range is not empty, does not overflow
`usize` and lies below `2^56`; a single address lies below `2^56`. -/
def Call.Accepted : Call → Prop
  | .setRange addr size _ =>
      0 < size ∧ addr < 2 ^ 56 ∧ addr + (size - 1) < 2 ^ 64
        ∧ addr + (size - 1) < 2 ^ 56
  | .setSingleBig addr _ => addr < 2 ^ 56

/-- Some byte of the call's range lies in the chunk. -/
def Call.Touches (chunk : Nat) : Call → Prop
  | .setRange addr size _ =>
      ∃ byte, addr ≤ byte ∧ byte < addr + size ∧ byte / 4096 = chunk
  | .setSingleBig addr _ => addr / 4096 = chunk

/-- The call applied to a tree, as the source runs it. -/
def step (t : RadixTree) : Call → Option RadixTree
  | .setRange addr size val => t.setRange addr size val
  | .setSingleBig addr val => t.setSingleBig addr val

/-- A run of calls. -/
def run (t : RadixTree) (calls : List Call) : Option RadixTree :=
  calls.foldlM step t

open Classical in
/-- The reference set: a chunk is owned when the last accepted call
that touches it wrote `true`, and not owned when there is none. -/
noncomputable def lastOwned (calls : List Call) (chunk : Nat) : Bool :=
  match calls.reverse.find? fun c => c.Accepted ∧ c.Touches chunk with
  | some c => c.val
  | none => false

/-- A non-empty byte range touches exactly the chunks from its first
byte's to its last byte's. -/
theorem touches_setRange_iff {addr size chunk : Nat} {val : Bool}
    (hsize : 0 < size) :
    (Call.setRange addr size val).Touches chunk
      ↔ addr / 4096 ≤ chunk ∧ chunk ≤ (addr + (size - 1)) / 4096 := by
  constructor
  · rintro ⟨byte, hlo, hhi, rfl⟩
    omega
  · rintro ⟨hlo, hhi⟩
    refine ⟨max addr (chunk * 4096), ?_, ?_, ?_⟩ <;> omega

/-- A rejected call returns the tree it was given. -/
theorem step_rejected (r : Radix) {c : Call} (hrej : ¬ c.Accepted) :
    step ⟨some r⟩ c = some ⟨some r⟩ := by
  cases c with
  | setSingleBig addr val =>
      have hvalid : validUserAddr addr = false :=
        decide_eq_false hrej
      simp [step, RadixTree.setSingleBig, hvalid]
  | setRange addr size val =>
      by_cases hsize : size = 0
      · simp [step, RadixTree.setRange, hsize]
      by_cases haddr : addr < 2 ^ 56
      · have hvalid : validUserAddr addr = true := decide_eq_true haddr
        by_cases hover : addr + (size - 1) < 2 ^ 64
        · have hvalid' : validUserAddr (addr + (size - 1)) = false :=
            decide_eq_false fun hend =>
              hrej ⟨Nat.pos_of_ne_zero hsize, haddr, hover, hend⟩
          have hadd : checkedAdd addr (size - 1)
              = some (addr + (size - 1)) := if_pos hover
          simp [step, RadixTree.setRange, hvalid, hvalid', hadd]
        · have hadd : checkedAdd addr (size - 1) = none := if_neg hover
          simp [step, RadixTree.setRange, hadd]
      · have hvalid : validUserAddr addr = false := decide_eq_false haddr
        simp [step, RadixTree.setRange, hvalid]

open Classical in
/-- Every call succeeds on a mapped tree. An accepted call writes its
value at the chunks it touches; a rejected call changes nothing. -/
theorem step_spec (r : Radix) (c : Call) :
    ∃ r', step ⟨some r⟩ c = some ⟨some r'⟩
      ∧ ∀ chunk, chunk < radixMaxChunks → owns r' chunk
          = if c.Accepted ∧ c.Touches chunk then c.val
            else owns r chunk := by
  by_cases hacc : c.Accepted
  case neg =>
    refine ⟨r, step_rejected r hacc, fun chunk _ => ?_⟩
    rw [if_neg fun h => hacc h.1]
  case pos =>
    cases c with
    | setSingleBig addr val =>
        have haddr : addr < 2 ^ 56 := hacc
        have hvalid : validUserAddr addr = true := decide_eq_true haddr
        obtain ⟨r', hrun, howns⟩ := set_spec r
          (c := addr / 4096) val (by simp only [radixMaxChunks]; omega)
        refine ⟨r', ?_, fun chunk hchunk => ?_⟩
        · simp [step, RadixTree.setSingleBig, hvalid, hrun]
        · rw [howns chunk hchunk]
          simp only [hacc, Call.Touches, Call.val, true_and, eq_comm]
    | setRange addr size val =>
        obtain ⟨hpos, haddr, hover, hend⟩ := id hacc
        have hvalid : validUserAddr addr = true := decide_eq_true haddr
        have hvalid' : validUserAddr (addr + (size - 1)) = true :=
          decide_eq_true hend
        have hadd : checkedAdd addr (size - 1)
            = some (addr + (size - 1)) := if_pos hover
        obtain ⟨r', hrun, howns⟩ := setRange_spec r val
          (show addr / 4096 ≤ (addr + (size - 1)) / 4096 from
            Nat.div_le_div_right (by omega))
          (by simp only [radixMaxChunks]; omega)
        refine ⟨r', ?_, fun chunk hchunk => ?_⟩
        · have hne : size ≠ 0 := by omega
          simp [step, RadixTree.setRange, hvalid, hvalid', hadd, hne, hrun]
        · rw [howns chunk hchunk]
          simp only [hacc, true_and, touches_setRange_iff hpos, Call.val]

/-- Every run succeeds from a mapped tree, and its owned chunks are
those of the reference set over the same calls. -/
theorem run_owned (calls : List Call) :
    ∃ r, run RadixTree.new calls = some ⟨some r⟩
      ∧ ∀ chunk, chunk < radixMaxChunks →
          owns r chunk = lastOwned calls chunk := by
  classical
  -- the reference set reads the last call first, so induct from the end
  induction calls using List.reverseRecOn with
  | nil =>
      refine ⟨Radix.new, rfl, fun chunk _ => ?_⟩
      simp [owns, leafAt, leafBit, Radix.new, lastOwned]
  | append_singleton calls c ih =>
      obtain ⟨r, hrun, howned⟩ := ih
      obtain ⟨r', hstep, howns⟩ := step_spec r c
      refine ⟨r', ?_, fun chunk hchunk => ?_⟩
      · unfold run at hrun ⊢
        rw [List.foldlM_append, hrun]
        simp [hstep]
      · rw [howns chunk hchunk, howned chunk hchunk]
        unfold lastOwned
        rw [List.reverse_append, List.reverse_singleton,
          List.singleton_append, List.find?_cons]
        by_cases hc : c.Accepted ∧ c.Touches chunk
        · simp [hc]
        · simp [hc]

/-- The ownership map implements a set of 4 KiB chunks: every run of
calls on a fresh tree succeeds (all indices in range, all loops
terminate), a rejected call leaves the tree as it is, and the final
tree answers `is_owned` by the last accepted call that touches the
address's chunk. -/
theorem radix_refines_chunk_set (calls : List Call) :
    ∃ t, run RadixTree.new calls = some t
      ∧ (∀ c, ¬ c.Accepted → step t c = some t)
      ∧ ∀ a, a < 2 ^ 56 →
          t.isOwned a = some (lastOwned calls (a / 4096)) := by
  obtain ⟨r, hrun, howned⟩ := run_owned calls
  refine ⟨⟨some r⟩, hrun, fun c hc => ?_, fun a ha => ?_⟩
  · exact step_rejected r hc
  · have hchunk : a / 4096 < radixMaxChunks := by
      simp only [radixMaxChunks]
      omega
    have hvalid : validUserAddr a = true := decide_eq_true ha
    rw [← howned _ hchunk, ← get_eq_owns hchunk]
    simp [RadixTree.isOwned, hvalid]

end RsMalloc.RadixMap
