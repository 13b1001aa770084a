/-
Bitmaps of 64-bit words.

A bitmap is an array of words; bit `i` is bit `i % 64` of word
`i / 64`. Reading and writing go through the mask `1 << (i % 64)`, as
code does it.
-/
import Mathlib.Logic.Function.Basic
import Mathlib.Data.Nat.Bitwise

namespace BitWord

/-- The single-bit mask `1 << i`. -/
theorem getLsbD_bitMask {w i b : Nat} (hb : b < w) :
    (1#w <<< i).getLsbD b = decide (b = i) := by
  rw [BitVec.getLsbD_shiftLeft]
  by_cases hlt : b < i
  · simp [hlt, hb, Nat.ne_of_lt hlt]
  · simp only [hb, hlt, decide_true, decide_false, Bool.not_false,
      Bool.true_and, BitVec.getLsbD_one]
    have hw : 0 < w := by omega
    simp only [hw, decide_true, Bool.true_and]
    exact decide_eq_decide.2 (by omega)

/-- `word & (1 << i) != 0` reads bit `i`. -/
theorem and_bitMask_ne_zero {w : Nat} {v : BitVec w} {i : Nat}
    (hi : i < w) : ((v &&& 1#w <<< i) != 0) = v.getLsbD i := by
  cases hbit : v.getLsbD i with
  | true =>
      rw [bne_iff_ne]
      intro hzero
      have hat := congrArg (fun v => v.getLsbD i) hzero
      simp [getLsbD_bitMask hi, hbit] at hat
  | false =>
      rw [bne_eq_false_iff_eq]
      apply BitVec.eq_of_getLsbD_eq
      intro b hb
      rw [BitVec.getLsbD_and, getLsbD_bitMask hb]
      by_cases hbi : b = i
      · subst hbi
        simp [hbit]
      · simp [hbi]

/-- `v & (v - 1)` drops the lowest set bit. -/
theorem getLsbD_and_sub_one {w i : Nat} {v : BitVec w} (hi : i < w) :
    (v &&& (v - 1#w)).getLsbD i
      = (v.getLsbD i && decide (∃ j < i, v.getLsbD j = true)) := by
  rw [← BitVec.not_neg, BitVec.getLsbD_and, BitVec.getLsbD_not,
    BitVec.getLsbD_neg]
  cases v.getLsbD i with
  | true => simp [hi]
  | false => simp

/-- The mask of the bits up to `n`. -/
theorem getLsbD_lowMask {w i n : Nat} (hn : n < w) :
    (1#w <<< n - 1#w).getLsbD i = decide (i < n) := by
  have hlt : 2 ^ n < 2 ^ w := Nat.pow_lt_pow_right (by decide) hn
  have hval : (1#w <<< n - 1#w).toNat = 2 ^ n - 1 := by
    have hone : (1#w <<< n).toNat = 2 ^ n := by
      rw [BitVec.toNat_shiftLeft, BitVec.toNat_ofNat, Nat.one_mod_two_pow
        (by omega), Nat.shiftLeft_eq, Nat.one_mul, Nat.mod_eq_of_lt hlt]
    rw [BitVec.toNat_sub_of_le, hone, BitVec.toNat_ofNat,
      Nat.one_mod_two_pow (by omega)]
    rw [BitVec.le_def, hone, BitVec.toNat_ofNat, Nat.one_mod_two_pow
      (by omega)]
    exact Nat.one_le_two_pow
  rw [← BitVec.testBit_toNat, hval, Nat.testBit_two_pow_sub_one]

end BitWord

/-- The words of a bitmap. -/
abbrev Bitmap := Nat → BitVec 64

namespace Bitmap

variable {m : Bitmap} {i j : Nat}

/-- All bits clear. -/
def empty : Bitmap := fun _ => 0

/-- Read bit `i`. -/
def get (m : Bitmap) (i : Nat) : Bool :=
  (m (i / 64) &&& 1#64 <<< (i % 64)) != 0

/-- Set bit `i`. -/
def set (m : Bitmap) (i : Nat) : Bitmap :=
  Function.update m (i / 64) (m (i / 64) ||| 1#64 <<< (i % 64))

/-- Clear bit `i`. -/
def clear (m : Bitmap) (i : Nat) : Bitmap :=
  Function.update m (i / 64) (m (i / 64) &&& ~~~(1#64 <<< (i % 64)))

theorem get_eq : m.get i = (m (i / 64)).getLsbD (i % 64) :=
  BitWord.and_bitMask_ne_zero (Nat.mod_lt _ (by decide))

@[simp] theorem get_empty : empty.get i = false := by
  rw [get_eq]
  exact BitVec.getLsbD_zero

/-- Two bits of one word are the same bit exactly when their numbers
are. -/
private theorem bit_eq_iff (h : j / 64 = i / 64) :
    j % 64 = i % 64 ↔ j = i := by
  omega

theorem get_set : (m.set i).get j = (decide (j = i) || m.get j) := by
  have hj : j % 64 < 64 := Nat.mod_lt _ (by decide)
  rw [get_eq, get_eq, set]
  by_cases hw : j / 64 = i / 64
  · rw [hw, Function.update_self, BitVec.getLsbD_or,
      BitWord.getLsbD_bitMask hj, Bool.or_comm]
    simp only [bit_eq_iff hw]
  · have hne : j ≠ i := fun h => hw (h ▸ rfl)
    rw [Function.update_of_ne hw]
    simp [hne]

theorem get_clear :
    (m.clear i).get j = (!decide (j = i) && m.get j) := by
  have hj : j % 64 < 64 := Nat.mod_lt _ (by decide)
  rw [get_eq, get_eq, clear]
  by_cases hw : j / 64 = i / 64
  · rw [hw, Function.update_self, BitVec.getLsbD_and, BitVec.getLsbD_not,
      BitWord.getLsbD_bitMask hj, Bool.and_comm]
    simp only [bit_eq_iff hw, hj, decide_true, Bool.true_and]
  · have hne : j ≠ i := fun h => hw (h ▸ rfl)
    rw [Function.update_of_ne hw]
    simp [hne]

end Bitmap
