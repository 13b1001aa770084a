/-
A byte-addressed memory with little-endian words.

`load w m a` reads `w` bytes at `a` as one number, `store w m a v`
writes the low `w` bytes of `v` there. Addresses are natural numbers
and the memory is total: which addresses are mapped, and who may touch
them, is for the user to say.
-/
import Mathlib.Data.Nat.Basic
import Mathlib.Algebra.Order.Ring.Nat

/-- The contents of every address. -/
abbrev Mem := Nat → UInt8

namespace Mem

variable {m m' : Mem} {a b n v w x : Nat}

/-- The `w` bytes at `a`, least significant first. -/
def load : Nat → Mem → Nat → Nat
  | 0, _, _ => 0
  | w + 1, m, a => (m a).toNat + 256 * load w m (a + 1)

/-- Write the low `w` bytes of `v` at `a`. -/
def store (w : Nat) (m : Mem) (a v : Nat) : Mem := fun x =>
  if a ≤ x ∧ x < a + w then UInt8.ofNat (v / 256 ^ (x - a)) else m x

/-- Set `n` bytes at `a` to zero. -/
def zero (m : Mem) (a n : Nat) : Mem := fun x =>
  if a ≤ x ∧ x < a + n then 0 else m x

/-- `copy_nonoverlapping`: `n` bytes from `b` to `a`. -/
def copy (m : Mem) (a b n : Nat) : Mem := fun x =>
  if a ≤ x ∧ x < a + n then m (b + (x - a)) else m x

-- ================================================= what is not touched

/-- A store leaves the bytes behind its window alone. -/
theorem store_of_ge (h : a + w ≤ x) : store w m a v x = m x :=
  if_neg fun hx => absurd hx.2 (Nat.not_lt.2 h)

theorem store_apply_of_not (h : ¬ (a ≤ x ∧ x < a + w)) :
    store w m a v x = m x := if_neg h

theorem zero_apply_of_not (h : ¬ (a ≤ x ∧ x < a + n)) :
    zero m a n x = m x := if_neg h

theorem zero_apply (h₁ : a ≤ x) (h₂ : x < a + n) : zero m a n x = 0 :=
  if_pos ⟨h₁, h₂⟩

theorem copy_apply_of_not (h : ¬ (a ≤ x ∧ x < a + n)) :
    copy m a b n x = m x := if_neg h

theorem copy_apply (h₁ : a ≤ x) (h₂ : x < a + n) :
    copy m a b n x = m (b + (x - a)) := if_pos ⟨h₁, h₂⟩

-- ================================================== changes in a window

/-- `m'` differs from `m` only in the `n` bytes at `a`. -/
def Only (a n : Nat) (m m' : Mem) : Prop :=
  ∀ x, ¬ (a ≤ x ∧ x < a + n) → m' x = m x

namespace Only

variable {m'' : Mem}

theorem refl (a n : Nat) (m : Mem) : Only a n m m := fun _ _ => rfl

theorem trans (h : Only a n m m') (h' : Only a n m' m'') :
    Only a n m m'' := fun x hx => (h' x hx).trans (h x hx)

/-- A window may be widened. -/
theorem mono {k : Nat} (h : Only b k m m') (h₁ : a ≤ b)
    (h₂ : b + k ≤ a + n) : Only a n m m' :=
  fun x hx => h x fun hin => hx ⟨h₁.trans hin.1, hin.2.trans_le h₂⟩

theorem store (h₁ : a ≤ b) (h₂ : b + w ≤ a + n) :
    Only a n m (store w m b v) :=
  mono (fun _ hx => store_apply_of_not hx) h₁ h₂

end Only

/-- `m'` differs from `m` only in the `n` bytes from each of `hs` on. -/
def OnlyAt (hs : List Nat) (n : Nat) (m m' : Mem) : Prop :=
  ∀ x, (∀ h ∈ hs, ¬ (h ≤ x ∧ x < h + n)) → m' x = m x

namespace OnlyAt

variable {m'' : Mem} {hs hs' : List Nat} {k : Nat}

theorem refl (hs : List Nat) (n : Nat) (m : Mem) : OnlyAt hs n m m :=
  fun _ _ => rfl

theorem trans (h : OnlyAt hs n m m') (h' : OnlyAt hs n m' m'') :
    OnlyAt hs n m m'' := fun x hx => (h' x hx).trans (h x hx)

theorem mono (h : OnlyAt hs k m m') (hsub : ∀ a ∈ hs, a ∈ hs')
    (hk : k ≤ n) : OnlyAt hs' n m m' :=
  fun x hx => h x fun a ha hin => hx a (hsub a ha) ⟨hin.1, by omega⟩

theorem of_only (h : Only b k m m') (ha : a ∈ hs) (h₁ : a ≤ b)
    (h₂ : b + k ≤ a + n) : OnlyAt hs n m m' :=
  fun x hx => h x fun hin => hx a ha ⟨by omega, by omega⟩

end OnlyAt

-- ============================================================== loading

/-- A load reads only its own window. -/
theorem load_congr (h : ∀ x, a ≤ x → x < a + w → m x = m' x) :
    load w m a = load w m' a := by
  induction w generalizing a with
  | zero => rfl
  | succ w ih =>
      rw [load, load, h a le_rfl (by omega)]
      rw [ih fun x h₁ h₂ => h x (by omega) (by omega)]

/-- A change elsewhere is not seen. -/
theorem Only.load (h : Only b n m m') (hd : a + w ≤ b ∨ b + n ≤ a) :
    load w m' a = load w m a :=
  load_congr fun x h₁ h₂ => h x fun hin => by omega

theorem OnlyAt.load {hs : List Nat} (h : OnlyAt hs n m m')
    (hd : ∀ b ∈ hs, a + w ≤ b ∨ b + n ≤ a) : load w m' a = load w m a :=
  load_congr fun x h₁ h₂ => h x fun b hb hin => by
    have := hd b hb
    omega

theorem load_lt : load w m a < 256 ^ w := by
  induction w generalizing a with
  | zero => exact Nat.one_pos
  | succ w ih =>
      have hb := (m a).toNat_lt
      have hr := ih (a := a + 1)
      rw [load, Nat.pow_succ]
      omega

/-- A window that holds the bytes of `v` is read as `v`. -/
theorem load_of_bytes
    (h : ∀ i < w, (m (a + i)).toNat = v / 256 ^ i % 256) :
    load w m a = v % 256 ^ w := by
  induction w generalizing a v with
  | zero => rw [load, Nat.pow_zero, Nat.mod_one]
  | succ w ih =>
      have h₀ := h 0 (by omega)
      rw [Nat.add_zero, Nat.pow_zero, Nat.div_one] at h₀
      have hrest : load w m (a + 1) = v / 256 % 256 ^ w := by
        refine ih fun i hi => ?_
        rw [Nat.add_assoc, Nat.add_comm 1 i, h (i + 1) (by omega),
          Nat.pow_succ, Nat.mul_comm, ← Nat.div_div_eq_div_mul]
      rw [load, h₀, hrest, Nat.pow_succ, Nat.mul_comm (256 ^ w), Nat.mod_mul]

theorem load_store_mod : load w (store w m a v) a = v % 256 ^ w := by
  refine load_of_bytes fun i hi => ?_
  rw [store, if_pos ⟨by omega, by omega⟩, Nat.add_sub_cancel_left]
  exact UInt8.toNat_ofNat'

/-- A value that fits is read back. -/
theorem load_store (h : v < 256 ^ w) : load w (store w m a v) a = v := by
  rw [load_store_mod, Nat.mod_eq_of_lt h]

/-- A load next to a store is not affected by it. -/
theorem load_store_of_disjoint {w' : Nat} (h : b + w' ≤ a ∨ a + w ≤ b) :
    load w' (store w m a v) b = load w' m b := by
  refine load_congr fun x h₁ h₂ => store_apply_of_not ?_
  omega

/-- A load is zero exactly when every byte of its window is. -/
theorem load_eq_zero_iff :
    load w m a = 0 ↔ ∀ x, a ≤ x → x < a + w → m x = 0 := by
  induction w generalizing a with
  | zero => exact ⟨fun _ x h₁ h₂ => by omega, fun _ => rfl⟩
  | succ w ih =>
      rw [load]
      constructor
      · intro h x h₁ h₂
        rcases Nat.eq_or_lt_of_le h₁ with rfl | hlt
        · exact UInt8.toNat_inj.1 (by rw [UInt8.toNat_zero]; omega)
        · have hrest : load w m (a + 1) = 0 := by omega
          exact ih.1 hrest x hlt (by omega)
      · intro h
        have h₀ : m a = 0 := h a le_rfl (by omega)
        rw [h₀, ih.2 fun x h₁ h₂ => h x (by omega) (by omega)]
        rfl

end Mem
