import Mathlib.Data.Nat.Bitwise
import Mathlib.Data.Nat.Log
import Mathlib.Tactic.Linarith
import Mathlib.Tactic.Ring

/-!
# In-order numbers of the nodes of a perfect binary tree

The nodes of a perfect binary tree are numbered from left to right, leaves and inner nodes mixed:
the leaves have the even numbers, and the node at position `p` of level `k` has the number whose
binary digits are those of `p`, a zero and `k` ones.
-/

namespace EmulatedMls

/-- The number of the node at position `p` of level `k`. -/
def inorder : ℕ → ℕ → ℕ
  | 0, p => 2 * p
  | k + 1, p => 2 * inorder k p + 1

@[simp] lemma inorder_zero (p : ℕ) : inorder 0 p = 2 * p := rfl

lemma inorder_succ (k p : ℕ) : inorder (k + 1) p = 2 * inorder k p + 1 := rfl

lemma inorder_add_one (k p : ℕ) : inorder k p + 1 = 2 ^ k * (2 * p + 1) := by
  induction k with
  | zero => simp
  | succ k ih =>
    rw [inorder_succ, pow_succ]
    linarith

variable {k p : ℕ}

lemma inorder_inj {k' p' : ℕ} (h : inorder k p = inorder k' p') : k = k' ∧ p = p' := by
  induction k generalizing k' with
  | zero =>
    cases k' with
    | zero => exact ⟨rfl, by simpa using h⟩
    | succ k' => simp only [inorder_zero, inorder_succ] at h; omega
  | succ k ih =>
    cases k' with
    | zero => simp only [inorder_zero, inorder_succ] at h; omega
    | succ k' =>
      have hk : inorder k p = inorder k' p' := by simp only [inorder_succ] at h; omega
      obtain ⟨rfl, rfl⟩ := ih hk
      exact ⟨rfl, rfl⟩

lemma exists_inorder (x : ℕ) : ∃ k p, x = inorder k p := by
  induction x using Nat.strong_induction_on with
  | _ x ih =>
    rcases Nat.even_or_odd' x with ⟨y, rfl | rfl⟩
    · exact ⟨0, y, rfl⟩
    · obtain ⟨k, p, hy⟩ := ih y (by omega)
      exact ⟨k + 1, p, by rw [inorder_succ, ← hy]⟩

/-- The nodes of a tree of depth `d` have the numbers below `2 ^ (d + 1) - 1`. -/
lemma inorder_lt_iff {d : ℕ} : inorder k p + 1 < 2 ^ (d + 1) ↔ k ≤ d ∧ p < 2 ^ (d - k) := by
  rw [inorder_add_one]
  constructor
  · intro h
    have hk : k ≤ d := by
      by_contra hlt
      have hpow : 2 ^ (d + 1) ≤ 2 ^ k := Nat.pow_le_pow_right (by omega) (by omega)
      have : 2 ^ k ≤ 2 ^ k * (2 * p + 1) := Nat.le_mul_of_pos_right _ (by omega)
      omega
    obtain ⟨e, rfl⟩ := Nat.exists_eq_add_of_le hk
    rw [Nat.add_sub_cancel_left]
    rw [show k + e + 1 = k + (e + 1) by omega, pow_add] at h
    have := Nat.lt_of_mul_lt_mul_left h
    omega
  · rintro ⟨hk, hp⟩
    obtain ⟨e, rfl⟩ := Nat.exists_eq_add_of_le hk
    rw [Nat.add_sub_cancel_left] at hp
    rw [show k + e + 1 = k + (e + 1) by omega, pow_add]
    refine Nat.mul_lt_mul_of_pos_left ?_ (by positivity)
    omega

/-- The tree of depth `n` has a node at position `p` of level `k`. -/
def InTree (n k p : ℕ) : Prop := k ≤ n ∧ p < 2 ^ (n - k)

namespace InTree

variable {n k p : ℕ}

lemma lt_iff : inorder k p < 2 ^ (n + 1) - 1 ↔ InTree n k p := by
  rw [InTree, ← inorder_lt_iff]
  omega

lemma leaf (h : p < 2 ^ n) : InTree n 0 p := ⟨Nat.zero_le n, h⟩

lemma root (n : ℕ) : InTree n n 0 := ⟨le_refl n, by positivity⟩

lemma children (h : InTree n (k + 1) p) : InTree n k (2 * p) ∧ InTree n k (2 * p + 1) := by
  obtain ⟨hk, hp⟩ := h
  rw [InTree, InTree, show n - k = n - (k + 1) + 1 by omega, pow_succ]
  exact ⟨⟨by omega, by omega⟩, by omega, by omega⟩

lemma parent (h : InTree n k p) (hk : k < n) : InTree n (k + 1) (p / 2) := by
  have hp := h.2
  rw [show n - k = n - (k + 1) + 1 by omega, pow_succ] at hp
  exact ⟨hk, by omega⟩

lemma eq_root (h : InTree n n p) : p = 0 := by
  simpa [InTree] using h

lemma last_leaf (h : InTree n k p) : p * 2 ^ k + (2 ^ k - 1) < 2 ^ n := by
  have hpow : 2 ^ (n - k) * 2 ^ k = 2 ^ n := by rw [← pow_add, Nat.sub_add_cancel h.1]
  have hle : (p + 1) * 2 ^ k ≤ 2 ^ (n - k) * 2 ^ k := Nat.mul_le_mul_right _ h.2
  have hpos : 0 < 2 ^ k := by positivity
  rw [add_mul, one_mul] at hle
  omega

end InTree

/-- The root of a tree of depth `d`. -/
lemma inorder_root (d : ℕ) : inorder d 0 = 2 ^ d - 1 := by
  have := inorder_add_one d 0
  omega

/-! ## Digits -/

lemma testBit_inorder (k p j : ℕ) :
    (inorder k p).testBit j = (decide (j < k) || (decide (k < j) && p.testBit (j - k - 1))) := by
  induction k generalizing j with
  | zero =>
    cases j with
    | zero => simp
    | succ j => simp [Nat.testBit_succ]
  | succ k ih =>
    cases j with
    | zero => simp [inorder_succ]
    | succ j =>
      rw [inorder_succ, Nat.testBit_succ]
      have : (2 * inorder k p + 1) / 2 = inorder k p := by omega
      rw [this, ih]
      simp

/-- The digits of a node end with one `1` for each level. -/
lemma shiftRight_inorder_and_one {j : ℕ} (h : j ≤ k) : inorder k p >>> j &&& 1 = 1 ↔ j < k := by
  have hbit : (inorder k p).testBit j = decide (j < k) := by
    rw [testBit_inorder]
    simp
    omega
  rw [Nat.testBit_eq_decide_div_mod_eq, decide_eq_decide] at hbit
  rw [Nat.and_one_is_mod, Nat.shiftRight_eq_div_pow]
  exact hbit

lemma shiftRight_inorder_succ_and_one (k p : ℕ) : inorder k p >>> (k + 1) &&& 1 = p % 2 := by
  rw [Nat.and_one_is_mod, Nat.shiftRight_eq_div_pow]
  have hdiv : inorder k p / 2 ^ (k + 1) = p := by
    have := inorder_add_one k p
    have hpos : 0 < 2 ^ k := by positivity
    refine Nat.div_eq_of_lt_le ?_ ?_
    · rw [pow_succ]
      linarith
    · rw [pow_succ]
      linarith
  rw [hdiv]

lemma xor_odd_even (a b : ℕ) : (2 * a + 1) ^^^ (2 * b) = 2 * (a ^^^ b) + 1 := by
  refine Nat.eq_of_testBit_eq fun j => ?_
  cases j with
  | zero => simp
  | succ j =>
    rw [Nat.testBit_xor, Nat.testBit_succ, Nat.testBit_succ, Nat.testBit_succ,
      show (2 * a + 1) / 2 = a by omega, show 2 * b / 2 = b by omega,
      show (2 * (a ^^^ b) + 1) / 2 = a ^^^ b by omega, Nat.testBit_xor]

lemma xor_odd_odd (a b : ℕ) : (2 * a + 1) ^^^ (2 * b + 1) = 2 * (a ^^^ b) := by
  refine Nat.eq_of_testBit_eq fun j => ?_
  cases j with
  | zero =>
    simp
    omega
  | succ j =>
    rw [Nat.testBit_xor, Nat.testBit_succ, Nat.testBit_succ, Nat.testBit_succ,
      show (2 * a + 1) / 2 = a by omega, show (2 * b + 1) / 2 = b by omega,
      show 2 * (a ^^^ b) / 2 = a ^^^ b by omega, Nat.testBit_xor]

lemma or_odd_even (a b : ℕ) : (2 * a + 1) ||| (2 * b) = 2 * (a ||| b) + 1 := by
  refine Nat.eq_of_testBit_eq fun j => ?_
  cases j with
  | zero => simp
  | succ j =>
    rw [Nat.testBit_or, Nat.testBit_succ, Nat.testBit_succ, Nat.testBit_succ,
      show (2 * a + 1) / 2 = a by omega, show 2 * b / 2 = b by omega,
      show (2 * (a ||| b) + 1) / 2 = a ||| b by omega, Nat.testBit_or]

lemma double_xor_one (a : ℕ) : (2 * a) ^^^ 1 = 2 * a + 1 := by
  have := xor_odd_even 0 a
  rwa [Nat.zero_xor, Nat.xor_comm] at this

lemma double_or_one (a : ℕ) : (2 * a) ||| 1 = 2 * a + 1 := by
  have := or_odd_even 0 a
  rwa [Nat.zero_or, Nat.or_comm] at this

lemma xor_mod_two (a : ℕ) : a ^^^ (a % 2) = 2 * (a / 2) := by
  rcases Nat.even_or_odd' a with ⟨b, rfl | rfl⟩
  · rw [show 2 * b % 2 = 0 by omega, Nat.xor_zero, show 2 * b / 2 = b by omega]
  · have := xor_odd_odd b 0
    rw [show (2 * b + 1) % 2 = 2 * 0 + 1 by omega, this, Nat.xor_zero,
      show (2 * b + 1) / 2 = b by omega]

lemma shiftLeft_succ_eq (a k : ℕ) : a <<< (k + 1) = 2 * (a <<< k) := by
  rw [Nat.shiftLeft_eq, Nat.shiftLeft_eq, pow_succ]
  ring

/-! ## Neighbours -/

/-- The left child: the last `1` becomes `0`. -/
lemma xor_left (k p : ℕ) : inorder (k + 1) p ^^^ (1 <<< k) = inorder k (2 * p) := by
  induction k with
  | zero =>
    have := xor_odd_odd (2 * p) 0
    rwa [Nat.xor_zero] at this
  | succ k ih => rw [inorder_succ, shiftLeft_succ_eq, xor_odd_even, ih, inorder_succ]

/-- The right child: the last `01` becomes `10`. -/
lemma xor_right (k p : ℕ) : inorder (k + 1) p ^^^ (3 <<< k) = inorder k (2 * p + 1) := by
  induction k with
  | zero =>
    have := xor_odd_odd (2 * p) 1
    rwa [double_xor_one] at this
  | succ k ih => rw [inorder_succ, shiftLeft_succ_eq, xor_odd_even, ih, inorder_succ]

/-- The parent: the separating `0` becomes `1` and the digit above it becomes `0`. -/
lemma or_xor_parent (k p : ℕ) :
    (inorder k p ||| (1 <<< k)) ^^^ ((p % 2) <<< (k + 1)) = inorder (k + 1) (p / 2) := by
  induction k with
  | zero =>
    rw [inorder_zero, Nat.shiftLeft_zero, double_or_one, shiftLeft_succ_eq, Nat.shiftLeft_zero,
      xor_odd_even, xor_mod_two, inorder_succ, inorder_zero]
  | succ k ih =>
    rw [inorder_succ, shiftLeft_succ_eq, or_odd_even, shiftLeft_succ_eq (p % 2), xor_odd_even, ih,
      inorder_succ (k + 1)]

lemma inorder_sub_leftmost (k p : ℕ) : inorder k p + 1 - 1 <<< k = 2 * (p * 2 ^ k) := by
  rw [inorder_add_one, Nat.one_shiftLeft, mul_add, mul_one, Nat.add_sub_cancel]
  ring

end EmulatedMls
