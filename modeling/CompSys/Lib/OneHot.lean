import CompSys.Lib.Prefix

/-! # One-hot words

32-bit words with a single bit set, as C code uses them for bit positions: shifting them, comparing
them as `int`s and testing a bit with them. -/

namespace CompSys.Lib.OneHot

open CompSys.Lib.Prefix

/-- `1 << k`. -/
def oneHot (k : ℕ) : BitVec 32 := 1#32 <<< k

theorem oneHot_slt {j k : ℕ} (hj : j < 31) (hk : k < 31) :
    (oneHot j).slt (oneHot k) = decide (j < k) := by
  have h : ∀ j < 31, ∀ k < 31, (oneHot j).slt (oneHot k) = decide (j < k) := by decide +kernel
  exact h j hj k hk

theorem oneHot_succ_sshiftRight {k : ℕ} (hk : k < 30) :
    (oneHot (k + 1)).sshiftRight 1 = oneHot k := by
  have h : ∀ k < 30, (oneHot (k + 1)).sshiftRight 1 = oneHot k := by decide +kernel
  exact h k hk

theorem oneHot_ne_one {k : ℕ} (hk : 1 ≤ k) (hk' : k < 32) : oneHot k ≠ 1#32 := by
  have h : ∀ k < 32, 1 ≤ k → oneHot k ≠ 1#32 := by decide +kernel
  exact h k hk' hk

theorem getLsbD_oneHot {j k : ℕ} (hk : k < 32) : (oneHot k).getLsbD j = decide (j = k) := by
  unfold oneHot
  rw [BitVec.getLsbD_shiftLeft, BitVec.getLsbD_one]
  rcases Nat.lt_trichotomy j k with h | h | h
  · simp [h, h.ne]
  · simp [h, hk]
  · simp [h.ne', show ¬ j < k by omega, show ¬ j - k = 0 by omega]

/-- **Testing a bit.** -/
theorem oneHot_and_eq_zero {k : ℕ} (hk : k < 32) (v : BitVec 32) :
    oneHot k &&& v = 0#32 ↔ v.toNat.testBit k = false := by
  rw [BitVec.testBit_toNat]
  constructor
  · intro h
    have hb := congrArg (fun w => w.getLsbD k) h
    simpa [getLsbD_oneHot hk] using hb
  · intro h
    refine BitVec.eq_of_getLsbD_eq fun i _ => ?_
    rw [BitVec.getLsbD_and, getLsbD_oneHot hk]
    by_cases hi : i = k
    · simp [hi, h]
    · simp [hi]

end CompSys.Lib.OneHot
