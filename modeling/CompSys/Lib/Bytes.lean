import Mathlib.Tactic

/-! # Bytes of 32-bit words

`byteOf w k` is byte `k` of a word, least significant first; `half` and `word` compose bytes. A word
is composed of its four bytes (`word_byteOf`). `swap` turns the byte order around. -/

namespace CompSys.Lib.Bytes

/-- Byte `k` of a 32-bit word, least significant first. -/
def byteOf (w : BitVec 32) (k : ℕ) : BitVec 8 := w.extractLsb' (8 * k) 8

/-- Two bytes, least significant first, as a zero-extended halfword. -/
def half (b0 b1 : BitVec 8) : BitVec 32 := b0.setWidth 32 ||| b1.setWidth 32 <<< 8

/-- Four bytes, least significant first, as a word. -/
def word (b0 b1 b2 b3 : BitVec 8) : BitVec 32 :=
  b0.setWidth 32 ||| b1.setWidth 32 <<< 8 ||| b2.setWidth 32 <<< 16 ||| b3.setWidth 32 <<< 24

theorem word_byteOf (w : BitVec 32) :
    word (byteOf w 0) (byteOf w 1) (byteOf w 2) (byteOf w 3) = w := by
  unfold word byteOf
  refine BitVec.eq_of_getLsbD_eq fun i hi => ?_
  interval_cases i <;> simp

/-- **The bytes of a composed word.** -/
theorem byteOf_word (b0 b1 b2 b3 : BitVec 8) :
    byteOf (word b0 b1 b2 b3) 0 = b0 ∧ byteOf (word b0 b1 b2 b3) 1 = b1 ∧
      byteOf (word b0 b1 b2 b3) 2 = b2 ∧ byteOf (word b0 b1 b2 b3) 3 = b3 := by
  unfold word byteOf
  refine ⟨?_, ?_, ?_, ?_⟩ <;>
  · refine BitVec.eq_of_getLsbD_eq fun i hi => ?_
    interval_cases i <;> simp

theorem byteOf_setWidth (b : BitVec 8) : byteOf (b.setWidth 32) 0 = b := by
  unfold byteOf
  refine BitVec.eq_of_getLsbD_eq fun i hi => ?_
  interval_cases i <;> simp

theorem byteOf_half (b0 b1 : BitVec 8) : byteOf (half b0 b1) 0 = b0 := by
  unfold half byteOf
  refine BitVec.eq_of_getLsbD_eq fun i hi => ?_
  interval_cases i <;> simp

theorem half_byteOf (w : BitVec 32) : half (byteOf w 0) (byteOf w 1) = (w.setWidth 16).setWidth 32 := by
  unfold half byteOf
  refine BitVec.eq_of_getLsbD_eq fun i hi => ?_
  interval_cases i <;> simp

/-- The four bytes in the other order. -/
def swap (w : BitVec 32) : BitVec 32 := word (byteOf w 3) (byteOf w 2) (byteOf w 1) (byteOf w 0)

@[simp] theorem swap_swap (w : BitVec 32) : swap (swap w) = w := by
  obtain ⟨h0, h1, h2, h3⟩ := byteOf_word (byteOf w 3) (byteOf w 2) (byteOf w 1) (byteOf w 0)
  unfold swap
  rw [h0, h1, h2, h3]
  exact word_byteOf w

@[simp] theorem byteOf_zero (k : ℕ) : byteOf 0#32 k = 0#8 := by
  unfold byteOf; simp

end CompSys.Lib.Bytes
