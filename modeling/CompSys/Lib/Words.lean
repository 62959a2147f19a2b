import CompSys.Lib.Bytes
import CompSys.Lib.Extents

/-! # Words in a byte memory

`load` and `store` read and write the four bytes from an address on, least significant first. A word
that was just stored is read back (`load_store`), and a store, or a write of one byte, leaves the
words alone that are apart from it (`load_store_apart`, `load_update_apart`). -/

namespace CompSys.Lib.Words

open CompSys.Lib.Bytes CompSys.Lib.Extents

/-- A byte for every address. -/
abbrev Memory := BitVec 32 → BitVec 8

/-- The word at `a`. -/
def load (m : Memory) (a : BitVec 32) : BitVec 32 := word (m a) (m (a + 1#32)) (m (a + 2#32)) (m (a + 3#32))

/-- Memory with the word `v` at `a`. -/
def store (m : Memory) (a v : BitVec 32) : Memory := fun x =>
  if (x - a).toNat < 4 then byteOf v (x - a).toNat else m x

/-- The extent of the word at `a`. -/
def wordAt (a : BitVec 32) : Extent := ⟨a.toNat, 4⟩

/-- **The word just stored.** -/
theorem load_store (m : Memory) (a v : BitVec 32) : load (store m a v) a = v := by
  have h1 : (a + 1#32 - a).toNat = 1 := by bv_omega
  have h2 : (a + 2#32 - a).toNat = 2 := by bv_omega
  have h3 : (a + 3#32 - a).toNat = 3 := by bv_omega
  simp only [load, store, h1, h2, h3, BitVec.sub_self, BitVec.toNat_zero, Nat.zero_lt_succ, if_true,
    show 1 < 4 by omega, show 2 < 4 by omega, show 3 < 4 by omega]
  exact word_byteOf v

/-- A store where there is no address of the word. -/
theorem store_apart (m : Memory) (v : BitVec 32) {a x y : BitVec 32} (ha : a.toNat + 4 ≤ 2 ^ 32)
    (hx : x.toNat + 4 ≤ 2 ^ 32) (h : Apart (wordAt x) (wordAt a)) (hy : (y - x).toNat < 4) :
    store m a v y = m y := by
  have hne : ¬ (y - a).toNat < 4 := by
    unfold Apart wordAt Extent.stop at h
    bv_omega
  simp only [store, if_neg hne]

/-- **A store leaves the words apart from it alone.** -/
theorem load_store_apart (m : Memory) (v : BitVec 32) {a x : BitVec 32} (ha : a.toNat + 4 ≤ 2 ^ 32)
    (hx : x.toNat + 4 ≤ 2 ^ 32) (h : Apart (wordAt x) (wordAt a)) :
    load (store m a v) x = load m x := by
  unfold load
  rw [store_apart m v ha hx h (by bv_omega), store_apart m v ha hx h (by bv_omega),
    store_apart m v ha hx h (by bv_omega), store_apart m v ha hx h (by bv_omega)]

/-- A write of one byte leaves the words alone that it is not in. -/
theorem load_update_apart (m : Memory) (v : BitVec 8) {a x : BitVec 32} (hx : x.toNat + 4 ≤ 2 ^ 32)
    (h : Apart (wordAt x) ⟨a.toNat, 1⟩) : load (Function.update m a v) x = load m x := by
  have hne : ∀ y : BitVec 32, (y - x).toNat < 4 → y ≠ a := by
    rintro y hy rfl
    unfold Apart wordAt Extent.stop at h
    bv_omega
  unfold load
  rw [Function.update_of_ne (hne _ (by bv_omega)), Function.update_of_ne (hne _ (by bv_omega)),
    Function.update_of_ne (hne _ (by bv_omega)), Function.update_of_ne (hne _ (by bv_omega))]

end CompSys.Lib.Words
