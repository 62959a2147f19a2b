import CompSys.Lib.Words

/-! # The allocator for small blocks

`init_heap`, `allocate` and `release` of `lib.c`, with 32-bit pointers. A block starts with one word:
the link to the next free block of its size while it is free, its size while it is in use; `allocate`
returns the address after that word. A read or a write outside `small_block_headers` is `none`, and so
is a loop that is still running when the fuel is used up. -/

namespace CompSys.A6.Alloc

open CompSys.Lib.Words

abbrev Word := BitVec 32

def smallBlockLimit : ℕ := 4096
def minAllocation : Word := 100#32
def blockSizeStep : ℕ := 8
def numSizes : ℕ := smallBlockLimit / blockSizeStep

/-- The memory and the three globals of the allocator. -/
structure Heap where
  mem : Memory
  smallBlockHeaders : Fin numSizes → Word
  freeSpace : Word
  initialized : Bool

def initHeap (h : Heap) (heapStart : Word) : Heap :=
  { h with initialized := false, freeSpace := heapStart }

/-- `if (!initialized)`: the first call clears the headers. -/
def clearHeaders (h : Heap) : Heap :=
  if !h.initialized then { h with initialized := true, smallBlockHeaders := fun _ => 0#32 } else h

/-- `small_block_headers + num_size`. -/
def header? (numSize : Word) : Option (Fin numSizes) :=
  if h : numSize.toNat < numSizes then some ⟨numSize.toNat, h⟩ else none

/-- Room for the size in front, rounded up to a multiple of the step. -/
def alignSize (size : Word) : Word :=
  let size := size + 4#32
  let offset := size &&& (BitVec.ofNat 32 blockSizeStep - 1#32)
  if offset ≠ 0#32 then (size &&& ~~~offset) + BitVec.ofNat 32 blockSizeStep else size

/-- The bytes of a new chunk. -/
def chunkSize (size : Word) : Word :=
  let allocation := size * 10#32
  if allocation.slt minAllocation then
    let numChunks := minAllocation.sdiv size
    numChunks * size
  else allocation

/-- `while (end_chunk >= chunk)`: the header and the memory after it. -/
def carve (chunk size : Word) : ℕ → Word → Word → Memory → Option (Word × Memory)
  | 0, _, _, _ => none
  | fuel + 1, endChunk, header, mem =>
    if chunk ≤ endChunk then
      carve chunk size fuel (endChunk - size) endChunk (store mem endChunk header)
    else some (header, mem)

/-- `if (*header == NULL)`: a new chunk, split into blocks. -/
def refill (fuel : ℕ) (h : Heap) (k : Fin numSizes) (size : Word) : Option Heap :=
  if h.smallBlockHeaders k = 0#32 then
    let allocation := chunkSize size
    let chunk := h.freeSpace
    let endChunk := chunk + allocation
    (carve chunk size fuel (endChunk - size) (h.smallBlockHeaders k) h.mem).map fun r =>
      { h with
        mem := r.2
        smallBlockHeaders := Function.update h.smallBlockHeaders k r.1
        freeSpace := endChunk }
  else some h

/-- The first block of the list is unlinked and its size saved in it. -/
def unlink (h : Heap) (k : Fin numSizes) (size : Word) : Word × Heap :=
  let block := h.smallBlockHeaders k
  (block + 4#32,
    { h with
      smallBlockHeaders := Function.update h.smallBlockHeaders k (load h.mem block)
      mem := store h.mem block size })

def allocate (fuel : ℕ) (h : Heap) (size : Word) : Option (Word × Heap) :=
  let h := clearHeaders h
  if size.slt 1#32 then some (0#32, h)
  else
    let size := alignSize size
    let numSize := size.sdiv (BitVec.ofNat 32 blockSizeStep)
    if (BitVec.ofNat 32 numSizes).sle numSize then some (0#32, h)
    else do
      let k ← header? numSize
      let h ← refill fuel h k size
      some (unlink h k size)

def release (h : Heap) (memory : Word) : Option Heap := do
  let chunk := memory - 4#32
  let size := load h.mem chunk
  let k ← header? (size.sdiv (BitVec.ofNat 32 blockSizeStep))
  some
    { h with
      mem := store h.mem chunk (h.smallBlockHeaders k)
      smallBlockHeaders := Function.update h.smallBlockHeaders k chunk }

/-! ### Sizes

What the size arithmetic comes to, for the requests that are served. -/

/-- The size of the block for a request: four bytes more, rounded up. -/
def blockSize (n : ℕ) : ℕ := (n + 4 + 7) / 8 * 8

/-- How many blocks of a size a chunk has. -/
def blockCount (s : ℕ) : ℕ := if s < 10 then 100 / s else 10

theorem blockSize_bounds {n : ℕ} (h1 : 1 ≤ n) (h2 : n ≤ 4084) :
    8 ≤ blockSize n ∧ blockSize n ≤ 4088 ∧ blockSize n % 8 = 0 ∧ n + 4 ≤ blockSize n := by
  unfold blockSize
  omega

theorem blockCount_bounds {s : ℕ} (h : 8 ≤ s) (hs : s ≤ 4088) :
    10 ≤ blockCount s ∧ blockCount s ≤ 12 ∧ blockCount s * s ≤ 40880 := by
  unfold blockCount
  split_ifs with h10
  · interval_cases s <;> omega
  · omega

/-- Clearing bits that are set takes their value away. -/
theorem and_not_and (x y : Word) : (x &&& ~~~(x &&& y)) + (x &&& y) = x := by
  rw [BitVec.add_eq_or_of_and_eq_zero]
  · refine BitVec.eq_of_getLsbD_eq fun i hi => ?_
    simp only [BitVec.getLsbD_or, BitVec.getLsbD_and, BitVec.getLsbD_not, hi]
    cases x.getLsbD i <;> cases y.getLsbD i <;> rfl
  · refine BitVec.eq_of_getLsbD_eq fun i hi => ?_
    simp only [BitVec.getLsbD_and, BitVec.getLsbD_not, hi, BitVec.getLsbD_zero]
    cases x.getLsbD i <;> cases y.getLsbD i <;> rfl

/-- The bits below the step. -/
theorem toNat_offset {n : ℕ} (h : n < 2 ^ 32) :
    (BitVec.ofNat 32 n &&& (BitVec.ofNat 32 blockSizeStep - 1#32)).toNat = n % 8 := by
  rw [BitVec.toNat_and, show (BitVec.ofNat 32 blockSizeStep - 1#32).toNat = 2 ^ 3 - 1 by decide,
    Nat.and_two_pow_sub_one_eq_mod, BitVec.toNat_ofNat, Nat.mod_eq_of_lt h]

/-- Without them. -/
theorem toNat_cut {n : ℕ} (h : n < 2 ^ 32) :
    (BitVec.ofNat 32 n &&& ~~~(BitVec.ofNat 32 n &&& (BitVec.ofNat 32 blockSizeStep - 1#32))).toNat =
      n / 8 * 8 := by
  have hoff := toNat_offset h
  have hcut := and_not_and (BitVec.ofNat 32 n) (BitVec.ofNat 32 blockSizeStep - 1#32)
  generalize BitVec.ofNat 32 n &&& (BitVec.ofNat 32 blockSizeStep - 1#32) = offset at *
  generalize BitVec.ofNat 32 n &&& ~~~offset = cut at *
  bv_omega

/-- **Rounding up**, while the rounded size is an `int`. -/
theorem alignSize_eq {n : ℕ} (h : n ≤ 2147483636) :
    alignSize (BitVec.ofNat 32 n) = BitVec.ofNat 32 (blockSize n) := by
  have hsize : BitVec.ofNat 32 n + 4#32 = BitVec.ofNat 32 (n + 4) := by bv_omega
  have hoff := toNat_offset (show n + 4 < 2 ^ 32 by omega)
  have hcut := toNat_cut (show n + 4 < 2 ^ 32 by omega)
  unfold alignSize blockSize
  simp only [hsize, ne_eq, ite_not]
  generalize BitVec.ofNat 32 (n + 4) &&& (BitVec.ofNat 32 blockSizeStep - 1#32) = offset at *
  generalize BitVec.ofNat 32 (n + 4) &&& ~~~offset = cut at *
  have hstep : BitVec.ofNat 32 blockSizeStep = 8#32 := rfl
  rw [hstep]
  split_ifs with h0
  · subst h0
    bv_omega
  · bv_omega

theorem toInt_ofNat {n : ℕ} (h : n < 2 ^ 31) : (BitVec.ofNat 32 n).toInt = n := by
  have hn : (BitVec.ofNat 32 n).toNat = n := by
    rw [BitVec.toNat_ofNat]
    omega
  rw [BitVec.toInt_eq_toNat_of_lt (by rw [hn]; omega), hn]

theorem sdiv_step {s : ℕ} (hs : s < 2 ^ 31) :
    (BitVec.ofNat 32 s).sdiv (BitVec.ofNat 32 blockSizeStep) = BitVec.ofNat 32 (s / 8) := by
  have hmsb : (BitVec.ofNat 32 s).msb = false := by
    rw [BitVec.msb_eq_decide, BitVec.toNat_ofNat]
    simp only [decide_eq_false_iff_not, not_le]
    omega
  have hstep : (BitVec.ofNat 32 blockSizeStep).msb = false := by decide
  refine BitVec.eq_of_toNat_eq ?_
  rw [BitVec.sdiv_eq, hmsb, hstep]
  simp only [BitVec.udiv_eq, BitVec.toNat_udiv, BitVec.toNat_ofNat, blockSizeStep]
  rw [Nat.mod_eq_of_lt (show s < 2 ^ 32 by omega), Nat.mod_eq_of_lt (show 8 < 2 ^ 32 by omega),
    Nat.mod_eq_of_lt (show s / 8 < 2 ^ 32 by omega)]

theorem header?_eq {k : ℕ} (hk : k < numSizes) : header? (BitVec.ofNat 32 k) = some ⟨k, hk⟩ := by
  have h : (BitVec.ofNat 32 k).toNat = k := by
    have : numSizes = 512 := rfl
    rw [BitVec.toNat_ofNat]
    omega
  simp only [header?, h, dif_pos hk]

theorem chunkSize_eq {s : ℕ} (h : 8 ≤ s) (hs : s ≤ 4088) :
    chunkSize (BitVec.ofNat 32 s) = BitVec.ofNat 32 (blockCount s * s) := by
  have hmul : BitVec.ofNat 32 s * 10#32 = BitVec.ofNat 32 (s * 10) := by
    rw [BitVec.ofNat_mul]
  unfold chunkSize blockCount
  simp only [hmul]
  have hslt : (BitVec.ofNat 32 (s * 10)).slt minAllocation = decide (s * 10 < 100) := by
    unfold minAllocation
    rw [BitVec.slt_eq_decide]
    rw [toInt_ofNat (show s * 10 < 2 ^ 31 by omega), toInt_ofNat (show 100 < 2 ^ 31 by omega)]
    exact decide_eq_decide.mpr Nat.cast_lt
  rw [hslt]
  by_cases h10 : s < 10
  · rw [if_pos h10, if_pos (by simp only [decide_eq_true_eq]; omega)]
    interval_cases s <;> decide
  · rw [if_neg h10, if_neg (by simp only [decide_eq_true_eq]; omega), Nat.mul_comm]

end CompSys.A6.Alloc
