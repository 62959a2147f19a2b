import CompSys.A6.AllocHeap

/-! # The size arithmetic of `allocate` (`A6/handout/lib.c`)

A request is made larger and rounded up before it is compared with the largest size, so the sum may be no `int`. For a
request that is at most `2147483636` every sum and product is one, and the block has room for the request; for the
others the rounded size wraps around, and is negative (`sized_iff`). -/

namespace CompSys.A6.AllocSizes

open CompSys.A6.Alloc CompSys.A6.AllocHeap

/-- `num_size`. -/
def numSize (size : Word) : Word := (alignSize size).sdiv (BitVec.ofNat 32 blockSizeStep)

/-- The products for a new chunk of blocks of this size, as integers. -/
def chunkValues (size : Word) : List ℤ :=
  (size.toInt * 10) ::
    if (size * 10#32).slt minAllocation then [(minAllocation.sdiv size).toInt * size.toInt] else []

/-- The sums and products of `allocate`, as integers. -/
def values (h : Heap) (size : Word) : List ℤ :=
  if size.slt 1#32 then []
  else
    let sum := size + 4#32
    let offset := sum &&& (BitVec.ofNat 32 blockSizeStep - 1#32)
    (size.toInt + 4) ::
      ((if offset ≠ 0#32 then [(sum &&& ~~~offset).toInt + blockSizeStep] else []) ++
        if (BitVec.ofNat 32 numSizes).sle (numSize size) then []
        else
          match header? (numSize size) with
          | none => []
          | some k => if (clearHeaders h).smallBlockHeaders k = 0#32 then chunkValues (alignSize size) else [])

/-- The integer is an `int`. -/
def IsInt (v : ℤ) : Prop := -2 ^ 31 ≤ v ∧ v < 2 ^ 31

/-- `allocate` returns `NULL`. -/
def ReturnsNull (h : Heap) (size : Word) : Prop := ∀ fuel, allocate fuel h size = some (0#32, clearHeaders h)

/-- **The request has a list of its own** of blocks with room for it, and a new chunk is made of some of them. -/
structure Served (size : Word) : Prop where
  one_le : 1 ≤ (numSize size).toInt
  lt : (numSize size).toInt < numSizes
  room : size.toInt + 4 ≤ (numSize size).toInt * blockSizeStep
  chunk_pos : 0 < (chunkSize (alignSize size)).toInt
  chunk_multiple : ∃ n : ℕ, 0 < n ∧ (chunkSize (alignSize size)).toInt = n * (alignSize size).toInt

/-- **The arithmetic is right**: without overflow, and with `NULL` or a block that is large enough. -/
structure Sized (h : Heap) (size : Word) : Prop where
  ints : ∀ v ∈ values h size, IsInt v
  result : ReturnsNull h size ∨ Served size

variable {h : Heap} {n : ℕ}

theorem numSize_eq (hn : n ≤ 2147483636) : numSize (BitVec.ofNat 32 n) = BitVec.ofNat 32 (blockSize n / 8) := by
  rw [numSize, alignSize_eq hn, sdiv_step (by unfold blockSize; omega)]

theorem slt_one_iff (hn : n < 2 ^ 31) : (BitVec.ofNat 32 n).slt 1#32 = true ↔ n = 0 := by
  rw [BitVec.slt_iff_toInt_lt, toInt_ofNat hn, toInt_ofNat (show 1 < 2 ^ 31 by omega)]
  omega

/-- Only requests of `4084` bytes and less have blocks. -/
theorem numSizes_sle_iff (hn : n ≤ 2147483636) :
    (BitVec.ofNat 32 numSizes).sle (numSize (BitVec.ofNat 32 n)) = true ↔ 4084 < n := by
  have hsizes : numSizes = 512 := rfl
  rw [numSize_eq hn, BitVec.sle_iff_toInt_le, hsizes, toInt_ofNat (show 512 < 2 ^ 31 by omega),
    toInt_ofNat (show blockSize n / 8 < 2 ^ 31 by unfold blockSize; omega), blockSize]
  omega

/-- **A request that is served.** -/
theorem served_of_le (h1 : 1 ≤ n) (h2 : n ≤ 4084) : Served (BitVec.ofNat 32 n) := by
  obtain ⟨hb1, hb2, hb3, hb4⟩ := blockSize_bounds h1 h2
  obtain ⟨hc1, hc2, hc3⟩ := blockCount_bounds hb1 hb2
  have hsizes : numSizes = 512 := rfl
  have hstep : blockSizeStep = 8 := rfl
  have hnum : (numSize (BitVec.ofNat 32 n)).toInt = (blockSize n / 8 : ℕ) := by
    rw [numSize_eq (by omega), toInt_ofNat (by omega)]
  have hchunk : (chunkSize (alignSize (BitVec.ofNat 32 n))).toInt = (blockCount (blockSize n) * blockSize n : ℕ) := by
    rw [alignSize_eq (by omega), chunkSize_eq hb1 hb2, toInt_ofNat (by omega)]
  constructor
  case one_le => omega
  case lt => omega
  case room =>
    rw [hnum, toInt_ofNat (by omega), hstep]
    omega
  case chunk_pos =>
    rw [hchunk]
    exact_mod_cast Nat.mul_pos (by omega) (by omega)
  case chunk_multiple =>
    refine ⟨blockCount (blockSize n), by omega, ?_⟩
    rw [hchunk, alignSize_eq (by omega), toInt_ofNat (by omega), Nat.cast_mul]

/-- The products of a chunk are small. -/
theorem isInt_chunkValues {s : ℕ} (h8 : 8 ≤ s) (hs : s ≤ 4088) : ∀ v ∈ chunkValues (BitVec.ofNat 32 s), IsInt v := by
  intro v hv
  rcases List.mem_cons.mp hv with rfl | hv
  · rw [toInt_ofNat (by omega), IsInt]
    omega
  · split_ifs at hv with hslt
    · obtain rfl := List.mem_singleton.mp hv
      rw [← BitVec.ofNat_mul, BitVec.slt_iff_toInt_lt, minAllocation, toInt_ofNat (by omega),
        toInt_ofNat (show 100 < 2 ^ 31 by omega)] at hslt
      have hlt : s < 10 := by omega
      unfold IsInt
      interval_cases s <;> decide
    · exact nomatch hv

/-- **No overflow** for a request that is small enough. -/
theorem isInt_values (h1 : 1 ≤ n) (hn : n ≤ 2147483636) : ∀ v ∈ values h (BitVec.ofNat 32 n), IsInt v := by
  have hslt : ¬ (BitVec.ofNat 32 n).slt 1#32 = true := by
    rw [slt_one_iff (by omega)]
    omega
  have hsum : BitVec.ofNat 32 n + 4#32 = BitVec.ofNat 32 (n + 4) := (BitVec.ofNat_add n 4).symm
  have hoff := toNat_offset (show n + 4 < 2 ^ 32 by omega)
  have hcut := toNat_cut (show n + 4 < 2 ^ 32 by omega)
  have hstep : blockSizeStep = 8 := rfl
  intro v hv
  simp only [values, if_neg hslt, hsum] at hv
  rcases List.mem_cons.mp hv with rfl | hv
  · rw [toInt_ofNat (by omega), IsInt]
    omega
  rcases List.mem_append.mp hv with hv | hv
  · split_ifs at hv with hoffset
    · obtain rfl := List.mem_singleton.mp hv
      have hne : (n + 4) % 8 ≠ 0 := fun h0 => hoffset (BitVec.eq_of_toNat_eq (hoff.trans h0))
      rw [BitVec.toInt_eq_toNat_of_lt (by rw [hcut]; omega), hcut, hstep, IsInt]
      omega
    · exact nomatch hv
  · split_ifs at hv with hsle
    · exact nomatch hv
    · rw [numSizes_sle_iff hn] at hsle
      obtain ⟨hb1, hb2, -, -⟩ := blockSize_bounds h1 (show n ≤ 4084 by omega)
      rw [alignSize_eq hn] at hv
      split at hv
      · exact nomatch hv
      · split_ifs at hv
        · exact isInt_chunkValues hb1 hb2 v hv
        · exact nomatch hv

/-- A request near the largest `int` is no `int` after the addition, or after the rounding. -/
theorem overflow_of_lt (hn : 2147483636 < n) (hn' : n < 2 ^ 31) : ∃ v ∈ values h (BitVec.ofNat 32 n), ¬ IsInt v := by
  have hslt : ¬ (BitVec.ofNat 32 n).slt 1#32 = true := by
    rw [slt_one_iff (by omega)]
    omega
  have hsum : BitVec.ofNat 32 n + 4#32 = BitVec.ofNat 32 (n + 4) := (BitVec.ofNat_add n 4).symm
  have hoff := toNat_offset (show n + 4 < 2 ^ 32 by omega)
  have hcut := toNat_cut (show n + 4 < 2 ^ 32 by omega)
  have hstep : blockSizeStep = 8 := rfl
  simp only [values, if_neg hslt, hsum]
  by_cases hlarge : 2147483644 ≤ n
  · refine ⟨_, List.mem_cons_self, ?_⟩
    rw [toInt_ofNat hn', IsInt]
    omega
  · have hoffset : BitVec.ofNat 32 (n + 4) &&& (BitVec.ofNat 32 blockSizeStep - 1#32) ≠ 0#32 := by
      intro h0
      rw [h0] at hoff
      have hzero : (0#32).toNat = 0 := rfl
      omega
    rw [if_pos hoffset]
    refine ⟨_, List.mem_cons_of_mem _ (List.mem_append_left _ (List.mem_singleton_self _)), ?_⟩
    rw [BitVec.toInt_eq_toNat_of_lt (by rw [hcut]; omega), hcut, hstep, IsInt]
    omega

/-- **The arithmetic of `allocate` is right if and only if the request is at most `2147483636`.** -/
theorem sized_iff (h : Heap) (size : Word) : Sized h size ↔ size.toInt ≤ 2147483636 := by
  by_cases hpos : size.slt 1#32 = true
  · -- nothing is computed
    have hle := BitVec.slt_iff_toInt_lt.mp hpos
    have hone : (1#32).toInt = 1 := rfl
    refine iff_of_true ⟨fun v hv => ?_, Or.inl fun fuel => ?_⟩ (by omega)
    · rw [values, if_pos hpos] at hv
      exact nomatch hv
    · simp only [allocate, if_pos hpos]
  · -- the request is a number of bytes
    obtain ⟨n, hn, rfl⟩ : ∃ n < 2 ^ 31, size = BitVec.ofNat 32 n := by
      rw [BitVec.slt_iff_toInt_lt, BitVec.toInt_eq_toNat_cond] at hpos
      have hone : (1#32).toInt = 1 := rfl
      have hlt := size.isLt
      refine ⟨size.toNat, ?_, by rw [BitVec.ofNat_toNat, BitVec.setWidth_eq]⟩
      split_ifs at hpos
      · omega
      · omega
    have h1 : 1 ≤ n := Nat.one_le_iff_ne_zero.mpr fun h0 => hpos ((slt_one_iff hn).mpr h0)
    rw [toInt_ofNat hn]
    by_cases hle : n ≤ 2147483636
    · refine iff_of_true ⟨isInt_values h1 hle, ?_⟩ (by omega)
      by_cases hsmall : n ≤ 4084
      · exact Or.inr (served_of_le h1 hsmall)
      · have hsle := (numSizes_sle_iff hle).mpr (Nat.lt_of_not_le hsmall)
        rw [numSize] at hsle
        exact Or.inl fun fuel => by simp only [allocate, if_neg hpos, if_pos hsle]
    · refine iff_of_false (fun hsized => ?_) (by omega)
      obtain ⟨v, hv, hno⟩ := overflow_of_lt (h := h) (Nat.lt_of_not_le hle) hn
      exact hno (hsized.ints v hv)

/-- A request for `2147483647` bytes is not refused: it has the index `-268435455`, and the list that is read is
none. -/
theorem largest_request : ¬ ∀ (h : Heap) (size : Word), Sized h size := by
  intro hall
  rcases (hall ⟨fun _ => 0#8, fun _ => 0#32, 0#32, true⟩ 0x7fffffff#32).result with hnull | hserved
  · exact nomatch hnull 0
  · exact absurd hserved.one_le (by decide)

end CompSys.A6.AllocSizes
