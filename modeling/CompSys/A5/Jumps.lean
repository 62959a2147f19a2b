import CompSys.A5.Encoded

/-! # Branches, jumps and calls

What the conditional branches, `JAL` and `JALR` are to do (`BranchFollows`, `JalFollows`,
`JalrFollows`, `Returns`) and when the code does it. A branch whose comparison does not hold leaves
`pc` where it is. `JAL` takes the eleven bits above bit 19 of the word, half of the offset, for its
sign extension. `JALR` takes the number of `rs1` for its value, so a call is returned from only if
it stands right before the address that is the number of its link register. -/

namespace CompSys.A5.Jumps

open CompSys.Lib CompSys.Lib.Rv32 CompSys.A5.PagedMemory CompSys.A5.Simulate CompSys.A5.StepFacts
open CompSys.A5.Manual CompSys.A5.Encoded

variable (startAddr : Word) (s : State)

/-! ### Branches -/

/-- A branch goes to its target when the comparison holds and to the next instruction when not. -/
def BranchFollows (op : BranchOp) (rs1 rs2 : Reg) (offset : ℤ) : Prop :=
  ∃ s', execute startAddr s (encode (.branch op rs1 rs2 offset)) = .next s' ∧
    s'.pc = if op.Holds (s.reg rs1) (s.reg rs2) then s.pc + BitVec.ofInt 32 offset else s.pc + 4#32

theorem taken_encode (op : BranchOp) (rs1 rs2 : Reg) (offset : ℤ) :
    taken s (encode (.branch op rs1 rs2 offset)) = decide (op.Holds (s.reg rs1) (s.reg rs2)) := by
  rw [Bool.eq_iff_iff, decide_eq_true_iff]
  rcases op <;>
    simp [taken, encode, regBits, BranchOp.funct3, BranchOp.Holds, BitVec.slt, BitVec.ult]

theorem execute_branch (op : BranchOp) (rs1 rs2 : Reg) (offset : ℤ) :
    execute startAddr s (encode (.branch op rs1 rs2 offset)) =
      branchIf s (op.Holds (s.reg rs1) (s.reg rs2))
        (branchOffset (encode (.branch op rs1 rs2 offset))) := by
  have hfunc3 : func3In (encode (.branch op rs1 rs2 offset))
      [0#32, 1#32, 4#32, 5#32, 6#32, 7#32] := by
    rcases op <;> simp [func3In, encode, BranchOp.funct3]
  rw [execute_of_branchInst (by simp [encode]), execBranch_eq, if_pos hfunc3, taken_encode]

theorem signExtend_ofInt {w : ℕ} (v : ℕ) {offset : ℤ} (hlo : -2 ^ w ≤ offset)
    (hhi : offset < 2 ^ w) :
    (BitVec.ofInt (w + 1) offset).signExtend v = BitVec.ofInt v offset := by
  unfold BitVec.signExtend
  rw [BitVec.toInt_ofInt_eq_self (by omega)]
  · simpa using hlo
  · simpa using hhi

theorem getElem_zero_ofInt {w : ℕ} {offset : ℤ} (h : offset % 2 = 0) :
    (BitVec.ofInt (w + 1) offset)[0] = false := by
  have hdvd : (2 : ℤ) ∣ ((2 ^ (w + 1) : ℕ) : ℤ) := ⟨2 ^ w, by push_cast; rw [pow_succ']⟩
  have hmod := Int.emod_emod_of_dvd offset hdvd
  have hnonneg := Int.emod_nonneg offset (show ((2 ^ (w + 1) : ℕ) : ℤ) ≠ 0 by positivity)
  rw [BitVec.getElem_eq_testBit_toNat, BitVec.toNat_ofInt, Nat.testBit_zero]
  simp only [decide_eq_false_iff_not]
  omega

theorem branchOffset_encode (op : BranchOp) (rs1 rs2 : Reg) {offset : ℤ} (h2 : offset % 2 = 0)
    (hlo : -4096 ≤ offset) (hhi : offset ≤ 4094) :
    branchOffset (encode (.branch op rs1 rs2 offset)) = BitVec.ofInt 32 offset := by
  rw [branchOffset_eq, encode, immB_formatB _ _ _ _ _ (getElem_zero_ofInt h2)]
  exact signExtend_ofInt 32 (w := 12) (by omega) (by omega)

/-- **Conditional branches** go where they are to exactly when they are taken: there is no `else`
that advances `pc`. -/
theorem branchFollows_iff (op : BranchOp) (rs1 rs2 : Reg) (offset : ℤ) (h2 : offset % 2 = 0)
    (hlo : -4096 ≤ offset) (hhi : offset ≤ 4094) :
    BranchFollows startAddr s op rs1 rs2 offset ↔ op.Holds (s.reg rs1) (s.reg rs2) := by
  unfold BranchFollows
  rw [execute_branch, branchOffset_encode op rs1 rs2 h2 hlo hhi]
  by_cases h : op.Holds (s.reg rs1) (s.reg rs2)
  · simp [branchIf, h]
  · simp [branchIf, h]

/-- `BEQ x0, x0, -8` of the first instruction. -/
theorem branchFollows_back :
    BranchFollows 0 (initial 0 (fun _ => 0) memoryCreate []) .beq 0 0 (-8) :=
  (branchFollows_iff 0 (initial 0 (fun _ => 0) memoryCreate []) .beq 0 0 (-8) (by decide)
    (by decide) (by decide)).mpr (by decide)

/-- `BNE x0, x0, 8` stays where it is. -/
theorem branch_stays : ¬ ∀ startAddr s op rs1 rs2 offset, offset % 2 = 0 → -4096 ≤ offset →
    offset ≤ 4094 → BranchFollows startAddr s op rs1 rs2 offset := by
  intro h
  have hb := h 0 (initial 0 (fun _ => 0) memoryCreate []) .bne 0 0 8 (by decide) (by decide)
    (by decide)
  unfold BranchFollows at hb
  rw [execute_branch] at hb
  simp [branchIf, BranchOp.Holds, initial] at hb

/-! ### JAL -/

/-- `JAL` goes to its target and leaves the address of the next instruction in `rd`. -/
def JalFollows (rd : Reg) (offset : ℤ) : Prop :=
  ∃ s', execute startAddr s (encode (.jal rd offset)) = .next s' ∧
    s'.pc = s.pc + BitVec.ofInt 32 offset ∧ s'.reg rd = s.pc + 4#32

theorem execute_jal (rd : Reg) (offset : ℤ) : execute startAddr s (encode (.jal rd offset)) =
    .next { s with
      reg := Function.update s.reg rd (s.pc + 4#32)
      pc := s.pc + jalOffset (encode (.jal rd offset)) } := by
  rw [execute_of_jal (by simp [encode])]
  simp [encode, execJal, regBits]

/-- The bits of the word from bit 20 on. -/
theorem getLsbD_formatJ (imm : BitVec 21) (rd : BitVec 5) (op : BitVec 7) {i : ℕ} (hi : i < 12) :
    (formatJ imm rd op).getLsbD (20 + i) =
      if i = 0 then imm.getLsbD 11 else if i = 11 then imm.getLsbD 20 else imm.getLsbD i := by
  simp only [formatJ, BitVec.getLsbD_append, BitVec.getLsbD_extractLsb']
  interval_cases i <;> simp

theorem jalFits_formatJ (imm : BitVec 21) (rd : BitVec 5) (op : BitVec 7) :
    JalFits (formatJ imm rd op) ↔ ∀ i, 1 ≤ i → i < 12 → imm.getLsbD i = imm.getLsbD 20 := by
  have h31 : (formatJ imm rd op).getLsbD 31 = imm.getLsbD 20 := by
    rw [getLsbD_formatJ imm rd op (i := 11) (by omega)]; rfl
  unfold JalFits
  rw [h31]
  constructor
  · intro h i h1 h12
    rcases Nat.lt_or_ge i 11 with hi | hi
    · have hb := h i hi
      rwa [getLsbD_formatJ imm rd op h12, if_neg (by omega), if_neg (by omega)] at hb
    · have hb := h 0 (by omega)
      rw [show i = 11 by omega]
      rwa [getLsbD_formatJ imm rd op (by omega), if_pos rfl] at hb
  · intro h i hi
    rw [getLsbD_formatJ imm rd op (by omega)]
    by_cases h0 : i = 0
    · rw [if_pos h0]
      exact h 11 (by omega) (by omega)
    · rw [if_neg h0, if_neg (by omega)]
      exact h i (by omega) (by omega)

/-- Bits 1 to 11 of a number are all `b`. -/
theorem bits_eq_iff (n : ℕ) (b : Bool) : (∀ i, 1 ≤ i → i < 12 → n.testBit i = b) ↔
    n / 2 % 2048 = if b then 2047 else 0 := by
  have hn (i : ℕ) : (n / 2 % 2 ^ 11).testBit i = (decide (i < 11) && n.testBit (i + 1)) := by
    rw [Nat.testBit_mod_two_pow, Nat.testBit_div_two]
  have hb (i : ℕ) : (if b then 2 ^ 11 - 1 else 0).testBit i = (decide (i < 11) && b) := by
    rcases b with _ | _
    · simp
    · rw [if_pos rfl, Nat.testBit_two_pow_sub_one, Bool.and_true]
  constructor
  · intro h
    refine Nat.eq_of_testBit_eq fun i => (hn i).trans (Eq.trans ?_ (hb i).symm)
    by_cases hi : i < 11
    · rw [h (i + 1) (by omega) (by omega)]
    · simp [hi]
  · intro h i h1 h12
    have hi := hn (i - 1)
    rw [show n / 2 % 2 ^ 11 = if b then 2 ^ 11 - 1 else 0 from h, hb, Nat.sub_add_cancel h1] at hi
    simpa [show i - 1 < 11 by omega] using hi.symm

theorem jalFits_encode (rd : Reg) {offset : ℤ} (h2 : offset % 2 = 0) (hlo : -2 ^ 20 ≤ offset)
    (hhi : offset ≤ 2 ^ 20 - 2) :
    JalFits (encode (.jal rd offset)) ↔
      offset % 4096 = 0 ∧ 0 ≤ offset ∨ offset % 4096 = 4094 ∧ offset < 0 := by
  have htwenty (n : ℕ) : n.testBit 20 = decide (n / 2 ^ 20 % 2 = 1) := by
    rw [Nat.testBit_eq_decide_div_mod_eq]
  rw [encode, jalFits_formatJ]
  simp only [← BitVec.testBit_toNat]
  rw [bits_eq_iff, htwenty, BitVec.toNat_ofInt]
  simp only [decide_eq_true_iff]
  by_cases hneg : offset < 0
  · have hn : (offset % (2 ^ 21 : ℕ)).toNat = (offset + 2 ^ 21).toNat := by
      rw [← Int.add_emod_right, Int.emod_eq_of_lt (by omega) (by omega)]; rfl
    rw [hn, if_pos (by omega)]
    omega
  · have hn : (offset % (2 ^ 21 : ℕ)).toNat = offset.toNat := by
      rw [Int.emod_eq_of_lt (by omega) (by omega)]
    rw [hn, if_neg (by omega)]
    omega

/-- **`JAL` reaches its target** exactly when bits 1 to 11 of the offset repeat its sign. -/
theorem jalFollows_iff (rd : Reg) (offset : ℤ) (h2 : offset % 2 = 0) (hlo : -2 ^ 20 ≤ offset)
    (hhi : offset ≤ 2 ^ 20 - 2) :
    JalFollows startAddr s rd offset ↔
      offset % 4096 = 0 ∧ 0 ≤ offset ∨ offset % 4096 = 4094 ∧ offset < 0 := by
  have hoffset : immJ (encode (.jal rd offset)) = BitVec.ofInt 32 offset := by
    rw [encode, immJ_formatJ _ _ _ (getElem_zero_ofInt h2)]
    exact signExtend_ofInt 32 (w := 20) (by omega) (by omega)
  rw [← jalFits_encode rd h2 hlo hhi, ← jalOffset_eq_iff, hoffset]
  unfold JalFollows
  rw [execute_jal]
  simp

/-- `JAL ra, 4096` and `JAL ra, -2`. -/
theorem jalFollows_page :
    JalFollows 0 (initial 0 (fun _ => 0) memoryCreate []) 1 4096 ∧
      JalFollows 0 (initial 0 (fun _ => 0) memoryCreate []) 1 (-2) :=
  ⟨(jalFollows_iff 0 (initial 0 (fun _ => 0) memoryCreate []) 1 4096 (by decide) (by decide)
      (by decide)).mpr (by decide),
    (jalFollows_iff 0 (initial 0 (fun _ => 0) memoryCreate []) 1 (-2) (by decide) (by decide)
      (by decide)).mpr (by decide)⟩

/-- `JAL ra, 8` goes to `0x800008`. -/
theorem jal_misses : ¬ ∀ startAddr s rd offset, offset % 2 = 0 → -2 ^ 20 ≤ offset →
    offset ≤ 2 ^ 20 - 2 → JalFollows startAddr s rd offset := by
  intro h
  have hj := h 0 (initial 0 (fun _ => 0) memoryCreate []) 1 8 (by decide) (by decide) (by decide)
  unfold JalFollows at hj
  rw [execute_jal] at hj
  obtain ⟨s', h1, hpc, -⟩ := hj
  cases h1
  revert hpc
  decide

/-! ### JALR -/

/-- `JALR` goes to the value of `rs1` plus the immediate, bit 0 cleared, and leaves the address of
the next instruction in `rd`. -/
def JalrFollows (rd rs1 : Reg) (imm : BitVec 12) : Prop :=
  ∃ s', execute startAddr s (encode (.jalr rd rs1 imm)) = .next s' ∧
    s'.pc = (s.reg rs1 + imm.signExtend 32) &&& ~~~1#32 ∧ s'.reg rd = s.pc + 4#32

/-- After the call `call` with link register `r`, in every later state in which `r` still holds the
link value, `jalr x0, 0(r)` goes back behind the call. -/
def Returns (call : Instr) (r : Reg) : Prop :=
  ∃ s1, execute startAddr s (encode call) = .next s1 ∧
    ∀ n s2, simulate startAddr n s1 = .next s2 → s2.reg r = s1.reg r →
      ∃ s3, execute startAddr s2 (encode (.jalr Decode.zero r 0)) = .next s3 ∧ s3.pc = s.pc + 4#32

theorem execute_jalr (rd rs1 : Reg) (imm : BitVec 12) :
    execute startAddr s (encode (.jalr rd rs1 imm)) =
      .next { s with
        reg := Function.update s.reg rd (s.pc + 4#32)
        pc := imm.signExtend 32 + BitVec.ofNat 32 rs1.val } := by
  rw [execute_of_jalr (by simp [encode])]
  simp [encode, execJalr, jalrTarget, regBits]

/-- A number without its lowest bit. -/
theorem clear_lowest_eq_iff (a b : Word) :
    b = a &&& ~~~1#32 ↔ b.toNat % 2 = 0 ∧ (a = b ∨ a = b + 1#32) := by
  have hclear : a &&& ~~~1#32 = (a >>> 1) <<< 1 := by
    refine BitVec.eq_of_getLsbD_eq fun i hi => ?_
    interval_cases i <;> simp
  have hval : (a &&& ~~~1#32).toNat = a.toNat / 2 * 2 := by
    rw [hclear, BitVec.toNat_shiftLeft, BitVec.toNat_ushiftRight, Nat.shiftLeft_eq,
      Nat.shiftRight_eq_div_pow, Nat.mod_eq_of_lt (by omega)]
  rw [← BitVec.toNat_inj, hval]
  bv_omega

/-- The immediate plus the number of `rs1` is even. -/
theorem target_even_iff (rs1 : Reg) (imm : BitVec 12) :
    (imm.signExtend 32 + BitVec.ofNat 32 rs1.val).toNat % 2 = 0 ↔
      (imm.toInt + rs1.val) % 2 = 0 := by
  have hsum : imm.signExtend 32 + BitVec.ofNat 32 rs1.val =
      BitVec.ofInt 32 (imm.toInt + rs1.val) := by
    rw [BitVec.ofInt_add, BitVec.ofInt_natCast, BitVec.signExtend]
  rw [hsum, BitVec.toNat_ofInt]
  omega

/-- **`JALR`** takes the number of `rs1` for its value and keeps bit 0. -/
theorem jalrFollows_iff (rd rs1 : Reg) (imm : BitVec 12) :
    JalrFollows startAddr s rd rs1 imm ↔
      ((s.reg rs1).toNat = rs1.val ∨ (s.reg rs1).toNat = rs1.val + 1) ∧
        (imm.toInt + rs1.val) % 2 = 0 := by
  have hgoes : JalrFollows startAddr s rd rs1 imm ↔
      imm.signExtend 32 + BitVec.ofNat 32 rs1.val =
        (s.reg rs1 + imm.signExtend 32) &&& ~~~1#32 := by
    unfold JalrFollows
    rw [execute_jalr]
    simp
  have hvalue : s.reg rs1 + imm.signExtend 32 = imm.signExtend 32 + BitVec.ofNat 32 rs1.val ↔
      (s.reg rs1).toNat = rs1.val := by
    have := rs1.isLt
    bv_omega
  have hnext : s.reg rs1 + imm.signExtend 32 =
      imm.signExtend 32 + BitVec.ofNat 32 rs1.val + 1#32 ↔ (s.reg rs1).toNat = rs1.val + 1 := by
    have := rs1.isLt
    bv_omega
  rw [hgoes, clear_lowest_eq_iff, hvalue, hnext, target_even_iff, and_comm]

/-- A call leaves its link value in `r`, so what matters is that `jalr x0, 0(r)` goes to the number
of `r`. -/
theorem returns_iff {call : Instr} {r : Reg} {s1 : State}
    (h : execute startAddr s (encode call) = .next s1) :
    Returns startAddr s call r ↔ s.pc + 4#32 = BitVec.ofNat 32 r.val := by
  unfold Returns
  constructor
  · rintro ⟨s1', h1, hback⟩
    obtain ⟨s3, h3, hpc⟩ := hback 0 s1' rfl rfl
    rw [execute_jalr] at h3
    cases h3
    rw [← hpc]
    simp
  · intro hr
    refine ⟨s1, h, fun n s2 _ _ => ⟨_, execute_jalr startAddr s2 Decode.zero r 0, ?_⟩⟩
    rw [hr]
    simp

/-- **Calls and returns.** -/
theorem calls_iff :
    (∀ rd rs1 imm, JalrFollows startAddr s rd rs1 imm ↔
      ((s.reg rs1).toNat = rs1.val ∨ (s.reg rs1).toNat = rs1.val + 1) ∧
        (imm.toInt + rs1.val) % 2 = 0) ∧
    (∀ r offset, Returns startAddr s (.jal r offset) r ↔ s.pc + 4#32 = BitVec.ofNat 32 r.val) ∧
    ∀ r rs1 imm, Returns startAddr s (.jalr r rs1 imm) r ↔ s.pc + 4#32 = BitVec.ofNat 32 r.val :=
  ⟨jalrFollows_iff startAddr s,
    fun r offset => returns_iff startAddr s (execute_jal startAddr s r offset),
    fun r rs1 imm => returns_iff startAddr s (execute_jalr startAddr s r rs1 imm)⟩

/-- `jalr x0, 0(ra)` with `ra` holding `0x10074` goes to address 1. -/
theorem jalr_misses : ¬ ∀ startAddr s rd rs1 imm, JalrFollows startAddr s rd rs1 imm := by
  intro h
  obtain ⟨s', h1, hpc, -⟩ := h 0 (initial 0 (fun _ => 0x10074#32) memoryCreate []) 0 1 0
  rw [execute_jalr] at h1
  cases h1
  revert hpc
  decide

end CompSys.A5.Jumps
