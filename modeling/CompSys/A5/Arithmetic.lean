import CompSys.A5.Encoded

/-! # Integer instructions

What the instructions that compute a value put in `rd` (`Puts`). Those without shifts are right
(`integer_puts`). `SRAI` shifts in zeros, `SRL` sign bits, and a register is not masked to five bits
when it is the amount of a shift; `MULHSU` and `MULHU` are `MULH`; and divisions are made only on
operands for which C defines them, `DIV` and `DIVU` only of a non-zero dividend. -/

namespace CompSys.A5.Arithmetic

open CompSys.Lib.Rv32 CompSys.A5.PagedMemory CompSys.A5.Decode CompSys.A5.Simulate
open CompSys.A5.StepFacts CompSys.A5.Encoded

variable (startAddr : Word) (s : State)

/-- The instruction puts `v` in `rd` and the loop goes on with the next one. -/
def Puts (i : Instr) (rd : Reg) (v : Word) : Prop :=
  ∃ s', execute startAddr s (encode i) = .next s' ∧ s'.reg rd = v ∧ s'.pc = s.pc + 4#32

variable {startAddr s}

theorem puts_of_writeBack {i : Instr} {rd : Reg} {v : Word}
    (h : execute startAddr s (encode i) = .next (writeBack s rd v)) : Puts startAddr s i rd v :=
  ⟨_, h, Function.update_self _ _ _, rfl⟩

theorem puts_iff {i : Instr} {rd : Reg} {v w : Word}
    (h : execute startAddr s (encode i) = .next (writeBack s rd v)) :
    Puts startAddr s i rd w ↔ v = w := by
  constructor
  · rintro ⟨s', h', hreg, -⟩
    rw [h] at h'
    cases h'
    simpa [writeBack] using hreg
  · rintro rfl
    exact puts_of_writeBack h

/-! ### Without shifts -/

theorem ofCond_slt (x y : Word) : ofCond (x.slt y) = boolWord (x.toInt < y.toInt) := by
  simp [ofCond, boolWord, BitVec.slt]

theorem ofCond_ult (x y : Word) : ofCond (x.ult y) = boolWord (x.toNat < y.toNat) := by
  simp [ofCond, boolWord, BitVec.ult]

/-- The path for immediates without sign zero-extends them. -/
theorem setWidth_of_signbit {imm : BitVec 12}
    (h : (imm.extractLsb' 11 1).setWidth 32 = 0#32) : imm.setWidth 32 = imm.signExtend 32 := by
  have hbit := congrArg (fun w => w.getLsbD 0) h
  refine (BitVec.signExtend_eq_setWidth_of_msb_false ?_).symm
  simpa [BitVec.msb_eq_getLsbD_last] using hbit

section Integer
variable (startAddr s)

theorem execute_upper (op : UpperOp) (rd : Reg) (imm : BitVec 20) :
    execute startAddr s (encode (.upper op rd imm)) =
      .next (writeBack s rd (op.result s.pc imm)) := by
  rcases op
  · rw [execute_of_lui (by simp [encode, UpperOp.opcode])]
    simp [encode, execLui, UpperOp.result, regBits]
  · rw [execute_of_auipc (by simp [encode, UpperOp.opcode])]
    simp [encode, execAuipc, UpperOp.result, regBits]

theorem execute_immediate (op : ImmOp) (rd rs1 : Reg) (imm : BitVec 12) :
    execute startAddr s (encode (.immediate op rd rs1 imm)) =
      .next (writeBack s rd (op.result (s.reg rs1) (imm.signExtend 32))) := by
  rw [execute_of_immediateInst (by simp [encode])]
  rcases op <;> simp [encode, execImmediate, ImmOp.funct3, ImmOp.result, regBits]
  · rw [ofCond_slt]
  · rw [ofCond_ult]
  · exact fun h => by rw [setWidth_of_signbit h]
  · exact fun h => by rw [setWidth_of_signbit h]
  · exact fun h => by rw [setWidth_of_signbit h]

theorem execute_alu (op : AluOp) (rd rs1 rs2 : Reg) :
    execute startAddr s (encode (.alu op rd rs1 rs2)) =
      .next (writeBack s rd (op.result (s.reg rs1) (s.reg rs2))) := by
  rw [execute_of_rtypeInst (by simp [encode])]
  rcases op <;> simp [encode, execRtype, execRtype0, execRtype1, AluOp.funct3, AluOp.funct7,
    AluOp.result, regBits]
  · rw [ofCond_slt]
  · rw [ofCond_ult]

/-- **The instructions without shifts** compute what the manual says. -/
theorem integer_puts :
    (∀ op rd imm, Puts startAddr s (.upper op rd imm) rd (op.result s.pc imm)) ∧
    (∀ op rd rs1 imm, Puts startAddr s (.immediate op rd rs1 imm) rd
      (op.result (s.reg rs1) (imm.signExtend 32))) ∧
    ∀ op rd rs1 rs2, Puts startAddr s (.alu op rd rs1 rs2) rd
      (op.result (s.reg rs1) (s.reg rs2)) :=
  ⟨fun op rd imm => puts_of_writeBack (execute_upper startAddr s op rd imm),
    fun op rd rs1 imm => puts_of_writeBack (execute_immediate startAddr s op rd rs1 imm),
    fun op rd rs1 rs2 => puts_of_writeBack (execute_alu startAddr s op rd rs1 rs2)⟩

end Integer

/-! ### Shifts -/

/-- The shift the code makes for one by an immediate: `SRAI` looks for the sign in the word. -/
def immediateShift : ShiftOp → ShiftOp
  | .sll => .sll
  | .srl => .srl
  | .sra => .srl

/-- The shift the code makes for one by a register: `SRL` is made on an `int`. -/
def registerShift : ShiftOp → ShiftOp
  | .sll => .sll
  | .srl => .sra
  | .sra => .sra

theorem execute_shiftImmediate (op : ShiftOp) (rd rs1 : Reg) (shamt : BitVec 5) :
    execute startAddr s (encode (.shiftImmediate op rd rs1 shamt)) =
      .next (writeBack s rd ((immediateShift op).result (s.reg rs1) shamt.toNat)) := by
  rw [execute_of_immediateInst (by simp [encode])]
  rcases op <;> simp [encode, execImmediate, ShiftOp.funct3, ShiftOp.funct7, immediateShift,
    sll_result, srl_result, regBits]

theorem writeBack?_ite (c : Prop) [Decidable c] (rd : Reg) (v : Word) :
    writeBack? s rd (if c then some v else none) =
      if c then .next (writeBack s rd v) else .undefined := by
  split_ifs <;> rfl

/-- The logical shift of a number without sign. -/
theorem shr_eq_sar {x : Word} (y : Word) (h : x >>> 31 = 0#32) : shr x y = sar x y := by
  have hbit := congrArg (fun w => w.getLsbD 0) h
  have hmsb : x.msb = false := by simpa [BitVec.msb_eq_getLsbD_last] using hbit
  rw [shr, sar, BitVec.sshiftRight_eq_of_msb_false hmsb]

theorem execute_shift (op : ShiftOp) (rd rs1 rs2 : Reg) :
    execute startAddr s (encode (.shift op rd rs1 rs2)) =
      if (s.reg rs2).toNat < 32 then
        .next (writeBack s rd ((registerShift op).result (s.reg rs1) (s.reg rs2).toNat))
      else .undefined := by
  rw [execute_of_rtypeInst (by simp [encode])]
  rcases op
  · simp [encode, execRtype, execRtype0, ShiftOp.funct3, ShiftOp.funct7, registerShift, sll_result,
      regBits, shl, writeBack?_ite]
  · simp [encode, execRtype, execRtype0, ShiftOp.funct3, ShiftOp.funct7, registerShift, sra_result,
      regBits, sar, writeBack?_ite]
  · have hsar : execRtype s (encode (.shift .sra rd rs1 rs2)) =
        writeBack? s rd (sar (s.reg rs1) (s.reg rs2)) := by
      rcases signbit_cases (s.reg rs1) with hx | hx
      · simp [encode, execRtype, execRtype1, ShiftOp.funct3, ShiftOp.funct7, regBits, hx,
          shr_eq_sar _ hx]
      · simp [encode, execRtype, execRtype1, ShiftOp.funct3, ShiftOp.funct7, regBits, hx]
    rw [hsar, sar, writeBack?_ite, registerShift, sra_result]

/-- **Shifts.** -/
theorem shifts_iff (startAddr : Word) (s : State) :
    (∀ op rd rs1 shamt, Puts startAddr s (.shiftImmediate op rd rs1 shamt) rd
      (op.result (s.reg rs1) shamt.toNat) ↔
        (op = .sra → 0 ≤ (s.reg rs1).toInt ∨ shamt = 0)) ∧
    ∀ op rd rs1 rs2, Puts startAddr s (.shift op rd rs1 rs2) rd
      (op.result (s.reg rs1) ((s.reg rs2).toNat % 32)) ↔
        (s.reg rs2).toNat < 32 ∧ (op = .srl → 0 ≤ (s.reg rs1).toInt ∨ s.reg rs2 = 0) := by
  constructor
  · intro op rd rs1 shamt
    rw [puts_iff (execute_shiftImmediate op rd rs1 shamt)]
    rcases op
    · simp [immediateShift]
    · simp [immediateShift]
    · rw [immediateShift, eq_comm, sra_eq_srl_iff, ← BitVec.toNat_inj]
      simp
  · intro op rd rs1 rs2
    have hexec := @execute_shift startAddr s op rd rs1 rs2
    by_cases hy : (s.reg rs2).toNat < 32
    · rw [if_pos hy] at hexec
      rw [puts_iff hexec, Nat.mod_eq_of_lt hy]
      rcases op
      · simp [registerShift, hy]
      · rw [registerShift, sra_eq_srl_iff, ← BitVec.toNat_inj]
        simp [hy]
      · simp [registerShift, hy]
    · rw [if_neg hy] at hexec
      refine iff_of_false ?_ fun h => hy h.1
      rintro ⟨s', h', -⟩
      rw [hexec] at h'
      cases h'

/-- `SRAI x5, x6, 4` with `x6` holding `-16` leaves `0xfffffff`. -/
theorem srai_zero_fills : ¬ ∀ startAddr s op rd rs1 shamt, rd ≠ 0 →
    Puts startAddr s (.shiftImmediate op rd rs1 shamt) rd
      (op.result (s.reg rs1) shamt.toNat) := by
  intro h
  have hp := h 0 (initial 0 (fun _ => -16#32) memoryCreate []) .sra 5 6 4 (by decide)
  rw [puts_iff (execute_shiftImmediate .sra 5 6 4)] at hp
  revert hp
  decide

/-! ### Products -/

theorem execute_of_mulType {word : Word} (h : opcode word = Opcode.rtypeInst)
    (h7 : func7 word = RtypeInstructions.mulType) :
    execute startAddr s word = execMulType s word := by
  rw [execute_of_rtypeInst h]
  simp [execRtype, h7]

/-- The product the code computes: the operands of all but `MUL` are both sign-extended. -/
def multiplied : MulOp → MulOp
  | .mul => .mul
  | .mulh => .mulh
  | .mulhsu => .mulh
  | .mulhu => .mulh

/-- The upper word is the same for both right shifts. -/
theorem upper_sshiftRight (p : BitVec 64) :
    (p.sshiftRight 32).setWidth 32 = (p >>> 32).setWidth 32 := by
  refine BitVec.eq_of_getLsbD_eq fun i hi => ?_
  simp [hi, BitVec.getElem_sshiftRight, show i < 64 by omega, show 32 + i < 64 by omega]

theorem setWidth_to64 (x : Word) : (to64 x).setWidth 32 = x := by
  refine BitVec.eq_of_getLsbD_eq fun i hi => ?_
  simp [to64, BitVec.getElem_signExtend, hi, show i < 64 by omega]

theorem lower_product (x y : Word) : (to64 y * to64 x).setWidth 32 = MulOp.mul.result x y := by
  rw [BitVec.setWidth_mul _ _ (by decide), setWidth_to64, setWidth_to64, mul_result,
    BitVec.mul_comm]

theorem upper_product (x y : Word) :
    ((to64 x * to64 y) >>> 32).setWidth 32 = MulOp.mulh.result x y := (mulh_result x y).symm

theorem execute_mul (op : MulOp) (rd rs1 rs2 : Reg) :
    execute startAddr s (encode (.mul op rd rs1 rs2)) =
      .next (writeBack s rd ((multiplied op).result (s.reg rs1) (s.reg rs2))) := by
  rw [execute_of_mulType (by simp [encode]) (by simp [encode])]
  rcases op <;> simp [encode, execMulType, MulOp.funct3, multiplied, regBits, lower_product,
    upper_sshiftRight, upper_product]

/-- **Products.** -/
theorem products_iff (startAddr : Word) (s : State) (op : MulOp) (rd rs1 rs2 : Reg) :
    Puts startAddr s (.mul op rd rs1 rs2) rd (op.result (s.reg rs1) (s.reg rs2)) ↔
      (op = .mulhsu → 0 ≤ (s.reg rs2).toInt ∨ s.reg rs1 = 0) ∧
      (op = .mulhu → 0 ≤ (s.reg rs1).toInt ∧ 0 ≤ (s.reg rs2).toInt ∨ s.reg rs1 = 0 ∨
        s.reg rs2 = 0 ∨ s.reg rs1 = BitVec.intMin 32 ∧ s.reg rs2 = BitVec.intMin 32) := by
  rw [puts_iff (execute_mul op rd rs1 rs2)]
  rcases op
  · simp [multiplied]
  · simp [multiplied]
  · rw [multiplied, eq_comm, mulhsu_eq_mulh_iff]
    simp
  · rw [multiplied, eq_comm, mulhu_eq_mulh_iff]
    simp

/-- `MULHU x5, x6, x6` with `x6` holding `0xffffffff` leaves 0. -/
theorem mulhu_is_mulh : ¬ ∀ startAddr s op rd rs1 rs2, rd ≠ 0 →
    Puts startAddr s (.mul op rd rs1 rs2) rd (op.result (s.reg rs1) (s.reg rs2)) := by
  intro h
  have hp := h 0 (initial 0 (fun _ => -1#32) memoryCreate []) .mulhu 5 6 6 (by decide)
  rw [puts_iff (execute_mul .mulhu 5 6 6)] at hp
  revert hp
  decide

/-! ### Quotients -/

/-- The operands the code divides: those on which C's operators are defined, and for `DIV` and
`DIVU` no zero. -/
def Divides (x y : Word) (op : DivOp) : Prop :=
  y ≠ 0#32 ∧ (op = .div ∨ op = .divu → x ≠ 0#32) ∧
    (op = .div ∨ op = .rem → ¬ (x = BitVec.intMin 32 ∧ y = -1#32))

theorem execute_div (op : DivOp) (rd rs1 rs2 : Reg) (h : Divides (s.reg rs1) (s.reg rs2) op) :
    execute startAddr s (encode (.div op rd rs1 rs2)) =
      .next (writeBack s rd (op.result (s.reg rs1) (s.reg rs2))) := by
  obtain ⟨hy, hx, hmin⟩ := h
  rw [execute_of_mulType (by simp [encode]) (by simp [encode])]
  rcases op
  · have hx' := hx (Or.inl rfl)
    have hdefined : ¬ DivUndefined (s.reg rs1) (s.reg rs2) := not_or.mpr ⟨hy, hmin (Or.inl rfl)⟩
    simp [encode, execMulType, DivOp.funct3, regBits, hx', hy, divInt, hdefined, div_result hy,
      writeBack?]
  · have hx' := hx (Or.inr rfl)
    simp [encode, execMulType, DivOp.funct3, regBits, hx', hy, divUint, divu_result hy, writeBack?]
  · have hdefined : ¬ DivUndefined (s.reg rs1) (s.reg rs2) := not_or.mpr ⟨hy, hmin (Or.inr rfl)⟩
    simp [encode, execMulType, DivOp.funct3, regBits, modInt, hdefined, rem_result hy, writeBack?]
  · simp [encode, execMulType, DivOp.funct3, regBits, hy, modUint, remu_result hy, writeBack?]

/-- On other operands `DIV` and `DIVU` stop the run if one is zero, and C leaves the rest
undefined. -/
theorem execute_div_stops (op : DivOp) (rd rs1 rs2 : Reg)
    (h : ¬ Divides (s.reg rs1) (s.reg rs2) op) :
    execute startAddr s (encode (.div op rd rs1 rs2)) =
      if (op = .div ∨ op = .divu) ∧ (s.reg rs1 = 0#32 ∨ s.reg rs2 = 0#32) then
        .failure "Error dividing by zero" s
      else .undefined := by
  rw [execute_of_mulType (by simp [encode]) (by simp [encode])]
  unfold Divides at h
  rcases op
  · by_cases hzero : s.reg rs1 = 0#32 ∨ s.reg rs2 = 0#32
    · have hguard : ¬ (s.reg rs1 ≠ 0#32 ∧ s.reg rs2 ≠ 0#32) := by tauto
      simp [encode, execMulType, DivOp.funct3, regBits, hzero, hguard]
    · obtain ⟨hx, hy⟩ := not_or.mp hzero
      have hundefined : DivUndefined (s.reg rs1) (s.reg rs2) := by
        unfold DivUndefined
        tauto
      simp [encode, execMulType, DivOp.funct3, regBits, hx, hy, divInt, hundefined, writeBack?]
  · have hzero : s.reg rs1 = 0#32 ∨ s.reg rs2 = 0#32 := by
      by_contra hzero
      obtain ⟨hx, hy⟩ := not_or.mp hzero
      exact h ⟨hy, fun _ => hx, by simp⟩
    have hguard : ¬ (s.reg rs1 ≠ 0#32 ∧ s.reg rs2 ≠ 0#32) := by tauto
    simp [encode, execMulType, DivOp.funct3, regBits, hzero, hguard]
  · have hundefined : DivUndefined (s.reg rs1) (s.reg rs2) := by
      by_contra hdefined
      obtain ⟨hy, hmin⟩ := not_or.mp hdefined
      exact h ⟨hy, by simp, fun _ => hmin⟩
    simp [encode, execMulType, DivOp.funct3, regBits, modInt, hundefined, writeBack?]
  · have hzero : s.reg rs2 = 0#32 := by
      by_contra hy
      exact h ⟨hy, by simp, by simp⟩
    simp [encode, execMulType, DivOp.funct3, regBits, modUint, hzero, writeBack?]

/-- **Divisions** are made as the manual says exactly on the operands the code divides. -/
theorem division_iff (startAddr : Word) (s : State) (op : DivOp) (rd rs1 rs2 : Reg) :
    Puts startAddr s (.div op rd rs1 rs2) rd (op.result (s.reg rs1) (s.reg rs2)) ↔
      Divides (s.reg rs1) (s.reg rs2) op := by
  constructor
  · rintro ⟨s', h', -⟩
    by_contra h
    rw [execute_div_stops op rd rs1 rs2 h] at h'
    split_ifs at h'
  · exact fun h => puts_of_writeBack (execute_div op rd rs1 rs2 h)

/-- **Division**: `DIV` and `DIVU` refuse a zero divisor; a division the code makes is right, and
quotient and remainder make up the dividend. -/
theorem division (startAddr : Word) (s : State) (rd rs1 rs2 : Reg) :
    (∀ op, op = .div ∨ op = .divu → s.reg rs2 = 0#32 →
      execute startAddr s (encode (.div op rd rs1 rs2)) =
        .failure "Error dividing by zero" s) ∧
    (∀ op, Divides (s.reg rs1) (s.reg rs2) op →
      Puts startAddr s (.div op rd rs1 rs2) rd (op.result (s.reg rs1) (s.reg rs2))) ∧
    (Divides (s.reg rs1) (s.reg rs2) .div → ∃ s1 s2,
      execute startAddr s (encode (.div .div rd rs1 rs2)) = .next s1 ∧
      execute startAddr s (encode (.div .rem rd rs1 rs2)) = .next s2 ∧
      s.reg rs1 = s1.reg rd * s.reg rs2 + s2.reg rd) := by
  refine ⟨fun op hop hy => ?_, fun op h => puts_of_writeBack (execute_div op rd rs1 rs2 h),
    fun h => ?_⟩
  · have hstops := @execute_div_stops startAddr s op rd rs1 rs2 fun h => h.1 hy
    rwa [if_pos ⟨hop, Or.inr hy⟩] at hstops
  · have hrem : Divides (s.reg rs1) (s.reg rs2) .rem :=
      ⟨h.1, by simp, fun _ => h.2.2 (Or.inl rfl)⟩
    refine ⟨_, _, execute_div .div rd rs1 rs2 h, execute_div .rem rd rs1 rs2 hrem, ?_⟩
    simp only [writeBack, Function.update_self]
    exact (div_mul_add_rem _ _).symm

/-- `x6` holds 7 and `x7` 2. -/
def operands : State :=
  initial 0 (fun r => if r.val = 6 then 7#32 else if r.val = 7 then 2#32 else 0#32) memoryCreate []

/-- `DIV x5, x6, x7` puts 3 in `x5`, and `DIV x5, x6, x8` stops. -/
theorem division_seven :
    Puts 0 operands (.div .div 5 6 7) 5 3#32 ∧
      execute 0 operands (encode (.div .div 5 6 8)) = .failure "Error dividing by zero" operands :=
  ⟨(division 0 operands 5 6 7).2.1 .div (by unfold Divides; decide),
    (division 0 operands 5 6 8).1 .div (Or.inl rfl) rfl⟩

/-- `DIV x5, x6, x8` with `x6` holding 7 and `x8` 0. -/
theorem div_refuses : ¬ ∀ startAddr s op rd rs1 rs2,
    Puts startAddr s (.div op rd rs1 rs2) rd (op.result (s.reg rs1) (s.reg rs2)) := by
  intro h
  obtain ⟨s', h', -⟩ := h 0 operands .div 5 6 8
  rw [execute_div_stops .div 5 6 8 (by unfold Divides; decide)] at h'
  split_ifs at h'

end CompSys.A5.Arithmetic
