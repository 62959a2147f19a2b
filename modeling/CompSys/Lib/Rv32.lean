import Mathlib.Tactic

/-! # RV32IM

The instructions of the manual but for the system instructions: how they are encoded (`encode`), and
in terms of numbers what comparisons, operations and extensions of loaded values are. Every format is
`formatR` with the bits of the immediate in its fields, and the fields of a word are those it was
made of (`opcode_formatR` and the lemmas behind it). What operations compute is then said in terms
of the operators on bit vectors, and where two of them agree (`sra_eq_srl_iff`, `mulhu_eq_mulh_iff`). -/

namespace CompSys.Lib.Rv32

abbrev Reg := Fin 32

abbrev Value := BitVec 32

/-! ### Instructions -/

inductive UpperOp | lui | auipc
deriving DecidableEq, Repr

inductive BranchOp | beq | bne | blt | bge | bltu | bgeu
deriving DecidableEq, Repr

inductive LoadOp | lb | lh | lw | lbu | lhu
deriving DecidableEq, Repr

inductive StoreOp | sb | sh | sw
deriving DecidableEq, Repr

/-- With an immediate operand; the shifts are apart. -/
inductive ImmOp | addi | slti | sltiu | xori | ori | andi
deriving DecidableEq, Repr

inductive ShiftOp | sll | srl | sra
deriving DecidableEq, Repr

/-- With two registers; the shifts are apart. -/
inductive AluOp | add | sub | slt | sltu | xor | or | and
deriving DecidableEq, Repr

inductive MulOp | mul | mulh | mulhsu | mulhu
deriving DecidableEq, Repr

inductive DivOp | div | divu | rem | remu
deriving DecidableEq, Repr

/-- An instruction; the offsets of `jal` and of branches are even, and only as many bits of them
count as the format has. -/
inductive Instr
  | upper (op : UpperOp) (rd : Reg) (imm : BitVec 20)
  | jal (rd : Reg) (offset : ℤ)
  | jalr (rd rs1 : Reg) (imm : BitVec 12)
  | branch (op : BranchOp) (rs1 rs2 : Reg) (offset : ℤ)
  | load (op : LoadOp) (rd rs1 : Reg) (imm : BitVec 12)
  | store (op : StoreOp) (rs2 rs1 : Reg) (imm : BitVec 12)
  | immediate (op : ImmOp) (rd rs1 : Reg) (imm : BitVec 12)
  | shiftImmediate (op : ShiftOp) (rd rs1 : Reg) (shamt : BitVec 5)
  | alu (op : AluOp) (rd rs1 rs2 : Reg)
  | shift (op : ShiftOp) (rd rs1 rs2 : Reg)
  | mul (op : MulOp) (rd rs1 rs2 : Reg)
  | div (op : DivOp) (rd rs1 rs2 : Reg)
deriving DecidableEq, Repr

/-! ### Formats -/

/-- The five bits of a register. -/
def regBits (r : Reg) : BitVec 5 := BitVec.ofFin r

def formatR (funct7 : BitVec 7) (rs2 rs1 : BitVec 5) (funct3 : BitVec 3) (rd : BitVec 5)
    (opcode : BitVec 7) : Value :=
  funct7 ++ rs2 ++ rs1 ++ funct3 ++ rd ++ opcode

def formatI (imm : BitVec 12) (rs1 : BitVec 5) (funct3 : BitVec 3) (rd : BitVec 5)
    (opcode : BitVec 7) : Value :=
  imm ++ rs1 ++ funct3 ++ rd ++ opcode

/-- `imm[11:5] rs2 rs1 funct3 imm[4:0] opcode`. -/
def formatS (imm : BitVec 12) (rs2 rs1 : BitVec 5) (funct3 : BitVec 3) (opcode : BitVec 7) : Value :=
  imm.extractLsb' 5 7 ++ rs2 ++ rs1 ++ funct3 ++ imm.extractLsb' 0 5 ++ opcode

/-- `imm[12] imm[10:5] rs2 rs1 funct3 imm[4:1] imm[11] opcode`. -/
def formatB (imm : BitVec 13) (rs2 rs1 : BitVec 5) (funct3 : BitVec 3) (opcode : BitVec 7) : Value :=
  imm.extractLsb' 12 1 ++ imm.extractLsb' 5 6 ++ rs2 ++ rs1 ++ funct3 ++ imm.extractLsb' 1 4 ++
    imm.extractLsb' 11 1 ++ opcode

def formatU (imm : BitVec 20) (rd : BitVec 5) (opcode : BitVec 7) : Value := imm ++ rd ++ opcode

/-- `imm[20] imm[10:1] imm[11] imm[19:12] rd opcode`. -/
def formatJ (imm : BitVec 21) (rd : BitVec 5) (opcode : BitVec 7) : Value :=
  imm.extractLsb' 20 1 ++ imm.extractLsb' 1 10 ++ imm.extractLsb' 11 1 ++ imm.extractLsb' 12 8 ++
    rd ++ opcode

/-! ### Codes -/

def UpperOp.opcode : UpperOp → BitVec 7
  | lui => 0x37
  | auipc => 0x17

def BranchOp.funct3 : BranchOp → BitVec 3
  | beq => 0
  | bne => 1
  | blt => 4
  | bge => 5
  | bltu => 6
  | bgeu => 7

def LoadOp.funct3 : LoadOp → BitVec 3
  | lb => 0
  | lh => 1
  | lw => 2
  | lbu => 4
  | lhu => 5

def StoreOp.funct3 : StoreOp → BitVec 3
  | sb => 0
  | sh => 1
  | sw => 2

def ImmOp.funct3 : ImmOp → BitVec 3
  | addi => 0
  | slti => 2
  | sltiu => 3
  | xori => 4
  | ori => 6
  | andi => 7

def ShiftOp.funct3 : ShiftOp → BitVec 3
  | sll => 1
  | srl => 5
  | sra => 5

def ShiftOp.funct7 : ShiftOp → BitVec 7
  | sll => 0
  | srl => 0
  | sra => 0x20

def AluOp.funct3 : AluOp → BitVec 3
  | add => 0
  | sub => 0
  | slt => 2
  | sltu => 3
  | xor => 4
  | or => 6
  | and => 7

def AluOp.funct7 : AluOp → BitVec 7
  | sub => 0x20
  | _ => 0

def MulOp.funct3 : MulOp → BitVec 3
  | mul => 0
  | mulh => 1
  | mulhsu => 2
  | mulhu => 3

def DivOp.funct3 : DivOp → BitVec 3
  | div => 4
  | divu => 5
  | rem => 6
  | remu => 7

/-- **The word of an instruction.** -/
def encode : Instr → Value
  | .upper op rd imm => formatU imm (regBits rd) op.opcode
  | .jal rd offset => formatJ (BitVec.ofInt 21 offset) (regBits rd) 0x6F
  | .jalr rd rs1 imm => formatI imm (regBits rs1) 0 (regBits rd) 0x67
  | .branch op rs1 rs2 offset =>
    formatB (BitVec.ofInt 13 offset) (regBits rs2) (regBits rs1) op.funct3 0x63
  | .load op rd rs1 imm => formatI imm (regBits rs1) op.funct3 (regBits rd) 0x03
  | .store op rs2 rs1 imm => formatS imm (regBits rs2) (regBits rs1) op.funct3 0x23
  | .immediate op rd rs1 imm => formatI imm (regBits rs1) op.funct3 (regBits rd) 0x13
  | .shiftImmediate op rd rs1 shamt => formatR op.funct7 shamt (regBits rs1) op.funct3 (regBits rd) 0x13
  | .alu op rd rs1 rs2 => formatR op.funct7 (regBits rs2) (regBits rs1) op.funct3 (regBits rd) 0x33
  | .shift op rd rs1 rs2 => formatR op.funct7 (regBits rs2) (regBits rs1) op.funct3 (regBits rd) 0x33
  | .mul op rd rs1 rs2 => formatR 1 (regBits rs2) (regBits rs1) op.funct3 (regBits rd) 0x33
  | .div op rd rs1 rs2 => formatR 1 (regBits rs2) (regBits rs1) op.funct3 (regBits rd) 0x33

/-! ### Fields -/

section Fields
variable (imm12 : BitVec 12) (imm13 : BitVec 13) (imm20 : BitVec 20) (imm21 : BitVec 21)
variable (funct7 : BitVec 7) (rs2 rs1 : BitVec 5) (funct3 : BitVec 3) (rd : BitVec 5) (opcode : BitVec 7)

theorem formatI_eq : formatI imm12 rs1 funct3 rd opcode =
    formatR (imm12.extractLsb' 5 7) (imm12.extractLsb' 0 5) rs1 funct3 rd opcode := by
  refine BitVec.eq_of_getLsbD_eq fun i hi => ?_
  simp only [formatR, formatI, BitVec.getLsbD_extractLsb', BitVec.getLsbD_append]
  interval_cases i <;> simp

theorem formatS_eq : formatS imm12 rs2 rs1 funct3 opcode =
    formatR (imm12.extractLsb' 5 7) rs2 rs1 funct3 (imm12.extractLsb' 0 5) opcode := rfl

theorem formatB_eq : formatB imm13 rs2 rs1 funct3 opcode =
    formatR (imm13.extractLsb' 12 1 ++ imm13.extractLsb' 5 6) rs2 rs1 funct3
      (imm13.extractLsb' 1 4 ++ imm13.extractLsb' 11 1) opcode := by
  refine BitVec.eq_of_getLsbD_eq fun i hi => ?_
  simp only [formatR, formatB, BitVec.getLsbD_extractLsb', BitVec.getLsbD_append]
  interval_cases i <;> simp

theorem formatU_eq : formatU imm20 rd opcode = formatR (imm20.extractLsb' 13 7) (imm20.extractLsb' 8 5)
    (imm20.extractLsb' 3 5) (imm20.extractLsb' 0 3) rd opcode := by
  refine BitVec.eq_of_getLsbD_eq fun i hi => ?_
  simp only [formatR, formatU, BitVec.getLsbD_extractLsb', BitVec.getLsbD_append]
  interval_cases i <;> simp

theorem formatJ_eq : formatJ imm21 rd opcode = formatU (imm21.extractLsb' 20 1 ++
    imm21.extractLsb' 1 10 ++ imm21.extractLsb' 11 1 ++ imm21.extractLsb' 12 8) rd opcode := rfl

theorem opcode_formatR : (formatR funct7 rs2 rs1 funct3 rd opcode).extractLsb' 0 7 = opcode := by
  refine BitVec.eq_of_getLsbD_eq fun i hi => ?_
  simp only [formatR, BitVec.getLsbD_extractLsb', BitVec.getLsbD_append]
  interval_cases i <;> simp

theorem rd_formatR : (formatR funct7 rs2 rs1 funct3 rd opcode).extractLsb' 7 5 = rd := by
  refine BitVec.eq_of_getLsbD_eq fun i hi => ?_
  simp only [formatR, BitVec.getLsbD_extractLsb', BitVec.getLsbD_append]
  interval_cases i <;> simp

theorem funct3_formatR : (formatR funct7 rs2 rs1 funct3 rd opcode).extractLsb' 12 3 = funct3 := by
  refine BitVec.eq_of_getLsbD_eq fun i hi => ?_
  simp only [formatR, BitVec.getLsbD_extractLsb', BitVec.getLsbD_append]
  interval_cases i <;> simp

theorem rs1_formatR : (formatR funct7 rs2 rs1 funct3 rd opcode).extractLsb' 15 5 = rs1 := by
  refine BitVec.eq_of_getLsbD_eq fun i hi => ?_
  simp only [formatR, BitVec.getLsbD_extractLsb', BitVec.getLsbD_append]
  interval_cases i <;> simp

theorem rs2_formatR : (formatR funct7 rs2 rs1 funct3 rd opcode).extractLsb' 20 5 = rs2 := by
  refine BitVec.eq_of_getLsbD_eq fun i hi => ?_
  simp only [formatR, BitVec.getLsbD_extractLsb', BitVec.getLsbD_append]
  interval_cases i <;> simp

theorem funct7_formatR : (formatR funct7 rs2 rs1 funct3 rd opcode).extractLsb' 25 7 = funct7 := by
  refine BitVec.eq_of_getLsbD_eq fun i hi => ?_
  simp only [formatR, BitVec.getLsbD_extractLsb', BitVec.getLsbD_append]
  interval_cases i <;> simp

theorem imm_formatI : (formatI imm12 rs1 funct3 rd opcode).extractLsb' 20 12 = imm12 := by
  refine BitVec.eq_of_getLsbD_eq fun i hi => ?_
  simp only [formatI, BitVec.getLsbD_extractLsb', BitVec.getLsbD_append]
  interval_cases i <;> simp

theorem imm_formatU : (formatU imm20 rd opcode).extractLsb' 12 20 = imm20 := by
  refine BitVec.eq_of_getLsbD_eq fun i hi => ?_
  simp only [formatU, BitVec.getLsbD_extractLsb', BitVec.getLsbD_append]
  interval_cases i <;> simp

end Fields

/-! ### What instructions compute -/

def BranchOp.Holds (x y : Value) : BranchOp → Prop
  | beq => x = y
  | bne => x ≠ y
  | blt => x.toInt < y.toInt
  | bge => y.toInt ≤ x.toInt
  | bltu => x.toNat < y.toNat
  | bgeu => y.toNat ≤ x.toNat

instance (op : BranchOp) (x y : Value) : Decidable (op.Holds x y) := by
  cases op <;> unfold BranchOp.Holds <;> infer_instance

/-- A loaded value in the register, from its low bits. -/
def LoadOp.extend (v : Value) : LoadOp → Value
  | lb => (v.setWidth 8).signExtend 32
  | lh => (v.setWidth 16).signExtend 32
  | lw => v
  | lbu => (v.setWidth 8).setWidth 32
  | lhu => (v.setWidth 16).setWidth 32

/-- The store of the same width. -/
def LoadOp.store : LoadOp → StoreOp
  | lb => .sb
  | lh => .sh
  | lw => .sw
  | lbu => .sb
  | lhu => .sh

/-- The number of bytes. -/
def StoreOp.width : StoreOp → ℕ
  | sb => 1
  | sh => 2
  | sw => 4

/-- `pc` is the address of the instruction. -/
def UpperOp.result (pc : Value) (imm : BitVec 20) : UpperOp → Value
  | lui => imm ++ 0#12
  | auipc => pc + (imm ++ 0#12)

def boolWord (c : Prop) [Decidable c] : Value := if c then 1 else 0

/-- `imm` is the immediate, sign-extended. -/
def ImmOp.result (x imm : Value) : ImmOp → Value
  | addi => x + imm
  | slti => boolWord (x.toInt < imm.toInt)
  | sltiu => boolWord (x.toNat < imm.toNat)
  | xori => x ^^^ imm
  | ori => x ||| imm
  | andi => x &&& imm

def AluOp.result (x y : Value) : AluOp → Value
  | add => x + y
  | sub => x - y
  | slt => boolWord (x.toInt < y.toInt)
  | sltu => boolWord (x.toNat < y.toNat)
  | xor => x ^^^ y
  | or => x ||| y
  | and => x &&& y

def ShiftOp.result (x : Value) (n : ℕ) : ShiftOp → Value
  | sll => BitVec.ofNat 32 (x.toNat * 2 ^ n)
  | srl => BitVec.ofNat 32 (x.toNat / 2 ^ n)
  | sra => BitVec.ofInt 32 (x.toInt / 2 ^ n)

def MulOp.result (x y : Value) : MulOp → Value
  | mul => BitVec.ofInt 32 (x.toInt * y.toInt)
  | mulh => BitVec.ofInt 32 (x.toInt * y.toInt / 2 ^ 32)
  | mulhsu => BitVec.ofInt 32 (x.toInt * y.toNat / 2 ^ 32)
  | mulhu => BitVec.ofNat 32 (x.toNat * y.toNat / 2 ^ 32)

def DivOp.result (x y : Value) : DivOp → Value
  | div => if y = 0 then -1 else BitVec.ofInt 32 (x.toInt.tdiv y.toInt)
  | divu => if y = 0 then -1 else BitVec.ofNat 32 (x.toNat / y.toNat)
  | rem => if y = 0 then x else BitVec.ofInt 32 (x.toInt.tmod y.toInt)
  | remu => if y = 0 then x else BitVec.ofNat 32 (x.toNat % y.toNat)

/-- The corner cases of the division. -/
example : DivOp.div.result 7 0 = -1 ∧ DivOp.rem.result 7 0 = 7 ∧
    DivOp.div.result (BitVec.intMin 32) (-1) = BitVec.intMin 32 ∧
    DivOp.rem.result (BitVec.intMin 32) (-1) = 0 := by decide

/-! ### Shifts -/

theorem sll_result (x : Value) (n : ℕ) : ShiftOp.sll.result x n = x <<< n := by
  rw [← BitVec.toNat_inj, BitVec.toNat_shiftLeft, Nat.shiftLeft_eq]
  rfl

theorem srl_result (x : Value) (n : ℕ) : ShiftOp.srl.result x n = x >>> n := by
  rw [← BitVec.toNat_inj, BitVec.toNat_ushiftRight, Nat.shiftRight_eq_div_pow]
  exact Nat.mod_eq_of_lt (lt_of_le_of_lt (Nat.div_le_self _ _) x.isLt)

theorem sra_result (x : Value) (n : ℕ) : ShiftOp.sra.result x n = x.sshiftRight n := by
  rw [← BitVec.ofInt_toInt (x := x.sshiftRight n), BitVec.toInt_sshiftRight,
    Int.shiftRight_eq_div_pow]
  simp [ShiftOp.result]

theorem sra_eq_srl_iff (x : Value) (n : ℕ) :
    ShiftOp.sra.result x n = ShiftOp.srl.result x n ↔ 0 ≤ x.toInt ∨ n = 0 := by
  rw [sra_result, srl_result]
  constructor
  · intro h
    by_contra hneg
    push Not at hneg
    have hmsb := congrArg BitVec.msb h
    rw [BitVec.msb_sshiftRight, BitVec.msb_ushiftRight, BitVec.msb_eq_toInt] at hmsb
    simp [hneg] at hmsb
  · rintro (h | h)
    · exact BitVec.sshiftRight_eq_of_msb_false (by rw [BitVec.msb_eq_toInt]; simpa using h)
    · simp [h]

/-! ### Products -/

theorem mul_result (x y : Value) : MulOp.mul.result x y = x * y := by
  rw [MulOp.result, BitVec.ofInt_mul, BitVec.ofInt_toInt, BitVec.ofInt_toInt]

/-- The upper word of a number of 64 bits. -/
theorem upper_ofInt (z : ℤ) :
    (BitVec.ofInt 64 z >>> 32).setWidth 32 = BitVec.ofInt 32 (z / 2 ^ 32) := by
  rw [← BitVec.toNat_inj, BitVec.toNat_setWidth, BitVec.toNat_ushiftRight, BitVec.toNat_ofInt,
    BitVec.toNat_ofInt, Nat.shiftRight_eq_div_pow]
  omega

theorem mulh_result (x y : Value) : MulOp.mulh.result x y =
   ((x.signExtend 64 * y.signExtend 64) >>> 32).setWidth 32 := by
  rw [BitVec.signExtend, BitVec.signExtend, ← BitVec.ofInt_mul, upper_ofInt, MulOp.result]

theorem toNat_eq (x : Value) : (x.toNat : ℤ) = x.toInt + if x.toInt < 0 then 2 ^ 32 else 0 := by
  rw [BitVec.toInt_eq_toNat_cond]
  have := x.isLt
  split_ifs <;> omega

theorem mulhsu_result (x y : Value) : MulOp.mulhsu.result x y =
    MulOp.mulh.result x y + if y.toInt < 0 then x else 0 := by
  rw [MulOp.result, MulOp.result, toNat_eq]
  split_ifs with hy
  · rw [mul_add, Int.add_mul_ediv_right _ _ (by decide), BitVec.ofInt_add, BitVec.ofInt_toInt]
  · simp

theorem mulhsu_eq_mulh_iff (x y : Value) :
    MulOp.mulhsu.result x y = MulOp.mulh.result x y ↔ 0 ≤ y.toInt ∨ x = 0 := by
  rw [mulhsu_result]
  split_ifs with hy
  · simp [hy]
  · simp [not_lt.mp hy]

theorem mulhu_result (x y : Value) : MulOp.mulhu.result x y =
    MulOp.mulh.result x y + (if y.toInt < 0 then x else 0) + if x.toInt < 0 then y else 0 := by
  have hcast : ((x.toNat * y.toNat / 2 ^ 32 : ℕ) : ℤ) = x.toNat * y.toNat / 2 ^ 32 := by norm_num
  rw [← mulhsu_result, MulOp.result, MulOp.result, ← BitVec.ofInt_natCast, hcast, toNat_eq x]
  split_ifs with hx
  · rw [add_mul, mul_comm (2 ^ 32 : ℤ), Int.add_mul_ediv_right _ _ (by decide), BitVec.ofInt_add,
      BitVec.ofInt_natCast, BitVec.ofNat_toNat, BitVec.setWidth_eq]
  · simp

theorem mulhu_eq_mulh_iff (x y : Value) :
    MulOp.mulhu.result x y = MulOp.mulh.result x y ↔ 0 ≤ x.toInt ∧ 0 ≤ y.toInt ∨ x = 0 ∨
      y = 0 ∨ x = BitVec.intMin 32 ∧ y = BitVec.intMin 32 := by
  have sign (v : Value) : v.toInt < 0 ↔ 2 ^ 31 ≤ v.toNat := by
    rw [BitVec.toInt_neg_iff]
    omega
  have hmin : BitVec.intMin 32 = 2147483648#32 := by decide
  rw [mulhu_result, hmin, BitVec.add_assoc, BitVec.add_right_eq_self, ← not_lt, ← not_lt]
  simp only [sign]
  by_cases hx : 2 ^ 31 ≤ x.toNat <;> by_cases hy : 2 ^ 31 ≤ y.toNat
  · rw [if_pos hx, if_pos hy]
    bv_omega
  · rw [if_pos hx, if_neg hy]
    bv_omega
  · rw [if_neg hx, if_pos hy]
    bv_omega
  · rw [if_neg hx, if_neg hy]
    exact iff_of_true (by decide) (Or.inl ⟨hx, hy⟩)

/-! ### Quotients -/

theorem div_result {x y : Value} (hy : y ≠ 0) : DivOp.div.result x y = x.sdiv y := by
  rw [DivOp.result, if_neg hy, ← BitVec.toInt_inj, BitVec.toInt_sdiv, BitVec.toInt_ofInt]

theorem rem_result {x y : Value} (hy : y ≠ 0) : DivOp.rem.result x y = x.srem y := by
  rw [DivOp.result, if_neg hy, ← BitVec.toInt_srem, BitVec.ofInt_toInt]

theorem divu_result {x y : Value} (hy : y ≠ 0) : DivOp.divu.result x y = x / y := by
  rw [DivOp.result, if_neg hy, ← BitVec.toNat_inj, BitVec.toNat_udiv]
  exact Nat.mod_eq_of_lt (lt_of_le_of_lt (Nat.div_le_self _ _) x.isLt)

theorem remu_result {x y : Value} (hy : y ≠ 0) : DivOp.remu.result x y = x % y := by
  rw [DivOp.result, if_neg hy, ← BitVec.toNat_inj, BitVec.toNat_umod]
  exact Nat.mod_eq_of_lt (lt_of_le_of_lt (Nat.mod_le _ _) x.isLt)

/-- **Quotient and remainder.** -/
theorem div_mul_add_rem (x y : Value) :
    DivOp.div.result x y * y + DivOp.rem.result x y = x := by
  by_cases hy : y = 0
  · simp [DivOp.result, hy]
  · rw [DivOp.result, DivOp.result, if_neg hy, if_neg hy]
    calc BitVec.ofInt 32 (x.toInt.tdiv y.toInt) * y + BitVec.ofInt 32 (x.toInt.tmod y.toInt)
        = BitVec.ofInt 32 (x.toInt.tdiv y.toInt) * BitVec.ofInt 32 y.toInt +
            BitVec.ofInt 32 (x.toInt.tmod y.toInt) := by rw [BitVec.ofInt_toInt]
      _ = BitVec.ofInt 32 (x.toInt.tdiv y.toInt * y.toInt + x.toInt.tmod y.toInt) := by
          rw [BitVec.ofInt_add, BitVec.ofInt_mul]
      _ = x := by rw [Int.tdiv_mul_add_tmod, BitVec.ofInt_toInt]

end CompSys.Lib.Rv32
