import CompSys.A5.Manual
import CompSys.Lib.Rv32

/-! # Encoded instructions

What `simulate` cuts out of the word of an instruction, format by format (`opcode_formatR` and the
lemmas behind it): registers, codes and the immediates of the `U` format are those encoded. -/

namespace CompSys.A5.Encoded

open CompSys.Lib CompSys.Lib.Rv32 CompSys.A5.PagedMemory CompSys.A5.Decode CompSys.A5.Simulate
open CompSys.A5.Manual

/-! ### Fields of a word -/

theorem rd_val (word : Word) : (Decode.rd word).val = (word.extractLsb' 7 5).toNat := by
  have h : (word <<< 20) >>> 27 = (word.extractLsb' 7 5).setWidth 32 := by
    refine BitVec.eq_of_getLsbD_eq fun i hi => ?_
    interval_cases i <;> simp
  show ((word <<< 20) >>> 27).toNat = _
  rw [h, BitVec.toNat_setWidth_of_le (by decide)]

theorem rs1_val (word : Word) : (Decode.rs1 word).val = (word.extractLsb' 15 5).toNat := by
  have h : (word <<< 12) >>> 27 = (word.extractLsb' 15 5).setWidth 32 := by
    refine BitVec.eq_of_getLsbD_eq fun i hi => ?_
    interval_cases i <;> simp
  show ((word <<< 12) >>> 27).toNat = _
  rw [h, BitVec.toNat_setWidth_of_le (by decide)]

theorem rs2_val (word : Word) : (Decode.rs2 word).val = (word.extractLsb' 20 5).toNat := by
  have h : (word <<< 7) >>> 27 = (word.extractLsb' 20 5).setWidth 32 := by
    refine BitVec.eq_of_getLsbD_eq fun i hi => ?_
    interval_cases i <;> simp
  show ((word <<< 7) >>> 27).toNat = _
  rw [h, BitVec.toNat_setWidth_of_le (by decide)]

theorem sshiftRight_twenty (word : Word) :
    word.sshiftRight 20 = (word.extractLsb' 20 12).signExtend 32 := by
  refine BitVec.eq_of_getLsbD_eq fun i hi => ?_
  rw [BitVec.getLsbD_signExtend]
  interval_cases i <;> simp [BitVec.getElem_sshiftRight, BitVec.msb_eq_getLsbD_last]

theorem ushiftRight_twenty (word : Word) : word >>> 20 = (word.extractLsb' 20 12).setWidth 32 := by
  refine BitVec.eq_of_getLsbD_eq fun i hi => ?_
  interval_cases i <;> simp

theorem ushiftRight_signbit (word : Word) :
    word >>> 31 = ((word.extractLsb' 20 12).extractLsb' 11 1).setWidth 32 := by
  refine BitVec.eq_of_getLsbD_eq fun i hi => ?_
  interval_cases i <;> simp

theorem immU_eq (word : Word) : immU word = word.extractLsb' 12 20 ++ 0#12 := by
  refine BitVec.eq_of_getLsbD_eq fun i hi => ?_
  rw [BitVec.getLsbD_append]
  unfold immU
  interval_cases i <;> simp

/-- The two parts of the offset do not overlap. -/
theorem storeOffset_eq_or (word : Word) :
    storeOffset word = ((word <<< 20) >>> 27) ||| ((word >>> 25) <<< 5) := by
  refine BitVec.add_eq_or_of_and_eq_zero _ _ (BitVec.eq_of_getLsbD_eq fun i hi => ?_)
  interval_cases i <;> simp

/-! ### Words of each format -/

section Formats
variable (imm12 : BitVec 12) (imm13 : BitVec 13) (imm20 : BitVec 20) (imm21 : BitVec 21)
variable (funct7 : BitVec 7) (rs2 rs1 : BitVec 5) (funct3 : BitVec 3) (rd : BitVec 5)
variable (op : BitVec 7)

@[simp] theorem opcode_formatR : opcode (formatR funct7 rs2 rs1 funct3 rd op) = op.setWidth 32 := by
  rw [opcode_eq, field, Rv32.opcode_formatR]

@[simp] theorem func3_formatR :
    func3 (formatR funct7 rs2 rs1 funct3 rd op) = funct3.setWidth 32 := by
  rw [func3_eq, field, funct3_formatR]

@[simp] theorem func7_formatR :
    func7 (formatR funct7 rs2 rs1 funct3 rd op) = funct7.setWidth 32 := by
  rw [func7_eq, field, funct7_formatR]

@[simp] theorem rd_formatR : Decode.rd (formatR funct7 rs2 rs1 funct3 rd op) = rd.toFin :=
  Fin.ext (by rw [rd_val, Rv32.rd_formatR]; rfl)

@[simp] theorem rs1_formatR : Decode.rs1 (formatR funct7 rs2 rs1 funct3 rd op) = rs1.toFin :=
  Fin.ext (by rw [rs1_val, Rv32.rs1_formatR]; rfl)

@[simp] theorem rs2_formatR : Decode.rs2 (formatR funct7 rs2 rs1 funct3 rd op) = rs2.toFin :=
  Fin.ext (by rw [rs2_val, Rv32.rs2_formatR]; rfl)

@[simp] theorem signbit_formatR :
    formatR funct7 rs2 rs1 funct3 rd op >>> 31 = (funct7.extractLsb' 6 1).setWidth 32 := by
  refine BitVec.eq_of_getLsbD_eq fun i hi => ?_
  simp only [formatR, BitVec.getLsbD_ushiftRight, BitVec.getLsbD_append, BitVec.getLsbD_setWidth,
    BitVec.getLsbD_extractLsb']
  interval_cases i <;> simp

/-! The other formats are `formatR` with the immediate in its fields. -/

@[simp] theorem opcode_formatI : opcode (formatI imm12 rs1 funct3 rd op) = op.setWidth 32 := by
  rw [formatI_eq, opcode_formatR]

@[simp] theorem func3_formatI : func3 (formatI imm12 rs1 funct3 rd op) = funct3.setWidth 32 := by
  rw [formatI_eq, func3_formatR]

@[simp] theorem rd_formatI : Decode.rd (formatI imm12 rs1 funct3 rd op) = rd.toFin := by
  rw [formatI_eq, rd_formatR]

@[simp] theorem rs1_formatI : Decode.rs1 (formatI imm12 rs1 funct3 rd op) = rs1.toFin := by
  rw [formatI_eq, rs1_formatR]

@[simp] theorem opcode_formatS : opcode (formatS imm12 rs2 rs1 funct3 op) = op.setWidth 32 := by
  rw [formatS_eq, opcode_formatR]

@[simp] theorem func3_formatS : func3 (formatS imm12 rs2 rs1 funct3 op) = funct3.setWidth 32 := by
  rw [formatS_eq, func3_formatR]

@[simp] theorem rs1_formatS : Decode.rs1 (formatS imm12 rs2 rs1 funct3 op) = rs1.toFin := by
  rw [formatS_eq, rs1_formatR]

@[simp] theorem rs2_formatS : Decode.rs2 (formatS imm12 rs2 rs1 funct3 op) = rs2.toFin := by
  rw [formatS_eq, rs2_formatR]

@[simp] theorem opcode_formatB : opcode (formatB imm13 rs2 rs1 funct3 op) = op.setWidth 32 := by
  rw [formatB_eq, opcode_formatR]

@[simp] theorem func3_formatB : func3 (formatB imm13 rs2 rs1 funct3 op) = funct3.setWidth 32 := by
  rw [formatB_eq, func3_formatR]

@[simp] theorem rs1_formatB : Decode.rs1 (formatB imm13 rs2 rs1 funct3 op) = rs1.toFin := by
  rw [formatB_eq, rs1_formatR]

@[simp] theorem rs2_formatB : Decode.rs2 (formatB imm13 rs2 rs1 funct3 op) = rs2.toFin := by
  rw [formatB_eq, rs2_formatR]

@[simp] theorem opcode_formatU : opcode (formatU imm20 rd op) = op.setWidth 32 := by
  rw [formatU_eq, opcode_formatR]

@[simp] theorem rd_formatU : Decode.rd (formatU imm20 rd op) = rd.toFin := by
  rw [formatU_eq, rd_formatR]

@[simp] theorem opcode_formatJ : opcode (formatJ imm21 rd op) = op.setWidth 32 := by
  rw [formatJ_eq, opcode_formatU]

@[simp] theorem rd_formatJ : Decode.rd (formatJ imm21 rd op) = rd.toFin := by
  rw [formatJ_eq, rd_formatU]

/-! ### Immediates -/

@[simp] theorem sshiftRight_formatI :
    (formatI imm12 rs1 funct3 rd op).sshiftRight 20 = imm12.signExtend 32 := by
  rw [sshiftRight_twenty, imm_formatI]

@[simp] theorem ushiftRight_formatI :
    formatI imm12 rs1 funct3 rd op >>> 20 = imm12.setWidth 32 := by
  rw [ushiftRight_twenty, imm_formatI]

@[simp] theorem signbit_formatI :
    formatI imm12 rs1 funct3 rd op >>> 31 = (imm12.extractLsb' 11 1).setWidth 32 := by
  rw [ushiftRight_signbit, imm_formatI]

@[simp] theorem storeOffset_formatS :
    storeOffset (formatS imm12 rs2 rs1 funct3 op) = imm12.setWidth 32 := by
  rw [storeOffset_eq_or]
  refine BitVec.eq_of_getLsbD_eq fun i hi => ?_
  simp only [formatS, BitVec.getLsbD_or, BitVec.getLsbD_shiftLeft, BitVec.getLsbD_ushiftRight,
    BitVec.getLsbD_append, BitVec.getLsbD_extractLsb', BitVec.getLsbD_setWidth]
  interval_cases i <;> simp

@[simp] theorem immU_formatU : immU (formatU imm20 rd op) = imm20 ++ 0#12 := by
  rw [immU_eq, imm_formatU]

theorem immB_formatB (h : imm13[0] = false) :
    immB (formatB imm13 rs2 rs1 funct3 op) = imm13.signExtend 32 := by
  refine BitVec.eq_of_getLsbD_eq fun i hi => ?_
  rw [getLsbD_immB _ hi, BitVec.getLsbD_signExtend, BitVec.msb_eq_getLsbD_last]
  simp only [formatB, BitVec.getLsbD_append, BitVec.getLsbD_extractLsb']
  interval_cases i <;> simp [h]

theorem immJ_formatJ (h : imm21[0] = false) :
    immJ (formatJ imm21 rd op) = imm21.signExtend 32 := by
  refine BitVec.eq_of_getLsbD_eq fun i hi => ?_
  rw [getLsbD_immJ _ hi, BitVec.getLsbD_signExtend, BitVec.msb_eq_getLsbD_last]
  simp only [formatJ, BitVec.getLsbD_append, BitVec.getLsbD_extractLsb']
  interval_cases i <;> simp [h]

end Formats

end CompSys.A5.Encoded
