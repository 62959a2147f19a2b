import CompSys.Lib.Bytes
import CompSys.Lib.Rv32

/-! # A machine that runs RV32IM

How a word is decoded: `decode` and `encode` are inverse to each other (`decode_encode`, `encode_of_decode`). And the
machine that the instructions act on: `x0` is 0 by its type, what is loaded is sign-extended or not as the instruction
says, and there is no next state after an illegal word, a misaligned access or a jump to an address that is not a
multiple of four. -/

namespace CompSys.Lib.Rv32

open CompSys.Lib.Bytes

/-! ### Decoding -/

/-- The offset has a place in the format. -/
def Instr.Valid : Instr → Prop
  | .jal _ offset => offset % 2 = 0 ∧ -2 ^ 20 ≤ offset ∧ offset < 2 ^ 20
  | .branch _ _ _ offset => offset % 2 = 0 ∧ -2 ^ 12 ≤ offset ∧ offset < 2 ^ 12
  | _ => True

def BranchOp.ofFunct3 (f : BitVec 3) : Option BranchOp :=
  [beq, bne, blt, bge, bltu, bgeu].find? fun op => op.funct3 = f

def LoadOp.ofFunct3 (f : BitVec 3) : Option LoadOp := [lb, lh, lw, lbu, lhu].find? fun op => op.funct3 = f

def StoreOp.ofFunct3 (f : BitVec 3) : Option StoreOp := [sb, sh, sw].find? fun op => op.funct3 = f

def ImmOp.ofFunct3 (f : BitVec 3) : Option ImmOp :=
  [addi, slti, sltiu, xori, ori, andi].find? fun op => op.funct3 = f

def ShiftOp.ofFuncts (f : BitVec 3) (g : BitVec 7) : Option ShiftOp :=
  [sll, srl, sra].find? fun op => op.funct3 = f ∧ op.funct7 = g

def AluOp.ofFuncts (f : BitVec 3) (g : BitVec 7) : Option AluOp :=
  [add, sub, slt, sltu, xor, or, and].find? fun op => op.funct3 = f ∧ op.funct7 = g

def MulOp.ofFunct3 (f : BitVec 3) : Option MulOp := [mul, mulh, mulhsu, mulhu].find? fun op => op.funct3 = f

def DivOp.ofFunct3 (f : BitVec 3) : Option DivOp := [div, divu, rem, remu].find? fun op => op.funct3 = f

section
variable (w : Value)

def wordRd : Reg := (w.extractLsb' 7 5).toFin

def wordRs1 : Reg := (w.extractLsb' 15 5).toFin

def wordRs2 : Reg := (w.extractLsb' 20 5).toFin

def wordFunct3 : BitVec 3 := w.extractLsb' 12 3

def wordFunct7 : BitVec 7 := w.extractLsb' 25 7

def wordImmI : BitVec 12 := w.extractLsb' 20 12

def wordImmS : BitVec 12 := w.extractLsb' 25 7 ++ w.extractLsb' 7 5

def wordImmB : BitVec 13 :=
  w.extractLsb' 31 1 ++ w.extractLsb' 7 1 ++ w.extractLsb' 25 6 ++ w.extractLsb' 8 4 ++ 0#1

def wordImmJ : BitVec 21 :=
  w.extractLsb' 31 1 ++ w.extractLsb' 12 8 ++ w.extractLsb' 20 1 ++ w.extractLsb' 21 10 ++ 0#1

/-- With two registers. -/
def decodeR : Option Instr :=
  ((AluOp.ofFuncts (wordFunct3 w) (wordFunct7 w)).map fun op => .alu op (wordRd w) (wordRs1 w) (wordRs2 w)) <|>
  ((ShiftOp.ofFuncts (wordFunct3 w) (wordFunct7 w)).map fun op => .shift op (wordRd w) (wordRs1 w) (wordRs2 w)) <|>
  (if wordFunct7 w = 1 then
    ((MulOp.ofFunct3 (wordFunct3 w)).map fun op => .mul op (wordRd w) (wordRs1 w) (wordRs2 w)) <|>
    ((DivOp.ofFunct3 (wordFunct3 w)).map fun op => .div op (wordRd w) (wordRs1 w) (wordRs2 w))
  else none)

/-- **Decoding.** -/
def decode : Option Instr :=
  let opcode := w.extractLsb' 0 7
  if opcode = 0x37 then some (.upper .lui (wordRd w) (w.extractLsb' 12 20))
  else if opcode = 0x17 then some (.upper .auipc (wordRd w) (w.extractLsb' 12 20))
  else if opcode = 0x6F then some (.jal (wordRd w) (wordImmJ w).toInt)
  else if opcode = 0x67 then
    if wordFunct3 w = 0 then some (.jalr (wordRd w) (wordRs1 w) (wordImmI w)) else none
  else if opcode = 0x63 then
    (BranchOp.ofFunct3 (wordFunct3 w)).map fun op => .branch op (wordRs1 w) (wordRs2 w) (wordImmB w).toInt
  else if opcode = 0x03 then
    (LoadOp.ofFunct3 (wordFunct3 w)).map fun op => .load op (wordRd w) (wordRs1 w) (wordImmI w)
  else if opcode = 0x23 then
    (StoreOp.ofFunct3 (wordFunct3 w)).map fun op => .store op (wordRs2 w) (wordRs1 w) (wordImmS w)
  else if opcode = 0x13 then
    ((ImmOp.ofFunct3 (wordFunct3 w)).map fun op => .immediate op (wordRd w) (wordRs1 w) (wordImmI w)) <|>
    ((ShiftOp.ofFuncts (wordFunct3 w) (wordFunct7 w)).map fun op =>
      .shiftImmediate op (wordRd w) (wordRs1 w) (w.extractLsb' 20 5))
  else if opcode = 0x33 then decodeR w
  else none

end

/-- `addi x0, x0, 0`, `ret` and a word of zeros. -/
example : decode 0x00000013 = some (.immediate .addi 0 0 0) ∧ decode 0x00008067 = some (.jalr 0 1 0) ∧
    decode 0 = none := by decide

/-! ### Fields of a word -/

@[simp] theorem regBits_toFin (b : BitVec 5) : regBits b.toFin = b := rfl

@[simp] theorem toFin_regBits (r : Reg) : (regBits r).toFin = r := rfl

section Fields
variable (imm12 : BitVec 12) (imm13 : BitVec 13) (imm20 : BitVec 20) (imm21 : BitVec 21)
variable (funct7 : BitVec 7) (rs2 rs1 : BitVec 5) (funct3 : BitVec 3) (rd : BitVec 5) (opcode : BitVec 7)

@[simp] theorem wordRd_formatR : wordRd (formatR funct7 rs2 rs1 funct3 rd opcode) = rd.toFin := by
  rw [wordRd, rd_formatR]

@[simp] theorem wordRs1_formatR : wordRs1 (formatR funct7 rs2 rs1 funct3 rd opcode) = rs1.toFin := by
  rw [wordRs1, rs1_formatR]

@[simp] theorem wordRs2_formatR : wordRs2 (formatR funct7 rs2 rs1 funct3 rd opcode) = rs2.toFin := by
  rw [wordRs2, rs2_formatR]

@[simp] theorem wordFunct3_formatR : wordFunct3 (formatR funct7 rs2 rs1 funct3 rd opcode) = funct3 :=
  funct3_formatR ..

@[simp] theorem wordFunct7_formatR : wordFunct7 (formatR funct7 rs2 rs1 funct3 rd opcode) = funct7 :=
  funct7_formatR ..

/-! The other formats are `formatR` with the immediate in its fields. -/

@[simp] theorem opcode_formatI' : (formatI imm12 rs1 funct3 rd opcode).extractLsb' 0 7 = opcode := by
  rw [formatI_eq, opcode_formatR]

@[simp] theorem wordRd_formatI : wordRd (formatI imm12 rs1 funct3 rd opcode) = rd.toFin := by
  rw [formatI_eq, wordRd_formatR]

@[simp] theorem wordRs1_formatI : wordRs1 (formatI imm12 rs1 funct3 rd opcode) = rs1.toFin := by
  rw [formatI_eq, wordRs1_formatR]

@[simp] theorem wordFunct3_formatI : wordFunct3 (formatI imm12 rs1 funct3 rd opcode) = funct3 := by
  rw [formatI_eq, wordFunct3_formatR]

@[simp] theorem opcode_formatS' : (formatS imm12 rs2 rs1 funct3 opcode).extractLsb' 0 7 = opcode := by
  rw [formatS_eq, opcode_formatR]

@[simp] theorem wordRs1_formatS : wordRs1 (formatS imm12 rs2 rs1 funct3 opcode) = rs1.toFin := by
  rw [formatS_eq, wordRs1_formatR]

@[simp] theorem wordRs2_formatS : wordRs2 (formatS imm12 rs2 rs1 funct3 opcode) = rs2.toFin := by
  rw [formatS_eq, wordRs2_formatR]

@[simp] theorem wordFunct3_formatS : wordFunct3 (formatS imm12 rs2 rs1 funct3 opcode) = funct3 := by
  rw [formatS_eq, wordFunct3_formatR]

@[simp] theorem opcode_formatB' : (formatB imm13 rs2 rs1 funct3 opcode).extractLsb' 0 7 = opcode := by
  rw [formatB_eq, opcode_formatR]

@[simp] theorem wordRs1_formatB : wordRs1 (formatB imm13 rs2 rs1 funct3 opcode) = rs1.toFin := by
  rw [formatB_eq, wordRs1_formatR]

@[simp] theorem wordRs2_formatB : wordRs2 (formatB imm13 rs2 rs1 funct3 opcode) = rs2.toFin := by
  rw [formatB_eq, wordRs2_formatR]

@[simp] theorem wordFunct3_formatB : wordFunct3 (formatB imm13 rs2 rs1 funct3 opcode) = funct3 := by
  rw [formatB_eq, wordFunct3_formatR]

@[simp] theorem opcode_formatU' : (formatU imm20 rd opcode).extractLsb' 0 7 = opcode := by
  rw [formatU_eq, opcode_formatR]

@[simp] theorem wordRd_formatU : wordRd (formatU imm20 rd opcode) = rd.toFin := by
  rw [formatU_eq, wordRd_formatR]

@[simp] theorem opcode_formatJ' : (formatJ imm21 rd opcode).extractLsb' 0 7 = opcode := by
  rw [formatJ_eq, opcode_formatU']

@[simp] theorem wordRd_formatJ : wordRd (formatJ imm21 rd opcode) = rd.toFin := by
  rw [formatJ_eq, wordRd_formatU]

@[simp] theorem wordImmI_formatI : wordImmI (formatI imm12 rs1 funct3 rd opcode) = imm12 := imm_formatI ..

@[simp] theorem wordImmS_formatS : wordImmS (formatS imm12 rs2 rs1 funct3 opcode) = imm12 := by
  rw [wordImmS, formatS_eq, funct7_formatR, rd_formatR]
  refine BitVec.eq_of_getLsbD_eq fun i hi => ?_
  rw [BitVec.getLsbD_append, BitVec.getLsbD_extractLsb', BitVec.getLsbD_extractLsb']
  interval_cases i <;> simp

theorem wordImmB_formatB (h : imm13.getLsbD 0 = false) : wordImmB (formatB imm13 rs2 rs1 funct3 opcode) = imm13 := by
  refine BitVec.eq_of_getLsbD_eq fun i hi => ?_
  simp only [wordImmB, formatB, BitVec.getLsbD_append, BitVec.getLsbD_extractLsb']
  interval_cases i <;> simp [-BitVec.getLsbD_eq_getElem, h]

theorem wordImmJ_formatJ (h : imm21.getLsbD 0 = false) : wordImmJ (formatJ imm21 rd opcode) = imm21 := by
  refine BitVec.eq_of_getLsbD_eq fun i hi => ?_
  simp only [wordImmJ, formatJ, BitVec.getLsbD_append, BitVec.getLsbD_extractLsb']
  interval_cases i <;> simp [-BitVec.getLsbD_eq_getElem, h]

end Fields

/-! ### Words from their fields -/

section
variable (w : Value)

theorem formatR_fields : formatR (wordFunct7 w) (w.extractLsb' 20 5) (w.extractLsb' 15 5) (wordFunct3 w)
    (w.extractLsb' 7 5) (w.extractLsb' 0 7) = w := by
  refine BitVec.eq_of_getLsbD_eq fun i hi => ?_
  simp only [formatR, wordFunct7, wordFunct3, BitVec.getLsbD_append, BitVec.getLsbD_extractLsb']
  interval_cases i <;> simp

theorem formatI_fields : formatI (wordImmI w) (w.extractLsb' 15 5) (wordFunct3 w) (w.extractLsb' 7 5)
    (w.extractLsb' 0 7) = w := by
  refine BitVec.eq_of_getLsbD_eq fun i hi => ?_
  simp only [formatI, wordImmI, wordFunct3, BitVec.getLsbD_append, BitVec.getLsbD_extractLsb']
  interval_cases i <;> simp

theorem formatS_fields : formatS (wordImmS w) (w.extractLsb' 20 5) (w.extractLsb' 15 5) (wordFunct3 w)
    (w.extractLsb' 0 7) = w := by
  refine BitVec.eq_of_getLsbD_eq fun i hi => ?_
  simp only [formatS, wordImmS, wordFunct3, BitVec.getLsbD_append, BitVec.getLsbD_extractLsb']
  interval_cases i <;> simp

theorem formatB_fields : formatB (wordImmB w) (w.extractLsb' 20 5) (w.extractLsb' 15 5) (wordFunct3 w)
    (w.extractLsb' 0 7) = w := by
  refine BitVec.eq_of_getLsbD_eq fun i hi => ?_
  simp only [formatB, wordImmB, wordFunct3, BitVec.getLsbD_append, BitVec.getLsbD_extractLsb']
  interval_cases i <;> simp

theorem formatU_fields : formatU (w.extractLsb' 12 20) (w.extractLsb' 7 5) (w.extractLsb' 0 7) = w := by
  refine BitVec.eq_of_getLsbD_eq fun i hi => ?_
  simp only [formatU, BitVec.getLsbD_append, BitVec.getLsbD_extractLsb']
  interval_cases i <;> simp

theorem formatJ_fields : formatJ (wordImmJ w) (w.extractLsb' 7 5) (w.extractLsb' 0 7) = w := by
  refine BitVec.eq_of_getLsbD_eq fun i hi => ?_
  simp only [formatJ, wordImmJ, BitVec.getLsbD_append, BitVec.getLsbD_extractLsb']
  interval_cases i <;> simp

end

/-! ### The round trip -/

theorem toInt_ofInt_offset {n : ℕ} {offset : ℤ} (hlo : -2 ^ n ≤ offset) (hhi : offset < 2 ^ n) :
    (BitVec.ofInt (n + 1) offset).toInt = offset :=
  BitVec.toInt_ofInt_eq_self (by omega) (by simpa using hlo) (by simpa using hhi)

theorem ofInt_getLsbD_zero {n : ℕ} {offset : ℤ} (h : offset % 2 = 0) :
    (BitVec.ofInt (n + 1) offset).getLsbD 0 = false := by
  have hdvd : (2 : ℤ) ∣ ((2 ^ (n + 1) : ℕ) : ℤ) := ⟨2 ^ n, by push_cast; rw [pow_succ']⟩
  have hmod := Int.emod_emod_of_dvd offset hdvd
  have hnonneg := Int.emod_nonneg offset (show ((2 ^ (n + 1) : ℕ) : ℤ) ≠ 0 by positivity)
  rw [← BitVec.testBit_toNat, BitVec.toNat_ofInt, Nat.testBit_zero]
  simp only [decide_eq_false_iff_not]
  omega

attribute [local simp] opcode_formatR

/-- **Every instruction** is decoded from its word. -/
theorem decode_encode {i : Instr} (h : i.Valid) : decode (encode i) = some i := by
  cases i with
  | upper op rd imm => cases op <;> simp [decode, encode, UpperOp.opcode, imm_formatU]
  | jal rd offset =>
    obtain ⟨heven, hlo, hhi⟩ := h
    simp [decode, encode, wordImmJ_formatJ _ _ _ (ofInt_getLsbD_zero heven), toInt_ofInt_offset (n := 20) hlo hhi]
  | jalr rd rs1 imm => simp [decode, encode]
  | branch op rs1 rs2 offset =>
    obtain ⟨heven, hlo, hhi⟩ := h
    cases op <;> simp [decode, encode, wordImmB_formatB _ _ _ _ _ (ofInt_getLsbD_zero heven),
      toInt_ofInt_offset (n := 12) hlo hhi, BranchOp.funct3, BranchOp.ofFunct3]
  | load op rd rs1 imm => cases op <;> simp [decode, encode, LoadOp.funct3, LoadOp.ofFunct3]
  | store op rs2 rs1 imm => cases op <;> simp [decode, encode, StoreOp.funct3, StoreOp.ofFunct3]
  | immediate op rd rs1 imm => cases op <;> simp [decode, encode, ImmOp.funct3, ImmOp.ofFunct3]
  | shiftImmediate op rd rs1 shamt =>
    cases op <;> simp [decode, encode, ShiftOp.funct3, ShiftOp.funct7, ShiftOp.ofFuncts, ImmOp.funct3, ImmOp.ofFunct3,
      rs2_formatR]
  | alu op rd rs1 rs2 =>
    cases op <;> simp [decode, decodeR, encode, AluOp.funct3, AluOp.funct7, AluOp.ofFuncts]
  | shift op rd rs1 rs2 =>
    cases op <;> simp [decode, decodeR, encode, ShiftOp.funct3, ShiftOp.funct7, AluOp.funct3, AluOp.funct7,
      AluOp.ofFuncts, ShiftOp.ofFuncts]
  | mul op rd rs1 rs2 =>
    cases op <;> simp [decode, decodeR, encode, MulOp.funct3, MulOp.ofFunct3, ShiftOp.funct7, AluOp.funct7,
      ShiftOp.funct3, AluOp.funct3, AluOp.ofFuncts, ShiftOp.ofFuncts]
  | div op rd rs1 rs2 =>
    cases op <;> simp [decode, decodeR, encode, DivOp.funct3, DivOp.ofFunct3, MulOp.funct3, MulOp.ofFunct3,
      ShiftOp.funct7, AluOp.funct7, ShiftOp.funct3, AluOp.funct3, AluOp.ofFuncts, ShiftOp.ofFuncts]

/-- A number without bit 0 is even. -/
theorem toInt_even {n : ℕ} {b : BitVec (n + 1)} (h : b.getLsbD 0 = false) : b.toInt % 2 = 0 := by
  have hnat : b.toNat % 2 = 0 := by
    rw [← BitVec.testBit_toNat, Nat.testBit_zero] at h
    simpa using h
  have hdvd : (2 : ℤ) ∣ ((2 ^ (n + 1) : ℕ) : ℤ) := ⟨2 ^ n, by push_cast; rw [pow_succ']⟩
  rw [BitVec.toInt_eq_toNat_cond]
  split_ifs <;> omega

theorem toInt_offset {n : ℕ} {b : BitVec (n + 1)} (h : b.getLsbD 0 = false) :
    b.toInt % 2 = 0 ∧ -2 ^ n ≤ b.toInt ∧ b.toInt < 2 ^ n := by
  have hlo := b.le_toInt
  have hhi := b.toInt_lt
  rw [Nat.add_sub_cancel] at hlo hhi
  exact ⟨toInt_even h, hlo, hhi⟩

theorem wordImmB_zero (w : Value) : (wordImmB w).getLsbD 0 = false := by
  simp only [wordImmB, BitVec.getLsbD_append]
  rfl

theorem wordImmJ_zero (w : Value) : (wordImmJ w).getLsbD 0 = false := by
  simp only [wordImmJ, BitVec.getLsbD_append]
  rfl

theorem encode_of_decodeR {w : Value} {i : Instr} (hop : w.extractLsb' 0 7 = 0x33) (h : decodeR w = some i) :
    encode i = w ∧ i.Valid := by
  have hw := formatR_fields w
  rw [hop] at hw
  simp only [decodeR, Option.orElse_eq_orElse, Option.orElse_eq_or, Option.or_eq_some_iff, Option.map_eq_some_iff,
    Option.map_eq_none_iff] at h
  rcases h with ⟨op, hop, rfl⟩ | ⟨-, ⟨op, hop, rfl⟩ | ⟨-, h⟩⟩
  · obtain ⟨h3, h7⟩ : op.funct3 = wordFunct3 w ∧ op.funct7 = wordFunct7 w := by simpa using List.find?_some hop
    rw [← h3, ← h7] at hw
    exact ⟨hw, trivial⟩
  · obtain ⟨h3, h7⟩ : op.funct3 = wordFunct3 w ∧ op.funct7 = wordFunct7 w := by simpa using List.find?_some hop
    rw [← h3, ← h7] at hw
    exact ⟨hw, trivial⟩
  · split_ifs at h with h7
    simp only [Option.or_eq_some_iff, Option.map_eq_some_iff] at h
    rcases h with ⟨op, hop, rfl⟩ | ⟨-, op, hop, rfl⟩
    · have h3 : op.funct3 = wordFunct3 w := by simpa using List.find?_some hop
      rw [h7, ← h3] at hw
      exact ⟨hw, trivial⟩
    · have h3 : op.funct3 = wordFunct3 w := by simpa using List.find?_some hop
      rw [h7, ← h3] at hw
      exact ⟨hw, trivial⟩

/-- **A word that is decoded** is that of the instruction. -/
theorem encode_of_decode {w : Value} {i : Instr} (h : decode w = some i) : encode i = w ∧ i.Valid := by
  unfold decode at h
  dsimp only at h
  split_ifs at h with h1 h2 h3 h4 h5 h6 h7 h8 h9 h10
  · obtain rfl := Option.some.inj h
    have hw := formatU_fields w
    rw [h1] at hw
    exact ⟨hw, trivial⟩
  · obtain rfl := Option.some.inj h
    have hw := formatU_fields w
    rw [h2] at hw
    exact ⟨hw, trivial⟩
  · obtain rfl := Option.some.inj h
    have hw := formatJ_fields w
    rw [h3] at hw
    exact ⟨by rw [encode, BitVec.ofInt_toInt]; exact hw, toInt_offset (n := 20) (wordImmJ_zero w)⟩
  · obtain rfl := Option.some.inj h
    have hw := formatI_fields w
    rw [h4, h5] at hw
    exact ⟨hw, trivial⟩
  · obtain ⟨op, hop, rfl⟩ := Option.map_eq_some_iff.mp h
    have hw := formatB_fields w
    have hf : op.funct3 = wordFunct3 w := by simpa using List.find?_some hop
    rw [h6, ← hf] at hw
    exact ⟨by rw [encode, BitVec.ofInt_toInt]; exact hw, toInt_offset (n := 12) (wordImmB_zero w)⟩
  · obtain ⟨op, hop, rfl⟩ := Option.map_eq_some_iff.mp h
    have hw := formatI_fields w
    have hf : op.funct3 = wordFunct3 w := by simpa using List.find?_some hop
    rw [h7, ← hf] at hw
    exact ⟨hw, trivial⟩
  · obtain ⟨op, hop, rfl⟩ := Option.map_eq_some_iff.mp h
    have hw := formatS_fields w
    have hf : op.funct3 = wordFunct3 w := by simpa using List.find?_some hop
    rw [h8, ← hf] at hw
    exact ⟨hw, trivial⟩
  · simp only [Option.orElse_eq_orElse, Option.orElse_eq_or, Option.or_eq_some_iff, Option.map_eq_some_iff] at h
    rcases h with ⟨op, hop, rfl⟩ | ⟨-, op, hop, rfl⟩
    · have hw := formatI_fields w
      have h3 : op.funct3 = wordFunct3 w := by simpa using List.find?_some hop
      rw [h9, ← h3] at hw
      exact ⟨hw, trivial⟩
    · obtain ⟨h3, h7⟩ : op.funct3 = wordFunct3 w ∧ op.funct7 = wordFunct7 w := by simpa using List.find?_some hop
      have hw := formatR_fields w
      rw [h9, ← h3, ← h7] at hw
      exact ⟨hw, trivial⟩
  · exact encode_of_decodeR h10 h

/-! ### The machine -/

/-- Registers and memory; `x0` is 0. -/
structure Machine where
  pc : Value
  reg : Reg → Value
  mem : Value → BitVec 8
  zero : ∀ r : Reg, r.val = 0 → reg r = 0

namespace Machine

variable (m : Machine)

/-- A value for a register, which `x0` does not take. -/
def write (rd : Reg) (v : Value) : Machine :=
  { m with
    reg := fun r => if r = rd ∧ r.val ≠ 0 then v else m.reg r
    zero := fun r hr => by rw [if_neg fun h => h.2 hr, m.zero r hr] }

def goto (pc : Value) : Machine := { m with pc := pc }

/-- To the instruction behind. -/
def next : Machine := m.goto (m.pc + 4)

/-- A jump or a taken branch, to an address that instructions may have. -/
def jump (target : Value) : Option Machine := if target.toNat % 4 = 0 then some (m.goto target) else none

/-- The four bytes from an address on. -/
def word (a : Value) : Value := Bytes.word (m.mem a) (m.mem (a + 1)) (m.mem (a + 2)) (m.mem (a + 3))

/-- What a load finds, at an address that is aligned. -/
def load (op : LoadOp) (a : Value) : Option Value :=
  if a.toNat % op.store.width = 0 then some (op.extend (m.word a)) else none

/-- What a store leaves, at an address that is aligned. -/
def store (op : StoreOp) (a v : Value) : Option Machine :=
  if a.toNat % op.width = 0 then
    some { m with mem := fun b => if (b - a).toNat < op.width then byteOf v (b - a).toNat else m.mem b }
  else none

/-- **An instruction.** -/
def exec : Instr → Option Machine
  | .upper op rd imm => some (m.write rd (op.result m.pc imm)).next
  | .jal rd offset => (m.write rd (m.pc + 4)).jump (m.pc + BitVec.ofInt 32 offset)
  | .jalr rd rs1 imm => (m.write rd (m.pc + 4)).jump ((m.reg rs1 + imm.signExtend 32) &&& ~~~1#32)
  | .branch op rs1 rs2 offset =>
    if op.Holds (m.reg rs1) (m.reg rs2) then m.jump (m.pc + BitVec.ofInt 32 offset) else some m.next
  | .load op rd rs1 imm => (m.load op (m.reg rs1 + imm.signExtend 32)).map fun v => (m.write rd v).next
  | .store op rs2 rs1 imm => (m.store op (m.reg rs1 + imm.signExtend 32) (m.reg rs2)).map next
  | .immediate op rd rs1 imm => some (m.write rd (op.result (m.reg rs1) (imm.signExtend 32))).next
  | .shiftImmediate op rd rs1 shamt => some (m.write rd (op.result (m.reg rs1) shamt.toNat)).next
  | .alu op rd rs1 rs2 => some (m.write rd (op.result (m.reg rs1) (m.reg rs2))).next
  | .shift op rd rs1 rs2 => some (m.write rd (op.result (m.reg rs1) ((m.reg rs2).toNat % 32))).next
  | .mul op rd rs1 rs2 => some (m.write rd (op.result (m.reg rs1) (m.reg rs2))).next
  | .div op rd rs1 rs2 => some (m.write rd (op.result (m.reg rs1) (m.reg rs2))).next

/-- The instruction that `pc` points to. -/
def fetch : Option Instr := if m.pc.toNat % 4 = 0 then decode (m.word m.pc) else none

/-- **One step.** -/
def step : Option Machine := m.fetch.bind m.exec

end Machine

end CompSys.Lib.Rv32
