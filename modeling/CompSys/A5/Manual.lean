import CompSys.A5.StepFacts

/-! # RV32 as the manual defines it

The fields and immediates of the instruction formats and the address of the next instruction, stated
on their own and compared with what `simulate` computes. The fields are cut out right (`opcode_eq`).
The offset of a conditional branch is decoded right (`branchOffset_eq`); that of `JAL` only when the
eleven bits above bit 19 of the word repeat its sign bit (`jalOffset_eq_iff`). -/

namespace CompSys.A5.Manual

open CompSys.A5.PagedMemory CompSys.A5.Decode CompSys.A5.Simulate CompSys.A5.StepFacts

/-- `len` bits of the word from bit `start` on. -/
def field (word : Word) (start len : ℕ) : Word := (word.extractLsb' start len).setWidth 32

/-- The I-format immediate, `inst[31:20]`. -/
def immI (word : Word) : Word := (word.extractLsb' 20 12).signExtend 32

/-- The B-format offset, `inst[31] inst[7] inst[30:25] inst[11:8] 0`. -/
def immB (word : Word) : Word :=
  (word.extractLsb' 31 1 ++ word.extractLsb' 7 1 ++ word.extractLsb' 25 6 ++
    word.extractLsb' 8 4 ++ 0#1).signExtend 32

/-- The J-format offset, `inst[31] inst[19:12] inst[20] inst[30:21] 0`. -/
def immJ (word : Word) : Word :=
  (word.extractLsb' 31 1 ++ word.extractLsb' 12 8 ++ word.extractLsb' 20 1 ++
    word.extractLsb' 21 10 ++ 0#1).signExtend 32

/-- Where `JALR` goes: the value of `rs1` plus the immediate, bit 0 cleared. -/
def jalrAddress (s : State) (word : Word) : Word := (s.reg (rs1 word) + immI word) &&& ~~~1#32

open Opcode in
/-- **The address of the next instruction.** -/
def successor (s : State) (word : Word) : Word :=
  if opcode word = jal then s.pc + immJ word
  else if opcode word = jalr then jalrAddress s word
  else if opcode word = branchInst ∧ taken s word then s.pc + immB word
  else s.pc + 4#32

/-! ### Fields -/

theorem opcode_eq (word : Word) : opcode word = field word 0 7 := by
  refine BitVec.eq_of_getLsbD_eq fun i hi => ?_
  unfold opcode field
  interval_cases i <;> simp

theorem func3_eq (word : Word) : func3 word = field word 12 3 := by
  refine BitVec.eq_of_getLsbD_eq fun i hi => ?_
  unfold func3 field
  interval_cases i <;> simp

theorem func7_eq (word : Word) : func7 word = field word 25 7 := by
  refine BitVec.eq_of_getLsbD_eq fun i hi => ?_
  unfold func7 field
  interval_cases i <;> simp

/-! ### Offsets -/

theorem getLsbD_immB (word : Word) {i : ℕ} (hi : i < 32) :
    (immB word).getLsbD i =
      if i = 0 then false else if i < 5 then word.getLsbD (i + 7)
      else if i < 11 then word.getLsbD (i + 20) else if i = 11 then word.getLsbD 7
      else word.getLsbD 31 := by
  unfold immB
  rw [BitVec.getLsbD_signExtend]
  simp only [BitVec.msb_append, BitVec.getLsbD_append, BitVec.getLsbD_extractLsb']
  interval_cases i <;> simp [BitVec.msb_eq_getLsbD_last]

theorem getLsbD_immJ (word : Word) {i : ℕ} (hi : i < 32) :
    (immJ word).getLsbD i =
      if i = 0 then false else if i < 11 then word.getLsbD (i + 20)
      else if i = 11 then word.getLsbD 20 else if i < 20 then word.getLsbD i
      else word.getLsbD 31 := by
  unfold immJ
  rw [BitVec.getLsbD_signExtend]
  simp only [BitVec.msb_append, BitVec.getLsbD_append, BitVec.getLsbD_extractLsb']
  interval_cases i <;> simp [BitVec.msb_eq_getLsbD_last]

/-- **The offset of a branch is decoded right.** -/
theorem branchOffset_eq (word : Word) : branchOffset word = immB word := by
  refine BitVec.eq_of_getLsbD_eq fun i hi => ?_
  rw [getLsbD_immB word hi]
  unfold branchOffset
  interval_cases i <;> simp [BitVec.getElem_sshiftRight, BitVec.msb_eq_getLsbD_last]

theorem getLsbD_jalOffset (word : Word) {i : ℕ} (hi : i < 32) :
    (jalOffset word).getLsbD i =
      if i = 0 then false else if i < 11 then word.getLsbD (i + 20)
      else if i = 11 then word.getLsbD 20 else word.getLsbD i := by
  unfold jalOffset
  interval_cases i <;> simp [BitVec.getElem_sshiftRight]

/-- Bits 20 to 30 of the word repeat bit 31. -/
def JalFits (word : Word) : Prop := ∀ i < 11, word.getLsbD (20 + i) = word.getLsbD 31

instance (word : Word) : Decidable (JalFits word) := by unfold JalFits; infer_instance

/-- **The offset of `JAL`** is decoded right exactly when the bits that belong to its low half also
pass for the sign extension. -/
theorem jalOffset_eq_iff (word : Word) : jalOffset word = immJ word ↔ JalFits word := by
  constructor
  · intro h i hi
    have hb := congrArg (fun v => v.getLsbD (20 + i)) h
    simp only [getLsbD_jalOffset word (show 20 + i < 32 by omega),
      getLsbD_immJ word (show 20 + i < 32 by omega)] at hb
    simpa [show ¬ 20 + i < 11 by omega, show ¬ 20 + i = 11 by omega,
      show ¬ 20 + i < 20 by omega] using hb
  · intro h
    refine BitVec.eq_of_getLsbD_eq fun i hi => ?_
    rw [getLsbD_jalOffset word hi, getLsbD_immJ word hi]
    split_ifs with h0 h1 h2 h3
    · rfl
    · rfl
    · rfl
    · rfl
    · rcases Nat.lt_or_ge i 31 with h4 | h4
      · have := h (i - 20) (by omega)
        rwa [show 20 + (i - 20) = i by omega] at this
      · rw [show i = 31 by omega]

end CompSys.A5.Manual
