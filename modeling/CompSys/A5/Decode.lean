import CompSys.A5.PagedMemory

/-! # Instruction words

The fields `simulate` cuts out of an instruction word by shifting left and then right, and the
numbers of its `enum`s. A register field is five bits wide, so it is an index of `reg`. -/

namespace CompSys.A5.Decode

open CompSys.A5.PagedMemory

/-! ### Fields -/

/-- `(word << 25) >> 25`. -/
def opcode (word : Word) : Word := (word <<< 25) >>> 25

/-- `(word << 17) >> 29`. -/
def func3 (word : Word) : Word := (word <<< 17) >>> 29

/-- `word >> 25`. -/
def func7 (word : Word) : Word := word >>> 25

theorem shift27_lt (v : Word) : (v >>> 27).toNat < 32 := by
  rw [BitVec.toNat_ushiftRight, Nat.shiftRight_eq_div_pow]; omega

/-- `(word << 20) >> 27`. -/
def rd (word : Word) : Fin 32 := ⟨((word <<< 20) >>> 27).toNat, shift27_lt _⟩

/-- `(word << 12) >> 27`, also called `base`. -/
def rs1 (word : Word) : Fin 32 := ⟨((word <<< 12) >>> 27).toNat, shift27_lt _⟩

/-- `(word << 7) >> 27`, also called `src` and `shamt`. -/
def rs2 (word : Word) : Fin 32 := ⟨((word <<< 7) >>> 27).toNat, shift27_lt _⟩

/-! ### `simulate.h` -/

def zero : Fin 32 := 0
def a0 : Fin 32 := 10
def a7 : Fin 32 := 17

/-! ### The `enum`s -/

namespace Opcode
@[simp] abbrev ecall : Word := 0x73#32
@[simp] abbrev lui : Word := 0x37#32
@[simp] abbrev auipc : Word := 0x17#32
@[simp] abbrev jal : Word := 0x6f#32
@[simp] abbrev jalr : Word := 0x67#32
@[simp] abbrev branchInst : Word := 0x63#32
@[simp] abbrev loadInst : Word := 0x03#32
@[simp] abbrev storeInst : Word := 0x23#32
@[simp] abbrev immediateInst : Word := 0x13#32
@[simp] abbrev rtypeInst : Word := 0x33#32
end Opcode

namespace BranchInstructions
@[simp] abbrev beq : Word := 0x00#32
@[simp] abbrev bne : Word := 0x01#32
@[simp] abbrev blt : Word := 0x04#32
@[simp] abbrev bge : Word := 0x05#32
@[simp] abbrev bltu : Word := 0x06#32
@[simp] abbrev bgeu : Word := 0x07#32
end BranchInstructions

namespace LoadInstructions
@[simp] abbrev lb : Word := 0x00#32
@[simp] abbrev lh : Word := 0x01#32
@[simp] abbrev lw : Word := 0x02#32
@[simp] abbrev lbu : Word := 0x04#32
@[simp] abbrev lhu : Word := 0x05#32
end LoadInstructions

namespace StoreInstructions
@[simp] abbrev sb : Word := 0x00#32
@[simp] abbrev sh : Word := 0x01#32
@[simp] abbrev sw : Word := 0x02#32
end StoreInstructions

namespace RtypeInstructions
@[simp] abbrev rtype0 : Word := 0x00#32
@[simp] abbrev rtype1 : Word := 0x20#32
@[simp] abbrev mulType : Word := 0x01#32
@[simp] abbrev add : Word := 0x00#32
@[simp] abbrev sub : Word := 0x00#32
@[simp] abbrev sll : Word := 0x01#32
@[simp] abbrev slt : Word := 0x02#32
@[simp] abbrev sltu : Word := 0x03#32
@[simp] abbrev xor : Word := 0x04#32
@[simp] abbrev srl : Word := 0x05#32
@[simp] abbrev sra : Word := 0x05#32
@[simp] abbrev or : Word := 0x06#32
@[simp] abbrev and : Word := 0x07#32
@[simp] abbrev mul : Word := 0x00#32
@[simp] abbrev mulh : Word := 0x01#32
@[simp] abbrev mulhsu : Word := 0x02#32
@[simp] abbrev mulhu : Word := 0x03#32
@[simp] abbrev div : Word := 0x04#32
@[simp] abbrev divu : Word := 0x05#32
@[simp] abbrev rem : Word := 0x06#32
@[simp] abbrev remu : Word := 0x07#32
end RtypeInstructions

namespace ImmediateInstructions
@[simp] abbrev addi : Word := 0x00#32
@[simp] abbrev slti : Word := 0x02#32
@[simp] abbrev sltiu : Word := 0x03#32
@[simp] abbrev xori : Word := 0x04#32
@[simp] abbrev ori : Word := 0x06#32
@[simp] abbrev andi : Word := 0x07#32
@[simp] abbrev slli : Word := 0x01#32
@[simp] abbrev srliSrai : Word := 0x05#32
@[simp] abbrev srli : Word := 0x00#32
@[simp] abbrev srai : Word := 0x20#32
end ImmediateInstructions

end CompSys.A5.Decode
