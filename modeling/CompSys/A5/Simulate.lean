import CompSys.A5.Decode

/-! # The interpreter loop (`A5/src/simulate.c`)

`step` is one iteration of `simulate`'s loop: the fetch, and then `execute`, one function per opcode
branch of the source. `int` and `uint32_t` are `BitVec 32`, signed comparison and division are
`slt`, `sdiv`, `srem`, and signed addition, subtraction and left shift wrap. What C leaves undefined
(a shift by an amount outside `0..31`, a zero divisor, `-2^31 / -1`) is an outcome of its own. -/

namespace CompSys.A5.Simulate

open CompSys.A5.PagedMemory CompSys.A5.Decode

/-- What `simulate` works on. `stdin` and `stdout` are the bytes still to be read and those already
written. -/
structure State where
  pc : Word
  reg : Fin 32 → Word
  mem : Memory
  stdin : List (BitVec 8)
  stdout : List (BitVec 8)

/-- How one iteration of the loop ends. -/
inductive Outcome
  /-- The loop goes on. -/
  | next (s : State)
  /-- `return num_of_instructions`. -/
  | done (numOfInstructions : ℕ) (s : State)
  /-- The message is printed, then `return EXIT_FAILURE`. -/
  | failure (message : String) (s : State)
  /-- `exit(-1)` in the memory module. -/
  | exit (e : Exit)
  /-- C leaves the behaviour undefined. -/
  | undefined

/-! ### C operators -/

/-- `<<`. -/
def shl (a n : Word) : Option Word := if n.toNat < 32 then some (a <<< n.toNat) else none

/-- `>>` on an `int`. -/
def sar (a n : Word) : Option Word := if n.toNat < 32 then some (a.sshiftRight n.toNat) else none

/-- `>>` on a `uint32_t`. -/
def shr (a n : Word) : Option Word := if n.toNat < 32 then some (a >>> n.toNat) else none

/-- The operands `/` and `%` on `int`s are not defined for. -/
def DivUndefined (a b : Word) : Prop := b = 0#32 ∨ (a = BitVec.intMin 32 ∧ b = -1#32)

instance (a b : Word) : Decidable (DivUndefined a b) := by unfold DivUndefined; infer_instance

/-- `/` on `int`s. -/
def divInt (a b : Word) : Option Word := if DivUndefined a b then none else some (a.sdiv b)

/-- `%` on `int`s. -/
def modInt (a b : Word) : Option Word := if DivUndefined a b then none else some (a.srem b)

/-- `/` on `uint32_t`s. -/
def divUint (a b : Word) : Option Word := if b = 0#32 then none else some (a / b)

/-- `%` on `uint32_t`s. -/
def modUint (a b : Word) : Option Word := if b = 0#32 then none else some (a % b)

/-- `c ? 1 : 0`. -/
def ofCond (c : Bool) : Word := if c then 1#32 else 0#32

/-! ### Ends of branches -/

/-- `program_counter += 4`. -/
def advance (s : State) : State := { s with pc := s.pc + 4#32 }

/-- `reg[rd] = v; program_counter += 4`. -/
def writeBack (s : State) (rd : Fin 32) (v : Word) : State :=
  { s with reg := Function.update s.reg rd v, pc := s.pc + 4#32 }

/-- The same, for a value that C may leave undefined. -/
def writeBack? (s : State) (rd : Fin 32) : Option Word → Outcome
  | some v => .next (writeBack s rd v)
  | none => .undefined

/-- `if (c) program_counter += offset`, with no `else`. -/
def branchIf (s : State) (c : Bool) (offset : Word) : Outcome :=
  if c then .next { s with pc := s.pc + offset } else .next s

/-! ### The branches of the loop body -/

/-- `getchar()`: the next byte, `-1` at the end. -/
def getchar : List (BitVec 8) → Word × List (BitVec 8)
  | [] => (-1#32, [])
  | c :: cs => (c.setWidth 32, cs)

def execEcall (startAddr : Word) (s : State) : Outcome :=
  if s.reg a7 = 1#32 then
    .next (writeBack { s with stdin := (getchar s.stdin).2 } a0 (getchar s.stdin).1)
  else if s.reg a7 = 2#32 then
    .next (advance { s with stdout := s.stdout ++ [(s.reg a0).setWidth 8] })
  else if s.reg a7 = 3#32 ∨ s.reg a7 = 93#32 then
    .done ((s.pc - startAddr) / 4#32 + 1#32).toNat s
  else
    -- the source has no `else` here
    .next s

/-- `(word >> 12) << 12`. -/
def immU (word : Word) : Word := (word >>> 12) <<< 12

def execLui (s : State) (word : Word) : Outcome := .next (writeBack s (rd word) (immU word))

def execAuipc (s : State) (word : Word) : Outcome :=
  .next (writeBack s (rd word) (s.pc + immU word))

/-- `tmp_offset` of the `JAL` branch. -/
def jalOffset (word : Word) : Word :=
  let imm_20 := (word.sshiftRight 20) <<< 20
  let imm_10_1 := ((word <<< 1) >>> 22) <<< 1
  let imm_11 := ((word <<< 11) >>> 31) <<< 11
  let imm_19_12 := ((word <<< 12) >>> 24) <<< 12
  ((imm_20 ||| imm_19_12) ||| imm_11) ||| imm_10_1

def execJal (s : State) (word : Word) : Outcome :=
  .next { s with
    reg := Function.update s.reg (rd word) (s.pc + 4#32), pc := s.pc + jalOffset word }

/-- `total_offset` of the `JALR` branch: the immediate plus the number of the register. -/
def jalrTarget (word : Word) : Word := word.sshiftRight 20 + BitVec.ofNat 32 (rs1 word).val

def execJalr (s : State) (word : Word) : Outcome :=
  .next { s with
    reg := Function.update s.reg (rd word) (s.pc + 4#32), pc := jalrTarget word }

/-- `total_offset` of the branch instructions. -/
def branchOffset (word : Word) : Word :=
  let imm_1_4 := ((word <<< 20) >>> 28) <<< 1
  let imm_5_10 := ((word <<< 1) >>> 26) <<< 5
  let imm_11 := ((word <<< 24) >>> 31) <<< 11
  let tmp_offset := (imm_1_4 ||| imm_5_10) ||| imm_11
  let signbit := (word.sshiftRight 31) <<< 12
  signbit ||| tmp_offset

open BranchInstructions in
def execBranch (s : State) (word : Word) : Outcome :=
  let offset := branchOffset word
  let x := s.reg (rs1 word)
  let y := s.reg (rs2 word)
  if func3 word = beq then branchIf s (x == y) offset
  else if func3 word = bne then branchIf s (x != y) offset
  else if func3 word = blt then branchIf s (x.slt y) offset
  else if func3 word = bge then branchIf s (!x.slt y) offset
  else if func3 word = bltu then branchIf s (x.ult y) offset
  else if func3 word = bgeu then branchIf s (!x.ult y) offset
  else .failure "ERROR OCCURED - no such BRANCH instr. was found \n" s

/-- `reg[rd] = v; program_counter += 4` after a read, unless the memory module exits. -/
def loadBack (s : State) (rd : Fin 32) : Except Exit (Word × Memory) → Outcome
  | .ok (v, mem) => .next (writeBack { s with mem := mem } rd v)
  | .error e => .exit e

open LoadInstructions in
def execLoad (s : State) (word : Word) : Outcome :=
  let addr := s.reg (rs1 word) + word >>> 20
  if func3 word = lb then loadBack s (rd word) (.ok (memoryRdB s.mem addr))
  else if func3 word = lh then loadBack s (rd word) (memoryRdH s.mem addr)
  else if func3 word = lw then loadBack s (rd word) (memoryRdW s.mem addr)
  else if func3 word = lbu then loadBack s (rd word) (.ok (memoryRdB s.mem addr))
  else if func3 word = lhu then loadBack s (rd word) (memoryRdH s.mem addr)
  else .failure "ERROR OCCURED - no such LOAD instr. was found \n" s

/-- `program_counter += 4` after a write, unless the memory module exits. -/
def storeBack (s : State) : Except Exit Memory → Outcome
  | .ok mem => .next (advance { s with mem := mem })
  | .error e => .exit e

/-- `total_offset` of the stores. -/
def storeOffset (word : Word) : Word :=
  let offset_0_4 := (word <<< 20) >>> 27
  let offset_5_11 := (word >>> 25) <<< 5
  offset_0_4 + offset_5_11

open StoreInstructions in
def execStore (s : State) (word : Word) : Outcome :=
  let addr := s.reg (rs1 word) + storeOffset word
  let data := s.reg (rs2 word)
  if func3 word = sb then storeBack s (.ok (memoryWrB s.mem addr data))
  else if func3 word = sh then storeBack s (memoryWrH s.mem addr data)
  else if func3 word = sw then storeBack s (memoryWrW s.mem addr data)
  else .failure "Error occured in STORE_INST\n" s

open ImmediateInstructions in
def execImmediate (s : State) (word : Word) : Outcome :=
  let x := s.reg (rs1 word)
  let shamt := (rs2 word).val
  let imm_11_0 := word >>> 20
  let signed_imm_11_0 := word.sshiftRight 20
  let signbit := word >>> 31
  if func3 word = addi then .next (writeBack s (rd word) (x + signed_imm_11_0))
  else if func3 word = slti then .next (writeBack s (rd word) (ofCond (x.slt signed_imm_11_0)))
  else if func3 word = sltiu then .next (writeBack s (rd word) (ofCond (x.ult signed_imm_11_0)))
  else if func3 word = xori then
    if signbit = 0x00#32 then .next (writeBack s (rd word) (x ^^^ imm_11_0))
    else .next (writeBack s (rd word) (x ^^^ signed_imm_11_0))
  else if func3 word = ori then
    if signbit = 0x00#32 then .next (writeBack s (rd word) (x ||| imm_11_0))
    else .next (writeBack s (rd word) (x ||| signed_imm_11_0))
  else if func3 word = andi then
    if signbit = 0x00#32 then .next (writeBack s (rd word) (x &&& imm_11_0))
    else .next (writeBack s (rd word) (x &&& signed_imm_11_0))
  else if func3 word = slli then .next (writeBack s (rd word) (x <<< shamt))
  else if func3 word = srliSrai then
    if func7 word = srli then .next (writeBack s (rd word) (x >>> shamt))
    else if func7 word = srai then
      if signbit = 0x00#32 then .next (writeBack s (rd word) (x >>> shamt))
      else .next (writeBack s (rd word) (x.sshiftRight shamt))
    else
      -- the source has no `else` here
      .next s
  else .failure "Error occured in IMMEDIATE_INST\n" s

/-- `(int64_t)x` and `(uint64_t)x` of an `int`. -/
def to64 (x : Word) : BitVec 64 := x.signExtend 64

open RtypeInstructions in
/-- The instructions with `func7 = 0x00`. -/
def execRtype0 (s : State) (word : Word) : Outcome :=
  let x := s.reg (rs1 word)
  let y := s.reg (rs2 word)
  if func3 word = add then .next (writeBack s (rd word) (x + y))
  else if func3 word = sll then writeBack? s (rd word) (shl x y)
  else if func3 word = slt then .next (writeBack s (rd word) (ofCond (x.slt y)))
  else if func3 word = sltu then .next (writeBack s (rd word) (ofCond (x.ult y)))
  else if func3 word = RtypeInstructions.xor then .next (writeBack s (rd word) (x ^^^ y))
  else if func3 word = srl then writeBack? s (rd word) (sar x y)
  else if func3 word = RtypeInstructions.or then .next (writeBack s (rd word) (x ||| y))
  else if func3 word = RtypeInstructions.and then .next (writeBack s (rd word) (x &&& y))
  else .failure "Error in IMMEDIATE_RTYP0 instructions\n" s

open RtypeInstructions in
/-- The instructions with `func7 = 0x20`. -/
def execRtype1 (s : State) (word : Word) : Outcome :=
  let x := s.reg (rs1 word)
  let y := s.reg (rs2 word)
  if func3 word = sub then .next (writeBack s (rd word) (x - y))
  else if func3 word = sra then
    let signbit := x >>> 31
    if signbit = 0x00#32 then writeBack? s (rd word) (shr x y)
    else if signbit = 0x01#32 then writeBack? s (rd word) (sar x y)
    else .failure "Error occured in RTYPE_1_INSTR\n" s
  else .failure "Error occured in RTYPE_1_INST\n" s

open RtypeInstructions in
/-- The instructions with `func7 = 0x01`. -/
def execMulType (s : State) (word : Word) : Outcome :=
  let x := s.reg (rs1 word)
  let y := s.reg (rs2 word)
  if func3 word = mul then .next (writeBack s (rd word) ((to64 y * to64 x).setWidth 32))
  else if func3 word = mulh then
    .next (writeBack s (rd word) (((to64 x * to64 y).sshiftRight 32).setWidth 32))
  else if func3 word = mulhsu then
    .next (writeBack s (rd word) (((to64 x * to64 y) >>> 32).setWidth 32))
  else if func3 word = mulhu then
    .next (writeBack s (rd word) (((to64 x * to64 y) >>> 32).setWidth 32))
  else if func3 word = div then
    if x ≠ 0#32 ∧ y ≠ 0#32 then writeBack? s (rd word) (divInt x y)
    else .failure "Error dividing by zero" s
  else if func3 word = divu then
    if x ≠ 0#32 ∧ y ≠ 0#32 then writeBack? s (rd word) (divUint x y)
    else .failure "Error dividing by zero" s
  else if func3 word = rem then writeBack? s (rd word) (modInt x y)
  else if func3 word = remu then writeBack? s (rd word) (modUint x y)
  else .failure "Error occured in MUL_TYPE\n" s

open RtypeInstructions in
def execRtype (s : State) (word : Word) : Outcome :=
  if func7 word = rtype0 then execRtype0 s word
  else if func7 word = rtype1 then execRtype1 s word
  else if func7 word = mulType then execMulType s word
  else .failure "Error occured in RTYPE_INST\n" s

open Opcode in
/-- The dispatch on the opcode. -/
def execute (startAddr : Word) (s : State) (word : Word) : Outcome :=
  if opcode word = ecall then execEcall startAddr s
  else if opcode word = lui then execLui s word
  else if opcode word = auipc then execAuipc s word
  else if opcode word = jal then execJal s word
  else if opcode word = jalr then execJalr s word
  else if opcode word = branchInst then execBranch s word
  else if opcode word = loadInst then execLoad s word
  else if opcode word = storeInst then execStore s word
  else if opcode word = immediateInst then execImmediate s word
  else if opcode word = rtypeInst then execRtype s word
  else .failure "ERROR OCCURED - no such opcode \n" s

/-! ### The loop -/

/-- **One iteration of the loop**: fetch and execute. -/
def step (startAddr : Word) (s : State) : Outcome :=
  match memoryRdW s.mem s.pc with
  | .ok (word, mem) => execute startAddr { s with mem := mem } word
  | .error e => .exit e

/-- The state at the first iteration: `x1` to `x31` are not initialised. -/
def initial (startAddr : Word) (reg : Fin 32 → Word) (mem : Memory) (stdin : List (BitVec 8)) :
    State :=
  ⟨startAddr, Function.update reg zero 0#32, mem, stdin, []⟩

/-- `simulate`, at most `fuel` iterations of it: how the last of them ended. -/
def simulate (startAddr : Word) : ℕ → State → Outcome
  | 0, s => .next s
  | fuel + 1, s =>
    match step startAddr s with
    | .next s' => simulate startAddr fuel s'
    | o => o

end CompSys.A5.Simulate
