import CompSys.A5.ZeroRegister

/-! # The number `simulate` returns

At the exit `ecall` the loop returns `(program_counter - start_addr) / 4 + 1`, computed from the last
`pc` alone. That is the number of instructions executed when every one of them before the `ecall`
left `pc` four higher and the run is no longer than the address space has words
(`count_of_sequential`); a single jump makes it wrong (`jump_miscounts`). -/

namespace CompSys.A5.InstructionCount

open CompSys.Lib.Runs CompSys.A5.PagedMemory CompSys.A5.FlatMemory CompSys.A5.Decode
open CompSys.A5.Simulate CompSys.A5.StepFacts CompSys.A5.ZeroRegister

/-- The fetched word leaves `pc` four higher: it is no jump and no taken branch, unless to the next
instruction, and none of the words on which the loop stays where it is (a branch not taken, an
`ecall` with an `a7` it does not know, a right shift with an unknown `func7`). -/
def SequentialWord (s : State) (word : Word) : Prop :=
  (opcode word = Opcode.ecall → s.reg a7 = 1#32 ∨ s.reg a7 = 2#32) ∧
    (opcode word = Opcode.jal → jalOffset word = 4#32) ∧
    (opcode word = Opcode.jalr → jalrTarget word = s.pc + 4#32) ∧
    (opcode word = Opcode.branchInst → taken s word = true ∧ branchOffset word = 4#32) ∧
    ¬ (opcode word = Opcode.immediateInst ∧ BadShift word)

instance (s : State) (word : Word) : Decidable (SequentialWord s word) := by
  unfold SequentialWord; infer_instance

/-- The iteration fetches such a word. -/
def Sequential (s : State) : Prop := ∀ word, fetched s = some word → SequentialWord s word

theorem nextPc_of_sequential {s : State} {word : Word} (h : SequentialWord s word) :
    nextPc s word = s.pc + 4#32 := by
  obtain ⟨h1, h2, h3, h4, h5⟩ := h
  unfold nextPc
  split_ifs with g1 g2 g3 g4 g5 g6
  · rfl
  · exact absurd (h1 g1) g2
  · rw [h2 g3]
  · exact h3 g4
  · rw [(h4 g5).2]
  · exact absurd (h4 g5).1 g6
  · rfl

theorem step_pc {startAddr : Word} {s s' : State} (hs : Sequential s)
    (h : step startAddr s = .next s') : s'.pc = s.pc + 4#32 := by
  obtain ⟨word, hf⟩ := fetched_of_next h
  rw [(step_next hf h).pc, nextPc_of_sequential (hs word hf)]

/-- Only the exit `ecall` returns a count. -/
theorem step_done {startAddr : Word} {s s' : State} {k : ℕ} (h : step startAddr s = .done k s') :
    k = ((s.pc - startAddr) / 4#32 + 1#32).toNat := by
  cases hf : fetched s with
  | none =>
    unfold fetched at hf
    unfold step at h
    cases hr : memoryRdW s.mem s.pc with
    | error e => rw [hr] at h; cases h
    | ok r => rw [hr] at hf; cases hf
  | some word =>
    obtain ⟨mem, -, he⟩ := step_of_fetched startAddr hf
    rw [he] at h
    rcases execute_sorted startAddr { s with mem := mem } word with
      ⟨-, -, -, msg, hx⟩ | ⟨-, -, -, hx⟩ | ⟨-, -, -, hx⟩ | ⟨-, -, -, hx⟩
    · rw [hx] at h; cases h
    · rw [hx] at h; cases h
    · rw [hx] at h; cases h; rfl
    · rw [h] at hx; cases hx

theorem add_four_iterate (a : Word) (n : ℕ) :
    (fun p : Word => p + 4#32)^[n] a = a + BitVec.ofNat 32 (4 * n) := by
  induction n with
  | zero => simp
  | succ n ih =>
    rw [Function.iterate_succ_apply', ih, Nat.mul_succ, BitVec.ofNat_add, BitVec.add_assoc]

/-- `4 n` bytes past the start, with the wrap-around of `uint32_t`. -/
theorem count_four_mul (n : ℕ) :
    (BitVec.ofNat 32 (4 * n) / 4#32 + 1#32).toNat = n % 2 ^ 30 + 1 := by
  rw [BitVec.toNat_add, BitVec.toNat_udiv, BitVec.toNat_ofNat]
  show (4 * n % 2 ^ 32 / 4 + 1) % 2 ^ 32 = _
  omega

/-- **A run of sequential instructions is counted right** exactly when it has at most `2 ^ 30` of
them, the `ecall` included. -/
theorem count_of_sequential (startAddr : Word) (reg : Fin 32 → Word) (mem : Memory)
    (stdin : List (BitVec 8)) {n k : ℕ} {s s' : State}
    (hrun : Steps (fun a b => Sequential a ∧ step startAddr a = .next b)
      (initial startAddr reg mem stdin) n s)
    (hdone : step startAddr s = .done k s') : k = n + 1 ↔ n + 1 ≤ 2 ^ 30 := by
  have hpc : s.pc = (fun p : Word => p + 4#32)^[n] startAddr :=
    hrun.iterate (f := State.pc) fun a b hab => step_pc hab.1 hab.2
  have hsub : s.pc - startAddr = BitVec.ofNat 32 (4 * n) := by
    rw [hpc, add_four_iterate, BitVec.add_comm, BitVec.add_sub_cancel]
  rw [step_done hdone, hsub, count_four_mul]
  omega

/-! ### Runs on fixed memory -/

/-- `memory_create` and one word write. -/
def withWord (mem : Memory) (addr word : Word) : Memory :=
  setEntry (getPage mem addr).2 addr (getPage mem addr).1 word

/-- `lui a0, 1; ecall`. -/
def luiProgram : Memory := withWord (oneWord 0x00001537#32) 4#32 0x00000073#32

/-- `jalr ra, 8(x0)` and an `ecall` at address 8. -/
def jumpProgram : Memory := withWord (oneWord 0x008000e7#32) 8#32 0x00000073#32

/-- A straight-line run of two instructions, by `count_of_sequential`. -/
theorem count_of_sequential_lui :
    ∃ s s', Steps (fun a b => Sequential a ∧ step 0#32 a = .next b)
      (initial 0#32 (fun _ => 3#32) luiProgram []) 1 s ∧ step 0#32 s = .done 2 s' ∧
        (2 = 1 + 1 ↔ 1 + 1 ≤ 2 ^ 30) := by
  have hrun : Steps (fun a b => Sequential a ∧ step 0#32 a = .next b)
      (initial 0#32 (fun _ => 3#32) luiProgram []) 1
      (writeBack (initial 0#32 (fun _ => 3#32) luiProgram []) 10 0x1000#32) := by
    refine .tail .refl ⟨fun word hw => ?_, rfl⟩
    have he : word = 0x00001537#32 := (Option.some.inj hw).symm
    rw [he]
    decide
  exact ⟨_, _, hrun, rfl, count_of_sequential 0#32 _ _ [] hrun rfl⟩

/-- **A jump is miscounted**: `jalr ra, 8(x0)` and the exit `ecall` it jumps to are two instructions,
and `simulate` returns 3. -/
theorem jump_miscounts :
    ¬ ∀ (startAddr : Word) (reg : Fin 32 → Word) (mem : Memory) (stdin : List (BitVec 8)) (n k : ℕ)
      (s s' : State), Steps (fun a b => step startAddr a = .next b)
        (initial startAddr reg mem stdin) n s → step startAddr s = .done k s' → k = n + 1 := by
  intro h
  have hk := h 0#32 (fun _ => 3#32) jumpProgram [] 1 3 _ _ (.tail .refl rfl) rfl
  omega

end CompSys.A5.InstructionCount
