import CompSys.A5.StepFacts
import CompSys.Lib.Runs

/-! # Register `x0`

`simulate` sets `reg[zero]` once, before the loop, and no branch looks at `rd` before it writes
`reg[rd]`. So `x0` stays 0 as long as no instruction that writes a register names it
(`x0_stays_zero`), and a plain `ret` is enough to change it (`ret_writes_x0`). -/

namespace CompSys.A5.ZeroRegister

open CompSys.Lib.Runs CompSys.A5.PagedMemory CompSys.A5.Decode CompSys.A5.Simulate
open CompSys.A5.StepFacts

/-- The word is of a class that writes its `rd` register, and that is `x0`. -/
def WritesX0 (word : Word) : Prop :=
  opcode word ∈ [Opcode.lui, Opcode.auipc, Opcode.jal, Opcode.jalr, Opcode.loadInst,
    Opcode.immediateInst, Opcode.rtypeInst] ∧ rd word = zero

instance (word : Word) : Decidable (WritesX0 word) :=
  decidable_of_iff ((opcode word = Opcode.lui ∨ opcode word = Opcode.auipc ∨ opcode word = Opcode.jal ∨
    opcode word = Opcode.jalr ∨ opcode word = Opcode.loadInst ∨ opcode word = Opcode.immediateInst ∨
    opcode word = Opcode.rtypeInst) ∧ rd word = zero) (by simp [WritesX0])

/-- `addi x0, x0, 0`. -/
def nop : Word := 0x00000013#32

/-- The iteration fetches a word that does not name `x0` as the register it writes, or `nop`. -/
def SparesX0 (s : State) : Prop := ∀ word, fetched s = some word → ¬ WritesX0 word ∨ word = nop

/-- Only the classes of `WritesX0` may write `x0`. -/
theorem target_ne_zero {s : State} {word : Word} {startAddr : Word} {s' : State}
    (h : ¬ WritesX0 word) (hx : execute startAddr s word = .next s') : target s word ≠ some zero := by
  have hnf : ¬ Fails s word := by
    rcases execute_sorted startAddr s word with ⟨-, -, -, msg, he⟩ | ⟨h, -⟩ | ⟨h, -⟩ | ⟨h, -⟩
    · rw [he] at hx; cases hx
    · exact h
    · exact h
    · exact h
  intro ht
  unfold target at ht
  split_ifs at ht with h1 h2 h3
  · revert ht; decide
  · refine h ⟨?_, by simpa using ht⟩
    by_contra hmem
    simp only [List.mem_cons, List.not_mem_nil, or_false, not_or] at hmem
    obtain ⟨m1, m2, m3, m4, m5, m6, m7⟩ := hmem
    refine hnf ?_
    unfold Fails
    rw [if_neg fun hb => h3 (Or.inl hb), if_neg m5, if_neg fun hb => h3 (Or.inr hb), if_neg m7]
    simp only [List.mem_cons, List.not_mem_nil, or_false]
    tauto

theorem nop_next {startAddr : Word} {s s' : State} (h : execute startAddr s nop = .next s') :
    s'.reg zero = s.reg zero := by
  have he : execute startAddr s nop = .next (writeBack s 0 (s.reg 0 + 0#32)) := rfl
  rw [he] at h
  cases h
  show Function.update s.reg 0 (s.reg 0 + 0#32) 0 = s.reg 0
  simp

/-- **One iteration** that spares `x0`. -/
theorem step_x0 {startAddr : Word} {s s' : State} (hs : SparesX0 s)
    (h : step startAddr s = .next s') : s'.reg zero = s.reg zero := by
  obtain ⟨word, hf⟩ := fetched_of_next h
  obtain ⟨mem, -, he⟩ := step_of_fetched startAddr hf
  rw [he] at h
  rcases hs word hf with hw | rfl
  · exact (execute_next h).reg zero (target_ne_zero hw h)
  · exact nop_next (s := { s with mem := mem }) h

/-- **In every run whose iterations spare `x0`, every state reached has `x0 = 0`.** -/
theorem x0_stays_zero (startAddr : Word) (reg : Fin 32 → Word) (mem : Memory)
    (stdin : List (BitVec 8)) {s : State}
    (h : Reaches (fun a b => SparesX0 a ∧ step startAddr a = .next b)
      (initial startAddr reg mem stdin) s) : s.reg zero = 0#32 := by
  refine h.invariant (I := fun s => s.reg zero = 0#32) (fun a b ha hab => ?_) ?_
  · rw [step_x0 hab.1 hab.2, ha]
  · exact Function.update_self zero (0#32 : Word) reg

/-! ### A run that changes `x0` -/

/-- A memory that holds one word, at address 0. -/
def oneWord (word : Word) : Memory := setEntry memoryCreate 0#32 zeroPage word

/-- A run of one `lui a0, 1`, by `x0_stays_zero`. -/
theorem x0_stays_zero_lui :
    ∃ s, Reaches (fun a b => SparesX0 a ∧ step 0#32 a = .next b)
      (initial 0#32 (fun _ => 0#32) (oneWord 0x00001537#32) []) s ∧ s.pc = 4#32 ∧
        s.reg zero = 0#32 := by
  have hr : Reaches (fun a b => SparesX0 a ∧ step 0#32 a = .next b)
      (initial 0#32 (fun _ => 0#32) (oneWord 0x00001537#32) [])
      (writeBack (initial 0#32 (fun _ => 0#32) (oneWord 0x00001537#32) []) 10 0x1000#32) := by
    refine ⟨1, .tail .refl ⟨fun word hw => Or.inl ?_, rfl⟩⟩
    have he : word = 0x00001537#32 := (Option.some.inj hw).symm
    rw [he]
    decide
  exact ⟨_, hr, rfl, x0_stays_zero 0#32 _ _ [] hr⟩

/-- **`x0` does not stay 0**: `ret` (`jalr x0, 0(ra)`) at address 0 leaves the return address 4
in it. -/
theorem ret_writes_x0 :
    ¬ ∀ (startAddr : Word) (reg : Fin 32 → Word) (mem : Memory) (stdin : List (BitVec 8))
      (s : State), Reaches (fun a b => step startAddr a = .next b)
        (initial startAddr reg mem stdin) s → s.reg zero = 0#32 := by
  intro h
  have hs := h 0#32 (fun _ => 0#32) (oneWord 0x00008067#32) [] _ ⟨1, .tail .refl rfl⟩
  revert hs
  decide

end CompSys.A5.ZeroRegister
