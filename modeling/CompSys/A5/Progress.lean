import CompSys.A5.Manual
import CompSys.A5.InstructionCount

/-! # Where the loop stalls

An iteration makes progress if it ends the run or moves `pc` to the next instruction. Several leaves
of the loop body do not move `pc` at all (a branch not taken, an `ecall` with an unknown `a7`, a
right shift with an unknown `func7`), and the targets of `JAL` and `JALR` are not always those of the
manual; `progress_iff` gives the exact condition. -/

namespace CompSys.A5.Progress

open CompSys.A5.PagedMemory CompSys.A5.FlatMemory CompSys.A5.Decode CompSys.A5.Simulate
open CompSys.A5.StepFacts CompSys.A5.ZeroRegister CompSys.A5.Manual

/-- A jump or a taken branch to itself. -/
def JumpsToSelf (s : State) (word : Word) : Prop :=
  (opcode word = Opcode.jal ∨ opcode word = Opcode.jalr ∨
    (opcode word = Opcode.branchInst ∧ taken s word = true)) ∧ successor s word = s.pc

/-- **Progress**: the iteration ends the simulation or sets `pc` to the successor of the instruction;
and it leaves registers, memory and `pc` unchanged on a jump or taken branch to itself only. -/
def Progresses (s : State) (word : Word) : Outcome → Prop
  | .next s' => s'.pc = successor s word ∧
      (s'.pc = s.pc → s'.reg = s.reg → bytes s'.mem = bytes s.mem → JumpsToSelf s word)
  | .undefined => False
  | _ => True

/-- The words on which the loop moves on as the manual has it: an `ecall` it knows, a `JAL` whose
offset it decodes right, a `JALR` whose target is right although the code adds the register's number,
a branch that is taken (or is no branch instruction), no right shift with an unknown `func7`, and no
operation C leaves undefined. -/
def MovesOn (s : State) (word : Word) : Prop :=
  (opcode word = Opcode.ecall → s.reg a7 ∈ [1#32, 2#32, 3#32, 93#32]) ∧
    (opcode word = Opcode.jal → JalFits word) ∧
    (opcode word = Opcode.jalr → jalrTarget word = jalrAddress s word) ∧
    (opcode word = Opcode.branchInst →
      func3In word [0#32, 1#32, 4#32, 5#32, 6#32, 7#32] → taken s word = true) ∧
    ¬ (opcode word = Opcode.immediateInst ∧ BadShift word) ∧ ¬ Undefined s word

theorem add_four_ne (a : Word) : a + 4#32 ≠ a := by bv_omega

/-- Where the loop goes on, it moves on exactly on the words of `MovesOn`. -/
theorem nextPc_eq_successor_iff {s : State} {word : Word} (hf : ¬ Fails s word)
    (hu : ¬ Undefined s word) (hx : ¬ Exits s word) :
    nextPc s word = successor s word ↔ MovesOn s word := by
  by_cases h1 : opcode word = Opcode.ecall
  · have h7 : ¬ (s.reg a7 = 3#32 ∨ s.reg a7 = 93#32) := fun h => hx ⟨h1, h⟩
    by_cases h12 : s.reg a7 = 1#32 ∨ s.reg a7 = 2#32
    · have hm : s.reg a7 ∈ [1#32, 2#32, 3#32, 93#32] := by simp; tauto
      simp [nextPc, successor, MovesOn, h1, hu, h12, hm]
    · have hm : s.reg a7 ∉ [1#32, 2#32, 3#32, 93#32] := by simp; tauto
      simp [nextPc, successor, MovesOn, h1, h12, hm]
  by_cases h2 : opcode word = Opcode.jal
  · simp [nextPc, successor, MovesOn, h2, hu, jalOffset_eq_iff]
  by_cases h3 : opcode word = Opcode.jalr
  · simp [nextPc, successor, MovesOn, h3, hu]
  by_cases h4 : opcode word = Opcode.branchInst
  · have hm : func3In word [0#32, 1#32, 4#32, 5#32, 6#32, 7#32] := by
      by_contra hm
      exact hf (by simp [Fails, h4, hm])
    cases ht : taken s word
    · simp [nextPc, successor, MovesOn, h4, hm, ht]
    · simp [nextPc, successor, MovesOn, h4, hu, hm, ht, branchOffset_eq]
  by_cases h5 : opcode word = Opcode.immediateInst ∧ BadShift word
  · simp [nextPc, successor, MovesOn, h5]
  · simp only [nextPc, successor, MovesOn, if_neg h1, if_neg h2, if_neg h3, if_neg h4, if_neg h5]
    simp [h1, h2, h3, h4, h5, hu]

/-- A jump or branch is the only way to have `pc` as its own successor. -/
theorem jumpsToSelf_of_successor {s : State} {word : Word} (h : successor s word = s.pc) :
    JumpsToSelf s word := by
  refine ⟨?_, h⟩
  unfold successor at h
  split_ifs at h with h1 h2 h3
  · exact Or.inl h1
  · exact Or.inr (Or.inl h2)
  · exact Or.inr (Or.inr h3)
  · exact absurd h (add_four_ne _)

/-- On a failing word there is nothing to move on from. -/
theorem movesOn_of_fails {s : State} {word : Word} (hf : Fails s word) (hu : ¬ Undefined s word) :
    MovesOn s word := by
  refine ⟨fun h => ?_, fun h => ?_, fun h => ?_, fun h hm => ?_, fun h => ?_, hu⟩
  · exact absurd hf (by simp [Fails, h])
  · exact absurd hf (by simp [Fails, h])
  · exact absurd hf (by simp [Fails, h])
  · exact absurd hf (by simp [Fails, h, hm])
  · exact absurd hf (by simp [Fails, h.1])

/-- **An iteration makes progress exactly on the words of `MovesOn`**, whatever the state and the
fetched word. -/
theorem progress_iff (startAddr : Word) {s : State} {word : Word} (hfetch : fetched s = some word) :
    Progresses s word (step startAddr s) ↔ MovesOn s word := by
  obtain ⟨mem, hmem, he⟩ := step_of_fetched startAddr hfetch
  rcases execute_sorted startAddr { s with mem := mem } word with
    ⟨hf, hu, -, msg, hx⟩ | ⟨-, hu, -, hx⟩ | ⟨-, -, ⟨h1, h7⟩, hx⟩ | ⟨hf, hu, hn, hp⟩
  · rw [he, hx]
    exact ⟨fun _ => movesOn_of_fails hf hu, fun _ => trivial⟩
  · rw [he, hx]
    exact ⟨fun h => h.elim, fun h => h.2.2.2.2.2 hu⟩
  · rw [he, hx]
    refine ⟨fun _ => ?_, fun _ => trivial⟩
    have h7' : s.reg a7 = 3#32 ∨ s.reg a7 = 93#32 := h7
    simp only [MovesOn, Undefined, h1]
    simp
    tauto
  · cases ho : step startAddr s with
    | next s' =>
      have hpc : s'.pc = nextPc s word := (step_next hfetch ho).pc
      have hiff : nextPc s word = successor s word ↔ MovesOn s word :=
        nextPc_eq_successor_iff (s := s) hf hu hn
      refine ⟨fun h => hiff.mp (hpc.symm.trans h.1), fun h => ?_⟩
      have hsucc : s'.pc = successor s word := hpc.trans (hiff.mpr h)
      exact ⟨hsucc, fun hs _ _ => jumpsToSelf_of_successor (hsucc.symm.trans hs)⟩
    | exit e =>
      rw [← he, ho] at hp
      refine ⟨fun _ => ?_, fun _ => trivial⟩
      have hu' : ¬ Undefined s word := hu
      rcases hp with hp | hp <;> simp [MovesOn, hp, hu']
    | done k s' => rw [← he, ho] at hp; exact hp.elim
    | failure msg s' => rw [← he, ho] at hp; exact hp.elim
    | undefined => rw [← he, ho] at hp; exact hp.elim

/-! ### Fixed words -/

/-- `add a0, a1, a2` makes progress, by `progress_iff`. -/
theorem progress_add :
    Progresses (initial 0#32 (fun _ => 0#32) (oneWord 0x00c58533#32) []) 0x00c58533#32
      (step 0#32 (initial 0#32 (fun _ => 0#32) (oneWord 0x00c58533#32) [])) := by
  refine (progress_iff 0#32 rfl).mpr ?_
  simp only [MovesOn, Undefined, RtypeUndefined]
  decide

/-- **A branch that is not taken stalls the loop**: on `beq x1, x2, 8` with different operands
nothing changes, and the next iteration fetches the same word. -/
theorem branch_not_taken_stalls :
    ¬ ∀ (startAddr : Word) (s : State) (word : Word), fetched s = some word →
      Progresses s word (step startAddr s) := by
  intro h
  have hp := h 0#32 (initial 0#32 (fun r => BitVec.ofNat 32 r.val) (oneWord 0x00208463#32) [])
    0x00208463#32 rfl
  have hpc : (0#32 : Word) = 4#32 := hp.1
  revert hpc
  decide

end CompSys.A5.Progress
