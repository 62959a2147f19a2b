import CompSys.A5.Manual
import CompSys.A5.ZeroRegister

/-! # Which words are executed

`Legal` is the instruction set. The dispatch on the opcode rejects every word outside the ten opcodes,
but below it not every field is checked: `JALR` ignores its `func3`, `SLLI` its `func7`, and an
`ecall` every bit above the opcode; two chains without an `else` neither execute nor reject; and
divisions fail on a zero dividend or divisor. `accepts_iff` says that these, and the operations C
leaves undefined, are all there is. -/

namespace CompSys.A5.Accepts

open CompSys.A5.PagedMemory CompSys.A5.FlatMemory CompSys.A5.Decode CompSys.A5.Simulate
open CompSys.A5.StepFacts CompSys.A5.Manual CompSys.A5.ZeroRegister

/-- The values of `a7` an `ecall` has a meaning for. -/
def KnownCall (s : State) : Prop := s.reg a7 ∈ [1#32, 2#32, 3#32, 93#32]

instance (s : State) : Decidable (KnownCall s) :=
  decidable_of_iff (s.reg a7 = 1#32 ∨ s.reg a7 = 2#32 ∨ s.reg a7 = 3#32 ∨ s.reg a7 = 93#32) (by simp [KnownCall])

open Opcode in
/-- **The instruction set**, by the opcode, `funct3` and `funct7` fields of the manual. -/
def Legal (s : State) (word : Word) : Prop :=
  let op := field word 0 7
  let f3 := field word 12 3
  let f7 := field word 25 7
  op ∈ [lui, auipc, jal] ∨
    (op = jalr ∧ f3 = 0#32) ∨
    (op = branchInst ∧ f3 ∈ [0#32, 1#32, 4#32, 5#32, 6#32, 7#32]) ∨
    (op = loadInst ∧ f3 ∈ [0#32, 1#32, 2#32, 4#32, 5#32]) ∨
    (op = storeInst ∧ f3 ∈ [0#32, 1#32, 2#32]) ∨
    (op = immediateInst ∧ (f3 = 1#32 → f7 = 0#32) ∧ (f3 = 5#32 → f7 ∈ [0#32, 0x20#32])) ∨
    (op = rtypeInst ∧ (f7 = 0#32 ∨ (f7 = 0x20#32 ∧ f3 ∈ [0#32, 5#32]) ∨ f7 = 1#32)) ∨
    (word = 0x00000073#32 ∧ KnownCall s)

/-- The iteration performs the instruction: the loop goes on or returns its count, or the memory
module exits on the address of a load or a store. -/
def Executed : Outcome → Prop
  | .next _ => True
  | .done _ _ => True
  | .exit _ => True
  | .failure _ _ => False
  | .undefined => False

/-- The iteration returns `EXIT_FAILURE` with registers, memory and `pc` as they were. -/
def Rejected (s : State) : Outcome → Prop
  | .failure _ s' => s'.reg = s.reg ∧ bytes s'.mem = bytes s.mem ∧ s'.pc = s.pc
  | _ => False

/-- **The decoder is exact** on a word: it executes the word if it is legal and rejects it if it is
not. -/
def Exact (s : State) (word : Word) (o : Outcome) : Prop :=
  (Executed o ↔ Legal s word) ∧ (¬ Legal s word → Rejected s o)

/-- A division with a zero operand. -/
def ZeroDivision (s : State) (word : Word) : Prop :=
  opcode word = Opcode.rtypeInst ∧ func7 word = RtypeInstructions.mulType ∧
    func3In word [RtypeInstructions.div, RtypeInstructions.divu] ∧
    (s.reg (rs1 word) = 0#32 ∨ s.reg (rs2 word) = 0#32)

/-- The words that stay clear of the fields the code does not check, of divisions with a zero operand
and of what C leaves undefined. -/
def Checked (s : State) (word : Word) : Prop :=
  (opcode word = Opcode.ecall → word = 0x00000073#32 ∧ KnownCall s) ∧
    (opcode word = Opcode.jalr → func3 word = 0#32) ∧
    (opcode word = Opcode.immediateInst → func3 word = ImmediateInstructions.slli →
      func7 word = 0#32) ∧
    ¬ (opcode word = Opcode.immediateInst ∧ BadShift word) ∧
    ¬ ZeroDivision s word ∧ ¬ Undefined s word

/-! ### Legal words, by opcode -/

theorem ne_of_opcode_ne {word : Word} (h : opcode word ≠ Opcode.ecall) : word ≠ 0x00000073#32 := by
  rintro rfl; exact h (by decide)

theorem legal_of_fails {s : State} {word : Word} (hf : Fails s word) :
    Legal s word ↔ ZeroDivision s word := by
  unfold Legal ZeroDivision
  simp only [← opcode_eq, ← func3_eq, ← func7_eq]
  unfold Fails at hf
  split_ifs at hf with h1 h2 h3 h4
  · have hw : word ≠ 0x00000073#32 := ne_of_opcode_ne (by rw [h1]; decide)
    simpa [h1, func3In, hw] using hf
  · have hw : word ≠ 0x00000073#32 := ne_of_opcode_ne (by rw [h2]; decide)
    simpa [h2, func3In, hw] using hf
  · have hw : word ≠ 0x00000073#32 := ne_of_opcode_ne (by rw [h3]; decide)
    simpa [h3, func3In, hw] using hf
  · have hw : word ≠ 0x00000073#32 := ne_of_opcode_ne (by rw [h4]; decide)
    unfold RtypeFails at hf
    split_ifs at hf with g1 g2 g3
    · simpa [h4, g2, func3In, hw] using hf
    · simpa [h4, g3, func3In, hw] using hf
    · simp [h4, g1, g2, g3, hw]
  · simp only [List.mem_cons, List.not_mem_nil, or_false, not_or] at hf
    obtain ⟨m1, m2, m3, m4, m5, m6⟩ := hf
    have hw := ne_of_opcode_ne m1
    simp [m2, m3, m4, m5, m6, h1, h2, h3, h4, hw]

theorem legal_of_not_fails {s : State} {word : Word} (hf : ¬ Fails s word)
    (hu : ¬ Undefined s word) : Legal s word ↔ Checked s word := by
  unfold Legal Checked ZeroDivision
  simp only [← opcode_eq, ← func3_eq, ← func7_eq]
  unfold Fails at hf
  split_ifs at hf with h1 h2 h3 h4
  · have hm : func3 word ∈ [0#32, 1#32, 4#32, 5#32, 6#32, 7#32] := not_not.mp hf
    simp [h1, hm, hu]
  · have hm : func3 word ∈ [0#32, 1#32, 2#32, 4#32, 5#32] := not_not.mp hf
    simp [h2, hm, hu]
  · have hm : func3 word ∈ [0#32, 1#32, 2#32] := not_not.mp hf
    simp [h3, hm, hu]
  · unfold RtypeFails at hf
    split_ifs at hf with g1 g2 g3
    · simp [h4, g1, hu]
    · have hm : func3 word ∈ [0#32, 5#32] := not_not.mp hf
      simp only [h4, g2, hm, hu]
      simp
    · have hm := hf
      simp only [h4, g3, hm, hu]
      simp
    · exact absurd trivial hf
  · simp only [not_not, List.mem_cons, List.not_mem_nil, or_false] at hf
    rcases hf with h | h | h | h | h | h
    · simp [h, hu]
    · simp [h, hu]
    · simp [h, hu]
    · simp [h, hu]
    · have hw : word ≠ 0x00000073#32 := ne_of_opcode_ne (by rw [h]; decide)
      simp [h, hu, hw]
    · have hw : word ≠ 0x00000073#32 := ne_of_opcode_ne (by rw [h]; decide)
      simp only [h, hu, hw, BadShift]
      simp
      by_cases g5 : func3 word = 5#32
      · simpa [g5] using or_iff_not_imp_left
      · simp [g5]

/-- A word that fails meets the conditions of `Checked`, but for the divisions. -/
theorem checked_of_fails {s : State} {word : Word} (hf : Fails s word) (hu : ¬ Undefined s word) :
    Checked s word ↔ ¬ ZeroDivision s word := by
  have he : opcode word ≠ Opcode.ecall := fun h => absurd hf (by simp [Fails, h])
  have hj : opcode word ≠ Opcode.jalr := fun h => absurd hf (by simp [Fails, h])
  have hi : opcode word ≠ Opcode.immediateInst := fun h => absurd hf (by simp [Fails, h])
  exact ⟨fun h => h.2.2.2.2.1, fun hz => ⟨fun h => absurd h he, fun h => absurd h hj,
    fun h => absurd h hi, fun h => hi h.1, hz, hu⟩⟩

/-- **The decoder is exact precisely on the words of `Checked`**, whatever the state and the fetched
word. -/
theorem accepts_iff (startAddr : Word) {s : State} {word : Word} (hfetch : fetched s = some word) :
    Exact s word (step startAddr s) ↔ Checked s word := by
  obtain ⟨mem, hmem, he⟩ := step_of_fetched startAddr hfetch
  rw [he]
  rcases execute_sorted startAddr { s with mem := mem } word with
    ⟨hf, hu, -, msg, hx⟩ | ⟨-, hu, -, hx⟩ | ⟨hf, hu, -, hx⟩ | ⟨hf, hu, hn, hp⟩
  · have hl : Legal s word ↔ ZeroDivision s word := legal_of_fails hf
    rw [hx, checked_of_fails (s := s) hf hu, ← hl]
    exact ⟨fun h hL => h.1.mpr hL, fun h => ⟨⟨False.elim, h⟩, fun _ => ⟨rfl, hmem, rfl⟩⟩⟩
  · rw [hx]
    refine ⟨fun h => ?_, fun h => (h.2.2.2.2.2 hu).elim⟩
    exact (h.2 fun hL => h.1.mpr hL).elim
  · have hl : Legal s word ↔ Checked s word := legal_of_not_fails (s := s) hf hu
    rw [hx, ← hl]
    exact ⟨fun h => h.1.mp trivial, fun h => ⟨⟨fun _ => h, fun _ => trivial⟩, fun hn => (hn h).elim⟩⟩
  · have hl : Legal s word ↔ Checked s word := legal_of_not_fails (s := s) hf hu
    have ho : Executed (execute startAddr { s with mem := mem } word) := by
      revert hp
      cases execute startAddr { s with mem := mem } word <;> simp [Plain, Executed]
    rw [← hl]
    exact ⟨fun h => h.1.mp ho, fun h => ⟨⟨fun _ => h, fun _ => ho⟩, fun hn => (hn h).elim⟩⟩

/-! ### Fixed words -/

/-- `add a0, a1, a2` is legal and executed, by `accepts_iff`. -/
theorem accepts_add :
    Exact (initial 0#32 (fun _ => 0#32) (oneWord 0x00c58533#32) []) 0x00c58533#32
      (step 0#32 (initial 0#32 (fun _ => 0#32) (oneWord 0x00c58533#32) [])) := by
  refine (accepts_iff 0#32 rfl).mpr ?_
  simp only [Checked, ZeroDivision, Undefined, RtypeUndefined]
  decide

/-- **A reserved encoding is executed**: the word of `jalr x1, 0(x0)` with `funct3 = 1`. -/
theorem reserved_jalr_executed :
    ¬ ∀ (startAddr : Word) (s : State) (word : Word), fetched s = some word →
      Exact s word (step startAddr s) := by
  intro h
  have hx := h 0#32 (initial 0#32 (fun _ => 0#32) (oneWord 0x000010e7#32) []) 0x000010e7#32 rfl
  have hL : Legal (initial 0#32 (fun _ => 0#32) (oneWord 0x000010e7#32) []) 0x000010e7#32 :=
    hx.1.mp trivial
  revert hL
  unfold Legal
  decide

end CompSys.A5.Accepts
