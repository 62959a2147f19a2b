import CompSys.A5.Simulate
import CompSys.A5.FlatMemory

/-! # What one iteration does

For every instruction word: where the code moves `pc` (`nextPc`), which register it may write
(`target`), when C leaves it undefined (`Undefined`), when it returns `EXIT_FAILURE` (`Fails`) and
when it ends the run (`Exits`). `execute_next` and `execute_sorted` say that these are what `execute`
does; later modules use them and do not look into the branches again. -/

namespace CompSys.A5.StepFacts

open CompSys.A5.PagedMemory CompSys.A5.FlatMemory CompSys.A5.Decode CompSys.A5.Simulate

/-! ### The three descriptions -/

open BranchInstructions in
/-- The comparison of a branch instruction. -/
def taken (s : State) (word : Word) : Bool :=
  let x := s.reg (rs1 word)
  let y := s.reg (rs2 word)
  if func3 word = beq then x == y
  else if func3 word = bne then x != y
  else if func3 word = blt then x.slt y
  else if func3 word = bge then !x.slt y
  else if func3 word = bltu then x.ult y
  else !x.ult y

/-- A right shift whose `func7` the `SRLI_SRAI` branch has no case for. -/
def BadShift (word : Word) : Prop :=
  func3 word = ImmediateInstructions.srliSrai ∧ func7 word ≠ ImmediateInstructions.srli ∧
    func7 word ≠ ImmediateInstructions.srai

instance (word : Word) : Decidable (BadShift word) := by unfold BadShift; infer_instance

open Opcode in
/-- Where the code moves `pc`. -/
def nextPc (s : State) (word : Word) : Word :=
  if opcode word = ecall then
    if s.reg a7 = 1#32 ∨ s.reg a7 = 2#32 then s.pc + 4#32 else s.pc
  else if opcode word = jal then s.pc + jalOffset word
  else if opcode word = jalr then jalrTarget word
  else if opcode word = branchInst then
    if taken s word then s.pc + branchOffset word else s.pc
  else if opcode word = immediateInst ∧ BadShift word then s.pc
  else s.pc + 4#32

open Opcode in
/-- The register an instruction may write. -/
def target (s : State) (word : Word) : Option (Fin 32) :=
  if opcode word = ecall then if s.reg a7 = 1#32 then some a0 else none
  else if opcode word = branchInst ∨ opcode word = storeInst then none
  else some (rd word)

open RtypeInstructions in
/-- The operations on operands C leaves undefined. -/
def RtypeUndefined (s : State) (word : Word) : Prop :=
  let x := s.reg (rs1 word)
  let y := s.reg (rs2 word)
  if func7 word = rtype0 then (func3 word = sll ∨ func3 word = srl) ∧ 32 ≤ y.toNat
  else if func7 word = rtype1 then func3 word = sra ∧ 32 ≤ y.toNat
  else if func7 word = mulType then
    (func3 word = div ∧ x = BitVec.intMin 32 ∧ y = -1#32) ∨
      (func3 word = rem ∧ DivUndefined x y) ∨ (func3 word = remu ∧ y = 0#32)
  else False

/-- The words C leaves undefined. -/
def Undefined (s : State) (word : Word) : Prop :=
  opcode word = Opcode.rtypeInst ∧ RtypeUndefined s word

/-- The numbers `func3` may have in an opcode branch that returns `EXIT_FAILURE` on all others. -/
def func3In (word : Word) (l : List Word) : Prop := func3 word ∈ l

instance (word : Word) (l : List Word) : Decidable (func3In word l) := by
  unfold func3In; infer_instance

open RtypeInstructions in
/-- The `R`-type words that return `EXIT_FAILURE`. -/
def RtypeFails (s : State) (word : Word) : Prop :=
  if func7 word = rtype0 then False
  else if func7 word = rtype1 then ¬ func3In word [sub, sra]
  else if func7 word = mulType then
    func3In word [div, divu] ∧ (s.reg (rs1 word) = 0#32 ∨ s.reg (rs2 word) = 0#32)
  else True

open Opcode in
/-- The words that return `EXIT_FAILURE`. -/
def Fails (s : State) (word : Word) : Prop :=
  if opcode word = branchInst then ¬ func3In word [0#32, 1#32, 4#32, 5#32, 6#32, 7#32]
  else if opcode word = loadInst then ¬ func3In word [0#32, 1#32, 2#32, 4#32, 5#32]
  else if opcode word = storeInst then ¬ func3In word [0#32, 1#32, 2#32]
  else if opcode word = rtypeInst then RtypeFails s word
  else opcode word ∉ [ecall, lui, auipc, jal, jalr, immediateInst]

/-- The exit `ecall`s. -/
def Exits (s : State) (word : Word) : Prop :=
  opcode word = Opcode.ecall ∧ (s.reg a7 = 3#32 ∨ s.reg a7 = 93#32)

/-! ### Small facts -/

theorem func3_lt (word : Word) : (func3 word).toNat < 8 := by
  unfold func3
  rw [BitVec.toNat_ushiftRight, Nat.shiftRight_eq_div_pow]; omega

/-- `func3` has eight values. -/
theorem func3_cases (word : Word) :
    func3 word ∈ [0#32, 1#32, 2#32, 3#32, 4#32, 5#32, 6#32, 7#32] := by
  have h := func3_lt word
  generalize func3 word = f at h
  simp only [List.mem_cons, List.not_mem_nil, or_false, ← BitVec.toNat_inj, BitVec.toNat_ofNat]
  omega

theorem bytes_memoryRdB {mem mem' : Memory} {a v : Word} (h : memoryRdB mem a = (v, mem')) :
    bytes mem' = bytes mem := by
  rw [memoryRdB_eq] at h; cases h; exact bytes_getPage mem a

theorem bytes_memoryRdH {mem mem' : Memory} {a v : Word} (h : memoryRdH mem a = .ok (v, mem')) :
    bytes mem' = bytes mem := by
  by_cases ha : a.toNat % 2 = 0
  · rw [memoryRdH_ok mem ha] at h; cases h; exact bytes_getPage mem a
  · obtain ⟨msg, he⟩ := memoryRdH_error mem ha
    rw [he] at h; cases h

theorem bytes_memoryRdW {mem mem' : Memory} {a v : Word} (h : memoryRdW mem a = .ok (v, mem')) :
    bytes mem' = bytes mem := by
  by_cases ha : a.toNat % 4 = 0
  · rw [memoryRdW_ok mem ha] at h; cases h; exact bytes_getPage mem a
  · obtain ⟨msg, he⟩ := memoryRdW_error mem ha
    rw [he] at h; cases h

/-- What one branch does when the loop goes on: where `pc` goes, which register may change, and
that the bytes of the memory do not, unless it is a store. -/
structure Moves (s s' : State) (pc : Word) (target : Option (Fin 32)) (stores : Prop) : Prop where
  pc : s'.pc = pc
  reg : ∀ r, target ≠ some r → s'.reg r = s.reg r
  mem : ¬ stores → bytes s'.mem = bytes s.mem

theorem moves_writeBack {s : State} {mem : Memory} (hmem : bytes mem = bytes s.mem)
    (rd : Fin 32) (v : Word) :
    Moves s (writeBack { s with mem := mem } rd v) (s.pc + 4#32) (some rd) False :=
  ⟨rfl, fun r hr => Function.update_of_ne (fun h => hr (by rw [h])) _ _, fun _ => hmem⟩

theorem moves_writeBack? {s s' : State} {rd : Fin 32} {v : Option Word}
    (h : writeBack? s rd v = .next s') : Moves s s' (s.pc + 4#32) (some rd) False := by
  cases v with
  | none => cases h
  | some v => cases h; exact moves_writeBack rfl rd v

theorem moves_loadBack {s s' : State} {rd : Fin 32} {r : Except Exit (Word × Memory)}
    (hr : ∀ v mem, r = .ok (v, mem) → bytes mem = bytes s.mem)
    (h : loadBack s rd r = .next s') : Moves s s' (s.pc + 4#32) (some rd) False := by
  cases r with
  | error e => cases h
  | ok p => cases h; exact moves_writeBack (hr _ _ rfl) rd _

theorem moves_storeBack {s s' : State} {r : Except Exit Memory}
    (h : storeBack s r = .next s') : Moves s s' (s.pc + 4#32) none True := by
  cases r with
  | error e => cases h
  | ok mem => cases h; exact ⟨rfl, fun _ _ => rfl, fun h => absurd trivial h⟩

theorem moves_branchIf {s s' : State} {c : Bool} {offset : Word}
    (h : branchIf s c offset = .next s') :
    Moves s s' (if c then s.pc + offset else s.pc) none False := by
  unfold branchIf at h
  split_ifs at h with hc
  · cases h; exact ⟨by rw [if_pos hc], fun _ _ => rfl, fun _ => rfl⟩
  · cases h; exact ⟨by rw [if_neg hc], fun _ _ => rfl, fun _ => rfl⟩

/-! ### The opcode branches, when the loop goes on -/

section Next
variable {s s' : State} {word : Word}

theorem execEcall_next {startAddr : Word} (h : execEcall startAddr s = .next s') :
    Moves s s' (if s.reg a7 = 1#32 ∨ s.reg a7 = 2#32 then s.pc + 4#32 else s.pc)
      (if s.reg a7 = 1#32 then some a0 else none) False := by
  unfold execEcall at h
  split_ifs at h with h1 h2 h3
  · cases h
    rw [if_pos (Or.inl h1), if_pos h1]
    exact ⟨rfl, fun r hr => Function.update_of_ne (fun h => hr (by rw [h])) _ _, fun _ => rfl⟩
  · cases h
    rw [if_pos (Or.inr h2), if_neg h1]
    exact ⟨rfl, fun _ _ => rfl, fun _ => rfl⟩
  · cases h
    rw [if_neg (by tauto), if_neg h1]
    exact ⟨rfl, fun _ _ => rfl, fun _ => rfl⟩

theorem execJal_next (h : execJal s word = .next s') :
    Moves s s' (s.pc + jalOffset word) (some (rd word)) False := by
  cases h
  exact ⟨rfl, fun r hr => Function.update_of_ne (fun h => hr (by rw [h])) _ _, fun _ => rfl⟩

theorem execJalr_next (h : execJalr s word = .next s') :
    Moves s s' (jalrTarget word) (some (rd word)) False := by
  cases h
  exact ⟨rfl, fun r hr => Function.update_of_ne (fun h => hr (by rw [h])) _ _, fun _ => rfl⟩

theorem execBranch_eq (s : State) (word : Word) :
    execBranch s word = if func3In word [0#32, 1#32, 4#32, 5#32, 6#32, 7#32] then
      branchIf s (taken s word) (branchOffset word)
      else .failure "ERROR OCCURED - no such BRANCH instr. was found \n" s := by
  have h := func3_cases word
  simp only [List.mem_cons, List.not_mem_nil, or_false] at h
  rcases h with h | h | h | h | h | h | h | h <;> simp [execBranch, taken, func3In, h]

theorem execBranch_next (h : execBranch s word = .next s') :
    Moves s s' (if taken s word then s.pc + branchOffset word else s.pc) none False := by
  rw [execBranch_eq] at h
  split_ifs at h
  exact moves_branchIf h

theorem execLoad_next (h : execLoad s word = .next s') :
    Moves s s' (s.pc + 4#32) (some (rd word)) False := by
  unfold execLoad at h
  simp only at h
  split_ifs at h
  · exact moves_loadBack (fun v mem hr => bytes_memoryRdB (Except.ok.inj hr)) h
  · exact moves_loadBack (fun v mem hr => bytes_memoryRdH hr) h
  · exact moves_loadBack (fun v mem hr => bytes_memoryRdW hr) h
  · exact moves_loadBack (fun v mem hr => bytes_memoryRdB (Except.ok.inj hr)) h
  · exact moves_loadBack (fun v mem hr => bytes_memoryRdH hr) h

theorem execStore_next (h : execStore s word = .next s') :
    Moves s s' (s.pc + 4#32) none True := by
  unfold execStore at h
  simp only at h
  split_ifs at h <;> exact moves_storeBack h

theorem execImmediate_eq (s : State) (word : Word) :
    (BadShift word ∧ execImmediate s word = .next s) ∨
      (¬ BadShift word ∧ ∃ v, execImmediate s word = .next (writeBack s (rd word) v)) := by
  have h := func3_cases word
  simp only [List.mem_cons, List.not_mem_nil, or_false] at h
  rcases h with h | h | h | h | h | h | h | h
  case inr.inr.inr.inr.inr.inl =>
    by_cases h7 : func7 word = 0#32
    · exact Or.inr ⟨by simp [BadShift, h7], _, by simp [execImmediate, h, h7]; rfl⟩
    by_cases h7' : func7 word = 0x20#32
    · refine Or.inr ⟨by simp [BadShift, h7'], ?_⟩
      by_cases hs : word >>> 31 = 0#32
      · exact ⟨_, by simp [execImmediate, h, h7', hs]; rfl⟩
      · exact ⟨_, by simp [execImmediate, h, h7', hs]; rfl⟩
    · exact Or.inl ⟨by simp [BadShift, h, h7, h7'], by simp [execImmediate, h, h7, h7']⟩
  all_goals
    refine Or.inr ⟨by simp [BadShift, h], ?_⟩
    by_cases hs : word >>> 31 = 0#32
    · exact ⟨_, by simp [execImmediate, h, hs]; rfl⟩
    · exact ⟨_, by simp [execImmediate, h, hs]; rfl⟩

theorem execImmediate_next (h : execImmediate s word = .next s') :
    Moves s s' (if BadShift word then s.pc else s.pc + 4#32) (some (rd word)) False := by
  rcases execImmediate_eq s word with ⟨hb, he⟩ | ⟨hb, v, he⟩
  · rw [he] at h; cases h
    rw [if_pos hb]
    exact ⟨rfl, fun _ _ => rfl, fun _ => rfl⟩
  · rw [he] at h; cases h
    rw [if_neg hb]
    exact moves_writeBack rfl _ _

/-- The outcome is a write of `rd`, of an undefined value exactly under `P`. -/
def Writes (s : State) (word : Word) (P : Prop) (o : Outcome) : Prop :=
  ∃ v, o = writeBack? s (rd word) v ∧ (v = none ↔ P)

theorem writes_some {P : Prop} {o : Outcome} (v : Word) (ho : o = .next (writeBack s (rd word) v))
    (hP : ¬ P) : Writes s word P o := ⟨some v, ho, by simp [hP]⟩

theorem execRtype0_eq (h7 : func7 word = RtypeInstructions.rtype0) :
    Writes s word (RtypeUndefined s word) (execRtype0 s word) := by
  have h := func3_cases word
  simp only [List.mem_cons, List.not_mem_nil, or_false] at h
  rcases h with h | h | h | h | h | h | h | h
  case inr.inl =>
    exact ⟨shl (s.reg (rs1 word)) (s.reg (rs2 word)), by simp [execRtype0, h],
      by simp [RtypeUndefined, h7, h, shl]⟩
  case inr.inr.inr.inr.inr.inl =>
    exact ⟨sar (s.reg (rs1 word)) (s.reg (rs2 word)), by simp [execRtype0, h],
      by simp [RtypeUndefined, h7, h, sar]⟩
  all_goals
    exact writes_some _ (by simp [execRtype0, h]; rfl) (by simp [RtypeUndefined, h7, h])

theorem signbit_cases (x : Word) : x >>> 31 = 0#32 ∨ x >>> 31 = 1#32 := by
  have h : (x >>> 31).toNat < 2 := by
    rw [BitVec.toNat_ushiftRight, Nat.shiftRight_eq_div_pow]; omega
  rcases (show (x >>> 31).toNat = 0 ∨ (x >>> 31).toNat = 1 by omega) with h | h
  · exact Or.inl (BitVec.toNat_inj.mp h)
  · exact Or.inr (BitVec.toNat_inj.mp h)

theorem execRtype1_eq (h7 : func7 word = RtypeInstructions.rtype1) :
    (RtypeFails s word ∧ ∃ msg, execRtype1 s word = .failure msg s) ∨
      (¬ RtypeFails s word ∧ Writes s word (RtypeUndefined s word) (execRtype1 s word)) := by
  have h := func3_cases word
  simp only [List.mem_cons, List.not_mem_nil, or_false] at h
  rcases h with h | h | h | h | h | h | h | h
  case inl =>
    refine Or.inr ⟨by simp [RtypeFails, func3In, h7, h], ?_⟩
    exact writes_some _ (by simp [execRtype1, h]; rfl) (by simp [RtypeUndefined, h7, h])
  case inr.inr.inr.inr.inr.inl =>
    refine Or.inr ⟨by simp [RtypeFails, func3In, h7, h], ?_⟩
    rcases signbit_cases (s.reg (rs1 word)) with hs | hs
    · exact ⟨shr (s.reg (rs1 word)) (s.reg (rs2 word)), by simp [execRtype1, h, hs],
        by simp [RtypeUndefined, h7, h, shr]⟩
    · exact ⟨sar (s.reg (rs1 word)) (s.reg (rs2 word)), by simp [execRtype1, h, hs],
        by simp [RtypeUndefined, h7, h, sar]⟩
  all_goals
    exact Or.inl ⟨by simp [RtypeFails, func3In, h7, h], _, by simp [execRtype1, h]; rfl⟩

theorem execMulType_eq (h7 : func7 word = RtypeInstructions.mulType) :
    (RtypeFails s word ∧ ∃ msg, execMulType s word = .failure msg s) ∨
      (¬ RtypeFails s word ∧ Writes s word (RtypeUndefined s word) (execMulType s word)) := by
  have h := func3_cases word
  simp only [List.mem_cons, List.not_mem_nil, or_false] at h
  rcases h with h | h | h | h | h | h | h | h
  case inr.inr.inr.inr.inl =>
    by_cases h0 : s.reg (rs1 word) = 0#32 ∨ s.reg (rs2 word) = 0#32
    · refine Or.inl ⟨by simpa [RtypeFails, func3In, h7, h] using h0,
        "Error dividing by zero", ?_⟩
      have hn : ¬ (s.reg (rs1 word) ≠ 0#32 ∧ s.reg (rs2 word) ≠ 0#32) := by tauto
      simp only [execMulType, h, if_neg hn]
      rfl
    · push Not at h0
      refine Or.inr ⟨by simp [RtypeFails, func3In, h7, h, h0],
        divInt (s.reg (rs1 word)) (s.reg (rs2 word)), ?_, ?_⟩
      · simp [execMulType, h, h0]
      · simp [RtypeUndefined, h7, h, divInt, DivUndefined, h0]
  case inr.inr.inr.inr.inr.inl =>
    by_cases h0 : s.reg (rs1 word) = 0#32 ∨ s.reg (rs2 word) = 0#32
    · refine Or.inl ⟨by simpa [RtypeFails, func3In, h7, h] using h0,
        "Error dividing by zero", ?_⟩
      have hn : ¬ (s.reg (rs1 word) ≠ 0#32 ∧ s.reg (rs2 word) ≠ 0#32) := by tauto
      simp only [execMulType, h, if_neg hn]
      rfl
    · push Not at h0
      refine Or.inr ⟨by simp [RtypeFails, func3In, h7, h, h0],
        divUint (s.reg (rs1 word)) (s.reg (rs2 word)), ?_, ?_⟩
      · simp [execMulType, h, h0]
      · simp [RtypeUndefined, h7, h, divUint, h0]
  case inr.inr.inr.inr.inr.inr.inl =>
    refine Or.inr ⟨by simp [RtypeFails, func3In, h7, h],
      modInt (s.reg (rs1 word)) (s.reg (rs2 word)), ?_, ?_⟩
    · simp [execMulType, h]
    · simp [RtypeUndefined, h7, h, modInt]
  case inr.inr.inr.inr.inr.inr.inr =>
    refine Or.inr ⟨by simp [RtypeFails, func3In, h7, h],
      modUint (s.reg (rs1 word)) (s.reg (rs2 word)), ?_, ?_⟩
    · simp [execMulType, h]
    · simp [RtypeUndefined, h7, h, modUint]
  all_goals
    refine Or.inr ⟨by simp [RtypeFails, func3In, h7, h], ?_⟩
    exact writes_some _ (by simp [execMulType, h]; rfl) (by simp [RtypeUndefined, h7, h])

/-- A word that fails does so before C could leave anything undefined. -/
theorem rtypeUndefined_of_fails (h : RtypeFails s word) : ¬ RtypeUndefined s word := by
  unfold RtypeFails at h
  unfold RtypeUndefined
  split_ifs at h with h0 h1 h2
  · rw [if_neg h0, if_pos h1]
    rintro ⟨h3, -⟩
    exact h (by simp [func3In, h3])
  · simp only [if_neg h0, if_neg h1, if_pos h2]
    obtain ⟨h3, h4⟩ := h
    have h3' : func3 word = 4#32 ∨ func3 word = 5#32 := by simpa [func3In] using h3
    rintro (⟨-, hx, hy⟩ | ⟨hf, -⟩ | ⟨hf, -⟩)
    · rw [hx, hy] at h4; revert h4; decide
    · rcases h3' with h3' | h3' <;> rw [h3'] at hf <;> revert hf <;> decide
    · rcases h3' with h3' | h3' <;> rw [h3'] at hf <;> revert hf <;> decide
  · simp only [if_neg h0, if_neg h1, if_neg h2, not_false_eq_true]

/-- **An `R`-type word** fails or writes `rd`. -/
theorem execRtype_eq (s : State) (word : Word) :
    (RtypeFails s word ∧ ∃ msg, execRtype s word = .failure msg s) ∨
      (¬ RtypeFails s word ∧ Writes s word (RtypeUndefined s word) (execRtype s word)) := by
  unfold execRtype
  split_ifs with h0 h1 h2
  · exact Or.inr ⟨by simp [RtypeFails, h0], execRtype0_eq h0⟩
  · exact execRtype1_eq h1
  · exact execMulType_eq h2
  · exact Or.inl ⟨by simp only [RtypeFails, if_neg h0, if_neg h1, if_neg h2], _, rfl⟩

theorem execRtype_next (h : execRtype s word = .next s') :
    Moves s s' (s.pc + 4#32) (some (rd word)) False := by
  rcases execRtype_eq s word with ⟨-, msg, he⟩ | ⟨-, v, he, -⟩
  · rw [he] at h; cases h
  · rw [he] at h; exact moves_writeBack? h

end Next

/-! ### The dispatch on the opcode -/

section Dispatch
variable {startAddr : Word} {s : State} {word : Word}
open Opcode

theorem execute_of_ecall (h : opcode word = ecall) :
    execute startAddr s word = execEcall startAddr s := by simp [execute, h]

theorem execute_of_lui (h : opcode word = lui) : execute startAddr s word = execLui s word := by
  simp [execute, h]

theorem execute_of_auipc (h : opcode word = auipc) :
    execute startAddr s word = execAuipc s word := by simp [execute, h]

theorem execute_of_jal (h : opcode word = jal) : execute startAddr s word = execJal s word := by
  simp [execute, h]

theorem execute_of_jalr (h : opcode word = jalr) : execute startAddr s word = execJalr s word := by
  simp [execute, h]

theorem execute_of_branchInst (h : opcode word = branchInst) :
    execute startAddr s word = execBranch s word := by simp [execute, h]

theorem execute_of_loadInst (h : opcode word = loadInst) :
    execute startAddr s word = execLoad s word := by simp [execute, h]

theorem execute_of_storeInst (h : opcode word = storeInst) :
    execute startAddr s word = execStore s word := by simp [execute, h]

theorem execute_of_immediateInst (h : opcode word = immediateInst) :
    execute startAddr s word = execImmediate s word := by simp [execute, h]

theorem execute_of_rtypeInst (h : opcode word = rtypeInst) :
    execute startAddr s word = execRtype s word := by simp [execute, h]

/-- Every other opcode. -/
theorem execute_of_notMem (h : opcode word ∉ [ecall, lui, auipc, jal, jalr, branchInst, loadInst,
    storeInst, immediateInst, rtypeInst]) :
    execute startAddr s word = .failure "ERROR OCCURED - no such opcode \n" s := by
  simp only [List.mem_cons, List.not_mem_nil, or_false, not_or] at h
  obtain ⟨h1, h2, h3, h4, h5, h6, h7, h8, h9, h10⟩ := h
  rw [execute, if_neg h1, if_neg h2, if_neg h3, if_neg h4, if_neg h5, if_neg h6, if_neg h7,
    if_neg h8, if_neg h9, if_neg h10]

theorem opcode_cases (word : Word) : opcode word = ecall ∨ opcode word = lui ∨
    opcode word = auipc ∨ opcode word = jal ∨ opcode word = jalr ∨ opcode word = branchInst ∨
    opcode word = loadInst ∨ opcode word = storeInst ∨ opcode word = immediateInst ∨
    opcode word = rtypeInst ∨ opcode word ∉ [ecall, lui, auipc, jal, jalr, branchInst, loadInst,
      storeInst, immediateInst, rtypeInst] := by
  simp only [List.mem_cons, List.not_mem_nil, or_false]
  tauto

end Dispatch

open Opcode in
/-- **An iteration after which the loop goes on.** -/
theorem execute_next {startAddr : Word} {s s' : State} {word : Word}
    (h : execute startAddr s word = .next s') :
    Moves s s' (nextPc s word) (target s word) (opcode word = storeInst) := by
  unfold nextPc target
  rcases opcode_cases word with h1 | h1 | h1 | h1 | h1 | h1 | h1 | h1 | h1 | h1 | h1
  · rw [execute_of_ecall h1] at h
    simpa [h1] using execEcall_next h
  · rw [execute_of_lui h1] at h
    cases h
    simpa [h1] using moves_writeBack rfl _ _
  · rw [execute_of_auipc h1] at h
    cases h
    simpa [h1] using moves_writeBack rfl _ _
  · rw [execute_of_jal h1] at h
    simpa [h1] using execJal_next h
  · rw [execute_of_jalr h1] at h
    simpa [h1] using execJalr_next h
  · rw [execute_of_branchInst h1] at h
    simpa [h1] using execBranch_next h
  · rw [execute_of_loadInst h1] at h
    simpa [h1] using execLoad_next h
  · rw [execute_of_storeInst h1] at h
    simpa [h1] using execStore_next h
  · rw [execute_of_immediateInst h1] at h
    simpa [h1] using execImmediate_next h
  · rw [execute_of_rtypeInst h1] at h
    simpa [h1] using execRtype_next h
  · rw [execute_of_notMem h1] at h
    cases h

/-! ### The other outcomes -/

/-- The loop goes on, or the memory module exits on a load or a store. -/
def Plain (word : Word) : Outcome → Prop
  | .next _ => True
  | .exit _ => opcode word = Opcode.loadInst ∨ opcode word = Opcode.storeInst
  | _ => False

theorem plain_loadBack {word : Word} (h : opcode word = Opcode.loadInst) (s : State) (rd : Fin 32)
    (r : Except Exit (Word × Memory)) : Plain word (loadBack s rd r) := by
  cases r with
  | error e => exact Or.inl h
  | ok r => trivial

theorem plain_storeBack {word : Word} (h : opcode word = Opcode.storeInst) (s : State)
    (r : Except Exit Memory) : Plain word (storeBack s r) := by
  cases r with
  | error e => exact Or.inr h
  | ok r => trivial

theorem plain_branchIf (word : Word) (s : State) (c : Bool) (offset : Word) :
    Plain word (branchIf s c offset) := by
  cases c <;> trivial

theorem execEcall_eq (startAddr : Word) (s : State) (word : Word) :
    ((s.reg a7 = 3#32 ∨ s.reg a7 = 93#32) ∧
      execEcall startAddr s = .done ((s.pc - startAddr) / 4#32 + 1#32).toNat s) ∨
      (¬ (s.reg a7 = 3#32 ∨ s.reg a7 = 93#32) ∧ Plain word (execEcall startAddr s)) := by
  unfold execEcall
  split_ifs with h1 h2 h3
  · exact Or.inr ⟨by rw [h1]; decide, trivial⟩
  · exact Or.inr ⟨by rw [h2]; decide, trivial⟩
  · exact Or.inl ⟨h3, rfl⟩
  · exact Or.inr ⟨h3, trivial⟩

theorem execLoad_eq (s : State) {word : Word} (hop : opcode word = Opcode.loadInst) :
    (func3In word [0#32, 1#32, 2#32, 4#32, 5#32] ∧ Plain word (execLoad s word)) ∨
      (¬ func3In word [0#32, 1#32, 2#32, 4#32, 5#32] ∧
        ∃ msg, execLoad s word = .failure msg s) := by
  have h := func3_cases word
  simp only [List.mem_cons, List.not_mem_nil, or_false] at h
  by_cases hm : func3In word [0#32, 1#32, 2#32, 4#32, 5#32]
  · refine Or.inl ⟨hm, ?_⟩
    rcases h with h | h | h | h | h | h | h | h <;> simp [func3In, h] at hm <;>
      simp [execLoad, h, plain_loadBack hop]
  · refine Or.inr ⟨hm, "ERROR OCCURED - no such LOAD instr. was found \n", ?_⟩
    rcases h with h | h | h | h | h | h | h | h <;> simp [func3In, h] at hm <;>
      simp [execLoad, h]

theorem execStore_eq (s : State) {word : Word} (hop : opcode word = Opcode.storeInst) :
    (func3In word [0#32, 1#32, 2#32] ∧ Plain word (execStore s word)) ∨
      (¬ func3In word [0#32, 1#32, 2#32] ∧ ∃ msg, execStore s word = .failure msg s) := by
  have h := func3_cases word
  simp only [List.mem_cons, List.not_mem_nil, or_false] at h
  by_cases hm : func3In word [0#32, 1#32, 2#32]
  · refine Or.inl ⟨hm, ?_⟩
    rcases h with h | h | h | h | h | h | h | h <;> simp [func3In, h] at hm <;>
      simp [execStore, h, plain_storeBack hop]
  · refine Or.inr ⟨hm, "Error occured in STORE_INST\n", ?_⟩
    rcases h with h | h | h | h | h | h | h | h <;> simp [func3In, h] at hm <;>
      simp [execStore, h]

/-- How an iteration with outcome `o` may go, told apart by `Fails`, `Undefined` and `Exits`. -/
def Sorted (startAddr : Word) (s : State) (word : Word) (o : Outcome) : Prop :=
  (Fails s word ∧ ¬ Undefined s word ∧ ¬ Exits s word ∧ ∃ msg, o = .failure msg s) ∨
    (¬ Fails s word ∧ Undefined s word ∧ ¬ Exits s word ∧ o = .undefined) ∨
    (¬ Fails s word ∧ ¬ Undefined s word ∧ Exits s word ∧
      o = .done ((s.pc - startAddr) / 4#32 + 1#32).toNat s) ∨
    (¬ Fails s word ∧ ¬ Undefined s word ∧ ¬ Exits s word ∧ Plain word o)

/-- **Every word** fails, is left undefined by C, ends the run, or does none of these. -/
theorem execute_sorted (startAddr : Word) (s : State) (word : Word) :
    Sorted startAddr s word (execute startAddr s word) := by
  by_cases h1 : opcode word = Opcode.ecall
  · have hf : ¬ Fails s word := by simp [Fails, h1]
    have hu : ¬ Undefined s word := by simp [Undefined, h1]
    rw [execute_of_ecall h1]
    rcases execEcall_eq startAddr s word with ⟨h7, hd⟩ | ⟨h7, hp⟩
    · exact Or.inr (Or.inr (Or.inl ⟨hf, hu, ⟨h1, h7⟩, hd⟩))
    · exact Or.inr (Or.inr (Or.inr ⟨hf, hu, fun hx => h7 hx.2, hp⟩))
  have hx : ¬ Exits s word := fun hx => h1 hx.1
  have plain {o : Outcome} (h1 : ¬ Fails s word) (h2 : ¬ Undefined s word) (h3 : Plain word o) :
      Sorted startAddr s word o := Or.inr (Or.inr (Or.inr ⟨h1, h2, hx, h3⟩))
  have fails {o : Outcome} (h1 : Fails s word) (h2 : ¬ Undefined s word)
      (h3 : ∃ msg, o = .failure msg s) : Sorted startAddr s word o := Or.inl ⟨h1, h2, hx, h3⟩
  rcases opcode_cases word with h | h | h | h | h | h | h | h | h | h | h
  · exact absurd h h1
  · rw [execute_of_lui h]
    exact plain (by simp [Fails, h]) (by simp [Undefined, h]) trivial
  · rw [execute_of_auipc h]
    exact plain (by simp [Fails, h]) (by simp [Undefined, h]) trivial
  · rw [execute_of_jal h]
    exact plain (by simp [Fails, h]) (by simp [Undefined, h]) trivial
  · rw [execute_of_jalr h]
    exact plain (by simp [Fails, h]) (by simp [Undefined, h]) trivial
  · have hf : Fails s word ↔ ¬ func3In word [0#32, 1#32, 4#32, 5#32, 6#32, 7#32] := by
      simp [Fails, h]
    have hu : ¬ Undefined s word := by simp [Undefined, h]
    rw [execute_of_branchInst h, execBranch_eq]
    split_ifs with h3
    · exact plain (fun hn => hf.mp hn h3) hu (plain_branchIf _ _ _ _)
    · exact fails (hf.mpr h3) hu ⟨_, rfl⟩
  · have hf : Fails s word ↔ ¬ func3In word [0#32, 1#32, 2#32, 4#32, 5#32] := by simp [Fails, h]
    have hu : ¬ Undefined s word := by simp [Undefined, h]
    rw [execute_of_loadInst h]
    rcases execLoad_eq s h with ⟨h3, hp⟩ | ⟨h3, hp⟩
    · exact plain (fun hn => hf.mp hn h3) hu hp
    · exact fails (hf.mpr h3) hu hp
  · have hf : Fails s word ↔ ¬ func3In word [0#32, 1#32, 2#32] := by simp [Fails, h]
    have hu : ¬ Undefined s word := by simp [Undefined, h]
    rw [execute_of_storeInst h]
    rcases execStore_eq s h with ⟨h3, hp⟩ | ⟨h3, hp⟩
    · exact plain (fun hn => hf.mp hn h3) hu hp
    · exact fails (hf.mpr h3) hu hp
  · have hf : ¬ Fails s word := by simp [Fails, h]
    have hu : ¬ Undefined s word := by simp [Undefined, h]
    rw [execute_of_immediateInst h]
    rcases execImmediate_eq s word with ⟨-, hi⟩ | ⟨-, v, hi⟩
    · exact plain hf hu (by rw [hi]; trivial)
    · exact plain hf hu (by rw [hi]; trivial)
  · have hf : Fails s word ↔ RtypeFails s word := by simp [Fails, h]
    have hu : Undefined s word ↔ RtypeUndefined s word := by simp [Undefined, h]
    rw [execute_of_rtypeInst h]
    rcases execRtype_eq s word with ⟨h3, hm⟩ | ⟨h3, v, hv, hnone⟩
    · exact fails (hf.mpr h3) (mt hu.mp (rtypeUndefined_of_fails h3)) hm
    · cases v with
      | none => exact Or.inr (Or.inl ⟨mt hf.mp h3, hu.mpr (hnone.mp rfl), hx, hv⟩)
      | some v =>
        have hd : ¬ RtypeUndefined s word := fun hn => by simpa using hnone.mpr hn
        exact plain (mt hf.mp h3) (mt hu.mp hd) (by rw [hv]; trivial)
  · rw [execute_of_notMem h]
    simp only [List.mem_cons, List.not_mem_nil, or_false, not_or] at h
    refine fails ?_ (fun hu => h.2.2.2.2.2.2.2.2.2 hu.1) ⟨_, rfl⟩
    rw [Fails, if_neg h.2.2.2.2.2.1, if_neg h.2.2.2.2.2.2.1, if_neg h.2.2.2.2.2.2.2.1,
      if_neg h.2.2.2.2.2.2.2.2.2]
    simp only [List.mem_cons, List.not_mem_nil, or_false]
    tauto

/-! ### Fetching -/

/-- The word the loop fetches, unless the memory module exits. -/
def fetched (s : State) : Option Word :=
  match memoryRdW s.mem s.pc with
  | .ok (word, _) => some word
  | .error _ => none

/-- The iteration executes the fetched word on memory with the same bytes. -/
theorem step_of_fetched (startAddr : Word) {s : State} {word : Word} (h : fetched s = some word) :
    ∃ mem, bytes mem = bytes s.mem ∧
      step startAddr s = execute startAddr { s with mem := mem } word := by
  unfold fetched at h
  unfold step
  cases hr : memoryRdW s.mem s.pc with
  | error e => rw [hr] at h; cases h
  | ok r =>
    rw [hr] at h
    cases h
    exact ⟨r.2, bytes_memoryRdW hr, rfl⟩

theorem fetched_of_next {startAddr : Word} {s s' : State} (h : step startAddr s = .next s') :
    ∃ word, fetched s = some word := by
  unfold step at h
  unfold fetched
  cases hr : memoryRdW s.mem s.pc with
  | error e => rw [hr] at h; cases h
  | ok r => exact ⟨r.1, rfl⟩

/-- **An iteration after which the loop goes on**, by its fetched word. -/
theorem step_next {startAddr : Word} {s s' : State} {word : Word} (hf : fetched s = some word)
    (h : step startAddr s = .next s') :
    Moves s s' (nextPc s word) (target s word) (opcode word = Opcode.storeInst) := by
  obtain ⟨mem, hmem, hs⟩ := step_of_fetched startAddr hf
  have hm := execute_next (hs.symm.trans h)
  exact ⟨hm.pc, hm.reg, fun hn => (hm.mem hn).trans hmem⟩

end CompSys.A5.StepFacts
