import CompSys.A5.Accesses
import CompSys.A5.Arithmetic
import CompSys.A5.Jumps
import CompSys.Lib.Rv32Machine

/-! # The interpreter and the machine

A process is the machine of the manual with the system calls that `simulate` offers. The interpreter follows it as long
as it is careful: it writes `x0` no value but 0, jumps and branches only where the code finds the target, keeps the
offsets of loads and stores from being negative, loads no sign, and shifts, multiplies and divides only operands on
which the code computes what the manual says (`simulate_follows`). -/

namespace CompSys.A5.Refinement

open CompSys.Lib CompSys.Lib.Rv32 CompSys.A5.PagedMemory CompSys.A5.FlatMemory CompSys.A5.Decode CompSys.A5.Simulate
open CompSys.A5.StepFacts CompSys.A5.MemoryRuns CompSys.A5.Encoded CompSys.A5.Accesses CompSys.A5.Arithmetic
open CompSys.A5.Jumps CompSys.A5.Manual

/-! ### Processes -/

/-- A machine, and the bytes it reads and has written. -/
structure Process where
  machine : Machine
  stdin : List (BitVec 8)
  stdout : List (BitVec 8)

/-- The word of `ecall`. -/
def ecallWord : Word := 0x73#32

/-- The next instruction is a system call. -/
def Calls (m : Machine) : Prop := m.pc.toNat % 4 = 0 ∧ m.word m.pc = ecallWord

instance (m : Machine) : Decidable (Calls m) := by unfold Calls; infer_instance

/-- A system call that the process comes back from: `a7` says whether a byte is read into `a0` or written from it. -/
def Process.call (p : Process) : Option Process :=
  if p.machine.reg a7 = 1#32 then
    some ⟨(p.machine.write a0 (getchar p.stdin).1).next, (getchar p.stdin).2, p.stdout⟩
  else if p.machine.reg a7 = 2#32 then
    some ⟨p.machine.next, p.stdin, p.stdout ++ [(p.machine.reg a0).setWidth 8]⟩
  else none

/-- **One step of a process.** -/
def Process.step (p : Process) : Option Process :=
  if Calls p.machine then p.call else p.machine.step.map fun m => ⟨m, p.stdin, p.stdout⟩

/-- Some steps. -/
def Process.steps (p : Process) : ℕ → Option Process
  | 0 => some p
  | n + 1 => p.step.bind fun p' => p'.steps n

/-! ### Care -/

/-- `x0` is written no value but 0. -/
def Spares (rd : Reg) (v : Word) : Prop := rd.val = 0 → v = 0

/-- **What the code needs** of an instruction to do what the manual says. -/
def Careful (m : Machine) : Instr → Prop
  | .upper op rd imm => Spares rd (op.result m.pc imm)
  | .jal rd offset => Spares rd (m.pc + 4) ∧
      (offset % 4096 = 0 ∧ 0 ≤ offset ∨ offset % 4096 = 4094 ∧ offset < 0)
  | .jalr rd rs1 imm => Spares rd (m.pc + 4) ∧
      ((m.reg rs1).toNat = rs1.val ∨ (m.reg rs1).toNat = rs1.val + 1) ∧ (imm.toInt + rs1.val) % 2 = 0
  | .branch op rs1 rs2 _ => op.Holds (m.reg rs1) (m.reg rs2)
  | .load op rd rs1 imm =>
      let v := m.word (m.reg rs1 + imm.signExtend 32)
      0 ≤ imm.toInt ∧ (op = .lb → v.getLsbD 7 = false) ∧ (op = .lh → v.getLsbD 15 = false) ∧ Spares rd (op.extend v)
  | .store _ _ _ imm => 0 ≤ imm.toInt
  | .immediate op rd rs1 imm => Spares rd (op.result (m.reg rs1) (imm.signExtend 32))
  | .shiftImmediate op rd rs1 shamt => (op = .sra → 0 ≤ (m.reg rs1).toInt ∨ shamt = 0) ∧
      Spares rd (op.result (m.reg rs1) shamt.toNat)
  | .alu op rd rs1 rs2 => Spares rd (op.result (m.reg rs1) (m.reg rs2))
  | .shift op rd rs1 rs2 => (m.reg rs2).toNat < 32 ∧ (op = .srl → 0 ≤ (m.reg rs1).toInt ∨ m.reg rs2 = 0) ∧
      Spares rd (op.result (m.reg rs1) (m.reg rs2).toNat)
  | .mul op rd rs1 rs2 => (op = .mulhsu → 0 ≤ (m.reg rs2).toInt ∨ m.reg rs1 = 0) ∧
      (op = .mulhu → 0 ≤ (m.reg rs1).toInt ∧ 0 ≤ (m.reg rs2).toInt ∨ m.reg rs1 = 0 ∨ m.reg rs2 = 0 ∨
        m.reg rs1 = BitVec.intMin 32 ∧ m.reg rs2 = BitVec.intMin 32) ∧
      Spares rd (op.result (m.reg rs1) (m.reg rs2))
  | .div op rd rs1 rs2 => Divides (m.reg rs1) (m.reg rs2) op ∧ Spares rd (op.result (m.reg rs1) (m.reg rs2))

/-- The next instruction is one that the code needs no more of. -/
def CarefulNext (p : Process) : Prop := ∀ i, p.machine.fetch = some i → Careful p.machine i

/-! ### The interpreter's state -/

/-- **The state is that of the process.** -/
structure Matches (s : State) (p : Process) : Prop where
  pc : s.pc = p.machine.pc
  reg : s.reg = p.machine.reg
  mem : bytes s.mem = p.machine.mem
  stdin : s.stdin = p.stdin
  stdout : s.stdout = p.stdout

variable {s : State} {p : Process} {mem : Memory} {startAddr : Word}

theorem matches_mem (h : Matches s p) (hmem : bytes mem = bytes s.mem) : Matches { s with mem := mem } p :=
  ⟨h.pc, h.reg, hmem.trans h.mem, h.stdin, h.stdout⟩

/-- A value for a register. -/
theorem update_eq (h : Matches s p) {rd : Reg} {v : Word} (hv : Spares rd v) :
    Function.update s.reg rd v = (p.machine.write rd v).reg := by
  funext r
  show _ = if r = rd ∧ r.val ≠ 0 then v else p.machine.reg r
  by_cases hr : r = rd
  · subst hr
    rw [Function.update_self]
    by_cases h0 : r.val = 0
    · rw [if_neg fun h => h.2 h0, p.machine.zero r h0, hv h0]
    · rw [if_pos ⟨rfl, h0⟩]
  · rw [Function.update_of_ne hr, if_neg fun h => hr h.1, h.reg]

theorem matches_writeBack (h : Matches s p) {rd : Reg} {v : Word} (hv : Spares rd v) :
    Matches (writeBack s rd v) ⟨(p.machine.write rd v).next, p.stdin, p.stdout⟩ :=
  ⟨congrArg (· + 4) h.pc, update_eq h hv, h.mem, h.stdin, h.stdout⟩

/-- A jump that leaves the address behind it in a register. -/
theorem matches_link (h : Matches s p) {rd : Reg} (hv : Spares rd (p.machine.pc + 4)) {target : Word} {m : Machine}
    (hjump : (p.machine.write rd (p.machine.pc + 4)).jump target = some m) :
    Matches { s with reg := Function.update s.reg rd (s.pc + 4), pc := target } ⟨m, p.stdin, p.stdout⟩ := by
  unfold Machine.jump at hjump
  split_ifs at hjump
  obtain rfl := Option.some.inj hjump
  exact ⟨rfl, by rw [h.pc]; exact update_eq h hv, h.mem, h.stdin, h.stdout⟩

/-! ### Accesses -/

/-- What a load call returns. -/
theorem result_loadCall (f : Word → BitVec 8) (a : Word) (op : LoadOp) : (loadCall a op).result f =
    some ((unsigned op).extend (Bytes.word (f a) (f (a + 1)) (f (a + 2)) (f (a + 3)))) := by
  have hhalf (b0 b1 b2 b3 : BitVec 8) : Bytes.half b0 b1 = ((Bytes.word b0 b1 b2 b3).setWidth 16).setWidth 32 := by
    obtain ⟨h0, h1, -⟩ := Bytes.byteOf_word b0 b1 b2 b3
    rw [← Bytes.half_byteOf, h0, h1]
  have hbyte (b0 b1 b2 b3 : BitVec 8) : b0.setWidth 32 = ((Bytes.word b0 b1 b2 b3).setWidth 8).setWidth 32 := by
    have h8 : (Bytes.word b0 b1 b2 b3).setWidth 8 = b0 := by
      rw [BitVec.setWidth_eq_extractLsb' (by decide : 8 ≤ 32)]
      exact (Bytes.byteOf_word b0 b1 b2 b3).1
    rw [h8]
  cases op with
  | lb => exact congrArg some (hbyte _ _ _ _)
  | lh => exact congrArg some (hhalf _ _ _ _)
  | lw => rfl
  | lbu => exact congrArg some (hbyte _ _ _ _)
  | lhu => exact congrArg some (hhalf _ _ _ _)

/-- What a store call leaves. -/
theorem writes_storeCall (f : Word → BitVec 8) (a v : Word) (op : StoreOp) :
    Store.applyWrites f (storeCall a v op).writes =
      fun b => if (b - a).toNat < op.width then Bytes.byteOf v (b - a).toNat else f b := by
  funext b
  obtain ⟨k, rfl⟩ : ∃ k, b = a + k := ⟨b - a, by rw [BitVec.add_comm, BitVec.sub_add_cancel]⟩
  rw [Store.applyWrites_apply, show a + k - a = k by rw [BitVec.add_comm, BitVec.add_sub_cancel]]
  have hzero : a = a + k ↔ k = 0 := by bv_omega
  have hplace (j : Word) : a + j = a + k ↔ k = j := by bv_omega
  cases op with
  | sb =>
    rcases (by bv_omega : k = 0 ∨ ¬ k.toNat < 1) with rfl | hk
    · simp [storeCall, Op.writes, writesB, StoreOp.width]
    · have h0 : k ≠ 0#32 := by bv_omega
      simp [storeCall, Op.writes, writesB, StoreOp.width, hzero, h0, hk]
  | sh =>
    rcases (by bv_omega : k = 0 ∨ k = 1 ∨ ¬ k.toNat < 2) with rfl | rfl | hk
    · simp [storeCall, Op.writes, writesH, StoreOp.width, Store.lastWrite?_cons]
    · simp [storeCall, Op.writes, writesH, StoreOp.width, Store.lastWrite?_cons]
    · have h0 : k ≠ 0#32 ∧ k ≠ 1#32 := by bv_omega
      simp [storeCall, Op.writes, writesH, StoreOp.width, Store.lastWrite?_cons, hzero, hplace, h0, hk]
  | sw =>
    rcases (by bv_omega : k = 0 ∨ k = 1 ∨ k = 2 ∨ k = 3 ∨ ¬ k.toNat < 4) with rfl | rfl | rfl | rfl | hk
    · simp [storeCall, Op.writes, writesW, StoreOp.width, Store.lastWrite?_cons]
    · simp [storeCall, Op.writes, writesW, StoreOp.width, Store.lastWrite?_cons]
    · simp [storeCall, Op.writes, writesW, StoreOp.width, Store.lastWrite?_cons]
    · simp [storeCall, Op.writes, writesW, StoreOp.width, Store.lastWrite?_cons]
    · have h0 : k ≠ 0#32 ∧ k ≠ 1#32 ∧ k ≠ 2#32 ∧ k ≠ 3#32 := by bv_omega
      simp [storeCall, Op.writes, writesW, StoreOp.width, Store.lastWrite?_cons, hzero, hplace, h0, hk]

theorem permitted_load {m : Machine} {op : LoadOp} {a v : Word} (h : m.load op a = some v) :
    (loadCall a op).Permitted ∧ v = op.extend (m.word a) := by
  unfold Machine.load at h
  split_ifs at h with hal
  refine ⟨?_, (Option.some.inj h).symm⟩
  cases op with
  | lb => trivial
  | lh => exact hal
  | lw => exact hal
  | lbu => trivial
  | lhu => exact hal

theorem permitted_store {m m' : Machine} {op : StoreOp} {a v : Word} (h : m.store op a v = some m') :
    (storeCall a v op).Permitted ∧
      m' = { m with mem := Store.applyWrites m.mem (storeCall a v op).writes } := by
  unfold Machine.store at h
  split_ifs at h with hal
  rw [writes_storeCall]
  refine ⟨?_, (Option.some.inj h).symm⟩
  cases op with
  | sb => trivial
  | sh => exact hal
  | sw => exact hal

/-! ### One instruction -/

/-- **A careful instruction** is executed as the manual says. -/
theorem execute_careful (h : Matches s p) {i : Instr} (hvalid : i.Valid) (hc : Careful p.machine i) {m : Machine}
    (hexec : p.machine.exec i = some m) :
    ∃ s', execute startAddr s (encode i) = .next s' ∧ Matches s' ⟨m, p.stdin, p.stdout⟩ := by
  cases i with
  | upper op rd imm =>
    obtain rfl := Option.some.inj hexec
    refine ⟨_, execute_upper startAddr s op rd imm, ?_⟩
    rw [h.pc]
    exact matches_writeBack h hc
  | jal rd offset =>
    obtain ⟨hspares, hfits⟩ := hc
    obtain ⟨heven, hlo, hhi⟩ := hvalid
    have hoffset : jalOffset (encode (.jal rd offset)) = BitVec.ofInt 32 offset := by
      rw [(jalOffset_eq_iff _).mpr ((jalFits_encode rd heven hlo (by omega)).mpr hfits), encode,
        immJ_formatJ _ _ _ (getElem_zero_ofInt heven)]
      exact signExtend_ofInt 32 (w := 20) hlo hhi
    refine ⟨_, execute_jal startAddr s rd offset, ?_⟩
    rw [hoffset]
    have hlink := matches_link h hspares hexec
    rwa [← h.pc] at hlink
  | jalr rd rs1 imm =>
    obtain ⟨hspares, hvalue, heven⟩ := hc
    have htarget : imm.signExtend 32 + BitVec.ofNat 32 rs1.val =
        (p.machine.reg rs1 + imm.signExtend 32) &&& ~~~1#32 := by
      rw [clear_lowest_eq_iff, target_even_iff]
      have := rs1.isLt
      exact ⟨heven, by bv_omega⟩
    refine ⟨_, execute_jalr startAddr s rd rs1 imm, ?_⟩
    rw [htarget]
    exact matches_link h hspares hexec
  | branch op rs1 rs2 offset =>
    obtain ⟨heven, hlo, hhi⟩ := hvalid
    have hholds : op.Holds (p.machine.reg rs1) (p.machine.reg rs2) := hc
    simp only [Machine.exec, if_pos hholds, Machine.jump] at hexec
    split_ifs at hexec
    obtain rfl := Option.some.inj hexec
    refine ⟨{ s with pc := s.pc + BitVec.ofInt 32 offset }, ?_, congrArg (· + _) h.pc, h.reg, h.mem, h.stdin, h.stdout⟩
    rw [execute_branch, branchOffset_encode op rs1 rs2 heven (by omega) (by omega), branchIf,
      if_pos (decide_eq_true (by rwa [congrFun h.reg rs1, congrFun h.reg rs2]))]
  | load op rd rs1 imm =>
    obtain ⟨himm, hlb, hlh, hspares⟩ := hc
    obtain ⟨v, hload, rfl⟩ := Option.map_eq_some_iff.mp hexec
    obtain ⟨hpermitted, rfl⟩ := permitted_load hload
    obtain ⟨mem, hcall, hmem⟩ := call_permitted s.mem hpermitted
    rw [result_loadCall, h.mem] at hcall
    have hv := (unsigned_extend_eq_iff (p.machine.word (p.machine.reg rs1 + imm.signExtend 32)) op).mpr ⟨hlb, hlh⟩
    refine ⟨writeBack { s with mem := mem } rd _, ?_, matches_writeBack (matches_mem h ?_) hspares⟩
    · rw [execute_load, congrFun h.reg rs1, ← (effective_eq_iff _ imm).mpr himm, hcall, ← hv]
      rfl
    · rw [hmem]
      cases op <;> rfl
  | store op rs2 rs1 imm =>
    obtain ⟨m', hstore, rfl⟩ := Option.map_eq_some_iff.mp hexec
    obtain ⟨hpermitted, rfl⟩ := permitted_store hstore
    obtain ⟨mem, hcall, hmem⟩ := call_permitted s.mem hpermitted
    refine ⟨advance { s with mem := mem }, ?_, congrArg (· + 4) h.pc, h.reg, ?_, h.stdin, h.stdout⟩
    · rw [execute_store startAddr s op rs2 rs1 imm a0, congrFun h.reg rs1, congrFun h.reg rs2,
        ← (effective_eq_iff _ imm).mpr hc, hcall]
      cases op <;> rfl
    · rw [← h.mem]
      exact hmem
  | immediate op rd rs1 imm =>
    obtain rfl := Option.some.inj hexec
    refine ⟨_, execute_immediate startAddr s op rd rs1 imm, ?_⟩
    rw [h.reg]
    exact matches_writeBack h hc
  | shiftImmediate op rd rs1 shamt =>
    obtain ⟨hsign, hspares⟩ := hc
    obtain rfl := Option.some.inj hexec
    have hshift : (immediateShift op).result (s.reg rs1) shamt.toNat = op.result (p.machine.reg rs1) shamt.toNat := by
      rw [h.reg]
      cases op with
      | sll => rfl
      | srl => rfl
      | sra =>
        refine ((sra_eq_srl_iff _ _).mpr ?_).symm
        exact (hsign rfl).imp_right fun h0 => by rw [h0]; rfl
    refine ⟨_, execute_shiftImmediate op rd rs1 shamt, ?_⟩
    rw [hshift]
    exact matches_writeBack h hspares
  | alu op rd rs1 rs2 =>
    obtain rfl := Option.some.inj hexec
    refine ⟨_, execute_alu startAddr s op rd rs1 rs2, ?_⟩
    rw [h.reg]
    exact matches_writeBack h hc
  | shift op rd rs1 rs2 =>
    obtain ⟨hlt, hsign, hspares⟩ := hc
    obtain rfl := Option.some.inj hexec
    have hshift : (registerShift op).result (p.machine.reg rs1) (p.machine.reg rs2).toNat =
        op.result (p.machine.reg rs1) (p.machine.reg rs2).toNat := by
      cases op with
      | sll => rfl
      | srl => exact (sra_eq_srl_iff _ _).mpr ((hsign rfl).imp_right fun h0 => by rw [h0]; rfl)
      | sra => rfl
    refine ⟨writeBack s rd (op.result (p.machine.reg rs1) (p.machine.reg rs2).toNat), ?_, ?_⟩
    · rw [execute_shift, h.reg, if_pos hlt, hshift]
    · rw [Nat.mod_eq_of_lt hlt]
      exact matches_writeBack h hspares
  | mul op rd rs1 rs2 =>
    obtain ⟨hsu, hu, hspares⟩ := hc
    obtain rfl := Option.some.inj hexec
    have hproduct : (multiplied op).result (p.machine.reg rs1) (p.machine.reg rs2) =
        op.result (p.machine.reg rs1) (p.machine.reg rs2) := by
      cases op with
      | mul => rfl
      | mulh => rfl
      | mulhsu => exact ((mulhsu_eq_mulh_iff _ _).mpr (hsu rfl)).symm
      | mulhu => exact ((mulhu_eq_mulh_iff _ _).mpr (hu rfl)).symm
    refine ⟨_, execute_mul op rd rs1 rs2, ?_⟩
    rw [h.reg, hproduct]
    exact matches_writeBack h hspares
  | div op rd rs1 rs2 =>
    obtain rfl := Option.some.inj hexec
    refine ⟨_, execute_div op rd rs1 rs2 (by rw [h.reg]; exact hc.1), ?_⟩
    rw [h.reg]
    exact matches_writeBack h hc.2

/-! ### Whole runs -/

/-- What the interpreter fetches. -/
theorem fetched_eq (h : Matches s p) (haligned : p.machine.pc.toNat % 4 = 0) :
    fetched s = some (p.machine.word p.machine.pc) := by
  have hread := memoryRdW_ok s.mem (a := s.pc) (by rw [h.pc]; exact haligned)
  rw [h.mem, h.pc] at hread
  unfold fetched
  rw [h.pc, hread]
  rfl

/-- **A system call.** -/
theorem execute_call (h : Matches s p) {p' : Process} (hcall : p.call = some p') :
    ∃ s', execute startAddr s ecallWord = .next s' ∧ Matches s' p' := by
  have hregs (r : Reg) := congrFun h.reg r
  rw [execute_of_ecall (by decide), execEcall, hregs]
  unfold Process.call at hcall
  split_ifs at hcall with hread hwrite
  · obtain rfl := Option.some.inj hcall
    rw [if_pos hread, h.stdin]
    refine ⟨_, rfl, matches_writeBack (p := ⟨p.machine, (getchar p.stdin).2, p.stdout⟩)
      (s := { s with stdin := (getchar p.stdin).2 }) ⟨h.pc, h.reg, h.mem, rfl, h.stdout⟩ ?_⟩
    exact fun h0 => absurd h0 (by decide)
  · obtain rfl := Option.some.inj hcall
    rw [if_neg hread, if_pos hwrite, hregs, h.stdout]
    exact ⟨_, rfl, congrArg (· + 4) h.pc, h.reg, h.mem, h.stdin, rfl⟩

/-- **A careful step.** -/
theorem step_follows (startAddr : Word) (h : Matches s p) (hcare : CarefulNext p) {p' : Process}
    (hstep : p.step = some p') : ∃ s', Simulate.step startAddr s = .next s' ∧ Matches s' p' := by
  unfold Process.step at hstep
  split_ifs at hstep with hcalls
  · obtain ⟨mem, hmem, hexec⟩ := step_of_fetched startAddr (fetched_eq h hcalls.1)
    rw [hexec, hcalls.2]
    exact execute_call (matches_mem h hmem) hstep
  · obtain ⟨m, hm, rfl⟩ := Option.map_eq_some_iff.mp hstep
    obtain ⟨i, hfetch, hexec⟩ := Option.bind_eq_some_iff.mp hm
    have hcareful := hcare i hfetch
    unfold Machine.fetch at hfetch
    split_ifs at hfetch with haligned
    obtain ⟨hword, hvalid⟩ := encode_of_decode hfetch
    obtain ⟨mem, hmem, hstep⟩ := step_of_fetched startAddr (fetched_eq h haligned)
    rw [hstep, ← hword]
    exact execute_careful (matches_mem h hmem) hvalid hcareful hexec

/-- The next instruction is a call that ends the process. -/
def Exits (p : Process) : Prop :=
  Calls p.machine ∧ (p.machine.reg a7 = 3#32 ∨ p.machine.reg a7 = 93#32)

theorem step_exits (startAddr : Word) (h : Matches s p) (hexits : Exits p) :
    ∃ k s', Simulate.step startAddr s = .done k s' ∧ Matches s' p := by
  obtain ⟨mem, hmem, hexec⟩ := step_of_fetched startAddr (fetched_eq h hexits.1.1)
  have hregs (r : Reg) := congrFun h.reg r
  refine ⟨((s.pc - startAddr) / 4#32 + 1#32).toNat, { s with mem := mem }, ?_, matches_mem h hmem⟩
  rw [hexec, hexits.1.2, execute_of_ecall (by decide), execEcall, hregs, if_neg, if_neg, if_pos hexits.2]
  · rcases hexits.2 with h3 | h3 <;> rw [h3] <;> decide
  · rcases hexits.2 with h3 | h3 <;> rw [h3] <;> decide

/-- **A careful run**, state by state. -/
theorem simulate_reaches (startAddr : Word) (h : Matches s p) (n : ℕ) {p' : Process} (hrun : p.steps n = some p')
    (hcare : ∀ k < n, ∀ q, p.steps k = some q → CarefulNext q) :
    ∃ s', simulate startAddr n s = .next s' ∧ Matches s' p' := by
  induction n generalizing s p with
  | zero =>
    obtain rfl := Option.some.inj hrun
    exact ⟨s, rfl, h⟩
  | succ n ih =>
    obtain ⟨p1, hstep, hrest⟩ := Option.bind_eq_some_iff.mp hrun
    obtain ⟨s1, hnext, h1⟩ := step_follows startAddr h (hcare 0 n.succ_pos p rfl) hstep
    have hcare1 : ∀ k < n, ∀ q, p1.steps k = some q → CarefulNext q := fun k hk q hq =>
      hcare (k + 1) (by omega) q (by rw [Process.steps, hstep]; exact hq)
    rw [simulate, hnext]
    exact ih h1 hrest hcare1

theorem simulate_succ {n : ℕ} {s' : State} (h : simulate startAddr n s = .next s') :
    simulate startAddr (n + 1) s = simulate startAddr 1 s' := by
  induction n generalizing s with
  | zero =>
    injection h with h
    rw [h]
  | succ n ih =>
    rw [simulate] at h ⊢
    cases hstep : Simulate.step startAddr s with
    | next s1 =>
      rw [hstep] at h
      exact ih h
    | done k s1 => rw [hstep] at h; cases h
    | failure message s1 => rw [hstep] at h; cases h
    | exit e => rw [hstep] at h; cases h
    | undefined => rw [hstep] at h; cases h

/-- A run ends with the call that ends the process. -/
theorem simulate_ends {n : ℕ} {s' : State} (hreached : simulate startAddr n s = .next s') (h : Matches s' p)
    (hexits : Exits p) : ∃ k s'', simulate startAddr (n + 1) s = .done k s'' ∧ Matches s'' p := by
  obtain ⟨k, s'', hdone, hs''⟩ := step_exits startAddr h hexits
  exact ⟨k, s'', by rw [simulate_succ hreached, simulate, hdone], hs''⟩

/-- **The interpreter follows a careful process** through the states of its run, and ends when it does. -/
theorem simulate_follows (startAddr : Word) (h : Matches s p) (n : ℕ) {p' : Process} (hrun : p.steps n = some p')
    (hcare : ∀ k < n, ∀ q, p.steps k = some q → CarefulNext q) :
    (∃ s', simulate startAddr n s = .next s' ∧ Matches s' p') ∧
      (Exits p' → ∃ k s', simulate startAddr (n + 1) s = .done k s' ∧ Matches s' p') := by
  obtain ⟨s', hreached, hs'⟩ := simulate_reaches startAddr h n hrun hcare
  exact ⟨⟨s', hreached, hs'⟩, simulate_ends hreached hs'⟩

/-- A memory with one word, at address 0. -/
def wordMemory (word : Word) : Memory := setEntry memoryCreate 0#32 zeroPage word

/-- A process that is about to execute it. -/
def atWord (word : Word) : Process := ⟨⟨0#32, fun _ => 0#32, bytes (wordMemory word), fun _ _ => rfl⟩, [], []⟩

/-- `ADDI x5, x0, 7`, and what follows. -/
theorem simulate_follows_addi :
    ∃ p', (atWord 0x00700293#32).steps 1 = some p' ∧ p'.machine.reg (Decode.rd 0x00700293#32) = 7#32 ∧
      (∃ s', simulate 0 1 (initial 0 (fun _ => 0#32) (wordMemory 0x00700293#32) []) = .next s' ∧ Matches s' p') ∧
      (Exits p' → ∃ k s', simulate 0 (1 + 1) (initial 0 (fun _ => 0#32) (wordMemory 0x00700293#32) []) = .done k s' ∧
        Matches s' p') := by
  have hfetch : (atWord 0x00700293#32).machine.fetch =
      some (.immediate .addi (Decode.rd 0x00700293#32) Decode.zero 7) := by decide
  have hstep : (atWord 0x00700293#32).steps 1 =
      some ⟨((atWord 0x00700293#32).machine.write (Decode.rd 0x00700293#32) 7).next, [], []⟩ := by
    rw [Process.steps, Process.step, if_neg (by decide), Machine.step, hfetch]
    rfl
  refine ⟨_, hstep, by decide, simulate_follows 0 ⟨rfl, ?_, rfl, rfl, rfl⟩ 1 hstep fun k hk q hq i hi => ?_⟩
  · exact Function.update_eq_self _ _
  · obtain rfl : k = 0 := by omega
    obtain rfl := Option.some.inj hq
    obtain rfl := Option.some.inj (hfetch.symm.trans hi)
    exact fun h0 => absurd h0 (by decide)

end CompSys.A5.Refinement
