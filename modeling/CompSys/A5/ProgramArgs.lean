import CompSys.Lib.Extents
import CompSys.A5.FlatMemory
import Mathlib.Data.List.TakeWhile

/-! # Program arguments (`A5/src/main.c`, `A6/handout/lib.c`)

The arguments from `--` on are written to the simulated memory: their number at `0x1000000`, a table of pointers
behind it, and behind the table the strings, each with the zero byte that ends it. The loop changes nothing but
the table and the strings, and what it has written it does not write again (`argLoop_passed`). So a program finds
all of its arguments (`args_reach_main`). Sums of addresses are taken modulo `2^32`. -/

namespace CompSys.A5.ProgramArgs

open CompSys.Lib.Bytes CompSys.Lib.Store CompSys.Lib.Extents CompSys.A5.PagedMemory CompSys.A5.FlatMemory

abbrev Byte := BitVec 8

/-- A string of the host: the bytes before its first zero byte. -/
structure CString where
  chars : List Byte
  noNul : 0#8 ∉ chars
deriving DecidableEq

/-- The bytes of the string, and the zero byte. -/
def CString.stored (s : CString) : List Byte := s.chars ++ [0#8]

/-- `--`. -/
def seperator : CString := ⟨[0x2d#8, 0x2d#8], by decide⟩

/-! ### `pass_args_to_program` -/

/-- The `while`: `seperator_position` and `seperator_found`, from a position on. -/
def seperatorLoop : List CString → ℕ → ℕ × Bool
  | [], position => (position, false)
  | arg :: argv, position => if arg = seperator then (position, true) else seperatorLoop argv (position + 1)

/-- The `do` over the characters of an argument: the memory, and `str_addr` after it. -/
def copyString (mem : Memory) (strAddr : Word) : List Byte → Memory × Word
  | [] => (memoryWrB mem strAddr 0#32, strAddr + 1)
  | c :: cp => copyString (memoryWrB mem strAddr (c.signExtend 32)) (strAddr + 1) cp

/-- The `for` over the arguments. -/
def argLoop (mem : Memory) (argvAddr strAddr : Word) (index : ℕ) : List CString → Except Exit Memory
  | [] => .ok mem
  | arg :: args =>
    match memoryWrW mem (argvAddr + 4 * BitVec.ofNat 32 index) strAddr with
    | .error e => .error e
    | .ok mem =>
      let copied := copyString mem strAddr arg.chars
      argLoop copied.1 argvAddr copied.2 (index + 1) args

/-- `pass_args_to_program`: the memory, and the position of the separator. The first entry of `argv` is the path to
the simulator. -/
def passArgsToProgram (mem : Memory) (argv : List CString) : Except Exit (Memory × ℕ) :=
  let sep := seperatorLoop (argv.drop 1) 1
  if sep.2 then
    let args := argv.drop sep.1
    let numArgs := BitVec.ofNat 32 (argv.length - sep.1)
    let countAddr : Word := 0x1000000#32
    let argvAddr : Word := 0x1000004#32
    let strAddr := argvAddr + 4 * numArgs
    match memoryWrW mem countAddr numArgs with
    | .error e => .error e
    | .ok mem => (argLoop mem argvAddr strAddr 0 args).map (·, sep.1)
  else .ok (mem, sep.1)

/-! ### The program's view -/

/-- A word load of the program. -/
def loadW (mem : Memory) (addr : Word) : Except Exit Word := (memoryRdW mem addr).map Prod.fst

/-- A byte load of the program. -/
def loadB (mem : Memory) (addr : Word) : Word := (memoryRdB mem addr).1

/-- `args_to_main`, which `_start` calls with `0x1000000`: the two arguments of `main`. -/
def argsToMain (mem : Memory) (argsPtr : Word) : Except Exit (Word × Word) :=
  (loadW mem argsPtr).map fun argc => (argc, argsPtr + 4)

/-- The copies, from an address on. -/
def copies (addr : ℕ) : List CString → List Extent
  | [] => []
  | arg :: args => ⟨addr, arg.stored.length⟩ :: copies (addr + arg.stored.length) args

/-- The bytes of the copies. -/
def total (args : List CString) : ℕ := (args.map fun arg => arg.stored.length).sum

/-- **The program finds its arguments.** -/
structure Arrived (mem : Memory) (args : List CString) : Prop where
  /-- `argc` and `argv`. -/
  main : ∃ argc, argsToMain mem 0x1000000#32 = .ok (argc, 0x1000004#32) ∧ argc.toInt = args.length
  /-- `argv[i]` points to a copy of an argument, and every copy ends with its zero byte. -/
  argv : ∃ blocks : List Extent, blocks.length = args.length ∧
    (⟨0x1000000, 4⟩ :: ⟨0x1000004, 4 * args.length⟩ :: blocks).Pairwise Apart ∧
    ∀ i arg block, args[i]? = some arg → blocks[i]? = some block →
      block.size = arg.stored.length ∧ block.stop ≤ 2 ^ 32 ∧
        loadW mem (0x1000004#32 + 4 * BitVec.ofNat 32 i) = .ok (BitVec.ofNat 32 block.addr) ∧
          ∀ j c, arg.stored[j]? = some c → loadB mem (BitVec.ofNat 32 (block.addr + j)) = c.setWidth 32

/-! ### Stores -/

variable {mem : Memory} {args : List CString} {i n : ℕ} {x y : ℕ}

/-- The word at an address, as a number. -/
def wordOf (f : Word → Byte) (a : ℕ) : Word :=
  word (f (BitVec.ofNat 32 a)) (f (BitVec.ofNat 32 (a + 1))) (f (BitVec.ofNat 32 (a + 2)))
    (f (BitVec.ofNat 32 (a + 3)))

theorem ofNat_inj (hx : x < 2 ^ 32) (hy : y < 2 ^ 32) : BitVec.ofNat 32 x = BitVec.ofNat 32 y ↔ x = y := by
  rw [← BitVec.toNat_inj, BitVec.toNat_ofNat, BitVec.toNat_ofNat, Nat.mod_eq_of_lt hx, Nat.mod_eq_of_lt hy]

theorem wordOf_congr {f g : Word → Byte} (h : ∀ k < 4, f (BitVec.ofNat 32 (x + k)) = g (BitVec.ofNat 32 (x + k))) :
    wordOf f x = wordOf g x := by
  have hfirst := h 0 (by omega)
  rw [Nat.add_zero] at hfirst
  rw [wordOf, wordOf, hfirst, h 1 (by omega), h 2 (by omega), h 3 (by omega)]

theorem toNat_ofNat_of_lt (hx : x < 2 ^ 32) : (BitVec.ofNat 32 x).toNat = x := by
  rw [BitVec.toNat_ofNat, Nat.mod_eq_of_lt hx]

theorem bytes_wrB (mem : Memory) (a d b : Word) :
    bytes (memoryWrB mem a d) b = if a = b then byteOf d 0 else bytes mem b := by
  rw [bytes_memoryWrB, applyWrites_apply, writesB, lastWrite?_singleton]
  split_ifs
  · rfl
  · rfl

/-- A word store: the word, and the bytes around it. -/
theorem wrW_stores (mem : Memory) (d : Word) (h4 : x % 4 = 0) (hx : x + 4 ≤ 2 ^ 32) :
    ∃ mem', memoryWrW mem (BitVec.ofNat 32 x) d = .ok mem' ∧ wordOf (bytes mem') x = d ∧
      ∀ b : Word, b.toNat < x ∨ x + 4 ≤ b.toNat → bytes mem' b = bytes mem b := by
  have hto : (BitVec.ofNat 32 x).toNat = x := toNat_ofNat_of_lt (by omega)
  obtain ⟨mem', hok, hbytes⟩ := memoryWrW_ok mem (a := BitVec.ofNat 32 x) (by rw [hto]; exact h4) d
  have hwrites : writesW (BitVec.ofNat 32 x) d = [(BitVec.ofNat 32 x, byteOf d 0),
      (BitVec.ofNat 32 (x + 1), byteOf d 1), (BitVec.ofNat 32 (x + 2), byteOf d 2),
      (BitVec.ofNat 32 (x + 3), byteOf d 3)] := by
    simp only [writesW, BitVec.ofNat_add]
    rfl
  refine ⟨mem', hok, ?_, fun b hb => ?_⟩
  · have hstored : ∀ k < 4, bytes mem' (BitVec.ofNat 32 (x + k)) = byteOf d k := by
      intro k hk
      have h0 : BitVec.ofNat 32 x = BitVec.ofNat 32 (x + k) ↔ 0 = k :=
        (ofNat_inj (by omega) (by omega)).trans (by omega)
      have hk' : ∀ j < 4, BitVec.ofNat 32 (x + j) = BitVec.ofNat 32 (x + k) ↔ j = k :=
        fun j hj => (ofNat_inj (by omega) (by omega)).trans (by omega)
      rw [hbytes, hwrites, applyWrites_apply]
      simp only [lastWrite?_cons, lastWrite?_nil, h0, hk' 1 (by omega), hk' 2 (by omega), hk' 3 (by omega)]
      interval_cases k
      · simp
      · simp
      · simp
      · simp
    rw [wordOf, hstored 1 (by omega), hstored 2 (by omega), hstored 3 (by omega)]
    have hfirst := hstored 0 (by omega)
    rw [Nat.add_zero] at hfirst
    rw [hfirst, word_byteOf]
  · have hnone : lastWrite? (writesW (BitVec.ofNat 32 x) d) b = none := by
      rw [lastWrite?_eq_none, hwrites]
      have hne : ∀ k < 4, BitVec.ofNat 32 (x + k) ≠ b := by
        rintro k hk rfl
        rw [BitVec.toNat_ofNat, Nat.mod_eq_of_lt (by omega)] at hb
        omega
      simp only [List.mem_cons, List.not_mem_nil, or_false]
      rintro w (rfl | rfl | rfl | rfl)
      · exact hne 0 (by omega)
      · exact hne 1 (by omega)
      · exact hne 2 (by omega)
      · exact hne 3 (by omega)
    rw [hbytes, applyWrites_apply, hnone, Option.getD_none]

theorem byteOf_signExtend (c : Byte) : byteOf (c.signExtend 32) 0 = c := by
  apply BitVec.eq_of_getElem_eq
  intro i hi
  simp [byteOf, BitVec.getElem_signExtend, hi, show i < 32 by omega]

/-- A string: its bytes, and the bytes around them. -/
theorem copyString_stores : ∀ (cp : List Byte) (mem : Memory) (x : ℕ), x + cp.length + 1 ≤ 2 ^ 32 →
    (copyString mem (BitVec.ofNat 32 x) cp).2 = BitVec.ofNat 32 (x + cp.length + 1) ∧
      (∀ j c, (cp ++ [0#8])[j]? = some c →
        bytes (copyString mem (BitVec.ofNat 32 x) cp).1 (BitVec.ofNat 32 (x + j)) = c) ∧
        ∀ b : Word, b.toNat < x ∨ x + cp.length + 1 ≤ b.toNat →
          bytes (copyString mem (BitVec.ofNat 32 x) cp).1 b = bytes mem b
  | [], mem, x, hx => by
    rw [copyString]
    refine ⟨by rw [List.length_nil, Nat.add_zero, BitVec.ofNat_add]; rfl, fun j c hj => ?_, fun b hb => ?_⟩
    · rcases j with _ | j
      · rw [bytes_wrB, if_pos (by rw [Nat.add_zero]), byteOf_zero]
        exact Option.some.inj hj
      · simp at hj
    · rw [bytes_wrB, if_neg]
      rintro rfl
      rw [BitVec.toNat_ofNat, Nat.mod_eq_of_lt (by omega), List.length_nil] at hb
      omega
  | c :: cp, mem, x, hx => by
    rw [List.length_cons] at hx
    have hnext : BitVec.ofNat 32 x + 1 = BitVec.ofNat 32 (x + 1) := by rw [BitVec.ofNat_add]; rfl
    obtain ⟨hend, hstored, hframe⟩ :=
      copyString_stores cp (memoryWrB mem (BitVec.ofNat 32 x) (c.signExtend 32)) (x + 1) (by omega)
    rw [copyString, hnext, List.length_cons]
    refine ⟨by rw [hend, show x + 1 + cp.length + 1 = x + (cp.length + 1) + 1 by omega], fun j d hj => ?_,
      fun b hb => ?_⟩
    · rcases j with _ | j
      · rw [hframe _ (Or.inl ?_), bytes_wrB, if_pos (by rw [Nat.add_zero]), byteOf_signExtend]
        · exact Option.some.inj hj
        · rw [BitVec.toNat_ofNat, Nat.mod_eq_of_lt (by omega)]
          omega
      · rw [show x + (j + 1) = x + 1 + j by omega]
        exact hstored j d hj
    · rw [hframe b (by omega), bytes_wrB, if_neg]
      rintro rfl
      rw [BitVec.toNat_ofNat, Nat.mod_eq_of_lt (by omega)] at hb
      omega

/-! ### The loop -/

@[simp] theorem total_cons (arg : CString) (args : List CString) :
    total (arg :: args) = arg.stored.length + total args := by
  rw [total, List.map_cons, List.sum_cons, total]

/-- From memory `f` to memory `g`: a table at `t` and strings at `s`, and nothing else. -/
structure Passed (t s : ℕ) (args : List CString) (f g : Word → Byte) : Prop where
  frame : ∀ b : Word, b.toNat < t ∨ t + 4 * args.length ≤ b.toNat → b.toNat < s ∨ s + total args ≤ b.toNat → g b = f b
  argv : ∀ i arg block, args[i]? = some arg → (copies s args)[i]? = some block →
    wordOf g (t + 4 * i) = BitVec.ofNat 32 block.addr ∧
      ∀ j c, arg.stored[j]? = some c → g (BitVec.ofNat 32 (block.addr + j)) = c

theorem tiles_copies : ∀ (args : List CString) (s : ℕ), Tiles s (copies s args) (s + total args)
  | [], _ => rfl
  | arg :: args, s => by
    have hpos : 0 < arg.stored.length := by
      rw [CString.stored, List.length_append, List.length_singleton]
      omega
    refine ⟨rfl, hpos, ?_⟩
    rw [total_cons, ← Nat.add_assoc]
    exact tiles_copies args (s + arg.stored.length)

/-- **The loop** writes the table and the strings. -/
theorem argLoop_passed : ∀ (args : List CString) (mem : Memory) (t s index : ℕ), (t + 4 * index) % 4 = 0 →
    t + 4 * index + 4 * args.length ≤ s → s + total args ≤ 2 ^ 32 →
      ∃ mem', argLoop mem (BitVec.ofNat 32 t) (BitVec.ofNat 32 s) index args = .ok mem' ∧
        Passed (t + 4 * index) s args (bytes mem) (bytes mem')
  | [], mem, t, s, index, _, _, _ => ⟨mem, rfl, fun _ _ _ => rfl, fun i arg block hi => nomatch hi⟩
  | arg :: args, mem, t, s, index, h4, hts, hs => by
    have hlen : arg.stored.length = arg.chars.length + 1 := by
      rw [CString.stored, List.length_append, List.length_singleton]
    rw [List.length_cons] at hts
    rw [total_cons, hlen] at hs
    have haddr : BitVec.ofNat 32 t + 4 * BitVec.ofNat 32 index = BitVec.ofNat 32 (t + 4 * index) := by
      rw [BitVec.ofNat_add, BitVec.ofNat_mul]
      rfl
    obtain ⟨mem1, hwr, hword, hframe1⟩ :=
      wrW_stores mem (BitVec.ofNat 32 s) h4 (by omega : t + 4 * index + 4 ≤ 2 ^ 32)
    obtain ⟨hend, hstored, hframe2⟩ := copyString_stores arg.chars mem1 s (by omega)
    obtain ⟨mem2, hloop, hpassed⟩ := argLoop_passed args (copyString mem1 (BitVec.ofNat 32 s) arg.chars).1 t
      (s + arg.chars.length + 1) (index + 1) (by omega) (by omega) (by omega)
    rw [show t + 4 * (index + 1) = t + 4 * index + 4 by omega] at hpassed
    have hlater : ∀ b : Word, b.toNat < t + 4 * index + 4 ∨ s ≤ b.toNat →
        b.toNat < s + arg.chars.length + 1 →
          bytes mem2 b = bytes (copyString mem1 (BitVec.ofNat 32 s) arg.chars).1 b :=
      fun b hb hbs => hpassed.frame b (by omega) (Or.inl hbs)
    refine ⟨mem2, ?_, fun b hbt hbs => ?_, fun i arg' block hi hblock => ?_⟩
    · rw [argLoop, haddr, hwr]
      simp only [hend]
      exact hloop
    · rw [List.length_cons] at hbt
      rw [total_cons, hlen] at hbs
      rw [hpassed.frame b (by omega) (by omega), hframe2 b (by omega), hframe1 b (by omega)]
    · rcases i with _ | i
      · obtain rfl : arg = arg' := Option.some.inj hi
        obtain rfl : ⟨s, arg.stored.length⟩ = block := Option.some.inj hblock
        refine ⟨?_, fun j c hj => ?_⟩
        · rw [Nat.mul_zero, Nat.add_zero, ← hword]
          refine wordOf_congr fun k hk => ?_
          have hk' := toNat_ofNat_of_lt (x := t + 4 * index + k) (by omega)
          rw [hlater _ (Or.inl (by omega)) (by omega), hframe2 _ (Or.inl (by omega))]
        · have hjlen : j < arg.stored.length := (List.getElem?_eq_some_iff.mp hj).1
          have hj' := toNat_ofNat_of_lt (x := s + j) (by omega)
          change bytes mem2 (BitVec.ofNat 32 (s + j)) = c
          rw [hlater _ (Or.inr (by omega)) (by omega)]
          exact hstored j c hj
      · have hblock' : (copies (s + arg.stored.length) args)[i]? = some block := hblock
        rw [hlen, ← Nat.add_assoc] at hblock'
        have hargv := hpassed.argv i arg' block hi hblock'
        rwa [show t + 4 * index + 4 + 4 * i = t + 4 * index + 4 * (i + 1) by omega] at hargv

/-! ### Crossing -/

/-- The arguments from the first `--` on. -/
def fromSeperator (argv : List CString) : List CString := argv.dropWhile (· ≠ seperator)

theorem seperatorLoop_found : ∀ (argv : List CString) (position : ℕ), seperator ∈ argv →
    ∃ n, seperatorLoop argv position = (position + n, true) ∧ argv.drop n = fromSeperator argv
  | [], _, h => nomatch h
  | arg :: argv, position, h => by
    rw [seperatorLoop, fromSeperator]
    split_ifs with harg
    · exact ⟨0, rfl, by rw [harg, List.dropWhile_cons_of_neg (by simp), List.drop_zero]⟩
    · obtain ⟨n, hloop, hdrop⟩ := seperatorLoop_found argv (position + 1) (List.mem_of_ne_of_mem (Ne.symm harg) h)
      refine ⟨n + 1, ?_, ?_⟩
      · rw [hloop, Nat.add_assoc, Nat.add_comm 1]
      · rw [List.dropWhile_cons_of_pos (by simpa using harg), List.drop_succ_cons, hdrop, fromSeperator]

theorem seperatorLoop_missing : ∀ (argv : List CString) (position : ℕ), seperator ∉ argv →
    seperatorLoop argv position = (position + argv.length, false)
  | [], _, _ => rfl
  | arg :: argv, position, h => by
    rw [List.mem_cons, not_or] at h
    rw [seperatorLoop, if_neg (Ne.symm h.1), seperatorLoop_missing argv (position + 1) h.2, List.length_cons]
    congr 1
    omega

theorem fromSeperator_pos {argv : List CString} (h : seperator ∈ argv) : 0 < (fromSeperator argv).length := by
  rw [List.length_pos_iff, fromSeperator, Ne, List.dropWhile_eq_nil_iff]
  intro hall
  simpa using hall seperator h

theorem length_copies : ∀ (args : List CString) (s : ℕ), (copies s args).length = args.length
  | [], _ => rfl
  | arg :: args, s => by rw [copies, List.length_cons, List.length_cons, length_copies args]

theorem size_copies : ∀ {args : List CString} {s i : ℕ} {arg : CString} {block : Extent}, args[i]? = some arg →
    (copies s args)[i]? = some block → block.size = arg.stored.length
  | [], _, _, _, _, h, _ => nomatch h
  | _ :: _, _, 0, _, _, h, h' => by
    obtain rfl := Option.some.inj h
    obtain rfl := Option.some.inj h'
    rfl
  | _ :: args, _, i + 1, _, _, h, h' => @size_copies args _ i _ _ h h'

theorem loadW_eq (h4 : x % 4 = 0) (hx : x < 2 ^ 32) : loadW mem (BitVec.ofNat 32 x) = .ok (wordOf (bytes mem) x) := by
  have hnext : ∀ k, BitVec.ofNat 32 x + BitVec.ofNat 32 k = BitVec.ofNat 32 (x + k) :=
    fun k => (BitVec.ofNat_add x k).symm
  rw [loadW, memoryRdW_ok mem (by rw [toNat_ofNat_of_lt hx]; exact h4), wordOf, ← hnext 1, ← hnext 2, ← hnext 3]
  rfl

theorem table_addr (i : ℕ) : 0x1000004#32 + 4 * BitVec.ofNat 32 i = BitVec.ofNat 32 (0x1000004 + 4 * i) := by
  rw [BitVec.ofNat_add, BitVec.ofNat_mul]
  rfl

/-- **What the loop wrote is what the program finds.** -/
theorem Passed.arrived {f : Word → Byte}
    (hpassed : Passed 0x1000004 (0x1000004 + 4 * args.length) args f (bytes mem))
    (hroom : 0x1000004 + 4 * args.length + total args ≤ 2 ^ 32) (hpos : 0 < args.length)
    (hargc : wordOf (bytes mem) 0x1000000 = BitVec.ofNat 32 args.length) : Arrived mem args := by
  have htiles := tiles_copies args (0x1000004 + 4 * args.length)
  refine ⟨⟨_, by rw [argsToMain, loadW_eq rfl (by omega), hargc]; rfl, ?_⟩,
    copies (0x1000004 + 4 * args.length) args, length_copies args _, ?_, fun i arg block hi hblock => ?_⟩
  · rw [BitVec.toInt_eq_toNat_of_lt (by rw [toNat_ofNat_of_lt (by omega)]; omega), toNat_ofNat_of_lt (by omega)]
  · have hall : Tiles 0x1000000 (⟨0x1000000, 4⟩ :: ⟨0x1000004, 4 * args.length⟩ ::
        copies (0x1000004 + 4 * args.length) args) (0x1000004 + 4 * args.length + total args) :=
      ⟨rfl, by decide, rfl, Nat.mul_pos (by decide) hpos, htiles⟩
    exact hall.pairwise
  · obtain ⟨hpointer, hcopy⟩ := hpassed.argv i arg block hi hblock
    obtain ⟨-, -, hstop⟩ := htiles.inside (List.mem_of_getElem? hblock)
    have hilen : i < args.length := (List.getElem?_eq_some_iff.mp hi).1
    refine ⟨size_copies hi hblock, hstop.trans hroom, ?_, fun j c hj => ?_⟩
    · rw [table_addr, loadW_eq (by omega) (by omega), hpointer]
    · rw [loadB, memoryRdB_eq, hcopy j c hj]

/-- **Arguments survive the crossing.** Without `--` the memory is untouched. With it, and if the count, the table and
the strings end below `2^32`, the program finds the arguments from `--` on. -/
theorem args_reach_main (mem : Memory) (argv : List CString) :
    (seperator ∉ argv.drop 1 → passArgsToProgram mem argv = .ok (mem, 1 + (argv.drop 1).length)) ∧
      ∀ args, args = fromSeperator (argv.drop 1) → seperator ∈ argv.drop 1 →
        0x1000004 + 4 * args.length + total args ≤ 2 ^ 32 →
          ∃ mem' position, passArgsToProgram mem argv = .ok (mem', position) ∧ argv.drop position = args ∧
            Arrived mem' args := by
  refine ⟨fun hmissing => ?_, ?_⟩
  · rw [passArgsToProgram, seperatorLoop_missing _ 1 hmissing]
    rfl
  · rintro args rfl hfound hroom
    obtain ⟨n, hloop, hdrop⟩ := seperatorLoop_found (argv.drop 1) 1 hfound
    have hargs : argv.drop (1 + n) = fromSeperator (argv.drop 1) := by
      rw [← List.drop_drop, hdrop]
    have hlen : argv.length - (1 + n) = (fromSeperator (argv.drop 1)).length := by
      rw [← hargs, List.length_drop]
    have hpos := fromSeperator_pos hfound
    obtain ⟨mem1, hwr, hword, -⟩ := wrW_stores mem
      (BitVec.ofNat 32 (fromSeperator (argv.drop 1)).length) (x := 0x1000000) rfl (by decide)
    obtain ⟨mem2, hargloop, hpassed⟩ := argLoop_passed (fromSeperator (argv.drop 1)) mem1 0x1000004 _ 0 rfl le_rfl hroom
    have hargc : wordOf (bytes mem2) 0x1000000 = BitVec.ofNat 32 (fromSeperator (argv.drop 1)).length := by
      rw [← hword]
      refine wordOf_congr fun k hk => hpassed.frame _ (Or.inl ?_) (Or.inl ?_)
      · rw [toNat_ofNat_of_lt (by omega)]
        omega
      · rw [toNat_ofNat_of_lt (by omega)]
        omega
    refine ⟨mem2, 1 + n, ?_, hargs, hpassed.arrived hroom hpos hargc⟩
    rw [passArgsToProgram, hloop]
    simp only [if_true, hlen, hargs, table_addr]
    rw [hwr]
    simp only
    rw [hargloop]
    rfl

/-- `sim prog.dis -- a`. -/
theorem args_reach_main_letter : ∃ mem' position,
    passArgsToProgram memoryCreate [⟨[0x73#8, 0x69#8, 0x6d#8], by decide⟩, ⟨[0x70#8], by decide⟩, seperator,
      ⟨[0x61#8], by decide⟩] = .ok (mem', position) ∧
    [⟨[0x73#8, 0x69#8, 0x6d#8], by decide⟩, ⟨[0x70#8], by decide⟩, seperator, ⟨[0x61#8], by decide⟩].drop position =
      [seperator, ⟨[0x61#8], by decide⟩] ∧ Arrived mem' [seperator, ⟨[0x61#8], by decide⟩] :=
  (args_reach_main memoryCreate [⟨[0x73#8, 0x69#8, 0x6d#8], by decide⟩, ⟨[0x70#8], by decide⟩, seperator,
    ⟨[0x61#8], by decide⟩]).2 [seperator, ⟨[0x61#8], by decide⟩] (by decide) (by decide) (by decide)

end CompSys.A5.ProgramArgs
