import CompSys.A5.LoadImage
import CompSys.A5.ProgramArgs
import CompSys.A5.Refinement

/-! # The simulator (`A5/src/main.c`)

`main` puts the arguments for the program in memory, loads the file over them and runs it. What is loaded onto a memory
is the image of the program, and nothing else changes but bytes close behind a section (`readExec_onto`); so where the
sections stay away from the arguments, the program starts with both, and what it does is what the manual says as long
as its instructions are careful (`main_follows`). -/

namespace CompSys.A5.Main

open CompSys.Lib.Store CompSys.Lib.Extents CompSys.A5.PagedMemory CompSys.A5.FlatMemory CompSys.A5.AssemblyTable
open CompSys.A5.ReadExec CompSys.A5.Objdump CompSys.A5.LoadRows CompSys.A5.LoadText CompSys.A5.LoadImage
open CompSys.A5.LoadLines CompSys.A5.Simulate CompSys.A5.Refinement
open CompSys.A5.ProgramArgs hiding Byte
open CompSys.Lib.Scanf (isSpace)

/-! ### `main` -/

def logOption : CString := ⟨[0x2d#8, 0x6c#8], by decide⟩
def summaryOption : CString := ⟨[0x2d#8, 0x73#8], by decide⟩

/-- What the host offers: the texts of the files it can open, and whether `fopen(name, "w")` succeeds. -/
structure Host where
  file : CString → Option (List Char)
  opens : CString → Bool

/-- How `main` ends. -/
inductive Ended
  /-- `terminate`. -/
  | terminated (error : String)
  /-- In the memory module, for an argument. -/
  | exit (e : Exit)
  /-- In `read_exec`. -/
  | stopped (e : Stop)
  /-- After `simulate`. -/
  | simulated (o : Outcome)

def fileName (path : CString) : List Char := path.chars.map fun b => Char.ofNat b.toNat

/-- `read_exec` and `simulate`. -/
def run (room : ℕ) (host : Host) (reg : Fin 32 → Word) (stdin : List Byte) (fuel : ℕ) (mem : Memory) (path : CString) :
    Ended :=
  match readExec room mem assemblyCreate (fileName path) (host.file path) with
  | .error e => .stopped e
  | .ok st => .simulated (simulate st.startAddr fuel (initial st.startAddr reg st.mem stdin))

/-- The log file of the summary is opened when `simulate` has returned. -/
def openSummary (host : Host) (log : CString) : Ended → Ended
  | .simulated (.done k s) =>
    if host.opens log then .simulated (.done k s) else .terminated "Could not open logfile, terminating."
  | .simulated (.failure message s) =>
    if host.opens log then .simulated (.failure message s) else .terminated "Could not open logfile, terminating."
  | e => e

/-- `main`, where `simulate` has at most `fuel` iterations. The registers `reg` are not initialised. -/
def main (room : ℕ) (host : Host) (reg : Fin 32 → Word) (stdin : List Byte) (fuel : ℕ) (argv : List CString) : Ended :=
  match passArgsToProgram memoryCreate argv with
  | .error e => .exit e
  | .ok (mem, argc) =>
    match argv.take argc with
    | [_, path] => run room host reg stdin fuel mem path
    | [_, path, option, log] =>
      if option = logOption ∧ ¬ host.opens log then .terminated "Could not open logfile, terminating."
      else if option = summaryOption then openSummary host log (run room host reg stdin fuel mem path)
      else run room host reg stdin fuel mem path
    | _ => .terminated "Missing operands"

/-! ### The arguments -/

/-- The first address behind the arguments. -/
def argsEnd (args : List CString) : ℕ := if args = [] then 0x1000000 else 0x1000004 + 4 * args.length + total args

/-- **The arguments in memory**: their number, the table, and the strings. -/
structure Placed (args : List CString) (f : Word → Byte) : Prop where
  count : wordOf f 0x1000000 = BitVec.ofNat 32 args.length
  argv : ∀ i arg block, args[i]? = some arg → (copies (0x1000004 + 4 * args.length) args)[i]? = some block →
    wordOf f (0x1000004 + 4 * i) = BitVec.ofNat 32 block.addr ∧
      ∀ j c, arg.stored[j]? = some c → f (BitVec.ofNat 32 (block.addr + j)) = c

/-- The strings before the first `--`, and the others. -/
structure Invoked (argv before args : List CString) : Prop where
  split : ∃ sim, argv = sim :: (before ++ args)
  before : seperator ∉ before
  args : args = [] ∨ args.head? = some seperator

variable {argv before args : List CString} {f g : Word → Byte} {p : Program} {room : ℕ} {x : Word} {v : Byte}

theorem Placed.congr (h : Placed args f) (hne : args ≠ []) (hroom : argsEnd args ≤ 2 ^ 32)
    (hfg : ∀ b : Word, 0x1000000 ≤ b.toNat → b.toNat < argsEnd args → g b = f b) : Placed args g := by
  rw [argsEnd, if_neg hne] at hroom hfg
  have hcell : ∀ k, 0x1000000 ≤ k → k < 0x1000004 + 4 * args.length + total args →
      g (BitVec.ofNat 32 k) = f (BitVec.ofNat 32 k) := fun k hk hk' =>
    hfg _ (by rw [toNat_ofNat_of_lt (by omega)]; exact hk) (by rw [toNat_ofNat_of_lt (by omega)]; exact hk')
  have hpos : 0 < args.length := List.length_pos_iff.mpr hne
  refine ⟨(wordOf_congr fun k hk => hcell _ (by omega) (by omega)).trans h.count, fun i arg block hi hblock => ?_⟩
  obtain ⟨hpointer, hcopy⟩ := h.argv i arg block hi hblock
  have hilen : i < args.length := (List.getElem?_eq_some_iff.mp hi).1
  obtain ⟨hlo, -, hstop⟩ := (tiles_copies args (0x1000004 + 4 * args.length)).inside (List.mem_of_getElem? hblock)
  refine ⟨(wordOf_congr fun k hk => hcell _ (by omega) (by omega)).trans hpointer, fun j c hj => ?_⟩
  have hjlen : j < arg.stored.length := (List.getElem?_eq_some_iff.mp hj).1
  rw [← size_copies hi hblock] at hjlen
  unfold Extent.stop at hstop
  exact (hcell _ (by omega) (by omega)).trans (hcopy j c hj)

theorem seperatorLoop_before (hbefore : seperator ∉ before) (args : List CString) (position : ℕ) :
    seperatorLoop (before ++ args) position = seperatorLoop args (position + before.length) := by
  induction before generalizing position with
  | nil => rfl
  | cons arg before ih =>
    rw [List.mem_cons, not_or] at hbefore
    rw [List.cons_append, seperatorLoop, if_neg (Ne.symm hbefore.1), ih hbefore.2, List.length_cons, Nat.add_assoc,
      Nat.add_comm 1]

/-- **`pass_args_to_program`** places the arguments and leaves the rest of memory. -/
theorem passArgs_placed (h : Invoked argv before args) (hroom : argsEnd args ≤ 2 ^ 32) :
    ∃ mem, passArgsToProgram memoryCreate argv = .ok (mem, 1 + before.length) ∧
      (args ≠ [] → Placed args (bytes mem)) ∧
      ∀ b : Word, b.toNat < 0x1000000 ∨ argsEnd args ≤ b.toNat → bytes mem b = 0#8 := by
  obtain ⟨⟨sim, rfl⟩, hbefore, hargs⟩ := h
  have hloop := seperatorLoop_before hbefore args 1
  rcases args with _ | ⟨sep, args⟩
  · refine ⟨memoryCreate, ?_, fun hne => absurd rfl hne, fun b _ => bytes_memoryCreate b⟩
    rw [passArgsToProgram, List.drop_succ_cons, List.drop_zero, hloop]
    rfl
  · obtain rfl : sep = seperator := Option.some.inj (hargs.resolve_left (List.cons_ne_nil _ _))
    rw [argsEnd, if_neg (List.cons_ne_nil _ _)] at hroom ⊢
    generalize hall : seperator :: args = all at *
    rw [← hall, seperatorLoop, if_pos rfl] at hloop
    have hdrop : (sim :: (before ++ all)).drop (1 + before.length) = all := by
      rw [Nat.add_comm, List.drop_succ_cons, List.drop_left]
    have hlen : (sim :: (before ++ all)).length - (1 + before.length) = all.length := by
      rw [← List.length_drop, hdrop]
    obtain ⟨mem1, hwr, hword, hframe1⟩ := wrW_stores memoryCreate (BitVec.ofNat 32 all.length) (x := 0x1000000) rfl
      (by decide)
    obtain ⟨mem2, hargloop, hpassed⟩ := argLoop_passed all mem1 0x1000004 _ 0 rfl le_rfl hroom
    have hargc : wordOf (bytes mem2) 0x1000000 = BitVec.ofNat 32 all.length := by
      rw [← hword]
      refine wordOf_congr fun k hk => hpassed.frame _ (Or.inl ?_) (Or.inl ?_)
      · rw [toNat_ofNat_of_lt (by omega)]
        omega
      · rw [toNat_ofNat_of_lt (by omega)]
        omega
    refine ⟨mem2, ?_, fun _ => ⟨hargc, hpassed.argv⟩, fun b hb => ?_⟩
    · rw [passArgsToProgram, List.drop_succ_cons, List.drop_zero, ← hall, hloop, hall]
      simp only [if_true, hlen, hdrop, table_addr]
      rw [hwr]
      simp only
      rw [hargloop]
      rfl
    · rw [hpassed.frame b (by omega) (by omega), hframe1 b (by omega), bytes_memoryCreate]

/-! ### The file -/

/-- **A file loaded onto a memory.** -/
theorem readExec_onto (hwithin : WithinHexes room p) {as : Assembly}
    (hfill : fillAssembly assemblyCreate p.listing = some as) (mem : Memory) (name : List Char) :
    ∃ mem', readExec room mem assemblyCreate name (some (dis p)) = .ok ⟨mem', as, p.start⟩ ∧
      bytes mem' = applyWrites (bytes mem) (history p) := by
  obtain ⟨mem1, hdump, hbytes1⟩ := readAll_sections p.sections ⟨mem, assemblyCreate, -1#32⟩
  obtain ⟨mem2, hlisting, hbytes2⟩ := (readAll_listing p.listing ⟨mem1, assemblyCreate, -1#32⟩).2 as hfill
  have hstart : lastStart (-1#32) p.listing = p.start :=
    lastStart_eq p.listing _ p.start_listed.2 (Or.inr p.start_listed.1)
  have hlines : lines p = fileLines p ++ (p.sections.flatMap dumpLines ++ (fileLines p ++
      ([] :: ("Disassembly of section ".toList ++ p.text.name ++ [':']) :: p.listing.map (listedLine p.text)))) := by
    simp only [lines, List.append_assoc, List.cons_append, List.nil_append]
  have hall : readAll ⟨mem, assemblyCreate, -1#32⟩ (lines p) = .ok ⟨mem2, as, p.start⟩ := by
    rw [hlines, readAll_append, readAll_file]
    simp only [Except.bind]
    rw [readAll_append, hdump]
    simp only [Except.bind]
    rw [readAll_append, readAll_file]
    simp only [Except.bind]
    rw [readAll_cons_ok readFormats_blank, readAll_cons_ok (readFormats_disassembly _), hlisting, hstart]
  refine ⟨mem2, ?_, by rw [hbytes2, hbytes1, history, applyWrites_append]⟩
  have hread := (readLines_ok_iff (lines p) ⟨mem, assemblyCreate, -1#32⟩).mpr ⟨hwithin, hall⟩
  simp only [readExec, dis, fgetsAll_lines (short_lines p)]
  rw [hread]
  exact if_pos (start_ne p)

/-- A write of the loader is in a section, or close behind it. -/
theorem history_inside (h : (x, v) ∈ history p) :
    ∃ s ∈ p.sections, ∃ i < s.bytes.length + 4, x = s.start + BitVec.ofNat 32 i := by
  rcases List.mem_append.mp h with h | h
  · obtain ⟨s, hs, h⟩ := List.mem_flatMap.mp h
    rcases mem_sectionWrites.mp h with ⟨i, hi, hx⟩ | ⟨j, hj, hx⟩
    · have := (List.getElem?_eq_some_iff.mp hi).1
      exact ⟨s, hs, i, by omega, hx⟩
    · exact ⟨s, hs, _, Nat.add_lt_add_left (length_of_overrun hj).1 _, hx⟩
  · obtain ⟨item, -, h⟩ := List.mem_flatMap.mp h
    cases item with
    | blank => cases h
    | symbol addr name plain => cases h
    | insn offset inside aligned disassembly line short =>
      obtain ⟨k, hk, -, hx⟩ := (writesW_insn p.text inside).mp h
      refine ⟨p.text, p.mem_text, offset + k, by omega, ?_⟩
      rw [hx, insnAddr, BitVec.add_assoc, BitVec.ofNat_add]

/-- **What the program starts with**: its image, its arguments, and zero everywhere else. -/
structure Started (p : Program) (args : List CString) (f : Word → Byte) : Prop where
  sections : ∀ s ∈ p.sections, ∀ i v, s.bytes[i]? = some v → f (s.start + BitVec.ofNat 32 i) = v
  argv : args ≠ [] → Placed args f
  outside : ∀ x, (∀ s ∈ p.sections, ¬ s.Covers x) → x.toNat < 0x1000000 ∨ argsEnd args ≤ x.toNat → f x = 0#8

/-- The sections, with four bytes more, stay away from the arguments. -/
def Away (p : Program) (args : List CString) : Prop :=
  ∀ s ∈ p.sections, s.start.toNat + s.bytes.length + 4 ≤ 0x1000000 ∨ argsEnd args ≤ s.start.toNat

/-- The loader does not write to the arguments. -/
theorem history_away (haway : Away p args) (h : (x, v) ∈ history p) :
    x.toNat < 0x1000000 ∨ argsEnd args ≤ x.toNat := by
  obtain ⟨s, hs, i, hi, rfl⟩ := history_inside h
  have hfits := s.fits
  rw [BitVec.toNat_add, BitVec.toNat_ofNat]
  rcases haway s hs with hbelow | habove
  · omega
  · omega

/-- **The image and the arguments.** -/
theorem started_of_loaded (hharmless : Harmless p) (haway : Away p args) (hroom : argsEnd args ≤ 2 ^ 32)
    (hplaced : args ≠ [] → Placed args f)
    (hzero : ∀ b : Word, b.toNat < 0x1000000 ∨ argsEnd args ≤ b.toNat → f b = 0#8) :
    Started p args (applyWrites f (history p)) := by
  obtain ⟨hsections, houtside⟩ := holdsImage_iff.mpr hharmless
  have hwritten : ∀ x v, lastWrite? (history p) x = some v →
      applyWrites f (history p) x = lastWritten 0#8 (history p) x := fun x v h => by
    rw [applyWrites_apply, lastWritten, h]
    rfl
  refine ⟨fun s hs i v hi => ?_, fun hne => (hplaced hne).congr hne hroom fun b hb hb' => ?_, fun x hx harea => ?_⟩
  · have hmem : (s.start + BitVec.ofNat 32 i, v) ∈ history p :=
      List.mem_append_left _ (List.mem_flatMap.mpr ⟨s, hs, mem_sectionWrites.mpr (Or.inl ⟨i, hi, rfl⟩)⟩)
    rcases hlast : lastWrite? (history p) (s.start + BitVec.ofNat 32 i) with _ | w
    · exact absurd rfl (lastWrite?_eq_none.mp hlast _ hmem)
    · exact (hwritten _ w hlast).trans (hsections s hs i v hi)
  · have hnone : lastWrite? (history p) b = none := by
      refine lastWrite?_eq_none.mpr fun w hw heq => ?_
      have := history_away haway (x := w.1) (v := w.2) hw
      rw [heq] at this
      omega
    rw [applyWrites_apply, hnone]
    rfl
  · rcases hlast : lastWrite? (history p) x with _ | w
    · rw [applyWrites_apply, hlast]
      exact hzero x harea
    · exact (hwritten _ w hlast).trans (houtside x hx)

/-! ### The run -/

/-- The process that is started. -/
def started (p : Program) (reg : Fin 32 → Word) (f : Word → Byte) (stdin : List Byte) : Process where
  machine := ⟨p.start, Function.update reg Decode.zero 0#32, f, fun r hr => by
    rw [show r = Decode.zero from Fin.ext hr, Function.update_self]
    rfl⟩
  stdin := stdin
  stdout := []

/-- **The simulator runs the program.** For a program that can be loaded and whose sections stay away from the
arguments, called with nothing or with `-l` or `-s` and a log file that can be opened before the `--`, `main` goes
through the states of the machine that starts with the image and the arguments, while its instructions are careful. -/
theorem main_follows (host : Host) (path : CString) (options : List CString) (reg : Fin 32 → Word) (stdin : List Byte)
    (hinvoked : Invoked argv (path :: options) args)
    (hoptions : options = [] ∨ ∃ option log, options = [option, log] ∧ host.opens log = true)
    (hfile : host.file path = some (dis p)) (hloads : Loads room p) (haway : Away p args)
    (hroom : argsEnd args ≤ 2 ^ 32) :
    ∃ f, Started p args f ∧ ∀ n p', (started p reg f stdin).steps n = some p' →
      (∀ k < n, ∀ q, (started p reg f stdin).steps k = some q → CarefulNext q) →
        (∃ s, main room host reg stdin n argv = .simulated (.next s) ∧ Matches s p') ∧
          (Exits p' → ∃ k s, main room host reg stdin (n + 1) argv = .simulated (.done k s) ∧ Matches s p') := by
  obtain ⟨hwithin, hfill, hharmless⟩ := hloads.conditions
  obtain ⟨as, has⟩ := Option.isSome_iff_exists.mp hfill
  obtain ⟨mem, hpass, hplaced, hzero⟩ := passArgs_placed hinvoked hroom
  obtain ⟨mem', hread, hbytes⟩ := readExec_onto hwithin has mem (fileName path)
  rw [← hfile] at hread
  -- what `main` does, however it is called
  have hmain : ∀ fuel o, simulate p.start fuel (initial p.start reg mem' stdin) = o →
      main room host reg stdin fuel argv = .simulated o := by
    rintro fuel o rfl
    have hrun : run room host reg stdin fuel mem path =
        .simulated (simulate p.start fuel (initial p.start reg mem' stdin)) := by
      rw [run, hread]
    obtain ⟨⟨sim, rfl⟩, -, -⟩ := hinvoked
    have htake : (sim :: (path :: options ++ args)).take (1 + (path :: options).length) = sim :: path :: options := by
      rw [Nat.add_comm, List.take_succ_cons, List.take_left]
    rcases hoptions with rfl | ⟨option, log, rfl, hopens⟩
    · rw [main, hpass]
      simp only [htake, hrun]
    · have hsummary : openSummary host log (.simulated (simulate p.start fuel (initial p.start reg mem' stdin))) =
          .simulated (simulate p.start fuel (initial p.start reg mem' stdin)) := by
        rcases simulate p.start fuel (initial p.start reg mem' stdin) with s | ⟨k, s⟩ | ⟨message, s⟩ | e | _
        · rfl
        · exact if_pos hopens
        · exact if_pos hopens
        · rfl
        · rfl
      rw [main, hpass]
      simp only [htake, hrun, hopens, not_true_eq_false, and_false, if_false, hsummary, ite_self]
  refine ⟨applyWrites (bytes mem) (history p), started_of_loaded hharmless haway hroom hplaced hzero,
    fun n p' hsteps hcareful => ?_⟩
  have hmatches : Matches (initial p.start reg mem' stdin)
      (started p reg (applyWrites (bytes mem) (history p)) stdin) := ⟨rfl, rfl, hbytes, rfl, rfl⟩
  obtain ⟨s, hnext, hs⟩ := simulate_reaches p.start hmatches n hsteps hcareful
  refine ⟨⟨s, hmain n _ hnext, hs⟩, fun hexits => ?_⟩
  obtain ⟨k, s', hend, hs'⟩ := simulate_ends hnext hs hexits
  exact ⟨k, s', hmain (n + 1) _ hend, hs'⟩

/-! ### A program that ends -/

theorem plain_text : Plain ".text".toList :=
  ⟨by simp [isSpace], by decide⟩

theorem plain_exit : Plain "exit".toList :=
  ⟨by simp [isSpace], by decide⟩

theorem plain_start : Plain "_start".toList :=
  ⟨by simp [isSpace], by decide⟩

theorem exit_fits : (0x10074#32).toNat + 4 ≤ 2 ^ 32 := by decide

theorem exit_aligned : (0x10074#32).toNat % 4 = 0 := by decide

/-- One instruction, `ecall`. -/
def exitSection : Section where
  name := ".text".toList
  start := 0x10074#32
  bytes := [0x73, 0x00, 0x00, 0x00]
  plain := plain_text
  fits := exit_fits

def exitProgram : Program where
  name := "exit".toList
  plain := ⟨plain_exit, by decide, by decide⟩
  sections := [exitSection]
  apart := List.pairwise_singleton _ _
  text := exitSection
  mem_text := List.mem_cons_self
  listing := [.symbol 0x10074#32 "_start".toList plain_start]
  start := 0x10074#32
  start_aligned := exit_aligned
  start_listed := by
    refine ⟨⟨plain_start, List.mem_cons_self⟩, fun addr plain h => ?_⟩
    injection List.mem_singleton.mp h

/-- `sim x --`, where register 17 happens to be 93, by `main_follows`. -/
theorem main_follows_exit : ∃ k s,
    main (36 + 1024) ⟨fun _ => some (dis exitProgram), fun _ => false⟩ (fun _ => 93#32) [] 1
      [⟨[0x73#8], by decide⟩, ⟨[0x78#8], by decide⟩, seperator] = .simulated (.done k s) ∧ s.pc = 0x10074#32 := by
  have hharmless : Harmless exitProgram := by
    intro before s after hsplit j v hj
    have hs : s ∈ exitProgram.sections := by rw [hsplit]; exact List.mem_append_right _ List.mem_cons_self
    obtain rfl := List.mem_singleton.mp hs
    have hnone : overrunOf exitSection = [] := by decide
    rw [hnone] at hj
    cases hj
  have hfill : fillAssembly assemblyCreate exitProgram.listing = some assemblyCreate := rfl
  have hloads := loads_of_conditions (withinHexes le_rfl exitProgram) (by rw [hfill]; rfl) hharmless
  have haway : Away exitProgram [seperator] := fun s hs => by
    obtain rfl := List.mem_singleton.mp hs
    exact Or.inl (by decide)
  obtain ⟨f, hstarted, hrun⟩ := main_follows ⟨fun _ => some (dis exitProgram), fun _ => false⟩
    ⟨[0x78#8], by decide⟩ [] (fun _ => 93#32) []
    (show Invoked _ _ [seperator] from ⟨⟨⟨[0x73#8], by decide⟩, rfl⟩, by decide, Or.inr rfl⟩) (Or.inl rfl) rfl hloads haway
    (by decide)
  have hbyte := hstarted.sections exitSection List.mem_cons_self
  have hcalls : Calls (started exitProgram (fun _ => 93#32) f []).machine := by
    refine ⟨show (0x10074#32).toNat % 4 = 0 by decide, ?_⟩
    have h0 : f 0x10074#32 = 0x73#8 := hbyte 0 _ rfl
    have h1 : f 0x10075#32 = 0x00#8 := hbyte 1 _ rfl
    have h2 : f 0x10076#32 = 0x00#8 := hbyte 2 _ rfl
    have h3 : f 0x10077#32 = 0x00#8 := hbyte 3 _ rfl
    show CompSys.Lib.Bytes.word (f 0x10074#32) (f 0x10075#32) (f 0x10076#32) (f 0x10077#32) = ecallWord
    rw [h0, h1, h2, h3]
    decide
  obtain ⟨-, hexits⟩ := hrun 0 _ rfl fun k hk => absurd hk (Nat.not_lt_zero k)
  obtain ⟨k, s, hmain, hs⟩ := hexits ⟨hcalls, Or.inr rfl⟩
  exact ⟨k, s, hmain, hs.pc⟩

end CompSys.A5.Main
