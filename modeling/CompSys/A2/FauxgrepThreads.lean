import CompSys.A2.Fauxgrep
import CompSys.Lib.Runs
import CompSys.Lib.Totals

/-! # fauxgrep with threads (`A2/fauxgrep-mt.c`)

`main` pushes the files to a queue and shuts it down; the workers pop them. A worker that cannot open its
file returns, and takes no more jobs. So a run prints what the sequential program prints, and consumes all
jobs, exactly if fewer files in front of the last cannot be opened than there are workers
(`agrees_iff`). -/

namespace CompSys.A2.FauxgrepThreads

open CompSys.Lib.Runs CompSys.Lib.Totals CompSys.A2.Fauxgrep

/-- Where `main` is. -/
inductive MainAt
  /-- Walking through the files that are left. -/
  | pushing (todo : List File)
  /-- In `job_queue_destroy`, which blocks until the queue is empty. -/
  | destroying
  | joining
  | exited

/-- Where a worker is. -/
inductive WorkerAt
  /-- In `job_queue_pop`. -/
  | popping
  | opening (f : File)
  /-- At the `getline`. -/
  | reading (path : List Byte) (lineno : BitVec 32) (rest : List Byte)
  /-- At the `printf`. -/
  | printing (path : List Byte) (lineno : BitVec 32) (line rest : List Byte)
  /-- Returned from the loop, since a pop failed. -/
  | exited
  /-- Returned since a file could not be opened. -/
  | died

/-- The queue, the threads, and what has happened: the jobs popped and the matches printed. -/
structure State (T : Type*) where
  queue : List File
  shutDown : Bool
  main : MainAt
  workers : T → WorkerAt
  popped : List File
  printed : List Match

/-- The capacity of `jq`. -/
abbrev capacity : ℕ := 64

variable {T : Type*} [DecidableEq T]

def start (T : Type*) (files : List File) : State T := ⟨[], false, .pushing files, fun _ => .popping, [], []⟩

/-- The file cannot be opened. -/
def File.unreadable (f : File) : Bool := f.contents.isNone

/-- **A step** of `main` or of worker `t`. -/
inductive Step (needle : List Byte) (s : State T) : State T → Prop
  | pushes {f : File} {todo : List File} (h : s.main = .pushing (f :: todo))
    (hq : s.queue.length < capacity) :
    Step needle s { s with main := .pushing todo, queue := s.queue ++ [f] }
  | shutsDown (h : s.main = .pushing []) : Step needle s { s with main := .destroying, shutDown := true }
  | destroys (h : s.main = .destroying) (hq : s.queue = []) : Step needle s { s with main := .joining }
  | joins (h : s.main = .joining) (hw : ∀ t, s.workers t = .exited ∨ s.workers t = .died) :
    Step needle s { s with main := .exited }
  | pops {t : T} {f : File} {queue : List File} (h : s.workers t = .popping) (hq : s.queue = f :: queue) :
    Step needle s { s with queue := queue
                           workers := Function.update s.workers t (.opening f)
                           popped := s.popped ++ [f] }
  | popFails {t : T} (h : s.workers t = .popping) (hq : s.queue = []) (hd : s.shutDown = true) :
    Step needle s { s with workers := Function.update s.workers t .exited }
  | opens {t : T} {f : File} {contents : List Byte} (h : s.workers t = .opening f)
    (hf : f.contents = some contents) :
    Step needle s { s with workers := Function.update s.workers t (.reading f.path 1 contents) }
  | openFails {t : T} {f : File} (h : s.workers t = .opening f) (hf : f.contents = none) :
    Step needle s { s with workers := Function.update s.workers t .died }
  | reads {t : T} {path line rest rest' : List Byte} {lineno : BitVec 32}
    (h : s.workers t = .reading path lineno rest) (hl : getline rest = some (line, rest')) :
    Step needle s { s with
      workers := Function.update s.workers t
        (if strstr line needle then .printing path lineno line rest' else .reading path (lineno + 1) rest') }
  | prints {t : T} {path line rest : List Byte} {lineno : BitVec 32}
    (h : s.workers t = .printing path lineno line rest) :
    Step needle s { s with workers := Function.update s.workers t (.reading path (lineno + 1) rest)
                           printed := s.printed ++ [⟨path, lineno, cString line⟩] }
  | closes {t : T} {path rest : List Byte} {lineno : BitVec 32}
    (h : s.workers t = .reading path lineno rest) (hl : getline rest = none) :
    Step needle s { s with workers := Function.update s.workers t .popping }

/-- No thread can take a step. -/
def Final (needle : List Byte) (s : State T) : Prop := ∀ s', ¬ Step needle s s'

/-- The files that `main` has not pushed. -/
def MainAt.todo : MainAt → List File
  | .pushing todo => todo
  | _ => []

/-- **Agreement with the sequential program**: the same matches, as often, and no job is left. -/
structure Agrees (needle : List Byte) (files : List File) (s : State T) : Prop where
  printed : s.printed.Perm (fauxgrep needle files)
  consumed : s.main.todo = [] ∧ s.queue = []

/-- What a worker is going to print for its file. -/
def WorkerAt.pending (needle : List Byte) : WorkerAt → List Match
  | .opening f => fauxgrepFile needle f
  | .reading path lineno rest => printLines needle path lineno rest
  | .printing path lineno line rest =>
    ⟨path, lineno, cString line⟩ :: printLines needle path (lineno + 1) rest
  | _ => []

/-- `1` for a worker that a file has killed or is about to. -/
def WorkerAt.lost : WorkerAt → ℕ
  | .opening f => if File.unreadable f then 1 else 0
  | .died => 1
  | _ => 0

variable [Fintype T]

/-- What is where. -/
structure Inv (needle : List Byte) (files : List File) (s : State T) : Prop where
  jobs : files = s.popped ++ s.queue ++ s.main.todo
  matches_eq : (s.printed : Multiset Match) + ∑ t, ((s.workers t).pending needle : Multiset Match) =
    s.popped.flatMap (fauxgrepFile needle)
  lost : ∑ t, (s.workers t).lost = s.popped.countP File.unreadable
  /-- Whoever popped the last job was alive. -/
  popper : s.popped ≠ [] → s.popped.dropLast.countP File.unreadable < Fintype.card T
  shutDown : s.shutDown = true → s.main.todo = []
  pushing : s.shutDown ≠ true → ∃ todo, s.main = .pushing todo
  exited : ∀ t, s.workers t = .exited → s.shutDown = true ∧ s.queue = []

variable {needle : List Byte} {files : List File} {s s' : State T} {t : T}

omit [DecidableEq T] in
theorem inv_start (needle : List Byte) (files : List File) : Inv needle files (start T files) := by
  refine ⟨rfl, ?_, ?_, fun h => absurd rfl h, nofun, fun _ => ⟨files, rfl⟩, nofun⟩
  · simp [start, WorkerAt.pending]
  · simp [start, WorkerAt.lost]

/-- **A worker moves on** with its file, and what it prints is no longer pending. -/
theorem Inv.moves (h : Inv needle files s) {next : WorkerAt} (out : List Match)
    (hp : (s.workers t).pending needle = out ++ next.pending needle)
    (hl : next.lost = (s.workers t).lost)
    (hex : next = .exited → s.shutDown = true ∧ s.queue = []) :
    Inv needle files { s with workers := Function.update s.workers t next, printed := s.printed ++ out } := by
  refine ⟨h.jobs, ?_, ?_, h.popper, h.shutDown, h.pushing, fun i hi => ?_⟩
  · have htotal := total_update s.workers (fun w => (w.pending needle : Multiset Match)) t next
    have hall := h.matches_eq
    show ((s.printed ++ out : List Match) : Multiset Match) +
      ∑ i, ((Function.update s.workers t next i).pending needle : Multiset Match) = _
    rw [hp, ← Multiset.coe_add, ← add_assoc] at htotal
    rw [← hall, ← Multiset.coe_add, add_assoc, add_right_inj]
    have := add_right_cancel htotal
    rw [← this, add_comm]
  · have htotal : ∑ i, (Function.update s.workers t next i).lost = ∑ i, (s.workers i).lost :=
      total_update_eq hl
    exact htotal.trans h.lost
  · have hi' : Function.update s.workers t next i = .exited := hi
    by_cases hit : i = t
    · rw [hit, Function.update_self] at hi'
      exact hex hi'
    · rw [Function.update_of_ne hit] at hi'
      exact h.exited i hi'

/-- A worker moves on without printing. -/
theorem Inv.silent (h : Inv needle files s) {next : WorkerAt}
    (hp : (s.workers t).pending needle = next.pending needle) (hl : next.lost = (s.workers t).lost)
    (hex : next = .exited → s.shutDown = true ∧ s.queue = []) :
    Inv needle files { s with workers := Function.update s.workers t next } := by
  have hI := h.moves [] hp hl hex
  rw [List.append_nil] at hI
  exact hI

omit [DecidableEq T] in
/-- While a worker is alive, fewer than all are lost. -/
theorem lost_lt (h : (s.workers t).lost = 0) : ∑ i, (s.workers i).lost < Fintype.card T := by
  have hle : ∀ i, (s.workers i).lost ≤ 1 := by
    intro i
    unfold WorkerAt.lost
    split
    · split_ifs <;> omega
    · omega
    · omega
  calc ∑ i, (s.workers i).lost < ∑ _i : T, 1 :=
        Finset.sum_lt_sum (fun i _ => hle i) ⟨t, Finset.mem_univ t, by rw [h]; exact Nat.zero_lt_one⟩
    _ = Fintype.card T := by simp

/-- **A job is popped.** -/
theorem Inv.pops (h : Inv needle files s) {f : File} {queue : List File} (hw : s.workers t = .popping)
    (hq : s.queue = f :: queue) :
    Inv needle files { s with queue := queue
                              workers := Function.update s.workers t (.opening f)
                              popped := s.popped ++ [f] } := by
  refine ⟨?_, ?_, ?_, fun _ => ?_, h.shutDown, h.pushing, fun i hi => ?_⟩
  · have hjobs := h.jobs
    rw [hq] at hjobs
    rw [hjobs]
    simp
  · have htotal := total_update s.workers (fun w => (w.pending needle : Multiset Match)) t (.opening f)
    have hpend : (s.workers t).pending needle = [] := by rw [hw]; rfl
    rw [hpend, Multiset.coe_nil, add_zero] at htotal
    show (s.printed : Multiset Match) +
      ∑ i, ((Function.update s.workers t (.opening f) i).pending needle : Multiset Match) =
      ((s.popped ++ [f]).flatMap (fauxgrepFile needle) : List Match)
    rw [htotal, List.flatMap_append, List.flatMap_singleton, ← Multiset.coe_add, ← h.matches_eq, add_assoc]
    rfl
  · have htotal := total_update s.workers WorkerAt.lost t (.opening f)
    have hall := h.lost
    have hpop : (s.workers t).lost = 0 := by rw [hw]; rfl
    rw [hpop, add_zero] at htotal
    refine htotal.trans ?_
    show _ = (s.popped ++ [f]).countP File.unreadable
    rw [List.countP_append, List.countP_singleton, hall]
    rfl
  · show (s.popped ++ [f]).dropLast.countP File.unreadable < _
    rw [List.dropLast_concat, ← h.lost]
    exact lost_lt (t := t) (by rw [hw]; rfl)
  · have hi' : Function.update s.workers t (.opening f) i = .exited := hi
    by_cases hit : i = t
    · rw [hit, Function.update_self] at hi'
      cases hi'
    · rw [Function.update_of_ne hit] at hi'
      have := (h.exited i hi').2
      rw [hq] at this
      cases this

omit [DecidableEq T] in
/-- `main` is behind its loop. -/
theorem Inv.main_moves (h : Inv needle files s) (hm : ∀ todo, s.main ≠ .pushing todo) {next : MainAt}
    (hn : next.todo = []) : Inv needle files { s with main := next } := by
  have hd : s.shutDown = true := by
    by_contra hd
    obtain ⟨todo, htodo⟩ := h.pushing hd
    exact hm todo htodo
  refine ⟨?_, h.matches_eq, h.lost, h.popper, fun _ => hn, fun hd' => absurd hd hd', h.exited⟩
  have hjobs := h.jobs
  rw [h.shutDown hd, ← hn] at hjobs
  exact hjobs

/-- **Every step** keeps what is where. -/
theorem Inv.step (h : Inv needle files s) (hs : Step needle s s') : Inv needle files s' := by
  cases hs with
  | @pushes f todo hm hq =>
    have hopen : s.shutDown ≠ true := by
      intro hd
      have := h.shutDown hd
      rw [hm] at this
      cases this
    refine ⟨?_, h.matches_eq, h.lost, h.popper, fun hd => absurd hd hopen, fun _ => ⟨todo, rfl⟩,
      fun i hi => absurd (h.exited i hi).1 hopen⟩
    have hjobs := h.jobs
    rw [hm] at hjobs
    rw [hjobs]
    simp [MainAt.todo]
  | shutsDown hm =>
    refine ⟨?_, h.matches_eq, h.lost, h.popper, fun _ => rfl, fun hd => absurd rfl hd,
      fun i hi => ⟨rfl, (h.exited i hi).2⟩⟩
    have hjobs := h.jobs
    rw [hm] at hjobs
    exact hjobs
  | destroys hm _ => exact h.main_moves (fun todo hp => by rw [hm] at hp; cases hp) rfl
  | joins hm _ => exact h.main_moves (fun todo hp => by rw [hm] at hp; cases hp) rfl
  | pops hw hq => exact h.pops hw hq
  | popFails hw hq hd => exact h.silent (by rw [hw]; rfl) (by rw [hw]; rfl) fun _ => ⟨hd, hq⟩
  | opens hw hf =>
    refine h.silent ?_ ?_ nofun
    · rw [hw]
      simp only [WorkerAt.pending, fauxgrepFile, hf]
    · rw [hw]
      simp only [WorkerAt.lost, File.unreadable, hf]
      rfl
  | openFails hw hf =>
    refine h.silent ?_ ?_ nofun
    · rw [hw]
      simp only [WorkerAt.pending, fauxgrepFile, hf]
    · rw [hw]
      simp only [WorkerAt.lost, File.unreadable, hf]
      rfl
  | reads hw hl =>
    refine h.silent ?_ ?_ ?_
    · rw [hw]
      simp only [WorkerAt.pending, printLines_line hl]
      split_ifs <;> rfl
    · rw [hw]
      split_ifs <;> rfl
    · split_ifs <;> nofun
  | prints hw => exact h.moves _ (by rw [hw]; rfl) (by rw [hw]; rfl) nofun
  | closes hw hl =>
    refine h.silent ?_ ?_ nofun
    · rw [hw]
      exact printLines_eof hl
    · rw [hw]
      rfl

/-! ### The end of a run -/

/-- **At the end** every worker has returned. -/
theorem Inv.final_worker (h : Inv needle files s) (hf : Final needle s) (t : T) :
    s.workers t = .exited ∨ s.workers t = .died := by
  cases hw : s.workers t with
  | popping =>
    cases hq : s.queue with
    | cons f queue => exact absurd (.pops hw hq) (hf _)
    | nil =>
      by_cases hd : s.shutDown = true
      · exact absurd (.popFails hw hq hd) (hf _)
      · obtain ⟨todo, hm⟩ := h.pushing hd
        cases todo with
        | nil => exact absurd (.shutsDown hm) (hf _)
        | cons f todo => exact absurd (.pushes hm (by rw [hq]; decide)) (hf _)
  | opening f =>
    cases hc : f.contents with
    | none => exact absurd (.openFails hw hc) (hf _)
    | some contents => exact absurd (.opens hw hc) (hf _)
  | reading path lineno rest =>
    cases hl : getline rest with
    | none => exact absurd (.closes hw hl) (hf _)
    | some l => exact absurd (.reads hw hl) (hf _)
  | printing path lineno line rest => exact absurd (.prints hw) (hf _)
  | exited => exact Or.inl rfl
  | died => exact Or.inr rfl

omit [DecidableEq T] in
/-- If all workers have died, as many files could not be opened. -/
theorem Inv.all_died (h : Inv needle files s) (hw : ∀ t, s.workers t = .died) :
    s.popped.countP File.unreadable = Fintype.card T := by
  rw [← h.lost]
  simp [hw, WorkerAt.lost]

/-- What has been printed at the end is what was popped. -/
theorem Inv.final_printed (h : Inv needle files s) (hf : Final needle s) :
    s.printed.Perm (s.popped.flatMap (fauxgrepFile needle)) := by
  have hnone : ∀ t, (s.workers t).pending needle = [] := fun t => by
    rcases h.final_worker hf t with hw | hw
    · rw [hw]; rfl
    · rw [hw]; rfl
  have hall := h.matches_eq
  simp only [hnone, Multiset.coe_nil, Finset.sum_const_zero, add_zero] at hall
  exact Multiset.coe_eq_coe.mp hall

/-- Whether jobs are left at the end depends on the files alone. -/
theorem Inv.final_consumed [Nonempty T] (h : Inv needle files s) (hf : Final needle s) :
    s.main.todo = [] ∧ s.queue = [] ↔ files.dropLast.countP File.unreadable < Fintype.card T := by
  have hjobs := h.jobs
  constructor
  · rintro ⟨htodo, hqueue⟩
    rw [htodo, hqueue, List.append_nil, List.append_nil] at hjobs
    rw [hjobs]
    by_cases hnil : s.popped = []
    · rw [hnil]
      exact Fintype.card_pos
    · exact h.popper hnil
  · intro hlt
    by_cases hex : ∃ t, s.workers t = .exited
    · obtain ⟨t, ht⟩ := hex
      obtain ⟨hd, hq⟩ := h.exited t ht
      exact ⟨h.shutDown hd, hq⟩
    · have hdied : ∀ t, s.workers t = .died := fun t =>
        (h.final_worker hf t).resolve_left fun he => hex ⟨t, he⟩
      -- otherwise all the files that were popped lie in front of the last
      by_contra hleft
      have hne : s.queue ++ s.main.todo ≠ [] := fun hnil =>
        hleft ⟨(List.append_eq_nil_iff.mp hnil).2, (List.append_eq_nil_iff.mp hnil).1⟩
      rw [hjobs, List.append_assoc, List.dropLast_append_of_ne_nil hne, List.countP_append,
        h.all_died hdied] at hlt
      omega

theorem Inv.final_agrees [Nonempty T] (h : Inv needle files s) (hf : Final needle s) :
    Agrees needle files s ↔ files.dropLast.countP File.unreadable < Fintype.card T := by
  rw [← h.final_consumed hf]
  refine ⟨fun ha => ha.consumed, fun hc => ⟨?_, hc⟩⟩
  have hjobs := h.jobs
  rw [hc.1, hc.2, List.append_nil, List.append_nil] at hjobs
  rw [fauxgrep, hjobs]
  exact h.final_printed hf

/-! ### Every run ends -/

/-- A bound for the steps that a file takes once it is popped. -/
def fileWork (f : File) : ℕ := 2 * (f.contents.getD []).length + 3

def WorkerAt.work : WorkerAt → ℕ
  | .popping => 1
  | .opening f => fileWork f
  | .reading _ _ rest => 2 * rest.length + 2
  | .printing _ _ _ rest => 2 * rest.length + 3
  | _ => 0

def MainAt.work : MainAt → ℕ
  | .pushing todo => (todo.map fun f => fileWork f + 1).sum + 3
  | .destroying => 2
  | .joining => 1
  | .exited => 0

def State.work (s : State T) : ℕ := s.main.work + (s.queue.map fileWork).sum + ∑ t, (s.workers t).work

/-- A worker with less to do. -/
theorem work_moves {next : WorkerAt} {printed : List Match} (h : next.work < (s.workers t).work) :
    State.work { s with workers := Function.update s.workers t next, printed := printed } < s.work := by
  have htotal := total_update s.workers WorkerAt.work t next
  show s.main.work + (s.queue.map fileWork).sum + ∑ i, (Function.update s.workers t next i).work <
    s.main.work + (s.queue.map fileWork).sum + ∑ i, (s.workers i).work
  omega

/-- **Every step** leaves less to do. -/
theorem work_step (hs : Step needle s s') : s'.work < s.work := by
  cases hs with
  | @pushes f todo hm hq =>
    show (todo.map fun f => fileWork f + 1).sum + 3 + ((s.queue ++ [f]).map fileWork).sum +
      ∑ t, (s.workers t).work < s.main.work + (s.queue.map fileWork).sum + ∑ t, (s.workers t).work
    rw [hm, List.map_append, List.sum_append]
    simp [MainAt.work]
    omega
  | shutsDown hm =>
    show 2 + (s.queue.map fileWork).sum + _ < s.main.work + (s.queue.map fileWork).sum + _
    rw [hm]
    simp [MainAt.work]
  | destroys hm _ =>
    show 1 + (s.queue.map fileWork).sum + _ < s.main.work + (s.queue.map fileWork).sum + _
    rw [hm]
    simp [MainAt.work]
  | joins hm _ =>
    show 0 + (s.queue.map fileWork).sum + _ < s.main.work + (s.queue.map fileWork).sum + _
    rw [hm]
    simp [MainAt.work]
  | @pops t f queue hw hq =>
    have htotal := total_update s.workers WorkerAt.work t (.opening f)
    rw [hw] at htotal
    have hone : WorkerAt.popping.work = 1 := rfl
    have hopen : (WorkerAt.opening f).work = fileWork f := rfl
    show s.main.work + (queue.map fileWork).sum + ∑ i, (Function.update s.workers t (.opening f) i).work <
      s.main.work + (s.queue.map fileWork).sum + ∑ i, (s.workers i).work
    rw [hq, List.map_cons, List.sum_cons]
    omega
  | popFails hw hq hd => exact work_moves (by rw [hw]; exact Nat.zero_lt_one)
  | @opens t f contents hw hf =>
    refine work_moves ?_
    rw [hw]
    simp [WorkerAt.work, fileWork, hf]
  | openFails hw hf => exact work_moves (by rw [hw]; exact Nat.succ_pos _)
  | @reads t path line rest rest' lineno hw hl =>
    refine work_moves ?_
    have hlen := getline_length hl
    rw [hw]
    split_ifs
    · show 2 * rest'.length + 3 < 2 * rest.length + 2
      omega
    · show 2 * rest'.length + 2 < 2 * rest.length + 2
      omega
  | prints hw => exact work_moves (by rw [hw]; exact Nat.lt_succ_self _)
  | closes hw hl => exact work_moves (by rw [hw]; show 1 < _ + 2; omega)

/-! ### Agreement -/

/-- **Agreement in the end.** Whatever the interleaving, `n + 1` workers print what the sequential program
prints, and leave no job, exactly if at most `n` of the files in front of the last cannot be opened. -/
theorem agrees_iff (needle : List Byte) (files : List File) (n : ℕ) :
    (∀ s : State (Fin (n + 1)), Reaches (Step needle) (start (Fin (n + 1)) files) s → Final needle s →
      Agrees needle files s) ↔ files.dropLast.countP File.unreadable < n + 1 := by
  have hreach : ∀ s : State (Fin (n + 1)), Reaches (Step needle) (start (Fin (n + 1)) files) s →
      Inv needle files s := fun s h =>
    h.invariant (I := Inv needle files) (fun _ _ hI hs => hI.step hs) (inv_start needle files)
  constructor
  · intro hall
    have hwork : ∀ s s' : State (Fin (n + 1)), Step needle s s' → s'.work < s.work := fun _ _ => work_step
    obtain ⟨s, hs, hf⟩ := exists_final hwork (start (Fin (n + 1)) files)
    have hiff := (hreach s hs).final_agrees hf
    rw [Fintype.card_fin] at hiff
    exact hiff.mp (hall s hs hf)
  · intro hlt s hs hf
    have hiff := (hreach s hs).final_agrees hf
    rw [Fintype.card_fin] at hiff
    exact hiff.mpr hlt

/-- **A job is left**: one worker, a file that cannot be opened, and behind it one with a match. -/
theorem unreadable_stops_worker : ∃ s : State (Fin 1),
    Reaches (Step [97#8]) (start (Fin 1) [⟨[49#8], none⟩, ⟨[50#8], some [97#8]⟩]) s ∧ Final [97#8] s ∧
      s.printed = [] ∧ ¬ Agrees [97#8] [⟨[49#8], none⟩, ⟨[50#8], some [97#8]⟩] s := by
  have h1 : Steps (Step [97#8]) (start (Fin 1) [⟨[49#8], none⟩, ⟨[50#8], some [97#8]⟩]) _ _ :=
    .tail .refl (.pushes rfl (by decide))
  have h2 := h1.tail (.pushes rfl (by decide))
  have h3 := h2.tail (.shutsDown rfl)
  have h4 := h3.tail (.pops (t := 0) rfl rfl)
  have h5 := h4.tail (.openFails (t := 0) rfl rfl)
  refine ⟨_, ⟨_, h5⟩, fun s' hs => ?_, rfl, fun ha => by cases ha.consumed.2⟩
  cases hs with
  | pushes hm _ => cases hm
  | shutsDown hm => cases hm
  | destroys _ hq => cases hq
  | joins hm _ => cases hm
  | @pops t _ _ hw _ => obtain rfl : t = 0 := Subsingleton.elim _ _; cases hw
  | popFails _ hq _ => cases hq
  | @opens t _ _ hw _ => obtain rfl : t = 0 := Subsingleton.elim _ _; cases hw
  | @openFails t _ hw _ => obtain rfl : t = 0 := Subsingleton.elim _ _; cases hw
  | @reads t _ _ _ _ _ hw _ => obtain rfl : t = 0 := Subsingleton.elim _ _; cases hw
  | @prints t _ _ _ _ hw => obtain rfl : t = 0 := Subsingleton.elim _ _; cases hw
  | @closes t _ _ _ hw _ => obtain rfl : t = 0 := Subsingleton.elim _ _; cases hw

end CompSys.A2.FauxgrepThreads
