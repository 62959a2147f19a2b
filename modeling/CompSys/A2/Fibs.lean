import CompSys.A2.Fauxgrep
import CompSys.A2.Linearization
import CompSys.A2.Teardown
import CompSys.Lib.ScanNumbers

/-! # The program of `fibs.c`

`main` gives a copy of every line of its input to the job queue, destroys the queue and joins the workers; a worker
takes a line, prints its Fibonacci number under `stdout_mutex`, frees the line and comes back for the next. The
functions of the queue run statement by statement (`Exclusion.Step`), with anything else of any thread between their
statements. As there, destroying the mutex of the queue leaves it as it is; `Teardown` is about what is used then.

A sum that overflows and a numeral that does not fit into an `int` have no defined value, and a worker gets no further
than that. `strdup`, `calloc` and `pthread_create` are taken to succeed, with `n` threads.

Every copy is in the queue, with one worker, or freed (`Inv.ledger`), and what is printed belongs to the lines freed
or about to be (`Inv.shown`). -/

namespace CompSys.A2.Fibs

open CompSys.Lib CompSys.Lib.Runs CompSys.Lib.ScanNumbers CompSys.Lib.Totals CompSys.A2.JobQueue CompSys.A2.Exclusion
open CompSys.A2.Fauxgrep (getline getline_length cString)
open CompSys.A2.Linearization (Linked label asks)
open CompSys.A2.Teardown (stage mains pops engaged popFails)

/-! ### The lines -/

/-- An `int`. -/
def toInt (n : ℤ) : Option ℤ := if -2 ^ 31 ≤ n ∧ n < 2 ^ 31 then some n else none

/-- `atoi`. -/
def atoi (line : List Byte) : Option ℤ := toInt (((scanNumber line).map Prod.fst).getD 0)

/-- `fib`. -/
def fib (n : ℤ) : Option ℤ :=
  if n < 2 then some 1 else (fib (n - 1)).bind fun a => (fib (n - 2)).bind fun b => toInt (a + b)
termination_by n.toNat
decreasing_by all_goals omega

/-- What `fib_line` prints. -/
def fibLine (line : List Byte) : Option String :=
  (atoi line).bind fun n => (fib n).map fun fibn => s!"fib({n}) = {fibn}\n"

/-! ### The threads -/

inductive MainAt
  /-- In the loop, with this input to come. -/
  | reading (rest : List Byte)
  /-- In `job_queue_destroy`. -/
  | destroying
  /-- Before the `i`-th `pthread_join`. -/
  | joining (i : ℕ)
  | returned

inductive WorkerAt
  /-- At the top of the loop. -/
  | calling
  /-- In `job_queue_pop`; `line` is what it has written. -/
  | popping (line : Option (List Byte))
  /-- In `fib_line`. -/
  | fibLine (line : List Byte)
  /-- With `stdout_mutex`, before `printf`. -/
  | printing (line : List Byte) (text : String)
  | unlocking (line : List Byte)
  | freeing (line : List Byte)
  | finished

/-- The threads are `none`, which runs `main`, and the workers. -/
structure State (n : ℕ) where
  shared : Exclusion.State (Option (Fin n)) (List Byte)
  main : MainAt
  workers : Fin n → WorkerAt
  stdoutMutex : Option (Fin n)
  /-- The copies made by `strdup`. -/
  strdups : List (List Byte)
  printed : List String
  freed : List (List Byte)

variable {n : ℕ}

/-- Before `main` reads its first line. -/
def start (n : ℕ) (data : ℤ → List Byte) (input : List Byte) : State n :=
  ⟨Exclusion.start (Option (Fin n)) data 64, .reading input, fun _ => .calling, none, [], [], []⟩

/-- Thread `t` calls a function of the queue. -/
def State.call (s : State n) (t : Option (Fin n)) (next : Pc (List Byte)) : State n :=
  { s with shared := { s.shared with pc := Function.update s.shared.pc t next } }

def State.work (s : State n) (w : Fin n) (next : WorkerAt) : State n :=
  { s with workers := Function.update s.workers w next }

/-- `*data` after a statement of `job_queue_pop`. -/
def assign (q : Queue (List Byte)) : Pc (List Byte) → Option (List Byte) → Option (List Byte)
  | .popData _, _ => some (q.data q.consPointer)
  | _, line => line

/-- **One step** of a thread. -/
inductive Step (s : State n) : State n → Prop
  | push {rest line rest' : List Byte} (hm : s.main = .reading rest) (hi : s.shared.pc none = .idle)
    (hl : getline rest = some (line, rest')) :
    Step s { s.call none (.pushTest (cString line)) with
      main := .reading rest', strdups := s.strdups ++ [cString line] }
  | destroy {rest : List Byte} (hm : s.main = .reading rest) (hi : s.shared.pc none = .idle)
    (hl : getline rest = none) : Step s { s.call none .destroyLock with main := .destroying }
  | main {shared : Exclusion.State (Option (Fin n)) (List Byte)} (hi : s.shared.pc none ≠ .idle)
    (hs : Exclusion.Step none s.shared shared) : Step s { s with shared := shared }
  | destroyed (hm : s.main = .destroying) (hi : s.shared.pc none = .idle) : Step s { s with main := .joining 0 }
  | join {i : Fin n} (hm : s.main = .joining i) (hw : s.workers i = .finished) :
    Step s { s with main := .joining (i + 1) }
  | exit (hm : s.main = .joining n) : Step s { s with main := .returned }
  | pop {w : Fin n} (hw : s.workers w = .calling) (hi : s.shared.pc (some w) = .idle) :
    Step s ((s.call (some w) .popTestAmount).work w (.popping none))
  | popRuns {w : Fin n} {line : Option (List Byte)} {shared : Exclusion.State (Option (Fin n)) (List Byte)}
    (hw : s.workers w = .popping line) (hi : s.shared.pc (some w) ≠ .idle)
    (hs : Exclusion.Step (some w) s.shared shared) (hn : shared.pc (some w) ≠ .idle) :
    Step s ({ s with shared := shared }.work w (.popping (assign s.shared.queue (s.shared.pc (some w)) line)))
  | popReturns {w : Fin n} {line : List Byte} {shared : Exclusion.State (Option (Fin n)) (List Byte)}
    (hw : s.workers w = .popping (some line)) (hi : s.shared.pc (some w) = .popUnlock)
    (hs : Exclusion.Step (some w) s.shared shared) : Step s ({ s with shared := shared }.work w (.fibLine line))
  | popFails {w : Fin n} {line : Option (List Byte)} {shared : Exclusion.State (Option (Fin n)) (List Byte)}
    (hw : s.workers w = .popping line) (hi : popFails (s.shared.pc (some w)) = true)
    (hs : Exclusion.Step (some w) s.shared shared) : Step s ({ s with shared := shared }.work w .finished)
  | lock {w : Fin n} {line : List Byte} {text : String} (hw : s.workers w = .fibLine line)
    (ht : fibLine line = some text) (ho : s.stdoutMutex = none) :
    Step s ({ s with stdoutMutex := some w }.work w (.printing line text))
  | print {w : Fin n} {line : List Byte} {text : String} (hw : s.workers w = .printing line text) :
    Step s ({ s with printed := s.printed ++ [text] }.work w (.unlocking line))
  | unlock {w : Fin n} {line : List Byte} (hw : s.workers w = .unlocking line) :
    Step s ({ s with stdoutMutex := none }.work w (.freeing line))
  | free {w : Fin n} {line : List Byte} (hw : s.workers w = .freeing line) :
    Step s ({ s with freed := s.freed ++ [line] }.work w .calling)

/-- The copies of the lines of an input. -/
def copies (input : List Byte) : List (List Byte) :=
  match h : getline input with
  | none => []
  | some (line, rest) =>
    have := getline_length h
    cString line :: copies rest
termination_by input.length

/-! ### What the threads hold -/

/-- `main` has called `job_queue_destroy`. -/
def MainAt.called : MainAt → Bool
  | .reading _ => false
  | _ => true

/-- The input to come. -/
def MainAt.rest : MainAt → List Byte
  | .reading rest => rest
  | _ => []

/-- The workers that have been joined. -/
def MainAt.joined : MainAt → Fin n → Prop
  | .joining i, w => w.val < i
  | .returned, _ => True
  | _, _ => False

/-- `main` is in a function of the queue, or may be. -/
def MainAt.queueing : MainAt → Prop
  | .reading _ | .destroying => True
  | _ => False

/-- The line that a worker has taken. -/
def WorkerAt.held : WorkerAt → Multiset (List Byte)
  | .popping line => ↑line.toList
  | .fibLine line | .printing line _ | .unlocking line | .freeing line => {line}
  | .calling | .finished => 0

/-- The line that a worker has printed and not freed. -/
def WorkerAt.shown : WorkerAt → Multiset (List Byte)
  | .unlocking line | .freeing line => {line}
  | _ => 0

/-- A worker prints. -/
def WorkerAt.prints : WorkerAt → Bool
  | .printing _ _ | .unlocking _ => true
  | _ => false

/-- `job_queue_pop` has written `*data`. -/
def past : Pc (List Byte) → Bool
  | .popCount _ | .popPointer _ | .popAmount _ | .popSignal _ | .popUnlock => true
  | _ => false

/-- Where a worker is in the queue. -/
def WorkerAt.Fits : WorkerAt → Pc (List Byte) → Prop
  | .popping line, pc => pops pc = true ∧ pc ≠ .idle ∧ line.isSome = past pc
  | _, pc => pc = .idle

/-- What a worker may be about to print is the text of its line. -/
def Honest : WorkerAt → Prop
  | .printing line text => fibLine line = some text
  | _ => True

/-- **The invariant**: `a` is the abstract queue. -/
structure Inv (input : List Byte) (s : State n) (a : ClosableQueue.State (Option (Fin n)) (List Byte)) : Prop where
  linked : Linked 64 s.shared a
  main : mains s.main.called (s.shared.pc none) = true
  flag : s.shared.queue.queueToBeDestroyed = if 1 ≤ stage s.main.called (s.shared.pc none) then 1 else 0
  drained : 2 ≤ stage s.main.called (s.shared.pc none) → a.pending = []
  away : ¬ s.main.queueing → s.shared.pc none = .idle
  fits : ∀ w, (s.workers w).Fits (s.shared.pc (some w))
  read : s.strdups ++ copies s.main.rest = copies input
  ledger : (↑s.strdups : Multiset (List Byte)) = ∑ w, (s.workers w).held + (ClosableQueue.stock a + ↑s.freed)
  honest : ∀ w, Honest (s.workers w)
  shown : (↑(s.printed.map some) : Multiset (Option String)) =
    ∑ w, (s.workers w).shown.map fibLine + ↑(s.freed.map fibLine)
  stdout : ∀ w, (s.workers w).prints = true ↔ s.stdoutMutex = some w
  joined : ∀ w, s.main.joined w → s.workers w = .finished

variable {input : List Byte} {s s' : State n} {a : ClosableQueue.State (Option (Fin n)) (List Byte)} {c : Bool}
  {q q' : Queue (List Byte)} {pc next : Pc (List Byte)} {t : Option (Fin n)} {w : Fin n} {line : Option (List Byte)}

/-! ### `fib` -/

theorem toInt_eq (n : ℤ) : toInt n = some n ↔ -2 ^ 31 ≤ n ∧ n < 2 ^ 31 := by
  unfold toInt
  split_ifs with h
  · exact iff_of_true rfl h
  · exact iff_of_false nofun h

/-- **`fib` gives the Fibonacci numbers** as far as they fit into an `int`. -/
theorem fib_eq (n : ℤ) : fib n = if n ≤ 45 then some ↑(Nat.fib (n.toNat + 1)) else none := by
  induction n using fib.induct with
  | case1 n hn =>
    have hle : n.toNat = 0 ∨ n.toNat = 1 := by omega
    rw [fib, if_pos hn, if_pos (by omega)]
    rcases hle with h | h <;> rw [h] <;> rfl
  | case2 n hn ih₁ ih₂ =>
    rw [fib, if_neg hn, ih₁, ih₂]
    obtain ⟨k, rfl⟩ : ∃ k : ℕ, n = k + 2 := ⟨(n - 2).toNat, by omega⟩
    have h1 : ((k : ℤ) + 2 - 1).toNat = k + 1 := by omega
    have h2 : ((k : ℤ) + 2 - 2).toNat = k := by omega
    have h3 : ((k : ℤ) + 2).toNat = k + 2 := by omega
    rw [h1, h2, h3]
    rcases lt_trichotomy k 44 with hk | rfl | hk
    · have hsum : Nat.fib (k + 1 + 1) + Nat.fib (k + 1) = Nat.fib (k + 2 + 1) := by
        rw [add_comm, ← Nat.fib_add_two]
      have hmax : Nat.fib (k + 2 + 1) ≤ Nat.fib 46 := Nat.fib_mono (by omega)
      have hval : Nat.fib 46 = 1836311903 := by decide +kernel
      rw [if_pos (by omega), if_pos (by omega), if_pos (by omega), Option.bind_some, Option.bind_some, ← Nat.cast_add,
        hsum, toInt_eq]
      omega
    · -- the first sum that overflows
      decide +kernel
    · rw [if_neg (by omega), Option.bind_none, if_neg (by omega)]

/-- What `fib_line` prints of a number. -/
theorem fibLine_eq {line : List Byte} {n : ℤ} (h : atoi line = some n) :
    fibLine line = if n ≤ 45 then some s!"fib({n}) = {Nat.fib (n.toNat + 1)}\n" else none := by
  unfold fibLine
  rw [h, Option.bind_some, fib_eq]
  split_ifs <;> rfl

/-! ### The copies -/

theorem copies_eof {rest : List Byte} (h : getline rest = none) : copies rest = [] := by
  rw [copies]
  split
  · rfl
  · next heq => rw [h] at heq; cases heq

theorem copies_line {rest line rest' : List Byte} (h : getline rest = some (line, rest')) :
    copies rest = cString line :: copies rest' := by
  rw [copies]
  split
  · next heq => rw [h] at heq; cases heq
  · next line' rest'' heq =>
    rw [h] at heq
    obtain ⟨rfl, rfl⟩ := Prod.mk.inj (Option.some.inj heq)
    rfl

/-! ### The statements of the queue -/

/-- A worker neither asks nor pushes, and what it takes is what it writes. -/
theorem worker_label (h : (stmt q pc).after q = some (q', next)) (hp : pops pc = true)
    (hl : line.isSome = past pc) :
    ClosableQueue.taken (label q t pc next).toList ++ line.toList = (assign q pc line).toList ∧
      ClosableQueue.asked (label q t pc next) = [] ∧ ClosableQueue.pushed (label q t pc next).toList = [] := by
  cases pc <;> simp only [stmt, Effect.after, Option.some.injEq, Prod.mk.injEq, reduceCtorEq] at h
  all_goals obtain ⟨-, rfl⟩ := h
  case popData c =>
    obtain rfl : line = none := by simpa [past] using hl
    exact ⟨rfl, rfl, rfl⟩
  all_goals
    first
    | exact absurd hp Bool.false_ne_true
    | exact ⟨rfl, rfl, rfl⟩
    | (split_ifs <;> exact ⟨rfl, rfl, rfl⟩)

/-- A worker has written `*data` between the statement that does it and its return. -/
theorem worker_past (h : (stmt q pc).after q = some (q', next)) (hp : pops pc = true)
    (hl : line.isSome = past pc) (hn : next ≠ .idle) : (assign q pc line).isSome = past next := by
  cases pc <;> simp only [stmt, Effect.after, Option.some.injEq, Prod.mk.injEq, reduceCtorEq] at h
  all_goals obtain ⟨-, rfl⟩ := h
  all_goals
    first
    | exact absurd hp Bool.false_ne_true
    | exact absurd rfl hn
    | exact hl
    | rfl
    | (split_ifs <;> exact hl)

/-- A call that fails writes nothing. -/
theorem assign_of_fails (h : popFails pc = true) : assign q pc line = line := by
  cases pc <;> first | rfl | cases h

theorem not_past_of_fails (h : popFails pc = true) : past pc = false := by
  cases pc <;> first | rfl | cases h

/-- `main` takes nothing, asks for nothing within a call, and gets past the loop of `job_queue_destroy` only where the
queue is empty. -/
theorem main_label (h : (stmt q pc).after q = some (q', next)) (hp : mains c pc = true) (hi : pc ≠ .idle) :
    ClosableQueue.taken (label q t pc next).toList = [] ∧ ClosableQueue.asked (label q t pc next) = [] ∧
      (2 ≤ stage c next → (2 ≤ stage c pc ∧ label q t pc next = none) ∨ label q t pc next = some (.finish t)) := by
  cases pc <;> simp only [stmt, Effect.after, Option.some.injEq, Prod.mk.injEq, reduceCtorEq] at h
  all_goals obtain ⟨-, rfl⟩ := h
  case pushUnlock =>
    obtain rfl : c = false := by simpa [mains] using hp
    exact ⟨rfl, rfl, fun h2 => absurd h2 (by simp [stage])⟩
  case destroyWhile =>
    split_ifs
    · exact ⟨rfl, rfl, fun h2 => absurd h2 (by simp [stage])⟩
    · exact ⟨rfl, rfl, fun _ => Or.inr rfl⟩
  case pushTest =>
    refine ⟨rfl, rfl, fun h2 => absurd h2 ?_⟩
    split_ifs <;> simp [stage]
  case pushWhile =>
    refine ⟨rfl, rfl, fun h2 => absurd h2 ?_⟩
    split_ifs <;> simp [stage]
  all_goals
    first
    | exact absurd hp Bool.false_ne_true
    | exact absurd rfl hi
    | (refine ⟨rfl, rfl, fun _ => Or.inl ⟨?_, rfl⟩⟩
       simp [stage]
       done)
    | (refine ⟨rfl, rfl, fun h2 => absurd h2 ?_⟩
       simp [stage])

/-! ### Steps -/

theorem fits_pops {x : WorkerAt} (h : x.Fits pc) : pops pc = true := by
  cases x
  case popping => exact h.1
  all_goals
    obtain rfl : pc = .idle := h
    rfl

section Steps
variable {shared : Exclusion.State (Option (Fin n)) (List Byte)} {x : WorkerAt}

/-- The flag is clear when `main` reads it in `job_queue_push`. -/
theorem Inv.careful (h : Inv input s a) (hs : Exclusion.Step t s.shared shared) : Careful t s.shared shared := by
  refine ⟨hs, fun d hd => ?_⟩
  cases t with
  | none =>
    rw [h.flag, hd]
    rfl
  | some w =>
    have hp := fits_pops (h.fits w)
    rw [hd] at hp
    exact absurd hp Bool.false_ne_true

/-- The abstract queue follows. -/
theorem Inv.follows (h : Inv input s a) (hs : Exclusion.Step t s.shared shared) :
    ∃ a', Matches (ClosableQueue.Step 64) a (label s.shared.queue t (s.shared.pc t) (shared.pc t)) a' ∧
      Linked 64 shared a' :=
  h.linked.step ⟨t, h.careful hs, rfl⟩

theorem Inv.call_follows (h : Inv input s a) (hi : s.shared.pc t = .idle) (hn : Entry next) :
    ∃ a', Matches (ClosableQueue.Step 64) a (label s.shared.queue t .idle next) a' ∧
      Linked 64 (s.call t next).shared a' := by
  have hf := h.follows (.call hi hn)
  simp only [Function.update_self, hi] at hf
  exact hf

/-- A worker moves in the queue and is then at `x`. -/
theorem Inv.worker_shared (h : Inv input s a) {a' : ClosableQueue.State (Option (Fin n)) (List Byte)}
    (hl : Linked 64 shared a') (hpc : shared.pc = Function.update s.shared.pc (some w) next)
    (hflag : shared.queue.queueToBeDestroyed = s.shared.queue.queueToBeDestroyed)
    (hdrained : a.pending = [] → a'.pending = []) (hne : s.workers w ≠ .finished) (hfits : x.Fits next)
    (hheld : (s.workers w).held + ClosableQueue.stock a = x.held + ClosableQueue.stock a')
    (hshown : x.shown = (s.workers w).shown) (hprints : x.prints = (s.workers w).prints) (hhonest : Honest x) :
    Inv input ({ s with shared := shared }.work w x) a' := by
  have hmain : shared.pc none = s.shared.pc none := by rw [hpc, Function.update_of_ne (Option.some_ne_none w).symm]
  refine ⟨hl, ?_, ?_, ?_, ?_, ?_, h.read, ?_, ?_, ?_, ?_, ?_⟩
  · show mains s.main.called (shared.pc none) = true
    rw [hmain]
    exact h.main
  · show shared.queue.queueToBeDestroyed = if 1 ≤ stage s.main.called (shared.pc none) then 1 else 0
    rw [hmain, hflag]
    exact h.flag
  · show 2 ≤ stage s.main.called (shared.pc none) → a'.pending = []
    rw [hmain]
    exact fun h2 => hdrained (h.drained h2)
  · intro hq
    show shared.pc none = .idle
    rw [hmain]
    exact h.away hq
  · refine (Function.forall_update_iff s.workers fun i y => y.Fits (shared.pc (some i))).mpr ⟨?_, fun i hiw => ?_⟩
    · rw [hpc, Function.update_self]
      exact hfits
    · rw [hpc, Function.update_of_ne fun he => hiw (Option.some.inj he)]
      exact h.fits i
  · refine total_moves (g := WorkerAt.held) h.ledger ?_
    show ↑s.strdups + (ClosableQueue.stock a + ↑s.freed) + (s.workers w).held =
      ↑s.strdups + (ClosableQueue.stock a' + ↑s.freed) + x.held
    calc _ = ↑s.strdups + ↑s.freed + ((s.workers w).held + ClosableQueue.stock a) := by abel
      _ = _ := by rw [hheld]; abel
  · exact (Function.forall_update_iff s.workers fun _ y => Honest y).mpr ⟨hhonest, fun i _ => h.honest i⟩
  · refine total_moves (g := fun y : WorkerAt => y.shown.map fibLine) h.shown ?_
    rw [hshown]
    rfl
  · refine (Function.forall_update_iff s.workers fun i y => y.prints = true ↔ s.stdoutMutex = some i).mpr
      ⟨?_, fun i _ => h.stdout i⟩
    rw [hprints]
    exact h.stdout w
  · intro i hj
    have hdone := h.joined i hj
    rcases eq_or_ne i w with rfl | hiw
    · exact absurd hdone hne
    · exact (Function.update_of_ne hiw _ _).trans hdone

/-- A worker calls `job_queue_pop`. -/
theorem Inv.pop_calls (h : Inv input s a) (hw : s.workers w = .calling) (hi : s.shared.pc (some w) = .idle) :
    ∃ a', Inv input ((s.call (some w) .popTestAmount).work w (.popping none)) a' := by
  obtain ⟨a', hm, hl⟩ := h.call_follows hi .pop
  obtain rfl : a' = a := by
    rcases hm with ⟨-, he⟩ | hstep
    · exact he
    · cases hstep
  exact ⟨a', h.worker_shared hl rfl rfl id (by rw [hw]; nofun) ⟨rfl, nofun, rfl⟩ (by rw [hw]; rfl) (by rw [hw]; rfl)
    (by rw [hw]; rfl) trivial⟩

/-- A statement of a worker in `job_queue_pop`, after which it is at `x`. -/
theorem Inv.pop_moves (h : Inv input s a) (hw : s.workers w = .popping line) (hi : s.shared.pc (some w) ≠ .idle)
    (hs : Exclusion.Step (some w) s.shared shared)
    (hfits : ∀ next q', (stmt s.shared.queue (s.shared.pc (some w))).after s.shared.queue = some (q', next) →
      shared.pc (some w) = next → x.Fits next)
    (hheld : x.held = ↑(assign s.shared.queue (s.shared.pc (some w)) line).toList) (hshown : x.shown = 0)
    (hprints : x.prints = false) (hhonest : Honest x) :
    ∃ a', Inv input ({ s with shared := shared }.work w x) a' := by
  obtain ⟨a', hm, hl⟩ := h.follows hs
  obtain ⟨next, hpc, ⟨hidle, -, -⟩ | hmove⟩ := hs.moves
  · exact absurd hidle hi
  have hfit := h.fits w
  rw [hw] at hfit
  obtain ⟨hp, -, hline⟩ := hfit
  have hnext : shared.pc (some w) = next := by rw [hpc, Function.update_self]
  rw [hnext] at hm
  obtain ⟨-, hflag, -⟩ := Teardown.worker_after hmove hp
  obtain ⟨htaken, hasked, hpush⟩ := worker_label (t := some w) hmove hp hline
  have hstock := ClosableQueue.stock_matches hm
  rw [hasked, Multiset.coe_nil, add_zero] at hstock
  refine ⟨a', h.worker_shared hl hpc hflag (fun hd => ClosableQueue.pending_matches hm hd hpush) (by rw [hw]; nofun)
    (hfits next _ hmove hnext) ?_ (by rw [hw, hshown]; rfl) (by rw [hw, hprints]; rfl) hhonest⟩
  rw [hheld, ← htaken, ← Multiset.coe_add, ← hstock, hw]
  show (↑line.toList : Multiset (List Byte)) + _ = _
  abel

/-- A step of a worker outside the queue. -/
theorem Inv.worker_moves (h : Inv input s a) {m : Option (Fin n)} {p : List String} {f : List (List Byte)}
    (hold : ∀ pc, (s.workers w).Fits pc → pc = .idle) (hfits : ∀ pc, pc = .idle → x.Fits pc)
    (hne : s.workers w ≠ .finished) (hhonest : Honest x) (hprints : x.prints = true ↔ m = some w)
    (hm : ∀ i, i ≠ w → (s.stdoutMutex = some i ↔ m = some i))
    (hledger : ↑s.freed + (s.workers w).held = ↑f + x.held)
    (hshown : ↑(p.map some) + ↑(s.freed.map fibLine) + (s.workers w).shown.map fibLine =
      (↑(s.printed.map some) + ↑(f.map fibLine) + x.shown.map fibLine : Multiset (Option String))) :
    Inv input ({ s with stdoutMutex := m, printed := p, freed := f }.work w x) a := by
  refine ⟨h.linked, h.main, h.flag, h.drained, h.away, ?_, h.read, ?_, ?_, ?_, ?_, ?_⟩
  · exact (Function.forall_update_iff s.workers fun i y => y.Fits (s.shared.pc (some i))).mpr
      ⟨hfits _ (hold _ (h.fits w)), fun i _ => h.fits i⟩
  · refine total_moves (g := WorkerAt.held) h.ledger ?_
    show ↑s.strdups + (ClosableQueue.stock a + ↑s.freed) + (s.workers w).held =
      ↑s.strdups + (ClosableQueue.stock a + ↑f) + x.held
    rw [add_assoc, add_assoc (ClosableQueue.stock a), hledger]
    abel
  · exact (Function.forall_update_iff s.workers fun _ y => Honest y).mpr ⟨hhonest, fun i _ => h.honest i⟩
  · exact total_moves (g := fun y : WorkerAt => y.shown.map fibLine) h.shown hshown
  · refine (Function.forall_update_iff s.workers fun i y => y.prints = true ↔ m = some i).mpr
      ⟨hprints, fun i hiw => ?_⟩
    rw [← hm i hiw]
    exact h.stdout i
  · intro i hj
    have hdone := h.joined i hj
    rcases eq_or_ne i w with rfl | hiw
    · exact absurd hdone hne
    · exact (Function.update_of_ne hiw _ _).trans hdone

/-- A call of `main`. -/
theorem Inv.main_calls (h : Inv input s a) {main : MainAt} {sd : List (List Byte)} (hi : s.shared.pc none = .idle)
    (hn : Entry next) (hmains : mains main.called next = true)
    (hstage : stage main.called next = 0) (hopen : s.main.called = false) (hq : main.queueing)
    (hread : sd ++ copies main.rest = copies input)
    (hsd : sd = s.strdups ++ ClosableQueue.asked (label s.shared.queue (none : Option (Fin n)) .idle next))
    (hj : ∀ w : Fin n, ¬ main.joined w)
    (htaken : ClosableQueue.taken (label s.shared.queue (none : Option (Fin n)) .idle next).toList = []) :
    ∃ a', Inv input { s.call none next with main := main, strdups := sd } a' := by
  obtain ⟨a', hm, hl⟩ := h.call_follows hi hn
  have hstock := ClosableQueue.stock_matches hm
  rw [htaken, Multiset.coe_nil, add_zero] at hstock
  have hpc : (s.call none next).shared.pc none = next := by
    show Function.update s.shared.pc none next none = next
    exact Function.update_self ..
  refine ⟨a', hl, ?_, ?_, ?_, fun hq' => absurd hq hq', fun w => ?_, hread, ?_, h.honest, h.shown, h.stdout,
    fun w hjw => absurd hjw (hj w)⟩
  · exact (congrArg (fun pc => mains main.called pc = true) hpc).mpr hmains
  · refine h.flag.trans ?_
    show _ = if 1 ≤ stage main.called ((s.call none next).shared.pc none) then (1 : ℤ) else 0
    rw [hpc, hstage, hi, hopen]
    rfl
  · intro h2
    have hst : stage main.called ((s.call none next).shared.pc none) = 0 := by rw [hpc, hstage]
    exact absurd h2 (by rw [hst]; omega)
  · show (s.workers w).Fits (Function.update s.shared.pc none next (some w))
    rw [Function.update_of_ne (Option.some_ne_none w)]
    exact h.fits w
  · show (↑sd : Multiset (List Byte)) = ∑ w, (s.workers w).held + (ClosableQueue.stock a' + ↑s.freed)
    rw [hsd, ← Multiset.coe_add, hstock, h.ledger]
    abel

/-- A statement of `main` in a function of the queue. -/
theorem Inv.main_stmt (h : Inv input s a) (hi : s.shared.pc none ≠ .idle)
    (hs : Exclusion.Step none s.shared shared) : ∃ a', Inv input { s with shared := shared } a' := by
  obtain ⟨a', hm, hl⟩ := h.follows hs
  obtain ⟨next, hpc, ⟨hidle, -, -⟩ | hmove⟩ := hs.moves
  · exact absurd hidle hi
  rw [hpc, Function.update_self] at hm
  obtain ⟨h1, h2⟩ := Teardown.main_after hmove h.main hi h.flag
  obtain ⟨htaken, hasked, hdrain⟩ := main_label (t := (none : Option (Fin n))) hmove h.main hi
  have hstock := ClosableQueue.stock_matches hm
  rw [htaken, hasked, Multiset.coe_nil, add_zero, add_zero] at hstock
  have hnext : shared.pc none = next := by rw [hpc, Function.update_self]
  refine ⟨a', hl, ?_, ?_, ?_, fun hq => absurd (h.away hq) hi, fun w => ?_, h.read, ?_, h.honest, h.shown, h.stdout,
    h.joined⟩
  · show mains s.main.called (shared.pc none) = true
    rw [hnext]
    exact h1
  · show shared.queue.queueToBeDestroyed = if 1 ≤ stage s.main.called (shared.pc none) then 1 else 0
    rw [hnext]
    exact h2
  · show 2 ≤ stage s.main.called (shared.pc none) → a'.pending = []
    rw [hnext]
    intro hst
    rcases hdrain hst with ⟨hold, hnone⟩ | hfin
    · rw [hnone] at hm
      exact ClosableQueue.pending_matches hm (h.drained hold) rfl
    · rw [hfin] at hm
      rcases hm with ⟨hno, -⟩ | hstep
      · cases hno
      · cases hstep with
        | finish _ _ hp _ => exact hp
  · show (s.workers w).Fits (shared.pc (some w))
    rw [hpc, Function.update_of_ne (Option.some_ne_none w)]
    exact h.fits w
  · show (↑s.strdups : Multiset (List Byte)) = ∑ w, (s.workers w).held + (ClosableQueue.stock a' + ↑s.freed)
    rw [hstock]
    exact h.ledger

/-- `main` goes on outside the queue. -/
theorem Inv.main_moves (h : Inv input s a) {m : MainAt} (hi : s.shared.pc none = .idle)
    (hc : m.called = s.main.called) (hr : m.rest = s.main.rest) (hj : ∀ w, m.joined w → s.workers w = .finished) :
    Inv input { s with main := m } a :=
  ⟨h.linked, hc ▸ h.main, hc ▸ h.flag, hc ▸ h.drained, fun _ => hi, h.fits, hr ▸ h.read, h.ledger, h.honest, h.shown,
    h.stdout, hj⟩

/-- **Every step** keeps the invariant. -/
theorem Inv.step (h : Inv input s a) (hs : Step s s') : ∃ a', Inv input s' a' := by
  cases hs with
  | @push rest line rest' hm hi hl =>
    have hread := h.read
    rw [hm, MainAt.rest, copies_line hl] at hread
    exact h.main_calls hi (.push _) rfl rfl (by rw [hm]; rfl) trivial (by rw [List.append_assoc]; exact hread) rfl
      (fun _ => nofun) rfl
  | @destroy rest hm hi hl =>
    have hread := h.read
    rw [hm, MainAt.rest, copies_eof hl] at hread
    have hend : copies [] = [] := copies_eof (if_pos rfl)
    exact h.main_calls hi .destroy rfl rfl (by rw [hm]; rfl) trivial (by rw [← hread, ← hend]; rfl)
      (List.append_nil _).symm (fun _ => nofun) rfl
  | main hi hstep => exact h.main_stmt hi hstep
  | destroyed hm hi =>
    exact ⟨a, h.main_moves hi (by rw [hm]; rfl) (by rw [hm]; rfl) fun w hw => absurd hw (Nat.not_lt_zero _)⟩
  | @join i hm hw =>
    refine ⟨a, h.main_moves (h.away (by rw [hm]; exact id)) (by rw [hm]; rfl) (by rw [hm]; rfl) fun w hlt => ?_⟩
    rcases Nat.lt_succ_iff_lt_or_eq.mp hlt with hlt | heq
    · exact h.joined w (by rw [hm]; exact hlt)
    · rw [Fin.ext heq, hw]
  | exit hm =>
    refine ⟨a, h.main_moves (h.away (by rw [hm]; exact id)) (by rw [hm]; rfl) (by rw [hm]; rfl) fun w _ => ?_⟩
    exact h.joined w (by rw [hm]; exact w.isLt)
  | pop hw hi => exact h.pop_calls hw hi
  | @popRuns w line shared hw hi hstep hn =>
    have hfit := h.fits w
    rw [hw] at hfit
    refine h.pop_moves hw hi hstep (fun next q' hmove hnext => ?_) rfl rfl rfl trivial
    rw [hnext] at hn
    exact ⟨(Teardown.worker_after hmove hfit.1).1, hn, worker_past hmove hfit.1 hfit.2.2 hn⟩
  | @popReturns w line shared hw hi hstep =>
    refine h.pop_moves hw (by rw [hi]; nofun) hstep (fun next q' hmove hnext => ?_) (by rw [hi]; rfl) rfl rfl trivial
    rw [hi] at hmove
    exact (Prod.mk.inj (Option.some.inj hmove)).2.symm
  | @popFails w line shared hw hi hstep =>
    have hfit := h.fits w
    rw [hw] at hfit
    obtain rfl : line = none := by
      rw [← Option.not_isSome_iff_eq_none, hfit.2.2, not_past_of_fails hi]
      exact Bool.false_ne_true
    refine h.pop_moves hw hfit.2.1 hstep (fun next q' hmove _ => Teardown.worker_fails hmove hi) ?_ rfl rfl trivial
    rw [assign_of_fails hi]
    rfl
  | @lock w line text hw ht ho =>
    refine ⟨a, h.worker_moves (by rw [hw]; exact fun _ => id) (fun _ => id) (by rw [hw]; nofun) ht
      (iff_of_true rfl rfl) (fun i hi => ?_) (by rw [hw]; rfl) (by rw [hw]; rfl)⟩
    rw [ho]
    exact iff_of_false nofun fun he => hi (Option.some.inj he).symm
  | @print w line text hw =>
    have ht := h.honest w
    have hown := (h.stdout w).mp (by rw [hw]; rfl)
    rw [hw] at ht
    refine ⟨a, h.worker_moves (by rw [hw]; exact fun _ => id) (fun _ => id) (by rw [hw]; nofun) trivial
      (iff_of_true rfl hown) (fun i hi => Iff.rfl) (by rw [hw]; rfl) ?_⟩
    rw [hw]
    show ↑((s.printed ++ [text]).map some) + ↑(s.freed.map fibLine) + (0 : Multiset (Option String)) =
      ↑(s.printed.map some) + ↑(s.freed.map fibLine) + {fibLine line}
    rw [List.map_append, ← Multiset.coe_add, show fibLine line = some text from ht]
    show _ + {some text} + _ + 0 = _
    abel
  | @unlock w line hw =>
    have hown := (h.stdout w).mp (by rw [hw]; rfl)
    refine ⟨a, h.worker_moves (by rw [hw]; exact fun _ => id) (fun _ => id) (by rw [hw]; nofun) trivial
      (iff_of_false Bool.false_ne_true nofun) (fun i hi => ?_) (by rw [hw]; rfl) (by rw [hw]; rfl)⟩
    rw [hown]
    exact iff_of_false (fun he => hi (Option.some.inj he).symm) nofun
  | @free w line hw =>
    have hown := h.stdout w
    rw [hw] at hown
    refine ⟨a, h.worker_moves (by rw [hw]; exact fun _ => id) (fun _ => id) (by rw [hw]; nofun) trivial hown
      (fun i hi => Iff.rfl) ?_ ?_⟩
    · rw [hw]
      show ↑s.freed + {line} = ↑(s.freed ++ [line]) + (0 : Multiset (List Byte))
      rw [add_zero, ← Multiset.coe_add]
      rfl
    · rw [hw]
      show ↑(s.printed.map some) + ↑(s.freed.map fibLine) + {fibLine line} =
        ↑(s.printed.map some) + ↑((s.freed ++ [line]).map fibLine) + (0 : Multiset (Option String))
      rw [add_zero, List.map_append, ← Multiset.coe_add, add_assoc]
      rfl

theorem inv_start (data : ℤ → List Byte) (input : List Byte) :
    Inv input (start n data input) ClosableQueue.State.empty := by
  refine ⟨Linearization.linked_start data (show (1 : ℤ) ≤ 64 by decide), rfl, rfl, fun _ => rfl, fun _ => rfl,
    fun _ => rfl, rfl, ?_, fun _ => trivial, ?_, fun _ => iff_of_false Bool.false_ne_true nofun, fun _ => nofun⟩
  · simp [start, WorkerAt.held, ClosableQueue.stock, ClosableQueue.State.empty]
  · simp [start, WorkerAt.shown]

end Steps

/-! ### Runs -/

/-- What `fibs.c` prints for a line. -/
def fibText (line : List Byte) : Option String :=
  (atoi line).bind fun n => if n ≤ 45 then some s!"fib({n}) = {Nat.fib (n.toNat + 1)}\n" else none

theorem fibLine_eq_fibText (line : List Byte) : fibLine line = fibText line := by
  unfold fibText
  cases h : atoi line with
  | none => rw [fibLine, h]; rfl
  | some n => exact fibLine_eq h

/-- Nothing is left in the queue when `main` returns. -/
theorem Inv.stock_eq_zero (h : Inv input s a) (hret : s.main = .returned) : ClosableQueue.stock a = 0 := by
  have hidle : s.shared.pc none = .idle := h.away (by rw [hret]; exact id)
  have hasked (t : Option (Fin n)) : a.asked t = none := by
    rw [(h.linked.place t).asked]
    cases t with
    | none => rw [hidle]; rfl
    | some w =>
      have hp := fits_pops (h.fits w)
      cases hpc : s.shared.pc (some w) <;> first | rfl | (rw [hpc] at hp; exact absurd hp Bool.false_ne_true)
  have hpending : a.pending = [] := h.drained (by rw [hidle, hret]; decide)
  rw [ClosableQueue.stock, hpending, Finset.sum_eq_zero fun t _ => by rw [hasked t]; rfl]
  rfl

/-- **The Fibonacci program**, with any number of workers and in any order of their statements: no two workers print
at once, no line is freed that was not copied, or more often, and when `main` returns every line of the input has been
freed and its Fibonacci number printed, once. -/
theorem fibs_exact (data : ℤ → List Byte) (input : List Byte) (h : Reaches Step (start n data input) s) :
    (∀ w w', (s.workers w).prints = true → (s.workers w').prints = true → w = w') ∧
      s.freed.Subperm s.strdups ∧
      (s.main = .returned → s.freed.Perm (copies input) ∧ (s.printed.map some).Perm ((copies input).map fibText) ∧
        ∀ w, s.workers w = .finished) := by
  obtain ⟨a, hI⟩ : ∃ a, Inv input s a :=
    h.invariant (I := fun s => ∃ a, Inv input s a) (fun _ _ hI hs => hI.elim fun _ hI => hI.step hs)
      ⟨_, inv_start data input⟩
  refine ⟨fun w w' hw hw' => ?_, ?_, fun hret => ?_⟩
  · have h1 := (hI.stdout w).mp hw
    rw [(hI.stdout w').mp hw'] at h1
    exact (Option.some.inj h1).symm
  · rw [← Multiset.coe_le, hI.ledger, ← add_assoc]
    exact Multiset.le_add_left _ _
  · have hdone (w : Fin n) : s.workers w = .finished := hI.joined w (by rw [hret]; trivial)
    have hheld : ∑ w, (s.workers w).held = 0 := Finset.sum_eq_zero fun w _ => by rw [hdone w]; rfl
    have hshown : ∑ w, (s.workers w).shown.map fibLine = 0 := Finset.sum_eq_zero fun w _ => by rw [hdone w]; rfl
    have hread : s.strdups ++ copies [] = copies input := by
      have hread := hI.read
      rw [hret] at hread
      exact hread
    rw [copies_eof (if_pos rfl), List.append_nil] at hread
    have hfreed : s.freed.Perm (copies input) := by
      rw [← Multiset.coe_eq_coe, ← hread, hI.ledger, hheld, hI.stock_eq_zero hret, zero_add, zero_add]
    refine ⟨hfreed, ?_, hdone⟩
    have hprinted := hI.shown
    rw [hshown, zero_add, Multiset.coe_eq_coe] at hprinted
    rw [← funext fibLine_eq_fibText]
    exact hprinted.trans (hfreed.map fibLine)

theorem text_one : fibLine [49#8, 10#8] = some "fib(1) = 1\n" := by decide +kernel

/-- One worker prints the number of the one line. -/
theorem fibs_exact_one : ∃ s : State 1, s.main = .returned ∧ s.printed = ["fib(1) = 1\n"] ∧
    s.freed.Perm (copies [49#8, 10#8]) := by
  have h1 : Steps Step (start 1 (fun _ => []) [49#8, 10#8]) _ _ := .tail .refl (.push rfl rfl rfl)
  have h2 := h1.tail (.main nofun (.run (show _ = Effect.run _ (.pushLock [49#8, 10#8]) from rfl)))
  have h3 := h2.tail (.main nofun (.lock rfl rfl))
  have h4 := h3.tail (.main nofun (.run (show _ = Effect.run _ (.pushData [49#8, 10#8]) from rfl)))
  have h5 := h4.tail (.main nofun (.run rfl))
  have h6 := h5.tail (.main nofun (.run rfl))
  have h7 := h6.tail (.main nofun (.run rfl))
  have h8 := h7.tail (.main nofun (.run rfl))
  have h9 := h8.tail (.main nofun (.unlock rfl))
  have h10 := h9.tail (.pop (w := 0) rfl rfl)
  have h11 := h10.tail (.popRuns (w := 0) rfl nofun (.run (show _ = Effect.run _ .popTestFlag from rfl)) nofun)
  have h12 := h11.tail (.popRuns (w := 0) rfl nofun (.run (show _ = Effect.run _ .popLock from rfl)) nofun)
  have h13 := h12.tail (.popRuns (w := 0) rfl nofun (.lock rfl rfl) nofun)
  have h14 := h13.tail (.popRuns (w := 0) rfl nofun (.run rfl) nofun)
  have h15 := h14.tail (.popRuns (w := 0) rfl nofun (.run (show _ = Effect.run _ .popTestKilled from rfl)) nofun)
  have h16 := h15.tail (.popRuns (w := 0) rfl nofun (.run (show _ = Effect.run _ .popTestDraining from rfl)) nofun)
  have h17 := h16.tail (.popRuns (w := 0) rfl nofun (.run (show _ = Effect.run _ .popTestDrainingAgain from rfl)) nofun)
  have h18 := h17.tail (.popRuns (w := 0) rfl nofun (.run (show _ = Effect.run _ (.popData .prodCond) from rfl)) nofun)
  have h19 := h18.tail (.popRuns (w := 0) rfl nofun (.run rfl) nofun)
  have h20 := h19.tail (.popRuns (w := 0) rfl nofun (.run rfl) nofun)
  have h21 := h20.tail (.popRuns (w := 0) rfl nofun (.run rfl) nofun)
  have h22 := h21.tail (.popRuns (w := 0) rfl nofun (.run rfl) nofun)
  have h23 := h22.tail (.popRuns (w := 0) rfl nofun (.run rfl) nofun)
  have h24 := h23.tail (.popReturns (w := 0) rfl rfl (.unlock rfl))
  have h25 := h24.tail (.lock (w := 0) rfl text_one rfl)
  have h26 := h25.tail (.print (w := 0) rfl)
  have h27 := h26.tail (.unlock (w := 0) rfl)
  have h28 := h27.tail (.free (w := 0) rfl)
  have h29 := h28.tail (.destroy rfl rfl rfl)
  have h30 := h29.tail (.main nofun (.lock rfl rfl))
  have h31 := h30.tail (.main nofun (.run rfl))
  have h32 := h31.tail (.main nofun (.run (show _ = Effect.run _ .destroyUnlock from rfl)))
  have h33 := h32.tail (.pop (w := 0) rfl rfl)
  have h34 := h33.tail (.popRuns (w := 0) rfl nofun (.run (show _ = Effect.run _ .popTestFlag from rfl)) nofun)
  have h35 := h34.tail (.popRuns (w := 0) rfl nofun (.run (show _ = Effect.run _ .popTestCount from rfl)) nofun)
  have h36 := h35.tail (.popRuns (w := 0) rfl nofun (.run (show _ = Effect.run _ .popSignalDestroy from rfl)) nofun)
  have h37 := h36.tail (.popFails (w := 0) rfl rfl (.run rfl))
  have h38 := h37.tail (.main nofun (.unlock rfl))
  have h39 := h38.tail (.main nofun (.run rfl))
  have h40 := h39.tail (.main nofun (.run rfl))
  have h41 := h40.tail (.main nofun (.run rfl))
  have h42 := h41.tail (.main nofun (.run rfl))
  have h43 := h42.tail (.main nofun (.run rfl))
  have h44 := h43.tail (.destroyed rfl rfl)
  have h45 := h44.tail (.join (i := 0) rfl rfl)
  have h46 := h45.tail (.exit rfl)
  exact ⟨_, rfl, rfl, ((fibs_exact _ _ ⟨_, h46⟩).2.2 rfl).1⟩

end CompSys.A2.Fibs
