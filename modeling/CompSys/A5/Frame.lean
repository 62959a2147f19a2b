import CompSys.A5.MemoryRuns
import CompSys.A5.StepFacts
import CompSys.Lib.Runs

/-! # What an iteration leaves alone

An iteration changes at most the register its word names, and no byte of the memory unless the word is a
store; a store changes the one, two or four bytes from its address on (`step_touches`). This holds however
the iteration ends: the loop goes on, `simulate` returns, or the memory module exits. -/

namespace CompSys.A5.Frame

open CompSys.Lib.Runs CompSys.A5.PagedMemory CompSys.A5.FlatMemory CompSys.A5.MemoryRuns
open CompSys.A5.Decode CompSys.A5.Simulate CompSys.A5.StepFacts

/-- The registers and the memory when the iteration is over, unless the process is. -/
def stateAfter : Outcome → Option State
  | .next s => some s
  | .done _ s => some s
  | .failure _ s => some s
  | _ => none

/-- The memory when the iteration is over. -/
def memAfter : Outcome → Option Memory
  | .next s => some s.mem
  | .done _ s => some s.mem
  | .failure _ s => some s.mem
  | .exit e => some e.mem
  | .undefined => none

/-- The address a store hands to the memory module. -/
def storeAddr (s : State) (word : Word) : Word := s.reg (rs1 word) + storeOffset word

open StoreInstructions in
/-- The bytes a store writes. -/
def storeWidth (word : Word) : ℕ := if func3 word = sb then 1 else if func3 word = sh then 2 else 4

/-- The word touches no more than it names. `target` is its `rd`, but `a0` for `ECALL 1`, and nothing for the
other `ECALL`s, the branches and the stores. -/
structure Touches (s : State) (word : Word) (o : Outcome) : Prop where
  reg : ∀ s', stateAfter o = some s' → ∀ r, target s word ≠ some r → s'.reg r = s.reg r
  mem : ∀ m, memAfter o = some m → opcode word ≠ Opcode.storeInst → bytes m = bytes s.mem
  store : ∀ m, memAfter o = some m → opcode word = Opcode.storeInst →
    ∀ b, (∀ k < storeWidth word, b ≠ storeAddr s word + BitVec.ofNat 32 k) → bytes m b = bytes s.mem b
  /-- There is no result only where C leaves the value for `rd` undefined. -/
  undefined : o = .undefined → Undefined s word

variable {s : State} {word : Word} {m : Memory}

/-! ### Stores -/

/-- **A call that writes** leaves the bytes it does not write, also where it exits. -/
theorem storeBack_frame (op : Op) {r : Except Exit Memory} (hr : call s.mem op = r.map (none, ·))
    (h : memAfter (storeBack s r) = some m) {b : Word} (hb : b ∉ op.writes.map Prod.fst) :
    bytes m b = bytes s.mem b := by
  rcases r with e | m'
  · obtain rfl := Option.some.inj h
    by_cases hp : op.Permitted
    · obtain ⟨m', hok, -⟩ := call_permitted s.mem hp
      rw [hr] at hok
      exact nomatch hok
    · obtain ⟨e', he, hbytes⟩ := call_exit s.mem hp
      rw [hr] at he
      obtain rfl := Except.error.inj he
      rw [hbytes]
  · obtain rfl := Option.some.inj h
    exact call_frame hr hb

/-- The addresses of a write are consecutive. -/
theorem writes_within (a d : Word) : (∀ w ∈ writesB a d, ∃ k < 1, w.1 = a + BitVec.ofNat 32 k) ∧
    (∀ w ∈ writesH a d, ∃ k < 2, w.1 = a + BitVec.ofNat 32 k) ∧
    ∀ w ∈ writesW a d, ∃ k < 4, w.1 = a + BitVec.ofNat 32 k := by
  refine ⟨fun w hw => ?_, fun w hw => ?_, fun w hw => ?_⟩
  · simp only [writesB, List.mem_singleton] at hw
    exact ⟨0, by omega, by simp [hw]⟩
  · simp only [writesH, List.mem_cons, List.not_mem_nil, or_false] at hw
    rcases hw with rfl | rfl
    · exact ⟨0, by omega, by simp⟩
    · exact ⟨1, by omega, rfl⟩
  · simp only [writesW, List.mem_cons, List.not_mem_nil, or_false] at hw
    rcases hw with rfl | rfl | rfl | rfl
    · exact ⟨0, by omega, by simp⟩
    · exact ⟨1, by omega, rfl⟩
    · exact ⟨2, by omega, rfl⟩
    · exact ⟨3, by omega, rfl⟩

theorem notMem_writes {ws : List (Word × BitVec 8)} {a b : Word} {n : ℕ}
    (hws : ∀ w ∈ ws, ∃ k < n, w.1 = a + BitVec.ofNat 32 k)
    (hb : ∀ k < n, b ≠ a + BitVec.ofNat 32 k) : b ∉ ws.map Prod.fst := by
  intro hmem
  obtain ⟨w, hw, rfl⟩ := List.mem_map.mp hmem
  obtain ⟨k, hk, he⟩ := hws w hw
  exact hb k hk he

/-- **A store** changes no byte but those at its address. -/
theorem execStore_frame (h : memAfter (execStore s word) = some m) {b : Word}
    (hb : ∀ k < storeWidth word, b ≠ storeAddr s word + BitVec.ofNat 32 k) :
    bytes m b = bytes s.mem b := by
  obtain ⟨hB, hH, hW⟩ := writes_within (storeAddr s word) (s.reg (rs2 word))
  unfold storeWidth at hb
  unfold execStore at h
  simp only at h
  split_ifs at h hb with h0 h1 h2
  · exact storeBack_frame (.wrB _ _) rfl h (notMem_writes hB hb)
  · exact storeBack_frame (.wrH _ _) rfl h (notMem_writes hH hb)
  · exact storeBack_frame (.wrW _ _) rfl h (notMem_writes hW hb)
  · obtain rfl := Option.some.inj h
    rfl

/-! ### Loads -/

theorem memAfter_loadBack {rd : Fin 32} {r : Except Exit (Word × Memory)}
    (hok : ∀ v m, r = .ok (v, m) → bytes m = bytes s.mem)
    (herr : ∀ e, r = .error e → bytes e.mem = bytes s.mem) (h : memAfter (loadBack s rd r) = some m) :
    bytes m = bytes s.mem := by
  rcases r with e | ⟨v, m'⟩
  · obtain rfl := Option.some.inj h
    exact herr e rfl
  · obtain rfl := Option.some.inj h
    exact hok v _ rfl

theorem memoryRdH_exit {a : Word} {e : Exit} (h : memoryRdH m a = .error e) : bytes e.mem = bytes m := by
  by_cases ha : a.toNat % 2 = 0
  · rw [memoryRdH_ok m ha] at h
    exact nomatch h
  · obtain ⟨msg, he⟩ := memoryRdH_error m ha
    rw [he] at h
    obtain rfl := Except.error.inj h
    exact bytes_getPage m a

theorem memoryRdW_exit {a : Word} {e : Exit} (h : memoryRdW m a = .error e) : bytes e.mem = bytes m := by
  by_cases ha : a.toNat % 4 = 0
  · rw [memoryRdW_ok m ha] at h
    exact nomatch h
  · obtain ⟨msg, he⟩ := memoryRdW_error m ha
    rw [he] at h
    obtain rfl := Except.error.inj h
    exact bytes_getPage m a

/-- **A load** changes no byte. -/
theorem execLoad_frame (h : memAfter (execLoad s word) = some m) : bytes m = bytes s.mem := by
  unfold execLoad at h
  simp only at h
  split_ifs at h
  · exact memAfter_loadBack (fun v m hr => bytes_memoryRdB (Except.ok.inj hr)) nofun h
  · exact memAfter_loadBack (fun v m hr => bytes_memoryRdH hr) (fun e => memoryRdH_exit) h
  · exact memAfter_loadBack (fun v m hr => bytes_memoryRdW hr) (fun e => memoryRdW_exit) h
  · exact memAfter_loadBack (fun v m hr => bytes_memoryRdB (Except.ok.inj hr)) nofun h
  · exact memAfter_loadBack (fun v m hr => bytes_memoryRdH hr) (fun e => memoryRdH_exit) h
  · obtain rfl := Option.some.inj h
    rfl

/-! ### Every word -/

/-- How the iteration may end. -/
theorem execute_cases (startAddr : Word) (s : State) (word : Word) :
    (∃ msg, execute startAddr s word = .failure msg s) ∨
    (execute startAddr s word = .undefined ∧ Undefined s word) ∨
    (∃ n, execute startAddr s word = .done n s) ∨
    (∃ s', execute startAddr s word = .next s') ∨
    ∃ e, execute startAddr s word = .exit e ∧
      (opcode word = Opcode.loadInst ∨ opcode word = Opcode.storeInst) := by
  rcases execute_sorted startAddr s word with ⟨-, -, -, ho⟩ | ⟨-, hu, -, ho⟩ | ⟨-, -, -, ho⟩ | ⟨-, -, -, hp⟩
  · exact Or.inl ho
  · exact Or.inr (Or.inl ⟨ho, hu⟩)
  · exact Or.inr (Or.inr (Or.inl ⟨_, ho⟩))
  · rcases ho : execute startAddr s word with s' | ⟨n, s'⟩ | ⟨msg, s'⟩ | e | _ <;> rw [ho] at hp
    · exact Or.inr (Or.inr (Or.inr (Or.inl ⟨s', rfl⟩)))
    · exact hp.elim
    · exact hp.elim
    · exact Or.inr (Or.inr (Or.inr (Or.inr ⟨e, rfl, hp⟩)))
    · exact hp.elim

/-- The memory after a word that is no store. -/
theorem execute_mem {startAddr : Word} (h : memAfter (execute startAddr s word) = some m)
    (hop : opcode word ≠ Opcode.storeInst) : bytes m = bytes s.mem := by
  rcases execute_cases startAddr s word with ⟨msg, ho⟩ | ⟨ho, -⟩ | ⟨n, ho⟩ | ⟨s', ho⟩ | ⟨e, ho, hload | hstore⟩
  · rw [ho] at h
    obtain rfl := Option.some.inj h
    rfl
  · rw [ho] at h
    exact nomatch h
  · rw [ho] at h
    obtain rfl := Option.some.inj h
    rfl
  · rw [ho] at h
    obtain rfl := Option.some.inj h
    exact (execute_next ho).mem hop
  · rw [execute_of_loadInst hload] at h
    exact execLoad_frame h
  · exact absurd hstore hop

/-- The registers after any word. -/
theorem execute_reg {startAddr : Word} {s' : State} (h : stateAfter (execute startAddr s word) = some s')
    {r : Fin 32} (hr : target s word ≠ some r) : s'.reg r = s.reg r := by
  rcases execute_cases startAddr s word with ⟨msg, ho⟩ | ⟨ho, -⟩ | ⟨n, ho⟩ | ⟨s1, ho⟩ | ⟨e, ho, -⟩
  · rw [ho] at h
    obtain rfl := Option.some.inj h
    rfl
  · rw [ho] at h
    exact nomatch h
  · rw [ho] at h
    obtain rfl := Option.some.inj h
    rfl
  · rw [ho] at h
    obtain rfl := Option.some.inj h
    exact (execute_next ho).reg r hr
  · rw [ho] at h
    exact nomatch h

theorem undefined_of_execute {startAddr : Word} (h : execute startAddr s word = .undefined) :
    Undefined s word := by
  rcases execute_cases startAddr s word with ⟨msg, ho⟩ | ⟨-, hu⟩ | ⟨n, ho⟩ | ⟨s', ho⟩ | ⟨e, ho, -⟩
  · rw [h] at ho
    exact nomatch ho
  · exact hu
  · rw [h] at ho
    exact nomatch ho
  · rw [h] at ho
    exact nomatch ho
  · rw [h] at ho
    exact nomatch ho

theorem execute_touches (startAddr : Word) (s : State) (word : Word) :
    Touches s word (execute startAddr s word) := by
  refine ⟨fun s' hs' r hr => execute_reg hs' hr, fun m hm hop => execute_mem hm hop,
    fun m hm hop b hb => ?_, undefined_of_execute⟩
  rw [execute_of_storeInst hop] at hm
  exact execStore_frame hm hb

/-- **One iteration touches only what its word names**; one that fetches no word changes nothing. -/
theorem step_touches (startAddr : Word) (s : State) :
    (∀ word, fetched s = some word → Touches s word (step startAddr s)) ∧
    (fetched s = none → ∃ e, step startAddr s = .exit e ∧ bytes e.mem = bytes s.mem) := by
  constructor
  · intro word hf
    obtain ⟨mem, hmem, hstep⟩ := step_of_fetched startAddr hf
    rw [hstep]
    obtain ⟨hreg, hm, hstore, hu⟩ := execute_touches startAddr { s with mem := mem } word
    refine ⟨hreg, fun m h hop => (hm m h hop).trans hmem, fun m h hop b hb => ?_, hu⟩
    rw [← hmem]
    exact hstore m h hop b hb
  · intro hf
    unfold fetched at hf
    unfold step
    rcases hr : memoryRdW s.mem s.pc with e | r
    · exact ⟨e, rfl, memoryRdW_exit hr⟩
    · rw [hr] at hf
      exact nomatch hf

/-! ### Runs -/

/-- The word that is fetched names the register. -/
def Names (s : State) (r : Fin 32) : Prop := ∃ word, fetched s = some word ∧ target s word = some r

/-- The word that is fetched is a store. -/
def Stores (s : State) : Prop := ∃ word, fetched s = some word ∧ opcode word = Opcode.storeInst

/-- **A run** in which no word names the register. -/
theorem run_reg {startAddr : Word} {r : Fin 32} {n : ℕ} {t : State}
    (h : Steps (fun s s' => step startAddr s = .next s' ∧ ¬ Names s r) s n t) : t.reg r = s.reg r := by
  refine h.invariant (I := fun u => u.reg r = s.reg r) (fun u u' hu hs => ?_) rfl
  obtain ⟨hstep, hnames⟩ := hs
  obtain ⟨word, hf⟩ := fetched_of_next hstep
  have htouch := (step_next hf hstep).reg r fun hr => hnames ⟨word, hf, hr⟩
  exact htouch.trans hu

/-- **A run** without stores. -/
theorem run_bytes {startAddr : Word} {n : ℕ} {t : State}
    (h : Steps (fun s s' => step startAddr s = .next s' ∧ ¬ Stores s) s n t) : bytes t.mem = bytes s.mem := by
  refine h.invariant (I := fun u => bytes u.mem = bytes s.mem) (fun u u' hu hs => ?_) rfl
  obtain ⟨hstep, hstores⟩ := hs
  obtain ⟨word, hf⟩ := fetched_of_next hstep
  have hmem := (step_next hf hstep).mem fun hop => hstores ⟨word, hf, hop⟩
  exact hmem.trans hu

end CompSys.A5.Frame
