import CompSys.A5.FlatMemory

/-! # Whole runs of memory calls

`Op` is one call of the interface of `A5/src/memory.h`, `runOps` a sequence of them. What a run must
return is said without the pages: `history` is the list of the byte writes of the calls, and a read
returns the zero-extended little-endian composition of the bytes last written at its addresses, `0`
where nothing was (`Op.result`, `results`). `memory_refines_store` says that it does. -/

namespace CompSys.A5.MemoryRuns

open CompSys.Lib.Bytes CompSys.Lib.Store CompSys.A5.PagedMemory CompSys.A5.FlatMemory

/-- A call of the interface. -/
inductive Op
  | wrB (addr data : Word)
  | wrH (addr data : Word)
  | wrW (addr data : Word)
  | rdB (addr : Word)
  | rdH (addr : Word)
  | rdW (addr : Word)
  deriving DecidableEq

namespace Op

/-- The alignment the call asks for. -/
def Permitted : Op → Prop
  | wrB _ _ | rdB _ => True
  | wrH a _ | rdH a => a.toNat % 2 = 0
  | wrW a _ | rdW a => a.toNat % 4 = 0

instance : DecidablePred Permitted := fun op => by
  cases op <;> unfold Permitted <;> infer_instance

/-- The byte writes of a call. -/
def writes : Op → List (Word × BitVec 8)
  | wrB a d => writesB a d
  | wrH a d => writesH a d
  | wrW a d => writesW a d
  | _ => []

/-- What a read returns when the store holds `f`. -/
def result (f : Word → BitVec 8) : Op → Option Word
  | rdB a => some ((f a).setWidth 32)
  | rdH a => some (half (f a) (f (a + 1)))
  | rdW a => some (word (f a) (f (a + 1)) (f (a + 2)) (f (a + 3)))
  | _ => none

end Op

/-- The call on the paged memory: what it returns, if it is a read, and the memory after it. -/
def call (mem : Memory) : Op → Except Exit (Option Word × Memory)
  | .wrB a d => .ok (none, memoryWrB mem a d)
  | .wrH a d => (memoryWrH mem a d).map (none, ·)
  | .wrW a d => (memoryWrW mem a d).map (none, ·)
  | .rdB a => .ok (some (memoryRdB mem a).1, (memoryRdB mem a).2)
  | .rdH a => (memoryRdH mem a).map fun r => (some r.1, r.2)
  | .rdW a => (memoryRdW mem a).map fun r => (some r.1, r.2)

/-- A sequence of calls: the values its reads return, and the memory at the end. -/
def runOps (mem : Memory) : List Op → Except Exit (List Word × Memory)
  | [] => .ok ([], mem)
  | op :: ops =>
    match call mem op with
    | .error e => .error e
    | .ok (v, mem) => (runOps mem ops).map fun r => (v.toList ++ r.1, r.2)

/-! ### What a run must return -/

/-- The byte writes of a sequence of calls, oldest first. -/
def history (ops : List Op) : List (Word × BitVec 8) := ops.flatMap Op.writes

/-- **The values the reads of `ops` must return** after the calls `past`: each composes the bytes
most recently written at its addresses. -/
def results : List Op → List Op → List Word
  | _, [] => []
  | past, op :: ops =>
    (op.result (lastWritten 0#8 (history past))).toList ++ results (past ++ [op]) ops

theorem history_append (ops ops' : List Op) : history (ops ++ ops') = history ops ++ history ops' :=
  List.flatMap_append

/-! ### One call -/

/-- **A permitted call** returns what the bytes say and makes its byte writes. -/
theorem call_permitted (mem : Memory) {op : Op} (h : op.Permitted) :
    ∃ mem', call mem op = .ok (op.result (bytes mem), mem') ∧
      bytes mem' = applyWrites (bytes mem) op.writes := by
  cases op with
  | wrB a d => exact ⟨_, rfl, bytes_memoryWrB mem a d⟩
  | wrH a d =>
    obtain ⟨mem', hok, hb⟩ := memoryWrH_ok mem h d
    exact ⟨mem', by simp only [call, hok]; rfl, hb⟩
  | wrW a d =>
    obtain ⟨mem', hok, hb⟩ := memoryWrW_ok mem h d
    exact ⟨mem', by simp only [call, hok]; rfl, hb⟩
  | rdB a => exact ⟨_, by simp only [call, memoryRdB_eq]; rfl, bytes_getPage mem a⟩
  | rdH a => exact ⟨_, by simp only [call, memoryRdH_ok mem h]; rfl, bytes_getPage mem a⟩
  | rdW a => exact ⟨_, by simp only [call, memoryRdW_ok mem h]; rfl, bytes_getPage mem a⟩

/-- **A call at another address** ends the process, every byte as it was. -/
theorem call_exit (mem : Memory) {op : Op} (h : ¬ op.Permitted) :
    ∃ e, call mem op = .error e ∧ bytes e.mem = bytes mem := by
  cases op with
  | wrB a d => exact absurd trivial h
  | wrH a d =>
    obtain ⟨msg, he⟩ := memoryWrH_error mem h d
    exact ⟨_, by simp only [call, he]; rfl, rfl⟩
  | wrW a d =>
    obtain ⟨msg, he⟩ := memoryWrW_error mem h d
    exact ⟨_, by simp only [call, he]; rfl, rfl⟩
  | rdB a => exact absurd trivial h
  | rdH a =>
    obtain ⟨msg, he⟩ := memoryRdH_error mem h
    exact ⟨_, by simp only [call, he]; rfl, bytes_getPage mem a⟩
  | rdW a =>
    obtain ⟨msg, he⟩ := memoryRdW_error mem h
    exact ⟨_, by simp only [call, he]; rfl, bytes_getPage mem a⟩

/-- A call changes no byte but those it writes. -/
theorem call_frame {mem mem' : Memory} {op : Op} {v : Option Word}
    (h : call mem op = .ok (v, mem')) {b : Word} (hb : b ∉ op.writes.map Prod.fst) :
    bytes mem' b = bytes mem b := by
  by_cases hp : op.Permitted
  · obtain ⟨mem'', hok, hbytes⟩ := call_permitted mem hp
    rw [hok] at h
    cases h
    have hnone : lastWrite? op.writes b = none :=
      lastWrite?_eq_none.mpr fun w hw he => hb (List.mem_map.mpr ⟨w, hw, he⟩)
    rw [hbytes, applyWrites_apply, hnone, Option.getD_none]
  · obtain ⟨e, he, -⟩ := call_exit mem hp
    rw [he] at h
    cases h

/-! ### Runs -/

theorem runOps_append (mem : Memory) (ops ops' : List Op) :
    runOps mem (ops ++ ops') =
      match runOps mem ops with
      | .error e => .error e
      | .ok (vs, mem) => (runOps mem ops').map fun r => (vs ++ r.1, r.2) := by
  induction ops generalizing mem with
  | nil =>
    simp only [List.nil_append, runOps]
    cases runOps mem ops' <;> rfl
  | cons op ops ih =>
    simp only [List.cons_append, runOps]
    cases call mem op with
    | error e => rfl
    | ok r =>
      simp only [ih]
      cases runOps r.2 ops with
      | error e => rfl
      | ok r' =>
        simp only [Except.map]
        cases runOps r'.2 ops' <;> simp [List.append_assoc]

/-- **A permitted run**, from any memory whose bytes are those of the calls made before. -/
theorem runOps_permitted {mem : Memory} {past ops : List Op}
    (hmem : bytes mem = lastWritten 0#8 (history past)) (h : ∀ op ∈ ops, op.Permitted) :
    ∃ mem', runOps mem ops = .ok (results past ops, mem') ∧
      bytes mem' = lastWritten 0#8 (history (past ++ ops)) := by
  induction ops generalizing mem past with
  | nil => exact ⟨mem, rfl, by rw [List.append_nil]; exact hmem⟩
  | cons op ops ih =>
    obtain ⟨mem1, h1, hb1⟩ := call_permitted mem (h op (by simp))
    have hb1' : bytes mem1 = lastWritten 0#8 (history (past ++ [op])) := by
      rw [hb1, hmem, history_append]
      funext a
      rw [applyWrites_apply, lastWritten_append]
      simp [history]
    obtain ⟨mem2, h2, hb2⟩ := ih hb1' fun o ho => h o (List.mem_cons_of_mem _ ho)
    refine ⟨mem2, ?_, by rw [hb2]; simp⟩
    simp only [runOps, h1, h2, results, hmem]
    rfl

theorem bytes_create : bytes memoryCreate = lastWritten 0#8 (history []) := by
  funext a; exact bytes_memoryCreate a

/-- **The paged memory refines a flat byte store.** Every run of permitted calls on a fresh memory
returns from each read the little-endian composition of the bytes most recently written, `0` where
nothing was written; a call at an address that is not permitted ends the process with the bytes as
the calls before it left them; and no call changes a byte it does not write, so a read changes
none. -/
theorem memory_refines_store (ops : List Op) :
    ((∀ op ∈ ops, op.Permitted) →
      (∃ mem, runOps memoryCreate ops = .ok (results [] ops, mem) ∧
        bytes mem = lastWritten 0#8 (history ops)) ∧
      ∀ op rest, ¬ op.Permitted → ∃ e, runOps memoryCreate (ops ++ op :: rest) = .error e ∧
        bytes e.mem = lastWritten 0#8 (history ops)) ∧
    ∀ mem op v mem', call mem op = .ok (v, mem') →
      ∀ b, b ∉ op.writes.map Prod.fst → bytes mem' b = bytes mem b := by
  refine ⟨fun h => ?_, fun mem op v mem' hc b hb => call_frame hc hb⟩
  obtain ⟨mem, hrun, hb⟩ := runOps_permitted bytes_create h
  refine ⟨⟨mem, hrun, hb⟩, fun op rest hop => ?_⟩
  obtain ⟨e, he, hbe⟩ := call_exit mem hop
  refine ⟨e, ?_, by rw [hbe, hb]; rfl⟩
  simp only [runOps_append, hrun, runOps, he]
  rfl

/-- Overlapping writes of all widths on the highest page, and a read of a page never written. -/
example :
    (runOps memoryCreate [.wrW 0xfffffffc#32 0x11223344#32, .wrH 0xfffffffe#32 0xaabb#32,
      .rdB 0x80#32, .wrB 0xfffffffd#32 0xcc#32, .rdW 0xfffffffc#32]).toOption.map Prod.fst =
      some [0#32, 0xaabbcc44#32] := by decide

end CompSys.A5.MemoryRuns
