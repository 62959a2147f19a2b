import CompSys.A2.Histograms
import CompSys.Lib.Runs
import CompSys.Lib.Totals

/-! # The histogram of many threads (`A2/fhistogram-mt.c`)

Every worker takes files, counts into a histogram of its own, and merges it into the global one under the
lock, every 100000 bytes and at the end of a file; `print_histogram` is part of the same critical section.
The bytes that a worker has read since it last merged are its chunk, and its histogram is their tally
(`Inv`). So nothing is lost and nothing counted twice (`histogram_exact`). -/

namespace CompSys.A2.HistogramThreads

open CompSys.Lib.Runs CompSys.Lib.Totals CompSys.A2.Histograms

/-- Where a worker is. `rest` is what it has not read of its file, `chunk` what it has read since its last
merge, `i` is the counter of `fhistogram`. -/
inductive WorkerAt
  /-- About to take a job. -/
  | idle
  /-- At the `fread`. -/
  | reading (rest chunk : List Byte) (localHistogram : Histogram) (i : BitVec 32)
  /-- At the lock inside the loop. -/
  | chunkEnd (rest chunk : List Byte) (localHistogram : Histogram) (i : BitVec 32)
  /-- At the lock behind the loop. -/
  | fileEnd (chunk : List Byte) (localHistogram : Histogram)
  /-- `worker` has returned. -/
  | finished

def WorkerAt.rest : WorkerAt → List Byte
  | .reading rest .. | .chunkEnd rest .. => rest
  | _ => []

def WorkerAt.chunk : WorkerAt → List Byte
  | .reading _ chunk .. | .chunkEnd _ chunk .. | .fileEnd chunk _ => chunk
  | _ => []

/-- `local_histogram`, while there is one. -/
def WorkerAt.localHistogram : WorkerAt → Histogram
  | .reading _ _ h _ | .chunkEnd _ _ h _ | .fileEnd _ h => h
  | _ => fun _ => 0

/-- The files to be taken, the workers and the global histogram; and what has happened: the bytes read, the
chunks merged and the histograms printed, oldest first. -/
structure State (T : Type*) where
  todo : List (List Byte)
  workers : T → WorkerAt
  globalHistogram : Histogram
  read : List Byte
  merged : List (List Byte)
  printed : List Histogram

variable {T : Type*} [DecidableEq T]

def start (T : Type*) (files : List (List Byte)) : State T :=
  ⟨files, fun _ => .idle, fun _ => 0, [], [], []⟩

/-- A critical section: the worker's histogram is merged and the global one printed. -/
def State.merge (s : State T) (t : T) (chunk : List Byte) (h : Histogram) (next : WorkerAt) : State T :=
  { s with workers := Function.update s.workers t next
           globalHistogram := (mergeHistogram h s.globalHistogram).2
           merged := s.merged ++ [chunk]
           printed := s.printed ++ [(mergeHistogram h s.globalHistogram).2] }

/-- **A step** of worker `t`. Any file of the list may be the next in the queue. -/
inductive Step (t : T) (s : State T) : State T → Prop
  | takes {l r : List (List Byte)} {file : List Byte} (h : s.workers t = .idle)
    (hf : s.todo = l ++ file :: r) :
    Step t s { s with todo := l ++ r
                      workers := Function.update s.workers t (.reading file [] (fun _ => 0) 0) }
  | reads {c : Byte} {rest chunk : List Byte} {h : Histogram} {i : BitVec 32}
    (hw : s.workers t = .reading (c :: rest) chunk h i) :
    Step t s { s with
      workers := Function.update s.workers t
        (if atChunkEnd (i + 1) then .chunkEnd rest (chunk ++ [c]) (updateHistogram h c) (i + 1)
          else .reading rest (chunk ++ [c]) (updateHistogram h c) (i + 1))
      read := s.read ++ [c] }
  | merges {rest chunk : List Byte} {h : Histogram} {i : BitVec 32}
    (hw : s.workers t = .chunkEnd rest chunk h i) :
    Step t s (s.merge t chunk h (.reading rest [] (mergeHistogram h s.globalHistogram).1 i))
  | closes {chunk : List Byte} {h : Histogram} {i : BitVec 32} (hw : s.workers t = .reading [] chunk h i) :
    Step t s { s with workers := Function.update s.workers t (.fileEnd chunk h) }
  | mergesLast {chunk : List Byte} {h : Histogram} (hw : s.workers t = .fileEnd chunk h) :
    Step t s (s.merge t chunk h .idle)
  | finishes (h : s.workers t = .idle) (hf : s.todo = []) :
    Step t s { s with workers := Function.update s.workers t .finished }

/-- All files have been processed. -/
def State.Done (s : State T) : Prop := s.todo = [] ∧ ∀ t, s.workers t = .idle ∨ s.workers t = .finished

variable [Fintype T]

/-- **The histograms are exact**: the counters add up to the bits of what has been read, every printed
histogram counts the chunks merged until then, and in the end the result is that of the sequential program
on the files in any order. -/
structure Exact (files : List (List Byte)) (s : State T) : Prop where
  counters : ∀ b, (s.globalHistogram b).toInt + ∑ t, ((s.workers t).localHistogram b).toInt =
    (countBit b s.read : ℤ)
  printed : s.printed.length = s.merged.length ∧ ∀ k h, s.printed[k]? = some h →
    ∀ b, (h b).toInt = (countBit b (s.merged.take (k + 1)).flatten : ℤ)
  final : s.Done → ∀ order : List (List Byte), order.Perm files → s.globalHistogram = sequential order

/-- What is where. Bytes are counted by an arbitrary property. -/
structure Inv (files : List (List Byte)) (s : State T) : Prop where
  locals : ∀ t, (s.workers t).localHistogram = tally (s.workers t).chunk
  globals : s.globalHistogram = tally s.merged.flatten
  printed : s.printed = (List.range s.merged.length).map fun k => tally (s.merged.take (k + 1)).flatten
  read : ∀ p : Byte → Bool, s.read.countP p =
    s.merged.flatten.countP p + ∑ t, (s.workers t).chunk.countP p
  rest : ∀ p : Byte → Bool, s.read.countP p + ∑ t, (s.workers t).rest.countP p +
    s.todo.flatten.countP p = files.flatten.countP p

variable {files : List (List Byte)} {s s' : State T} {t : T}

omit [DecidableEq T] in
theorem inv_start (files : List (List Byte)) : Inv files (start T files) := by
  refine ⟨fun t => rfl, rfl, rfl, fun p => ?_, fun p => ?_⟩
  · simp [start, WorkerAt.chunk]
  · simp [start, WorkerAt.rest]

/-- A worker moves on, with a histogram that counts its chunk. -/
theorem Inv.locals_update (h : Inv files s) {w : WorkerAt} (hw : w.localHistogram = tally w.chunk) (i : T) :
    (Function.update s.workers t w i).localHistogram = tally (Function.update s.workers t w i).chunk := by
  by_cases hi : i = t
  · rw [hi, Function.update_self]
    exact hw
  · rw [Function.update_of_ne hi]
    exact h.locals i

/-- The prefixes of a list with one element more. -/
theorem map_prefixes_concat {A B : Type*} (f : List A → B) (l : List A) (a : A) :
    (List.range (l ++ [a]).length).map (fun k => f ((l ++ [a]).take (k + 1))) =
      (List.range l.length).map (fun k => f (l.take (k + 1))) ++ [f (l ++ [a])] := by
  rw [List.length_append, List.length_singleton, List.range_succ, List.map_append, List.map_singleton]
  congr 1
  · refine List.map_congr_left fun k hk => ?_
    rw [List.take_append_of_le_length (List.mem_range.mp hk)]
  · rw [List.take_of_length_le (by simp)]

/-- **A merge** keeps what is where: the chunk goes from the worker to the merged ones. -/
theorem Inv.merge (h : Inv files s) {chunk : List Byte} {l : Histogram} {next : WorkerAt}
    (hl : (s.workers t).localHistogram = l) (hc : (s.workers t).chunk = chunk)
    (hnext : next.localHistogram = fun _ => 0) (hchunk : next.chunk = [])
    (hrest : next.rest = (s.workers t).rest) : Inv files (s.merge t chunk l next) := by
  have hglobal : (mergeHistogram l s.globalHistogram).2 = tally (s.merged ++ [chunk]).flatten := by
    rw [← hl, h.locals t, hc, h.globals, List.flatten_append, List.flatten_singleton, tally_append]
    rfl
  refine ⟨h.locals_update (by rw [hnext, hchunk]; rfl), hglobal, ?_, fun p => ?_, fun p => ?_⟩
  · show s.printed ++ [(mergeHistogram l s.globalHistogram).2] = _
    rw [h.printed, hglobal]
    exact (map_prefixes_concat (fun l => tally l.flatten) s.merged chunk).symm
  · have htotal := total_update s.workers (fun w => w.chunk.countP p) t next
    simp only [hchunk, hc, List.countP_nil, add_zero] at htotal
    show s.read.countP p = (s.merged ++ [chunk]).flatten.countP p +
      ∑ i, (Function.update s.workers t next i).chunk.countP p
    rw [h.read p, List.flatten_append, List.flatten_singleton, List.countP_append]
    omega
  · show s.read.countP p + ∑ i, (Function.update s.workers t next i).rest.countP p + _ = _
    have htotal : ∑ i, (Function.update s.workers t next i).rest.countP p =
        ∑ i, (s.workers i).rest.countP p :=
      total_update_eq (g := fun w : WorkerAt => w.rest.countP p) (by rw [hrest])
    rw [htotal]
    exact h.rest p

/-- A worker moves on with what it has. -/
theorem Inv.moves (h : Inv files s) {next : WorkerAt} (hl : next.localHistogram = tally next.chunk)
    (hc : next.chunk = (s.workers t).chunk) (hr : next.rest = (s.workers t).rest) :
    Inv files { s with workers := Function.update s.workers t next } := by
  refine ⟨h.locals_update hl, h.globals, h.printed, fun p => ?_, fun p => ?_⟩
  · have htotal : ∑ i, (Function.update s.workers t next i).chunk.countP p =
        ∑ i, (s.workers i).chunk.countP p :=
      total_update_eq (g := fun w : WorkerAt => w.chunk.countP p) (by rw [hc])
    show s.read.countP p = _ + ∑ i, (Function.update s.workers t next i).chunk.countP p
    rw [htotal]
    exact h.read p
  · have htotal : ∑ i, (Function.update s.workers t next i).rest.countP p =
        ∑ i, (s.workers i).rest.countP p :=
      total_update_eq (g := fun w : WorkerAt => w.rest.countP p) (by rw [hr])
    show s.read.countP p + ∑ i, (Function.update s.workers t next i).rest.countP p + _ = _
    rw [htotal]
    exact h.rest p

/-- A file goes from the list to a worker. -/
theorem Inv.takes (h : Inv files s) {l r : List (List Byte)} {file : List Byte}
    (hw : s.workers t = .idle) (hf : s.todo = l ++ file :: r) :
    Inv files { s with todo := l ++ r
                       workers := Function.update s.workers t (.reading file [] (fun _ => 0) 0) } := by
  have hchunk : (s.workers t).chunk = [] := by rw [hw]; rfl
  have hrest : (s.workers t).rest = [] := by rw [hw]; rfl
  generalize hnext : WorkerAt.reading file [] (fun _ => 0) 0 = next
  refine ⟨h.locals_update (by rw [← hnext]; rfl), h.globals, h.printed, fun p => ?_, fun p => ?_⟩
  · have htotal : ∑ i, (Function.update s.workers t next i).chunk.countP p =
        ∑ i, (s.workers i).chunk.countP p :=
      total_update_eq (g := fun w : WorkerAt => w.chunk.countP p) (by rw [hchunk, ← hnext]; rfl)
    show s.read.countP p = _ + ∑ i, (Function.update s.workers t next i).chunk.countP p
    rw [htotal]
    exact h.read p
  · have htotal := total_update s.workers (fun w => w.rest.countP p) t next
    have hfile : next.rest = file := by rw [← hnext]; rfl
    simp only [hrest, hfile, List.countP_nil, add_zero] at htotal
    have hall := h.rest p
    rw [hf, List.flatten_append, List.flatten_cons, List.countP_append, List.countP_append] at hall
    show s.read.countP p + ∑ i, (Function.update s.workers t next i).rest.countP p +
      (l ++ r).flatten.countP p = _
    rw [List.flatten_append, List.countP_append]
    omega

/-- A byte goes from what is left of a file to the chunk. -/
theorem Inv.reads (h : Inv files s) {c : Byte} {rest chunk : List Byte} {next : WorkerAt}
    (hr : (s.workers t).rest = c :: rest) (hc : (s.workers t).chunk = chunk) (hrest : next.rest = rest)
    (hchunk : next.chunk = chunk ++ [c])
    (hlocal : next.localHistogram = updateHistogram (s.workers t).localHistogram c) :
    Inv files { s with workers := Function.update s.workers t next, read := s.read ++ [c] } := by
  refine ⟨h.locals_update ?_, h.globals, h.printed, fun p => ?_, fun p => ?_⟩
  · rw [hlocal, hchunk, update_tally, h.locals t, hc, tally_append]
  · have htotal := total_update s.workers (fun w => w.chunk.countP p) t next
    simp only [hc, hchunk, List.countP_append] at htotal
    have hread := h.read p
    show (s.read ++ [c]).countP p = s.merged.flatten.countP p + ∑ i, (Function.update s.workers t next i).chunk.countP p
    rw [List.countP_append]
    omega
  · have htotal := total_update s.workers (fun w => w.rest.countP p) t next
    have hcons : (c :: rest).countP p = [c].countP p + rest.countP p := by
      rw [← List.countP_append]
      rfl
    simp only [hr, hrest, hcons] at htotal
    have hall := h.rest p
    show (s.read ++ [c]).countP p + ∑ i, (Function.update s.workers t next i).rest.countP p +
      s.todo.flatten.countP p = _
    rw [List.countP_append]
    omega

/-- **Every step** keeps what is where. -/
theorem Inv.step (h : Inv files s) (hs : Step t s s') : Inv files s' := by
  cases hs with
  | takes hw hf => exact h.takes hw hf
  | @reads c rest chunk l i hw =>
    refine h.reads (show (s.workers t).rest = c :: rest by rw [hw]; rfl)
      (show (s.workers t).chunk = chunk by rw [hw]; rfl) ?_ ?_ ?_
    · split_ifs <;> rfl
    · split_ifs <;> rfl
    · rw [hw]
      split_ifs <;> rfl
  | merges hw => exact h.merge (by rw [hw]; rfl) (by rw [hw]; rfl) rfl rfl (by rw [hw]; rfl)
  | closes hw =>
    refine h.moves ?_ (by rw [hw]; rfl) (by rw [hw]; rfl)
    have hl := h.locals t
    rwa [hw] at hl
  | mergesLast hw => exact h.merge (by rw [hw]; rfl) (by rw [hw]; rfl) rfl rfl (by rw [hw]; rfl)
  | finishes hw _ => exact h.moves rfl (by rw [hw]; rfl) (by rw [hw]; rfl)

/-! ### Counters that fit -/

omit [DecidableEq T] in
/-- What has been merged, and every chunk, is a part of the files. -/
theorem Inv.lengths (h : Inv files s) : s.merged.flatten.length ≤ files.flatten.length ∧
    ∀ t, (s.workers t).chunk.length ≤ files.flatten.length := by
  have hread := h.read fun _ => true
  have hrest := h.rest fun _ => true
  simp only [List.countP_true] at hread hrest
  refine ⟨by omega, fun t => ?_⟩
  have hle : (s.workers t).chunk.length ≤ ∑ i, (s.workers i).chunk.length :=
    Finset.single_le_sum (f := fun i => (s.workers i).chunk.length) (fun _ _ => Nat.zero_le _)
      (Finset.mem_univ t)
  omega

theorem length_flatten_take_le {A : Type*} (l : List (List A)) (k : ℕ) :
    (l.take k).flatten.length ≤ l.flatten.length := by
  conv_rhs => rw [← List.take_append_drop k l]
  rw [List.flatten_append, List.length_append]
  exact Nat.le_add_right _ _

omit [DecidableEq T] in
/-- **The invariant makes the histograms exact**, as long as no counter overflows. -/
theorem Inv.exact (h : Inv files s) (hlen : files.flatten.length < 2 ^ 31) : Exact files s := by
  obtain ⟨hmerged, hchunk⟩ := h.lengths
  refine ⟨fun b => ?_, ⟨by rw [h.printed]; simp, fun k p hp b => ?_⟩, fun hdone order hperm => ?_⟩
  · have hlocals : ∑ t, ((s.workers t).localHistogram b).toInt =
        ∑ t, (countBit b (s.workers t).chunk : ℤ) :=
      Finset.sum_congr rfl fun t _ => by
        rw [h.locals t, toInt_tally (lt_of_le_of_lt (hchunk t) hlen)]
    rw [hlocals, h.globals, toInt_tally (lt_of_le_of_lt hmerged hlen)]
    exact_mod_cast (h.read _).symm
  · rw [h.printed, List.getElem?_map] at hp
    obtain ⟨j, hj, rfl⟩ := Option.map_eq_some_iff.mp hp
    obtain ⟨hk, hkj⟩ := List.getElem?_eq_some_iff.mp hj
    rw [List.getElem_range] at hkj
    subst hkj
    have hle := length_flatten_take_le s.merged (k + 1)
    exact toInt_tally (by omega) b
  · obtain ⟨htodo, hworkers⟩ := hdone
    have hnone : ∀ t, (s.workers t).rest = [] ∧ (s.workers t).chunk = [] := fun t => by
      rcases hworkers t with hw | hw
      · rw [hw]; exact ⟨rfl, rfl⟩
      · rw [hw]; exact ⟨rfl, rfl⟩
    rw [sequential_perm hperm, sequential_eq, h.globals]
    funext b
    have hread := h.read fun c => c.getLsbD b
    have hrest := h.rest fun c => c.getLsbD b
    simp only [(hnone _).1, (hnone _).2, htodo, List.countP_nil, Finset.sum_const_zero, add_zero,
      List.flatten_nil] at hread hrest
    unfold tally countBit
    rw [← hread, hrest]

/-- **The multithreaded histogram is exact**, for any worker threads and any interleaving. -/
theorem histogram_exact (files : List (List Byte)) (hlen : files.flatten.length < 2 ^ 31)
    (h : Reaches (fun s s' => ∃ t, Step t s s') (start T files) s) : Exact files s := by
  have hI : Inv files s :=
    h.invariant (I := Inv files) (fun _ _ hI ⟨_, hs⟩ => hI.step hs) (inv_start files)
  exact hI.exact hlen

/-- One worker and one file of one byte. -/
theorem histogram_exact_byte : ∃ s : State (Fin 1),
    Reaches (fun s s' => ∃ t, Step t s s') (start (Fin 1) [[65#8]]) s ∧ s.Done ∧ Exact [[65#8]] s := by
  have h1 : Steps (fun s s' => ∃ t, Step t s s') (start (Fin 1) [[65#8]]) _ _ :=
    .tail .refl ⟨0, .takes (l := []) (r := []) rfl rfl⟩
  have h2 := h1.tail ⟨0, .reads rfl⟩
  have h3 := h2.tail ⟨0, .closes rfl⟩
  have h4 := h3.tail ⟨0, .mergesLast rfl⟩
  refine ⟨_, ⟨_, h4⟩, ⟨rfl, fun t => Or.inl ?_⟩, histogram_exact [[65#8]] (by decide) ⟨_, h4⟩⟩
  obtain rfl : t = 0 := Subsingleton.elim _ _
  rfl

end CompSys.A2.HistogramThreads
