import Mathlib.Tactic

/-! # Bit histograms (`A2/histogram.h`, `A2/fhistogram.c`)

A histogram counts, for each of the eight bits, the bytes that have it set. The sequential program adds up
one file after the other; its result is the count over all of them (`sequential_eq`), modulo `2^32`. -/

namespace CompSys.A2.Histograms

abbrev Byte := BitVec 8

/-- `int histogram[8]`. -/
abbrev Histogram := Fin 8 → BitVec 32

/-- `update_histogram`. -/
def updateHistogram (h : Histogram) (byte : Byte) : Histogram := fun i =>
  if byte &&& (1#8 <<< (i : ℕ)) ≠ 0#8 then h i + 1 else h i

/-- `merge_histogram`: `from` and `to` afterwards. -/
def mergeHistogram (fromHistogram toHistogram : Histogram) : Histogram × Histogram :=
  (fun _ => 0, fun i => toHistogram i + fromHistogram i)

/-- `i % 100000 == 0`. -/
def atChunkEnd (i : BitVec 32) : Bool := i.srem 100000#32 = 0#32

/-- The `while` of `fhistogram`, with `i`, `local_histogram` and `global_histogram`. -/
def readFile (i : BitVec 32) (localHistogram globalHistogram : Histogram) :
    List Byte → Histogram × Histogram
  | [] => (localHistogram, globalHistogram)
  | c :: cs =>
    let i := i + 1
    let localHistogram := updateHistogram localHistogram c
    if atChunkEnd i then
      let merged := mergeHistogram localHistogram globalHistogram
      readFile i merged.1 merged.2 cs
    else readFile i localHistogram globalHistogram cs

/-- `fhistogram` of `fhistogram.c` on a readable file: `global_histogram` afterwards. -/
def fhistogram (globalHistogram : Histogram) (file : List Byte) : Histogram :=
  let read := readFile 0 (fun _ => 0) globalHistogram file
  (mergeHistogram read.1 read.2).2

/-- `main` of `fhistogram.c` on readable files. -/
def sequential (files : List (List Byte)) : Histogram := files.foldl fhistogram fun _ => 0

/-! ### Counts -/

/-- The number of bytes with bit `b` set. -/
def countBit (b : Fin 8) (bytes : List Byte) : ℕ := bytes.countP fun c => c.getLsbD b

/-- The histogram of some bytes, as far as it fits. -/
def tally (bytes : List Byte) : Histogram := fun b => BitVec.ofNat 32 (countBit b bytes)

theorem countBit_le (b : Fin 8) (bytes : List Byte) : countBit b bytes ≤ bytes.length := List.countP_le_length

@[simp] theorem countBit_append (b : Fin 8) (l r : List Byte) :
    countBit b (l ++ r) = countBit b l + countBit b r := List.countP_append

@[simp] theorem tally_nil : tally [] = fun _ => 0 := rfl

@[simp] theorem tally_append (l r : List Byte) : tally (l ++ r) = fun b => tally l b + tally r b := by
  funext b
  simp only [tally, countBit_append, BitVec.ofNat_add]

/-- A count that fits. -/
theorem toInt_tally {bytes : List Byte} (h : bytes.length < 2 ^ 31) (b : Fin 8) :
    (tally bytes b).toInt = countBit b bytes := by
  have hle := countBit_le b bytes
  have hnat : (tally bytes b).toNat = countBit b bytes := by
    rw [tally, BitVec.toNat_ofNat, Nat.mod_eq_of_lt (by omega)]
  rw [BitVec.toInt_eq_toNat_of_lt (by omega), hnat]

theorem bit_set (c : Byte) (i : Fin 8) : c &&& (1#8 <<< (i : ℕ)) ≠ 0#8 ↔ c.getLsbD i = true := by
  revert c
  fin_cases i <;> decide

/-- **A byte is counted.** -/
theorem update_tally (h : Histogram) (c : Byte) : updateHistogram h c = fun i => h i + tally [c] i := by
  funext i
  have hone : countBit i [c] = if c.getLsbD i then 1 else 0 := by
    simp [countBit, List.countP_cons]
  unfold updateHistogram tally
  rw [hone]
  by_cases hc : c.getLsbD i
  · rw [if_pos ((bit_set c i).mpr hc), if_pos hc]
    rfl
  · rw [if_neg fun h => hc ((bit_set c i).mp h), if_neg hc]
    exact (BitVec.add_zero _).symm

/-! ### The sequential program -/

/-- What is in the two histograms together grows by what is read. -/
theorem readFile_sum (file : List Byte) (i : BitVec 32) (l g : Histogram) (b : Fin 8) :
    (readFile i l g file).2 b + (readFile i l g file).1 b = g b + l b + tally file b := by
  induction file generalizing i l g with
  | nil => simp [readFile]
  | cons c cs ih =>
    have hcons : tally (c :: cs) b = tally [c] b + tally cs b := congrFun (tally_append [c] cs) b
    unfold readFile
    simp only
    split_ifs
    · simp only [ih, hcons, update_tally, mergeHistogram]
      ac_rfl
    · simp only [ih, hcons, update_tally]
      ac_rfl

theorem fhistogram_eq (g : Histogram) (file : List Byte) :
    fhistogram g file = fun b => g b + tally file b := by
  funext b
  have hsum := readFile_sum file 0 (fun _ => 0) g b
  show (readFile 0 (fun _ => 0) g file).2 b + (readFile 0 (fun _ => 0) g file).1 b = _
  rw [hsum]
  simp

/-- **The sequential program counts all bytes.** -/
theorem sequential_eq (files : List (List Byte)) : sequential files = tally files.flatten := by
  have hfold : ∀ (fs : List (List Byte)) (g : Histogram),
      fs.foldl fhistogram g = fun b => g b + tally fs.flatten b := by
    intro fs
    induction fs with
    | nil => intro g; simp
    | cons f fs ih =>
      intro g
      rw [List.foldl_cons, ih, fhistogram_eq, List.flatten_cons, tally_append]
      funext b
      exact BitVec.add_assoc _ _ _
  rw [sequential, hfold]
  simp

/-- The order of the files does not matter. -/
theorem sequential_perm {files files' : List (List Byte)} (h : files.Perm files') :
    sequential files = sequential files' := by
  rw [sequential_eq, sequential_eq]
  funext b
  unfold tally countBit
  rw [(h.flatten).countP_eq]

end CompSys.A2.Histograms
