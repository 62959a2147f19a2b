import CompSys.A6.RadixRuns

/-! # The radix program

`main` reads numbers in chunks, adds those that are not negative, and for `-N` takes up to `N` numbers
in pieces of 2800 and writes each piece out. `main_output`: the output file is what the bag puts out
for the whole input, however it is cut into chunks. -/

namespace CompSys.A6.RadixMain

open CompSys.Lib CompSys.Lib.OneHot CompSys.A6.Radix CompSys.A6.RadixTree CompSys.A6.RadixHeap
open CompSys.A6.RadixRuns

/-! ### The program -/

/-- The system calls: how many numbers of `size` `write_int_buffer` appends to the file, and what
`allocate` returns in the processing of each input number. -/
structure System (P : Type) where
  written : List Word → ℕ → ℕ
  alloc : ℕ → Fresh P

variable {P : Type}

/-- `while (to_write > 0)`: the file after it. -/
def writeLoop (sys : System P) (outNumbers : List Word) : ℕ → ℤ → List Word → Option (List Word)
  | 0, _, _ => none
  | fuel + 1, toWrite, file =>
    if toWrite > 0 then
      let written := sys.written file toWrite.toNat
      writeLoop sys outNumbers fuel (toWrite - written) (file ++ outNumbers.take written)
    else some file

variable [DecidableEq P]

/-- `while (limit > 0)`: the tree and the file after it. -/
def takeLoop (sys : System P) (fuel0 : ℕ) :
    ℕ → State P → ℤ → List Word → Option (State P × List Word)
  | 0, _, _, _ => none
  | fuel + 1, s, limit, file =>
    if limit > 0 then do
      let takeMax := if limit < 2800 then limit else 2800
      let (s, outNumbers) ← takeNumbers fuel0 s takeMax.toNat
      let taken := outNumbers.length
      let file ← writeLoop sys outNumbers fuel0 taken file
      if taken = 0 then some (s, file) else takeLoop sys fuel0 fuel s (limit - taken) file
    else some (s, file)

/-- The body of the `for` loop, on input number `n`. -/
def processNumber (sys : System P) (fuel n : ℕ) (number : Word) (s : State P) (file : List Word) :
    Option (State P × List Word) :=
  if number.slt 0#32 then
    -- `-numbers[n]` overflows on the least number
    if number = BitVec.intMin 32 then none else takeLoop sys fuel fuel s (-number.toInt) file
  else do
    let s ← addNumber (sys.alloc n) number s
    some (s, file)

/-- The `for` loop over a chunk; `n` numbers were processed before. -/
def processChunk (sys : System P) (fuel : ℕ) :
    ℕ → List Word → State P → List Word → Option (State P × List Word)
  | _, [], s, file => some (s, file)
  | n, number :: numbers, s, file => do
    let (s, file) ← processNumber sys fuel n number s file
    processChunk sys fuel (n + 1) numbers s file

/-- `while (1)`, where `read_int_buffer` returns the chunks in turn and then nothing. -/
def processAll (sys : System P) (fuel : ℕ) :
    ℕ → List (List Word) → State P → List Word → Option (State P × List Word)
  | _, [], s, file => some (s, file)
  | n, chunk :: chunks, s, file =>
    if chunk.length ≤ 0 then some (s, file)
    else do
      let (s, file) ← processChunk sys fuel n chunk s file
      processAll sys fuel (n + chunk.length) chunks s file

/-- `main`, once the files are open: the output file. -/
def main (sys : System P) (fuel : ℕ) (node : P → Node P) (chunks : List (List Word)) :
    Option (List Word) := do
  let (s, file) ← processAll sys fuel 0 chunks (initial node) []
  let _ ← releaseTree fuel s s.tree
  some file

/-- An input number as a call. -/
def toCall (number : Word) : Bag.Call ℕ :=
  if number.slt 0#32 then .take (-number.toInt).toNat else .add number.toNat

/-! ### The inner loops -/

section Loops
variable {sys : System P} {s : State P} {M : Multiset ℕ} {fuel : ℕ}

omit [DecidableEq P] in
/-- With full writes one iteration writes everything. -/
theorem writeLoop_spec (hw : ∀ file size, sys.written file size = size) (hfuel : 2 ≤ fuel)
    (outNumbers file : List Word) :
    writeLoop sys outNumbers fuel outNumbers.length file = some (file ++ outNumbers) := by
  obtain ⟨fuel, rfl⟩ : ∃ i, fuel = i + 2 := ⟨fuel - 2, by omega⟩
  by_cases h : outNumbers = []
  · subst h
    simp [writeLoop]
  · have hpos : (outNumbers.length : ℤ) > 0 := by
      have := List.length_pos_iff.mpr h
      omega
    rw [writeLoop, if_pos hpos, hw]
    simp [writeLoop]

/-- **Taking in pieces of 2800** takes as if at once; the loop ends, since every iteration but the last
takes something. -/
theorem takeLoop_spec (hw : ∀ file size, sys.written file size = size) {fuel0 : ℕ}
    (hfuel0 : 32 ≤ fuel0) {limit : ℕ} (hfuel : limit < fuel) (h : Represents s M)
    (file : List Word) :
    ∃ s' out M', takeLoop sys fuel0 fuel s limit file = some (s', file ++ out) ∧
      Bag.Removes limit M (out.map BitVec.toNat) M' ∧ Represents s' M' := by
  induction fuel generalizing s M limit file with
  | zero => omega
  | succ fuel ih =>
    by_cases hl : limit = 0
    · subst hl
      refine ⟨s, [], M, ?_, ⟨by simp, .nil, by simp, fun x hx => by simp at hx⟩, h⟩
      simp [takeLoop]
    · have hpos : (limit : ℤ) > 0 := by omega
      obtain ⟨m, hm, hm1, hml⟩ : ∃ m : ℕ, (if (limit : ℤ) < 2800 then (limit : ℤ) else 2800).toNat = m ∧
          1 ≤ m ∧ m ≤ limit := by
        refine ⟨_, rfl, ?_, ?_⟩ <;> split_ifs <;> omega
      obtain ⟨s1, out1, M1, htake, hrem, h1⟩ := takeNumbers_represents hfuel0 h m
      have hwrite := writeLoop_spec hw (show 2 ≤ fuel0 by omega) out1 file
      have hlen : out1.length ≤ m := by
        have := hrem.length
        rw [List.length_map] at this
        omega
      by_cases ht : out1 = []
      · subst ht
        have hM : M = 0 := hrem.eq_zero (by omega)
        have hM1 : M1 = 0 := by
          have hs := hrem.split
          rw [hM] at hs
          simpa using hs
        subst hM hM1
        refine ⟨s1, [], 0, ?_, Bag.removes_zero limit, h1⟩
        rw [takeLoop, if_pos hpos]
        simp only [hm, htake, hwrite, Option.bind_eq_bind, Option.bind_some]
        rfl
      · have hne : ¬ out1.length = 0 := fun h0 => ht (List.length_eq_zero_iff.mp h0)
        have hlimit : limit - out1.length < fuel := by omega
        obtain ⟨s2, out2, M2, hloop, hrem2, h2⟩ := ih hlimit h1 (file ++ out1)
        refine ⟨s2, out1 ++ out2, M2, ?_, ?_, h2⟩
        · rw [takeLoop, if_pos hpos]
          have hcast : ((limit - out1.length : ℕ) : ℤ) = limit - out1.length := by omega
          rw [hcast, List.append_assoc] at hloop
          simp only [hm, htake, hwrite, Option.bind_eq_bind, Option.bind_some, if_neg hne, hloop]
        · have happ := hrem.exact.append hrem2
          rw [List.length_map, ← List.map_append] at happ
          rwa [show out1.length + (limit - out1.length) = limit by omega] at happ

end Loops

/-! ### The run -/

section Run
variable {sys : System P} {s : State P} {M : Multiset ℕ} {fuel n : ℕ}

theorem toNat_of_not_neg {v : Word} (h : ¬ v.slt 0#32 = true) : v.toNat < 2 ^ 31 := by
  rw [BitVec.slt_zero_iff_msb_cond, BitVec.msb_eq_decide] at h
  simpa using h

/-- A negative number other than the least one, and what it asks for. -/
theorem neg_of_slt {v : Word} (h : v.slt 0#32 = true) (hv : v ≠ BitVec.intMin 32) :
    ∃ k : ℕ, -v.toInt = k ∧ k < 2 ^ 31 := by
  rw [BitVec.slt_zero_iff_msb_cond, BitVec.msb_eq_decide] at h
  have hge : 2 ^ 31 ≤ v.toNat := by simpa using h
  have hne : v.toNat ≠ 2 ^ 31 := fun he => hv (BitVec.toNat_inj.mp (by rw [he]; decide))
  have hlt := v.isLt
  refine ⟨2 ^ 32 - v.toNat, ?_, by omega⟩
  rw [BitVec.toInt_eq_toNat_cond, if_neg (by omega)]
  omega

/-- **One input number** is one call of the bag; what a `take` returns is appended to the file. -/
theorem processNumber_spec (hw : ∀ file size, sys.written file size = size) (hfuel : 2 ^ 31 ≤ fuel)
    {number : Word} (hmin : number ≠ BitVec.intMin 32) (h : Represents s M)
    (hcard : Multiset.card M + 1 < 2 ^ 31) (file : List Word) :
    ∃ s' out outs M', processNumber sys fuel n number s file = some (s', file ++ out) ∧
      Bag.Run M [toCall number] outs M' ∧ out.map BitVec.toNat = outs.flatten ∧ Represents s' M' := by
  unfold processNumber toCall
  by_cases hneg : number.slt 0#32 = true
  · obtain ⟨k, hk, hk'⟩ := neg_of_slt hneg hmin
    obtain ⟨s', out, M', hloop, hrem, h'⟩ := takeLoop_spec hw (show 32 ≤ fuel by omega)
      (show k < fuel by omega) h file
    refine ⟨s', out, [out.map BitVec.toNat], M', ?_, ?_, by simp, h'⟩
    · rw [if_pos hneg, if_neg hmin, hk, hloop]
    · rw [if_pos hneg, hk, Int.toNat_natCast]
      exact .take hrem (.nil M')
  · have hc : M.count number.toNat + 1 < 2 ^ 31 := by
      have := Multiset.count_le_card number.toNat M
      omega
    obtain ⟨s', hadd, h'⟩ := addNumber_represents (sys.alloc n) h (toNat_of_not_neg hneg) hc
    refine ⟨s', [], [], _, ?_, ?_, rfl, h'⟩
    · rw [if_neg hneg, hadd]
      simp
    · rw [if_neg hneg]
      exact .add (.nil _)

/-- **A chunk**, number by number. -/
theorem processChunk_spec (hw : ∀ file size, sys.written file size = size) (hfuel : 2 ^ 31 ≤ fuel)
    (numbers : List Word) (hmin : ∀ v ∈ numbers, v ≠ BitVec.intMin 32) (h : Represents s M)
    (hcard : Multiset.card M + numbers.length < 2 ^ 31) (file : List Word) :
    ∃ s' out outs M', processChunk sys fuel n numbers s file = some (s', file ++ out) ∧
      Bag.Run M (numbers.map toCall) outs M' ∧ out.map BitVec.toNat = outs.flatten ∧
      Represents s' M' := by
  induction numbers generalizing s M n file with
  | nil => exact ⟨s, [], [], M, by simp [processChunk], .nil M, rfl, h⟩
  | cons number numbers ih =>
    rw [List.length_cons] at hcard
    obtain ⟨s1, out1, outs1, M1, hp, hrun1, hout1, h1⟩ := processNumber_spec (n := n) hw hfuel
      (hmin number List.mem_cons_self) h (by omega) file
    have hle := hrun1.card_le
    rw [List.length_singleton] at hle
    obtain ⟨s2, out2, outs2, M2, hc, hrun2, hout2, h2⟩ := ih (n := n + 1)
      (fun v hv => hmin v (List.mem_cons_of_mem _ hv)) h1 (by omega) (file ++ out1)
    refine ⟨s2, out1 ++ out2, outs1 ++ outs2, M2, ?_, hrun1.append hrun2, ?_, h2⟩
    · simp only [processChunk, hp, hc, Option.bind_eq_bind, Option.bind_some, List.append_assoc]
    · rw [List.map_append, List.flatten_append, hout1, hout2]

/-- **The chunks one after the other** are one list of numbers. -/
theorem processAll_spec (hw : ∀ file size, sys.written file size = size) (hfuel : 2 ^ 31 ≤ fuel)
    (chunks : List (List Word)) (hchunks : ∀ c ∈ chunks, 1 ≤ c.length)
    (hmin : ∀ v ∈ chunks.flatten, v ≠ BitVec.intMin 32) (h : Represents s M)
    (hcard : Multiset.card M + chunks.flatten.length < 2 ^ 31) (file : List Word) :
    ∃ s' out outs M', processAll sys fuel n chunks s file = some (s', file ++ out) ∧
      Bag.Run M (chunks.flatten.map toCall) outs M' ∧ out.map BitVec.toNat = outs.flatten ∧
      Represents s' M' := by
  induction chunks generalizing s M n file with
  | nil => exact ⟨s, [], [], M, by simp [processAll], .nil M, rfl, h⟩
  | cons chunk chunks ih =>
    rw [List.flatten_cons, List.length_append] at hcard
    rw [List.flatten_cons] at hmin ⊢
    have hlen := hchunks chunk List.mem_cons_self
    obtain ⟨s1, out1, outs1, M1, hp, hrun1, hout1, h1⟩ := processChunk_spec (n := n) hw hfuel chunk
      (fun v hv => hmin v (List.mem_append_left _ hv)) h (by omega) file
    have hle := hrun1.card_le
    rw [List.length_map] at hle
    obtain ⟨s2, out2, outs2, M2, hc, hrun2, hout2, h2⟩ := ih (n := n + chunk.length)
      (fun c hc => hchunks c (List.mem_cons_of_mem _ hc))
      (fun v hv => hmin v (List.mem_append_right _ hv)) h1 (by omega) (file ++ out1)
    refine ⟨s2, out1 ++ out2, outs1 ++ outs2, M2, ?_, ?_, ?_, h2⟩
    · simp only [processAll, if_neg (show ¬ chunk.length ≤ 0 by omega), hp, hc, Option.bind_eq_bind,
        Option.bind_some, List.append_assoc]
    · rw [List.map_append]
      exact hrun1.append hrun2
    · rw [List.map_append, List.flatten_append, hout1, hout2]

/-- **`release_tree` gives back every node of a tree.** -/
theorem releaseTree_spec {t : Tree} {x : Option P} {F : Finset P} {b q : ℕ} (h : Repr s x t F)
    (hwf : t.Wf b q) (hb : b ≤ 31) (hfuel : b < fuel) :
    ∃ s', releaseTree fuel s x = some s' ∧ s'.live = s.live \ F ∧ s'.node = s.node := by
  induction t generalizing s x F b q fuel with
  | empty =>
    obtain ⟨fuel, rfl⟩ : ∃ i, fuel = i + 1 := ⟨fuel - 1, by omega⟩
    cases h
    exact ⟨s, rfl, by simp, rfl⟩
  | leaf n c0 c1 =>
    obtain ⟨fuel, rfl⟩ : ∃ i, fuel = i + 1 := ⟨fuel - 1, by omega⟩
    cases h with
    | @leaf p n k0 k1 hlive hnode =>
    have hslt : (1#32 : Word).slt 1#32 = false := by decide
    refine ⟨{ s with live := s.live.erase p }, ?_, Finset.erase_eq s.live p, rfl⟩
    simp [releaseTree, load_eq hlive, hnode, State.release, hlive]
  | interior k n z o ihz iho =>
    obtain ⟨fuel, rfl⟩ : ∃ i, fuel = i + 1 := ⟨fuel - 1, by omega⟩
    obtain ⟨hk, hkb, -, hz, ho, -⟩ := hwf
    cases h with
    | @interior p _ n x0 x1 _ _ F0 F1 hlive hnode h0 h1 hp hd =>
    have hp' : p ∉ F0 ∧ p ∉ F1 := by simpa using hp
    obtain ⟨s1, hrel1, hlive1, hnode1⟩ := ihz h0 hz (by omega) (show k < fuel by omega)
    have hp1 : p ∈ s1.live := by rw [hlive1]; exact Finset.mem_sdiff.mpr ⟨hlive, hp'.1⟩
    have h1' : Repr s1 x1 o F1 := by
      refine h1.congr fun q hq => ⟨?_, by rw [hnode1]⟩
      rw [hlive1]
      exact Finset.mem_sdiff.mpr ⟨h1.subset hq, Finset.disjoint_right.mp hd hq⟩
    obtain ⟨s2, hrel2, hlive2, hnode2⟩ := iho h1' ho (by omega) (show k < fuel by omega)
    have hp2 : p ∈ s2.live := by rw [hlive2]; exact Finset.mem_sdiff.mpr ⟨hp1, hp'.2⟩
    have hslt : (1#32 : Word).slt (oneHot k) = true :=
      (oneHot_slt (show 0 < 31 by omega) (show k < 31 by omega)).trans (by simp; omega)
    refine ⟨{ s2 with live := s2.live.erase p }, ?_, ?_, hnode2.trans hnode1⟩
    · have hload1 : s1.load p = some ⟨oneHot k, n, .interior x0 x1⟩ := by
        rw [load_eq hp1, hnode1, hnode]
      have hzero : (Payload.interior x0 x1).get false = some x0 := rfl
      have hone : (Payload.interior x0 x1).get true = some x1 := rfl
      simp only [releaseTree, load_eq hlive, hload1, hnode, hslt, if_true, hzero, hone, hrel1, hrel2,
        State.release, if_pos hp2, Option.bind_eq_bind, Option.bind_some]
    · rw [hlive2, hlive1]
      ext q
      simp only [Finset.mem_erase, Finset.mem_sdiff, Finset.mem_insert, Finset.mem_union]
      tauto

/-- **The output file is what the bag puts out**, whatever the chunks: for fewer than `2^31` input
numbers, none of them the least one, and with full writes, the program ends and has written, for each
`-N`, the `N` smallest numbers then in the bag. -/
theorem main_output (sys : System P) (hw : ∀ file size, sys.written file size = size) {fuel : ℕ}
    (hfuel : 2 ^ 31 ≤ fuel) (node : P → Node P) (chunks : List (List Word))
    (hchunks : ∀ c ∈ chunks, 1 ≤ c.length ∧ c.length ≤ 2800)
    (hlen : chunks.flatten.length < 2 ^ 31)
    (hmin : ∀ v ∈ chunks.flatten, v ≠ BitVec.intMin 32) :
    ∃ file outs M, main sys fuel node chunks = some file ∧
      Bag.Run 0 (chunks.flatten.map toCall) outs M ∧ file.map BitVec.toNat = outs.flatten := by
  obtain ⟨s, out, outs, M, hall, hrun, hout, h⟩ := processAll_spec (n := 0) hw hfuel chunks
    (fun c hc => (hchunks c hc).1) hmin (represents_initial node)
    (by rw [Multiset.card_zero]; omega) []
  obtain ⟨t, hh, hwf, -⟩ := h
  have hfuel31 : 31 < fuel := by omega
  obtain ⟨s', hrel, -, -⟩ := releaseTree_spec hh.repr hwf (le_refl 31) hfuel31
  refine ⟨out, outs, M, ?_, hrun, hout⟩
  simp only [main, hall, hrel, Option.bind_eq_bind, Option.bind_some, List.nil_append]

/-- Two chunks, with a number taken across them, by `main_output`. -/
theorem main_output_two_chunks :
    ∃ file outs M, main ⟨fun _ size => size, fun _ => nextFree⟩ (2 ^ 31)
        (fun _ => ⟨0#32, 0#32, .leaf 0#32 0#32⟩) [[5#32, 3#32], [-1#32]] = some file ∧
      Bag.Run 0 [.add 5, .add 3, .take 1] outs M ∧ file.map BitVec.toNat = outs.flatten := by
  have hcalls : [[5#32, 3#32], [-1#32]].flatten.map toCall = [.add 5, .add 3, .take 1] := rfl
  rw [← hcalls]
  refine main_output ⟨fun _ size => size, fun _ => nextFree⟩ (fun _ _ => rfl) (Nat.le_refl _) _ _
    (by decide) (by decide) fun v hv => ?_
  have hv' : v = 5#32 ∨ v = 3#32 ∨ v = -1#32 := by simpa using hv
  rcases hv' with rfl | rfl | rfl <;> decide

end Run

end CompSys.A6.RadixMain
