import CompSys.A5.PagedMemory
import CompSys.Lib.Store

/-! # The paged memory is a flat byte store

`bytes mem a` is the byte the paged memory holds at address `a`. Reads leave every byte as it is, the
page they allocate included, and compose the bytes at their address; a write at a permitted address
is a short history of byte writes (`bytes_memoryWrB`, `bytes_memoryWrH`, `bytes_memoryWrW`).

`Op` is a call of the interface and `runOps` a whole run of calls; `history` lists the byte writes of
a run, and the run's reads are those of the history (`runOps_permitted`, `runOps_exit`). -/

namespace CompSys.A5.FlatMemory

open CompSys.Lib.Bytes CompSys.Lib.Store CompSys.A5.PagedMemory

/-! ### Addresses -/

theorem pageNumber_val (a : Word) : (pageNumber a).val = a.toNat / 0x10000 := by
  have h : a.sshiftRight 16 &&& 0xffff#32 = a >>> 16 := by
    refine BitVec.eq_of_getLsbD_eq fun i hi => ?_
    interval_cases i <;> simp [BitVec.getElem_sshiftRight]
  show (a.sshiftRight 16 &&& 0xffff#32).toNat = _
  rw [h, BitVec.toNat_ushiftRight, Nat.shiftRight_eq_div_pow]

theorem wordIndex_val (a : Word) : (wordIndex a).val = a.toNat / 4 % 0x4000 := by
  have h : a.sshiftRight 2 &&& 0x3fff#32 = a >>> 2 &&& 0x3fff#32 := by
    refine BitVec.eq_of_getLsbD_eq fun i hi => ?_
    interval_cases i <;> simp [BitVec.getElem_sshiftRight]
  show (a.sshiftRight 2 &&& 0x3fff#32).toNat = _
  rw [h, BitVec.toNat_and, BitVec.toNat_ushiftRight, Nat.shiftRight_eq_div_pow]
  exact Nat.and_two_pow_sub_one_eq_mod _ 14

/-- Two addresses share a table entry when they share a word. -/
theorem same_entry {a b : Word} :
    (pageNumber a = pageNumber b ∧ wordIndex a = wordIndex b) ↔ a.toNat / 4 = b.toNat / 4 := by
  rw [Fin.ext_iff, Fin.ext_iff, pageNumber_val, pageNumber_val, wordIndex_val, wordIndex_val]
  omega

theorem and_three (a : Word) : (a &&& 3#32).toNat = a.toNat % 4 := by
  rw [BitVec.toNat_and]; exact Nat.and_two_pow_sub_one_eq_mod _ 2

theorem and_three_eq (a : Word) {k : ℕ} (hk : k < 4) :
    a &&& 3#32 = BitVec.ofNat 32 k ↔ a.toNat % 4 = k := by
  have hk' : (BitVec.ofNat 32 k).toNat = k := Nat.mod_eq_of_lt (by omega)
  rw [← BitVec.toNat_inj, and_three, hk']

theorem and_one_eq (a : Word) : a &&& 1#32 = 0#32 ↔ a.toNat % 2 = 0 := by
  have h : (a &&& 1#32).toNat = a.toNat % 2 := by
    rw [BitVec.toNat_and]; exact Nat.and_two_pow_sub_one_eq_mod _ 1
  rw [← BitVec.toNat_inj, h]
  rfl

/-- On an even address the second bit tells which half of the word it names. -/
theorem and_two_eq {a : Word} (h : a.toNat % 2 = 0) : a &&& 2#32 = 0#32 ↔ a.toNat % 4 = 0 := by
  have h1 := (and_one_eq a).mpr h
  have h3 : a &&& 3#32 = a &&& 2#32 := by
    rw [show (3#32 : Word) = 1#32 ||| 2#32 from rfl, BitVec.and_or_distrib_left, h1]
    simp
  rw [← h3]
  exact and_three_eq a (k := 0) (by omega)

/-! ### The bytes -/

/-- The word an address lies in. -/
def wordAt (mem : Memory) (a : Word) : Word :=
  match mem.pages (pageNumber a) with
  | some page => page (wordIndex a)
  | none => 0

/-- **The byte the memory holds at an address.** -/
def bytes (mem : Memory) (a : Word) : BitVec 8 := byteOf (wordAt mem a) (a.toNat % 4)

theorem bytes_memoryCreate (a : Word) : bytes memoryCreate a = 0#8 := byteOf_zero _

theorem getPage_entry (mem : Memory) (a : Word) :
    (getPage mem a).1 (wordIndex a) = wordAt mem a := by
  unfold getPage wordAt
  cases mem.pages (pageNumber a) <;> rfl

/-- Allocating a page changes no word. -/
theorem wordAt_getPage (mem : Memory) (a b : Word) :
    wordAt (getPage mem a).2 b = wordAt mem b := by
  cases hpage : mem.pages (pageNumber a) with
  | some page => simp only [getPage, hpage]
  | none =>
    simp only [getPage, hpage]
    by_cases h : pageNumber b = pageNumber a
    · simp [wordAt, h, hpage, zeroPage]
    · simp [wordAt, Function.update_of_ne h]

theorem bytes_getPage (mem : Memory) (a : Word) : bytes (getPage mem a).2 = bytes mem := by
  funext b; unfold bytes; rw [wordAt_getPage]

/-- A store to the table entry of `a` replaces the word of `a` and no other. -/
theorem wordAt_setEntry (mem : Memory) (a b d : Word) :
    wordAt (setEntry (getPage mem a).2 a (getPage mem a).1 d) b =
      if a.toNat / 4 = b.toNat / 4 then d else wordAt mem b := by
  by_cases hp : pageNumber b = pageNumber a
  · unfold setEntry
    simp only [wordAt, hp, Function.update_self]
    by_cases hi : wordIndex b = wordIndex a
    · rw [if_pos (same_entry.mp ⟨hp.symm, hi.symm⟩), hi, Function.update_self]
    · rw [if_neg fun h => hi (same_entry.mpr h).2.symm, Function.update_of_ne hi]
      cases h : mem.pages (pageNumber a) with
      | none =>
        simp only [getPage, h]
        rfl
      | some page => simp only [getPage, h]
  · rw [if_neg fun h => hp (same_entry.mpr h).1.symm, ← wordAt_getPage mem a b]
    unfold setEntry
    simp only [wordAt, Function.update_of_ne hp]

theorem bytes_setEntry (mem : Memory) (a b d : Word) :
    bytes (setEntry (getPage mem a).2 a (getPage mem a).1 d) b =
      if a.toNat / 4 = b.toNat / 4 then byteOf d (b.toNat % 4) else bytes mem b := by
  unfold bytes
  rw [wordAt_setEntry]
  split_ifs <;> rfl

/-! ### Lanes

The masks and shifts of `memory.c`, byte by byte. -/

section Lanes
variable (w d : Word)

theorem lane_byte0 : ∀ k < 4, byteOf ((w &&& 0xffffff00#32) ||| (d &&& 0xff#32)) k =
    if k = 0 then byteOf d 0 else byteOf w k := by
  intro k hk
  unfold byteOf
  refine BitVec.eq_of_getLsbD_eq fun i hi => ?_
  interval_cases k <;> interval_cases i <;> simp

theorem lane_byte1 : ∀ k < 4, byteOf ((w &&& 0xffff00ff#32) ||| ((d &&& 0xff#32) <<< 8)) k =
    if k = 1 then byteOf d 0 else byteOf w k := by
  intro k hk
  unfold byteOf
  refine BitVec.eq_of_getLsbD_eq fun i hi => ?_
  interval_cases k <;> interval_cases i <;> simp

theorem lane_byte2 : ∀ k < 4, byteOf ((w &&& 0xff00ffff#32) ||| ((d &&& 0xff#32) <<< 16)) k =
    if k = 2 then byteOf d 0 else byteOf w k := by
  intro k hk
  unfold byteOf
  refine BitVec.eq_of_getLsbD_eq fun i hi => ?_
  interval_cases k <;> interval_cases i <;> simp

theorem lane_byte3 : ∀ k < 4, byteOf ((w &&& 0x00ffffff#32) ||| ((d &&& 0xff#32) <<< 24)) k =
    if k = 3 then byteOf d 0 else byteOf w k := by
  intro k hk
  unfold byteOf
  refine BitVec.eq_of_getLsbD_eq fun i hi => ?_
  interval_cases k <;> interval_cases i <;> simp

theorem lane_half0 : ∀ k < 4, byteOf ((w &&& 0xffff0000#32) ||| (d &&& 0x0000ffff#32)) k =
    if k < 2 then byteOf d k else byteOf w k := by
  intro k hk
  unfold byteOf
  refine BitVec.eq_of_getLsbD_eq fun i hi => ?_
  interval_cases k <;> interval_cases i <;> simp

theorem lane_half1 : ∀ k < 4, byteOf ((w &&& 0x0000ffff#32) ||| (d <<< 16)) k =
    if k < 2 then byteOf w k else byteOf d (k - 2) := by
  intro k hk
  unfold byteOf
  refine BitVec.eq_of_getLsbD_eq fun i hi => ?_
  interval_cases k <;> interval_cases i <;> simp

/-- `(entry >> 8 k) & 0xff`, the shift arithmetic. -/
theorem read_byte : ∀ k < 4, w.sshiftRight (8 * k) &&& 0xff#32 = (byteOf w k).setWidth 32 := by
  intro k hk
  unfold byteOf
  refine BitVec.eq_of_getLsbD_eq fun i hi => ?_
  interval_cases k <;> interval_cases i <;> simp [BitVec.getElem_sshiftRight]

theorem read_half0 : w &&& 0xffff#32 = half (byteOf w 0) (byteOf w 1) := by
  unfold byteOf half
  refine BitVec.eq_of_getLsbD_eq fun i hi => ?_
  interval_cases i <;> simp

theorem read_half1 : w.sshiftRight 16 &&& 0xffff#32 = half (byteOf w 2) (byteOf w 3) := by
  unfold byteOf half
  refine BitVec.eq_of_getLsbD_eq fun i hi => ?_
  interval_cases i <;> simp [BitVec.getElem_sshiftRight]

end Lanes

/-! ### Writes as byte writes -/

def writesB (a d : Word) : List (Word × BitVec 8) := [(a, byteOf d 0)]

def writesH (a d : Word) : List (Word × BitVec 8) := [(a, byteOf d 0), (a + 1, byteOf d 1)]

def writesW (a d : Word) : List (Word × BitVec 8) :=
  [(a, byteOf d 0), (a + 1, byteOf d 1), (a + 2, byteOf d 2), (a + 3, byteOf d 3)]

/-- Storing `v` in the entry of `a` is a history of byte writes in the word of `a`, if `v` has the
bytes the history leaves there. -/
theorem bytes_setEntry_eq {mem : Memory} {a v : Word} {ws : List (Word × BitVec 8)}
    (hws : ∀ w ∈ ws, w.1.toNat / 4 = a.toNat / 4)
    (hv : ∀ b, b.toNat / 4 = a.toNat / 4 →
      byteOf v (b.toNat % 4) = applyWrites (bytes mem) ws b) :
    bytes (setEntry (getPage mem a).2 a (getPage mem a).1 v) = applyWrites (bytes mem) ws := by
  funext b
  rw [bytes_setEntry]
  split_ifs with hq
  · exact hv b hq.symm
  · have hnone : lastWrite? ws b = none :=
      lastWrite?_eq_none.mpr fun w hw h => hq (by rw [← hws w hw, h])
    rw [applyWrites_apply, hnone, Option.getD_none]

theorem byte_entry {mem : Memory} {a b : Word} (h : b.toNat / 4 = a.toNat / 4) :
    byteOf ((getPage mem a).1 (wordIndex a)) (b.toNat % 4) = bytes mem b := by
  rw [getPage_entry]
  unfold bytes wordAt
  rw [(same_entry.mpr h).1, (same_entry.mpr h).2]

/-- **A byte write** changes its own byte. -/
theorem bytes_memoryWrB (mem : Memory) (a d : Word) :
    bytes (memoryWrB mem a d) = applyWrites (bytes mem) (writesB a d) := by
  have hlane : ∀ (v : Word) (k : ℕ), a.toNat % 4 = k →
      (∀ j < 4, byteOf v j = if j = k then byteOf d 0 else
        byteOf ((getPage mem a).1 (wordIndex a)) j) →
      bytes (setEntry (getPage mem a).2 a (getPage mem a).1 v) =
        applyWrites (bytes mem) (writesB a d) := by
    intro v k hk hv
    refine bytes_setEntry_eq (by simp [writesB]) fun b hb => ?_
    rw [hv _ (Nat.mod_lt _ (by decide)), byte_entry hb, applyWrites_apply, writesB,
      lastWrite?_singleton]
    by_cases hab : a = b
    · subst hab; simp [hk]
    · have hne : b.toNat % 4 ≠ k := fun h => hab (BitVec.toNat_inj.mp (by omega))
      simp [hne, hab]
  have h4 : a.toNat % 4 < 4 := Nat.mod_lt _ (by decide)
  unfold memoryWrB
  simp only
  split_ifs with h0 h1 h2
  · exact hlane _ 0 ((and_three_eq a (k := 0) (by omega)).mp h0) (lane_byte0 _ d)
  · exact hlane _ 1 ((and_three_eq a (k := 1) (by omega)).mp h1) (lane_byte1 _ d)
  · exact hlane _ 2 ((and_three_eq a (k := 2) (by omega)).mp h2) (lane_byte2 _ d)
  · have e0 : ¬ a.toNat % 4 = 0 := fun h => h0 ((and_three_eq a (k := 0) (by omega)).mpr h)
    have e1 : ¬ a.toNat % 4 = 1 := fun h => h1 ((and_three_eq a (k := 1) (by omega)).mpr h)
    have e2 : ¬ a.toNat % 4 = 2 := fun h => h2 ((and_three_eq a (k := 2) (by omega)).mpr h)
    exact hlane _ 3 (by omega) (lane_byte3 _ d)

/-- A halfword write at an odd address ends the process, the memory as it was. -/
theorem memoryWrH_error (mem : Memory) {a : Word} (h : a.toNat % 2 ≠ 0) (d : Word) :
    ∃ msg, memoryWrH mem a d = .error ⟨msg, mem⟩ :=
  ⟨_, if_pos fun h' => h ((and_one_eq a).mp h')⟩

/-- **A halfword write** at an even address changes its two bytes. -/
theorem memoryWrH_ok (mem : Memory) {a : Word} (h : a.toNat % 2 = 0) (d : Word) :
    ∃ mem', memoryWrH mem a d = .ok mem' ∧ bytes mem' = applyWrites (bytes mem) (writesH a d) := by
  have h1 : (a + 1).toNat = a.toNat + 1 := by bv_omega
  have hws : ∀ w ∈ writesH a d, w.1.toNat / 4 = a.toNat / 4 := by
    simp only [writesH, List.mem_cons, List.not_mem_nil, or_false]
    rintro w (rfl | rfl)
    · rfl
    · simp only [h1]; omega
  unfold memoryWrH
  simp only
  rw [if_neg (by simpa using (and_one_eq a).mpr h)]
  by_cases h2 : a.toNat % 4 = 0
  · refine ⟨_, if_pos ((and_two_eq h).mpr h2), ?_⟩
    refine bytes_setEntry_eq hws fun b hb => ?_
    rw [lane_half0 _ d _ (Nat.mod_lt _ (by decide)), byte_entry hb, applyWrites_apply]
    have e0 : a = b ↔ b.toNat % 4 = 0 := by rw [← BitVec.toNat_inj]; omega
    have e1 : a + 1 = b ↔ b.toNat % 4 = 1 := by rw [← BitVec.toNat_inj]; omega
    simp only [writesH, lastWrite?_cons, lastWrite?_nil, e0, e1]
    have : b.toNat % 4 < 4 := Nat.mod_lt _ (by decide)
    interval_cases b.toNat % 4 <;> simp
  · refine ⟨_, if_neg (mt (and_two_eq h).mp h2), ?_⟩
    refine bytes_setEntry_eq hws fun b hb => ?_
    rw [lane_half1 _ d _ (Nat.mod_lt _ (by decide)), byte_entry hb, applyWrites_apply]
    have e0 : a = b ↔ b.toNat % 4 = 2 := by rw [← BitVec.toNat_inj]; omega
    have e1 : a + 1 = b ↔ b.toNat % 4 = 3 := by rw [← BitVec.toNat_inj]; omega
    simp only [writesH, lastWrite?_cons, lastWrite?_nil, e0, e1]
    have : b.toNat % 4 < 4 := Nat.mod_lt _ (by decide)
    interval_cases b.toNat % 4 <;> simp

/-- A word write at an address that is no multiple of 4 ends the process, the memory as it was. -/
theorem memoryWrW_error (mem : Memory) {a : Word} (h : a.toNat % 4 ≠ 0) (d : Word) :
    ∃ msg, memoryWrW mem a d = .error ⟨msg, mem⟩ :=
  ⟨_, if_pos fun h' => h ((and_three_eq a (k := 0) (by omega)).mp h')⟩

/-- **A word write** at a multiple of 4 changes its four bytes. -/
theorem memoryWrW_ok (mem : Memory) {a : Word} (h : a.toNat % 4 = 0) (d : Word) :
    ∃ mem', memoryWrW mem a d = .ok mem' ∧ bytes mem' = applyWrites (bytes mem) (writesW a d) := by
  have h1 : (a + 1).toNat = a.toNat + 1 := by bv_omega
  have h2 : (a + 2).toNat = a.toNat + 2 := by bv_omega
  have h3 : (a + 3).toNat = a.toNat + 3 := by bv_omega
  have h0 : a &&& 3#32 = 0#32 := (and_three_eq a (k := 0) (by omega)).mpr h
  unfold memoryWrW
  refine ⟨_, by rw [if_neg (by simpa using h0)], ?_⟩
  refine bytes_setEntry_eq ?_ fun b hb => ?_
  · simp only [writesW, List.mem_cons, List.not_mem_nil, or_false]
    rintro w (rfl | rfl | rfl | rfl)
    · rfl
    · simp only [h1]; omega
    · simp only [h2]; omega
    · simp only [h3]; omega
  · rw [applyWrites_apply]
    have e0 : a = b ↔ b.toNat % 4 = 0 := by rw [← BitVec.toNat_inj]; omega
    have e1 : a + 1 = b ↔ b.toNat % 4 = 1 := by rw [← BitVec.toNat_inj]; omega
    have e2 : a + 2 = b ↔ b.toNat % 4 = 2 := by rw [← BitVec.toNat_inj]; omega
    have e3 : a + 3 = b ↔ b.toNat % 4 = 3 := by rw [← BitVec.toNat_inj]; omega
    simp only [writesW, lastWrite?_cons, lastWrite?_nil, e0, e1, e2, e3]
    have : b.toNat % 4 < 4 := Nat.mod_lt _ (by decide)
    interval_cases b.toNat % 4 <;> simp

/-! ### Reads as compositions of bytes -/

theorem byteOf_entry {mem : Memory} {a : Word} (b : Word) (hb : b.toNat / 4 = a.toNat / 4)
    {k : ℕ} (hk : b.toNat % 4 = k) :
    byteOf ((getPage mem a).1 (wordIndex a)) k = bytes mem b := by
  rw [← hk]; exact byte_entry hb

theorem memoryRdB_eq (mem : Memory) (a : Word) :
    memoryRdB mem a = ((bytes mem a).setWidth 32, (getPage mem a).2) := by
  have hlane : ∀ k < 4, a.toNat % 4 = k →
      ((getPage mem a).1 (wordIndex a)).sshiftRight (8 * k) &&& 0xff#32 =
        (bytes mem a).setWidth 32 := by
    intro k hk h
    rw [read_byte _ k hk, byteOf_entry a rfl h]
  have h4 : a.toNat % 4 < 4 := Nat.mod_lt _ (by decide)
  unfold memoryRdB
  simp only
  split_ifs with h0 h1 h2
  · rw [← hlane 0 (by omega) ((and_three_eq a (k := 0) (by omega)).mp h0)]; simp
  · rw [← hlane 1 (by omega) ((and_three_eq a (k := 1) (by omega)).mp h1)]
  · rw [← hlane 2 (by omega) ((and_three_eq a (k := 2) (by omega)).mp h2)]
  · have e0 : ¬ a.toNat % 4 = 0 := fun h => h0 ((and_three_eq a (k := 0) (by omega)).mpr h)
    have e1 : ¬ a.toNat % 4 = 1 := fun h => h1 ((and_three_eq a (k := 1) (by omega)).mpr h)
    have e2 : ¬ a.toNat % 4 = 2 := fun h => h2 ((and_three_eq a (k := 2) (by omega)).mpr h)
    rw [← hlane 3 (by omega) (by omega)]

theorem memoryRdH_error (mem : Memory) {a : Word} (h : a.toNat % 2 ≠ 0) :
    ∃ msg, memoryRdH mem a = .error ⟨msg, (getPage mem a).2⟩ :=
  ⟨_, if_pos fun h' => h ((and_one_eq a).mp h')⟩

theorem memoryRdH_ok (mem : Memory) {a : Word} (h : a.toNat % 2 = 0) :
    memoryRdH mem a = .ok (half (bytes mem a) (bytes mem (a + 1)), (getPage mem a).2) := by
  have h1 : (a + 1).toNat = a.toNat + 1 := by bv_omega
  unfold memoryRdH
  simp only
  rw [if_neg (by simpa using (and_one_eq a).mpr h)]
  by_cases h2 : a.toNat % 4 = 0
  · rw [if_pos ((and_two_eq h).mpr h2), read_half0, byteOf_entry a rfl h2,
      byteOf_entry (a + 1) (by omega) (by omega)]
  · rw [if_neg (mt (and_two_eq h).mp h2), read_half1, byteOf_entry a rfl (by omega),
      byteOf_entry (a + 1) (by omega) (by omega)]

theorem memoryRdW_error (mem : Memory) {a : Word} (h : a.toNat % 4 ≠ 0) :
    ∃ msg, memoryRdW mem a = .error ⟨msg, (getPage mem a).2⟩ :=
  ⟨_, if_pos fun h' => h ((and_three_eq a (k := 0) (by omega)).mp h')⟩

theorem memoryRdW_ok (mem : Memory) {a : Word} (h : a.toNat % 4 = 0) :
    memoryRdW mem a = .ok (word (bytes mem a) (bytes mem (a + 1)) (bytes mem (a + 2))
      (bytes mem (a + 3)), (getPage mem a).2) := by
  have h1 : (a + 1).toNat = a.toNat + 1 := by bv_omega
  have h2 : (a + 2).toNat = a.toNat + 2 := by bv_omega
  have h3 : (a + 3).toNat = a.toNat + 3 := by bv_omega
  have h0 : a &&& 3#32 = 0#32 := (and_three_eq a (k := 0) (by omega)).mpr h
  unfold memoryRdW
  simp only
  rw [if_neg (by simpa using h0), ← word_byteOf ((getPage mem a).1 (wordIndex a)),
    byteOf_entry a rfl h, byteOf_entry (a + 1) (by omega) (by omega),
    byteOf_entry (a + 2) (by omega) (by omega), byteOf_entry (a + 3) (by omega) (by omega)]

end CompSys.A5.FlatMemory
