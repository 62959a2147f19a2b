import CompSys.A5.AssemblyFills

/-! # The loaded image

The memory after loading is the image of the sections if and only if the bytes that rows add behind a section do
no harm (`holdsImage_iff`): each is the right byte anyway, or is written over by a section that is dumped
later or by an instruction of the listing. With the room for strings and the assembly table this is the exact
condition under which a program is loaded (`loads_iff`). -/

namespace CompSys.A5.LoadImage

open CompSys.Lib.Scanf CompSys.Lib.Store CompSys.A5.PagedMemory CompSys.A5.AssemblyTable CompSys.A5.ReadExec
open CompSys.A5.Objdump CompSys.A5.LoadRows CompSys.A5.LoadText CompSys.A5.FlatMemory

variable {room : ℕ} {p : Program} {s t : Section} {x a : Word} {v : Byte} {vs : List Byte}

/-- **The image of a program**: the bytes of the sections at their addresses, and zero everywhere else. -/
structure HoldsImage (p : Program) (f : Word → Byte) : Prop where
  sections : ∀ s ∈ p.sections, ∀ i v, s.bytes[i]? = some v → f (s.start + BitVec.ofNat 32 i) = v
  outside : ∀ x, (∀ s ∈ p.sections, ¬ s.Covers x) → f x = 0#8

/-- **The program is loaded**: the loader returns its start address, and the memory holds its image. -/
def Loads (room : ℕ) (p : Program) : Prop :=
  ∃ st, readExec room memoryCreate assemblyCreate p.name (some (dis p)) = .ok st ∧ st.startAddr = p.start ∧
    HoldsImage p (FlatMemory.bytes st.mem)

/-- The byte of the image at `x`. -/
def RightByte (p : Program) (x : Word) (v : Byte) : Prop :=
  (∃ s ∈ p.sections, ∃ i, s.bytes[i]? = some v ∧ x = s.start + BitVec.ofNat 32 i) ∨
    (∀ s ∈ p.sections, ¬ s.Covers x) ∧ v = 0#8

/-- An instruction of the listing lies over the address. -/
def Lists (p : Program) (x : Word) : Prop :=
  ∃ offset inside aligned disassembly line short,
    Listed.insn offset inside aligned disassembly line short ∈ p.listing ∧
      (insnAddr p.text offset).toNat ≤ x.toNat ∧ x.toNat < (insnAddr p.text offset).toNat + 4

/-- **The bytes behind the sections do no harm.** -/
def Harmless (p : Program) : Prop :=
  ∀ before s after, p.sections = before ++ s :: after → ∀ j v, (overrunOf s)[j]? = some v →
    let x := s.start + BitVec.ofNat 32 (s.bytes.length + j)
    (∃ t ∈ after, t.Covers x) ∨ Lists p x ∨ RightByte p x v

/-! ### What is written -/

theorem mem_stretch : (x, v) ∈ stretch a vs ↔ ∃ i, vs[i]? = some v ∧ x = a + BitVec.ofNat 32 i := by
  induction vs generalizing a with
  | nil => exact iff_of_false List.not_mem_nil (by simp)
  | cons b vs ih =>
    rw [stretch, List.mem_cons, Prod.mk.injEq, ih]
    constructor
    · rintro (⟨rfl, rfl⟩ | ⟨i, hi, rfl⟩)
      · exact ⟨0, rfl, (BitVec.add_zero _).symm⟩
      · exact ⟨i + 1, hi, succ_add_ofNat a i⟩
    · rintro ⟨_ | i, hi, rfl⟩
      · obtain rfl := Option.some.inj hi
        exact Or.inl ⟨BitVec.add_zero _, rfl⟩
      · exact Or.inr ⟨i, hi, (succ_add_ofNat a i).symm⟩

theorem covers_iff : s.Covers x ↔ ∃ i < s.bytes.length, x = s.start + BitVec.ofNat 32 i := by
  have hfits := s.fits
  constructor
  · rintro ⟨h1, h2⟩
    refine ⟨x.toNat - s.start.toNat, by omega, ?_⟩
    bv_omega
  · rintro ⟨i, hi, rfl⟩
    have hi' : i < 2 ^ 32 := by omega
    have hnat : (s.start + BitVec.ofNat 32 i).toNat = s.start.toNat + i := by
      rw [BitVec.toNat_add, BitVec.toNat_ofNat]
      omega
    rw [Section.Covers, hnat]
    omega

theorem length_overrun_le (row : List Byte) : (overrun row).length ≤ 4 := by
  simp only [overrun]
  split_ifs
  · rw [List.length_map, List.length_range]
    omega
  · exact Nat.zero_le _

/-- Only behind a last row of 4, 8 or 12 bytes is something written. -/
theorem length_of_overrun {j : ℕ} (h : (overrunOf s)[j]? = some v) : j < 4 ∧ 4 ≤ s.bytes.length := by
  have hj := (List.getElem?_eq_some_iff.mp h).1
  have hle := length_overrun_le (lastRow s.bytes)
  refine ⟨by rw [overrunOf] at hj; omega, ?_⟩
  by_contra hlt
  have hrow : (lastRow s.bytes).length = s.bytes.length := by
    rw [lastRow, show (s.bytes.length - 1) / 16 = 0 by omega, Nat.zero_mul, List.drop_zero]
  by_cases hzero : s.bytes.length = 0
  · have hnil : lastRow s.bytes = [] := List.length_eq_zero_iff.mp (hrow.trans hzero)
    have hnone : overrun [] = [] := by decide
    rw [overrunOf, hnil, hnone] at hj
    exact absurd hj (Nat.not_lt_zero j)
  · have hnone : overrunOf s = [] := if_neg (by omega)
    rw [hnone] at hj
    exact absurd hj (Nat.not_lt_zero j)

/-- What a section writes: its own bytes, or those behind it. -/
theorem mem_sectionWrites : (x, v) ∈ sectionWrites s ↔
    (∃ i, s.bytes[i]? = some v ∧ x = s.start + BitVec.ofNat 32 i) ∨
      ∃ j, (overrunOf s)[j]? = some v ∧ x = s.start + BitVec.ofNat 32 (s.bytes.length + j) := by
  rw [sectionWrites, stretch_append, List.mem_append, mem_stretch, mem_stretch]
  refine or_congr_right (exists_congr fun j => and_congr_right fun _ => ?_)
  rw [BitVec.ofNat_add, BitVec.add_assoc]

/-- A section that covers an address writes there. -/
theorem lastWrite?_of_covers (h : s.Covers x) : lastWrite? (sectionWrites s) x ≠ none := by
  intro hnone
  obtain ⟨i, hi, rfl⟩ := covers_iff.mp h
  have hmem : (s.start + BitVec.ofNat 32 i, s.bytes[i]) ∈ sectionWrites s :=
    mem_sectionWrites.mpr (Or.inl ⟨i, List.getElem?_eq_getElem hi, rfl⟩)
  exact lastWrite?_eq_none.mp hnone _ hmem rfl

/-- A section writes elsewhere too, but only behind itself. -/
theorem lastWrite?_of_not_covers (h : ¬ s.Covers x)
    (hbehind : ∀ j v, (overrunOf s)[j]? = some v → x ≠ s.start + BitVec.ofNat 32 (s.bytes.length + j)) :
    lastWrite? (sectionWrites s) x = none := by
  refine lastWrite?_eq_none.mpr fun w hw => ?_
  obtain ⟨y, v⟩ := w
  rintro rfl
  rcases mem_sectionWrites.mp hw with ⟨i, hi, hy⟩ | ⟨j, hj, hy⟩
  · exact h (covers_iff.mpr ⟨i, (List.getElem?_eq_some_iff.mp hi).1, hy⟩)
  · exact hbehind j v hj hy

/-- **The last write behind a section** is the one that it looks like. -/
theorem lastWrite?_overrun {j : ℕ} (hj : (overrunOf s)[j]? = some v) :
    lastWrite? (sectionWrites s) (s.start + BitVec.ofNat 32 (s.bytes.length + j)) = some v := by
  obtain ⟨hlt, rfl⟩ := List.getElem?_eq_some_iff.mp hj
  have hle : (overrunOf s).length ≤ 4 := length_overrun_le _
  have hsplit : s.bytes ++ overrunOf s =
      (s.bytes ++ (overrunOf s).take j) ++ (overrunOf s)[j] :: (overrunOf s).drop (j + 1) := by
    rw [List.append_assoc, ← List.drop_eq_getElem_cons hlt, List.take_append_drop]
  have hlen : (s.bytes ++ (overrunOf s).take j).length = s.bytes.length + j := by
    rw [List.length_append, List.length_take]
    omega
  rw [sectionWrites, hsplit, stretch_append, hlen, lastWrite?_append, stretch, lastWrite?_cons]
  have hlater : lastWrite? (stretch (s.start + BitVec.ofNat 32 (s.bytes.length + j) + 1) ((overrunOf s).drop (j + 1)))
      (s.start + BitVec.ofNat 32 (s.bytes.length + j)) = none := by
    refine lastWrite?_eq_none.mpr fun w hw => ?_
    obtain ⟨y, v⟩ := w
    obtain ⟨i, hi, rfl⟩ := mem_stretch.mp hw
    have hi' := (List.getElem?_eq_some_iff.mp hi).1
    rw [List.length_drop] at hi'
    dsimp only
    bv_omega
  rw [hlater, if_pos rfl]
  rfl

/-- The bytes of an instruction. -/
theorem writesW_insn {offset : ℕ} (text : Section) (hin : offset + 4 ≤ text.bytes.length) :
    (x, v) ∈ writesW (insnAddr text offset) (insnWord text offset) ↔
      ∃ k < 4, text.bytes[offset + k]? = some v ∧ x = insnAddr text offset + BitVec.ofNat 32 k := by
  obtain ⟨h0, h1, h2, h3⟩ := Lib.Bytes.byteOf_word (text.bytes.getD offset 0) (text.bytes.getD (offset + 1) 0)
    (text.bytes.getD (offset + 2) 0) (text.bytes.getD (offset + 3) 0)
  have hbyte : ∀ k < 4, text.bytes[offset + k]? = some (text.bytes.getD (offset + k) 0) := fun k hk => by
    rw [List.getD_eq_getElem?_getD, List.getElem?_eq_getElem (by omega), Option.getD_some]
  simp only [writesW, insnWord, h0, h1, h2, h3, List.mem_cons, Prod.mk.injEq, List.not_mem_nil, or_false]
  constructor
  · rintro (⟨rfl, rfl⟩ | ⟨rfl, rfl⟩ | ⟨rfl, rfl⟩ | ⟨rfl, rfl⟩)
    · exact ⟨0, by omega, hbyte 0 (by omega), (BitVec.add_zero _).symm⟩
    · exact ⟨1, by omega, hbyte 1 (by omega), rfl⟩
    · exact ⟨2, by omega, hbyte 2 (by omega), rfl⟩
    · exact ⟨3, by omega, hbyte 3 (by omega), rfl⟩
  · rintro ⟨k, hk, hv, rfl⟩
    rw [hbyte k hk, Option.some.injEq] at hv
    subst hv
    interval_cases k
    · exact Or.inl ⟨BitVec.add_zero _, rfl⟩
    · exact Or.inr (Or.inl ⟨rfl, rfl⟩)
    · exact Or.inr (Or.inr (Or.inl ⟨rfl, rfl⟩))
    · exact Or.inr (Or.inr (Or.inr ⟨rfl, rfl⟩))

/-- **The instructions of the listing** write bytes of the image. -/
theorem mem_listedWrites {item : Listed p.text} (hitem : item ∈ p.listing) (h : (x, v) ∈ listedWrites p.text item) :
    RightByte p x v := by
  cases item with
  | blank => exact nomatch h
  | symbol addr name plain => exact nomatch h
  | insn offset inside aligned disassembly line short =>
    obtain ⟨k, hk, hv, rfl⟩ := (writesW_insn p.text inside).mp h
    refine Or.inl ⟨p.text, p.mem_text, offset + k, hv, ?_⟩
    rw [insnAddr, BitVec.add_assoc, BitVec.ofNat_add]

/-- The addresses of an instruction. -/
theorem insn_covers_iff {offset : ℕ} (text : Section) (hin : offset + 4 ≤ text.bytes.length) :
    (insnAddr text offset).toNat ≤ x.toNat ∧ x.toNat < (insnAddr text offset).toNat + 4 ↔
      ∃ k < 4, x = insnAddr text offset + BitVec.ofNat 32 k := by
  have hfits := text.fits
  have haddr := toNat_insnAddr hin
  generalize insnAddr text offset = a at haddr
  constructor
  · rintro ⟨h1, h2⟩
    exact ⟨x.toNat - a.toNat, by omega, by bv_omega⟩
  · rintro ⟨k, hk, rfl⟩
    have hnat : (a + BitVec.ofNat 32 k).toNat = a.toNat + k := by
      rw [BitVec.toNat_add, BitVec.toNat_ofNat]
      omega
    omega

theorem lists_iff : Lists p x ↔ lastWrite? (p.listing.flatMap (listedWrites p.text)) x ≠ none := by
  rw [Ne, lastWrite?_eq_none]
  constructor
  · rintro ⟨offset, inside, aligned, disassembly, line, short, hmem, hcovers⟩ hnone
    obtain ⟨k, hk, rfl⟩ := (insn_covers_iff p.text inside).mp hcovers
    have hwrite : (insnAddr p.text offset + BitVec.ofNat 32 k, p.text.bytes[offset + k]) ∈
        listedWrites p.text (.insn offset inside aligned disassembly line short) :=
      (writesW_insn p.text inside).mpr ⟨k, hk, List.getElem?_eq_getElem (by omega), rfl⟩
    exact hnone _ (List.mem_flatMap.mpr ⟨_, hmem, hwrite⟩) rfl
  · intro h
    push Not at h
    obtain ⟨⟨y, v⟩, hw, rfl⟩ := h
    obtain ⟨item, hmem, hw⟩ := List.mem_flatMap.mp hw
    cases item with
    | blank => exact nomatch hw
    | symbol addr name plain => exact nomatch hw
    | insn offset inside aligned disassembly line short =>
      obtain ⟨k, hk, _, hy⟩ := (writesW_insn p.text inside).mp hw
      exact ⟨offset, inside, aligned, disassembly, line, short, hmem, (insn_covers_iff p.text inside).mpr ⟨k, hk, hy⟩⟩

/-! ### The last write -/

/-- Sections that come one after the other do not overlap. -/
theorem apart_of_split {before after : List Section} (h : p.sections = before ++ s :: after) (ht : t ∈ after) :
    ∀ x, s.Covers x → ¬ t.Covers x := by
  have hpair := p.apart
  rw [h, List.pairwise_append, List.pairwise_cons] at hpair
  exact hpair.2.1.1 t ht

/-- **Two sections write behind themselves at different addresses.** -/
theorem overruns_apart (hapart : ∀ x, s.Covers x → ¬ t.Covers x) {i j : ℕ} {u w : Byte}
    (hi : (overrunOf s)[i]? = some u) (hj : (overrunOf t)[j]? = some w) :
    s.start + BitVec.ofNat 32 (s.bytes.length + i) ≠ t.start + BitVec.ofNat 32 (t.bytes.length + j) := by
  obtain ⟨hi4, hs4⟩ := length_of_overrun hi
  obtain ⟨hj4, ht4⟩ := length_of_overrun hj
  have hs := s.fits
  have ht := t.fits
  intro heq
  have hnat := congrArg BitVec.toNat heq
  simp only [BitVec.toNat_add, BitVec.toNat_ofNat] at hnat
  -- the byte before the end of the one that ends first lies in both
  rcases Nat.le_total (s.start.toNat + s.bytes.length) (t.start.toNat + t.bytes.length) with hle | hle
  · refine hapart (BitVec.ofNat 32 (s.start.toNat + s.bytes.length - 1)) ?_ ?_
    · rw [Section.Covers, BitVec.toNat_ofNat]
      omega
    · rw [Section.Covers, BitVec.toNat_ofNat]
      omega
  · refine hapart (BitVec.ofNat 32 (t.start.toNat + t.bytes.length - 1)) ?_ ?_
    · rw [Section.Covers, BitVec.toNat_ofNat]
      omega
    · rw [Section.Covers, BitVec.toNat_ofNat]
      omega

/-- **The dump of some last sections**: the last write is right, unless the listing writes over it. -/
theorem lastWrite?_sections (h : Harmless p) : ∀ (after before : List Section), p.sections = before ++ after →
    lastWrite? (after.flatMap sectionWrites) x = some v → RightByte p x v ∨ Lists p x := by
  intro after
  induction after with
  | nil => exact fun _ _ => nofun
  | cons s after ih =>
    intro before hsplit hlast
    have hrest := ih (before ++ [s]) (by rw [hsplit, List.append_assoc]; rfl)
    rw [List.flatMap_cons, lastWrite?_append, Option.or_eq_some_iff] at hlast
    rcases hlast with hlater | ⟨hnone, hhere⟩
    · exact hrest hlater
    · rcases mem_sectionWrites.mp (mem_of_lastWrite? hhere) with ⟨i, hi, hx⟩ | ⟨j, hj, rfl⟩
      · exact Or.inl (Or.inl ⟨s, by rw [hsplit]; simp, i, hi, hx⟩)
      · rcases h before s after hsplit j v hj with ⟨t, ht, hcovers⟩ | hlists | hright
        · obtain ⟨w, hw⟩ := Option.ne_none_iff_exists'.mp (lastWrite?_of_covers hcovers)
          have hmem := mem_of_lastWrite? hw
          exact absurd rfl (lastWrite?_eq_none.mp hnone _ (List.mem_flatMap.mpr ⟨t, ht, hmem⟩))
        · exact Or.inr hlists
        · exact Or.inl hright

/-! ### The image -/

theorem covers_unique (hs : s ∈ p.sections) (ht : t ∈ p.sections) (hsx : s.Covers x) (htx : t.Covers x) : s = t := by
  by_contra hne
  have hsymm : Std.Symm fun s t : Section => ∀ x, s.Covers x → ¬ t.Covers x :=
    ⟨fun s t h x ht hs => h x hs ht⟩
  exact p.apart.forall hs ht hne x hsx htx

theorem exists_rightByte (p : Program) (x : Word) : ∃ v, RightByte p x v := by
  by_cases h : ∃ s ∈ p.sections, s.Covers x
  · obtain ⟨s, hs, hx⟩ := h
    obtain ⟨i, hi, hxi⟩ := covers_iff.mp hx
    exact ⟨s.bytes[i], Or.inl ⟨s, hs, i, List.getElem?_eq_getElem hi, hxi⟩⟩
  · push Not at h
    exact ⟨0#8, Or.inr ⟨h, rfl⟩⟩

theorem RightByte.unique {v w : Byte} (hv : RightByte p x v) (hw : RightByte p x w) : v = w := by
  have hcovers : ∀ {s : Section} {i : ℕ} {u : Byte}, s.bytes[i]? = some u → x = s.start + BitVec.ofNat 32 i →
      s.Covers x := fun hi hx => covers_iff.mpr ⟨_, (List.getElem?_eq_some_iff.mp hi).1, hx⟩
  rcases hv with ⟨s, hs, i, hi, hxi⟩ | ⟨hout, rfl⟩
  · rcases hw with ⟨t, ht, j, hj, hxj⟩ | ⟨hout, _⟩
    · obtain rfl := covers_unique hs ht (hcovers hi hxi) (hcovers hj hxj)
      have hi' := (List.getElem?_eq_some_iff.mp hi).1
      have hj' := (List.getElem?_eq_some_iff.mp hj).1
      have hfits := s.fits
      have hij : i = j := by
        rw [hxi] at hxj
        bv_omega
      rw [← hij, hi] at hj
      exact Option.some.inj hj
    · exact absurd (hcovers hi hxi) (hout s hs)
  · rcases hw with ⟨t, ht, j, hj, hxj⟩ | ⟨_, rfl⟩
    · exact absurd (hcovers hj hxj) (hout t ht)
    · rfl

/-- The image, byte by byte. -/
theorem holdsImage_iff_forall {f : Word → Byte} : HoldsImage p f ↔ ∀ x v, RightByte p x v → f x = v := by
  constructor
  · rintro ⟨hsections, houtside⟩ x v (⟨s, hs, i, hi, rfl⟩ | ⟨hout, rfl⟩)
    · exact hsections s hs i v hi
    · exact houtside x hout
  · intro h
    exact ⟨fun s hs i v hi => h _ v (Or.inl ⟨s, hs, i, hi, rfl⟩), fun x hout => h x _ (Or.inr ⟨hout, rfl⟩)⟩

/-- **The bytes behind the sections decide** whether the memory holds the image. -/
theorem holdsImage_iff : HoldsImage p (lastWritten 0#8 (history p)) ↔ Harmless p := by
  rw [holdsImage_iff_forall]
  constructor
  · intro himage before s after hsplit j v hj
    by_contra hnot
    simp only [not_or, not_exists, not_and] at hnot
    obtain ⟨hafter, hlists, hright⟩ := hnot
    have hlisting : lastWrite? (p.listing.flatMap (listedWrites p.text))
        (s.start + BitVec.ofNat 32 (s.bytes.length + j)) = none := by
      by_contra hne
      exact hlists (lists_iff.mpr hne)
    have hlater : lastWrite? (after.flatMap sectionWrites) (s.start + BitVec.ofNat 32 (s.bytes.length + j)) = none := by
      refine lastWrite?_eq_none.mpr fun w hw => ?_
      obtain ⟨t, ht, hw⟩ := List.mem_flatMap.mp hw
      refine lastWrite?_eq_none.mp (lastWrite?_of_not_covers (hafter t ht) fun i u hi => ?_) w hw
      exact overruns_apart (apart_of_split hsplit ht) hj hi
    have hlast : lastWritten 0#8 (history p) (s.start + BitVec.ofNat 32 (s.bytes.length + j)) = v := by
      rw [lastWritten, history, hsplit, List.flatMap_append, List.flatMap_cons, lastWrite?_append, hlisting,
        lastWrite?_append, lastWrite?_append, hlater, lastWrite?_overrun hj]
      rfl
    obtain ⟨w, hw⟩ := exists_rightByte p (s.start + BitVec.ofNat 32 (s.bytes.length + j))
    rw [himage _ w hw] at hlast
    exact hright (hlast ▸ hw)
  · intro h x v hv
    rcases hlast : lastWrite? (history p) x with _ | w
    · -- nothing is written: the address lies in no section
      have hout : ∀ s ∈ p.sections, ¬ s.Covers x := by
        intro s hs hcovers
        obtain ⟨u, hu⟩ := Option.ne_none_iff_exists'.mp (lastWrite?_of_covers hcovers)
        have hmem := List.mem_flatMap.mpr ⟨s, hs, mem_of_lastWrite? hu⟩
        exact lastWrite?_eq_none.mp hlast _ (List.mem_append_left _ hmem) rfl
      rw [lastWritten, hlast, hv.unique (Or.inr ⟨hout, rfl⟩)]
      rfl
    · have hright : RightByte p x w := by
        rw [history, lastWrite?_append, Option.or_eq_some_iff] at hlast
        rcases hlast with hlisted | ⟨hnone, hdump⟩
        · obtain ⟨item, hitem, hw⟩ := List.mem_flatMap.mp (mem_of_lastWrite? hlisted)
          exact mem_listedWrites hitem hw
        · rcases lastWrite?_sections h p.sections [] rfl hdump with hright | hlists
          · exact hright
          · exact absurd hnone (lists_iff.mp hlists)
      rw [lastWritten, hlast, Option.getD_some, hright.unique hv]

/-- A program that is loaded has strings with room for them, a listing that the table takes, and nothing harmful
behind its sections. -/
theorem Loads.conditions (h : Loads room p) :
    WithinHexes room p ∧ (fillAssembly assemblyCreate p.listing).isSome = true ∧ Harmless p := by
  obtain ⟨hnone, hsome⟩ := readAll_lines p
  obtain ⟨st, hst, _, himage⟩ := h
  obtain ⟨hwithin, hread, _⟩ := (readExec_ok_iff p).mp hst
  refine ⟨hwithin, ?_⟩
  rcases hfill : fillAssembly assemblyCreate p.listing with _ | as
  · rw [hnone hfill] at hread
    exact nomatch hread
  · obtain ⟨mem, hlines, hbytes⟩ := hsome as hfill
    obtain rfl := Except.ok.inj (hlines.symm.trans hread)
    refine ⟨rfl, holdsImage_iff.mp ?_⟩
    rwa [← hbytes]

theorem loads_of_conditions (hwithin : WithinHexes room p)
    (hfill : (fillAssembly assemblyCreate p.listing).isSome = true) (h : Harmless p) : Loads room p := by
  obtain ⟨as, has⟩ := Option.isSome_iff_exists.mp hfill
  obtain ⟨mem, hread, hbytes⟩ := (readAll_lines p).2 as has
  refine ⟨_, (readExec_ok_iff p).mpr ⟨hwithin, hread, start_ne p⟩, rfl, ?_⟩
  rw [hbytes]
  exact holdsImage_iff.mpr h

/-- **A program is loaded** if and only if its strings stay within their room, the assembly table has a result for
its listing and the bytes behind its sections do no harm. -/
theorem loads_iff (room : ℕ) (p : Program) : Loads room p ↔
    WithinHexes room p ∧ (fillAssembly assemblyCreate p.listing).isSome = true ∧ Harmless p :=
  ⟨Loads.conditions, fun h => loads_of_conditions h.1 h.2.1 h.2.2⟩

/-- With room for a line, and a text below `2^31`, only the bytes behind the sections matter. -/
theorem loads_low (hroom : 36 + 1024 ≤ room) (hlow : p.text.start.toNat + p.text.bytes.length ≤ 2 ^ 31) :
    Loads room p ↔ Harmless p :=
  ⟨fun h => h.conditions.2.2,
    loads_of_conditions (withinHexes hroom p) (AssemblyFills.fillAssembly_create hlow p.listing)⟩

/-! ### Digits at the end of a section -/

/-- One instruction, `ecall`. -/
def codeSection : Section where
  name := ".text".toList
  start := 0x10074#32
  bytes := [0x73, 0x00, 0x00, 0x00]
  plain := ⟨by simp [isSpace], by decide⟩
  fits := by decide

/-- The four characters `12ab`. -/
def digitSection : Section where
  name := ".rodata".toList
  start := 0x10078#32
  bytes := [0x31, 0x32, 0x61, 0x62]
  plain := ⟨by simp [isSpace], by decide⟩
  fits := by decide

def digitProgram : Program where
  name := "hello".toList
  plain := ⟨⟨by simp [isSpace], by decide⟩, by decide, by decide⟩
  sections := [codeSection, digitSection]
  apart := by
    simp only [List.pairwise_cons, List.mem_singleton, forall_eq, List.not_mem_nil, false_implies, implies_true,
      List.Pairwise.nil, and_self, and_true]
    intro x h1 h2
    have hcode := h1.2
    have hdigits := h2.1
    exact absurd (hdigits.trans_lt hcode) (by decide)
  text := codeSection
  mem_text := List.mem_cons_self
  listing := [.symbol 0x10074#32 "_start".toList ⟨by simp [isSpace], by decide⟩,
    .insn 0 (by decide) (by decide) "ecall".toList (by simp) (by decide)]
  start := 0x10074#32
  start_aligned := by decide
  start_listed := by
    refine ⟨⟨⟨by simp [isSpace], by decide⟩, List.mem_cons_self⟩, fun addr plain h => ?_⟩
    rcases List.mem_cons.mp h with h | h
    · injection h
    · exact absurd (List.mem_singleton.mp h) nofun

theorem groups_of_le {bytes : List Byte} (hne : bytes ≠ []) (h4 : bytes.length ≤ 4) :
    groups bytes = ' ' :: bytes.flatMap byteText := by
  rw [groups, if_neg hne, List.take_of_length_le h4, List.drop_of_length_le h4, groups, if_pos rfl, List.append_nil]

theorem digits_eq_five {n : ℕ} (h1 : 16 ^ 4 ≤ n) (h2 : n < 16 ^ 5) : digits n = 5 :=
  congrArg Nat.succ (Nat.log_eq_of_pow_le_of_lt_pow h1 h2)

/-- The dump of a section of one group. -/
theorem dumpLines_of_le (hne : s.bytes ≠ []) (h4 : s.bytes.length ≤ 4) {w : ℕ}
    (hw : digits (s.start.toNat + s.bytes.length - 1) = w) :
    dumpLines s = ["Contents of section ".toList ++ s.name ++ [':'], ' ' :: (hexField (max 4 w) s.start.toNat ++
      (padTo 36 (' ' :: s.bytes.flatMap byteText) ++ ' ' :: ' ' :: padTo 16 (s.bytes.map printable)))] := by
  have h16 : s.bytes.length ≤ 16 := by omega
  rw [dumpLines, if_neg hne, rowLines_cons hne, List.take_of_length_le h16, List.drop_of_length_le h16, rowLines_nil,
    rowLine, groups_of_le hne h4, hw]

theorem dumpLines_code : dumpLines codeSection = ["Contents of section .text:".toList,
    " 10074 73000000                             s...            ".toList] := by
  rw [dumpLines_of_le (by decide) (by decide) (digits_eq_five (by decide) (by decide))]
  decide

theorem dumpLines_digits : dumpLines digitSection = ["Contents of section .rodata:".toList,
    " 10078 31326162                             12ab            ".toList] := by
  rw [dumpLines_of_le (by decide) (by decide) (digits_eq_five (by decide) (by decide))]
  decide

theorem listing_digits : digitProgram.listing.map (listedLine digitProgram.text) =
    ["00010074 <_start>:".toList, "   10074:\t00000073          \tecall".toList] := by
  have haddr : rightAligned (insnAddr codeSection 0).toNat = "   10074".toList := by
    have hdigits : digits 0x10074 = 5 := digits_eq_five (by decide) (by decide)
    rw [show (insnAddr codeSection 0).toNat = 0x10074 from rfl, rightAligned, hdigits]
    decide
  have hinsn : listedLine codeSection (.insn 0 (by decide) (by decide) "ecall".toList (by simp) (by decide)) =
      "   10074:\t00000073          \tecall".toList := by
    rw [listedLine, haddr]
    decide
  exact congrArg₂ (fun u v => [u, v]) (by decide) hinsn

/-- The text of the program. -/
theorem lines_digits : lines digitProgram = [[], "hello.riscv:     file format elf32-littleriscv".toList, [],
    "Contents of section .text:".toList, " 10074 73000000                             s...            ".toList,
    "Contents of section .rodata:".toList, " 10078 31326162                             12ab            ".toList,
    [], "hello.riscv:     file format elf32-littleriscv".toList, [], [], "Disassembly of section .text:".toList,
    "00010074 <_start>:".toList, "   10074:\t00000073          \tecall".toList] := by
  have hdump : digitProgram.sections.flatMap dumpLines = dumpLines codeSection ++ (dumpLines digitSection ++ []) := rfl
  rw [lines, hdump, dumpLines_code, dumpLines_digits, listing_digits]
  rfl

/-- **Characters that look like digits** are read as a byte, which is in the memory behind the section. -/
theorem digits_are_loaded : ¬ Loads 36 digitProgram ∧ (∀ s ∈ digitProgram.sections, ¬ s.Covers 0x1007C#32) ∧ ∃ st,
    readExec 36 memoryCreate assemblyCreate digitProgram.name (some (dis digitProgram)) = .ok st ∧
      FlatMemory.bytes st.mem 0x1007C#32 = 0x12#8 := by
  have hwithin : WithinHexes 36 digitProgram := by
    rw [WithinHexes, lines_digits]
    decide
  have houtside : ∀ s ∈ digitProgram.sections, ¬ s.Covers 0x1007C#32 := by
    intro s hs hcovers
    rcases List.mem_cons.mp hs with rfl | hs
    · exact absurd hcovers.2 (by decide)
    · obtain rfl := List.mem_singleton.mp hs
      exact absurd hcovers.2 (by decide)
  have hfill := AssemblyFills.fillAssembly_create (by decide) digitProgram.listing
  obtain ⟨as, has⟩ := Option.isSome_iff_exists.mp hfill
  obtain ⟨mem, hread, hbytes⟩ := (readAll_lines digitProgram).2 as has
  have hloaded := (readExec_ok_iff digitProgram).mpr ⟨hwithin, hread, start_ne digitProgram⟩
  have hbyte : FlatMemory.bytes mem 0x1007C#32 = 0x12#8 := by
    rw [hbytes]
    decide
  refine ⟨fun h => ?_, houtside, _, hloaded, hbyte⟩
  obtain ⟨st, hst, _, himage⟩ := h
  obtain rfl := Except.ok.inj (hloaded.symm.trans hst)
  have hzero := himage.outside _ houtside
  exact absurd (hbyte.symm.trans hzero) (by decide)

end CompSys.A5.LoadImage
