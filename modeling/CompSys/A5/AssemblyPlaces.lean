import CompSys.A5.AssemblyTable

/-! # Where the assembly table keeps an entry

Probing for an address starts at its home, `addr % table_size`, and looks at four entries. In every table that is
built by `assembly_set` each entry is one of the four for its own address, and no address has two entries
(`Placed`). An entry for a new address keeps this (`Placed.insert`), and rehashing ends with exactly the old
entries in the new table, or with a collision; there is none where no two addresses have the same home
(`rehash_placed`). -/

namespace CompSys.A5.AssemblyFills

open CompSys.A5.PagedMemory (Word)
open CompSys.A5.AssemblyTable

variable {as : Assembly} {addr : Word} {e f : Entry} {i n : ℕ}

/-! ### Probing -/

/-- The next index. -/
def next (size idx : ℕ) : ℕ := if idx + 1 = size then 0 else idx + 1

theorem probe_some {found : Option Entry → Bool} : ∀ {n idx i : ℕ}, probe as found n idx = some i →
    found (as.lookupTable i) = true ∧ ∃ m < n, i = (next as.tableSize)^[m] idx
  | 0, _, _, h => nomatch h
  | n + 1, idx, i, h => by
    rw [probe] at h
    split_ifs at h with hfound hend
    · obtain rfl := Option.some.inj h
      exact ⟨hfound, 0, by omega, rfl⟩
    · obtain ⟨hi, m, hm, rfl⟩ := probe_some h
      refine ⟨hi, m + 1, by omega, ?_⟩
      rw [Function.iterate_succ_apply, next, if_pos hend]
    · obtain ⟨hi, m, hm, rfl⟩ := probe_some h
      refine ⟨hi, m + 1, by omega, ?_⟩
      rw [Function.iterate_succ_apply, next, if_neg hend]

theorem probe_none {found : Option Entry → Bool} : ∀ {n idx : ℕ}, probe as found n idx = none →
    ∀ m < n, found (as.lookupTable ((next as.tableSize)^[m] idx)) = false
  | 0, _, _ => fun _ hm => absurd hm (Nat.not_lt_zero _)
  | n + 1, idx, h => by
    have hstep : probe as found (n + 1) idx =
        if found (as.lookupTable idx) then some idx else probe as found n (next as.tableSize idx) := rfl
    rw [hstep] at h
    split_ifs at h with hfound
    rintro (_ | m) hm
    · exact Bool.eq_false_iff.mpr hfound
    · exact probe_none h m (by omega)

/-- The first entry that is looked at. -/
theorem probe_first {found : Option Entry → Bool} (h : found (as.lookupTable i) = true) :
    probe as found (n + 1) i = some i := if_pos h

/-- Where probing starts. -/
def home (size : ℕ) (addr : Word) : ℕ := addr.toNat % size

theorem startIndex_of_lt (h : addr.toNat < 2 ^ 31) : startIndex as addr = some (home as.tableSize addr) := by
  have hint : addr.toInt = (addr.toNat : ℤ) := BitVec.toInt_eq_toNat_of_lt (by omega)
  have hmod : (addr.toNat : ℤ).tmod as.tableSize = ((addr.toNat % as.tableSize : ℕ) : ℤ) :=
    (Int.ofNat_tmod _ _).symm
  simp only [startIndex, hint, hmod]
  rw [if_neg (by omega), Int.toNat_natCast, home]

theorem assemblyFindEntry_of_lt (h : addr.toNat < 2 ^ 31) : assemblyFindEntry as addr =
    some (probe as (fun e => e.any (·.addr = addr)) 4 (home as.tableSize addr)) := by
  rw [assemblyFindEntry, startIndex_of_lt h, Option.map_some]

theorem assemblyFindEmpty_of_lt (h : addr.toNat < 2 ^ 31) : assemblyFindEmpty as addr =
    some (probe as (fun e => e.isNone) 4 (home as.tableSize addr)) := by
  rw [assemblyFindEmpty, startIndex_of_lt h, Option.map_some]

theorem next_lt {size idx : ℕ} (h : idx < size) : next size idx < size := by
  rw [next]
  split_ifs with hend
  · omega
  · omega

theorem iterate_next_lt {size idx : ℕ} (h : idx < size) : ∀ m, (next size)^[m] idx < size
  | 0 => h
  | m + 1 => by
    rw [Function.iterate_succ_apply']
    exact next_lt (iterate_next_lt h m)

/-! ### Tables -/

/-- The sizes of a table. -/
def size (k : ℕ) : ℕ := 5 * 2 ^ k - 1

theorem size_succ (k : ℕ) : size (k + 1) = 1 + 2 * size k := by
  have hpos := Nat.two_pow_pos k
  rw [size, size, Nat.pow_succ]
  omega

/-- **Every entry is where probing for its address finds it.** The addresses are `P`; if `D` holds then each
entry is at its home. -/
structure Placed (P : Word → Prop) (D : Prop) (as : Assembly) : Prop where
  addrs : ∀ i e, as.lookupTable i = some e → P e.addr
  /-- No address has two entries. -/
  once : ∀ i j e f, as.lookupTable i = some e → as.lookupTable j = some f → e.addr = f.addr → i = j
  /-- Probing finds every entry. -/
  near : ∀ i e, as.lookupTable i = some e → ∃ m < 4, i = (next as.tableSize)^[m] (home as.tableSize e.addr)
  direct : D → ∀ i e, as.lookupTable i = some e → i = home as.tableSize e.addr

/-- No two addresses have the same home in a table of this size. -/
def HomesApart (P : Word → Prop) (size : ℕ) : Prop :=
  ∀ a b, P a → P b → home size a = home size b → a = b

/-- The table has no entry for the address. -/
def New (as : Assembly) (addr : Word) : Prop := ∀ j f, as.lookupTable j = some f → f.addr ≠ addr

variable {P : Word → Prop} {D : Prop}

/-- An empty table. -/
theorem Placed.calloc (size : ℕ) : Placed P D (calloc size) := ⟨nofun, nofun, nofun, fun _ => nofun⟩

@[simp] theorem setEntry_tableSize : (setEntry as i e).tableSize = as.tableSize := rfl

@[simp] theorem setEntry_self : (setEntry as i e).lookupTable i = some e := Function.update_self ..

theorem setEntry_of_ne {j : ℕ} (h : j ≠ i) : (setEntry as i e).lookupTable j = as.lookupTable j :=
  Function.update_of_ne h ..

theorem setEntry_some {j : ℕ} (h : (setEntry as i e).lookupTable j = some f) :
    (j = i ∧ f = e) ∨ (j ≠ i ∧ as.lookupTable j = some f) := by
  by_cases hji : j = i
  · subst hji
    rw [setEntry_self] at h
    exact Or.inl ⟨rfl, (Option.some.inj h).symm⟩
  · rw [setEntry_of_ne hji] at h
    exact Or.inr ⟨hji, h⟩

/-- An entry is put where probing for its address comes, over an entry for the same address if there is one. -/
theorem Placed.set (h : Placed P D as) (haddr : P e.addr)
    (hother : ∀ j f, as.lookupTable j = some f → f.addr = e.addr → j = i)
    (hnear : ∃ m < 4, i = (next as.tableSize)^[m] (home as.tableSize e.addr))
    (hdirect : D → i = home as.tableSize e.addr) : Placed P D (setEntry as i e) := by
  refine ⟨fun j f hj => ?_, fun j j' f f' hj hj' hff => ?_, fun j f hj => ?_, fun hD j f hj => ?_⟩
  · rcases setEntry_some hj with ⟨rfl, rfl⟩ | ⟨_, hj⟩
    · exact haddr
    · exact h.addrs j f hj
  · rcases setEntry_some hj with ⟨rfl, rfl⟩ | ⟨_, hold⟩
    · rcases setEntry_some hj' with ⟨rfl, rfl⟩ | ⟨_, hold'⟩
      · rfl
      · exact (hother j' f' hold' hff.symm).symm
    · rcases setEntry_some hj' with ⟨rfl, rfl⟩ | ⟨_, hold'⟩
      · exact hother j f hold hff
      · exact h.once j j' f f' hold hold' hff
  · rcases setEntry_some hj with ⟨rfl, rfl⟩ | ⟨_, hj⟩
    · exact hnear
    · exact h.near j f hj
  · rcases setEntry_some hj with ⟨rfl, rfl⟩ | ⟨_, hj⟩
    · exact hdirect hD
    · exact h.direct hD j f hj

section

variable (hP : ∀ a, P a → a.toNat < 2 ^ 31) (hD : D → HomesApart P as.tableSize)

include hP

/-- `assembly_find_entry` finds no entry only where there is none. -/
theorem Placed.new_of_find (h : Placed P D as) (haddr : P addr) (hfind : assemblyFindEntry as addr = some none) :
    New as addr := by
  rintro j f hj rfl
  obtain ⟨m, hm, rfl⟩ := h.near j f hj
  rw [assemblyFindEntry_of_lt (hP _ haddr), Option.some.injEq] at hfind
  have hmiss := probe_none hfind m hm
  rw [hj] at hmiss
  simp at hmiss

/-- `assembly_find_entry` finds the entry of the address. -/
theorem found_of_find (haddr : P addr) (hfind : assemblyFindEntry as addr = some (some i)) :
    (∃ f, as.lookupTable i = some f ∧ f.addr = addr) ∧
      ∃ m < 4, i = (next as.tableSize)^[m] (home as.tableSize addr) := by
  rw [assemblyFindEntry_of_lt (hP _ haddr), Option.some.injEq] at hfind
  obtain ⟨hfound, hnear⟩ := probe_some hfind
  refine ⟨?_, hnear⟩
  rcases hf : as.lookupTable i with _ | f
  · rw [hf] at hfound
    exact nomatch hfound
  · rw [hf] at hfound
    exact ⟨f, rfl, of_decide_eq_true hfound⟩

/-- `assembly_find_empty` finds an entry that is not valid, among the four. -/
theorem empty_of_find (haddr : P addr) (hempty : assemblyFindEmpty as addr = some (some i)) :
    as.lookupTable i = none ∧ ∃ m < 4, i = (next as.tableSize)^[m] (home as.tableSize addr) := by
  rw [assemblyFindEmpty_of_lt (hP _ haddr), Option.some.injEq] at hempty
  obtain ⟨hfree, hnear⟩ := probe_some hempty
  exact ⟨Option.isNone_iff_eq_none.mp hfree, hnear⟩

include hD

/-- Where no two addresses have the same home, probing for a new address ends where it starts. -/
theorem Placed.home_empty (h : Placed P D as) (hd : D) (haddr : P addr) (hnew : New as addr) :
    assemblyFindEmpty as addr = some (some (home as.tableSize addr)) := by
  have hhome : as.lookupTable (home as.tableSize addr) = none := by
    rcases hf : as.lookupTable (home as.tableSize addr) with _ | f
    · rfl
    · have hplace := h.direct hd _ f hf
      exact absurd (hD hd _ _ (h.addrs _ f hf) haddr hplace.symm) (hnew _ f hf)
  rw [assemblyFindEmpty_of_lt (hP _ haddr), probe_first (by rw [hhome]; rfl)]

theorem Placed.crowded (h : Placed P D as) (haddr : P addr) (hnew : New as addr)
    (hempty : assemblyFindEmpty as addr = some none) : ¬ D := by
  intro hd
  rw [h.home_empty hP hD hd haddr hnew] at hempty
  exact nomatch hempty

/-- **An entry for a new address**, where `assembly_find_empty` finds room. -/
theorem Placed.insert (h : Placed P D as) (haddr : P e.addr) (hnew : New as e.addr)
    (hempty : assemblyFindEmpty as e.addr = some (some i)) : Placed P D (setEntry as i e) := by
  obtain ⟨_, hnear⟩ := empty_of_find hP haddr hempty
  refine h.set haddr (fun j f hj hf => absurd hf (hnew j f hj)) hnear fun hd => ?_
  rw [h.home_empty hP hD hd haddr hnew] at hempty
  exact (Option.some.inj (Option.some.inj hempty)).symm

end

/-! ### Rehashing -/

/-- Every entry of the new table is one of the first `i` of the old one. -/
def From (old : ℕ → Option Entry) (i : ℕ) (as : Assembly) : Prop :=
  ∀ j e, as.lookupTable j = some e → ∃ i' < i, old i' = some e

/-- The new table has exactly the first `i` entries of the old one. -/
structure Copied (old : ℕ → Option Entry) (i : ℕ) (as : Assembly) : Prop where
  only : From old i as
  all : ∀ i' < i, ∀ e, old i' = some e → ∃ j, as.lookupTable j = some e

theorem Copied.calloc {old : ℕ → Option Entry} {size : ℕ} : Copied old 0 (calloc size) :=
  ⟨nofun, fun _ h => absurd h (Nat.not_lt_zero _)⟩

theorem Copied.skip {old : ℕ → Option Entry} (h : Copied old i as) (he : old i = none) : Copied old (i + 1) as := by
  refine ⟨fun j f hj => ?_, fun i' hi' f hf => ?_⟩
  · obtain ⟨i', hi', hf⟩ := h.only j f hj
    exact ⟨i', by omega, hf⟩
  · rcases Nat.lt_succ_iff_lt_or_eq.mp hi' with hlt | rfl
    · exact h.all i' hlt f hf
    · rw [he] at hf
      exact nomatch hf

theorem Copied.insert {old : ℕ → Option Entry} {idx : ℕ} (h : Copied old i as) (he : old i = some e)
    (hfree : as.lookupTable idx = none) : Copied old (i + 1) (setEntry as idx e) := by
  refine ⟨fun j f hj => ?_, fun i' hi' f hf => ?_⟩
  · rcases setEntry_some hj with ⟨rfl, rfl⟩ | ⟨_, hold⟩
    · exact ⟨i, by omega, he⟩
    · obtain ⟨i', hi', hf⟩ := h.only j f hold
      exact ⟨i', by omega, hf⟩
  · rcases Nat.lt_succ_iff_lt_or_eq.mp hi' with hlt | rfl
    · obtain ⟨j, hj⟩ := h.all i' hlt f hf
      have hne : j ≠ idx := by
        rintro rfl
        rw [hfree] at hj
        exact nomatch hj
      exact ⟨j, (setEntry_of_ne hne).trans hj⟩
    · exact ⟨idx, setEntry_self.trans (he.symm.trans hf)⟩

/-- **Rehashing** ends with the old entries in the new table, or with a collision. -/
theorem rehash_placed {old : Assembly} {D' : Prop} (hP : ∀ a, P a → a.toNat < 2 ^ 31) (hold : Placed P D' old) :
    ∀ (n i : ℕ) (as : Assembly), (D → HomesApart P as.tableSize) → Placed P D as → Copied old.lookupTable i as →
      (∃ as', rehash old.lookupTable as i n = some (some as') ∧ as'.tableSize = as.tableSize ∧ Placed P D as' ∧
        Copied old.lookupTable (i + n) as') ∨ rehash old.lookupTable as i n = some none ∧ ¬ D
  | 0, i, as, _, h, hcopied => Or.inl ⟨as, rfl, rfl, h, hcopied⟩
  | n + 1, i, as, hD, h, hcopied => by
    rw [show i + (n + 1) = i + 1 + n by omega]
    rcases he : old.lookupTable i with _ | e
    · have hstep : rehash old.lookupTable as i (n + 1) = rehash old.lookupTable as (i + 1) n := by
        rw [rehash, he]
      rw [hstep]
      exact rehash_placed hP hold n (i + 1) as hD h (hcopied.skip he)
    · have haddr := hold.addrs i e he
      have hnew : New as e.addr := by
        intro j f hj heq
        obtain ⟨i', hi', hf⟩ := hcopied.only j f hj
        exact absurd (hold.once i' i f e hf he heq) (by omega)
      rcases hempty : assemblyFindEmpty as e.addr with _ | _ | idx
      · rw [assemblyFindEmpty_of_lt (hP _ haddr)] at hempty
        exact nomatch hempty
      · exact Or.inr ⟨by rw [rehash, he]; simp only [hempty], h.crowded hP hD haddr hnew hempty⟩
      · have hstep : rehash old.lookupTable as i (n + 1) =
            rehash old.lookupTable (setEntry as idx e) (i + 1) n := by
          rw [rehash, he]
          simp only [hempty]
        rw [hstep]
        exact rehash_placed hP hold n (i + 1) _ hD (h.insert hP hD haddr hnew hempty)
          (hcopied.insert he (empty_of_find hP haddr hempty).1)

end CompSys.A5.AssemblyFills
