import CompSys.A5.LoadText
import CompSys.A5.AssemblyPlaces

/-! # The assembly table takes every listing below `2^31`

The size of the table is `size k`, five times a power of two less one. Every entry stands where probing for its
address finds it, and no address has two entries. A table grows until nothing collides; at `size 28` all
multiples of four below `2^31` start at different entries, so that it grows no further, and its size is
still an `int` (`assemblySet_sound`). -/

namespace CompSys.A5.AssemblyFills

open CompSys.A5.PagedMemory (Word)
open CompSys.A5.AssemblyTable CompSys.A5.Objdump CompSys.A5.LoadText

variable {as : Assembly} {addr : Word} {e f : Entry} {i k n : ℕ}

/-! ### Addresses and sizes -/

/-- An address that is no negative `int`, and a multiple of four. -/
structure Low (addr : Word) : Prop where
  lt : addr.toNat < 2 ^ 31
  aligned : addr.toNat % 4 = 0

theorem size_lt (h : k ≤ 28) : size k < 2 ^ 31 := by
  have hpow : 2 ^ k ≤ 2 ^ 28 := Nat.pow_le_pow_right (by omega) h
  rw [size]
  omega

/-- Multiples of four below two tables of odd size. -/
theorem mod_injective {n x y : ℕ} (hn : n % 4 = 3) (hx : x < 2 * n) (hy : y < 2 * n) (hx4 : x % 4 = 0)
    (hy4 : y % 4 = 0) (h : x % n = y % n) : x = y := by
  have hmod : ∀ z < 2 * n, z % n = z ∨ (n ≤ z ∧ z % n = z - n) := by
    intro z hz
    rcases Nat.lt_or_ge z n with hlt | hge
    · exact Or.inl (Nat.mod_eq_of_lt hlt)
    · exact Or.inr ⟨hge, by rw [Nat.mod_eq_sub_mod hge, Nat.mod_eq_of_lt (by omega)]⟩
  rcases hmod x hx with hx' | ⟨hx', hxn⟩
  · rcases hmod y hy with hy' | ⟨hy', hyn⟩
    · omega
    · omega
  · rcases hmod y hy with hy' | ⟨hy', hyn⟩
    · omega
    · omega

theorem size_largest : size 28 % 4 = 3 ∧ 2 ^ 31 ≤ 2 * size 28 := by
  norm_num [size]

/-- **In the largest table nothing collides.** -/
theorem home_injective {a b : Word} (ha : Low a) (hb : Low b) (h : home (size 28) a = home (size 28) b) : a = b := by
  obtain ⟨hmod, hle⟩ := size_largest
  exact BitVec.eq_of_toNat_eq (mod_injective hmod (ha.lt.trans_le hle) (hb.lt.trans_le hle) ha.aligned hb.aligned h)

/-! ### Tables -/

/-- **A table of size `size k`.** -/
structure Sound (as : Assembly) (k : ℕ) : Prop where
  size : as.tableSize = size k
  le : k ≤ 28
  low : ∀ i e, as.lookupTable i = some e → Low e.addr
  /-- No address has two entries. -/
  once : ∀ i j e f, as.lookupTable i = some e → as.lookupTable j = some f → e.addr = f.addr → i = j
  /-- Probing finds every entry. -/
  near : ∀ i e, as.lookupTable i = some e → ∃ m < 4, i = (next as.tableSize)^[m] (home as.tableSize e.addr)
  /-- In the largest table every entry is where probing starts. -/
  largest : k = 28 → ∀ i e, as.lookupTable i = some e → i = home as.tableSize e.addr

/-- An empty table. -/
theorem Sound.calloc (h : k ≤ 28) : Sound (calloc (AssemblyFills.size k)) k :=
  ⟨rfl, h, nofun, nofun, nofun, fun _ => nofun⟩

theorem Sound.placed (h : Sound as k) : Placed Low (k = 28) as := ⟨h.low, h.once, h.near, h.largest⟩

theorem Placed.sound (h : Placed Low (k = 28) as) (hsize : as.tableSize = AssemblyFills.size k) (hk : k ≤ 28) :
    Sound as k := ⟨hsize, hk, h.addrs, h.once, h.near, h.direct⟩

theorem homesApart_low {n : ℕ} (hn : n = size k) (hk : k = 28) : HomesApart Low n := by
  subst hn hk
  exact fun a b => home_injective

/-- Only a smaller table can be without room. -/
theorem Sound.ne_largest (h : Sound as k) (hlow : Low addr) (hnew : New as addr)
    (hempty : assemblyFindEmpty as addr = some none) : k ≠ 28 :=
  h.placed.crowded (fun _ => Low.lt) (homesApart_low h.size) hlow hnew hempty

/-- An entry for an address that has none, where `assembly_find_empty` finds room. -/
theorem Sound.insert (h : Sound as k) (hlow : Low e.addr) (hnew : New as e.addr)
    (hempty : assemblyFindEmpty as e.addr = some (some i)) : Sound (setEntry as i e) k :=
  (h.placed.insert (fun _ => Low.lt) (homesApart_low h.size) hlow hnew hempty).sound h.size h.le

/-! ### Growing -/

/-- **Rehashing** ends with all entries in the new table, or with a collision, but not in the largest table. -/
theorem rehash_sound {old : Assembly} {k' : ℕ} (hold : Sound old k') (hk : k ≤ 28) :
    (∃ as, rehash old.lookupTable (calloc (size k)) 0 old.tableSize = some (some as) ∧ Sound as k ∧
        From old.lookupTable old.tableSize as) ∨
      rehash old.lookupTable (calloc (size k)) 0 old.tableSize = some none ∧ k ≠ 28 := by
  rcases rehash_placed (fun _ => Low.lt) hold.placed old.tableSize 0 (calloc (size k)) (homesApart_low rfl)
    (Placed.calloc _) Copied.calloc with ⟨as, hrehash, hsize, hplaced, hcopied⟩ | ⟨hrehash, hne⟩
  · rw [Nat.zero_add] at hcopied
    exact Or.inl ⟨as, hrehash, hplaced.sound hsize hk, hcopied.only⟩
  · exact Or.inr ⟨hrehash, hne⟩

/-- A table grown from another one. -/
structure Grown (old as : Assembly) (k k' : ℕ) : Prop where
  sound : Sound as k'
  le : k ≤ k'
  entries : ∀ j e, as.lookupTable j = some e → ∃ i, old.lookupTable i = some e

theorem growLoop_sound {old : Assembly} {k' : ℕ} (hold : Sound old k') : ∀ (rounds k : ℕ), k ≤ 28 → 29 ≤ k + rounds →
    ∃ as k'', growLoop old (size k) rounds = some as ∧ Grown old as k k''
  | 0, k, hk, hrounds => absurd hrounds (by omega)
  | rounds + 1, k, hk, hrounds => by
    have hint : ¬ 2 ^ 31 ≤ size k := Nat.not_le.mpr (size_lt hk)
    rcases rehash_sound hold hk with ⟨as, hrehash, hsound, hfrom⟩ | ⟨hrehash, hne⟩
    · refine ⟨as, k, by rw [growLoop, if_neg hint]; simp only [hrehash], hsound, le_rfl, fun j e hj => ?_⟩
      obtain ⟨i, _, hi⟩ := hfrom j e hj
      exact ⟨i, hi⟩
    · obtain ⟨as, k'', hgrow, hgrown⟩ := growLoop_sound hold rounds (k + 1) (by omega) (by omega)
      refine ⟨as, k'', ?_, hgrown.sound, by have := hgrown.le; omega, hgrown.entries⟩
      rw [growLoop, if_neg hint]
      simp only [hrehash]
      rw [show 1 + size k * 2 = size (k + 1) by rw [size_succ]; omega]
      exact hgrow

/-- **Growing** makes the table larger. -/
theorem grow_sound (h : Sound as k) (hk : k < 28) :
    ∃ as' k', assemblyGrowAndRehash as = some as' ∧ Grown as as' (k + 1) k' := by
  rw [assemblyGrowAndRehash, h.size, ← size_succ]
  exact growLoop_sound h 32 (k + 1) (by omega) (by omega)

/-! ### Setting an entry -/

/-- **The search for an empty entry ends.** -/
theorem emptyLoop_sound (hlow : Low addr) : ∀ (rounds k : ℕ) (as : Assembly), Sound as k → 29 ≤ k + rounds →
    New as addr → ∃ as' k' idx, emptyLoop as addr rounds = some (as', idx) ∧ Sound as' k' ∧ New as' addr ∧
      assemblyFindEmpty as' addr = some (some idx)
  | 0, k, as, h, hrounds, _ => absurd hrounds (by have := h.le; omega)
  | rounds + 1, k, as, h, hrounds, hnew => by
    rcases hempty : assemblyFindEmpty as addr with _ | _ | idx
    · rw [assemblyFindEmpty_of_lt hlow.lt] at hempty
      exact nomatch hempty
    · have hk : k < 28 := lt_of_le_of_ne h.le (h.ne_largest hlow hnew hempty)
      obtain ⟨as1, k1, hgrow, hgrown⟩ := grow_sound h hk
      have hnew1 : New as1 addr := fun j f hj => by
        obtain ⟨i, hi⟩ := hgrown.entries j f hj
        exact hnew i f hi
      have hle := hgrown.le
      obtain ⟨as', k', idx, hloop, hrest⟩ := emptyLoop_sound hlow rounds k1 as1 hgrown.sound (by omega) hnew1
      refine ⟨as', k', idx, ?_, hrest⟩
      rw [emptyLoop]
      simp only [hempty, hgrow, Option.bind_some, hloop]
    · exact ⟨as, k, idx, by rw [emptyLoop]; simp only [hempty], h, hnew, hempty⟩

/-- **`assembly_set`** has a result, and the table stays sound. -/
theorem assemblySet_sound (h : Sound as k) (hlow : Low addr) (text : List Char) :
    ∃ as' k', assemblySet as addr text = some as' ∧ Sound as' k' := by
  rcases hfind : assemblyFindEntry as addr with _ | _ | idx
  · rw [assemblyFindEntry_of_lt hlow.lt] at hfind
    exact nomatch hfind
  · have hnew := h.placed.new_of_find (fun _ => Low.lt) hlow hfind
    obtain ⟨as', k', idx, hloop, hsound, hnew', hempty⟩ := emptyLoop_sound hlow 32 k as h (by omega) hnew
    refine ⟨setEntry as' idx ⟨addr, text⟩, k', by simp only [assemblySet, hfind, hloop, Option.map_some], ?_⟩
    exact hsound.insert hlow hnew' hempty
  · refine ⟨setEntry as idx ⟨addr, text⟩, k, by simp only [assemblySet, hfind], ?_⟩
    obtain ⟨⟨f, hf, rfl⟩, hnear⟩ := found_of_find (P := Low) (fun _ => Low.lt) hlow hfind
    exact (h.placed.set (e := ⟨f.addr, text⟩) hlow (fun j g hj hg => h.once j idx g f hj hf hg) hnear
      fun hk => h.largest hk idx f hf).sound h.size h.le

/-! ### The listing -/

/-- **A listing below `2^31`** fills the table. -/
theorem fillAssembly_low {text : Section} (hlow : text.start.toNat + text.bytes.length ≤ 2 ^ 31) :
    ∀ (listing : List (Listed text)) (as : Assembly) (k : ℕ), Sound as k → (fillAssembly as listing).isSome = true
  | [], _, _, _ => rfl
  | .blank :: listing, as, k, h => fillAssembly_low hlow listing as k h
  | .symbol _ _ _ :: listing, as, k, h => fillAssembly_low hlow listing as k h
  | .insn offset inside aligned disassembly line short :: listing, as, k, h => by
    rw [fillAssembly]
    split_ifs with hfields
    · exact fillAssembly_low hlow listing as k h
    · have haddr := toNat_insnAddr inside
      have hinsn : Low (insnAddr text offset) := ⟨by omega, by omega⟩
      obtain ⟨as', k', hset, hsound⟩ :=
        assemblySet_sound h hinsn (ReadExec.insnText (LoadLines.fields disassembly))
      rw [hset, Option.bind_some]
      exact fillAssembly_low hlow listing as' k' hsound

theorem fillAssembly_create {text : Section} (hlow : text.start.toNat + text.bytes.length ≤ 2 ^ 31)
    (listing : List (Listed text)) : (fillAssembly assemblyCreate listing).isSome = true :=
  fillAssembly_low hlow listing _ 0 (Sound.calloc (Nat.zero_le _))

end CompSys.A5.AssemblyFills
