import CompSys.Lib.Fuel
import CompSys.Lib.Store
import CompSys.A5.AssemblyPlaces

/-! # The assembly table is a map

A table of more than `2^31` entries has a home of its own for every address, so growing ends if the size may be
any number (`growth_ends`): the table then has exactly the old entries. `assembly_get` gives the text that was set
last for its address, and `""` if none was. With sizes that are `int` the calls have the same result as long as
the table stays below `2^31` entries, and else none (`table_is_map`); addresses that crowd every smaller table
exist (`crowd_overflows`). -/

namespace CompSys.A5.AssemblyMap

open CompSys.Lib.Fuel CompSys.Lib.Store
open CompSys.A5.PagedMemory (Word)
open CompSys.A5.AssemblyTable CompSys.A5.AssemblyFills

/-- An address that is no negative `int`. -/
abbrev Address := {addr : Word // 0 ≤ addr.toInt}

/-! ### The table with sizes of any length -/

/-- `assembly_get`: an entry that is not found has the text `""`. -/
def assemblyGet (as : Assembly) (addr : Word) : Option (List Char) :=
  (assemblyFindEntry as addr).map fun
    | none => []
    | some idx => (as.lookupTable idx).elim [] (·.text)

/-- The `do` of `assembly_grow_and_rehash`. -/
def growSizes (old : Assembly) (newSize : ℕ) : ℕ → Option Assembly
  | 0 => none
  | fuel + 1 =>
    match rehash old.lookupTable (calloc newSize) 0 old.tableSize with
    | none => none
    | some none => growSizes old (1 + newSize * 2) fuel
    | some (some as) => some as

/-- `assembly_grow_and_rehash`. -/
def growAnySize (as : Assembly) (fuel : ℕ) : Option Assembly := growSizes as (1 + 2 * as.tableSize) fuel

/-- The `while` of `assembly_set`: the table, and the index of an empty entry. -/
def emptyAnySize (as : Assembly) (addr : Word) : ℕ → Option (Assembly × ℕ)
  | 0 => none
  | fuel + 1 =>
    match assemblyFindEmpty as addr with
    | none => none
    | some (some idx) => some (as, idx)
    | some none => (growAnySize as fuel).bind fun as => emptyAnySize as addr fuel

/-- `assembly_set`. -/
def setAnySize (as : Assembly) (addr : Word) (text : List Char) (fuel : ℕ) : Option Assembly :=
  match assemblyFindEntry as addr with
  | none => none
  | some (some idx) => some (setEntry as idx ⟨addr, text⟩)
  | some none => (emptyAnySize as addr fuel).map fun place => setEntry place.1 place.2 ⟨addr, text⟩

/-- Calls of `assembly_set`, one after the other. -/
def setsAnySize : Assembly → List (Address × List Char) → ℕ → Option Assembly
  | as, [], _ => some as
  | as, call :: calls, fuel => (setAnySize as call.1 call.2 fuel).bind fun as => setsAnySize as calls fuel

/-- Calls of `assembly_set`, with sizes that are `int`. -/
def assemblySets : Assembly → List (Address × List Char) → Option Assembly
  | as, [] => some as
  | as, call :: calls => (assemblySet as call.1 call.2).bind fun as => assemblySets as calls

/-! ### Sound tables -/

variable {as as' : Assembly} {addr : Word} {e f : Entry} {i k n : ℕ}

def NonNegative (addr : Word) : Prop := addr.toNat < 2 ^ 31

theorem Address.nonNegative (a : Address) : NonNegative a.1 := by
  have h := a.2
  rw [BitVec.toInt_eq_toNat_cond] at h
  unfold NonNegative
  split_ifs at h with hlt
  · omega
  · omega

theorem homesApart_large (h : 2 ^ 31 ≤ n) : HomesApart NonNegative n := by
  intro a b ha hb heq
  rw [home, home, Nat.mod_eq_of_lt (lt_of_lt_of_le ha h), Nat.mod_eq_of_lt (lt_of_lt_of_le hb h)] at heq
  exact BitVec.eq_of_toNat_eq heq

/-- A table that `assembly_set` builds. -/
structure Kept (as : Assembly) : Prop where
  size : ∃ k, as.tableSize = size k
  placed : Placed NonNegative (2 ^ 31 ≤ as.tableSize) as

theorem size_pos (k : ℕ) : 0 < AssemblyFills.size k := by
  have hpos := Nat.two_pow_pos k
  rw [AssemblyFills.size]
  omega

theorem Kept.pos (h : Kept as) : 0 < as.tableSize := by
  obtain ⟨k, hk⟩ := h.size
  rw [hk]
  exact size_pos k

theorem Kept.create : Kept assemblyCreate := ⟨⟨0, rfl⟩, Placed.calloc 4⟩

/-- An entry is inside of the table. -/
theorem Kept.inside (h : Kept as) (hi : as.lookupTable i = some e) : i < as.tableSize := by
  obtain ⟨m, -, rfl⟩ := h.placed.near i e hi
  exact iterate_next_lt (Nat.mod_lt _ h.pos) m

/-! ### Growing -/

/-- The same entries, in a larger table. -/
structure Regrown (old as : Assembly) : Prop where
  kept : Kept as
  size : 1 + 2 * old.tableSize ≤ as.tableSize
  entries : ∀ e, (∃ i, as.lookupTable i = some e) ↔ ∃ i, old.lookupTable i = some e

/-- What the loops give if the size has to be an `int`. -/
def ifInt {α : Type*} (as : Assembly) (a : α) : Option α := if as.tableSize < 2 ^ 31 then some a else none

theorem map_ifInt {α β : Type*} {a : α} {g : α → β} : (ifInt as a).map g = ifInt as (g a) := by
  unfold ifInt
  split_ifs
  · rfl
  · rfl

theorem size_double (k : ℕ) : 1 + AssemblyFills.size k * 2 = AssemblyFills.size (k + 1) := by
  rw [size_succ, Nat.mul_comm]

/-- One attempt: the old entries are in the new table, or two of them collide. -/
theorem rehash_kept (h : Kept as) (hk : 1 + 2 * as.tableSize ≤ AssemblyFills.size k) :
    (∃ as', rehash as.lookupTable (calloc (AssemblyFills.size k)) 0 as.tableSize = some (some as') ∧ Regrown as as' ∧
        as'.tableSize = AssemblyFills.size k) ∨
      rehash as.lookupTable (calloc (AssemblyFills.size k)) 0 as.tableSize = some none ∧
        AssemblyFills.size k < 2 ^ 31 := by
  rcases rehash_placed (D := 2 ^ 31 ≤ AssemblyFills.size k) (fun _ => id) h.placed as.tableSize 0
    (calloc (AssemblyFills.size k)) homesApart_large (Placed.calloc _) Copied.calloc with
    ⟨as', hrehash, hsize, hplaced, hcopied⟩ | ⟨hrehash, hint⟩
  · have hsize' : as'.tableSize = AssemblyFills.size k := hsize
    refine Or.inl ⟨as', hrehash, ⟨⟨⟨k, hsize'⟩, by rw [hsize']; exact hplaced⟩, hsize' ▸ hk, fun e => ?_⟩, hsize'⟩
    rw [Nat.zero_add] at hcopied
    constructor
    · rintro ⟨j, hj⟩
      obtain ⟨i, _, hi⟩ := hcopied.only j e hj
      exact ⟨i, hi⟩
    · rintro ⟨i, hi⟩
      exact hcopied.all i (h.inside hi) e hi
  · exact Or.inr ⟨hrehash, Nat.lt_of_not_le hint⟩

/-- **Growing ends**, at a size of `2^31` at the latest. -/
theorem growSizes_yields (h : Kept as) : ∀ rounds k, 1 + 2 * as.tableSize ≤ AssemblyFills.size k →
    2 ^ 31 ≤ AssemblyFills.size k * 2 ^ rounds →
      ∃ as', Yields (growSizes as (AssemblyFills.size k)) as' ∧ Regrown as as' ∧
        AssemblyFills.size k ≤ as'.tableSize ∧
          growLoop as (AssemblyFills.size k) (rounds + 1) = ifInt as' as' := by
  intro rounds
  induction rounds with
  | zero =>
    intro k hk hrounds
    rw [pow_zero, Nat.mul_one] at hrounds
    rcases rehash_kept h hk with ⟨as', hrehash, hgrown, hsize⟩ | ⟨_, hint⟩
    · refine ⟨as', .now rfl fun _ => by rw [growSizes]; simp only [hrehash], hgrown, hsize.ge, ?_⟩
      rw [growLoop, if_pos hrounds, ifInt, if_neg (by omega)]
    · omega
  | succ rounds ih =>
    intro k hk hrounds
    rcases rehash_kept h hk with ⟨as', hrehash, hgrown, hsize⟩ | ⟨hrehash, hint⟩
    · refine ⟨as', .now rfl fun _ => by rw [growSizes]; simp only [hrehash], hgrown, hsize.ge, ?_⟩
      rw [growLoop, ifInt, hsize]
      split_ifs with hlarge hint
      · omega
      · rfl
      · simp only [hrehash]
      · omega
    · have hdouble : 1 + 2 * as.tableSize ≤ AssemblyFills.size (k + 1) := by
        rw [← size_double]
        omega
      have hrounds' : 2 ^ 31 ≤ AssemblyFills.size (k + 1) * 2 ^ rounds := by
        calc 2 ^ 31 ≤ AssemblyFills.size k * 2 ^ (rounds + 1) := hrounds
          _ = AssemblyFills.size k * 2 * 2 ^ rounds := by rw [pow_succ', Nat.mul_assoc]
          _ ≤ AssemblyFills.size (k + 1) * 2 ^ rounds :=
            Nat.mul_le_mul_right _ (by rw [← size_double]; omega)
      obtain ⟨as', hyields, hgrown, hle, hloop⟩ := ih (k + 1) hdouble hrounds'
      refine ⟨as', hyields.next rfl fun _ => ?_, hgrown, by rw [← size_double] at hle; omega, ?_⟩
      · rw [growSizes, hrehash]
        simp only [size_double]
      · rw [growLoop, if_neg (Nat.not_le.mpr hint), hrehash]
        simp only [size_double, hloop]

/-- **`assembly_grow_and_rehash`** loses, doubles and changes no entry. -/
theorem grow_yields (h : Kept as) :
    ∃ as', Yields (growAnySize as) as' ∧ Regrown as as' ∧ assemblyGrowAndRehash as = ifInt as' as' := by
  obtain ⟨k, hk⟩ := h.size
  have hsize : 1 + 2 * as.tableSize = AssemblyFills.size (k + 1) := by
    rw [hk, size_succ]
  have hrounds : 2 ^ 31 ≤ AssemblyFills.size (k + 1) * 2 ^ 31 := Nat.le_mul_of_pos_left _ (size_pos _)
  obtain ⟨as', hyields, hgrown, -, hloop⟩ := growSizes_yields h 31 (k + 1) hsize.le hrounds
  rw [← hsize] at hyields hloop
  exact ⟨as', hyields, hgrown, hloop⟩

theorem Regrown.new (h : Regrown as as') (hnew : New as addr) : New as' addr := by
  intro j f hj
  obtain ⟨i, hi⟩ := (h.entries f).mp ⟨j, hj⟩
  exact hnew i f hi

/-! ### Setting an entry -/

/-- A table with the same entries and room for the address. -/
structure Room (old : Assembly) (addr : Word) (place : Assembly × ℕ) : Prop where
  kept : Kept place.1
  new : New place.1 addr
  size : old.tableSize ≤ place.1.tableSize
  entries : ∀ e, (∃ i, place.1.lookupTable i = some e) ↔ ∃ i, old.lookupTable i = some e
  empty : assemblyFindEmpty place.1 addr = some (some place.2)

/-- The empty entry is an entry of the table. -/
theorem Room.free {place : Assembly × ℕ} (h : Room as addr place) (haddr : NonNegative addr) :
    place.1.lookupTable place.2 = none ∧ place.2 < place.1.tableSize := by
  obtain ⟨hfree, m, -, hidx⟩ := empty_of_find (fun _ => id) haddr h.empty
  refine ⟨hfree, ?_⟩
  rw [hidx]
  exact iterate_next_lt (Nat.mod_lt _ h.kept.pos) m

/-- **The search for an empty entry ends.** -/
theorem empty_yields (haddr : NonNegative addr) : ∀ rounds as, Kept as → New as addr →
    2 ^ 31 ≤ as.tableSize * 2 ^ rounds → ∃ place, Yields (emptyAnySize as addr) place ∧ Room as addr place ∧
      (as.tableSize < 2 ^ 31 → emptyLoop as addr (rounds + 1) = ifInt place.1 place) := by
  intro rounds
  induction rounds with
  | zero =>
    intro as h hnew hrounds
    rw [pow_zero, Nat.mul_one] at hrounds
    have hempty := h.placed.home_empty (fun _ => id) homesApart_large hrounds haddr hnew
    refine ⟨(as, home as.tableSize addr), .now rfl fun _ => by rw [emptyAnySize]; simp only [hempty],
      ⟨h, hnew, le_rfl, fun _ => Iff.rfl, hempty⟩, fun hint => ?_⟩
    omega
  | succ rounds ih =>
    intro as h hnew hrounds
    rcases hempty : assemblyFindEmpty as addr with _ | _ | idx
    · rw [assemblyFindEmpty_of_lt haddr] at hempty
      exact nomatch hempty
    · obtain ⟨as1, hgrow, hgrown, hgrowInt⟩ := grow_yields h
      have hrounds' : 2 ^ 31 ≤ as1.tableSize * 2 ^ rounds := by
        calc 2 ^ 31 ≤ as.tableSize * 2 ^ (rounds + 1) := hrounds
          _ = as.tableSize * 2 * 2 ^ rounds := by rw [pow_succ', Nat.mul_assoc]
          _ ≤ as1.tableSize * 2 ^ rounds := Nat.mul_le_mul_right _ (by have := hgrown.size; omega)
      obtain ⟨place, hyields, hroom, hloop⟩ := ih as1 hgrown.kept (hgrown.new hnew) hrounds'
      have hsize := hgrown.size
      have hsize' := hroom.size
      have hnext : Yields (fun fuel => (growAnySize as fuel).bind fun as => emptyAnySize as addr fuel) place :=
        hgrow.bind (g := fun as => emptyAnySize as addr) hyields
      refine ⟨place, hnext.next rfl fun fuel => ?_, ⟨hroom.kept, hroom.new, by omega, fun e => ?_,
        hroom.empty⟩, fun hint => ?_⟩
      · rw [emptyAnySize, hempty]
      · exact (hroom.entries e).trans (hgrown.entries e)
      · rw [emptyLoop, hempty]
        simp only [hgrowInt]
        rcases Nat.lt_or_ge as1.tableSize (2 ^ 31) with hlt | hge
        · rw [ifInt, if_pos hlt, Option.bind_some, hloop hlt]
        · rw [ifInt, if_neg (Nat.not_lt.mpr hge), Option.bind_none, ifInt, if_neg (by omega)]
    · refine ⟨(as, idx), .now rfl fun _ => by rw [emptyAnySize]; simp only [hempty],
        ⟨h, hnew, le_rfl, fun _ => Iff.rfl, hempty⟩, fun hint => ?_⟩
      rw [emptyLoop, ifInt, if_pos hint]
      simp only [hempty]

/-! ### The map -/

/-- The entries of the table are those of the map. -/
def Represents (as : Assembly) (m : Address → Option (List Char)) : Prop :=
  ∀ (a : Address) text, (∃ i, as.lookupTable i = some ⟨a.1, text⟩) ↔ m a = some text

variable {m : Address → Option (List Char)}

theorem Represents.congr (h : Represents as m)
    (hentries : ∀ e, (∃ i, as'.lookupTable i = some e) ↔ ∃ i, as.lookupTable i = some e) : Represents as' m :=
  fun a text => (hentries ⟨a.1, text⟩).trans (h a text)

/-- An entry over the one of its address, or where there is none. -/
theorem Represents.set (h : Represents as m) {a : Address} (text : List Char)
    (hhere : ∀ f, as.lookupTable i = some f → f.addr = a.1)
    (hother : ∀ j f, as.lookupTable j = some f → f.addr = a.1 → j = i) :
    Represents (setEntry as i ⟨a.1, text⟩) (Function.update m a (some text)) := by
  intro b u
  by_cases hba : b = a
  · subst hba
    rw [Function.update_self]
    constructor
    · rintro ⟨j, hj⟩
      rcases setEntry_some hj with ⟨_, hf⟩ | ⟨hne, hold⟩
      · rw [Entry.mk.injEq] at hf
        rw [hf.2]
      · exact absurd (hother j _ hold rfl) hne
    · intro hu
      obtain rfl := Option.some.inj hu
      exact ⟨i, setEntry_self⟩
  · rw [Function.update_of_ne hba, ← h b u]
    have hne : b.1 ≠ a.1 := fun heq => hba (Subtype.ext heq)
    constructor
    · rintro ⟨j, hj⟩
      rcases setEntry_some hj with ⟨_, hf⟩ | ⟨_, hold⟩
      · rw [Entry.mk.injEq] at hf
        exact absurd hf.1 hne
      · exact ⟨j, hold⟩
    · rintro ⟨j, hj⟩
      have hji : j ≠ i := by
        rintro rfl
        exact hne (hhere _ hj)
      exact ⟨j, (setEntry_of_ne hji).trans hj⟩

/-- **`assembly_get`** reads the map. -/
theorem get_represents (h : Kept as) (hm : Represents as m) (a : Address) :
    assemblyGet as a.1 = some ((m a).getD []) := by
  rw [assemblyGet]
  rcases hfind : assemblyFindEntry as a.1 with _ | _ | i
  · rw [assemblyFindEntry_of_lt a.nonNegative] at hfind
    exact nomatch hfind
  · have hnew := h.placed.new_of_find (fun _ => id) a.nonNegative hfind
    rcases ha : m a with _ | text
    · rfl
    · obtain ⟨i, hi⟩ := (hm a text).mpr ha
      exact absurd rfl (hnew i _ hi)
  · obtain ⟨⟨f, hf, hfa⟩, -⟩ := found_of_find (P := NonNegative) (fun _ => id) a.nonNegative hfind
    have ha : m a = some f.text := (hm a f.text).mp ⟨i, by rw [hf, ← hfa]⟩
    simp only [ha, Option.map_some, hf, Option.elim_some, Option.getD_some]

/-- **`assembly_set`** sets the text of the address. -/
theorem set_yields (h : Kept as) (hm : Represents as m) (a : Address) (text : List Char) :
    ∃ as', Yields (setAnySize as a.1 text) as' ∧ Kept as' ∧ Represents as' (Function.update m a (some text)) ∧
      as.tableSize ≤ as'.tableSize ∧
        (as.tableSize < 2 ^ 31 → assemblySet as a.1 text = ifInt as' as') := by
  unfold setAnySize assemblySet
  rcases hfind : assemblyFindEntry as a.1 with _ | _ | i
  · rw [assemblyFindEntry_of_lt a.nonNegative] at hfind
    exact nomatch hfind
  · have hnew := h.placed.new_of_find (fun _ => id) a.nonNegative hfind
    have hrounds : 2 ^ 31 ≤ as.tableSize * 2 ^ 31 := Nat.le_mul_of_pos_left _ h.pos
    obtain ⟨⟨as1, i⟩, hyields, hroom, hloop⟩ := empty_yields a.nonNegative 31 as h hnew hrounds
    obtain ⟨hfree, -⟩ := hroom.free a.nonNegative
    refine ⟨setEntry as1 i ⟨a.1, text⟩, ?_, ⟨hroom.kept.size, ?_⟩, ?_, hroom.size, fun hint => ?_⟩
    · simp only [Option.map_eq_bind]
      exact hyields.bind (yields_some _)
    · exact hroom.kept.placed.insert (fun _ => id) homesApart_large a.nonNegative hroom.new hroom.empty
    · refine (hm.congr hroom.entries).set text (fun f hf => ?_) fun j f hj hf => absurd hf (hroom.new j f hj)
      rw [hfree] at hf
      exact nomatch hf
    · exact (congrArg (Option.map _) (hloop hint)).trans map_ifInt
  · obtain ⟨⟨f, hf, hfa⟩, hnear⟩ := found_of_find (P := NonNegative) (fun _ => id) a.nonNegative hfind
    have hother : ∀ j g, as.lookupTable j = some g → g.addr = a.1 → j = i :=
      fun j g hj hg => h.placed.once j i g f hj hf (hg.trans hfa.symm)
    refine ⟨setEntry as i ⟨a.1, text⟩, yields_some _, ⟨h.size, ?_⟩, ?_, le_rfl, fun hint => ?_⟩
    · refine h.placed.set a.nonNegative hother hnear fun hlarge => ?_
      have hplace := h.placed.direct hlarge i f hf
      rwa [hfa] at hplace
    · refine hm.set text (fun g hg => ?_) hother
      rw [hf] at hg
      rw [← Option.some.inj hg]
      exact hfa
    · rw [ifInt, setEntry_tableSize, if_pos hint]

/-- **A sequence of calls.** -/
theorem sets_yields : ∀ (calls : List (Address × List Char)) (as : Assembly) (m : Address → Option (List Char)),
    Kept as → Represents as m →
      ∃ as', Yields (setsAnySize as calls) as' ∧ Kept as' ∧
        Represents as' (fun a => (lastWrite? calls a).or (m a)) ∧ as.tableSize ≤ as'.tableSize ∧
          (as.tableSize < 2 ^ 31 → assemblySets as calls = ifInt as' as')
  | [], as, m, h, hm =>
    ⟨as, yields_some as, h, by simpa using hm, le_rfl, fun hint => by rw [assemblySets, ifInt, if_pos hint]⟩
  | call :: calls, as, m, h, hm => by
    obtain ⟨as1, hset, h1, hm1, hsize1, hint1⟩ := set_yields h hm call.1 call.2
    obtain ⟨as2, hsets, h2, hm2, hsize2, hint2⟩ := sets_yields calls as1 _ h1 hm1
    refine ⟨as2, hset.bind hsets, h2, ?_, hsize1.trans hsize2, fun hint => ?_⟩
    · convert hm2 using 2 with a
      rw [lastWrite?_cons, Option.or_assoc]
      congr 1
      by_cases ha : call.1 = a
      · rw [if_pos ha, ← ha, Function.update_self, Option.some_or]
      · rw [if_neg ha, Function.update_of_ne (Ne.symm ha), Option.none_or]
    · rw [assemblySets, hint1 hint]
      rcases Nat.lt_or_ge as1.tableSize (2 ^ 31) with hlt | hge
      · rw [ifInt, if_pos hlt, Option.bind_some, hint2 hlt]
      · rw [ifInt, if_neg (Nat.not_lt.mpr hge), Option.bind_none, ifInt, if_neg (by omega)]

/-- From a fresh table, the map is the history of the calls. -/
theorem create_yields (calls : List (Address × List Char)) :
    ∃ as, Yields (setsAnySize assemblyCreate calls) as ∧ Kept as ∧ Represents as (lastWrite? calls) ∧
      assemblySets assemblyCreate calls = ifInt as as := by
  have hempty : Represents assemblyCreate fun _ => none := by
    intro a text
    constructor
    · rintro ⟨i, hi⟩
      exact nomatch hi
    · exact nofun
  obtain ⟨as, hyields, h, hm, -, hint⟩ := sets_yields calls _ _ Kept.create hempty
  exact ⟨as, hyields, h, by simpa using hm, hint (by decide)⟩

/-- **The table is the map of the calls.** -/
structure MapOf (calls : List (Address × List Char)) (as : Assembly) : Prop where
  get : ∀ a : Address, assemblyGet as a.1 = some (lastWritten [] calls a)
  /-- An entry stands in the table, for an address that was set, with the text that was set last. -/
  entry : ∀ i e, as.lookupTable i = some e →
    i < as.tableSize ∧ ∃ a : Address, e.addr = a.1 ∧ lastWrite? calls a = some e.text
  once : ∀ i j e f, as.lookupTable i = some e → as.lookupTable j = some f → e.addr = f.addr → i = j

theorem Represents.mapOf {calls : List (Address × List Char)} (h : Kept as) (hm : Represents as (lastWrite? calls)) :
    MapOf calls as := by
  refine ⟨get_represents h hm, fun i e hi => ⟨h.inside hi, ?_⟩, h.placed.once⟩
  have haddr := h.placed.addrs i e hi
  have hint : 0 ≤ e.addr.toInt := by
    unfold NonNegative at haddr
    rw [BitVec.toInt_eq_toNat_of_lt (by omega)]
    omega
  exact ⟨⟨e.addr, hint⟩, rfl, (hm ⟨e.addr, hint⟩ e.text).mp ⟨i, hi⟩⟩

/-- **`assembly_get` gives the text that was set last.** The calls end, no address has two entries, and growing the
table keeps exactly its entries. With sizes that are `int` the calls give this table if it is below `2^31`, and
else have no result. -/
theorem table_is_map (calls : List (Address × List Char)) :
    ∃ as, Yields (setsAnySize assemblyCreate calls) as ∧ MapOf calls as ∧
      (∃ grown, Yields (growAnySize as) grown ∧ MapOf calls grown ∧
        ∀ e, (∃ i, grown.lookupTable i = some e) ↔ ∃ i, as.lookupTable i = some e) ∧
      assemblySets assemblyCreate calls = if as.tableSize < 2 ^ 31 then some as else none := by
  obtain ⟨as, hyields, h, hm, hint⟩ := create_yields calls
  obtain ⟨grown, hgrow, hgrown, -⟩ := grow_yields h
  exact ⟨as, hyields, hm.mapOf h, ⟨grown, hgrow, (hm.congr hgrown.entries).mapOf hgrown.kept, hgrown.entries⟩, hint⟩

/-- **Growing ends.** After any calls, for an address that was not set, the loop of `assembly_grow_and_rehash`
ends, and so does the loop of `assembly_set`, with an entry of the table that is empty. -/
theorem growth_ends (calls : List (Address × List Char)) (addr : Address) (hnew : addr ∉ calls.map Prod.fst) :
    ∃ as, Yields (setsAnySize assemblyCreate calls) as ∧ (∃ grown, Yields (growAnySize as) grown) ∧
      ∃ as' idx, Yields (emptyAnySize as addr.1) (as', idx) ∧ assemblyFindEmpty as' addr.1 = some (some idx) ∧
        idx < as'.tableSize ∧ as'.lookupTable idx = none := by
  obtain ⟨as, hyields, h, hm, -⟩ := create_yields calls
  obtain ⟨grown, hgrow, -⟩ := grow_yields h
  have hnone : lastWrite? calls addr = none := by
    rw [lastWrite?_eq_none]
    exact fun call hcall heq => hnew (List.mem_map.mpr ⟨call, hcall, heq⟩)
  have hnew' : New as addr.1 := by
    intro j f hj hf
    have hentry := (hm addr f.text).mp ⟨j, by rw [hj, ← hf]⟩
    rw [hnone] at hentry
    exact nomatch hentry
  have hrounds : 2 ^ 31 ≤ as.tableSize * 2 ^ 31 := Nat.le_mul_of_pos_left _ h.pos
  obtain ⟨⟨as', idx⟩, hempty, hroom, -⟩ := empty_yields addr.nonNegative 31 as h hnew' hrounds
  obtain ⟨hfree, hinside⟩ := hroom.free addr.nonNegative
  exact ⟨as, hyields, ⟨grown, hgrow⟩, as', idx, hempty, hroom.empty, hinside, hfree⟩

theorem growth_ends_second : ∃ as, Yields (setsAnySize assemblyCreate [(⟨0, by decide⟩, ['x'])]) as ∧
    (∃ grown, Yields (growAnySize as) grown) ∧
      ∃ as' idx, Yields (emptyAnySize as 4) (as', idx) ∧ assemblyFindEmpty as' 4 = some (some idx) ∧
        idx < as'.tableSize ∧ as'.lookupTable idx = none :=
  growth_ends [(⟨0, by decide⟩, ['x'])] ⟨4, by decide⟩ (by decide)

/-! ### Crowded tables -/

theorem toInt_nonneg (n : ℕ) : 0 ≤ (BitVec.ofNat 32 (n % 2 ^ 31)).toInt := by
  rw [BitVec.toInt_eq_toNat_of_lt (by rw [BitVec.toNat_ofNat]; omega)]
  omega

def address (n : ℕ) : Address := ⟨BitVec.ofNat 32 (n % 2 ^ 31), toInt_nonneg n⟩

/-- The first four addresses, and for each size of a table the four with the same homes. -/
def crowd : List Address :=
  (List.range 4).map address ++
    (List.range 29).flatMap fun k => (List.range 4).map fun r => address (r + AssemblyFills.size k)

theorem iterate_next_le (size idx : ℕ) : ∀ m, (next size)^[m] idx ≤ idx + m
  | 0 => le_rfl
  | m + 1 => by
    have ih := iterate_next_le size idx m
    rw [Function.iterate_succ_apply', next]
    split_ifs with hend
    · omega
    · omega

/-- Two for each of the homes `0` to `3`. -/
def crowdedAt (k : ℕ) (n : Fin 8) : ℕ := if n.1 < 4 then n.1 else n.1 - 4 + AssemblyFills.size k

theorem crowdedAt_mem (hk : k < 29) (n : Fin 8) : address (crowdedAt k n) ∈ crowd := by
  have hn := n.2
  rw [crowd, crowdedAt, List.mem_append]
  split_ifs with hlt
  · exact Or.inl (List.mem_map.mpr ⟨n.1, List.mem_range.mpr hlt, rfl⟩)
  · exact Or.inr (List.mem_flatMap.mpr ⟨k, List.mem_range.mpr hk,
      List.mem_map.mpr ⟨n.1 - 4, List.mem_range.mpr (by omega), rfl⟩⟩)

theorem four_le_size (k : ℕ) : 4 ≤ AssemblyFills.size k := by
  have hpos := Nat.two_pow_pos k
  rw [AssemblyFills.size]
  omega

theorem toNat_crowdedAt (hk : k < 29) (n : Fin 8) : (address (crowdedAt k n)).1.toNat = crowdedAt k n := by
  have hn := n.2
  have hpow : 2 ^ k ≤ 2 ^ 28 := Nat.pow_le_pow_right (by omega) (by omega)
  have hlt : crowdedAt k n < 2 ^ 31 := by
    rw [crowdedAt, AssemblyFills.size]
    split_ifs with h4
    · omega
    · omega
  rw [address, BitVec.toNat_ofNat]
  omega

theorem home_crowdedAt (hk : k < 29) (n : Fin 8) :
    home (AssemblyFills.size k) (address (crowdedAt k n)).1 < 4 := by
  have hn := n.2
  have hfour := four_le_size k
  rw [home, toNat_crowdedAt hk, crowdedAt]
  split_ifs with h4
  · rw [Nat.mod_eq_of_lt (by omega)]
    exact h4
  · rw [Nat.add_mod_right, Nat.mod_eq_of_lt (by omega)]
    omega

theorem crowdedAt_injective : Function.Injective (crowdedAt k) := by
  intro n n' h
  have hfour := four_le_size k
  unfold crowdedAt at h
  split_ifs at h with h4 h4' h4'
  · exact Fin.ext h
  · omega
  · omega
  · exact Fin.ext (by omega)

/-- **Crowded addresses.** No table of fewer than `2^31` entries takes them all: the eight of its size would have
to stand in the first seven entries. -/
theorem crowd_overflows : assemblySets assemblyCreate (crowd.map fun a => (a, ['x'])) = none := by
  obtain ⟨as, -, h, hm, hint⟩ := create_yields (crowd.map fun a => (a, ['x']))
  rw [hint, ifInt, if_neg]
  intro hlt
  obtain ⟨k, hk⟩ := h.size
  have hk29 : k < 29 := by
    by_contra hge
    have hpow : 2 ^ 29 ≤ 2 ^ k := Nat.pow_le_pow_right (by omega) (by omega)
    rw [hk, AssemblyFills.size] at hlt
    omega
  have hin : ∀ n, ∃ i < 7, as.lookupTable i = some ⟨(address (crowdedAt k n)).1, ['x']⟩ := by
    intro n
    have hset : lastWrite? (crowd.map fun a => (a, ['x'])) (address (crowdedAt k n)) = some ['x'] := by
      rcases hlast : lastWrite? (crowd.map fun a => (a, ['x'])) (address (crowdedAt k n)) with _ | text
      · rw [lastWrite?_eq_none] at hlast
        exact absurd rfl (hlast _ (List.mem_map.mpr ⟨_, crowdedAt_mem hk29 n, rfl⟩))
      · obtain ⟨a, -, ha⟩ := List.mem_map.mp (mem_of_lastWrite? hlast)
        rw [(Prod.mk.inj ha).2]
    obtain ⟨i, hi⟩ := (hm _ _).mpr hset
    obtain ⟨m, hm4, hplace⟩ : ∃ m < 4,
        i = (next as.tableSize)^[m] (home as.tableSize (address (crowdedAt k n)).1) := h.placed.near i _ hi
    rw [hk] at hplace
    have hle := iterate_next_le (AssemblyFills.size k) (home (AssemblyFills.size k) (address (crowdedAt k n)).1) m
    have hhome := home_crowdedAt hk29 n
    exact ⟨i, by omega, hi⟩
  choose place hseven hplace using hin
  have hinj : Function.Injective fun n => (⟨place n, hseven n⟩ : Fin 7) := by
    intro n n' heq
    have hsame := hplace n'
    rw [← Fin.mk.inj_iff.mp heq, hplace n, Option.some.injEq, Entry.mk.injEq] at hsame
    refine crowdedAt_injective (k := k) ?_
    rw [← toNat_crowdedAt hk29, ← toNat_crowdedAt hk29 n', hsame.1]
  have hcard := Fintype.card_le_of_injective _ hinj
  simp at hcard

end CompSys.A5.AssemblyMap
