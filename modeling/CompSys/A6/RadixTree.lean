import CompSys.Lib.Prefix
import CompSys.Lib.Bag

/-! # Radix trees as a data type

The tree of `A6/handout/radix.c` without its pointers: a leaf pairs two numbers that differ in bit 0,
an interior node branches on a bit. `Wf b p t`: the nodes of `t` branch on bits below `b` and strictly
downwards, and the numbers under it have the prefix `p` above them. `insert` and `take` keep it; on
the members, in order (`toList`), they add one and drop the first ones. -/

namespace CompSys.A6.RadixTree

open CompSys.Lib.Prefix

/-- A subtree. `number` is the number a node was made for, which gives the prefix of its members. -/
inductive Tree
  | empty
  | leaf (number countZero countOne : ℕ)
  | interior (bit number : ℕ) (zero one : Tree)

namespace Tree

/-- The members, in order. -/
def toList : Tree → List ℕ
  | empty => []
  | leaf n c0 c1 => List.replicate c0 (2 * (n / 2)) ++ List.replicate c1 (2 * (n / 2) + 1)
  | interior _ _ z o => z.toList ++ o.toList

/-- A leaf with `v` once. -/
def newLeaf (v : ℕ) : Tree := leaf v (if v % 2 = 0 then 1 else 0) (if v % 2 = 1 then 1 else 0)

/-- A new node for the subtree `t` of a node made for `n`, which `v` does not belong under. -/
def inject (v n : ℕ) (t : Tree) : Tree :=
  if v.testBit (topBit v n) then interior (topBit v n) v t (newLeaf v)
  else interior (topBit v n) v (newLeaf v) t

/-- `add_number`. -/
def insert (v : ℕ) : Tree → Tree
  | empty => newLeaf v
  | leaf n c0 c1 =>
    if v / 2 = n / 2 then
      if v % 2 = 1 then leaf n c0 (c1 + 1) else leaf n (c0 + 1) c1
    else inject v n (leaf n c0 c1)
  | interior k n z o =>
    if v / 2 ^ (k + 1) = n / 2 ^ (k + 1) then
      if v.testBit k then interior k n z (insert v o) else interior k n (insert v z) o
    else inject v n (interior k n z o)

/-- A leaf that is removed when it is used up. -/
def mkLeaf (n c0 c1 : ℕ) : Tree := if c0 = 0 ∧ c1 = 0 then empty else leaf n c0 c1

/-- An interior node that is removed when both subtrees are. -/
def mkInterior (k n : ℕ) : Tree → Tree → Tree
  | empty, empty => empty
  | z, o => interior k n z o

/-- `take_numbers_2`, where `room` more numbers fit the buffer. -/
def take : Tree → ℕ → List ℕ × Tree
  | empty, _ => ([], empty)
  | leaf n c0 c1, room =>
    let t0 := min room c0
    let t1 := min (room - t0) c1
    (List.replicate t0 (2 * (n / 2)) ++ List.replicate t1 (2 * (n / 2) + 1),
      mkLeaf n (c0 - t0) (c1 - t1))
  | interior k n z o, room =>
    let r := z.take room
    let r' := o.take (room - r.1.length)
    (r.1 ++ r'.1, mkInterior k n r.2 r'.2)

/-- The representation invariant below bit `b`, with the prefix `p`. -/
def Wf : ℕ → ℕ → Tree → Prop
  | _, _, empty => True
  | b, p, leaf n c0 c1 => 1 ≤ b ∧ n / 2 ^ b = p ∧ 0 < c0 + c1
  | b, p, interior k n z o =>
    1 ≤ k ∧ k < b ∧ n / 2 ^ b = p ∧ Wf k (2 * (n / 2 ^ (k + 1))) z ∧
      Wf k (2 * (n / 2 ^ (k + 1)) + 1) o ∧ ¬ (z = empty ∧ o = empty)

/-! ### Members and prefixes -/

theorem leaf_div (n : ℕ) {x b : ℕ} (hx : x / 2 = n / 2) (hb : 1 ≤ b) : x / 2 ^ b = n / 2 ^ b :=
  div_pow_congr (j := 1) hb (by simpa using hx)

/-- **The members have the prefix.** -/
theorem div_of_mem {b p x : ℕ} {t : Tree} (h : Wf b p t) (hx : x ∈ t.toList) : x / 2 ^ b = p := by
  induction t generalizing b p with
  | empty => simp [toList] at hx
  | leaf n c0 c1 =>
    obtain ⟨hb, hn, -⟩ := h
    simp only [toList, List.mem_append, List.mem_replicate] at hx
    rw [← hn]
    rcases hx with ⟨-, rfl⟩ | ⟨-, rfl⟩ <;> exact leaf_div n (by omega) hb
  | interior k n z o ihz iho =>
    obtain ⟨hk, hkb, hn, hz, ho, -⟩ := h
    rw [← hn]
    refine div_pow_congr (j := k + 1) (by omega) ?_
    rw [pow_succ, ← Nat.div_div_eq_div_mul, ← Nat.div_div_eq_div_mul]
    simp only [toList, List.mem_append] at hx
    rcases hx with hx | hx
    · rw [ihz hz hx, pow_succ, ← Nat.div_div_eq_div_mul]
      omega
    · rw [iho ho hx, pow_succ, ← Nat.div_div_eq_div_mul]
      omega

/-- **The members are listed in order.** -/
theorem sorted_toList {b p : ℕ} {t : Tree} (h : Wf b p t) : t.toList.Pairwise (· ≤ ·) := by
  induction t generalizing b p with
  | empty => exact .nil
  | leaf n c0 c1 =>
    refine List.pairwise_append.mpr ⟨?_, ?_, fun x hx y hy => ?_⟩
    · exact List.pairwise_replicate.mpr (Or.inr (le_refl _))
    · exact List.pairwise_replicate.mpr (Or.inr (le_refl _))
    · rw [List.eq_of_mem_replicate hx, List.eq_of_mem_replicate hy]
      omega
  | interior k n z o ihz iho =>
    obtain ⟨-, -, -, hz, ho, -⟩ := h
    refine List.pairwise_append.mpr ⟨ihz hz, iho ho, fun x hx y hy => ?_⟩
    have h1 := div_of_mem hz hx
    have h2 := div_of_mem ho hy
    by_contra hlt
    have := Nat.div_le_div_right (c := 2 ^ k) (not_le.mp hlt).le
    omega

/-! ### Adding -/

theorem wf_newLeaf {b v : ℕ} (hb : 1 ≤ b) : Wf b (v / 2 ^ b) (newLeaf v) := by
  refine ⟨hb, rfl, ?_⟩
  rcases Nat.mod_two_eq_zero_or_one v with h | h <;> simp [h]

theorem toList_newLeaf (v : ℕ) : (newLeaf v).toList = [v] := by
  rcases Nat.mod_two_eq_zero_or_one v with h | h
  · simp [newLeaf, toList, h]; omega
  · simp [newLeaf, toList, h]; omega

/-- A subtree below bit `b` whose node branches below bit `j` is one below bit `j`. -/
theorem Wf.narrow_leaf {b j p n c0 c1 : ℕ} (h : Wf b p (leaf n c0 c1)) (hj : 1 ≤ j) :
    Wf j (n / 2 ^ j) (leaf n c0 c1) := ⟨hj, rfl, h.2.2⟩

theorem Wf.narrow_interior {b j k p n : ℕ} {z o : Tree} (h : Wf b p (interior k n z o))
    (hj : k < j) : Wf j (n / 2 ^ j) (interior k n z o) :=
  ⟨h.1, hj, rfl, h.2.2.2⟩

theorem toList_inject (v n : ℕ) (t : Tree) : (inject v n t).toList.Perm (v :: t.toList) := by
  unfold inject
  split_ifs
  · rw [toList, toList_newLeaf]
    exact List.perm_append_comm
  · rw [toList, toList_newLeaf]
    exact .refl _

/-- **Adding a number** adds it to the members. -/
theorem toList_insert (v : ℕ) (t : Tree) : (insert v t).toList.Perm (v :: t.toList) := by
  induction t with
  | empty => rw [insert, toList_newLeaf]; exact .refl _
  | leaf n c0 c1 =>
    unfold insert
    split_ifs with heq hodd
    · have hv : v = 2 * (n / 2) + 1 := by omega
      simp only [toList, List.replicate_succ', ← List.append_assoc]
      rw [← hv]
      exact List.perm_append_comm
    · have hv : v = 2 * (n / 2) := by omega
      simp only [toList, List.replicate_succ]
      rw [← hv]
      exact .refl _
    · exact toList_inject v n _
  | interior k n z o ihz iho =>
    unfold insert
    split_ifs
    · simp only [toList]
      exact (iho.append_left _).trans List.perm_middle
    · exact ihz.append_right _
    · exact toList_inject v n _

theorem insert_ne_empty (v : ℕ) (t : Tree) : insert v t ≠ empty := by
  intro h
  have hp := (toList_insert v t).length_eq
  rw [h] at hp
  simp [toList] at hp

/-- **An injected node** branches at the highest bit at which `v` and the subtree differ. -/
theorem wf_inject {b i v n : ℕ} {t : Tree} (hi : v / 2 ^ (i + 1) ≠ n / 2 ^ (i + 1))
    (hb : v / 2 ^ b = n / 2 ^ b) (ht : ∀ j, i < j → Wf j (n / 2 ^ j) t) :
    Wf b (v / 2 ^ b) (inject v n t) := by
  have hne : v ≠ n := fun h => hi (by rw [h])
  obtain ⟨habove, hbit⟩ := topBit_spec hne
  have hlt := topBit_lt hne hb
  have hge := le_topBit hi
  have hwt := ht (topBit v n) (by omega)
  have hwv := wf_newLeaf (v := v) (show 1 ≤ topBit v n by omega)
  rw [div_pow_eq, ← habove] at hwt
  rw [div_pow_eq] at hwv
  unfold inject
  split_ifs with hv
  · rw [hv] at hwv hbit
    have hn : n.testBit (topBit v n) = false := by simpa using hbit.symm
    rw [hn] at hwt
    exact ⟨by omega, hlt, rfl, hwt, hwv, fun h => by cases h.2⟩
  · rw [Bool.not_eq_true] at hv
    rw [hv] at hwv hbit
    have hn : n.testBit (topBit v n) = true := by simpa using hbit.symm
    rw [hn] at hwt
    exact ⟨by omega, hlt, rfl, hwv, hwt, fun h => by cases h.1⟩

/-- **Adding a number** of the right prefix keeps the invariant. -/
theorem wf_insert {b v : ℕ} {t : Tree} (hb : 1 ≤ b) (h : Wf b (v / 2 ^ b) t) :
    Wf b (v / 2 ^ b) (insert v t) := by
  induction t generalizing b with
  | empty => exact wf_newLeaf hb
  | leaf n c0 c1 =>
    unfold insert
    split_ifs with heq hodd
    · exact ⟨hb, h.2.1, by omega⟩
    · exact ⟨hb, h.2.1, by omega⟩
    · refine wf_inject (i := 0) (by simpa using heq) h.2.1.symm fun j hj => h.narrow_leaf hj
  | interior k n z o ihz iho =>
    unfold insert
    have hw := h
    obtain ⟨hk, hkb, hn, hz, ho, hne⟩ := h
    split_ifs with heq hbit
    · have hp : v / 2 ^ k = 2 * (n / 2 ^ (k + 1)) + 1 := by rw [div_pow_eq, heq, hbit]; rfl
      have hins := iho hk (by rw [hp]; exact ho)
      rw [hp] at hins
      exact ⟨hk, hkb, hn, hz, hins, fun he => insert_ne_empty v o he.2⟩
    · have hp : v / 2 ^ k = 2 * (n / 2 ^ (k + 1)) := by
        rw [Bool.not_eq_true] at hbit
        rw [div_pow_eq, heq, hbit]; rfl
      have hins := ihz hk (by rw [hp]; exact hz)
      rw [hp] at hins
      exact ⟨hk, hkb, hn, hins, ho, fun he => insert_ne_empty v z he.1⟩
    · exact wf_inject heq hn.symm fun j hj => hw.narrow_interior hj

/-! ### Taking -/

theorem mkInterior_ne (k n : ℕ) {z o : Tree} (h : ¬ (z = empty ∧ o = empty)) :
    mkInterior k n z o = interior k n z o := by
  cases z <;> cases o <;> first | rfl | exact absurd ⟨rfl, rfl⟩ h

theorem toList_mkLeaf (n c0 c1 : ℕ) : (mkLeaf n c0 c1).toList = (leaf n c0 c1).toList := by
  unfold mkLeaf
  split_ifs with h
  · simp [toList, h]
  · rfl

theorem toList_mkInterior (k n : ℕ) (z o : Tree) :
    (mkInterior k n z o).toList = z.toList ++ o.toList := by
  by_cases h : z = empty ∧ o = empty
  · rw [h.1, h.2]; rfl
  · rw [mkInterior_ne k n h]; rfl

/-- **Taking** splits the members after the first `room` of them. -/
theorem take_spec (t : Tree) (room : ℕ) :
    (t.take room).1 = t.toList.take room ∧ (t.take room).2.toList = t.toList.drop room := by
  induction t generalizing room with
  | empty => simp [take, toList]
  | leaf n c0 c1 =>
    simp only [take, toList_mkLeaf, toList, List.take_append, List.drop_append, List.take_replicate,
      List.drop_replicate, List.length_replicate]
    refine ⟨?_, ?_⟩
    · congr 2; omega
    · congr 2 <;> omega
  | interior k n z o ihz iho =>
    obtain ⟨hz1, hz2⟩ := ihz room
    obtain ⟨ho1, ho2⟩ := iho (room - (z.take room).1.length)
    have hroom : room - (z.take room).1.length = room - z.toList.length := by
      rw [hz1, List.length_take]; omega
    rw [hroom] at ho1 ho2
    simp only [take, toList_mkInterior, toList, List.take_append, List.drop_append, hroom]
    rw [hz1, hz2, ho1, ho2]
    exact ⟨rfl, rfl⟩

/-- **Taking keeps the invariant.** -/
theorem wf_take {b p : ℕ} {t : Tree} (h : Wf b p t) (room : ℕ) : Wf b p (t.take room).2 := by
  induction t generalizing b p room with
  | empty => trivial
  | leaf n c0 c1 =>
    obtain ⟨hb, hn, -⟩ := h
    simp only [take, mkLeaf]
    split_ifs with h0
    · trivial
    · exact ⟨hb, hn, by omega⟩
  | interior k n z o ihz iho =>
    obtain ⟨hk, hkb, hn, hz, ho, -⟩ := h
    simp only [take]
    have hz' := ihz hz room
    have ho' := iho ho (room - (z.take room).1.length)
    generalize (z.take room).2 = z' at hz'
    generalize (o.take (room - (z.take room).1.length)).2 = o' at ho'
    by_cases he : z' = empty ∧ o' = empty
    · rw [he.1, he.2]; trivial
    · rw [mkInterior_ne k n he]
      exact ⟨hk, hkb, hn, hz', ho', he⟩

end Tree

end CompSys.A6.RadixTree
