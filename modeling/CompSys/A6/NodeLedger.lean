import CompSys.Lib.Runs
import CompSys.A6.RadixLow
import CompSys.A6.RadixMain

/-! # The nodes of the radix tree

The nodes in use are the ones allocated and not released; `release` of any other node has no result, so no node is
released twice. Between calls the nodes in use are those reached from `tree`, each through one pointer
(`Accounted`): a tree in memory is entered only at its root (`pointer_inside`), and each of its other nodes from one
node of it (`pointer_unique`). So `release_tree` leaves none (`nodes_accounted`). Numbers may have any sign: bit 31 of
them does not matter. -/

namespace CompSys.A6.NodeLedger

open CompSys.Lib CompSys.Lib.Runs CompSys.Lib.Prefix CompSys.Lib.OneHot CompSys.A6.Radix CompSys.A6.RadixTree
open CompSys.A6.RadixHeap CompSys.A6.RadixRuns CompSys.A6.RadixLow CompSys.A6.RadixAdd

variable {P : Type} [DecidableEq P]

/-! ### Pointers -/

/-- The nodes reached from `tree`. -/
inductive Reachable (s : State P) : P → Prop
  | root {p : P} : s.read .tree = some (some p) → Reachable s p
  | child {b : Bool} {p q : P} : Reachable s q → s.read (.child b q) = some (some p) → Reachable s p

/-- **The nodes in use are those reached**, and one pointer leads to each. -/
structure Accounted (s : State P) : Prop where
  live_iff : ∀ p, p ∈ s.live ↔ Reachable s p
  one_pointer : ∀ p ∈ s.live, ∃! slot, s.read slot = some (some p)

variable {s s' : State P} {x : Option P} {p q : P} {t : Tree} {F : Finset P} {b b' : Bool}

theorem read_leaf {k0 k1 : Word} (hnode : (s.node q).rest = .leaf k0 k1) : s.read (.child b q) ≠ some (some p) := by
  intro hread
  obtain ⟨-, hget⟩ := read_child hread
  rw [hnode] at hget
  exact nomatch hget

/-- A pointer in a node of the tree leads to a node of the tree, and not to its root. -/
theorem pointer_inside (h : Repr s x t F) (hq : q ∈ F) (hread : s.read (.child b q) = some (some p)) :
    p ∈ F ∧ x ≠ some p := by
  induction h generalizing q b with
  | empty => exact absurd hq (Finset.notMem_empty q)
  | leaf hlive hnode =>
    obtain rfl := Finset.mem_singleton.mp hq
    exact absurd hread (read_leaf (by rw [hnode]))
  | @interior r _ _ x0 x1 _ _ F0 F1 hlive hnode h0 h1 hr hd ih0 ih1 =>
    rw [Finset.mem_union, not_or] at hr
    have hin : p ∈ F0 ∨ p ∈ F1 := by
      rcases Finset.mem_insert.mp hq with rfl | hq
      · obtain ⟨-, hget⟩ := read_child hread
        rw [hnode] at hget
        cases b with
        | false =>
          obtain rfl : x0 = some p := Option.some.inj hget
          exact Or.inl (root_mem h0)
        | true =>
          obtain rfl : x1 = some p := Option.some.inj hget
          exact Or.inr (root_mem h1)
      · rcases Finset.mem_union.mp hq with hq | hq
        · exact Or.inl (ih0 hq hread).1
        · exact Or.inr (ih1 hq hread).1
    refine ⟨Finset.mem_insert_of_mem (Finset.mem_union.mpr hin), fun he => ?_⟩
    obtain rfl := Option.some.inj he
    rcases hin with hin | hin
    · exact hr.1 hin
    · exact hr.2 hin

/-- A pointer that leads into the subtree `G` of the node `r` on side `c` lies in `r`, on that side, or in `G`. -/
theorem pointer_cases {c : Bool} {r : P} {y z : Option P} {u v : Tree} {G H : Finset P}
    (hy : (s.node r).rest.get c = some y) (hz : (s.node r).rest.get (!c) = some z) (hG : Repr s y u G)
    (hH : Repr s z v H) (hd : Disjoint G H) (hq : q = r ∨ q ∈ G ∨ q ∈ H)
    (hread : s.read (.child b q) = some (some p)) (hp : p ∈ G) :
    (q = r ∧ b = c ∧ y = some p) ∨ (q ∈ G ∧ y ≠ some p) := by
  have hpH : p ∉ H := Finset.disjoint_left.mp hd hp
  rcases hq with rfl | hq | hq
  · obtain ⟨-, hget⟩ := read_child hread
    by_cases hbc : b = c
    · subst hbc
      exact Or.inl ⟨rfl, rfl, Option.some.inj (hy.symm.trans hget)⟩
    · obtain rfl : b = !c := Bool.eq_not.mpr hbc
      obtain rfl : z = some p := Option.some.inj (hz.symm.trans hget)
      exact absurd (root_mem hH) hpH
  · exact Or.inr ⟨hq, (pointer_inside hG hq hread).2⟩
  · exact absurd (pointer_inside hH hq hread).1 hpH

/-- **One pointer.** No two pointers in nodes of the tree lead to the same node. -/
theorem pointer_unique {q' : P} (h : Repr s x t F) (hq : q ∈ F) (hq' : q' ∈ F)
    (hread : s.read (.child b q) = some (some p)) (hread' : s.read (.child b' q') = some (some p)) :
    b = b' ∧ q = q' := by
  induction h generalizing q b q' b' with
  | empty => exact absurd hq (Finset.notMem_empty q)
  | leaf hlive hnode =>
    obtain rfl := Finset.mem_singleton.mp hq
    exact absurd hread (read_leaf (by rw [hnode]))
  | @interior r k n x0 x1 t0 t1 F0 F1 hlive hnode h0 h1 hr hd ih0 ih1 =>
    have hget0 : (s.node r).rest.get false = some x0 := by rw [hnode]; rfl
    have hget1 : (s.node r).rest.get true = some x1 := by rw [hnode]; rfl
    have hin := (pointer_inside (.interior hlive hnode h0 h1 hr hd) hq hread)
    rw [Finset.mem_insert, Finset.mem_union] at hq hq' hin
    rcases hin with ⟨rfl | hin | hin, hne⟩
    · exact absurd rfl hne
    · rcases pointer_cases hget0 hget1 h0 h1 hd hq hread hin with ⟨rfl, rfl, hx⟩ | ⟨hqF, hx⟩
      · rcases pointer_cases hget0 hget1 h0 h1 hd hq' hread' hin with ⟨rfl, rfl, -⟩ | ⟨-, hx'⟩
        · exact ⟨rfl, rfl⟩
        · exact absurd hx hx'
      · rcases pointer_cases hget0 hget1 h0 h1 hd hq' hread' hin with ⟨-, -, hx'⟩ | ⟨hqF', -⟩
        · exact absurd hx' hx
        · exact ih0 hqF hqF' hread hread'
    · rcases pointer_cases hget1 hget0 h1 h0 hd.symm (by tauto) hread hin with ⟨rfl, rfl, hx⟩ | ⟨hqF, hx⟩
      · rcases pointer_cases hget1 hget0 h1 h0 hd.symm (by tauto) hread' hin with ⟨rfl, rfl, -⟩ | ⟨-, hx'⟩
        · exact ⟨rfl, rfl⟩
        · exact absurd hx hx'
      · rcases pointer_cases hget1 hget0 h1 h0 hd.symm (by tauto) hread' hin with ⟨-, -, hx'⟩ | ⟨hqF', -⟩
        · exact absurd hx' hx
        · exact ih1 hqF hqF' hread hread'

/-- A node of the tree is its root, or a pointer in a node of the tree leads to it. -/
theorem pointed (h : Repr s x t F) (hp : p ∈ F) : x = some p ∨ ∃ b, ∃ q ∈ F, s.read (.child b q) = some (some p) := by
  induction h with
  | empty => exact absurd hp (Finset.notMem_empty p)
  | leaf => exact Or.inl (congrArg some (Finset.mem_singleton.mp hp).symm)
  | @interior r k n x0 x1 t0 t1 F0 F1 hlive hnode h0 h1 hr hd ih0 ih1 =>
    rw [Finset.mem_union, not_or] at hr
    have hread0 := (h0.child (b := false) hlive (by rw [hnode]; rfl) hr.1).read
    have hread1 := (h1.child (b := true) hlive (by rw [hnode]; rfl) hr.2).read
    rcases Finset.mem_insert.mp hp with rfl | hp
    · exact Or.inl rfl
    · right
      rcases Finset.mem_union.mp hp with hp | hp
      · rcases ih0 hp with rfl | ⟨b, q, hq, hread⟩
        · exact ⟨false, r, Finset.mem_insert_self r _, hread0⟩
        · exact ⟨b, q, Finset.mem_insert_of_mem (Finset.mem_union_left _ hq), hread⟩
      · rcases ih1 hp with rfl | ⟨b, q, hq, hread⟩
        · exact ⟨true, r, Finset.mem_insert_self r _, hread1⟩
        · exact ⟨b, q, Finset.mem_insert_of_mem (Finset.mem_union_right _ hq), hread⟩

theorem reachable_of_repr (h : Repr s x t F) (hx : ∀ p, x = some p → Reachable s p) : ∀ p ∈ F, Reachable s p := by
  induction h with
  | empty => exact fun p hp => absurd hp (Finset.notMem_empty p)
  | leaf => exact fun p hp => hx p (congrArg some (Finset.mem_singleton.mp hp).symm)
  | @interior r k n x0 x1 t0 t1 F0 F1 hlive hnode h0 h1 hr hd ih0 ih1 =>
    rw [Finset.mem_union, not_or] at hr
    have hread0 := (h0.child (b := false) hlive (by rw [hnode]; rfl) hr.1).read
    have hread1 := (h1.child (b := true) hlive (by rw [hnode]; rfl) hr.2).read
    intro p hp
    rcases Finset.mem_insert.mp hp with rfl | hp
    · exact hx p rfl
    · rcases Finset.mem_union.mp hp with hp | hp
      · exact ih0 (fun p he => .child (hx r rfl) (by rw [hread0, he])) p hp
      · exact ih1 (fun p he => .child (hx r rfl) (by rw [hread1, he])) p hp

/-- **A tree of all nodes in use** accounts for them. -/
theorem accounted_of_holds (h : Holds s .tree s.tree t s.live) : Accounted s := by
  refine ⟨fun p => ⟨fun hp => ?_, fun hp => ?_⟩, fun p hp => ?_⟩
  · exact reachable_of_repr h.repr (fun p he => .root (congrArg some he)) p hp
  · induction hp with
    | root hread =>
      have htree : s.tree = some _ := Option.some.inj hread
      have hrepr := h.repr
      rw [htree] at hrepr
      exact root_mem hrepr
    | child _ hread ih => exact (pointer_inside h.repr ih hread).1
  · rcases pointed h.repr hp with htree | ⟨b, q, hq, hread⟩
    · refine ⟨.tree, congrArg some htree, fun slot hslot => ?_⟩
      cases slot with
      | tree => rfl
      | child b q => exact absurd htree (pointer_inside h.repr (read_child hslot).1 hslot).2
    · refine ⟨.child b q, hread, fun slot hslot => ?_⟩
      cases slot with
      | tree => exact absurd (Option.some.inj hslot) (pointer_inside h.repr hq hread).2
      | child b' q' =>
        obtain ⟨rfl, rfl⟩ := pointer_unique h.repr (read_child hslot).1 hq hslot hread
        rfl

/-! ### Full counters -/

/-- A leaf counter is `INT_MAX`: one more is undefined. -/
def FullCounter (s : State P) : Prop :=
  ∃ p ∈ s.live, ∃ k0 k1, (s.node p).rest = .leaf k0 k1 ∧ (k0 = BitVec.intMax 32 ∨ k1 = BitVec.intMax 32)

theorem eq_intMax {k : Word} (h : k.toNat = 2 ^ 31 - 1) : k = BitVec.intMax 32 := BitVec.eq_of_toNat_eq (h.trans rfl)

theorem count_leaf_even (n c0 c1 : ℕ) : (Tree.leaf n c0 c1).toList.count (2 * (n / 2)) = c0 := by
  rw [Tree.toList, List.count_append, List.count_replicate_self, List.count_replicate, if_neg (by simp), Nat.add_zero]

theorem count_leaf_odd (n c0 c1 : ℕ) : (Tree.leaf n c0 c1).toList.count (2 * (n / 2) + 1) = c1 := by
  rw [Tree.toList, List.count_append, List.count_replicate_self, List.count_replicate, if_neg (by simp), Nat.zero_add]

/-- A number of which a leaf counts `INT_MAX` copies is not counted again. -/
theorem useNode_full (number : Word) {slot : Slot P} {n c0 c1 : ℕ} (h : Repr s (some p) (.leaf n c0 c1) F)
    (hn : number.toNat / 2 = n / 2) (hc : (Tree.leaf n c0 c1).toList.count number.toNat = 2 ^ 31 - 1) :
    useNode number s 1#32 slot p (s.node p) = none ∧ FullCounter s := by
  cases h with
  | @leaf p n k0 k1 hlive hnode =>
  have hslt : (1#32 : Word).slt 1#32 = false := by decide
  have hinc : increment (BitVec.intMax 32) = none := rfl
  rw [useNode, hslt, hnode]
  rcases Nat.mod_two_eq_zero_or_one number.toNat with heven | hodd
  · rw [show number.toNat = 2 * (n.toNat / 2) by omega, count_leaf_even] at hc
    obtain rfl := eq_intMax hc
    have hand : number &&& 1#32 = 0#32 := (and_one_eq_iff number (c := 0) (by omega)).mpr heven
    exact ⟨by simp [hand, hinc], p, hlive, _, k1, by rw [hnode], Or.inl rfl⟩
  · rw [show number.toNat = 2 * (n.toNat / 2) + 1 by omega, count_leaf_odd] at hc
    obtain rfl := eq_intMax hc
    have hand : number &&& 1#32 = 1#32 := (and_one_eq_iff number (c := 1) (by omega)).mpr hodd
    exact ⟨by simp [hand, hinc], p, hlive, k0, _, by rw [hnode], Or.inr rfl⟩

theorem addLoop_undefined {f : Fresh P} {number : Word} {slot : Slot P} {k fuel : ℕ} (hk : k < 31)
    (h : addBody f number s (oneHot k) slot = none) : addLoop f number (fuel + 1) s (oneHot k) slot = none := by
  have hslt : (oneHot k).slt 1#32 = false := oneHot_slt hk (show 0 < 31 by omega)
  simp [addLoop, hslt, h]

/-- **The loop has no result** on a number of which there are `INT_MAX` copies. -/
theorem addLoop_full (f : Fresh P) (number : Word) {t : Tree} {slot : Slot P} {x : Option P} {b fuel : ℕ}
    (h : Holds s slot x t F) (hwf : t.Wf (b + 1) (number.toNat / 2 ^ (b + 1))) (hb : b < 31) (hfuel : b + 2 ≤ fuel)
    (hc : t.toList.count number.toNat = 2 ^ 31 - 1) :
    addLoop f number fuel s (oneHot b) slot = none ∧ FullCounter s := by
  induction t generalizing slot x F b fuel with
  | empty => exact absurd hc (by rw [Tree.toList, List.count_nil]; decide)
  | leaf n c0 c1 =>
    have hmem : number.toNat ∈ (Tree.leaf n c0 c1).toList := List.count_pos_iff.mp (by omega)
    obtain ⟨fuel, rfl⟩ : ∃ i, fuel = i + 1 := ⟨fuel - 1, by omega⟩
    have hrepr := h.repr
    cases hrepr with
    | @leaf p n k0 k1 hlive hnode =>
    have heq : number.toNat / 2 = n.toNat / 2 := by
      have hdiv := Tree.div_of_mem (hwf.narrow_leaf le_rfl) hmem
      simpa using hdiv
    have hbody := addBody_use f number (k := 0) h hlive (by rw [hnode]; rfl) (by omega) hb
      (by rw [hnode]; simpa using heq)
    obtain ⟨huse, hfull⟩ := useNode_full number h.repr heq hc
    exact ⟨addLoop_undefined hb (hbody.trans huse), hfull⟩
  | interior k n z o ihz iho =>
    have hmem : number.toNat ∈ (Tree.interior k n z o).toList := List.count_pos_iff.mp (by omega)
    obtain ⟨hk, hkb, -, hz, ho, -⟩ := id hwf
    obtain ⟨fuel, rfl⟩ : ∃ i, fuel = i + 1 := ⟨fuel - 1, by omega⟩
    obtain ⟨k, rfl⟩ : ∃ i, k = i + 1 := ⟨k - 1, by omega⟩
    have hrepr := h.repr
    cases hrepr with
    | @interior p _ n x0 x1 _ _ F0 F1 hlive hnode h0 h1 hp hd =>
    have heq : number.toNat / 2 ^ (k + 1 + 1) = n.toNat / 2 ^ (k + 1 + 1) :=
      Tree.div_of_mem (hwf.narrow_interior (j := k + 1 + 1) (by omega)) hmem
    have hpre := div_pow_eq number.toNat (k + 1)
    rw [heq] at hpre
    rw [addLoop_down f number h hlive (by rw [hnode]) (by omega) hb (by rw [hnode]; exact heq)]
    rw [Tree.toList, List.count_append] at hc
    cases hbit : number.toNat.testBit (k + 1) with
    | true =>
      rw [hbit] at hpre
      have hother : z.toList.count number.toNat = 0 := by
        rw [List.count_eq_zero]
        intro hin
        have hside := Tree.div_of_mem hz hin
        rw [hpre] at hside
        simp at hside
      have hchild := h1.child (b := true) hlive (by rw [hnode]; rfl) fun hq => hp (Finset.mem_union_right _ hq)
      exact iho hchild (by rw [hpre]; exact ho) (by omega) (by omega) (by omega)
    | false =>
      rw [hbit] at hpre
      have hother : o.toList.count number.toNat = 0 := by
        rw [List.count_eq_zero]
        intro hin
        have hside := Tree.div_of_mem ho hin
        rw [hpre] at hside
        simp at hside
      have hchild := h0.child (b := false) hlive (by rw [hnode]; rfl) fun hq => hp (Finset.mem_union_left _ hq)
      exact ihz hchild (by rw [hpre]; exact hz) (by omega) (by omega) (by omega)

/-! ### The ledger -/

/-- Without bit 31 of the numbers, the nodes in use are a tree, and it has at most `INT_MAX` copies of a number. -/
def Ledger (s : State P) : Prop := ∃ M, Represents (lowState s) M ∧ ∀ v, M.count v < 2 ^ 31

theorem ledger_initial (node : P → Node P) : Ledger (initial node) :=
  ⟨0, represents_initial fun p => lowNode (node p), fun v => by rw [Multiset.count_zero]; decide⟩

theorem Ledger.accounted (h : Ledger s) : Accounted s := by
  obtain ⟨M, ⟨t, hholds, -, -⟩, -⟩ := h
  have hlow := accounted_of_holds hholds
  have hreach : ∀ p, Reachable (lowState s) p ↔ Reachable s p := by
    intro p
    constructor
    · intro hp
      induction hp with
      | root hread => exact .root (by rwa [read_low] at hread)
      | child _ hread ih => exact .child ih (by rwa [read_low] at hread)
    · intro hp
      induction hp with
      | root hread => exact .root (by rwa [read_low])
      | child _ hread ih => exact .child ih (by rwa [read_low])
  refine ⟨fun p => (hlow.live_iff p).trans (hreach p), fun p hp => ?_⟩
  have hone := hlow.one_pointer p hp
  simp only [read_low] at hone
  exact hone

/-- **`add_number`** keeps the ledger, and has a result unless a counter is full. -/
theorem Ledger.add (h : Ledger s) (f : Fresh P) (number : Word) :
    (∃ s', addNumber f number s = some s' ∧ Ledger s') ∨ addNumber f number s = none ∧ FullCounter s := by
  obtain ⟨M, hM, hcount⟩ := h
  have hlow := addNumber_low f number s
  rcases Nat.lt_or_ge (M.count (low number).toNat + 1) (2 ^ 31) with hlt | hge
  · obtain ⟨s1, hadd, h1⟩ := addNumber_represents f hM (toNat_low number) hlt
    rw [hadd] at hlow
    obtain ⟨s', hs', rfl⟩ := Option.map_eq_some_iff.mp hlow.symm
    refine Or.inl ⟨s', hs', _, h1, fun v => ?_⟩
    rw [Multiset.count_cons]
    have hv := hcount v
    split_ifs with heq
    · rw [heq]
      exact hlt
    · omega
  · have hfull : M.count (low number).toNat = 2 ^ 31 - 1 := by
      have := hcount (low number).toNat
      omega
    obtain ⟨t, hholds, hwf, rfl⟩ := hM
    rw [Multiset.coe_count] at hfull
    have hzero : (low number).toNat / 2 ^ 31 = 0 := Nat.div_eq_of_lt (toNat_low number)
    obtain ⟨hnone, p, hp, k0, k1, hnode, hk⟩ := addLoop_full f (low number) hholds
      (by rw [hzero]; exact hwf) (show 30 < 31 by omega) (show 30 + 2 ≤ 32 by omega) hfull
    have hnone' : addNumber f (low number) (lowState s) = none := hnone
    rw [hnone'] at hlow
    exact Or.inr ⟨Option.map_eq_none_iff.mp hlow.symm, p, hp, k0, k1, hnode, hk⟩

/-- **`take_numbers`** has a result and keeps the ledger. -/
theorem Ledger.take (h : Ledger s) {fuel : ℕ} (hfuel : 32 ≤ fuel) (maxNums : ℕ) :
    ∃ s' out, takeNumbers fuel s maxNums = some (s', out) ∧ Ledger s' := by
  obtain ⟨M, hM, hcount⟩ := h
  obtain ⟨s1, out, M', htake, hremoves, h1⟩ := takeNumbers_represents hfuel hM maxNums
  have hlow := takeNumbers_low fuel s maxNums
  rw [htake] at hlow
  obtain ⟨⟨s', out'⟩, hs', heq⟩ := Option.map_eq_some_iff.mp hlow.symm
  obtain ⟨rfl, -⟩ := Prod.mk.inj heq
  refine ⟨s', out', hs', M', h1, fun v => lt_of_le_of_lt ?_ (hcount v)⟩
  rw [← hremoves.split, Multiset.count_add]
  exact Nat.le_add_left _ _

/-- **`release_tree`** releases all nodes in use. -/
theorem Ledger.release (h : Ledger s) {fuel : ℕ} (hfuel : 32 ≤ fuel) :
    ∃ s', releaseTree fuel s s.tree = some s' ∧ s'.live = ∅ := by
  obtain ⟨M, ⟨t, hholds, hwf, -⟩, -⟩ := h
  obtain ⟨s1, hrelease, hlive, -⟩ := RadixMain.releaseTree_spec hholds.repr hwf le_rfl (show 31 < fuel by omega)
  have hlow := releaseTree_low fuel s s.tree
  have htree : (lowState s).tree = s.tree := rfl
  rw [← htree, hrelease] at hlow
  obtain ⟨s', hs', rfl⟩ := Option.map_eq_some_iff.mp hlow.symm
  refine ⟨s', hs', ?_⟩
  have hempty : (lowState s').live = ∅ := by rw [hlive, Finset.sdiff_self]
  exact hempty

/-- One call of `add_number` or `take_numbers`. -/
inductive Step (fuel : ℕ) (s s' : State P) : Prop
  | add (number : Word) (f : Fresh P) : addNumber f number s = some s' → Step fuel s s'
  | take (maxNums : ℕ) (out : List Word) : takeNumbers fuel s maxNums = some (s', out) → Step fuel s s'

theorem Step.ledger {fuel : ℕ} (hfuel : 32 ≤ fuel) (h : Step fuel s s') (hs : Ledger s) : Ledger s' := by
  cases h with
  | add number f hadd =>
    rcases hs.add f number with ⟨s1, h1, hledger⟩ | ⟨hnone, -⟩
    · rw [hadd] at h1
      obtain rfl := Option.some.inj h1
      exact hledger
    · rw [hadd] at hnone
      exact nomatch hnone
  | take maxNums out htake =>
    obtain ⟨s1, out1, h1, hledger⟩ := hs.take hfuel maxNums
    rw [htake] at h1
    obtain ⟨rfl, -⟩ := Prod.mk.inj (Option.some.inj h1)
    exact hledger

/-- **Node accounting.** After any calls of `add_number` and `take_numbers` the nodes allocated and not released are
those reached from `tree`, each by one pointer, and `release_tree` releases each of them. Every further call has a
result, except that C leaves it undefined to count a number beyond `INT_MAX`. -/
theorem nodes_accounted {fuel : ℕ} (hfuel : 32 ≤ fuel) (node : P → Node P) {s : State P}
    (h : Reaches (Step fuel) (initial node) s) :
    Accounted s ∧ (∃ s', releaseTree fuel s s.tree = some s' ∧ s'.live = ∅) ∧
      (∀ maxNums, ∃ s' out, takeNumbers fuel s maxNums = some (s', out)) ∧
        ∀ f number, (∃ s', addNumber f number s = some s') ∨ FullCounter s := by
  have hledger : Ledger s := h.invariant (fun _ _ hs hstep => hstep.ledger hfuel hs) (ledger_initial node)
  refine ⟨hledger.accounted, hledger.release hfuel, fun maxNums => ?_, fun f number => ?_⟩
  · obtain ⟨s', out, htake, -⟩ := hledger.take hfuel maxNums
    exact ⟨s', out, htake⟩
  · rcases hledger.add f number with ⟨s', hadd, -⟩ | ⟨-, hfull⟩
    · exact Or.inl ⟨s', hadd⟩
    · exact Or.inr hfull

/-- A number added. -/
theorem nodes_accounted_one : ∃ s : State ℕ,
    addNumber nextFree 5#32 (initial fun _ => ⟨0#32, 0#32, .leaf 0#32 0#32⟩) = some s ∧ Accounted s ∧
      (∃ s', releaseTree 32 s s.tree = some s' ∧ s'.live = ∅) ∧
        (∀ maxNums, ∃ s' out, takeNumbers 32 s maxNums = some (s', out)) ∧
          ∀ f number, (∃ s', addNumber f number s = some s') ∨ FullCounter s := by
  refine ⟨_, rfl, ?_⟩
  exact nodes_accounted le_rfl (fun _ => ⟨0#32, 0#32, .leaf 0#32 0#32⟩)
    ⟨1, .tail .refl (.add 5#32 nextFree rfl)⟩

end CompSys.A6.NodeLedger
