import CompSys.A6.RadixAdd
import CompSys.A6.RadixTake

/-! # The radix tree is a bag

Any sequence of calls of `add_number` and `take_numbers`, from the empty tree, does in memory what the
machine of `CompSys.Lib.Bag` does: each `take_numbers` returns the smallest members, in order, and
removes exactly those (`tree_is_bag`). One call keeps `Represents`, which ties the nodes in use to the
members of the bag; the run follows by induction on the calls. -/

namespace CompSys.A6.RadixRuns

open CompSys.Lib CompSys.A6.Radix CompSys.A6.RadixTree CompSys.A6.RadixHeap

/-- A call, with what `allocate` returns during it. -/
inductive Call (P : Type)
  | add (number : Word) (f : Fresh P)
  | take (maxNums : ℕ)

/-- The call as the bag sees it. -/
def Call.toBag {P : Type} : Call P → Bag.Call ℕ
  | .add number _ => .add number.toNat
  | .take maxNums => .take maxNums

variable {P : Type} [DecidableEq P]

/-- The calls in turn, and what each `take_numbers` returns. -/
def runCalls (fuel : ℕ) : List (Call P) → State P → Option (State P × List (List Word))
  | [], s => some (s, [])
  | .add number f :: cs, s => do
    let s ← addNumber f number s
    runCalls fuel cs s
  | .take maxNums :: cs, s => do
    let (s, out) ← takeNumbers fuel s maxNums
    let (s, outs) ← runCalls fuel cs s
    some (s, out :: outs)

/-- The nodes in use are a well-formed tree with the members `M`. -/
def Represents (s : State P) (M : Multiset ℕ) : Prop :=
  ∃ t, Holds s .tree s.tree t s.live ∧ t.Wf 31 0 ∧ (t.toList : Multiset ℕ) = M

theorem represents_initial (node : P → Node P) : Represents (initial node) 0 := by
  refine ⟨.empty, ⟨rfl, .empty, fun p hp => ?_⟩, trivial, rfl⟩
  cases hp

variable {s s' : State P} {M : Multiset ℕ}

/-- What a replacement of the whole tree leaves. -/
theorem represents_of_replaces {x : Option P} {F' : Finset P} {t : Tree}
    (h : Replaces s s' .tree x s.live F') (hr : Repr s' x t F') (hwf : t.Wf 31 0) :
    Represents s' (t.toList : Multiset ℕ) := by
  have hlive : s'.live = F' := by rw [h.live, Finset.sdiff_self, Finset.empty_union]
  have htree : s'.tree = x := h.tree
  refine ⟨t, ⟨rfl, ?_, fun p hp => ?_⟩, hwf, rfl⟩
  · rw [hlive, htree]; exact hr
  · cases hp

/-- **`add_number` adds one.** -/
theorem addNumber_represents (f : Fresh P) {number : Word} (h : Represents s M)
    (hn : number.toNat < 2 ^ 31) (hc : M.count number.toNat + 1 < 2 ^ 31) :
    ∃ s', addNumber f number s = some s' ∧ Represents s' (number.toNat ::ₘ M) := by
  obtain ⟨t, hh, hwf, hM⟩ := h
  have hp : number.toNat / 2 ^ 31 = 0 := Nat.div_eq_of_lt hn
  have hwf' : t.Wf 31 (number.toNat / 2 ^ 31) := by rw [hp]; exact hwf
  have hc' : t.toList.count number.toNat + 1 < 2 ^ 31 := by
    rw [← hM, Multiset.coe_count] at hc
    exact hc
  obtain ⟨s', x, F', hadd, hrep, hr⟩ := RadixAdd.addLoop_spec f number (b := 30) hh hwf' (by omega)
    (show 30 + 2 ≤ 32 by omega) hc'
  have hins := Tree.wf_insert (by omega) hwf'
  rw [hp] at hins
  refine ⟨s', hadd, ?_⟩
  have hres := represents_of_replaces hrep hr hins
  have hperm : ((t.insert number.toNat).toList : Multiset ℕ) = number.toNat ::ₘ M := by
    rw [← hM, Multiset.cons_coe]
    exact Multiset.coe_eq_coe.mpr (Tree.toList_insert _ _)
  rwa [hperm] at hres

/-- **`take_numbers` takes the smallest.** -/
theorem takeNumbers_represents {fuel : ℕ} (hfuel : 32 ≤ fuel) (h : Represents s M) (maxNums : ℕ) :
    ∃ s' out M', takeNumbers fuel s maxNums = some (s', out) ∧
      Bag.Removes maxNums M (out.map BitVec.toNat) M' ∧ Represents s' M' := by
  obtain ⟨t, hh, hwf, hM⟩ := h
  obtain ⟨s', x, F', htake, hrep, hr⟩ := RadixTake.takeNumbers2_spec hh hwf (le_refl 31)
    (show 31 < fuel by omega) [] maxNums
  obtain ⟨h1, h2⟩ := t.take_spec maxNums
  have hout : ((t.take maxNums).1.map (BitVec.ofNat 32)).map BitVec.toNat = t.toList.take maxNums := by
    rw [h1, List.map_map]
    refine (List.map_congr_left fun y hy => ?_).trans (List.map_id _)
    have hy' := Tree.div_of_mem hwf (List.mem_of_mem_take hy)
    have hlt : y < 2 ^ 31 := by
      by_contra hge
      have := Nat.div_pos (not_lt.mp hge) (show 0 < 2 ^ 31 by omega)
      omega
    simp only [Function.comp_apply, BitVec.toNat_ofNat, id_eq]
    omega
  refine ⟨s', (t.take maxNums).1.map (BitVec.ofNat 32), _, ?_, ?_,
    represents_of_replaces hrep hr (Tree.wf_take hwf maxNums)⟩
  · rw [takeNumbers, htake]
    rfl
  · rw [hout, h2, ← hM]
    exact Bag.removes_of_sorted (Tree.sorted_toList hwf) maxNums

/-- In every run of the bag through the calls so far, no number is there `2^31` times. -/
def FewCopies (M : Multiset ℕ) (cs : List (Call P)) : Prop :=
  ∀ pre, pre <+: cs → ∀ outs M', Bag.Run M (pre.map Call.toBag) outs M' → ∀ x, M'.count x < 2 ^ 31

omit [DecidableEq P] in
theorem FewCopies.of_add {number : Word} {f : Fresh P} {cs : List (Call P)}
    (h : FewCopies M (.add number f :: cs)) :
    M.count number.toNat + 1 < 2 ^ 31 ∧ FewCopies (number.toNat ::ₘ M) cs := by
  refine ⟨?_, fun pre hpre outs M' hrun => ?_⟩
  · have hc := h [.add number f] (List.prefix_append [_] cs) [] _ (.add (.nil _)) number.toNat
    rwa [Multiset.count_cons_self] at hc
  · exact h (.add number f :: pre) (List.cons_prefix_cons.mpr ⟨rfl, hpre⟩) outs M' (.add hrun)

omit [DecidableEq P] in
theorem FewCopies.of_take {maxNums : ℕ} {cs : List (Call P)} {l : List ℕ} {M' : Multiset ℕ}
    (h : FewCopies M (.take maxNums :: cs)) (hr : Bag.Removes maxNums M l M') : FewCopies M' cs :=
  fun pre hpre outs M'' hrun => h (.take maxNums :: pre) (List.cons_prefix_cons.mpr ⟨rfl, hpre⟩)
    (l :: outs) M'' (.take hr hrun)

/-- **Any sequence of calls** on memory that represents a bag. -/
theorem runCalls_represents {fuel : ℕ} (hfuel : 32 ≤ fuel) (cs : List (Call P)) {s : State P}
    {M : Multiset ℕ} (h : Represents s M)
    (hnum : ∀ number f, Call.add number f ∈ cs → number.toNat < 2 ^ 31) (hfew : FewCopies M cs) :
    ∃ s' outs M', runCalls fuel cs s = some (s', outs) ∧
      Bag.Run M (cs.map Call.toBag) (outs.map (List.map BitVec.toNat)) M' ∧ Represents s' M' := by
  induction cs generalizing s M with
  | nil => exact ⟨s, [], M, rfl, .nil M, h⟩
  | cons c cs ih =>
    have hnum' : ∀ number f, Call.add number f ∈ cs → number.toNat < 2 ^ 31 :=
      fun number f hm => hnum number f (List.mem_cons_of_mem _ hm)
    cases c with
    | add number f =>
      obtain ⟨hc, hfew'⟩ := hfew.of_add
      obtain ⟨s1, hadd, h1⟩ := addNumber_represents f h (hnum number f List.mem_cons_self) hc
      obtain ⟨s', outs, M', hrun, hbag, h'⟩ := ih h1 hnum' hfew'
      refine ⟨s', outs, M', ?_, .add hbag, h'⟩
      simp only [runCalls, hadd, hrun, Option.bind_eq_bind, Option.bind_some]
    | take maxNums =>
      obtain ⟨s1, out, M1, htake, hrem, h1⟩ := takeNumbers_represents hfuel h maxNums
      obtain ⟨s', outs, M', hrun, hbag, h'⟩ := ih h1 hnum' (hfew.of_take hrem)
      refine ⟨s', out :: outs, M', ?_, .take hrem hbag, h'⟩
      simp only [runCalls, htake, hrun, Option.bind_eq_bind, Option.bind_some]

/-- **The radix tree is a bag with ordered removal**: any sequence of calls from the empty tree ends,
and returns what the bag returns. -/
theorem tree_is_bag {fuel : ℕ} (hfuel : 32 ≤ fuel) (node : P → Node P) (cs : List (Call P))
    (hnum : ∀ number f, Call.add number f ∈ cs → number.toNat < 2 ^ 31) (hfew : FewCopies 0 cs) :
    ∃ s outs M, runCalls fuel cs (initial node) = some (s, outs) ∧
      Bag.Run 0 (cs.map Call.toBag) (outs.map (List.map BitVec.toNat)) M := by
  obtain ⟨s, outs, M, hrun, hbag, -⟩ :=
    runCalls_represents hfuel cs (represents_initial node) hnum hfew
  exact ⟨s, outs, M, hrun, hbag⟩

/-- How many of the calls are of `add_number`. -/
def addCalls (cs : List (Call P)) : ℕ := (cs.map Call.toBag).countP Bag.Call.isAdd

omit [DecidableEq P] in
/-- Fewer than `2^31` calls of `add_number` add fewer than `2^31` copies. -/
theorem fewCopies_of_addCalls {cs : List (Call P)} (h : addCalls cs < 2 ^ 31) : FewCopies 0 cs := by
  intro pre hpre outs M hrun x
  have hcard := hrun.card_le_adds
  have hsub : (pre.map Call.toBag).countP Bag.Call.isAdd ≤ addCalls cs :=
    (hpre.sublist.map Call.toBag).countP_le
  have hcount := Multiset.count_le_card x M
  rw [Multiset.card_zero] at hcard
  omega

/-! ### A short run -/

/-- The first address above all in use. -/
def nextFree : Fresh ℕ where
  pick live := live.sup id + 1
  fresh _ h := Nat.not_succ_le_self _ (Finset.le_sup (f := id) h)

theorem fewCopies_of_length {cs : List (Call ℕ)} (h : cs.length < 2 ^ 31) : FewCopies 0 cs := by
  refine fewCopies_of_addCalls (lt_of_le_of_lt List.countP_le_length ?_)
  rwa [List.length_map]

/-- Two numbers and a `take` of one of them, by `tree_is_bag`. -/
theorem tree_is_bag_two :
    ∃ s outs M, runCalls 32 [.add 5#32 nextFree, .add 3#32 nextFree, .take 1]
        (initial fun _ => ⟨0#32, 0#32, .leaf 0#32 0#32⟩) = some (s, outs) ∧
      Bag.Run 0 [.add 5, .add 3, .take 1] (outs.map (List.map BitVec.toNat)) M := by
  refine tree_is_bag (le_refl 32) _ _ (fun number f hm => ?_)
    (fewCopies_of_length (show 3 < 2 ^ 31 by omega))
  simp only [List.mem_cons, List.not_mem_nil, or_false, reduceCtorEq, Call.add.injEq] at hm
  rcases hm with ⟨rfl, -⟩ | ⟨rfl, -⟩ <;> decide

end CompSys.A6.RadixRuns
