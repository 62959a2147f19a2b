import CompSys.A6.RadixRuns

/-! # The invariant of the radix tree (`A6/handout/radix.c`)

What the fields of the nodes say of the numbers under them, in every state between calls (`RepInv`), and what the search
of `add_number` for a bit relies on, in every iteration (`SearchEnds`). Both are read off the tree that the nodes in use
represent: the numbers of a subtree have a common prefix, and an iteration begins at a subtree that the number agrees
with above `bit_pos` (`AtSubtree`). -/

namespace CompSys.A6.RadixInvariant

open CompSys.Lib CompSys.Lib.Prefix CompSys.Lib.OneHot CompSys.A6.Radix CompSys.A6.RadixTree CompSys.A6.RadixHeap
open CompSys.A6.RadixRuns CompSys.A6.RadixAdd CompSys.A6.RadixTake

variable {P : Type} [DecidableEq P]

/-- A number under a node, as `take_numbers` would put it out. -/
inductive Stored (s : State P) : P → Word → Prop
  | zero {p : P} {n : Node P} {c0 c1 : Word} : s.load p = some n → n.rest = .leaf c0 c1 → c0 ≠ 0#32 →
    Stored s p (n.number &&& ~~~1#32)
  | one {p : P} {n : Node P} {c0 c1 : Word} : s.load p = some n → n.rest = .leaf c0 c1 → c1 ≠ 0#32 →
    Stored s p (n.number ||| 1#32)
  | child {b : Bool} {p q : P} {v : Word} : s.read (.child b p) = some (some q) → Stored s q v → Stored s p v

/-- **The representation invariant.** -/
structure RepInv (s : State P) : Prop where
  /-- `bit_pos` is a power of two, from `1` to `2^30`. -/
  one_hot : ∀ p ∈ s.live, ∃ k ≤ 30, (s.node p).bitPos = oneHot k
  /-- Below a node `bit_pos` is smaller. -/
  below : ∀ b p q, s.read (.child b p) = some (some q) →
    q ∈ s.live ∧ (s.node q).bitPos.slt (s.node p).bitPos = true
  /-- The numbers under a node agree with `number` on the bits above `bit_pos`. -/
  agree : ∀ p ∈ s.live, ∀ v, Stored s p v →
    v &&& higherBits (s.node p).bitPos = (s.node p).number &&& higherBits (s.node p).bitPos
  /-- The numbers under `zero` have the bit clear, and those under `one` have it set. -/
  side : ∀ b p q v, s.read (.child b p) = some (some q) → Stored s q v →
    (v &&& (s.node p).bitPos ≠ 0#32 ↔ b = true)
  /-- A leaf holds a number, and its counters are not negative. -/
  leaf : ∀ p ∈ s.live, ∀ c0 c1, (s.node p).rest = .leaf c0 c1 →
    (s.node p).bitPos = 1#32 ∧ 0 ≤ c0.toInt ∧ 0 ≤ c1.toInt ∧ 0 < c0.toInt + c1.toInt
  /-- An interior node has a child. -/
  interior : ∀ p ∈ s.live, ∀ zero one, (s.node p).rest = .interior zero one →
    (s.node p).bitPos ≠ 1#32 ∧ ¬ (zero = none ∧ one = none)

/-- Where an iteration of the loop of `add_number` begins: the nodes, `bit_pos` and `parent`. -/
inductive Iterates (f : Fresh P) (number : Word) (s : State P) : State P → Word → Slot P → Prop
  | start : Iterates f number s s (oneHot 30) .tree
  | next {s1 s2 : State P} {bitPos bitPos' : Word} {slot slot' : Slot P} :
    Iterates f number s s1 bitPos slot → bitPos.slt 1#32 = false →
    addBody f number s1 bitPos slot = some (.next s2 bitPos' slot') →
    Iterates f number s s2 (bitPos'.sshiftRight 1) slot'

/-- **The search for the most significant differing bit**, in every iteration that makes it, ends at that bit, and above
`bit_pos` of the subtree. -/
def SearchEnds (f : Fresh P) (number : Word) (s : State P) : Prop :=
  ∀ s1 bitPos slot p n, Iterates f number s s1 bitPos slot → bitPos.slt 1#32 = false →
    s1.read slot = some (some p) → s1.load p = some n → n.bitPos.slt bitPos = true →
    bitRange bitPos n.bitPos &&& (number ^^^ n.number) ≠ 0#32 →
    ∃ j, findBit (bitRange bitPos n.bitPos &&& (number ^^^ n.number)) 32 bitPos = some (oneHot j) ∧
      n.bitPos.slt (oneHot j) = true ∧ number.getLsbD j ≠ n.number.getLsbD j ∧
      ∀ i, j < i → number.getLsbD i = n.number.getLsbD i

variable {s s' : State P} {x : Option P} {p q : P} {t : Tree} {F : Finset P} {b pre : ℕ} {v : Word} {M : Multiset ℕ}

/-! ### Nodes and their subtrees -/

/-- A node of a tree is the root of a subtree. -/
theorem exists_subtree (h : Repr s x t F) (hwf : t.Wf b pre) (hp : p ∈ F) :
    ∃ t' F' b' pre', Repr s (some p) t' F' ∧ t'.Wf b' pre' ∧ b' ≤ b ∧ t'.toList.length ≤ t.toList.length := by
  induction h generalizing b pre with
  | empty => exact absurd hp (Finset.notMem_empty p)
  | leaf hlive hnode =>
    obtain rfl := Finset.mem_singleton.mp hp
    exact ⟨_, _, b, pre, .leaf hlive hnode, hwf, le_rfl, le_rfl⟩
  | interior hlive hnode h0 h1 hout hd ih0 ih1 =>
    rcases Finset.mem_insert.mp hp with rfl | hp
    · exact ⟨_, _, b, pre, .interior hlive hnode h0 h1 hout hd, hwf, le_rfl, le_rfl⟩
    obtain ⟨-, hkb, -, hwf0, hwf1, -⟩ := hwf
    rw [Tree.toList, List.length_append]
    rcases Finset.mem_union.mp hp with hp | hp
    · obtain ⟨t', F', b', pre', hr, hwf', hle, hlen⟩ := ih0 hwf0 hp
      exact ⟨t', F', b', pre', hr, hwf', by omega, by omega⟩
    · obtain ⟨t', F', b', pre', hr, hwf', hle, hlen⟩ := ih1 hwf1 hp
      exact ⟨t', F', b', pre', hr, hwf', by omega, by omega⟩

/-- **The root of a subtree**: its bit, and the prefix of the numbers under it. -/
theorem root_spec (h : Repr s (some p) t F) (hwf : t.Wf b pre) :
    ∃ k < b, (s.node p).bitPos = oneHot k ∧ (s.node p).number.toNat / 2 ^ b = pre ∧
      ∀ y ∈ t.toList, y / 2 ^ (k + 1) = (s.node p).number.toNat / 2 ^ (k + 1) := by
  cases h with
  | leaf hlive hnode =>
    obtain ⟨hb, hn, -⟩ := hwf
    refine ⟨0, hb, by rw [hnode]; rfl, by rw [hnode]; exact hn, fun y hy => ?_⟩
    rw [hnode, Nat.zero_add, pow_one]
    rw [Tree.toList, List.mem_append] at hy
    rcases hy with hy | hy
    · rw [List.eq_of_mem_replicate hy]
      exact Nat.mul_div_cancel_left _ Nat.two_pos
    · rw [List.eq_of_mem_replicate hy]
      dsimp only
      omega
  | interior hlive hnode h0 h1 hout hd =>
    obtain ⟨-, hkb, hn, hwf0, hwf1, -⟩ := hwf
    refine ⟨_, hkb, by rw [hnode], by rw [hnode]; exact hn, fun y hy => ?_⟩
    rw [hnode]
    rcases List.mem_append.mp hy with hy | hy
    · exact (div_pow_succ (b := false) (Tree.div_of_mem hwf0 hy)).1
    · exact (div_pow_succ (b := true) (Tree.div_of_mem hwf1 hy)).1

/-- **A child**: it is the root of a subtree whose numbers have one more bit in common. -/
theorem child_spec {c : Bool} (h : Repr s (some p) t F) (hwf : t.Wf b pre)
    (hread : s.read (.child c p) = some (some q)) :
    ∃ k t' G, k < b ∧ (s.node p).bitPos = oneHot k ∧ Repr s (some q) t' G ∧
      t'.Wf k (2 * ((s.node p).number.toNat / 2 ^ (k + 1)) + c.toNat) ∧ ∀ y ∈ t'.toList, y ∈ t.toList := by
  obtain ⟨-, hget⟩ := read_child hread
  cases h with
  | leaf hlive hnode =>
    rw [hnode] at hget
    exact nomatch hget
  | interior hlive hnode h0 h1 hout hd =>
    obtain ⟨-, hkb, -, hwf0, hwf1, -⟩ := hwf
    rw [hnode] at hget
    cases c with
    | false =>
      obtain rfl := Option.some.inj hget
      refine ⟨_, _, _, hkb, by rw [hnode], h0, by rw [hnode]; exact hwf0, fun y hy => ?_⟩
      exact List.mem_append_left _ hy
    | true =>
      obtain rfl := Option.some.inj hget
      refine ⟨_, _, _, hkb, by rw [hnode], h1, by rw [hnode]; exact hwf1, fun y hy => ?_⟩
      exact List.mem_append_right _ hy

/-- **The numbers under a node** are the members of its subtree. -/
theorem mem_of_stored (hv : Stored s p v) (h : Repr s (some p) t F) (hwf : t.Wf b pre) : v.toNat ∈ t.toList := by
  -- a leaf has the numbers that its two counters count
  have hleaf : ∀ {t : Tree} {F : Finset P} {p : P} {n : Node P} {c0 c1 : Word}, Repr s (some p) t F →
      s.load p = some n → n.rest = .leaf c0 c1 → t = .leaf n.number.toNat c0.toNat c1.toNat := by
    intro t F p n c0 c1 h hload hrest
    cases h with
    | leaf hlive hnode =>
      rw [load_eq hlive, hnode] at hload
      obtain rfl := Option.some.inj hload
      obtain ⟨rfl, rfl⟩ := Payload.leaf.inj hrest
      rfl
    | interior hlive hnode h0 h1 hout hd =>
      rw [load_eq hlive, hnode] at hload
      obtain rfl := Option.some.inj hload
      exact nomatch hrest
  induction hv generalizing t F b pre with
  | @zero p n c0 c1 hload hrest hc =>
    rw [hleaf h hload hrest, Tree.toList, and_not_one, BitVec.toNat_ofNat, Nat.mod_eq_of_lt (by omega)]
    exact List.mem_append_left _ (List.mem_replicate.mpr ⟨fun h0 => hc (BitVec.eq_of_toNat_eq h0), rfl⟩)
  | @one p n c0 c1 hload hrest hc =>
    rw [hleaf h hload hrest, Tree.toList, or_one, BitVec.toNat_ofNat, Nat.mod_eq_of_lt (by omega)]
    exact List.mem_append_right _ (List.mem_replicate.mpr ⟨fun h0 => hc (BitVec.eq_of_toNat_eq h0), rfl⟩)
  | child hread _ ih =>
    obtain ⟨k, t', G, -, -, hr, hwf', hsub⟩ := child_spec h hwf hread
    exact hsub _ (ih hr hwf')

/-! ### The invariant -/

/-- Words that have a prefix in common agree under the mask. -/
theorem and_higherBits_congr {k : ℕ} (hk : k < 31) {v w : Word} (h : v.toNat / 2 ^ (k + 1) = w.toNat / 2 ^ (k + 1)) :
    v &&& higherBits (oneHot k) = w &&& higherBits (oneHot k) := by
  rw [div_pow_eq_iff] at h
  refine BitVec.eq_of_getLsbD_eq fun i hi => ?_
  rw [BitVec.getLsbD_and, BitVec.getLsbD_and, getLsbD_higherBits hk hi]
  by_cases hki : k < i
  · rw [← BitVec.testBit_toNat v, ← BitVec.testBit_toNat w, h i hki]
  · simp only [hki, decide_false, Bool.and_false]

/-- **The invariant** of nodes that represent a bag. -/
theorem repInv_of_represents (h : Represents s M) (hcard : Multiset.card M < 2 ^ 31) : RepInv s := by
  obtain ⟨t, hholds, hwf, hM⟩ := h
  have hlen : t.toList.length < 2 ^ 31 := by rwa [← hM, Multiset.coe_card] at hcard
  -- what is known of the subtree at a node in use
  have hsub : ∀ p ∈ s.live, ∃ t' F' b' pre', Repr s (some p) t' F' ∧ t'.Wf b' pre' ∧ b' ≤ 31 ∧
      t'.toList.length < 2 ^ 31 := by
    intro p hp
    obtain ⟨t', F', b', pre', hr, hwf', hle, hlen'⟩ := exists_subtree hholds.repr hwf hp
    exact ⟨t', F', b', pre', hr, hwf', hle, by omega⟩
  constructor
  case one_hot =>
    intro p hp
    obtain ⟨t', F', b', pre', hr, hwf', hb, -⟩ := hsub p hp
    obtain ⟨k, hk, hbit, -, -⟩ := root_spec hr hwf'
    exact ⟨k, by omega, hbit⟩
  case below =>
    intro b p q hread
    obtain ⟨t', F', b', pre', hr, hwf', hb, -⟩ := hsub p (read_child hread).1
    obtain ⟨k, u, G, hk, hbit, hru, hwfu, -⟩ := child_spec hr hwf' hread
    obtain ⟨j, hj, hbitq, -, -⟩ := root_spec hru hwfu
    refine ⟨hru.subset (root_mem hru), ?_⟩
    rw [hbit, hbitq, oneHot_slt (by omega) (by omega), decide_eq_true_eq]
    exact hj
  case agree =>
    intro p hp v hv
    obtain ⟨t', F', b', pre', hr, hwf', hb, -⟩ := hsub p hp
    obtain ⟨k, hk, hbit, -, hcommon⟩ := root_spec hr hwf'
    rw [hbit]
    exact and_higherBits_congr (by omega) (hcommon _ (mem_of_stored hv hr hwf'))
  case side =>
    intro b p q v hread hv
    obtain ⟨t', F', b', pre', hr, hwf', hb, -⟩ := hsub p (read_child hread).1
    obtain ⟨k, u, G, hk, hbit, hru, hwfu, -⟩ := child_spec hr hwf' hread
    have hdiv := Tree.div_of_mem hwfu (mem_of_stored hv hru hwfu)
    rw [hbit, ne_eq, BitVec.and_comm, oneHot_and_eq_zero (by omega), (div_pow_succ hdiv).2, Bool.not_eq_false]
  case leaf =>
    intro p hp c0 c1 hrest
    obtain ⟨t', F', b', pre', hr, hwf', hb, hlen'⟩ := hsub p hp
    cases hr with
    | leaf hlive hnode =>
      rw [hnode] at hrest
      obtain ⟨rfl, rfl⟩ := Payload.leaf.inj hrest
      obtain ⟨-, -, hpos⟩ := hwf'
      rw [Tree.toList, List.length_append, List.length_replicate, List.length_replicate] at hlen'
      rw [BitVec.toInt_eq_toNat_of_lt (by omega), BitVec.toInt_eq_toNat_of_lt (by omega), hnode]
      exact ⟨rfl, by omega, by omega, by omega⟩
    | interior hlive hnode h0 h1 hout hd =>
      rw [hnode] at hrest
      cases hrest
  case interior =>
    intro p hp zero one hrest
    obtain ⟨t', F', b', pre', hr, hwf', hb, -⟩ := hsub p hp
    cases hr with
    | leaf hlive hnode =>
      rw [hnode] at hrest
      cases hrest
    | interior hlive hnode h0 h1 hout hd =>
      rw [hnode] at hrest
      obtain ⟨rfl, rfl⟩ := Payload.interior.inj hrest
      obtain ⟨hk, hkb, -, -, -, hne⟩ := hwf'
      rw [hnode, h0.eq_none_iff, h1.eq_none_iff]
      exact ⟨oneHot_ne_one hk (by omega), hne⟩

/-! ### The search -/

/-- **Where an iteration begins**: at a subtree that the number agrees with above `bit_pos`, or behind bit 0. -/
def AtSubtree (number : Word) (s : State P) (bitPos : Word) (slot : Slot P) : Prop :=
  bitPos = 0#32 ∨ ∃ b x t F, bitPos = oneHot b ∧ b < 31 ∧ Holds s slot x t F ∧
    t.Wf (b + 1) (number.toNat / 2 ^ (b + 1))

variable {f : Fresh P} {number bitPos bitPos' : Word} {slot slot' : Slot P}

/-- At a leaf the loop stays at bit 0. -/
theorem useNode_one {n : Node P} (h : useNode number s 1#32 slot p n = some (.next s' bitPos' slot')) :
    bitPos' = 1#32 := by
  have hlast : ∀ {c : Word} {store : Word → Option (State P)}, ((increment c).bind fun c =>
      (store c).bind fun s => some (Iteration.next s 1#32 slot)) = some (.next s' bitPos' slot') →
      bitPos' = 1#32 := by
    intro c store h
    obtain ⟨c', -, h⟩ := Option.bind_eq_some_iff.mp h
    obtain ⟨s1, -, h⟩ := Option.bind_eq_some_iff.mp h
    exact (Iteration.next.inj (Option.some.inj h)).2.1.symm
  have hslt : ¬ (1#32 : Word).slt 1#32 = true := by decide
  rw [useNode, if_neg hslt] at h
  rcases hrest : n.rest with ⟨c0, c1⟩ | ⟨zero, one⟩
  · simp only [hrest] at h
    split_ifs at h
    · exact hlast h
    · exact hlast h
  · simp only [hrest] at h
    cases h

/-- Below an injected node nothing is there yet. -/
theorem atSubtree_inject {b k : ℕ} (h : Holds s slot (some p) t F) (hp : p ∈ s.live)
    (hbit : (s.node p).bitPos = oneHot k) (hkb : k ≤ b) (hb : b < 31)
    (hpre : number.toNat / 2 ^ (b + 1) = (s.node p).number.toNat / 2 ^ (b + 1))
    (hne : number.toNat / 2 ^ (k + 1) ≠ (s.node p).number.toNat / 2 ^ (k + 1))
    (hbody : addBody f number s (oneHot b) slot = some (.next s' bitPos' slot')) :
    AtSubtree number s' (bitPos'.sshiftRight 1) slot' := by
  obtain ⟨diff, hinject, hfind⟩ := addBody_inject f number h hp hbit hkb hb hpre hne
  have hge := le_topBit hne
  have hlt := topBit_lt (fun he => hne (by rw [he])) hpre
  generalize topBit number.toNat (s.node p).number.toNat = j at hfind hge hlt
  obtain ⟨j, rfl⟩ : ∃ i, j = i + 1 := ⟨j - 1, by omega⟩
  obtain ⟨s1, q, -, hcall, -, -, hq, hnode⟩ := injectNode_spec f number (by omega) h hfind
  rw [hinject, hcall] at hbody
  obtain ⟨rfl, rfl, rfl⟩ := Iteration.next.inj (Option.some.inj hbody)
  have hread : s1.read (.child (number.toNat.testBit (j + 1)) q) = some none := by
    simp only [State.read, load_eq hq, hnode, Option.bind_eq_bind, Option.bind_some]
    cases number.toNat.testBit (j + 1) <;> rfl
  rw [oneHot_succ_sshiftRight (by omega)]
  exact Or.inr ⟨j, none, .empty, ∅, rfl, by omega, ⟨hread, .empty, fun r _ => Finset.notMem_empty r⟩, trivial⟩

/-- **One iteration.** -/
theorem AtSubtree.next (h : AtSubtree number s bitPos slot) (hpos : bitPos.slt 1#32 = false)
    (hbody : addBody f number s bitPos slot = some (.next s' bitPos' slot')) :
    AtSubtree number s' (bitPos'.sshiftRight 1) slot' := by
  rcases h with rfl | ⟨b, x, t, F, rfl, hb, hholds, hwf⟩
  · exact absurd hpos (by decide)
  obtain ⟨hread, hrepr, hout⟩ := hholds
  cases hrepr with
  | empty =>
    -- the call returns
    obtain ⟨s1, q, hcall, -, -⟩ := createLeaf_spec f number hread
    have hleaf : addBody f number s (oneHot b) slot = createLeaf f number s slot := by
      simp only [addBody, hread, Option.bind_eq_bind, Option.bind_some]
    rw [hleaf, hcall] at hbody
    cases hbody
  | @leaf p n k0 k1 hlive hnode =>
    have hrepr := Repr.leaf hlive hnode
    have hbit : (s.node p).bitPos = oneHot 0 := by rw [hnode]; rfl
    obtain ⟨-, hn, -⟩ := hwf
    have hnum : (s.node p).number = n := by rw [hnode]
    rw [← hnum] at hn
    by_cases heq : number.toNat / 2 ^ (0 + 1) = (s.node p).number.toNat / 2 ^ (0 + 1)
    · rw [addBody_use f number ⟨hread, hrepr, hout⟩ hlive hbit b.zero_le hb heq] at hbody
      rw [useNode_one hbody]
      exact Or.inl (by decide)
    · exact atSubtree_inject ⟨hread, hrepr, hout⟩ hlive hbit b.zero_le hb hn.symm heq hbody
  | @interior p k n x0 x1 t0 t1 F0 F1 hlive hnode h0 h1 hp hd =>
    have hrepr := Repr.interior hlive hnode h0 h1 hp hd
    have hnodes : Interior s p k n x0 x1 t0 t1 F0 F1 := ⟨hlive, hnode, h0, h1, hp, hd⟩
    have hbit : (s.node p).bitPos = oneHot k := by rw [hnode]
    obtain ⟨hk, hkb, hn, hz, ho, -⟩ := hwf
    have hnum : (s.node p).number = n := by rw [hnode]
    rw [← hnum] at hn hz ho
    by_cases heq : number.toNat / 2 ^ (k + 1) = (s.node p).number.toNat / 2 ^ (k + 1)
    · rw [addBody_use f number ⟨hread, hrepr, hout⟩ hlive hbit (by omega) hb heq,
        useNode_interior number hk (by omega)] at hbody
      obtain ⟨rfl, rfl, rfl⟩ := Iteration.next.inj (Option.some.inj hbody)
      obtain ⟨k, rfl⟩ : ∃ i, k = i + 1 := ⟨k - 1, by omega⟩
      have hpre := div_pow_eq number.toNat (k + 1)
      rw [heq] at hpre
      rw [oneHot_succ_sshiftRight (by omega)]
      right
      cases htest : number.toNat.testBit (k + 1) with
      | true =>
        rw [htest] at hpre
        exact ⟨k, x1, t1, F1, rfl, by omega, hnodes.child_one, by rw [hpre]; exact ho⟩
      | false =>
        rw [htest] at hpre
        exact ⟨k, x0, t0, F0, rfl, by omega, hnodes.child_zero, by rw [hpre]; exact hz⟩
    · exact atSubtree_inject ⟨hread, hrepr, hout⟩ hlive hbit (by omega) hb hn.symm heq hbody

/-- **Every iteration** begins at a subtree. -/
theorem atSubtree_of_iterates (h : Represents s M) (hnum : number.toNat < 2 ^ 31)
    (hiter : Iterates f number s s' bitPos slot) : AtSubtree number s' bitPos slot := by
  induction hiter with
  | start =>
    obtain ⟨t, hholds, hwf, -⟩ := h
    refine Or.inr ⟨30, s.tree, t, s.live, rfl, by omega, hholds, ?_⟩
    rw [Nat.div_eq_of_lt hnum]
    exact hwf
  | next _ hpos hbody ih => exact ih.next hpos hbody

/-- **The search ends above the subtree's bit.** -/
theorem searchEnds_of_represents (h : Represents s M) (hnum : number.toNat < 2 ^ 31) : SearchEnds f number s := by
  intro s1 bitPos slot p n hiter hpos hread hload hslt hdiff
  rcases atSubtree_of_iterates h hnum hiter with rfl | ⟨b, x, t, F, rfl, hb, hholds, hwf⟩
  · exact absurd hpos (by decide)
  obtain rfl : x = some p := Option.some.inj (hholds.read.symm.trans hread)
  have hp : p ∈ s1.live := hholds.repr.subset (root_mem hholds.repr)
  rw [load_eq hp] at hload
  obtain rfl := Option.some.inj hload
  obtain ⟨k, hkb, hbit, hpre, -⟩ := root_spec hholds.repr hwf
  rw [hbit, oneHot_slt (by omega) hb, decide_eq_true_eq] at hslt
  rw [hbit] at hdiff ⊢
  have hne : number.toNat / 2 ^ (k + 1) ≠ (s1.node p).number.toNat / 2 ^ (k + 1) := fun heq =>
    hdiff ((diff_eq_zero_iff hslt hb hpre.symm).mpr heq)
  have hvn : number.toNat ≠ (s1.node p).number.toNat := fun he => hne (by rw [he])
  have hlt := topBit_lt hvn hpre.symm
  have hge := le_topBit hne
  obtain ⟨habove, htop⟩ := topBit_spec hvn
  rw [div_pow_eq_iff] at habove
  refine ⟨topBit number.toNat (s1.node p).number.toNat, findBit_topBit hb hslt hpre.symm hne, ?_, ?_, fun i hi => ?_⟩
  · rw [oneHot_slt (by omega) (by omega), decide_eq_true_eq]
    exact hge
  · rwa [← BitVec.testBit_toNat, ← BitVec.testBit_toNat]
  · rw [← BitVec.testBit_toNat, ← BitVec.testBit_toNat]
    exact habove i hi

/-! ### All runs -/

/-- **The invariant holds between any calls**, and the search of the next `add_number` ends where it should. -/
theorem representation_invariant {fuel : ℕ} (hfuel : 32 ≤ fuel) (node : P → Node P) (cs : List (Call P))
    (hnum : ∀ number f, Call.add number f ∈ cs → number.toNat < 2 ^ 31) (hadds : addCalls cs < 2 ^ 31) :
    ∃ s outs, runCalls fuel cs (initial node) = some (s, outs) ∧ RepInv s ∧
      ∀ number f, number.toNat < 2 ^ 31 → SearchEnds f number s := by
  obtain ⟨s, outs, M, hrun, hbag, hrep⟩ :=
    runCalls_represents hfuel cs (represents_initial node) hnum (fewCopies_of_addCalls hadds)
  have hcard := hbag.card_le_adds
  rw [Multiset.card_zero, Nat.zero_add] at hcard
  exact ⟨s, outs, hrun, repInv_of_represents hrep (hcard.trans_lt hadds),
    fun number f hlt => searchEnds_of_represents hrep hlt⟩

/-- Two numbers and a `take` of one of them, by `representation_invariant`. -/
theorem representation_invariant_two :
    ∃ s outs, runCalls 32 [.add 5#32 nextFree, .add 3#32 nextFree, .take 1]
        (initial fun _ => ⟨0#32, 0#32, .leaf 0#32 0#32⟩) = some (s, outs) ∧ RepInv s ∧
      ∀ number f, number.toNat < 2 ^ 31 → SearchEnds f number s := by
  refine representation_invariant (le_refl 32) _ _ (fun number f hm => ?_) (show 2 < 2 ^ 31 by omega)
  simp only [List.mem_cons, List.not_mem_nil, or_false, reduceCtorEq, Call.add.injEq] at hm
  rcases hm with ⟨rfl, -⟩ | ⟨rfl, -⟩ <;> decide

end CompSys.A6.RadixInvariant
