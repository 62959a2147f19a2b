import CompSys.A6.Radix
import CompSys.A6.RadixTree

/-! # Radix trees in memory

`Repr s x t F`: the nodes `F` of the state, reached from the pointer `x`, are the tree `t`, each
reached once. An operation on the subtree in a slot leaves another subtree there and everything else
as it was (`Replaces`); a replacement below a child of a node is one below the node (`Replaces.lift`),
and replacements follow each other (`Replaces.trans`). -/

namespace CompSys.A6.RadixHeap

open CompSys.Lib.OneHot CompSys.A6.Radix CompSys.A6.RadixTree

variable {P : Type}

/-! ### Slots -/

/-- The node a slot lies in. -/
def owner : Slot P → Option P
  | .tree => none
  | .child _ p => some p

/-- What a write of `x` to the slot makes of the variable `tree`. -/
def patchTree (slot : Slot P) (x old : Option P) : Option P :=
  match slot with
  | .tree => x
  | .child _ _ => old

theorem get_set {r : Payload P} {b : Bool} {x y : Option P} (h : r.get b = some x) :
    (r.set b y).get b = some y ∧ (r.set b y).get (!b) = r.get (!b) := by
  cases r with
  | leaf => cases h
  | interior z o => cases b <;> exact ⟨rfl, rfl⟩

theorem set_get {r : Payload P} {b : Bool} {x : Option P} (h : r.get b = some x) :
    r.set b x = r := by
  cases r with
  | leaf => cases h
  | interior z o => cases b <;> cases h <;> rfl

theorem set_set (r : Payload P) (b : Bool) (x y : Option P) : (r.set b x).set b y = r.set b y := by
  cases r with
  | leaf => rfl
  | interior z o => cases b <;> rfl

variable [DecidableEq P]

/-- What a write of `x` to the slot makes of the contents of node `q`. -/
def patch (slot : Slot P) (x : Option P) (q : P) (n : Node P) : Node P :=
  match slot with
  | .tree => n
  | .child b p => if q = p then { n with rest := n.rest.set b x } else n

theorem patch_patch (slot : Slot P) (x y : Option P) (q : P) (n : Node P) :
    patch slot y q (patch slot x q n) = patch slot y q n := by
  cases slot with
  | tree => rfl
  | child b p =>
    by_cases hq : q = p
    · simp [patch, hq, set_set]
    · simp [patch, hq]

theorem load_eq {s : State P} {p : P} (h : p ∈ s.live) : s.load p = some (s.node p) := if_pos h

theorem read_child {s : State P} {b : Bool} {p : P} {x : Option P}
    (h : s.read (.child b p) = some x) : p ∈ s.live ∧ (s.node p).rest.get b = some x := by
  simp only [State.read] at h
  by_cases hp : p ∈ s.live
  · rw [load_eq hp] at h; exact ⟨hp, h⟩
  · rw [State.load, if_neg hp] at h; cases h

/-- A write of what is there already changes nothing. -/
theorem patch_read {s : State P} {slot : Slot P} {x : Option P} (h : s.read slot = some x) (q : P) :
    patch slot x q (s.node q) = s.node q := by
  cases slot with
  | tree => rfl
  | child b p =>
    by_cases hq : q = p
    · simp only [patch, hq, if_true, set_get (read_child h).2]
    · simp only [patch, if_neg hq]

/-- A slot that can be read can be written. -/
theorem write_eq {s : State P} {slot : Slot P} {x : Option P} (h : s.read slot = some x)
    (y : Option P) : ∃ s', s.write slot y = some s' ∧ s'.live = s.live ∧
      s'.tree = patchTree slot y s.tree ∧ ∀ q, s'.node q = patch slot y q (s.node q) := by
  cases slot with
  | tree => exact ⟨_, rfl, rfl, rfl, fun q => rfl⟩
  | child b p =>
    obtain ⟨hp, hg⟩ := read_child h
    refine ⟨⟨s.live, fun q => patch (.child b p) y q (s.node q), s.tree⟩, ?_, rfl, rfl,
      fun q => rfl⟩
    simp only [State.write, load_eq hp, State.store, if_pos hp, Option.bind_eq_bind,
      Option.bind_some, hg]
    congr 2
    funext q
    by_cases hq : q = p
    · simp [patch, hq]
    · simp [patch, hq]

/-! ### Trees in memory -/

/-- The tree at the pointer `x`, made of the nodes `F`. -/
inductive Repr (s : State P) : Option P → Tree → Finset P → Prop
  | empty : Repr s none .empty ∅
  | leaf {p : P} {number k0 k1 : Word} (hlive : p ∈ s.live)
      (hnode : s.node p = ⟨1#32, number, .leaf k0 k1⟩) :
    Repr s (some p) (.leaf number.toNat k0.toNat k1.toNat) {p}
  | interior {p : P} {k : ℕ} {number : Word} {x0 x1 : Option P} {t0 t1 : Tree} {F0 F1 : Finset P}
      (hlive : p ∈ s.live) (hnode : s.node p = ⟨oneHot k, number, .interior x0 x1⟩)
      (h0 : Repr s x0 t0 F0) (h1 : Repr s x1 t1 F1) (hp : p ∉ F0 ∪ F1) (hd : Disjoint F0 F1) :
    Repr s (some p) (.interior k number.toNat t0 t1) (insert p (F0 ∪ F1))

variable {s s' s'' : State P} {x y z : Option P} {t : Tree} {F F' F'' G G' H : Finset P}
variable {slot : Slot P}

theorem Repr.subset (h : Repr s x t F) : F ⊆ s.live := by
  induction h with
  | empty => exact Finset.empty_subset _
  | leaf hlive _ => exact Finset.singleton_subset_iff.mpr hlive
  | interior hlive _ _ _ _ _ ih0 ih1 =>
    exact Finset.insert_subset_iff.mpr ⟨hlive, Finset.union_subset ih0 ih1⟩

theorem root_mem {p : P} (h : Repr s (some p) t F) : p ∈ F := by
  cases h with
  | leaf => exact Finset.mem_singleton_self p
  | interior => exact Finset.mem_insert_self p _

/-- A tree is not touched by what happens to other nodes. -/
theorem Repr.congr (h : Repr s x t F) (hs : ∀ q ∈ F, q ∈ s'.live ∧ s'.node q = s.node q) :
    Repr s' x t F := by
  induction h with
  | empty => exact .empty
  | @leaf p _ _ _ _ hnode =>
    obtain ⟨hl, hn⟩ := hs p (Finset.mem_singleton_self p)
    exact .leaf hl (hn.trans hnode)
  | @interior p _ _ _ _ _ _ F0 F1 _ hnode _ _ hp hd ih0 ih1 =>
    obtain ⟨hl, hn⟩ := hs p (Finset.mem_insert_self p _)
    refine .interior hl (hn.trans hnode) (ih0 fun q hq => hs q ?_) (ih1 fun q hq => hs q ?_) hp hd
    · exact Finset.mem_insert_of_mem (Finset.mem_union_left _ hq)
    · exact Finset.mem_insert_of_mem (Finset.mem_union_right _ hq)

/-- The slot holds `x`, which is the tree `t` of the nodes `F`, and does not lie in one of them. -/
structure Holds (s : State P) (slot : Slot P) (x : Option P) (t : Tree) (F : Finset P) : Prop where
  read : s.read slot = some x
  repr : Repr s x t F
  outside : ∀ p, owner slot = some p → p ∉ F

/-- A child of a node, in its slot. -/
theorem Repr.child {b : Bool} {p : P} (h : Repr s x t F) (hp : p ∈ s.live) (hget : (s.node p).rest.get b = some x)
    (hF : p ∉ F) : Holds s (.child b p) x t F := by
  refine ⟨?_, h, fun q hq => ?_⟩
  · rw [State.read, load_eq hp]
    exact hget
  · obtain rfl := Option.some.inj hq
    exact hF

/-! ### Replacements -/

/-- `s'` is `s` with `x` in the slot, the nodes `F` given back and the nodes `F'` in their place. -/
structure Replaces (s s' : State P) (slot : Slot P) (x : Option P) (F F' : Finset P) : Prop where
  live : s'.live = s.live \ F ∪ F'
  apart : ∀ q ∈ F', q ∈ s.live → q ∈ F
  tree : s'.tree = patchTree slot x s.tree
  node : ∀ q ∈ s.live, q ∉ F → s'.node q = patch slot x q (s.node q)

/-- What is outside stays in use. -/
theorem Replaces.mem_live (h : Replaces s s' slot x F F') {q : P} (hq : q ∈ s.live) (hF : q ∉ F) :
    q ∈ s'.live := by
  rw [h.live]
  exact Finset.mem_union_left _ (Finset.mem_sdiff.mpr ⟨hq, hF⟩)

/-- What is outside does not become part of the subtree. -/
theorem Replaces.not_mem (h : Replaces s s' slot x F F') {q : P} (hq : q ∈ s.live) (hF : q ∉ F) :
    q ∉ F' := fun hq' => hF (h.apart q hq' hq)

/-- **Two replacements** in one slot. -/
theorem Replaces.trans (h : Replaces s s' slot x F F') (h' : Replaces s' s'' slot y F' F'') :
    Replaces s s'' slot y F F'' := by
  refine ⟨?_, fun q hq hl => ?_, ?_, fun q hl hF => ?_⟩
  · rw [h'.live, h.live]
    ext q
    have := h.apart q
    simp only [Finset.mem_union, Finset.mem_sdiff]
    tauto
  · by_contra hF
    exact h.not_mem hl hF (h'.apart q hq (h.mem_live hl hF))
  · rw [h'.tree, h.tree]
    cases slot <;> rfl
  · rw [h'.node q (h.mem_live hl hF) (h.not_mem hl hF), h.node q hl hF, patch_patch]

/-- **After a replacement the slot holds the new subtree.** -/
theorem Replaces.read (h : Replaces s s' slot x F F') (hs : Holds s slot y t F) :
    s'.read slot = some x := by
  cases slot with
  | tree => show some s'.tree = some x; rw [h.tree]; rfl
  | child b p =>
    obtain ⟨hp, hg⟩ := read_child hs.read
    have hout := hs.outside p rfl
    have hn := h.node p hp hout
    simp only [patch, if_true] at hn
    simp only [State.read, load_eq (h.mem_live hp hout), hn, Option.bind_eq_bind, Option.bind_some]
    exact (get_set hg).1

theorem Replaces.holds (h : Replaces s s' slot x F F') (hs : Holds s slot y t F) {t' : Tree}
    (hr : Repr s' x t' F') : Holds s' slot x t' F' := by
  refine ⟨h.read hs, hr, fun p hp => ?_⟩
  cases slot with
  | tree => cases hp
  | child b q =>
    cases hp
    exact h.not_mem (read_child hs.read).1 (hs.outside _ rfl)

theorem Repr.eq_none_iff (h : Repr s x t F) : x = none ↔ t = .empty := by
  cases h <;> simp

/-- Writing a node's own contents. -/
theorem store_spec {p : P} (hread : s.read slot = some (some p)) (hp : p ∈ s.live) (n : Node P) :
    ∃ s', s.store p n = some s' ∧ Replaces s s' slot (some p) {p} {p} ∧ p ∈ s'.live ∧
      s'.node p = n := by
  refine ⟨_, if_pos hp, ⟨?_, fun q hq _ => hq, ?_, fun q _ hq => ?_⟩, hp, Function.update_self _ _ _⟩
  · exact (Finset.sdiff_union_of_subset (Finset.singleton_subset_iff.mpr hp)).symm
  · cases slot with
    | tree => exact Option.some.inj hread
    | child => rfl
  · rw [patch_read hread]
    exact Function.update_of_ne (fun he => hq (Finset.mem_singleton.mpr he)) _ _

/-- `release(p); *parent = NULL`. -/
theorem remove_spec {p : P} (h : Holds s slot (some p) t {p}) :
    ∃ s1 s2, s.release p = some s1 ∧ s1.write slot none = some s2 ∧ Replaces s s2 slot none {p} ∅ := by
  have hp : p ∈ s.live := h.repr.subset (Finset.mem_singleton_self p)
  have hread : ({ s with live := s.live.erase p } : State P).read slot = some (some p) := by
    cases slot with
    | tree => exact h.read
    | child b q =>
      obtain ⟨hq, hg⟩ := read_child h.read
      have hne : q ≠ p := fun he => h.outside q rfl (Finset.mem_singleton.mpr he)
      have hq' : q ∈ ({ s with live := s.live.erase p } : State P).live :=
        Finset.mem_erase.mpr ⟨hne, hq⟩
      simp only [State.read, load_eq hq', Option.bind_eq_bind, Option.bind_some]
      exact hg
  obtain ⟨s2, hw, hlive, htree, hnode⟩ := write_eq hread none
  refine ⟨_, s2, if_pos hp, hw, ⟨?_, fun q hq => by simp at hq, htree, fun q _ _ => hnode q⟩⟩
  rw [hlive, Finset.union_empty, Finset.sdiff_singleton_eq_erase]

/-- **A replacement below a child** of the node `p` in the slot: the node and its other subtree `H`
stay, and the subtree in the slot is replaced. -/
theorem Replaces.lift {b : Bool} {p : P} (h : Replaces s s' (.child b p) x G G')
    (hread : s.read slot = some (some p)) (hp : p ∈ s.live) (hH : H ⊆ s.live) (hpG : p ∉ G ∪ H)
    (hd : Disjoint G H) :
    Replaces s s' slot (some p) (insert p (G ∪ H)) (insert p (G' ∪ H)) ∧ p ∉ G' ∪ H ∧
      Disjoint G' H ∧ (∀ q ∈ H, q ∈ s'.live ∧ s'.node q = s.node q) ∧ p ∈ s'.live ∧
      s'.node p = { s.node p with rest := (s.node p).rest.set b x } := by
  simp only [Finset.mem_union, not_or] at hpG
  have hHG : ∀ q ∈ H, q ∉ G := fun q hq => Finset.disjoint_right.mp hd hq
  have hne : ∀ q ∈ H, q ≠ p := fun q hq he => hpG.2 (he ▸ hq)
  refine ⟨⟨?_, ?_, ?_, ?_⟩, ?_, ?_, ?_, ?_, ?_⟩
  · rw [h.live]
    ext q
    have h1 : q = p → q ∈ s.live ∧ q ∉ G := fun he => by rw [he]; exact ⟨hp, hpG.1⟩
    have h2 : q ∈ H → q ∈ s.live ∧ q ∉ G := fun hq => ⟨hH hq, hHG q hq⟩
    simp only [Finset.mem_union, Finset.mem_sdiff, Finset.mem_insert]
    tauto
  · intro q hq hl
    rcases Finset.mem_insert.mp hq with rfl | hq
    · exact Finset.mem_insert_self _ _
    rcases Finset.mem_union.mp hq with hq | hq
    · exact Finset.mem_insert_of_mem (Finset.mem_union_left _ (h.apart q hq hl))
    · exact Finset.mem_insert_of_mem (Finset.mem_union_right _ hq)
  · rw [h.tree]
    cases slot with
    | tree => exact Option.some.inj hread
    | child => rfl
  · intro q hl hq
    simp only [Finset.mem_insert, Finset.mem_union, not_or] at hq
    rw [h.node q hl hq.2.1, patch_read hread]
    simp only [patch, if_neg hq.1]
  · simp only [Finset.mem_union, not_or]
    exact ⟨h.not_mem hp hpG.1, hpG.2⟩
  · exact Finset.disjoint_right.mpr fun q hq => h.not_mem (hH hq) (hHG q hq)
  · intro q hq
    refine ⟨h.mem_live (hH hq) (hHG q hq), ?_⟩
    rw [h.node q (hH hq) (hHG q hq)]
    simp only [patch, if_neg (hne q hq)]
  · exact h.mem_live hp hpG.1
  · rw [h.node p hp hpG.1]
    simp only [patch, if_true]

/-- A node with its two subtrees. -/
structure Interior (s : State P) (p : P) (k : ℕ) (number : Word) (x0 x1 : Option P) (t0 t1 : Tree)
    (F0 F1 : Finset P) : Prop where
  live : p ∈ s.live
  node : s.node p = ⟨oneHot k, number, .interior x0 x1⟩
  zero : Repr s x0 t0 F0
  one : Repr s x1 t1 F1
  outside : p ∉ F0 ∪ F1
  disjoint : Disjoint F0 F1

section

variable {p : P} {k : ℕ} {number : Word} {x0 x1 : Option P} {t0 t1 : Tree} {F0 F1 : Finset P}

theorem Interior.repr (h : Interior s p k number x0 x1 t0 t1 F0 F1) :
    Repr s (some p) (.interior k number.toNat t0 t1) (insert p (F0 ∪ F1)) :=
  .interior h.live h.node h.zero h.one h.outside h.disjoint

/-- The subtree of zeros, in its slot. -/
theorem Interior.child_zero (h : Interior s p k number x0 x1 t0 t1 F0 F1) : Holds s (.child false p) x0 t0 F0 :=
  h.zero.child h.live (by rw [h.node]; rfl) fun hp => h.outside (Finset.mem_union_left _ hp)

/-- The subtree of ones, in its slot. -/
theorem Interior.child_one (h : Interior s p k number x0 x1 t0 t1 F0 F1) : Holds s (.child true p) x1 t1 F1 :=
  h.one.child h.live (by rw [h.node]; rfl) fun hp => h.outside (Finset.mem_union_right _ hp)

/-- **Another subtree of zeros.** -/
theorem Interior.replace_zero (h : Interior s p k number x0 x1 t0 t1 F0 F1) (hread : s.read slot = some (some p))
    (hrep : Replaces s s' (.child false p) x F0 G) (hr : Repr s' x t G) :
    Replaces s s' slot (some p) (insert p (F0 ∪ F1)) (insert p (G ∪ F1)) ∧
      Interior s' p k number x x1 t t1 G F1 := by
  obtain ⟨hlift, hp, hd, hF, hlive, hnode⟩ := hrep.lift hread h.live h.one.subset h.outside h.disjoint
  rw [h.node] at hnode
  exact ⟨hlift, hlive, hnode, hr, h.one.congr hF, hp, hd⟩

/-- **Another subtree of ones.** -/
theorem Interior.replace_one (h : Interior s p k number x0 x1 t0 t1 F0 F1) (hread : s.read slot = some (some p))
    (hrep : Replaces s s' (.child true p) x F1 G) (hr : Repr s' x t G) :
    Replaces s s' slot (some p) (insert p (F0 ∪ F1)) (insert p (F0 ∪ G)) ∧
      Interior s' p k number x0 x t0 t F0 G := by
  have hout : p ∉ F1 ∪ F0 := by rw [Finset.union_comm]; exact h.outside
  obtain ⟨hlift, hp, hd, hF, hlive, hnode⟩ := hrep.lift hread h.live h.zero.subset hout h.disjoint.symm
  rw [h.node] at hnode
  rw [Finset.union_comm F1, Finset.union_comm G] at hlift
  rw [Finset.union_comm] at hp
  exact ⟨hlift, hlive, hnode, h.zero.congr hF, hr, hp, hd.symm⟩

end

end CompSys.A6.RadixHeap
