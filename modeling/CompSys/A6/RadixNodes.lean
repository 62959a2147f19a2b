import CompSys.A6.RadixBytes
import CompSys.A6.NodeBlocks
import CompSys.A6.RadixHeap

/-! # Nodes in the bytes of memory

`Related start m s filled`: the heap of `m` holds the nodes in use of `s`, the words of the nodes `filled` are their
contents, and the pointers are the same. A pointer read is the pointer of the node (`Related.read`), and a pointer
written, a node allocated, filled or released keeps the relation. -/

namespace CompSys.A6.RadixNodes

open CompSys.Lib CompSys.Lib.Words CompSys.A6.Alloc CompSys.A6.NodeBlocks CompSys.A6.RadixBytes
open CompSys.A6.Radix (Payload Node State Slot)
open CompSys.A6.RadixHeap (owner load_eq read_child)

/-! ### The relation -/

/-- The node a pointer leads to. -/
def target (w : Word) : Option ℕ := if w = 0#32 then none else some w.toNat

/-- The words of the union. -/
def PayloadIs : Payload ℕ → Word → Word → Prop
  | .leaf countZero countOne, w, v => w = countZero ∧ v = countOne
  | .interior zero one, w, v => target w = zero ∧ target v = one

/-- The words at `q` are the node `n`. -/
structure NodeAt (mem : Memory) (q : ℕ) (n : Node ℕ) : Prop where
  bitPos : Words.load mem (addr q + Field.bitPos) = n.bitPos
  number : Words.load mem (addr q + Field.number) = n.number
  rest : PayloadIs n.rest (Words.load mem (addr q + Field.zero)) (Words.load mem (addr q + Field.one))

/-- The field of a child. -/
def child : Bool → Word
  | false => Field.zero
  | true => Field.one

/-- The place of a pointer. -/
def place : Slot ℕ → Place
  | .tree => .tree
  | .child b q => .at (addr q + child b)

/-- **The nodes `filled` of `s` are in memory**, and the others in use have a block. -/
structure Related (start : ℕ) (m : Machine) (s : State ℕ) (filled : Finset ℕ) : Prop where
  backs : ∃ p, Backs start m.heap s.live p
  nodes : ∀ q ∈ filled, q ∈ s.live ∧ NodeAt m.heap.mem q (s.node q)
  tree : target m.tree = s.tree

variable {start alloc q : ℕ} {m : Machine} {s s' : State ℕ} {filled : Finset ℕ} {n : Node ℕ} {slot : Slot ℕ}
variable {w v i j : Word} {mem mem' : Memory} {x : Option ℕ}

/-! ### Pointers and fields -/

theorem target_eq_none_iff : target w = none ↔ w = 0#32 := by
  unfold target
  split_ifs with h <;> simp [h]

theorem addr_of_target (h : target w = some q) : w ≠ 0#32 ∧ addr q = w := by
  unfold target at h
  split_ifs at h with h0
  obtain rfl := Option.some.inj h
  exact ⟨h0, by rw [addr, BitVec.ofNat_toNat, BitVec.setWidth_eq]⟩

theorem toNat_addr (hq : q + 20 < 2 ^ 32) : (addr q).toNat = q := by
  rw [addr, BitVec.toNat_ofNat]
  omega

theorem inNode_addr (hq : q + 20 < 2 ^ 32) (hi : i.toNat ≤ 12) : InNode q (addr q + i) := by
  have := toNat_addr hq
  unfold InNode
  bv_omega

/-- A field not stored to. -/
theorem load_store_field (mem : Memory) (a v : Word)
    (h : i.toNat ≤ 12 ∧ j.toNat ≤ 12 ∧ (i.toNat + 4 ≤ j.toNat ∨ j.toNat + 4 ≤ i.toNat)) :
    Words.load (Words.store mem (a + i) v) (a + j) = Words.load mem (a + j) := by
  have hout : ∀ c : Word, c.toNat < 4 → Words.store mem (a + i) v (a + j + c) = mem (a + j + c) := by
    intro c hc
    have hdist : 4 ≤ (a + j + c - (a + i)).toNat := by bv_omega
    rw [Words.store, if_neg (by omega)]
  have h0 := hout 0#32 (by decide)
  rw [BitVec.add_zero] at h0
  unfold Words.load
  rw [h0, hout 1#32 (by decide), hout 2#32 (by decide), hout 3#32 (by decide)]

theorem NodeAt.congr (h : NodeAt mem q n) (hq : q + 20 < 2 ^ 32)
    (hmem : ∀ x, InNode q x → Words.load mem' x = Words.load mem x) : NodeAt mem' q n := by
  have hfield : ∀ i : Word, i.toNat ≤ 12 → Words.load mem' (addr q + i) = Words.load mem (addr q + i) := fun i hi =>
    hmem _ (inNode_addr hq hi)
  refine ⟨(hfield _ (by decide)).trans h.bitPos, (hfield _ (by decide)).trans h.number, ?_⟩
  rw [hfield _ (by decide), hfield _ (by decide)]
  exact h.rest

/-! ### One access -/

theorem Related.live (h : Related start m s filled) (hq : q ∈ s.live) :
    start + 4 ≤ q ∧ q + 20 < 2 ^ 32 := by
  obtain ⟨p, hb⟩ := h.backs
  exact ⟨(hb.bounds hq).1, (hb.bounds hq).2.2⟩

theorem Related.target_addr (h : Related start m s filled) (hq : q ∈ s.live) : target (addr q) = some q := by
  obtain ⟨h1, h2⟩ := h.live hq
  have hNat := toNat_addr h2
  rw [target, if_neg, hNat]
  rintro h0
  rw [h0, BitVec.toNat_zero] at hNat
  omega

/-- **A pointer read.** -/
theorem Related.read (h : Related start m s filled) (hslot : ∀ q, owner slot = some q → q ∈ filled)
    (hread : s.read slot = some x) : target (m.read (place slot)) = x := by
  cases slot with
  | tree => exact h.tree.trans (Option.some.inj hread)
  | child b q =>
    obtain ⟨-, hget⟩ := read_child hread
    have hrest := (h.nodes q (hslot q rfl)).2.rest
    generalize (s.node q).rest = r at hget hrest
    cases r with
    | leaf => cases hget
    | interior zero one =>
      obtain ⟨hzero, hone⟩ := hrest
      cases b
      · exact hzero.trans (Option.some.inj hget)
      · exact hone.trans (Option.some.inj hget)

/-- A store to a word of a node in use. -/
theorem Related.poke (h : Related start m s filled) (hq : q ∈ s.live) (hi : i.toNat ≤ 12) (v : Word) :
    Related start (m.store (addr q + i) v) s (filled.erase q) := by
  obtain ⟨p, hb⟩ := h.backs
  have hx := inNode_addr (h.live hq).2 hi
  refine ⟨⟨p, hb.stored hq hx v⟩, fun r hr => ?_, h.tree⟩
  obtain ⟨hne, hr⟩ := Finset.mem_erase.mp hr
  obtain ⟨hlive, hnode⟩ := h.nodes r hr
  exact ⟨hlive, hnode.congr (h.live hlive).2 fun y hy => hb.load_other hq hlive hne hx hy v⟩

/-- A node whose words are there. -/
theorem Related.fill (h : Related start m s filled) (hq : q ∈ s.live) (hn : NodeAt m.heap.mem q n) :
    Related start m { s with node := Function.update s.node q n } (insert q filled) := by
  refine ⟨h.backs, fun r hr => ?_, h.tree⟩
  by_cases hrq : r = q
  · subst hrq
    simp only [Function.update_self]
    exact ⟨hq, hn⟩
  · simp only [Function.update_of_ne hrq]
    exact h.nodes r ((Finset.mem_insert.mp hr).resolve_left hrq)

theorem Related.mono (h : Related start m s filled) {filled' : Finset ℕ} (hsub : filled' ⊆ filled) :
    Related start m s filled' := ⟨h.backs, fun q hq => h.nodes q (hsub hq), h.tree⟩

/-- **A pointer written.** -/
theorem Related.write (h : Related start m s filled) (hslot : ∀ q, owner slot = some q → q ∈ filled)
    (hwrite : s.write slot (target w) = some s') :
    Related start (m.write w (place slot)) s' filled ∧ s'.live = s.live := by
  cases slot with
  | tree =>
    obtain rfl := Option.some.inj hwrite
    exact ⟨⟨h.backs, h.nodes, rfl⟩, rfl⟩
  | child b q =>
    have hq := hslot q rfl
    obtain ⟨hlive, hnode⟩ := h.nodes q hq
    simp only [State.write, load_eq hlive, State.store, if_pos hlive, Option.bind_eq_bind, Option.bind_some,
      Option.bind_eq_some_iff, Option.some.injEq] at hwrite
    obtain ⟨y, hget, rfl⟩ := hwrite
    have hin : insert q (filled.erase q) = filled := Finset.insert_erase hq
    have hrest := hnode.rest
    refine ⟨?_, rfl⟩
    have hpoke := h.poke hlive (i := child b) (by cases b <;> decide) w
    rw [← hin]
    refine hpoke.fill hlive ⟨?_, ?_, ?_⟩
    · exact (load_store_field _ _ _ (by cases b <;> decide)).trans hnode.bitPos
    · exact (load_store_field _ _ _ (by cases b <;> decide)).trans hnode.number
    · generalize (s.node q).rest = r at hget hrest
      cases r with
      | leaf => cases hget
      | interior zero one =>
        obtain ⟨hzero, hone⟩ := hrest
        cases b
        · refine ⟨congrArg target (load_store _ _ _), ?_⟩
          exact (congrArg target (load_store_field _ _ _ (by decide))).trans hone
        · refine ⟨?_, congrArg target (load_store _ _ _)⟩
          exact (congrArg target (load_store_field _ _ _ (by decide))).trans hzero

/-- **`allocate`.** -/
theorem Related.allocate (h : Related start m s filled) (hstart : 4088 ≤ start) (halloc : 13 ≤ alloc)
    (hroom : start + nodeBlock * (s.live.card + 10) < 2 ^ 32) :
    ∃ q m', m.allocate alloc = some (addr q, m') ∧ q ∉ s.live ∧
      Related start m' { s with live := insert q s.live } filled := by
  obtain ⟨p, hb⟩ := h.backs
  obtain ⟨q, h', p', hal, hq, hb', hmem⟩ := hb.allocate hstart halloc hroom
  refine ⟨q, { m with heap := h' }, ?_, hq, ⟨p', hb'⟩, fun r hr => ?_, h.tree⟩
  · rw [Machine.allocate, sizeofNode, hal]
    rfl
  · obtain ⟨hlive, hnode⟩ := h.nodes r hr
    exact ⟨Finset.mem_insert_of_mem hlive, hnode.congr (h.live hlive).2 (hmem r hlive)⟩

/-- **`release`.** -/
theorem Related.release (h : Related start m s filled) (hstart : 0 < start) (hq : q ∈ s.live) :
    ∃ m', m.release (addr q) = some m' ∧
      Related start m' { s with live := s.live.erase q } (filled.erase q) := by
  obtain ⟨p, hb⟩ := h.backs
  obtain ⟨h', p', hrel, hb', hmem⟩ := hb.release hstart hq
  refine ⟨{ m with heap := h' }, ?_, ⟨p', hb'⟩, fun r hr => ?_, h.tree⟩
  · rw [Machine.release, hrel]
    rfl
  · obtain ⟨hne, hr⟩ := Finset.mem_erase.mp hr
    obtain ⟨hlive, hnode⟩ := h.nodes r hr
    exact ⟨Finset.mem_erase.mpr ⟨hne, hlive⟩, hnode.congr (h.live hlive).2 (hmem r hlive)⟩

/-! ### Several accesses -/

theorem owner_live (hread : s.read slot = some x) : ∀ q, owner slot = some q → q ∈ s.live := by
  intro q hq
  cases slot with
  | tree => cases hq
  | child b p =>
    obtain rfl := Option.some.inj hq
    exact (read_child hread).1

/-- A node more in use. -/
theorem read_insert (hread : s.read slot = some x) (q : ℕ) :
    State.read { s with live := insert q s.live } slot = some x := by
  cases slot with
  | tree => exact hread
  | child b p =>
    obtain ⟨hp, hget⟩ := read_child hread
    simp only [State.read, State.load, if_pos (Finset.mem_insert_of_mem hp), Option.bind_eq_bind, Option.bind_some,
      hget]

/-- A node is allocated, and a pointer set to it. -/
theorem Related.place_new (h : Related start m s s.live) (hread : s.read slot = some x) (hstart : 4088 ≤ start)
    (halloc : 13 ≤ alloc) (hroom : start + nodeBlock * (s.live.card + 10) < 2 ^ 32) :
    ∃ q m' s', m.allocate alloc = some (addr q, m') ∧ q ∉ s.live ∧
      State.write { s with live := insert q s.live } slot (some q) = some s' ∧ s'.live = insert q s.live ∧
      Related start (m'.write (addr q) (place slot)) s' s.live := by
  obtain ⟨q, m', hal, hq, h'⟩ := h.allocate hstart halloc hroom
  obtain ⟨s', hwrite, hlive, -, -⟩ := RadixHeap.write_eq (read_insert hread q) (some q)
  refine ⟨q, m', s', hal, hq, hwrite, hlive, ?_⟩
  rw [← h'.target_addr (Finset.mem_insert_self q _)] at hwrite
  exact (h'.write (owner_live hread) hwrite).1

/-- The four words of a new node. -/
theorem Related.fill_new (h : Related start m s filled) (hq : q ∈ s.live) (hnot : q ∉ filled) (c : Bool)
    (bitPos number : Word) {w v : Word} {r : Payload ℕ} (hr : PayloadIs r (cond c v w) (cond c w v)) :
    Related start ((((m.store (addr q + Field.bitPos) bitPos).store (addr q + Field.number) number).store
        (addr q + child c) w).store (addr q + child !c) v)
      { s with node := Function.update s.node q ⟨bitPos, number, r⟩ } (insert q filled) := by
  have herase : filled.erase q = filled := Finset.erase_eq_of_notMem hnot
  have h₁ := h.poke hq (i := Field.bitPos) (by decide) bitPos
  rw [herase] at h₁
  have h₂ := h₁.poke hq (i := Field.number) (by decide) number
  rw [herase] at h₂
  have h₃ := h₂.poke hq (i := child c) (by cases c <;> decide) w
  rw [herase] at h₃
  have h₄ := h₃.poke hq (i := child !c) (by cases c <;> decide) v
  rw [herase] at h₄
  refine h₄.fill hq ⟨?_, ?_, ?_⟩
  · refine (load_store_field _ _ _ (by cases c <;> decide)).trans ?_
    refine (load_store_field _ _ _ (by cases c <;> decide)).trans ?_
    exact (load_store_field _ _ _ (by decide)).trans (load_store _ _ _)
  · refine (load_store_field _ _ _ (by cases c <;> decide)).trans ?_
    exact (load_store_field _ _ _ (by cases c <;> decide)).trans (load_store _ _ _)
  · generalize (m.store (addr q + Field.bitPos) bitPos).store (addr q + Field.number) number = m₂
    have hw : ((m₂.store (addr q + child c) w).store (addr q + child !c) v).load (addr q + child c) = w :=
      (load_store_field _ _ _ (by cases c <;> decide)).trans (load_store _ _ _)
    have hv : ((m₂.store (addr q + child c) w).store (addr q + child !c) v).load (addr q + child !c) = v :=
      load_store _ _ _
    generalize (m₂.store (addr q + child c) w).store (addr q + child !c) v = m₄ at hw hv
    cases c
    · show PayloadIs r (m₄.load (addr q + child false)) (m₄.load (addr q + child !false))
      rw [hw, hv]
      exact hr
    · show PayloadIs r (m₄.load (addr q + child !true)) (m₄.load (addr q + child true))
      rw [hw, hv]
      exact hr

/-- A counter of a leaf. -/
theorem Related.store_count (h : Related start m s s.live) (hq : q ∈ s.live) {c0 c1 : Word}
    (hrest : (s.node q).rest = .leaf c0 c1) (b : Bool) (v : Word) :
    Related start (m.store (addr q + child b) v)
      { s with node := Function.update s.node q { s.node q with rest := .leaf (cond b c0 v) (cond b v c1) } }
      s.live := by
  obtain ⟨-, hnode⟩ := h.nodes q hq
  obtain ⟨hw, hv⟩ : PayloadIs (.leaf c0 c1) _ _ := hrest ▸ hnode.rest
  have hpoke := h.poke hq (i := child b) (by cases b <;> decide) v
  have hfill := hpoke.fill (n := { s.node q with rest := .leaf (cond b c0 v) (cond b v c1) }) hq ⟨?_, ?_, ?_⟩
  · rwa [Finset.insert_erase hq] at hfill
  · exact (load_store_field _ _ _ (by cases b <;> decide)).trans hnode.bitPos
  · exact (load_store_field _ _ _ (by cases b <;> decide)).trans hnode.number
  · cases b
    · exact ⟨load_store _ _ _, (load_store_field _ _ _ (by decide)).trans hv⟩
    · exact ⟨(load_store_field _ _ _ (by decide)).trans hw, load_store _ _ _⟩

/-- **A node is released**, and the pointer to it set to `NULL`. -/
theorem Related.remove (h : Related start m s s.live) (hstart : 0 < start) {p : ℕ} (hp : p ∈ s.live)
    (hwrite : State.write { s with live := s.live.erase p } slot none = some s') :
    ∃ m', m.release (addr p) = some m' ∧ Related start (m'.write 0#32 (place slot)) s' s'.live ∧
      s'.live = s.live.erase p := by
  obtain ⟨m', hrel, h'⟩ := h.release hstart hp
  have hslot : ∀ q, owner slot = some q → q ∈ s.live.erase p := by
    intro q hq
    cases slot with
    | tree => cases hq
    | child b r =>
      obtain rfl := Option.some.inj hq
      by_contra hr
      have hload : State.load { s with live := s.live.erase p } r = none := if_neg hr
      simp [State.write, hload] at hwrite
  obtain ⟨h'', hlive⟩ := h'.write hslot (w := 0#32) hwrite
  refine ⟨m', hrel, ?_, hlive⟩
  rw [hlive]
  exact h''

end CompSys.A6.RadixNodes
