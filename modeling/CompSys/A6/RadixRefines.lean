import CompSys.A6.RadixNodes
import CompSys.A6.RadixMain

/-! # The program on bytes is the program on nodes

Each function of `RadixBytes` does what the function of `Radix` does on the nodes in memory, for the choices that the
allocator makes (`addLoop_refines`, `takeNumbers2_refines`, `releaseTree_refines`). Which nodes those are is known only
step by step, so the loop of `add_number` collects the choices on its way. A run of calls on the bytes of memory is then
a run of a bag, and `release_tree` gives every block of the heap back (`runCalls_is_bag`). -/

namespace CompSys.A6.RadixRefines

open CompSys.Lib CompSys.A6.Alloc CompSys.A6.NodeBlocks CompSys.A6.RadixBytes CompSys.A6.RadixNodes
open CompSys.A6.Radix (Payload Node State Fresh Slot Buffer increment)
open CompSys.A6.RadixHeap (owner load_eq read_child)
open CompSys.A6.RadixRuns (nextFree)

variable {start alloc q : ℕ} {m : Machine} {s s' : State ℕ} {slot : Slot ℕ} {w : Word} {x : Option ℕ}

/-! ### `add_number` -/

/-- How many nodes an iteration at the pointer and those after it may allocate. -/
def need (s : State ℕ) (slot : Slot ℕ) : ℕ := if s.read slot = some none then 1 else 2

theorem need_le (s : State ℕ) (slot : Slot ℕ) : 1 ≤ need s slot ∧ need s slot ≤ 2 := by
  unfold need
  split_ifs <;> omega

/-- The state after an iteration. -/
def result : Radix.Iteration ℕ → State ℕ
  | .done s => s
  | .next s _ _ => s

def pending : Radix.Iteration ℕ → ℕ
  | .done _ => 0
  | .next s _ slot => need s slot

/-- Both end their iteration in the same way. -/
inductive Matches (start : ℕ) : Radix.Iteration ℕ → Iteration → Prop
  | done {s : State ℕ} {m : Machine} : Related start m s s.live → Matches start (.done s) (.done m)
  | next {s : State ℕ} {m : Machine} (bitPos : Word) (slot : Slot ℕ) : Related start m s s.live →
      Matches start (.next s bitPos slot) (.next m bitPos (place slot))

/-- **What an iteration does**: for the choices of `allocate` made, `it` and `mit`, with as many nodes more as are
counted off. -/
structure Steps (start : ℕ) (s : State ℕ) (slot : Slot ℕ) (body : Fresh ℕ → Option (Radix.Iteration ℕ))
    (mbody : Option Iteration) : Prop where
  exists_pick : ∃ q it mit, q ∉ s.live ∧ mbody = some mit ∧ Matches start it mit ∧
    (∀ f : Fresh ℕ, ((result it).live ≠ s.live → f.pick s.live = q) → body f = some it) ∧
    ((result it).live = s.live ∨ (result it).live = insert q s.live) ∧
    (result it).live.card + pending it ≤ s.live.card + need s slot

variable {number bitPos diff : Word}

theorem createLeaf_refines (number : Word) (h : Related start m s s.live) (hread : s.read slot = some none)
    (hstart : 4088 ≤ start) (halloc : 13 ≤ alloc) (hroom : start + nodeBlock * (s.live.card + 10) < 2 ^ 32) :
    Steps start s slot (fun f => Radix.createLeaf f number s slot) (createLeaf alloc number m (place slot)) := by
  obtain ⟨q, m', s', hal, hq, hwrite, hlive, h'⟩ := h.place_new hread hstart halloc hroom
  have hq' : q ∈ s'.live := by rw [hlive]; exact Finset.mem_insert_self q _
  have hfill := h'.fill_new hq' hq false 1#32 number
    (r := .leaf (Radix.ofCond (number &&& 1#32 == 0#32)) (Radix.ofCond (number &&& 1#32 == 1#32))) ⟨rfl, rfl⟩
  rw [← hlive] at hfill
  have hne : s'.live ≠ s.live := fun he => hq (he ▸ hq')
  refine ⟨q, .done _, .done _, hq, ?_, .done hfill, fun f hf => ?_, Or.inr hlive, ?_⟩
  · simp only [createLeaf, hal, Option.bind_eq_bind, Option.bind_some]
    rfl
  · have hf' := hf hne
    simp only [Radix.createLeaf, State.allocate, hf', hwrite, State.store, if_pos hq', Option.bind_eq_bind,
      Option.bind_some]
  · have hcard := Finset.card_insert_of_notMem hq
    rw [← hlive] at hcard
    simp only [result, pending, need, if_pos hread]
    omega

theorem injectNode_refines (number : Word) (h : Related start m s s.live) {p : ℕ} (hread : s.read slot = some (some p))
    (hp : target w = some p) {bit : Word} (hbit : Radix.findBit diff 32 bitPos = some bit) (hstart : 4088 ≤ start)
    (halloc : 13 ≤ alloc) (hroom : start + nodeBlock * (s.live.card + 10) < 2 ^ 32) :
    Steps start s slot (fun f => Radix.injectNode f number s bitPos slot p diff)
      (injectNode alloc number m bitPos (place slot) w diff) := by
  obtain ⟨q, m', s', hal, hq, hwrite, hlive, h'⟩ := h.place_new hread hstart halloc hroom
  have hq' : q ∈ s'.live := by rw [hlive]; exact Finset.mem_insert_self q _
  have hne : s'.live ≠ s.live := fun he => hq (he ▸ hq')
  have hcard := Finset.card_insert_of_notMem hq
  rw [← hlive] at hcard
  have hneed : need s slot = 2 := by rw [need, if_neg (by rw [hread]; simp)]
  have hnull : target 0#32 = none := rfl
  by_cases hand : number &&& bit = 0#32
  · have hfill := h'.fill_new hq' hq true bit number (w := w) (v := 0#32)
      (r := .interior none (some p)) ⟨hnull, hp⟩
    rw [← hlive] at hfill
    refine ⟨q, .next _ bit (.child false q), .next _ bit (place (.child false q)), hq, ?_, .next _ _ hfill,
      fun f hf => ?_, Or.inr hlive, ?_⟩
    · simp only [injectNode, hbit, hal, hand, Option.bind_eq_bind, Option.bind_some, if_true]
      rfl
    · have hf' := hf hne
      simp only [Radix.injectNode, hbit, State.allocate, hf', hwrite, hand, State.store, if_pos hq',
        Option.bind_eq_bind, Option.bind_some, if_true]
    · have hslot : need { s' with node := Function.update s'.node q ⟨bit, number, .interior none (some p)⟩ }
          (.child false q) = 1 := by
        simp [need, State.read, State.load, hq', Payload.get]
      simp only [result, pending, hslot, hneed]
      omega
  · have hfill := h'.fill_new hq' hq false bit number (w := w) (v := 0#32)
      (r := .interior (some p) none) ⟨hp, hnull⟩
    rw [← hlive] at hfill
    refine ⟨q, .next _ bit (.child true q), .next _ bit (place (.child true q)), hq, ?_, .next _ _ hfill,
      fun f hf => ?_, Or.inr hlive, ?_⟩
    · simp only [injectNode, hbit, hal, hand, Option.bind_eq_bind, Option.bind_some, if_false]
      rfl
    · have hf' := hf hne
      simp only [Radix.injectNode, hbit, State.allocate, hf', hwrite, hand, State.store, if_pos hq',
        Option.bind_eq_bind, Option.bind_some, if_false]
    · have hslot : need { s' with node := Function.update s'.node q ⟨bit, number, .interior (some p) none⟩ }
          (.child true q) = 1 := by
        simp [need, State.read, State.load, hq', Payload.get]
      simp only [result, pending, hslot, hneed]
      omega

/-- An iteration without `allocate`. -/
theorem steps_of_eq {p : ℕ} (hread : s.read slot = some (some p)) {body : Fresh ℕ → Option (Radix.Iteration ℕ)}
    {mbody : Option Iteration} (bitPos : Word) (slot' : Slot ℕ) (hbody : ∀ f, body f = some (.next s' bitPos slot'))
    (hmbody : mbody = some (.next m bitPos (place slot'))) (h : Related start m s' s'.live) (hlive : s'.live = s.live) :
    Steps start s slot body mbody := by
  refine ⟨nextFree.pick s.live, _, _, nextFree.fresh _, hmbody, .next _ _ h, fun f _ => hbody f,
    Or.inl hlive, ?_⟩
  have hneed : need s slot = 2 := by rw [need, if_neg (by rw [hread]; simp)]
  have := (need_le s' slot').2
  simp only [result, pending, hneed, hlive]
  omega

theorem useNode_refines (h : Related start m s s.live) {p : ℕ} (hread : s.read slot = some (some p)) (hp : p ∈ s.live)
    (hsome : (Radix.useNode number s bitPos slot p (s.node p)).isSome) :
    Steps start s slot (fun _ => Radix.useNode number s bitPos slot p (s.node p))
      (useNode number m bitPos (place slot) (addr p)) := by
  unfold Radix.useNode at hsome ⊢
  unfold useNode
  by_cases hpos : (1#32).slt bitPos = true
  · simp only [if_pos hpos]
    by_cases hand : bitPos &&& number ≠ 0#32
    · simp only [if_pos hand]
      exact steps_of_eq hread _ _ (fun _ => rfl) rfl h rfl
    · simp only [if_neg hand]
      exact steps_of_eq hread _ _ (fun _ => rfl) rfl h rfl
  · simp only [if_neg hpos] at hsome ⊢
    cases hn : (s.node p).rest with
    | interior =>
      rw [hn] at hsome
      exact absurd hsome (by simp)
    | leaf c0 c1 =>
      obtain ⟨hc0, hc1⟩ : PayloadIs (.leaf c0 c1) _ _ := hn ▸ (h.nodes p hp).2.rest
      have hcount := h.store_count hp hn
      simp only [hn] at hsome
      by_cases hand : number &&& 1#32 ≠ 0#32
      · simp only [if_pos hand] at hsome ⊢
        cases hinc : increment c1 with
        | none => simp [hinc] at hsome
        | some c =>
          refine steps_of_eq hread bitPos slot (fun _ => ?_) ?_ (hcount true c) rfl
          · simp only [State.store, if_pos hp, Option.bind_eq_bind, Option.bind_some, cond_true]
          · rw [show m.load (addr p + Field.countOne) = c1 from hc1, hinc]
            rfl
      · simp only [if_neg hand] at hsome ⊢
        cases hinc : increment c0 with
        | none => simp [hinc] at hsome
        | some c =>
          refine steps_of_eq hread bitPos slot (fun _ => ?_) ?_ (hcount false c) rfl
          · simp only [State.store, if_pos hp, Option.bind_eq_bind, Option.bind_some, cond_false]
          · rw [show m.load (addr p + Field.countZero) = c0 from hc0, hinc]
            rfl

/-- **An iteration.** -/
theorem addBody_refines (f : Fresh ℕ) (h : Related start m s s.live)
    (hsome : (Radix.addBody f number s bitPos slot).isSome) (hstart : 4088 ≤ start) (halloc : 13 ≤ alloc)
    (hroom : start + nodeBlock * (s.live.card + 10) < 2 ^ 32) :
    Steps start s slot (fun f => Radix.addBody f number s bitPos slot)
      (addBody alloc number m bitPos (place slot)) := by
  cases hread : s.read slot with
  | none => exact absurd hsome (by simp [Radix.addBody, hread])
  | some x =>
    have htarget := h.read (owner_live hread) hread
    unfold addBody
    cases x with
    | none =>
      have hnull := target_eq_none_iff.mp htarget
      simp only [Radix.addBody, hread, Option.bind_eq_bind, Option.bind_some, if_pos hnull]
      exact createLeaf_refines number h hread hstart halloc hroom
    | some p =>
      obtain ⟨hne, haddr⟩ := addr_of_target htarget
      have hp : p ∈ s.live := by
        by_contra hp
        exact absurd hsome (by simp [Radix.addBody, hread, State.load, hp])
      obtain ⟨-, hbit, hnumber, -⟩ := h.nodes p hp
      rw [haddr] at hbit hnumber
      change m.load _ = _ at hbit hnumber
      simp only [Radix.addBody, hread, load_eq hp, Option.bind_eq_bind, Option.bind_some] at hsome ⊢
      simp only [if_neg hne, hbit, hnumber]
      by_cases hslt : (s.node p).bitPos.slt bitPos = true
      · simp only [if_pos hslt] at hsome ⊢
        by_cases hdiff : Radix.bitRange bitPos (s.node p).bitPos &&& (number ^^^ (s.node p).number) ≠ 0#32
        · simp only [if_pos hdiff] at hsome ⊢
          generalize Radix.bitRange bitPos (s.node p).bitPos &&& (number ^^^ (s.node p).number) = diff at hsome ⊢
          cases hfind : Radix.findBit diff 32 bitPos with
          | none => exact absurd hsome (by simp [Radix.injectNode, hfind])
          | some bit => exact injectNode_refines number h hread htarget hfind hstart halloc hroom
        · simp only [if_neg hdiff] at hsome ⊢
          rw [← haddr]
          exact useNode_refines h hread hp hsome
      · simp only [if_neg hslt] at hsome ⊢
        rw [← haddr]
        exact useNode_refines h hread hp hsome

/-- Another choice for the nodes `live`. -/
def choose (g : Fresh ℕ) (live : Finset ℕ) (q : ℕ) (hq : q ∉ live) : Fresh ℕ where
  pick := Function.update g.pick live q
  fresh l := by
    by_cases hl : l = live
    · subst hl
      rwa [Function.update_self]
    · rw [Function.update_of_ne hl]
      exact g.fresh l

/-- The choices are the same before there are all the nodes `live`. -/
def SameBefore (live : Finset ℕ) (f g : Fresh ℕ) : Prop := ∀ l, ¬ live ⊆ l → f.pick l = g.pick l

theorem SameBefore.of_choose {f g : Fresh ℕ} {live : Finset ℕ} {hq : q ∉ live}
    (h : SameBefore (insert q live) f (choose g live q hq)) : f.pick live = q ∧ SameBefore live f g := by
  refine ⟨?_, fun l hl => ?_⟩
  · rw [h live fun hsub => hq (hsub (Finset.mem_insert_self q live))]
    exact Function.update_self _ _ _
  · rw [h l fun hsub => hl ((Finset.subset_insert q live).trans hsub)]
    exact Function.update_of_ne (fun he => hl he.ge) _ _

theorem addLoop_done {f : Fresh ℕ} (fuel : ℕ) (hpos : ¬ bitPos.slt 1#32 = true)
    (hbody : Radix.addBody f number s bitPos slot = some (.done s')) :
    Radix.addLoop f number (fuel + 1) s bitPos slot = some s' := by
  rw [Radix.addLoop, if_neg hpos, hbody]
  rfl

theorem addLoop_next {f : Fresh ℕ} (fuel : ℕ) (hpos : ¬ bitPos.slt 1#32 = true) {bitPos' : Word} {slot' : Slot ℕ}
    (hbody : Radix.addBody f number s bitPos slot = some (.next s' bitPos' slot')) :
    Radix.addLoop f number (fuel + 1) s bitPos slot =
      Radix.addLoop f number fuel s' (bitPos'.sshiftRight 1) slot' := by
  rw [Radix.addLoop, if_neg hpos, hbody]
  rfl

/-- **The loop**, with the choices of the allocator. -/
theorem addLoop_refines {fuel : ℕ} (g : Fresh ℕ) (h : Related start m s s.live)
    (hsome : ∀ f, SameBefore s.live f g → (Radix.addLoop f number fuel s bitPos slot).isSome) (hstart : 4088 ≤ start)
    (halloc : 13 ≤ alloc) (hroom : start + nodeBlock * (s.live.card + need s slot + 9) < 2 ^ 32) :
    ∃ f m' s', SameBefore s.live f g ∧ Radix.addLoop f number fuel s bitPos slot = some s' ∧
      addLoop alloc number fuel m bitPos (place slot) = some m' ∧ Related start m' s' s'.live ∧
      s'.live.card ≤ s.live.card + need s slot := by
  induction fuel generalizing m s bitPos slot g with
  | zero => exact absurd (hsome g fun _ _ => rfl) (by simp [Radix.addLoop])
  | succ fuel ih =>
    by_cases hpos : bitPos.slt 1#32 = true
    · exact ⟨g, m, s, fun _ _ => rfl, by rw [Radix.addLoop, if_pos hpos], by rw [addLoop, if_pos hpos], h,
        Nat.le_add_right _ _⟩
    · have hbody : (Radix.addBody g number s bitPos slot).isSome := by
        have hg := hsome g fun _ _ => rfl
        rw [Radix.addLoop, if_neg hpos] at hg
        cases hb : Radix.addBody g number s bitPos slot with
        | none => simp [hb] at hg
        | some it => rfl
      have hneed := (need_le s slot).1
      obtain ⟨q, it, mit, hq, hmit, hmatch, hit, hlive, hcard⟩ :=
        (addBody_refines g h hbody hstart halloc (room_mono hroom (by omega))).exists_pick
      cases hmatch with
      | @done s' m' h' =>
        refine ⟨choose g s.live q hq, m', s', fun l hl => ?_, ?_, ?_, h', hcard⟩
        · exact Function.update_of_ne (fun he => hl he.ge) _ _
        · exact addLoop_done fuel hpos (hit _ fun _ => Function.update_self _ _ _)
        · rw [addLoop, if_neg hpos, hmit]
          rfl
      | @next s' m' bitPos' slot' h' =>
        simp only [result, pending] at hit hlive hcard
        -- the choices from now on, given the one just made
        obtain ⟨g', hg'⟩ : ∃ g', ∀ f, SameBefore s'.live f g' →
            SameBefore s.live f g ∧ (s'.live ≠ s.live → f.pick s.live = q) := by
          rcases hlive with he | he
          · exact ⟨g, fun f hf => ⟨he ▸ hf, fun hne => absurd he hne⟩⟩
          · refine ⟨choose g s.live q hq, fun f hf => ?_⟩
            rw [he] at hf
            exact ⟨hf.of_choose.2, fun _ => hf.of_choose.1⟩
        have hsome' : ∀ f, SameBefore s'.live f g' →
            (Radix.addLoop f number fuel s' (bitPos'.sshiftRight 1) slot').isSome := by
          intro f hf
          have hf' := hsome f (hg' f hf).1
          rwa [addLoop_next fuel hpos (hit f (hg' f hf).2)] at hf'
        obtain ⟨f, m'', s'', hf, hloop, hmloop, hrel, hle⟩ := ih g' h' hsome' (room_mono hroom (by omega))
        refine ⟨f, m'', s'', (hg' f hf).1, ?_, ?_, hrel, by omega⟩
        · rw [addLoop_next fuel hpos (hit f (hg' f hf).2)]
          exact hloop
        · rw [addLoop, if_neg hpos, hmit]
          exact hmloop

/-- **`add_number`**: at most two nodes more. -/
theorem addNumber_refines (h : Related start m s s.live) (hsome : ∀ f, (Radix.addNumber f number s).isSome)
    (hstart : 4088 ≤ start) (halloc : 13 ≤ alloc) (hroom : start + nodeBlock * (s.live.card + 11) < 2 ^ 32) :
    ∃ f m' s', Radix.addNumber f number s = some s' ∧ addNumber alloc number m = some m' ∧
      Related start m' s' s'.live ∧ s'.live.card ≤ s.live.card + 2 := by
  have hneed := (need_le s .tree).2
  obtain ⟨f, m', s', -, hadd, hmadd, h', hcard⟩ := addLoop_refines nextFree h (fun f _ => hsome f) hstart halloc
    (room_mono hroom (by omega))
  exact ⟨f, m', s', hadd, hmadd, h', by omega⟩

/-! ### `take_numbers` -/

/-- **A leaf.** -/
theorem takeLeaf_refines {fuel p : ℕ} {buffer buffer' : Buffer} (h : Related start m s s.live) (hstart : 0 < start)
    (hread : s.read slot = some (some p)) (hp : p ∈ s.live) (hbit : (s.node p).bitPos = 1#32)
    (htake : Radix.takeNumbers2 (fuel + 1) s slot buffer = some (s', buffer')) :
    ∃ m', takeNumbers2 (fuel + 1) m (place slot) buffer = some (m', buffer') ∧ Related start m' s' s'.live ∧
      s'.live ⊆ s.live := by
  obtain ⟨hne, haddr⟩ := addr_of_target (h.read (owner_live hread) hread)
  obtain ⟨-, hmbit, hmnumber, -⟩ := h.nodes p hp
  rw [haddr] at hmbit hmnumber
  change m.load _ = _ at hmbit hmnumber
  simp only [Radix.takeNumbers2, hread, load_eq hp, hbit, if_true, Option.bind_eq_bind, Option.bind_some] at htake
  simp only [takeNumbers2, if_neg hne, hmbit, hbit, if_true, hmnumber]
  cases hn : (s.node p).rest with
  | interior =>
    rw [hn] at htake
    cases htake
  | leaf c0 c1 =>
    simp only [hn] at htake
    obtain ⟨hc0, -⟩ : PayloadIs (.leaf c0 c1) _ _ := hn ▸ (h.nodes p hp).2.rest
    rw [haddr] at hc0
    rw [show m.load (m.read (place slot) + Field.countZero) = c0 from hc0]
    generalize Radix.drain ((s.node p).number &&& ~~~1#32) c0 buffer.written buffer.room = r0 at htake ⊢
    obtain ⟨k0, buffer0⟩ := r0
    have h₁ := h.store_count hp hn false k0
    have hn₁ : (Function.update s.node p { s.node p with rest := .leaf k0 c1 } p).rest = .leaf k0 c1 := by
      rw [Function.update_self]
    obtain ⟨-, hc1⟩ : PayloadIs (.leaf k0 c1) _ _ := hn₁ ▸ (h₁.nodes p hp).2.rest
    rw [haddr] at hc1
    simp only at htake ⊢
    rw [show (m.store (m.read (place slot) + Field.countZero) k0).load (m.read (place slot) + Field.countOne) = c1
      from hc1]
    generalize Radix.drain ((s.node p).number ||| 1#32) c1 buffer0.written buffer0.room = r1 at htake ⊢
    obtain ⟨k1, buffer1⟩ := r1
    have h₂ := h₁.store_count hp hn₁ true k1
    simp only [Function.update_self, Function.update_idem, cond_true, hbit, haddr] at h₂
    change Related start ((m.store (m.read (place slot) + Field.countZero) k0).store
      (m.read (place slot) + Field.countOne) k1) _ _ at h₂
    simp only [State.store, if_pos hp, Option.bind_some] at htake ⊢
    generalize (m.store (m.read (place slot) + Field.countZero) k0).store (m.read (place slot) + Field.countOne) k1 =
      m₂ at h₂ ⊢
    obtain ⟨hk0, hk1⟩ : m₂.load (addr p + Field.countZero) = k0 ∧ m₂.load (addr p + Field.countOne) = k1 := by
      have hrest := (h₂.nodes p hp).2.rest
      simp only [Function.update_self] at hrest
      exact hrest
    rw [haddr] at hk0 hk1
    rw [hk0, hk1]
    by_cases hk : k0 = 0#32 ∧ k1 = 0#32
    · simp only [if_pos hk, State.release, if_pos hp, Option.bind_some, Option.bind_eq_some_iff, Option.some.injEq,
        Prod.mk.injEq] at htake
      obtain ⟨s₃, hwrite, rfl, rfl⟩ := htake
      obtain ⟨m₃, hrel, h₃, hlive⟩ := h₂.remove hstart hp hwrite
      rw [haddr] at hrel
      refine ⟨m₃.write 0#32 (place slot), ?_, h₃, ?_⟩
      · simp only [if_pos hk, hrel, Option.bind_eq_bind, Option.bind_some]
      · rw [hlive]
        exact Finset.erase_subset _ _
    · simp only [if_neg hk, Option.some.injEq, Prod.mk.injEq] at htake
      obtain ⟨rfl, rfl⟩ := htake
      exact ⟨m₂, by rw [if_neg hk], h₂, Finset.Subset.refl _⟩

/-- **`take_numbers_2`**, on any subtree. -/
theorem takeNumbers2_refines {fuel : ℕ} {buffer buffer' : Buffer} (h : Related start m s s.live) (hstart : 0 < start)
    (htake : Radix.takeNumbers2 fuel s slot buffer = some (s', buffer')) :
    ∃ m', takeNumbers2 fuel m (place slot) buffer = some (m', buffer') ∧ Related start m' s' s'.live ∧
      s'.live ⊆ s.live := by
  induction fuel generalizing m s slot buffer s' buffer' with
  | zero => cases htake
  | succ fuel ih =>
    cases hread : s.read slot with
    | none =>
      rw [Radix.takeNumbers2, hread] at htake
      cases htake
    | some x =>
      have htarget := h.read (owner_live hread) hread
      cases x with
      | none =>
        simp only [Radix.takeNumbers2, hread, Option.bind_eq_bind, Option.bind_some, Option.some.injEq,
          Prod.mk.injEq] at htake
        obtain ⟨rfl, rfl⟩ := htake
        exact ⟨m, by rw [takeNumbers2, if_pos (target_eq_none_iff.mp htarget)], h, Finset.Subset.refl _⟩
      | some p =>
        have hp : p ∈ s.live := by
          by_contra hp
          simp [Radix.takeNumbers2, hread, State.load, hp] at htake
        by_cases hbit : (s.node p).bitPos = 1#32
        · exact takeLeaf_refines h hstart hread hp hbit htake
        · obtain ⟨hne, haddr⟩ := addr_of_target htarget
          have hmbit := (h.nodes p hp).2.bitPos
          rw [haddr] at hmbit
          change m.load _ = _ at hmbit
          simp only [Radix.takeNumbers2, hread, load_eq hp, if_neg hbit, Option.bind_eq_bind, Option.bind_some,
            Option.bind_eq_some_iff, Prod.exists] at htake
          obtain ⟨s₁, buffer₁, hzero, s₂, buffer₂, hone, zero, hreadZero, one, hreadOne, htake⟩ := htake
          obtain ⟨m₁, hmzero, h₁, hsub₁⟩ := ih h hzero
          obtain ⟨m₂, hmone, h₂, hsub₂⟩ := ih h₁ hone
          have htZero := h₂.read (owner_live hreadZero) hreadZero
          have htOne := h₂.read (owner_live hreadOne) hreadOne
          change takeNumbers2 fuel m (.at (addr p + Field.zero)) buffer = _ at hmzero
          change takeNumbers2 fuel m₁ (.at (addr p + Field.one)) buffer₁ = _ at hmone
          change target (m₂.load (addr p + Field.zero)) = _ at htZero
          change target (m₂.load (addr p + Field.one)) = _ at htOne
          rw [haddr] at hmzero hmone htZero htOne
          have hiff : (zero.isNone ∧ one.isNone) ↔ m₂.load (m.read (place slot) + Field.zero) = 0#32 ∧
              m₂.load (m.read (place slot) + Field.one) = 0#32 := by
            rw [← htZero, ← htOne, Option.isNone_iff_eq_none, Option.isNone_iff_eq_none, target_eq_none_iff,
              target_eq_none_iff]
          simp only [hiff] at htake
          simp only [takeNumbers2, if_neg hne, hmbit, if_neg hbit, hmzero, hmone, Option.bind_eq_bind, Option.bind_some]
          by_cases hnull : m₂.load (m.read (place slot) + Field.zero) = 0#32 ∧
              m₂.load (m.read (place slot) + Field.one) = 0#32
          · have hp₂ := (read_child hreadZero).1
            simp only [if_pos hnull, State.release, if_pos hp₂, Option.bind_some, Option.bind_eq_some_iff,
              Option.some.injEq, Prod.mk.injEq] at htake
            obtain ⟨s₃, hwrite, rfl, rfl⟩ := htake
            obtain ⟨m₃, hrel, h₃, hlive⟩ := h₂.remove hstart hp₂ hwrite
            rw [haddr] at hrel
            refine ⟨m₃.write 0#32 (place slot), ?_, h₃, ?_⟩
            · simp only [if_pos hnull, hrel, Option.bind_some]
            · rw [hlive]
              exact (Finset.erase_subset _ _).trans (hsub₂.trans hsub₁)
          · simp only [if_neg hnull, Option.some.injEq, Prod.mk.injEq] at htake
            obtain ⟨rfl, rfl⟩ := htake
            exact ⟨m₂, by rw [if_neg hnull], h₂, hsub₂.trans hsub₁⟩

/-- **`release_tree`.** -/
theorem releaseTree_refines {fuel : ℕ} (h : Related start m s s.live) (hstart : 0 < start)
    (hrel : Radix.releaseTree fuel s (target w) = some s') :
    ∃ m', releaseTree fuel m w = some m' ∧ Related start m' s' s'.live := by
  induction fuel generalizing m s w s' with
  | zero => cases hrel
  | succ fuel ih =>
    by_cases hw : w = 0#32
    · subst hw
      obtain rfl : s = s' := Option.some.inj hrel
      exact ⟨m, by rw [releaseTree, if_pos rfl], h⟩
    · obtain ⟨p, htarget⟩ : ∃ p, target w = some p := ⟨w.toNat, if_neg hw⟩
      obtain ⟨-, rfl⟩ := addr_of_target htarget
      rw [htarget] at hrel
      have hp : p ∈ s.live := by
        by_contra hp
        simp [Radix.releaseTree, State.load, hp] at hrel
      have hmbit := (h.nodes p hp).2.bitPos
      change m.load _ = _ at hmbit
      simp only [Radix.releaseTree, load_eq hp, Option.bind_eq_bind, Option.bind_some] at hrel
      simp only [releaseTree, if_neg hw, hmbit]
      by_cases hpos : (1#32).slt (s.node p).bitPos = true
      · simp only [if_pos hpos, Option.bind_eq_some_iff] at hrel
        obtain ⟨zero, hzero, s₁, hrel₁, n, hload, one, hone, s₂, hrel₂, hrel⟩ := hrel
        have hreadZero : s.read (.child false p) = some zero := by simp [State.read, load_eq hp, hzero]
        have htZero := h.read (owner_live hreadZero) hreadZero
        rw [← htZero] at hrel₁
        obtain ⟨m₁, hm₁, h₁⟩ := ih h hrel₁
        have hp₁ : p ∈ s₁.live := by
          by_contra hp₁
          rw [State.load, if_neg hp₁] at hload
          cases hload
        have hreadOne : s₁.read (.child true p) = some one := by simp [State.read, hload, hone]
        have htOne := h₁.read (owner_live hreadOne) hreadOne
        rw [← htOne] at hrel₂
        obtain ⟨m₂, hm₂, h₂⟩ := ih h₁ hrel₂
        have hp₂ : p ∈ s₂.live := by
          by_contra hp₂
          rw [State.release, if_neg hp₂] at hrel
          cases hrel
        rw [State.release, if_pos hp₂] at hrel
        obtain rfl := Option.some.inj hrel
        obtain ⟨m₃, hm₃, h₃⟩ := h₂.release hstart hp₂
        refine ⟨m₃, ?_, h₃⟩
        change releaseTree fuel m (m.load (addr p + Field.zero)) = _ at hm₁
        change releaseTree fuel m₁ (m₁.load (addr p + Field.one)) = _ at hm₂
        simp only [if_pos hpos, hm₁, hm₂, hm₃, Option.bind_eq_bind, Option.bind_some]
      · rw [if_neg hpos, State.release, if_pos hp] at hrel
        obtain rfl := Option.some.inj hrel
        obtain ⟨m₁, hm₁, h₁⟩ := h.release hstart hp
        exact ⟨m₁, by rw [if_neg hpos, hm₁], h₁⟩

/-! ### Runs -/

/-- The call as the bag sees it. -/
def toBag : Call → Bag.Call ℕ
  | .add number => .add number.toNat
  | .take maxNums => .take maxNums

/-- How many of the calls are of `add_number`. -/
def adds : List Call → ℕ
  | [] => 0
  | .add _ :: cs => adds cs + 1
  | .take _ :: cs => adds cs

theorem related_initial (h : Heap) (heapStart : Word) (node : ℕ → Node ℕ) :
    Related heapStart.toNat (initial h heapStart) (Radix.initial node) ∅ :=
  ⟨⟨_, backs_initial h heapStart⟩, fun q hq => absurd hq (Finset.notMem_empty q), rfl⟩

/-- **A run of calls** on memory that holds a bag. -/
theorem runCalls_refines {fuel : ℕ} (hfuel : 32 ≤ fuel) (hstart : 4088 ≤ start) (cs : List Call)
    (hnum : ∀ number, .add number ∈ cs → number.toNat < 2 ^ 31) {M : Multiset ℕ} (h : Related start m s s.live)
    (hrep : RadixRuns.Represents s M) (hcard : Multiset.card M + adds cs < 2 ^ 31)
    (hroom : start + nodeBlock * (s.live.card + 2 * adds cs + 9) < 2 ^ 32) :
    ∃ m' s' outs M', runCalls fuel cs m = some (m', outs) ∧
      Bag.Run M (cs.map toBag) (outs.map (List.map BitVec.toNat)) M' ∧ Related start m' s' s'.live ∧
      RadixRuns.Represents s' M' := by
  induction cs generalizing m s M with
  | nil => exact ⟨m, s, [], M, rfl, .nil M, h, hrep⟩
  | cons c cs ih =>
    have hnum' : ∀ number, .add number ∈ cs → number.toNat < 2 ^ 31 := fun number hm =>
      hnum number (List.mem_cons_of_mem _ hm)
    cases c with
    | add number =>
      rw [show adds (.add number :: cs) = adds cs + 1 from rfl] at hcard hroom
      have hcount := Multiset.count_le_card number.toNat M
      have hadd := fun f => RadixRuns.addNumber_represents f hrep (hnum number List.mem_cons_self) (by omega)
      obtain ⟨f, m₁, s₁, hs₁, hm₁, h₁, hcard₁⟩ := addNumber_refines h
        (fun f => by obtain ⟨_, hf, -⟩ := hadd f; rw [hf]; rfl) hstart (show 13 ≤ fuel by omega)
        (room_mono hroom (by omega))
      obtain ⟨s₁', hs₁', hrep₁⟩ := hadd f
      obtain rfl := Option.some.inj (hs₁.symm.trans hs₁')
      obtain ⟨m', s', outs, M', hrun, hbag, h', hrep'⟩ := ih hnum' h₁ hrep₁
        (by rw [Multiset.card_cons]; omega) (room_mono hroom (by omega))
      refine ⟨m', s', outs, M', ?_, .add hbag, h', hrep'⟩
      simp only [runCalls, hm₁, hrun, Option.bind_eq_bind, Option.bind_some]
    | take maxNums =>
      rw [show adds (.take maxNums :: cs) = adds cs from rfl] at hcard hroom
      obtain ⟨s₁, out, M₁, htake, hrem, hrep₁⟩ := RadixRuns.takeNumbers_represents hfuel hrep maxNums
      have htake₂ := htake
      simp only [Radix.takeNumbers, Option.bind_eq_bind, Option.bind_eq_some_iff, Option.some.injEq, Prod.exists,
        Prod.mk.injEq] at htake₂
      obtain ⟨_, buffer, htake₂, rfl, rfl⟩ := htake₂
      obtain ⟨m₁, hm₁, h₁, hsub⟩ := takeNumbers2_refines h (by omega) htake₂
      change takeNumbers2 fuel m .tree _ = _ at hm₁
      have hle := Finset.card_le_card hsub
      have hcard₁ : Multiset.card M₁ ≤ Multiset.card M := by
        rw [← hrem.split, Multiset.card_add]
        exact Nat.le_add_left _ _
      obtain ⟨m', s', outs, M', hrun, hbag, h', hrep'⟩ := ih hnum' h₁ hrep₁ (by omega)
        (room_mono hroom (by omega))
      refine ⟨m', s', buffer.written :: outs, M', ?_, .take hrem hbag, h', hrep'⟩
      simp only [runCalls, takeNumbers, hm₁, hrun, Option.bind_eq_bind, Option.bind_some]

/-- **The bytes of memory are a bag.** On any calls, from an empty heap with room for two blocks a number, `radix.c` on
top of the allocator returns what the bag returns, and `release_tree` leaves every block on the free list. -/
theorem runCalls_is_bag (h : Heap) (heapStart : Word) (hstart : 4088 ≤ heapStart.toNat) {fuel : ℕ} (hfuel : 32 ≤ fuel)
    (cs : List Call) (hnum : ∀ number, .add number ∈ cs → number.toNat < 2 ^ 31)
    (hroom : heapStart.toNat + nodeBlock * (2 * adds cs + 9) < 2 ^ 32) :
    ∃ m outs M m', runCalls fuel cs (initial h heapStart) = some (m, outs) ∧
      Bag.Run 0 (cs.map toBag) (outs.map (List.map BitVec.toNat)) M ∧ releaseTree fuel m m.tree = some m' ∧
      AllFree heapStart.toNat m'.heap := by
  have hnode : ℕ → Node ℕ := fun _ => ⟨0#32, 0#32, .leaf 0#32 0#32⟩
  obtain ⟨m, s, outs, M, hrun, hbag, hrel, t, hh, hwf, -⟩ := runCalls_refines hfuel hstart cs hnum
    (related_initial h heapStart hnode) (RadixRuns.represents_initial hnode)
    (by rw [Multiset.card_zero]; unfold nodeBlock at hroom; omega)
    (by rw [show (Radix.initial hnode).live.card = 0 from rfl, Nat.zero_add]; exact hroom)
  obtain ⟨s', hs', hlive, -⟩ := RadixMain.releaseTree_spec hh.repr hwf (le_refl 31) (show 31 < fuel by omega)
  rw [← hrel.tree] at hs'
  obtain ⟨m', hm', h'⟩ := releaseTree_refines hrel (by omega) hs'
  obtain ⟨p, hb⟩ := h'.backs
  rw [hlive, Finset.sdiff_self] at hb
  exact ⟨m, outs, M, m', hrun, hbag, hm', hb.allFree⟩

/-- Two numbers, and a `take` of one of them, by `runCalls_is_bag`. -/
theorem runCalls_is_bag_two :
    ∃ m outs M m', runCalls 32 [.add 5#32, .add 3#32, .take 1]
        (initial ⟨fun _ => 0#8, fun _ => 0#32, 0#32, false⟩ 4096#32) = some (m, outs) ∧
      Bag.Run 0 [.add 5, .add 3, .take 1] (outs.map (List.map BitVec.toNat)) M ∧
      releaseTree 32 m m.tree = some m' ∧ AllFree 4096 m'.heap := by
  refine runCalls_is_bag _ 4096#32 (by decide) (le_refl 32) [.add 5#32, .add 3#32, .take 1] (fun number hm => ?_)
    (by decide)
  simp only [List.mem_cons, List.not_mem_nil, or_false, reduceCtorEq, Call.add.injEq] at hm
  rcases hm with rfl | rfl <;> decide

end CompSys.A6.RadixRefines
