import CompSys.A4.Appends
import CompSys.A4.Recorded

/-! # Selecting a peer at random (`get_random_peer` in `A4/src/peer.c`)

The function collects the peers of the list that are not the own one, and takes one of them by
`rand() % potential_count`. When there are none it says so, and divides by zero. That is the list of a peer
that has just been started, and it is the list after a register request that `send_message` gives up
(`recorded_of_error`).

`random_peer_iff` is about all lists, whatever the two threads have made of them. -/

namespace CompSys.A4.RandomPeer

open CompSys.Lib.Pointers CompSys.A4.Wire CompSys.A4.SendMessage CompSys.A4.Network CompSys.A4.Listed
open CompSys.A4.Recorded

/-- What becomes of a call. -/
inductive Selection
  /-- The peer of a slot is copied to `peer_address`. -/
  | selected (slot : ℕ) (peer : PeerAddress)
  | divisionByZero
  /-- A slot without a peer has been looked at: what follows is undefined. -/
  | badSlot
  deriving DecidableEq

/-- `potential_peers` after so many rounds of the loop, as slots of the list: ip or port are different. -/
def potentialPeers (myAddress : PeerAddress) (n : PeerTable) : ℕ → Option (List ℕ)
  | 0 => some []
  | i + 1 => do
    let potential ← potentialPeers myAddress n i
    let peer ← n.entry i
    some (if name peer ≠ name myAddress then potential ++ [i] else potential)

/-- **`get_random_peer`**, with the value of `rand()`. -/
def getRandomPeer (myAddress : PeerAddress) (n : PeerTable) (rand : ℕ) : Selection :=
  match potentialPeers myAddress n n.count with
  | none => .badSlot
  | some potential =>
    if potential.length = 0 then .divisionByZero
    else
      let slot := potential.getD (rand % potential.length) 0
      match n.entry slot with
      | some peer => .selected slot peer
      | none => .badSlot

/-- **A peer that is not the own one**: an entry of the list that differs in ip or port. -/
structure Candidate (myAddress : PeerAddress) (n : PeerTable) (slot : ℕ) (peer : PeerAddress) : Prop where
  inside : slot < n.count
  entry : n.entry slot = some peer
  differs : name peer ≠ name myAddress

/-- **Random peer selection is safe**, for a `rand()` of at most `randMax`: a peer is selected, it is not the
own one, and each that is not can be selected. -/
structure Safe (randMax : ℕ) (myAddress : PeerAddress) (n : PeerTable) : Prop where
  selects : ∀ rand ≤ randMax, ∃ slot peer,
    getRandomPeer myAddress n rand = .selected slot peer ∧ Candidate myAddress n slot peer
  selectable : ∀ slot peer, Candidate myAddress n slot peer →
    ∃ rand ≤ randMax, getRandomPeer myAddress n rand = .selected slot peer

/-- Whether there is a peer in a slot that is not the own one. -/
def differs (myAddress : PeerAddress) (n : PeerTable) (slot : ℕ) : Bool :=
  match n.entry slot with
  | some peer => name peer ≠ name myAddress
  | none => false

/-! ### The loop -/

variable {myAddress : PeerAddress} {n : PeerTable} {randMax : ℕ}

theorem differs_iff {slot : ℕ} :
    differs myAddress n slot = true ↔ ∃ peer, n.entry slot = some peer ∧ name peer ≠ name myAddress := by
  unfold differs
  cases n.entry slot with
  | none => simp
  | some peer => simp

theorem candidate_iff {slot : ℕ} :
    (∃ peer, Candidate myAddress n slot peer) ↔ slot < n.count ∧ differs myAddress n slot = true := by
  rw [differs_iff]
  exact ⟨fun ⟨peer, h⟩ => ⟨h.inside, peer, h.entry, h.differs⟩, fun ⟨hin, peer, he, hd⟩ => ⟨peer, hin, he, hd⟩⟩

/-- Every slot has a peer: the loop collects the ones that are not the own one. -/
theorem potentialPeers_eq {k : ℕ} (h : ∀ i < k, n.entry i ≠ none) :
    potentialPeers myAddress n k = some ((List.range k).filter (differs myAddress n)) := by
  induction k with
  | zero => rfl
  | succ k ih =>
    obtain ⟨peer, hpeer⟩ := Option.ne_none_iff_exists'.mp (h k (Nat.lt_succ_self k))
    rw [potentialPeers, ih fun i hi => h i (by omega), List.range_succ, List.filter_append, List.filter_singleton,
      differs, hpeer]
    by_cases hd : name peer = name myAddress
    · simp [hd]
    · simp [hd]

/-- A slot without a peer. -/
theorem potentialPeers_none {k i : ℕ} (hi : i < k) (h : n.entry i = none) :
    potentialPeers myAddress n k = none := by
  induction k with
  | zero => omega
  | succ k ih =>
    rcases Nat.lt_or_eq_of_le (Nat.lt_succ_iff.mp hi) with hlt | rfl
    · rw [potentialPeers, ih hlt]
      rfl
    · rw [potentialPeers, h]
      cases potentialPeers myAddress n i <;> rfl

theorem getRandomPeer_absent (h : ¬ ∀ i < n.count, n.entry i ≠ none) (rand : ℕ) :
    getRandomPeer myAddress n rand = .badSlot := by
  push Not at h
  obtain ⟨i, hi, hnone⟩ := h
  rw [getRandomPeer, potentialPeers_none hi hnone]

/-- **What is selected** from a list that has a peer in every slot. -/
theorem getRandomPeer_eq (h : ∀ i < n.count, n.entry i ≠ none) {potential : List ℕ}
    (hp : potential = (List.range n.count).filter (differs myAddress n)) (hpos : 0 < potential.length) (rand : ℕ) :
    ∃ peer, getRandomPeer myAddress n rand = .selected (potential.getD (rand % potential.length) 0) peer ∧
      Candidate myAddress n (potential.getD (rand % potential.length) 0) peer := by
  have hlt : rand % potential.length < potential.length := Nat.mod_lt _ hpos
  have hmem : potential.getD (rand % potential.length) 0 ∈ potential := by
    rw [List.getD_eq_getElem _ _ hlt]
    exact List.getElem_mem hlt
  have hmem' := hmem
  rw [hp, List.mem_filter, List.mem_range, ← hp] at hmem'
  obtain ⟨peer, hc⟩ := candidate_iff.mpr hmem'
  refine ⟨peer, ?_, hc⟩
  unfold getRandomPeer
  rw [potentialPeers_eq h, ← hp]
  simp only [if_neg (Nat.pos_iff_ne_zero.mp hpos), hc.entry]

/-- **Each of them can be selected** if there are no more than `rand()` has values: these take as many places. -/
theorem selectable_iff (h : ∀ i < n.count, n.entry i ≠ none) {potential : List ℕ}
    (hp : potential = (List.range n.count).filter (differs myAddress n)) (hpos : 0 < potential.length) :
    (∀ slot peer, Candidate myAddress n slot peer →
        ∃ rand ≤ randMax, getRandomPeer myAddress n rand = .selected slot peer) ↔
      potential.length ≤ randMax + 1 := by
  have hmem : ∀ i, i ∈ potential ↔ ∃ peer, Candidate myAddress n i peer := fun i => by
    rw [hp, List.mem_filter, List.mem_range, candidate_iff]
  constructor
  · intro hall
    by_contra hmany
    have hlast : randMax + 1 < potential.length := by omega
    have hnodup : potential.Nodup := hp ▸ List.nodup_range.filter _
    obtain ⟨peer, hc⟩ := (hmem _).mp (List.getElem_mem hlast)
    obtain ⟨rand, hrand, hsel⟩ := hall _ peer hc
    obtain ⟨peer', hsel', -⟩ := getRandomPeer_eq h hp hpos rand
    rw [hsel'] at hsel
    have hslot := (Selection.selected.inj hsel).1
    rw [Nat.mod_eq_of_lt (by omega), List.getD_eq_getElem _ _ (show rand < potential.length by omega)] at hslot
    have hindex := (hnodup.getElem_inj_iff).mp hslot
    omega
  · intro hfew slot peer hc
    obtain ⟨j, hj, rfl⟩ := List.getElem_of_mem ((hmem slot).mpr ⟨peer, hc⟩)
    obtain ⟨peer', hsel, hc'⟩ := getRandomPeer_eq h hp hpos j
    rw [Nat.mod_eq_of_lt hj, List.getD_eq_getElem _ _ hj] at hsel hc'
    obtain rfl := Option.some.inj (hc.entry.symm.trans hc'.entry)
    exact ⟨j, by omega, hsel⟩

/-- **A list without another peer** makes the call divide by zero. -/
theorem divisionByZero_iff (myAddress : PeerAddress) (n : PeerTable) (rand : ℕ) :
    getRandomPeer myAddress n rand = .divisionByZero ↔
      (∀ i < n.count, n.entry i ≠ none) ∧ ∀ i < n.count, differs myAddress n i = false := by
  by_cases hpresent : ∀ i < n.count, n.entry i ≠ none
  swap
  · refine iff_of_false ?_ fun h => hpresent h.1
    rw [getRandomPeer_absent hpresent]
    nofun
  rw [and_iff_right hpresent]
  rcases Nat.eq_zero_or_pos ((List.range n.count).filter (differs myAddress n)).length with hzero | hpos
  · refine iff_of_true ?_ fun i hi => ?_
    · rw [getRandomPeer, potentialPeers_eq hpresent]
      exact if_pos hzero
    · have hnone := List.filter_eq_nil_iff.mp (List.length_eq_zero_iff.mp hzero) i (List.mem_range.mpr hi)
      exact Bool.eq_false_iff.mpr hnone
  · obtain ⟨peer, hsel, hc⟩ := getRandomPeer_eq hpresent rfl hpos rand
    refine iff_of_false (by rw [hsel]; nofun) fun hnone => ?_
    have hdiffers := (candidate_iff.mp ⟨peer, hc⟩).2
    rw [hnone _ hc.inside] at hdiffers
    exact nomatch hdiffers

/-- **A list that is safe** to select from. -/
theorem safe_iff (randMax : ℕ) (myAddress : PeerAddress) (n : PeerTable) : Safe randMax myAddress n ↔
    (∀ i < n.count, n.entry i ≠ none) ∧ (∃ i < n.count, differs myAddress n i = true) ∧
      (List.range n.count).countP (differs myAddress n) ≤ randMax + 1 := by
  by_cases hpresent : ∀ i < n.count, n.entry i ≠ none
  swap
  · refine iff_of_false (fun hs => ?_) fun h => hpresent h.1
    obtain ⟨slot, peer, hsel, -⟩ := hs.selects 0 (Nat.zero_le _)
    rw [getRandomPeer_absent hpresent] at hsel
    exact nomatch hsel
  rw [and_iff_right hpresent]
  by_cases hother : ∃ i < n.count, differs myAddress n i = true
  · rw [and_iff_right hother, List.countP_eq_length_filter]
    obtain ⟨i, hi, hd⟩ := hother
    have hpos : 0 < ((List.range n.count).filter (differs myAddress n)).length :=
      List.length_pos_of_mem (List.mem_filter.mpr ⟨List.mem_range.mpr hi, hd⟩)
    rw [← selectable_iff hpresent rfl hpos]
    refine ⟨Safe.selectable, fun hall => ⟨fun rand _ => ?_, hall⟩⟩
    obtain ⟨peer, hsel⟩ := getRandomPeer_eq hpresent rfl hpos rand
    exact ⟨_, peer, hsel⟩
  · refine iff_of_false (fun hs => ?_) fun h => hother h.1
    obtain ⟨slot, peer, -, hc⟩ := hs.selects 0 (Nat.zero_le _)
    exact hother ⟨slot, candidate_iff.mp ⟨peer, hc⟩⟩

/-- **Random peer selection is safe** if and only if every slot of the list has a peer, one of them is not the
own one, and no more of them are than `rand()` has values. If all of them are the own one, it divides by zero. -/
theorem random_peer_iff (randMax : ℕ) (myAddress : PeerAddress) (n : PeerTable) :
    (Safe randMax myAddress n ↔ (∀ i < n.count, n.entry i ≠ none) ∧ (∃ i < n.count, differs myAddress n i = true) ∧
      (List.range n.count).countP (differs myAddress n) ≤ randMax + 1) ∧
    ∀ rand, getRandomPeer myAddress n rand = .divisionByZero ↔
      (∀ i < n.count, n.entry i ≠ none) ∧ ∀ i < n.count, differs myAddress n i = false :=
  ⟨safe_iff randMax myAddress n, divisionByZero_iff myAddress n⟩

/-! ### After the registration -/

/-- **A register request that `send_message` gives up** leaves the list as it is. -/
theorem recorded_of_error {x : Exchange} {e : Error} (h : (sendMessage x).pc = .returned (some e))
    (n : PeerTable) :
    recorded x n = n := by
  unfold recorded
  simp only [h]
  exact if_neg (by simp)

/-- The list of a peer that has just been started is not safe. -/
theorem start_not_safe (randMax : ℕ) (myAddress : PeerAddress) :
    ¬ Safe randMax myAddress (Listed.start myAddress) := by
  rw [safe_iff]
  rintro ⟨-, ⟨i, hi, hd⟩, -⟩
  obtain rfl := Nat.lt_one_iff.mp (show i < 1 from hi)
  obtain ⟨peer, he, hne⟩ := differs_iff.mp hd
  obtain rfl : myAddress = peer := Option.some.inj he
  exact hne rfl

/-- **A list that has a peer in every slot**: one of them has to be another one. -/
theorem safe_iff_of_holds {l : List PeerAddress} (hl : n.Holds l) : Safe randMax myAddress n ↔
    (∃ p ∈ l, name p ≠ name myAddress) ∧ l.countP (fun p => name p ≠ name myAddress) ≤ randMax + 1 := by
  have hentry : ∀ i < n.count, n.entry i = l[i]? := fun i hi => hl.entry i (hl.count ▸ hi)
  have hpresent : ∀ i < n.count, n.entry i ≠ none := by
    intro i hi
    rw [hentry i hi, List.getElem?_eq_getElem (hl.count ▸ hi)]
    exact Option.some_ne_none _
  have hdiffers : (∃ i < n.count, differs myAddress n i = true) ↔ ∃ p ∈ l, name p ≠ name myAddress := by
    constructor
    · rintro ⟨i, hi, hd⟩
      obtain ⟨p, he, hne⟩ := differs_iff.mp hd
      exact ⟨p, List.mem_of_getElem? ((hentry i hi).symm.trans he), hne⟩
    · rintro ⟨p, hp, hne⟩
      obtain ⟨i, hi, rfl⟩ := List.getElem_of_mem hp
      exact ⟨i, hl.count ▸ hi, differs_iff.mpr ⟨_, (hl.entry i hi).trans (List.getElem?_eq_getElem hi), hne⟩⟩
  have hcount : (List.range n.count).countP (differs myAddress n) = l.countP fun p => name p ≠ name myAddress := by
    have hsome : (List.range n.count).map (fun i => l[i]?) = l.map some := by
      refine List.ext_getElem (by simp [hl.count]) fun i _ hi => ?_
      rw [List.length_map] at hi
      simp [List.getElem?_eq_getElem hi]
    have hslots : (List.range n.count).countP (differs myAddress n) =
        ((List.range n.count).map fun i => l[i]?).countP fun e =>
          e.elim false fun p => name p ≠ name myAddress := by
      rw [List.countP_map]
      refine List.countP_congr fun i hi => ?_
      rw [differs, hentry i (List.mem_range.mp hi), Function.comp_apply]
      cases l[i]? <;> rfl
    rw [hslots, hsome, List.countP_map]
    rfl
  rw [safe_iff, hdiffers, hcount, and_iff_right hpresent]

/-- **After a register reply** whose first address is not the own one, the selection is safe. -/
theorem safe_of_answers {x : Exchange} {a : Address} {rest : List Address} (h : Answers x (a :: rest))
    (hother : name a.peer ≠ name myAddress) (hrand : 1 ≤ randMax) :
    Safe randMax myAddress (recorded x (Listed.start myAddress)) := by
  obtain ⟨-, hl⟩ := recorded_holds (valid_ofList [myAddress] 0) (holds_ofList [myAddress] 0) h
    (Nat.succ_le_succ (Nat.zero_le _))
  rw [newPeer_eq h] at hl
  have hle := List.countP_le_length (p := fun p => name p ≠ name myAddress) (l := [myAddress, a.peer])
  exact (safe_iff_of_holds hl).mpr ⟨⟨a.peer, by simp, hother⟩, hle.trans (Nat.succ_le_succ hrand)⟩

/-- **While the server thread appends**, in any state of the two threads in which no peer has been lost. -/
theorem safe_iff_of_kept {s : Appends.State} (h : Appends.Kept [myAddress] s) : Safe randMax myAddress s.network ↔
    (∃ p ∈ s.appended, name p ≠ name myAddress) ∧
      s.appended.countP (fun p => name p ≠ name myAddress) ≤ randMax + 1 := by
  rw [safe_iff_of_holds h.entries]
  simp

/-- A peer that registers and is refused. -/
def refused : Exchange :=
  { answering [] with
    reply := (ReplyHeader.toNetwork ⟨0, statusBadRequest, 0, 1, fun _ => 0#8, fun _ => 0#8⟩).bytes }

/-- **A refused peer** divides by zero. -/
theorem refused_divides_by_zero :
    (sendMessage refused).pc = .returned (some (.status statusBadRequest)) ∧
      getRandomPeer Register.localPeer (recorded refused (Listed.start Register.localPeer)) 0 = .divisionByZero ∧
      ¬ Safe 2147483647 Register.localPeer (recorded refused (Listed.start Register.localPeer)) := by
  have hpc : (sendMessage refused).pc = .returned (some (.status statusBadRequest)) := by decide
  rw [recorded_of_error hpc]
  exact ⟨hpc, by decide, start_not_safe _ _⟩

end CompSys.A4.RandomPeer
