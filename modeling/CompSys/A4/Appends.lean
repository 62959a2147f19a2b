import CompSys.A4.Network
import CompSys.Lib.Runs

/-! # Two threads append

The client thread with the reply to its register request, and the server thread with one request after
the other, statement by statement on the network list. The array is resized, and in the server the slot is
allocated, before the mutex is locked; so the other thread can append in between. As long as no statement
meets a list that the other thread has changed under it (`Careful`), nothing is lost (`nothing_lost`).

`handle_register` reads the list before it appends, for its reply; that changes nothing and is left out. -/

namespace CompSys.A4.Appends

open CompSys.Lib.Pointers CompSys.Lib.Runs CompSys.A4.Wire CompSys.A4.Network

/-- Where the client thread is. -/
inductive ClientAt
  | idle
  /-- `network` has been resized for `new_peer`. -/
  | resized (newPeer : PeerAddress)

/-- Where the server thread is. -/
inductive ServerAt
  | idle
  /-- `network` has been resized. -/
  | resized (newPeer : PeerAddress)
  /-- `network[peer_count]` has been allocated, as cell `own`. -/
  | placed (newPeer : PeerAddress) (own : ℕ)

/-- The list and the threads. -/
structure State where
  network : PeerTable
  client : ClientAt
  server : ServerAt
  /-- The addresses of the finished appends. -/
  appended : List PeerAddress
  /-- The slots that have been written, each with the number of slots at that time. -/
  writes : List (ℕ × ℕ)

/-- A list with some peers, and no thread at it. -/
def start (peers : List PeerAddress) (spare : ℕ) : State := ⟨ofList peers spare, .idle, .idle, [], []⟩

/-- The statements, and the critical sections, which are one statement each. -/
inductive Statement
  /-- `network = realloc(..)` in `send_message`, and `new_peer` from the body of the reply. -/
  | clientResizes (replyLength : BitVec 32) (body : ℕ → Byte)
  | clientAppends
  /-- `network = realloc(..)` in `handle_register` or `handle_inform`. -/
  | serverResizes (request : Request)
  | serverPlaces
  | serverAppends

/-- **One statement**, where a thread is there. -/
def step (s : State) : Statement → Option State
  | .clientResizes replyLength body =>
    match s.client with
    | .idle => some { s with network := s.network.resize (peersInNetwork replyLength)
                             client := .resized (ofNetwork body) }
    | _ => none
  | .clientAppends =>
    match s.client with
    | .resized p => some { s with network := s.network.place.fill p
                                  client := .idle
                                  appended := s.appended ++ [p]
                                  writes := s.writes ++ [(s.network.count, s.network.slots)] }
    | _ => none
  | .serverResizes r =>
    match s.server with
    | .idle => some { s with network := grow s.network, server := .resized r.peer }
    | _ => none
  | .serverPlaces =>
    match s.server with
    | .resized p => some { s with network := s.network.place
                                  server := .placed p s.network.fresh
                                  writes := s.writes ++ [(s.network.count, s.network.slots)] }
    | _ => none
  | .serverAppends =>
    match s.server with
    | .placed p _ => some { s with network := s.network.fill p
                                   server := .idle
                                   appended := s.appended ++ [p] }
    | _ => none

/-- **Nothing is lost**: the list is the peers of the start and those appended since, and every slot was
written inside the array. -/
structure Kept (peers : List PeerAddress) (s : State) : Prop where
  entries : s.network.Holds (peers ++ s.appended)
  writes : ∀ w ∈ s.writes, w.1 < w.2

/-- **A statement that meets the list as it needs it**: the client makes the array large enough for the
entries, a slot to be written is inside the array, and the slot that the server fills is the one that it has
allocated. -/
def Careful (s : State) : Statement → Prop
  | .clientResizes replyLength _ => s.network.count ≤ peersInNetwork replyLength
  | .clientAppends => s.network.count < s.network.slots
  | .serverResizes _ => True
  | .serverPlaces => s.network.count < s.network.slots
  | .serverAppends => ∀ p own, s.server = .placed p own → s.network.slot s.network.count = some own

/-- The slots behind the entries are empty, but for the one that the server has allocated. -/
structure Inv (s : State) : Prop where
  valid : s.network.Valid
  behind : ∀ i c, s.network.count ≤ i → s.network.slot i = some c → ∃ p, s.server = .placed p c

variable {s s' : State} {peers : List PeerAddress}

theorem inv_start (peers : List PeerAddress) (spare : ℕ) : Inv (start peers spare) := by
  refine ⟨valid_ofList peers spare, fun i c hi hc => ?_⟩
  have hlt : ¬ i < peers.length := not_lt.mpr hi
  simp only [start, ofList, if_neg hlt] at hc
  cases hc

theorem kept_start (peers : List PeerAddress) (spare : ℕ) : Kept peers (start peers spare) :=
  ⟨by simpa [start] using holds_ofList peers spare, nofun⟩

/-- A resized array has no slots that it did not have before. -/
theorem slot_resize {n : PeerTable} {m i c : ℕ} (h : (n.resize m).slot i = some c) : n.slot i = some c := by
  simp only [Table.resize] at h
  split_ifs at h
  exact h

/-- **A step** is one of the five. -/
theorem step_cases {a : Statement} (h : step s a = some s') :
    (∃ replyLength body, a = .clientResizes replyLength body ∧ s.client = .idle ∧
        s' = { s with network := s.network.resize (peersInNetwork replyLength)
                      client := .resized (ofNetwork body) }) ∨
      (∃ p, a = .clientAppends ∧ s.client = .resized p ∧
        s' = { s with network := s.network.place.fill p
                      client := .idle
                      appended := s.appended ++ [p]
                      writes := s.writes ++ [(s.network.count, s.network.slots)] }) ∨
      (∃ r, a = .serverResizes r ∧ s.server = .idle ∧
        s' = { s with network := grow s.network, server := .resized r.peer }) ∨
      (∃ p, a = .serverPlaces ∧ s.server = .resized p ∧
        s' = { s with network := s.network.place
                      server := .placed p s.network.fresh
                      writes := s.writes ++ [(s.network.count, s.network.slots)] }) ∨
      ∃ p own, a = .serverAppends ∧ s.server = .placed p own ∧
        s' = { s with network := s.network.fill p, server := .idle, appended := s.appended ++ [p] } := by
  cases a with
  | clientResizes replyLength body =>
    cases hc : s.client with
    | idle =>
      simp only [step, hc, Option.some.injEq] at h
      exact Or.inl ⟨_, _, rfl, rfl, h.symm⟩
    | resized p => simp only [step, hc] at h; cases h
  | clientAppends =>
    cases hc : s.client with
    | idle => simp only [step, hc] at h; cases h
    | resized p =>
      simp only [step, hc, Option.some.injEq] at h
      exact Or.inr (Or.inl ⟨p, rfl, rfl, h.symm⟩)
  | serverResizes r =>
    cases hc : s.server with
    | idle =>
      simp only [step, hc, Option.some.injEq] at h
      exact Or.inr (Or.inr (Or.inl ⟨r, rfl, rfl, h.symm⟩))
    | resized p => simp only [step, hc] at h; cases h
    | placed p own => simp only [step, hc] at h; cases h
  | serverPlaces =>
    cases hc : s.server with
    | idle => simp only [step, hc] at h; cases h
    | resized p =>
      simp only [step, hc, Option.some.injEq] at h
      exact Or.inr (Or.inr (Or.inr (Or.inl ⟨p, rfl, rfl, h.symm⟩)))
    | placed p own => simp only [step, hc] at h; cases h
  | serverAppends =>
    cases hc : s.server with
    | idle => simp only [step, hc] at h; cases h
    | resized p => simp only [step, hc] at h; cases h
    | placed p own =>
      simp only [step, hc, Option.some.injEq] at h
      exact Or.inr (Or.inr (Or.inr (Or.inr ⟨p, own, rfl, rfl, h.symm⟩)))

/-- **A careful statement** keeps the invariant and the entries. -/
theorem kept_step {a : Statement} (hI : Inv s) (hK : Kept peers s) (hc : Careful s a)
    (hs : step s a = some s') : Inv s' ∧ Kept peers s' := by
  have hlen := hK.entries.count
  rcases step_cases hs with ⟨k, body, rfl, -, rfl⟩ | ⟨p, rfl, -, rfl⟩ | ⟨r, rfl, hat, rfl⟩ |
    ⟨p, rfl, hat, rfl⟩ | ⟨p, own, rfl, hat, rfl⟩
  · exact ⟨⟨hI.valid.resize _, fun i c hi hc' => hI.behind i c hi (slot_resize hc')⟩,
      ⟨hK.entries.resize (hlen ▸ hc), hK.writes⟩⟩
  · have hslot : s.network.place.slot s.network.place.count = some s.network.fresh :=
      Function.update_self _ _ _
    refine ⟨⟨(hI.valid.place hc).fill p, fun i c hi hc' => ?_⟩, ⟨?_, ?_⟩⟩
    · have hne : i ≠ s.network.count := (Nat.lt_of_succ_le hi).ne'
      have hc'' : Function.update s.network.slot s.network.count (some s.network.fresh) i = some c := hc'
      rw [Function.update_of_ne hne] at hc''
      exact hI.behind i c (Nat.le_of_succ_le hi) hc''
    · rw [← List.append_assoc]
      exact (hK.entries.place hI.valid).fill (hI.valid.place hc) hslot p
    · exact List.forall_mem_append.mpr ⟨hK.writes, List.forall_mem_singleton.mpr hc⟩
  · refine ⟨⟨hI.valid.resize _, fun i c hi hc' => ?_⟩, ⟨hK.entries.resize (by omega), hK.writes⟩⟩
    obtain ⟨q, hq⟩ := hI.behind i c hi (slot_resize hc')
    rw [hat] at hq
    cases hq
  · refine ⟨⟨hI.valid.place hc, fun i c hi hc' => ?_⟩,
      ⟨hK.entries.place hI.valid, List.forall_mem_append.mpr ⟨hK.writes, List.forall_mem_singleton.mpr hc⟩⟩⟩
    have hc'' : Function.update s.network.slot s.network.count (some s.network.fresh) i = some c := hc'
    by_cases hne : i = s.network.count
    · rw [hne, Function.update_self] at hc''
      exact ⟨p, by rw [Option.some.inj hc'']⟩
    · rw [Function.update_of_ne hne] at hc''
      obtain ⟨q, hq⟩ := hI.behind i c hi hc''
      rw [hat] at hq
      cases hq
  · have hslot := hc p own hat
    refine ⟨⟨hI.valid.fill p, fun i c hi hc' => ?_⟩, ⟨?_, hK.writes⟩⟩
    · obtain ⟨q, hq⟩ := hI.behind i c (Nat.le_of_succ_le hi) hc'
      rw [hat] at hq
      obtain ⟨-, rfl⟩ := ServerAt.placed.inj hq
      have := hI.valid.apart i s.network.count own hc' hslot
      exact absurd hi (by rw [this]; exact Nat.not_succ_le_self _)
    · rw [← List.append_assoc]
      exact hK.entries.fill hI.valid hslot p

/-- **A statement after which nothing is lost** was careful. -/
theorem careful_of_kept {a : Statement} (hI : Inv s) (hs : step s a = some s') (hK : Kept peers s') :
    Careful s a := by
  rcases step_cases hs with ⟨k, body, rfl, -, rfl⟩ | ⟨p, rfl, -, rfl⟩ | ⟨r, rfl, -, rfl⟩ |
    ⟨p, rfl, -, rfl⟩ | ⟨p, own, rfl, hat, rfl⟩
  · by_contra hlt
    exact not_holds_resize (not_le.mp hlt) hK.entries
  · exact hK.writes (s.network.count, s.network.slots) (List.mem_append_right _ (List.mem_singleton.mpr rfl))
  · trivial
  · exact hK.writes (s.network.count, s.network.slots) (List.mem_append_right _ (List.mem_singleton.mpr rfl))
  · intro q own' hat'
    cases hslot : s.network.slot s.network.count with
    | none => exact absurd hK.entries (not_holds_fill hslot)
    | some c =>
      obtain ⟨q', hq⟩ := hI.behind _ c (le_refl _) hslot
      rw [hat'] at hq
      obtain ⟨-, rfl⟩ := ServerAt.placed.inj hq
      rfl

/-- **No peer is lost** in any state that careful statements lead to, from a list of any length; a
statement that is not careful loses one, or writes outside the array. -/
theorem nothing_lost (peers : List PeerAddress) (spare : ℕ)
    (h : Reaches (fun s s' => ∃ a, Careful s a ∧ step s a = some s') (start peers spare) s) :
    Kept peers s ∧ ∀ a s', step s a = some s' → (Kept peers s' ↔ Careful s a) := by
  have hIK : Inv s ∧ Kept peers s :=
    h.invariant (I := fun s => Inv s ∧ Kept peers s)
      (fun _ _ hIK ⟨_, hc, hs⟩ => kept_step hIK.1 hIK.2 hc hs) ⟨inv_start peers spare, kept_start peers spare⟩
  exact ⟨hIK.2, fun a s' hs => ⟨careful_of_kept hIK.1 hs, fun hc => (kept_step hIK.1 hIK.2 hc hs).2⟩⟩

/-- One peer in the list, and another that informs it. -/
theorem nothing_lost_inform : ∃ s,
    Reaches (fun s s' => ∃ a, Careful s a ∧ step s a = some s')
      (start [ofNetwork fun _ => 49#8] 0) s ∧ s.network.count = 2 ∧ Kept [ofNetwork fun _ => 49#8] s := by
  have h1 : Steps (fun s s' => ∃ a, Careful s a ∧ step s a = some s')
      (start [ofNetwork fun _ => 49#8] 0) _ _ :=
    .tail .refl ⟨.serverResizes (.inform fun _ => 50#8), trivial, rfl⟩
  have h2 := h1.tail ⟨.serverPlaces, show 1 < 2 by omega, rfl⟩
  have h3 := h2.tail ⟨.serverAppends, fun p own hat => by cases hat; rfl, rfl⟩
  exact ⟨_, ⟨_, h3⟩, rfl, (nothing_lost [ofNetwork fun _ => 49#8] 0 ⟨_, h3⟩).1⟩

/-- **A lost peer**: the client appends between the allocation of the server's slot and the server's copy. -/
theorem server_peer_lost : ∃ s,
    Reaches (fun s s' => ∃ a, step s a = some s') (start [ofNetwork fun _ => 49#8] 0) s ∧
      ofNetwork (fun _ => 50#8) ∈ s.appended ∧
      (∀ i < s.network.count, s.network.entry i ≠ some (ofNetwork fun _ => 50#8)) ∧
      ¬ Kept [ofNetwork fun _ => 49#8] s := by
  have h1 : Steps (fun s s' => ∃ a, step s a = some s') (start [ofNetwork fun _ => 49#8] 0) _ _ :=
    .tail .refl ⟨.serverResizes (.inform fun _ => 50#8), rfl⟩
  have h2 := h1.tail ⟨.serverPlaces, rfl⟩
  have h3 := h2.tail ⟨.clientResizes 40#32 fun _ => 51#8, rfl⟩
  have h4 := h3.tail ⟨.clientAppends, rfl⟩
  have h5 := h4.tail ⟨.serverAppends, rfl⟩
  refine ⟨_, ⟨_, h5⟩, List.mem_cons_of_mem _ (List.mem_singleton.mpr rfl), fun i hi heq => ?_, fun hK => ?_⟩
  · have hi' : i < 3 := hi
    have hip := congrArg (Option.map fun p : PeerAddress => p.ip 0) heq
    interval_cases i
    · exact absurd hip (by decide)
    · exact absurd hip (by decide)
    · cases heq
  · have hentry := hK.entries.entry 2 (by decide)
    cases hentry

end CompSys.A4.Appends
