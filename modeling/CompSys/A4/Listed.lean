import CompSys.A4.Network
import CompSys.A4.Register
import CompSys.Lib.Runs

/-! # Peers in the list

Requests and replies handled one after another, from the list of `main` on. No handler compares an address
with those in the list, and every register request is answered with `STATUS_OK`. So the peers in the list
are different as long as no address comes a second time, and no reply makes the array too small
(`listed_once`). -/

namespace CompSys.A4.Listed

open CompSys.Lib.Pointers CompSys.Lib.Runs CompSys.A4.Wire CompSys.A4.Network

/-- What is handled. -/
inductive Event
  | request (r : Request)
  /-- The reply to the own register request, when it has passed the checks of `send_message`. -/
  | reply (length status : BitVec 32) (body : ℕ → Byte)

/-- What becomes of the list. -/
def handleEvent (n : PeerTable) : Event → PeerTable
  | .request r => handle n r
  | .reply length status body => if status = statusOk then ownReply n length body else n

/-- `main`: the list holds the peer itself. -/
def start (myAddress : PeerAddress) : PeerTable := ofList [myAddress] 0

/-- Ip and port, as strings. -/
def name (p : PeerAddress) : List Byte × List Byte :=
  ((List.ofFn p.ip).takeWhile (· ≠ 0#8), (List.ofFn p.port).takeWhile (· ≠ 0#8))

/-- A peer with this ip and port is in the list. -/
def IsListed (n : PeerTable) (p : PeerAddress) : Prop := ∃ i < n.count, (n.entry i).map name = some (name p)

/-- **The peers are pairwise different.** -/
structure Distinct (n : PeerTable) : Prop where
  present : ∀ i < n.count, n.entry i ≠ none
  apart : ∀ i < n.count, ∀ j < n.count, (n.entry i).map name = (n.entry j).map name → i = j

/-- The peers that a reply is made of. -/
def peers (n : PeerTable) : List PeerAddress := (List.range n.count).filterMap n.entry

/-- **A register request from a peer in the list** leaves it as it is, and the answer says so. -/
def AnswersListed (sha : List Byte → Hash) (n : PeerTable) (e : Event) : Prop :=
  ∀ ip port before, e = .request (.register ip port before) →
    IsListed n (Request.register ip port before).peer →
    (handleEvent n e).count = n.count ∧ (∀ i < n.count, (handleEvent n e).entry i = n.entry i) ∧
      ntohl (Register.replyHeader sha (peers n)).status = statusPeerExists

/-- **An address that comes for the first time**, and finds room. -/
def Careful (n : PeerTable) : Event → Prop
  | .request r => ¬ IsListed n r.peer
  | .reply length status body =>
    status = statusOk → ¬ IsListed n (ofNetwork body) ∧ n.count < peersInNetwork length

variable {n : PeerTable} {l : List PeerAddress}

/-! ### The list of a table -/

theorem entry_map (h : n.Holds l) {i : ℕ} (hi : i < n.count) :
    (n.entry i).map name = (l.map name)[i]? := by
  rw [h.entry i (h.count ▸ hi), List.getElem?_map]

theorem listed_iff (h : n.Holds l) (p : PeerAddress) : IsListed n p ↔ name p ∈ l.map name := by
  rw [List.mem_iff_getElem?]
  constructor
  · rintro ⟨i, hi, hp⟩
    exact ⟨i, (entry_map h hi).symm.trans hp⟩
  · rintro ⟨i, hp⟩
    have hi : i < n.count := by
      rw [h.count, ← List.length_map]
      exact (List.getElem?_eq_some_iff.mp hp).1
    exact ⟨i, hi, (entry_map h hi).trans hp⟩

theorem distinct_iff (h : n.Holds l) : Distinct n ↔ (l.map name).Nodup := by
  have hlen : n.count = (l.map name).length := by rw [h.count, List.length_map]
  constructor
  · intro hd
    refine List.nodup_iff_getElem?_ne_getElem?.mpr fun i j hij hj heq => ?_
    have hi : i < n.count := by omega
    have hj' : j < n.count := by omega
    rw [← entry_map h hi, ← entry_map h hj'] at heq
    exact hij.ne (hd.apart i hi j hj' heq)
  · intro hnd
    refine ⟨fun i hi hnone => ?_, fun i hi j hj heq => ?_⟩
    · rw [h.entry i (h.count ▸ hi), List.getElem?_eq_none_iff] at hnone
      rw [h.count] at hi
      omega
    · rw [entry_map h hi, entry_map h hj, List.getElem?_eq_getElem (hlen ▸ hi),
        List.getElem?_eq_getElem (hlen ▸ hj), Option.some.injEq] at heq
      exact (hnd.getElem_inj_iff).mp heq

/-! ### The handlers -/

/-- An append to an array that has a slot for it. -/
theorem append_spec (hv : n.Valid) (h : n.Holds l) (hc : n.count < n.slots) (p : PeerAddress) :
    (n.place.fill p).Valid ∧ (n.place.fill p).Holds (l ++ [p]) :=
  ⟨(hv.place hc).fill p, (h.place hv).fill (hv.place hc) (Function.update_self _ _ _) p⟩

theorem handle_spec (hv : n.Valid) (h : n.Holds l) (r : Request) :
    (handle n r).Valid ∧ (handle n r).Holds (l ++ [r.peer]) :=
  append_spec (hv.resize _) (h.resize (by rw [h.count]; exact Nat.le_succ _)) (Nat.lt_succ_self _) r.peer

theorem ownReply_spec (hv : n.Valid) (h : n.Holds l) {length : BitVec 32}
    (hc : n.count < peersInNetwork length) (body : ℕ → Byte) :
    (ownReply n length body).Valid ∧ (ownReply n length body).Holds (l ++ [ofNetwork body]) :=
  append_spec (hv.resize _) (h.resize (by rw [← h.count]; exact hc.le)) hc _

/-- A reply that is too short for the list loses its last entry. -/
theorem ownReply_short {length : BitVec 32} (hc : peersInNetwork length ≤ n.count) (body : ℕ → Byte) :
    ¬ Distinct (ownReply n length body) := fun hd =>
  hd.present n.count (Nat.lt_succ_self _) (if_neg (not_lt.mpr hc))

theorem nodup_append {p : PeerAddress} (h : (l.map name).Nodup) :
    ((l ++ [p]).map name).Nodup ↔ name p ∉ l.map name := by
  rw [List.map_append, List.map_singleton, List.nodup_append]
  simp only [h, true_and, List.nodup_singleton, List.mem_singleton, forall_eq]
  exact ⟨fun hd hp => hd _ hp rfl, fun hp a ha heq => hp (heq ▸ ha)⟩

/-! ### Runs -/

/-- The table is sound and its peers are different. -/
def Inv (n : PeerTable) : Prop := n.Valid ∧ ∃ l, n.Holds l ∧ (l.map name).Nodup

theorem inv_start (myAddress : PeerAddress) : Inv (start myAddress) :=
  ⟨valid_ofList _ _, [myAddress], holds_ofList _ _, List.nodup_singleton _⟩

/-- **A careful event** keeps the peers different. -/
theorem Inv.event {e : Event} (h : Inv n) (hc : Careful n e) : Inv (handleEvent n e) := by
  obtain ⟨hv, l, hl, hnd⟩ := h
  cases e with
  | request r =>
    obtain ⟨hv', hl'⟩ := handle_spec hv hl r
    exact ⟨hv', _, hl', (nodup_append hnd).mpr fun hp => hc ((listed_iff hl _).mpr hp)⟩
  | reply length status body =>
    show Inv (if status = statusOk then ownReply n length body else n)
    split_ifs with hst
    · obtain ⟨hnew, hroom⟩ := hc hst
      obtain ⟨hv', hl'⟩ := ownReply_spec hv hl hroom body
      exact ⟨hv', _, hl', (nodup_append hnd).mpr fun hp => hnew ((listed_iff hl _).mpr hp)⟩
    · exact ⟨hv, l, hl, hnd⟩

theorem Inv.distinct (h : Inv n) : Distinct n := by
  obtain ⟨-, l, hl, hnd⟩ := h
  exact (distinct_iff hl).mpr hnd

/-- **An event after which the peers are different** was careful. -/
theorem Inv.careful {e : Event} (h : Inv n) (hd : Distinct (handleEvent n e)) : Careful n e := by
  obtain ⟨hv, l, hl, hnd⟩ := h
  cases e with
  | request r =>
    obtain ⟨-, hl'⟩ := handle_spec hv hl r
    exact fun hp => (nodup_append hnd).mp ((distinct_iff hl').mp hd) ((listed_iff hl _).mp hp)
  | reply length status body =>
    intro hst
    have hown : handleEvent n (.reply length status body) = ownReply n length body := if_pos hst
    rw [hown] at hd
    have hroom : n.count < peersInNetwork length := by
      by_contra hlt
      exact ownReply_short (not_lt.mp hlt) body hd
    obtain ⟨-, hl'⟩ := ownReply_spec hv hl hroom body
    exact ⟨fun hp => (nodup_append hnd).mp ((distinct_iff hl').mp hd) ((listed_iff hl _).mp hp), hroom⟩

end CompSys.A4.Listed
