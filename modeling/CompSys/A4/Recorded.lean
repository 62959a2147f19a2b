import CompSys.A4.Listed
import CompSys.A4.SendMessage

/-! # What is recorded of a register reply

A reply lists addresses. `send_message` makes room for as many pointers as the reply lists addresses, and one
more, whatever the network list holds already, and appends one peer: the first address, or what it finds in
memory if there is none. So a reply is recorded if the list has no more entries than the reply has addresses,
and these are in the list already but for the first (`recorded_iff`). -/

namespace CompSys.A4.Recorded

open CompSys.Lib.Bytes CompSys.Lib.Pointers CompSys.A4.Wire CompSys.A4.SendMessage CompSys.A4.Network
open CompSys.A4.Listed

/-- An address that a reply lists: an ip that is padded with NULs, and a port. -/
structure Address where
  ip : Fin 16 → Byte
  port : ℕ
  padded : ∃ n : ℕ, n < 16 ∧ ∀ i : Fin 16, ip i = 0#8 ↔ n ≤ (i : ℕ)
  port_le : port ≤ 65535

/-- The 20 bytes of an address, its port in network byte order. -/
def Address.bytes (a : Address) : List Byte :=
  List.ofFn a.ip ++ wordBytes (ntohl (BitVec.ofNat 32 a.port))

/-- **The peer to be recorded**: the ip, and the port as a decimal string. -/
def Address.peer (a : Address) : PeerAddress := ⟨a.ip, Register.field 8 (decimal a.port)⟩

/-- The payload of a reply. -/
def body (listed : List Address) : List Byte := listed.flatMap Address.bytes

/-- **The reply to a register request lists these addresses**: one block, with its length, `STATUS_OK` and
its hash. -/
structure Answers (x : Exchange) (listed : List Address) : Prop where
  command : x.command = .register
  fits : (body listed).length ≤ maxMsgLen - replyHeaderLen
  reply : ∃ h : ReplyHeader, x.reply = h.toNetwork.bytes ++ body listed ∧
    h.length = BitVec.ofNat 32 (body listed).length ∧ h.status = statusOk ∧ h.blockCount = 1 ∧
    h.blockHash = x.sha (body listed)

/-- The network list after `send_message`. -/
def recorded (x : Exchange) (n : PeerTable) : PeerTable :=
  let s := sendMessage x
  if s.pc = .returned none ∧ s.header.status = statusOk ∧ x.command = .register then
    ownReply n s.header.length fun i => (replyBody x s i).byte
  else n

/-- **The reply is recorded**: no slot behind the array is written, every entry up to `peer_count` is there,
the entries before are unchanged, and every address of the reply is in the list. -/
structure Records (n after : PeerTable) (listed : List Address) : Prop where
  inside : after.Valid
  present : ∀ i < after.count, after.entry i ≠ none
  kept : n.count ≤ after.count ∧ ∀ i < n.count, after.entry i = n.entry i
  listed : ∀ a ∈ listed, IsListed after a.peer

/-- **The reply is recorded, and nothing else**: behind the entries before there is one for each address. -/
def RecordsOnce (l : List PeerAddress) (after : PeerTable) (listed : List Address) : Prop :=
  after.Valid ∧ ∃ new, after.Holds (l ++ new) ∧ (new.map name).Perm (listed.map fun a => name a.peer)

/-! ### One address -/

@[simp] theorem length_addressBytes (a : Address) : a.bytes.length = networkAddressLen := by
  simp [Address.bytes]

theorem length_body (listed : List Address) : (body listed).length = networkAddressLen * listed.length := by
  simp [body, List.length_flatMap, Nat.mul_comm]

/-- A port of 16 bits as a string. -/
theorem formatPort_eq {port : ℕ} (h : port ≤ 65535) :
    formatPort (fun _ => 0#8) (BitVec.ofNat 32 port) = Register.field 8 (decimal port) := by
  have hnat : (BitVec.ofNat 32 port).toNat = port := by
    rw [BitVec.toNat_ofNat, Nat.mod_eq_of_lt (by omega)]
  have hint : (BitVec.ofNat 32 port).toInt = port := by
    rw [BitVec.toInt_eq_toNat_of_lt (by omega), hnat]
  have hformat : formatInt (BitVec.ofNat 32 port).toInt = decimal port ++ [0#8] := by
    rw [hint, formatInt, if_neg (by omega), Int.natAbs_natCast]
  funext i
  unfold formatPort Register.field
  simp only [hformat, List.get_eq_getElem, List.length_append, List.length_singleton]
  split_ifs with hi
  · rcases Nat.lt_or_ge i (decimal port).length with hlt | hge
    · rw [List.getElem_append_left hlt, List.getD_eq_getElem _ _ hlt]
    · rw [List.getElem_append_right hge, List.getD_eq_default _ _ hge]
      simp
  · rw [List.getD_eq_default _ _ (by omega)]

/-- **The first address of a reply** becomes the new peer. -/
theorem ofNetwork_eq {a : Address} {message : ℕ → Byte}
    (h : ∀ i < networkAddressLen, message i = a.bytes.getD i 0#8) :
    ofNetwork message = a.peer := by
  have hip : (fun i : Fin 16 => message i) = a.ip := by
    funext i
    have hi := getD_middle [] (wordBytes (ntohl (BitVec.ofNat 32 a.port))) a.ip i
    rw [List.nil_append, List.length_nil, Nat.zero_add] at hi
    exact (h i (show (i : ℕ) < 20 by omega)).trans hi
  have hport : netWord message ipLen = BitVec.ofNat 32 a.port := by
    have hbyte : ∀ j < 4, message (ipLen + j) = byteOf (ntohl (BitVec.ofNat 32 a.port)) j := by
      intro j hj
      rw [h _ (show 16 + j < 20 by omega), Address.bytes, List.getD_append_right _ _ _ _ (by simp), List.length_ofFn,
        Nat.add_sub_cancel_left]
      interval_cases j <;> rfl
    unfold netWord
    rw [show ipLen = ipLen + 0 from rfl, hbyte 0 (by omega), hbyte 1 (by omega), hbyte 2 (by omega),
      hbyte 3 (by omega), word_byteOf, ntohl_ntohl]
  rw [ofNetwork, hip, hport, formatPort_eq a.port_le]
  rfl

/-! ### The exchange -/

variable {x : Exchange} {listed : List Address}

theorem length_toNat (h : Answers x listed) :
    (BitVec.ofNat 32 (body listed).length).toNat = (body listed).length := by
  rw [BitVec.toNat_ofNat, Nat.mod_eq_of_lt (h.fits.trans_lt (by norm_num))]

/-- The header of the reply, when it has been read. -/
theorem start_header {hd : ReplyHeader} (hreply : x.reply = hd.toNetwork.bytes ++ body listed) :
    (start x).header = hd ∧ (start x).pos = replyHeaderLen := by
  have hmiddle : x.reply = [] ++ (hd.toNetwork.bytes ++ body listed) := hreply
  have hadvance := advance_middle hmiddle
  rw [length_bytes, List.length_nil, Nat.zero_add] at hadvance
  exact ⟨headerOf_middle hmiddle x.sent, hadvance⟩

/-- The end of an exchange that records a peer. -/
theorem finish_register {s : Client} (hc : x.command = .register) (hstatus : s.header.status = statusOk)
    (hfits : s.header.length.toNat ≤ maxMsgLen) :
    (finish x s).pc = .returned none ∧ (finish x s).header = s.header ∧ (finish x s).msgBuf = s.msgBuf := by
  unfold finish
  rw [if_neg (by rw [hc]; exact fun hboth => nomatch hboth.1), if_neg (not_lt.mpr hfits), if_pos ⟨hstatus, hc⟩]
  exact ⟨rfl, rfl, rfl⟩

/-- The reply in the hands of the client: its header, and its payload once it has been read. -/
theorem exists_header (h : Answers x listed) : ∃ hd : ReplyHeader, (start x).header = hd ∧ hd.status = statusOk ∧
    hd.blockCount = 1 ∧ hd.length.toNat = (body listed).length ∧ hd.blockHash = x.sha (body listed) ∧
    (payload (readPayload x (start x))).map Cell.byte = body listed := by
  have htoNat := length_toNat h
  obtain ⟨hd, hreply, hlength, hstatus, hcount, hhash⟩ := h.reply
  obtain ⟨hheader, hpos⟩ := start_header hreply
  rw [← hlength] at htoNat
  have hstream : x.reply = hd.toNetwork.bytes ++ (body listed ++ []) := by rw [List.append_nil, hreply]
  obtain ⟨hpayload, -⟩ := payload_middle (s := start x) hstream (by rw [hpos, length_bytes])
    (by rw [hheader, htoNat])
  exact ⟨hd, hheader, hstatus, hcount, htoNat, hhash, hpayload⟩

theorem fits_buffer (h : Answers x listed) : (body listed).length ≤ maxMsgLen := h.fits.trans (Nat.sub_le _ _)

/-- The block of the reply passes the checks. -/
theorem iteration_answers (h : Answers x listed) :
    iteration x (start x) = takeBlock x (readPayload x (start x)) := by
  obtain ⟨hd, hheader, hstatus, -, hlength, hhash, hpayload⟩ := exists_header h
  have hnext : nextHeader x (start x) = start x := if_neg (lt_irrefl 0)
  have hcheck : checkHeader x (start x) = none := by
    unfold checkHeader
    rw [hheader, hstatus, if_neg (by rintro ⟨hb, -⟩; exact absurd hb (lt_irrefl 0)),
      if_neg (by rintro ⟨hb, -⟩; exact absurd hb (lt_irrefl 0)), if_neg (by rintro ⟨hne, -⟩; exact hne rfl)]
  have hfits : (start x).header.length.toNat ≤ maxMsgLen := by
    rw [hheader, hlength]
    exact fits_buffer h
  have hsha : shaOf x (payload (readPayload x (start x))) = (start x).header.blockHash := by
    rw [shaOf, hpayload, hheader, hhash]
  rw [iteration_takes (by rw [hnext, hcheck]) (by rw [hnext]; exact hfits) (by rw [hnext, hsha]), hnext]

/-- **What `send_message` makes of the reply**: it accepts it, and the body is in its hands. -/
theorem sendMessage_answers (h : Answers x listed) : (sendMessage x).pc = .returned none ∧
    (sendMessage x).header.status = statusOk ∧
    (sendMessage x).header.length = BitVec.ofNat 32 (body listed).length ∧
    ∀ i < (body listed).length, (replyBody x (sendMessage x) i).byte = (body listed).getD i 0#8 := by
  obtain ⟨hd, hheader, hstatus, hcount, hlength, -, hpayload⟩ := exists_header h
  have hloop : (start x).pc = .loop := if_neg (by rw [h.command]; decide)
  have hsend := sendMessage_one_block hloop ((congrArg ReplyHeader.blockCount hheader).trans hcount)
    (iteration_answers h)
  obtain ⟨-, -, -, hbuf', -, hheader', -, -⟩ := takeBlock_frame x (readPayload x (start x))
  have hheader'' : (takeBlock x (readPayload x (start x))).header = hd := hheader'.trans hheader
  obtain ⟨hpc, hhd, hbuf⟩ := finish_register h.command (by rw [hheader'', hstatus])
    (by rw [hheader'', hlength]; exact fits_buffer h)
  rw [← hsend] at hpc hhd hbuf
  have hlength' : hd.length = BitVec.ofNat 32 (body listed).length := by
    rw [← hlength, BitVec.ofNat_toNat, BitVec.setWidth_eq]
  refine ⟨hpc, by rw [hhd, hheader'', hstatus], by rw [hhd, hheader'', hlength'], fun i hi => ?_⟩
  have hin : i < (readPayload x (start x)).header.length.toNat := by
    rwa [show (readPayload x (start x)).header = hd from hheader, hlength]
  rw [replyBody, if_pos (by rwa [hhd, hheader'', hlength]), hbuf, hbuf', ← getD_payload hin, hpayload]

/-- The peer that is appended. -/
def newPeer (x : Exchange) : PeerAddress := ofNetwork fun i => (replyBody x (sendMessage x) i).byte

/-- The first address, if the reply lists one. -/
theorem newPeer_eq {a : Address} {rest : List Address} (h : Answers x (a :: rest)) : newPeer x = a.peer := by
  obtain ⟨-, -, -, hbody⟩ := sendMessage_answers h
  have hcons : body (a :: rest) = a.bytes ++ body rest := rfl
  refine ofNetwork_eq fun i hi => ?_
  have hlt : i < a.bytes.length := by rwa [length_addressBytes]
  rw [hbody i (by rw [hcons, List.length_append]; omega), hcons, List.getD_append _ _ _ _ hlt]

/-! ### The network list -/

variable {n : PeerTable} {l : List PeerAddress}

theorem recorded_eq (h : Answers x listed) (n : PeerTable) :
    recorded x n = ownReply n (BitVec.ofNat 32 (body listed).length)
      fun i => (replyBody x (sendMessage x) i).byte := by
  obtain ⟨hpc, hstatus, hlength, -⟩ := sendMessage_answers h
  rw [← hlength]
  exact if_pos ⟨hpc, hstatus, h.command⟩

theorem peersInNetwork_eq (h : Answers x listed) :
    peersInNetwork (BitVec.ofNat 32 (body listed).length) = 1 + listed.length := by
  rw [peersInNetwork, length_toNat h, length_body, Nat.mul_div_cancel_left _ (by norm_num)]

/-- **With room for it**, the new peer is appended. -/
theorem recorded_holds (hv : n.Valid) (hl : n.Holds l) (h : Answers x listed) (hroom : n.count ≤ listed.length) :
    (recorded x n).Valid ∧ (recorded x n).Holds (l ++ [newPeer x]) := by
  rw [recorded_eq h]
  refine ownReply_spec hv hl ?_ _
  rw [peersInNetwork_eq h]
  omega

/-- **Without room**, it is lost behind the array. -/
theorem recorded_absent (h : Answers x listed) (hfull : listed.length < n.count) :
    (recorded x n).count = n.count + 1 ∧ (recorded x n).entry n.count = none := by
  rw [recorded_eq h]
  refine ⟨rfl, if_neg (not_lt.mpr ?_)⟩
  show peersInNetwork _ ≤ n.count
  rw [peersInNetwork_eq h]
  omega

theorem records_iff (hv : n.Valid) (hl : n.Holds l) (h : Answers x listed) :
    Records n (recorded x n) listed ↔ n.count ≤ listed.length ∧
      ∀ a ∈ listed, IsListed n a.peer ∨ (listed.head?.map fun first => name first.peer) = some (name a.peer) := by
  rcases Nat.lt_or_ge listed.length n.count with hfull | hroom
  · obtain ⟨hcount, habsent⟩ := recorded_absent h hfull
    refine iff_of_false (fun hr => ?_) (by omega)
    exact hr.present n.count (by omega) habsent
  obtain ⟨hv', hl'⟩ := recorded_holds hv hl h hroom
  have hlisted : ∀ a : Address, IsListed (recorded x n) a.peer ↔
      IsListed n a.peer ∨ name (newPeer x) = name a.peer := by
    intro a
    rw [listed_iff hl', listed_iff hl, List.map_append, List.mem_append, List.map_singleton, List.mem_singleton,
      eq_comm]
  have hcount := hl.count
  have hcount' := hl'.count
  rw [List.length_append, List.length_singleton] at hcount'
  rw [and_iff_right hroom]
  constructor
  · intro hr a ha
    obtain ⟨first, rest, rfl⟩ := List.exists_cons_of_ne_nil (List.ne_nil_of_mem ha)
    have hone := (hlisted a).mp (hr.listed a ha)
    rwa [newPeer_eq h, ← Option.some_inj] at hone
  · intro hall
    refine ⟨hv', fun i hi => ?_, ⟨by omega, fun i hi => ?_⟩, fun a ha => (hlisted a).mpr ?_⟩
    · rw [hl'.entry i (hl'.count ▸ hi), List.getElem?_eq_getElem (hl'.count ▸ hi)]
      exact Option.some_ne_none _
    · rw [hl'.entry i (by rw [List.length_append]; omega), hl.entry i (by omega),
        List.getElem?_append_left (by omega)]
    · obtain ⟨first, rest, rfl⟩ := List.exists_cons_of_ne_nil (List.ne_nil_of_mem ha)
      have hone := hall a ha
      rwa [newPeer_eq h, ← Option.some_inj]

theorem recordsOnce_iff (hv : n.Valid) (hl : n.Holds l) (h : Answers x listed) :
    RecordsOnce l (recorded x n) listed ↔ listed.length = 1 ∧ n.count ≤ 1 := by
  have hcount := hl.count
  rcases Nat.lt_or_ge listed.length n.count with hfull | hroom
  · obtain ⟨hcount', habsent⟩ := recorded_absent h hfull
    refine iff_of_false ?_ (by omega)
    rintro ⟨-, new, hnew, -⟩
    have hlength := hnew.count
    have hentry := hnew.entry n.count (by omega)
    rw [habsent, List.getElem?_eq_getElem (by omega)] at hentry
    exact nomatch hentry
  obtain ⟨hv', hl'⟩ := recorded_holds hv hl h hroom
  constructor
  · rintro ⟨-, new, hnew, hperm⟩
    have hone := hnew.count.symm.trans hl'.count
    have hlength := hperm.length_eq
    simp only [List.length_append, List.length_map, List.length_singleton] at hone hlength
    omega
  · rintro ⟨hone, -⟩
    obtain ⟨first, rfl⟩ := List.length_eq_one_iff.mp hone
    refine ⟨hv', [newPeer x], hl', ?_⟩
    rw [newPeer_eq h]
    exact List.Perm.refl _

/-- **A register reply is recorded** if and only if the list has no more entries than the reply has addresses,
and every address but the first is in the list already; it is recorded, and nothing else, if and only if it
lists one address and the list has at most one entry. -/
theorem register_recorded_iff (hv : n.Valid) (hl : n.Holds l) (h : Answers x listed) :
    (Records n (recorded x n) listed ↔ n.count ≤ listed.length ∧
      ∀ a ∈ listed, IsListed n a.peer ∨ (listed.head?.map fun first => name first.peer) = some (name a.peer)) ∧
    (RecordsOnce l (recorded x n) listed ↔ listed.length = 1 ∧ n.count ≤ 1) :=
  ⟨records_iff hv hl h, recordsOnce_iff hv hl h⟩

/-! ### Two addresses -/

/-- An address of one digit. -/
def digit (c : Byte) (hc : c ≠ 0#8) : Address where
  ip := Register.field 16 [c]
  port := 8000
  padded := ⟨1, by decide, fun i => by
    rcases Nat.eq_zero_or_pos (i : ℕ) with hi | hi
    · rw [Register.field, hi]
      exact iff_of_false hc (by omega)
    · obtain ⟨k, hk⟩ := Nat.exists_eq_add_of_le' hi
      rw [Register.field, hk]
      exact iff_of_true rfl (by omega)⟩
  port_le := by norm_num

/-- A peer that registers and is answered with these addresses. -/
def answering (listed : List Address) : Exchange where
  sha := fun _ _ => 0#8
  command := .register
  requestBody := []
  myAddress := Register.localPeer
  stack := fun _ => 0#8
  heap := fun _ => 0#8
  outputFile := []
  reply := (ReplyHeader.toNetwork ⟨BitVec.ofNat 32 (body listed).length, statusOk, 0, 1, fun _ => 0#8,
    fun _ => 0#8⟩).bytes ++ body listed

theorem answers_answering (hfits : listed.length ≤ 405) : Answers (answering listed) listed := by
  refine ⟨rfl, ?_, _, rfl, rfl, rfl, rfl, rfl⟩
  rw [length_body]
  show 20 * listed.length ≤ 8116
  omega

/-- **One address**, for a peer that knows itself. -/
theorem register_recorded_one :
    Records (ofList [Register.localPeer] 0)
      (recorded (answering [digit 50#8 (by decide)]) (ofList [Register.localPeer] 0)) [digit 50#8 (by decide)] :=
  (register_recorded_iff (valid_ofList _ _) (holds_ofList _ _) (answers_answering (by decide))).1.mpr
    ⟨by decide, fun a ha => Or.inr (by rw [List.mem_singleton.mp ha]; rfl)⟩

/-- **Of two addresses** only the first is recorded. -/
theorem second_address_lost :
    Answers (answering [digit 50#8 (by decide), digit 51#8 (by decide)])
        [digit 50#8 (by decide), digit 51#8 (by decide)] ∧
      ¬ Records (ofList [Register.localPeer] 0)
        (recorded (answering [digit 50#8 (by decide), digit 51#8 (by decide)]) (ofList [Register.localPeer] 0))
        [digit 50#8 (by decide), digit 51#8 (by decide)] := by
  have hanswers : Answers (answering [digit 50#8 (by decide), digit 51#8 (by decide)]) _ :=
    answers_answering (by decide)
  refine ⟨hanswers, fun h => ?_⟩
  obtain ⟨-, hall⟩ := (records_iff (valid_ofList _ _) (holds_ofList _ _) hanswers).mp h
  rcases hall (digit 51#8 (by decide)) (by simp) with ⟨i, hi, heq⟩ | heq
  · have hi' : i < 1 := hi
    interval_cases i
    exact absurd heq (by decide)
  · exact absurd heq (by decide)

end CompSys.A4.Recorded
