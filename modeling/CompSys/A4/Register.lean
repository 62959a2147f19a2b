import CompSys.A4.SendMessage

/-! # The reply to a register request

The first half of `handle_register`: the bytes that it sends. Two things go wrong on the way to the
socket. `this_block` and `block_count` are stored without a conversion, so that `send_message` reads a
block count of `0x01000000` or `0x02000000` (`start_register`); and the network list is copied to
`total_reply + 80`, which is 640 bytes behind the start of `total_reply`, since its elements are pointers. -/

namespace CompSys.A4.Register

open CompSys.Lib.Bytes CompSys.A4.Wire CompSys.A4.SendMessage

/-- The bytes of a `NetworkAddress_t`: the ip, and the port in network byte order. -/
def networkAddress (p : PeerAddress) : List Byte :=
  List.ofFn p.ip ++ wordBytes (ntohl (BitVec.ofInt 32 (strtol (List.ofFn p.port))))

/-- `reply_body`. -/
def replyBody (network : List PeerAddress) : List Byte := network.flatMap networkAddress

/-- `reply`, as it is in memory. The block count is chosen by the length in network byte order. -/
def replyHeader (sha : List Byte → Hash) (network : List PeerAddress) : ReplyHeader :=
  let length := ntohl (BitVec.ofNat 32 (networkAddressLen * network.length))
  let hash := sha ((replyBody network).take (ntohl length).toNat)
  { length := length
    status := ntohl 1
    thisBlock := 1
    blockCount := if length < BitVec.ofNat 32 (maxMsgLen - replyHeaderLen) then 1 else 2
    blockHash := hash
    totalHash := hash }

/-- `sizeof(char *)`. -/
abbrev pointerLen : ℕ := 8

/-- The bytes from `total_reply` on: the header, and the body `80` pointers further on. `stack` is what
the memory holds before. -/
def totalReply (sha : List Byte → Hash) (stack : ℕ → Byte) (network : List PeerAddress) : ℕ → Byte :=
  fun i =>
    if i < replyHeaderLen then (replyHeader sha network).bytes.getD i 0#8
    else if pointerLen * replyHeaderLen ≤ i ∧
        i < pointerLen * replyHeaderLen + (ntohl (replyHeader sha network).length).toNat then
      (replyBody network).getD (i - pointerLen * replyHeaderLen) 0#8
    else stack i

/-- What `handle_register` writes to the socket. -/
def handleRegister (sha : List Byte → Hash) (stack : ℕ → Byte) (network : List PeerAddress) : List Byte :=
  (List.range ((ntohl (replyHeader sha network).length).toNat + replyHeaderLen)).map
    (totalReply sha stack network)

/-- **A register exchange round-trips**: what `send_message` reads is the network list, in one block that
it accepts. -/
structure RoundTrips (x : Exchange) (network : List PeerAddress) : Prop where
  length : (start x).header.length.toNat = networkAddressLen * network.length
  status : (start x).header.status = statusOk
  blockCount : (start x).header.blockCount = 1
  blockHash : (start x).header.blockHash = shaOf x (payload (readPayload x (start x)))
  totalHash : (start x).header.totalHash = shaOf x (payload (readPayload x (start x)))
  payload : (payload (readPayload x (start x))).map Cell.byte = network.flatMap networkAddress
  accepted : (sendMessage x).pc = .returned none

/-- A client that registers and gets the reply of `handle_register`. -/
def registering (x : Exchange) (stack : ℕ → Byte) (network : List PeerAddress) : Exchange :=
  { x with command := .register, reply := handleRegister x.sha stack network }

theorem length_handleRegister (sha : List Byte → Hash) (stack : ℕ → Byte) (network : List PeerAddress) :
    (handleRegister sha stack network).length =
      (ntohl (replyHeader sha network).length).toNat + replyHeaderLen := by
  simp [handleRegister]

/-- The reply starts with the header. -/
theorem getD_handleRegister (sha : List Byte → Hash) (stack : ℕ → Byte) (network : List PeerAddress)
    {i : ℕ} (hi : i < replyHeaderLen) :
    (handleRegister sha stack network).getD i 0#8 = (replyHeader sha network).bytes.getD i 0#8 := by
  unfold handleRegister
  rw [List.getD_eq_getElem?_getD, List.getElem?_map, List.getElem?_range (by omega), Option.map_some,
    Option.getD_some]
  exact if_pos hi

/-- **The header of the reply in the client's hands.** -/
theorem start_register (x : Exchange) (stack : ℕ → Byte) (network : List PeerAddress) :
    (start (registering x stack network)).header =
      { replyHeader x.sha network with
        length := BitVec.ofNat 32 (networkAddressLen * network.length)
        status := statusOk
        thisBlock := 0x01000000
        blockCount := ntohl (replyHeader x.sha network).blockCount } := by
  have hbuf : ∀ i < replyHeaderLen,
      ((start (registering x stack network)).msgBuf i).byte = (replyHeader x.sha network).bytes.getD i 0 := by
    intro i hi
    have hlen := length_handleRegister x.sha stack network
    have hc : i < replyHeaderLen ∧ 0 + i < (handleRegister x.sha stack network).length := by omega
    show (readnb (handleRegister x.sha stack network) 0 replyHeaderLen _ i).byte = _
    rw [readnb, if_pos hc, Nat.zero_add]
    exact getD_handleRegister x.sha stack network hi
  have hread := (readHeader_congr hbuf).trans (readHeader_bytes (replyHeader x.sha network))
  have hlength : ntohl (replyHeader x.sha network).length =
      BitVec.ofNat 32 (networkAddressLen * network.length) := ntohl_ntohl _
  have hstatus : ntohl (replyHeader x.sha network).status = statusOk := ntohl_ntohl 1
  have hthis : ntohl (replyHeader x.sha network).thisBlock = 0x01000000 := by
    show ntohl 1 = 0x01000000
    decide
  rw [ReplyHeader.toNetwork, hlength, hstatus, hthis] at hread
  exact hread

/-- The client is told to expect millions of blocks. -/
theorem register_blockCount (x : Exchange) (stack : ℕ → Byte) (network : List PeerAddress) :
    (start (registering x stack network)).header.blockCount ≠ 1 := by
  have hcount : (start (registering x stack network)).header.blockCount =
      ntohl (replyHeader x.sha network).blockCount :=
    congrArg ReplyHeader.blockCount (start_register x stack network)
  have hcases : (replyHeader x.sha network).blockCount = 1 ∨ (replyHeader x.sha network).blockCount = 2 :=
    ite_eq_or_eq _ _ _
  rw [hcount]
  rcases hcases with h | h
  · rw [h]; decide
  · rw [h]; decide

/-- **No register exchange round-trips**: whatever the list of peers, the block count is not `1`. -/
theorem register_never_round_trips (x : Exchange) (stack : ℕ → Byte) (network : List PeerAddress) :
    ¬ RoundTrips (registering x stack network) network :=
  fun h => register_blockCount x stack network h.blockCount

/-- A string and the NUL after it, in a field of `n` bytes. -/
def field (n : ℕ) (s : List Byte) : Fin n → Byte := fun i => s.getD i 0#8

/-- `127.0.0.1:8000`. -/
def localPeer : PeerAddress :=
  ⟨field 16 [49#8, 50#8, 55#8, 46#8, 48#8, 46#8, 48#8, 46#8, 49#8], field 8 [56#8, 48#8, 48#8, 48#8]⟩

/-- The list of a peer that has just been started. -/
theorem first_register_fails :
    networkAddressLen * [localPeer].length ≤ maxMsgLen - replyHeaderLen ∧ localPeer.WellFormed ∧
      ¬ RoundTrips (registering ⟨fun _ _ => 0#8, .register, [], localPeer, fun _ => 0#8, fun _ => 0#8, [], []⟩
        (fun _ => 0#8) [localPeer]) [localPeer] := by
  refine ⟨by decide, ⟨by decide, 8000, by norm_num, rfl⟩, fun h => ?_⟩
  exact register_blockCount _ _ _ h.blockCount

end CompSys.A4.Register
