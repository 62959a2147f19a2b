import CompSys.A4.ReadBuffer
import CompSys.A4.Register

/-! # The server's side of a request (`handle_server_request` in `A4/src/peer.c`)

The server reads the header of a request through the buffered reader and cuts the fields out of it; what
it hands to the handlers of the body it takes out of the reader's buffer.

`request_header_round_trips`: the fields are the sender's, however the network cuts the request into
reads. -/

namespace CompSys.A4.ServerRequest

open CompSys.Lib.Bytes CompSys.A4.Wire CompSys.A4.SendMessage CompSys.A4.ReadBuffer

/-! ### The request -/

/-- A request that `send_message` writes to the socket. -/
def request (a : PeerAddress) (command : BitVec 32) (body : List Byte) : List Byte :=
  strncpy a.ip ++ wordBytes (ntohl (BitVec.ofInt 32 (strtol (List.ofFn a.port)))) ++
    wordBytes (ntohl command) ++ wordBytes (ntohl (BitVec.ofNat 32 body.length)) ++ body

theorem request_eq (x : Exchange) : x.request = request x.myAddress x.command.code x.requestBody := rfl

/-- The digits of an `%d`: at least one. -/
def scanDigits : List Byte → Option ℤ
  | [] => none
  | c :: cs => if 48#8 ≤ c ∧ c ≤ 57#8 then some (digits 0 (c :: cs)) else none

/-- What `sscanf` assigns for `%d`. A port has no room for more digits than an `int` takes. -/
def scanInt (s : List Byte) : Option ℤ :=
  match s.dropWhile isSpace with
  | [] => none
  | c :: cs =>
    if c = 45#8 then (scanDigits cs).map Neg.neg
    else if c = 43#8 then scanDigits cs
    else scanDigits (c :: cs)

/-- `is_valid_port`. -/
def isValidPort (s : List Byte) : Bool :=
  match scanInt s with
  | none => false
  | some port => ¬ (port < 0 ∨ port > 65535)

/-! ### The server -/

/-- The fields of a request header: `IP_address`, `port`, `command_code` and `length`. -/
structure RequestHeader where
  ip : Fin 16 → Byte
  port : BitVec 32
  commandCode : BitVec 32
  length : BitVec 32

/-- The request header as `handle_server_request` takes it out of its buffer. -/
def readRequestHeader (buf : ℕ → Byte) : RequestHeader where
  ip := fun i => buf i
  port := netWord buf 16
  commandCode := netWord buf 20
  length := netWord buf 24

/-- What `handle_server_request` finds in memory: in `msg_buf` and the reader's buffer, and in and after
what `malloc` returns. -/
structure Memory where
  msgBuf : ℕ → Byte
  readerBuf : ℕ → Byte
  heap : ℕ → Byte

/-- The reader when the header has been read. -/
def headerRead (m : Memory) (incoming : List Fragment) : List Byte × Reader :=
  readnb (readinitb m.readerBuf incoming) requestHeaderLen

/-- **The header** of a request that comes in these reads. -/
def requestHeader (m : Memory) (incoming : List Fragment) : RequestHeader :=
  readRequestHeader (fill (headerRead m incoming).1 m.msgBuf)

/-- `sizeof(PeerAddress_t)`. -/
abbrev peerAddressLen : ℕ := 24

/-- What becomes of a request: the handler that is called, and its argument. -/
inductive Handled
  | register (clientIp : Fin 16 → Byte) (clientPort : BitVec 32)
  | retreive (request : ℕ → Byte)
  | inform (request : ℕ → Byte)
  /-- Another command. -/
  | ignored
  /-- The request is copied from behind the end of the reader's buffer. -/
  | overrun

/-- Memory from `malloc` on, with `length` bytes out of the reader's buffer copied to it. -/
def copied (m : Memory) (r : Reader) (length : ℕ) : ℕ → Byte := fun i =>
  if i < length then r.buf (requestHeaderLen + i) else m.heap i

/-- **`handle_server_request`.** -/
def handleServerRequest (m : Memory) (incoming : List Fragment) : Handled :=
  let r := (headerRead m incoming).2
  let h := requestHeader m incoming
  if h.commandCode = 1 then .register h.ip h.port
  else if h.commandCode = 2 then
    if requestHeaderLen + h.length.toNat ≤ bufSize then .retreive (copied m r h.length.toNat) else .overrun
  else if h.commandCode = 3 then .inform (copied m r peerAddressLen)
  else .ignored

/-- **A request header round-trips**: the ip is padded with NULs, and the port has become a number. -/
structure RoundTrips (a : PeerAddress) (command : BitVec 32) (body : List Byte) (h : RequestHeader) : Prop where
  ip : ∀ i : Fin 16, h.ip i = ((List.ofFn a.ip).takeWhile (· ≠ 0#8)).getD i 0#8
  port : scanInt (List.ofFn a.port) = some (h.port.toNat : ℤ)
  command : h.commandCode = command
  length : h.length.toNat = body.length

/-! ### The sender's fields -/

variable {a : PeerAddress} {command : BitVec 32} {body : List Byte} {incoming : List Fragment}

theorem scanDigits_eq {s : List Byte} {v : ℤ} (h : scanDigits s = some v) : v = digits 0 s := by
  cases s with
  | nil => exact nomatch h
  | cons c cs =>
    rw [scanDigits] at h
    split_ifs at h
    exact (Option.some.inj h).symm

/-- `atoi` gives what `sscanf` assigns. -/
theorem strtol_eq {s : List Byte} {v : ℤ} (h : scanInt s = some v) : strtol s = v := by
  unfold scanInt at h
  unfold strtol
  cases hs : s.dropWhile isSpace with
  | nil => rw [hs] at h; exact nomatch h
  | cons c cs =>
    simp only [hs] at h ⊢
    split_ifs at h ⊢
    · obtain ⟨w, hw, rfl⟩ := Option.map_eq_some_iff.mp h
      rw [scanDigits_eq hw]
    · exact (scanDigits_eq h).symm
    · exact (scanDigits_eq h).symm

/-- The number of a valid port. -/
theorem exists_port {s : List Byte} (h : isValidPort s = true) :
    ∃ v : ℕ, v ≤ 65535 ∧ scanInt s = some (v : ℤ) := by
  unfold isValidPort at h
  cases hv : scanInt s with
  | none => rw [hv] at h; exact nomatch h
  | some v =>
    simp only [hv, decide_eq_true_eq, not_or, not_lt] at h
    exact ⟨v.toNat, by omega, by rw [Int.toNat_of_nonneg h.1]⟩

theorem length_strncpy (ip : Fin 16 → Byte) : (strncpy ip).length = ipLen := by
  have hle := (List.takeWhile_prefix (fun b : Byte => b ≠ 0#8) (l := List.ofFn ip)).length_le
  rw [List.length_ofFn] at hle
  simp only [strncpy, List.length_append, List.length_replicate]
  exact Nat.add_sub_cancel' hle

theorem getD_strncpy (ip : Fin 16 → Byte) (i : ℕ) :
    (strncpy ip).getD i 0#8 = ((List.ofFn ip).takeWhile (· ≠ 0#8)).getD i 0#8 := by
  unfold strncpy
  rcases Nat.lt_or_ge i ((List.ofFn ip).takeWhile (· ≠ 0#8)).length with hlt | hge
  · rw [List.getD_append _ _ _ _ hlt]
  · rw [List.getD_append_right _ _ _ _ hge, List.getD_eq_default _ _ hge, List.getD_eq_getElem?_getD,
      List.getElem?_getD_replicate_default_eq]

theorem length_request : (request a command body).length = requestHeaderLen + body.length := by
  simp only [request, List.length_append, length_strncpy, length_wordBytes]

/-- The words of a request, from place 16 on. -/
theorem netWord_middle (buf : ℕ → Byte) {l r : List Byte} {w : BitVec 32}
    (h : ∀ j < 4, buf (l.length + j) = (l ++ wordBytes (ntohl w) ++ r).getD (l.length + j) 0#8) :
    netWord buf l.length = w := by
  have hbyte : ∀ j < 4, buf (l.length + j) = byteOf (ntohl w) j := by
    intro j hj
    rw [h j hj, List.append_assoc, List.getD_append_right _ _ _ _ (Nat.le_add_right _ _), Nat.add_sub_cancel_left,
      List.getD_append _ _ _ _ (by simpa using hj)]
    interval_cases j <;> rfl
  unfold netWord
  rw [← Nat.add_zero l.length, Nat.add_assoc, Nat.add_assoc, Nat.add_assoc, hbyte 0 (by omega), hbyte 1 (by omega),
    hbyte 2 (by omega), hbyte 3 (by omega), word_byteOf, ntohl_ntohl]

/-- **What the server makes of the bytes of a request.** -/
theorem readRequestHeader_eq {buf : ℕ → Byte}
    (h : ∀ i < requestHeaderLen, buf i = (request a command body).getD i 0#8) :
    readRequestHeader buf = ⟨fun i => (strncpy a.ip).getD i 0#8, BitVec.ofInt 32 (strtol (List.ofFn a.port)),
      command, BitVec.ofNat 32 body.length⟩ := by
  have hip : (fun i : Fin 16 => buf i) = fun i : Fin 16 => (strncpy a.ip).getD i 0#8 := by
    funext i
    rw [h i (show (i : ℕ) < 28 by omega), request, List.append_assoc, List.append_assoc, List.append_assoc,
      List.getD_append _ _ _ _ (by rw [length_strncpy]; exact i.isLt)]
  have hport : netWord buf 16 = BitVec.ofInt 32 (strtol (List.ofFn a.port)) := by
    have hmiddle := netWord_middle buf (l := strncpy a.ip) (w := BitVec.ofInt 32 (strtol (List.ofFn a.port)))
      (r := wordBytes (ntohl command) ++ wordBytes (ntohl (BitVec.ofNat 32 body.length)) ++ body)
    rw [length_strncpy] at hmiddle
    exact hmiddle fun j hj => by rw [h _ (show 16 + j < 28 by omega), request]; simp only [List.append_assoc]
  have hcommand : netWord buf 20 = command := by
    have hmiddle := netWord_middle buf (w := command)
      (l := strncpy a.ip ++ wordBytes (ntohl (BitVec.ofInt 32 (strtol (List.ofFn a.port)))))
      (r := wordBytes (ntohl (BitVec.ofNat 32 body.length)) ++ body)
    rw [List.length_append, length_strncpy, length_wordBytes] at hmiddle
    exact hmiddle fun j hj => by rw [h _ (show 20 + j < 28 by omega), request]; simp only [List.append_assoc]
  have hlength : netWord buf 24 = BitVec.ofNat 32 body.length := by
    have hmiddle := netWord_middle buf (w := BitVec.ofNat 32 body.length) (r := body)
      (l := strncpy a.ip ++ wordBytes (ntohl (BitVec.ofInt 32 (strtol (List.ofFn a.port)))) ++
        wordBytes (ntohl command))
    rw [List.length_append, List.length_append, length_strncpy, length_wordBytes, length_wordBytes] at hmiddle
    exact hmiddle fun j hj => by rw [h _ (show 24 + j < 28 by omega), request]
  rw [readRequestHeader, hip, hport, hcommand, hlength]

/-- **The header that the server has**, however the request is cut. -/
theorem requestHeader_eq (m : Memory) (hcut : stream incoming = request a command body) :
    requestHeader m incoming = ⟨fun i => (strncpy a.ip).getD i 0#8,
      BitVec.ofInt 32 (strtol (List.ofFn a.port)), command, BitVec.ofNat 32 body.length⟩ := by
  have hread : (headerRead m incoming).1 = (request a command body).take requestHeaderLen := by
    rw [headerRead, (readnb_spec _ _).1, unread_readinitb, hcut]
  refine readRequestHeader_eq fun i hi => ?_
  rw [hread, fill_of_lt (by rw [List.length_take, length_request]; omega), List.getD_eq_getElem?_getD,
    List.getElem?_take_of_lt hi, List.getD_eq_getElem?_getD]

/-- **Request headers round-trip** under any fragmentation: the server has the sender's ip, port, command
and length. -/
theorem request_header_round_trips (m : Memory) (hport : isValidPort (List.ofFn a.port) = true)
    (hbody : body.length ≤ maxMsgLen - requestHeaderLen) (hcut : stream incoming = request a command body) :
    RoundTrips a command body (requestHeader m incoming) := by
  obtain ⟨v, hv, hscan⟩ := exists_port hport
  have htoNat : (BitVec.ofInt 32 (strtol (List.ofFn a.port))).toNat = v := by
    rw [strtol_eq hscan, BitVec.ofInt_natCast, BitVec.toNat_ofNat, Nat.mod_eq_of_lt (by omega)]
  have hlength : (BitVec.ofNat 32 body.length).toNat = body.length := by
    rw [BitVec.toNat_ofNat, Nat.mod_eq_of_lt (hbody.trans_lt (by norm_num))]
  rw [requestHeader_eq m hcut]
  exact ⟨fun i => getD_strncpy a.ip i, by rw [htoNat]; exact hscan, rfl, hlength⟩

/-- The request of a peer that registers, in two reads. -/
def halves : List Fragment :=
  [⟨(request Register.localPeer 1 []).take 10, by decide, by decide⟩,
    ⟨(request Register.localPeer 1 []).drop 10, by decide, by decide⟩]

/-- **A register request** in two halves. -/
theorem request_header_halves :
    RoundTrips Register.localPeer 1 [] (requestHeader ⟨fun _ => 0#8, fun _ => 0#8, fun _ => 0#8⟩ halves) :=
  request_header_round_trips _ (by decide) (by decide) (by decide)

end CompSys.A4.ServerRequest
