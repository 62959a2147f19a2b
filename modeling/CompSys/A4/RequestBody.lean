import CompSys.A4.ServerRequest

/-! # The body of a request

`handle_server_request` asks the reader for the header only, and takes the body from where it would lie if
header and body had come in one read: behind the first 28 bytes of the reader's buffer. A body that comes in
a later read is not there yet; and where the header came in two reads, the second one has overwritten the
first, and the body lies nearer to the start. The NUL behind a string is not part of the request, so that it
has to be in the heap already (`request_body_arrives_iff`). -/

namespace CompSys.A4.RequestBody

open CompSys.Lib.Bytes CompSys.A4.Wire CompSys.A4.ReadBuffer CompSys.A4.ServerRequest

/-- The bytes up to the first NUL. -/
def cString (body : List Byte) : List Byte := body.takeWhile (· ≠ 0#8)

/-- Memory that holds a string, with the NUL behind it. -/
structure HoldsString (mem : ℕ → Byte) (s : List Byte) : Prop where
  bytes : ∀ i < s.length, mem i = s.getD i 0#8
  nul : mem s.length = 0#8

/-- The ip and the port at some place in memory. -/
def address (mem : ℕ → Byte) : (Fin 16 → Byte) × BitVec 32 := (fun i => mem i, netWord mem ipLen)

/-- **The body arrives whole**: `handle_retreive` is given it as a string, and `handle_inform` its address. -/
def ArrivesWhole (body : List Byte) : Handled → Prop
  | .retreive request => HoldsString request (cString body)
  | .inform request => address request = address fun i => body.getD i 0#8
  | _ => True

/-- **What the server takes for byte `i` of the body.** `f` is the read that completes the header, after
`before` other bytes. Behind the end of `f` is what the buffer has held from the start, and behind the end of
the body what the heap holds. -/
def found (m : Memory) (body : List Byte) (before : ℕ) (f : Fragment) (i : ℕ) : Byte :=
  if body.length ≤ i then m.heap i
  else if requestHeaderLen + i < f.bytes.length then body.getD (before + i) 0#8
  else m.readerBuf (requestHeaderLen + i)

/-! ### Strings and addresses -/

variable {mem mem' : ℕ → Byte} {body : List Byte}

theorem length_cString_le (body : List Byte) : (cString body).length ≤ body.length :=
  (List.takeWhile_prefix _).length_le

theorem getD_cString {i : ℕ} (h : i < (cString body).length) : (cString body).getD i 0#8 = body.getD i 0#8 := by
  obtain ⟨rest, hrest⟩ := List.takeWhile_prefix (fun b : Byte => b ≠ 0#8) (l := body)
  conv_rhs => rw [← hrest]
  exact (List.getD_append _ _ _ _ h).symm

/-- A string ends at a NUL, or with the body. -/
theorem getD_length_cString (body : List Byte) : body.getD (cString body).length 0#8 = 0#8 := by
  induction body with
  | nil => rfl
  | cons b bs ih =>
    by_cases hb : b = 0#8
    · rw [cString, List.takeWhile_cons_of_neg (by simpa using hb)]
      exact hb
    · rw [cString, List.takeWhile_cons_of_pos (by simpa using hb)]
      exact ih

/-- Memory holds a string if it has the body's bytes, and the zero behind them. -/
theorem holdsString_iff :
    HoldsString mem (cString body) ↔ ∀ i ≤ (cString body).length, mem i = body.getD i 0#8 := by
  constructor
  · intro h i hi
    rcases Nat.lt_or_eq_of_le hi with hlt | rfl
    · rw [h.bytes i hlt, getD_cString hlt]
    · rw [h.nul, getD_length_cString]
  · intro h
    exact ⟨fun i hi => by rw [h i hi.le, getD_cString hi], by rw [h _ le_rfl, getD_length_cString]⟩

/-- The bytes of a word. -/
theorem netWord_inj {k : ℕ} : netWord mem k = netWord mem' k ↔ ∀ j < 4, mem (k + j) = mem' (k + j) := by
  constructor
  · intro h
    have hword := congrArg ntohl h
    simp only [netWord, ntohl_ntohl] at hword
    obtain ⟨h0, h1, h2, h3⟩ := byteOf_word (mem k) (mem (k + 1)) (mem (k + 2)) (mem (k + 3))
    obtain ⟨h0', h1', h2', h3'⟩ := byteOf_word (mem' k) (mem' (k + 1)) (mem' (k + 2)) (mem' (k + 3))
    rw [hword] at h0 h1 h2 h3
    intro j hj
    interval_cases j
    · exact h0.symm.trans h0'
    · exact h1.symm.trans h1'
    · exact h2.symm.trans h2'
    · exact h3.symm.trans h3'
  · intro h
    unfold netWord
    rw [h 1 (by omega), h 2 (by omega), h 3 (by omega), show mem k = mem' k from h 0 (by omega)]

theorem address_eq_iff : address mem = address mem' ↔ ∀ i < networkAddressLen, mem i = mem' i := by
  rw [address, address, Prod.mk.injEq, netWord_inj, funext_iff]
  constructor
  · rintro ⟨hip, hport⟩ i hi
    have hi' : i < 20 := hi
    rcases Nat.lt_or_ge i 16 with hlt | hge
    · exact hip ⟨i, hlt⟩
    · have hj := hport (i - 16) (by omega)
      rwa [show ipLen + (i - 16) = i from Nat.add_sub_cancel' hge] at hj
  · exact fun h => ⟨fun i => h i (i.isLt.trans (by norm_num)), fun j hj => h _ (show 16 + j < 20 by omega)⟩

/-! ### What the server finds -/

variable {a : PeerAddress} {command : BitVec 32} {incoming : List Fragment} {before : ℕ} {f : Fragment} {m : Memory}

/-- A byte of the read that completes the header. -/
theorem getD_completing (hcut : stream incoming = request a command body)
    (hc : completing requestHeaderLen incoming = some (before, f)) {i : ℕ}
    (hi : requestHeaderLen + i < f.bytes.length) :
    f.bytes.getD (requestHeaderLen + i) 0#8 = body.getD (before + i) 0#8 := by
  have hlen : requestHeaderLen ≤ (stream incoming).length := by
    rw [hcut, length_request]
    exact Nat.le_add_right _ _
  obtain ⟨before', f', hc', -, -, hpre⟩ := exists_completing (by norm_num) hlen
  rw [hc] at hc'
  obtain ⟨rfl, rfl⟩ := Prod.mk.inj (Option.some.inj hc')
  obtain ⟨rest, hrest⟩ := hpre
  rw [← List.getD_append _ rest _ _ hi, hrest, hcut, List.getD_eq_getElem?_getD, List.getElem?_drop,
    ← List.getD_eq_getElem?_getD, request]
  have hheader : (SendMessage.strncpy a.ip ++
      wordBytes (ntohl (BitVec.ofInt 32 (SendMessage.strtol (List.ofFn a.port)))) ++ wordBytes (ntohl command) ++
      wordBytes (ntohl (BitVec.ofNat 32 body.length))).length = requestHeaderLen := by
    simp only [List.length_append, length_strncpy, length_wordBytes]
  rw [List.getD_append_right _ _ _ _ (by omega), hheader]
  congr 1
  omega

/-- What is copied for the body. -/
theorem copied_eq (hcut : stream incoming = request a command body)
    (hc : completing requestHeaderLen incoming = some (before, f)) {n i : ℕ}
    (hi : i < n ∧ i < body.length ∨ i = body.length ∧ n ≤ i) :
    copied m (headerRead m incoming).2 n i = found m body before f i := by
  unfold copied found
  rcases hi with ⟨hn, hlt⟩ | ⟨rfl, hn⟩
  · rw [if_pos hn, if_neg (not_le.mpr hlt), headerRead, buf_readnb (by norm_num) hc (Nat.le_add_right _ _), fill]
    split_ifs with hreach
    · exact getD_completing hcut hc hreach
    · rfl
  · rw [if_neg (not_lt.mpr hn), if_pos le_rfl]

/-- The server has the command and the length of the request. -/
theorem handleServerRequest_eq (hcut : stream incoming = request a command body)
    (hfits : requestHeaderLen + body.length ≤ bufSize) :
    handleServerRequest m incoming =
      if command = 1 then .register (requestHeader m incoming).ip (requestHeader m incoming).port
      else if command = 2 then .retreive (copied m (headerRead m incoming).2 body.length)
      else if command = 3 then .inform (copied m (headerRead m incoming).2 peerAddressLen)
      else .ignored := by
  have hheader := requestHeader_eq m hcut
  have hcommand : (requestHeader m incoming).commandCode = command := by rw [hheader]
  have hsmall : 28 + body.length ≤ 8192 := hfits
  have hlength : (requestHeader m incoming).length.toNat = body.length := by
    rw [hheader, BitVec.toNat_ofNat, Nat.mod_eq_of_lt (by omega)]
  rw [handleServerRequest, hcommand, hlength]
  simp only [if_pos hfits]

/-- The name of a file. -/
theorem retreive_arrives_iff (hcut : stream incoming = request a Command.retreive.code body)
    (hfits : requestHeaderLen + body.length ≤ bufSize)
    (hc : completing requestHeaderLen incoming = some (before, f)) :
    ArrivesWhole body (handleServerRequest m incoming) ↔
      ∀ i ≤ (cString body).length, found m body before f i = body.getD i 0#8 := by
  have hle := length_cString_le body
  rw [handleServerRequest_eq hcut hfits]
  refine holdsString_iff.trans (forall₂_congr fun i hi => ?_)
  rw [copied_eq hcut hc (by omega)]

/-- The address of a peer. -/
theorem inform_arrives_iff (hcut : stream incoming = request a Command.inform.code body)
    (hfits : requestHeaderLen + body.length ≤ bufSize)
    (hc : completing requestHeaderLen incoming = some (before, f))
    (hlen : networkAddressLen ≤ body.length) :
    ArrivesWhole body (handleServerRequest m incoming) ↔
      ∀ i < networkAddressLen, found m body before f i = body.getD i 0#8 := by
  rw [handleServerRequest_eq hcut hfits]
  refine address_eq_iff.trans (forall₂_congr fun i hi => ?_)
  rw [copied_eq hcut hc (Or.inl ⟨hi.trans (by norm_num), hi.trans_le hlen⟩)]

/-- **A request body arrives whole** if and only if the server finds each of its bytes, and the zero behind a
string, where it looks for them. -/
theorem request_body_arrives_iff (hcut : stream incoming = request a command body)
    (hfits : requestHeaderLen + body.length ≤ bufSize)
    (hc : completing requestHeaderLen incoming = some (before, f)) :
    (command = Command.retreive.code → (ArrivesWhole body (handleServerRequest m incoming) ↔
      ∀ i ≤ (cString body).length, found m body before f i = body.getD i 0#8)) ∧
    (command = Command.inform.code → networkAddressLen ≤ body.length →
      (ArrivesWhole body (handleServerRequest m incoming) ↔
        ∀ i < networkAddressLen, found m body before f i = body.getD i 0#8)) := by
  constructor
  · rintro rfl
    exact retreive_arrives_iff hcut hfits hc
  · rintro rfl hlen
    exact inform_arrives_iff hcut hfits hc hlen

/-- **In one read**, with a zero behind it in the heap, a body arrives whole. -/
theorem found_one_read (hone : requestHeaderLen + body.length ≤ f.bytes.length) (hnul : m.heap body.length = 0#8)
    {i : ℕ} (hi : i ≤ body.length) : found m body 0 f i = body.getD i 0#8 := by
  unfold found
  rcases Nat.lt_or_eq_of_le hi with hlt | rfl
  · rw [if_neg (not_le.mpr hlt), if_pos (by omega), Nat.zero_add]
  · rw [if_pos le_rfl, hnul, List.getD_eq_default _ _ le_rfl]

/-! ### A file with a name of one letter -/

/-- The request for the file. -/
def letterRequest : List Byte := request Register.localPeer Command.retreive.code [116#8]

/-- Memory full of zeros. -/
def blank : Memory := ⟨fun _ => 0#8, fun _ => 0#8, fun _ => 0#8⟩

/-- The request in one read. -/
def whole : Fragment := ⟨letterRequest, by decide, by decide⟩

/-- **In one read** it arrives. -/
theorem request_body_arrives_letter : ArrivesWhole [116#8] (handleServerRequest blank [whole]) := by
  have hcut : stream [whole] = request Register.localPeer Command.retreive.code [116#8] := by decide
  have hc : completing requestHeaderLen [whole] = some (0, whole) := rfl
  exact ((request_body_arrives_iff hcut (by decide) hc).1 rfl).mpr
    fun i hi => found_one_read (by decide) rfl (hi.trans (length_cString_le _))

/-- The header. -/
def front : Fragment := ⟨letterRequest.take 28, by decide, by decide⟩

/-- The body. -/
def rear : Fragment := ⟨letterRequest.drop 28, by decide, by decide⟩

/-- **In two reads**, header and body, the name is not there yet. -/
theorem letter_in_a_later_read :
    stream [front, rear] = letterRequest ∧ ¬ ArrivesWhole [116#8] (handleServerRequest blank [front, rear]) := by
  have hcut : stream [front, rear] = request Register.localPeer Command.retreive.code [116#8] := by decide
  have hc : completing requestHeaderLen [front, rear] = some (0, front) := rfl
  refine ⟨hcut, fun h => ?_⟩
  have hletter := (retreive_arrives_iff hcut (by decide) hc).mp h 0 (Nat.zero_le _)
  exact absurd hletter (by decide)

end CompSys.A4.RequestBody
