import Mathlib.Data.List.TakeWhile
import CompSys.A4.Copies
import CompSys.A4.Peers
import CompSys.A4.Validity

/-! # Calls between peers of this program

What `send_message` makes of a reply of `handle_register`, of one of `handle_retreive`, and of none
(`ComesToNothing`): it reads a status that is not `STATUS_OK`, or a payload with another hash. And the name under which
`handle_register` lists a peer: its own (`name_register`). -/

namespace CompSys.A4.Peers

open CompSys.Lib.Bytes CompSys.A4.Wire CompSys.A4.SendMessage CompSys.A4.Network
open CompSys.A4.Listed (name)
open CompSys.A4.Register (handleRegister replyHeader)
open CompSys.A4.Recorded (recorded)
open CompSys.Lib.ScanNumbers (isDigit value)

/-! ### An exchange that comes to nothing -/

variable {x : Exchange} {n : PeerTable}

/-- **Nothing has come of an exchange**: no peer, and not a byte of a file. -/
structure ComesToNothing (x : Exchange) : Prop where
  file : (sendMessage x).file = x.outputFile
  list : ∀ n, recorded x n = n

/-- The first header is there when the loop begins. -/
theorem nextHeader_start (x : Exchange) : nextHeader x (start x) = start x := if_neg (lt_irrefl 0)

theorem step_start (hc : x.command ≠ .inform) (hcount : 0 < (start x).refCount.toNat) :
    step x (start x) = some (iteration x (start x)) := by
  have hloop : (start x).pc = .loop := if_neg hc
  rw [step, if_pos hloop]
  exact congrArg some (if_pos hcount)

/-- The loop ends in the first round. -/
theorem sendMessage_first (hc : x.command ≠ .inform) (hcount : 0 < (start x).refCount.toNat)
    (hend : (iteration x (start x)).pc ≠ .loop) : sendMessage x = iteration x (start x) := by
  rw [sendMessage, steps_succ (step_start hc hcount), steps_of_ended _ _ hend]

/-- There is no round. -/
theorem sendMessage_none (hc : x.command ≠ .inform) (hcount : (start x).refCount.toNat = 0) :
    sendMessage x = finish x (start x) := by
  have hloop : (start x).pc = .loop := if_neg hc
  have hstep : step x (start x) = some (finish x (start x)) := by
    rw [step, if_pos hloop]
    exact congrArg some (if_neg (by rw [hcount]; exact Nat.not_lt_zero _))
  rw [sendMessage, steps_succ hstep, steps_of_ended _ _ (finish_pc _ _)]

/-- **The first round gives the reply up.** -/
theorem comesToNothing_of_iteration (hc : x.command ≠ .inform) (hcount : 0 < (start x).refCount.toNat)
    {s : SendMessage.Client} {pc : At} (hgives : iteration x (start x) = { s with pc := pc })
    (hfile : s.file = x.outputFile) (hloop : pc ≠ .loop) (hnone : pc ≠ .returned none) : ComesToNothing x := by
  have hsend : sendMessage x = { s with pc := pc } := by
    rw [sendMessage_first hc hcount (by rw [hgives]; exact hloop), hgives]
  refine ⟨by rw [hsend]; exact hfile, fun n => if_neg fun h => hnone ?_⟩
  rw [hsend] at h
  exact h.1

/-- Of the first header only the status is checked. -/
theorem checkHeader_start (x : Exchange) : checkHeader x (start x) =
    if (start x).header.status ≠ statusOk ∧
      ¬ (x.command = .register ∧ (start x).header.status = statusPeerExists) then
      some (.status (start x).header.status)
    else none := by
  have hzero : (start x).b = 0 := rfl
  rw [checkHeader, if_neg (by omega), if_neg (by omega)]

/-- **A status that the client does not take**, in the first header. -/
theorem comesToNothing_of_status (hc : x.command ≠ .inform) (hstatus : (start x).header.status ≠ statusOk)
    (hexists : ¬ (x.command = .register ∧ (start x).header.status = statusPeerExists)) : ComesToNothing x := by
  rcases Nat.eq_zero_or_pos (start x).refCount.toNat with hzero | hpos
  · have hsend := sendMessage_none hc hzero
    have hfinish : (finish x (start x)).file = x.outputFile ∧ (finish x (start x)).header = (start x).header := by
      unfold finish
      split_ifs <;> exact ⟨rfl, rfl⟩
    refine ⟨by rw [hsend, hfinish.1], fun n => if_neg fun h => hstatus ?_⟩
    rw [← hfinish.2, ← hsend]
    exact h.2.1
  · have hcheck : checkHeader x (start x) = some (.status (start x).header.status) := by
      rw [checkHeader_start, if_pos ⟨hstatus, hexists⟩]
    have hgives : iteration x (start x) =
        { start x with pc := .returned (some (.status (start x).header.status)) } := by
      simp only [iteration, nextHeader_start, hcheck]
    exact comesToNothing_of_iteration hc hpos hgives rfl (by rintro ⟨⟩) (by rintro ⟨⟩)

/-- **A payload with another hash** in the first block of a reply to a register request. -/
theorem comesToNothing_of_payload (hc : x.command = .register) (hcount : 0 < (start x).refCount.toNat)
    (hstatus : (start x).header.status = statusOk)
    (hsha : shaOf x (payload (readPayload x (start x))) ≠ (start x).header.blockHash) : ComesToNothing x := by
  have hcommand : x.command ≠ .inform := by
    rw [hc]
    rintro ⟨⟩
  rcases iteration_cases x (start x) with ⟨e, -, he⟩ | ⟨-, ⟨hgives, -⟩ | ⟨-, ⟨hgives, -⟩ | ⟨-, heq⟩⟩⟩
  · rw [nextHeader_start, checkHeader_start, if_neg fun h => h.1 hstatus] at he
    cases he
  · exact comesToNothing_of_iteration hcommand hcount hgives rfl (by rintro ⟨⟩) (by rintro ⟨⟩)
  · exact comesToNothing_of_iteration hcommand hcount hgives rfl (by rintro ⟨⟩) (by rintro ⟨⟩)
  · rw [nextHeader_start] at heq
    exact absurd heq hsha

/-! ### The status that a client reads -/

/-- A word whose first byte is not zero is more than any status. -/
theorem netWord_large {buf : ℕ → Byte} {k : ℕ} (h : buf k ≠ 0#8) :
    netWord buf k ≠ statusOk ∧ netWord buf k ≠ statusPeerExists := by
  have hbyte : byteOf (ntohl (netWord buf k)) 0 = buf k := by
    rw [netWord, ntohl_ntohl]
    exact (byteOf_word _ _ _ _).1
  constructor
  · intro heq
    rw [heq] at hbyte
    exact h (hbyte.symm.trans (by decide))
  · intro heq
    rw [heq] at hbyte
    exact h (hbyte.symm.trans (by decide))

/-- **Without a reply** the client reads its own request, and the status is out of the ip. -/
theorem comesToNothing_of_nil (hc : x.command ≠ .inform) (hip : 7 ≤ (name x.myAddress).1.length)
    (hreply : x.reply = []) : ComesToNothing x := by
  have hlength : (strncpy x.myAddress.ip).length = 16 := ServerRequest.length_strncpy _
  have hrequest : x.request.getD 4 0#8 = ((List.ofFn x.myAddress.ip).takeWhile (· ≠ 0#8)).getD 4 0#8 := by
    rw [Exchange.request, List.append_assoc, List.append_assoc, List.append_assoc,
      List.getD_append _ _ _ _ (by omega), ServerRequest.getD_strncpy]
  have hlong : 4 < x.request.length := by
    rw [ServerRequest.request_eq, ServerRequest.length_request]
    exact Nat.lt_of_lt_of_le (by norm_num) (Nat.le_add_right _ _)
  have hbyte : ((start x).msgBuf 4).byte ≠ 0#8 := by
    have hread : (start x).msgBuf 4 = x.sent 4 := if_neg (by rw [hreply]; simp)
    have hip4 : 4 < ((List.ofFn x.myAddress.ip).takeWhile (· ≠ 0#8)).length := lt_of_lt_of_le (by norm_num) hip
    have hmem := List.mem_takeWhile_imp (List.getElem_mem hip4)
    rw [hread, Exchange.sent]
    dsimp only
    rw [if_pos hlong, hrequest, List.getD_eq_getElem _ _ hip4]
    simpa using hmem
  have hword : (start x).header.status = netWord (fun i => ((start x).msgBuf i).byte) 4 := rfl
  have hstatus := @netWord_large (fun i => ((start x).msgBuf i).byte) 4 hbyte
  rw [← hword] at hstatus
  exact comesToNothing_of_status hc hstatus.1 fun h => hstatus.2 h.2

/-- A byte of the first header, if it has been sent. -/
theorem byte_start {i : ℕ} (hi : i < x.reply.length) (hheader : i < replyHeaderLen) :
    ((start x).msgBuf i).byte = x.reply.getD i 0#8 := by
  show (readnb x.reply 0 replyHeaderLen x.sent i).byte = _
  rw [readnb, if_pos ⟨hheader, by omega⟩, Nat.zero_add]

/-- The status of a reply that is long enough to have one. -/
theorem start_status (hlong : 8 ≤ x.reply.length) :
    (start x).header.status = netWord (fun i => x.reply.getD i 0#8) 4 := by
  have hbyte : ∀ j < 4, ((start x).msgBuf (4 + j)).byte = x.reply.getD (4 + j) 0#8 := fun j hj =>
    byte_start (by omega) (show 4 + j < 80 by omega)
  have hword : (start x).header.status = netWord (fun i => ((start x).msgBuf i).byte) 4 := rfl
  rw [hword]
  exact RequestBody.netWord_inj.mpr hbyte

/-- **A reply of `handle_register` in the client's hands**: the header is whole, and the payload is what lies behind
it. -/
structure Receives (x : Exchange) : Prop where
  command : x.command = .register
  header : (start x).header = readHeader fun i => x.reply.getD i 0#8
  status : (start x).header.status = statusOk
  count : 0 < (start x).refCount.toNat
  length : x.reply.length = (start x).header.length.toNat + replyHeaderLen
  pos : (start x).pos = replyHeaderLen
  behind : (payload (readPayload x (start x))).map Cell.byte = x.reply.drop replyHeaderLen

theorem receives_handleRegister (hc : x.command = .register) {stack : ℕ → Byte} {l : List PeerAddress}
    (hreply : x.reply = handleRegister x.sha stack l) : Receives x := by
  have hx : Register.registering x stack l = x := by
    rw [Register.registering, ← hc, ← hreply]
  have hheader := Register.start_register x stack l
  rw [hx] at hheader
  have hlength : x.reply.length = (start x).header.length.toNat + replyHeaderLen := by
    rw [hreply, Register.length_handleRegister, hheader]
    exact congrArg (fun w : BitVec 32 => w.toNat + replyHeaderLen) (ntohl_ntohl _)
  have hcount : 0 < (start x).refCount.toNat := by
    have href : (start x).refCount = ntohl (replyHeader x.sha l).blockCount :=
      (congrArg ReplyHeader.blockCount hheader :)
    have hcases : (replyHeader x.sha l).blockCount = 1 ∨ (replyHeader x.sha l).blockCount = 2 :=
      ite_eq_or_eq _ _ _
    rw [href]
    rcases hcases with h | h
    · rw [h]; decide
    · rw [h]; decide
  have hsplit : x.reply = x.reply.take replyHeaderLen ++ (x.reply.drop replyHeaderLen ++ []) := by
    rw [List.append_nil, List.take_append_drop]
  have hpos : (start x).pos = replyHeaderLen := by
    show min (0 + replyHeaderLen) x.reply.length = replyHeaderLen
    omega
  have hpos' : (start x).pos = (x.reply.take replyHeaderLen).length := by
    rw [List.length_take, hpos]
    omega
  exact ⟨hc, readHeader_congr fun i hi => byte_start (by omega) hi, (congrArg ReplyHeader.status hheader :), hcount,
    hlength, hpos, (payload_middle (s := start x) hsplit hpos' (by rw [List.length_drop, hlength]; omega)).1⟩

/-- The hash that a client finds is not the one of the list. -/
theorem Receives.sha_ne (h : Receives x)
    (hplain : x.sha (x.reply.drop replyHeaderLen) ≠ (readHeader fun i => x.reply.getD i 0#8).blockHash) :
    shaOf x (payload (readPayload x (start x))) ≠ (start x).header.blockHash := by
  rw [shaOf, h.behind, h.header]
  exact hplain

/-- **The client does not wait** for more than such a reply, and gives it up if it fits into the buffer. -/
theorem Receives.returns (h : Receives x)
    (hplain : x.sha (x.reply.drop replyHeaderLen) ≠ (readHeader fun i => x.reply.getD i 0#8).blockHash)
    (hfits : x.reply.length ≤ replyHeaderLen + maxMsgLen) :
    waits x = false ∧ (sendMessage x).pc = .returned (some .payloadHash) := by
  have hcheck : checkHeader x (start x) = none := by
    rw [checkHeader_start, if_neg fun hst => hst.1 h.status]
  have hlength := h.length
  have hgives : iteration x (start x) = { readPayload x (start x) with pc := .returned (some .payloadHash) } := by
    rcases iteration_cases x (start x) with ⟨e, -, he⟩ | ⟨-, ⟨-, hlong⟩ | ⟨-, ⟨hgives, -⟩ | ⟨-, heq⟩⟩⟩
    · rw [nextHeader_start, hcheck] at he
      cases he
    · rw [nextHeader_start] at hlong
      omega
    · rwa [nextHeader_start] at hgives
    · rw [nextHeader_start] at heq
      exact absurd heq (h.sha_ne hplain)
  have hend : (iteration x (start x)).pc ≠ .loop := by
    rw [hgives]
    rintro ⟨⟩
  have hcommand : x.command ≠ .inform := by
    rw [h.command]
    rintro ⟨⟩
  refine ⟨?_, by rw [sendMessage_first hcommand h.count hend, hgives]⟩
  have hasks : asks x (start x) = false := by
    have hpos := h.pos
    have hzero : (start x).b = 0 := rfl
    have henough : ¬ x.reply.length < (start x).pos + (start x).header.length.toNat := by omega
    rw [asks, nextHeader_start, hzero]
    simp only [lt_irrefl, decide_false, Bool.false_and, Bool.false_or, henough, Bool.and_false]
  have hlater : asksWithin x (start x).refCount.toNat (iteration x (start x)) = false := by
    cases (start x).refCount.toNat with
    | zero => rfl
    | succ k => simp only [asksWithin, hend, decide_false, Bool.false_and, Bool.false_or, step, if_false]
  have hwhole : ¬ x.reply.length < replyHeaderLen := by omega
  rw [waits, asksWithin, hasks, Bool.and_false, Bool.false_or, step_start hcommand h.count]
  simp only [hwhole, decide_false, Bool.false_or, hlater]

/-- **A reply to a retrieve request**, if there is no `STATUS_OK` where the client looks for it. -/
theorem comesToNothing_of_file (hc : x.command = .retreive) (hip : 7 ≤ (name x.myAddress).1.length)
    (hreply : x.reply = [] ∨ x.reply.length = 36)
    (hplain : netWord (fun i => x.reply.getD i 0#8) 4 ≠ statusOk) : ComesToNothing x := by
  have hcommand : x.command ≠ .inform := by
    rw [hc]
    rintro ⟨⟩
  rcases hreply with hnil | hlen
  · exact comesToNothing_of_nil hcommand hip hnil
  · rw [← start_status (by omega)] at hplain
    exact comesToNothing_of_status hcommand hplain fun h => by
      rw [hc] at h
      cases h.1

/-! ### The name of a peer that registers -/

theorem digit_bounds {n : ℕ} {d : Char} (hd : d ∈ Nat.toDigits 10 n) : 48 ≤ d.toNat ∧ d.toNat ≤ 57 := by
  have hdigit := Nat.isDigit_of_mem_toDigits (by norm_num) le_rfl hd
  simp only [Char.isDigit, Bool.and_eq_true, decide_eq_true_eq, UInt32.le_iff_toNat_le] at hdigit
  exact hdigit

theorem isDigit_decimal (n : ℕ) : ∀ c ∈ decimal n, isDigit c = true := by
  intro c hc
  obtain ⟨d, hd, rfl⟩ := List.mem_map.mp hc
  obtain ⟨hlow, hhigh⟩ := digit_bounds hd
  simp [isDigit, BitVec.le_def, Nat.mod_eq_of_lt (show d.toNat < 256 by omega), hlow, hhigh]

theorem ne_zero_of_isDigit {c : Byte} (h : isDigit c = true) : c ≠ 0#8 := by
  rintro rfl
  exact absurd h (by decide)

/-- A digit is neither white space nor a sign. -/
theorem spaces_of_isDigit {c : Byte} (h : isDigit c = true) : isSpace c = false ∧ c ≠ 45#8 ∧ c ≠ 43#8 := by
  revert c
  decide

/-- The digits of a number have its value. -/
theorem value_decimal (n : ℕ) : value (decimal n) = n := by
  have hdigits : (Nat.toDigits 10 n).foldl (fun v d => 10 * v + ((BitVec.ofNat 8 d.toNat).toNat - 48)) 0 =
      Nat.ofDigitChars 10 (Nat.toDigits 10 n) 0 := by
    rw [Nat.ofDigitChars_eq_foldl]
    refine List.foldl_ext _ _ _ fun v d hd => ?_
    rw [BitVec.toNat_ofNat, Nat.mod_eq_of_lt (Nat.lt_of_le_of_lt (digit_bounds hd).2 (by norm_num))]
    rfl
  rw [decimal, value, List.foldl_map, hdigits, Nat.ofDigitChars_ten_toDigits]

/-- `strtol` of a field with a decimal number. -/
theorem strtol_field {s : List Byte} {n : ℕ} (h : s.takeWhile (· ≠ 0#8) = decimal n) : strtol s = n := by
  cases s with
  | nil => exact absurd (List.map_eq_nil_iff.mp h.symm) Nat.toDigits_ne_nil
  | cons c cs =>
    have hc : isDigit c = true := by
      by_cases hz : c = 0#8
      · rw [hz, List.takeWhile_cons_of_neg (by simp)] at h
        exact absurd (List.map_eq_nil_iff.mp h.symm) Nat.toDigits_ne_nil
      · rw [List.takeWhile_cons_of_pos (by simpa using hz)] at h
        exact isDigit_decimal n c (h ▸ List.mem_cons_self)
    have hsplit : (c :: cs).takeWhile isDigit = decimal n := by
      have hboth : (c :: cs).takeWhile isDigit = ((c :: cs).takeWhile (· ≠ 0#8)).takeWhile isDigit := by
        rw [List.takeWhile_takeWhile]
        congr 1
        funext d
        by_cases hd : isDigit d = true
        · simp [hd, ne_zero_of_isDigit hd]
        · simp [hd]
      rw [hboth, h, List.takeWhile_eq_self_iff]
      exact isDigit_decimal n
    have hspace : isSpace c = false ∧ c ≠ 45#8 ∧ c ≠ 43#8 := spaces_of_isDigit hc
    rw [strtol, List.dropWhile_cons_of_neg (by rw [hspace.1]; exact Bool.false_ne_true)]
    simp only [if_neg hspace.2.1, if_neg hspace.2.2]
    rw [Validity.digits_eq, hsplit]
    exact congrArg _ (value_decimal n)

/-- A string in front of a NUL. -/
theorem takeWhile_string {s rest : List Byte} (h : ∀ c ∈ s, c ≠ 0#8) :
    (s ++ 0#8 :: rest).takeWhile (· ≠ 0#8) = s := by
  rw [List.takeWhile_append_of_pos (by simpa using h), List.takeWhile_cons_of_neg (by simp), List.append_nil]

/-- The copy of an ip in a request is the same string. -/
theorem takeWhile_strncpy (ip : Fin 16 → Byte) :
    (strncpy ip).takeWhile (· ≠ 0#8) = (List.ofFn ip).takeWhile (· ≠ 0#8) := by
  have hne : ∀ c ∈ (List.ofFn ip).takeWhile (· ≠ 0#8), c ≠ 0#8 := fun c hc => by
    simpa using List.mem_takeWhile_imp hc
  rw [strncpy]
  cases ipLen - ((List.ofFn ip).takeWhile (· ≠ 0#8)).length with
  | zero =>
    rw [List.replicate_zero, List.append_nil, List.takeWhile_eq_self_iff]
    exact fun c hc => decide_eq_true (hne c hc)
  | succ k => rw [List.replicate_succ, takeWhile_string hne]

/-- `sprintf` of a port gives its digits, whatever was there before. -/
theorem takeWhile_formatPort {n : ℕ} (hn : n < 65536) (before : Fin 8 → Byte) :
    (List.ofFn (formatPort before (BitVec.ofInt 32 (n : ℤ)))).takeWhile (· ≠ 0#8) = decimal n := by
  have hnumber : (BitVec.ofInt 32 (n : ℤ)).toInt = n := by
    rw [BitVec.toInt_ofInt]
    exact Int.bmod_eq_of_le (by omega) (by omega)
  have hformat : formatInt n = decimal n ++ [0#8] := by
    rw [formatInt, if_neg (by omega), Int.natAbs_natCast]
  have hlong : (decimal n ++ [0#8]).length ≤ 8 := by
    have hdigits := (Copies.length_decimal_le (n := n) (k := 5) (by norm_num)).mpr (by omega)
    rw [List.length_append, List.length_singleton]
    omega
  have htake : (List.ofFn (formatPort before (BitVec.ofInt 32 (n : ℤ)))).take (decimal n ++ [0#8]).length =
      decimal n ++ [0#8] := by
    refine List.ext_getElem (by rw [List.length_take, List.length_ofFn, min_eq_left hlong]) fun i _ hi => ?_
    rw [List.getElem_take, List.getElem_ofFn]
    simp only [formatPort, hnumber, hformat, List.get_eq_getElem]
    rw [dif_pos hi]
  rw [← List.take_append_drop (decimal n ++ [0#8]).length (List.ofFn _), htake, List.append_assoc,
    List.singleton_append]
  exact takeWhile_string fun c hc => ne_zero_of_isDigit (isDigit_decimal n c hc)

/-- **A peer is listed under its own name**: `handle_register` copies the ip, and prints the port again. -/
theorem name_register {a : PeerAddress} (ha : a.WellFormed) (before : Fin 8 → Byte) :
    name (Request.register (fun i => (strncpy a.ip).getD i 0#8) (BitVec.ofInt 32 (strtol (List.ofFn a.port)))
      before).peer = name a := by
  obtain ⟨-, n, hn, hport⟩ := ha
  have hip : List.ofFn (fun i : Fin 16 => (strncpy a.ip).getD i 0#8) = strncpy a.ip := by
    refine List.ext_getElem (by rw [List.length_ofFn, ServerRequest.length_strncpy]) fun i _ hi => ?_
    rw [List.getElem_ofFn, List.getD_eq_getElem _ _ hi]
  rw [strtol_field hport, Request.peer, name, name, hip, takeWhile_strncpy, takeWhile_formatPort (by omega), hport]

end CompSys.A4.Peers
