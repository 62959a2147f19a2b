import CompSys.A4.Copies

/-! # What the client copies

Every copy that `send_message` makes between buffers while it takes a reply, step by step. The length of a
block, the port of a listed address and the size that the output file grows to come from the peer; the code
checks none of them. So the copies stay inside if and only if every step of the run meets lengths that fit
(`sent_inside_iff`); with the server's (`Copies`), no byte stream can do harm if and only if its lengths and
ports fit (`copies_inside_iff`).

The client reads through the buffered reader, too, and what `SendMessage` says that it reads is what the
reader returns (`readnb_refines`, `unread_step`). -/

namespace CompSys.A4.CopyBounds

open CompSys.Lib.Runs CompSys.A4.Wire CompSys.A4.SendMessage CompSys.A4.ReadBuffer CompSys.A4.ServerRequest
open CompSys.A4.Copies

/-- An exchange with a reply that comes in these reads. -/
def receiving (x : Exchange) (incoming : List Fragment) : Exchange := { x with reply := stream incoming }

/-! ### The copies -/

/-- The reader when the header of the next block has been read. -/
def headerReader (s : Client) (r : Reader) : Reader := if 0 < s.b then (readnb r replyHeaderLen).2 else r

/-- The reader after an iteration. A length from `2^31` on is not one that it takes; but then the payload is
copied over the end of `msg_buf`. -/
def readerAfter (x : Exchange) (s : Client) (r : Reader) : Reader :=
  (readnb (headerReader s r) (nextHeader x s).header.length.toNat).2

/-- The size of `payload`, and of what is allocated for `reply_body`: `reply_length + 1`. -/
def roomFor (length : BitVec 32) : ℕ := (length + 1).toNat

/-- `reply_header`, `block_hash` and `total_hash`. -/
def headerCopies : List Copy :=
  [⟨maxMsgLen, replyHeaderLen, replyHeaderLen⟩, ⟨replyHeaderLen - 16, 32, 32⟩, ⟨replyHeaderLen - 48, 32, 32⟩]

/-- What is read of a payload as a string, up to the NUL that the code has put behind it. -/
def textCopy (s : Client) : Copy :=
  ⟨s.header.length.toNat, (cString (payload s)).length, (cString (payload s)).length⟩

/-- The copies of an iteration. -/
def iterationCopies (x : Exchange) (s : Client) (r : Reader) : List Copy :=
  (if 0 < s.b then readCopies maxMsgLen replyHeaderLen replyHeaderLen r ++ headerCopies else []) ++
    match checkHeader x (nextHeader x s) with
    | some _ => []
    | none =>
      let length := (nextHeader x s).header.length
      let read := readPayload x (nextHeader x s)
      readCopies maxMsgLen length.toNat length.toNat (headerReader s r) ++
        ⟨maxMsgLen, roomFor length, length.toNat⟩ :: .field length.toNat ::
        if shaOf x (payload read) = read.header.blockHash ∧ x.command = .retreive then [textCopy read] else []

/-- `casc_file_size`, an `int`. -/
def fileSize (file : List Byte) : ℤ := (BitVec.ofNat 32 file.length).toInt

/-- `fread` in `get_file_sha`: all of the file, if the size is negative. -/
def fileCopy (file : List Byte) : Copy :=
  if 0 ≤ fileSize file then ⟨file.length, (fileSize file).toNat, (fileSize file).toNat⟩
  else ⟨file.length, 0, file.length⟩

/-- The copies after the loop. `reply_body` is filled from `msg_buf` again. -/
def finishCopies (x : Exchange) (s : Client) : List Copy :=
  (if x.command = .retreive then [fileCopy s.file] else []) ++
    if x.command = .retreive ∧ x.sha s.file ≠ s.header.totalHash then []
    else
      ⟨maxMsgLen, roomFor s.header.length, s.header.length.toNat⟩ ::
      if s.header.status = statusOk then
        if x.command = .register then
          recordCopies s.header.length.toNat fun i => (replyBody x s i).byte
        else []
      else [textCopy s]

/-- The copies of a step. -/
def stepCopies (x : Exchange) (s : Client) (r : Reader) : List Copy :=
  if s.b < s.refCount.toNat then iterationCopies x s r else finishCopies x s

/-- The copies of up to `n` steps. -/
def stepsCopies (x : Exchange) : ℕ → Client → Reader → List Copy
  | 0, _, _ => []
  | n + 1, s, r => match step x s with
    | some s' => stepCopies x s r ++ stepsCopies x n s' (readerAfter x s r)
    | none => []

/-- The path of the output file, and the request in `msg_buf`. -/
def requestCopies (x : Exchange) : List Copy :=
  (if x.command = .retreive then [.field (x.requestBody.length + 1)] else []) ++
    [.field ipLen, ⟨requestHeaderLen, maxMsgLen, requestHeaderLen⟩,
      ⟨x.requestBody.length, maxMsgLen - requestHeaderLen, x.requestBody.length⟩]

/-- **The copies of `send_message`**, with what the reader's buffer holds at first, and the reads that the
reply comes in. -/
def sentCopies (x : Exchange) (buf : ℕ → Byte) (incoming : List Fragment) : List Copy :=
  requestCopies x ++
    if x.command = .inform then []
    else
      readCopies maxMsgLen replyHeaderLen replyHeaderLen (readinitb buf incoming) ++ headerCopies ++
        .field 32 :: stepsCopies (receiving x incoming) ((start (receiving x incoming)).refCount.toNat + 1)
          (start (receiving x incoming)) (readnb (readinitb buf incoming) replyHeaderLen).2

/-- **What a step meets fits**: a payload that is read into `msg_buf`; the output file, of which the size is
an `int`; and a peer, of which the address is in the payload, and the port has at most seven characters. -/
def StepFits (x : Exchange) (s : Client) : Prop :=
  if s.b < s.refCount.toNat then
    checkHeader x (nextHeader x s) = none → (nextHeader x s).header.length.toNat ≤ maxMsgLen
  else
    (x.command = .retreive → s.file.length % 2 ^ 32 < 2 ^ 31) ∧
    (¬ (x.command = .retreive ∧ x.sha s.file ≠ s.header.totalHash) →
      s.header.length.toNat ≤ maxMsgLen ∧
      (s.header.status = statusOk → x.command = .register →
        networkAddressLen ≤ s.header.length.toNat ∧
        PortFits (netWord (fun i => (replyBody x s i).byte) ipLen)))

/-! ### One step -/

variable {x : Exchange} {s s' : Client} {r : Reader}

theorem headerCopies_inside : Inside headerCopies := by
  simp only [headerCopies, inside_cons, inside_mk, inside_nil]
  decide

/-- A payload as a whole. -/
theorem payload_inside (length : BitVec 32) :
    Copy.Inside ⟨maxMsgLen, roomFor length, length.toNat⟩ ↔ length.toNat ≤ maxMsgLen := by
  rw [inside_mk, roomFor, BitVec.toNat_add, show (1 : BitVec 32).toNat = 1 from rfl]
  refine and_iff_left_of_imp fun hle => ?_
  have hsmall : length.toNat ≤ 8196 := hle
  omega

theorem textCopy_inside (s : Client) : (textCopy s).Inside := by
  have hle := (List.takeWhile_prefix (fun c : Cell => c.byte ≠ 0#8) (l := payload s)).length_le
  rw [payload, List.length_map, List.length_range] at hle
  exact ⟨hle, le_rfl⟩

theorem fileCopy_inside (file : List Byte) : (fileCopy file).Inside ↔ file.length % 2 ^ 32 < 2 ^ 31 := by
  have htoNat : (BitVec.ofNat 32 file.length).toNat = file.length % 2 ^ 32 := BitVec.toNat_ofNat _ _
  have hint := BitVec.toInt_eq_toNat_cond (BitVec.ofNat 32 file.length)
  rw [htoNat] at hint
  have hmod := Nat.mod_le file.length (2 ^ 32)
  unfold fileCopy fileSize
  rw [hint]
  split_ifs with hsize hneg hneg
  all_goals
    rw [inside_mk]
    omega

theorem iterationCopies_inside (x : Exchange) (s : Client) (r : Reader) : Inside (iterationCopies x s r) ↔
    (checkHeader x (nextHeader x s) = none → (nextHeader x s).header.length.toNat ≤ maxMsgLen) := by
  have hfront : Inside
      (if 0 < s.b then readCopies maxMsgLen replyHeaderLen replyHeaderLen r ++ headerCopies else []) := by
    split_ifs
    · exact inside_append.mpr ⟨readCopies_inside (by norm_num) _ _, headerCopies_inside⟩
    · exact inside_nil
  rw [iterationCopies, inside_append, and_iff_right hfront]
  cases hc : checkHeader x (nextHeader x s) with
  | some e => exact iff_of_true inside_nil nofun
  | none =>
    simp only [inside_append, inside_cons, payload_inside, inside_field, true_and, forall_const]
    constructor
    · exact fun h => h.2.1
    · refine fun hle => ⟨readCopies_inside hle _ _, hle, ?_⟩
      split_ifs
      · exact inside_cons.mpr ⟨textCopy_inside _, inside_nil⟩
      · exact inside_nil

theorem finishCopies_inside (x : Exchange) (s : Client) : Inside (finishCopies x s) ↔
    (x.command = .retreive → s.file.length % 2 ^ 32 < 2 ^ 31) ∧
    (¬ (x.command = .retreive ∧ x.sha s.file ≠ s.header.totalHash) →
      s.header.length.toNat ≤ maxMsgLen ∧
      (s.header.status = statusOk → x.command = .register →
        networkAddressLen ≤ s.header.length.toNat ∧
        PortFits (netWord (fun i => (replyBody x s i).byte) ipLen))) := by
  rw [finishCopies, inside_append]
  refine and_congr ?_ ?_
  · split_ifs with hc
    · rw [inside_cons, fileCopy_inside, and_iff_left inside_nil, forall_prop_of_true hc]
    · exact iff_of_true inside_nil fun h => absurd h hc
  · split_ifs with hsha hstatus hc
    · exact iff_of_true inside_nil fun h => absurd hsha h
    · rw [inside_cons, payload_inside, recordCopies_inside, forall_prop_of_true hsha, forall_prop_of_true hstatus,
        forall_prop_of_true hc]
    · rw [inside_cons, payload_inside, and_iff_left inside_nil, forall_prop_of_true hsha]
      exact (and_iff_left fun _ h => absurd h hc).symm
    · rw [inside_cons, payload_inside, inside_cons, and_iff_left ⟨textCopy_inside s, inside_nil⟩,
        forall_prop_of_true hsha]
      exact (and_iff_left fun h => absurd h hstatus).symm

/-- **The copies of a step** stay inside if and only if what it meets fits. -/
theorem stepCopies_inside (x : Exchange) (s : Client) (r : Reader) :
    Inside (stepCopies x s r) ↔ StepFits x s := by
  unfold stepCopies StepFits
  split_ifs
  · exact iterationCopies_inside x s r
  · exact finishCopies_inside x s

/-! ### A run -/

theorem stepsCopies_inside (n : ℕ) (s : Client) (r : Reader) : Inside (stepsCopies x n s r) ↔
    ∀ k < n, (steps x k s).pc = .loop → StepFits x (steps x k s) := by
  induction n generalizing s r with
  | zero => exact iff_of_true inside_nil fun k hk => absurd hk (Nat.not_lt_zero k)
  | succ n ih =>
    cases hs : step x s with
    | none =>
      have hend : s.pc ≠ .loop := by
        intro hpc
        rw [step, if_pos hpc] at hs
        cases hs
      simp only [stepsCopies, hs]
      exact iff_of_true inside_nil fun k _ hpc => absurd (steps_of_ended x k hend ▸ hpc) hend
    | some s' =>
      have hloop : s.pc = .loop := by
        by_contra hend
        rw [step, if_neg hend] at hs
        cases hs
      simp only [stepsCopies, hs]
      rw [inside_append, stepCopies_inside, ih]
      constructor
      · rintro ⟨hfirst, hrest⟩ k hk hpc
        cases k with
        | zero => exact hfirst
        | succ k =>
          rw [steps_succ hs] at hpc ⊢
          exact hrest k (by omega) hpc
      · intro hall
        refine ⟨hall 0 (Nat.succ_pos n) hloop, fun k hk hpc => ?_⟩
        have hnext := hall (k + 1) (by omega)
        rw [steps_succ hs] at hnext
        exact hnext hpc

/-- The states on the way, counted. -/
theorem reached_iff : (∀ k < (start x).refCount.toNat + 1,
      (steps x k (start x)).pc = .loop → StepFits x (steps x k (start x))) ↔
    ∀ s, Reached x s → s.pc = .loop → StepFits x s := by
  constructor
  · rintro hall s ⟨k, hk⟩ hpc
    rw [← steps_eq hk] at hpc ⊢
    refine hall k ?_ hpc
    by_contra hlate
    exact steps_ends (n := k) (by show (start x).refCount.toNat - 0 < k; omega) hpc
  · exact fun hall k _ hpc => hall _ (reached_steps k (reached_start x)) hpc

/-- **The client's copies stay inside** if and only if every step of the run meets lengths that fit. -/
theorem sent_inside_iff (hbody : x.requestBody.length ≤ maxMsgLen - requestHeaderLen) (buf : ℕ → Byte)
    (incoming : List Fragment) : Inside (sentCopies x buf incoming) ↔
      ∀ s, Reached (receiving x incoming) s → s.pc = .loop → StepFits (receiving x incoming) s := by
  have hrequest : Inside (requestCopies x) := by
    rw [requestCopies, inside_append]
    have hmessage : Inside [.field ipLen, ⟨requestHeaderLen, maxMsgLen, requestHeaderLen⟩,
        ⟨x.requestBody.length, maxMsgLen - requestHeaderLen, x.requestBody.length⟩] := by
      simp only [inside_cons, inside_field, inside_mk, inside_nil, le_refl, true_and, and_true]
      exact ⟨by decide, hbody⟩
    refine ⟨?_, hmessage⟩
    split_ifs
    · exact inside_cons.mpr ⟨inside_field _, inside_nil⟩
    · exact inside_nil
  rw [sentCopies, inside_append, and_iff_right hrequest]
  split_ifs with hc
  · refine iff_of_true inside_nil ?_
    have hend : (start (receiving x incoming)).pc = .returned none := if_pos hc
    rintro s ⟨k, hk⟩ hpc
    rw [← steps_eq hk, steps_of_ended _ _ (by rw [hend]; rintro ⟨⟩), hend] at hpc
    cases hpc
  · have hfirst : Inside (readCopies maxMsgLen replyHeaderLen replyHeaderLen (readinitb buf incoming) ++
        headerCopies) :=
      inside_append.mpr ⟨readCopies_inside (by norm_num) _ _, headerCopies_inside⟩
    rw [inside_append, and_iff_right hfirst, inside_cons, and_iff_right (inside_field _), stepsCopies_inside,
      reached_iff]

/-- **Untrusted lengths cannot overrun buffers** if and only if they fit: in the steps of the run of
`send_message` that a reply leads to, and in a request. -/
theorem copies_inside_iff (hbody : x.requestBody.length ≤ maxMsgLen - requestHeaderLen) (buf : ℕ → Byte)
    (reply : List Fragment) (m : Memory) (request : List Fragment) (peers : ℕ) :
    (Inside (sentCopies x buf reply) ↔
      ∀ s, Reached (receiving x reply) s → s.pc = .loop → StepFits (receiving x reply) s) ∧
    (Inside (handledCopies m request peers) ↔ RequestFits m request peers) :=
  ⟨sent_inside_iff hbody buf reply, handled_inside_iff m request peers⟩

/-! ### The client and its reader -/

/-- **What the client reads** is what the reader returns. -/
theorem readnb_refines {reply : List Byte} {pos : ℕ} (h : r.unread = reply.drop pos) (n : ℕ) (buf : ℕ → Cell)
    (i : ℕ) :
    (SendMessage.readnb reply pos n buf i).byte = fill (ReadBuffer.readnb r n).1 (fun i => (buf i).byte) i := by
  rw [(readnb_spec r n).1, h, SendMessage.readnb, fill, List.length_take, List.length_drop]
  by_cases hi : i < n ∧ pos + i < reply.length
  · rw [if_pos hi, if_pos (by omega), List.getD_eq_getElem?_getD, List.getD_eq_getElem?_getD,
      List.getElem?_take_of_lt hi.1, List.getElem?_drop]
  · rw [if_neg hi, if_neg (by omega)]

/-- What the reader has not returned yet is what the client has not read. -/
theorem unread_readnb {reply : List Byte} {pos : ℕ} (h : r.unread = reply.drop pos) (n : ℕ) :
    (ReadBuffer.readnb r n).2.unread = reply.drop (advance reply pos n) := by
  rw [(readnb_spec r n).2, h, List.drop_drop, advance]
  rcases Nat.le_total (pos + n) reply.length with hle | hge
  · rw [min_eq_left hle]
  · rw [min_eq_right hge, List.drop_length, List.drop_eq_nil_of_le hge]

/-- **The reader keeps up**: after a step that goes on, it is where the client is. -/
theorem unread_step (h : r.unread = x.reply.drop s.pos) (hstep : step x s = some s') (hgoes : s'.pc = .loop) :
    (readerAfter x s r).unread = x.reply.drop s'.pos := by
  have hpc : s.pc = .loop := by
    by_contra hend
    rw [step, if_neg hend] at hstep
    cases hstep
  rw [step, if_pos hpc] at hstep
  have hheader : (headerReader s r).unread = x.reply.drop (nextHeader x s).pos := by
    unfold headerReader nextHeader
    split_ifs
    · exact unread_readnb h replyHeaderLen
    · exact h
  have hpayload : (readerAfter x s r).unread = x.reply.drop (readPayload x (nextHeader x s)).pos :=
    unread_readnb hheader _
  split_ifs at hstep with hb
  · obtain rfl := Option.some.inj hstep
    rcases iteration_cases x s with ⟨e, he, -⟩ | ⟨-, ⟨he, -⟩ | ⟨-, ⟨he, -⟩ | ⟨he, -⟩⟩⟩
    · rw [he] at hgoes; cases hgoes
    · rw [he] at hgoes; cases hgoes
    · rw [he] at hgoes; cases hgoes
    · obtain ⟨-, -, -, -, hpos, -⟩ := takeBlock_frame x (readPayload x (nextHeader x s))
      rw [he, hpos, hpayload]
  · obtain rfl := Option.some.inj hstep
    exact absurd hgoes (finish_pc x s)

/-! ### Ports of four and of eight digits -/

/-- A register request, from a port of any eight bytes. -/
def registerFrom (port : Fin 8 → Byte) : Fragment :=
  ⟨request ⟨Register.localPeer.ip, port⟩ 1 [], by rw [length_request]; decide, by rw [length_request]; decide⟩

theorem requestHeader_registerFrom (port : Fin 8 → Byte) :
    (requestHeader RequestBody.blank [registerFrom port]).commandCode = 1 ∧
      (requestHeader RequestBody.blank [registerFrom port]).port = BitVec.ofInt 32 (strtol (List.ofFn port)) := by
  have hcut : stream [registerFrom port] = request ⟨Register.localPeer.ip, port⟩ 1 [] := List.append_nil _
  rw [requestHeader_eq RequestBody.blank hcut]
  exact ⟨rfl, rfl⟩

/-- **Port 8000** fits. -/
theorem copies_inside_local :
    Inside (handledCopies RequestBody.blank [registerFrom Register.localPeer.port] 1) := by
  obtain ⟨hcommand, hport⟩ := requestHeader_registerFrom Register.localPeer.port
  refine (copies_inside_iff
    (x := ⟨fun _ _ => 0#8, .register, [], Register.localPeer, fun _ => 0#8, fun _ => 0#8, [], []⟩) (by decide)
    (fun _ => 0#8) [] _ _ _).2.mpr ⟨fun _ => ⟨by decide, ?_⟩, fun h => ?_, fun h => ?_⟩
  · rw [hport]
    decide
  · exact absurd (hcommand.symm.trans h) (by decide)
  · exact absurd (hcommand.symm.trans h) (by decide)

/-- **Port 99999999** is written over the end of its field. -/
theorem long_port_overruns : ¬ Inside (handledCopies RequestBody.blank [registerFrom fun _ => 57#8] 1) := by
  intro h
  obtain ⟨hcommand, hport⟩ := requestHeader_registerFrom fun _ => 57#8
  obtain ⟨-, hfits⟩ := ((handled_inside_iff _ _ _).mp h).register hcommand
  rw [hport] at hfits
  exact absurd hfits (by decide)

end CompSys.A4.CopyBounds
