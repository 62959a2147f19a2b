import CompSys.A4.Wire
import CompSys.Lib.Runs

/-! # The client's side of an exchange (`send_message` in `A4/src/peer.c`)

From the request on: the header and the blocks of the reply, the output file, and the address that a
reply to a register request gives. The peer's whole reply is a list of bytes, after which its end of the
connection is closed.

A byte in memory carries the place in the reply that it was read from (`Cell`). It has no influence on
what the code does. -/

namespace CompSys.A4.SendMessage

open CompSys.Lib.Bytes CompSys.Lib.Runs CompSys.A4.Wire

/-- A byte, and where in the reply it comes from. -/
structure Cell where
  byte : Byte
  origin : Option ℕ
  deriving DecidableEq

/-- What a call of `send_message` is given: its arguments and globals, the memory it finds, and what the
peer sends. `requestBody` is the string without its NUL; `stack` is what `msg_buf` holds at first, `heap`
what is found in and after the memory that `malloc` returns; `outputFile` is the file to write. -/
structure Exchange where
  sha : List Byte → Hash
  command : Command
  requestBody : List Byte
  myAddress : PeerAddress
  stack : ℕ → Byte
  heap : ℕ → Byte
  outputFile : List Byte
  reply : List Byte

/-- `isspace`. -/
def isSpace (c : Byte) : Bool := c = 32#8 || (9#8 ≤ c && c ≤ 13#8)

/-- The value of the leading decimal digits, after `acc`. -/
def digits (acc : ℕ) : List Byte → ℕ
  | [] => acc
  | c :: cs => if 48#8 ≤ c ∧ c ≤ 57#8 then digits (10 * acc + (c.toNat - 48)) cs else acc

/-- `strtol` to base 10, and `atoi`. -/
def strtol (s : List Byte) : ℤ :=
  match s.dropWhile isSpace with
  | [] => 0
  | c :: cs => if c = 45#8 then -digits 0 cs else if c = 43#8 then digits 0 cs else digits 0 (c :: cs)

/-- `strncpy` of all 16 bytes: what follows a NUL becomes NUL. -/
def strncpy (ip : Fin 16 → Byte) : List Byte :=
  let s := (List.ofFn ip).takeWhile (· ≠ 0#8)
  s ++ List.replicate (ipLen - s.length) 0#8

/-- The request in `msg_buf`. -/
def Exchange.request (x : Exchange) : List Byte :=
  strncpy x.myAddress.ip ++ wordBytes (ntohl (BitVec.ofInt 32 (strtol (List.ofFn x.myAddress.port)))) ++
    wordBytes (ntohl x.command.code) ++ wordBytes (ntohl (BitVec.ofNat 32 x.requestBody.length)) ++
    x.requestBody

/-- `msg_buf` when the request has been sent. -/
def Exchange.sent (x : Exchange) : ℕ → Cell := fun i =>
  ⟨if i < x.request.length then x.request.getD i 0#8 else x.stack i, none⟩

/-- `compsys_helper_readnb`: up to `n` bytes from place `pos` of the reply, fewer at its end. No caller
looks at how many it read. -/
def readnb (reply : List Byte) (pos n : ℕ) (buf : ℕ → Cell) : ℕ → Cell := fun i =>
  if i < n ∧ pos + i < reply.length then ⟨reply.getD (pos + i) 0#8, some (pos + i)⟩ else buf i

/-- The place in the reply after a read. -/
def advance (reply : List Byte) (pos n : ℕ) : ℕ := min (pos + n) reply.length

/-- Why `send_message` gives up. -/
inductive Error
  /-- "Got inconsistent block counts between blocks" -/
  | blockCounts
  /-- "Got inconsistent total hashes between blocks" -/
  | totalHashes
  /-- "Got unexpected status %d" -/
  | status (code : BitVec 32)
  /-- "Payload hash does not match specified" -/
  | payloadHash
  /-- "File hash does not match specified for %s" -/
  | fileHash
  deriving DecidableEq

/-- Where `send_message` is. -/
inductive At
  /-- At the test of the `for` over the blocks. -/
  | loop
  | returned (e : Option Error)
  /-- `msg_buf` has been read or written past its end: what follows is undefined. -/
  | overrun
  deriving DecidableEq

/-- A block whose payload has the right hash, and where its header starts in the reply. -/
structure Block where
  pos : ℕ
  header : ReplyHeader
  payload : List Cell

/-- What goes into the network list or the output file, and the block it is taken for: the last one. -/
structure Use where
  block : Option Block
  cells : List Cell

/-- The variables of `send_message`. -/
structure Client where
  pc : At
  msgBuf : ℕ → Cell
  /-- The bytes of the reply that have been read. -/
  pos : ℕ
  /-- `reply_length` to `total_hash`. -/
  header : ReplyHeader
  /-- Where the header starts in the reply. -/
  headerPos : ℕ
  refHash : Hash
  refCount : BitVec 32
  b : ℕ
  file : List Byte
  /-- The blocks so far. -/
  blocks : List Block
  uses : List Use

/-- The header in `msg_buf`. -/
def headerOf (buf : ℕ → Cell) : ReplyHeader := readHeader fun i => (buf i).byte

/-- Up to the loop. -/
def start (x : Exchange) : Client :=
  let buf := readnb x.reply 0 replyHeaderLen x.sent
  { pc := if x.command = .inform then .returned none else .loop
    msgBuf := buf
    pos := advance x.reply 0 replyHeaderLen
    header := headerOf buf
    headerPos := 0
    refHash := (headerOf buf).totalHash
    refCount := (headerOf buf).blockCount
    b := 0
    file := x.outputFile
    blocks := []
    uses := [] }

/-- The header of block `b`; the first has been read already. -/
def nextHeader (x : Exchange) (s : Client) : Client :=
  if 0 < s.b then
    let buf := readnb x.reply s.pos replyHeaderLen s.msgBuf
    { s with msgBuf := buf, pos := advance x.reply s.pos replyHeaderLen, header := headerOf buf,
             headerPos := s.pos }
  else s

/-- The checks on a header. -/
def checkHeader (x : Exchange) (s : Client) : Option Error :=
  if 0 < s.b ∧ s.refCount ≠ s.header.blockCount then some .blockCounts
  else if 0 < s.b ∧ s.refHash ≠ s.header.totalHash then some .totalHashes
  else if s.header.status ≠ statusOk ∧ ¬ (x.command = .register ∧ s.header.status = statusPeerExists) then
    some (.status s.header.status)
  else none

/-- The payload is read into `msg_buf`. -/
def readPayload (x : Exchange) (s : Client) : Client :=
  { s with msgBuf := readnb x.reply s.pos s.header.length.toNat s.msgBuf
           pos := advance x.reply s.pos s.header.length.toNat }

/-- `payload`, once it has been read. -/
def payload (s : Client) : List Cell := (List.range s.header.length.toNat).map s.msgBuf

/-- `get_data_sha`. -/
def shaOf (x : Exchange) (cells : List Cell) : Hash := x.sha (cells.map Cell.byte)

/-- `fseek` and `fputs` on a file opened with `"r+b"`. -/
def putAt (file : List Byte) (offset : ℕ) (bytes : List Byte) : List Byte :=
  if bytes = [] then file
  else (file ++ List.replicate (offset - file.length) 0#8).take offset ++ bytes ++
    file.drop (offset + bytes.length)

/-- What `fputs` writes of a payload. -/
def cString (cells : List Cell) : List Cell := cells.takeWhile fun c => c.byte ≠ 0#8

/-- The end of an iteration, with a payload that has the right hash. -/
def takeBlock (x : Exchange) (s : Client) : Client :=
  let block : Block := ⟨s.headerPos, s.header, payload s⟩
  let s := { s with b := s.b + 1, blocks := s.blocks ++ [block] }
  if x.command = .retreive then
    let written := cString (payload s)
    let offset := s.header.thisBlock * BitVec.ofNat 32 (maxMsgLen - replyHeaderLen)
    { s with file := putAt s.file offset.toNat (written.map Cell.byte)
             uses := s.uses ++ [⟨some block, written⟩] }
  else s

/-- An iteration of the loop over the blocks. -/
def iteration (x : Exchange) (s : Client) : Client :=
  let s := nextHeader x s
  match checkHeader x s with
  | some e => { s with pc := .returned (some e) }
  | none =>
    if maxMsgLen < s.header.length.toNat then { s with pc := .overrun }
    else
      let s := readPayload x s
      if shaOf x (payload s) ≠ s.header.blockHash then { s with pc := .returned (some .payloadHash) }
      else takeBlock x s

/-- The memory from `reply_body` on. -/
def replyBody (x : Exchange) (s : Client) : ℕ → Cell := fun i =>
  if i < s.header.length.toNat then s.msgBuf i
  else if i = s.header.length.toNat then ⟨0#8, none⟩
  else ⟨x.heap i, none⟩

/-- What comes after the loop. The new peer's ip and port are the first 20 bytes of `reply_body`. -/
def finish (x : Exchange) (s : Client) : Client :=
  if x.command = .retreive ∧ x.sha s.file ≠ s.header.totalHash then
    { s with pc := .returned (some .fileHash) }
  else if maxMsgLen < s.header.length.toNat then { s with pc := .overrun }
  else if s.header.status = statusOk ∧ x.command = .register then
    { s with pc := .returned none
             uses := s.uses ++ [⟨s.blocks.getLast?, (List.range networkAddressLen).map (replyBody x s)⟩] }
  else { s with pc := .returned none }

/-- **One step**: an iteration of the loop, or what comes after it. -/
def step (x : Exchange) (s : Client) : Option Client :=
  if s.pc = .loop then some (if s.b < s.refCount.toNat then iteration x s else finish x s) else none

/-- Up to `n` steps. -/
def steps (x : Exchange) : ℕ → Client → Client
  | 0, s => s
  | n + 1, s => match step x s with
    | some s' => steps x n s'
    | none => s

/-- **`send_message`.** -/
def sendMessage (x : Exchange) : Client := steps x ((start x).refCount.toNat + 1) (start x)

/-! ### What a step does -/

variable {x : Exchange} {s s' : Client}

/-- Reading a header changes nothing but the buffer and the header. -/
theorem nextHeader_frame (x : Exchange) (s : Client) :
    (nextHeader x s).pc = s.pc ∧ (nextHeader x s).b = s.b ∧ (nextHeader x s).refCount = s.refCount ∧
      (nextHeader x s).blocks = s.blocks ∧ (nextHeader x s).uses = s.uses := by
  unfold nextHeader
  split_ifs <;> exact ⟨rfl, rfl, rfl, rfl, rfl⟩

/-- A block that is taken. -/
theorem takeBlock_frame (x : Exchange) (s : Client) :
    (takeBlock x s).pc = s.pc ∧ (takeBlock x s).b = s.b + 1 ∧ (takeBlock x s).refCount = s.refCount ∧
      (takeBlock x s).msgBuf = s.msgBuf ∧ (takeBlock x s).pos = s.pos ∧
      (takeBlock x s).header = s.header ∧
      (takeBlock x s).blocks = s.blocks ++ [⟨s.headerPos, s.header, payload s⟩] ∧
      (takeBlock x s).uses = s.uses ++ if x.command = .retreive then
        [⟨some ⟨s.headerPos, s.header, payload s⟩, cString (payload s)⟩] else [] := by
  unfold takeBlock
  by_cases hc : x.command = .retreive
  · simp only [if_pos hc]
    exact ⟨trivial, trivial, trivial, trivial, trivial, trivial, trivial, rfl⟩
  · simp only [if_neg hc, List.append_nil]
    exact ⟨trivial, trivial, trivial, trivial, trivial, trivial, trivial, trivial⟩

/-- **An iteration** gives up, runs past the buffer, or takes the block. -/
theorem iteration_cases (x : Exchange) (s : Client) :
    (∃ e, iteration x s = { nextHeader x s with pc := .returned (some e) } ∧
        checkHeader x (nextHeader x s) = some e) ∨
      checkHeader x (nextHeader x s) = none ∧
        ((iteration x s = { nextHeader x s with pc := .overrun } ∧
            maxMsgLen < (nextHeader x s).header.length.toNat) ∨
          (nextHeader x s).header.length.toNat ≤ maxMsgLen ∧
            ((iteration x s = { readPayload x (nextHeader x s) with pc := .returned (some .payloadHash) } ∧
                shaOf x (payload (readPayload x (nextHeader x s))) ≠ (nextHeader x s).header.blockHash) ∨
              (iteration x s = takeBlock x (readPayload x (nextHeader x s)) ∧
                shaOf x (payload (readPayload x (nextHeader x s))) = (nextHeader x s).header.blockHash))) := by
  cases hc : checkHeader x (nextHeader x s) with
  | some e => exact Or.inl ⟨e, by simp only [iteration, hc], rfl⟩
  | none =>
    refine Or.inr ⟨rfl, ?_⟩
    by_cases hl : maxMsgLen < (nextHeader x s).header.length.toNat
    · exact Or.inl ⟨by simp only [iteration, hc, if_pos hl], hl⟩
    · refine Or.inr ⟨not_lt.mp hl, ?_⟩
      by_cases hs : shaOf x (payload (readPayload x (nextHeader x s))) = (nextHeader x s).header.blockHash
      · exact Or.inr ⟨by simp only [iteration, hc, if_neg hl]; exact if_neg (not_not.mpr hs), hs⟩
      · exact Or.inl ⟨by simp only [iteration, hc, if_neg hl]; exact if_pos hs, hs⟩

/-- A block that passes the checks is taken. -/
theorem iteration_takes (hcheck : checkHeader x (nextHeader x s) = none)
    (hfits : (nextHeader x s).header.length.toNat ≤ maxMsgLen)
    (hsha : shaOf x (payload (readPayload x (nextHeader x s))) = (nextHeader x s).header.blockHash) :
    iteration x s = takeBlock x (readPayload x (nextHeader x s)) := by
  rcases iteration_cases x s with ⟨e, -, he⟩ | ⟨-, ⟨-, hlong⟩ | ⟨-, ⟨-, hne⟩ | ⟨htakes, -⟩⟩⟩
  · rw [hcheck] at he
    exact nomatch he
  · exact absurd hfits (not_le.mpr hlong)
  · exact absurd hsha hne
  · exact htakes

theorem finish_pc (x : Exchange) (s : Client) : (finish x s).pc ≠ .loop := by
  unfold finish
  split_ifs <;> nofun

/-- An iteration that goes on has taken a block. -/
theorem iteration_loop (h : (iteration x s).pc = .loop) :
    (iteration x s).b = s.b + 1 ∧ (iteration x s).refCount = s.refCount := by
  obtain ⟨-, hb, hr, -⟩ := nextHeader_frame x s
  rcases iteration_cases x s with ⟨e, he, -⟩ | ⟨-, ⟨he, -⟩ | ⟨-, ⟨he, -⟩ | ⟨he, -⟩⟩⟩
  · rw [he] at h; cases h
  · rw [he] at h; cases h
  · rw [he] at h; cases h
  · obtain ⟨-, hb', hr', -⟩ := takeBlock_frame x (readPayload x (nextHeader x s))
    rw [he, hb', hr']
    exact ⟨congrArg (· + 1) hb, hr⟩

/-- Nothing happens after the end. -/
theorem steps_of_ended (x : Exchange) (n : ℕ) (h : s.pc ≠ .loop) : steps x n s = s := by
  cases n with
  | zero => rfl
  | succ n => simp only [steps, step, if_neg h]

/-- The first of some steps. -/
theorem steps_succ {n : ℕ} (h : step x s = some s') : steps x (n + 1) s = steps x n s' := by
  simp only [steps, h]

theorem steps_ends {n : ℕ} (h : s.refCount.toNat - s.b < n) : (steps x n s).pc ≠ .loop := by
  induction n generalizing s with
  | zero => omega
  | succ n ih =>
    by_cases hpc : s.pc = .loop
    · by_cases hb : s.b < s.refCount.toNat
      · rw [steps_succ (show step x s = some (iteration x s) by rw [step, if_pos hpc, if_pos hb])]
        by_cases hi : (iteration x s).pc = .loop
        · obtain ⟨hb', hr'⟩ := iteration_loop hi
          exact ih (by rw [hb', hr']; omega)
        · rw [steps_of_ended x n hi]
          exact hi
      · rw [steps_succ (show step x s = some (finish x s) by rw [step, if_pos hpc, if_neg hb]),
          steps_of_ended x n (finish_pc x s)]
        exact finish_pc x s
    · rw [steps_of_ended x _ hpc]
      exact hpc

theorem steps_add (x : Exchange) (m n : ℕ) (s : Client) : steps x (m + n) s = steps x n (steps x m s) := by
  induction m generalizing s with
  | zero => rw [Nat.zero_add]; rfl
  | succ m ih =>
    cases h : step x s with
    | none =>
      have hend : s.pc ≠ .loop := by
        intro hpc
        rw [step, if_pos hpc] at h
        cases h
      rw [steps_of_ended x _ hend, steps_of_ended x _ hend, steps_of_ended x _ hend]
    | some s' => rw [Nat.succ_add, steps_succ h, steps_succ h, ih]

/-- The states on the way. -/
abbrev Reached (x : Exchange) (s : Client) : Prop := Reaches (fun s s' => step x s = some s') (start x) s

theorem steps_eq {n : ℕ} (h : Steps (fun s s' => step x s = some s') s n s') : steps x n s = s' := by
  induction h with
  | refl => rfl
  | tail _ hr ih => rw [steps_add, ih, steps_succ hr]; rfl

theorem reached_steps (n : ℕ) (h : Reached x s) : Reached x (steps x n s) := by
  induction n generalizing s with
  | zero => exact h
  | succ n ih =>
    cases hr : step x s with
    | none => simpa only [steps, hr] using h
    | some s' =>
      rw [steps_succ hr]
      exact ih (h.elim fun _ h => ⟨_, h.tail hr⟩)

theorem reached_start (x : Exchange) : Reached x (start x) := ⟨0, .refl⟩

/-- **`send_message` comes to an end** on every reply. -/
theorem sendMessage_ends (x : Exchange) : (sendMessage x).pc ≠ .loop :=
  steps_ends (by show (start x).refCount.toNat - 0 < _; omega)

/-- From every state on the way it comes to the same end. -/
theorem sendMessage_of_reached (h : Reached x s) :
    sendMessage x = steps x ((start x).refCount.toNat + 1) s := by
  obtain ⟨n, h⟩ := h
  rw [← steps_eq h, ← steps_add, Nat.add_comm, steps_add]
  exact (steps_of_ended x n (sendMessage_ends x)).symm

/-- **An exchange of one block** that passes the checks. -/
theorem sendMessage_one_block (hloop : (start x).pc = .loop) (hcount : (start x).refCount = 1)
    (htakes : iteration x (start x) = takeBlock x (readPayload x (start x))) :
    sendMessage x = finish x (takeBlock x (readPayload x (start x))) := by
  obtain ⟨hpc, hb, href, -⟩ := takeBlock_frame x (readPayload x (start x))
  have hfirst : step x (start x) = some (iteration x (start x)) := by
    rw [step, if_pos hloop, hcount]
    exact congrArg some (if_pos Nat.one_pos)
  have hsecond : step x (iteration x (start x)) = some (finish x (iteration x (start x))) := by
    have hend : ¬ (iteration x (start x)).b < (iteration x (start x)).refCount.toNat := by
      have hone : (readPayload x (start x)).refCount = 1 := hcount
      rw [htakes, hb, href, hone]
      exact Nat.lt_irrefl 1
    rw [step, if_pos (by rw [htakes, hpc]; exact hloop), if_neg hend]
  rw [sendMessage, hcount, ← htakes]
  exact (steps_succ hfirst).trans (steps_succ hsecond)

/-! ### Reading a reply -/

theorem readnb_middle {reply pre mid post : List Byte} (hreply : reply = pre ++ (mid ++ post)) {k : ℕ}
    (hk : k < mid.length) (buf : ℕ → Cell) :
    (readnb reply pre.length mid.length buf k).byte = mid.getD k 0#8 := by
  have hlen : reply.length = pre.length + (mid.length + post.length) := by
    rw [hreply, List.length_append, List.length_append]
  rw [readnb, if_pos ⟨hk, by omega⟩]
  dsimp only
  rw [hreply, List.getD_append_right _ _ _ _ (Nat.le_add_right _ _), Nat.add_sub_cancel_left,
    List.getD_append _ _ _ _ hk]

theorem advance_middle {reply pre mid post : List Byte} (hreply : reply = pre ++ (mid ++ post)) :
    advance reply pre.length mid.length = pre.length + mid.length := by
  rw [advance, hreply, List.length_append, List.length_append]
  omega

/-- A header in the stream. -/
theorem headerOf_middle {reply pre post : List Byte} {h : ReplyHeader}
    (hreply : reply = pre ++ (h.toNetwork.bytes ++ post)) (buf : ℕ → Cell) :
    headerOf (readnb reply pre.length replyHeaderLen buf) = h := by
  have hread : headerOf (readnb reply pre.length replyHeaderLen buf) =
      readHeader fun k => h.toNetwork.bytes.getD k 0 := by
    refine readHeader_congr fun k hk => ?_
    rw [← length_bytes h.toNetwork] at hk ⊢
    exact readnb_middle hreply hk buf
  rw [hread, readHeader_bytes]
  simp only [ReplyHeader.toNetwork, ntohl_ntohl]

/-- A byte of the payload. -/
theorem getD_payload {s : Client} {i : ℕ} (hi : i < s.header.length.toNat) :
    ((payload s).map Cell.byte).getD i 0#8 = (s.msgBuf i).byte := by
  rw [List.getD_eq_getElem _ _ (by rwa [List.length_map, payload, List.length_map, List.length_range])]
  simp only [payload, List.getElem_map, List.getElem_range]

/-- A payload in the stream. -/
theorem payload_middle {s : Client} {pre mid post : List Byte} (hreply : x.reply = pre ++ (mid ++ post))
    (hpos : s.pos = pre.length) (hlen : s.header.length.toNat = mid.length) :
    (payload (readPayload x s)).map Cell.byte = mid ∧ (readPayload x s).pos = pre.length + mid.length := by
  constructor
  · refine List.ext_getElem ?_ fun k hk hk' => ?_
    · rw [List.length_map, payload, List.length_map, List.length_range]
      exact hlen
    · have hread := readnb_middle hreply hk' s.msgBuf
      rw [← hpos, ← hlen, List.getD_eq_getElem _ _ hk'] at hread
      simp only [payload, List.getElem_map, List.getElem_range]
      exact hread
  · have hadvance := advance_middle hreply
    rw [← hpos, ← hlen] at hadvance
    rw [← hlen, ← hpos]
    exact hadvance

end CompSys.A4.SendMessage
