import CompSys.A4.SendMessage

/-! # The reply to a retrieve request

`handle_retreive` and `send_message_reponse`: the bytes that they send. `sizeof(data)` is the size of a
pointer, so there is one block whatever the length of the file; and the header of that block is filled in
but not sent, only the first 36 bytes from `data` on (`length_handleRetreive`). That is less than the
header of a reply. -/

namespace CompSys.A4.Retrieve

open CompSys.A4.Wire CompSys.A4.SendMessage

/-- `sizeof(data)`, of a `char *`. -/
abbrev sizeofData : ℕ := 8

/-- `block_count`. -/
def blockCount : ℕ := sizeofData / maxMsgLen + 1

/-- `reply_header.length` of block `i`: `to_index - from_index`. The comparison is of `size_t`s. -/
def blockLength (i : ℕ) : ℕ :=
  let fromIndex := i * maxMsgLen
  let toIndex := if BitVec.ofNat 64 sizeofData - BitVec.ofNat 64 fromIndex < BitVec.ofNat 64 maxMsgLen then
    sizeofData % maxMsgLen else (i + 1) * maxMsgLen
  toIndex - fromIndex

/-- What `send_message_reponse` writes to the socket: for each block, the memory from `data` on. The
status is in the header that is not sent. -/
def sendMessageReponse (_status : BitVec 32) (data : ℕ → Byte) : List Byte :=
  (List.range blockCount).flatMap fun i => (List.range (requestHeaderLen + blockLength i)).map data

/-- Memory that holds `content`, and `beyond` after it. -/
def memory (content : List Byte) (beyond : ℕ → Byte) : ℕ → Byte := fun i =>
  if i < content.length then content.getD i 0#8 else beyond i

/-- `"Could not retrive file"` and its NUL. -/
def notFound : List Byte :=
  ("Could not retrive file".toList.map fun c => BitVec.ofNat 8 c.toNat) ++ [0#8]

/-- What `handle_retreive` writes to the socket, for a missing file (`none`) or one with some content that
can be opened and read. -/
def handleRetreive (file : Option (List Byte)) (beyond : ℕ → Byte) : List Byte :=
  match file with
  | none => sendMessageReponse statusBadRequest (memory notFound beyond)
  | some content => sendMessageReponse statusOk (memory content beyond)

/-- The bytes of a block on the wire. -/
def blockBytes (b : Block) : List Byte := b.header.toNetwork.bytes ++ b.payload.map Cell.byte

/-- **A retrieve exchange transfers a file**: the reply is made of blocks, and they of the content. -/
structure Transfers (x : Exchange) (content : List Byte) : Prop where
  accepted : (sendMessage x).pc = .returned none
  blocks : x.reply = (sendMessage x).blocks.flatMap blockBytes
  header : ∀ i b, (sendMessage x).blocks[i]? = some b →
    b.header.thisBlock = BitVec.ofNat 32 i ∧
      b.header.blockCount = BitVec.ofNat 32 (sendMessage x).blocks.length ∧
      b.header.status = statusOk ∧ b.header.blockHash = shaOf x b.payload ∧
      b.header.totalHash = x.sha content ∧ b.payload.length ≤ maxMsgLen - replyHeaderLen
  content : (sendMessage x).blocks.flatMap (fun b => b.payload.map Cell.byte) = content

/-- **A missing file is reported**, in one block. -/
structure Reports (x : Exchange) : Prop where
  block : ∃ b : Block, x.reply = blockBytes b ∧ b.header.status = statusBadRequest ∧
    b.header.length.toNat = b.payload.length
  refused : (sendMessage x).pc = .returned (some (.status statusBadRequest))

/-- What a retrieve exchange is for. -/
def RoundTrips (x : Exchange) : Option (List Byte) → Prop
  | none => Reports x
  | some content => Transfers x content

/-- A client that asks for a file and gets the reply of `handle_retreive`. -/
def retrieving (x : Exchange) (file : Option (List Byte)) (beyond : ℕ → Byte) : Exchange :=
  { x with command := .retreive, reply := handleRetreive file beyond }

/-- Every reply has 36 bytes. -/
theorem length_handleRetreive (file : Option (List Byte)) (beyond : ℕ → Byte) :
    (handleRetreive file beyond).length = 36 := by
  have hlen : blockLength 0 = sizeofData := by decide
  have hcount : blockCount = 1 := by decide
  have hone : ∀ status data, (sendMessageReponse status data).length = 36 := by
    intro status data
    simp [sendMessageReponse, hcount, hlen, requestHeaderLen, sizeofData]
  cases file with
  | none => exact hone statusBadRequest _
  | some content => exact hone statusOk _

/-- A block does not fit into the reply. -/
theorem length_blockBytes (b : Block) : 80 ≤ (blockBytes b).length := by
  unfold blockBytes
  rw [List.length_append, length_bytes]
  exact Nat.le_add_right _ _

theorem not_transfers (x : Exchange) (content : List Byte) (beyond : ℕ → Byte) :
    ¬ Transfers (retrieving x (some content) beyond) content := by
  intro h
  have hlen := length_handleRetreive (some content) beyond
  have hrep : handleRetreive (some content) beyond = _ := h.blocks
  cases hb : (sendMessage (retrieving x (some content) beyond)).blocks with
  | nil =>
    rw [hb] at hrep
    rw [hrep] at hlen
    cases hlen
  | cons b bs =>
    have := length_blockBytes b
    rw [hb, List.flatMap_cons] at hrep
    rw [hrep, List.length_append] at hlen
    omega

theorem not_reports (x : Exchange) (beyond : ℕ → Byte) : ¬ Reports (retrieving x none beyond) := by
  rintro ⟨⟨b, hb, -, -⟩, -⟩
  have hlen := length_handleRetreive none beyond
  have := length_blockBytes b
  have hrep : handleRetreive none beyond = blockBytes b := hb
  rw [hrep] at hlen
  omega

/-- **No retrieve exchange transfers its file** or reports that it is missing. -/
theorem retrieve_never_round_trips (x : Exchange) (file : Option (List Byte)) (beyond : ℕ → Byte) :
    ¬ RoundTrips (retrieving x file beyond) file := by
  cases file with
  | none => exact not_reports x beyond
  | some content => exact not_transfers x content beyond

/-- A file with one letter. -/
theorem retrieve_letter_fails :
    ¬ RoundTrips (retrieving ⟨fun _ _ => 0#8, .retreive, [97#8], ⟨fun _ => 0#8, fun _ => 0#8⟩, fun _ => 0#8,
      fun _ => 0#8, [], []⟩ (some [65#8]) (fun _ => 0#8)) (some [65#8]) :=
  not_transfers _ _ _

end CompSys.A4.Retrieve
