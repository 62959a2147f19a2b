import Mathlib.Data.List.GetD
import CompSys.Lib.Bytes

/-! # Messages on the wire (`A4/src/peer.h`, `A4/src/common.h`)

The constants, the structs that two peers exchange, and their bytes in the memory of a little-endian
host. The structs have no padding. -/

namespace CompSys.A4.Wire

open CompSys.Lib.Bytes

abbrev Byte := BitVec 8

/-- `hashdata_t`. -/
abbrev Hash := Fin 32 → Byte

/-- `COMMAND_REGISTER`, `COMMAND_RETREIVE` and `COMMAND_INFORM`. -/
inductive Command
  | register
  | retreive
  | inform
  deriving DecidableEq

def Command.code : Command → BitVec 32
  | .register => 1
  | .retreive => 2
  | .inform => 3

abbrev statusOk : BitVec 32 := 1
abbrev statusPeerExists : BitVec 32 := 2
abbrev statusBadRequest : BitVec 32 := 3

abbrev ipLen : ℕ := 16
abbrev requestHeaderLen : ℕ := 28
abbrev replyHeaderLen : ℕ := 80
abbrev maxMsgLen : ℕ := 8196

/-- `PeerAddress_t`. -/
structure PeerAddress where
  ip : Fin 16 → Byte
  port : Fin 8 → Byte
  deriving DecidableEq

/-- A number in decimal digits. -/
def decimal (n : ℕ) : List Byte := (Nat.toDigits 10 n).map fun c => BitVec.ofNat 8 c.toNat

/-- An address as a peer is given it: an ip of at most 15 characters and a decimal port, each with a NUL. -/
def PeerAddress.WellFormed (p : PeerAddress) : Prop :=
  0#8 ∈ List.ofFn p.ip ∧ ∃ n ≤ 65535, (List.ofFn p.port).takeWhile (· ≠ 0#8) = decimal n

/-- `sizeof(NetworkAddress_t)`. -/
abbrev networkAddressLen : ℕ := 20

/-- `ReplyHeader_t`. -/
structure ReplyHeader where
  length : BitVec 32
  status : BitVec 32
  thisBlock : BitVec 32
  blockCount : BitVec 32
  blockHash : Hash
  totalHash : Hash
  deriving DecidableEq

/-- `ntohl`, `htonl` and `htobe32`. -/
def ntohl (w : BitVec 32) : BitVec 32 := swap w

@[simp] theorem ntohl_ntohl (w : BitVec 32) : ntohl (ntohl w) = w := swap_swap w

/-- The bytes of a `uint32_t`. -/
def wordBytes (w : BitVec 32) : List Byte := [byteOf w 0, byteOf w 1, byteOf w 2, byteOf w 3]

@[simp] theorem length_wordBytes (w : BitVec 32) : (wordBytes w).length = 4 := rfl

/-- The bytes of a reply header. -/
def ReplyHeader.bytes (h : ReplyHeader) : List Byte :=
  wordBytes h.length ++ wordBytes h.status ++ wordBytes h.thisBlock ++ wordBytes h.blockCount ++
    List.ofFn h.blockHash ++ List.ofFn h.totalHash

@[simp] theorem length_bytes (h : ReplyHeader) : h.bytes.length = replyHeaderLen := by
  simp [ReplyHeader.bytes]

/-- A header with its numbers in network byte order. -/
def ReplyHeader.toNetwork (h : ReplyHeader) : ReplyHeader :=
  { h with length := ntohl h.length, status := ntohl h.status, thisBlock := ntohl h.thisBlock,
           blockCount := ntohl h.blockCount }

/-- `ntohl(*(uint32_t*)&buf[k])`. -/
def netWord (buf : ℕ → Byte) (k : ℕ) : BitVec 32 :=
  ntohl (word (buf k) (buf (k + 1)) (buf (k + 2)) (buf (k + 3)))

/-- The reply header as `send_message` takes it out of its buffer. -/
def readHeader (buf : ℕ → Byte) : ReplyHeader where
  length := netWord buf 0
  status := netWord buf 4
  thisBlock := netWord buf 8
  blockCount := netWord buf 12
  blockHash := fun i => buf (16 + i)
  totalHash := fun i => buf (48 + i)

/-- A header is the first 80 bytes of the buffer. -/
theorem readHeader_congr {buf buf' : ℕ → Byte} (h : ∀ i < replyHeaderLen, buf i = buf' i) :
    readHeader buf = readHeader buf' := by
  have hw : ∀ k, k + 3 < replyHeaderLen → netWord buf k = netWord buf' k := by
    intro k hk
    unfold netWord
    rw [h k (by omega), h (k + 1) (by omega), h (k + 2) (by omega), h (k + 3) hk]
  unfold readHeader
  rw [hw 0 (by norm_num), hw 4 (by norm_num), hw 8 (by norm_num), hw 12 (by norm_num)]
  have hb : (fun i : Fin 32 => buf (16 + i)) = fun i : Fin 32 => buf' (16 + i) :=
    funext fun i => h _ (show 16 + (i : ℕ) < 80 by omega)
  have ht : (fun i : Fin 32 => buf (48 + i)) = fun i : Fin 32 => buf' (48 + i) :=
    funext fun i => h _ (show 48 + (i : ℕ) < 80 by omega)
  rw [hb, ht]

/-- A list in the middle of another. -/
theorem getD_middle {n : ℕ} (l r : List Byte) (f : Fin n → Byte) (i : Fin n) :
    (l ++ List.ofFn f ++ r).getD (l.length + i) 0 = f i := by
  have hi : (i : ℕ) < (List.ofFn f).length := by simp
  rw [List.append_assoc, List.getD_append_right _ _ _ _ (Nat.le_add_right _ _), Nat.add_sub_cancel_left,
    List.getD_append _ _ _ _ hi, List.getD_eq_getElem _ _ hi, List.getElem_ofFn]

/-- **What the receiver makes of a header**: the numbers in the other byte order, and the hashes. -/
theorem readHeader_bytes (h : ReplyHeader) :
    readHeader (fun i => h.bytes.getD i 0) = h.toNetwork := by
  have hblock : (fun i : Fin 32 => h.bytes.getD (16 + i) 0) = h.blockHash :=
    funext fun i => getD_middle (wordBytes h.length ++ wordBytes h.status ++ wordBytes h.thisBlock ++
      wordBytes h.blockCount) (List.ofFn h.totalHash) h.blockHash i
  have htotal : (fun i : Fin 32 => h.bytes.getD (48 + i) 0) = h.totalHash := by
    funext i
    have hi := getD_middle (wordBytes h.length ++ wordBytes h.status ++ wordBytes h.thisBlock ++
      wordBytes h.blockCount ++ List.ofFn h.blockHash) [] h.totalHash i
    rw [List.append_nil, List.length_append, List.length_ofFn] at hi
    exact hi
  have hword : ∀ k w, (∀ j < 4, h.bytes.getD (k + j) 0 = byteOf w j) →
      netWord (fun i => h.bytes.getD i 0) k = ntohl w := by
    intro k w hj
    unfold netWord
    rw [← word_byteOf w, ← hj 0 (by omega), ← hj 1 (by omega), ← hj 2 (by omega), ← hj 3 (by omega)]
    rfl
  unfold readHeader ReplyHeader.toNetwork
  rw [hblock, htotal, hword 0 h.length, hword 4 h.status, hword 8 h.thisBlock, hword 12 h.blockCount]
  all_goals
    intro j hj
    interval_cases j <;> rfl

end CompSys.A4.Wire
