import Mathlib.Data.List.TakeWhile
import CompSys.A4.Network
import CompSys.A4.RequestBody

/-! # What the server copies

Every copy that `handle_server_request` and its handlers make between buffers, as a list: how many bytes
there are at the source, how many there is room for, and how many are copied. The lengths and the ports come
from the request. None of them is checked, so the copies stay inside the buffers for the requests of
`RequestFits` only (`handled_inside_iff`).

What is written to the socket is not a copy between buffers, and is left out. -/

namespace CompSys.A4.Copies

open CompSys.A4.Wire CompSys.A4.ReadBuffer CompSys.A4.ServerRequest CompSys.A4.RequestBody CompSys.A4.Network

/-- A copy of `len` bytes. For what is read of a string, `room` is as much as is read. -/
structure Copy where
  source : ℕ
  room : ℕ
  len : ℕ

/-- A copy of a field to one of the same size. -/
def Copy.field (n : ℕ) : Copy := ⟨n, n, n⟩

/-- The copy stays inside its source and its destination. -/
def Copy.Inside (c : Copy) : Prop := c.len ≤ c.source ∧ c.len ≤ c.room

instance (c : Copy) : Decidable c.Inside := inferInstanceAs (Decidable (_ ∧ _))

/-- **All the copies stay inside.** -/
def Inside (l : List Copy) : Prop := ∀ c ∈ l, c.Inside

@[simp] theorem inside_nil : Inside [] := nofun

@[simp] theorem inside_cons {c : Copy} {l : List Copy} : Inside (c :: l) ↔ c.Inside ∧ Inside l :=
  List.forall_mem_cons

@[simp] theorem inside_append {l l' : List Copy} : Inside (l ++ l') ↔ Inside l ∧ Inside l' :=
  List.forall_mem_append

theorem inside_mk {source room len : ℕ} : Copy.Inside ⟨source, room, len⟩ ↔ len ≤ source ∧ len ≤ room :=
  Iff.rfl

@[simp] theorem inside_field (n : ℕ) : (Copy.field n).Inside := ⟨le_rfl, le_rfl⟩

/-! ### The reader -/

/-- The copies out of the reader's buffer in the loop of `compsys_helper_readnb`, when there is room for
`room` bytes. -/
def readCopies (room : ℕ) : ℕ → ℕ → Reader → List Copy
  | 0, _, _ => []
  | fuel + 1, nleft, r =>
    if nleft = 0 ∨ (read r nleft).1 = [] then []
    else ⟨bufSize - (refill r).bufptr, room, (read r nleft).1.length⟩ ::
      readCopies (room - (read r nleft).1.length) fuel (nleft - (read r nleft).1.length) (read r nleft).2

/-- **The reader never leaves its buffer**, nor the memory that it is given if there is room for all that it
is asked for. -/
theorem readCopies_inside {room nleft : ℕ} (h : nleft ≤ room) (fuel : ℕ) (r : Reader) :
    Inside (readCopies room fuel nleft r) := by
  induction fuel generalizing room nleft r with
  | zero => exact inside_nil
  | succ fuel ih =>
    rw [readCopies]
    split_ifs with hend
    · exact inside_nil
    · have hlength : (read r nleft).1.length = min nleft (refill r).cnt := length_window _ _ _
      have hin := (refill r).inside
      refine inside_cons.mpr ⟨⟨?_, ?_⟩, ih (by omega) _⟩
      · show (read r nleft).1.length ≤ bufSize - (refill r).bufptr
        omega
      · show (read r nleft).1.length ≤ room
        omega

/-! ### A port and a peer -/

/-- `PORT_LEN`. -/
abbrev portLen : ℕ := 8

/-- `sprintf(port, "%d", n)`. -/
def portCopy (n : BitVec 32) : Copy := ⟨(formatInt n.toInt).length, portLen, (formatInt n.toInt).length⟩

/-- **A port that has at most seven characters** as an `int`. -/
def PortFits (n : BitVec 32) : Prop := -999999 ≤ n.toInt ∧ n.toInt ≤ 9999999

instance (n : BitVec 32) : Decidable (PortFits n) := inferInstanceAs (Decidable (_ ∧ _))

theorem length_decimal_le {n k : ℕ} (hk : 0 < k) : (decimal n).length ≤ k ↔ n < 10 ^ k := by
  rw [decimal, List.length_map, Nat.length_toDigits_le_iff (by norm_num) hk]

theorem length_formatInt_le (v : ℤ) : (formatInt v).length ≤ 8 ↔ -999999 ≤ v ∧ v ≤ 9999999 := by
  rw [formatInt, List.length_append, List.length_singleton]
  have hsix := length_decimal_le (n := v.natAbs) (k := 6) (by norm_num)
  have hseven := length_decimal_le (n := v.natAbs) (k := 7) (by norm_num)
  split_ifs with hv
  · rw [List.length_cons]
    omega
  · omega

@[simp] theorem portCopy_inside (n : BitVec 32) : (portCopy n).Inside ↔ PortFits n := by
  rw [portCopy, inside_mk, and_iff_right le_rfl]
  exact length_formatInt_le _

/-- `new_peer`, from a message of `limit` bytes: its ip, its port, and the peer for the list. -/
def recordCopies (limit : ℕ) (message : ℕ → Byte) : List Copy :=
  [⟨limit, ipLen, ipLen⟩, ⟨limit - ipLen, 4, 4⟩, portCopy (netWord message ipLen), .field peerAddressLen]

@[simp] theorem recordCopies_inside (limit : ℕ) (message : ℕ → Byte) :
    Inside (recordCopies limit message) ↔ networkAddressLen ≤ limit ∧ PortFits (netWord message ipLen) := by
  simp only [recordCopies, inside_cons, inside_mk, portCopy_inside, inside_field, inside_nil, and_true, ipLen,
    networkAddressLen]
  constructor
  · rintro ⟨hip, hport, hfits⟩
    exact ⟨by omega, hfits⟩
  · rintro ⟨hlen, hfits⟩
    exact ⟨⟨by omega, le_rfl⟩, ⟨by omega, le_rfl⟩, hfits⟩

/-! ### Strings -/

/-- A string and its NUL in a memory of `limit` bytes; one byte more if there is none. -/
def stringCopy (mem : ℕ → Byte) (limit : ℕ) : Copy :=
  ⟨limit, (cString (window mem 0 limit)).length + 1, (cString (window mem 0 limit)).length + 1⟩

theorem stringCopy_inside (mem : ℕ → Byte) (limit : ℕ) :
    (stringCopy mem limit).Inside ↔ ∃ i < limit, mem i = 0#8 := by
  have hle := length_cString_le (window mem 0 limit)
  rw [length_window] at hle
  have hwindow : ∀ i < limit, (window mem 0 limit).getD i 0#8 = mem i := by
    intro i hi
    simp [window, List.getD_eq_getElem?_getD, List.getElem?_map, List.getElem?_range hi]
  constructor
  · rintro ⟨hlt, -⟩
    have hend : (cString (window mem 0 limit)).length < limit := hlt
    exact ⟨_, hend, (hwindow _ hend).symm.trans (getD_length_cString _)⟩
  · rintro ⟨i, hi, hnul⟩
    refine ⟨?_, le_rfl⟩
    show (cString (window mem 0 limit)).length < limit
    by_contra hall
    have hlt : i < (cString (window mem 0 limit)).length := by omega
    have hne := List.mem_takeWhile_imp (List.getElem_mem hlt)
    rw [← List.getD_eq_getElem _ 0#8 hlt, getD_cString hlt, hwindow i hi, hnul] at hne
    exact absurd hne (by simp)

/-! ### The server -/

/-- The bytes of `reply_body` in `handle_register` as its header states them, for a list of so many peers. -/
def listLength (peers : ℕ) : BitVec 32 := BitVec.ofNat 32 (networkAddressLen * peers)

/-- The bytes of `total_reply`, an array of pointers. -/
def totalReplyLen (peers : ℕ) : ℕ :=
  Register.pointerLen * (BitVec.ofNat 32 replyHeaderLen + listLength peers).toNat

/-- The copies of `handle_register`, for a list of so many peers: each of these, the reply, and the new peer. -/
def registerCopies (peers : ℕ) (clientPort : BitVec 32) : List Copy :=
  (List.range peers).flatMap (fun _ => [.field ipLen, .field 4, .field ipLen]) ++
    [⟨networkAddressLen * peers, (listLength peers).toNat, (listLength peers).toNat⟩, .field 32, .field 32,
      ⟨replyHeaderLen, totalReplyLen peers, replyHeaderLen⟩,
      ⟨networkAddressLen * peers, totalReplyLen peers - Register.pointerLen * replyHeaderLen,
        (listLength peers).toNat⟩,
      .field ipLen, portCopy clientPort, .field peerAddressLen]

/-- **The copies of `handle_server_request`** and its handlers, for a list of so many peers. -/
def handledCopies (m : Memory) (incoming : List Fragment) (peers : ℕ) : List Copy :=
  let length := (requestHeader m incoming).length.toNat
  readCopies maxMsgLen requestHeaderLen requestHeaderLen (readinitb m.readerBuf incoming) ++
    ⟨maxMsgLen, requestHeaderLen, requestHeaderLen⟩ :: ⟨requestHeaderLen, ipLen, ipLen⟩ ::
    match handleServerRequest m incoming with
    | .register _ clientPort => registerCopies peers clientPort
    | .retreive request => [⟨bufSize - requestHeaderLen, length, length⟩, stringCopy request length]
    | .inform request =>
      ⟨min length (bufSize - requestHeaderLen), peerAddressLen, peerAddressLen⟩ ::
        recordCopies peerAddressLen request
    | .overrun => [⟨bufSize - requestHeaderLen, length, length⟩]
    | .ignored => []

/-- **The lengths and ports of a request fit.** For a register request this is about the list of peers, too:
the sizes that are computed for it are `uint32_t`s. -/
structure RequestFits (m : Memory) (incoming : List Fragment) (peers : ℕ) : Prop where
  register : (requestHeader m incoming).commandCode = 1 →
    replyHeaderLen + (listLength peers).toNat < 2 ^ 32 ∧ PortFits (requestHeader m incoming).port
  retreive : (requestHeader m incoming).commandCode = 2 →
    requestHeaderLen + (requestHeader m incoming).length.toNat ≤ bufSize ∧
      ∃ i < (requestHeader m incoming).length.toNat, (headerRead m incoming).2.buf (requestHeaderLen + i) = 0#8
  inform : (requestHeader m incoming).commandCode = 3 →
    peerAddressLen ≤ (requestHeader m incoming).length.toNat ∧
      PortFits (netWord (fun i => (headerRead m incoming).2.buf (requestHeaderLen + i)) ipLen)

theorem registerCopies_inside (peers : ℕ) (port : BitVec 32) :
    Inside (registerCopies peers port) ↔ replyHeaderLen + (listLength peers).toNat < 2 ^ 32 ∧ PortFits port := by
  have heach : Inside ((List.range peers).flatMap fun _ => [.field ipLen, .field 4, .field ipLen]) := by
    intro c hc
    obtain ⟨-, -, hmem⟩ := List.mem_flatMap.mp hc
    have hall : Inside [.field ipLen, .field 4, .field ipLen] := by
      simp only [inside_cons, inside_field, inside_nil, and_self]
    exact hall c hmem
  have hlist : (listLength peers).toNat ≤ networkAddressLen * peers := by
    rw [listLength, BitVec.toNat_ofNat]
    exact Nat.mod_le _ _
  have htotal : totalReplyLen peers = 8 * ((80 + (listLength peers).toNat) % 2 ^ 32) := by
    rw [totalReplyLen, BitVec.toNat_add]
    rfl
  have hlt := (listLength peers).isLt
  simp only [registerCopies, inside_append, inside_cons, inside_mk, inside_field, portCopy_inside, inside_nil,
    heach, true_and, and_true, htotal, replyHeaderLen, Register.pointerLen]
  constructor
  · rintro ⟨-, -, ⟨-, hbody⟩, hport⟩
    refine ⟨?_, hport⟩
    by_contra hwrap
    rw [Nat.mod_eq_sub_mod (by omega), Nat.mod_eq_of_lt (by omega)] at hbody
    omega
  · rintro ⟨hsmall, hport⟩
    rw [Nat.mod_eq_of_lt (by omega)]
    exact ⟨⟨hlist, le_rfl⟩, ⟨le_rfl, by omega⟩, ⟨hlist, by omega⟩, hport⟩

/-- The request of `handle_inform`, when it has been copied. -/
theorem netWord_copied (m : Memory) (r : Reader) :
    netWord (copied m r peerAddressLen) ipLen = netWord (fun i => r.buf (requestHeaderLen + i)) ipLen :=
  netWord_inj.mpr fun j hj => if_pos (show 16 + j < 24 by omega)

/-- **The server's copies stay inside** if and only if the lengths and ports of the request fit. -/
theorem handled_inside_iff (m : Memory) (incoming : List Fragment) (peers : ℕ) :
    Inside (handledCopies m incoming peers) ↔ RequestFits m incoming peers := by
  have hread := readCopies_inside (show requestHeaderLen ≤ maxMsgLen by norm_num) requestHeaderLen
    (readinitb m.readerBuf incoming)
  have hheader : Copy.Inside ⟨maxMsgLen, requestHeaderLen, requestHeaderLen⟩ := by decide
  have hip : Copy.Inside ⟨requestHeaderLen, ipLen, ipLen⟩ := by decide
  rw [handledCopies, inside_append, inside_cons, inside_cons, and_iff_right hread, and_iff_right hheader,
    and_iff_right hip, handleServerRequest]
  by_cases h1 : (requestHeader m incoming).commandCode = 1
  · simp only [if_pos h1, registerCopies_inside]
    exact ⟨fun hfits => ⟨fun _ => hfits, fun h2 => absurd (h1.symm.trans h2) (by decide),
      fun h3 => absurd (h1.symm.trans h3) (by decide)⟩, fun hfits => hfits.register h1⟩
  by_cases h2 : (requestHeader m incoming).commandCode = 2
  · simp only [if_neg h1, if_pos h2]
    by_cases hlen : requestHeaderLen + (requestHeader m incoming).length.toNat ≤ bufSize
    · have hbyte : ∀ i < (requestHeader m incoming).length.toNat,
          copied m (headerRead m incoming).2 (requestHeader m incoming).length.toNat i =
            (headerRead m incoming).2.buf (requestHeaderLen + i) := fun i hi => if_pos hi
      rw [if_pos hlen]
      simp only [inside_cons, inside_mk, stringCopy_inside, inside_nil, and_true]
      constructor
      · rintro ⟨-, i, hi, hnul⟩
        exact ⟨fun h => absurd h h1, fun _ => ⟨hlen, i, hi, (hbyte i hi).symm.trans hnul⟩,
          fun h3 => absurd (h2.symm.trans h3) (by decide)⟩
      · intro hfits
        obtain ⟨-, i, hi, hnul⟩ := hfits.retreive h2
        exact ⟨⟨Nat.le_sub_of_add_le' hlen, le_rfl⟩, i, hi, (hbyte i hi).trans hnul⟩
    · rw [if_neg hlen]
      simp only [inside_cons, inside_mk, inside_nil, and_true, le_refl]
      exact iff_of_false (fun hle => hlen (Nat.add_le_of_le_sub' (by decide) hle))
        fun hfits => hlen (hfits.retreive h2).1
  by_cases h3 : (requestHeader m incoming).commandCode = 3
  · simp only [if_neg h1, if_neg h2, if_pos h3]
    rw [inside_cons, recordCopies_inside, netWord_copied, inside_mk, and_iff_left le_rfl,
      and_iff_right (show networkAddressLen ≤ peerAddressLen by decide), le_min_iff,
      and_iff_left (show peerAddressLen ≤ bufSize - requestHeaderLen by decide)]
    exact ⟨fun hfits => ⟨fun h => absurd h h1, fun h => absurd h h2, fun _ => hfits⟩,
      fun hfits => hfits.inform h3⟩
  · simp only [if_neg h1, if_neg h2, if_neg h3]
    exact iff_of_true inside_nil ⟨fun h => absurd h h1, fun h => absurd h h2, fun h => absurd h h3⟩

end CompSys.A4.Copies
