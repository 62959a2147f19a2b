import CompSys.A4.SendMessage
import CompSys.Lib.Patches

/-! # A file in blocks

`send_message` with a reply that is made as the protocol has it: the blocks of a content in any order, each
behind its header. Each block is written by `fputs`, up to its first zero byte, into the output file as it
is. So the order of the blocks does not matter (`sendMessage_file`), but the bytes behind a zero byte do, and
what the file held before (`reassembles_iff`). -/

namespace CompSys.A4.Reassembly

open CompSys.Lib.Patches CompSys.A4.Wire CompSys.A4.SendMessage

/-- The bytes of a full block. -/
abbrev blockLen : ℕ := maxMsgLen - replyHeaderLen

/-- Block `i` of a content. -/
def chunk (content : List Byte) (i : ℕ) : List Byte := (content.drop (blockLen * i)).take blockLen

/-- The header of block `i`. -/
def header (sha : List Byte → Hash) (content : List Byte) (count i : ℕ) : ReplyHeader where
  length := BitVec.ofNat 32 (chunk content i).length
  status := statusOk
  thisBlock := BitVec.ofNat 32 i
  blockCount := BitVec.ofNat 32 count
  blockHash := sha (chunk content i)
  totalHash := sha content

/-- Block `i` on the wire. -/
def block (sha : List Byte → Hash) (content : List Byte) (count i : ℕ) : List Byte :=
  (header sha content count i).toNetwork.bytes ++ chunk content i

/-- **The peer sends the blocks of the content in this order**: `count` blocks, full ones but for the last. -/
structure Delivers (x : Exchange) (content : List Byte) (count : ℕ) (order : List ℕ) : Prop where
  command : x.command = .retreive
  pos : 0 < count
  full : blockLen * (count - 1) ≤ content.length
  last : content.length ≤ blockLen * count
  perm : order.Perm (List.range count)
  reply : x.reply = order.flatMap (block x.sha content count)

/-- **The output file is the content**, and no mismatch is reported; `get_file_sha` has the size in an
`int`. -/
structure Reassembles (x : Exchange) (content : List Byte) : Prop where
  file : (sendMessage x).file = content
  small : (sendMessage x).file.length < 2 ^ 31
  accepted : (sendMessage x).pc = .returned none

/-- A zero byte, or behind one in its block. -/
def BehindNul (content : List Byte) (p : ℕ) : Prop :=
  ∃ q ≤ p, q / blockLen = p / blockLen ∧ content[q]? = some 0#8

/-- **What the file has to hold before**: it is not longer than the content; where `fputs` does not write, it
has the content's byte, or nothing where that is zero; and it has the content's length unless the last byte
is written. -/
structure Suits (file content : List Byte) : Prop where
  shorter : file.length ≤ content.length
  kept : ∀ p < content.length, BehindNul content p → file.getD p 0#8 = content.getD p 0#8
  reached : content.length ≤ file.length ∨ ¬ BehindNul content (content.length - 1)
  small : content.length < 2 ^ 31

/-! ### Pieces of the content -/

variable {content : List Byte} {i p : ℕ}

/-- The bytes up to the first zero. -/
def upToNul (s : List Byte) : List Byte := s.takeWhile fun c => c ≠ 0#8

/-- What `fputs` writes of block `i`, and where. -/
def piece (content : List Byte) (i : ℕ) : ℕ × List Byte := (blockLen * i, upToNul (chunk content i))

theorem cString_upToNul (cells : List Cell) : (cString cells).map Cell.byte = upToNul (cells.map Cell.byte) := by
  rw [cString, upToNul, List.takeWhile_map]
  rfl

theorem putAt_eq (file : List Byte) (offset : ℕ) (bytes : List Byte) :
    putAt file offset bytes = patch 0#8 file offset bytes := by
  unfold putAt patch
  split_ifs
  · rfl
  · rfl

theorem getElem?_chunk {j : ℕ} (hj : j < blockLen) : (chunk content i)[j]? = content[blockLen * i + j]? := by
  rw [chunk, List.getElem?_take_of_lt hj, List.getElem?_drop]

theorem length_chunk_le : (chunk content i).length ≤ blockLen := by
  rw [chunk, List.length_take]
  exact min_le_left _ _

theorem lt_length_upToNul {s : List Byte} {j : ℕ} :
    j < (upToNul s).length ↔ j < s.length ∧ ∀ k ≤ j, s[k]? ≠ some 0#8 := by
  induction s generalizing j with
  | nil => simp [upToNul]
  | cons c s ih =>
    by_cases hc : c = 0#8
    · subst hc
      refine iff_of_false (Nat.not_lt_zero j) ?_
      rintro ⟨-, hnone⟩
      exact hnone 0 (Nat.zero_le j) rfl
    · have hcons : upToNul (c :: s) = c :: upToNul s := List.takeWhile_cons_of_pos (decide_eq_true hc)
      rw [hcons, List.length_cons, List.length_cons]
      rcases j with _ | j
      · simp [hc]
      · rw [Nat.add_lt_add_iff_right, Nat.add_lt_add_iff_right, ih, and_congr_right_iff]
        refine fun _ => ⟨fun h k hk => ?_, fun h k hk => h (k + 1) (by omega)⟩
        rcases k with _ | k
        · simpa using hc
        · exact h k (by omega)

theorem getElem?_upToNul {s : List Byte} {j : ℕ} (hj : j < (upToNul s).length) : (upToNul s)[j]? = s[j]? := by
  obtain ⟨rest, hrest⟩ := List.takeWhile_prefix (l := s) fun c => decide (c ≠ 0#8)
  exact (List.getElem?_append_left hj).symm.trans (congrArg (·[j]?) hrest)

theorem agree_pieces (order : List ℕ) : Agree content (order.map (piece content)) := by
  intro w hw j hj
  obtain ⟨i, -, rfl⟩ := List.mem_map.mp hw
  have hlt : j < (chunk content i).length := (lt_length_upToNul.mp hj).1
  exact (getElem?_chunk (hlt.trans_le length_chunk_le)).symm.trans (getElem?_upToNul hj).symm

variable {x : Exchange} {count m : ℕ} {order : List ℕ}

theorem Delivers.mem_iff (h : Delivers x content count order) : i ∈ order ↔ i < count := by
  rw [h.perm.mem_iff, List.mem_range]

/-- **The bytes that are written** are those that do not lie behind a zero of their block. -/
theorem Delivers.covered_iff (h : Delivers x content count order) (hp : p < content.length) :
    Covered (order.map (piece content)) p ↔ ¬ BehindNul content p := by
  have hin : ∀ i j, j < blockLen → blockLen * i + j = p → i = p / blockLen ∧ j = p % blockLen := by
    rintro i j hj rfl
    rw [Nat.mul_add_div (by norm_num), Nat.mul_add_mod, Nat.div_eq_of_lt hj, Nat.mod_eq_of_lt hj]
    exact ⟨(Nat.add_zero i).symm, rfl⟩
  constructor
  · rintro ⟨w, hw, hle, hlt⟩ ⟨q, hq, hsame, hzero⟩
    obtain ⟨i, -, rfl⟩ := List.mem_map.mp hw
    dsimp only [piece] at hle hlt
    obtain ⟨hchunk, hnone⟩ := lt_length_upToNul.mp (show p - blockLen * i < (upToNul (chunk content i)).length by omega)
    have hp' := hin i (p - blockLen * i) (hchunk.trans_le length_chunk_le) (by omega)
    have hmod := Nat.div_add_mod q blockLen
    have hmodlt : q % blockLen < blockLen := Nat.mod_lt _ (by norm_num)
    rw [hsame, ← hp'.1] at hmod
    refine hnone (q % blockLen) (by omega) ?_
    rw [getElem?_chunk hmodlt, hmod]
    exact hzero
  · intro hnot
    have hmod := Nat.div_add_mod p blockLen
    have hmodlt : p % blockLen < blockLen := Nat.mod_lt _ (by norm_num)
    have hmem : p / blockLen ∈ order := by
      rw [h.mem_iff, Nat.div_lt_iff_lt_mul (by norm_num), Nat.mul_comm]
      exact hp.trans_le h.last
    have hlt : p % blockLen < (upToNul (chunk content (p / blockLen))).length := by
      refine lt_length_upToNul.mpr ⟨?_, fun k hk hzero => hnot ⟨blockLen * (p / blockLen) + k, by omega, ?_, ?_⟩⟩
      · rw [chunk, List.length_take, List.length_drop]
        omega
      · rw [Nat.mul_add_div (by norm_num), Nat.div_eq_of_lt (show k < blockLen by omega), Nat.add_zero]
      · rwa [getElem?_chunk (by omega)] at hzero
    refine ⟨piece content (p / blockLen), List.mem_map_of_mem hmem, ?_, ?_⟩
    · dsimp only [piece]
      omega
    · dsimp only [piece]
      omega

/-! ### The loop over the blocks -/

/-- The bytes of the first `m` blocks. -/
def sent (x : Exchange) (content : List Byte) (count : ℕ) (order : List ℕ) (m : ℕ) : List Byte :=
  (order.take m).flatMap (block x.sha content count)

/-- **Before block `m`**: the blocks before it have been written, and the next header is its header. -/
structure Ready (x : Exchange) (content : List Byte) (count : ℕ) (order : List ℕ) (m : ℕ) (s : Client) : Prop where
  pc : s.pc = .loop
  b : s.b = m
  refCount : s.refCount = BitVec.ofNat 32 count
  refHash : s.refHash = x.sha content
  file : s.file = patches 0#8 x.outputFile ((order.take m).map (piece content))
  next : ∀ i, order[m]? = some i → (nextHeader x s).header = header x.sha content count i ∧
    (nextHeader x s).pos = (sent x content count order m).length + replyHeaderLen
  taken : 0 < m → s.header.totalHash = x.sha content ∧ s.header.length.toNat ≤ maxMsgLen

variable {s : Client}

/-- The stream around block `m`. -/
theorem Delivers.reply_split (h : Delivers x content count order) (hm : order[m]? = some i) :
    ∃ post, x.reply = sent x content count order m ++ (block x.sha content count i ++ post) := by
  obtain ⟨hlt, rfl⟩ := List.getElem?_eq_some_iff.mp hm
  refine ⟨(order.drop (m + 1)).flatMap (block x.sha content count), ?_⟩
  rw [h.reply, ← List.flatMap_cons, ← List.drop_eq_getElem_cons hlt, sent, ← List.flatMap_append,
    List.take_append_drop]

theorem sent_succ (hm : order[m]? = some i) : sent x content count order (m + 1) =
    sent x content count order m ++ block x.sha content count i := by
  rw [sent, List.take_add_one, hm, List.flatMap_append]
  simp [sent]

theorem length_chunk_toNat : (BitVec.ofNat 32 (chunk content i).length).toNat = (chunk content i).length := by
  rw [BitVec.toNat_ofNat, Nat.mod_eq_of_lt (length_chunk_le.trans_lt (by norm_num))]

theorem nextHeader_file (x : Exchange) (s : Client) :
    (nextHeader x s).file = s.file ∧ (nextHeader x s).refHash = s.refHash := by
  unfold nextHeader
  split_ifs
  · exact ⟨rfl, rfl⟩
  · exact ⟨rfl, rfl⟩

/-- The header of block `m`, when the stream is where it starts. -/
theorem header_at (h : Delivers x content count order) (hm : order[m]? = some i) (buf : ℕ → Cell) :
    headerOf (readnb x.reply (sent x content count order m).length replyHeaderLen buf) =
        header x.sha content count i ∧
      advance x.reply (sent x content count order m).length replyHeaderLen =
        (sent x content count order m).length + replyHeaderLen := by
  obtain ⟨post, hreply⟩ := h.reply_split hm
  rw [block, List.append_assoc] at hreply
  refine ⟨headerOf_middle hreply buf, ?_⟩
  have hadvance := advance_middle hreply
  rwa [length_bytes] at hadvance

theorem ready_start (h : Delivers x content count order) : Ready x content count order 0 (start x) := by
  have hlen : order.length = count := by rw [h.perm.length_eq, List.length_range]
  have hpos := h.pos
  have hfirst : order[0]? = some order[0] := List.getElem?_eq_getElem _
  obtain ⟨hheader, hadvance⟩ := header_at h hfirst x.sent
  have hstart : (start x).header = header x.sha content count order[0] := hheader
  refine ⟨?_, rfl, ?_, ?_, rfl, fun i hi => ⟨?_, ?_⟩, nofun⟩
  · show (if x.command = .inform then At.returned none else .loop) = .loop
    rw [if_neg (by rw [h.command]; decide)]
  · exact congrArg ReplyHeader.blockCount hstart
  · exact congrArg ReplyHeader.totalHash hstart
  · obtain rfl := Option.some.inj (hfirst.symm.trans hi)
    exact hstart
  · exact hadvance

/-- What is written, and that the stream goes on where it is. -/
theorem takeBlock_retreive (hc : x.command = .retreive) (s : Client) :
    (takeBlock x s).refHash = s.refHash ∧
      (takeBlock x s).file = putAt s.file (s.header.thisBlock * BitVec.ofNat 32 blockLen).toNat
        (upToNul ((payload s).map Cell.byte)) := by
  unfold takeBlock
  simp only [if_pos hc]
  rw [← cString_upToNul]
  exact ⟨trivial, rfl⟩

/-- The offset of a block does not overflow. -/
theorem Delivers.offset (h : Delivers x content count order) (hsmall : content.length < 2 ^ 31) (hi : i < count) :
    (BitVec.ofNat 32 i * BitVec.ofNat 32 blockLen).toNat = blockLen * i := by
  have hle : blockLen * i ≤ content.length := (Nat.mul_le_mul_left _ (by omega)).trans h.full
  rw [← BitVec.ofNat_mul, BitVec.toNat_ofNat, Nat.mul_comm, Nat.mod_eq_of_lt (by omega)]

/-- An iteration over block `i` takes it. -/
theorem Ready.iteration_eq (h : Delivers x content count order) (hr : Ready x content count order m s)
    (hm : order[m]? = some i) :
    iteration x s = takeBlock x (readPayload x (nextHeader x s)) ∧
      (payload (readPayload x (nextHeader x s))).map Cell.byte = chunk content i ∧
      (readPayload x (nextHeader x s)).pos = (sent x content count order (m + 1)).length := by
  obtain ⟨hheader, hpos⟩ := hr.next i hm
  obtain ⟨-, -, href, -, -⟩ := nextHeader_frame x s
  have hcheck : checkHeader x (nextHeader x s) = none := by
    unfold checkHeader
    rw [hheader, href, (nextHeader_file x s).2, hr.refCount, hr.refHash, if_neg (by rintro ⟨-, hne⟩; exact hne rfl),
      if_neg (by rintro ⟨-, hne⟩; exact hne rfl), if_neg (by rintro ⟨hne, -⟩; exact hne rfl)]
  have hlength : (nextHeader x s).header.length.toNat = (chunk content i).length := by
    rw [hheader]
    exact length_chunk_toNat
  have hfits : (nextHeader x s).header.length.toNat ≤ maxMsgLen := by
    rw [hlength]
    exact length_chunk_le.trans (by norm_num)
  obtain ⟨post, hreply⟩ := h.reply_split hm
  rw [block, List.append_assoc, ← List.append_assoc] at hreply
  obtain ⟨hpayload, hafter⟩ := payload_middle hreply (by rw [hpos, List.length_append, length_bytes]) hlength
  have hsha : shaOf x (payload (readPayload x (nextHeader x s))) = (nextHeader x s).header.blockHash := by
    rw [shaOf, hpayload, hheader]
    rfl
  refine ⟨iteration_takes hcheck hfits hsha, hpayload, ?_⟩
  rw [hafter, sent_succ hm, block]
  simp only [List.length_append, Nat.add_assoc]

/-- **One block.** -/
theorem Ready.step (h : Delivers x content count order) (hsmall : content.length < 2 ^ 31)
    (hr : Ready x content count order m s) (hm : order[m]? = some i) :
    Ready x content count order (m + 1) (iteration x s) := by
  obtain ⟨heq, hpayload, hpos⟩ := hr.iteration_eq h hm
  obtain ⟨hheader, -⟩ := hr.next i hm
  obtain ⟨hpc, hb, href, -, -⟩ := nextHeader_frame x s
  obtain ⟨hpc', hb', href', hbuf', hpos', hheader', -, -⟩ := takeBlock_frame x (readPayload x (nextHeader x s))
  obtain ⟨hhash', hfile'⟩ := takeBlock_retreive h.command (readPayload x (nextHeader x s))
  have hheader'' : (takeBlock x (readPayload x (nextHeader x s))).header = header x.sha content count i :=
    hheader'.trans hheader
  rw [heq]
  refine ⟨hpc'.trans (hpc.trans hr.pc), hb'.trans (congrArg (· + 1) (hb.trans hr.b)),
    href'.trans (href.trans hr.refCount), hhash'.trans ((nextHeader_file x s).2.trans hr.refHash), ?_,
    fun next hnext => ?_, fun _ => ?_⟩
  · have hthis : (readPayload x (nextHeader x s)).header.thisBlock = BitVec.ofNat 32 i :=
      congrArg ReplyHeader.thisBlock hheader
    have hfile : (readPayload x (nextHeader x s)).file = s.file := (nextHeader_file x s).1
    rw [hfile', hpayload, hthis, h.offset hsmall (h.mem_iff.mp (List.mem_of_getElem? hm)), hfile, hr.file, putAt_eq,
      List.take_add_one, hm, List.map_append, patches, patches, List.foldl_append]
    rfl
  · have hpositive : 0 < (takeBlock x (readPayload x (nextHeader x s))).b := by
      rw [hb']
      exact Nat.succ_pos _
    rw [nextHeader, if_pos hpositive, hpos', hpos]
    exact header_at h hnext _
  · rw [hheader'']
    exact ⟨rfl, by rw [show (header x.sha content count i).length.toNat = _ from length_chunk_toNat]
                   exact length_chunk_le.trans (by norm_num)⟩

theorem Delivers.count_toNat (h : Delivers x content count order) (hsmall : content.length < 2 ^ 31) :
    (BitVec.ofNat 32 count).toNat = count := by
  have hfull : 8116 * (count - 1) ≤ content.length := h.full
  rw [BitVec.toNat_ofNat, Nat.mod_eq_of_lt (by omega)]

/-- **All blocks.** -/
theorem ready_all (h : Delivers x content count order) (hsmall : content.length < 2 ^ 31) :
    ∀ m ≤ count, Ready x content count order m (steps x m (start x)) := by
  have hlen : order.length = count := by rw [h.perm.length_eq, List.length_range]
  intro m
  induction m with
  | zero => exact fun _ => ready_start h
  | succ m ih =>
    intro hm
    have hr := ih (by omega)
    have hnext : order[m]? = some order[m] := List.getElem?_eq_getElem (by omega)
    have hcount := h.count_toNat hsmall
    have hstep : step x (steps x m (start x)) = some (iteration x (steps x m (start x))) := by
      rw [step, if_pos hr.pc, hr.b, hr.refCount, hcount, if_pos (by omega)]
    rw [steps_add, steps_succ hstep]
    exact hr.step h hsmall hnext

/-! ### The file -/

/-- **What `send_message` leaves in the file**, whatever the order of the blocks, and what it reports. -/
theorem sendMessage_file (h : Delivers x content count order) (hsmall : content.length < 2 ^ 31) :
    (sendMessage x).file = patches 0#8 x.outputFile (order.map (piece content)) ∧
      (x.sha (patches 0#8 x.outputFile (order.map (piece content))) = x.sha content →
        (sendMessage x).pc = .returned none) := by
  have hr := ready_all h hsmall count le_rfl
  have hlen : order.length = count := by rw [h.perm.length_eq, List.length_range]
  have hcount := h.count_toNat hsmall
  have hrefCount : (start x).refCount = BitVec.ofNat 32 count := (ready_start h).refCount
  have hfile := hr.file
  rw [← hlen, List.take_length, hlen] at hfile
  obtain ⟨htotal, hfits⟩ := hr.taken h.pos
  have hstep : step x (steps x count (start x)) = some (finish x (steps x count (start x))) := by
    rw [step, if_pos hr.pc, hr.b, hr.refCount, hcount, if_neg (lt_irrefl _)]
  have hsend : sendMessage x = finish x (steps x count (start x)) := by
    rw [sendMessage, hrefCount, hcount, steps_add, steps_succ hstep]
    rfl
  have hregister : ¬ ((steps x count (start x)).header.status = statusOk ∧ x.command = .register) := by
    rw [h.command]
    rintro ⟨-, ⟨⟩⟩
  rw [hsend, ← hfile]
  unfold finish
  rw [htotal, if_neg (not_lt.mpr hfits), if_neg hregister]
  split_ifs with hsha
  · exact ⟨rfl, fun heq => absurd heq hsha.2⟩
  · exact ⟨rfl, fun _ => rfl⟩

/-- **The pieces make up the content** if and only if the file suits it. -/
theorem suits_iff (h : Delivers x content count order) (hsmall : content.length < 2 ^ 31) :
    patches 0#8 x.outputFile (order.map (piece content)) = content ↔ Suits x.outputFile content := by
  rw [patches_eq_iff (agree_pieces order)]
  have hlast : (content.length ≤ x.outputFile.length ∨ Covered (order.map (piece content)) (content.length - 1)) ↔
      (content.length ≤ x.outputFile.length ∨ ¬ BehindNul content (content.length - 1)) := by
    rcases Nat.eq_zero_or_pos content.length with hzero | hpos
    · exact iff_of_true (Or.inl (by omega)) (Or.inl (by omega))
    · rw [h.covered_iff (by omega)]
  constructor
  · rintro ⟨hshorter, hkept, hreached⟩
    refine ⟨hshorter, fun p hp hbehind => hkept p hp fun hcovered => ?_, hlast.mp hreached, hsmall⟩
    exact (h.covered_iff hp).mp hcovered hbehind
  · rintro ⟨hshorter, hkept, hreached, -⟩
    refine ⟨hshorter, fun p hp hcovered => hkept p hp ?_, hlast.mpr hreached⟩
    by_contra hbehind
    exact hcovered ((h.covered_iff hp).mpr hbehind)

/-- **A file arrives** if and only if what the output file held before suits it. -/
theorem reassembles_iff (h : Delivers x content count order) :
    Reassembles x content ↔ Suits x.outputFile content := by
  constructor
  · rintro ⟨hfile, hsmall, -⟩
    rw [hfile] at hsmall
    rw [← suits_iff h hsmall, ← (sendMessage_file h hsmall).1, hfile]
  · intro hsuits
    have hsmall := hsuits.small
    obtain ⟨hfile, haccepted⟩ := sendMessage_file h hsmall
    rw [(suits_iff h hsmall).mpr hsuits] at hfile haccepted
    exact ⟨hfile, by rw [hfile]; exact hsmall, haccepted rfl⟩

/-- A client that fetches a file of one block. -/
def fetching (file content : List Byte) : Exchange where
  sha := fun bytes k => bytes.getD k 0#8
  command := .retreive
  requestBody := []
  myAddress := ⟨fun _ => 0#8, fun _ => 0#8⟩
  stack := fun _ => 0#8
  heap := fun _ => 0#8
  outputFile := file
  reply := block (fun bytes k => bytes.getD k 0#8) content 1 0

theorem delivers_fetching (file : List Byte) (hlen : content.length ≤ blockLen) :
    Delivers (fetching file content) content 1 [0] := by
  refine ⟨rfl, Nat.one_pos, Nat.zero_le _, by omega, List.Perm.refl _, ?_⟩
  exact (List.append_nil _).symm

/-- **The letter `A`**, into a new file. -/
theorem reassembles_letter : Reassembles (fetching [] [65#8]) [65#8] := by
  refine (reassembles_iff (delivers_fetching [] (by decide))).mpr ⟨by decide, ?_, Or.inr ?_, by norm_num⟩
  · rintro p hp ⟨q, hq, -, hzero⟩
    obtain rfl : q = 0 := by
      simp only [List.length_singleton] at hp
      omega
    exact absurd hzero (by decide)
  · rintro ⟨q, hq, -, hzero⟩
    obtain rfl : q = 0 := by simpa using hq
    exact absurd hzero (by decide)

/-- **A zero byte is lost, and an old byte stays**: a file of one zero byte arrives empty, and the letter `A`
in a file that held `BC` gives `AC`. -/
theorem zero_byte_lost : Delivers (fetching [] [0#8]) [0#8] 1 [0] ∧ ¬ Reassembles (fetching [] [0#8]) [0#8] ∧
    Delivers (fetching [66#8, 67#8] [65#8]) [65#8] 1 [0] ∧
    ¬ Reassembles (fetching [66#8, 67#8] [65#8]) [65#8] := by
  have hzero : Delivers (fetching [] [0#8]) [0#8] 1 [0] := delivers_fetching _ (by decide)
  have hold : Delivers (fetching [66#8, 67#8] [65#8]) [65#8] 1 [0] := delivers_fetching _ (by decide)
  refine ⟨hzero, fun h => ?_, hold, fun h => ?_⟩
  · have hfile := (sendMessage_file hzero (by norm_num)).1.symm.trans h.file
    exact absurd hfile (by decide)
  · have hfile := (sendMessage_file hold (by norm_num)).1.symm.trans h.file
    exact absurd hfile (by decide)

end CompSys.A4.Reassembly
