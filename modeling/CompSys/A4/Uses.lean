import CompSys.A4.SendMessage

/-! # What a client makes use of

A use is verified if it is made of bytes of a payload that was read from the reply in full, after a header
with status `STATUS_OK` and the hash of that payload. `send_message` checks status and hash. It does not
check that a payload was read in full, that it fits into `msg_buf`, that there was a block at all, or that
a block is long enough for an address. `Guarded` says that this does no harm in a step; all uses are
verified exactly when it does none in any step (`verified_iff`). -/

namespace CompSys.A4.Uses

open CompSys.Lib.Runs CompSys.A4.Wire CompSys.A4.SendMessage

/-- Bytes of the reply. -/
def replyCells (reply : List Byte) (pos n : ℕ) : List Cell :=
  (List.range n).map fun i => ⟨reply.getD (pos + i) 0#8, some (pos + i)⟩

/-- The reply holds the block in full. -/
def Whole (x : Exchange) (b : Block) : Prop :=
  b.pos + replyHeaderLen + b.header.length.toNat ≤ x.reply.length

/-- A block of the reply with status `STATUS_OK` and the right hash. -/
structure Genuine (x : Exchange) (b : Block) : Prop where
  whole : Whole x b
  header : b.header = readHeader fun i => x.reply.getD (b.pos + i) 0#8
  status : b.header.status = statusOk
  payload : b.payload = replyCells x.reply (b.pos + replyHeaderLen) b.header.length.toNat
  hash : shaOf x b.payload = b.header.blockHash

/-- A use that takes nothing, or bytes of a genuine block. -/
def VerifiedUse (x : Exchange) (u : Use) : Prop :=
  u.cells ≠ [] → ∃ b, u.block = some b ∧ Genuine x b ∧ ∀ c ∈ u.cells, c ∈ b.payload

/-- **All uses are verified.** -/
structure Verified (x : Exchange) (s : Client) : Prop where
  defined : s.pc ≠ .overrun
  uses : ∀ u ∈ s.uses, VerifiedUse x u

/-- **What a step needs and does not check.** -/
structure Guarded (x : Exchange) (s : Client) : Prop where
  fits : s.b < s.refCount.toNat → checkHeader x (nextHeader x s) = none →
    (nextHeader x s).header.length.toNat ≤ maxMsgLen
  complete : s.b < s.refCount.toNat → checkHeader x (nextHeader x s) = none → x.command = .retreive →
    shaOf x (payload (readPayload x (nextHeader x s))) = (nextHeader x s).header.blockHash →
    cString (payload (readPayload x (nextHeader x s))) ≠ [] →
    (nextHeader x s).pos + (nextHeader x s).header.length.toNat ≤ x.reply.length
  fitsBody : ¬ s.b < s.refCount.toNat → ¬ (x.command = .retreive ∧ x.sha s.file ≠ s.header.totalHash) →
    s.header.length.toNat ≤ maxMsgLen
  address : ¬ s.b < s.refCount.toNat → s.header.status = statusOk → x.command = .register →
    networkAddressLen ≤ s.header.length.toNat ∧ ∃ b, s.blocks.getLast? = some b ∧ Whole x b

variable {x : Exchange} {s s' : Client}

/-! ### Reading -/

/-- The header in the buffer was read from the reply, as far as that goes. -/
structure Loaded (x : Exchange) (s : Client) : Prop where
  pos : s.pos = advance x.reply s.headerPos replyHeaderLen
  buffer : ∃ buf, s.msgBuf = readnb x.reply s.headerPos replyHeaderLen buf
  header : s.header = headerOf s.msgBuf

theorem readnb_of_le {reply : List Byte} {pos n i : ℕ} (buf : ℕ → Cell) (hi : i < n)
    (h : pos + n ≤ reply.length) : readnb reply pos n buf i = ⟨reply.getD (pos + i) 0#8, some (pos + i)⟩ :=
  if_pos ⟨hi, by omega⟩

/-- **A whole block** is what the reply holds there. -/
theorem Loaded.whole (h : Loaded x s)
    (hw : Whole x ⟨s.headerPos, s.header, payload (readPayload x s)⟩) :
    s.header = (readHeader fun i => x.reply.getD (s.headerPos + i) 0#8) ∧
      payload (readPayload x s) =
        replyCells x.reply (s.headerPos + replyHeaderLen) s.header.length.toNat := by
  have hw' : s.headerPos + replyHeaderLen + s.header.length.toNat ≤ x.reply.length := hw
  obtain ⟨buf, hbuf⟩ := h.buffer
  constructor
  · rw [h.header, headerOf, hbuf]
    refine readHeader_congr fun i hi => ?_
    rw [readnb_of_le buf hi (by omega)]
  · have hpos : s.pos = s.headerPos + replyHeaderLen := by
      rw [h.pos, advance]
      omega
    unfold payload replyCells
    refine List.map_congr_left fun i hi => ?_
    rw [← hpos]
    exact readnb_of_le _ (List.mem_range.mp hi) (by omega)

/-- A payload that is not empty comes from a whole block if the reply holds it. -/
theorem Loaded.whole_iff (h : Loaded x s) (hl : 0 < s.header.length.toNat) :
    Whole x ⟨s.headerPos, s.header, payload (readPayload x s)⟩ ↔
      s.pos + s.header.length.toNat ≤ x.reply.length := by
  rw [h.pos]
  show s.headerPos + replyHeaderLen + s.header.length.toNat ≤ _ ↔ _
  unfold advance
  omega

/-! ### The invariant -/

/-- At the test of the loop: before the first block its header is loaded, later the last block is the one
in the buffer. -/
structure AtLoop (x : Exchange) (s : Client) : Prop where
  first : s.b = 0 → Loaded x s ∧ s.blocks = []
  later : 0 < s.b → ∃ b, s.blocks.getLast? = some b ∧ b.header = s.header ∧ b.payload = payload s ∧
    shaOf x b.payload = b.header.blockHash ∧
    (Whole x b → b.header = (readHeader fun i => x.reply.getD (b.pos + i) 0#8) ∧
      b.payload = replyCells x.reply (b.pos + replyHeaderLen) b.header.length.toNat)

theorem atLoop_start (x : Exchange) : AtLoop x (start x) :=
  ⟨fun _ => ⟨⟨rfl, ⟨_, rfl⟩, rfl⟩, rfl⟩, fun h => absurd h (lt_irrefl 0)⟩

/-- The header of an iteration is loaded. -/
theorem AtLoop.loaded (h : AtLoop x s) : Loaded x (nextHeader x s) := by
  unfold nextHeader
  split_ifs with hb
  · exact ⟨rfl, ⟨_, rfl⟩, rfl⟩
  · exact (h.first (by omega)).1

/-- **A block that is taken** is the one in the buffer. -/
theorem AtLoop.takeBlock (h : AtLoop x s)
    (hs : shaOf x (payload (readPayload x (nextHeader x s))) = (nextHeader x s).header.blockHash) :
    AtLoop x (takeBlock x (readPayload x (nextHeader x s))) := by
  obtain ⟨-, hb, -, hbuf, -, hheader, hblocks, -⟩ := takeBlock_frame x (readPayload x (nextHeader x s))
  refine ⟨fun h0 => by omega, fun _ => ⟨_, by rw [hblocks, List.getLast?_concat], hheader.symm, ?_, hs, ?_⟩⟩
  · unfold payload
    rw [hheader, hbuf]
  · exact h.loaded.whole

theorem AtLoop.step (h : AtLoop x s) (hr : step x s = some s') (hl : s'.pc = .loop) : AtLoop x s' := by
  unfold SendMessage.step at hr
  split_ifs at hr with hloop hb
  · obtain rfl := Option.some.inj hr
    rcases iteration_cases x s with ⟨e, he, -⟩ | ⟨-, ⟨he, -⟩ | ⟨-, ⟨he, -⟩ | ⟨he, hs⟩⟩⟩
    · rw [he] at hl; cases hl
    · rw [he] at hl; cases hl
    · rw [he] at hl; cases hl
    · rw [he]; exact h.takeBlock hs
  · obtain rfl := Option.some.inj hr
    exact absurd hl (finish_pc x s)

theorem atLoop_of_reached (h : Reached x s) : s.pc = .loop → AtLoop x s := by
  refine h.invariant (I := fun s => s.pc = .loop → AtLoop x s) (fun s s' hI hr hl => ?_) fun _ =>
    atLoop_start x
  refine (hI ?_).step hr hl
  by_contra hpc
  rw [SendMessage.step, if_neg hpc] at hr
  cases hr

/-! ### A guarded step -/

/-- What is written is not empty only if the payload is not. -/
theorem length_pos_of_written (hne : cString (payload (readPayload x s)) ≠ []) :
    0 < s.header.length.toNat := by
  by_contra h0
  have hzero : s.header.length.toNat = 0 := by omega
  refine hne ?_
  show cString ((List.range s.header.length.toNat).map _) = []
  rw [hzero]
  rfl

/-- What an iteration writes is verified if it is read in full. -/
theorem verified_written (h : Loaded x s) (hc : checkHeader x s = none) (hr : x.command = .retreive)
    (hs : shaOf x (payload (readPayload x s)) = s.header.blockHash)
    (hcomplete : cString (payload (readPayload x s)) ≠ [] →
      s.pos + s.header.length.toNat ≤ x.reply.length) :
    VerifiedUse x ⟨some ⟨s.headerPos, s.header, payload (readPayload x s)⟩,
      cString (payload (readPayload x s))⟩ := by
  intro hne
  have hw := (h.whole_iff (length_pos_of_written hne)).mpr (hcomplete hne)
  obtain ⟨hheader, hpay⟩ := h.whole hw
  refine ⟨_, rfl, ⟨hw, hheader, ?_, hpay, hs⟩, fun c hc => (List.takeWhile_sublist _).subset hc⟩
  -- a block of a file has no other status
  unfold checkHeader at hc
  split_ifs at hc with h1 h2 h3
  by_contra hst
  exact h3 ⟨hst, fun hreg => by rw [hr] at hreg; cases hreg.1⟩

/-- The address of a reply is verified if the last block is whole and long enough. -/
theorem verified_address (h : AtLoop x s) (hst : s.header.status = statusOk)
    (hlen : networkAddressLen ≤ s.header.length.toNat) {b : Block} (hb : s.blocks.getLast? = some b)
    (hw : Whole x b) :
    VerifiedUse x ⟨s.blocks.getLast?, (List.range networkAddressLen).map (replyBody x s)⟩ := by
  have hpos : 0 < s.b := by
    by_contra h0
    rw [(h.first (by omega)).2] at hb
    cases hb
  obtain ⟨b', hb', hheader, hpay, hsha, hgen⟩ := h.later hpos
  obtain rfl : b' = b := Option.some.inj (hb'.symm.trans hb)
  obtain ⟨hh, hp⟩ := hgen hw
  refine fun _ => ⟨b', hb, ⟨hw, hh, hheader ▸ hst, hp, hsha⟩, fun c hc => ?_⟩
  obtain ⟨i, hi, rfl⟩ := List.mem_map.mp hc
  have hi' : i < s.header.length.toNat := lt_of_lt_of_le (List.mem_range.mp hi) hlen
  rw [hpay, replyBody, if_pos hi']
  exact List.mem_map.mpr ⟨i, List.mem_range.mpr hi', rfl⟩

theorem Verified.append {u : Use} (h : Verified x s) (hu : VerifiedUse x u) {s' : Client}
    (hpc : s'.pc ≠ .overrun) (huses : s'.uses = s.uses ++ [u]) : Verified x s' := by
  refine ⟨hpc, fun v hv => ?_⟩
  rw [huses] at hv
  rcases List.mem_append.mp hv with hv | hv
  · exact h.uses v hv
  · obtain rfl := List.mem_singleton.mp hv
    exact hu

/-- **A guarded step** uses what is verified. -/
theorem verified_step (h : AtLoop x s) (hv : Verified x s) (hg : Guarded x s)
    (hr : step x s = some s') : Verified x s' := by
  obtain ⟨hpc, -, -, -, huses⟩ := nextHeader_frame x s
  unfold step at hr
  split_ifs at hr with hloop hb
  · obtain rfl := Option.some.inj hr
    rcases iteration_cases x s with ⟨e, he, -⟩ | ⟨hc, ⟨-, hl⟩ | ⟨-, ⟨he, -⟩ | ⟨he, hs⟩⟩⟩
    · rw [he]
      exact ⟨nofun, fun u hu => hv.uses u (huses ▸ hu)⟩
    · exact absurd (hg.fits hb hc) (not_le.mpr hl)
    · rw [he]
      exact ⟨nofun, fun u hu => hv.uses u (huses ▸ hu)⟩
    · rw [he]
      obtain ⟨hpc', -, -, -, -, -, -, huses'⟩ := takeBlock_frame x (readPayload x (nextHeader x s))
      have hdef : (takeBlock x (readPayload x (nextHeader x s))).pc ≠ .overrun := by
        rw [hpc', show (readPayload x (nextHeader x s)).pc = s.pc from hpc, hloop]
        nofun
      by_cases hret : x.command = .retreive
      · rw [if_pos hret] at huses'
        refine (⟨hv.defined, fun u hu => hv.uses u hu⟩ : Verified x s).append
          (verified_written h.loaded hc hret hs (hg.complete hb hc hret hs)) hdef ?_
        rw [huses', show (readPayload x (nextHeader x s)).uses = s.uses from huses]
        rfl
      · rw [if_neg hret, List.append_nil] at huses'
        refine ⟨hdef, fun u hu => hv.uses u ?_⟩
        rw [huses', show (readPayload x (nextHeader x s)).uses = s.uses from huses] at hu
        exact hu
  · obtain rfl := Option.some.inj hr
    unfold finish
    split_ifs with hfile hl hadd
    · exact ⟨nofun, hv.uses⟩
    · exact absurd (hg.fitsBody hb hfile) (not_le.mpr hl)
    · obtain ⟨hlen, b, hlast, hw⟩ := hg.address hb hadd.1 hadd.2
      exact hv.append (verified_address h hadd.1 hlen hlast hw) nofun rfl
    · exact ⟨nofun, hv.uses⟩

/-! ### A step that is not guarded -/

/-- A use of the last block's payload that is verified was read in full. -/
theorem complete_of_verified (h : Loaded x s)
    (hu : VerifiedUse x ⟨some ⟨s.headerPos, s.header, payload (readPayload x s)⟩,
      cString (payload (readPayload x s))⟩) (hne : cString (payload (readPayload x s)) ≠ []) :
    s.pos + s.header.length.toNat ≤ x.reply.length := by
  obtain ⟨b, hb, hgen, -⟩ := hu hne
  obtain rfl := Option.some.inj hb
  exact (h.whole_iff (length_pos_of_written hne)).mp hgen.whole

/-- An address that is verified lies in a whole block. -/
theorem address_of_verified
    (hu : VerifiedUse x ⟨s.blocks.getLast?, (List.range networkAddressLen).map (replyBody x s)⟩) :
    networkAddressLen ≤ s.header.length.toNat ∧ ∃ b, s.blocks.getLast? = some b ∧ Whole x b := by
  obtain ⟨b, hb, hgen, hmem⟩ := hu (by simp [networkAddressLen])
  refine ⟨?_, b, hb, hgen.whole⟩
  by_contra hlen
  -- the first byte behind the payload is the zero that `memset` leaves
  have hcell : (⟨0#8, none⟩ : Cell) ∈ (List.range networkAddressLen).map (replyBody x s) := by
    refine List.mem_map.mpr ⟨s.header.length.toNat, List.mem_range.mpr (not_le.mp hlen), ?_⟩
    rw [replyBody, if_neg (lt_irrefl _), if_pos rfl]
  have hmem' := hmem _ hcell
  rw [hgen.payload] at hmem'
  obtain ⟨i, -, hi⟩ := List.mem_map.mp hmem'
  cases congrArg Cell.origin hi

/-- **A step that ends with all uses verified** was guarded. -/
theorem guarded_of_verified (h : AtLoop x s) (hr : step x s = some s') (hv : Verified x s') :
    Guarded x s := by
  obtain ⟨-, -, -, -, huses⟩ := nextHeader_frame x s
  unfold step at hr
  split_ifs at hr with hloop hb
  · obtain rfl := Option.some.inj hr
    have hfits : checkHeader x (nextHeader x s) = none →
        (nextHeader x s).header.length.toNat ≤ maxMsgLen := by
      intro hc
      rcases iteration_cases x s with ⟨e, -, he⟩ | ⟨-, ⟨he, -⟩ | ⟨hl, -⟩⟩
      · rw [hc] at he
        cases he
      · exact absurd (by rw [he]) hv.defined
      · exact hl
    refine ⟨fun _ => hfits, fun _ hc hret hs hne => ?_, fun hn => absurd hb hn, fun hn => absurd hb hn⟩
    rcases iteration_cases x s with ⟨e, -, he⟩ | ⟨-, ⟨-, hl⟩ | ⟨-, ⟨-, hs'⟩ | ⟨he, -⟩⟩⟩
    · rw [hc] at he
      cases he
    · exact absurd (hfits hc) (not_le.mpr hl)
    · exact absurd hs hs'
    · obtain ⟨-, -, -, -, -, -, -, huses'⟩ := takeBlock_frame x (readPayload x (nextHeader x s))
      refine complete_of_verified h.loaded (hv.uses _ ?_) hne
      rw [he, huses', if_pos hret]
      exact List.mem_append_right _ (List.mem_singleton.mpr rfl)
  · obtain rfl := Option.some.inj hr
    have hfits : ¬ (x.command = .retreive ∧ x.sha s.file ≠ s.header.totalHash) →
        s.header.length.toNat ≤ maxMsgLen := by
      intro hfile
      by_contra hl
      exact hv.defined (by rw [finish, if_neg hfile, if_pos (not_le.mp hl)])
    refine ⟨fun hn => absurd hn hb, fun hn => absurd hn hb, fun _ => hfits, fun _ hst hreg => ?_⟩
    have hfile : ¬ (x.command = .retreive ∧ x.sha s.file ≠ s.header.totalHash) := by
      rintro ⟨hret, -⟩
      rw [hreg] at hret
      cases hret
    refine address_of_verified (hv.uses _ ?_)
    rw [finish, if_neg hfile, if_neg (not_lt.mpr (hfits hfile)), if_pos ⟨hst, hreg⟩]
    exact List.mem_append_right _ (List.mem_singleton.mpr rfl)

/-! ### Whole runs -/

/-- What is not verified stays so. -/
theorem verified_of_step (hr : step x s = some s') (hv : Verified x s') : Verified x s := by
  have hsub : ∀ u ∈ s.uses, u ∈ s'.uses := by
    obtain ⟨-, -, -, -, huses⟩ := nextHeader_frame x s
    unfold step at hr
    split_ifs at hr with hloop hb
    · obtain rfl := Option.some.inj hr
      intro u hu
      rcases iteration_cases x s with ⟨e, he, -⟩ | ⟨-, ⟨he, -⟩ | ⟨-, ⟨he, -⟩ | ⟨he, -⟩⟩⟩
      · rw [he]; exact huses.symm ▸ hu
      · rw [he]; exact huses.symm ▸ hu
      · rw [he]; exact huses.symm ▸ hu
      · obtain ⟨-, -, -, -, -, -, -, huses'⟩ := takeBlock_frame x (readPayload x (nextHeader x s))
        rw [he, huses', show (readPayload x (nextHeader x s)).uses = s.uses from huses]
        exact List.mem_append_left _ hu
    · obtain rfl := Option.some.inj hr
      intro u hu
      unfold finish
      split_ifs
      · exact hu
      · exact hu
      · exact List.mem_append_left _ hu
      · exact hu
  refine ⟨fun hpc => ?_, fun u hu => hv.uses u (hsub u hu)⟩
  rw [step, if_neg (by rw [hpc]; rintro ⟨⟩)] at hr
  cases hr

theorem verified_of_steps {n : ℕ} (hv : Verified x (steps x n s)) : Verified x s := by
  induction n generalizing s with
  | zero => exact hv
  | succ n ih =>
    cases hr : step x s with
    | none => simpa only [steps, hr] using hv
    | some s' =>
      rw [steps_succ hr] at hv
      exact verified_of_step hr (ih hv)

theorem verified_start (x : Exchange) : Verified x (start x) := by
  refine ⟨?_, nofun⟩
  show (if x.command = .inform then At.returned none else At.loop) ≠ .overrun
  split_ifs <;> nofun

/-- **Only verified payload is used** by `send_message`, for any reply, exactly if every step of it on
this reply is guarded. -/
theorem verified_iff (x : Exchange) :
    Verified x (sendMessage x) ↔ ∀ s, Reached x s → s.pc = .loop → Guarded x s := by
  constructor
  · intro hv s hs hpc
    obtain ⟨s', hr⟩ : ∃ s', step x s = some s' := by
      unfold step
      rw [if_pos hpc]
      exact ⟨_, rfl⟩
    rw [sendMessage_of_reached hs, steps_succ hr] at hv
    exact guarded_of_verified (atLoop_of_reached hs hpc) hr (verified_of_steps hv)
  · intro hg
    have hall : ∀ s, Reached x s → Verified x s := by
      rintro s ⟨n, hn⟩
      induction hn with
      | refl => exact verified_start x
      | @tail n s s' hn hr ih =>
        have hpc : s.pc = .loop := by
          by_contra hpc
          rw [step, if_neg hpc] at hr
          cases hr
        exact verified_step (atLoop_of_reached ⟨n, hn⟩ hpc) ih (hg s ⟨n, hn⟩ hpc) hr
    exact hall _ (reached_steps _ (reached_start x))

/-- A reply to a register request with status `STATUS_OK`, length 20, and no blocks. -/
def noBlocks : Exchange where
  sha := fun _ _ => 0#8
  command := .register
  requestBody := []
  myAddress := ⟨fun _ => 0#8, fun _ => 0#8⟩
  stack := fun _ => 0#8
  heap := fun _ => 0#8
  outputFile := []
  reply := [0#8, 0#8, 0#8, 20#8, 0#8, 0#8, 0#8, 1#8] ++ List.replicate 72 0#8

/-- **The header becomes an address**: there is no block, and the first bytes of `msg_buf` are used. -/
theorem noBlocks_unverified : ¬ Verified noBlocks (sendMessage noBlocks) := by
  have hcount : (start noBlocks).refCount = 0#32 := by decide
  have hlength : (start noBlocks).header.length = 20#32 := by decide
  have hstatus : (start noBlocks).header.status = statusOk := by decide
  have hend : sendMessage noBlocks = finish noBlocks (start noBlocks) := by
    have hb : ¬ (start noBlocks).b < (start noBlocks).refCount.toNat := by
      rw [hcount]
      exact Nat.not_lt_zero _
    have hr : step noBlocks (start noBlocks) = some (finish noBlocks (start noBlocks)) := by
      unfold step
      rw [if_pos (show (start noBlocks).pc = .loop from rfl), if_neg hb]
    unfold sendMessage
    rw [hcount]
    exact steps_succ hr
  intro hv
  have hu : (⟨none, (List.range networkAddressLen).map (replyBody noBlocks (start noBlocks))⟩ : Use) ∈
      (sendMessage noBlocks).uses := by
    rw [hend, finish, if_neg (fun h => by cases h.1), if_neg (by rw [hlength]; decide),
      if_pos ⟨hstatus, rfl⟩]
    exact List.mem_singleton.mpr rfl
  obtain ⟨b, hb, -⟩ := hv.uses _ hu (by simp [networkAddressLen])
  cases hb

end CompSys.A4.Uses
