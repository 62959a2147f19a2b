import CompSys.A4.Wire

/-! # The buffered reader (`A4/src/compsys_helpers.c`)

`compsys_helper_readnb` takes bytes out of a buffer of 8192 bytes that is filled anew, from its start on,
whenever it is empty. The network cuts what a peer sends into reads as it likes; `unread` is what is still
to come, in the buffer and after it.

`readnb_spec`: a call returns the next `n` bytes of the stream, however it is cut. What it leaves in the
buffer depends on the cuts (`buf_readnb`): it is the read that brings the last of the `n` bytes. -/

namespace CompSys.A4.ReadBuffer

open CompSys.A4.Wire

/-- `COMPSYS_BUFSIZE`. -/
abbrev bufSize : ℕ := 8192

/-- What a `read` of the buffer's size returns: at least one byte, and no more than there is room for. -/
structure Fragment where
  bytes : List Byte
  pos : 0 < bytes.length
  fits : bytes.length ≤ bufSize

/-- `compsys_helper_state_t`. The descriptor is what the network still delivers, read by read, before the
connection is closed. -/
structure Reader where
  incoming : List Fragment
  cnt : ℕ
  /-- As an index into the buffer. -/
  bufptr : ℕ
  buf : ℕ → Byte
  inside : bufptr + cnt ≤ bufSize

/-- `compsys_helper_readinitb`, on a state whose buffer holds `buf`. -/
def readinitb (buf : ℕ → Byte) (incoming : List Fragment) : Reader := ⟨incoming, 0, 0, buf, Nat.zero_le _⟩

/-- Bytes that are written over the start of a buffer. -/
def fill (bytes : List Byte) (buf : ℕ → Byte) : ℕ → Byte := fun i =>
  if i < bytes.length then bytes.getD i 0#8 else buf i

/-- The loop that fills the buffer when it is empty. -/
def refill (r : Reader) : Reader :=
  if 0 < r.cnt then r
  else match r.incoming with
    | [] => r
    | f :: fs => ⟨fs, f.bytes.length, 0, fill f.bytes r.buf, (Nat.zero_add _).trans_le f.fits⟩

/-- `cnt` bytes of a buffer from `start` on. -/
def window (buf : ℕ → Byte) (start cnt : ℕ) : List Byte := (List.range cnt).map fun i => buf (start + i)

/-- The bytes that are copied from the buffer, at most `n`. -/
def take (r : Reader) (n : ℕ) : List Byte × Reader :=
  (window r.buf r.bufptr (min n r.cnt),
    { r with cnt := r.cnt - min n r.cnt, bufptr := r.bufptr + min n r.cnt, inside := by have := r.inside; omega })

/-- `compsys_helper_read`, of less than `2^31` bytes: none at the end of the stream. -/
def read (r : Reader) (n : ℕ) : List Byte × Reader := take (refill r) n

/-- The loop of `compsys_helper_readnb`, with `nleft` bytes to go. A round brings at least a byte, or is
the last one. -/
def readnbLoop : ℕ → ℕ → Reader → List Byte × Reader
  | 0, _, r => ([], r)
  | fuel + 1, nleft, r =>
    if nleft = 0 then ([], r)
    else
      let (bytes, r) := read r nleft
      if bytes = [] then ([], r)
      else
        let (rest, r) := readnbLoop fuel (nleft - bytes.length) r
        (bytes ++ rest, r)

/-- **`compsys_helper_readnb`.** -/
def readnb (r : Reader) (n : ℕ) : List Byte × Reader := readnbLoop n n r

/-- The bytes of some reads. -/
def stream (incoming : List Fragment) : List Byte := incoming.flatMap Fragment.bytes

/-- The bytes that have not been returned yet. -/
def Reader.unread (r : Reader) : List Byte := window r.buf r.bufptr r.cnt ++ stream r.incoming

/-- **The read that brings byte `n` of the stream**, counted from one, and how many bytes came before it. -/
def completing : ℕ → List Fragment → Option (ℕ × Fragment)
  | _, [] => none
  | n, f :: fs =>
    if n ≤ f.bytes.length then some (0, f)
    else (completing (n - f.bytes.length) fs).map fun c => (f.bytes.length + c.1, c.2)

/-! ### One read -/

variable {buf : ℕ → Byte} {r : Reader} {n : ℕ}

@[simp] theorem length_window (buf : ℕ → Byte) (start cnt : ℕ) : (window buf start cnt).length = cnt := by
  simp [window]

theorem window_add (buf : ℕ → Byte) (start a b : ℕ) :
    window buf start (a + b) = window buf start a ++ window buf (start + a) b := by
  simp only [window, List.range_add, List.map_append, List.map_map, Function.comp_def, Nat.add_assoc]

/-- A buffer holds what has been written to its start. -/
theorem window_fill (bytes : List Byte) (buf : ℕ → Byte) : window (fill bytes buf) 0 bytes.length = bytes := by
  refine List.ext_getElem (length_window _ _ _) fun i _ hi => ?_
  simp only [window, List.getElem_map, List.getElem_range, Nat.zero_add, fill, if_pos hi]
  exact List.getD_eq_getElem _ _ hi

theorem fill_of_lt {bytes : List Byte} {i : ℕ} (h : i < bytes.length) : fill bytes buf i = bytes.getD i 0#8 :=
  if_pos h

/-- An empty buffer is filled with the next read. -/
theorem refill_empty (h : r.cnt = 0) {f : Fragment} {fs : List Fragment} (hin : r.incoming = f :: fs) :
    (refill r).incoming = fs ∧ (refill r).cnt = f.bytes.length ∧ (refill r).bufptr = 0 ∧
      (refill r).buf = fill f.bytes r.buf := by
  unfold refill
  rw [if_neg (by omega)]
  split
  · simp_all
  · rename_i g gs heq
    rw [hin] at heq
    cases heq
    exact ⟨rfl, rfl, rfl, rfl⟩

theorem refill_eq (h : 0 < r.cnt ∨ r.incoming = []) : refill r = r := by
  unfold refill
  split_ifs with hc
  · rfl
  · split
    · rfl
    · simp_all

/-- Filling the buffer changes nothing in what is to come, and leaves it empty at the end only. -/
theorem refill_spec (r : Reader) : (refill r).unread = r.unread ∧ ((refill r).cnt = 0 → r.unread = []) := by
  rcases Nat.eq_zero_or_pos r.cnt with hcnt | hcnt
  · cases hin : r.incoming with
    | nil =>
      rw [refill_eq (Or.inr hin)]
      exact ⟨rfl, fun _ => by simp [Reader.unread, window, stream, hcnt, hin]⟩
    | cons f fs =>
      obtain ⟨hincoming, hcnt', hptr, hbuf⟩ := refill_empty hcnt hin
      refine ⟨?_, fun h => absurd f.pos (by omega)⟩
      rw [Reader.unread, hincoming, hcnt', hptr, hbuf, window_fill, Reader.unread, hcnt, hin]
      rfl
  · rw [refill_eq (Or.inl hcnt)]
    exact ⟨rfl, fun h => absurd h (by omega)⟩

/-- Bytes that are taken out of the buffer are the next of the stream. -/
theorem take_spec (r : Reader) (n : ℕ) :
    r.unread.take (min n r.cnt) = (take r n).1 ∧ r.unread.drop (min n r.cnt) = (take r n).2.unread := by
  have hsplit : window r.buf r.bufptr r.cnt = (take r n).1 ++
      window r.buf (r.bufptr + min n r.cnt) (r.cnt - min n r.cnt) := by
    rw [take, ← window_add, Nat.add_sub_cancel' (min_le_right n r.cnt)]
  have hlength : (take r n).1.length = min n r.cnt := length_window _ _ _
  rw [Reader.unread, hsplit, List.append_assoc]
  exact ⟨List.take_left' hlength, List.drop_left' hlength⟩

/-- **One `compsys_helper_read`** returns some of the next bytes, and none only at the end. -/
theorem read_spec (r : Reader) (n : ℕ) :
    (read r n).1 = r.unread.take (read r n).1.length ∧ (read r n).2.unread = r.unread.drop (read r n).1.length ∧
      (read r n).1.length ≤ n ∧ ((read r n).1 = [] → n = 0 ∨ r.unread = []) := by
  obtain ⟨hunread, hend⟩ := refill_spec r
  obtain ⟨htake, hdrop⟩ := take_spec (refill r) n
  have hlength : (read r n).1.length = min n (refill r).cnt := length_window _ _ _
  rw [hunread] at htake hdrop
  rw [hlength]
  refine ⟨htake.symm, hdrop.symm, min_le_left _ _, fun hnil => ?_⟩
  rw [hnil, List.length_nil, eq_comm, Nat.min_eq_zero_iff] at hlength
  exact hlength.imp_right hend

/-! ### The bytes that a call returns -/

theorem readnbLoop_spec {fuel nleft : ℕ} (hfuel : nleft ≤ fuel) (r : Reader) :
    (readnbLoop fuel nleft r).1 = r.unread.take nleft ∧
      (readnbLoop fuel nleft r).2.unread = r.unread.drop nleft := by
  induction fuel generalizing nleft r with
  | zero =>
    obtain rfl := Nat.le_zero.mp hfuel
    exact ⟨rfl, rfl⟩
  | succ fuel ih =>
    rcases Nat.eq_zero_or_pos nleft with rfl | hpos
    · exact ⟨rfl, rfl⟩
    obtain ⟨hbytes, hunread, hle, hend⟩ := read_spec r nleft
    simp only [readnbLoop, if_neg (Nat.pos_iff_ne_zero.mp hpos)]
    by_cases hnil : (read r nleft).1 = []
    · have hnone : r.unread = [] := (hend hnil).resolve_left (Nat.pos_iff_ne_zero.mp hpos)
      rw [hnil, List.length_nil, List.drop_zero, hnone] at hunread
      rw [if_pos hnil, hnone, List.take_nil, List.drop_nil]
      exact ⟨rfl, hunread⟩
    · have hlen : 0 < (read r nleft).1.length := List.length_pos_of_ne_nil hnil
      obtain ⟨htake, hdrop⟩ := @ih (nleft - (read r nleft).1.length) (by omega) (read r nleft).2
      have hsum : (read r nleft).1.length + (nleft - (read r nleft).1.length) = nleft := Nat.add_sub_cancel' hle
      rw [if_neg hnil]
      constructor
      · show (read r nleft).1 ++ (readnbLoop fuel _ _).1 = _
        conv_rhs => rw [← hsum, List.take_add, ← hbytes, ← hunread, ← htake]
      · show (readnbLoop fuel _ _).2.unread = _
        rw [hdrop, hunread, List.drop_drop, hsum]

/-- **A call returns the next `n` bytes of the stream**, fewer only at its end, and leaves the rest. -/
theorem readnb_spec (r : Reader) (n : ℕ) :
    (readnb r n).1 = r.unread.take n ∧ (readnb r n).2.unread = r.unread.drop n :=
  readnbLoop_spec le_rfl r

@[simp] theorem unread_readinitb (buf : ℕ → Byte) (incoming : List Fragment) :
    (readinitb buf incoming).unread = stream incoming := by
  simp [Reader.unread, readinitb, window]

/-! ### What a call leaves in the buffer -/

/-- The read that brings the last byte lies over what the buffer held before, from place `n` on: the reads
before it are too short to get there. -/
theorem buf_readnbLoop {fuel nleft : ℕ} (hfuel : nleft ≤ fuel) (hpos : 0 < nleft) (hcnt : r.cnt = 0) {before : ℕ}
    {f : Fragment} (hc : completing nleft r.incoming = some (before, f)) {i : ℕ} (hi : nleft ≤ i) :
    (readnbLoop fuel nleft r).2.buf i = fill f.bytes r.buf i := by
  induction fuel generalizing nleft r before with
  | zero => omega
  | succ fuel ih =>
    cases hin : r.incoming with
    | nil => rw [hin] at hc; exact nomatch hc
    | cons g gs =>
      obtain ⟨hincoming, hcnt', hptr, hbuf⟩ := refill_empty hcnt hin
      have hgpos := g.pos
      have hlength : (read r nleft).1.length = min nleft g.bytes.length :=
        (length_window _ _ _).trans (by rw [hcnt'])
      have hne : (read r nleft).1 ≠ [] := fun h => by rw [h, List.length_nil] at hlength; omega
      have hbuf' : (read r nleft).2.buf = fill g.bytes r.buf := hbuf
      simp only [readnbLoop, if_neg (Nat.pos_iff_ne_zero.mp hpos), if_neg hne]
      rw [hin, completing] at hc
      split_ifs at hc with hlong
      · obtain ⟨-, rfl⟩ := Prod.mk.inj (Option.some.inj hc)
        have hdone : readnbLoop fuel 0 (read r nleft).2 = ([], (read r nleft).2) := by cases fuel <;> rfl
        rw [hlength, min_eq_left hlong, Nat.sub_self, hdone, hbuf']
      · obtain ⟨⟨before', f'⟩, hc', heq⟩ := Option.map_eq_some_iff.mp hc
        obtain ⟨-, rfl⟩ := Prod.mk.inj heq
        rw [hlength, min_eq_right (by omega)]
        have hcnt'' : (read r nleft).2.cnt = 0 := by
          show (refill r).cnt - min nleft (refill r).cnt = 0
          omega
        have hfuel' : nleft - g.bytes.length ≤ fuel := by omega
        have hc'' : completing (nleft - g.bytes.length) (read r nleft).2.incoming = some (before', f') := by
          rw [show (read r nleft).2.incoming = gs from hincoming]
          exact hc'
        have hnext := ih hfuel' (by omega) hcnt'' hc'' (by omega)
        rw [hnext, hbuf']
        unfold fill
        rw [if_neg (show ¬ i < g.bytes.length by omega)]

/-- **What the buffer holds from place `n` on** after the first `n` bytes have been read. -/
theorem buf_readnb {incoming : List Fragment} (hn : 0 < n) {before : ℕ} {f : Fragment}
    (hc : completing n incoming = some (before, f)) {i : ℕ} (hi : n ≤ i) :
    (readnb (readinitb buf incoming) n).2.buf i = fill f.bytes buf i :=
  buf_readnbLoop le_rfl hn rfl hc hi

/-- Enough bytes make one of the reads the completing one, and it starts where it says. -/
theorem exists_completing {incoming : List Fragment} (hn : 0 < n) (h : n ≤ (stream incoming).length) :
    ∃ before f, completing n incoming = some (before, f) ∧ before < n ∧ n ≤ before + f.bytes.length ∧
      f.bytes <+: (stream incoming).drop before := by
  induction incoming generalizing n with
  | nil => simp [stream] at h; omega
  | cons g gs ih =>
    have hstream : stream (g :: gs) = g.bytes ++ stream gs := rfl
    rw [completing]
    split_ifs with hlong
    · refine ⟨0, g, rfl, hn, by omega, ?_⟩
      rw [List.drop_zero, hstream]
      exact List.prefix_append _ _
    · obtain ⟨before, f, hc, hlt, hle, hpre⟩ := ih (n := n - g.bytes.length) (by omega)
        (by rw [hstream, List.length_append] at h; omega)
      refine ⟨g.bytes.length + before, f, by rw [hc]; rfl, by omega, by omega, ?_⟩
      rw [hstream, List.drop_append, List.drop_eq_nil_of_le (by omega), List.nil_append, Nat.add_sub_cancel_left]
      exact hpre

end CompSys.A4.ReadBuffer
