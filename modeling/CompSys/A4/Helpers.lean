import CompSys.A4.ReadBuffer
import CompSys.Lib.Feeds

/-! # Robust reads and writes (`compsys_helpers.c`)

The functions of `compsys_helpers.c` that read and write, with everything that `read` and `write` may do: deliver less
than asked for, be interrupted by a signal, fail. Buffers are of less than `2^31` bytes.

Any mixture of `compsys_helper_readnb` and `compsys_helper_readlineb` reads what the same calls take from the feed,
however it is cut and however often it is interrupted (`calls_eq`). What one end writes with `compsys_helper_writen`
the other end reads (`channel`). -/

namespace CompSys.A4.Helpers

open CompSys.Lib.Feeds CompSys.A4.Wire
open CompSys.A4.ReadBuffer (bufSize window fill length_window window_add window_fill)

/-! ### `read` and `write` -/

/-- What the kernel has for a descriptor: bytes that one `read` may get, a signal, an error. -/
inductive Chunk
  | data (first : Byte) (more : List Byte)
  | interrupted
  | failed

/-- What a `read` of `n` bytes leaves of a chunk. -/
def leftover (n : ℕ) (first : Byte) (more : List Byte) (chunks : List Chunk) : List Chunk :=
  match (first :: more).drop n with
  | [] => chunks
  | b :: bs => .data b bs :: chunks

/-- What is to be read. -/
def feed (chunks : List Chunk) : Feed Byte :=
  chunks.flatMap fun
    | .data first more => (first :: more).map some
    | .interrupted => []
    | .failed => [none]

/-- What a `write` does: it takes some of the bytes, at least one, or none. -/
inductive Written
  | some (less : ℕ)
  | zero
  | interrupted
  | failed

/-! ### The reader -/

/-- `compsys_helper_state_t`. -/
structure State where
  incoming : List Chunk
  cnt : ℤ
  /-- As an index into the buffer. -/
  bufptr : ℕ
  buf : ℕ → Byte
  inside : bufptr + cnt.toNat ≤ bufSize

/-- The return value, the bytes written to `usrbuf`, and the state. -/
structure Outcome (σ : Type) where
  ret : ℤ
  written : List Byte
  state : σ

/-- `compsys_helper_readinitb`. -/
def readinitb (buf : ℕ → Byte) (incoming : List Chunk) : State := ⟨incoming, 0, 0, buf, Nat.zero_le _⟩

/-- How the loop ends that fills the buffer. -/
inductive Refilled
  | ready (s : State)
  | eof (s : State)
  | error (s : State)

/-- The loop while the buffer is empty. -/
def refillLoop (bufptr : ℕ) (buf : ℕ → Byte) (hptr : bufptr ≤ bufSize) : List Chunk → Refilled
  | [] => .eof ⟨[], 0, bufptr, buf, hptr⟩
  | .interrupted :: chunks => refillLoop bufptr buf hptr chunks
  | .failed :: chunks => .error ⟨chunks, -1, bufptr, buf, by omega⟩
  | .data first more :: chunks =>
    .ready ⟨leftover bufSize first more chunks, ((first :: more).take bufSize).length, 0,
      fill ((first :: more).take bufSize) buf, by rw [Nat.zero_add, Int.toNat_natCast]; exact List.length_take_le _ _⟩

/-- The loop of `compsys_helper_read`. -/
def refill (s : State) : Refilled :=
  if 0 < s.cnt then .ready s else refillLoop s.bufptr s.buf ((Nat.le_add_right _ _).trans s.inside) s.incoming

/-- The copy from the buffer. -/
def take (s : State) (n : ℕ) : Outcome State :=
  ⟨(min n s.cnt.toNat : ℕ), window s.buf s.bufptr (min n s.cnt.toNat),
    { s with
      cnt := s.cnt - (min n s.cnt.toNat : ℕ), bufptr := s.bufptr + min n s.cnt.toNat
      inside := by have := s.inside; omega }⟩

/-- `compsys_helper_read`. -/
def read (s : State) (n : ℕ) : Outcome State :=
  match refill s with
  | .ready s => take s n
  | .eof s => ⟨0, [], s⟩
  | .error s => ⟨-1, [], s⟩

/-- What a loop has done: whether it returned `-1`, what it wrote, and how much is left to do. -/
structure Loop (σ : Type) where
  failed : Bool
  written : List Byte
  nleft : ℕ
  state : σ

/-- More bytes in front. -/
def Loop.after {σ : Type} (bs : List Byte) (l : Loop σ) : Loop σ := { l with written := bs ++ l.written }

/-- `return (n - nleft)`, or `-1`. -/
def Loop.outcome {σ : Type} (n : ℕ) (l : Loop σ) : Outcome σ :=
  ⟨if l.failed then -1 else n - l.nleft, l.written, l.state⟩

/-- The loop of `compsys_helper_readnb`. A round brings a byte or is the last one. -/
def readnbLoop : ℕ → ℕ → State → Loop State
  | 0, nleft, s => ⟨false, [], nleft, s⟩
  | fuel + 1, nleft, s =>
    if nleft = 0 then ⟨false, [], nleft, s⟩
    else
      let r := read s nleft
      if r.ret < 0 then ⟨true, [], nleft, r.state⟩
      else if r.ret = 0 then ⟨false, [], nleft, r.state⟩
      else (readnbLoop fuel (nleft - r.ret.toNat) r.state).after r.written

/-- **`compsys_helper_readnb`.** -/
def readnb (s : State) (n : ℕ) : Outcome State := (readnbLoop n n s).outcome n

/-- How the loop of `compsys_helper_readlineb` ends. -/
inductive LineEnd
  /-- Behind the loop, with the value of `n`. -/
  | behind (n : ℕ)
  /-- `return 0`. -/
  | nothing
  /-- `return -1`. -/
  | error

/-- `'\n'`. -/
def newline : Byte := 10#8

/-- The loop of `compsys_helper_readlineb`, with the value of `n` and how often it may still grow, and the bytes
that the loop writes. -/
def readlinebLoop : ℕ → ℕ → State → LineEnd × List Byte × State
  | n, 0, s => (.behind n, [], s)
  | n, room + 1, s =>
    let r := read s 1
    if r.ret = 1 then
      let c := r.written.headD 0#8
      if c = newline then (.behind (n + 1), [c], r.state)
      else
        let rest := readlinebLoop (n + 1) room r.state
        (rest.1, c :: rest.2.1, rest.2.2)
    else if r.ret = 0 then
      if n = 1 then (.nothing, [], r.state) else (.behind n, [], r.state)
    else (.error, [], r.state)

/-- **`compsys_helper_readlineb`.** -/
def readlineb (s : State) (maxlen : ℕ) : Outcome State :=
  match readlinebLoop 1 (maxlen - 1) s with
  | (.behind n, line, s) => ⟨n - 1, line ++ [0#8], s⟩
  | (.nothing, line, s) => ⟨0, line, s⟩
  | (.error, line, s) => ⟨-1, line, s⟩

/-- The loop of `compsys_helper_readn`. A round brings a byte, or a signal, or is the last one. -/
def readnLoop : ℕ → ℕ → List Chunk → Loop (List Chunk)
  | 0, nleft, chunks => ⟨false, [], nleft, chunks⟩
  | fuel + 1, nleft, chunks =>
    if nleft = 0 then ⟨false, [], nleft, chunks⟩
    else match chunks with
      | [] => ⟨false, [], nleft, []⟩
      | .interrupted :: chunks => readnLoop fuel nleft chunks
      | .failed :: chunks => ⟨true, [], nleft, chunks⟩
      | .data first more :: chunks =>
        let bytes := (first :: more).take nleft
        (readnLoop fuel (nleft - bytes.length) (leftover nleft first more chunks)).after bytes

/-- **`compsys_helper_readn`.** -/
def readn (chunks : List Chunk) (n : ℕ) : Outcome (List Chunk) := (readnLoop (n + chunks.length) n chunks).outcome n

/-! ### The writer -/

/-- How far `compsys_helper_writen` gets: it has returned `n` or `-1`, or it waits in `write`. -/
inductive Progress
  | complete
  | error
  | blocked

/-- What was written, whether `errno` is `EINTR`, and what `write` does after it. -/
structure Sending where
  progress : Progress
  sent : List Byte
  eintr : Bool
  script : List Written

/-- More bytes in front. -/
def Sending.after (bs : List Byte) (w : Sending) : Sending := { w with sent := bs ++ w.sent }

/-- **`compsys_helper_writen`**, with the bytes that are left. A `write` that takes nothing is tried again if `errno`
is `EINTR`, from this call or an earlier one. -/
def writen : List Byte → Bool → List Written → Sending
  | left, eintr, [] => ⟨if left = [] then .complete else .blocked, [], eintr, []⟩
  | left, eintr, w :: script =>
    if left = [] then ⟨.complete, [], eintr, w :: script⟩
    else match w with
      | .some less => (writen (left.drop (less + 1)) eintr script).after (left.take (less + 1))
      | .zero => if eintr then writen left eintr script else ⟨.error, [], eintr, script⟩
      | .interrupted => writen left true script
      | .failed => ⟨.error, [], false, script⟩

/-! ### One read -/

variable {s s' : State} {n : ℕ} {chunks : List Chunk}

@[simp] theorem feed_nil : feed [] = [] := rfl

@[simp] theorem feed_interrupted (chunks : List Chunk) : feed (.interrupted :: chunks) = feed chunks := rfl

@[simp] theorem feed_failed (chunks : List Chunk) : feed (.failed :: chunks) = none :: feed chunks := rfl

@[simp] theorem feed_data (first : Byte) (more : List Byte) (chunks : List Chunk) :
    feed (.data first more :: chunks) = (first :: more).map some ++ feed chunks := rfl

/-- A `read` takes from the feed what it delivers. -/
theorem feed_leftover (n : ℕ) (first : Byte) (more : List Byte) (chunks : List Chunk) :
    ((first :: more).take n).map some ++ feed (leftover n first more chunks) = feed (.data first more :: chunks) := by
  have hsplit := List.take_append_drop n (first :: more)
  rw [feed_data]
  unfold leftover
  split
  next h =>
    rw [h, List.append_nil] at hsplit
    rw [hsplit]
  next b bs h =>
    rw [feed_data, ← h, ← List.append_assoc, ← List.map_append, hsplit]

/-- The chunk is gone, or nothing more was asked for. -/
theorem length_leftover (n : ℕ) (first : Byte) (more : List Byte) (chunks : List Chunk) :
    (leftover n first more chunks).length = chunks.length ∨
      n < (first :: more).length ∧ (leftover n first more chunks).length = chunks.length + 1 := by
  unfold leftover
  split
  next => exact Or.inl rfl
  next b bs h =>
    refine Or.inr ⟨?_, rfl⟩
    have hlen := congrArg List.length h
    rw [List.length_drop, List.length_cons (a := b)] at hlen
    omega

/-- What has not been read yet. -/
def State.unread (s : State) : Feed Byte := (window s.buf s.bufptr s.cnt.toNat).map some ++ feed s.incoming

/-- What a read of up to `n` bytes does: it brings bytes, or meets the end, or an error. -/
inductive Reads (n : ℕ) (s : State) : Outcome State → Prop
  | bytes {bs : List Byte} {s' : State} (hne : bs ≠ []) (hle : bs.length ≤ n)
    (h : s.unread = bs.map some ++ s'.unread) : Reads n s ⟨bs.length, bs, s'⟩
  | eof {s' : State} (h : s.unread = []) (h' : s'.unread = []) : Reads n s ⟨0, [], s'⟩
  | error {s' : State} (h : s.unread = none :: s'.unread) : Reads n s ⟨-1, [], s'⟩

theorem take_spec (hn : 0 < n) (hcnt : 0 < s.cnt) : Reads n s (take s n) := by
  have hsplit : window s.buf s.bufptr s.cnt.toNat = window s.buf s.bufptr (min n s.cnt.toNat) ++
      window s.buf (s.bufptr + min n s.cnt.toNat) (s.cnt - (min n s.cnt.toNat : ℕ)).toNat := by
    rw [← window_add]
    congr 1
    omega
  have hlen : (window s.buf s.bufptr (min n s.cnt.toNat)).length = min n s.cnt.toNat := length_window _ _ _
  have htake : take s n = ⟨((window s.buf s.bufptr (min n s.cnt.toNat)).length : ℕ),
      window s.buf s.bufptr (min n s.cnt.toNat), (take s n).state⟩ := by
    rw [hlen]; rfl
  rw [htake]
  refine .bytes (fun h => ?_) (by rw [hlen]; exact min_le_left _ _) ?_
  · rw [h, List.length_nil] at hlen
    omega
  · rw [State.unread, hsplit, List.map_append, List.append_assoc]
    rfl

theorem refillLoop_spec (bufptr : ℕ) (buf : ℕ → Byte) (hptr : bufptr ≤ bufSize) (chunks : List Chunk) :
    (∃ s', refillLoop bufptr buf hptr chunks = .ready s' ∧ 0 < s'.cnt ∧ s'.unread = feed chunks) ∨
      (∃ s', refillLoop bufptr buf hptr chunks = .eof s' ∧ s'.unread = [] ∧ feed chunks = []) ∨
      ∃ s', refillLoop bufptr buf hptr chunks = .error s' ∧ feed chunks = none :: s'.unread := by
  induction chunks with
  | nil => exact Or.inr (Or.inl ⟨_, rfl, rfl, rfl⟩)
  | cons c chunks ih =>
    cases c with
    | interrupted => exact ih
    | failed => exact Or.inr (Or.inr ⟨_, rfl, rfl⟩)
    | data first more =>
      refine Or.inl ⟨_, rfl, ?_, ?_⟩
      · have hlen : 0 < ((first :: more).take bufSize).length := by simp
        exact Int.natCast_pos.mpr hlen
      · rw [← feed_leftover bufSize, State.unread, Int.toNat_natCast, window_fill]

/-- **One `compsys_helper_read`.** -/
theorem read_spec (s : State) (hn : 0 < n) : Reads n s (read s n) := by
  unfold read refill
  by_cases hcnt : 0 < s.cnt
  · rw [if_pos hcnt]
    exact take_spec hn hcnt
  · have hunread : s.unread = feed s.incoming := by
      rw [State.unread, Int.toNat_of_nonpos (not_lt.mp hcnt)]
      rfl
    rw [if_neg hcnt]
    obtain ⟨s', h, hpos, h'⟩ | ⟨s', h, h₁, h₂⟩ | ⟨s', h, h'⟩ :=
      refillLoop_spec s.bufptr s.buf ((Nat.le_add_right _ _).trans s.inside) s.incoming
    · rw [h]
      show Reads n s (take s' n)
      have hs' := take_spec hn hpos
      generalize take s' n = r at hs' ⊢
      cases hs' with
      | bytes hne hle hr => exact .bytes hne hle (by rw [hunread, ← h', hr])
      | eof hr hr' => exact .eof (by rw [hunread, ← h', hr]) hr'
      | error hr => exact .error (by rw [hunread, ← h', hr])
    · rw [h]
      exact .eof (by rw [hunread, h₂]) h₁
    · rw [h]
      exact .error (by rw [hunread, h'])

/-! ### Whole calls -/

/-- A loop has taken `t` of `n` items. -/
structure Does {σ : Type} (unread : σ → Feed Byte) (n : ℕ) (t : Taken Byte) (l : Loop σ) : Prop where
  failed : l.failed = t.failed
  written : l.written = t.items
  nleft : l.nleft + t.items.length = n
  rest : unread l.state = t.rest

/-- Bytes that were read before. -/
theorem Does.after {σ : Type} {unread : σ → Feed Byte} {l : Loop σ} {t : Taken Byte} {bs : List Byte}
    (h : Does unread (n - bs.length) t l) (hle : bs.length ≤ n) : Does unread n (t.after bs) (l.after bs) := by
  refine ⟨h.failed, congrArg (bs ++ ·) h.written, ?_, h.rest⟩
  have := h.nleft
  show l.nleft + (bs ++ t.items).length = n
  rw [List.length_append]
  omega

theorem scanAll_append {bs : List Byte} (hle : bs.length ≤ n) (f : Feed Byte) :
    scanAll n (bs.map some ++ f) = (scanAll (n - bs.length) f).after bs := by
  conv_lhs => rw [← Nat.add_sub_cancel' hle]
  exact scan_append _ (fun _ _ => rfl) _ _

theorem readnbLoop_spec {fuel : ℕ} (hfuel : n ≤ fuel) (s : State) :
    Does State.unread n (scanAll n s.unread) (readnbLoop fuel n s) := by
  induction fuel generalizing n s with
  | zero =>
    obtain rfl := Nat.le_zero.mp hfuel
    exact ⟨rfl, rfl, rfl, rfl⟩
  | succ fuel ih =>
    rcases Nat.eq_zero_or_pos n with rfl | hpos
    · exact ⟨rfl, rfl, rfl, rfl⟩
    have hread := read_spec s hpos
    rw [readnbLoop, if_neg hpos.ne']
    generalize read s n = r at hread ⊢
    cases hread with
    | @bytes bs s' hne hle h =>
      have hlen := List.length_pos_of_ne_nil hne
      simp only [Int.toNat_natCast, if_neg (show ¬ (bs.length : ℤ) < 0 by omega),
        if_neg (show ¬ (bs.length : ℤ) = 0 by omega)]
      rw [h, scanAll_append hle]
      exact (ih (by omega) s').after hle
    | @eof s' h h' =>
      rw [h, scanAll, scan_nil]
      exact ⟨rfl, rfl, rfl, h'⟩
    | @error s' h =>
      obtain ⟨m, rfl⟩ := Nat.exists_eq_succ_of_ne_zero hpos.ne'
      rw [h, scanAll, scan_none]
      exact ⟨rfl, rfl, rfl, rfl⟩

theorem readnLoop_spec {fuel : ℕ} (hfuel : n + chunks.length ≤ fuel) :
    Does feed n (scanAll n (feed chunks)) (readnLoop fuel n chunks) := by
  induction fuel generalizing n chunks with
  | zero =>
    obtain rfl : n = 0 := by omega
    exact ⟨rfl, rfl, rfl, rfl⟩
  | succ fuel ih =>
    rcases Nat.eq_zero_or_pos n with rfl | hpos
    · exact ⟨rfl, rfl, rfl, rfl⟩
    obtain ⟨m, rfl⟩ := Nat.exists_eq_succ_of_ne_zero hpos.ne'
    cases chunks with
    | nil =>
      rw [feed_nil, scanAll, scan_nil]
      exact ⟨rfl, rfl, rfl, rfl⟩
    | cons c chunks =>
      rw [List.length_cons] at hfuel
      cases c with
      | interrupted => exact @ih (m + 1) chunks (by omega)
      | failed =>
        rw [feed_failed, scanAll, scan_none]
        exact ⟨rfl, rfl, rfl, rfl⟩
      | data first more =>
        have hle : ((first :: more).take (m + 1)).length ≤ m + 1 := List.length_take_le _ _
        rw [← feed_leftover (m + 1), scanAll_append hle]
        refine Does.after (ih ?_) hle
        have hlen := length_leftover (m + 1) first more chunks
        rw [List.length_take]
        simp only [List.length_cons] at hlen ⊢
        omega

/-- Lines end at a newline. -/
def isNewline (c : Byte) : Bool := c = newline

theorem readlinebLoop_spec (hn : 1 ≤ n) (room : ℕ) (s : State) :
    ∃ s', s'.unread = (scan isNewline room s.unread).rest ∧
      readlinebLoop n room s = (if (scan isNewline room s.unread).failed then .error
        else if (scan isNewline room s.unread).items = [] ∧ 0 < room ∧ n = 1 then .nothing
        else .behind (n + (scan isNewline room s.unread).items.length), (scan isNewline room s.unread).items, s') := by
  induction room generalizing n s with
  | zero => exact ⟨s, rfl, by simp [readlinebLoop]⟩
  | succ room ih =>
    have hread := read_spec s Nat.one_pos
    rw [readlinebLoop]
    generalize read s 1 = r at hread ⊢
    cases hread with
    | @bytes bs s' hne hle h =>
      obtain ⟨c, rfl⟩ : ∃ c, bs = [c] :=
        List.length_eq_one_iff.mp (le_antisymm hle (List.length_pos_of_ne_nil hne))
      rw [h, List.map_singleton, List.singleton_append, scan_some]
      by_cases hc : c = newline
      · exact ⟨s', by simp [isNewline, hc], by simp [isNewline, hc]⟩
      · obtain ⟨s'', hrest, heq⟩ := ih (Nat.le_add_left 1 n) s'
        refine ⟨s'', by simpa [isNewline, hc, Taken.after] using hrest, ?_⟩
        have hn' : n + 1 ≠ 1 := by omega
        simp only [List.length_singleton, Nat.cast_one, if_true, List.headD_cons, if_neg hc, heq, isNewline,
          decide_eq_true_eq, Taken.after, hn', and_false, if_false]
        have hcons : ¬ ([c] ++ (scan isNewline room s'.unread).items = [] ∧ 0 < room + 1 ∧ n = 1) :=
          fun h => List.cons_ne_nil _ _ h.1
        rw [if_neg hcons, List.length_append, List.length_singleton, Nat.add_assoc]
        rfl
    | @eof s' h h' =>
      refine ⟨s', by rw [h, scan_nil]; exact h', ?_⟩
      rw [h, scan_nil]
      by_cases hn1 : n = 1
      · simp [hn1]
      · simp [hn1]
    | @error s' h => exact ⟨s', by rw [h, scan_none], by rw [h, scan_none]; simp⟩

/-! ### Mixtures of calls -/

/-- A call on the buffered reader. -/
inductive Call
  | bytes (n : ℕ)
  | line (maxlen : ℕ)

/-- The return value and what is written to `usrbuf`. -/
abbrev Answer := ℤ × List Byte

/-- What a call takes from a feed, and answers. -/
def answer : Call → Feed Byte → Answer × Feed Byte
  | .bytes n, f =>
    let t := scanAll n f
    ((if t.failed then -1 else t.items.length, t.items), t.rest)
  | .line maxlen, f =>
    let t := scan isNewline (maxlen - 1) f
    (if t.failed then (-1, t.items)
      -- at the end of the feed there is no terminator either
      else if t.items = [] ∧ 1 < maxlen then (0, [])
      else (t.items.length, t.items ++ [0#8]), t.rest)

/-- The answers to some calls, one after another. -/
def answers : List Call → Feed Byte → List Answer × Feed Byte
  | [], f => ([], f)
  | c :: cs, f => ((answer c f).1 :: (answers cs (answer c f).2).1, (answers cs (answer c f).2).2)

/-- A call of the program. -/
def call : Call → State → Outcome State
  | .bytes n, s => readnb s n
  | .line maxlen, s => readlineb s maxlen

/-- Calls of the program, one after another. -/
def calls : List Call → State → List Answer × State
  | [], s => ([], s)
  | c :: cs, s =>
    let r := call c s
    ((r.ret, r.written) :: (calls cs r.state).1, (calls cs r.state).2)

/-- What a loop returns. -/
theorem Does.outcome {σ : Type} {unread : σ → Feed Byte} {l : Loop σ} {t : Taken Byte} (h : Does unread n t l) :
    (l.outcome n).ret = (if t.failed then -1 else (t.items.length : ℤ)) ∧ (l.outcome n).written = t.items ∧
      unread (l.outcome n).state = t.rest := by
  refine ⟨?_, h.written, h.rest⟩
  have hn := h.nleft
  show (if l.failed then -1 else (n : ℤ) - l.nleft) = _
  rw [h.failed, show (n : ℤ) - l.nleft = t.items.length by omega]

theorem readlineb_spec (s : State) (maxlen : ℕ) :
    ((readlineb s maxlen).ret, (readlineb s maxlen).written) = (answer (.line maxlen) s.unread).1 ∧
      (readlineb s maxlen).state.unread = (answer (.line maxlen) s.unread).2 := by
  obtain ⟨s', hrest, hloop⟩ := readlinebLoop_spec le_rfl (maxlen - 1) s
  rw [readlineb, hloop, answer]
  generalize scan isNewline (maxlen - 1) s.unread = t at hrest ⊢
  have hroom : 0 < maxlen - 1 ↔ 1 < maxlen := by omega
  cases hfail : t.failed with
  | true => exact ⟨rfl, hrest⟩
  | false =>
    by_cases hnil : t.items = [] ∧ 1 < maxlen
    · simp [hnil, hrest]
    · have hnil' : ¬ (t.items = [] ∧ 0 < maxlen - 1 ∧ (1 : ℕ) = 1) := by
        rw [hroom]; exact fun h => hnil ⟨h.1, h.2.1⟩
      rw [if_neg hnil, if_neg hnil']
      simp [hrest]

/-- A call does what it takes from the feed. -/
theorem call_eq (c : Call) (s : State) :
    ((call c s).ret, (call c s).written) = (answer c s.unread).1 ∧ (call c s).state.unread = (answer c s.unread).2 := by
  cases c with
  | bytes n =>
    obtain ⟨hret, hwritten, hrest⟩ := (readnbLoop_spec le_rfl s).outcome (n := n)
    exact ⟨Prod.ext hret hwritten, hrest⟩
  | line maxlen => exact readlineb_spec s maxlen

/-- **However the feed is cut and interrupted**, calls in any mixture answer what they take from it. -/
theorem calls_eq (cs : List Call) (s : State) :
    (calls cs s).1 = (answers cs s.unread).1 ∧ (calls cs s).2.unread = (answers cs s.unread).2 := by
  induction cs generalizing s with
  | nil => exact ⟨rfl, rfl⟩
  | cons c cs ih =>
    obtain ⟨hanswer, hunread⟩ := call_eq c s
    obtain ⟨h₁, h₂⟩ := ih (call c s).state
    rw [hunread] at h₁ h₂
    exact ⟨congrArg₂ List.cons hanswer h₁, h₂⟩

/-- Calls of `compsys_helper_readn`, one after another. -/
def readns : List ℕ → List Chunk → List Answer × List Chunk
  | [], chunks => ([], chunks)
  | n :: ns, chunks =>
    let r := readn chunks n
    ((r.ret, r.written) :: (readns ns r.state).1, (readns ns r.state).2)

/-- Reading without a buffer. -/
theorem readns_eq (ns : List ℕ) (chunks : List Chunk) :
    (readns ns chunks).1 = (answers (ns.map .bytes) (feed chunks)).1 ∧
      feed (readns ns chunks).2 = (answers (ns.map .bytes) (feed chunks)).2 := by
  induction ns generalizing chunks with
  | nil => exact ⟨rfl, rfl⟩
  | cons n ns ih =>
    have hdoes : Does feed n (scanAll n (feed chunks)) (readnLoop (n + chunks.length) n chunks) := readnLoop_spec le_rfl
    obtain ⟨hret, hwritten, hrest⟩ := hdoes.outcome
    obtain ⟨h₁, h₂⟩ := ih (readn chunks n).state
    rw [show feed (readn chunks n).state = _ from hrest] at h₁ h₂
    exact ⟨congrArg₂ List.cons (Prod.ext hret hwritten) h₁, h₂⟩

/-- On a feed without failures this is the reader of `ReadBuffer`. -/
theorem readnb_eq {r : ReadBuffer.Reader} (h : s.unread = r.unread.map some) (n : ℕ) :
    (readnb s n).ret = (ReadBuffer.readnb r n).1.length ∧ (readnb s n).written = (ReadBuffer.readnb r n).1 ∧
      (readnb s n).state.unread = (ReadBuffer.readnb r n).2.unread.map some := by
  obtain ⟨hret, hwritten, hrest⟩ := (readnbLoop_spec le_rfl s).outcome (n := n)
  obtain ⟨hbytes, hunread⟩ := ReadBuffer.readnb_spec r n
  rw [h, scanAll_map] at hret hwritten hrest
  rw [hbytes, hunread]
  exact ⟨hret, hwritten, hrest⟩

/-! ### From one end to the other -/

theorem writen_nil (eintr : Bool) (script : List Written) :
    writen [] eintr script = ⟨.complete, [], eintr, script⟩ := by
  cases script with
  | nil => rfl
  | cons w script => cases w <;> rfl

theorem writen_spec (left : List Byte) (eintr : Bool) (script : List Written) :
    (writen left eintr script).sent <+: left ∧
      ((writen left eintr script).progress = .complete → (writen left eintr script).sent = left) := by
  induction script generalizing left eintr with
  | nil =>
    by_cases h : left = []
    · exact ⟨List.nil_prefix, fun _ => h.symm⟩
    · exact ⟨List.nil_prefix, fun hc => by rw [writen, if_neg h] at hc; cases hc⟩
  | cons w script ih =>
    by_cases h : left = []
    · rw [h, writen_nil]
      exact ⟨List.nil_prefix, fun _ => rfl⟩
    cases w with
    | some less =>
      rw [writen, if_neg h]
      obtain ⟨hpre, heq⟩ := ih (left.drop (less + 1)) eintr
      have hsplit := List.take_append_drop (less + 1) left
      constructor
      · conv_rhs => rw [← hsplit]
        exact (List.prefix_append_right_inj _).mpr hpre
      · intro hc
        conv_rhs => rw [← hsplit]
        exact congrArg (left.take (less + 1) ++ ·) (heq hc)
    | zero =>
      rw [writen, if_neg h]
      cases eintr with
      | true => exact ih left true
      | false => exact ⟨List.nil_prefix, fun hc => by cases hc⟩
    | interrupted =>
      rw [writen, if_neg h]
      exact ih left true
    | failed =>
      rw [writen, if_neg h]
      exact ⟨List.nil_prefix, fun hc => by cases hc⟩

/-- The bytes that get out when messages are written one after another, up to the first that is not written whole. -/
def sendAll : List (List Byte) → Bool → List Written → List Byte
  | [], _, _ => []
  | m :: ms, eintr, script =>
    let w := writen m eintr script
    match w.progress with
    | .complete => w.sent ++ sendAll ms w.eintr w.script
    | .error | .blocked => w.sent

theorem prefix_sendAll (ms : List (List Byte)) (eintr : Bool) (script : List Written) :
    sendAll ms eintr script <+: ms.flatten := by
  induction ms generalizing eintr script with
  | nil => exact List.nil_prefix
  | cons m ms ih =>
    obtain ⟨hpre, heq⟩ := writen_spec m eintr script
    rw [sendAll, List.flatten_cons]
    cases hp : (writen m eintr script).progress with
    | complete =>
      rw [heq hp]
      exact (List.prefix_append_right_inj _).mpr (ih _ _)
    | error => exact hpre.trans (List.prefix_append _ _)
    | blocked => exact hpre.trans (List.prefix_append _ _)

/-- Messages that have arrived are taken one by one. -/
theorem answers_prefix {ms : List (List Byte)} {l : List Byte} (hpre : l <+: ms.flatten) {k : ℕ}
    (hk : (ms.take k).flatten.length ≤ l.length) :
    ((answers (ms.map fun m => .bytes m.length) (l.map some)).1.take k) =
      (ms.take k).map fun m => ((m.length : ℤ), m) := by
  induction k generalizing ms l with
  | zero => rw [List.take_zero, List.take_zero, List.map_nil]
  | succ k ih =>
    cases ms with
    | nil => rfl
    | cons m ms =>
      rw [List.take_succ_cons, List.flatten_cons, List.length_append] at hk
      rw [List.flatten_cons] at hpre
      obtain ⟨l', rfl⟩ := List.prefix_of_prefix_length_le (List.prefix_append m _) hpre (by omega)
      have hscan : scanAll m.length ((m ++ l').map some) = ⟨m, false, l'.map some⟩ := by
        rw [scanAll_map, List.take_left, List.drop_left]
      rw [List.map_cons, answers, List.take_succ_cons, List.take_succ_cons, List.map_cons]
      congr 1
      · rw [answer, hscan]
        rfl
      · rw [answer, hscan]
        exact ih ((List.prefix_append_right_inj m).mp hpre) (by rw [List.length_append] at hk; omega)

/-- **From one end to the other**: messages are written one after another, in as many pieces and with as many
signals as it takes, and read with their lengths, however the network cuts them. Each message that has got out is
the answer to the call for it. -/
theorem channel {ms : List (List Byte)} {eintr : Bool} {script : List Written} (buf : ℕ → Byte)
    (hnet : feed chunks = (sendAll ms eintr script).map some) {k : ℕ}
    (hk : (ms.take k).flatten.length ≤ (sendAll ms eintr script).length) :
    (calls (ms.map fun m => .bytes m.length) (readinitb buf chunks)).1.take k =
        (ms.take k).map (fun m => ((m.length : ℤ), m)) ∧
      (readns (ms.map List.length) chunks).1.take k = (ms.take k).map fun m => ((m.length : ℤ), m) := by
  have hunread : (readinitb buf chunks).unread = (sendAll ms eintr script).map some := hnet
  have harrived := answers_prefix (prefix_sendAll ms eintr script) hk
  refine ⟨by rw [(calls_eq _ _).1, hunread, harrived], ?_⟩
  rw [(readns_eq _ _).1, hnet, List.map_map]
  exact harrived

/-- Two messages, the first in two writes around a signal, and a cut in the second. -/
theorem channel_two : (readns [2, 2] [.data 1#8 [2#8, 3#8], .interrupted, .data 4#8 []]).1.take 2 =
    [(2, [1#8, 2#8]), (2, [3#8, 4#8])] := by
  have hnet : feed [.data 1#8 [2#8, 3#8], .interrupted, .data 4#8 []] =
      (sendAll [[1#8, 2#8], [3#8, 4#8]] false [.some 0, .interrupted, .some 0, .some 5]).map some := by decide
  exact (channel (fun _ => 0#8) hnet (by decide)).2

end CompSys.A4.Helpers
