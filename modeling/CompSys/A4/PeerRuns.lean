import CompSys.A4.PeerCalls

/-! # What peers of this program get from each other

Nothing. A peer lists itself and the peers that have registered with it, and no call brings it another one or a byte of
a file (`peers_keep_apart`). A call to register ends (`register_returns`); a request for a file is not over before the
process at the other end has stopped. -/

namespace CompSys.A4.Peers

open CompSys.Lib.Runs CompSys.A4.Wire CompSys.A4.SendMessage CompSys.A4.Network
open CompSys.A4.Listed (name peers)
open CompSys.A4.ServerRequest (request handleServerRequest)
open CompSys.A4.Register (handleRegister)
open CompSys.A4.RandomPeer (getRandomPeer)
open CompSys.A4.Recorded (recorded)

/-! ### What a handler is called for -/

variable {n : PeerTable} {P : Type*} {w : World P} {p q : P} {call : Call} {a : PeerAddress} {m : ServerRequest.Memory}
variable {incoming : List ReadBuffer.Fragment}

theorem handled_eq (hcut : ReadBuffer.stream incoming = request a call.command.code call.requestBody) :
    handleServerRequest m incoming =
      if call = .register then .register (fun i => (strncpy a.ip).getD i 0#8)
        (BitVec.ofInt 32 (strtol (List.ofFn a.port)))
      else .retreive (ServerRequest.copied m (ServerRequest.headerRead m incoming).2 call.requestBody.length) := by
  rw [RequestBody.handleServerRequest_eq hcut (by cases call <;> decide), ServerRequest.requestHeader_eq m hcut]
  cases call <;> rfl

/-! ### What holds of a peer -/

/-- **Its list** holds itself and the peers that have registered with it, in order, under their names. -/
structure Lists (w : World P) (p : P) (n : PeerTable) (registered : List P) : Prop where
  valid : n.Valid
  holds : ∃ l, n.Holds l ∧ l.map name = name (w.address p) :: registered.map fun r => name (w.address r)

/-- **An address of another peer** that has registered with it. -/
def Knows (w : World P) (p : P) (registered : List P) (a : PeerAddress) : Prop :=
  ∃ r ∈ registered, name a = name (w.address r) ∧ name (w.address r) ≠ name (w.address p)

/-- **A file is as it was**, or empty where there was none. -/
def Kept (before after : Option (List Byte)) : Prop := after = before ∨ before = none ∧ after = some []

/-- What a handler sends. -/
def Sent (w : World P) : Call → List Byte → Prop
  | .register, reply => ∃ stack l, reply = handleRegister w.sha stack l
  | .tiny, reply | .hamlet, reply => reply = [] ∨ reply.length = 36

/-- Whom a client calls, and what it is sent. -/
def Calls (w : World P) (p : P) (registered : List P) : Client P → Prop
  | .calling call a => call ≠ .register → Knows w p registered a
  | .waiting call a c =>
    (call ≠ .register → Knows w p registered a) ∧ ∀ q reply, c = .replied q reply → Sent w call reply
  | _ => True

/-- The invariant of a peer. -/
structure PeerInv (w : World P) (disk : List Byte → Option (List Byte)) (p : P) (x : Peer P) : Prop where
  fresh : x.process = .ready → x.registered = [] ∧ x.client = .absent
  lists : x.process ≠ .ready → Lists w p x.network x.registered
  files : ∀ path, Kept (disk path) (x.files path)
  calls : Calls w p x.registered x.client
  alone : x.process = .stopped → ∀ r ∈ x.registered, name (w.address r) = name (w.address p)

variable {disk : List Byte → Option (List Byte)} {registered : List P}

theorem Kept.touch {before after : Option (List Byte)} (h : Kept before after) :
    Kept before (some (after.getD [])) := by
  rcases h with rfl | ⟨rfl, rfl⟩
  · cases after with
    | none => exact Or.inr ⟨rfl, rfl⟩
    | some content => exact Or.inl rfl
  · exact Or.inr ⟨rfl, rfl⟩

/-- A table that holds a list has an entry in every slot. -/
theorem entry_ne_none {l : List PeerAddress} (hl : n.Holds l) {i : ℕ} (hi : i < n.count) : n.entry i ≠ none := by
  rw [hl.entry i (hl.count ▸ hi), List.getElem?_eq_getElem (hl.count ▸ hi)]
  exact Option.some_ne_none _

/-- **An entry with another name** is of a peer that has registered. -/
theorem Lists.entry (h : Lists w p n registered) {i : ℕ} (hi : i < n.count) {peer : PeerAddress}
    (hpeer : n.entry i = some peer) (hne : name peer ≠ name (w.address p)) : Knows w p registered peer := by
  obtain ⟨l, hl, hnames⟩ := h.holds
  have hmem : name peer ∈ l.map name := by
    rw [hl.entry i (hl.count ▸ hi)] at hpeer
    exact List.mem_map_of_mem (List.mem_of_getElem? hpeer)
  rw [hnames, List.mem_cons] at hmem
  obtain ⟨r, hr, hname⟩ := List.mem_map.mp (hmem.resolve_left hne)
  exact ⟨r, hr, hname.symm, hname ▸ hne⟩

/-- **A selected peer** is one that it knows. -/
theorem Lists.selected (h : Lists w p n registered) {rand slot : ℕ} {peer : PeerAddress}
    (hselected : getRandomPeer (w.address p) n rand = .selected slot peer) : Knows w p registered peer := by
  obtain ⟨l, hl, -⟩ := h.holds
  rcases Nat.eq_zero_or_pos ((List.range n.count).filter (RandomPeer.differs (w.address p) n)).length with hzero | hpos
  · rw [getRandomPeer, RandomPeer.potentialPeers_eq fun i hi => entry_ne_none hl hi] at hselected
    simp only [if_pos hzero] at hselected
    cases hselected
  · obtain ⟨peer', heq, hc⟩ := RandomPeer.getRandomPeer_eq (fun i hi => entry_ne_none hl hi) rfl hpos rand
    rw [hselected] at heq
    obtain ⟨-, rfl⟩ := RandomPeer.Selection.selected.inj heq
    exact h.entry hc.inside hc.entry hc.differs

/-- **It divides by zero** as long as no other peer has registered with it. -/
theorem Lists.divides_iff (h : Lists w p n registered) (rand : ℕ) :
    getRandomPeer (w.address p) n rand = .divisionByZero ↔
      ∀ r ∈ registered, name (w.address r) = name (w.address p) := by
  obtain ⟨l, hl, hnames⟩ := h.holds
  rw [RandomPeer.divisionByZero_iff, and_iff_right fun i hi => entry_ne_none hl hi]
  constructor
  · intro hnone r hr
    have hmem : name (w.address r) ∈ l.map name := by
      rw [hnames]
      exact List.mem_cons_of_mem _ (List.mem_map.mpr ⟨r, hr, rfl⟩)
    obtain ⟨peer, hpeer, hname⟩ := List.mem_map.mp hmem
    obtain ⟨i, hi, rfl⟩ := List.getElem_of_mem hpeer
    by_contra hne
    have hdiffers : RandomPeer.differs (w.address p) n i = true :=
      RandomPeer.differs_iff.mpr ⟨l[i], (hl.entry i hi).trans (List.getElem?_eq_getElem hi), hname ▸ hne⟩
    rw [hnone i (hl.count ▸ hi)] at hdiffers
    exact Bool.false_ne_true hdiffers
  · intro hall i hi
    refine Bool.eq_false_iff.mpr fun hdiffers => ?_
    obtain ⟨peer, hpeer, hne⟩ := RandomPeer.differs_iff.mp hdiffers
    obtain ⟨r, hr, hname, hother⟩ := h.entry hi hpeer hne
    exact hother (hall r hr)

/-! ### What a step does to it -/

section Peer
variable {y : Peer P}

theorem running_fresh {process : Process} {Q : Prop} (h : process = .running) : process = .ready → Q := by
  rw [h]
  rintro ⟨⟩

theorem PeerInv.launch (h : PeerInv w disk p y) (hready : y.process = .ready) (server : Option PeerAddress) :
    PeerInv w disk p (y.launch (w.address p) server) := by
  have hnone : y.registered = [] := (h.fresh hready).1
  refine ⟨nofun, fun _ => ?_, h.files, ?_, nofun⟩
  · show Lists w p _ y.registered
    rw [hnone]
    exact ⟨Lib.Pointers.valid_ofList _ _, [w.address p], Lib.Pointers.holds_ofList _ _, rfl⟩
  · cases server with
    | none => trivial
    | some a => exact fun hne => absurd rfl hne

theorem PeerInv.connect (h : PeerInv w disk p y) (hrunning : y.process = .running)
    (hclient : y.client = .calling call a) (server : Option P) : PeerInv w disk p (y.connect call a server) := by
  have hcalls := h.calls
  rw [hclient] at hcalls
  refine ⟨running_fresh hrunning, h.lists, fun path => ?_, ⟨hcalls, fun q reply hc => ?_⟩, h.alone⟩
  · show Kept (disk path) (touch y.files call path)
    unfold touch
    split_ifs with hmissing
    · by_cases hpath : path = call.requestBody
      · subst hpath
        have hkept := (h.files call.requestBody).touch
        rw [hmissing.2] at hkept
        rw [Function.update_self]
        exact hkept
      · rw [Function.update_of_ne hpath]
        exact h.files path
    · exact h.files path
  · cases server <;> cases hc

theorem PeerInv.enlist (h : PeerInv w disk p y) (hrunning : y.process = .running) {r : Request} {q : P}
    (hname : name r.peer = name (w.address q)) :
    PeerInv w disk p { y with network := handle y.network r, registered := y.registered ++ [q] } := by
  have hknows : ∀ b, Knows w p y.registered b → Knows w p (y.registered ++ [q]) b :=
    fun b ⟨c, hc, hb⟩ => ⟨c, List.mem_append_left _ hc, hb⟩
  have hrun : y.process ≠ .ready := by
    rw [hrunning]
    rintro ⟨⟩
  refine ⟨running_fresh hrunning, fun _ => ?_, h.files, ?_, fun hstopped => ?_⟩
  · obtain ⟨hv, l, hl, hnames⟩ := h.lists hrun
    obtain ⟨hv', hl'⟩ := Listed.handle_spec hv hl r
    refine ⟨hv', l ++ [r.peer], hl', ?_⟩
    rw [List.map_append, hnames, List.map_singleton, hname, List.map_append]
    rfl
  · have hcalls := h.calls
    show Calls w p (y.registered ++ [q]) y.client
    cases hc : y.client with
    | calling call b =>
      rw [hc] at hcalls
      exact fun hne => hknows b (hcalls hne)
    | waiting call b c =>
      rw [hc] at hcalls
      exact ⟨fun hne => hknows b (hcalls.1 hne), hcalls.2⟩
    | absent => trivial
    | selecting call => trivial
    | returned => trivial
  · rw [show y.process = .stopped from hstopped] at hrunning
    cases hrunning

theorem PeerInv.answer (h : PeerInv w disk p y) {c : Connection P} (hclient : y.client = .waiting call a c)
    {q : P} {reply : List Byte} (hsent : Sent w call reply) :
    PeerInv w disk p { y with client := .waiting call a (.replied q reply) } := by
  have hcalls := h.calls
  rw [hclient] at hcalls
  refine ⟨fun hready => ?_, h.lists, h.files, ⟨hcalls.1, fun q' reply' heq => ?_⟩, h.alone⟩
  · have habsent := (h.fresh hready).2
    rw [hclient] at habsent
    cases habsent
  obtain ⟨-, rfl⟩ := Connection.replied.inj heq
  exact hsent

/-- **A call** changes neither the list nor a file. -/
theorem PeerInv.receive (h : PeerInv w disk p y) (hrunning : y.process = .running) {c : Connection P}
    {stack heap : ℕ → Byte} (hnothing : ComesToNothing (exchange w p y call stack heap c.reply)) :
    PeerInv w disk p (y.receive call (exchange w p y call stack heap c.reply)) := by
  have hlists : y.process ≠ .ready →
      Lists w p (recorded (exchange w p y call stack heap c.reply) y.network) y.registered := by
    rw [hnothing.list]
    exact h.lists
  refine ⟨running_fresh hrunning, hlists, fun path => ?_, by cases call <;> trivial, h.alone⟩
  show Kept (disk path) ((if call.command = .retreive then
    Function.update y.files call.requestBody (some (sendMessage _).file) else y.files) path)
  split_ifs with hretreive
  · by_cases hpath : path = call.requestBody
    · subst hpath
      rw [Function.update_self, hnothing.file]
      exact (h.files call.requestBody).touch
    · rw [Function.update_of_ne hpath]
      exact h.files path
  · exact h.files path

theorem PeerInv.select (h : PeerInv w disk p y) (hrunning : y.process = .running) {rand slot : ℕ} {b : PeerAddress}
    (hselected : getRandomPeer (w.address p) y.network rand = .selected slot b) :
    PeerInv w disk p { y with client := .calling call b } := by
  refine ⟨running_fresh hrunning, h.lists, h.files, fun _ => ?_, h.alone⟩
  exact (h.lists (by rw [hrunning]; rintro ⟨⟩)).selected hselected

theorem PeerInv.divide (h : PeerInv w disk p y) (hrunning : y.process = .running) {rand : ℕ}
    (hdivides : getRandomPeer (w.address p) y.network rand = .divisionByZero) :
    PeerInv w disk p { y with process := .stopped } := by
  have hlists := h.lists (by rw [hrunning]; rintro ⟨⟩)
  exact ⟨nofun, fun _ => hlists, h.files, h.calls, fun _ => (hlists.divides_iff rand).mp hdivides⟩

end Peer

/-! ### Steps and runs -/

variable [DecidableEq P] {disk : P → List Byte → Option (List Byte)} {s s' : State P}

/-- A step changes one peer. -/
theorem inv_update (h : ∀ r, PeerInv w (disk r) r (s r)) {y : Peer P} (hy : PeerInv w (disk p) p y) (r : P) :
    PeerInv w (disk r) r (Function.update s p y r) := by
  by_cases hr : r = p
  · subst hr
    rwa [Function.update_self]
  · rw [Function.update_of_ne hr]
    exact h r

omit [DecidableEq P] in
/-- **Nothing comes of a call** between peers of this program. -/
theorem comesToNothing {y : Peer P} (hp : PeerInv w (disk p) p y) (hplain : ∀ q reply, y.client = .waiting call a
    (.replied q reply) → ¬ Accidental w call reply) {c : Connection P} (hclient : y.client = .waiting call a c)
    (stack heap : ℕ → Byte) : ComesToNothing (exchange w p y call stack heap c.reply) := by
  have hcommand : (exchange w p y call stack heap c.reply).command ≠ .inform := by
    cases call <;> rintro ⟨⟩
  have hcalls := hp.calls
  rw [hclient] at hcalls
  cases c with
  | refused => exact comesToNothing_of_nil hcommand (w.longIp p) rfl
  | pending q => exact comesToNothing_of_nil hcommand (w.longIp p) rfl
  | replied q reply =>
    have hsent := hcalls.2 q reply rfl
    have hchance := hplain q reply hclient
    cases call with
    | register =>
      obtain ⟨st, l, hreply⟩ := hsent
      have hreceives := receives_handleRegister (x := exchange w p y .register stack heap reply) rfl hreply
      exact comesToNothing_of_payload rfl hreceives.count hreceives.status (hreceives.sha_ne hchance)
    | tiny => exact comesToNothing_of_file rfl (w.longIp p) hsent hchance
    | hamlet => exact comesToNothing_of_file rfl (w.longIp p) hsent hchance

/-- Who is registered makes no difference to the clients. -/
theorem client_enlist (s : State P) (q p : P) (r : Request) (p' : P) : (s.enlist q p r p').client = (s p').client := by
  unfold State.enlist
  by_cases hq : p' = q
  · subst hq
    rw [Function.update_self]
  · rw [Function.update_of_ne hq]

/-- **What one step keeps.** -/
theorem inv_step (h : ∀ r, PeerInv w (disk r) r (s r)) (hplain : Plain w s) (hs : Step w s s') :
    ∀ r, PeerInv w (disk r) r (s' r) := by
  cases hs with
  | @launch p server hprocess => exact inv_update h ((h p).launch hprocess server)
  | @connect p call a server hprocess hclient hserver => exact inv_update h ((h p).connect hprocess hclient server)
  | @register p q call a m incoming ip port before stack hprocess hclient hcut hhandled =>
    rw [handled_eq hcut] at hhandled
    split_ifs at hhandled with hcall
    obtain ⟨rfl, rfl⟩ := ServerRequest.Handled.register.inj hhandled
    have hq := inv_update h ((h q).enlist hprocess (name_register (w.wellFormed p) before))
    refine inv_update hq ((hq p).answer ((client_enlist s q p _ p).trans hclient) ?_)
    subst hcall
    exact ⟨stack, _, rfl⟩
  | @retreive p q call a m incoming mem path reply beyond hprocess hclient hcut hhandled hpath hreply =>
    rw [handled_eq hcut] at hhandled
    split_ifs at hhandled with hcall
    have hlength : reply = [] ∨ reply.length = 36 := by
      rcases hreply with rfl | ⟨-, rfl⟩
      · exact Or.inr (Retrieve.length_handleRetreive _ _)
      · exact Or.inl rfl
    refine inv_update h ((h p).answer hclient ?_)
    cases call with
    | register => exact absurd rfl hcall
    | tiny => exact hlength
    | hamlet => exact hlength
  | @receive p call a c stack heap hprocess hclient hreads hdefined =>
    exact inv_update h ((h p).receive hprocess (comesToNothing (h p) (hplain p call a) hclient stack heap))
  | @select p call rand slot peer hprocess hclient hselected => exact inv_update h ((h p).select hprocess hselected)
  | @divide p call rand hprocess hclient hdivides => exact inv_update h ((h p).divide hprocess hdivides)

omit [DecidableEq P] in
theorem inv_initial (disk : P → List Byte → Option (List Byte)) (r : P) :
    PeerInv w (disk r) r (initial disk r) :=
  ⟨fun _ => ⟨rfl, rfl⟩, fun h => absurd rfl h, fun _ => Or.inl rfl, trivial, nofun⟩

/-- **A whole run.** -/
theorem inv_reached (h : Reached w disk s) : Plain w s ∧ ∀ r, PeerInv w (disk r) r (s r) :=
  h.invariant (I := fun s => Plain w s ∧ ∀ r, PeerInv w (disk r) r (s r))
    (fun _ _ hI hs => ⟨hs.2, inv_step hI.2 hI.1 hs.1⟩) ⟨nofun, inv_initial disk⟩

/-! ### A call that does not end -/

/-- The client has asked `q`. -/
def Asks (call : Call) (q : P) : Client P → Prop
  | .waiting call' _ (.pending q') => call' = call ∧ q' = q
  | .waiting call' _ (.replied q' _) => call' = call ∧ q' = q
  | _ => False

theorem waits_of_short {x : Exchange} (h : x.reply.length < replyHeaderLen) : waits x = true := by
  rw [waits, decide_eq_true h, Bool.true_or]

omit [DecidableEq P] in
/-- What is sent for a file is never a whole header. -/
theorem PeerInv.waits {disk : List Byte → Option (List Byte)} {y : Peer P} (h : PeerInv w disk p y)
    (hcall : call ≠ .register) {c : Connection P} (hclient : y.client = .waiting call a c) (stack heap : ℕ → Byte) :
    waits (exchange w p y call stack heap c.reply) = true := by
  have hcalls := h.calls
  rw [hclient] at hcalls
  refine waits_of_short ?_
  show c.reply.length < 80
  cases c with
  | refused => exact Nat.succ_pos _
  | pending q => exact Nat.succ_pos _
  | replied q reply =>
    have hfile : reply = [] ∨ reply.length = 36 := by
      have hsent := hcalls.2 q reply rfl
      cases call with
      | register => exact absurd rfl hcall
      | tiny => exact hsent
      | hamlet => exact hsent
    show reply.length < 80
    rcases hfile with rfl | hlen
    · exact Nat.succ_pos _
    · omega

omit [DecidableEq P] in
/-- It is the one at the other end of this call's connection. -/
theorem asked_eq {call' : Call} {c : Connection P} (hasks : Asks call q (.waiting call' a c)) :
    call' = call ∧ (Closed s c → (s q).process = .stopped) := by
  cases c with
  | refused => exact hasks.elim
  | pending q' =>
    obtain ⟨hcall, rfl⟩ := hasks
    exact ⟨hcall, id⟩
  | replied q' reply =>
    obtain ⟨hcall, rfl⟩ := hasks
    exact ⟨hcall, id⟩

/-- A step changes one client. -/
theorem asks_update (hasks : Asks call q (s p).client) {p' : P} {y : Peer P}
    (hy : Asks call q (s p').client → Asks call q y.client) : Asks call q (Function.update s p' y p).client := by
  by_cases hp : p = p'
  · subst hp
    rw [Function.update_self]
    exact hy hasks
  · rwa [Function.update_of_ne hp]

/-- **A retrieve call does not end** as long as the peer that has been asked runs. -/
theorem asks_step (h : ∀ r, PeerInv w (disk r) r (s r)) (hs : Step w s s') (hcall : call ≠ .register)
    (hasks : Asks call q (s p).client) (hq : (s q).process = .running) : Asks call q (s' p).client := by
  cases hs with
  | @launch p' server hprocess =>
    refine asks_update hasks fun hasked => ?_
    rw [((h p').fresh hprocess).2] at hasked
    exact hasked.elim
  | @connect p' call' a server hprocess hclient hserver =>
    refine asks_update hasks fun hasked => ?_
    rw [hclient] at hasked
    exact hasked.elim
  | @register p' q' call' a m incoming ip port before stack hprocess hclient hcut hhandled =>
    rw [← client_enlist s q' p' (.register ip port before) p] at hasks
    refine asks_update hasks fun hasked => ?_
    rw [client_enlist, hclient] at hasked
    exact hasked
  | @retreive p' q' call' a m incoming mem path reply beyond hprocess hclient hcut hhandled hpath hreply =>
    refine asks_update hasks fun hasked => ?_
    rw [hclient] at hasked
    exact hasked
  | @receive p' call' a c stack heap hprocess hclient hreads hdefined =>
    refine asks_update hasks fun hasked => ?_
    rw [hclient] at hasked
    obtain ⟨rfl, hstopped⟩ := asked_eq (s := s) hasked
    rcases hreads with hclosed | hwaits
    · rw [hstopped hclosed] at hq
      cases hq
    · rw [(h p').waits hcall hclient stack heap] at hwaits
      cases hwaits
  | @select p' call' rand slot peer hprocess hclient hselected =>
    refine asks_update hasks fun hasked => ?_
    rw [hclient] at hasked
    exact hasked.elim
  | @divide p' call' rand hprocess hclient hdivides =>
    refine asks_update hasks fun hasked => ?_
    rw [hclient] at hasked
    exact hasked.elim

/-- **A register call ends**: whatever the list that is sent, the client gives it up. -/
theorem register_returns (h : Reached w disk s) {reply : List Byte} (hprocess : (s p).process = .running)
    (hclient : (s p).client = .waiting .register a (.replied q reply))
    (hfits : reply.length ≤ replyHeaderLen + maxMsgLen) :
    ∃ e, Step w s (Function.update s p ((s p).receive .register e)) := by
  obtain ⟨hplain, hinv⟩ := inv_reached h
  have hcalls := (hinv p).calls
  rw [hclient] at hcalls
  obtain ⟨st, l, hreply⟩ := hcalls.2 q reply rfl
  have hreceives := receives_handleRegister
    (x := exchange w p (s p) .register (fun _ => 0#8) (fun _ => 0#8) reply) rfl hreply
  obtain ⟨hwaits, hpc⟩ := hreceives.returns (hplain p .register a q reply hclient) hfits
  refine ⟨_, .receive (fun _ => 0#8) (fun _ => 0#8) hprocess hclient (Or.inr hwaits) ?_⟩
  show (sendMessage (exchange w p (s p) .register _ _ reply)).pc ≠ .overrun
  rw [hpc]
  rintro ⟨⟩

/-- `127.0.0.1:8001`. -/
def neighbour : PeerAddress := { Register.localPeer with port := Register.field 8 [56#8, 48#8, 48#8, 49#8] }

/-- A peer and its neighbour, with the first byte for a hash function. -/
def twoPeers : World Bool where
  sha := fun bytes _ => bytes.headD 0#8
  address := fun p => if p then neighbour else Register.localPeer
  wellFormed := by
    rintro (_ | _)
    · exact ⟨by decide, 8000, by norm_num, rfl⟩
    · exact ⟨by decide, 8001, by norm_num, rfl⟩
  longIp := by decide

/-- The request of the neighbour, in one read. -/
def neighbourRequest : ReadBuffer.Fragment := ⟨request neighbour 1 [], by decide, by decide⟩

/-- The reply to it. -/
def localReply : List Byte := handleRegister twoPeers.sha (fun _ => 0#8) [Register.localPeer]

theorem not_accidental_localReply : ¬ Accidental twoPeers .register localReply := fun h =>
  absurd (congrFun h ⟨0, by decide⟩) (by decide)

/-- A state whose clients wait for nothing but that reply. -/
theorem plain_two {s : State Bool} (hfirst : (s false).client = .absent)
    (hsecond : ∀ call a q reply, (s true).client = .waiting call a (.replied q reply) →
      call = .register ∧ reply = localReply) : Plain twoPeers s := by
  rintro (_ | _) call a q reply h
  · rw [hfirst] at h
    cases h
  · obtain ⟨rfl, rfl⟩ := hsecond call a q reply h
    exact not_accidental_localReply

/-- The neighbour has been started and has sent its request; it is listed, and the reply is on its way. -/
theorem neighbour_registers : ∃ s, Reached twoPeers (fun _ _ => none) s ∧
    (s false).client = .absent ∧ (s false).process = .running ∧ (s false).registered = [true] ∧
    (s true).client = .waiting .register Register.localPeer (.replied false localReply) ∧
    (s true).process = .running ∧ (s true).registered = [] := by
  have h1 : Reached twoPeers (fun _ _ => none) _ :=
    ⟨1, .tail .refl ⟨@Step.launch Bool _ twoPeers _ false none rfl, plain_two rfl nofun⟩⟩
  obtain ⟨_, h1⟩ := h1
  have h2 := h1.tail ⟨@Step.launch Bool _ twoPeers _ true (some Register.localPeer) rfl, plain_two rfl nofun⟩
  have h3 := h2.tail ⟨@Step.connect Bool _ twoPeers _ true .register Register.localPeer (some false) rfl rfl
    (by rintro q ⟨⟩; rfl), plain_two rfl nofun⟩
  have hcut : ReadBuffer.stream [neighbourRequest] = request (twoPeers.address true) Call.register.command.code
    Call.register.requestBody := List.append_nil _
  have h4 := h3.tail ⟨.register (fun _ => 0#8) (fun _ => 0#8) rfl rfl hcut
    (handled_eq (m := ⟨fun _ => 0#8, fun _ => 0#8, fun _ => 0#8⟩) hcut), plain_two rfl fun call a q reply h => by
      change Client.waiting .register Register.localPeer (.replied false localReply) = _ at h
      cases h
      exact ⟨rfl, rfl⟩⟩
  exact ⟨_, ⟨_, h4⟩, rfl, rfl, rfl, rfl, rfl, rfl⟩

end CompSys.A4.Peers
