import CompSys.A4.RandomPeer
import CompSys.A4.RequestBody
import CompSys.A4.Retrieve

/-! # Peers that all run this program

Any number of processes of `peer.c`, each in a directory of its own: the two threads that `main` starts, the requests
and replies that are on their way, and the network lists. `client_thread` registers with the peer of its config and
then asks for two files, each time from a peer that `get_random_peer` selects; `server_thread` handles one request
after another and never closes a connection. So a client that reads more than it has been sent waits (`waits`), until
the process at the other end has stopped.

A step is a call's request, a request that is handled, a call's reply, or a selection. What the code leaves undefined
has no next state. The two pointers that `server_thread` hands to `accept` uninitialised are taken to be null. -/

namespace CompSys.A4.Peers

open CompSys.Lib.Bytes CompSys.A4.Wire CompSys.A4.SendMessage CompSys.A4.ReadBuffer CompSys.A4.Network
open CompSys.A4.Listed (name peers)
open CompSys.A4.ServerRequest (request handleServerRequest)
open CompSys.A4.RequestBody (HoldsString)
open CompSys.A4.Register (handleRegister)
open CompSys.A4.Retrieve (handleRetreive)
open CompSys.A4.RandomPeer (getRandomPeer)
open CompSys.A4.Recorded (recorded)

/-! ### A client that waits -/

/-- A round of the loop asks for bytes that have not been sent: of the header, or of the payload. -/
def asks (x : Exchange) (s : SendMessage.Client) : Bool :=
  (0 < s.b && x.reply.length < s.pos + replyHeaderLen) ||
    (checkHeader x (nextHeader x s) = none && (nextHeader x s).header.length.toNat ≤ maxMsgLen &&
      x.reply.length < (nextHeader x s).pos + (nextHeader x s).header.length.toNat)

/-- One of the next `n` steps does. -/
def asksWithin (x : Exchange) : ℕ → SendMessage.Client → Bool
  | 0, _ => false
  | n + 1, s =>
    (s.pc = .loop && s.b < s.refCount.toNat && asks x s) ||
      match step x s with
      | some s' => asksWithin x n s'
      | none => false

/-- **`send_message` waits** for more than the reply, as long as the connection is open. -/
def waits (x : Exchange) : Bool :=
  x.reply.length < replyHeaderLen || asksWithin x ((start x).refCount.toNat + 1) (start x)

/-! ### The threads of a peer -/

/-- The calls of `send_message` in `client_thread`. -/
inductive Call
  | register
  | tiny
  | hamlet
  deriving DecidableEq

def Call.command : Call → Command
  | .register => .register
  | .tiny | .hamlet => .retreive

/-- The bytes of a string constant, without the NUL. -/
def text (s : String) : List Byte := s.toList.map fun c => BitVec.ofNat 8 c.toNat

/-- `request_body`. -/
def Call.requestBody : Call → List Byte
  | .register => []
  | .tiny => text "tiny.txt"
  | .hamlet => text "hamlet.txt"

/-- The connection of a call, as seen by the client. -/
inductive Connection (P : Type*)
  /-- `compsys_helper_open_clientfd` has failed; the code goes on with a descriptor that gives nothing. -/
  | refused
  /-- The request has been sent, and not been handled. -/
  | pending (server : P)
  | replied (server : P) (reply : List Byte)

/-- What has been sent to the client. -/
def Connection.reply {P : Type*} : Connection P → List Byte
  | .replied _ reply => reply
  | _ => []

/-- Where `client_thread` is; `peerAddress` is its `peer_address`. -/
inductive Client (P : Type*)
  /-- There is no peer in the config, and no thread. -/
  | absent
  | calling (call : Call) (peerAddress : PeerAddress)
  | waiting (call : Call) (peerAddress : PeerAddress) (connection : Connection P)
  /-- Before the `get_random_peer` for a call. -/
  | selecting (call : Call)
  | returned

/-- After a call: `send_message` returns nothing, whatever has happened. -/
def Call.next {P : Type*} : Call → Client P
  | .register => .selecting .tiny
  | .tiny => .selecting .hamlet
  | .hamlet => .returned

/-- A process: not started, running, or stopped by a division by zero. -/
inductive Process
  | ready
  | running
  | stopped
  deriving DecidableEq

/-- A peer, with the files in its directory. `registered` has no influence: the peers whose register requests it has
handled, in order. -/
structure Peer (P : Type*) where
  process : Process
  network : PeerTable
  client : Client P
  files : List Byte → Option (List Byte)
  registered : List P

/-- What is the same in all runs: the hash function, and the addresses of the configs. They have passed the checks of
`main`, so that an ip has at least the seven characters of `0.0.0.0`. -/
structure World (P : Type*) where
  sha : List Byte → Hash
  address : P → PeerAddress
  wellFormed : ∀ p, (address p).WellFormed
  longIp : ∀ p, 7 ≤ (name (address p)).1.length

abbrev State (P : Type*) := P → Peer P

/-- Before any process has been started. -/
def initial {P : Type*} (disk : P → List Byte → Option (List Byte)) : State P := fun p =>
  { process := .ready, network := Lib.Pointers.ofList [] 0, client := .absent, files := disk p, registered := [] }

variable {P : Type*}

/-! ### What a peer does -/

/-- `main`, with the peer of the config if there is one. -/
def Peer.launch (x : Peer P) (myAddress : PeerAddress) (peerAddress : Option PeerAddress) : Peer P :=
  { x with process := .running
           network := Listed.start myAddress
           client := peerAddress.elim .absent (.calling .register) }

/-- A file that is to be retrieved is created if it is missing. -/
def touch (files : List Byte → Option (List Byte)) (call : Call) : List Byte → Option (List Byte) :=
  if call.command = .retreive ∧ files call.requestBody = none then
    Function.update files call.requestBody (some [])
  else files

/-- `send_message` up to the request. -/
def Peer.connect (x : Peer P) (call : Call) (peerAddress : PeerAddress) (server : Option P) : Peer P :=
  { x with files := touch x.files call
           client := .waiting call peerAddress (server.elim .refused .pending) }

/-- The call that a client has made, with the reply that it gets. -/
def exchange (w : World P) (p : P) (x : Peer P) (call : Call) (stack heap : ℕ → Byte) (reply : List Byte) :
    Exchange where
  sha := w.sha
  command := call.command
  requestBody := call.requestBody
  myAddress := w.address p
  stack := stack
  heap := heap
  outputFile := (x.files call.requestBody).getD []
  reply := reply

/-- `send_message` from the reply on. -/
def Peer.receive (x : Peer P) (call : Call) (e : Exchange) : Peer P :=
  { x with network := recorded e x.network
           files := if call.command = .retreive then
             Function.update x.files call.requestBody (some (sendMessage e).file) else x.files
           client := call.next }

/-- The other end of a connection is gone. -/
def Closed (s : State P) : Connection P → Prop
  | .refused => True
  | .pending q => (s q).process = .stopped
  | .replied q _ => (s q).process = .stopped

variable [DecidableEq P]

/-- `handle_register` of `q` for a request of `p`, as far as the network list goes. -/
def State.enlist (s : State P) (q p : P) (r : Request) : State P :=
  Function.update s q { s q with network := handle (s q).network r, registered := (s q).registered ++ [p] }

/-- The reply of `q` to `p` is on its way. -/
def State.answer (s : State P) (p : P) (call : Call) (peerAddress : PeerAddress) (q : P) (reply : List Byte) :
    State P :=
  Function.update s p { s p with client := .waiting call peerAddress (.replied q reply) }

/-- **One step of the network.** A call reaches some running peer or nobody, whatever the lookup makes of the address;
its request arrives in any reads; what the memory of a process holds before it is written is arbitrary. -/
inductive Step (w : World P) (s : State P) : State P → Prop
  | launch {p : P} {peerAddress : Option PeerAddress} (hprocess : (s p).process = .ready) :
      Step w s (Function.update s p ((s p).launch (w.address p) peerAddress))
  | connect {p : P} {call : Call} {peerAddress : PeerAddress} {server : Option P}
      (hprocess : (s p).process = .running) (hclient : (s p).client = .calling call peerAddress)
      (hserver : ∀ q, server = some q → (s q).process = .running) :
      Step w s (Function.update s p ((s p).connect call peerAddress server))
  | register {p q : P} {call : Call} {peerAddress : PeerAddress} {m : ServerRequest.Memory} {incoming : List Fragment}
      {clientIp : Fin 16 → Byte} {clientPort : BitVec 32} (before : Fin 8 → Byte) (stack : ℕ → Byte)
      (hprocess : (s q).process = .running) (hclient : (s p).client = .waiting call peerAddress (.pending q))
      (hcut : stream incoming = request (w.address p) call.command.code call.requestBody)
      (hhandled : handleServerRequest m incoming = .register clientIp clientPort) :
      Step w s ((s.enlist q p (.register clientIp clientPort before)).answer p call peerAddress q
        (handleRegister w.sha stack (peers (s q).network)))
  | retreive {p q : P} {call : Call} {peerAddress : PeerAddress} {m : ServerRequest.Memory} {incoming : List Fragment}
      {mem : ℕ → Byte} {path reply : List Byte} {beyond : ℕ → Byte}
      (hprocess : (s q).process = .running) (hclient : (s p).client = .waiting call peerAddress (.pending q))
      (hcut : stream incoming = request (w.address p) call.command.code call.requestBody)
      (hhandled : handleServerRequest m incoming = .retreive mem) (hpath : HoldsString mem path)
      -- a file that is there and cannot be opened is not answered
      (hreply : reply = handleRetreive ((s q).files path) beyond ∨ (s q).files path ≠ none ∧ reply = []) :
      Step w s (s.answer p call peerAddress q reply)
  | receive {p : P} {call : Call} {peerAddress : PeerAddress} {c : Connection P} (stack heap : ℕ → Byte)
      (hprocess : (s p).process = .running) (hclient : (s p).client = .waiting call peerAddress c)
      (hreads : Closed s c ∨ waits (exchange w p (s p) call stack heap c.reply) = false)
      (hdefined : (sendMessage (exchange w p (s p) call stack heap c.reply)).pc ≠ .overrun) :
      Step w s (Function.update s p ((s p).receive call (exchange w p (s p) call stack heap c.reply)))
  | select {p : P} {call : Call} {rand slot : ℕ} {peer : PeerAddress}
      (hprocess : (s p).process = .running) (hclient : (s p).client = .selecting call)
      (hselected : getRandomPeer (w.address p) (s p).network rand = .selected slot peer) :
      Step w s (Function.update s p { s p with client := .calling call peer })
  | divide {p : P} {call : Call} {rand : ℕ}
      (hprocess : (s p).process = .running) (hclient : (s p).client = .selecting call)
      (hdivides : getRandomPeer (w.address p) (s p).network rand = .divisionByZero) :
      Step w s (Function.update s p { s p with process := .stopped })

/-- **A reply that passes for a good one by chance**: what lies behind the header of a reply to a register request has
the hash of the list; or bytes 4 to 7 of a file are 0, 0, 0 and 1, where a client looks for the status. -/
def Accidental (w : World P) : Call → List Byte → Prop
  | .register, reply =>
    w.sha (reply.drop replyHeaderLen) = (readHeader fun i => reply.getD i 0#8).blockHash
  | .tiny, reply | .hamlet, reply => netWord (fun i => reply.getD i 0#8) 4 = statusOk

/-- No such reply is on its way. -/
def Plain (w : World P) (s : State P) : Prop :=
  ∀ p call peerAddress q reply, (s p).client = .waiting call peerAddress (.replied q reply) → ¬ Accidental w call reply

/-- A run of the network from the start on, without such replies. -/
abbrev Reached (w : World P) (disk : P → List Byte → Option (List Byte)) (s : State P) : Prop :=
  Lib.Runs.Reaches (fun s s' => Step w s s' ∧ Plain w s') (initial disk) s

end CompSys.A4.Peers
