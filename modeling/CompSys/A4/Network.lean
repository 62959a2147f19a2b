import CompSys.A4.Wire
import CompSys.Lib.Pointers

/-! # The network list

`network` and `peer_count` of `peer.c` as a table of pointers to peers, and the statements of
`handle_register`, `handle_inform` and `send_message` that append to it. -/

namespace CompSys.A4.Network

open CompSys.Lib.Pointers CompSys.A4.Wire

/-- `network` and `peer_count`. -/
abbrev PeerTable := Table PeerAddress

/-- What `sprintf` writes for `%d`, with the NUL. -/
def formatInt (n : ℤ) : List Byte := (if n < 0 then 45#8 :: decimal n.natAbs else decimal n.natAbs) ++ [0#8]

/-- `sprintf(port, "%d", n)` into a field of 8 bytes that holds `before`. What runs over the field is not
part of the peer that is copied to the list. -/
def formatPort (before : Fin 8 → Byte) (n : BitVec 32) : Fin 8 → Byte := fun i =>
  if h : i < (formatInt n.toInt).length then (formatInt n.toInt).get ⟨i, h⟩ else before i

/-- The new peer of `send_message` and `handle_inform`: an ip and a port in network byte order. -/
def ofNetwork (message : ℕ → Byte) : PeerAddress :=
  ⟨fun i => message i, formatPort (fun _ => 0#8) (netWord message ipLen)⟩

/-- A request to be added to the list. -/
inductive Request
  /-- `handle_register`: the arguments `client_ip` and `client_port_int`, and what the field for the port
  holds at first. -/
  | register (clientIp : Fin 16 → Byte) (clientPort : BitVec 32) (before : Fin 8 → Byte)
  /-- `handle_inform`. -/
  | inform (request : ℕ → Byte)

/-- `new_peer` in the handler. -/
def Request.peer : Request → PeerAddress
  | .register ip port before => ⟨ip, formatPort before port⟩
  | .inform request => ofNetwork request

/-- `peers_in_network` in `send_message`. -/
def peersInNetwork (replyLength : BitVec 32) : ℕ := 1 + replyLength.toNat / networkAddressLen

/-- `realloc` in the handlers. -/
def grow (n : PeerTable) : PeerTable := n.resize (n.count + 1)

/-- `handle_register` and `handle_inform`, as far as the list goes. -/
def handle (n : PeerTable) (r : Request) : PeerTable := (grow n).place.fill r.peer

/-- `send_message` with a reply to a register request that has passed the checks: its length, and the
bytes of its body. -/
def ownReply (n : PeerTable) (replyLength : BitVec 32) (body : ℕ → Byte) : PeerTable :=
  ((n.resize (peersInNetwork replyLength)).place).fill (ofNetwork body)

end CompSys.A4.Network
