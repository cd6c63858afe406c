import Efishell.Net.Sockets
import Efishell.Support.OnesComplement

/-!
# Networking — the packets that are sent

What `net_ip_send`, `net_udp_output`, `net_tcp_packet`, `net_udp_unreachable` and the echo reply of
`net_icmp_input` write, byte by byte, and the tests that the receiving side makes on it.

`stack` is what the packet buffer held before, wherever the source leaves it as it was.  The answers
of the neighbour table and of the routes are parameters.
-/

namespace Efishell.Packets

/-- An interface that was registered: no driver has a larger or a smaller MTU. -/
structure Registered where
  device : NetDevice
  mtu_ge : 1280 ≤ device.mtu
  mtu_le : device.mtu ≤ 1500

/-- A packet as it is handed to `net_enqueue` or to `net_ether`. -/
structure IpPacket where
  bytes : Bytes
  size : Nat

/-- `net_put32(b + off, x)`. -/
def netPut32 (b : Bytes) (off x : Nat) : Bytes := netPut16 (netPut16 b off (x / 65536)) (off + 2) x

/-! ### IP -/

/-- The header that `net_ip_send` writes at the start of a packet for IPv4. -/
def header4 (packet src dst : Bytes) (id proto n ttl : Nat) : Bytes :=
  let p := Function.update packet 0 0x45
  let p := netPut16 p 2 (n + 20)
  let p := netPut16 p 4 id
  let p := if proto = 6 then netPut16 p 6 0x4000 else p
  let p := Function.update p 8 (UInt8.ofNat ttl)
  let p := Function.update p 9 (UInt8.ofNat proto)
  let p := memCopy p 12 src 0 4
  let p := memCopy p 16 dst 0 4
  netPut16 p 10 (kNetChecksum p 20)

/-- The header for IPv6. -/
def header6 (packet src dst : Bytes) (proto n ttl : Nat) : Bytes :=
  let p := Function.update packet 0 0x60
  let p := netPut16 p 4 n
  let p := Function.update p 6 (UInt8.ofNat proto)
  let p := Function.update p 7 (UInt8.ofNat ttl)
  let p := memCopy p 8 src 0 16
  memCopy p 24 dst 0 16

/-- What `net_ip_send` finds: the interface, the next `net_ip_id`, what the packet buffer held and
what `net_resolve_mac` answers. -/
structure Sending where
  iface : Registered
  id : Nat
  stack : Bytes
  resolve : Option Errno

/-- `net_ip_send`: the packet the header is put before. -/
def netIpSend (w : Sending) (family : Nat) (src dst : Bytes) (proto : Nat) (bytes : Bytes)
    (n ttl : Nat) : Except Errno IpPacket :=
  let h := if family = 4 then 20 else 40
  if sub32 w.iface.device.mtu h < n then .error .emsgsize
  else
    match w.resolve with
    | some e => .error e
    | none =>
        let packet := memZero w.stack 0 h
        let packet :=
          if family = 4 then header4 packet src dst w.id proto n ttl
          else header6 packet src dst proto n ttl
        .ok ⟨memCopy packet h bytes 0 n, n + h⟩

/-! ### UDP -/

/-- The source address of a datagram; `src` is the one that the route gives. -/
def udpSource (w : Sending) (privileged : Bool) (s : NetSocket) (src : Bytes) :
    Except Errno Bytes :=
  let bound := !netZero s.localAddr.bytes (netAddrBytes s.family)
  if bound && !netLocal w.iface.device s.family s.localAddr.bytes then .error .enetunreach
  else
    let src := if bound then memCopy src 0 s.localAddr.bytes 0 16 else src
    if s.family = 4 ∧ w.iface.device.ready4 = false then
      if privileged then .ok (memZero src 0 16) else .error .eperm
    else .ok src

/-- The datagram that `net_udp_output` writes. -/
def udpDatagram (stack : Bytes) (s : NetSocket) (dest : NetAddress) (src bytes : Bytes) (n : Nat) :
    Bytes :=
  let p := netPut16 stack 0 s.localAddr.port
  let p := netPut16 p 2 dest.port
  let p := netPut16 p 4 (n + 8)
  let p := Function.update (Function.update p 7 0) 6 0
  let p := memCopy p 8 bytes 0 n
  let sum := netTransportSum s.family src dest.bytes 17 p (n + 8)
  netPut16 p 6 (if sum ≠ 0 then sum else 0xffff)

/-- `net_udp_output`; `route` is the answer of `net_route`. -/
def netUdpOutput (route : Except Errno (Sending × Bytes)) (privileged : Bool) (stack : Bytes)
    (s : NetSocket) (bytes : Bytes) (n : Nat) (dest : NetAddress) : Except Errno IpPacket :=
  match route with
  | .error e => .error e
  | .ok (w, src) =>
      if sub32 w.iface.device.mtu (if s.family = 4 then 28 else 48) < n ∨ 1472 < n then
        .error .emsgsize
      else
        match udpSource w privileged s src with
        | .error e => .error e
        | .ok src =>
            netIpSend w s.family src dest.bytes 17 (udpDatagram stack s dest src bytes n) (n + 8) 64

/-! ### TCP -/

/-- The header byte of the flags. -/
def flagsByte (f : TcpFlags) : Nat :=
  f.fin.toNat + 2 * f.syn.toNat + 4 * f.rst.toNat + 8 * f.psh.toNat + 16 * f.ack.toNat +
    32 * f.urg.toNat

/-- The segment that `net_tcp_packet` writes, with a header of `h` bytes. -/
def tcpBytes (stack : Bytes) (s : NetSocket) (sequence : Nat) (flags : TcpFlags) (bytes : Bytes)
    (n h : Nat) : Bytes :=
  let p := memZero stack 0 h
  let p := netPut16 p 0 s.localAddr.port
  let p := netPut16 p 2 s.peer.port
  let p := netPut32 p 4 sequence
  let p := if flags.ack then netPut32 p 8 s.tcp.rcvNxt else p
  let p := Function.update p 12 (UInt8.ofNat (h / 4 * 16))
  let p := Function.update p 13 (UInt8.ofNat (flagsByte flags))
  let p := netPut16 p 14 (netStream - s.tcp.rxCount)
  let p :=
    if flags.syn then
      netPut16 (Function.update (Function.update p 20 2) 21 4) 22
        (if s.family = 6 then 1220 else 1440)
    else p
  let p := memCopy p h bytes 0 n
  netPut16 p 16 (netTransportSum s.family s.localAddr.bytes s.peer.bytes 6 p (h + n))

/-- `net_tcp_packet`; `w` is `none` when the interface does not exist. -/
def netTcpPacket (w : Option Sending) (stack : Bytes) (s : NetSocket) (sequence : Nat)
    (flags : TcpFlags) (bytes : Bytes) (n : Nat) : Except Errno IpPacket :=
  let h := if flags.syn then 24 else 20
  match w with
  | none => .error .enetunreach
  | some w =>
      if sub32 (sub32 w.iface.device.mtu (if s.family = 4 then 20 else 40)) h < n then
        .error .emsgsize
      else
        netIpSend w s.family s.localAddr.bytes s.peer.bytes 6
          (tcpBytes stack s sequence flags bytes n h) (h + n) 64

/-! ### ICMP -/

/-- `b` with the bytes of `q` from `off` on: what the code writes through `b + off`. -/
def through (b : Bytes) (off : Nat) (q : Bytes) : Bytes := fun i =>
  if i < off then b i else q (i - off)

/-- The header of the datagram that could not be delivered, as `net_udp_unreachable` makes it
again. -/
def quoteHeader (family : Nat) (q src dst : Bytes) (n : Nat) : Bytes :=
  if family = 4 then
    let q := Function.update q 0 0x45
    let q := netPut16 q 2 (20 + n)
    let q := Function.update q 8 64
    let q := Function.update q 9 17
    let q := memCopy q 12 src 0 4
    let q := memCopy q 16 dst 0 4
    netPut16 q 10 (kNetChecksum q 20)
  else
    let q := Function.update q 0 0x60
    let q := netPut16 q 4 n
    let q := Function.update q 6 17
    let q := Function.update q 7 64
    let q := memCopy q 8 src 0 16
    memCopy q 24 dst 0 16

/-- The size of the message of `net_udp_unreachable`. -/
def unreachableSize (family n : Nat) : Nat := if family = 4 then 36 else 48 + min n 1232

/-- The message of `net_udp_unreachable` for the datagram `p` of `n` bytes. -/
def unreachableMessage (family : Nat) (src dst p : Bytes) (n : Nat) : Bytes :=
  let h := if family = 4 then 20 else 40
  let take := if family = 4 then 8 else min n 1232
  let message : Bytes := fun _ => 0
  let message := Function.update message 0 (if family = 4 then 3 else 1)
  let message := Function.update message 1 (if family = 4 then 3 else 4)
  let message := through message 8 (quoteHeader family (bytesAt message 8) src dst n)
  let message := memCopy message (8 + h) p 0 take
  netPut16 message 2
    (if family = 4 then kNetChecksum message (8 + h + take)
      else netTransportSum 6 dst src 58 message (8 + h + take))

/-- The conditions under which an ICMP message is answered at all. -/
def answers (w : Sending) (family : Nat) (src dst : Bytes) (allow : Bool) : Bool :=
  netLocal w.iface.device family dst && !netMulticast family src &&
    !netZero src (netAddrBytes family) && allow

/-- `net_udp_unreachable`; `allow` is the answer of `net_icmp_allow`. -/
def netUdpUnreachable (w : Sending) (allow : Bool) (family : Nat) (src dst p : Bytes) (n : Nat) :
    Option IpPacket :=
  if !answers w family src dst allow || (family == 4 && netBroadcast4 w.iface.device src) then none
  else
    (netIpSend w family dst src (if family = 4 then 1 else 58)
      (unreachableMessage family src dst p n) (unreachableSize family n) 64).toOption

/-- The echo reply to the message `p` of `n` bytes. -/
def replyMessage (family : Nat) (stack src dst p : Bytes) (n : Nat) : Bytes :=
  let b := memCopy stack 0 p 0 n
  let b := Function.update b 0 (if family = 4 then 0 else 129)
  let b := Function.update (Function.update b 3 0) 2 0
  netPut16 b 2 (if family = 4 then kNetChecksum b n else netTransportSum 6 dst src 58 b n)

/-- The branch of `net_icmp_input` that answers an echo request. -/
def netEchoReply (w : Sending) (allow : Bool) (family : Nat) (stack src dst p : Bytes) (n : Nat) :
    Option IpPacket :=
  if n < 8 ∨ p 0 ≠ (if family = 4 then 8 else 128) ∨ p 1 ≠ 0 ∨ 1440 < n ∨
      answers w family src dst allow = false then none
  else
    (netIpSend w family dst src (if family = 4 then 1 else 58)
      (replyMessage family stack src dst p n) n 64).toOption

/-! ### The receiving side -/

/-- What `net_receive_frame` hands to `net_ip_deliver`, for a packet without fragments and without
extension headers. -/
structure IpView where
  src : Bytes
  dst : Bytes
  proto : UInt8
  payload : Bytes
  size : Nat

/-- The length of the header of an IPv4 packet. -/
def headerSize (q : Bytes) : Nat := (q 0).toNat % 16 * 4

/-- What the input path reads of an IP packet. -/
def ipView (family : Nat) (q : Bytes) : IpView :=
  if family = 4 then
    ⟨bytesAt q 12, bytesAt q 16, q 9, bytesAt q (headerSize q), netBe16 q 2 - headerSize q⟩
  else ⟨bytesAt q 8, bytesAt q 24, q 6, bytesAt q 40, netBe16 q 4⟩

/-- The test of `net_udp_input` on a datagram with its header; `n` is the length in the header. -/
def udpTest (family : Nat) (v : IpView) : Bool :=
  let n := netBe16 v.payload 4
  !(family == 6 && netBe16 v.payload 6 == 0) &&
    !(netBe16 v.payload 6 != 0 && netTransportSum family v.src v.dst 17 v.payload n != 0)

/-- The test of `net_tcp_input`. -/
def tcpTest (family : Nat) (v : IpView) : Bool :=
  netTransportSum family v.src v.dst 6 v.payload v.size == 0

/-- The test of `net_icmp_input`. -/
def icmpTest (family : Nat) (v : IpView) : Bool :=
  (if family = 4 then kNetChecksum v.payload v.size
    else netTransportSum 6 v.src v.dst 58 v.payload v.size) == 0

/-- The test of `net_receive_frame` on the header of an IPv4 packet. -/
def headerTest (family : Nat) (q : Bytes) : Bool :=
  family != 4 || kNetChecksum q (headerSize q) == 0

/-- Bit `k` of byte `i` is flipped. -/
def flipBit (p : Bytes) (i k : Nat) : Bytes :=
  Function.update p i (p i ^^^ UInt8.ofNat (2 ^ k))

/-- A bit of the payload is flipped on the way. -/
def IpView.flip (v : IpView) (i k : Nat) : IpView := { v with payload := flipBit v.payload i k }

end Efishell.Packets
