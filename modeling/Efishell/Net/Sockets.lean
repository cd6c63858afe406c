import Efishell.Net.Tcp

/-!
# Networking — the socket table

The sockets of `networking.c`: how a socket is found, named, bound, routed, connected and closed,
and which socket a TCP segment, a datagram or an ICMP error goes to.  What happens on one TCP socket
is `Tcp.lean`'s.

Every entry point runs under `net_lock`, so a call is a function of the table.  What it finds out
about the world (`NetWorld`) is the time, the task that calls, the interfaces with their
configuration, random numbers and the answers of the drivers; none of it is assumed to stay the same
from one call to the next.  Packets that a call sends leave no trace in the table.
-/

namespace Efishell

/-- `K_NET_MAX_SOCKETS`. -/
def kNetMaxSockets : Nat := 64

/-- `NET_NONE` and `K_NET_ANY_IF`. -/
def netNone : Nat := 2 ^ 32 - 1

/-- `NET_DGRAMS`. -/
def netDgrams : Nat := 8

/-! ### Addresses and interfaces -/

/-- `net_be16`: a 16-bit field in network order. -/
def netBe16 (p : Bytes) (off : Nat) : Nat := 256 * (p off).toNat + (p (off + 1)).toNat

/-- `net_be32`: a 32-bit field in network order. -/
def netBe32 (p : Bytes) (off : Nat) : Nat := 65536 * netBe16 p off + netBe16 p (off + 2)

/-- `net_put16(b + off, x)`. -/
def netPut16 (b : Bytes) (off x : Nat) : Bytes := fun i =>
  if i = off then UInt8.ofNat (x / 256) else if i = off + 1 then UInt8.ofNat x else b i

/-- `p + off`. -/
def bytesAt (p : Bytes) (off : Nat) : Bytes := fun i => p (off + i)

/-- `net_zero`: the bytes are all zero. -/
def netZero (p : Bytes) (n : Nat) : Bool := (List.range n).all fun i => p i == 0

/-- `net_equal`: the bytes agree. -/
def netEqual (a b : Bytes) (n : Nat) : Bool := (List.range n).all fun i => a i == b i

/-- The bytes are all zero. -/
theorem netZero_iff {p : Bytes} {n : Nat} : netZero p n = true ↔ ∀ i < n, p i = 0 := by
  simp [netZero, List.all_eq_true]

theorem netEqual_iff {a b : Bytes} {n : Nat} : netEqual a b n = true ↔ ∀ i < n, a i = b i := by
  simp [netEqual, List.all_eq_true]

/-- `net_addr_bytes`: the bytes of an address. -/
def netAddrBytes (family : Nat) : Nat := if family = 4 then 4 else 16

/-- `net_multicast`: the address is a multicast one. -/
def netMulticast (family : Nat) (a : Bytes) : Bool :=
  if family = 4 then decide (224 ≤ (a 0).toNat) else a 0 == 255

/-- `net_prefix`: the two addresses agree in their first `bits` bits. -/
def netPrefix (a b : Bytes) (bits : Nat) : Bool :=
  netEqual a b (bits / 8) &&
    (bits % 8 == 0 || (a (bits / 8) ^^^ b (bits / 8)).toNat / 2 ^ (8 - bits % 8) == 0)

/-- `k_net_address`: an endpoint, as the calls name it. -/
structure NetAddress where
  family : Nat
  interface : Nat
  port : Nat
  reserved : Nat
  bytes : Bytes

/-- The fields of `net_device` that the sockets depend on. -/
structure NetDevice where
  dead : Bool
  /-- `K_NET_UP`. -/
  up : Bool
  /-- `K_NET_LINK`. -/
  link : Bool
  ready4 : Bool
  ready6 : Bool
  address : Bytes
  mask : Bytes
  gateway : Bytes
  linkLocal6 : Bytes
  address6 : Bytes
  gateway6 : Bytes
  prefix6 : Nat
  dadglobal : Nat
  mtu : Nat

/-- What a call reads and does not change: the clock, the devices and the caller. -/
structure NetWorld where
  /-- `k_uptime_ms`. -/
  now : Nat
  /-- `k_task_id`. -/
  task : Nat
  privileged : Bool
  /-- `net_devices` up to `net_devices_count`. -/
  devices : List NetDevice
  /-- The `n`-th call of `net_random`. -/
  random : Nat → Nat
  icmpAllow : Bool
  /-- The answer of `net_ip_send` to the `n`-th packet of the socket in slot `i`. -/
  send : Nat → Nat → Option Errno
  /-- The task is unknown to `k_task_query`, or a zombie. -/
  gone : Nat → Bool

/-- `net_address_ok`: the address is well formed and names a device that is there, or none. -/
def netAddressOk (w : NetWorld) (a : NetAddress) : Bool :=
  (a.family == 4 || a.family == 6) && a.reserved == 0 &&
    (a.interface == netNone || decide (a.interface < w.devices.length)) &&
    (a.family != 4 || netZero (bytesAt a.bytes 4) 12)

/-- `net_local`: the address is one of the device's own. -/
def netLocal (d : NetDevice) (family : Nat) (a : Bytes) : Bool :=
  if family = 4 then d.ready4 && netEqual a d.address 4
  else d.ready6 && (netEqual a d.linkLocal6 16 ||
    (d.dadglobal == 0 && !netZero d.address6 16 && netEqual a d.address6 16))

/-- `net_broadcast4`: the broadcast addresses of the device's subnet. -/
def netBroadcast4 (d : NetDevice) (a : Bytes) : Bool :=
  let mask := netBe32 d.mask 0
  let ip := netBe32 d.address 0
  netBe32 a 0 == 2 ^ 32 - 1 ||
    (mask != 0 && mask != 2 ^ 32 - 1 && netBe32 a 0 == (ip ||| (2 ^ 32 - 1 - mask)))

/-- What an interface says to a destination: nothing, that it can be the fallback, and the source
address when it matches. -/
structure RouteOffer where
  fallback : Bool
  source : Option Bytes

/-- The body of the loop of `net_route` for interface `i`. -/
def routeOffer (dest : NetAddress) (i : Nat) (d : NetDevice) : RouteOffer :=
  if d.dead || !d.up || !d.link then ⟨false, none⟩
  else if dest.family = 4 then
    let ip := netBe32 dest.bytes 0
    let mask := netBe32 d.mask 0
    if i = 0 then ⟨false, if netEqual dest.bytes d.address 4 then some d.address else none⟩
    else if ip / 2 ^ 24 = 127 then ⟨false, none⟩
    else if !d.ready4 && !netBroadcast4 d dest.bytes then ⟨false, none⟩
    else
      ⟨!netZero d.gateway 4,
        if netBroadcast4 d dest.bytes ||
            (mask != 0 && (ip &&& mask) == (netBe32 d.address 0 &&& mask)) then some d.address
        else none⟩
  else if i = 0 then
    ⟨false, if netEqual dest.bytes (fun i => if i = 15 then 1 else 0) 16 then some d.linkLocal6
      else none⟩
  else if !d.ready6 then ⟨false, none⟩
  else
    let link := (dest.bytes 0 == 0xfe && (dest.bytes 1 &&& 0xc0) == 0x80) || dest.bytes 0 == 255
    let source := if link then d.linkLocal6 else d.address6
    ⟨!netZero d.gateway6 16 && d.dadglobal == 0 && !netZero source 16,
      if link || (d.dadglobal == 0 && !netZero source 16 && netPrefix dest.bytes source d.prefix6)
        then some source else none⟩

/-- The loop of `net_route` over the interfaces from `i` on. -/
def routeLoop (dest : NetAddress) (preferred : Nat) : List NetDevice → Nat → Option (Nat × Bytes) →
    Option (Nat × Bytes)
  | [], _, fallback => fallback
  | d :: rest, i, fallback =>
      if preferred ≠ netNone ∧ i ≠ preferred then routeLoop dest preferred rest (i + 1) fallback
      else
        let offer := routeOffer dest i d
        match offer.source with
        | some source => some (i, source)
        | none =>
            routeLoop dest preferred rest (i + 1)
              (if offer.fallback then some (i, if dest.family = 4 then d.address else d.address6)
                else fallback)

/-- `net_route`: the interface and the source address. -/
def netRoute (w : NetWorld) (dest : NetAddress) (bound : Nat) : Except Errno (Nat × Bytes) :=
  let preferred := if dest.interface ≠ netNone then dest.interface else bound
  if preferred ≠ netNone ∧ w.devices.length ≤ preferred then .error .enetunreach
  else
    match routeLoop dest preferred w.devices 0 none with
    | none => .error .enetunreach
    | some (id, source) =>
        .ok (id, fun i => if i < netAddrBytes dest.family then source i else 0)

/-! ### Sockets -/

/-- `K_SOCK_UDP` and `K_SOCK_TCP`; a slot that was never used has neither. -/
inductive SockType where
  | unset | udp | tcp
  deriving DecidableEq, Repr

/-- A datagram in a socket's queue. -/
structure NetDatagram where
  source : NetAddress
  bytes : List UInt8

/-- `net_socket`.  The fields of `Tcp.lean` are under `tcp`; `used`, `detached`, `family`, `state`,
`activity` and `error` among them belong to datagram sockets too.  `passive` is no field of the
source: it remembers that the socket comes from a passive open. -/
structure NetSocket where
  id : Nat
  owner : Nat
  type : SockType
  parent : Nat
  backlog : Nat
  localAddr : NetAddress
  peer : NetAddress
  datagrams : List NetDatagram
  passive : Bool
  tcp : TcpSocket

namespace NetSocket

/-- The slot holds a socket. -/
def used (s : NetSocket) : Bool := s.tcp.used

/-- The socket's address family. -/
def family (s : NetSocket) : Nat := s.tcp.family

/-- The state of the socket's connection. -/
def state (s : NetSocket) : TcpState := s.tcp.state

end NetSocket

/-- What the TCP code finds out about the interface of the socket `s` in slot `i`. -/
def NetWorld.env (w : NetWorld) (i : Nat) (s : NetSocket) : TcpEnv where
  now := w.now
  up := decide (s.localAddr.interface < w.devices.length)
  isLocal := (w.devices[s.localAddr.interface]?).any fun d => netLocal d s.family s.localAddr.bytes
  mtu := ((w.devices[s.localAddr.interface]?).map NetDevice.mtu).getD 0
  icmpAllow := w.icmpAllow
  send := w.send i

/-- `net_sockets` and `net_next_socket`. -/
structure NetState where
  sockets : Nat → NetSocket
  next : Nat

/-- `net_socket` with every byte zero. -/
def zeroSocket : NetSocket :=
  let address : NetAddress := ⟨0, 0, 0, 0, fun _ => 0⟩
  { id := 0, owner := 0, type := .unset, parent := 0, backlog := 0
    localAddr := address, peer := address, datagrams := [], passive := false
    tcp :=
      { used := false, detached := false, peerFin := false, closeRequested := false
        retransmitted := false, family := 0, state := .new
        sndUna := 0, sndNxt := 0, rcvNxt := 0, iss := 0
        mss := 0, peerWindow := 0, cwnd := 0, threshold := 0
        rxHead := 0, rxCount := 0, txCount := 0, finSeq := 0, dupacks := 0
        srtt := 0, rttvar := 0, rto := 0, retry := 0
        deadline := 0, sentAt := 0, activity := 0, persistAt := 0
        error := none, rx := fun _ => 0, tx := fun _ => 0 } }

/-- The table before the first call. -/
def netInit : NetState := ⟨fun _ => zeroSocket, 1⟩

/-- What `net_socket_new` puts into a zeroed slot. -/
def freshSocket (w : NetWorld) (family : Nat) (type : SockType) (owner id : Nat) : NetSocket :=
  let mss := if family = 6 then 1220 else 536
  let address : NetAddress := ⟨family, netNone, 0, 0, fun _ => 0⟩
  { zeroSocket with
    id := id, owner := owner, type := type, localAddr := address, peer := address
    tcp := { zeroSocket.tcp with
      used := true, family := family, mss := mss, rto := 1000, peerWindow := 65535
      cwnd := mss * 2, threshold := 65535, activity := w.now } }

namespace NetState

/-- One socket changed. -/
def modify (σ : NetState) (i : Nat) (f : NetSocket → NetSocket) : NetState :=
  { σ with sockets := Function.update σ.sockets i (f (σ.sockets i)) }

/-- `f` on the TCP part of slot `i`. -/
def onTcp (σ : NetState) (i : Nat) (f : TcpSocket → TcpSocket) : NetState :=
  σ.modify i fun s => { s with tcp := f s.tcp }

/-- A call of the TCP code on slot `i`. -/
def call (w : NetWorld) (i : Nat) (f : TcpEnv → TcpCtx → TcpCtx) (σ : NetState) : NetState :=
  σ.onTcp i fun t => (f (w.env i (σ.sockets i)) ⟨t, [], 0⟩).sock

/-- The first slot with `p`. -/
def find (σ : NetState) (p : NetSocket → Bool) : Option Nat :=
  (List.range kNetMaxSockets).find? fun i => p (σ.sockets i)

/-- `net_socket_owned`: the slot of a handle of the calling task. -/
def netSocketOwned (w : NetWorld) (h : Nat) (σ : NetState) : Option Nat :=
  σ.find fun s => s.used && s.id == h && !s.tcp.detached && s.owner == w.task

/-- `net_socket_new`, with the slot it takes. -/
def netSocketNew (w : NetWorld) (family : Nat) (type : SockType) (owner : Nat) (σ : NetState) :
    Option (Nat × NetState) :=
  if σ.next = 0 then none
  else
    match σ.find fun s => !s.used with
    | none => none
    | some i =>
        some (i, { σ.modify i fun _ => freshSocket w family type owner σ.next with
          next := add32 σ.next 1 })

/-- `net_port_busy` for the socket in slot `self`. -/
def netPortBusy (σ : NetState) (self : Nat) (a : NetAddress) : Bool :=
  (List.range kNetMaxSockets).any fun i =>
    let s := σ.sockets i
    let n := netAddrBytes a.family
    s.used && i != self && s.parent == 0 && s.family == (σ.sockets self).family &&
      s.type == (σ.sockets self).type && s.localAddr.port == a.port &&
      (s.localAddr.interface == netNone || a.interface == netNone ||
        s.localAddr.interface == a.interface) &&
      (netZero a.bytes n || netZero s.localAddr.bytes n || netEqual a.bytes s.localAddr.bytes n)

/-- The socket with another local port. -/
def setPort (σ : NetState) (i port : Nat) : NetState :=
  σ.modify i fun s => { s with localAddr := { s.localAddr with port := port } }

/-- The tries of `net_autobind` from `ephemeral` on. -/
def autobindLoop (σ : NetState) (i : Nat) : Nat → Nat → Option Nat
  | 0, _ => none
  | tries + 1, ephemeral =>
      let port := ephemeral % 2 ^ 16
      if σ.netPortBusy i { (σ.sockets i).localAddr with port := port } then
        autobindLoop σ i tries (if 65535 < ephemeral + 1 then 49152 else ephemeral + 1)
      else some port

/-- `net_autobind`: a free port for a socket that has none. -/
def netAutobind (w : NetWorld) (i : Nat) (σ : NetState) : Except Errno Unit × NetState :=
  if (σ.sockets i).localAddr.port ≠ 0 then (.ok (), σ)
  else
    match σ.autobindLoop i 16384 (49152 + w.random 0 % 16384) with
    | some port => (.ok (), σ.setPort i port)
    | none => (.error .eaddrinuse, σ.setPort i 0)

/-- `net_tcp_pump` on slot `i`. -/
def netTcpPump (w : NetWorld) (i : Nat) (σ : NetState) : NetState :=
  if (σ.sockets i).type = .tcp then σ.call w i Efishell.netTcpPump else σ

/-! ### Calls -/

/-- `k_net_socket`. -/
def kNetSocket (w : NetWorld) (family : Nat) (type : SockType) (σ : NetState) :
    Except Errno Nat × NetState :=
  if (family ≠ 4 ∧ family ≠ 6) ∨ type = .unset then (.error .einval, σ)
  else
    match σ.netSocketNew w family type w.task with
    | none => (.error .enospc, σ)
    | some (i, σ) => (.ok (σ.sockets i).id, σ)

/-- An interface has the address `a`. -/
def addressHere (w : NetWorld) (a : NetAddress) : Bool :=
  (List.range w.devices.length).any fun i =>
    (a.interface == netNone || a.interface == i) &&
      (w.devices[i]?).any fun d => netLocal d a.family a.bytes

/-- `k_net_bind`. -/
def kNetBind (w : NetWorld) (h : Nat) (a : NetAddress) (σ : NetState) :
    Except Errno Unit × NetState :=
  if !netAddressOk w a then (.error .einval, σ)
  else
    match σ.netSocketOwned w h with
    | none => (.error .eperm, σ)
    | some i =>
        let s := σ.sockets i
        if a.family ≠ s.family ∨ s.state ≠ .new then (.error .einval, σ)
        else if a.port ≠ 0 ∧ a.port < 1024 ∧ w.privileged = false then (.error .eperm, σ)
        else if !netZero a.bytes (netAddrBytes a.family) && !addressHere w a then
          (.error .enetunreach, σ)
        else if a.port ≠ 0 ∧ σ.netPortBusy i a = true then (.error .eaddrinuse, σ)
        else
          match (σ.modify i fun s => { s with localAddr := a }).netAutobind w i with
          | (.error e, σ) => (.error e, σ)
          | (.ok (), σ) => (.ok (), σ.onTcp i fun t => { t with state := .bound })

/-- What `k_net_connect` answers when nothing went wrong. -/
def connectAnswer (s : NetSocket) : Except Errno Unit :=
  if s.state = .established then .ok ()
  else if s.state = .error then .error (s.tcp.error.getD .einval)
  else .error .einprogress

/-- The socket in slot `i` takes its peer and, for TCP, sends its SYN. -/
def connectTo (w : NetWorld) (i : Nat) (id : Nat) (source : Bytes) (peer : NetAddress)
    (σ : NetState) : NetState :=
  let σ := σ.modify i fun s => { s with
    localAddr := { s.localAddr with interface := id, bytes := source }
    peer := { peer with interface := id } }
  if (σ.sockets i).type = .udp then σ.onTcp i fun t => { t with state := .established }
  else
    let iss := w.random 1 % 2 ^ 32
    let σ := σ.onTcp i fun t => { t with
      iss := iss, sndUna := iss, sndNxt := add32 iss 1, state := .synSent, sentAt := 0 }
    σ.netTcpPump w i

/-- One round of the loop of `k_net_connect`; the call goes round again, without the lock in
between, while the answer is `K_EINPROGRESS` and its timeout lasts. -/
def kNetConnect (w : NetWorld) (h : Nat) (peer : NetAddress) (σ : NetState) :
    Except Errno Unit × NetState :=
  if !netAddressOk w peer || peer.port == 0 || netZero peer.bytes (netAddrBytes peer.family) ||
      netMulticast peer.family peer.bytes then (.error .einval, σ)
  else
    match σ.netSocketOwned w h with
    | none => (.error .eperm, σ)
    | some i =>
        let s := σ.sockets i
        let n := netAddrBytes s.family
        if s.family ≠ peer.family then (.error .einval, σ)
        else if s.state = .new ∨ s.state = .bound then
          match netRoute w peer s.localAddr.interface with
          | .error e => (.error e, σ)
          | .ok (id, source) =>
              match σ.netAutobind w i with
              | (.error e, σ) => (.error e, σ)
              | (.ok (), σ) =>
                  let a := (σ.sockets i).localAddr
                  if !netZero a.bytes n && !netEqual a.bytes source n then (.error .enetunreach, σ)
                  else
                    let σ := σ.connectTo w i id source peer
                    (connectAnswer (σ.sockets i), σ)
        else if s.peer.port ≠ peer.port ∨
            netEqual s.peer.bytes peer.bytes (netAddrBytes peer.family) = false then
          (.error .einval, σ)
        else (connectAnswer s, σ)

/-- `k_net_listen`. -/
def kNetListen (w : NetWorld) (h backlog : Nat) (σ : NetState) : Except Errno Unit × NetState :=
  if backlog = 0 ∨ 16 < backlog then (.error .einval, σ)
  else
    match σ.netSocketOwned w h with
    | none => (.error .eperm, σ)
    | some i =>
        let s := σ.sockets i
        if s.type ≠ .tcp ∨ (s.state ≠ .new ∧ s.state ≠ .bound) then (.error .einval, σ)
        else
          match σ.netAutobind w i with
          | (.error e, σ) => (.error e, σ)
          | (.ok (), σ) =>
              (.ok (), σ.modify i fun s =>
                { s with backlog := backlog, tcp := { s.tcp with state := .listen } })

/-- `used = FALSE`. -/
def free (σ : NetState) (i : Nat) : NetState := σ.onTcp i fun t => { t with used := false }

/-- The loop of `k_net_accept` for the listener `id` over the slots left. -/
def acceptLoop (id : Nat) : List Nat → NetState → Except Errno (Nat × NetAddress) × NetState
  | [], σ => (.error .eagain, σ)
  | i :: rest, σ =>
      let child := σ.sockets i
      if child.used = false ∨ child.parent ≠ id then acceptLoop id rest σ
      else if child.state = .error then acceptLoop id rest (σ.free i)
      else if child.state ≠ .established ∧ child.state ≠ .closeWait then acceptLoop id rest σ
      else (.ok (child.id, child.peer), σ.modify i fun s => { s with parent := 0 })

/-- `k_net_accept`: a connection off the listener's backlog. -/
def kNetAccept (w : NetWorld) (h : Nat) (σ : NetState) :
    Except Errno (Nat × NetAddress) × NetState :=
  match σ.netSocketOwned w h with
  | none => (.error .eperm, σ)
  | some i =>
      let s := σ.sockets i
      if s.state ≠ .listen then (.error .einval, σ)
      else acceptLoop s.id (List.range kNetMaxSockets) σ

/-- `net_udp_output` of `n` bytes. -/
def netUdpOutput (w : NetWorld) (i : Nat) (n : Nat) (dest : NetAddress) (s : NetSocket) :
    Except Errno Unit :=
  match netRoute w dest s.localAddr.interface with
  | .error e => .error e
  | .ok (id, _) =>
      match w.devices[id]? with
      | none => .error .enetunreach
      | some d =>
          if sub32 d.mtu (if s.family = 4 then 28 else 48) < n ∨ 1472 < n then .error .emsgsize
          else if !netZero s.localAddr.bytes (netAddrBytes s.family) &&
              !netLocal d s.family s.localAddr.bytes then .error .enetunreach
          else if s.family = 4 ∧ d.ready4 = false ∧ w.privileged = false then .error .eperm
          else match w.send i 0 with
            | none => .ok ()
            | some e => .error e

/-- `k_net_send`: a datagram, or bytes of the stream. -/
def kNetSend (w : NetWorld) (h : Nat) (bytes : List UInt8) (dest : Option NetAddress)
    (σ : NetState) :
    Except Errno Nat × NetState :=
  if 4096 < bytes.length || dest.any fun a => !netAddressOk w a then (.error .einval, σ)
  else
    match σ.netSocketOwned w h with
    | none => (.error .eperm, σ)
    | some i =>
        let s := σ.sockets i
        if s.state = .error then (.error (s.tcp.error.getD .einval), σ)
        else if s.type = .udp then
          let destination := dest.getD s.peer
          if destination.family ≠ s.family ∨ destination.port = 0 then (.error .einval, σ)
          else
            match σ.netAutobind w i with
            | (.error e, σ) => (.error e, σ)
            | (.ok (), σ) =>
                let σ := if s.state = .new then σ.onTcp i fun t => { t with state := .bound } else σ
                ((netUdpOutput w i bytes.length destination (σ.sockets i)).map
                  fun _ => bytes.length, σ)
        else if dest.isSome then (.error .einval, σ)
        else
          let r := Efishell.kNetSend (w.env i s) bytes ⟨s.tcp, [], 0⟩
          (r.1, σ.onTcp i fun _ => r.2.sock)

/-- `k_net_receive`: the oldest datagram, or bytes of the stream. -/
def kNetReceive (w : NetWorld) (h n : Nat) (σ : NetState) : Except Errno (List UInt8) × NetState :=
  if 65536 < n then (.error .einval, σ)
  else
    match σ.netSocketOwned w h with
    | none => (.error .eperm, σ)
    | some i =>
        let s := σ.sockets i
        if s.type = .udp then
          match s.datagrams with
          | [] =>
              (.error (s.tcp.error.getD .eagain), σ.onTcp i fun t => { t with error := none })
          | q :: rest =>
              if n < q.bytes.length then (.error .emsgsize, σ)
              else (.ok q.bytes, σ.modify i fun s => { s with datagrams := rest })
        else
          let r := Efishell.kNetReceive (w.env i s) n ⟨s.tcp, [], 0⟩
          (r.1, σ.onTcp i fun _ => r.2.sock)

/-- A child that waits for `k_net_accept` goes with its listener. -/
def freeChild (id : Nat) (σ : NetState) (i : Nat) : NetState :=
  if (σ.sockets i).used = true ∧ (σ.sockets i).parent = id then σ.free i else σ

/-- `net_close_internal`: the slot is freed, or the connection is closed first. -/
def netCloseInternal (w : NetWorld) (i : Nat) (σ : NetState) : NetState :=
  let s := σ.sockets i
  if s.type = .udp ∨ s.state = .new ∨ s.state = .bound ∨ s.state = .error then σ.free i
  else if s.state = .listen then
    ((List.range kNetMaxSockets).foldl (freeChild s.id) σ).free i
  else σ.call w i Efishell.netCloseInternal

/-- `k_net_close`. -/
def kNetClose (w : NetWorld) (h : Nat) (σ : NetState) : Except Errno Unit × NetState :=
  match σ.netSocketOwned w h with
  | none => (.error .eperm, σ)
  | some i => (.ok (), σ.netCloseInternal w i)

/-- What `k_net_configure` does to the sockets of an interface whose addresses change. -/
def netDown (w : NetWorld) (interface : Nat) (σ : NetState) : NetState :=
  (List.range kNetMaxSockets).foldl (fun σ i =>
    let s := σ.sockets i
    if s.used = true ∧ s.type = .tcp ∧ s.localAddr.interface = interface then
      σ.call w i fun env => netTcpError env .enetdown
    else σ) σ

/-- The loop of `net_poll_protocols` over the sockets. -/
def netPollSockets (w : NetWorld) (gc : Bool) (σ : NetState) : NetState :=
  (List.range kNetMaxSockets).foldl (fun σ i =>
    let s := σ.sockets i
    if s.used = false then σ
    else if gc && !s.tcp.detached && w.gone s.owner then σ.netCloseInternal w i
    else if s.parent ≠ 0 ∧ s.state = .error then σ.free i
    else σ.netTcpPump w i) σ

end NetState

/-! ### Packets -/

/-- `net_sum`: the 16-bit words added up, a last odd byte as a high one. -/
def netSum (sum : Nat) (p : Bytes) : Nat → Nat → Nat
  | _, 0 => sum
  | off, 1 => add32 sum (256 * (p off).toNat)
  | off, n + 2 => netSum (add32 sum (netBe16 p off)) p (off + 2) n

/-- `net_finish`; two rounds of its loop are enough for a sum of 32 bits. -/
def netFinish (sum : Nat) : Nat :=
  let fold := fun sum => sum % 2 ^ 16 + sum / 2 ^ 16
  2 ^ 16 - 1 - fold (fold sum)

/-- `k_net_checksum`: the Internet checksum. -/
def kNetChecksum (p : Bytes) (n : Nat) : Nat := netFinish (netSum 0 p 0 n)

/-- `net_transport_sum`: the pseudo header and the bytes. -/
def netTransportSum (family : Nat) (src dst : Bytes) (proto : Nat) (p : Bytes) (n : Nat) : Nat :=
  let sum := netSum 0 src 0 (netAddrBytes family)
  let sum := netSum sum dst 0 (netAddrBytes family)
  netFinish (netSum (add32 sum (proto + n % 2 ^ 16 + n / 2 ^ 16)) p 0 n)

/-- The segment in the `n` bytes of `p`, with a header of `h` bytes. -/
def tcpSegment (p : Bytes) (n h : Nat) : Segment where
  seq := netBe32 p 4
  ack := netBe32 p 8
  flags :=
    let bit := fun k => (p 13).toNat.testBit k
    { fin := bit 0, syn := bit 1, rst := bit 2, psh := bit 3, ack := bit 4, urg := bit 5 }
  window := netBe16 p 14
  options := (List.range (h - 20)).map fun i => p (20 + i)
  bytes := (List.range (n - h)).map fun i => p (h + i)

/-- The endpoint of `x` takes packets to port `port` of the address `dst` on interface `dev`. -/
def netTakes (x : NetSocket) (dev family : Nat) (dst : Bytes) (port : Nat) : Bool :=
  x.used && x.family == family && x.localAddr.port == port &&
    (x.localAddr.interface == netNone || x.localAddr.interface == dev) &&
    (netZero x.localAddr.bytes (netAddrBytes family) ||
      netEqual x.localAddr.bytes dst (netAddrBytes family))

/-- The peer of `x` is port `port` of the address `src`. -/
def netFrom (x : NetSocket) (family : Nat) (src : Bytes) (port : Nat) : Bool :=
  x.peer.port == port && netEqual x.peer.bytes src (netAddrBytes family)

namespace NetState

/-- The loop of `net_tcp_input` over the slots left: the socket, and the listener seen last. -/
def tcpLookup (σ : NetState) (dev family : Nat) (src dst : Bytes) (sport dport : Nat) :
    List Nat → Option Nat → Option Nat × Option Nat
  | [], listener => (none, listener)
  | i :: rest, listener =>
      let x := σ.sockets i
      if x.type ≠ .tcp ∨ netTakes x dev family dst dport = false then
        tcpLookup σ dev family src dst sport dport rest listener
      else if x.state = .listen ∧ x.tcp.detached = false then
        tcpLookup σ dev family src dst sport dport rest (some i)
      else if netFrom x family src sport then (some i, listener)
      else tcpLookup σ dev family src dst sport dport rest listener

/-- The children that wait at the listener `id`. -/
def waiting (σ : NetState) (id : Nat) : Nat :=
  (List.range kNetMaxSockets).countP fun i => (σ.sockets i).used && (σ.sockets i).parent == id

/-- The passive open of `net_tcp_input` at the listener in slot `l`. -/
def passiveOpen (w : NetWorld) (dev family : Nat) (src dst : Bytes) (sport dport : Nat)
    (m : Segment) (l : Nat) (σ : NetState) : NetState :=
  let listener := σ.sockets l
  let size := netAddrBytes family
  if listener.backlog ≤ σ.waiting listener.id then σ
  else
    match netTcpOptions m.options.length m.options (if family = 6 then 1220 else 1440) with
    | .error _ => σ
    | .ok mss =>
        match σ.netSocketNew w family .tcp listener.owner with
        | none => σ
        | some (i, σ) =>
            let iss := w.random 0 % 2 ^ 32
            let σ := σ.modify i fun s => { s with
              parent := listener.id
              passive := true
              localAddr := { s.localAddr with
                interface := dev, port := dport, bytes := memCopy s.localAddr.bytes 0 dst 0 size }
              peer := { s.peer with
                interface := dev, port := sport, bytes := memCopy s.peer.bytes 0 src 0 size }
              tcp := { s.tcp with
                state := .synRcvd, iss := iss, sndUna := iss, sndNxt := add32 iss 1
                rcvNxt := add32 m.seq 1, mss := mss, cwnd := mss * 2, peerWindow := m.window } }
            σ.netTcpPump w i

/-- `net_tcp_input` for the `n` bytes of `p`, from `src` to `dst` on interface `dev`.  A segment
without a socket is answered with a reset (`netTcpRefuse`), which leaves the table as it is. -/
def netTcpInput (w : NetWorld) (dev family : Nat) (src dst p : Bytes) (n : Nat) (σ : NetState) :
    NetState :=
  match w.devices[dev]? with
  | none => σ
  | some d =>
      let h := (p 12).toNat / 16 * 4
      let sport := netBe16 p 0
      let dport := netBe16 p 2
      let m := tcpSegment p n h
      if n < 20 || !netLocal d family dst || netMulticast family src ||
          netZero src (netAddrBytes family) || sport == 0 || dport == 0 ||
          netTransportSum family src dst 6 p n != 0 then σ
      else if h < 20 ∨ n < h ∨ (p 12).toNat % 16 ≠ 0 then σ
      else if m.flags.urg then σ
      else
        match σ.tcpLookup dev family src dst sport dport (List.range kNetMaxSockets) none with
        | (some i, _) => σ.call w i fun env => Efishell.netTcpInput env m
        | (none, some l) =>
            if m.flags.syn && !m.flags.ack && !m.flags.rst && !m.flags.fin then
              σ.passiveOpen w dev family src dst sport dport m l
            else σ
        | (none, none) => σ

/-- `net_udp_input`. -/
def netUdpInput (w : NetWorld) (dev family : Nat) (src dst p : Bytes) (n : Nat) (σ : NetState) :
    NetState :=
  if dev < w.devices.length then
    if n < 8 ∨ netBe16 p 2 = 0 ∨ netBe16 p 4 < 8 ∨ n < netBe16 p 4 then σ
    else
      let n := netBe16 p 4
      if (family = 6 ∧ netBe16 p 6 = 0) ∨
          (netBe16 p 6 ≠ 0 ∧ netTransportSum family src dst 17 p n ≠ 0) then σ
      else if 1472 < n - 8 then σ
      else
        match σ.find fun s => s.type == .udp && !s.tcp.detached &&
            netTakes s dev family dst (netBe16 p 2) &&
            (s.peer.port == 0 || netFrom s family src (netBe16 p 0)) with
        | none => σ
        | some i =>
            if (σ.sockets i).datagrams.length = netDgrams then σ
            else
              let source : NetAddress :=
                { family := family, interface := dev, port := netBe16 p 0, reserved := 0
                  bytes := memCopy (fun _ => 0) 0 src 0 (netAddrBytes family) }
              let bytes := (List.range (n - 8)).map fun i => p (8 + i)
              σ.modify i fun s => { s with datagrams := s.datagrams ++ [⟨source, bytes⟩] }
  else σ

/-- The packet that an ICMP error quotes. -/
structure Quote where
  /-- Its transport header, as an offset into the quote. -/
  header : Nat
  source : Bytes
  peer : Bytes
  proto : Nat
  original : Nat

/-- The checks of `net_icmp_failure` on the quoted packet `q` of `n` bytes. -/
def icmpQuote (family : Nat) (q : Bytes) (n : Nat) : Option Quote :=
  if family = 4 then
    let h := (q 0).toNat % 16 * 4
    if n < 28 ∨ (q 0).toNat / 16 ≠ 4 then none
    else if h < 20 ∨ n - 8 < h ∨ kNetChecksum q h ≠ 0 ∨ netBe16 q 6 % 8192 ≠ 0 then none
    else if netBe16 q 2 < h + 8 then none
    else some ⟨h, bytesAt q 12, bytesAt q 16, (q 9).toNat, netBe16 q 2⟩
  else if n < 48 ∨ (q 0).toNat / 16 ≠ 6 then none
  else if 40 + netBe16 q 4 < 48 then none
  else some ⟨40, bytesAt q 8, bytesAt q 24, (q 6).toNat, 40 + netBe16 q 4⟩

/-- The kinds of ICMP error that `net_icmp_failure` looks at. -/
structure IcmpKind where
  tooBig : Bool
  unreachable : Bool
  expired : Bool

/-- What an ICMP error says of the packet it quotes. -/
def icmpKind (family type code : Nat) : IcmpKind :=
  if family = 4 then
    ⟨type == 3 && code == 4, type == 3 && decide (code ≤ 15), type == 11 && decide (code ≤ 1)⟩
  else
    ⟨type == 2 && code == 0, type == 1 && decide (code ≤ 7), type == 3 && decide (code ≤ 1)⟩

/-- The MTU that a packet-too-big message names. -/
def icmpMtu (family : Nat) (p : Bytes) : Nat :=
  if family = 4 then if netBe16 p 6 = 0 then 576 else netBe16 p 6 else netBe32 p 4

/-- The smallest MTU that a packet-too-big message may name. -/
def icmpLeast (family : Nat) : Nat := if family = 4 then 68 else 1280

/-- The segment size for the MTU that a packet-too-big message names. -/
def icmpMss (family : Nat) (p : Bytes) : Nat := icmpMtu family p - (if family = 4 then 40 else 60)

/-- The sockets that `net_icmp_failure` looks at. -/
def icmpConcerns (s : NetSocket) (dev family : Nat) (q : Bytes) (quote : Quote) : Bool :=
  netTakes s dev family quote.source (netBe16 q quote.header) &&
    netFrom s family quote.peer (netBe16 q (quote.header + 2))

/-- The loop of `net_icmp_failure` over the slots left.  `p` is the message, `q` the packet in
it. -/
def icmpLoop (w : NetWorld) (dev family : Nat) (p q : Bytes) (quote : Quote) (kind : IcmpKind) :
    List Nat → NetState → NetState
  | [], σ => σ
  | i :: rest, σ =>
      let s := σ.sockets i
      let inflight := sub32 s.tcp.sndNxt s.tcp.sndUna
      if icmpConcerns s dev family q quote = false then
        icmpLoop w dev family p q quote kind rest σ
      else if quote.proto = 6 ∧ s.type = .tcp then
        if s.tcp.sndNxt = s.tcp.sndUna ∨
            inflight ≤ sub32 (netBe32 q (quote.header + 4)) s.tcp.sndUna then
          icmpLoop w dev family p q quote kind rest σ
        else if kind.tooBig then
          if icmpMtu family p < icmpLeast family ∨ quote.original ≤ icmpMtu family p then
            icmpLoop w dev family p q quote kind rest σ
          else if icmpMss family p < s.tcp.mss then
            σ.onTcp i fun t => { t with
              mss := icmpMss family p, sentAt := 0, retransmitted := true }
          else σ
        else if s.state = .synSent then
          σ.call w i fun env =>
            netTcpError env (if kind.expired then .etimedout else .enetunreach)
        else σ
      else if quote.proto = 17 ∧ s.type = .udp then
        σ.onTcp i fun t => { t with
          error := some (if kind.tooBig then .emsgsize
            else if kind.expired then .etimedout
            else if (p 1).toNat = (if family = 4 then 3 else 4) then .econnrefused
            else .enetunreach) }
      else σ

/-- `net_icmp_failure` for the message in the `n` bytes of `p`; `net_icmp_input` has seen to it that
there are eight at least. -/
def netIcmpFailure (w : NetWorld) (dev family : Nat) (dst p : Bytes) (n : Nat) (σ : NetState) :
    NetState :=
  match w.devices[dev]? with
  | none => σ
  | some d =>
      let kind := icmpKind family (p 0).toNat (p 1).toNat
      if (!kind.tooBig && !kind.unreachable && !kind.expired) || !netLocal d family dst then σ
      else
        let q := bytesAt p 8
        match icmpQuote family q (n - 8) with
        | none => σ
        | some quote =>
            if !netEqual quote.source dst (netAddrBytes family) ||
                (quote.proto != 6 && quote.proto != 17) then σ
            else icmpLoop w dev family p q quote kind (List.range kNetMaxSockets) σ

end NetState

end Efishell
