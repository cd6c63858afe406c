import Efishell.Kernel.Bytes

/-!
# Networking — TCP sockets

The TCP part of `networking.c`: `net_tcp_packet`, `net_tcp_pump`, `net_tcp_input` on the socket a
segment belongs to, and the calls `k_net_send`, `k_net_receive` and `k_net_close`.

Each of them runs on one socket under `net_lock`.  A call takes the socket with the segments it has
emitted so far (`TcpCtx`) and what it finds out about the world (`TcpEnv`): the time, the state of
the interface, and the answer of `net_ip_send` to each packet, which may have left the machine
even when the answer is an error.  Sequence numbers are natural numbers below `2 ^ 32`.
-/

namespace Efishell

/-- `NET_STREAM`. -/
def netStream : Nat := 16384

/-- `a - b` on 32 bits. -/
def sub32 (a b : Nat) : Nat := (2 ^ 32 + a - b) % 2 ^ 32

/-- Addition in `UINT32`. -/
def add32 (a b : Nat) : Nat := (a + b) % 2 ^ 32

/-- `(INT32)(a - b) < 0`. -/
def netSeqBefore (a b : Nat) : Bool := decide (2 ^ 31 ≤ sub32 a b)

/-- The states of a connection. -/
inductive TcpState where
  | new | bound | listen | synSent | synRcvd | established | finWait1 | finWait2 | closeWait
  | closing | lastAck | timeWait | error
  deriving DecidableEq, Repr

/-- The flags of a segment. -/
structure TcpFlags where
  fin : Bool
  syn : Bool
  rst : Bool
  psh : Bool
  ack : Bool
  urg : Bool
  deriving DecidableEq, Repr

/-- A segment.  `options` are the bytes between the fixed header and the data. -/
structure Segment where
  seq : Nat
  ack : Nat
  flags : TcpFlags
  window : Nat
  options : List UInt8
  bytes : List UInt8

/-- The fields of `net_socket` that the TCP code uses. -/
structure TcpSocket where
  used : Bool
  detached : Bool
  peerFin : Bool
  closeRequested : Bool
  retransmitted : Bool
  family : Nat
  state : TcpState
  sndUna : Nat
  sndNxt : Nat
  rcvNxt : Nat
  iss : Nat
  mss : Nat
  peerWindow : Nat
  cwnd : Nat
  threshold : Nat
  rxHead : Nat
  rxCount : Nat
  txCount : Nat
  finSeq : Nat
  dupacks : Nat
  srtt : Nat
  rttvar : Nat
  rto : Nat
  retry : Nat
  deadline : Nat
  sentAt : Nat
  activity : Nat
  persistAt : Nat
  error : Option Errno
  rx : Bytes
  tx : Bytes

/-- What one step reads of the world outside the socket. -/
structure TcpEnv where
  /-- `k_uptime_ms`. -/
  now : Nat
  /-- The socket's interface exists. -/
  up : Bool
  /-- The socket's address is one of the interface's. -/
  isLocal : Bool
  mtu : Nat
  icmpAllow : Bool
  /-- The answer of the `n`-th call of `net_ip_send`. -/
  send : Nat → Option Errno

/-- A socket, with the segments it has put out. -/
structure TcpCtx where
  sock : TcpSocket
  out : List Segment
  sends : Nat

/-! ### Sending -/

/-- The segment `net_tcp_packet` builds. -/
def TcpSocket.segment (s : TcpSocket) (sequence : Nat) (flags : TcpFlags) (bytes : List UInt8) :
    Segment where
  seq := sequence
  ack := if flags.ack then s.rcvNxt else 0
  flags := flags
  window := (netStream - s.rxCount) % 2 ^ 16
  options := if flags.syn then
      let mss := if s.family = 6 then 1220 else 1440
      [2, 4, UInt8.ofNat (mss / 256), UInt8.ofNat mss]
    else []
  bytes := bytes

/-- `limit` of `net_tcp_packet`. -/
def packetLimit (env : TcpEnv) (family : Nat) (flags : TcpFlags) : Nat :=
  sub32 (sub32 env.mtu (if family = 4 then 20 else 40)) (if flags.syn then 24 else 20)

/-- `net_tcp_packet`: one segment, if there is a route. -/
def netTcpPacket (env : TcpEnv) (sequence : Nat) (flags : TcpFlags) (bytes : List UInt8)
    (c : TcpCtx) : Except Errno Unit × TcpCtx :=
  if !env.up then (.error .enetunreach, c)
  else if packetLimit env c.sock.family flags < bytes.length then (.error .emsgsize, c)
  else
    let c' := { c with out := c.out ++ [c.sock.segment sequence flags bytes], sends := c.sends + 1 }
    match env.send c.sends with
    | none => (.ok (), c')
    | some e => (.error e, c')

namespace TcpFlags

/-- `TCP_ACK`. -/
def onlyAck : TcpFlags := ⟨false, false, false, false, true, false⟩

/-- `TCP_ACK | TCP_PSH`. -/
def pshAck : TcpFlags := ⟨false, false, false, true, true, false⟩

/-- `TCP_FIN | TCP_ACK`. -/
def finAck : TcpFlags := ⟨true, false, false, false, true, false⟩

/-- `TCP_SYN`, with `TCP_ACK` or without. -/
def synWith (ack : Bool) : TcpFlags := ⟨false, true, false, false, ack, false⟩

/-- `TCP_RST`, with `TCP_ACK` or without. -/
def rstWith (ack : Bool) : TcpFlags := ⟨false, false, true, false, ack, false⟩

end TcpFlags

/-- `f` on the socket. -/
def TcpCtx.update (c : TcpCtx) (f : TcpSocket → TcpSocket) : TcpCtx := { c with sock := f c.sock }

/-- `net_tcp_error`: the connection ends with an error. -/
def netTcpError (env : TcpEnv) (e : Errno) (c : TcpCtx) : TcpCtx :=
  c.update fun s => { s with
    state := .error
    error := some e
    deadline := env.now + 30000
    used := s.used && !s.detached }

/-- `net_tcp_ack`: an empty segment that acknowledges. -/
def netTcpAck (env : TcpEnv) (c : TcpCtx) : TcpCtx :=
  (netTcpPacket env c.sock.sndNxt .onlyAck [] c).2

/-- The first `n` bytes of `tx` from `off` on. -/
def TcpSocket.txSlice (s : TcpSocket) (off n : Nat) : List UInt8 :=
  (List.range n).map fun i => s.tx (off + i)

/-- `net_tcp_rtt`: the smoothed round trip, from a segment sent once. -/
def netTcpRtt (now : Nat) (s : TcpSocket) : TcpSocket :=
  let s :=
    if !s.retransmitted && s.sentAt != 0 then
      let sample := min ((2 ^ 64 + now - s.sentAt) % 2 ^ 64) 60000
      let sample := if sample = 0 then 1 else sample
      let s :=
        if s.srtt = 0 then { s with srtt := sample, rttvar := sample / 2 }
        else
          let diff := if sample < s.srtt then s.srtt - sample else sample - s.srtt
          { s with rttvar := (3 * s.rttvar + diff) / 4, srtt := (7 * s.srtt + sample) / 8 }
      let rto := min 60000 (s.srtt + 4 * s.rttvar)
      { s with rto := if rto < 1000 then 1000 else rto }
    else s
  { s with retry := 0, retransmitted := false, sentAt := if now = 0 then 1 else now }

/-! ### `net_tcp_pump` -/

namespace TcpState

/-- `NS_SYN_SENT <= state <= NS_LAST_ACK`. -/
def connected : TcpState → Bool
  | .synSent | .synRcvd | .established | .finWait1 | .finWait2 | .closeWait | .closing
  | .lastAck => true
  | _ => false

/-- `syn` of `net_tcp_pump`. -/
def isSyn (s : TcpState) : Bool := s == .synSent || s == .synRcvd

/-- `fin` of `net_tcp_pump`. -/
def isFin (s : TcpState) : Bool := s == .finWait1 || s == .closing || s == .lastAck

end TcpState

/-- `limit` of `net_tcp_pump`. -/
def mssLimit (env : TcpEnv) (family : Nat) : Nat := sub32 env.mtu (if family = 4 then 40 else 60)

/-- The maximum segment size of `net_tcp_pump`, within what the route carries. -/
def pumpClampMss (env : TcpEnv) (s : TcpSocket) : TcpSocket :=
  if env.up && decide (mssLimit env s.family < s.mss) then { s with mss := mssLimit env s.family }
  else s

/-- The bookkeeping of a retransmission that went out. -/
def pumpResent (now : Nat) (s : TcpSocket) : TcpSocket :=
  let s :=
    if s.sentAt ≠ 0 then
      let threshold := min (s.cwnd / 2) netStream
      { s with
        retry := s.retry + 1
        retransmitted := true
        threshold := if threshold < 2 * s.mss then 2 * s.mss else threshold
        cwnd := s.mss
        rto := min 60000 (s.rto * 2) }
    else s
  { s with sentAt := if now = 0 then 1 else now }

/-- What the retransmission timer sends again: the SYN, the FIN or the oldest data. -/
def pumpAgain (s : TcpSocket) : Nat × TcpFlags × List UInt8 :=
  if s.state.isSyn then (s.iss, .synWith (s.state == .synRcvd), [])
  else if s.state.isFin then (s.finSeq, .finAck, [])
  else (s.sndUna, .onlyAck, s.txSlice 0 (min s.mss (sub32 s.sndNxt s.sndUna)))

/-- The retransmission part of `net_tcp_pump`; the flag says whether it returns. -/
def pumpRetransmit (env : TcpEnv) (c : TcpCtx) : TcpCtx × Bool :=
  let s := c.sock
  let alone := s.state.isSyn || s.state.isFin
  if alone || (s.sndNxt != s.sndUna && s.txCount != 0) then
    if s.sentAt = 0 ∨ s.rto ≤ (2 ^ 64 + env.now - s.sentAt) % 2 ^ 64 then
      if 8 ≤ s.retry then (netTcpError env .etimedout c, true)
      else
        match netTcpPacket env (pumpAgain s).1 (pumpAgain s).2.1 (pumpAgain s).2.2 c with
        | (.ok (), c) => (c.update (pumpResent env.now), alone)
        | (.error e, c) =>
            if e ≠ .eagain then (netTcpError env e c, true) else (c, alone)
    else (c, alone)
  else (c, false)

/-- The loop that sends new data.  The result has the bytes in flight, or nothing when
`net_tcp_pump` returns from the loop.  An iteration sends at least one byte when `mss` is not zero,
so `NET_STREAM` iterations are enough (`pumpSend_enough`). -/
def pumpSend (env : TcpEnv) (window : Nat) : Nat → Nat → TcpCtx → TcpCtx × Option Nat
  | 0, inflight, c => (c, some inflight)
  | fuel + 1, inflight, c =>
      if inflight < c.sock.txCount ∧ inflight < window then
        let n := min c.sock.mss (min (c.sock.txCount - inflight) (window - inflight))
        match netTcpPacket env c.sock.sndNxt .pshAck (c.sock.txSlice inflight n) c with
        | (.error e, c) => (if e ≠ .eagain then netTcpError env e c else c, none)
        | (.ok (), c) =>
            let c := c.update fun s =>
              let s := if inflight = 0 then
                  { s with sentAt := if env.now = 0 then 1 else env.now, retransmitted := false }
                else s
              { s with sndNxt := add32 s.sndNxt n }
            pumpSend env window fuel (inflight + n) c
      else (c, some inflight)

/-- A probe of a closed window. -/
def pumpPersist (env : TcpEnv) (inflight : Nat) (c : TcpCtx) : TcpCtx :=
  let s := c.sock
  if s.peerWindow = 0 ∧ s.txCount ≠ 0 ∧ inflight = 0 ∧ s.persistAt ≤ env.now then
    (netTcpPacket env (sub32 s.sndUna 1) .onlyAck [] c).2.update fun s =>
      { s with persistAt := env.now + 1000 }
  else c

/-- The FIN takes its sequence number. -/
def pumpFin (s : TcpSocket) : TcpSocket := { s with
  finSeq := s.sndNxt
  sndNxt := add32 s.sndNxt 1
  state := if s.peerFin then .lastAck else .finWait1
  sentAt := 0
  retry := 0 }

/-- `net_tcp_pump`.  It calls itself once at most, in a state in which it does not come to the end
(`netTcpPumpFuel_succ`). -/
def netTcpPumpFuel (env : TcpEnv) : Nat → TcpCtx → TcpCtx
  | 0, c => c
  | fuel + 1, c =>
      let s := c.sock
      if !s.used then c
      else if s.state = .timeWait then
        if s.deadline ≤ env.now then c.update fun s => { s with used := false } else c
      else if s.state = .error then
        if s.detached then c.update fun s => { s with used := false } else c
      else if s.state = .finWait2 ∧ s.deadline ≤ env.now then netTcpError env .etimedout c
      else if s.state.connected && (!env.up || !env.isLocal) then netTcpError env .enetdown c
      else
        match pumpRetransmit env (c.update (pumpClampMss env)) with
        | (c, true) => c
        | (c, false) =>
            if c.sock.state ≠ .established ∧ c.sock.state ≠ .closeWait then c
            else
              match pumpSend env (min c.sock.peerWindow c.sock.cwnd) netStream
                  (sub32 c.sock.sndNxt c.sock.sndUna) c with
              | (c, none) => c
              | (c, some inflight) =>
                  let c := pumpPersist env inflight c
                  if c.sock.closeRequested && c.sock.txCount == 0 then
                    netTcpPumpFuel env fuel (c.update pumpFin)
                  else c

/-- `net_tcp_pump`; it calls itself at most once. -/
def netTcpPump (env : TcpEnv) (c : TcpCtx) : TcpCtx := netTcpPumpFuel env 2 c

/-- A segment sent leaves the socket. -/
theorem sock_netTcpPacket (env : TcpEnv) (sequence : Nat) (flags : TcpFlags) (bytes : List UInt8)
    (c : TcpCtx) : (netTcpPacket env sequence flags bytes c).2.sock = c.sock := by
  simp only [netTcpPacket]
  split
  · rfl
  · split
    · rfl
    · split <;> rfl

/-- The loop ends before its bound: more iterations change nothing. -/
theorem pumpSend_enough (env : TcpEnv) (window k : Nat) : ∀ {fuel inflight : Nat} {c : TcpCtx},
    0 < c.sock.mss → c.sock.txCount ≤ inflight + fuel →
    pumpSend env window (fuel + k) inflight c = pumpSend env window fuel inflight c := by
  intro fuel
  induction fuel with
  | zero =>
      intro inflight c _ hc
      cases k with
      | zero => rfl
      | succ k =>
          have hdone : ¬(inflight < c.sock.txCount ∧ inflight < window) := by omega
          simp only [pumpSend, if_neg hdone]
  | succ fuel ih =>
      intro inflight c hm hc
      rw [show fuel + 1 + k = (fuel + k) + 1 by omega, pumpSend, pumpSend]
      split
      · rename_i hlt
        dsimp only
        generalize hn : min c.sock.mss (min (c.sock.txCount - inflight) (window - inflight)) = n
        have hsock := sock_netTcpPacket env c.sock.sndNxt .pshAck (c.sock.txSlice inflight n) c
        split
        · rfl
        · rename_i c' hc'
          rw [hc'] at hsock
          have hsock' : c'.sock = c.sock := hsock
          refine ih ?_ ?_
          · simp only [TcpCtx.update]
            split <;> rw [hsock'] <;> exact hm
          · have hleft : c.sock.txCount ≤ inflight + n + fuel := by omega
            simp only [TcpCtx.update]
            split <;> rw [hsock'] <;> exact hleft
      · rfl

/-- With the FIN sent, `net_tcp_pump` does not come to its end. -/
theorem netTcpPumpFuel_fin (env : TcpEnv) (n : Nat) {c : TcpCtx} (h : c.sock.state.isFin = true) :
    netTcpPumpFuel env (n + 1) c = netTcpPumpFuel env 1 c := by
  have hclamp : (c.update (pumpClampMss env)).sock.state = c.sock.state := by
    rw [TcpCtx.update, pumpClampMss]
    split <;> rfl
  have hret : (pumpRetransmit env (c.update (pumpClampMss env))).2 = true := by
    simp only [pumpRetransmit, hclamp, h, Bool.or_true, Bool.true_or, if_true]
    split
    · split
      · rfl
      · split
        · rfl
        · split <;> rfl
    · rfl
  rw [netTcpPumpFuel, netTcpPumpFuel]
  generalize pumpRetransmit env (c.update (pumpClampMss env)) = r at hret ⊢
  obtain ⟨c', _⟩ := r
  cases hret
  rfl

/-- The depth of `netTcpPump` is enough. -/
theorem netTcpPumpFuel_succ (env : TcpEnv) (n : Nat) (c : TcpCtx) :
    netTcpPumpFuel env (n + 2) c = netTcpPump env c := by
  have hfin : ∀ c : TcpCtx, netTcpPumpFuel env (n + 1) (c.update pumpFin) =
      netTcpPumpFuel env 1 (c.update pumpFin) := by
    intro c
    refine netTcpPumpFuel_fin env n ?_
    rw [TcpCtx.update, pumpFin]
    dsimp only
    split <;> rfl
  rw [netTcpPump, netTcpPumpFuel, netTcpPumpFuel]
  simp only [hfin]

/-! ### `net_tcp_input` -/

/-- The loop of `net_tcp_options` over the bytes left; each option moves on. -/
def netTcpOptions : Nat → List UInt8 → Nat → Except Errno Nat
  | 0, _, mss => .ok mss
  | _ + 1, [], mss => .ok mss
  | fuel + 1, kind :: rest, mss =>
      if kind = 0 then .ok mss
      else if kind = 1 then netTcpOptions fuel rest mss
      else
        match rest with
        | [] => .error .einval
        | size :: body =>
            if size.toNat < 2 ∨ rest.length + 1 < size.toNat then .error .einval
            else if kind = 2 then
              let value := 256 * (body.getD 0 0).toNat + (body.getD 1 0).toNat
              if size ≠ 4 ∨ value < 64 then .error .einval
              else netTcpOptions fuel (body.drop (size.toNat - 2)) (min mss value)
            else netTcpOptions fuel (body.drop (size.toNat - 2)) mss

/-- `acceptable` of `net_tcp_input`. -/
def TcpSocket.acceptable (s : TcpSocket) (m : Segment) : Bool :=
  let window := netStream - s.rxCount
  let seglen := m.bytes.length + (if m.flags.fin then 1 else 0) + (if m.flags.syn then 1 else 0)
  let inside := fun seq => !netSeqBefore seq s.rcvNxt && netSeqBefore seq (add32 s.rcvNxt window)
  if window ≠ 0 then
    if seglen ≠ 0 then inside m.seq || inside (sub32 (add32 m.seq seglen) 1) else inside m.seq
  else seglen == 0 && m.seq == s.rcvNxt

/-- A segment in `NS_SYN_SENT`. -/
def inputSynSent (env : TcpEnv) (m : Segment) (c : TcpCtx) : TcpCtx :=
  let s := c.sock
  if m.flags.rst then
    if m.flags.ack && m.ack == s.sndNxt then netTcpError env .econnrefused c else c
  else if !(m.flags.syn && m.flags.ack) || m.ack != s.sndNxt then c
  else
    match netTcpOptions m.options.length m.options (if s.family = 6 then 1220 else 1440) with
    | .error _ => c
    | .ok mss =>
        let c := c.update fun s =>
          { netTcpRtt env.now { s with
              mss := mss
              cwnd := mss * 2
              peerWindow := m.window
              sndUna := m.ack
              rcvNxt := add32 m.seq 1
              state := .established } with sentAt := 0 }
        netTcpAck env c

/-- An acknowledgement of the FIN. -/
def ackFin (now : Nat) (ack : Nat) (s : TcpSocket) : TcpSocket :=
  let s := { s with sndUna := ack, sentAt := 0 }
  if s.state = .lastAck then { s with used := false }
  else if s.state = .closing then { s with state := .timeWait, deadline := now + 120000 }
  else { s with state := .finWait2, deadline := now + 60000 }

/-- An acknowledgement of data: `tx` moves down. -/
def ackData (now : Nat) (ack : Nat) (s : TcpSocket) : TcpSocket :=
  let acknowledged := sub32 ack s.sndUna
  let s := { s with
    tx := fun i => if i < s.txCount - acknowledged then s.tx (i + acknowledged) else s.tx i
    txCount := s.txCount - acknowledged
    sndUna := ack }
  let s := netTcpRtt now s
  let cwnd := if s.cwnd < s.threshold then s.cwnd + min acknowledged s.mss
    else s.cwnd + max 1 (s.mss * s.mss / s.cwnd)
  { s with
    cwnd := min cwnd netStream
    dupacks := 0
    sentAt := if s.sndNxt = s.sndUna then 0 else s.sentAt }

/-- A third duplicate acknowledgement sends the oldest data again. -/
def inputDuplicate (env : TcpEnv) (c : TcpCtx) : TcpCtx :=
  let c := c.update fun s => { s with dupacks := add32 s.dupacks 1 }
  if c.sock.dupacks = 3 then
    let c := c.update fun s => { s with
      threshold := max (2 * s.mss) (s.cwnd / 2)
      cwnd := s.mss
      retransmitted := true
      sentAt := env.now }
    (netTcpPacket env c.sock.sndUna .onlyAck
      (c.sock.txSlice 0 (min c.sock.mss (sub32 c.sock.sndNxt c.sock.sndUna))) c).2
  else c

/-- The acknowledgement field; the flag says whether `net_tcp_input` returns. -/
def inputAck (env : TcpEnv) (m : Segment) (c : TcpCtx) : TcpCtx × Bool :=
  let s := c.sock
  if s.state = .synRcvd then
    if m.ack ≠ s.sndNxt ∨ m.seq ≠ s.rcvNxt then (c, true)
    else
      (c.update fun s =>
        { netTcpRtt env.now { s with sndUna := m.ack, state := .established } with sentAt := 0 },
        false)
  else if netSeqBefore s.sndUna m.ack then
    if s.state.isFin then
      if m.ack ≠ add32 s.finSeq 1 then (c, true)
      else (c.update (ackFin env.now m.ack), s.state == .lastAck)
    else if s.txCount < sub32 m.ack s.sndUna then (c, true)
    else (c.update (ackData env.now m.ack), false)
  else if m.ack = s.sndUna ∧ s.txCount ≠ 0 ∧ s.sndNxt ≠ s.sndUna ∧ m.bytes.length = 0 ∧
      s.peerWindow = m.window then (inputDuplicate env c, false)
  else (c, false)

/-- `take` bytes of `bytes` go to the end of the receive ring. -/
def TcpSocket.rxPush (s : TcpSocket) (bytes : List UInt8) (take : Nat) : TcpSocket := { s with
  rx := (List.range take).foldl
    (fun rx i => Function.update rx ((s.rxHead + s.rxCount + i) % netStream) (bytes.getD i 0)) s.rx
  rxCount := s.rxCount + take
  rcvNxt := add32 s.rcvNxt take }

/-- The peer's FIN. -/
def TcpSocket.takeFin (s : TcpSocket) (now : Nat) : TcpSocket :=
  let s := { s with peerFin := true, rcvNxt := add32 s.rcvNxt 1 }
  if s.state = .established then { s with state := .closeWait }
  else if s.state = .finWait1 then { s with state := .closing }
  else if s.state = .finWait2 then { s with state := .timeWait, deadline := now + 120000 }
  else s

/-- Data and FIN of a segment; the flag says whether `net_tcp_input` returns. -/
def inputData (env : TcpEnv) (m : Segment) (c : TcpCtx) : TcpCtx × Bool :=
  let s := c.sock
  if m.bytes.length = 0 ∧ m.flags.fin = false then (c, false)
  else
    let trim := if netSeqBefore m.seq s.rcvNxt then min (sub32 s.rcvNxt m.seq) m.bytes.length else 0
    let bytes := m.bytes.drop trim
    if add32 m.seq trim ≠ s.rcvNxt then (netTcpAck env c, true)
    else
      let take := min bytes.length (netStream - s.rxCount)
      let c := c.update fun s => s.rxPush bytes take
      let c :=
        if m.flags.fin && take == bytes.length && !c.sock.peerFin then
          c.update fun s => s.takeFin env.now
        else c
      (netTcpAck env c, false)

/-- `net_tcp_input` from the acknowledgement on. -/
def inputAccepted (env : TcpEnv) (m : Segment) (c : TcpCtx) : TcpCtx :=
  if netSeqBefore c.sock.sndNxt m.ack then netTcpAck env c
  else
    match inputAck env m c with
    | (c, true) => c
    | (c, false) =>
        let c := c.update fun s => { s with peerWindow := m.window }
        if c.sock.peerFin && m.bytes.length != 0 then netTcpAck env c
        else
          match inputData env m c with
          | (c, true) => c
          | (c, false) => netTcpPump env c

/-- `net_tcp_input` on the socket the segment belongs to. -/
def netTcpInput (env : TcpEnv) (m : Segment) (c : TcpCtx) : TcpCtx :=
  if m.flags.urg then c
  else
    let c := c.update fun s => { s with activity := env.now }
    let s := c.sock
    if s.state = .synSent then inputSynSent env m c
    else if s.state = .timeWait then
      if m.flags.fin then
        (netTcpAck env c).update fun s => { s with deadline := env.now + 120000 }
      else c
    else if s.state = .error then c
    else if s.state = .synRcvd ∧ m.flags.syn = true ∧ add32 m.seq 1 = s.rcvNxt then
      netTcpPump env (c.update fun s => { s with sentAt := 0 })
    else if s.acceptable m = false then if m.flags.rst then c else netTcpAck env c
    else if m.flags.rst then
      if m.seq = s.rcvNxt then netTcpError env .econnreset c
      else if env.icmpAllow then netTcpAck env c else c
    else if m.flags.syn then if env.icmpAllow then netTcpAck env c else c
    else if !m.flags.ack then c
    else inputAccepted env m c

/-- What `net_tcp_input` answers to a segment without a socket. -/
def netTcpRefuse (env : TcpEnv) (m : Segment) : List Segment :=
  if m.flags.rst || !env.icmpAllow || !env.up then []
  else
    [{ seq := if m.flags.ack then m.ack else 0
       ack := if m.flags.ack then 0
         else add32 m.seq (m.bytes.length + (if m.flags.syn then 1 else 0) +
           (if m.flags.fin then 1 else 0))
       flags := .rstWith (!m.flags.ack)
       window := netStream
       options := []
       bytes := [] }]

/-! ### Calls -/

/-- `net_socket_owned` finds the socket. -/
def TcpSocket.owned (s : TcpSocket) : Bool := s.used && !s.detached

/-- `k_net_send` on a TCP socket: the number of bytes it accepted. -/
def kNetSend (env : TcpEnv) (bytes : List UInt8) (c : TcpCtx) : Except Errno Nat × TcpCtx :=
  let s := c.sock
  if 4096 < bytes.length then (.error .einval, c)
  else if !s.owned then (.error .eperm, c)
  else if s.state = .error then (.error (s.error.getD .einval), c)
  else if (s.state ≠ .established ∧ s.state ≠ .closeWait) ∨ s.closeRequested then
    (.error .einval, c)
  else
    let take := min bytes.length (netStream - s.txCount)
    if take = 0 ∧ bytes.length ≠ 0 then (.error .eagain, c)
    else
      let c := c.update fun s =>
        { s with tx := memCopy s.tx s.txCount (fun i => bytes.getD i 0) 0 take
                 txCount := s.txCount + take }
      (.ok take, netTcpPump env c)

/-- The bytes at the head of the receive ring. -/
def TcpSocket.rxBytes (s : TcpSocket) (n : Nat) : List UInt8 :=
  (List.range n).map fun i => s.rx ((s.rxHead + i) % netStream)

/-- `k_net_receive` on a TCP socket: the bytes it returned. -/
def kNetReceive (env : TcpEnv) (n : Nat) (c : TcpCtx) : Except Errno (List UInt8) × TcpCtx :=
  let s := c.sock
  if 65536 < n then (.error .einval, c)
  else if !s.owned then (.error .eperm, c)
  else if n = 0 then (.ok [], c)
  else if s.rxCount ≠ 0 then
    let take := min n s.rxCount
    let c := c.update fun s =>
      { s with rxHead := (s.rxHead + take) % netStream, rxCount := s.rxCount - take }
    (.ok (s.rxBytes take), netTcpAck env c)
  else if s.peerFin then (.ok [], c)
  else if s.state = .error then (.error (s.error.getD .einval), c)
  else (.error .eagain, c)

/-- `net_close_internal` on a socket that is not listening. -/
def netCloseInternal (env : TcpEnv) (c : TcpCtx) : TcpCtx :=
  let s := c.sock
  if s.state = .new ∨ s.state = .bound ∨ s.state = .error then
    c.update fun s => { s with used := false }
  else if s.state = .synSent ∨ s.state = .synRcvd then
    (netTcpPacket env s.sndNxt (.rstWith true) [] c).2.update fun s => { s with used := false }
  else netTcpPump env (c.update fun s => { s with detached := true, closeRequested := true })

/-- `k_net_close` on a TCP socket. -/
def kNetClose (env : TcpEnv) (c : TcpCtx) : Except Errno Unit × TcpCtx :=
  if !c.sock.owned then (.error .eperm, c) else (.ok (), netCloseInternal env c)

end Efishell
