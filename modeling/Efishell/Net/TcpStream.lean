import Efishell.Net.TcpCall
import Mathlib.Logic.Relation

/-!
# Networking — two sockets and the network between them

Two TCP sockets run against each other.  Either side is driven by `k_net_send`, `k_net_receive`,
`k_net_close`, `net_tcp_pump` and `net_tcp_input`, in any order and at any times.  What a side emits
goes to a list that only grows, and an input is any segment of the other side's list: the network
drops, duplicates, delays and reorders, and forges nothing.

The bytes that one side's `k_net_receive` returned are a prefix of those the other side's
`k_net_send` accepted, and the end of the stream is reported only behind the last of them.

* `TcpWorld.Inv.step`, `TcpWorld.Inv.run`: every event and every run keeps the two sides in step.
* `tcp_stream_safe`: what is received is a prefix of what was accepted.
-/

namespace Efishell

/-! ### The system -/

/-- An emitted segment with its numbers counted from the SYN. -/
structure Flight where
  seg : Segment
  seqNo : Nat
  ackNo : Nat

/-- A socket with its history: `snd_nxt` and `rcv_nxt` counted from the SYN, the bytes accepted and
returned so far, and what it has emitted. -/
structure TcpSide where
  sock : TcpSocket
  nxt : Nat
  rcv : Nat
  accepted : List UInt8
  delivered : List UInt8
  sent : List Flight

namespace TcpSide

/-- The socket at the start of a call. -/
def start (a : TcpSide) : TcpCtx := ⟨a.sock, [], 0⟩

/-- The numbers of a segment, from those of the socket that emitted it. -/
def flight (s : TcpSocket) (nxt rcv : Nat) (m : Segment) : Flight :=
  ⟨m, nxt - sub32 s.sndNxt m.seq, rcv - sub32 s.rcvNxt m.ack⟩

/-- The side after a call that ended in `c`. -/
def commit (a : TcpSide) (c : TcpCtx) (acc dl : List UInt8) : TcpSide :=
  let nxt := a.nxt + sub32 c.sock.sndNxt a.sock.sndNxt
  let rcv := a.rcv + sub32 c.sock.rcvNxt a.sock.rcvNxt
  { sock := c.sock
    nxt := nxt
    rcv := rcv
    accepted := a.accepted ++ acc
    delivered := a.delivered ++ dl
    sent := a.sent ++ c.out.map (flight c.sock nxt rcv) }

end TcpSide

/-- What may happen to one side. -/
inductive TcpEvent where
  | send (bytes : List UInt8)
  | receive (n : Nat)
  | close
  | pump
  | input (f : Flight)

/-- A segment for a socket that is gone is answered by a RST. -/
def TcpSide.step (a : TcpSide) (env : TcpEnv) : TcpEvent → TcpSide
  | .send bytes =>
      let r := kNetSend env bytes a.start
      a.commit r.2 (Efishell.accepted bytes r.1) []
  | .receive n =>
      let r := kNetReceive env n a.start
      a.commit r.2 [] (returned r.1)
  | .close => a.commit (kNetClose env a.start).2 [] []
  | .pump => a.commit (netTcpPump env a.start) [] []
  | .input f =>
      if a.sock.used then a.commit (netTcpInput env f.seg a.start) [] []
      else a.commit { a.start with out := netTcpRefuse env f.seg } [] []

/-- The network: an input was sent by the peer, and neither of its numbers is `2 ^ 31` or more
behind those of the socket it reaches.  SYN and RST segments may have any age. -/
def TcpEvent.Allowed (a b : TcpSide) : TcpEvent → Prop
  | .input f => f ∈ b.sent ∧ (f.seg.flags.syn = true ∨ f.seg.flags.rst = true ∨
      (a.rcv < f.seqNo + 2 ^ 31 ∧ a.nxt < f.ackNo + 2 ^ 31))
  | _ => True

/-- The two sides. -/
structure TcpWorld where
  a : TcpSide
  b : TcpSide

/-- One call on either side. -/
inductive TcpWorld.Step : TcpWorld → TcpWorld → Prop
  | left (w : TcpWorld) (env : TcpEnv) (e : TcpEvent) (h : e.Allowed w.a w.b) :
      Step w { w with a := w.a.step env e }
  | right (w : TcpWorld) (env : TcpEnv) (e : TcpEvent) (h : e.Allowed w.b w.a) :
      Step w { w with b := w.b.step env e }

/-- A socket right after the handshake: established, or waiting for the last segment of the
handshake.  What it has sent is the handshake. -/
structure TcpSide.Fresh (base peerBase : Nat) (a : TcpSide) : Prop where
  used : a.sock.used = true
  state : a.sock.state = .established ∧ a.sock.sndUna = wrapSeq base 1 ∨
    a.sock.state = .synRcvd ∧ a.sock.sndUna = wrapSeq base 0
  sndNxt : a.sock.sndNxt = wrapSeq base 1
  rcvNxt : a.sock.rcvNxt = wrapSeq peerBase 1
  rxCount : a.sock.rxCount = 0
  txCount : a.sock.txCount = 0
  peerFin : a.sock.peerFin = false
  nxt : a.nxt = 1
  rcv : a.rcv = 1
  accepted : a.accepted = []
  delivered : a.delivered = []
  sent : ∀ f ∈ a.sent, f.seg.flags.syn = true ∨ f.seg.flags.rst = true ∨
    (f.seg.seq = wrapSeq base 1 ∧ f.seg.ack = wrapSeq peerBase 1 ∧ f.seg.bytes = [] ∧
      f.seg.flags.fin = false ∧ f.seqNo = 1 ∧ f.ackNo = 1)

/-- What `k_net_receive` returned at `dst` is a prefix of what `k_net_send` accepted at `src`; it
reports the end of the stream only when nothing is missing and `src` was closed, so that
nothing can follow. -/
def StreamSafe (src dst : TcpSide) : Prop :=
  dst.delivered <+: src.accepted ∧
    ∀ env n, n ≠ 0 → (kNetReceive env n dst.start).1 = .ok [] →
      dst.sock.peerFin = true ∧ dst.sock.rxCount = 0 ∧ dst.delivered = src.accepted ∧
        src.sock.closeRequested = true

/-! ### The invariant -/

/-- One direction of the connection, seen from its sender `a`, and what `a` received. -/
structure SideOk (base peerBase : Nat) (a b : TcpSide) (una : Nat) (fin finP : Bool) : Prop where
  send : SendOk base a.accepted a.sock.core una a.nxt fin
  recv : RecvOk peerBase b.accepted finP a.delivered a.sock.core a.rcv
  una_rcv : una ≤ b.rcv
  sent : ∀ f ∈ a.sent, SegOk base peerBase a.accepted fin a.rcv f.seg f.seqNo f.ackNo

/-- The invariant of each side against the other. -/
def TcpWorld.Inv (base base' : Nat) (w : TcpWorld) : Prop :=
  ∃ una fin una' fin', SideOk base base' w.a w.b una fin fin' ∧
    SideOk base' base w.b w.a una' fin' fin

/-- What was received stays right when the peer's stream goes on. -/
theorem RecvOk.mono {base : Nat} {accP accP' : List UInt8} {finP finP' : Bool} {dl : List UInt8}
    {k : TcpCore} {rcv : Nat} (h : RecvOk base accP finP dl k rcv) (hacc : ∃ l, accP' = accP ++ l)
    (hfin : finP = true → finP' = true ∧ accP' = accP) : RecvOk base accP' finP' dl k rcv := by
  obtain ⟨l, rfl⟩ := hacc
  have hlen := h.len_le
  refine ⟨h.rcv_eq, h.count_le, h.rcv_count, ?_, ?_, fun hf => ?_⟩
  · rw [List.take_append_of_le_length hlen]
    exact h.stream
  · rw [List.length_append]
    omega
  · obtain ⟨e₁, e₂⟩ := h.fin hf
    obtain ⟨e₃, e₄⟩ := hfin e₁
    exact ⟨e₃, by rw [e₄]; exact e₂⟩

/-- No more is received than was sent. -/
theorem RecvOk.rcv_le {base : Nat} {accP : List UInt8} {finP : Bool} {dl : List UInt8}
    {k : TcpCore} {rcv : Nat} (h : RecvOk base accP finP dl k rcv) :
    rcv ≤ accP.length + 1 + finP.toNat := by
  have hlen := h.len_le
  have hcount := h.rcv_count
  cases hp : k.peerFin with
  | false =>
      rw [hp, Bool.toNat_false] at hcount
      omega
  | true =>
      obtain ⟨rfl, -⟩ := h.fin hp
      rw [hp] at hcount
      omega

namespace SideOk

variable {base peerBase : Nat} {a b : TcpSide} {una unaP : Nat} {fin finP : Bool}

/-- What a call of `a` starts from; `acc` and `dl` are what it accepts and returns. -/
def callData (base peerBase una : Nat) (finP : Bool) (a b : TcpSide) (acc dl : List UInt8) :
    CallData where
  base := base
  peerBase := peerBase
  acc := a.accepted ++ acc
  accP := b.accepted
  finP := finP
  dl := a.delivered ++ dl
  rcvP := b.rcv
  una₀ := una
  nxt₀ := a.nxt
  rcv₀ := a.rcv

/-- The start of a call. -/
theorem ctx (h : SideOk base peerBase a b una fin finP) :
    CtxOk (callData base peerBase una finP a b [] []) una a.nxt a.rcv fin a.start := by
  refine ⟨?_, ?_, Nat.le_refl _, h.send.una_le, h.una_rcv, Nat.le_refl _, Nat.le_refl _, ?_, ?_⟩
  · rw [callData, List.append_nil]
    exact h.send
  · simp only [callData, List.append_nil]
    exact h.recv
  · exact Nat.le_add_right_of_le (Nat.le_add_right _ _)
  · intro m hm
    cases hm

/-- The end of a call: the invariant holds again on both sides. -/
theorem commit (h : SideOk base peerBase a b una fin finP)
    (h' : SideOk peerBase base b a unaP finP fin)
    {acc dl : List UInt8} {una' nxt' rcv' : Nat} {fin' : Bool} {c : TcpCtx}
    (hc : CtxOk (callData base peerBase una finP a b acc dl) una' nxt' rcv' fin' c)
    (hfin : fin = true → fin' = true ∧ acc = []) :
    SideOk base peerBase (a.commit c acc dl) b una' fin' finP ∧
      SideOk peerBase base b (a.commit c acc dl) unaP finP fin' := by
  have hage : a.nxt ≤ nxt' := hc.nxt_ge
  have hra : a.rcv ≤ rcv' := hc.rcv_ge
  have hrl : rcv' ≤ a.rcv + netStream + 1 := hc.rcv_le
  have hua : una' ≤ a.nxt := hc.una_le
  have hun := hc.send.nxt_le
  have hun' := h.send.nxt_le
  simp only [netStream] at hrl hun hun'
  have hsn : c.sock.sndNxt = wrapSeq base nxt' := hc.send.nxt_eq
  have hsn' : a.sock.sndNxt = wrapSeq base a.nxt := h.send.nxt_eq
  have hrn : c.sock.rcvNxt = wrapSeq peerBase rcv' := hc.recv.rcv_eq
  have hrn' : a.sock.rcvNxt = wrapSeq peerBase a.rcv := h.recv.rcv_eq
  have hnxt : (a.commit c acc dl).nxt = nxt' := by
    show a.nxt + sub32 c.sock.sndNxt a.sock.sndNxt = nxt'
    rw [hsn, hsn', sub32_wrapSeq hage (by omega)]
    omega
  have hrcv : (a.commit c acc dl).rcv = rcv' := by
    show a.rcv + sub32 c.sock.rcvNxt a.sock.rcvNxt = rcv'
    rw [hrn, hrn', sub32_wrapSeq hra (by omega)]
    omega
  have hext : ∃ l, a.accepted ++ acc = a.accepted ++ l := ⟨acc, rfl⟩
  have hfin' : fin = true → fin' = true ∧ a.accepted ++ acc = a.accepted := by
    intro e
    obtain ⟨e₁, rfl⟩ := hfin e
    exact ⟨e₁, List.append_nil _⟩
  refine ⟨⟨hnxt ▸ hc.send, hrcv ▸ hc.recv, hc.una_rcv, fun f hf => ?_⟩,
    ⟨h'.send, h'.recv.mono hext hfin', ?_, h'.sent⟩⟩
  · rw [hrcv]
    rcases List.mem_append.mp hf with hf | hf
    · exact (h.sent f hf).mono hext hfin' hra
    · obtain ⟨m, hm, rfl⟩ := List.mem_map.mp hf
      obtain ⟨seqNo, ackNo, hseg, hge, hle, hack⟩ := hc.out m hm
      have hge' : una ≤ seqNo + 1 := hge
      have hack' : a.rcv ≤ ackNo := hack
      rcases hseg with e | e | hseg
      · exact Or.inl e
      · exact Or.inr (Or.inl e)
      · -- the numbers of the segment are recovered from their 32-bit forms
        have hs : nxt' - sub32 c.sock.sndNxt m.seq = seqNo := by
          rw [hsn, hseg.1]
          show nxt' - sub32 (wrapSeq base nxt') (wrapSeq base seqNo) = seqNo
          rw [sub32_wrapSeq hle (by omega)]
          omega
        have hk : rcv' - sub32 c.sock.rcvNxt m.ack = ackNo := by
          have hle' : ackNo ≤ rcv' := hseg.2.2.2.1
          rw [hrn, hseg.2.1]
          show rcv' - sub32 (wrapSeq peerBase rcv') (wrapSeq peerBase ackNo) = ackNo
          rw [sub32_wrapSeq hle' (by omega)]
          omega
        show SegOk _ _ _ _ _ m ((a.commit c acc dl).nxt - _) ((a.commit c acc dl).rcv - _)
        rw [hnxt, hrcv, hs, hk]
        exact Or.inr (Or.inr hseg)
  · rw [hrcv]
    exact h'.una_rcv.trans hra

/-- A segment of the peer, at the start of a call. -/
theorem incoming (h' : SideOk peerBase base b a unaP finP fin) {f : Flight}
    (hf : (TcpEvent.input f).Allowed a b) :
    f.seg.flags.syn = true ∨ f.seg.flags.rst = true ∨ ∃ seqNo ackNo,
      Incoming (callData base peerBase una finP a b [] []) fin f.seg seqNo ackNo := by
  rcases h'.sent f hf.1 with e | e | ⟨h₁, h₂, h₃, h₄, h₅, h₆⟩
  · exact Or.inl e
  · exact Or.inr (Or.inl e)
  · rcases hf.2 with e | e | ⟨hs, hk⟩
    · exact Or.inl e
    · exact Or.inr (Or.inl e)
    · refine Or.inr (Or.inr ⟨f.seqNo, f.ackNo, h₁, h₂, h₃, h₄, ?_, ?_, hs, hk, h₅, h₆⟩)
      · rw [callData, List.append_nil]
        exact h'.recv.rcv_le
      · exact h'.send.len_le.trans (Nat.add_le_add_right h'.una_rcv _)

/-- A RST for a socket that is gone. -/
theorem refuse {P : CallData} {nxt rcv : Nat} {c : TcpCtx} (h : CtxOk P una nxt rcv fin c)
    (env : TcpEnv) (m : Segment) :
    CtxOk P una nxt rcv fin { c with out := netTcpRefuse env m } := by
  refine ⟨h.send, h.recv, h.una_ge, h.una_le, h.una_rcv, h.nxt_ge, h.rcv_ge, h.rcv_le,
    fun m' hm' => ?_⟩
  have hge := h.una_ge
  have hle := h.send.una_le
  have hrst : m'.flags.rst = true := by
    change m' ∈ netTcpRefuse env m at hm'
    rw [netTcpRefuse] at hm'
    split at hm'
    · cases hm'
    · rw [List.mem_singleton.mp hm']
      rfl
  exact ⟨nxt, P.rcv₀, Or.inr (Or.inl hrst), by omega, Nat.le_refl _, Nat.le_refl _⟩

/-- **One call of one side.** -/
theorem step (h : SideOk base peerBase a b una fin finP)
    (h' : SideOk peerBase base b a unaP finP fin) (env : TcpEnv) {e : TcpEvent}
    (he : e.Allowed a b) :
    ∃ una' fin', SideOk base peerBase (a.step env e) b una' fin' finP ∧
      SideOk peerBase base b (a.step env e) unaP finP fin' := by
  cases e with
  | send bytes =>
      obtain ⟨nxt', fin', hc, hfin⟩ := h.ctx.sendCall env bytes rfl
      have hacc : (callData base peerBase una finP a b [] []).acc ++
          accepted bytes (kNetSend env bytes a.start).1 =
          a.accepted ++ accepted bytes (kNetSend env bytes a.start).1 := by
        simp only [callData, List.append_nil]
      rw [hacc] at hc
      exact ⟨una, fin', h.commit h' hc hfin⟩
  | receive n =>
      have hc := h.ctx.receiveCall env n
      have hdl : (callData base peerBase una finP a b [] []).dl ++
          returned (kNetReceive env n a.start).1 =
          a.delivered ++ returned (kNetReceive env n a.start).1 := by
        simp only [callData, List.append_nil]
      rw [hdl] at hc
      exact ⟨una, fin, h.commit h' hc fun e => ⟨e, rfl⟩⟩
  | close =>
      obtain ⟨nxt', fin', hc, hfin⟩ := h.ctx.closeCall env
      exact ⟨una, fin', h.commit h' hc fun e => ⟨hfin e, rfl⟩⟩
  | pump =>
      obtain ⟨nxt', fin', hc, hfin⟩ := h.ctx.pump env
      exact ⟨una, fin', h.commit h' hc fun e => ⟨hfin e, rfl⟩⟩
  | input f =>
      rw [TcpSide.step]
      split
      · rename_i hu
        obtain ⟨una', nxt', rcv', fin', hc, hfin⟩ := h.ctx.input env (incoming h' he) hu rfl rfl
        exact ⟨una', fin', h.commit h' hc fun e => ⟨hfin e, rfl⟩⟩
      · exact ⟨una, fin, h.commit h' (refuse h.ctx env f.seg) fun e => ⟨e, rfl⟩⟩

/-- A side right after the handshake. -/
theorem fresh (ha : a.Fresh base peerBase) (hb : b.Fresh peerBase base) :
    ∃ una, SideOk base peerBase a b una false false := by
  have hsent : ∀ f ∈ a.sent, SegOk base peerBase a.accepted false a.rcv f.seg f.seqNo f.ackNo := by
    intro f hf
    rcases ha.sent f hf with e | e | ⟨h₁, h₂, h₃, h₄, h₅, h₆⟩
    · exact Or.inl e
    · exact Or.inr (Or.inl e)
    · refine Or.inr (Or.inr ⟨h₅.symm ▸ h₁, h₆.symm ▸ h₂, ?_, ?_, fun e => absurd h₃ e, fun e => ?_⟩)
      · rw [h₅, ha.accepted]
        exact Nat.le_refl _
      · rw [h₆, ha.rcv]
      · rw [h₄] at e
        cases e
  have hrecv : RecvOk peerBase b.accepted false a.delivered a.sock.core a.rcv := by
    have hrx : a.sock.core.rxCount = 0 := ha.rxCount
    have hpf : a.sock.core.peerFin = false := ha.peerFin
    refine ⟨ha.rcv.symm ▸ ha.rcvNxt, ?_, ?_, ?_, ?_, fun e => ?_⟩
    · rw [hrx]
      exact Nat.zero_le _
    · rw [ha.rcv, ha.delivered, hrx, hpf]
      rfl
    · rw [ha.delivered, hrx, TcpCore.ring, hrx]
      rfl
    · rw [ha.delivered, hrx]
      exact Nat.zero_le _
    · rw [hpf] at e
      cases e
  have htx : a.sock.core.txCount = 0 := ha.txCount
  -- established, the SYN acknowledged, or still waiting for that
  rcases ha.state with ⟨hst, hun⟩ | ⟨hst, hun⟩
  · refine ⟨1, ⟨⟨hun, ha.nxt.symm ▸ ha.sndNxt, ?_, ?_, ?_, ?_, ?_, fun _ => ?_⟩, hrecv, ?_, hsent⟩⟩
    · rw [ha.nxt]
    · rw [ha.nxt]
      exact Nat.le_add_right _ _
    · rw [ha.accepted]
      exact Nat.le_add_right _ _
    · rw [ha.nxt, ha.accepted]
      exact Nat.le_refl _
    · exact fun e => by cases e
    · rw [TcpCore.PhaseOk, show a.sock.core.state = .established from hst]
      refine ⟨rfl, Nat.le_refl _, ?_, ?_, ?_, fun i hi => ?_⟩
      · rw [htx, ha.accepted]
        rfl
      · rw [ha.nxt, ha.accepted]
        exact Nat.le_refl _
      · rw [htx]
        exact Nat.zero_le _
      · rw [htx] at hi
        cases hi
    · rw [hb.rcv]
  · refine ⟨0, ⟨⟨hun, ha.nxt.symm ▸ ha.sndNxt, Nat.zero_le _, ?_, ?_, ?_, ?_, fun _ => ?_⟩, hrecv,
      Nat.zero_le _, hsent⟩⟩
    · rw [ha.nxt]
      decide
    · rw [ha.accepted]
      decide
    · rw [ha.nxt, ha.accepted]
      exact Nat.le_refl _
    · exact fun e => by cases e
    · rw [TcpCore.PhaseOk, show a.sock.core.state = .synRcvd from hst]
      exact ⟨ha.accepted, rfl, ha.nxt, htx, rfl⟩

/-- The invariant is safe for the receiving side. -/
theorem safe (h : SideOk base peerBase a b una fin finP)
    (h' : SideOk peerBase base b a unaP finP fin) :
    StreamSafe b a := by
  have hr := h.recv
  have hpre : a.delivered <+: b.accepted.take (a.delivered.length + a.sock.core.rxCount) :=
    ⟨a.sock.core.ring, hr.stream⟩
  refine ⟨hpre.trans (List.take_prefix _ _), fun env n hn hok => ?_⟩
  have hend : a.sock.peerFin = true ∧ a.sock.rxCount = 0 := kNetReceive_end hn hok
  obtain ⟨hfin, hlen⟩ := hr.fin hend.1
  have hrx : a.sock.core.rxCount = 0 := hend.2
  have hst := hr.stream
  rw [hlen, List.take_length, TcpCore.ring, hrx, List.range_zero, List.map_nil,
    List.append_nil] at hst
  exact ⟨hend.1, hend.2, hst, h'.send.closed hfin⟩

end SideOk

namespace TcpWorld

variable {base base' : Nat} {w w' : TcpWorld}

/-- One event keeps the invariant of the two sides. -/
theorem Inv.step (h : w.Inv base base') (hs : Step w w') : w'.Inv base base' := by
  obtain ⟨una, fin, una', fin', ha, hb⟩ := h
  cases hs with
  | left env e he =>
      obtain ⟨una₁, fin₁, ha', hb'⟩ := ha.step hb env he
      exact ⟨una₁, fin₁, una', fin', ha', hb'⟩
  | right env e he =>
      obtain ⟨una₁, fin₁, hb', ha'⟩ := hb.step ha env he
      exact ⟨una, fin, una₁, fin₁, ha', hb'⟩

theorem Inv.run (h : w.Inv base base') (hr : Relation.ReflTransGen Step w w') :
    w'.Inv base base' := by
  induction hr with
  | refl => exact h
  | tail _ hs ih => exact ih.step hs

end TcpWorld

/-- **Stream safety.**  In every state two sockets reach after the handshake, each side has received
a prefix of what the other accepted, and the end of the stream comes behind all of it. -/
theorem tcp_stream_safe {base base' : Nat} {w w' : TcpWorld} (ha : w.a.Fresh base base')
    (hb : w.b.Fresh base' base) (hr : Relation.ReflTransGen TcpWorld.Step w w') :
    StreamSafe w'.a w'.b ∧ StreamSafe w'.b w'.a := by
  obtain ⟨una, ha'⟩ := SideOk.fresh ha hb
  obtain ⟨una', hb'⟩ := SideOk.fresh hb ha
  have hinv : w.Inv base base' := ⟨una, false, una', false, ha', hb'⟩
  obtain ⟨_, _, _, _, h, h'⟩ := hinv.run hr
  exact ⟨h'.safe h, h.safe h'⟩

/-! ### A run to the end of the stream -/

/-- A side right after the handshake. -/
def connectedSide (base peerBase : Nat) : TcpSide where
  sock :=
    { used := true, detached := false, peerFin := false, closeRequested := false
      retransmitted := false, family := 4, state := .established, sndUna := wrapSeq base 1
      sndNxt := wrapSeq base 1, rcvNxt := wrapSeq peerBase 1, iss := wrapSeq base 0, mss := 1440
      peerWindow := netStream, cwnd := 2880, threshold := netStream, rxHead := 0, rxCount := 0
      txCount := 0, finSeq := 0, dupacks := 0, srtt := 0, rttvar := 0, rto := 1000, retry := 0
      deadline := 0, sentAt := 0, activity := 0, persistAt := 0, error := none, rx := fun _ => 0
      tx := fun _ => 0 }
  nxt := 1
  rcv := 1
  accepted := []
  delivered := []
  sent := []

/-- A side just connected has sent nothing. -/
theorem connectedSide_fresh (base peerBase : Nat) :
    (connectedSide base peerBase).Fresh base peerBase :=
  ⟨rfl, Or.inl ⟨rfl, rfl⟩, rfl, rfl, rfl, rfl, rfl, rfl, rfl, rfl, rfl, fun _ hf => by cases hf⟩

/-- The interface is up, and every packet leaves. -/
def quietEnv : TcpEnv := ⟨5, true, true, 1500, true, fun _ => none⟩

/-- The last segment the peer sent. -/
def newest (b : TcpSide) : TcpEvent :=
  match b.sent.getLast? with
  | some f => .input f
  | none => .pump

/-- The last segment of the other side may arrive. -/
theorem newest_allowed {a b : TcpSide} (hr : a.rcv < 2 ^ 31) (hn : a.nxt < 2 ^ 31) :
    (newest b).Allowed a b := by
  rw [newest]
  split
  · rename_i f hf
    exact ⟨List.mem_of_getLast? hf, Or.inr (Or.inr ⟨by omega, by omega⟩)⟩
  · trivial

namespace TcpWorld

/-- A call of the first side. -/
def callA (e : TcpEvent) (w : TcpWorld) : TcpWorld := { w with a := w.a.step quietEnv e }

/-- A call of the second. -/
def callB (e : TcpEvent) (w : TcpWorld) : TcpWorld := { w with b := w.b.step quietEnv e }

/-- The last segment of `b` reaches `a`. -/
def arriveA (w : TcpWorld) : TcpWorld := w.callA (newest w.b)

/-- The last segment of the first side arrives. -/
def arriveB (w : TcpWorld) : TcpWorld := w.callB (newest w.a)

/-- The numbers of `b` run over the end of their 32 bits. -/
def connected : TcpWorld := ⟨connectedSide 100 (2 ^ 32 - 2), connectedSide (2 ^ 32 - 2) 100⟩

/-- Three bytes go over, and the sender closes. -/
def transfer : TcpWorld :=
  (((((connected.callA (.send [1, 2, 3])).arriveB).callB (.receive 10)).arriveA).callA
    .close).arriveB

end TcpWorld

theorem tcp_stream_safe_transfer :
    (TcpWorld.transfer.b.delivered = [1, 2, 3] ∧
      (kNetReceive quietEnv 10 TcpWorld.transfer.b.start).1.toOption = some []) ∧
      StreamSafe TcpWorld.transfer.a TcpWorld.transfer.b ∧
      StreamSafe TcpWorld.transfer.b TcpWorld.transfer.a := by
  refine ⟨by decide +kernel, tcp_stream_safe (w := .connected)
    (connectedSide_fresh 100 (2 ^ 32 - 2)) (connectedSide_fresh (2 ^ 32 - 2) 100) ?_⟩
  refine .head (.left _ quietEnv (.send [1, 2, 3]) trivial) ?_
  refine .head (.right _ quietEnv _ (newest_allowed (by decide +kernel) (by decide +kernel))) ?_
  refine .head (.right _ quietEnv (.receive 10) trivial) ?_
  refine .head (.left _ quietEnv _ (newest_allowed (by decide +kernel) (by decide +kernel))) ?_
  refine .head (.left _ quietEnv .close trivial) ?_
  refine .head (.right _ quietEnv _ (newest_allowed (by decide +kernel) (by decide +kernel))) ?_
  exact .refl

end Efishell
