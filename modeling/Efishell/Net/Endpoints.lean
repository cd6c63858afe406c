import Efishell.Net.SocketRun

/-!
# Networking — who owns an endpoint

`net_port_busy` keeps local endpoints apart: it is asked when a port is bound, by `k_net_bind` and
by `net_autobind`, and what happens to an endpoint afterwards only makes it smaller.  `Endpoints` is
the invariant behind that.  Sockets that come from a passive open share the port of their listener;
they are told apart by their peers.

The endpoint of a socket does shrink in every case but one: `k_net_connect` lets the caller name an
interface, and that interface replaces the one the socket is bound to, without asking
`net_port_busy` again.  `ConnectsFree` is the condition under which the answer would have been that
the endpoint is free.

Main results: `endpoints_exclusive` is about all runs under that condition; `connect_takes_endpoint`
is a run in which one task's socket moves onto the endpoint of another's.
-/

namespace Efishell

/-! ### What a call on a socket keeps -/

namespace TcpCtx

theorem family_packet (env : TcpEnv) (sequence : Nat) (flags : TcpFlags) (bytes : List UInt8)
    (c : TcpCtx) : (netTcpPacket env sequence flags bytes c).2.sock.family = c.sock.family := by
  rw [sock_netTcpPacket]

theorem family_rtt (now : Nat) (s : TcpSocket) : (netTcpRtt now s).family = s.family := by
  simp only [netTcpRtt]
  split
  · split <;> rfl
  · rfl

theorem family_retransmit (env : TcpEnv) (c : TcpCtx) :
    (pumpRetransmit env c).1.sock.family = c.sock.family := by
  simp only [pumpRetransmit]
  split
  · split
    · split
      · rfl
      · have hp := family_packet env (pumpAgain c.sock).1 (pumpAgain c.sock).2.1
          (pumpAgain c.sock).2.2 c
        generalize netTcpPacket env _ _ _ c = r at hp
        obtain ⟨e, c'⟩ := r
        cases e with
        | ok _ =>
            refine Eq.trans ?_ hp
            simp only [TcpCtx.update, pumpResent]
            split <;> rfl
        | error e =>
            refine Eq.trans ?_ hp
            dsimp only
            split <;> rfl
    · rfl
  · rfl

theorem family_sendLoop (env : TcpEnv) (window fuel : Nat) : ∀ (inflight : Nat) (c : TcpCtx),
    (pumpSend env window fuel inflight c).1.sock.family = c.sock.family := by
  induction fuel with
  | zero => exact fun _ _ => rfl
  | succ fuel ih =>
      intro inflight c
      rw [pumpSend]
      split
      · dsimp only
        generalize min c.sock.mss (min (c.sock.txCount - inflight) (window - inflight)) = n
        have hp := family_packet env c.sock.sndNxt .pshAck (c.sock.txSlice inflight n) c
        generalize netTcpPacket env _ _ _ c = r at hp
        obtain ⟨e, c'⟩ := r
        cases e with
        | ok _ =>
            refine (ih _ _).trans (Eq.trans ?_ hp)
            simp only [TcpCtx.update]
            split <;> rfl
        | error e =>
            refine Eq.trans ?_ hp
            dsimp only
            split <;> rfl
      · rfl

theorem family_persist (env : TcpEnv) (inflight : Nat) (c : TcpCtx) :
    (pumpPersist env inflight c).sock.family = c.sock.family := by
  simp only [pumpPersist]
  split
  · exact family_packet env _ _ _ c
  · rfl

theorem family_pumpFuel (env : TcpEnv) (fuel : Nat) : ∀ c : TcpCtx,
    (netTcpPumpFuel env fuel c).sock.family = c.sock.family := by
  induction fuel with
  | zero => exact fun _ => rfl
  | succ fuel ih =>
      intro c
      rw [netTcpPumpFuel]
      dsimp only
      split
      · rfl
      · split
        · split <;> rfl
        · split
          · split <;> rfl
          · split
            · rfl
            · split
              · rfl
              · have hr := family_retransmit env (c.update (pumpClampMss env))
                have hclamp : (c.update (pumpClampMss env)).sock.family = c.sock.family := by
                  simp only [TcpCtx.update, pumpClampMss]
                  split <;> rfl
                generalize pumpRetransmit env _ = r at hr
                obtain ⟨c₁, stop⟩ := r
                have h₁ : c₁.sock.family = c.sock.family := hr.trans hclamp
                cases stop with
                | true => exact h₁
                | false =>
                    dsimp only
                    split
                    · exact h₁
                    · have hl := family_sendLoop env (min c₁.sock.peerWindow c₁.sock.cwnd) netStream
                        (sub32 c₁.sock.sndNxt c₁.sock.sndUna) c₁
                      generalize pumpSend env _ _ _ c₁ = r at hl
                      obtain ⟨c₂, inflight⟩ := r
                      have h₂ : c₂.sock.family = c.sock.family := hl.trans h₁
                      cases inflight with
                      | none => exact h₂
                      | some k =>
                          dsimp only
                          split
                          · exact (ih _).trans ((family_persist env k c₂).trans h₂)
                          · exact (family_persist env k c₂).trans h₂

theorem family_pump (env : TcpEnv) (c : TcpCtx) :
    (netTcpPump env c).sock.family = c.sock.family := family_pumpFuel env 2 c

theorem family_inputAck (env : TcpEnv) (m : Segment) (c : TcpCtx) :
    (inputAck env m c).1.sock.family = c.sock.family := by
  simp only [inputAck]
  split
  · split
    · rfl
    · exact family_rtt _ _
  · split
    · split
      · split
        · rfl
        · simp only [TcpCtx.update, ackFin]
          split
          · rfl
          · split <;> rfl
      · split
        · rfl
        · exact family_rtt _ _
    · split
      · simp only [inputDuplicate]
        split
        · exact family_packet env _ _ _ _
        · rfl
      · rfl

theorem family_takeFin (now : Nat) (s : TcpSocket) : (s.takeFin now).family = s.family := by
  simp only [TcpSocket.takeFin]
  split
  · rfl
  · split
    · rfl
    · split <;> rfl

theorem family_inputData (env : TcpEnv) (m : Segment) (c : TcpCtx) :
    (inputData env m c).1.sock.family = c.sock.family := by
  simp only [inputData]
  generalize (if netSeqBefore m.seq c.sock.rcvNxt then
    min (sub32 c.sock.rcvNxt m.seq) m.bytes.length else 0) = trim
  split
  · rfl
  · split
    · exact family_packet env _ _ _ c
    · refine (family_packet env _ _ _ _).trans ?_
      split
      · exact family_takeFin _ _
      · rfl

theorem family_inputAccepted (env : TcpEnv) (m : Segment) (c : TcpCtx) :
    (inputAccepted env m c).sock.family = c.sock.family := by
  simp only [inputAccepted]
  split
  · exact family_packet env _ _ _ c
  · have ha := family_inputAck env m c
    generalize inputAck env m c = r at ha
    obtain ⟨c₁, stop⟩ := r
    cases stop with
    | true => exact ha
    | false =>
        dsimp only
        split
        · exact (family_packet env _ _ _ _).trans ha
        · have hd := family_inputData env m (c₁.update fun s => { s with peerWindow := m.window })
          generalize inputData env m _ = r at hd
          obtain ⟨c₂, stop⟩ := r
          cases stop with
          | true => exact hd.trans ha
          | false => exact (family_pump env c₂).trans (hd.trans ha)

theorem family_inputSynSent (env : TcpEnv) (m : Segment) (c : TcpCtx) :
    (inputSynSent env m c).sock.family = c.sock.family := by
  rw [inputSynSent]
  dsimp only
  split
  · split <;> rfl
  · split
    · rfl
    · split
      · rfl
      · exact (family_packet env _ _ _ _).trans (family_rtt _ _)

theorem family_input (env : TcpEnv) (m : Segment) (c : TcpCtx) :
    (netTcpInput env m c).sock.family = c.sock.family := by
  have hone : ∀ c' : TcpCtx, (netTcpAck env c').sock.family = c'.sock.family :=
    fun c' => family_packet env _ _ _ c'
  have hact : (c.update fun s => { s with activity := env.now }).sock.family = c.sock.family := rfl
  rw [netTcpInput]
  dsimp only
  generalize (c.update fun s => { s with activity := env.now }) = c' at hact
  rw [← hact]
  split
  · exact hact.symm
  · split
    · exact family_inputSynSent env m c'
    · split
      · split
        · exact hone _
        · rfl
      · split
        · rfl
        · split
          · exact family_pump env _
          · split
            · split
              · rfl
              · exact hone _
            · split
              · split
                · rfl
                · split
                  · exact hone _
                  · rfl
              · split
                · split
                  · exact hone _
                  · rfl
                · split
                  · rfl
                  · exact family_inputAccepted env m _

theorem family_send (env : TcpEnv) (bytes : List UInt8) (c : TcpCtx) :
    (kNetSend env bytes c).2.sock.family = c.sock.family := by
  simp only [kNetSend]
  split
  · rfl
  · split
    · rfl
    · split
      · rfl
      · split
        · rfl
        · split
          · rfl
          · exact family_pump env _

/-- `k_net_receive` leaves everything but the ring alone. -/
theorem receive_keeps (env : TcpEnv) (n : Nat) (c : TcpCtx) :
    (kNetReceive env n c).2.sock.family = c.sock.family ∧
      (kNetReceive env n c).2.sock.used = c.sock.used ∧
      (kNetReceive env n c).2.sock.state = c.sock.state := by
  simp only [kNetReceive]
  split
  · exact ⟨rfl, rfl, rfl⟩
  · split
    · exact ⟨rfl, rfl, rfl⟩
    · split
      · exact ⟨rfl, rfl, rfl⟩
      · split
        · simp only [netTcpAck, sock_netTcpPacket]
          exact ⟨rfl, rfl, rfl⟩
        · split
          · exact ⟨rfl, rfl, rfl⟩
          · split <;> exact ⟨rfl, rfl, rfl⟩

theorem family_close (env : TcpEnv) (c : TcpCtx) :
    (netCloseInternal env c).sock.family = c.sock.family := by
  simp only [netCloseInternal]
  split
  · rfl
  · split
    · exact family_packet env _ _ _ c
    · exact family_pump env _

/-- A listener that `net_tcp_pump` looks at goes on listening. -/
theorem pump_listen (env : TcpEnv) {c : TcpCtx} (hs : c.sock.state = .listen)
    (heq : c.sock.sndUna = c.sock.sndNxt) :
    (netTcpPump env c).sock.used = c.sock.used ∧ (netTcpPump env c).sock.state = .listen := by
  have hclamp : (c.update (pumpClampMss env)).sock.core = c.sock.core := pumpClampMss_core _ _
  have hst : (c.update (pumpClampMss env)).sock.state = .listen := by
    rw [show (c.update (pumpClampMss env)).sock.state =
      (c.update (pumpClampMss env)).sock.core.state from rfl, hclamp]
    exact hs
  have hfl :
      (c.update (pumpClampMss env)).sock.sndNxt = (c.update (pumpClampMss env)).sock.sndUna := by
    rw [show (c.update (pumpClampMss env)).sock.sndNxt =
      (c.update (pumpClampMss env)).sock.core.sndNxt from rfl,
      show (c.update (pumpClampMss env)).sock.sndUna =
      (c.update (pumpClampMss env)).sock.core.sndUna from rfl, hclamp]
    exact heq.symm
  have hr : pumpRetransmit env (c.update (pumpClampMss env)) =
      (c.update (pumpClampMss env), false) := by
    rw [pumpRetransmit]
    simp [hst, hfl, TcpState.isSyn, TcpState.isFin]
  rw [netTcpPump, netTcpPumpFuel]
  simp only [hs, reduceCtorEq, false_and, if_false, TcpState.connected, Bool.false_and,
    Bool.false_eq_true, hr, hst]
  by_cases hu : c.sock.used = true
  · simp only [hu, Bool.not_true, Bool.false_eq_true, if_false, ne_eq, reduceCtorEq,
      not_false_eq_true, and_self, if_true]
    refine ⟨?_, hst⟩
    rw [show (c.update (pumpClampMss env)).sock.used =
      (c.update (pumpClampMss env)).sock.core.used from rfl, hclamp]
    exact hu
  · simp only [hu, Bool.not_false, if_true]
    exact ⟨trivial, hs⟩

end TcpCtx

/-! ### Endpoints -/

namespace NetAddress

/-- Two endpoints of one family take some packet in common: the ports are equal, the interfaces are
equal or one is left open, the addresses are equal or one is left open. -/
def Overlaps (a b : NetAddress) : Prop :=
  a.port = b.port ∧
    (a.interface = netNone ∨ b.interface = netNone ∨ a.interface = b.interface) ∧
    (netZero a.bytes (netAddrBytes a.family) = true ∨
      netZero b.bytes (netAddrBytes a.family) = true ∨
      netEqual a.bytes b.bytes (netAddrBytes a.family) = true)

/-- Every packet of `b` is one of `a`. -/
def Covers (a b : NetAddress) : Prop :=
  a.port = b.port ∧ (a.interface = netNone ∨ a.interface = b.interface) ∧
    (netZero a.bytes (netAddrBytes a.family) = true ∨
      netEqual a.bytes b.bytes (netAddrBytes a.family) = true)

variable {a b c : NetAddress}

/-- Two addresses of one family overlap either way. -/
theorem Overlaps.symm (h : a.Overlaps b) (hf : a.family = b.family) : b.Overlaps a := by
  obtain ⟨hp, hi, hb⟩ := h
  rw [Overlaps, ← hf]
  refine ⟨hp.symm, ?_, ?_⟩
  · rcases hi with e | e | e
    · exact Or.inr (Or.inl e)
    · exact Or.inl e
    · exact Or.inr (Or.inr e.symm)
  · rcases hb with e | e | e
    · exact Or.inr (Or.inl e)
    · exact Or.inl e
    · exact Or.inr (Or.inr (netEqual_iff.mpr fun i hi => (netEqual_iff.mp e i hi).symm))

/-- What overlaps a part overlaps the whole. -/
theorem Covers.overlaps (hc : a.Covers b) (hf : a.family = b.family) (h : b.Overlaps c) :
    a.Overlaps c := by
  obtain ⟨hp, hi, hb⟩ := h
  obtain ⟨hp', hi', hb'⟩ := hc
  rw [← hf] at hb
  refine ⟨hp'.trans hp, ?_, ?_⟩
  · rcases hi' with e | e
    · exact Or.inl e
    · rw [e]
      exact hi
  · rcases hb' with e | e
    · exact Or.inl e
    · have he := netEqual_iff.mp e
      rcases hb with e' | e' | e'
      · exact Or.inl (netZero_iff.mpr fun i hi => (he i hi).trans (netZero_iff.mp e' i hi))
      · exact Or.inr (Or.inl e')
      · exact Or.inr (Or.inr (netEqual_iff.mpr fun i hi =>
          (he i hi).trans (netEqual_iff.mp e' i hi)))

end NetAddress

/-- The sockets whose endpoints must not overlap. -/
def NetSocket.Kin (s t : NetSocket) : Prop := s.family = t.family ∧ s.type = t.type

/-- The same interface, local address and port, peer address and port. -/
def NetSocket.SameTuple (s t : NetSocket) : Prop :=
  s.localAddr.interface = t.localAddr.interface ∧ s.localAddr.port = t.localAddr.port ∧
    netEqual s.localAddr.bytes t.localAddr.bytes (netAddrBytes s.family) = true ∧
    s.peer.port = t.peer.port ∧ netEqual s.peer.bytes t.peer.bytes (netAddrBytes s.family) = true

namespace NetState

/-- The invariant of the endpoints. -/
structure Endpoints (σ : NetState) : Prop where
  slot : ∀ i, (σ.sockets i).used = true → i < kNetMaxSockets
  next_lt : σ.next < 2 ^ 32
  id_ne : ∀ i, (σ.sockets i).used = true → (σ.sockets i).id ≠ 0
  id_lt : ∀ i, (σ.sockets i).used = true → σ.next ≠ 0 → (σ.sockets i).id < σ.next
  id_inj : ∀ i j, (σ.sockets i).used = true → (σ.sockets j).used = true →
    (σ.sockets i).id = (σ.sockets j).id → i = j
  family : ∀ i, (σ.sockets i).used = true → (σ.sockets i).localAddr.family = (σ.sockets i).family
  /-- Who waits for `k_net_accept` comes from a passive open. -/
  parent : ∀ i, (σ.sockets i).used = true → (σ.sockets i).parent ≠ 0 → (σ.sockets i).passive = true
  child : ∀ i, (σ.sockets i).used = true → (σ.sockets i).passive = true →
    (σ.sockets i).type = .tcp ∧ (σ.sockets i).peer.port ≠ 0 ∧
      (σ.sockets i).localAddr.interface ≠ netNone ∧
      netZero (σ.sockets i).localAddr.bytes (netAddrBytes (σ.sockets i).family) = false
  /-- Who waits for `k_net_accept` has its listener, whose endpoint contains its own. -/
  listener : ∀ i, (σ.sockets i).used = true → (σ.sockets i).parent ≠ 0 →
    ∃ l, (σ.sockets l).used = true ∧ (σ.sockets l).id = (σ.sockets i).parent ∧
      (σ.sockets l).state = .listen ∧ (σ.sockets l).passive = false ∧
      (σ.sockets l).Kin (σ.sockets i) ∧ (σ.sockets l).localAddr.Covers (σ.sockets i).localAddr
  apart : ∀ i j, i ≠ j → (σ.sockets i).used = true → (σ.sockets j).used = true →
    (σ.sockets i).Kin (σ.sockets j) → (σ.sockets i).passive = false →
    (σ.sockets j).passive = false → (σ.sockets i).localAddr.port ≠ 0 →
    ¬(σ.sockets i).localAddr.Overlaps (σ.sockets j).localAddr
  /-- Only a listener shares its endpoint with sockets from a passive open. -/
  shared : ∀ i j, (σ.sockets i).used = true → (σ.sockets j).used = true →
    (σ.sockets i).Kin (σ.sockets j) → (σ.sockets i).passive = false →
    (σ.sockets j).passive = true → (σ.sockets i).localAddr.port ≠ 0 →
    (σ.sockets i).localAddr.Overlaps (σ.sockets j).localAddr → (σ.sockets i).state = .listen
  pairs : ∀ i j, i ≠ j → (σ.sockets i).used = true → (σ.sockets j).used = true →
    (σ.sockets i).Kin (σ.sockets j) → (σ.sockets i).passive = true →
    (σ.sockets j).passive = true → ¬(σ.sockets i).SameTuple (σ.sockets j)

end NetState

/-- What a call on a connection leaves of a socket. -/
structure NetSocket.Keeps (s s' : NetSocket) : Prop where
  used : s'.used = true → s.used = true
  id : s'.id = s.id
  type : s'.type = s.type
  family : s'.family = s.family
  parent : s'.parent ≠ 0 → s'.parent = s.parent
  passive : s'.passive = s.passive
  localAddr : s'.localAddr = s.localAddr
  peer : s'.peer = s.peer
  listen : s.used = true → s.state = .listen → s'.used = true ∧ s'.state = .listen

theorem NetSocket.Keeps.refl (s : NetSocket) : s.Keeps s :=
  ⟨fun h => h, rfl, rfl, rfl, fun _ => rfl, rfl, rfl, rfl, fun h h' => ⟨h, h'⟩⟩

/-- What the rest of the networking code sees to about the interfaces: there are at most
`K_NET_MAX_IF` of them, `k_net_attach` and the router advertisements bound the MTU from below, and
an interface becomes ready only with an address. -/
structure NetWorld.Valid (w : NetWorld) : Prop where
  count : w.devices.length ≤ 8
  mtu : w.MtuOk
  ready4 : ∀ d ∈ w.devices, d.ready4 = true → netZero d.address 4 = false
  ready6 : ∀ d ∈ w.devices, d.ready6 = true → netZero d.linkLocal6 16 = false

/-- An address of an interface is not the open one. -/
theorem NetWorld.Valid.local_ne {w : NetWorld} (hw : w.Valid) {d : NetDevice} (hd : d ∈ w.devices)
    {family : Nat} {a : Bytes} (hl : netLocal d family a = true) :
    netZero a (netAddrBytes family) = false := by
  have hequal : ∀ {b : Bytes} {n : Nat}, netEqual a b n = true → netZero b n = false →
      netZero a n = false := by
    intro b n he hz
    rw [← hz, Bool.eq_iff_iff, netZero_iff, netZero_iff]
    exact forall₂_congr fun i hi => by rw [netEqual_iff.mp he i hi]
  rw [netLocal] at hl
  rw [netAddrBytes]
  split at hl
  · rename_i h4
    rw [if_pos h4]
    simp only [Bool.and_eq_true] at hl
    exact hequal hl.2 (hw.ready4 d hd hl.1)
  · rename_i h4
    rw [if_neg h4]
    simp only [Bool.and_eq_true, Bool.or_eq_true, Bool.not_eq_true'] at hl
    rcases hl.2 with he | ⟨⟨-, hz⟩, he⟩
    · exact hequal he (hw.ready6 d hd hl.1)
    · exact hequal he hz

namespace NetState.Endpoints

variable {σ σ' : NetState} {i : Nat}

/-- A step that keeps what the tuples are made of keeps the invariant. -/
theorem keeps (h : σ.Endpoints) (hk : ∀ j, (σ.sockets j).Keeps (σ'.sockets j))
    (hn : σ'.next = σ.next) : σ'.Endpoints := by
  have hkin : ∀ {a b : Nat}, (σ'.sockets a).Kin (σ'.sockets b) →
      (σ.sockets a).Kin (σ.sockets b) := by
    intro a b hab
    rw [NetSocket.Kin, (hk a).family, (hk a).type, (hk b).family, (hk b).type] at hab
    exact hab
  constructor
  case slot => exact fun i hu => h.slot i ((hk i).used hu)
  case next_lt => exact hn ▸ h.next_lt
  case id_ne =>
      intro i hu
      rw [(hk i).id]
      exact h.id_ne i ((hk i).used hu)
  case id_lt =>
      intro i hu hnz
      rw [(hk i).id, hn]
      exact h.id_lt i ((hk i).used hu) (hn ▸ hnz)
  case id_inj =>
      intro i j hu hu' he
      rw [(hk i).id, (hk j).id] at he
      exact h.id_inj i j ((hk i).used hu) ((hk j).used hu') he
  case family =>
      intro i hu
      rw [(hk i).localAddr, (hk i).family]
      exact h.family i ((hk i).used hu)
  case parent =>
      intro i hu hp
      rw [(hk i).passive]
      exact h.parent i ((hk i).used hu) ((hk i).parent hp ▸ hp)
  case child =>
      intro i hu hp
      rw [(hk i).type, (hk i).peer, (hk i).localAddr, (hk i).family]
      exact h.child i ((hk i).used hu) ((hk i).passive ▸ hp)
  case listener =>
      intro i hu hp
      have hpar := (hk i).parent hp
      obtain ⟨l, h₁, h₂, h₃, h₄, h₅, h₆⟩ := h.listener i ((hk i).used hu) (hpar ▸ hp)
      obtain ⟨h₁', h₃'⟩ := (hk l).listen h₁ h₃
      refine ⟨l, h₁', ?_, h₃', ?_, ?_, ?_⟩
      · rw [(hk l).id, hpar]
        exact h₂
      · rw [(hk l).passive]
        exact h₄
      · rw [NetSocket.Kin, (hk l).family, (hk l).type, (hk i).family, (hk i).type]
        exact h₅
      · rw [(hk l).localAddr, (hk i).localAddr]
        exact h₆
  case apart =>
      intro i j hne hi hj hij hpi hpj
      rw [(hk i).localAddr, (hk j).localAddr]
      exact h.apart i j hne ((hk i).used hi) ((hk j).used hj) (hkin hij) ((hk i).passive ▸ hpi)
        ((hk j).passive ▸ hpj)
  case shared =>
      intro i j hi hj hij hpi hpj hport ho
      rw [(hk i).localAddr] at hport ho
      rw [(hk j).localAddr] at ho
      exact ((hk i).listen ((hk i).used hi) (h.shared i j ((hk i).used hi) ((hk j).used hj)
        (hkin hij) ((hk i).passive ▸ hpi) ((hk j).passive ▸ hpj) hport ho)).2
  case pairs =>
      intro i j hne hi hj hij hpi hpj hst
      rw [NetSocket.SameTuple, (hk i).localAddr, (hk j).localAddr, (hk i).peer, (hk j).peer,
        (hk i).family] at hst
      exact h.pairs i j hne ((hk i).used hi) ((hk j).used hj) (hkin hij) ((hk i).passive ▸ hpi)
        ((hk j).passive ▸ hpj) hst

/-- A change of one slot. -/
theorem keepsAt (h : σ.Endpoints) {f : NetSocket → NetSocket}
    (hf : (σ.sockets i).Keeps (f (σ.sockets i))) : (σ.modify i f).Endpoints := by
  refine h.keeps (fun j => ?_) rfl
  rcases eq_or_ne j i with rfl | hne
  · rw [modify_self]
    exact hf
  · rw [modify_ne f hne]
    exact NetSocket.Keeps.refl _

/-- A change of the TCP part of one slot that is in use. -/
theorem onTcp (h : σ.Endpoints) (hu : (σ.sockets i).used = true) {f : TcpSocket → TcpSocket}
    (hfam : (f (σ.sockets i).tcp).family = (σ.sockets i).family)
    (hl : (σ.sockets i).state = .listen →
      (f (σ.sockets i).tcp).used = true ∧ (f (σ.sockets i).tcp).state = .listen) :
    (σ.onTcp i f).Endpoints :=
  h.keepsAt ⟨fun _ => hu, rfl, rfl, hfam, fun _ => rfl, rfl, rfl, rfl, fun _ => hl⟩

/-- A socket is given up: one that no waiting socket has as its listener. -/
theorem free (h : σ.Endpoints) (hno : (σ.sockets i).used = true → (σ.sockets i).state = .listen →
    ∀ j, (σ.sockets j).used = true → (σ.sockets j).parent ≠ (σ.sockets i).id) :
    (σ.free i).Endpoints := by
  have hself : (σ.free i).sockets i = { σ.sockets i with
      tcp := { (σ.sockets i).tcp with used := false } } := onTcp_self _
  have hother : ∀ j, j ≠ i → (σ.free i).sockets j = σ.sockets j := fun j hne => onTcp_ne _ hne
  have hused : ∀ j, ((σ.free i).sockets j).used = true → j ≠ i ∧ (σ.sockets j).used = true := by
    intro j hu
    rcases eq_or_ne j i with rfl | hne
    · rw [hself] at hu
      cases hu
    · rw [hother j hne] at hu
      exact ⟨hne, hu⟩
  have hs : ∀ j, ((σ.free i).sockets j).used = true → (σ.free i).sockets j = σ.sockets j :=
    fun j hu => hother j (hused j hu).1
  constructor
  case slot => exact fun j hu => h.slot j (hused j hu).2
  case next_lt => exact h.next_lt
  case id_ne => exact fun j hu => by rw [hs j hu]; exact h.id_ne j (hused j hu).2
  case id_lt => exact fun j hu hz => by rw [hs j hu]; exact h.id_lt j (hused j hu).2 hz
  case id_inj =>
      intro a b ha hb he
      rw [hs a ha, hs b hb] at he
      exact h.id_inj a b (hused a ha).2 (hused b hb).2 he
  case family => exact fun j hu => by rw [hs j hu]; exact h.family j (hused j hu).2
  case parent => exact fun j hu => by rw [hs j hu]; exact h.parent j (hused j hu).2
  case child => exact fun j hu => by rw [hs j hu]; exact h.child j (hused j hu).2
  case listener =>
      intro j hu hp
      rw [hs j hu] at hp ⊢
      obtain ⟨l, h₁, h₂, h₃, h₄⟩ := h.listener j (hused j hu).2 hp
      -- the listener of a waiting socket is not the one that is given up
      have hne : l ≠ i := by
        rintro rfl
        exact hno h₁ h₃ j (hused j hu).2 h₂.symm
      refine ⟨l, ?_⟩
      rw [hother l hne]
      exact ⟨h₁, h₂, h₃, h₄⟩
  case apart =>
      intro a b hne ha hb
      rw [hs a ha, hs b hb]
      exact h.apart a b hne (hused a ha).2 (hused b hb).2
  case shared =>
      intro a b ha hb
      rw [hs a ha, hs b hb]
      exact h.shared a b (hused a ha).2 (hused b hb).2
  case pairs =>
      intro a b hne ha hb
      rw [hs a ha, hs b hb]
      exact h.pairs a b hne (hused a ha).2 (hused b hb).2

/-! ### Binding -/

/-- What overlaps no kin can be taken as an endpoint. -/
theorem relocate (h : σ.Endpoints) (hu : (σ.sockets i).used = true)
    (hpas : (σ.sockets i).passive = false)
    (hst : (σ.sockets i).state = .listen → (σ.sockets i).type ≠ .tcp)
    {f : NetSocket → NetSocket} {s' : NetSocket} (he : f (σ.sockets i) = s')
    (hid : s'.id = (σ.sockets i).id) (htype : s'.type = (σ.sockets i).type)
    (hfam : s'.family = (σ.sockets i).family) (hpar : s'.parent = (σ.sockets i).parent)
    (hp' : s'.passive = (σ.sockets i).passive)
    (hloc : s'.localAddr.family = s'.family)
    (hfree : s'.localAddr.port ≠ 0 → ∀ j, j ≠ i → (σ.sockets j).used = true →
      (σ.sockets i).Kin (σ.sockets j) → ¬s'.localAddr.Overlaps (σ.sockets j).localAddr) :
    (σ.modify i f).Endpoints := by
  have hself : (σ.modify i f).sockets i = s' := (modify_self f).trans he
  have hother : ∀ j, j ≠ i → (σ.modify i f).sockets j = σ.sockets j := fun j hne => modify_ne f hne
  have hwas : ∀ j, ((σ.modify i f).sockets j).used = true → (σ.sockets j).used = true := by
    intro j hj
    rcases eq_or_ne j i with rfl | hne
    · exact hu
    · rwa [hother j hne] at hj
  have hsame : ∀ j, ((σ.modify i f).sockets j).id = (σ.sockets j).id ∧
      ((σ.modify i f).sockets j).type = (σ.sockets j).type ∧
      ((σ.modify i f).sockets j).family = (σ.sockets j).family ∧
      ((σ.modify i f).sockets j).parent = (σ.sockets j).parent ∧
      ((σ.modify i f).sockets j).passive = (σ.sockets j).passive := by
    intro j
    rcases eq_or_ne j i with rfl | hne
    · rw [hself]
      exact ⟨hid, htype, hfam, hpar, hp'⟩
    · rw [hother j hne]
      exact ⟨rfl, rfl, rfl, rfl, rfl⟩
  have hkin : ∀ a b, ((σ.modify i f).sockets a).Kin ((σ.modify i f).sockets b) →
      (σ.sockets a).Kin (σ.sockets b) := by
    intro a b hab
    rwa [NetSocket.Kin, (hsame a).2.1, (hsame a).2.2.1, (hsame b).2.1, (hsame b).2.2.1] at hab
  -- the pairs that hold `i` have no overlap at all
  have hnone : ∀ j, j ≠ i → (σ.sockets j).used = true → (σ.sockets i).Kin (σ.sockets j) →
      s'.localAddr.port ≠ 0 → ¬s'.localAddr.Overlaps (σ.sockets j).localAddr :=
    fun j hne hj hk hport => hfree hport j hne hj hk
  constructor
  case slot => exact fun j hj => h.slot j (hwas j hj)
  case next_lt => exact h.next_lt
  case id_ne => exact fun j hj => by rw [(hsame j).1]; exact h.id_ne j (hwas j hj)
  case id_lt => exact fun j hj hz => by rw [(hsame j).1]; exact h.id_lt j (hwas j hj) hz
  case id_inj =>
      intro a b ha hb hab
      rw [(hsame a).1, (hsame b).1] at hab
      exact h.id_inj a b (hwas a ha) (hwas b hb) hab
  case family =>
      intro j hj
      rcases eq_or_ne j i with rfl | hne
      · rw [hself]
        exact hloc
      · rw [hother j hne]
        exact h.family j (hwas j hj)
  case parent =>
      intro j hj hp
      rw [(hsame j).2.2.2.2]
      exact h.parent j (hwas j hj) ((hsame j).2.2.2.1 ▸ hp)
  case child =>
      intro j hj hp
      have hne : j ≠ i := by
        rintro rfl
        rw [(hsame j).2.2.2.2, hpas] at hp
        cases hp
      rw [hother j hne] at hp ⊢
      exact h.child j (hwas j hj) hp
  case listener =>
      intro j hj hp
      rw [(hsame j).2.2.2.1] at hp
      obtain ⟨l, h₁, h₂, h₃, h₄⟩ := h.listener j (hwas j hj) hp
      have hjt := (h.child j (hwas j hj) (h.parent j (hwas j hj) hp)).1
      have hli : l ≠ i := by
        rintro rfl
        exact hst h₃ (h₄.2.1.2.trans hjt)
      have hji : j ≠ i := by
        rintro rfl
        have := h.parent j hu hp
        rw [hpas] at this
        cases this
      refine ⟨l, ?_⟩
      rw [hother l hli, hother j hji]
      exact ⟨h₁, h₂, h₃, h₄⟩
  case apart =>
      intro a b hne ha hb hab hpa hpb hport ho
      have hk := hkin a b hab
      rw [(hsame a).2.2.2.2] at hpa
      rw [(hsame b).2.2.2.2] at hpb
      rcases eq_or_ne a i with rfl | hai
      · rw [hself] at hport ho
        rw [hother b (Ne.symm hne)] at ho
        exact hnone b (Ne.symm hne) (hwas b hb) hk hport ho
      · rcases eq_or_ne b i with rfl | hbi
        · rw [hother a hai] at hport ho
          rw [hself] at ho
          have hfam' : (σ.sockets a).localAddr.family = s'.localAddr.family := by
            rw [h.family a (hwas a ha), hloc, hfam]
            exact hk.1
          refine hnone a hai (hwas a ha) ⟨hk.1.symm, hk.2.symm⟩ ?_ (ho.symm hfam')
          rw [← ho.1]
          exact hport
        · rw [hother a hai] at hport ho
          rw [hother b hbi] at ho
          exact h.apart a b hne (hwas a ha) (hwas b hb) hk hpa hpb hport ho
  case shared =>
      intro a b ha hb hab hpa hpb hport ho
      have hk := hkin a b hab
      rw [(hsame a).2.2.2.2] at hpa
      rw [(hsame b).2.2.2.2] at hpb
      have hbi : b ≠ i := by
        rintro rfl
        rw [hpas] at hpb
        cases hpb
      rcases eq_or_ne a i with rfl | hai
      · rw [hself] at hport ho
        rw [hother b hbi] at ho
        exact absurd ho (hnone b hbi (hwas b hb) hk hport)
      · rw [hother a hai] at hport ho ⊢
        rw [hother b hbi] at ho
        exact h.shared a b (hwas a ha) (hwas b hb) hk hpa hpb hport ho
  case pairs =>
      intro a b hne ha hb hab hpa hpb
      have hai : a ≠ i := by
        rintro rfl
        rw [(hsame a).2.2.2.2, hpas] at hpa
        cases hpa
      have hbi : b ≠ i := by
        rintro rfl
        rw [(hsame b).2.2.2.2, hpas] at hpb
        cases hpb
      rw [hother a hai, hother b hbi]
      rw [hother a hai] at hpa
      rw [hother b hbi] at hpb
      exact h.pairs a b hne (hwas a ha) (hwas b hb) (hkin a b hab) hpa hpb

/-- What `net_port_busy` says about the sockets that do not wait for `k_net_accept`. -/
theorem not_busy {a : NetAddress} (hb : σ.netPortBusy i a = false) {j : Nat}
    (hj : j < kNetMaxSockets) (hne : j ≠ i) (hu : (σ.sockets j).used = true)
    (hp : (σ.sockets j).parent = 0) (hk : (σ.sockets i).Kin (σ.sockets j)) :
    ¬a.Overlaps (σ.sockets j).localAddr := by
  intro ho
  obtain ⟨hport, hif, hby⟩ := ho
  rw [netPortBusy, List.any_eq_false] at hb
  refine hb j (List.mem_range.mpr hj) ?_
  simp only [Bool.and_eq_true, Bool.or_eq_true, beq_iff_eq, bne_iff_ne]
  refine ⟨⟨⟨⟨⟨⟨⟨hu, hne⟩, hp⟩, hk.1.symm⟩, hk.2.symm⟩, hport.symm⟩, ?_⟩, ?_⟩
  · rcases hif with e | e | e
    · exact Or.inl (Or.inr e)
    · exact Or.inl (Or.inl e)
    · exact Or.inr e.symm
  · rcases hby with e | e | e
    · exact Or.inl (Or.inl e)
    · exact Or.inl (Or.inr e)
    · exact Or.inr e

/-- An endpoint that is not busy overlaps no kin: whoever waits for `k_net_accept` has its listener
around it. -/
theorem not_busy_kin (h : σ.Endpoints)
    (hst : (σ.sockets i).state = .listen → (σ.sockets i).type ≠ .tcp) {a : NetAddress}
    (haf : a.family = (σ.sockets i).family) (hb : σ.netPortBusy i a = false) {j : Nat}
    (hne : j ≠ i) (hu : (σ.sockets j).used = true) (hk : (σ.sockets i).Kin (σ.sockets j)) :
    ¬a.Overlaps (σ.sockets j).localAddr := by
  by_cases hp : (σ.sockets j).parent = 0
  · exact not_busy hb (h.slot j hu) hne hu hp hk
  · obtain ⟨l, h₁, -, h₃, h₄, h₅, h₆⟩ := h.listener j hu hp
    have hjt := (h.child j hu (h.parent j hu hp)).1
    have hli : l ≠ i := by
      rintro rfl
      exact hst h₃ (h₅.2.trans hjt)
    have hlp : (σ.sockets l).parent = 0 := by
      by_contra hne
      have := h.parent l h₁ hne
      rw [h₄] at this
      cases this
    have hkl : (σ.sockets i).Kin (σ.sockets l) := ⟨hk.1.trans h₅.1.symm, hk.2.trans h₅.2.symm⟩
    have hlf : (σ.sockets l).localAddr.family = (σ.sockets j).localAddr.family := by
      rw [h.family l h₁, h.family j hu]
      exact h₅.1
    have haj : a.family = (σ.sockets j).localAddr.family := by
      rw [haf, h.family j hu]
      exact hk.1
    intro ho
    refine not_busy hb (h.slot l h₁) hli h₁ hlp hkl ?_
    exact (h₆.overlaps hlf (ho.symm haj)).symm (hlf.trans haj.symm)

/-- A bound socket that does not listen overlaps no kin. -/
theorem alone (h : σ.Endpoints) (hu : (σ.sockets i).used = true)
    (hpas : (σ.sockets i).passive = false)
    (hst : (σ.sockets i).state = .listen → (σ.sockets i).type ≠ .tcp)
    (hport : (σ.sockets i).localAddr.port ≠ 0) {j : Nat} (hne : j ≠ i)
    (hj : (σ.sockets j).used = true) (hk : (σ.sockets i).Kin (σ.sockets j)) :
    ¬(σ.sockets i).localAddr.Overlaps (σ.sockets j).localAddr := by
  cases hp : (σ.sockets j).passive with
  | false => exact h.apart i j (Ne.symm hne) hu hj hk hpas hp hport
  | true =>
      exact fun ho => hst (h.shared i j hu hj hk hpas hp hport ho) (hk.2.trans (h.child j hj hp).1)

/-- `net_autobind` takes a free port. -/
theorem autobind (h : σ.Endpoints) (w : NetWorld) (hu : (σ.sockets i).used = true)
    (hpas : (σ.sockets i).passive = false)
    (hst : (σ.sockets i).state = .listen → (σ.sockets i).type ≠ .tcp) :
    (σ.netAutobind w i).2.Endpoints := by
  have hset : ∀ port, (port ≠ 0 →
      σ.netPortBusy i { (σ.sockets i).localAddr with port := port } = false) →
      (σ.setPort i port).Endpoints := by
    intro port hb
    refine h.relocate hu hpas hst rfl rfl rfl rfl rfl rfl (h.family i hu)
      fun hport j hne hj hk => ?_
    exact h.not_busy_kin hst (a := { (σ.sockets i).localAddr with port := port }) (h.family i hu)
      (hb hport) hne hj hk
  rcases netAutobind_cases w i σ with ⟨e, -⟩ | ⟨port, e, -, hb⟩ | e
  · rw [e]
    exact h
  · rw [e]
    exact hset port fun _ => hb
  · rw [e]
    exact hset 0 fun hz => absurd rfl hz

/-- `net_autobind` succeeds with a port. -/
theorem autobind_port (w : NetWorld) {σ' : NetState} (e : σ.netAutobind w i = (.ok (), σ')) :
    (σ'.sockets i).localAddr.port ≠ 0 ∧
      (σ'.sockets i).localAddr.interface = (σ.sockets i).localAddr.interface ∧
      (σ'.sockets i).localAddr.bytes = (σ.sockets i).localAddr.bytes := by
  rcases netAutobind_cases w i σ with ⟨e', hp⟩ | ⟨port, e', hp, -⟩ | e'
  · rw [e'] at e
    cases e
    exact ⟨hp, rfl, rfl⟩
  · rw [e'] at e
    cases e
    rw [setPort, modify_self]
    exact ⟨hp, rfl, rfl⟩
  · rw [e'] at e
    cases e

/-- The socket of a handle is in use and attached. -/
theorem owned {w : NetWorld} {hd : Nat} (h : σ.netSocketOwned w hd = some i) :
    (σ.sockets i).used = true ∧ (σ.sockets i).tcp.detached = false := by
  have hp := (find_some h).2
  simp only [Bool.and_eq_true, Bool.not_eq_true', beq_iff_eq] at hp
  exact ⟨hp.1.1.1, hp.1.2⟩

/-- A socket that has no peer does not come from a passive open. -/
theorem not_passive (h : σ.Endpoints) (hs : σ.SocketsOk) (hu : (σ.sockets i).used = true)
    (hst : (σ.sockets i).state = .new ∨ (σ.sockets i).state = .bound ∨
      (σ.sockets i).state = .listen) : (σ.sockets i).passive = false := by
  cases hp : (σ.sockets i).passive with
  | false => rfl
  | true =>
      obtain ⟨ht, hport, -⟩ := h.child i hu hp
      have hph := (hs i ht).counted.phase hu
      have hk : (σ.sockets i).tcp.core.state = (σ.sockets i).state := rfl
      rw [TcpCore.Phase, hk] at hph
      rcases hst with e | e | e
      all_goals
        rw [e] at hph
        exact absurd hph.1 hport

/-- `k_net_bind` keeps the endpoints apart. -/
theorem bind (h : σ.Endpoints) (hs : σ.SocketsOk) (w : NetWorld) (hd : Nat) (a : NetAddress) :
    (σ.kNetBind w hd a).2.Endpoints := by
  rw [kNetBind]
  split
  · exact h
  · split
    · exact h
    · rename_i i hown
      obtain ⟨hu, -⟩ := owned hown
      dsimp only
      split
      · exact h
      · rename_i hst
        have hfam : a.family = (σ.sockets i).family := by_contra fun hne => hst (Or.inl hne)
        have hnew : (σ.sockets i).state = .new := by_contra fun hne => hst (Or.inr hne)
        have hnl : (σ.sockets i).state ≠ .listen := by
          rw [hnew]
          decide
        have hpas := h.not_passive hs hu (Or.inl hnew)
        split
        · exact h
        · split
          · exact h
          · split
            · exact h
            · rename_i hbusy
              have hl : (σ.modify i fun s => { s with localAddr := a }).Endpoints := by
                refine h.relocate hu hpas (fun e => absurd e hnl) rfl rfl rfl rfl rfl rfl hfam
                  fun hport j hne hj hk => ?_
                refine h.not_busy_kin (fun e => absurd e hnl) hfam ?_ hne hj hk
                have hb : ¬σ.netPortBusy i a = true := fun hb => hbusy ⟨hport, hb⟩
                simpa using hb
              have hself : (σ.modify i fun s => { s with localAddr := a }).sockets i =
                  { σ.sockets i with localAddr := a } := modify_self _
              have hb :=
                hl.autobind (i := i) w (by rw [hself]; exact hu) (by rw [hself]; exact hpas)
                (by rw [hself]; exact fun e => absurd e hnl)
              obtain ⟨b, hi⟩ :=
                netAutobind_sockets w i (σ.modify i fun s => { s with localAddr := a }) i
              rw [hself] at hi
              split
              · rename_i e
                rw [e] at hb
                exact hb
              · rename_i e
                rw [e] at hb hi
                dsimp only at hb hi ⊢
                refine hb.onTcp (by rw [hi]; exact hu) rfl fun hl => ?_
                rw [hi] at hl
                exact absurd hl hnl

theorem listen (h : σ.Endpoints) (hs : σ.SocketsOk) (w : NetWorld) (hd backlog : Nat) :
    (σ.kNetListen w hd backlog).2.Endpoints := by
  rw [kNetListen]
  split
  · exact h
  · split
    · exact h
    · rename_i i hown
      obtain ⟨hu, -⟩ := owned hown
      dsimp only
      split
      · exact h
      · rename_i hst
        have hidle : (σ.sockets i).state = .new ∨ (σ.sockets i).state = .bound :=
          by_contra fun hne => hst (Or.inr ⟨fun e => hne (Or.inl e), fun e => hne (Or.inr e)⟩)
        have hnl : (σ.sockets i).state ≠ .listen := by
          rcases hidle with e | e <;> rw [e] <;> decide
        have hpas := h.not_passive hs hu (hidle.imp_right Or.inl)
        have hb := h.autobind w hu hpas fun e => absurd e hnl
        obtain ⟨b, hi⟩ := netAutobind_sockets w i σ i
        split
        · rename_i e
          rw [e] at hb
          exact hb
        · rename_i e
          rw [e] at hb hi
          dsimp only at hb hi ⊢
          refine hb.keepsAt ?_
          rw [hi]
          exact ⟨fun _ => hu, rfl, rfl, rfl, fun _ => rfl, rfl, rfl, rfl, fun _ hl => absurd hl hnl⟩

/-! ### Connecting -/

end NetState.Endpoints

/-- Where `k_net_connect` moves a bound socket to another interface, `net_port_busy` finds the
endpoint there free: the interface and the address that `net_route` gives, and the port that the
socket has, or that `net_autobind` gives it. -/
def NetState.MovesFree (σ : NetState) (w : NetWorld) (hd : Nat) (peer : NetAddress) : Prop :=
  ∀ i id source σ₁,
    ¬(!netAddressOk w peer || peer.port == 0 || netZero peer.bytes (netAddrBytes peer.family) ||
      netMulticast peer.family peer.bytes) = true →
    σ.netSocketOwned w hd = some i → (σ.sockets i).family = peer.family →
    (σ.sockets i).state = .new ∨ (σ.sockets i).state = .bound →
    (σ.sockets i).localAddr.interface ≠ netNone →
    netRoute w peer (σ.sockets i).localAddr.interface = .ok (id, source) →
    id ≠ (σ.sockets i).localAddr.interface → σ.netAutobind w i = (.ok (), σ₁) →
    netZero (σ.sockets i).localAddr.bytes (netAddrBytes (σ.sockets i).family) = true ∨
      netEqual (σ.sockets i).localAddr.bytes source (netAddrBytes (σ.sockets i).family) = true →
    σ₁.netPortBusy i { (σ₁.sockets i).localAddr with interface := id, bytes := source } = false

namespace NetState.Endpoints

variable {σ σ' : NetState} {i : Nat}

/-- With an interface to go by, `net_route` takes it. -/
theorem routeLoop_preferred {dest : NetAddress} {preferred : Nat} (hp : preferred ≠ netNone)
    {l : List NetDevice} :
    ∀ {k : Nat} {fallback : Option (Nat × Bytes)} {id : Nat} {source : Bytes},
    (∀ r, fallback = some r → r.1 = preferred) →
    routeLoop dest preferred l k fallback = some (id, source) → id = preferred := by
  induction l with
  | nil => exact fun hf h => hf _ h
  | cons d l ih =>
      intro k fallback id source hf h
      rw [routeLoop] at h
      split at h
      · exact ih hf h
      · rename_i hk
        have hk' : k = preferred := by_contra fun hne => hk ⟨hp, hne⟩
        dsimp only at h
        split at h
        · cases h
          exact hk'
        · refine ih (fun r hr => ?_) h
          split at hr
          · cases hr
            exact hk'
          · exact hf r hr

/-- Where the caller names no interface of its own, a bound socket stays on its interface. -/
theorem netRoute_stays {w : NetWorld} {dest : NetAddress} {bound id : Nat} {source : Bytes}
    (hs : dest.interface = netNone ∨ bound = netNone ∨ dest.interface = bound)
    (hr : netRoute w dest bound = .ok (id, source)) : bound = netNone ∨ id = bound := by
  by_cases hb : bound = netNone
  · exact Or.inl hb
  · right
    have hpre : (if dest.interface ≠ netNone then dest.interface else bound) = bound := by
      rcases hs with e | e | e
      · rw [if_neg (not_not_intro e)]
      · exact absurd e hb
      · rw [e]
        exact ite_self _
    rw [netRoute] at hr
    rw [hpre] at hr
    split at hr
    · cases hr
    · split at hr
      · cases hr
      · rename_i hl
        cases hr
        exact routeLoop_preferred hb (fun r e => by cases e) hl

/-- A connection that names no interface, or the one the socket is bound to, moves nothing. -/
theorem movesFree_of_stays {w : NetWorld} {hd : Nat} {peer : NetAddress}
    (hs : ∀ i, σ.netSocketOwned w hd = some i → peer.interface = netNone ∨
      (σ.sockets i).localAddr.interface = netNone ∨
        peer.interface = (σ.sockets i).localAddr.interface) : σ.MovesFree w hd peer := by
  intro i id source σ₁ _ hown _ _ hne hroute hid _ _
  exact absurd ((netRoute_stays (hs i hown) hroute).resolve_left hne) hid

/-- A socket takes the routed endpoint, which overlaps no kin. -/
theorem connectTo (h : σ.Endpoints) (w : NetWorld) (hs : σ.SocketsOk)
    (hu : (σ.sockets i).used = true)
    (hidle : (σ.sockets i).state = .new ∨ (σ.sockets i).state = .bound)
    {id : Nat} {source : Bytes} {peer : NetAddress}
    (hfree : ∀ j, j ≠ i → (σ.sockets j).used = true → (σ.sockets i).Kin (σ.sockets j) →
      ¬({ (σ.sockets i).localAddr with interface := id, bytes := source } : NetAddress).Overlaps
        (σ.sockets j).localAddr) :
    (σ.connectTo w i id source peer).Endpoints := by
  have hnl : (σ.sockets i).state ≠ .listen := by
    rcases hidle with e | e <;> rw [e] <;> decide
  have hpas := h.not_passive hs hu (hidle.imp_right Or.inl)
  have hlf := h.family i hu
  rw [NetState.connectTo]
  dsimp only
  generalize hm : (σ.modify i fun s => { s with
    localAddr := { s.localAddr with interface := id, bytes := source }
    peer := { peer with interface := id } }) = σ₁
  have h₁ : σ₁.Endpoints := by
    rw [← hm]
    exact h.relocate hu hpas (fun e => absurd e hnl) rfl rfl rfl rfl rfl rfl hlf fun _ => hfree
  have hself : (σ₁.sockets i).tcp = (σ.sockets i).tcp := by
    rw [← hm, modify_self]
  have hu₁ : (σ₁.sockets i).used = true := by
    rw [NetSocket.used, hself]
    exact hu
  have hnl₁ : (σ₁.sockets i).state ≠ .listen := by
    rw [NetSocket.state, hself]
    exact hnl
  -- a datagram socket is connected at once, a stream socket sends its SYN
  split
  · exact h₁.onTcp hu₁ rfl fun e => absurd e hnl₁
  · generalize hm' : (σ₁.onTcp i fun t => { t with
      iss := w.random 1 % 2 ^ 32, sndUna := w.random 1 % 2 ^ 32
      sndNxt := add32 (w.random 1 % 2 ^ 32) 1, state := .synSent, sentAt := 0 }) = σ₂
    have h₂ : σ₂.Endpoints := by
      rw [← hm']
      exact h₁.onTcp hu₁ rfl fun e => absurd e hnl₁
    have hst₂ : (σ₂.sockets i).state = .synSent ∧ (σ₂.sockets i).used = true := by
      rw [← hm', onTcp_self]
      exact ⟨rfl, hu₁⟩
    rw [netTcpPump]
    split
    · refine h₂.onTcp hst₂.2 (TcpCtx.family_pump _ _) fun e => ?_
      rw [hst₂.1] at e
      cases e
    · exact h₂

/-- `k_net_connect` does where its move finds the endpoint free. -/
theorem connect (h : σ.Endpoints) (hs : σ.SocketsOk) (w : NetWorld) (hd : Nat) (peer : NetAddress)
    (hmove : σ.MovesFree w hd peer) : (σ.kNetConnect w hd peer).2.Endpoints := by
  rw [kNetConnect]
  split
  · exact h
  · rename_i hpeer
    split
    · exact h
    · rename_i i hown
      obtain ⟨hu, -⟩ := owned hown
      dsimp only
      split
      · exact h
      · rename_i hfamily
        split
        · rename_i hidle
          have hnl : (σ.sockets i).state ≠ .listen := by
            rcases hidle with e | e <;> rw [e] <;> decide
          have hpas := h.not_passive hs hu (hidle.imp_right Or.inl)
          split
          · exact h
          · rename_i id source hroute
            have hb := h.autobind w hu hpas fun e => absurd e hnl
            have hsb := hs.autobind (w := w) (i := i)
            obtain ⟨b, hi⟩ := netAutobind_sockets w i σ i
            split
            · rename_i e
              rw [e] at hb
              exact hb
            · rename_i σ₁ e
              obtain ⟨hport, hif, hby⟩ := autobind_port w e
              rw [e] at hb hi hsb
              dsimp only at hb hi hsb ⊢
              split
              · exact hb
              · rename_i hsrc
                have hfam : (σ₁.sockets i).family = (σ.sockets i).family := by rw [hi]; rfl
                have hnl₁ : (σ₁.sockets i).state ≠ .listen := by rw [hi]; exact hnl
                have hu₁ : (σ₁.sockets i).used = true := by rw [hi]; exact hu
                have hsrc' : netZero (σ.sockets i).localAddr.bytes
                    (netAddrBytes (σ.sockets i).family) = true ∨
                    netEqual (σ.sockets i).localAddr.bytes source
                      (netAddrBytes (σ.sockets i).family) = true := by
                  simp only [hby, Bool.and_eq_true, Bool.not_eq_true', not_and,
                    Bool.not_eq_false] at hsrc
                  by_cases hz :
                    netZero (σ.sockets i).localAddr.bytes (netAddrBytes (σ.sockets i).family) = true
                  · exact .inl hz
                  · exact .inr (hsrc (by simpa using hz))
                refine hb.connectTo w hsb hu₁ (by rw [hi]; exact hidle) fun j hne hj hk ho => ?_
                by_cases hid : (σ.sockets i).localAddr.interface = netNone ∨
                    id = (σ.sockets i).localAddr.interface
                · -- the endpoint becomes smaller
                  have hcover : (σ₁.sockets i).localAddr.Covers
                      { (σ₁.sockets i).localAddr with interface := id, bytes := source } := by
                    refine ⟨rfl, ?_, ?_⟩
                    · rw [hif]
                      exact hid.imp_right Eq.symm
                    · rw [hb.family i hu₁, hfam, hby]
                      exact hsrc'
                  exact hb.alone hu₁ (by rw [hi]; exact hpas)
                    (fun e => absurd e hnl₁) hport hne hj hk
                    (hcover.overlaps rfl ho)
                · -- the socket moves, to an endpoint that is not busy
                  rw [not_or] at hid
                  have hfree :=
                    hmove i id source σ₁ hpeer hown (not_not.mp hfamily) hidle hid.1 hroute hid.2 e
                    hsrc'
                  exact hb.not_busy_kin (fun e => absurd e hnl₁)
                    (a := { (σ₁.sockets i).localAddr with interface := id, bytes := source })
                    (hb.family i hu₁) hfree hne hj hk ho
        · split
          · exact h
          · exact h

/-! ### New sockets -/

/-- The slot that `net_socket_new` takes was free, and its id is new. -/
theorem new_slot {w : NetWorld} {family owner : Nat} {type : SockType}
    (hn : σ.netSocketNew w family type owner = some (i, σ')) :
    i < kNetMaxSockets ∧ (σ.sockets i).used = false ∧ σ.next ≠ 0 ∧ σ'.next = add32 σ.next 1 ∧
      σ'.sockets i = freshSocket w family type owner σ.next ∧
      ∀ j, j ≠ i → σ'.sockets j = σ.sockets j := by
  rw [netSocketNew] at hn
  split at hn
  · cases hn
  · rename_i hz
    split at hn
    · cases hn
    · rename_i k hfind
      cases hn
      obtain ⟨hlt, hu⟩ := find_some hfind
      refine ⟨hlt, by simpa using hu, hz, rfl, ?_, fun j hne => ?_⟩
      · exact modify_self (σ := σ) fun _ => freshSocket w family type owner σ.next
      · exact modify_ne (σ := σ) (fun _ => freshSocket w family type owner σ.next) hne

/-- A socket in a slot that was free, with a new id.  It is either unbound, or comes from a passive
open: then its endpoint is part of a listener's, and no socket has its peer already. -/
theorem insert (h : σ.Endpoints) {s' : NetSocket} (hi : i < kNetMaxSockets)
    (hfree : (σ.sockets i).used = false) (hz : σ.next ≠ 0) (hn : σ'.next = add32 σ.next 1)
    (hself : σ'.sockets i = s') (hother : ∀ j, j ≠ i → σ'.sockets j = σ.sockets j)
    (hid : s'.id = σ.next) (hfam : s'.localAddr.family = s'.family)
    (hkind : (s'.passive = false ∧ s'.parent = 0 ∧ s'.localAddr.port = 0) ∨
      (s'.passive = true ∧ (s'.type = .tcp ∧ s'.peer.port ≠ 0 ∧ s'.localAddr.interface ≠ netNone ∧
        netZero s'.localAddr.bytes (netAddrBytes s'.family) = false) ∧
        (∃ l, (σ.sockets l).used = true ∧ (σ.sockets l).id = s'.parent ∧
          (σ.sockets l).state = .listen ∧ (σ.sockets l).passive = false ∧
          (σ.sockets l).Kin s' ∧ (σ.sockets l).localAddr.Covers s'.localAddr) ∧
        ∀ j, (σ.sockets j).used = true → (σ.sockets j).Kin s' → (σ.sockets j).passive = true →
          ¬(σ.sockets j).SameTuple s')) : σ'.Endpoints := by
  have hne : ∀ j, (σ.sockets j).used = true → j ≠ i := by
    rintro j hj rfl
    rw [hfree] at hj
    cases hj
  -- the slot was not in use, so every other socket is an old one
  have hnext := h.next_lt
  have hwas : ∀ j, j ≠ i → (σ'.sockets j).used = true → (σ.sockets j).used = true :=
    fun j hji hj => by rwa [hother j hji] at hj
  constructor
  case slot =>
      intro j hj
      rcases eq_or_ne j i with rfl | hji
      · exact hi
      · exact h.slot j (hwas j hji hj)
  case next_lt =>
      rw [hn]
      exact Nat.mod_lt _ (by decide)
  case id_ne =>
      intro j hj
      rcases eq_or_ne j i with rfl | hji
      · rw [hself, hid]
        exact hz
      · rw [hother j hji]
        exact h.id_ne j (hwas j hji hj)
  case id_lt =>
      intro j hj hz'
      rw [hn, add32] at hz' ⊢
      rcases eq_or_ne j i with rfl | hji
      · rw [hself, hid]
        omega
      · rw [hother j hji]
        have := h.id_lt j (hwas j hji hj) hz
        omega
  case id_inj =>
      intro a b ha hb hab
      rcases eq_or_ne a i with rfl | hai
      · rcases eq_or_ne b a with rfl | hba
        · rfl
        · rw [hself, hother b hba, hid] at hab
          have := h.id_lt b (hwas b hba hb) hz
          omega
      · rcases eq_or_ne b i with rfl | hbi
        · rw [hself, hother a hai, hid] at hab
          have := h.id_lt a (hwas a hai ha) hz
          omega
        · rw [hother a hai, hother b hbi] at hab
          exact h.id_inj a b (hwas a hai ha) (hwas b hbi hb) hab
  case family =>
      intro j hj
      rcases eq_or_ne j i with rfl | hji
      · rw [hself]
        exact hfam
      · rw [hother j hji]
        exact h.family j (hwas j hji hj)
  case parent =>
      intro j hj hp
      rcases eq_or_ne j i with rfl | hji
      · rw [hself] at hp ⊢
        rcases hkind with ⟨-, hp', -⟩ | ⟨hp', -⟩
        · exact absurd hp' hp
        · exact hp'
      · rw [hother j hji] at hp ⊢
        exact h.parent j (hwas j hji hj) hp
  case child =>
      intro j hj hp
      rcases eq_or_ne j i with rfl | hji
      · rw [hself] at hp ⊢
        rcases hkind with ⟨hp', -, -⟩ | ⟨-, hc, -⟩
        · rw [hp'] at hp
          cases hp
        · exact hc
      · rw [hother j hji] at hp ⊢
        exact h.child j (hwas j hji hj) hp
  case listener =>
      intro j hj hp
      rcases eq_or_ne j i with rfl | hji
      · rw [hself] at hp ⊢
        rcases hkind with ⟨-, hp', -⟩ | ⟨-, -, ⟨l, h₁, h₂⟩, -⟩
        · exact absurd hp' hp
        · refine ⟨l, ?_⟩
          rw [hother l (hne l h₁)]
          exact ⟨h₁, h₂⟩
      · rw [hother j hji] at hp ⊢
        obtain ⟨l, h₁, h₂⟩ := h.listener j (hwas j hji hj) hp
        refine ⟨l, ?_⟩
        rw [hother l (hne l h₁)]
        exact ⟨h₁, h₂⟩
  case apart =>
      intro a b hab ha hb hk hpa hpb hport ho
      rcases eq_or_ne a i with rfl | hai
      · rw [hself] at hpa hport
        rcases hkind with ⟨-, -, hp0⟩ | ⟨hp', -⟩
        · exact hport hp0
        · rw [hp'] at hpa
          cases hpa
      · rcases eq_or_ne b i with rfl | hbi
        · rw [hself] at hpb
          rcases hkind with ⟨-, -, hp0⟩ | ⟨hp', -⟩
          · refine hport (ho.1.trans ?_)
            rw [hself]
            exact hp0
          · rw [hp'] at hpb
            cases hpb
        · rw [hother a hai] at hk hpa hport ho
          rw [hother b hbi] at hk hpb ho
          exact h.apart a b hab (hwas a hai ha) (hwas b hbi hb) hk hpa hpb hport ho
  case shared =>
      intro a b ha hb hk hpa hpb hport ho
      rcases eq_or_ne a i with rfl | hai
      · rw [hself] at hpa hport
        rcases hkind with ⟨-, -, hp0⟩ | ⟨hp', -⟩
        · exact absurd hp0 hport
        · rw [hp'] at hpa
          cases hpa
      · rw [hother a hai] at hk hpa hport ho ⊢
        have hau := hwas a hai ha
        rcases eq_or_ne b i with rfl | hbi
        · rw [hself] at hk hpb ho
          rcases hkind with ⟨hp', -, -⟩ | ⟨-, -, ⟨l, h₁, -, h₃, h₄, h₅, h₆⟩, -⟩
          · rw [hp'] at hpb
            cases hpb
          · -- a passive socket is checked against its listener, not against the others
            -- whatever overlaps the child overlaps its listener, so it is the listener
            have hlf : (σ.sockets l).localAddr.family = s'.localAddr.family := by
              rw [h.family l h₁, hfam]
              exact h₅.1
            have haf : (σ.sockets a).localAddr.family = s'.localAddr.family := by
              rw [h.family a hau, hfam]
              exact hk.1
            have hover : (σ.sockets a).localAddr.Overlaps (σ.sockets l).localAddr :=
              (h₆.overlaps hlf (ho.symm haf)).symm (hlf.trans haf.symm)
            rcases eq_or_ne a l with rfl | hal
            · exact h₃
            · exact absurd hover
                (h.apart a l hal hau h₁ ⟨hk.1.trans h₅.1.symm, hk.2.trans h₅.2.symm⟩
                hpa h₄ hport)
        · rw [hother b hbi] at hk hpb ho
          exact h.shared a b hau (hwas b hbi hb) hk hpa hpb hport ho
  case pairs =>
      intro a b hab ha hb hk hpa hpb hst
      have hnew : ∀ c, c ≠ i → (σ'.sockets c).used = true → (σ.sockets c).Kin s' →
          (σ.sockets c).passive = true → s'.passive = true → ¬(σ.sockets c).SameTuple s' := by
        intro c hci hc hck hcp hps
        rcases hkind with ⟨hp', -, -⟩ | ⟨-, -, -, hall⟩
        · rw [hp'] at hps
          cases hps
        · exact hall c (hwas c hci hc) hck hcp
      rcases eq_or_ne a i with rfl | hai
      · rw [hself] at hk hpa hst
        rw [hother b (Ne.symm hab)] at hk hpb hst
        refine hnew b (Ne.symm hab) hb ⟨hk.1.symm, hk.2.symm⟩ hpb hpa ?_
        obtain ⟨e₁, e₂, e₃, e₄, e₅⟩ := hst
        refine ⟨e₁.symm, e₂.symm, ?_, e₄.symm, ?_⟩
        · rw [← hk.1]
          exact netEqual_iff.mpr fun k hk => (netEqual_iff.mp e₃ k hk).symm
        · rw [← hk.1]
          exact netEqual_iff.mpr fun k hk => (netEqual_iff.mp e₅ k hk).symm
      · rw [hother a hai] at hk hpa hst
        rcases eq_or_ne b i with rfl | hbi
        · rw [hself] at hk hpb hst
          exact hnew a hai ha hk hpa hpb hst
        · rw [hother b hbi] at hk hpb hst
          exact h.pairs a b hab (hwas a hai ha) (hwas b hbi hb) hk hpa hpb hst

/-- `k_net_socket` adds a socket without an endpoint. -/
theorem socket (h : σ.Endpoints) (w : NetWorld) (family : Nat) (type : SockType) :
    (σ.kNetSocket w family type).2.Endpoints := by
  rw [kNetSocket]
  split
  · exact h
  · split
    · exact h
    · rename_i hn
      obtain ⟨h₁, h₂, h₃, h₄, h₅, h₆⟩ := new_slot hn
      exact h.insert h₁ h₂ h₃ h₄ h₅ h₆ rfl rfl (Or.inl ⟨rfl, rfl, rfl⟩)

/-- What the lookup of `net_tcp_input` says when it finds a listener only. -/
theorem lookup_none {dev family sport dport k : Nat} {src dst : Bytes} {l : List Nat}
    {listener : Option Nat}
    (hl : σ.tcpLookup dev family src dst sport dport l listener = (none, some k)) :
    (listener = some k ∨ ((σ.sockets k).type = .tcp ∧
      netTakes (σ.sockets k) dev family dst dport = true ∧ (σ.sockets k).state = .listen)) ∧
      ∀ j ∈ l, (σ.sockets j).type = .tcp → netTakes (σ.sockets j) dev family dst dport = true →
        (σ.sockets j).state ≠ .listen → netFrom (σ.sockets j) family src sport = false := by
  induction l generalizing listener with
  | nil =>
      cases hl
      exact ⟨Or.inl rfl, fun j hj => by cases hj⟩
  | cons a l ih =>
      rw [tcpLookup] at hl
      split at hl
      · rename_i hno
        obtain ⟨h₁, h₂⟩ := ih hl
        refine ⟨h₁, fun j hj ht htake => ?_⟩
        rcases List.mem_cons.mp hj with rfl | hj
        · rcases hno with e | e
          · exact absurd ht e
          · rw [e] at htake
            cases htake
        · exact h₂ j hj ht htake
      · rename_i hyes
        split at hl
        · rename_i hlisten
          obtain ⟨h₁, h₂⟩ := ih hl
          refine ⟨?_, fun j hj ht htake hst => ?_⟩
          · rcases h₁ with e | e
            · cases e
              right
              refine ⟨by_contra fun hne => hyes (Or.inl hne), ?_, hlisten.1⟩
              by_contra hne
              exact hyes (Or.inr (by simpa using hne))
            · exact Or.inr e
          · rcases List.mem_cons.mp hj with rfl | hj
            · exact absurd hlisten.1 hst
            · exact h₂ j hj ht htake hst
        · split at hl
          · cases hl
          · rename_i hfrom
            obtain ⟨h₁, h₂⟩ := ih hl
            refine ⟨h₁, fun j hj ht htake hst => ?_⟩
            rcases List.mem_cons.mp hj with rfl | hj
            · simpa using hfrom
            · exact h₂ j hj ht htake hst

/-- A SYN adds a socket of the listener's endpoint. -/
theorem passive (h : σ.Endpoints) (hs : σ.SocketsOk) (w : NetWorld) {dev family sport dport k : Nat}
    {src dst : Bytes} (hsport : sport ≠ 0) (hdev : dev ≠ netNone)
    (hdst : netZero dst (netAddrBytes family) = false) (m : Segment)
    (hl : σ.tcpLookup dev family src dst sport dport (List.range kNetMaxSockets) none =
      (none, some k)) : (σ.passiveOpen w dev family src dst sport dport m k).Endpoints := by
  obtain ⟨hlist, hfree⟩ := lookup_none hl
  obtain ⟨htk, htake, hlisten⟩ := hlist.resolve_left (by simp)
  simp only [netTakes, Bool.and_eq_true, Bool.or_eq_true, beq_iff_eq] at htake
  obtain ⟨⟨⟨⟨hu, hfam⟩, hport⟩, hif⟩, hby⟩ := htake
  rw [passiveOpen]
  dsimp only
  split
  · exact h
  · split
    · exact h
    · split
      · exact h
      · rename_i i σ' hn
        obtain ⟨h₁, h₂, h₃, h₄, h₅, h₆⟩ := new_slot hn
        have hzero : ∀ (b : Bytes) (n j : Nat), j < n → memCopy (fun _ => 0) 0 b 0 n j = b j := by
          intro b n j hj
          rw [memCopy, if_pos (by omega)]
          congr 1
          omega
        generalize hc : (σ'.modify i fun s => { s with
          parent := (σ.sockets k).id
          passive := true
          localAddr := { s.localAddr with
            interface := dev, port := dport
            bytes := memCopy s.localAddr.bytes 0 dst 0 (netAddrBytes family) }
          peer := { s.peer with
            interface := dev, port := sport
            bytes := memCopy s.peer.bytes 0 src 0 (netAddrBytes family) }
          tcp := { s.tcp with
            state := .synRcvd, iss := w.random 0 % 2 ^ 32, sndUna := w.random 0 % 2 ^ 32
            sndNxt := add32 (w.random 0 % 2 ^ 32) 1
            rcvNxt := add32 m.seq 1, mss := _, cwnd := _, peerWindow := m.window } }) = σ₁
        have hself : (σ₁.sockets i).type = .tcp ∧ (σ₁.sockets i).used = true ∧
            (σ₁.sockets i).family = family ∧ (σ₁.sockets i).state = .synRcvd ∧
            (σ₁.sockets i).id = σ.next ∧ (σ₁.sockets i).passive = true ∧
            (σ₁.sockets i).parent = (σ.sockets k).id ∧ (σ₁.sockets i).peer.port = sport ∧
            (σ₁.sockets i).localAddr.family = family ∧ (σ₁.sockets i).localAddr.interface = dev ∧
            (σ₁.sockets i).localAddr.port = dport ∧
            (σ₁.sockets i).localAddr.bytes = memCopy (fun _ => 0) 0 dst 0 (netAddrBytes family) ∧
            (σ₁.sockets i).peer.bytes = memCopy (fun _ => 0) 0 src 0 (netAddrBytes family) := by
          rw [← hc, modify_self, h₅]
          exact ⟨rfl, rfl, rfl, rfl, rfl, rfl, rfl, rfl, rfl, rfl, rfl, rfl, rfl⟩
        obtain ⟨s₁, s₂, s₃, s₄, s₅, s₆, s₇, s₈, s₉, s₁₀, s₁₁, s₁₂, s₁₃⟩ := hself
        have hother : ∀ j, j ≠ i → σ₁.sockets j = σ.sockets j := by
          intro j hne
          rw [← hc, modify_ne _ hne]
          exact h₆ j hne
        have hnew : σ₁.Endpoints := by
          refine h.insert h₁ h₂ h₃ (by rw [← hc]; exact h₄) rfl hother s₅ (s₉.trans s₃.symm)
            (Or.inr ⟨s₆, ⟨s₁, by rw [s₈]; exact hsport, by rw [s₁₀]; exact hdev, ?_⟩,
              ⟨k, hu, s₇.symm, hlisten,
              h.not_passive hs hu (Or.inr (Or.inr hlisten)),
                ⟨hfam.trans s₃.symm, htk.trans s₁.symm⟩,
              ?_⟩, ?_⟩)
          · rw [s₃, s₁₂, ← hdst, Bool.eq_iff_iff, netZero_iff, netZero_iff]
            exact forall₂_congr fun j hj => by rw [hzero _ _ _ hj]
          · refine ⟨hport.trans s₁₁.symm, by rw [s₁₀]; exact hif, ?_⟩
            rw [h.family k hu, show (σ.sockets k).family = family from hfam, s₁₂]
            refine hby.imp_right fun e => netEqual_iff.mpr fun j hj => ?_
            rw [hzero _ _ _ hj]
            exact netEqual_iff.mp e j hj
          · intro j hj hk hjp hst
            obtain ⟨e₁, e₂, e₃, e₄, e₅⟩ := hst
            have hjf : (σ.sockets j).family = family := hk.1.trans s₃
            rw [hjf] at e₃ e₅
            rw [s₁₂] at e₃
            rw [s₁₃] at e₅
            -- the lookup would have found it
            have htake : netTakes (σ.sockets j) dev family dst dport = true := by
              simp only [netTakes, Bool.and_eq_true, Bool.or_eq_true, beq_iff_eq]
              refine ⟨⟨⟨⟨hj, hjf⟩, e₂.trans s₁₁⟩, Or.inr (e₁.trans s₁₀)⟩, Or.inr ?_⟩
              exact netEqual_iff.mpr fun q hq => (netEqual_iff.mp e₃ q hq).trans (hzero _ _ _ hq)
            have hfrom : netFrom (σ.sockets j) family src sport = true := by
              simp only [netFrom, Bool.and_eq_true, beq_iff_eq]
              refine ⟨e₄.trans s₈, ?_⟩
              exact netEqual_iff.mpr fun q hq => (netEqual_iff.mp e₅ q hq).trans (hzero _ _ _ hq)
            have hnl : (σ.sockets j).state ≠ .listen := by
              intro e
              rw [h.not_passive hs hj (Or.inr (Or.inr e))] at hjp
              cases hjp
            rw [hfree j (List.mem_range.mpr (h.slot j hj)) (hk.2.trans s₁) htake hnl] at hfrom
            cases hfrom
        rw [netTcpPump, if_pos s₁]
        refine hnew.onTcp s₂ (TcpCtx.family_pump _ _) fun e => ?_
        rw [s₄] at e
        cases e

/-! ### The other events -/

/-- Who comes from a passive open does not listen. -/
theorem child_not_listen (h : σ.Endpoints) (hs : σ.SocketsOk) (hu : (σ.sockets i).used = true)
    (hp : (σ.sockets i).passive = true) : (σ.sockets i).state ≠ .listen := by
  intro e
  rw [h.not_passive hs hu (Or.inr (Or.inr e))] at hp
  cases hp

/-- A waiting connection freed. -/
theorem freeWaiting (h : σ.Endpoints) (hs : σ.SocketsOk) (hp : (σ.sockets i).parent ≠ 0) :
    (σ.free i).Endpoints :=
  h.free fun hu e => absurd e (h.child_not_listen hs hu (h.parent i hu hp))

/-- The loop of `k_net_accept`. -/
theorem acceptLoop {id : Nat} (hid : id ≠ 0) (l : List Nat) : ∀ {σ : NetState}, σ.Endpoints →
    σ.SocketsOk → (NetState.acceptLoop id l σ).2.Endpoints := by
  induction l with
  | nil => exact fun h _ => h
  | cons i l ih =>
      intro σ h hs
      rw [NetState.acceptLoop]
      split
      · exact ih h hs
      · rename_i hchild
        have hu : (σ.sockets i).used = true := by
          by_contra hne
          exact hchild (Or.inl (by simpa using hne))
        have hp : (σ.sockets i).parent = id := by_contra fun hne => hchild (Or.inr hne)
        have hpz : (σ.sockets i).parent ≠ 0 := by
          rw [hp]
          exact hid
        split
        · exact ih (h.freeWaiting hs hpz) hs.free
        · split
          · exact ih h hs
          · dsimp only
            refine h.keepsAt ⟨fun h => h, rfl, rfl, rfl, fun hz => absurd rfl hz, rfl, rfl, rfl,
              fun h h' => ⟨h, h'⟩⟩

theorem accept (h : σ.Endpoints) (hs : σ.SocketsOk) (w : NetWorld) (hd : Nat) :
    (σ.kNetAccept w hd).2.Endpoints := by
  rw [kNetAccept]
  split
  · exact h
  · rename_i i hown
    dsimp only
    split
    · exact h
    · exact acceptLoop (h.id_ne i (owned hown).1) _ h hs

/-- A pump of one socket. -/
theorem pump (h : σ.Endpoints) (hs : σ.SocketsOk) (w : NetWorld) (hu : (σ.sockets i).used = true) :
    (σ.netTcpPump w i).Endpoints := by
  rw [netTcpPump]
  split
  · rename_i ht
    refine h.onTcp hu (TcpCtx.family_pump _ _) fun e => ?_
    have hph := (hs i ht).counted.phase hu
    have hk : (σ.sockets i).tcp.core.state = (σ.sockets i).state := rfl
    rw [TcpCore.Phase, hk, e] at hph
    obtain ⟨h₁, h₂⟩ := TcpCtx.pump_listen (w.env i (σ.sockets i))
      (c := ⟨(σ.sockets i).tcp, [], 0⟩) e hph.2
    exact ⟨h₁.trans hu, h₂⟩
  · exact h

/-- `k_net_send`, which may bind the socket first. -/
theorem send (h : σ.Endpoints) (w : NetWorld) (hd : Nat) (bytes : List UInt8)
    (dest : Option NetAddress) : (σ.kNetSend w hd bytes dest).2.Endpoints := by
  rw [kNetSend]
  split
  · exact h
  · split
    · exact h
    · rename_i i hown
      obtain ⟨hu, -⟩ := owned hown
      dsimp only
      split
      · exact h
      · split
        · rename_i hudp
          split
          · exact h
          · -- a datagram socket neither listens nor comes from a passive open
            have hpas : (σ.sockets i).passive = false := by
              cases hp : (σ.sockets i).passive with
              | false => rfl
              | true =>
                  have := (h.child i hu hp).1
                  rw [show (σ.sockets i).type = .udp from hudp] at this
                  cases this
            have hb := h.autobind w hu hpas fun _ => by rw [hudp]; decide
            obtain ⟨a, hi⟩ := netAutobind_sockets w i σ i
            split
            · rename_i e
              rw [e] at hb
              exact hb
            · rename_i e
              rw [e] at hb hi
              dsimp only at hb hi ⊢
              split
              · rename_i hst
                refine hb.onTcp (by rw [hi]; exact hu) rfl fun hl => ?_
                rw [hi] at hl
                exact absurd (hst.symm.trans hl) (by decide)
              · exact hb
        · split
          · exact h
          · dsimp only
            refine h.onTcp hu (TcpCtx.family_send _ _ _) fun e => ?_
            have hst : (σ.sockets i).tcp.state = .listen := e
            -- a listener has no stream, so nothing is sent
            have hsend : ∀ env, (Efishell.kNetSend env bytes ⟨(σ.sockets i).tcp, [], 0⟩).2 =
                ⟨(σ.sockets i).tcp, [], 0⟩ := by
              intro env
              simp only [Efishell.kNetSend, hst, reduceCtorEq, ne_eq, not_false_eq_true, and_self,
                true_or, if_false, if_true]
              split
              · rfl
              · split <;> rfl
            rw [hsend]
            exact ⟨hu, e⟩

theorem receive (h : σ.Endpoints) (w : NetWorld) (hd n : Nat) :
    (σ.kNetReceive w hd n).2.Endpoints := by
  rw [kNetReceive]
  split
  · exact h
  · split
    · exact h
    · rename_i i hown
      obtain ⟨hu, -⟩ := owned hown
      dsimp only
      split
      · split
        · dsimp only
          exact h.onTcp hu rfl fun e => ⟨hu, e⟩
        · split
          · exact h
          · dsimp only
            exact h.keepsAt ⟨fun h => h, rfl, rfl, rfl, fun _ => rfl, rfl, rfl, rfl,
              fun h h' => ⟨h, h'⟩⟩
      · dsimp only
        obtain ⟨h₁, h₂, h₃⟩ :=
          TcpCtx.receive_keeps (w.env i (σ.sockets i)) n ⟨(σ.sockets i).tcp, [], 0⟩
        exact h.onTcp hu h₁ fun e => ⟨h₂.trans hu, h₃.trans e⟩

/-- The children of a listener go first. -/
theorem freeChildren (h : σ.Endpoints) (hs : σ.SocketsOk) {id : Nat} (hid : id ≠ 0) (l : List Nat) :
    (l.foldl (freeChild id) σ).Endpoints ∧ (l.foldl (freeChild id) σ).SocketsOk ∧
      (∀ j, ((l.foldl (freeChild id) σ).sockets j).used = true →
        (l.foldl (freeChild id) σ).sockets j = σ.sockets j) ∧
      ∀ j ∈ l, ((l.foldl (freeChild id) σ).sockets j).used = true → (σ.sockets j).parent ≠ id := by
  induction l generalizing σ with
  | nil => exact ⟨h, hs, fun _ _ => rfl, fun j hj => by cases hj⟩
  | cons i l ih =>
      rw [List.foldl_cons]
      by_cases hc : (σ.sockets i).used = true ∧ (σ.sockets i).parent = id
      · have hpz : (σ.sockets i).parent ≠ 0 := by
          rw [hc.2]
          exact hid
        rw [freeChild, if_pos hc]
        obtain ⟨h₁, h₂, h₃, h₄⟩ := ih (h.freeWaiting hs hpz) hs.free
        have hused : ∀ j, ((l.foldl (freeChild id) (σ.free i)).sockets j).used = true →
            j ≠ i ∧ (σ.free i).sockets j = σ.sockets j := by
          intro j hj
          have hj' := h₃ j hj
          have hne : j ≠ i := by
            rintro rfl
            rw [hj', NetState.free, onTcp_self] at hj
            cases hj
          exact ⟨hne, onTcp_ne _ hne⟩
        refine ⟨h₁, h₂, fun j hj => (h₃ j hj).trans (hused j hj).2, fun j hj hu => ?_⟩
        obtain ⟨hne, he⟩ := hused j hu
        rcases List.mem_cons.mp hj with rfl | hj
        · exact absurd rfl hne
        · rw [← he]
          exact h₄ j hj hu
      · rw [freeChild, if_neg hc]
        obtain ⟨h₁, h₂, h₃, h₄⟩ := ih h hs
        refine ⟨h₁, h₂, h₃, fun j hj hu => ?_⟩
        rcases List.mem_cons.mp hj with rfl | hj
        · intro hp
          refine hc ⟨?_, hp⟩
          rw [← h₃ j hu]
          exact hu
        · exact h₄ j hj hu

/-- `net_close_internal`. -/
theorem closeInternal (h : σ.Endpoints) (hs : σ.SocketsOk) (w : NetWorld)
    (hu : (σ.sockets i).used = true) : (σ.netCloseInternal w i).Endpoints := by
  rw [netCloseInternal]
  split
  · rename_i hkind
    refine h.free fun _ hl j hj hp => ?_
    -- a listener among these is a datagram socket, and so nobody's listener
    have hpz : (σ.sockets j).parent ≠ 0 := by
      rw [hp]
      exact h.id_ne i hu
    obtain ⟨l, h₁, h₂, h₃, -, h₅, -⟩ := h.listener j hj hpz
    have hli : l = i := h.id_inj l i h₁ hu (h₂.trans hp)
    subst hli
    have ht := h₅.2.trans (h.child j hj (h.parent j hj hpz)).1
    rcases hkind with e | e | e | e
    · rw [ht] at e
      cases e
    all_goals
      rw [hl] at e
      cases e
  · split
    · obtain ⟨h₁, -, h₃, h₄⟩ := h.freeChildren hs (h.id_ne i hu) (List.range kNetMaxSockets)
      refine h₁.free fun hu' _ j hj => ?_
      rw [h₃ i hu', h₃ j hj]
      refine h₄ j (List.mem_range.mpr ?_) hj
      refine h.slot j ?_
      rw [← h₃ j hj]
      exact hj
    · rename_i hnl
      exact h.onTcp hu (TcpCtx.family_close _ _) fun e => absurd e hnl

theorem close (h : σ.Endpoints) (hs : σ.SocketsOk) (w : NetWorld) (hd : Nat) :
    (σ.kNetClose w hd).2.Endpoints := by
  rw [kNetClose]
  split
  · exact h
  · rename_i hown
    exact h.closeInternal hs w (owned hown).1

/-- The poll of the sockets. -/
theorem poll (h : σ.Endpoints) (hs : σ.SocketsOk) {w : NetWorld} (hw : w.MtuOk) (gc : Bool) :
    (σ.netPollSockets w gc).Endpoints := by
  have hboth : ∀ (l : List Nat) (σ : NetState), σ.Endpoints → σ.SocketsOk →
      (l.foldl (fun σ i =>
        let s := σ.sockets i
        if s.used = false then σ
        else if gc && !s.tcp.detached && w.gone s.owner then σ.netCloseInternal w i
        else if s.parent ≠ 0 ∧ s.state = .error then σ.free i
        else σ.netTcpPump w i) σ).Endpoints := by
    intro l
    induction l with
    | nil => exact fun _ h _ => h
    | cons i l ih =>
        intro σ h hs
        rw [List.foldl_cons]
        dsimp only
        split
        · exact ih σ h hs
        · rename_i hu
          have hu' : (σ.sockets i).used = true := by simpa using hu
          split
          · exact ih _ (h.closeInternal hs w hu') (hs.closeInternal hw)
          · split
            · rename_i hp
              exact ih _ (h.freeWaiting hs hp.1) hs.free
            · exact ih _ (h.pump hs w hu') (hs.pump hw)
  exact hboth _ σ h hs

/-- A TCP segment that arrives. -/
theorem tcpInput (h : σ.Endpoints) (hs : σ.SocketsOk) {w : NetWorld} (hw : w.Valid)
    (dev family : Nat) (src dst p : Bytes) (n : Nat) :
    (σ.netTcpInput w dev family src dst p n).Endpoints := by
  rw [netTcpInput]
  split
  · exact h
  · rename_i d hd
    obtain ⟨hlt, hget⟩ := List.getElem?_eq_some_iff.mp hd
    have hdev : dev ≠ netNone := by
      have := hw.count
      rw [netNone]
      omega
    dsimp only
    split
    · exact h
    · rename_i hok
      have hdst : netZero dst (netAddrBytes family) = false := by
        refine hw.local_ne (hget ▸ List.getElem_mem hlt) (d := d) ?_
        simp only [Bool.or_eq_true, not_or, Bool.not_eq_true', Bool.not_eq_false] at hok
        exact hok.1.1.1.1.1.2
      have hsport : netBe16 p 0 ≠ 0 := by
        intro hz
        simp [hz] at hok
      split
      · exact h
      · split
        · exact h
        · split
          · rename_i i q hl
            obtain ⟨ht, htake, hf, -⟩ := SocketsOk.lookup_some hl
            have hu : (σ.sockets i).used = true := by
              simp only [netTakes, Bool.and_eq_true] at htake
              exact htake.1.1.1.1
            refine h.onTcp hu (TcpCtx.family_input _ _ _) fun e => ?_
            have hph := (SocketsOk.connected hs hsport ht hf).counted.phase hu
            have hk : (σ.sockets i).tcp.core.state = (σ.sockets i).state := rfl
            rw [TcpCore.Phase, hk, e] at hph
            exact hph.1.elim
          · rename_i l hl
            split
            · exact h.passive hs w hsport hdev hdst _ hl
            · exact h
          · exact h

/-- A UDP datagram that arrives. -/
theorem udpInput (h : σ.Endpoints) (w : NetWorld) (dev family : Nat) (src dst p : Bytes) (n : Nat) :
    (σ.netUdpInput w dev family src dst p n).Endpoints := by
  rw [netUdpInput]
  split
  · split
    · exact h
    · dsimp only
      split
      · exact h
      · split
        · exact h
        · split
          · exact h
          · split
            · exact h
            · exact h.keepsAt ⟨fun h => h, rfl, rfl, rfl, fun _ => rfl, rfl, rfl, rfl,
                fun h h' => ⟨h, h'⟩⟩
  · exact h

/-- The loop over the sockets an ICMP error may be about. -/
theorem icmpLoop (hs : σ.SocketsOk) (w : NetWorld) (dev family : Nat) (p q : Bytes) (quote : Quote)
    (kind : IcmpKind) (l : List Nat) (h : σ.Endpoints) :
    (NetState.icmpLoop w dev family p q quote kind l σ).Endpoints := by
  induction l with
  | nil => exact h
  | cons i l ih =>
      rw [NetState.icmpLoop]
      split
      · exact ih
      · rename_i hc
        have hu : (σ.sockets i).used = true := by
          simp only [icmpConcerns, netTakes, Bool.not_eq_false, Bool.and_eq_true] at hc
          exact hc.1.1.1.1.1
        split
        · rename_i ht
          split
          · exact ih
          · rename_i hfl
            -- a listener has nothing in flight
            have hnl : (σ.sockets i).state ≠ .listen := by
              intro e
              have hph := (hs i ht.2).counted.phase hu
              have hk : (σ.sockets i).tcp.core.state = (σ.sockets i).state := rfl
              rw [TcpCore.Phase, hk, e] at hph
              exact hfl (Or.inl hph.2.symm)
            split
            · split
              · exact ih
              · split
                · exact h.onTcp hu rfl fun e => absurd e hnl
                · exact h
            · split
              · exact h.onTcp hu rfl fun e => absurd e hnl
              · exact h
        · split
          · exact h.onTcp hu rfl fun e => ⟨hu, e⟩
          · exact h

/-- An ICMP error that arrives. -/
theorem icmp (h : σ.Endpoints) (hs : σ.SocketsOk) (w : NetWorld) (dev family : Nat) (dst p : Bytes)
    (n : Nat) : (σ.netIcmpFailure w dev family dst p n).Endpoints := by
  rw [netIcmpFailure]
  split
  · exact h
  · dsimp only
    split
    · exact h
    · split
      · exact h
      · split
        · exact h
        · exact icmpLoop hs w _ _ _ _ _ _ _ h

end NetState.Endpoints

/-! ### The guarantee -/

/-- No call changes the addresses of an interface, and a connection that moves a bound socket to
another interface finds the endpoint there free. -/
def ConnectsFree (w : NetWorld) (σ : NetState) : NetEvent → Prop
  | .connect hd peer => σ.MovesFree w hd peer
  | .configure _ => False
  | _ => True

/-- At first there is no socket. -/
theorem NetState.Endpoints.init : netInit.Endpoints := by
  constructor
  case next_lt => decide
  all_goals
    intros
    contradiction

/-- The step lemma. -/
theorem NetState.Endpoints.step {σ : NetState} {w : NetWorld} (h : σ.Endpoints) (hs : σ.SocketsOk)
    (hw : w.Valid) {e : NetEvent} (hmove : ConnectsFree w σ e) : (σ.step w e).Endpoints := by
  cases e with
  | socket family type => exact h.socket w family type
  | bind hd a => exact h.bind hs w hd a
  | connect hd peer => exact h.connect hs w hd peer hmove
  | listen hd backlog => exact h.listen hs w hd backlog
  | accept hd => exact h.accept hs w hd
  | send hd bytes dest => exact h.send w hd bytes dest
  | receive hd n => exact h.receive w hd n
  | close hd => exact h.close hs w hd
  | configure interface => exact hmove.elim
  | poll gc => exact h.poll hs hw.mtu gc
  | tcp dev family src dst p n => exact h.tcpInput hs hw dev family src dst p n
  | udp dev family src dst p n => exact h.udpInput w dev family src dst p n
  | icmp dev family dst p n => exact h.icmp hs w dev family dst p n

/-- The TCP socket in slot `i` is one that `net_tcp_input` can give a segment to. -/
def NetState.TcpMatch (σ : NetState) (dev family : Nat) (src dst : Bytes) (sport dport i : Nat) :
    Prop :=
  (σ.sockets i).type = .tcp ∧ netTakes (σ.sockets i) dev family dst dport = true ∧
    (σ.sockets i).state ≠ .listen ∧ netFrom (σ.sockets i) family src sport = true

/-- The datagram socket in slot `i` is one that `net_udp_input` can give a datagram to. -/
def NetState.UdpMatch (σ : NetState) (dev family : Nat) (dst : Bytes) (dport i : Nat) : Prop :=
  (σ.sockets i).type = .udp ∧ netTakes (σ.sockets i) dev family dst dport = true

/-- Two endpoints that take one packet overlap. -/
theorem overlaps_of_takes {s t : NetSocket} {dev family dport : Nat} {dst : Bytes}
    (hs : netTakes s dev family dst dport = true) (ht : netTakes t dev family dst dport = true)
    (hf : s.localAddr.family = family) : s.localAddr.Overlaps t.localAddr := by
  simp only [netTakes, Bool.and_eq_true, Bool.or_eq_true, beq_iff_eq] at hs ht
  obtain ⟨⟨⟨-, hps⟩, his⟩, hbs⟩ := hs
  obtain ⟨⟨⟨-, hpt⟩, hit⟩, hbt⟩ := ht
  refine ⟨hps.trans hpt.symm, ?_, ?_⟩
  · rcases his with e | e
    · exact Or.inl e
    · rcases hit with e' | e'
      · exact Or.inr (Or.inl e')
      · exact Or.inr (Or.inr (e.trans e'.symm))
  · rw [hf]
    rcases hbs with e | e
    · exact Or.inl e
    · rcases hbt with e' | e'
      · exact Or.inr (Or.inl e')
      · refine Or.inr (Or.inr (netEqual_iff.mpr fun k hk => ?_))
        exact (netEqual_iff.mp e k hk).trans (netEqual_iff.mp e' k hk).symm

namespace NetState.Endpoints

variable {σ : NetState}

/-- Sockets that share a packet and do not listen are two connections of one listener. -/
theorem both_passive (h : σ.Endpoints) {i j : Nat} (hne : i ≠ j)
    (hi : (σ.sockets i).used = true) (hj : (σ.sockets j).used = true)
    (hk : (σ.sockets i).Kin (σ.sockets j)) (hli : (σ.sockets i).state ≠ .listen)
    (hlj : (σ.sockets j).state ≠ .listen) (hport : (σ.sockets i).localAddr.port ≠ 0)
    (ho : (σ.sockets i).localAddr.Overlaps (σ.sockets j).localAddr) :
    (σ.sockets i).passive = true ∧ (σ.sockets j).passive = true := by
  have hk' : (σ.sockets j).Kin (σ.sockets i) := ⟨hk.1.symm, hk.2.symm⟩
  have hfam : (σ.sockets i).localAddr.family = (σ.sockets j).localAddr.family := by
    rw [h.family i hi, h.family j hj]
    exact hk.1
  have hport' : (σ.sockets j).localAddr.port ≠ 0 := by
    rw [← ho.1]
    exact hport
  cases hpi : (σ.sockets i).passive with
  | false =>
      cases hpj : (σ.sockets j).passive with
      | false => exact absurd ho (h.apart i j hne hi hj hk hpi hpj hport)
      | true => exact absurd (h.shared i j hi hj hk hpi hpj hport ho) hli
  | true =>
      cases hpj : (σ.sockets j).passive with
      | false => exact absurd (h.shared j i hj hi hk' hpj hpi hport' (ho.symm hfam)) hlj
      | true => exact ⟨rfl, rfl⟩

/-- Two sockets of one kind differ in their tuples. -/
theorem distinct_tuples (h : σ.Endpoints) {i j : Nat} (hne : i ≠ j)
    (hi : (σ.sockets i).used = true) (hj : (σ.sockets j).used = true)
    (hk : (σ.sockets i).Kin (σ.sockets j)) (hli : (σ.sockets i).state ≠ .listen)
    (hlj : (σ.sockets j).state ≠ .listen) (hport : (σ.sockets i).localAddr.port ≠ 0) :
    ¬(σ.sockets i).SameTuple (σ.sockets j) := by
  intro hst
  obtain ⟨e₁, e₂, e₃, -, -⟩ := id hst
  have ho : (σ.sockets i).localAddr.Overlaps (σ.sockets j).localAddr := by
    refine ⟨e₂, Or.inr (Or.inr e₁), Or.inr (Or.inr ?_)⟩
    rw [h.family i hi]
    exact e₃
  obtain ⟨hpi, hpj⟩ := h.both_passive hne hi hj hk hli hlj hport ho
  exact h.pairs i j hne hi hj hk hpi hpj hst

/-- At most one connection takes a segment. -/
theorem tcpMatch_unique (h : σ.Endpoints) {dev family sport dport i j : Nat} {src dst : Bytes}
    (hport : dport ≠ 0) (hi : σ.TcpMatch dev family src dst sport dport i)
    (hj : σ.TcpMatch dev family src dst sport dport j) : i = j := by
  by_contra hne
  obtain ⟨ti, ki, li, fi⟩ := hi
  obtain ⟨tj, kj, lj, fj⟩ := hj
  have ki' := ki
  have kj' := kj
  simp only [netTakes, Bool.and_eq_true, Bool.or_eq_true, beq_iff_eq] at ki' kj'
  obtain ⟨⟨⟨⟨ui, fami⟩, pi⟩, ifi⟩, bi⟩ := ki'
  obtain ⟨⟨⟨⟨uj, famj⟩, pj⟩, ifj⟩, bj⟩ := kj'
  simp only [netFrom, Bool.and_eq_true, beq_iff_eq] at fi fj
  have hk : (σ.sockets i).Kin (σ.sockets j) := ⟨fami.trans famj.symm, ti.trans tj.symm⟩
  obtain ⟨hpi, hpj⟩ := h.both_passive hne ui uj hk li lj (by rw [pi]; exact hport)
    (overlaps_of_takes ki kj ((h.family i ui).trans fami))
  -- both have an interface and an address of their own, so these are the packet's
  obtain ⟨-, -, ni, zi⟩ := h.child i ui hpi
  obtain ⟨-, -, nj, zj⟩ := h.child j uj hpj
  rw [fami] at zi
  rw [famj] at zj
  have ei := netEqual_iff.mp (bi.resolve_left (by rw [zi]; decide))
  have ej := netEqual_iff.mp (bj.resolve_left (by rw [zj]; decide))
  refine h.pairs i j hne ui uj hk hpi hpj ⟨?_, pi.trans pj.symm, ?_, fi.1.trans fj.1.symm, ?_⟩
  · exact (ifi.resolve_left ni).trans (ifj.resolve_left nj).symm
  · rw [fami]
    exact netEqual_iff.mpr fun k hk => (ei k hk).trans (ej k hk).symm
  · rw [fami]
    exact netEqual_iff.mpr fun k hk =>
      (netEqual_iff.mp fi.2 k hk).trans (netEqual_iff.mp fj.2 k hk).symm

/-- At most one datagram socket takes a datagram. -/
theorem udpMatch_unique (h : σ.Endpoints) {dev family dport i j : Nat} {dst : Bytes}
    (hport : dport ≠ 0) (hi : σ.UdpMatch dev family dst dport i)
    (hj : σ.UdpMatch dev family dst dport j) : i = j := by
  by_contra hne
  obtain ⟨ti, ki⟩ := hi
  obtain ⟨tj, kj⟩ := hj
  have ki' := ki
  have kj' := kj
  simp only [netTakes, Bool.and_eq_true, beq_iff_eq] at ki' kj'
  obtain ⟨⟨⟨⟨ui, fami⟩, pi⟩, -⟩, -⟩ := ki'
  obtain ⟨⟨⟨⟨uj, famj⟩, -⟩, -⟩, -⟩ := kj'
  have hnp : ∀ k, (σ.sockets k).used = true → (σ.sockets k).type = .udp →
      (σ.sockets k).passive = false := by
    intro k uk tk
    cases hp : (σ.sockets k).passive with
    | false => rfl
    | true =>
        have := (h.child k uk hp).1
        rw [tk] at this
        cases this
  exact h.apart i j hne ui uj ⟨fami.trans famj.symm, ti.trans tj.symm⟩ (hnp i ui ti) (hnp j uj tj)
    (by rw [pi]; exact hport) (overlaps_of_takes ki kj ((h.family i ui).trans fami))

end NetState.Endpoints

/-- **Endpoint exclusivity.**  In every run in which each connection that moves a bound socket to
another interface finds the endpoint there free, and whatever the calls, the segments and the
datagrams are:

* two sockets of one family and type that do not come from a passive open and have a port do not
  overlap;
* two bound TCP sockets that do not listen differ in interface, addresses or ports;
* the socket that `net_tcp_input` finds for a segment is the only one that takes it, and at most one
  datagram socket takes a datagram. -/
theorem endpoints_exclusive {σ : NetState}
    (h : NetRun (fun w σ e => w.Valid ∧ ConnectsFree w σ e) σ) :
    (∀ i j, i ≠ j → (σ.sockets i).used = true → (σ.sockets j).used = true →
      (σ.sockets i).Kin (σ.sockets j) → (σ.sockets i).passive = false →
      (σ.sockets j).passive = false → (σ.sockets i).localAddr.port ≠ 0 →
      (σ.sockets j).localAddr.port ≠ 0 →
      ¬(σ.sockets i).localAddr.Overlaps (σ.sockets j).localAddr) ∧
    (∀ i j, i ≠ j → (σ.sockets i).used = true → (σ.sockets j).used = true →
      (σ.sockets i).type = .tcp → (σ.sockets i).Kin (σ.sockets j) →
      (σ.sockets i).state ≠ .listen → (σ.sockets j).state ≠ .listen →
      (σ.sockets i).localAddr.port ≠ 0 → ¬(σ.sockets i).SameTuple (σ.sockets j)) ∧
    (∀ (dev family : Nat) (src dst : Bytes) (sport dport i : Nat) (q : Option Nat), sport ≠ 0 →
      dport ≠ 0 →
      σ.tcpLookup dev family src dst sport dport (List.range kNetMaxSockets) none = (some i, q) →
      σ.TcpMatch dev family src dst sport dport i ∧
        ∀ j, σ.TcpMatch dev family src dst sport dport j → j = i) ∧
    ∀ (dev family : Nat) (dst : Bytes) (dport i j : Nat), dport ≠ 0 →
      σ.UdpMatch dev family dst dport i → σ.UdpMatch dev family dst dport j → i = j := by
  have hinv : σ.Endpoints ∧ σ.SocketsOk := by
    refine NetRun.rule (I := fun σ => σ.Endpoints ∧ σ.SocketsOk)
      ⟨NetState.Endpoints.init, fun i ht => by cases ht⟩ (fun w σ e hI hok => ?_) h
    exact ⟨hI.1.step hI.2 hok.1 hok.2, NetState.SocketsOk.step hI.2 hok.1.mtu e⟩
  obtain ⟨he, hs⟩ := hinv
  refine ⟨fun i j hne hi hj hk hpi hpj hport _ => he.apart i j hne hi hj hk hpi hpj hport,
    fun i j hne hi hj _ hk hli hlj hport => he.distinct_tuples hne hi hj hk hli hlj hport, ?_,
    fun dev family dst dport i j hport hi hj => he.udpMatch_unique hport hi hj⟩
  intro dev family src dst sport dport i q hsport hport hl
  obtain ⟨ht, htake, hf, -⟩ := NetState.SocketsOk.lookup_some hl
  have hu : (σ.sockets i).used = true := by
    simp only [netTakes, Bool.and_eq_true] at htake
    exact htake.1.1.1.1
  have hnl : (σ.sockets i).state ≠ .listen := by
    intro e
    have hph := (NetState.SocketsOk.connected hs hsport ht hf).counted.phase hu
    have hk : (σ.sockets i).tcp.core.state = (σ.sockets i).state := rfl
    rw [TcpCore.Phase, hk, e] at hph
    exact hph.1.elim
  exact ⟨⟨ht, htake, hnl, hf⟩, fun j hj => he.tcpMatch_unique hport hj ⟨ht, htake, hnl, hf⟩⟩

/-! ### A connection over another interface -/

/-- An interface with the address `10.0.k.1` in a network of 256 addresses. -/
def etherDevice (k : UInt8) : NetDevice :=
  { loopDevice 1 with
    address := fun i => if i = 0 then 10 else if i = 2 then k else if i = 3 then 1 else 0
    mask := fun i => if i = 3 then 0 else 255 }

/-- A machine with two interfaces besides the loopback, as task `task` sees it. -/
def etherWorld (task : Nat) : NetWorld :=
  { loopWorld with task := task, devices := [loopDevice 1, etherDevice 1, etherDevice 2] }

/-- The world of the example is a valid one. -/
theorem etherWorld_valid (task : Nat) : (etherWorld task).Valid := by
  have hall : ∀ {P : NetDevice → Prop}, P (loopDevice 1) → P (etherDevice 1) → P (etherDevice 2) →
      ∀ d ∈ (etherWorld task).devices, P d := by
    intro P h₀ h₁ h₂ d hd
    simp only [etherWorld, List.mem_cons, List.not_mem_nil, or_false] at hd
    rcases hd with rfl | rfl | rfl
    · exact h₀
    · exact h₁
    · exact h₂
  refine ⟨by show 3 ≤ 8; decide, hall (P := fun d => 68 ≤ d.mtu ∧ d.mtu < 2 ^ 32) (by decide)
    (by decide) (by decide), hall (P := fun d => d.ready4 = true → netZero d.address 4 = false)
    (by decide) (by decide) (by decide),
    hall (P := fun d => d.ready6 = true → netZero d.linkLocal6 16 = false) (by decide) (by decide)
      (by decide)⟩

/-- Port 5000 of interface `k`, whatever the address. -/
def etherPort (k : Nat) : NetAddress := ⟨4, k, 5000, 0, fun _ => 0⟩

/-- Port 80 of `10.0.2.9`, over interface `k`. -/
def etherPeer (k : Nat) : NetAddress :=
  ⟨4, k, 80, 0, fun i => if i = 0 then 10 else if i = 2 then 2 else if i = 3 then 9 else 0⟩

/-- Task 1 and task 2 have a socket each. -/
def etherFresh : NetState :=
  (netInit.step (etherWorld 1) (.socket 4 .tcp)).step (etherWorld 2) (.socket 4 .tcp)

/-- They are bound to port 5000 of their own interfaces. -/
def etherBound : NetState :=
  (etherFresh.step (etherWorld 1) (.bind 1 (etherPort 1))).step (etherWorld 2)
    (.bind 2 (etherPort 2))

/-- Task 1 connects over the interface of task 2, and task 2 connects to the same peer. -/
def etherMoved : NetState :=
  (etherBound.step (etherWorld 1) (.connect 1 (etherPeer 2))).step (etherWorld 2)
    (.connect 2 (etherPeer netNone))

/-- **The endpoint is taken.**  Two sockets of two tasks end up with one endpoint and one peer, and
the segments for the second go to the first.  (Sockets without a port, which get no segments, have
the same open tuple from the start.) -/
theorem connect_takes_endpoint :
    (NetRun (fun w _ _ => w.Valid) etherMoved ∧
      (etherMoved.sockets 0).owner = 1 ∧ (etherMoved.sockets 1).owner = 2 ∧
      (etherMoved.sockets 0).used = true ∧ (etherMoved.sockets 1).used = true ∧
      (etherMoved.sockets 0).Kin (etherMoved.sockets 1) ∧
      (etherMoved.sockets 0).passive = false ∧ (etherMoved.sockets 1).passive = false ∧
      (etherMoved.sockets 0).localAddr.port ≠ 0 ∧ (etherMoved.sockets 1).localAddr.port ≠ 0 ∧
      (etherMoved.sockets 0).localAddr.Overlaps (etherMoved.sockets 1).localAddr ∧
      (etherMoved.sockets 0).state = .synSent ∧ (etherMoved.sockets 1).state = .synSent ∧
      (etherMoved.sockets 0).SameTuple (etherMoved.sockets 1)) ∧
    (NetRun (fun w σ e => w.Valid ∧ ConnectsFree w σ e) etherFresh ∧
      (etherFresh.sockets 0).used = true ∧ (etherFresh.sockets 1).used = true ∧
      (etherFresh.sockets 0).type = .tcp ∧ (etherFresh.sockets 1).type = .tcp ∧
      (etherFresh.sockets 0).state = .new ∧ (etherFresh.sockets 1).state = .new ∧
      (etherFresh.sockets 0).SameTuple (etherFresh.sockets 1)) := by
  have hv := etherWorld_valid
  refine ⟨⟨?_, by decide, by decide, by decide, by decide, ⟨by decide, by decide⟩, by decide,
    by decide, by decide, by decide, ⟨by decide, by decide, by decide⟩, by decide, by decide,
    ⟨by decide, by decide, by decide, by decide, by decide⟩⟩, ⟨?_, by decide, by decide, by decide,
    by decide, by decide, by decide, ⟨by decide, by decide, by decide, by decide, by decide⟩⟩⟩
  · exact .step (.step (.step (.step (.step (.step .init (hv 1)) (hv 2)) (hv 1)) (hv 2)) (hv 1))
      (hv 2)
  · exact .step (.step .init ⟨hv 1, trivial⟩) ⟨hv 2, trivial⟩

/-- Task 2 is bound to another port of its interface. -/
def etherApart : NetState :=
  (etherFresh.step (etherWorld 1) (.bind 1 (etherPort 1))).step (etherWorld 2)
    (.bind 2 { etherPort 2 with port := 6000 })

/-- Then task 1 moves to an endpoint that is free. -/
theorem etherApart_moves : etherApart.MovesFree (etherWorld 1) 1 (etherPeer 2) := by
  intro i id source σ₁ _ hown _ _ _ hroute _ hauto _
  have howner : etherApart.netSocketOwned (etherWorld 1) 1 = some 0 := by rfl
  obtain rfl := Option.some.inj (howner.symm.trans hown)
  have hbound : etherApart.netAutobind (etherWorld 1) 0 = (.ok (), etherApart) := by rfl
  obtain rfl := (Prod.mk.inj (hbound.symm.trans hauto)).2
  rfl

/-- The connection is allowed, and the two sockets are apart on one interface. -/
theorem endpoints_exclusive_bound :
    let σ := etherApart.step (etherWorld 1) (.connect 1 (etherPeer 2))
    (σ.sockets 0).localAddr.interface = 2 ∧ (σ.sockets 1).localAddr.interface = 2 ∧
      ¬(σ.sockets 0).localAddr.Overlaps (σ.sockets 1).localAddr := by
  have hv := etherWorld_valid
  have hrun : NetRun (fun w σ e => w.Valid ∧ ConnectsFree w σ e)
      (etherApart.step (etherWorld 1) (.connect 1 (etherPeer 2))) :=
    .step (.step (.step (.step (.step .init ⟨hv 1, trivial⟩) ⟨hv 2, trivial⟩) ⟨hv 1, trivial⟩)
      ⟨hv 2, trivial⟩) ⟨hv 1, etherApart_moves⟩
  exact ⟨by decide, by decide, (endpoints_exclusive hrun).1 0 1 (by decide) (by decide) (by decide)
    ⟨by decide, by decide⟩ (by decide) (by decide) (by decide) (by decide)⟩

end Efishell
