import Efishell.Net.Sockets
import Efishell.Net.TcpInvariant

/-!
# Networking — runs of the socket table

A run is any sequence of calls by any tasks, of packets from any peer, of ICMP errors and of timer
rounds, each with its own world.  Here every reachable TCP socket is shown to satisfy the invariant
of `TcpInvariant.lean` (`tcp_socket_invariant`): what one event does to the table is a sequence of
updates of single slots, and each of them keeps the invariant of its slot.

* `SocketsOk.step`: every event keeps the invariant of every slot.
* `tcp_socket_invariant`: what that says of the fields of a used TCP socket.
-/

namespace Efishell

/-- What happens to the sockets.  `connect` is one round of the loop of `k_net_connect`, `configure`
a `k_net_configure` that changes the addresses of an interface, `poll` the timer. -/
inductive NetEvent where
  | socket (family : Nat) (type : SockType)
  | bind (h : Nat) (a : NetAddress)
  | connect (h : Nat) (peer : NetAddress)
  | listen (h backlog : Nat)
  | accept (h : Nat)
  | send (h : Nat) (bytes : List UInt8) (dest : Option NetAddress)
  | receive (h n : Nat)
  | close (h : Nat)
  | configure (interface : Nat)
  | poll (gc : Bool)
  | tcp (dev family : Nat) (src dst p : Bytes) (n : Nat)
  | udp (dev family : Nat) (src dst p : Bytes) (n : Nat)
  | icmp (dev family : Nat) (dst p : Bytes) (n : Nat)

/-- What the call or the segment does. -/
def NetState.step (w : NetWorld) (σ : NetState) : NetEvent → NetState
  | .socket family type => (σ.kNetSocket w family type).2
  | .bind h a => (σ.kNetBind w h a).2
  | .connect h peer => (σ.kNetConnect w h peer).2
  | .listen h backlog => (σ.kNetListen w h backlog).2
  | .accept h => (σ.kNetAccept w h).2
  | .send h bytes dest => (σ.kNetSend w h bytes dest).2
  | .receive h n => (σ.kNetReceive w h n).2
  | .close h => (σ.kNetClose w h).2
  | .configure interface => σ.netDown w interface
  | .poll gc => σ.netPollSockets w gc
  | .tcp dev family src dst p n => σ.netTcpInput w dev family src dst p n
  | .udp dev family src dst p n => σ.netUdpInput w dev family src dst p n
  | .icmp dev family dst p n => σ.netIcmpFailure w dev family dst p n

/-- The tables that events under `ok` lead to. -/
inductive NetRun (ok : NetWorld → NetState → NetEvent → Prop) : NetState → Prop where
  | init : NetRun ok netInit
  | step {σ : NetState} {w : NetWorld} {e : NetEvent} :
      NetRun ok σ → ok w σ e → NetRun ok (σ.step w e)

/-- The rule of invariants for runs. -/
theorem NetRun.rule {ok : NetWorld → NetState → NetEvent → Prop} {I : NetState → Prop}
    (hinit : I netInit) (hstep : ∀ w σ e, I σ → ok w σ e → I (σ.step w e)) {σ : NetState}
    (h : NetRun ok σ) : I σ := by
  induction h with
  | init => exact hinit
  | step _ hok ih => exact hstep _ _ _ ih hok

/-! ### Slots -/

namespace NetState

variable {σ : NetState} {i j : Nat}

@[simp] theorem modify_self (f : NetSocket → NetSocket) :
    (σ.modify i f).sockets i = f (σ.sockets i) := by
  simp [modify]

theorem modify_ne (f : NetSocket → NetSocket) (h : j ≠ i) :
    (σ.modify i f).sockets j = σ.sockets j := by
  simp [modify, Function.update_of_ne h]

@[simp] theorem onTcp_self (f : TcpSocket → TcpSocket) :
    (σ.onTcp i f).sockets i = { σ.sockets i with tcp := f (σ.sockets i).tcp } := modify_self _

theorem onTcp_ne (f : TcpSocket → TcpSocket) (h : j ≠ i) :
    (σ.onTcp i f).sockets j = σ.sockets j := modify_ne _ h

/-- The slot found is in the table and has the property. -/
theorem find_some {p : NetSocket → Bool} (h : σ.find p = some i) :
    i < kNetMaxSockets ∧ p (σ.sockets i) = true := by
  refine ⟨List.mem_range.mp (List.mem_of_find?_eq_some h), ?_⟩
  have hp := List.find?_some h
  exact hp

/-- What differs after a change of a port. -/
theorem setPort_sockets (port : Nat) : ∃ a : NetAddress,
    (σ.setPort i port).sockets j = { σ.sockets j with localAddr := a } := by
  rcases eq_or_ne j i with rfl | hne
  · exact ⟨_, by rw [setPort, modify_self]⟩
  · exact ⟨(σ.sockets j).localAddr, by rw [setPort, modify_ne _ hne]⟩

/-- The tries of `net_autobind` end with a port that is not zero and not busy. -/
theorem autobindLoop_some {tries ephemeral port : Nat} (hlow : 49152 ≤ ephemeral)
    (hhigh : ephemeral ≤ 65535) (h : σ.autobindLoop i tries ephemeral = some port) :
    port ≠ 0 ∧ σ.netPortBusy i { (σ.sockets i).localAddr with port := port } = false := by
  induction tries generalizing ephemeral with
  | zero => cases h
  | succ tries ih =>
      rw [autobindLoop] at h
      dsimp only at h
      split at h
      · refine ih ?_ ?_ h
        · split <;> omega
        · split <;> omega
      · rename_i hfree
        cases h
        exact ⟨by omega, by simpa using hfree⟩

/-- **What `net_autobind` can do**: keep a port, take one that is not busy, or fail. -/
theorem netAutobind_cases (w : NetWorld) (i : Nat) (σ : NetState) :
    (σ.netAutobind w i = (.ok (), σ) ∧ (σ.sockets i).localAddr.port ≠ 0) ∨
      (∃ port, σ.netAutobind w i = (.ok (), σ.setPort i port) ∧ port ≠ 0 ∧
        σ.netPortBusy i { (σ.sockets i).localAddr with port := port } = false) ∨
      σ.netAutobind w i = (.error .eaddrinuse, σ.setPort i 0) := by
  rw [netAutobind]
  by_cases hp : (σ.sockets i).localAddr.port ≠ 0
  · exact Or.inl ⟨if_pos hp, hp⟩
  · rw [if_neg hp]
    cases hl : σ.autobindLoop i 16384 (49152 + w.random 0 % 16384) with
    | none => exact Or.inr (Or.inr rfl)
    | some port =>
        obtain ⟨h₁, h₂⟩ := autobindLoop_some (by omega) (by omega) hl
        exact Or.inr (Or.inl ⟨port, rfl, h₁, h₂⟩)

/-- `net_autobind` changes nothing but a local address. -/
theorem netAutobind_sockets (w : NetWorld) (i : Nat) (σ : NetState) (j : Nat) : ∃ a : NetAddress,
    (σ.netAutobind w i).2.sockets j = { σ.sockets j with localAddr := a } := by
  rcases netAutobind_cases w i σ with ⟨h, -⟩ | ⟨port, h, -, -⟩ | h
  · exact ⟨(σ.sockets j).localAddr, by rw [h]⟩
  · rw [h]
    exact setPort_sockets port
  · rw [h]
    exact setPort_sockets 0

/-- A property of single slots that holds of all of them. -/
def Each (P : NetSocket → Prop) (σ : NetState) : Prop := ∀ i, P (σ.sockets i)

variable {P : NetSocket → Prop}

/-- One socket changed within the property. -/
theorem Each.modify (h : σ.Each P) {f : NetSocket → NetSocket}
    (hf : P (σ.sockets i) → P (f (σ.sockets i))) : (σ.modify i f).Each P := by
  intro j
  rcases eq_or_ne j i with rfl | hne
  · rw [modify_self]
    exact hf (h j)
  · rw [modify_ne f hne]
    exact h j

/-- A loop that keeps the property. -/
theorem Each.foldl {g : NetState → Nat → NetState} (hg : ∀ σ i, σ.Each P → (g σ i).Each P)
    (l : List Nat) : ∀ {σ : NetState}, σ.Each P → (l.foldl g σ).Each P := by
  induction l with
  | nil => exact fun h => h
  | cons i l ih => exact fun h => ih (hg _ i h)

end NetState

/-! ### The invariant of the TCP sockets -/

/-- The invariant of a slot: a TCP socket is in order, and has no peer before it has a
connection. -/
def NetSocket.Ok (s : NetSocket) : Prop := s.type = .tcp → s.tcp.Ok (s.peer.port = 0)

/-- Every interface has room for a header and some data.  This is what an MTU of 68 or more for
IPv4 and of 1280 or more for IPv6 amounts to. -/
def NetWorld.MtuOk (w : NetWorld) : Prop := ∀ d ∈ w.devices, 68 ≤ d.mtu ∧ d.mtu < 2 ^ 32

theorem NetWorld.MtuOk.env {w : NetWorld} (hw : w.MtuOk) (i : Nat) (s : NetSocket) :
    (w.env i s).MtuOk := by
  intro hup
  have hlt : s.localAddr.interface < w.devices.length := of_decide_eq_true hup
  have hmtu : (w.env i s).mtu = (w.devices[s.localAddr.interface]).mtu := by
    simp only [NetWorld.env, List.getElem?_eq_getElem hlt, Option.map_some, Option.getD_some]
  rw [hmtu]
  exact hw _ (List.getElem_mem hlt)

/-- A new socket is in order. -/
theorem freshSocket_ok (w : NetWorld) (family : Nat) (type : SockType) (owner id : Nat) :
    (freshSocket w family type owner id).Ok := by
  intro _
  have hmss : 536 ≤ (if family = 6 then 1220 else 536) ∧
      (if family = 6 then 1220 else 536) ≤ 1440 := by
    split <;> omega
  simp only [freshSocket]
  generalize (if family = 6 then 1220 else 536) = mss at hmss
  refine ⟨⟨by show 0 < mss; omega, hmss.2, by show 0 < mss * 2; omega, ?_, Nat.le_refl _,
    Nat.zero_le _, Nat.zero_le _, Nat.le_refl _, (by decide : 1000 ≤ 60000), Nat.zero_le _⟩,
    ⟨(by decide : 0 < 2 ^ 32), (by decide : 0 < 2 ^ 32), (by decide : 0 < netStream),
      Nat.zero_le _, Nat.zero_le _, fun _ => ⟨trivial, rfl⟩⟩⟩
  show mss * 2 ≤ netStream
  rw [netStream]
  omega

namespace NetState

variable {σ : NetState} {w : NetWorld} {i : Nat}

/-- The invariant of the table. -/
abbrev SocketsOk (σ : NetState) : Prop := σ.Each NetSocket.Ok

namespace SocketsOk

/-- A change of one socket's TCP part. -/
theorem onTcp (h : σ.SocketsOk) {f : TcpSocket → TcpSocket}
    (hf : ∀ fresh, (σ.sockets i).tcp.Ok fresh → (f (σ.sockets i).tcp).Ok fresh) :
    (σ.onTcp i f).SocketsOk := Each.modify h fun hs ht => hf _ (hs ht)

/-- A TCP call on one socket. -/
theorem call (h : σ.SocketsOk) {f : TcpEnv → TcpCtx → TcpCtx}
    (hf : ∀ (fresh : Prop) (c : TcpCtx), c.sock = (σ.sockets i).tcp → c.sock.Ok fresh →
      (f (w.env i (σ.sockets i)) c).sock.Ok fresh) : (σ.call w i f).SocketsOk :=
  h.onTcp fun fresh hs => hf fresh ⟨(σ.sockets i).tcp, [], 0⟩ rfl hs

theorem free (h : σ.SocketsOk) : (σ.free i).SocketsOk := h.onTcp fun _ hs => hs.drop

theorem pump (h : σ.SocketsOk) (hw : w.MtuOk) : (σ.netTcpPump w i).SocketsOk := by
  rw [netTcpPump]
  split
  · exact h.call fun _ _ _ hs => hs.pump (hw.env _ _)
  · exact h

/-- A slot taken for a new socket. -/
theorem new (h : σ.SocketsOk) {family owner : Nat} {type : SockType} {σ' : NetState}
    (hn : σ.netSocketNew w family type owner = some (i, σ')) :
    σ'.SocketsOk ∧ (σ'.sockets i) = freshSocket w family type owner σ.next := by
  rw [netSocketNew] at hn
  split at hn
  · cases hn
  · split at hn
    · cases hn
    · cases hn
      have hall : (σ.modify i fun _ => freshSocket w family type owner σ.next).SocketsOk :=
        Each.modify h fun _ => freshSocket_ok _ _ _ _ _
      refine ⟨hall, ?_⟩
      exact modify_self (σ := σ) fun _ => freshSocket w family type owner σ.next

theorem autobind (h : σ.SocketsOk) : (σ.netAutobind w i).2.SocketsOk := by
  intro j
  obtain ⟨a, e⟩ := netAutobind_sockets w i σ j
  rw [e]
  exact h j

/-- A socket without a peer stays one. -/
theorem idle (h : σ.SocketsOk) {st : TcpState} (hold : (σ.sockets i).state = .new ∨
    (σ.sockets i).state = .bound) (hnew : st = .bound ∨ st = .listen) :
    (σ.onTcp i fun t => { t with state := st }).SocketsOk := by
  refine h.onTcp fun fresh hs => ⟨hs.sized.same rfl, ⟨hs.counted.una_lt, hs.counted.nxt_lt,
    hs.counted.head_lt, hs.counted.rx_le, hs.counted.tx_le, fun hu => ?_⟩⟩
  have hp := hs.counted.phase hu
  have hk : (σ.sockets i).tcp.core.state = (σ.sockets i).state := rfl
  rw [TcpCore.Phase, hk] at hp
  have hp' : fresh ∧ (σ.sockets i).tcp.sndUna = (σ.sockets i).tcp.sndNxt := by
    rcases hold with e | e
    · rw [e] at hp
      exact hp
    · rw [e] at hp
      exact hp
  rcases hnew with rfl | rfl
  · exact hp'
  · exact hp'

/-- `k_net_socket` keeps the sockets in order. -/
theorem socket (h : σ.SocketsOk) (family : Nat) (type : SockType) :
    (σ.kNetSocket w family type).2.SocketsOk := by
  rw [kNetSocket]
  split
  · exact h
  · split
    · exact h
    · rename_i hn
      exact (h.new hn).1

theorem bind (h : σ.SocketsOk) (hd : Nat) (a : NetAddress) :
    (σ.kNetBind w hd a).2.SocketsOk := by
  rw [kNetBind]
  split
  · exact h
  · split
    · exact h
    · rename_i i _
      dsimp only
      split
      · exact h
      · rename_i hst
        split
        · exact h
        · split
          · exact h
          · split
            · exact h
            · have hl : (σ.modify i fun s => { s with localAddr := a }).SocketsOk :=
                Each.modify h fun hs ht => hs ht
              have hb := hl.autobind (w := w) (i := i)
              obtain ⟨b, hi⟩ :=
                netAutobind_sockets w i (σ.modify i fun s => { s with localAddr := a }) i
              split
              · rename_i e
                rw [e] at hb
                exact hb
              · rename_i e
                rw [e] at hb hi
                refine hb.idle (Or.inl ?_) (Or.inl rfl)
                rw [hi, modify_self]
                exact by_contra fun hne => hst (Or.inr hne)

theorem listen (h : σ.SocketsOk) (hd backlog : Nat) :
    (σ.kNetListen w hd backlog).2.SocketsOk := by
  rw [kNetListen]
  split
  · exact h
  · split
    · exact h
    · rename_i i _
      dsimp only
      split
      · exact h
      · rename_i hst
        have hb := h.autobind (w := w) (i := i)
        obtain ⟨b, hi⟩ := netAutobind_sockets w i σ i
        split
        · rename_i e
          rw [e] at hb
          exact hb
        · rename_i σ' e
          rw [e] at hb hi
          have hidle : (σ'.onTcp i fun t => { t with state := .listen }).SocketsOk := by
            refine hb.idle ?_ (Or.inr rfl)
            rw [hi]
            exact by_contra fun hne =>
              hst (Or.inr ⟨fun e => hne (Or.inl e), fun e => hne (Or.inr e)⟩)
          intro j
          have hj := hidle j
          rcases eq_or_ne j i with rfl | hne
          · rw [onTcp_self] at hj
            rw [modify_self]
            exact hj
          · rw [onTcp_ne _ hne] at hj
            rw [modify_ne _ hne]
            exact hj

/-- A new connection: one number is in flight, the SYN's. -/
theorem connectTo (h : σ.SocketsOk) (hw : w.MtuOk) (id : Nat) (source : Bytes) (peer : NetAddress) :
    (σ.connectTo w i id source peer).SocketsOk := by
  rw [NetState.connectTo]
  dsimp only
  generalize hm : (σ.modify i fun s => { s with
    localAddr := { s.localAddr with interface := id, bytes := source }
    peer := { peer with interface := id } }) = σ₁
  have hother : ∀ j, j ≠ i → σ₁.sockets j = σ.sockets j := by
    intro j hne
    rw [← hm, modify_ne _ hne]
  have hself : (σ₁.sockets i).tcp = (σ.sockets i).tcp ∧
      (σ₁.sockets i).type = (σ.sockets i).type := by
    rw [← hm, modify_self]
    exact ⟨rfl, rfl⟩
  split
  · rename_i hudp
    intro j
    rcases eq_or_ne j i with rfl | hne
    · intro ht
      rw [onTcp_self] at ht
      rw [show (σ₁.sockets j).type = SockType.udp from hudp] at ht
      cases ht
    · rw [onTcp_ne _ hne, hother j hne]
      exact h j
  · refine pump ?_ hw
    intro j
    rcases eq_or_ne j i with rfl | hne
    · intro ht
      rw [onTcp_self] at ht ⊢
      rw [hself.1]
      have hs := h j (hself.2 ▸ ht)
      have hlt : w.random 1 % 2 ^ 32 < 2 ^ 32 := Nat.mod_lt _ (by decide)
      exact ⟨hs.sized.same rfl, ⟨hlt, Nat.mod_lt _ (by decide), hs.counted.head_lt,
        hs.counted.rx_le, hs.counted.tx_le, fun _ => rfl⟩⟩
    · rw [onTcp_ne _ hne, hother j hne]
      exact h j

theorem connect (h : σ.SocketsOk) (hw : w.MtuOk) (hd : Nat) (peer : NetAddress) :
    (σ.kNetConnect w hd peer).2.SocketsOk := by
  rw [kNetConnect]
  split
  · exact h
  · split
    · exact h
    · rename_i i _
      dsimp only
      split
      · exact h
      · split
        · split
          · exact h
          · have hb := h.autobind (w := w) (i := i)
            split
            · rename_i e
              rw [e] at hb
              exact hb
            · rename_i e
              rw [e] at hb
              split
              · exact hb
              · exact hb.connectTo hw _ _ _
        · split
          · exact h
          · exact h

theorem acceptLoop (id : Nat) (l : List Nat) : ∀ {σ : NetState}, σ.SocketsOk →
    (NetState.acceptLoop id l σ).2.SocketsOk := by
  induction l with
  | nil => exact fun h => h
  | cons i l ih =>
      intro σ h
      rw [NetState.acceptLoop]
      split
      · exact ih h
      · split
        · exact ih h.free
        · split
          · exact ih h
          · dsimp only
            exact Each.modify h fun hs ht => hs ht

theorem accept (h : σ.SocketsOk) (hd : Nat) : (σ.kNetAccept w hd).2.SocketsOk := by
  rw [kNetAccept]
  split
  · exact h
  · dsimp only
    split
    · exact h
    · exact acceptLoop _ _ h

theorem send (h : σ.SocketsOk) (hw : w.MtuOk) (hd : Nat) (bytes : List UInt8)
    (dest : Option NetAddress) : (σ.kNetSend w hd bytes dest).2.SocketsOk := by
  rw [kNetSend]
  split
  · exact h
  · split
    · exact h
    · rename_i i _
      dsimp only
      split
      · exact h
      · split
        · split
          · exact h
          · have hb := h.autobind (w := w) (i := i)
            obtain ⟨a, hi⟩ := netAutobind_sockets w i σ i
            split
            · rename_i e
              rw [e] at hb
              exact hb
            · rename_i e
              rw [e] at hb hi
              dsimp only
              split
              · rename_i hst
                refine hb.idle (Or.inl ?_) (Or.inl rfl)
                rw [hi]
                exact hst
              · exact hb
        · split
          · exact h
          · dsimp only
            refine onTcp h fun _ hs => ?_
            exact TcpSocket.Ok.sendCall (c := ⟨(σ.sockets i).tcp, [], 0⟩) hs (hw.env _ _) bytes

theorem receive (h : σ.SocketsOk) (hd n : Nat) : (σ.kNetReceive w hd n).2.SocketsOk := by
  rw [kNetReceive]
  split
  · exact h
  · split
    · exact h
    · rename_i i _
      dsimp only
      split
      · split
        · dsimp only
          exact onTcp h fun _ hs => hs.timers rfl rfl
        · split
          · exact h
          · dsimp only
            exact Each.modify h fun hs ht => hs ht
      · dsimp only
        refine onTcp h fun _ hs => ?_
        exact TcpSocket.Ok.receiveCall (c := ⟨(σ.sockets i).tcp, [], 0⟩) hs n

theorem closeInternal (h : σ.SocketsOk) (hw : w.MtuOk) : (σ.netCloseInternal w i).SocketsOk := by
  rw [netCloseInternal]
  split
  · exact h.free
  · split
    · refine free (Each.foldl (fun σ i h => ?_) _ h)
      rw [freeChild]
      split
      · exact SocketsOk.free h
      · exact h
    · exact h.call fun _ _ _ hs => hs.close (hw.env _ _)

theorem close (h : σ.SocketsOk) (hw : w.MtuOk) (hd : Nat) : (σ.kNetClose w hd).2.SocketsOk := by
  rw [kNetClose]
  split
  · exact h
  · exact h.closeInternal hw

theorem down (h : σ.SocketsOk) (interface : Nat) : (σ.netDown w interface).SocketsOk := by
  rw [netDown]
  refine Each.foldl (fun σ i h => ?_) _ h
  dsimp only
  split
  · exact SocketsOk.call h fun _ _ _ hs => hs.error _
  · exact h

theorem poll (h : σ.SocketsOk) (hw : w.MtuOk) (gc : Bool) : (σ.netPollSockets w gc).SocketsOk := by
  rw [netPollSockets]
  refine Each.foldl (fun σ i h => ?_) _ h
  dsimp only
  split
  · exact h
  · split
    · exact SocketsOk.closeInternal h hw
    · split
      · exact SocketsOk.free h
      · exact SocketsOk.pump h hw

theorem passive (h : σ.SocketsOk) (hw : w.MtuOk) (dev family : Nat) (src dst : Bytes)
    (sport dport : Nat) (m : Segment) (l : Nat) :
    (σ.passiveOpen w dev family src dst sport dport m l).SocketsOk := by
  rw [passiveOpen]
  dsimp only
  split
  · exact h
  · split
    · exact h
    · rename_i mss hopt
      have hmss : 64 ≤ mss ∧ mss ≤ 1440 := by
        obtain ⟨h₁, h₂⟩ := netTcpOptions_range hopt (by split <;> omega)
        refine ⟨h₁, h₂.trans ?_⟩
        split <;> omega
      split
      · exact h
      · rename_i i σ' hn
        obtain ⟨h', hi⟩ := h.new hn
        refine pump ?_ hw
        refine Each.modify h' fun hs ht => ?_
        have hz := (hs ht).sized
        have hc := (hs ht).counted
        have hlt : w.random 0 % 2 ^ 32 < 2 ^ 32 := Nat.mod_lt _ (by decide)
        refine ⟨⟨by show 0 < mss; omega, hmss.2, by show 0 < mss * 2; omega, ?_, hz.threshold_le,
          hz.srtt_le, hz.rttvar_le, hz.rto_ge, hz.rto_le, hz.retry_le⟩, ⟨hlt,
          Nat.mod_lt _ (by decide), hc.head_lt, hc.rx_le, hc.tx_le, fun _ => rfl⟩⟩
        show mss * 2 ≤ netStream
        rw [netStream]
        omega

/-- The socket that `net_tcp_input` finds has the sender as its peer. -/
theorem lookup_some {dev family sport dport : Nat} {src dst : Bytes} {l : List Nat}
    {listener q : Option Nat}
    (hl : σ.tcpLookup dev family src dst sport dport l listener = (some i, q)) :
    (σ.sockets i).type = .tcp ∧ netTakes (σ.sockets i) dev family dst dport = true ∧
      netFrom (σ.sockets i) family src sport = true ∧
      ¬((σ.sockets i).state = .listen ∧ (σ.sockets i).tcp.detached = false) := by
  induction l generalizing listener with
  | nil => cases hl
  | cons j l ih =>
      rw [tcpLookup] at hl
      split at hl
      · exact ih hl
      · rename_i htake
        split at hl
        · exact ih hl
        · rename_i hlisten
          split at hl
          · rename_i hfrom
            cases hl
            refine ⟨by_contra fun hne => htake (Or.inl hne), ?_, hfrom, hlisten⟩
            by_contra hne
            exact htake (Or.inr (by simpa using hne))
          · exact ih hl

theorem netBe16_lt (p : Bytes) (off : Nat) : netBe16 p off < 2 ^ 16 := by
  have h₀ := (p off).toNat_lt
  have h₁ := (p (off + 1)).toNat_lt
  simp only [netBe16]
  omega

theorem netBe32_lt (p : Bytes) (off : Nat) : netBe32 p off < 2 ^ 32 := by
  have h₀ := netBe16_lt p off
  have h₁ := netBe16_lt p (off + 2)
  simp only [netBe32]
  omega

/-- A socket with a peer is not waiting for one. -/
theorem connected (h : σ.SocketsOk) {family sport : Nat} {src : Bytes} (hs : sport ≠ 0)
    (ht : (σ.sockets i).type = .tcp) (hf : netFrom (σ.sockets i) family src sport = true) :
    (σ.sockets i).tcp.Ok False := by
  refine (h i ht).mono fun hz => hs ?_
  simp only [netFrom, Bool.and_eq_true, beq_iff_eq] at hf
  rw [← hf.1]
  exact hz

theorem tcpInput (h : σ.SocketsOk) (hw : w.MtuOk) (dev family : Nat) (src dst p : Bytes) (n : Nat) :
    (σ.netTcpInput w dev family src dst p n).SocketsOk := by
  rw [netTcpInput]
  split
  · exact h
  · dsimp only
    split
    · exact h
    · rename_i hok
      split
      · exact h
      · split
        · exact h
        · split
          · rename_i i q hl
            obtain ⟨ht, htake, hf, -⟩ := lookup_some hl
            have hsport : netBe16 p 0 ≠ 0 := by
              intro hz
              simp [hz] at hok
            have hu : (σ.sockets i).used = true := by
              simp only [netTakes, Bool.and_eq_true] at htake
              exact htake.1.1.1.1
            have hone : (σ.call w i fun env => Efishell.netTcpInput env
                (tcpSegment p n ((p 12).toNat / 16 * 4))).SocketsOk := by
              rw [NetState.call, NetState.onTcp]
              refine Each.modify h fun _ _ => ?_
              refine TcpSocket.Ok.mono ?_ False.elim
              exact TcpSocket.Ok.input (c := ⟨(σ.sockets i).tcp, [], 0⟩) (h.connected hsport ht hf)
                (hw.env _ _) hu (netBe32_lt _ _)
            exact hone
          · split
            · exact h.passive hw _ _ _ _ _ _ _ _
            · exact h
          · exact h

theorem udpInput (h : σ.SocketsOk) (dev family : Nat) (src dst p : Bytes) (n : Nat) :
    (σ.netUdpInput w dev family src dst p n).SocketsOk := by
  rw [netUdpInput]
  split
  · split
    · exact h
    · dsimp only
      split
      · exact h
      · split
        · exact h
        · split
          · exact h
          · split
            · exact h
            · exact Each.modify h fun hs ht => hs ht
  · exact h

theorem icmpLoop (dev family : Nat) (p q : Bytes) (quote : Quote) (kind : IcmpKind) (l : List Nat) :
    ∀ {σ : NetState}, σ.SocketsOk →
    (NetState.icmpLoop w dev family p q quote kind l σ).SocketsOk := by
  induction l with
  | nil => exact fun h => h
  | cons i l ih =>
      intro σ h
      rw [NetState.icmpLoop]
      split
      · exact ih h
      · split
        · split
          · exact ih h
          · split
            · split
              · exact ih h
              · rename_i hmtu
                split
                · rename_i hlow
                  refine onTcp h fun _ hs => ?_
                  refine hs.update ?_ rfl
                  have hz := hs.sized
                  have hle := hz.mss_le
                  -- the new segment size is below the old one, and the MTU leaves room for some
                  refine ⟨?_, ?_, hz.cwnd_pos, hz.cwnd_le, hz.threshold_le, hz.srtt_le,
                    hz.rttvar_le, hz.rto_ge, hz.rto_le, hz.retry_le⟩
                  · show 0 < icmpMss family p
                    rw [icmpLeast] at hmtu
                    rw [icmpMss]
                    split at hmtu
                    · rw [if_pos (by assumption)]
                      omega
                    · rw [if_neg (by assumption)]
                      omega
                  · exact Nat.le_trans (Nat.le_of_lt hlow) hle
                · exact h
            · split
              · exact call h fun _ _ _ hs => hs.error _
              · exact h
        · split
          · exact onTcp h fun _ hs => hs.timers rfl rfl
          · exact h

theorem icmp (h : σ.SocketsOk) (dev family : Nat) (dst p : Bytes) (n : Nat) :
    (σ.netIcmpFailure w dev family dst p n).SocketsOk := by
  rw [netIcmpFailure]
  split
  · exact h
  · dsimp only
    split
    · exact h
    · split
      · exact h
      · split
        · exact h
        · exact icmpLoop _ _ _ _ _ _ _ h

/-- **The step lemma**: every event keeps the invariant of every slot. -/
theorem step (h : σ.SocketsOk) (hw : w.MtuOk) (e : NetEvent) : (σ.step w e).SocketsOk := by
  cases e with
  | socket family type => exact h.socket family type
  | bind hd a => exact h.bind hd a
  | connect hd peer => exact h.connect hw hd peer
  | listen hd backlog => exact h.listen hd backlog
  | accept hd => exact h.accept hd
  | send hd bytes dest => exact h.send hw hd bytes dest
  | receive hd n => exact h.receive hd n
  | close hd => exact h.close hw hd
  | configure interface => exact h.down interface
  | poll gc => exact h.poll hw gc
  | tcp dev family src dst p n => exact h.tcpInput hw dev family src dst p n
  | udp dev family src dst p n => exact h.udpInput dev family src dst p n
  | icmp dev family dst p n => exact h.icmp dev family dst p n

end SocketsOk

end NetState

/-! ### The guarantee -/

/-- What holds of a TCP socket at any time. -/
structure TcpSocket.Safe (s : TcpSocket) : Prop where
  rx : s.rxCount ≤ netStream
  tx : s.txCount ≤ netStream
  data : s.state = .established ∨ s.state = .closeWait → sub32 s.sndNxt s.sndUna ≤ s.txCount
  fin : s.state = .finWait1 ∨ s.state = .closing ∨ s.state = .lastAck →
    s.txCount = 0 ∧ s.sndUna = s.finSeq ∧ s.sndNxt = add32 s.finSeq 1
  done : s.state = .finWait2 ∨ s.state = .timeWait → s.sndUna = s.sndNxt
  mss : 0 < s.mss
  /-- The divisor of the congestion avoidance. -/
  cwnd : 0 < s.cwnd
  rto : 1000 ≤ s.rto ∧ s.rto ≤ 60000
  retry : s.retry ≤ 8
  noWrap : s.NoWrap
  /-- The retransmissions of data read `tx` from its start, up to what is in flight. -/
  again : s.state.isSyn = false → s.state.isFin = false → s.state ≠ .error →
    min s.mss (sub32 s.sndNxt s.sndUna) ≤ s.txCount
  /-- New data is read from `tx` at `inflight`. -/
  slice : ∀ inflight window, inflight < s.txCount →
    inflight + min s.mss (min (s.txCount - inflight) (window - inflight)) ≤ netStream
  /-- `k_net_send` writes `tx` from `tx_count` on. -/
  fill : ∀ n, s.txCount + min n (netStream - s.txCount) ≤ netStream
  /-- A position of `rx` is `(rx_head + rx_count + i) % NET_STREAM`, a sum that does not wrap. -/
  ring : ∀ i < netStream, s.rxHead + s.rxCount + i < 2 ^ 32

/-- The early returns of `net_tcp_input` in the branch of an acknowledgement are not taken: not the
one on `ack != fin_seq + 1` and not the one on `acknowledged > tx_count`. -/
def TcpSocket.NoEarlyReturn (s : TcpSocket) (m : Segment) : Prop :=
  s.state ≠ .synSent → s.state ≠ .synRcvd → s.state ≠ .timeWait → s.state ≠ .error →
    netSeqBefore s.sndNxt m.ack = false → netSeqBefore s.sndUna m.ack = true →
    (s.state.isFin = true → m.ack = add32 s.finSeq 1) ∧
      (s.state.isFin = false → sub32 m.ack s.sndUna ≤ s.txCount)

/-- The invariant of a used socket says what is claimed of it. -/
theorem TcpSocket.Ok.safe {fresh : Prop} {s : TcpSocket} (h : s.Ok fresh) (hu : s.used = true) :
    s.Safe := by
  have htx : s.txCount ≤ netStream := h.counted.tx_le
  have hrx : s.rxCount ≤ netStream := h.counted.rx_le
  have hhead : s.rxHead < netStream := h.counted.head_lt
  have hp := h.counted.phase hu
  have hk : s.core.state = s.state := rfl
  rw [TcpCore.Phase, hk] at hp
  refine ⟨hrx, htx, h.open hu, fun hf => ?_, fun hd => ?_, h.sized.mss_pos, h.sized.cwnd_pos,
    ⟨h.sized.rto_ge, h.sized.rto_le⟩, h.sized.retry_le, h.sized.noWrap, fun hsyn hfin he => ?_,
    fun inflight window hlt => by omega, fun n => by omega, fun i hi => ?_⟩
  · refine h.fin hu ?_
    rcases hf with e | e | e <;> rw [e] <;> rfl
  · rcases hd with e | e
    · rw [e] at hp
      exact hp
    · rw [e] at hp
      exact hp
  · refine (Nat.min_le_right _ _).trans ?_
    have hnone : s.sndUna = s.sndNxt → sub32 s.sndNxt s.sndUna ≤ s.txCount := by
      intro e
      rw [e, sub32, Nat.add_sub_cancel, Nat.mod_self]
      exact Nat.zero_le _
    generalize s.state = st at hp hsyn hfin he
    cases st with
    | new | bound | listen => exact hnone hp.2
    | finWait2 | timeWait => exact hnone hp
    | established | closeWait => exact hp
    | synSent | synRcvd => cases hsyn
    | finWait1 | closing | lastAck => cases hfin
    | error => exact absurd rfl he
  · rw [netStream] at hhead hrx hi
    omega

/-- **TCP socket state invariant.**  After any sequence of calls, segments, ICMP errors and timer
rounds, with any segments and errors and any answers of the drivers, every TCP socket in use is
safe; and a segment that `net_tcp_input` gives to a socket never runs into the early returns. -/
theorem tcp_socket_invariant {σ : NetState} (h : NetRun (fun w _ _ => w.MtuOk) σ) :
    (∀ i, (σ.sockets i).used = true → (σ.sockets i).type = .tcp → (σ.sockets i).tcp.Safe) ∧
      ∀ (dev family : Nat) (src dst p : Bytes) (n i : Nat) (q : Option Nat), netBe16 p 0 ≠ 0 →
        σ.tcpLookup dev family src dst (netBe16 p 0) (netBe16 p 2) (List.range kNetMaxSockets) none
          = (some i, q) →
        (σ.sockets i).tcp.NoEarlyReturn (tcpSegment p n ((p 12).toNat / 16 * 4)) := by
  have hok : σ.SocketsOk := by
    refine NetRun.rule (I := NetState.SocketsOk) (fun i ht => ?_)
      (fun w σ e hI hw => NetState.SocketsOk.step hI hw e) h
    cases ht
  refine ⟨fun i hu ht => (hok i ht).safe hu, ?_⟩
  intro dev family src dst p n i q hsport hl h₀ h₁ h₂ h₃ hnew hold
  obtain ⟨ht, htake, hf, -⟩ := NetState.SocketsOk.lookup_some hl
  have hu : (σ.sockets i).used = true := by
    simp only [netTakes, Bool.and_eq_true] at htake
    exact htake.1.1.1.1
  have hs := NetState.SocketsOk.connected hok hsport ht hf
  rcases hs.ack_covers hu h₀ h₁ h₂ h₃ (NetState.SocketsOk.netBe32_lt _ _) hnew hold with
    ⟨hfin, hack⟩ | ⟨ho, hle⟩
  · refine ⟨fun _ => hack, fun hno => ?_⟩
    rw [hfin] at hno
    cases hno
  · refine ⟨fun hfin => ?_, fun _ => hle⟩
    rcases ho with e | e <;> rw [e] at hfin <;> cases hfin

/-- An interface with the IPv4 address `127.0.0.k`. -/
def loopDevice (k : UInt8) : NetDevice where
  dead := false
  up := true
  link := true
  ready4 := true
  ready6 := false
  address := fun i => if i = 0 then 127 else if i = 3 then k else 0
  mask := fun i => if i = 0 then 255 else 0
  gateway := fun _ => 0
  linkLocal6 := fun _ => 0
  address6 := fun _ => 0
  gateway6 := fun _ => 0
  prefix6 := 0
  dadglobal := 0
  mtu := 1500

/-- A world with the loopback interface, in which the drivers take every packet. -/
def loopWorld : NetWorld where
  now := 1
  task := 1
  privileged := true
  devices := [loopDevice 1]
  random := fun _ => 0
  icmpAllow := true
  send := fun _ _ => none
  gone := fun _ => false

/-- Port 80 of the loopback interface. -/
def loopPeer : NetAddress :=
  ⟨4, netNone, 80, 0, fun i => if i = 0 then 127 else if i = 3 then 1 else 0⟩

theorem loopWorld_mtuOk : loopWorld.MtuOk := by
  intro d hd
  rw [List.mem_singleton.mp hd]
  decide

/-- The table after a socket is made and connected. -/
def loopTable : NetState :=
  (netInit.step loopWorld (.socket 4 .tcp)).step loopWorld (.connect 1 loopPeer)

/-- A segment of the peer, from port 80 to the port of the socket. -/
def loopSegment (seq ack flags : UInt8) (sum₁ sum₂ : UInt8) (data : List UInt8) : Bytes := fun i =>
  ([0, 80, 192, 0, 0, 0, 0, seq, 0, 0, 0, ack, 80, flags, 16, 0, sum₁, sum₂, 0, 0] ++ data).getD i 0

/-- The peer accepts, and three bytes are sent. -/
def loopOpen : NetState :=
  (loopTable.step loopWorld
    (.tcp 0 4 loopPeer.bytes loopPeer.bytes (loopSegment 100 1 0x12 225 26 []) 20)).step
    loopWorld (.send 1 [1, 2, 3] none)

/-- It acknowledges them and sends two of its own. -/
def loopAnswered : NetState :=
  loopOpen.step loopWorld
    (.tcp 0 4 loopPeer.bytes loopPeer.bytes (loopSegment 101 4 0x18 159 204 [65, 66]) 22)

/-- A listener and a connection over the loopback. -/
theorem loopTable_run : NetRun (fun w _ _ => w.MtuOk) loopTable :=
  .step (.step .init loopWorld_mtuOk) loopWorld_mtuOk

/-- The handshake and some data. -/
theorem loopAnswered_run : NetRun (fun w _ _ => w.MtuOk) loopAnswered :=
  .step (.step (.step loopTable_run loopWorld_mtuOk) loopWorld_mtuOk) loopWorld_mtuOk

/-- A handshake, and data both ways. -/
theorem tcp_socket_invariant_connect :
    (loopTable.sockets 0).state = .synSent ∧ (loopAnswered.sockets 0).state = .established ∧
      (loopOpen.sockets 0).tcp.txCount = 3 ∧ (loopAnswered.sockets 0).tcp.txCount = 0 ∧
      (loopAnswered.sockets 0).tcp.rxCount = 2 ∧ (loopAnswered.sockets 0).tcp.Safe := by
  have hsafe := (tcp_socket_invariant loopAnswered_run).1 0 (by decide +kernel) (by decide +kernel)
  exact ⟨by decide +kernel, by decide +kernel, by decide +kernel, by decide +kernel, by
    decide +kernel, hsafe⟩

end Efishell
