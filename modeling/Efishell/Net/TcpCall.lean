import Efishell.Net.TcpHalf

/-!
# Networking — TCP calls keep the streams

Each function of the TCP code keeps `CtxOk`: `net_tcp_pump` here may send new data and the FIN, so
that `nxt` and `fin` grow; `net_tcp_input` may also take an acknowledgement (`una` grows) and data
(`rcv` grows).

* `CtxOk.pump`, `CtxOk.inputAck`, `CtxOk.inputData`: the parts of `net_tcp_pump` and
  `net_tcp_input`.
* `CtxOk.push`, `CtxOk.append`: bytes that are received, and bytes that are accepted.
-/

namespace Efishell

namespace CtxOk

variable {P : CallData} {una nxt rcv : Nat} {fin : Bool} {c : TcpCtx}

/-! ### `net_tcp_pump` -/

/-- The retransmission of the pump. -/
theorem retransmit (h : CtxOk P una nxt rcv fin c) (env : TcpEnv) (hu : c.sock.used = true)
    (he : c.sock.state ≠ .error) :
    CtxOk P una nxt rcv fin (pumpRetransmit env c).1 ∧
      ((pumpRetransmit env c).2 = false → (pumpRetransmit env c).1.sock.core = c.sock.core) := by
  rw [pumpRetransmit]
  split
  · rename_i hs
    split
    · split
      · exact ⟨h.error env _, fun hf => by cases hf⟩
      · have hp := h.packet env _ _ _ (h.again hu hs he)
        have hsock := sock_netTcpPacket env (pumpAgain c.sock).1 (pumpAgain c.sock).2.1
          (pumpAgain c.sock).2.2 c
        split
        · rename_i c' hc
          rw [hc] at hp hsock
          refine ⟨hp.update _ (pumpResent_core _ _), fun _ => ?_⟩
          rw [TcpCtx.update, pumpResent_core]
          exact congrArg TcpSocket.core hsock
        · rename_i e c' hc
          rw [hc] at hp hsock
          split
          · exact ⟨hp.error env _, fun hf => by cases hf⟩
          · exact ⟨hp, fun _ => congrArg TcpSocket.core hsock⟩
    · exact ⟨h, fun _ => rfl⟩
  · exact ⟨h, fun _ => rfl⟩

/-- The number of the next byte moves up after a segment of `n` bytes went out. -/
theorem advance (h : CtxOk P una nxt rcv fin c) (hu : c.sock.used = true) (ho : c.sock.state.Open)
    {n : Nat} (hn : nxt - una + n ≤ c.sock.txCount) {f : TcpSocket → TcpSocket}
    (hf : (f c.sock).core = { c.sock.core with sndNxt := add32 c.sock.sndNxt n }) :
    CtxOk P una (nxt + n) rcv fin (c.update f) := by
  obtain ⟨hfin, h1, hlen, hnxt, hcount, htx⟩ := (h.send.phase hu).open ho
  have hlen' : una + c.sock.txCount = P.acc.length + 1 := hlen
  have hle := h.send.una_le
  have hnx : c.sock.sndNxt = wrapSeq P.base nxt := h.send.nxt_eq
  have hcount' : c.sock.txCount ≤ netStream := hcount
  refine ⟨⟨?_, ?_, by omega, by omega, h.send.len_le, by omega, ?_, fun _ => ?_⟩, ?_, h.una_ge,
    h.una_le, h.una_rcv, by have := h.nxt_ge; omega, h.rcv_ge, h.rcv_le, fun m hm => ?_⟩
  · rw [TcpCtx.update, hf]
    exact h.send.una_eq
  · rw [TcpCtx.update, hf, hnx, add32_wrapSeq]
  · rw [TcpCtx.update, hf]
    exact h.send.closed
  · rw [TcpCtx.update, hf, TcpCore.PhaseOk]
    rcases ho with e | e
    · rw [show c.sock.core.state = .established from e]
      exact ⟨hfin, h1, hlen, by omega, hcount, htx⟩
    · rw [show c.sock.core.state = .closeWait from e]
      exact ⟨hfin, h1, hlen, by omega, hcount, htx⟩
  · rw [TcpCtx.update, hf]
    exact ⟨h.recv.rcv_eq, h.recv.count_le, h.recv.rcv_count, h.recv.stream, h.recv.len_le,
      h.recv.fin⟩
  · obtain ⟨seqNo, ackNo, h₁, h₂, h₃, h₄⟩ := h.out m hm
    exact ⟨seqNo, ackNo, h₁, h₂, by omega, h₄⟩

/-- The loop that sends new data. -/
theorem sendLoop (env : TcpEnv) (window fuel : Nat) :
    ∀ {nxt inflight : Nat} {c : TcpCtx}, CtxOk P una nxt rcv fin c → c.sock.used = true →
      c.sock.state.Open → inflight = nxt - una →
      ∃ nxt', CtxOk P una nxt' rcv fin (pumpSend env window fuel inflight c).1 ∧
        ∀ k, (pumpSend env window fuel inflight c).2 = some k →
          (pumpSend env window fuel inflight c).1.sock.used = true ∧
          (pumpSend env window fuel inflight c).1.sock.state.Open := by
  induction fuel with
  | zero =>
      intro nxt inflight c h hu ho _
      exact ⟨nxt, h, fun _ _ => ⟨hu, ho⟩⟩
  | succ fuel ih =>
      intro nxt inflight c h hu ho hin
      subst hin
      rw [pumpSend]
      split
      · rename_i hw
        have hle := h.send.una_le
        generalize hn :
            min c.sock.mss (min (c.sock.txCount - (nxt - una)) (window - (nxt - una))) = n
        have hn' : nxt - una + n ≤ c.sock.txCount := by omega
        -- the slice begins where the bytes in flight end
        have hseq : c.sock.sndNxt = wrapSeq P.base (una + (nxt - una)) := by
          rw [show una + (nxt - una) = nxt by omega]
          exact h.send.nxt_eq
        have hp := h.packet env c.sock.sndNxt .pshAck (c.sock.txSlice (nxt - una) n)
          (h.slice hu ho rfl rfl hn' (by omega) hseq)
        have hsock := sock_netTcpPacket env c.sock.sndNxt .pshAck (c.sock.txSlice (nxt - una) n) c
        dsimp only
        split
        · rename_i e c' hc
          rw [hc] at hp
          refine ⟨nxt, ?_, fun k hk => by cases hk⟩
          dsimp only
          split
          · exact hp.error env _
          · exact hp
        · rename_i c' hc
          rw [hc] at hp hsock
          have hsock' : c'.sock = c.sock := hsock
          refine ih (hp.advance (hsock'.symm ▸ hu) (hsock'.symm ▸ ho) (hsock'.symm ▸ hn') ?_) ?_ ?_
            (by omega)
          · dsimp only
            split <;> rfl
          · simp only [TcpCtx.update]
            split <;> exact hsock' ▸ hu
          · simp only [TcpCtx.update]
            split <;> exact hsock' ▸ ho
      · exact ⟨nxt, h, fun _ _ => ⟨hu, ho⟩⟩

/-- Its probe of a closed window. -/
theorem persist (h : CtxOk P una nxt rcv fin c) (env : TcpEnv) (inflight : Nat)
    (hu : c.sock.used = true) (ho : c.sock.state.Open) :
    CtxOk P una nxt rcv fin (pumpPersist env inflight c) ∧
      (pumpPersist env inflight c).sock.core = c.sock.core := by
  obtain ⟨-, h1, -, -, -, -⟩ := (h.send.phase hu).open ho
  rw [pumpPersist]
  split
  · have hun : c.sock.sndUna = wrapSeq P.base una := h.send.una_eq
    have hle := h.send.una_le
    have hge := h.una_ge
    refine ⟨(h.packet env _ _ _ (h.bare rfl rfl (?_ : _ = wrapSeq P.base (una - 1)) ?_ ?_)).update
      _ rfl, ?_⟩
    · rw [hun, sub32_wrapSeq_one h1]
    · omega
    · omega
    · have hsock := sock_netTcpPacket env (sub32 c.sock.sndUna 1) .onlyAck [] c
      have hcore := congrArg TcpSocket.core hsock
      exact hcore
  · exact ⟨h, rfl⟩

/-- The FIN takes the number after the last byte. -/
theorem finish (h : CtxOk P una nxt rcv fin c) (hu : c.sock.used = true) (ho : c.sock.state.Open)
    (hc : c.sock.closeRequested = true) (ht : c.sock.txCount = 0) :
    CtxOk P una (nxt + 1) rcv true (c.update pumpFin) := by
  obtain ⟨rfl, h1, hlen, hnxt, hcount, htx⟩ := (h.send.phase hu).open ho
  have hlen' : una + c.sock.txCount = P.acc.length + 1 := hlen
  have hle := h.send.una_le
  have hnx : c.sock.sndNxt = wrapSeq P.base nxt := h.send.nxt_eq
  obtain rfl : nxt = una := by omega
  refine ⟨⟨h.send.una_eq, ?_, by omega, ?_, h.send.len_le, ?_, fun _ => hc, fun _ => ?_⟩,
    ⟨h.recv.rcv_eq, h.recv.count_le, h.recv.rcv_count, h.recv.stream, h.recv.len_le, h.recv.fin⟩,
    h.una_ge, h.una_le, h.una_rcv, by have := h.nxt_ge; omega, h.rcv_ge, h.rcv_le, fun m hm => ?_⟩
  · show add32 c.sock.sndNxt 1 = wrapSeq P.base (nxt + 1)
    rw [hnx, add32_wrapSeq]
  · simp only [netStream]
    omega
  · rw [Bool.toNat_true]
    omega
  · have hph : (true = true) ∧ c.sock.txCount = 0 ∧ nxt = P.acc.length + 1 ∧ nxt + 1 = nxt + 1 ∧
        c.sock.sndNxt = wrapSeq P.base nxt := ⟨rfl, ht, by omega, rfl, hnx⟩
    show TcpCore.PhaseOk (pumpFin c.sock).core P.base P.acc nxt (nxt + 1) true
    rw [TcpCore.PhaseOk]
    by_cases hpf : c.sock.peerFin = true
    · rw [show (pumpFin c.sock).core.state = .lastAck from if_pos hpf]
      exact hph
    · rw [show (pumpFin c.sock).core.state = .finWait1 from if_neg hpf]
      exact hph
  · obtain ⟨seqNo, ackNo, h₁, h₂, h₃, h₄⟩ := h.out m hm
    exact ⟨seqNo, ackNo, h₁.mono ⟨[], (List.append_nil _).symm⟩ (fun hf => by cases hf)
      (Nat.le_refl _), h₂, by omega, h₄⟩

/-- The pump, by induction on how often it may call itself. -/
theorem pumpFuel (env : TcpEnv) (fuel : Nat) : ∀ {nxt : Nat} {fin : Bool} {c : TcpCtx},
    CtxOk P una nxt rcv fin c →
      ∃ nxt' fin', CtxOk P una nxt' rcv fin' (netTcpPumpFuel env fuel c) ∧
        (fin = true → fin' = true) := by
  induction fuel with
  | zero =>
      intro nxt fin c h
      exact ⟨nxt, fin, h, id⟩
  | succ fuel ih =>
      intro nxt fin c h
      rw [netTcpPumpFuel]
      dsimp only
      by_cases hu : c.sock.used = true
      · rw [if_neg (by rw [hu]; decide)]
        split
        · split
          · exact ⟨nxt, fin, h.drop, id⟩
          · exact ⟨nxt, fin, h, id⟩
        · split
          · split
            · exact ⟨nxt, fin, h.drop, id⟩
            · exact ⟨nxt, fin, h, id⟩
          · rename_i he
            split
            · exact ⟨nxt, fin, h.error env _, id⟩
            · split
              · exact ⟨nxt, fin, h.error env _, id⟩
              · have hclamp := h.update (pumpClampMss env) (pumpClampMss_core env _)
                have hcore : (c.update (pumpClampMss env)).sock.core = c.sock.core :=
                  pumpClampMss_core env _
                have hu' : (c.update (pumpClampMss env)).sock.used = true :=
                  (congrArg TcpCore.used hcore).trans hu
                have he' : (c.update (pumpClampMss env)).sock.state ≠ .error := fun e =>
                  he ((congrArg TcpCore.state hcore).symm.trans e)
                -- where the timer has nothing to send again, the streams are where they were
                obtain ⟨hre, hsame⟩ := hclamp.retransmit env hu' he'
                split
                · rename_i c' hc
                  rw [hc] at hre
                  exact ⟨nxt, fin, hre, id⟩
                · rename_i c' hc
                  rw [hc] at hre hsame
                  have hcore' : c'.sock.core = (c.update (pumpClampMss env)).sock.core := hsame rfl
                  have hu'' : c'.sock.used = true := (congrArg TcpCore.used hcore').trans hu'
                  split
                  · exact ⟨nxt, fin, hre, id⟩
                  · rename_i hst
                    have ho : c'.sock.state.Open := by
                      by_contra hno
                      exact hst ⟨fun e => hno (Or.inl e), fun e => hno (Or.inr e)⟩
                    have hin : sub32 c'.sock.sndNxt c'.sock.sndUna = nxt - una := by
                      have hns := hre.send.nxt_le
                      have hnx : c'.sock.sndNxt = wrapSeq P.base nxt := hre.send.nxt_eq
                      have hun : c'.sock.sndUna = wrapSeq P.base una := hre.send.una_eq
                      rw [hnx, hun, sub32_wrapSeq hre.send.una_le
                        (by simp only [netStream] at hns; omega)]
                    obtain ⟨nxt', hs, hsome⟩ := sendLoop env (min c'.sock.peerWindow c'.sock.cwnd)
                      netStream hre hu'' ho hin
                    split
                    · rename_i c'' hc''
                      rw [hc''] at hs
                      exact ⟨nxt', fin, hs, id⟩
                    · rename_i c'' inflight hc''
                      rw [hc''] at hs hsome
                      obtain ⟨hus, hos⟩ := hsome inflight rfl
                      obtain ⟨hper, hpc⟩ := hs.persist env inflight hus hos
                      have hup := (congrArg TcpCore.used hpc).trans hus
                      have hsp := congrArg TcpCore.state hpc
                      split
                      · rename_i hcl
                        rw [Bool.and_eq_true, beq_iff_eq] at hcl
                        have hop : (pumpPersist env inflight c'').sock.state.Open :=
                          (show (pumpPersist env inflight c'').sock.state = c''.sock.state from hsp)
                            ▸ hos
                        -- the FIN is sent, and the pump runs once more
                        obtain ⟨nxt'', fin'', hfin, himp⟩ := ih (hper.finish hup hop hcl.1 hcl.2)
                        exact ⟨nxt'', fin'', hfin, fun _ => himp rfl⟩
                      · exact ⟨nxt', fin, hper, id⟩
      · rw [if_pos (by simpa using hu)]
        exact ⟨nxt, fin, h, id⟩

/-- `net_tcp_pump` keeps the half of the connection in order. -/
theorem pump (h : CtxOk P una nxt rcv fin c) (env : TcpEnv) :
    ∃ nxt' fin', CtxOk P una nxt' rcv fin' (netTcpPump env c) ∧ (fin = true → fin' = true) :=
  pumpFuel env 2 h

end CtxOk

/-! ### The receive ring -/

/-- Writing `take` bytes from position `start` on, around the end of the ring. -/
def ringWrite (rx : Bytes) (start : Nat) (bytes : List UInt8) (take : Nat) : Bytes :=
  (List.range take).foldl
    (fun rx i => Function.update rx ((start + i) % netStream) (bytes.getD i 0)) rx

/-- One more byte written in the ring. -/
theorem ringWrite_succ (rx : Bytes) (start : Nat) (bytes : List UInt8) (take : Nat) :
    ringWrite rx start bytes (take + 1) =
      Function.update (ringWrite rx start bytes take) ((start + take) % netStream)
        (bytes.getD take 0) := by
  rw [ringWrite, List.range_succ, List.foldl_append]
  rfl

/-- The bytes beside those written stay. -/
theorem ringWrite_other {rx : Bytes} {start q : Nat} {bytes : List UInt8} {take : Nat}
    (h : ∀ i < take, q ≠ (start + i) % netStream) : ringWrite rx start bytes take q = rx q := by
  induction take with
  | zero => rfl
  | succ take ih =>
      rw [ringWrite_succ, Function.update_of_ne (h take (Nat.lt_succ_self take))]
      exact ih fun i hi => h i (Nat.lt_succ_of_lt hi)

/-- Positions less than a ring apart are different. -/
theorem ring_ne {start i j : Nat} (h : i < j) (h' : j < i + netStream) :
    (start + i) % netStream ≠ (start + j) % netStream := by
  simp only [netStream] at h' ⊢
  omega

/-- The bytes written are there. -/
theorem ringWrite_at {rx : Bytes} {start i : Nat} {bytes : List UInt8} {take : Nat}
    (ht : take ≤ netStream) (hi : i < take) :
    ringWrite rx start bytes take ((start + i) % netStream) = bytes.getD i 0 := by
  induction take with
  | zero => omega
  | succ take ih =>
      rw [ringWrite_succ]
      rcases Nat.lt_or_ge i take with e | e
      · rw [Function.update_of_ne (ring_ne e (by omega))]
        exact ih (by omega) e
      · obtain rfl : i = take := by omega
        exact Function.update_self _ _ _

/-- The ring after `take` bytes went in. -/
theorem ring_rxPush {s : TcpSocket} {bytes : List UInt8} {take : Nat}
    (h : s.rxCount + take ≤ netStream) (ht : take ≤ bytes.length) :
    (s.rxPush bytes take).core.ring = s.core.ring ++ bytes.take take := by
  have hrx : (s.rxPush bytes take).core.rx = ringWrite s.rx (s.rxHead + s.rxCount) bytes take := rfl
  have hcount : (s.rxPush bytes take).core.rxCount = s.rxCount + take := rfl
  have hhead : (s.rxPush bytes take).core.rxHead = s.rxHead := rfl
  rw [TcpCore.ring, hcount, hhead, hrx, List.range_add, List.map_append, TcpCore.ring]
  congr 1
  · refine List.map_congr_left fun i hi => ?_
    have hi' := List.mem_range.mp hi
    have hi'' : i < s.rxCount := hi'
    refine ringWrite_other fun j hj => ?_
    rw [Nat.add_assoc]
    exact ring_ne (by omega) (by omega)
  · refine List.ext_getElem? fun i => ?_
    rw [List.map_map, List.getElem?_map, List.getElem?_take]
    by_cases hi : i < take
    · rw [List.getElem?_range hi, if_pos hi]
      simp only [Option.map_some, Function.comp_apply]
      rw [← Nat.add_assoc, ringWrite_at (by omega) hi, List.getD_eq_getElem?_getD,
        List.getElem?_eq_getElem (by omega), Option.getD_some]
    · rw [if_neg hi, List.getElem?_eq_none (by rw [List.length_range]; omega)]
      rfl

/-- What `k_net_receive` takes from the ring and what it leaves. -/
theorem ring_split {s : TcpSocket} {take : Nat} (h : take ≤ s.rxCount) :
    s.core.ring = s.rxBytes take ++
      (List.range (s.rxCount - take)).map fun i =>
        s.rx (((s.rxHead + take) % netStream + i) % netStream) := by
  have hcount : s.core.rxCount = take + (s.rxCount - take) := (Nat.add_sub_cancel' h).symm
  rw [TcpCore.ring, hcount, List.range_add, List.map_append, TcpSocket.rxBytes, List.map_map]
  congr 1
  refine List.map_congr_left fun i _ => ?_
  simp only [Function.comp_apply, Nat.mod_add_mod, Nat.add_assoc]
  rfl

/-! ### `net_tcp_input` -/

/-- A segment of the peer that is neither SYN nor RST, delivered at the start of a call: what it
carries, and that neither of its numbers is `2 ^ 31` or more behind the receiver's. -/
structure Incoming (P : CallData) (fin : Bool) (m : Segment) (seqNo ackNo : Nat) : Prop where
  seq_eq : m.seq = wrapSeq P.peerBase seqNo
  ack_eq : m.ack = wrapSeq P.base ackNo
  seq_le : seqNo ≤ P.accP.length + 1 + P.finP.toNat
  ack_le : ackNo ≤ P.rcvP
  rcvP_le : P.rcvP ≤ P.acc.length + 1 + fin.toNat
  accP_le : P.accP.length + 1 ≤ P.rcv₀ + netStream
  seq_age : P.rcv₀ < seqNo + 2 ^ 31
  ack_age : P.nxt₀ < ackNo + 2 ^ 31
  data : m.bytes ≠ [] → 1 ≤ seqNo ∧ seqNo - 1 + m.bytes.length ≤ P.accP.length ∧
    m.bytes = (P.accP.drop (seqNo - 1)).take m.bytes.length
  fin : m.flags.fin = true → m.bytes = [] ∧ P.finP = true ∧ seqNo = P.accP.length + 1

namespace CtxOk

variable {P : CallData} {una nxt rcv : Nat} {fin : Bool} {c : TcpCtx}

/-- An acknowledgement moves the send half. -/
theorem setSend (h : CtxOk P una nxt rcv fin c) {f : TcpSocket → TcpSocket} {una' : Nat}
    (hsend : SendOk P.base P.acc (f c.sock).core una' nxt fin)
    (hrecv : RecvOk P.peerBase P.accP P.finP P.dl (f c.sock).core rcv) (hge : una ≤ una')
    (hle : una' ≤ P.nxt₀) (hle' : una' ≤ P.rcvP) : CtxOk P una' nxt rcv fin (c.update f) :=
  ⟨hsend, hrecv, h.una_ge.trans hge, hle, hle', h.nxt_ge, h.rcv_ge, h.rcv_le, h.out⟩

/-- Data or a FIN moves the receive half. -/
theorem setRecv (h : CtxOk P una nxt rcv fin c) {f : TcpSocket → TcpSocket} {rcv' : Nat}
    (hsend : SendOk P.base P.acc (f c.sock).core una nxt fin)
    (hrecv : RecvOk P.peerBase P.accP P.finP P.dl (f c.sock).core rcv') (hge : rcv ≤ rcv')
    (hle : rcv' ≤ P.rcv₀ + netStream + 1) : CtxOk P una nxt rcv' fin (c.update f) := by
  refine ⟨hsend, hrecv, h.una_ge, h.una_le, h.una_rcv, h.nxt_ge, h.rcv_ge.trans hge, hle,
    fun m hm => ?_⟩
  obtain ⟨seqNo, ackNo, h₁, h₂, h₃, h₄⟩ := h.out m hm
  exact ⟨seqNo, ackNo, h₁.mono ⟨[], (List.append_nil _).symm⟩ (fun e => ⟨e, rfl⟩) hge, h₂, h₃, h₄⟩

/-- In `NS_SYN_RCVD` the acknowledgement of the SYN opens the connection. -/
theorem ackSyn (h : CtxOk P una nxt rcv fin c) (env : TcpEnv) {m : Segment} {seqNo ackNo : Nat}
    (hm : Incoming P fin m seqNo ackNo) (hu : c.sock.used = true) (hs : c.sock.state = .synRcvd)
    (hnxt : nxt = P.nxt₀) (ha : m.ack = c.sock.sndNxt) :
    ∃ una', CtxOk P una' nxt rcv fin (c.update fun s =>
      { netTcpRtt env.now
        { s with sndUna := m.ack, state := .established } with sentAt := 0 }) := by
  have hph := h.send.phase hu
  rw [TcpCore.PhaseOk, show c.sock.core.state = .synRcvd from hs] at hph
  obtain ⟨hacc, rfl, rfl, ht, rfl⟩ := hph
  have ht' : c.sock.txCount = 0 := ht
  have hle := hm.rcvP_le
  have hack := hm.ack_le
  rw [hacc] at hle
  simp only [List.length_nil, Bool.toNat_false] at hle
  have hno : ackNo = 1 := by
    have hnx : c.sock.sndNxt = wrapSeq P.base 1 := h.send.nxt_eq
    have hage := hm.ack_age
    have heq : wrapSeq P.base ackNo = wrapSeq P.base 1 := hm.ack_eq.symm.trans (ha.trans hnx)
    exact wrapSeq_inj (by omega) (by omega) heq
  have hcore := netTcpRtt_core env.now { c.sock with sndUna := m.ack, state := .established }
  refine ⟨1, h.setSend ?_ ?_ (Nat.zero_le _) (by omega) (by omega)⟩
  · show SendOk P.base P.acc (netTcpRtt env.now
      { c.sock with sndUna := m.ack, state := .established }).core 1 1 false
    rw [hcore]
    refine ⟨?_, h.send.nxt_eq, Nat.le_refl _, by simp only [netStream]; omega, ?_, h.send.nxt_len,
      h.send.closed, fun _ => ⟨rfl, Nat.le_refl _, ?_, ?_, ?_, ?_⟩⟩
    · exact hm.ack_eq.trans (by rw [hno])
    · rw [hacc]
      simp only [List.length_nil, netStream]
      omega
    · show 1 + c.sock.txCount = P.acc.length + 1
      rw [hacc, ht', List.length_nil]
    · omega
    · show c.sock.txCount ≤ netStream
      omega
    · intro i hi
      have hi' : i < c.sock.txCount := hi
      omega
  · show RecvOk P.peerBase P.accP P.finP P.dl (netTcpRtt env.now
      { c.sock with sndUna := m.ack, state := .established }).core rcv
    rw [hcore]
    exact ⟨h.recv.rcv_eq, h.recv.count_le, h.recv.rcv_count, h.recv.stream, h.recv.len_le,
      h.recv.fin⟩

/-- The acknowledgement of the FIN. -/
theorem ackOfFin (h : CtxOk P una nxt rcv fin c) (env : TcpEnv) {m : Segment} {seqNo ackNo : Nat}
    (hm : Incoming P fin m seqNo ackNo) (hu : c.sock.used = true) (hs : c.sock.state.isFin = true)
    (hnxt : nxt = P.nxt₀) (hlt : una < ackNo) (hle : ackNo ≤ nxt) :
    ∃ una', CtxOk P una' nxt rcv fin (c.update (ackFin env.now m.ack)) := by
  have hph := h.send.phase hu
  have hfin : fin = true ∧ c.sock.txCount = 0 ∧ nxt = una + 1 := by
    have hk : c.sock.core.state = c.sock.state := rfl
    rw [TcpCore.PhaseOk, hk] at hph
    cases hst : c.sock.state <;> simp only [hst, TcpState.isFin] at hph hs
    all_goals first | exact ⟨hph.1, hph.2.1, hph.2.2.2.1⟩ | cases hs
  obtain ⟨rfl, ht, hnx⟩ := hfin
  obtain rfl : ackNo = nxt := by omega
  refine ⟨ackNo, h.setSend ?_ ?_ (by omega) (by omega) hm.ack_le⟩
  · have hdone : ∀ k : TcpCore, k.sndUna = m.ack → k.sndNxt = c.sock.sndNxt → k.txCount = 0 →
        k.closeRequested = c.sock.closeRequested →
        (k.used = false ∨ k.state = .finWait2 ∨ k.state = .timeWait) →
        SendOk P.base P.acc k ackNo ackNo true := by
      intro k hun hnx' hcount hclose hcase
      have hl := h.send.len_le
      refine ⟨hun.trans hm.ack_eq, hnx'.trans h.send.nxt_eq, Nat.le_refl _, Nat.le_add_right _ _,
        by omega, h.send.nxt_len, fun e => hclose.trans (h.send.closed e), fun hu' => ?_⟩
      rw [TcpCore.PhaseOk]
      rcases hcase with e | e | e
      · rw [e] at hu'
        cases hu'
      · rw [e]
        exact ⟨rfl, hcount, rfl⟩
      · rw [e]
        exact ⟨rfl, hcount, rfl⟩
    rw [ackFin]
    dsimp only
    split
    · exact hdone _ rfl rfl ht rfl (Or.inl rfl)
    · split
      · exact hdone _ rfl rfl ht rfl (Or.inr (Or.inr rfl))
      · exact hdone _ rfl rfl ht rfl (Or.inr (Or.inl rfl))
  · have hr := h.recv
    rw [ackFin]
    dsimp only
    split
    · exact ⟨hr.rcv_eq, hr.count_le, hr.rcv_count, hr.stream, hr.len_le, hr.fin⟩
    · split <;> exact ⟨hr.rcv_eq, hr.count_le, hr.rcv_count, hr.stream, hr.len_le, hr.fin⟩

/-- What an acknowledgement changes. -/
theorem ackData_core (now ack : Nat) (s : TcpSocket) :
    (ackData now ack s).core = { s.core with
      tx := fun i => if i < s.txCount - sub32 ack s.sndUna then s.tx (i + sub32 ack s.sndUna)
        else s.tx i
      txCount := s.txCount - sub32 ack s.sndUna
      sndUna := ack } := by
  have h := netTcpRtt_core now { s with
    tx := fun i => if i < s.txCount - sub32 ack s.sndUna then s.tx (i + sub32 ack s.sndUna)
      else s.tx i
    txCount := s.txCount - sub32 ack s.sndUna
    sndUna := ack }
  exact h

/-- The acknowledgement of data moves the buffer down. -/
theorem ackOfData (h : CtxOk P una nxt rcv fin c) (env : TcpEnv) {m : Segment} {seqNo ackNo : Nat}
    (hm : Incoming P fin m seqNo ackNo) (hu : c.sock.used = true) (ho : c.sock.state.Open)
    (hnxt : nxt = P.nxt₀) (hlt : una < ackNo) (hle : ackNo ≤ nxt) :
    ∃ una', CtxOk P una' nxt rcv fin (c.update (ackData env.now m.ack)) := by
  obtain ⟨hfin, h1, hlen, hnx, hcount, htx⟩ := (h.send.phase hu).open ho
  have hlen' : una + c.sock.txCount = P.acc.length + 1 := hlen
  have hcount' : c.sock.txCount ≤ netStream := hcount
  have hns := h.send.nxt_le
  have hsub : sub32 m.ack c.sock.sndUna = ackNo - una := by
    have hun : c.sock.sndUna = wrapSeq P.base una := h.send.una_eq
    rw [hm.ack_eq, hun, sub32_wrapSeq (by omega) (by simp only [netStream] at hns; omega)]
  have hcore := ackData_core env.now m.ack c.sock
  rw [hsub] at hcore
  refine ⟨ackNo, h.setSend ?_ ?_ (by omega) (by omega) hm.ack_le⟩
  · rw [hcore]
    refine ⟨hm.ack_eq, h.send.nxt_eq, hle, by omega, ?_, h.send.nxt_len, h.send.closed, fun _ => ?_⟩
    · have := h.send.len_le
      omega
    · have hph : fin = false ∧ 1 ≤ ackNo ∧
          ackNo + (c.sock.txCount - (ackNo - una)) = P.acc.length + 1 ∧ nxt ≤ P.acc.length + 1 ∧
          c.sock.txCount - (ackNo - una) ≤ netStream ∧
          ∀ i < c.sock.txCount - (ackNo - una), P.acc[ackNo - 1 + i]? =
            some (if i < c.sock.txCount - (ackNo - una) then c.sock.tx (i + (ackNo - una))
              else c.sock.tx i) := by
        refine ⟨hfin, by omega, by omega, hnx, by omega, fun i hi => ?_⟩
        rw [if_pos hi]
        have := htx (i + (ackNo - una)) (show i + (ackNo - una) < c.sock.txCount by omega)
        rw [show una - 1 + (i + (ackNo - una)) = ackNo - 1 + i by omega] at this
        exact this
      rw [TcpCore.PhaseOk]
      rcases ho with e | e
      · rw [show c.sock.core.state = .established from e]
        exact hph
      · rw [show c.sock.core.state = .closeWait from e]
        exact hph
  · rw [hcore]
    exact ⟨h.recv.rcv_eq, h.recv.count_le, h.recv.rcv_count, h.recv.stream, h.recv.len_le,
      h.recv.fin⟩

/-- Duplicate acknowledgements. -/
theorem duplicate (h : CtxOk P una nxt rcv fin c) (env : TcpEnv) (hu : c.sock.used = true)
    (he : c.sock.state ≠ .error) (ht : c.sock.txCount ≠ 0) :
    CtxOk P una nxt rcv fin (inputDuplicate env c) := by
  have ho : c.sock.state.Open := (h.send.phase hu).open_of_tx he ht
  have h₁ := h.update (fun s => { s with dupacks := add32 s.dupacks 1 }) rfl
  rw [inputDuplicate]
  dsimp only
  split
  · generalize hc' : (c.update fun s => { s with dupacks := add32 s.dupacks 1 }).update
        (fun s => { s with
      threshold := max (2 * s.mss) (s.cwnd / 2)
      cwnd := s.mss
      retransmitted := true
      sentAt := env.now }) = c'
    have h₂ : CtxOk P una nxt rcv fin c' := hc' ▸ h₁.update _ rfl
    have hcore : c'.sock.core = c.sock.core := by
      rw [← hc']
      rfl
    have hu' : c'.sock.used = true := (congrArg TcpCore.used hcore).trans hu
    have hst : c'.sock.state = c.sock.state := congrArg TcpCore.state hcore
    have ho' : c'.sock.state.Open := hst.symm ▸ ho
    refine h₂.packet env _ _ _ (h₂.slice hu' ho' rfl rfl ?_ h₂.send.una_le h₂.send.una_eq)
    obtain ⟨-, h1, hlen, hnx, -, -⟩ := (h₂.send.phase hu').open ho'
    have hlen' : una + c'.sock.txCount = P.acc.length + 1 := hlen
    have hns := h₂.send.nxt_le
    have hle := h₂.send.una_le
    have hnx' : c'.sock.sndNxt = wrapSeq P.base nxt := h₂.send.nxt_eq
    have hun : c'.sock.sndUna = wrapSeq P.base una := h₂.send.una_eq
    rw [hnx', hun, sub32_wrapSeq hle (by simp only [netStream] at hns; omega)]
    omega
  · exact h₁

/-- The acknowledgement field of a segment. -/
theorem inputAck (h : CtxOk P una nxt rcv fin c) (env : TcpEnv) {m : Segment} {seqNo ackNo : Nat}
    (hm : Incoming P fin m seqNo ackNo) (hu : c.sock.used = true) (he : c.sock.state ≠ .error)
    (hnxt : nxt = P.nxt₀) (hb : netSeqBefore c.sock.sndNxt m.ack = false) :
    ∃ una', CtxOk P una' nxt rcv fin (inputAck env m c).1 := by
  have hun : c.sock.sndUna = wrapSeq P.base una := h.send.una_eq
  have hnx : c.sock.sndNxt = wrapSeq P.base nxt := h.send.nxt_eq
  have hle := h.send.una_le
  have hlen := h.send.len_le
  have hage := hm.ack_age
  have hack := hm.ack_le
  have hP := hm.rcvP_le
  have hfin1 : fin.toNat ≤ 1 := Bool.toNat_le fin
  simp only [netStream] at hlen
  -- the acknowledgement is not ahead of what was sent
  have hno : ackNo ≤ nxt := by
    rw [hnx, hm.ack_eq, netSeqBefore_wrapSeq (by omega) (by omega), decide_eq_false_iff_not] at hb
    omega
  rw [Efishell.inputAck]
  dsimp only
  split
  · rename_i hs
    split
    · exact ⟨una, h⟩
    · rename_i ha
      exact h.ackSyn env hm hu hs hnxt (by by_contra hne; exact ha (Or.inl hne))
  · rw [hun, hm.ack_eq, netSeqBefore_wrapSeq (by omega) (by omega), ← hm.ack_eq, ← hun]
    split
    · rename_i hlt
      have hlt' : una < ackNo := decide_eq_true_eq.mp hlt
      split
      · rename_i hf
        split
        · exact ⟨una, h⟩
        · exact h.ackOfFin env hm hu hf hnxt hlt' hno
      · rename_i hf
        split
        · exact ⟨una, h⟩
        · rename_i hcnt
          have hsub : sub32 m.ack c.sock.sndUna = ackNo - una := by
            have hns := h.send.nxt_le
            rw [hm.ack_eq, hun, sub32_wrapSeq (by omega) (by simp only [netStream] at hns; omega)]
          rw [hsub] at hcnt
          have ho : c.sock.state.Open := (h.send.phase hu).open_of_tx he
            (show c.sock.txCount ≠ 0 by omega)
          exact h.ackOfData env hm hu ho hnxt hlt' hno
    · split
      · rename_i hdup
        exact ⟨una, h.duplicate env hu he hdup.2.1⟩
      · exact ⟨una, h⟩

/-- Bytes that continue the stream go into the ring. -/
theorem push (h : CtxOk P una nxt rcv fin c) {bytes : List UInt8} {take : Nat}
    (hcap : c.sock.rxCount + take ≤ netStream) (ht : take ≤ bytes.length)
    (hle : rcv + take ≤ P.rcv₀ + netStream + 1)
    (hdata : take ≠ 0 → c.sock.peerFin = false ∧ rcv - 1 + take ≤ P.accP.length ∧
      bytes.take take = (P.accP.drop (rcv - 1)).take take) :
    CtxOk P una nxt (rcv + take) fin (c.update fun s => s.rxPush bytes take) := by
  have hr := h.recv
  have hcount := hr.rcv_count
  have hrx : c.sock.core.rxCount = c.sock.rxCount := rfl
  have hpf : c.sock.core.peerFin = c.sock.peerFin := rfl
  rw [hrx, hpf] at hcount
  have hrx' : (c.sock.rxPush bytes take).core.rxCount = c.sock.rxCount + take := rfl
  refine h.setRecv ?_ ⟨?_, hcap, ?_, ?_, ?_, ?_⟩ (Nat.le_add_right _ _) hle
  · exact ⟨h.send.una_eq, h.send.nxt_eq, h.send.una_le, h.send.nxt_le, h.send.len_le,
      h.send.nxt_len, h.send.closed, h.send.phase⟩
  · show add32 c.sock.core.rcvNxt take = _
    rw [hr.rcv_eq, add32_wrapSeq]
  · show rcv + take = 1 + P.dl.length + (c.sock.rxCount + take) + c.sock.peerFin.toNat
    omega
  · -- the ring goes on where the stream did
    rw [ring_rxPush hcap ht, hrx', ← List.append_assoc, hr.stream, hrx]
    by_cases h0 : take = 0
    · rw [h0, List.take_zero, List.append_nil, Nat.add_zero]
    · obtain ⟨hf, -, hb⟩ := hdata h0
      rw [hf] at hcount
      simp only [Bool.toNat_false] at hcount
      rw [hb, show rcv - 1 = P.dl.length + c.sock.rxCount by omega, ← Nat.add_assoc]
      exact List.take_add.symm
  · rw [hrx']
    have hl := hr.len_le
    rw [hrx] at hl
    by_cases h0 : take = 0
    · omega
    · obtain ⟨hf, hb, -⟩ := hdata h0
      rw [hf] at hcount
      simp only [Bool.toNat_false] at hcount
      omega
  · intro hf
    have hf' : c.sock.peerFin = true := hf
    obtain ⟨e₁, e₂⟩ := hr.fin hf
    refine ⟨e₁, ?_⟩
    by_cases h0 : take = 0
    · rw [hrx', h0]
      exact e₂
    · have hf'' := (hdata h0).1
      rw [hf'] at hf''
      cases hf''

/-- The FIN that follows the last byte of the peer. -/
theorem peerFin (h : CtxOk P una nxt rcv fin c) (now : Nat) (hf : c.sock.peerFin = false)
    (hfinP : P.finP = true) (hlen : rcv = P.accP.length + 1)
    (hle : rcv + 1 ≤ P.rcv₀ + netStream + 1) :
    CtxOk P una nxt (rcv + 1) fin (c.update fun s => s.takeFin now) := by
  have hr := h.recv
  have hcount : rcv = 1 + P.dl.length + c.sock.rxCount + c.sock.peerFin.toNat := hr.rcv_count
  rw [hf] at hcount
  simp only [Bool.toNat_false] at hcount
  have hrecv : ∀ k : TcpCore, k.rcvNxt = add32 c.sock.rcvNxt 1 → k.rxCount = c.sock.rxCount →
      k.peerFin = true → k.ring = c.sock.core.ring →
      RecvOk P.peerBase P.accP P.finP P.dl k (rcv + 1) := by
    intro k hnx hrx hp hring
    have hrn : c.sock.rcvNxt = wrapSeq P.peerBase rcv := hr.rcv_eq
    refine ⟨?_, hrx.trans_le hr.count_le, ?_, ?_, ?_, fun _ => ⟨hfinP, ?_⟩⟩
    · rw [hnx, hrn, add32_wrapSeq]
    · rw [hrx, hp, Bool.toNat_true]
      omega
    · rw [hring, hrx]
      exact hr.stream
    · rw [hrx]
      exact hr.len_le
    · omega
  have hsend : ∀ k : TcpCore, k.sndUna = c.sock.sndUna → k.sndNxt = c.sock.sndNxt →
      k.closeRequested = c.sock.closeRequested → k.used = c.sock.used →
      (c.sock.core.PhaseOk P.base P.acc una nxt fin → k.PhaseOk P.base P.acc una nxt fin) →
      SendOk P.base P.acc k una nxt fin := by
    intro k hun hnx hcl hu hph
    exact ⟨hun.trans h.send.una_eq, hnx.trans h.send.nxt_eq, h.send.una_le, h.send.nxt_le,
      h.send.len_le, h.send.nxt_len, fun e => hcl.trans (h.send.closed e),
      fun hu' => hph (h.send.phase (hu.symm.trans hu'))⟩
  -- each state goes to the one with the same send half
  have hstep : SendOk P.base P.acc (c.sock.takeFin now).core una nxt fin ∧
      RecvOk P.peerBase P.accP P.finP P.dl (c.sock.takeFin now).core (rcv + 1) := by
    have hk : c.sock.core.state = c.sock.state := rfl
    rw [TcpSocket.takeFin]
    dsimp only
    split
    · rename_i e
      refine ⟨hsend _ rfl rfl rfl rfl fun hph => ?_, hrecv _ rfl rfl rfl rfl⟩
      rw [TcpCore.PhaseOk, hk, e] at hph
      exact hph
    · split
      · rename_i e
        refine ⟨hsend _ rfl rfl rfl rfl fun hph => ?_, hrecv _ rfl rfl rfl rfl⟩
        rw [TcpCore.PhaseOk, hk, e] at hph
        exact hph
      · split
        · rename_i e
          refine ⟨hsend _ rfl rfl rfl rfl fun hph => ?_, hrecv _ rfl rfl rfl rfl⟩
          rw [TcpCore.PhaseOk, hk, e] at hph
          exact hph
        · exact ⟨hsend _ rfl rfl rfl rfl id, hrecv _ rfl rfl rfl rfl⟩
  exact h.setRecv hstep.1 hstep.2 (Nat.le_add_right _ _) hle

/-- The data and the FIN of a segment. -/
theorem inputData (h : CtxOk P una nxt rcv fin c) (env : TcpEnv) {m : Segment} {seqNo ackNo : Nat}
    (hm : Incoming P fin m seqNo ackNo) (hrcv : rcv = P.rcv₀)
    (hp : c.sock.peerFin = true → m.bytes = []) :
    ∃ rcv', CtxOk P una nxt rcv' fin (inputData env m c).1 := by
  have hrn : c.sock.rcvNxt = wrapSeq P.peerBase rcv := h.recv.rcv_eq
  have hcap : c.sock.rxCount ≤ netStream := h.recv.count_le
  have hseq := hm.seq_le
  have hage := hm.seq_age
  have hacc := hm.accP_le
  have hf1 : P.finP.toNat ≤ 1 := Bool.toNat_le P.finP
  simp only [netStream] at hacc hcap
  rw [Efishell.inputData]
  dsimp only
  split
  · exact ⟨rcv, h⟩
  · rw [hrn, hm.seq_eq, netSeqBefore_wrapSeq (by omega) (by omega)]
    generalize ht : (if decide (seqNo < rcv) = true then
      min (sub32 (wrapSeq P.peerBase rcv) (wrapSeq P.peerBase seqNo)) m.bytes.length else 0) = trim
    have htrim : trim ≤ m.bytes.length ∧ trim ≤ rcv - seqNo := by
      rw [← ht]
      split
      · rename_i hlt
        have hlt' := decide_eq_true_eq.mp hlt
        rw [sub32_wrapSeq (by omega) (by omega)]
        omega
      · omega
    clear ht
    split
    · exact ⟨rcv, h.ack env⟩
    · rename_i heq
      have heq' := Decidable.not_not.mp heq
      rw [add32_wrapSeq] at heq'
      -- what is left of the segment starts at the number expected
      have hat : seqNo + trim = rcv := wrapSeq_inj (by omega) (by omega) heq'
      generalize hk : min (m.bytes.drop trim).length (netStream - c.sock.rxCount) = take
      have htake : take ≤ (m.bytes.drop trim).length ∧ take ≤ netStream - c.sock.rxCount := by omega
      have hlen : (m.bytes.drop trim).length = m.bytes.length - trim := List.length_drop
      have hpush : CtxOk P una nxt (rcv + take) fin
          (c.update fun s => s.rxPush (m.bytes.drop trim) take) := by
        have hne : take ≠ 0 → m.bytes ≠ [] := by
          intro h0 e
          have hl : m.bytes.length = 0 := List.length_eq_zero_iff.mpr e
          omega
        refine h.push (by simp only [netStream] at htake ⊢; omega) htake.1 ?_ fun h0 => ?_
        · by_cases h0 : take = 0
          · omega
          · obtain ⟨e₁, e₂, -⟩ := hm.data (hne h0)
            simp only [netStream]
            omega
        · obtain ⟨e₁, e₂, e₃⟩ := hm.data (hne h0)
          refine ⟨?_, by omega, ?_⟩
          · cases hpf : c.sock.peerFin with
            | false => rfl
            | true => exact absurd (hp hpf) (hne h0)
          · rw [e₃, List.drop_take, List.drop_drop, List.take_take,
              show seqNo - 1 + trim = rcv - 1 by omega,
              show min take (m.bytes.length - trim) = take by omega]
      generalize hc' : c.update (fun s => s.rxPush (m.bytes.drop trim) take) = c' at hpush
      split
      · rename_i hfin
        simp only [Bool.and_eq_true, Bool.not_eq_true', beq_iff_eq] at hfin
        obtain ⟨⟨hfl, htk⟩, hpf⟩ := hfin
        obtain ⟨e₁, e₂, e₃⟩ := hm.fin hfl
        have hl : m.bytes.length = 0 := List.length_eq_zero_iff.mpr e₁
        have h0 : take = 0 := by omega
        have htr : trim = 0 := by omega
        refine ⟨rcv + take + 1, (hpush.peerFin env.now hpf e₂ (by omega) ?_).ack env⟩
        simp only [netStream]
        omega
      · exact ⟨rcv + take, hpush.ack env⟩

/-- A segment from its acknowledgement on. -/
theorem inputAccepted (h : CtxOk P una nxt rcv fin c) (env : TcpEnv) {m : Segment}
    {seqNo ackNo : Nat} (hm : Incoming P fin m seqNo ackNo) (hu : c.sock.used = true)
    (he : c.sock.state ≠ .error) (hnxt : nxt = P.nxt₀) (hrcv : rcv = P.rcv₀) :
    ∃ una' nxt' rcv' fin', CtxOk P una' nxt' rcv' fin' (inputAccepted env m c) ∧
      (fin = true → fin' = true) := by
  rw [Efishell.inputAccepted]
  split
  · exact ⟨una, nxt, rcv, fin, h.ack env, id⟩
  · rename_i hb
    obtain ⟨una', h₁⟩ := h.inputAck env hm hu he hnxt (Bool.not_eq_true _ ▸ hb)
    split
    · rename_i c' hc'
      rw [hc'] at h₁
      exact ⟨una', nxt, rcv, fin, h₁, id⟩
    · rename_i c' hc'
      rw [hc'] at h₁
      have h₂ := h₁.update (fun s => { s with peerWindow := m.window }) rfl
      dsimp only
      split
      · exact ⟨una', nxt, rcv, fin, h₂.ack env, id⟩
      · rename_i hpf
        obtain ⟨rcv', h₃⟩ := h₂.inputData env hm hrcv (by
          intro e
          rw [e, Bool.true_and, bne_iff_ne, not_not] at hpf
          exact List.eq_nil_of_length_eq_zero hpf)
        split
        · rename_i c'' hc''
          rw [hc''] at h₃
          exact ⟨una', nxt, rcv', fin, h₃, id⟩
        · rename_i c'' hc''
          rw [hc''] at h₃
          obtain ⟨nxt', fin', h₄, himp⟩ := h₃.pump env
          exact ⟨una', nxt', rcv', fin', h₄, himp⟩

/-- `net_tcp_input` at the start of a call.  SYN and RST segments reach no stream. -/
theorem input (h : CtxOk P una nxt rcv fin c) (env : TcpEnv) {m : Segment}
    (hm : m.flags.syn = true ∨ m.flags.rst = true ∨ ∃ seqNo ackNo, Incoming P fin m seqNo ackNo)
    (hu : c.sock.used = true) (hnxt : nxt = P.nxt₀) (hrcv : rcv = P.rcv₀) :
    ∃ una' nxt' rcv' fin', CtxOk P una' nxt' rcv' fin' (netTcpInput env m c) ∧
      (fin = true → fin' = true) := by
  have hstay : ∀ {c' : TcpCtx}, CtxOk P una nxt rcv fin c' →
      ∃ una' nxt' rcv' fin', CtxOk P una' nxt' rcv' fin' c' ∧ (fin = true → fin' = true) :=
    fun h' => ⟨una, nxt, rcv, fin, h', id⟩
  have h₁ := h.update (fun s => { s with activity := env.now }) rfl
  rw [netTcpInput]
  split
  · exact hstay h
  · dsimp only
    generalize hc' : c.update (fun s => { s with activity := env.now }) = c' at h₁ ⊢
    have hu' : c'.sock.used = true := by
      rw [← hc']
      exact hu
    have hsyn : c'.sock.state ≠ .synSent := by
      intro e
      have hph := h₁.send.phase hu'
      rw [TcpCore.PhaseOk, show c'.sock.core.state = .synSent from e] at hph
      exact hph
    rw [if_neg hsyn]
    by_cases htw : c'.sock.state = .timeWait
    · rw [if_pos htw]
      split
      · exact hstay ((h₁.ack env).update _ rfl)
      · exact hstay h₁
    · rw [if_neg htw]
      by_cases he : c'.sock.state = .error
      · rw [if_pos he]
        exact hstay h₁
      · rw [if_neg he]
        by_cases hagain : c'.sock.state = .synRcvd ∧ m.flags.syn = true ∧
            add32 m.seq 1 = c'.sock.rcvNxt
        · rw [if_pos hagain]
          obtain ⟨nxt', fin', h₂, himp⟩ :=
            (h₁.update (fun s => { s with sentAt := 0 }) rfl).pump env
          exact ⟨una, nxt', rcv, fin', h₂, himp⟩
        · rw [if_neg hagain]
          split
          · split
            · exact hstay h₁
            · exact hstay (h₁.ack env)
          · split
            · split
              · exact hstay (h₁.error env _)
              · split
                · exact hstay (h₁.ack env)
                · exact hstay h₁
            · rename_i hrst
              split
              · split
                · exact hstay (h₁.ack env)
                · exact hstay h₁
              · rename_i hsyn
                split
                · exact hstay h₁
                · -- SYN and RST are dealt with, so the segment is one of the peer's
                  rcases hm with e | e | ⟨seqNo, ackNo, hm⟩
                  · exact absurd e hsyn
                  · exact absurd e hrst
                  · exact h₁.inputAccepted env hm hu' he hnxt hrcv

end CtxOk

/-! ### Calls -/

/-- The bytes `k_net_send` accepted. -/
def accepted (bytes : List UInt8) : Except Errno Nat → List UInt8
  | .ok n => bytes.take n
  | .error _ => []

/-- The bytes `k_net_receive` returned. -/
def returned : Except Errno (List UInt8) → List UInt8
  | .ok bytes => bytes
  | .error _ => []

/-- `k_net_receive` returns no byte of a nonempty request only at the end of the stream. -/
theorem kNetReceive_end {env : TcpEnv} {n : Nat} {c : TcpCtx} (hn : n ≠ 0)
    (hok : (kNetReceive env n c).1 = .ok []) : c.sock.peerFin = true ∧ c.sock.rxCount = 0 := by
  rw [kNetReceive] at hok
  dsimp only at hok
  split at hok
  · cases hok
  · split at hok
    · cases hok
    · split at hok
      · rename_i hrx
        have hl := congrArg List.length (Except.ok.inj hok)
        rw [TcpSocket.rxBytes, List.length_map, List.length_range, List.length_nil] at hl
        omega
      · rename_i hrx
        split at hok
        · rename_i hpf
          exact ⟨hpf, Decidable.not_not.mp hrx⟩
        · split at hok <;> cases hok

namespace CtxOk

variable {P : CallData} {una nxt rcv : Nat} {fin : Bool} {c : TcpCtx}

/-- `k_net_send` puts the bytes it accepts behind those that wait. -/
theorem append (h : CtxOk P una nxt rcv fin c) (hout : c.out = []) (hu : c.sock.used = true)
    (ho : c.sock.state.Open) {bytes : List UInt8} {take : Nat} (ht : take ≤ bytes.length)
    (hcap : c.sock.txCount + take ≤ netStream) :
    CtxOk { P with acc := P.acc ++ bytes.take take } una nxt rcv fin (c.update fun s =>
      { s with tx := memCopy s.tx s.txCount (fun i => bytes.getD i 0) 0 take
               txCount := s.txCount + take }) := by
  obtain ⟨hfin, h1, hlen, hnx, hcount, htx⟩ := (h.send.phase hu).open ho
  have hlen' : una + c.sock.txCount = P.acc.length + 1 := hlen
  have hl : (P.acc ++ bytes.take take).length = P.acc.length + take := by
    rw [List.length_append, List.length_take, Nat.min_eq_left ht]
  refine ⟨⟨h.send.una_eq, h.send.nxt_eq, h.send.una_le, h.send.nxt_le, ?_, ?_, h.send.closed,
    fun _ => ?_⟩, ⟨h.recv.rcv_eq, h.recv.count_le, h.recv.rcv_count, h.recv.stream, h.recv.len_le,
    h.recv.fin⟩, h.una_ge, h.una_le, h.una_rcv, h.nxt_ge, h.rcv_ge, h.rcv_le, ?_⟩
  · rw [hl]
    omega
  · rw [hl]
    have := h.send.nxt_len
    omega
  · -- the bytes that wait are the tail of what was accepted, with the new ones behind
    have hph : fin = false ∧ 1 ≤ una ∧ una + (c.sock.txCount + take) =
        (P.acc ++ bytes.take take).length + 1 ∧ nxt ≤ (P.acc ++ bytes.take take).length + 1 ∧
        c.sock.txCount + take ≤ netStream ∧ ∀ i < c.sock.txCount + take,
          (P.acc ++ bytes.take take)[una - 1 + i]? =
            some (memCopy c.sock.tx c.sock.txCount (fun i => bytes.getD i 0) 0 take i) := by
      refine ⟨hfin, h1, by rw [hl]; omega, by rw [hl]; omega, hcap, fun i hi => ?_⟩
      rcases Nat.lt_or_ge i c.sock.txCount with e | e
      · rw [List.getElem?_append_left (by omega), memCopy, if_neg (by omega)]
        exact htx i e
      · rw [List.getElem?_append_right (by omega), memCopy, if_pos (by omega),
          List.getElem?_take_of_lt (by omega), List.getElem?_eq_getElem (by omega),
          List.getD_eq_getElem?_getD, List.getElem?_eq_getElem (by omega), Option.getD_some]
        congr 2
        omega
    rw [TcpCore.PhaseOk]
    rcases ho with e | e
    · rw [show (c.update fun s =>
          { s with tx := memCopy s.tx s.txCount (fun i => bytes.getD i 0) 0 take
                   txCount := s.txCount + take }).sock.core.state = .established from e]
      exact hph
    · rw [show (c.update fun s =>
          { s with tx := memCopy s.tx s.txCount (fun i => bytes.getD i 0) 0 take
                   txCount := s.txCount + take }).sock.core.state = .closeWait from e]
      exact hph
  · intro m hm
    rw [TcpCtx.update, hout] at hm
    cases hm

/-- `k_net_send` on a socket whose FIN is numbered accepts nothing. -/
theorem sendCall (h : CtxOk P una nxt rcv fin c) (env : TcpEnv) (bytes : List UInt8)
    (hout : c.out = []) : ∃ nxt' fin',
      CtxOk { P with acc := P.acc ++ accepted bytes (kNetSend env bytes c).1 } una nxt' rcv
        fin' (kNetSend env bytes c).2 ∧
      (fin = true → fin' = true ∧ accepted bytes (kNetSend env bytes c).1 = []) := by
  have hstay : ∀ e : Errno, CtxOk { P with acc := P.acc ++ accepted bytes (.error e) } una nxt rcv
      fin c := by
    intro e
    rw [accepted, List.append_nil]
    exact h
  rw [kNetSend]
  dsimp only
  split
  · exact ⟨nxt, fin, hstay _, fun e => ⟨e, rfl⟩⟩
  · split
    · exact ⟨nxt, fin, hstay _, fun e => ⟨e, rfl⟩⟩
    · rename_i how
      split
      · exact ⟨nxt, fin, hstay _, fun e => ⟨e, rfl⟩⟩
      · split
        · exact ⟨nxt, fin, hstay _, fun e => ⟨e, rfl⟩⟩
        · rename_i hst
          split
          · exact ⟨nxt, fin, hstay _, fun e => ⟨e, rfl⟩⟩
          · have hu : c.sock.used = true := by
              rw [TcpSocket.owned, Bool.not_eq_true', Bool.not_eq_false, Bool.and_eq_true] at how
              exact how.1
            have ho : c.sock.state.Open := by
              rw [TcpState.Open]
              tauto
            obtain ⟨hfin, -, hlen, -, hcount, -⟩ := (h.send.phase hu).open ho
            have hcount' : c.sock.txCount ≤ netStream := hcount
            obtain ⟨nxt', fin', hp, -⟩ := (h.append hout hu ho
              (Nat.min_le_left bytes.length (netStream - c.sock.txCount)) (by omega)).pump env
            refine ⟨nxt', fin', hp, fun e => ?_⟩
            rw [hfin] at e
            cases e

/-- `k_net_receive` returns the head of the ring. -/
theorem receiveCall (h : CtxOk P una nxt rcv fin c) (env : TcpEnv) (n : Nat) :
    CtxOk { P with dl := P.dl ++ returned (kNetReceive env n c).1 } una nxt rcv fin
      (kNetReceive env n c).2 := by
  have hstay : CtxOk { P with dl := P.dl ++ [] } una nxt rcv fin c := by
    rw [List.append_nil]
    exact h
  rw [kNetReceive]
  dsimp only
  split
  · exact hstay
  · split
    · exact hstay
    · split
      · exact hstay
      · split
        · have hcount : rcv = 1 + P.dl.length + c.sock.rxCount + c.sock.peerFin.toNat :=
            h.recv.rcv_count
          have hcap : c.sock.rxCount ≤ netStream := h.recv.count_le
          have hlen : P.dl.length + c.sock.rxCount ≤ P.accP.length := h.recv.len_le
          generalize hk : min n c.sock.rxCount = take
          have htake : take ≤ c.sock.rxCount := by omega
          have hl : (P.dl ++ c.sock.rxBytes take).length = P.dl.length + take := by
            rw [List.length_append, TcpSocket.rxBytes, List.length_map, List.length_range]
          have hrx : P.dl.length + take + (c.sock.rxCount - take) =
              P.dl.length + c.sock.rxCount := by omega
          have htaken : CtxOk { P with dl := P.dl ++ c.sock.rxBytes take } una nxt rcv fin
              (c.update fun s =>
                { s with rxHead := (s.rxHead + take) % netStream
                         rxCount := s.rxCount - take }) := by
            refine ⟨⟨h.send.una_eq, h.send.nxt_eq, h.send.una_le, h.send.nxt_le, h.send.len_le,
              h.send.nxt_len, h.send.closed, h.send.phase⟩, ⟨h.recv.rcv_eq, ?_, ?_, ?_, ?_, ?_⟩,
              h.una_ge, h.una_le, h.una_rcv, h.nxt_ge, h.rcv_ge, h.rcv_le, h.out⟩
            · show c.sock.rxCount - take ≤ netStream
              omega
            · show rcv = 1 + (P.dl ++ c.sock.rxBytes take).length + (c.sock.rxCount - take) +
                c.sock.peerFin.toNat
              rw [hl]
              omega
            · have hs := h.recv.stream
              -- what is taken is the front of the ring, and what is left the rest
              rw [ring_split htake] at hs
              show (P.dl ++ c.sock.rxBytes take) ++ _ =
                P.accP.take ((P.dl ++ c.sock.rxBytes take).length + (c.sock.rxCount - take))
              rw [hl, hrx, List.append_assoc]
              exact hs
            · show (P.dl ++ c.sock.rxBytes take).length + (c.sock.rxCount - take) ≤ P.accP.length
              rw [hl, hrx]
              exact hlen
            · intro hf
              obtain ⟨e₁, e₂⟩ := h.recv.fin hf
              refine ⟨e₁, ?_⟩
              show (P.dl ++ c.sock.rxBytes take).length + (c.sock.rxCount - take) = P.accP.length
              rw [hl, hrx]
              exact e₂
          exact htaken.ack env
        · split
          · exact hstay
          · split
            · exact hstay
            · exact hstay

/-- `k_net_close` keeps the half of the connection in order. -/
theorem closeCall (h : CtxOk P una nxt rcv fin c) (env : TcpEnv) :
    ∃ nxt' fin', CtxOk P una nxt' rcv fin' (kNetClose env c).2 ∧ (fin = true → fin' = true) := by
  rw [kNetClose]
  split
  · exact ⟨nxt, fin, h, id⟩
  · rw [netCloseInternal]
    dsimp only
    split
    · exact ⟨nxt, fin, h.drop, id⟩
    · split
      · refine ⟨nxt, fin, (h.packet env _ _ _ ?_).drop, id⟩
        have hge := h.una_ge
        have hle := h.send.una_le
        exact ⟨nxt, P.rcv₀, Or.inr (Or.inl rfl), by omega, Nat.le_refl _, Nat.le_refl _⟩
      · refine CtxOk.pump (c := c.update fun s =>
          { s with detached := true, closeRequested := true }) ⟨⟨h.send.una_eq, h.send.nxt_eq,
          h.send.una_le, h.send.nxt_le, h.send.len_le, h.send.nxt_len, fun _ => rfl, h.send.phase⟩,
          ⟨h.recv.rcv_eq, h.recv.count_le, h.recv.rcv_count, h.recv.stream, h.recv.len_le,
          h.recv.fin⟩, h.una_ge, h.una_le, h.una_rcv, h.nxt_ge, h.rcv_ge, h.rcv_le, h.out⟩ env

end CtxOk

end Efishell
