import Efishell.Net.TcpCall

/-!
# Networking — what every TCP socket satisfies

`TcpSocket.Ok` is the invariant of a TCP socket in terms of its own 32-bit fields, with nothing
assumed about the peer: the bytes in flight are bytes of `tx`, the FIN is the last thing sent, and
the estimates of the congestion control stay in ranges that leave room in 32 bits.  Segments are
arbitrary, so this is not the stream invariant of `TcpHalf.lean`.

A socket that has no peer yet satisfies `fresh`, a parameter; `net_tcp_input` never gets such a
socket, so that there the parameter is `False`.

* `CtxOk.pump`, `CtxOk.input`, `CtxOk.close`: the calls keep the invariant.
-/

namespace Efishell

/-! ### The invariant -/

/-- The ranges of what the congestion control and the timers compute. -/
structure TcpSocket.Sized (s : TcpSocket) : Prop where
  mss_pos : 0 < s.mss
  mss_le : s.mss ≤ 1440
  cwnd_pos : 0 < s.cwnd
  cwnd_le : s.cwnd ≤ netStream
  threshold_le : s.threshold ≤ 65535
  srtt_le : s.srtt ≤ 60000
  rttvar_le : s.rttvar ≤ 60000
  rto_ge : 1000 ≤ s.rto
  rto_le : s.rto ≤ 60000
  retry_le : s.retry ≤ 8

/-- What is in flight in each state. -/
def TcpCore.Phase (fresh : Prop) (k : TcpCore) : Prop :=
  match k.state with
  | .new | .bound | .listen => fresh ∧ k.sndUna = k.sndNxt
  | .synSent | .synRcvd => k.sndNxt = add32 k.sndUna 1
  | .established | .closeWait => sub32 k.sndNxt k.sndUna ≤ k.txCount
  | .finWait1 | .closing | .lastAck =>
      k.txCount = 0 ∧ k.sndUna = k.finSeq ∧ k.sndNxt = add32 k.finSeq 1
  | .finWait2 | .timeWait => k.sndUna = k.sndNxt
  | .error => True

/-- The sequence numbers and counters are `UINT32` values. -/
structure TcpCore.Counted (fresh : Prop) (k : TcpCore) : Prop where
  una_lt : k.sndUna < 2 ^ 32
  nxt_lt : k.sndNxt < 2 ^ 32
  head_lt : k.rxHead < netStream
  rx_le : k.rxCount ≤ netStream
  tx_le : k.txCount ≤ netStream
  phase : k.used = true → k.Phase fresh

/-- The invariant of a socket. -/
structure TcpSocket.Ok (fresh : Prop) (s : TcpSocket) : Prop where
  sized : s.Sized
  counted : s.core.Counted fresh

/-- The MTU of an interface leaves room for a header and some data. -/
def TcpEnv.MtuOk (env : TcpEnv) : Prop := env.up = true → 68 ≤ env.mtu ∧ env.mtu < 2 ^ 32

variable {fresh : Prop} {s : TcpSocket}

theorem TcpCore.Counted.mono {P Q : Prop} {k : TcpCore} (h : k.Counted P) (hPQ : P → Q) :
    k.Counted Q := by
  refine ⟨h.una_lt, h.nxt_lt, h.head_lt, h.rx_le, h.tx_le, fun hu => ?_⟩
  have hp := h.phase hu
  rw [TcpCore.Phase] at hp ⊢
  cases hst : k.state <;> simp only [hst] at hp ⊢
  all_goals first | exact ⟨hPQ hp.1, hp.2⟩ | exact hp

theorem TcpSocket.Ok.mono {P Q : Prop} (h : s.Ok P) (hPQ : P → Q) : s.Ok Q :=
  ⟨h.sized, h.counted.mono hPQ⟩

/-- An update of timers, windows or estimates. -/
theorem TcpSocket.Ok.update {s' : TcpSocket} (h : s.Ok fresh) (hs : s'.Sized)
    (hc : s'.core = s.core) : s'.Ok fresh := ⟨hs, by rw [hc]; exact h.counted⟩

/-- In an open state the bytes in flight are bytes of `tx`. -/
theorem TcpSocket.Ok.open (h : s.Ok fresh) (hu : s.used = true) (ho : s.state.Open) :
    sub32 s.sndNxt s.sndUna ≤ s.txCount := by
  have hp := h.counted.phase hu
  have hk : s.core.state = s.state := rfl
  rw [TcpCore.Phase, hk] at hp
  rcases ho with e | e
  · rw [e] at hp
    exact hp
  · rw [e] at hp
    exact hp

theorem TcpSocket.Ok.fin (h : s.Ok fresh) (hu : s.used = true) (hf : s.state.isFin = true) :
    s.txCount = 0 ∧ s.sndUna = s.finSeq ∧ s.sndNxt = add32 s.finSeq 1 := by
  have hp := h.counted.phase hu
  have hk : s.core.state = s.state := rfl
  rw [TcpCore.Phase, hk] at hp
  cases hst : s.state <;> simp only [hst, TcpState.isFin] at hp hf
  all_goals first | exact hp | cases hf

/-! ### The estimates -/

namespace TcpSocket.Sized

/-- An update that leaves out the estimates. -/
theorem same (h : s.Sized) {s' : TcpSocket}
    (hs : (s'.mss, s'.cwnd, s'.threshold, s'.srtt, s'.rttvar, s'.rto, s'.retry) =
      (s.mss, s.cwnd, s.threshold, s.srtt, s.rttvar, s.rto, s.retry)) : s'.Sized := by
  simp only [Prod.mk.injEq] at hs
  obtain ⟨e₁, e₂, e₃, e₄, e₅, e₆, e₇⟩ := hs
  exact ⟨e₁ ▸ h.mss_pos, e₁ ▸ h.mss_le, e₂ ▸ h.cwnd_pos, e₂ ▸ h.cwnd_le, e₃ ▸ h.threshold_le,
    e₄ ▸ h.srtt_le, e₅ ▸ h.rttvar_le, e₆ ▸ h.rto_ge, e₆ ▸ h.rto_le, e₇ ▸ h.retry_le⟩

/-- The round trip keeps the bounds. -/
theorem netTcpRtt (h : s.Sized) (now : Nat) : (netTcpRtt now s).Sized := by
  have hsample : min ((2 ^ 64 + now - s.sentAt) % 2 ^ 64) 60000 ≤ 60000 := Nat.min_le_right _ _
  have h₁ := h.srtt_le
  have h₂ := h.rttvar_le
  simp only [Efishell.netTcpRtt]
  generalize min ((2 ^ 64 + now - s.sentAt) % 2 ^ 64) 60000 = x at hsample
  split
  · generalize hy : (if x = 0 then 1 else x) = y
    have hy' : y ≤ 60000 := by
      rw [← hy]
      split <;> omega
    split
    · refine ⟨h.mss_pos, h.mss_le, h.cwnd_pos, h.cwnd_le, h.threshold_le, hy', ?_, ?_, ?_,
        Nat.zero_le _⟩
      · show y / 2 ≤ 60000
        omega
      · dsimp only
        split <;> omega
      · dsimp only
        split <;> omega
    · refine ⟨h.mss_pos, h.mss_le, h.cwnd_pos, h.cwnd_le, h.threshold_le, ?_, ?_, ?_, ?_,
        Nat.zero_le _⟩
      · show (7 * s.srtt + y) / 8 ≤ 60000
        omega
      · show (3 * s.rttvar + if y < s.srtt then s.srtt - y else y - s.srtt) / 4 ≤ 60000
        split <;> omega
      · dsimp only
        generalize min 60000 _ = r
        split <;> omega
      · dsimp only
        generalize hr : min 60000 _ = r
        have hr' : r ≤ 60000 := hr ▸ Nat.min_le_left _ _
        split <;> omega
  · exact ⟨h.mss_pos, h.mss_le, h.cwnd_pos, h.cwnd_le, h.threshold_le, h.srtt_le, h.rttvar_le,
      h.rto_ge, h.rto_le, Nat.zero_le _⟩

theorem pumpClampMss (h : s.Sized) {env : TcpEnv} (hm : env.MtuOk) :
    (pumpClampMss env s).Sized := by
  rw [Efishell.pumpClampMss]
  by_cases hup : env.up = true
  · obtain ⟨h₁, h₂⟩ := hm hup
    have hmss := h.mss_le
    by_cases hlt : mssLimit env s.family < s.mss
    · rw [if_pos (by rw [hup]; simpa using hlt)]
      have hpos : 0 < mssLimit env s.family := by
        rw [mssLimit, sub32]
        split <;> omega
      exact ⟨hpos, by show mssLimit env s.family ≤ 1440; omega, h.cwnd_pos, h.cwnd_le,
        h.threshold_le, h.srtt_le, h.rttvar_le, h.rto_ge, h.rto_le, h.retry_le⟩
    · rw [if_neg (by rw [hup]; simpa using hlt)]
      exact h
  · rw [if_neg (by simp [hup])]
    exact h

theorem pumpResent (h : s.Sized) (now : Nat) (hr : s.retry < 8) : (pumpResent now s).Sized := by
  have h₁ := h.mss_le
  have h₂ := h.cwnd_le
  have h₃ := h.rto_ge
  simp only [netStream] at h₂
  simp only [Efishell.pumpResent]
  split
  · refine ⟨h.mss_pos, h.mss_le, h.mss_pos, ?_, ?_, h.srtt_le, h.rttvar_le, ?_, ?_, hr⟩
    · show s.mss ≤ netStream
      rw [netStream]
      omega
    · dsimp only
      split
      · omega
      · rw [netStream]
        omega
    · show 1000 ≤ min 60000 (s.rto * 2)
      omega
    · exact Nat.min_le_left _ _
  · exact ⟨h.mss_pos, h.mss_le, h.cwnd_pos, h.cwnd_le, h.threshold_le, h.srtt_le, h.rttvar_le,
      h.rto_ge, h.rto_le, h.retry_le⟩

/-- The window of a segment on its own after a loss. -/
theorem cut (h : s.Sized) : ({ s with
    threshold := max (2 * s.mss) (s.cwnd / 2), cwnd := s.mss } : TcpSocket).Sized := by
  have h₁ := h.mss_le
  have h₂ := h.cwnd_le
  simp only [netStream] at h₂
  refine ⟨h.mss_pos, h.mss_le, h.mss_pos, ?_, ?_, h.srtt_le, h.rttvar_le, h.rto_ge, h.rto_le,
    h.retry_le⟩
  · show s.mss ≤ netStream
    rw [netStream]
    omega
  · show max (2 * s.mss) (s.cwnd / 2) ≤ 65535
    omega

theorem ackData (h : s.Sized) (now ack : Nat) : (ackData now ack s).Sized := by
  simp only [Efishell.ackData]
  generalize ht : ({ s with
    tx := fun i => if i < s.txCount - sub32 ack s.sndUna then s.tx (i + sub32 ack s.sndUna)
      else s.tx i
    txCount := s.txCount - sub32 ack s.sndUna
    sndUna := ack } : TcpSocket) = t
  have hr : (Efishell.netTcpRtt now t).Sized := netTcpRtt (by rw [← ht]; exact h.same rfl) now
  refine ⟨hr.mss_pos, hr.mss_le, ?_, Nat.min_le_right _ _, hr.threshold_le, hr.srtt_le,
    hr.rttvar_le, hr.rto_ge, hr.rto_le, hr.retry_le⟩
  have hpos := hr.cwnd_pos
  dsimp only
  rw [netStream]
  split <;> omega

end TcpSocket.Sized

/-! ### `net_tcp_pump` -/

namespace TcpSocket.Ok

variable {env : TcpEnv} {c : TcpCtx}

theorem packet (h : c.sock.Ok fresh) (sequence : Nat) (flags : TcpFlags) (bytes : List UInt8) :
    (netTcpPacket env sequence flags bytes c).2.sock.Ok fresh := by
  rw [sock_netTcpPacket]
  exact h

theorem ack (h : c.sock.Ok fresh) : (netTcpAck env c).sock.Ok fresh := h.packet _ _ _

theorem error (h : c.sock.Ok fresh) (e : Errno) : (netTcpError env e c).sock.Ok fresh :=
  ⟨h.sized.same rfl,
    ⟨h.counted.una_lt, h.counted.nxt_lt, h.counted.head_lt, h.counted.rx_le, h.counted.tx_le,
      fun _ => trivial⟩⟩

/-- An update that leaves out the estimates and the streams. -/
theorem timers (h : s.Ok fresh) {s' : TcpSocket}
    (hs : (s'.mss, s'.cwnd, s'.threshold, s'.srtt, s'.rttvar, s'.rto, s'.retry) =
      (s.mss, s.cwnd, s.threshold, s.srtt, s.rttvar, s.rto, s.retry))
    (hc : s'.core = s.core) : s'.Ok fresh := h.update (h.sized.same hs) hc

/-- The socket is given up. -/
theorem drop (h : s.Ok fresh) : ({ s with used := false } : TcpSocket).Ok fresh :=
  ⟨h.sized.same rfl,
    ⟨h.counted.una_lt, h.counted.nxt_lt, h.counted.head_lt, h.counted.rx_le, h.counted.tx_le,
      fun hu => by cases hu⟩⟩

/-- The retransmission timer; where `net_tcp_pump` goes on, the streams are where they were. -/
theorem retransmit (h : c.sock.Ok fresh) (env : TcpEnv) :
    (pumpRetransmit env c).1.sock.Ok fresh ∧
      ((pumpRetransmit env c).2 = false → (pumpRetransmit env c).1.sock.core = c.sock.core) := by
  simp only [pumpRetransmit]
  split
  · split
    · split
      · exact ⟨h.error _, fun hf => by cases hf⟩
      · rename_i hretry
        generalize hp : netTcpPacket env (pumpAgain c.sock).1 (pumpAgain c.sock).2.1
          (pumpAgain c.sock).2.2 c = r
        have hsock : r.2.sock = c.sock := by rw [← hp, sock_netTcpPacket]
        obtain ⟨e, c'⟩ := r
        have hsock' : c'.sock = c.sock := hsock
        cases e with
        | ok _ =>
            dsimp only [TcpCtx.update]
            rw [hsock']
            refine ⟨h.update (h.sized.pumpResent _ (by omega)) (pumpResent_core _ _), fun _ => ?_⟩
            exact pumpResent_core _ _
        | error e =>
            dsimp only
            split
            · exact ⟨error (by rw [hsock']; exact h) e, fun hf => by cases hf⟩
            · dsimp only
              rw [hsock']
              exact ⟨h, fun _ => rfl⟩
    · exact ⟨h, fun _ => rfl⟩
  · exact ⟨h, fun _ => rfl⟩

/-- `n` more bytes of `tx` are in flight. -/
theorem advance (h : s.Ok fresh) (ho : s.state.Open) {n : Nat}
    (hn : sub32 s.sndNxt s.sndUna + n ≤ s.txCount) :
    ({ s with sndNxt := add32 s.sndNxt n } : TcpSocket).Ok fresh ∧
      sub32 (add32 s.sndNxt n) s.sndUna = sub32 s.sndNxt s.sndUna + n := by
  have h₁ : s.sndUna < 2 ^ 32 := h.counted.una_lt
  have h₂ : s.sndNxt < 2 ^ 32 := h.counted.nxt_lt
  have h₃ : s.txCount ≤ netStream := h.counted.tx_le
  rw [netStream] at h₃
  have hsub : sub32 (add32 s.sndNxt n) s.sndUna = sub32 s.sndNxt s.sndUna + n := by
    simp only [sub32, add32] at hn ⊢
    omega
  refine ⟨⟨h.sized.same rfl, ⟨h.counted.una_lt, Nat.mod_lt _ (by decide), h.counted.head_lt,
    h.counted.rx_le, h.counted.tx_le, fun _ => ?_⟩⟩, hsub⟩
  have hle : sub32 (add32 s.sndNxt n) s.sndUna ≤ s.txCount := by omega
  rcases ho with e | e
  · simp only [TcpCore.Phase, TcpSocket.core, e]
    exact hle
  · simp only [TcpCore.Phase, TcpSocket.core, e]
    exact hle

/-- The loop that sends new data: where it ends, `inflight` is what is in flight. -/
theorem sendLoop (env : TcpEnv) (window fuel : Nat) : ∀ {inflight : Nat} {c : TcpCtx},
    c.sock.Ok fresh → c.sock.used = true → c.sock.state.Open →
    inflight = sub32 c.sock.sndNxt c.sock.sndUna →
    (pumpSend env window fuel inflight c).1.sock.Ok fresh ∧
      ∀ k, (pumpSend env window fuel inflight c).2 = some k →
        let s' := (pumpSend env window fuel inflight c).1.sock
        s'.used = true ∧ s'.state.Open ∧ k = sub32 s'.sndNxt s'.sndUna := by
  induction fuel with
  | zero =>
      intro inflight c h hu ho hi
      refine ⟨h, fun k hk => ⟨hu, ho, ?_⟩⟩
      rw [← Option.some.inj hk]
      exact hi
  | succ fuel ih =>
      intro inflight c h hu ho hi
      rw [pumpSend]
      by_cases hgo : inflight < c.sock.txCount ∧ inflight < window
      · rw [if_pos hgo]
        dsimp only
        generalize hn : min c.sock.mss (min (c.sock.txCount - inflight) (window - inflight)) = n
        generalize hp : netTcpPacket env c.sock.sndNxt .pshAck (c.sock.txSlice inflight n) c = r
        have hsock : r.2.sock = c.sock := by rw [← hp, sock_netTcpPacket]
        obtain ⟨e, c'⟩ := r
        have hsock' : c'.sock = c.sock := hsock
        cases e with
        | error e =>
            refine ⟨?_, fun k hk => by cases hk⟩
            dsimp only
            split
            · exact error (by rw [hsock']; exact h) e
            · rw [hsock']
              exact h
        | ok _ =>
            obtain ⟨hok, hsub⟩ := h.advance ho (n := n) (by omega)
            have hsent : ∀ {t : TcpSocket}, t = (if inflight = 0 then
                { c.sock with sentAt := if env.now = 0 then 1 else env.now, retransmitted := false }
                else c.sock) →
                ({ t with sndNxt := add32 t.sndNxt n } : TcpSocket).Ok fresh ∧ t.used = true ∧
                  t.state.Open ∧ inflight + n = sub32 (add32 t.sndNxt n) t.sndUna := by
              intro t ht
              rw [ht]
              split
              · exact ⟨hok.timers rfl rfl, hu, ho, by rw [hi, ← hsub]⟩
              · exact ⟨hok, hu, ho, by rw [hi, ← hsub]⟩
            obtain ⟨h₁, h₂, h₃, h₄⟩ := hsent rfl
            refine ih (c := c'.update _) ?_ ?_ ?_ ?_
            · simp only [TcpCtx.update, hsock']
              exact h₁
            · simp only [TcpCtx.update, hsock']
              exact h₂
            · simp only [TcpCtx.update, hsock']
              exact h₃
            · simp only [TcpCtx.update, hsock']
              exact h₄
      · rw [if_neg hgo]
        refine ⟨h, fun k hk => ⟨hu, ho, ?_⟩⟩
        rw [← Option.some.inj hk]
        exact hi

/-- The probe of a closed window changes a timer. -/
theorem persist (h : c.sock.Ok fresh) (env : TcpEnv) (inflight : Nat) :
    (pumpPersist env inflight c).sock.Ok fresh ∧
      (pumpPersist env inflight c).sock.core = c.sock.core := by
  simp only [pumpPersist]
  split
  · simp only [TcpCtx.update, sock_netTcpPacket]
    exact ⟨h.timers rfl rfl, rfl⟩
  · exact ⟨h, rfl⟩

/-- The FIN follows the last byte. -/
theorem finish (h : s.Ok fresh) (hu : s.used = true) (ho : s.state.Open) (ht : s.txCount = 0) :
    (pumpFin s).Ok fresh := by
  have hin := h.open hu ho
  have h₁ : s.sndUna < 2 ^ 32 := h.counted.una_lt
  have h₂ : s.sndNxt < 2 ^ 32 := h.counted.nxt_lt
  have heq : s.sndUna = s.sndNxt := by
    simp only [sub32] at hin
    omega
  refine ⟨⟨h.sized.mss_pos, h.sized.mss_le, h.sized.cwnd_pos, h.sized.cwnd_le,
    h.sized.threshold_le, h.sized.srtt_le, h.sized.rttvar_le, h.sized.rto_ge, h.sized.rto_le,
    Nat.zero_le _⟩, ⟨h.counted.una_lt, Nat.mod_lt _ (by decide), h.counted.head_lt,
    h.counted.rx_le, h.counted.tx_le, fun _ => ?_⟩⟩
  simp only [TcpCore.Phase, TcpSocket.core, pumpFin]
  cases s.peerFin with
  | false => exact ⟨ht, heq, trivial⟩
  | true => exact ⟨ht, heq, trivial⟩

/-- The pump, by induction on how often it may call itself. -/
theorem pumpFuel (hm : env.MtuOk) (fuel : Nat) : ∀ {c : TcpCtx}, c.sock.Ok fresh →
    (netTcpPumpFuel env fuel c).sock.Ok fresh := by
  induction fuel with
  | zero => exact fun h => h
  | succ fuel ih =>
      intro c h
      rw [netTcpPumpFuel]
      dsimp only
      split
      · exact h
      · rename_i hu
        have hu' : c.sock.used = true := by simpa using hu
        split
        · split
          · exact h.drop
          · exact h
        · split
          · split
            · exact h.drop
            · exact h
          · split
            · exact h.error _
            · split
              · exact h.error _
              · have hclamp : (c.update (pumpClampMss env)).sock.Ok fresh :=
                  h.update (h.sized.pumpClampMss hm) (pumpClampMss_core _ _)
                have hcore : (c.update (pumpClampMss env)).sock.core = c.sock.core :=
                  pumpClampMss_core _ _
                obtain ⟨hr, hsame⟩ := hclamp.retransmit env
                generalize pumpRetransmit env (c.update (pumpClampMss env)) = r at hr hsame
                obtain ⟨c₁, stop⟩ := r
                cases stop with
                | true => exact hr
                | false =>
                    -- the timer had nothing to send again, so the streams are where they were
                    have hsame' : c₁.sock.core = c.sock.core := (hsame rfl).trans hcore
                    have hu₁ : c₁.sock.used = true := by
                      rw [show c₁.sock.used = c₁.sock.core.used from rfl, hsame']
                      exact hu'
                    dsimp only
                    split
                    · exact hr
                    · rename_i hst
                      have ho : c₁.sock.state.Open := by
                        by_contra hno
                        exact hst ⟨fun e => hno (Or.inl e), fun e => hno (Or.inr e)⟩
                      obtain ⟨hl, hend⟩ := sendLoop env (min c₁.sock.peerWindow c₁.sock.cwnd)
                        netStream hr hu₁ ho rfl
                      generalize pumpSend env (min c₁.sock.peerWindow c₁.sock.cwnd) netStream
                        (sub32 c₁.sock.sndNxt c₁.sock.sndUna) c₁ = r at hl hend
                      obtain ⟨c₂, inflight⟩ := r
                      cases inflight with
                      | none => exact hl
                      | some k =>
                          obtain ⟨hu₂, ho₂, -⟩ := hend k rfl
                          obtain ⟨hp, hpc⟩ := hl.persist env k
                          dsimp only
                          split
                          · rename_i hclose
                            refine ih (finish hp ?_ ?_ ?_)
                            · rw [show (pumpPersist env k c₂).sock.used =
                                (pumpPersist env k c₂).sock.core.used from rfl, hpc]
                              exact hu₂
                            · rw [show (pumpPersist env k c₂).sock.state =
                                (pumpPersist env k c₂).sock.core.state from rfl, hpc]
                              exact ho₂
                            · simp only [Bool.and_eq_true, beq_iff_eq] at hclose
                              exact hclose.2
                          · exact hp

/-- `net_tcp_pump` keeps the invariant. -/
theorem pump (h : c.sock.Ok fresh) (hm : env.MtuOk) : (netTcpPump env c).sock.Ok fresh :=
  pumpFuel hm 2 h

end TcpSocket.Ok

/-! ### `net_tcp_input` -/

/-- An option can lower the segment size to 64 and no further. -/
theorem netTcpOptions_range {fuel : Nat} : ∀ {l : List UInt8} {mss mss' : Nat},
    netTcpOptions fuel l mss = .ok mss' → 64 ≤ mss → 64 ≤ mss' ∧ mss' ≤ mss := by
  induction fuel with
  | zero =>
      intro l mss mss' h hm
      cases h
      exact ⟨hm, Nat.le_refl _⟩
  | succ fuel ih =>
      intro l mss mss' h hm
      cases l with
      | nil =>
          cases h
          exact ⟨hm, Nat.le_refl _⟩
      | cons kind rest =>
          rw [netTcpOptions.eq_def] at h
          dsimp only at h
          split at h
          · cases h
            exact ⟨hm, Nat.le_refl _⟩
          · split at h
            · exact ih h hm
            · cases rest with
              | nil => cases h
              | cons size body =>
                  dsimp only at h
                  split at h
                  · cases h
                  · split at h
                    · split at h
                      · cases h
                      · obtain ⟨h₁, h₂⟩ := ih h (by omega)
                        exact ⟨h₁, by omega⟩
                    · exact ih h hm

/-- **What an acceptable acknowledgement covers.**  Less than half of the numbers are in flight; an
acknowledgement that is not after `snd_nxt` and after `snd_una` covers some of them and no more. -/
theorem acknowledged_le {una nxt ack : Nat} (hu : una < 2 ^ 32) (hn : nxt < 2 ^ 32)
    (ha : ack < 2 ^ 32) (hk : sub32 nxt una < 2 ^ 31) (hnew : netSeqBefore nxt ack = false)
    (hold : netSeqBefore una ack = true) :
    0 < sub32 ack una ∧ sub32 ack una ≤ sub32 nxt una ∧
      sub32 nxt ack = sub32 nxt una - sub32 ack una := by
  have h₁ := of_decide_eq_false hnew
  have h₂ := of_decide_eq_true hold
  simp only [sub32] at hk h₁ h₂ ⊢
  omega

namespace TcpSocket.Ok

variable {env : TcpEnv} {c : TcpCtx} {m : Segment}

/-- A segment in SYN-SENT. -/
theorem inputSynSent (h : c.sock.Ok fresh) (ha : m.ack < 2 ^ 32) :
    (inputSynSent env m c).sock.Ok fresh := by
  simp only [Efishell.inputSynSent]
  split
  · split
    · exact h.error _
    · exact h
  · split
    · exact h
    · rename_i hack
      have hnx : m.ack = c.sock.sndNxt := by
        simp only [Bool.or_eq_true, bne_iff_ne, not_or, ne_eq, not_not] at hack
        exact hack.2
      split
      · exact h
      · rename_i mss hopt
        have hmss : 64 ≤ mss ∧ mss ≤ 1440 := by
          obtain ⟨h₁, h₂⟩ := netTcpOptions_range hopt (by split <;> omega)
          refine ⟨h₁, h₂.trans ?_⟩
          split <;> omega
        refine ack ?_
        simp only [TcpCtx.update]
        generalize ht : ({ c.sock with
          mss := mss, cwnd := mss * 2, peerWindow := m.window, sndUna := m.ack
          rcvNxt := add32 m.seq 1, state := .established } : TcpSocket) = t
        have hz := h.sized
        have hok : t.Ok fresh := by
          rw [← ht]
          refine ⟨⟨by show 0 < mss; omega, hmss.2, by show 0 < mss * 2; omega, ?_, hz.threshold_le,
            hz.srtt_le, hz.rttvar_le, hz.rto_ge, hz.rto_le, hz.retry_le⟩, ⟨ha, h.counted.nxt_lt,
            h.counted.head_lt, h.counted.rx_le, h.counted.tx_le, fun _ => ?_⟩⟩
          · show mss * 2 ≤ netStream
            rw [netStream]
            omega
          · show sub32 c.sock.sndNxt m.ack ≤ c.sock.txCount
            rw [hnx, sub32, Nat.add_sub_cancel, Nat.mod_self]
            exact Nat.zero_le _
        exact (hok.update (hok.sized.netTcpRtt _) (netTcpRtt_core _ _)).timers rfl rfl

/-- The acknowledgement of the SYN. -/
theorem ackSyn (h : s.Ok fresh) (ha : m.ack < 2 ^ 32) (hnx : m.ack = s.sndNxt) (now : Nat) :
    ({ Efishell.netTcpRtt now { s with sndUna := m.ack, state := .established } with
      sentAt := 0 } : TcpSocket).Ok fresh := by
  have hok : ({ s with sndUna := m.ack, state := .established } : TcpSocket).Ok fresh := by
    refine ⟨h.sized.same rfl, ⟨ha, h.counted.nxt_lt, h.counted.head_lt,
      h.counted.rx_le, h.counted.tx_le, fun _ => ?_⟩⟩
    show sub32 s.sndNxt m.ack ≤ s.txCount
    rw [hnx, sub32, Nat.add_sub_cancel, Nat.mod_self]
    exact Nat.zero_le _
  exact (hok.update (hok.sized.netTcpRtt _) (netTcpRtt_core _ _)).timers rfl rfl

/-- The acknowledgement of the FIN. -/
theorem ackFin (h : s.Ok fresh) (hu : s.used = true) (hf : s.state.isFin = true)
    (ha : m.ack = add32 s.finSeq 1) (now : Nat) : (ackFin now m.ack s).Ok fresh := by
  obtain ⟨ht, hun, hnx⟩ := h.fin hu hf
  have heq : m.ack = s.sndNxt := ha.trans hnx.symm
  have hlt : m.ack < 2 ^ 32 := by
    rw [ha]
    exact Nat.mod_lt _ (by decide)
  simp only [Efishell.ackFin]
  split
  · exact ⟨h.sized.same rfl,
      ⟨hlt, h.counted.nxt_lt, h.counted.head_lt, h.counted.rx_le, h.counted.tx_le,
      fun hu' => by cases hu'⟩⟩
  · split
    · exact ⟨h.sized.same rfl, ⟨hlt, h.counted.nxt_lt, h.counted.head_lt, h.counted.rx_le,
        h.counted.tx_le, fun _ => heq⟩⟩
    · exact ⟨h.sized.same rfl, ⟨hlt, h.counted.nxt_lt, h.counted.head_lt, h.counted.rx_le,
        h.counted.tx_le, fun _ => heq⟩⟩

/-- An acknowledgement of data in an open state. -/
theorem ackData (h : s.Ok fresh) (hu : s.used = true) (ho : s.state.Open) (ha : m.ack < 2 ^ 32)
    (hnew : netSeqBefore s.sndNxt m.ack = false) (hold : netSeqBefore s.sndUna m.ack = true)
    (now : Nat) : (ackData now m.ack s).Ok fresh := by
  have hin := h.open hu ho
  have htx : s.txCount ≤ netStream := h.counted.tx_le
  have hun : s.sndUna < 2 ^ 32 := h.counted.una_lt
  have hnx : s.sndNxt < 2 ^ 32 := h.counted.nxt_lt
  obtain ⟨-, -, hsub⟩ := acknowledged_le hun hnx ha
    (by rw [netStream] at htx; exact lt_of_le_of_lt (hin.trans htx) (by decide)) hnew hold
  refine ⟨h.sized.ackData _ _, ?_⟩
  rw [CtxOk.ackData_core]
  refine ⟨ha, h.counted.nxt_lt, h.counted.head_lt, h.counted.rx_le, ?_, fun _ => ?_⟩
  · show s.txCount - sub32 m.ack s.sndUna ≤ netStream
    omega
  · have hleft : sub32 s.sndNxt m.ack ≤ s.txCount - sub32 m.ack s.sndUna := by
      rw [hsub]
      exact Nat.sub_le_sub_right hin _
    rcases ho with e | e
    · simp only [TcpCore.Phase, TcpSocket.core, e]
      exact hleft
    · simp only [TcpCore.Phase, TcpSocket.core, e]
      exact hleft

theorem duplicate (h : c.sock.Ok fresh) : (inputDuplicate env c).sock.Ok fresh := by
  simp only [inputDuplicate]
  split
  · refine packet ?_ _ _ _
    refine h.update ?_ rfl
    exact h.sized.cut.same rfl
  · exact h.timers rfl rfl

/-- The states in which an acknowledgement is looked at. -/
theorem ackState (h : s.Ok False) (hu : s.used = true) (h₁ : s.state ≠ .synSent)
    (h₂ : s.state ≠ .timeWait) (h₃ : s.state ≠ .error) :
    s.state = .synRcvd ∨ s.state.isFin = true ∨ s.state.Open ∨
      (s.state = .finWait2 ∧ s.sndUna = s.sndNxt) := by
  have hp := h.counted.phase hu
  have hk : s.core.state = s.state := rfl
  rw [TcpCore.Phase, hk] at hp
  generalize s.state = st at hp h₁ h₂ h₃
  cases st with
  | new | bound | listen => exact hp.1.elim
  | synSent => exact absurd rfl h₁
  | synRcvd => exact Or.inl rfl
  | established => exact Or.inr (Or.inr (Or.inl (Or.inl rfl)))
  | closeWait => exact Or.inr (Or.inr (Or.inl (Or.inr rfl)))
  | finWait1 | closing | lastAck => exact Or.inr (Or.inl rfl)
  | finWait2 => exact Or.inr (Or.inr (Or.inr ⟨rfl, hp⟩))
  | timeWait => exact absurd rfl h₂
  | error => exact absurd rfl h₃

/-- **No early return.**  An acknowledgement that is not after `snd_nxt` and after `snd_una` is the
FIN's where the FIN is in flight, and covers bytes of `tx` elsewhere. -/
theorem ack_covers (h : s.Ok False) (hu : s.used = true) (h₀ : s.state ≠ .synSent)
    (h₁ : s.state ≠ .synRcvd) (h₂ : s.state ≠ .timeWait) (h₃ : s.state ≠ .error)
    (ha : m.ack < 2 ^ 32) (hnew : netSeqBefore s.sndNxt m.ack = false)
    (hold : netSeqBefore s.sndUna m.ack = true) :
    (s.state.isFin = true ∧ m.ack = add32 s.finSeq 1) ∨
      (s.state.Open ∧ sub32 m.ack s.sndUna ≤ s.txCount) := by
  have hn : s.sndNxt < 2 ^ 32 := h.counted.nxt_lt
  have hn' : s.sndUna < 2 ^ 32 := h.counted.una_lt
  rcases h.ackState hu h₀ h₂ h₃ with e | hf | ho | ⟨-, heq⟩
  · exact absurd e h₁
  · obtain ⟨-, hun, hnx⟩ := h.fin hu hf
    have hone : sub32 s.sndNxt s.sndUna = 1 := by
      rw [hnx, hun]
      rw [hun] at hn'
      simp only [sub32, add32]
      omega
    obtain ⟨hpos, hle, -⟩ := acknowledged_le hn' hn ha (by omega) hnew hold
    refine Or.inl ⟨hf, ?_⟩
    rw [← hun]
    simp only [sub32, add32] at hpos hle hone ⊢
    omega
  · have hin := h.open hu ho
    have htx : s.txCount ≤ netStream := h.counted.tx_le
    obtain ⟨-, hle, -⟩ := acknowledged_le hn' hn ha
      (by rw [netStream] at htx; exact lt_of_le_of_lt (hin.trans htx) (by decide)) hnew hold
    exact Or.inr ⟨ho, hle.trans hin⟩
  · rw [heq, hnew] at hold
    cases hold

theorem inputAck (h : c.sock.Ok False) (env : TcpEnv) (hu : c.sock.used = true)
    (h₀ : c.sock.state ≠ .synSent) (h₂ : c.sock.state ≠ .timeWait) (h₃ : c.sock.state ≠ .error)
    (ha : m.ack < 2 ^ 32) (hnew : netSeqBefore c.sock.sndNxt m.ack = false) :
    (inputAck env m c).1.sock.Ok False := by
  simp only [Efishell.inputAck]
  by_cases h₁ : c.sock.state = .synRcvd
  · rw [if_pos h₁]
    split
    · exact h
    · rename_i hack
      exact h.ackSyn ha (by_contra fun hne => hack (Or.inl hne)) _
  · rw [if_neg h₁]
    by_cases hold : netSeqBefore c.sock.sndUna m.ack = true
    · rw [if_pos hold]
      rcases h.ack_covers hu h₀ h₁ h₂ h₃ ha hnew hold with ⟨hf, hack⟩ | ⟨ho, hle⟩
      · rw [if_pos hf, if_neg (not_not_intro hack)]
        exact h.ackFin hu hf hack _
      · have hf : ¬c.sock.state.isFin = true := by
          rcases ho with e | e <;> rw [e] <;> decide
        rw [if_neg hf, if_neg (Nat.not_lt.mpr hle)]
        exact h.ackData hu ho ha hnew hold _
    · rw [if_neg hold]
      split
      · exact h.duplicate
      · exact h

theorem push (h : s.Ok fresh) (bytes : List UInt8) {take : Nat}
    (ht : take ≤ netStream - s.rxCount) : (s.rxPush bytes take).Ok fresh := by
  have hrx : s.rxCount ≤ netStream := h.counted.rx_le
  refine ⟨h.sized.same rfl, ⟨h.counted.una_lt, h.counted.nxt_lt, h.counted.head_lt, ?_,
    h.counted.tx_le, fun hu => h.counted.phase hu⟩⟩
  show s.rxCount + take ≤ netStream
  omega

/-- The peer's FIN leaves what is in flight alone. -/
theorem takeFin (h : s.Ok fresh) (now : Nat) : (s.takeFin now).Ok fresh := by
  have hp := fun hu => h.counted.phase hu
  have hk : s.core.state = s.state := rfl
  simp only [TcpCore.Phase, hk] at hp
  simp only [TcpSocket.takeFin]
  split
  · rename_i e
    simp only [e] at hp
    exact ⟨h.sized.same rfl, ⟨h.counted.una_lt, h.counted.nxt_lt, h.counted.head_lt,
      h.counted.rx_le, h.counted.tx_le, hp⟩⟩
  · split
    · rename_i e
      simp only [e] at hp
      exact ⟨h.sized.same rfl, ⟨h.counted.una_lt, h.counted.nxt_lt, h.counted.head_lt,
        h.counted.rx_le, h.counted.tx_le, hp⟩⟩
    · split
      · rename_i e
        simp only [e] at hp
        exact ⟨h.sized.same rfl, ⟨h.counted.una_lt, h.counted.nxt_lt, h.counted.head_lt,
          h.counted.rx_le, h.counted.tx_le, hp⟩⟩
      · exact ⟨h.sized.same rfl, ⟨h.counted.una_lt, h.counted.nxt_lt, h.counted.head_lt,
          h.counted.rx_le, h.counted.tx_le, fun hu => h.counted.phase hu⟩⟩

theorem inputData (h : c.sock.Ok fresh) (env : TcpEnv) (m : Segment) :
    (inputData env m c).1.sock.Ok fresh := by
  simp only [Efishell.inputData]
  generalize (if netSeqBefore m.seq c.sock.rcvNxt then
    min (sub32 c.sock.rcvNxt m.seq) m.bytes.length else 0) = trim
  split
  · exact h
  · split
    · exact h.ack
    · refine ack ?_
      split
      · exact (h.push _ (Nat.min_le_right _ _)).takeFin _
      · exact h.push _ (Nat.min_le_right _ _)

theorem inputAccepted (h : c.sock.Ok False) (hm : env.MtuOk) (hu : c.sock.used = true)
    (h₀ : c.sock.state ≠ .synSent) (h₂ : c.sock.state ≠ .timeWait) (h₃ : c.sock.state ≠ .error)
    (ha : m.ack < 2 ^ 32) : (inputAccepted env m c).sock.Ok False := by
  simp only [Efishell.inputAccepted]
  split
  · exact h.ack
  · rename_i hnew
    have hack := h.inputAck env hu h₀ h₂ h₃ ha (by simpa using hnew)
    generalize Efishell.inputAck env m c = r at hack
    obtain ⟨c₁, stop⟩ := r
    cases stop with
    | true => exact hack
    | false =>
        have hw : (c₁.update fun s => { s with peerWindow := m.window }).sock.Ok False :=
          hack.timers rfl rfl
        dsimp only
        split
        · exact hw.ack
        · have hd := hw.inputData env m
          generalize Efishell.inputData env m _ = r at hd
          obtain ⟨c₂, stop⟩ := r
          cases stop with
          | true => exact hd
          | false => exact hd.pump hm

theorem input (h : c.sock.Ok False) (hm : env.MtuOk) (hu : c.sock.used = true)
    (ha : m.ack < 2 ^ 32) : (netTcpInput env m c).sock.Ok False := by
  have hact : ((c.update fun s => { s with activity := env.now }).sock).Ok False :=
    h.timers rfl rfl
  simp only [netTcpInput]
  generalize hc : (c.update fun s => { s with activity := env.now }) = c' at hact
  have hu' : c'.sock.used = true := by
    rw [← hc]
    exact hu
  split
  · exact h
  · split
    · exact hact.inputSynSent ha
    · split
      · split
        · exact timers (ack hact) rfl rfl
        · exact hact
      · split
        · exact hact
        · split
          · exact pump (hact.timers rfl rfl) hm
          · split
            · split
              · exact hact
              · exact hact.ack
            · split
              · split
                · exact hact.error _
                · split
                  · exact hact.ack
                  · exact hact
              · split
                · split
                  · exact hact.ack
                  · exact hact
                · split
                  · exact hact
                  · rename_i h₀ h₂ h₃ _ _ _ _ _
                    exact hact.inputAccepted hm hu' h₀ h₂ h₃ ha

/-! ### Calls -/

theorem sendCall (h : c.sock.Ok fresh) (hm : env.MtuOk) (bytes : List UInt8) :
    (kNetSend env bytes c).2.sock.Ok fresh := by
  simp only [kNetSend]
  split
  · exact h
  · split
    · exact h
    · split
      · exact h
      · split
        · exact h
        · rename_i hst
          split
          · exact h
          · refine pump ?_ hm
            have ho : c.sock.state.Open := by
              by_contra hno
              exact hst (Or.inl ⟨fun e => hno (Or.inl e), fun e => hno (Or.inr e)⟩)
            have htx : c.sock.txCount ≤ netStream := h.counted.tx_le
            refine ⟨h.sized.same rfl, ⟨h.counted.una_lt, h.counted.nxt_lt, h.counted.head_lt,
              h.counted.rx_le, ?_, fun hu => ?_⟩⟩
            · show c.sock.txCount + min bytes.length (netStream - c.sock.txCount) ≤ netStream
              omega
            · have hin := h.open hu ho
              have hmore : sub32 c.sock.sndNxt c.sock.sndUna ≤
                  c.sock.txCount + min bytes.length (netStream - c.sock.txCount) := by omega
              rcases ho with e | e
              · simp only [TcpCore.Phase, TcpSocket.core, TcpCtx.update, e]
                exact hmore
              · simp only [TcpCore.Phase, TcpSocket.core, TcpCtx.update, e]
                exact hmore

theorem receiveCall (h : c.sock.Ok fresh) (n : Nat) : (kNetReceive env n c).2.sock.Ok fresh := by
  simp only [kNetReceive]
  split
  · exact h
  · split
    · exact h
    · split
      · exact h
      · split
        · refine ack ?_
          have hrx : c.sock.rxCount ≤ netStream := h.counted.rx_le
          refine ⟨h.sized.same rfl, ⟨h.counted.una_lt, h.counted.nxt_lt,
            Nat.mod_lt _ (by decide), ?_, h.counted.tx_le, fun hu => h.counted.phase hu⟩⟩
          show c.sock.rxCount - min n c.sock.rxCount ≤ netStream
          omega
        · split
          · exact h
          · split
            · exact h
            · exact h

theorem close (h : c.sock.Ok fresh) (hm : env.MtuOk) : (netCloseInternal env c).sock.Ok fresh := by
  simp only [netCloseInternal]
  split
  · exact h.drop
  · split
    · exact drop (h.packet _ _ _)
    · refine pump ?_ hm
      exact ⟨h.sized.same rfl, ⟨h.counted.una_lt, h.counted.nxt_lt, h.counted.head_lt,
        h.counted.rx_le, h.counted.tx_le, fun hu => h.counted.phase hu⟩⟩

end TcpSocket.Ok

/-! ### Arithmetic in 32 bits

`Tcp.lean` writes the products and sums of the estimates with natural numbers, the source with
`UINT32`.  They are the same while the exact values stay below `2 ^ 32`. -/

/-- The products and sums of `net_tcp_rtt`, `net_tcp_pump` and `net_tcp_input` on the estimates. -/
structure TcpSocket.NoWrap (s : TcpSocket) : Prop where
  /-- `3 * rttvar + diff`, where `diff` is the distance of `srtt` and the sample. -/
  rttvar : ∀ sample ≤ 60000, ∀ diff ≤ max s.srtt sample, 3 * s.rttvar + diff < 2 ^ 32
  /-- `7 * srtt + sample`. -/
  srtt : ∀ sample ≤ 60000, 7 * s.srtt + sample < 2 ^ 32
  /-- `srtt + 4 * rttvar`, with the new values. -/
  rto : ∀ now, (netTcpRtt now s).srtt + 4 * (netTcpRtt now s).rttvar < 2 ^ 32
  backoff : s.rto * 2 < 2 ^ 32
  double : 2 * s.mss < 2 ^ 32
  square : s.mss * s.mss < 2 ^ 32
  slowStart : ∀ acknowledged, s.cwnd + min acknowledged s.mss < 2 ^ 32
  avoidance : s.cwnd + max 1 (s.mss * s.mss / s.cwnd) < 2 ^ 32

/-- Within the bounds nothing wraps. -/
theorem TcpSocket.Sized.noWrap (h : s.Sized) : s.NoWrap := by
  have h₁ := h.mss_le
  have h₂ := h.cwnd_le
  have h₃ := h.rto_le
  have h₄ := h.srtt_le
  have h₅ := h.rttvar_le
  rw [netStream] at h₂
  have hsquare : s.mss * s.mss ≤ 1440 * 1440 := Nat.mul_le_mul h₁ h₁
  have hgrow : s.mss * s.mss / s.cwnd ≤ 1440 * 1440 := (Nat.div_le_self _ _).trans hsquare
  refine ⟨fun sample hs diff hd => by omega, fun sample hs => by omega, fun now => ?_, by omega,
    by omega, by omega, fun acknowledged => by omega, by omega⟩
  have hr := h.netTcpRtt now
  have h₆ := hr.srtt_le
  have h₇ := hr.rttvar_le
  omega

end Efishell
