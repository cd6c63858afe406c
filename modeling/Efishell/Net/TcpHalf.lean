import Efishell.Net.Tcp

/-!
# Networking — the two halves of a TCP socket

A socket sends one stream and receives another.  Unwrapped sequence numbers count from the SYN,
which has number 0, so that byte `k` of a stream has number `k + 1`; the 32-bit fields are these
numbers plus the initial sequence number, modulo `2 ^ 32`.

* `SendOk` relates the send half to the list of bytes `k_net_send` accepted: what `tx` holds is the
  part not acknowledged yet, and a FIN takes its number only after the last byte.
* `RecvOk` relates the receive half to the stream of the peer: what `k_net_receive` returned
  followed by what `rx` holds is a prefix of it, all of it once the FIN is in.
* `SegOk` says what a segment may carry: a slice of the accepted bytes, a FIN at their end, and an
  acknowledgement of what was received.

`CtxOk` puts them together for the duration of a call.
-/

namespace Efishell

/-! ### Sequence numbers -/

/-- The 32-bit form of the number `n` in the stream that starts at `base`. -/
def wrapSeq (base n : Nat) : Nat := (base + n) % 2 ^ 32

/-- The distance of two sequence numbers is that of their positions. -/
theorem sub32_wrapSeq {base m n : Nat} (h : n ≤ m) (h' : m < n + 2 ^ 32) :
    sub32 (wrapSeq base m) (wrapSeq base n) = m - n := by
  simp only [sub32, wrapSeq]
  omega

theorem add32_wrapSeq (base n k : Nat) : add32 (wrapSeq base n) k = wrapSeq base (n + k) := by
  simp only [add32, wrapSeq]
  omega

theorem sub32_wrapSeq_one {base n : Nat} (h : 1 ≤ n) :
    sub32 (wrapSeq base n) 1 = wrapSeq base (n - 1) := by
  simp only [sub32, wrapSeq]
  omega

/-- Numbers less than `2 ^ 31` apart compare as their 32-bit forms do. -/
theorem netSeqBefore_wrapSeq {base m n : Nat} (h : m < n + 2 ^ 31) (h' : n < m + 2 ^ 31) :
    netSeqBefore (wrapSeq base m) (wrapSeq base n) = decide (m < n) := by
  rw [netSeqBefore, decide_eq_decide]
  by_cases e : n ≤ m
  · rw [sub32_wrapSeq e (by omega)]
    omega
  · have hsub : sub32 (wrapSeq base m) (wrapSeq base n) = 2 ^ 32 - (n - m) := by
      simp only [sub32, wrapSeq]
      omega
    omega

/-- Positions less than 4 GiB apart have different sequence numbers. -/
theorem wrapSeq_inj {base m n : Nat} (h : m < n + 2 ^ 32) (h' : n < m + 2 ^ 32)
    (e : wrapSeq base m = wrapSeq base n) : m = n := by
  simp only [wrapSeq] at e
  omega

/-! ### The part of a socket the streams depend on -/

/-- The fields that say where the streams are; timers, windows and estimates are left out. -/
structure TcpCore where
  used : Bool
  peerFin : Bool
  closeRequested : Bool
  state : TcpState
  sndUna : Nat
  sndNxt : Nat
  rcvNxt : Nat
  rxHead : Nat
  rxCount : Nat
  txCount : Nat
  finSeq : Nat
  rx : Bytes
  tx : Bytes

/-- The fields the invariants are about. -/
def TcpSocket.core (s : TcpSocket) : TcpCore where
  used := s.used
  peerFin := s.peerFin
  closeRequested := s.closeRequested
  state := s.state
  sndUna := s.sndUna
  sndNxt := s.sndNxt
  rcvNxt := s.rcvNxt
  rxHead := s.rxHead
  rxCount := s.rxCount
  txCount := s.txCount
  finSeq := s.finSeq
  rx := s.rx
  tx := s.tx

/-- The round trip does not matter to the invariant. -/
theorem netTcpRtt_core (now : Nat) (s : TcpSocket) : (netTcpRtt now s).core = s.core := by
  simp only [netTcpRtt]
  split
  · split <;> rfl
  · rfl

theorem pumpClampMss_core (env : TcpEnv) (s : TcpSocket) : (pumpClampMss env s).core = s.core := by
  rw [pumpClampMss]
  split <;> rfl

theorem pumpResent_core (now : Nat) (s : TcpSocket) : (pumpResent now s).core = s.core := by
  simp only [pumpResent]
  split <;> rfl

/-! ### Sending -/

/-- The send half in each state.  `fin` says that the FIN has its number. -/
def TcpCore.PhaseOk (k : TcpCore) (base : Nat) (acc : List UInt8) (una nxt : Nat) (fin : Bool) :
    Prop :=
  match k.state with
  | .synRcvd => acc = [] ∧ una = 0 ∧ nxt = 1 ∧ k.txCount = 0 ∧ fin = false
  | .established | .closeWait =>
      fin = false ∧ 1 ≤ una ∧ una + k.txCount = acc.length + 1 ∧ nxt ≤ acc.length + 1 ∧
        k.txCount ≤ netStream ∧ ∀ i < k.txCount, acc[una - 1 + i]? = some (k.tx i)
  | .finWait1 | .closing | .lastAck =>
      fin = true ∧ k.txCount = 0 ∧ una = acc.length + 1 ∧ nxt = una + 1 ∧
        k.finSeq = wrapSeq base una
  | .finWait2 | .timeWait => fin = true ∧ k.txCount = 0 ∧ una = nxt
  | .error => True
  | _ => False

/-- The send half: everything below `una` is acknowledged, everything below `nxt` was sent. -/
structure SendOk (base : Nat) (acc : List UInt8) (k : TcpCore) (una nxt : Nat) (fin : Bool) :
    Prop where
  una_eq : k.sndUna = wrapSeq base una
  nxt_eq : k.sndNxt = wrapSeq base nxt
  una_le : una ≤ nxt
  nxt_le : nxt ≤ una + netStream
  len_le : acc.length + 1 ≤ una + netStream
  nxt_len : nxt ≤ acc.length + 1 + fin.toNat
  closed : fin = true → k.closeRequested = true
  phase : k.used = true → k.PhaseOk base acc una nxt fin

/-! ### Receiving -/

/-- The contents of the receive ring. -/
def TcpCore.ring (k : TcpCore) : List UInt8 :=
  (List.range k.rxCount).map fun i => k.rx ((k.rxHead + i) % netStream)

/-- The receive half: `dl` was returned to the caller, `rcv` is the next number expected of the
peer, whose stream is `accP`. -/
structure RecvOk (base : Nat) (accP : List UInt8) (finP : Bool) (dl : List UInt8) (k : TcpCore)
    (rcv : Nat) : Prop where
  rcv_eq : k.rcvNxt = wrapSeq base rcv
  count_le : k.rxCount ≤ netStream
  rcv_count : rcv = 1 + dl.length + k.rxCount + k.peerFin.toNat
  stream : dl ++ k.ring = accP.take (dl.length + k.rxCount)
  len_le : dl.length + k.rxCount ≤ accP.length
  fin : k.peerFin = true → finP = true ∧ dl.length + k.rxCount = accP.length

/-! ### Segments -/

/-- What a segment carries, with its unwrapped numbers; SYN and RST segments are free. -/
def SegOk (base peerBase : Nat) (acc : List UInt8) (fin : Bool) (rcv : Nat) (m : Segment)
    (seqNo ackNo : Nat) : Prop :=
  m.flags.syn = true ∨ m.flags.rst = true ∨
    (m.seq = wrapSeq base seqNo ∧ m.ack = wrapSeq peerBase ackNo ∧
      seqNo ≤ acc.length + 1 + fin.toNat ∧ ackNo ≤ rcv ∧
      (m.bytes ≠ [] → 1 ≤ seqNo ∧ seqNo - 1 + m.bytes.length ≤ acc.length ∧
        m.bytes = (acc.drop (seqNo - 1)).take m.bytes.length) ∧
      (m.flags.fin = true → m.bytes = [] ∧ fin = true ∧ seqNo = acc.length + 1))

/-- A segment stays right when the streams go on, as long as a FIN ends the stream. -/
theorem SegOk.mono {base peerBase : Nat} {acc acc' : List UInt8} {fin fin' : Bool}
    {rcv rcv' seqNo ackNo : Nat} {m : Segment} (h : SegOk base peerBase acc fin rcv m seqNo ackNo)
    (hacc : ∃ l, acc' = acc ++ l) (hfin : fin = true → fin' = true ∧ acc' = acc)
    (hrcv : rcv ≤ rcv') : SegOk base peerBase acc' fin' rcv' m seqNo ackNo := by
  obtain ⟨l, rfl⟩ := hacc
  rcases h with h | h | ⟨h₁, h₂, h₃, h₄, h₅, h₆⟩
  · exact Or.inl h
  · exact Or.inr (Or.inl h)
  · refine Or.inr (Or.inr ⟨h₁, h₂, ?_, h₄.trans hrcv, fun hne => ?_, fun hf => ?_⟩)
    · cases fin with
      | false =>
          rw [List.length_append]
          simp only [Bool.toNat_false] at h₃
          omega
      | true =>
          obtain ⟨rfl, he⟩ := hfin rfl
          rwa [he]
    · obtain ⟨e₁, e₂, e₃⟩ := h₅ hne
      refine ⟨e₁, ?_, ?_⟩
      · rw [List.length_append]
        omega
      · rw [List.drop_append_of_le_length (by omega), List.take_append_of_le_length
          (by rw [List.length_drop]; omega)]
        exact e₃
    · obtain ⟨e₁, e₂, e₃⟩ := h₆ hf
      obtain ⟨e₄, e₅⟩ := hfin e₂
      exact ⟨e₁, e₄, by rw [e₅]; exact e₃⟩

/-! ### A call -/

/-- What stays fixed during a call: both initial sequence numbers, both streams, what was delivered,
the number the peer expects next, and the numbers at the start of the call. -/
structure CallData where
  base : Nat
  peerBase : Nat
  acc : List UInt8
  accP : List UInt8
  finP : Bool
  dl : List UInt8
  rcvP : Nat
  una₀ : Nat
  nxt₀ : Nat
  rcv₀ : Nat

/-- The state in the middle of a call. -/
structure CtxOk (P : CallData) (una nxt rcv : Nat) (fin : Bool) (c : TcpCtx) : Prop where
  send : SendOk P.base P.acc c.sock.core una nxt fin
  recv : RecvOk P.peerBase P.accP P.finP P.dl c.sock.core rcv
  una_ge : P.una₀ ≤ una
  una_le : una ≤ P.nxt₀
  una_rcv : una ≤ P.rcvP
  nxt_ge : P.nxt₀ ≤ nxt
  rcv_ge : P.rcv₀ ≤ rcv
  rcv_le : rcv ≤ P.rcv₀ + netStream + 1
  out : ∀ m ∈ c.out, ∃ seqNo ackNo, SegOk P.base P.peerBase P.acc fin rcv m seqNo ackNo ∧
    P.una₀ ≤ seqNo + 1 ∧ seqNo ≤ nxt ∧ P.rcv₀ ≤ ackNo

namespace CtxOk

variable {P : CallData} {una nxt rcv : Nat} {fin : Bool} {c : TcpCtx}

/-- An update of timers, windows or estimates. -/
theorem update (h : CtxOk P una nxt rcv fin c) (f : TcpSocket → TcpSocket)
    (hf : (f c.sock).core = c.sock.core) : CtxOk P una nxt rcv fin (c.update f) := by
  refine ⟨?_, ?_, h.una_ge, h.una_le, h.una_rcv, h.nxt_ge, h.rcv_ge, h.rcv_le, h.out⟩
  · rw [TcpCtx.update, hf]
    exact h.send
  · rw [TcpCtx.update, hf]
    exact h.recv

/-- `net_tcp_packet` emits its segment or nothing. -/
theorem packet (h : CtxOk P una nxt rcv fin c) (env : TcpEnv) (sequence : Nat) (flags : TcpFlags)
    (bytes : List UInt8)
    (hm : ∃ seqNo ackNo, SegOk P.base P.peerBase P.acc fin rcv (c.sock.segment sequence flags bytes)
      seqNo ackNo ∧ P.una₀ ≤ seqNo + 1 ∧ seqNo ≤ nxt ∧ P.rcv₀ ≤ ackNo) :
    CtxOk P una nxt rcv fin (netTcpPacket env sequence flags bytes c).2 := by
  have hs := sock_netTcpPacket env sequence flags bytes c
  refine ⟨by rw [hs]; exact h.send, by
    rw [hs]; exact h.recv, h.una_ge, h.una_le, h.una_rcv, h.nxt_ge,
    h.rcv_ge, h.rcv_le, fun m hmem => ?_⟩
  have hout : (netTcpPacket env sequence flags bytes c).2.out = c.out ∨
      (netTcpPacket env sequence flags bytes c).2.out =
        c.out ++ [c.sock.segment sequence flags bytes] := by
    simp only [netTcpPacket]
    split
    · exact Or.inl rfl
    · split
      · exact Or.inl rfl
      · split <;> exact Or.inr rfl
  rcases hout with e | e
  · rw [e] at hmem
    exact h.out m hmem
  · rw [e] at hmem
    rcases List.mem_append.mp hmem with hmem | hmem
    · exact h.out m hmem
    · rw [List.mem_singleton.mp hmem]
      exact hm

/-- A segment without data and FIN, numbered inside the window, is right. -/
theorem bare (h : CtxOk P una nxt rcv fin c) {seqNo sequence : Nat} {flags : TcpFlags}
    (hack : flags.ack = true) (hfin : flags.fin = false) (hseq : sequence = wrapSeq P.base seqNo)
    (hge : P.una₀ ≤ seqNo + 1) (hle : seqNo ≤ nxt) :
    ∃ seqNo ackNo, SegOk P.base P.peerBase P.acc fin rcv (c.sock.segment sequence flags []) seqNo
      ackNo ∧ P.una₀ ≤ seqNo + 1 ∧ seqNo ≤ nxt ∧ P.rcv₀ ≤ ackNo := by
  refine ⟨seqNo, rcv, Or.inr (Or.inr ⟨hseq, ?_, hle.trans h.send.nxt_len, Nat.le_refl _, ?_, ?_⟩),
    hge, hle, h.rcv_ge⟩
  · simp only [TcpSocket.segment, hack, if_true]
    exact h.recv.rcv_eq
  · exact fun hne => absurd rfl hne
  · intro hf
    rw [TcpSocket.segment, hfin] at hf
    cases hf

/-- An acknowledgement sent. -/
theorem ack (h : CtxOk P una nxt rcv fin c) (env : TcpEnv) :
    CtxOk P una nxt rcv fin (netTcpAck env c) := by
  refine h.packet env _ _ _ (h.bare rfl rfl h.send.nxt_eq ?_ (Nat.le_refl _))
  have h₁ := h.una_ge
  have h₂ := h.send.una_le
  omega

/-- A connection that ends with an error. -/
theorem error (h : CtxOk P una nxt rcv fin c) (env : TcpEnv) (e : Errno) :
    CtxOk P una nxt rcv fin (netTcpError env e c) := by
  refine ⟨⟨h.send.una_eq, h.send.nxt_eq, h.send.una_le, h.send.nxt_le, h.send.len_le,
    h.send.nxt_len,
    h.send.closed, fun _ => trivial⟩,
      ⟨h.recv.rcv_eq, h.recv.count_le, h.recv.rcv_count, h.recv.stream,
    h.recv.len_le, h.recv.fin⟩, h.una_ge, h.una_le, h.una_rcv, h.nxt_ge, h.rcv_ge, h.rcv_le, h.out⟩

/-- The socket is given up. -/
theorem drop (h : CtxOk P una nxt rcv fin c) :
    CtxOk P una nxt rcv fin (c.update fun s => { s with used := false }) := by
  refine ⟨⟨h.send.una_eq, h.send.nxt_eq, h.send.una_le, h.send.nxt_le, h.send.len_le,
    h.send.nxt_len,
    h.send.closed, fun hu => by cases hu⟩, ⟨h.recv.rcv_eq, h.recv.count_le, h.recv.rcv_count,
    h.recv.stream, h.recv.len_le, h.recv.fin⟩, h.una_ge, h.una_le, h.una_rcv, h.nxt_ge, h.rcv_ge,
      h.rcv_le, h.out⟩

end CtxOk

/-! ### Sending data -/

/-- The buffer holds the stream from number `una` on. -/
theorem txSlice_eq {acc : List UInt8} {s : TcpSocket} {a k off n : Nat}
    (htx : ∀ i < k, acc[a + i]? = some (s.tx i)) (h : off + n ≤ k) :
    s.txSlice off n = (acc.drop (a + off)).take n := by
  refine List.ext_getElem? fun i => ?_
  rw [TcpSocket.txSlice, List.getElem?_map, List.getElem?_take, List.getElem?_drop]
  by_cases hi : i < n
  · rw [List.getElem?_range hi, if_pos hi, Nat.add_assoc, htx (off + i) (by omega)]
    rfl
  · rw [if_neg hi, List.getElem?_eq_none (by rw [List.length_range]; omega)]
    rfl

theorem txSlice_length (s : TcpSocket) (off n : Nat) : (s.txSlice off n).length = n := by
  rw [TcpSocket.txSlice, List.length_map, List.length_range]

/-- `NS_ESTABLISHED` or `NS_CLOSE_WAIT`: the states in which data is sent. -/
def TcpState.Open (s : TcpState) : Prop := s = .established ∨ s = .closeWait

/-- In an open state the FIN has not been sent. -/
theorem TcpCore.PhaseOk.open {k : TcpCore} {base : Nat} {acc : List UInt8} {una nxt : Nat}
    {fin : Bool} (h : k.PhaseOk base acc una nxt fin) (ho : k.state.Open) :
    fin = false ∧ 1 ≤ una ∧ una + k.txCount = acc.length + 1 ∧ nxt ≤ acc.length + 1 ∧
      k.txCount ≤ netStream ∧ ∀ i < k.txCount, acc[una - 1 + i]? = some (k.tx i) := by
  rw [TcpCore.PhaseOk] at h
  rcases ho with e | e
  · rw [e] at h
    exact h
  · rw [e] at h
    exact h

/-- Only open states have data that is not acknowledged. -/
theorem TcpCore.PhaseOk.open_of_tx {k : TcpCore} {base : Nat} {acc : List UInt8} {una nxt : Nat}
    {fin : Bool} (h : k.PhaseOk base acc una nxt fin) (he : k.state ≠ .error)
    (ht : k.txCount ≠ 0) : k.state.Open := by
  rw [TcpCore.PhaseOk] at h
  cases hst : k.state <;> simp only [hst] at h he
  all_goals first
    | exact Or.inl rfl | exact Or.inr rfl | exact absurd h.2.1 ht | exact absurd h.2.2.2.1 ht
    | exact absurd rfl he

namespace CtxOk

variable {P : CallData} {una nxt rcv : Nat} {fin : Bool} {c : TcpCtx}

/-- A segment with a slice of the buffer is right. -/
theorem slice (h : CtxOk P una nxt rcv fin c) (hu : c.sock.used = true) (ho : c.sock.state.Open)
    {flags : TcpFlags} (hack : flags.ack = true) (hfin : flags.fin = false) {off n sequence : Nat}
    (hn : off + n ≤ c.sock.txCount) (hoff : una + off ≤ nxt)
    (hseq : sequence = wrapSeq P.base (una + off)) :
    ∃ seqNo ackNo, SegOk P.base P.peerBase P.acc fin rcv
      (c.sock.segment sequence flags (c.sock.txSlice off n)) seqNo ackNo ∧
      P.una₀ ≤ seqNo + 1 ∧ seqNo ≤ nxt ∧ P.rcv₀ ≤ ackNo := by
  obtain ⟨-, h1, hlen, hnxt, -, htx⟩ := (h.send.phase hu).open ho
  have hge := h.una_ge
  have hlen' : una + c.sock.txCount = P.acc.length + 1 := hlen
  refine ⟨una + off, rcv,
    Or.inr (Or.inr ⟨hseq, ?_, hoff.trans h.send.nxt_len, Nat.le_refl _, ?_, ?_⟩),
    by omega, hoff, h.rcv_ge⟩
  · simp only [TcpSocket.segment, hack, if_true]
    exact h.recv.rcv_eq
  · intro _
    simp only [TcpSocket.segment, txSlice_length]
    refine ⟨by omega, by omega, ?_⟩
    rw [txSlice_eq htx hn, show una - 1 + off = una + off - 1 by omega]
  · intro hf
    rw [TcpSocket.segment, hfin] at hf
    cases hf

/-- What the retransmission timer sends is right. -/
theorem again (h : CtxOk P una nxt rcv fin c) (hu : c.sock.used = true)
    (hs : c.sock.state.isSyn || c.sock.state.isFin ||
      (c.sock.sndNxt != c.sock.sndUna && c.sock.txCount != 0))
    (he : c.sock.state ≠ .error) :
    ∃ seqNo ackNo, SegOk P.base P.peerBase P.acc fin rcv
      (c.sock.segment (pumpAgain c.sock).1 (pumpAgain c.sock).2.1 (pumpAgain c.sock).2.2)
      seqNo ackNo ∧ P.una₀ ≤ seqNo + 1 ∧ seqNo ≤ nxt ∧ P.rcv₀ ≤ ackNo := by
  have hph := h.send.phase hu
  have hge := h.una_ge
  have hle := h.send.una_le
  rw [pumpAgain]
  by_cases hsyn : c.sock.state.isSyn = true
  · rw [if_pos hsyn]
    exact ⟨una, P.rcv₀, Or.inl rfl, by omega, hle, Nat.le_refl _⟩
  · rw [if_neg hsyn]
    by_cases hf : c.sock.state.isFin = true
    · rw [if_pos hf]
      -- the FIN has the number after the last byte
      have hfin : fin = true ∧ una = P.acc.length + 1 ∧ c.sock.finSeq = wrapSeq P.base una := by
        have hk : c.sock.core.state = c.sock.state := rfl
        rw [TcpCore.PhaseOk, hk] at hph
        cases hst : c.sock.state <;> simp only [hst, TcpState.isFin] at hph hf
        all_goals first | exact ⟨hph.1, hph.2.2.1, hph.2.2.2.2⟩ | cases hf
      obtain ⟨rfl, hlen, hseq⟩ := hfin
      refine ⟨una, rcv, Or.inr (Or.inr ⟨hseq, ?_, ?_, Nat.le_refl _, ?_, ?_⟩), by
        omega, hle, h.rcv_ge⟩
      · exact h.recv.rcv_eq
      · omega
      · exact fun hne => absurd rfl hne
      · exact fun _ => ⟨rfl, rfl, hlen⟩
    · rw [if_neg hf]
      simp only [Bool.not_eq_true] at hsyn hf
      simp only [hsyn, hf, Bool.false_or, Bool.and_eq_true, bne_iff_ne] at hs
      have ho : c.sock.state.Open := hph.open_of_tx he hs.2
      obtain ⟨-, h1, hlen, hnxt, -, htx⟩ := hph.open ho
      have hlen' : una + c.sock.txCount = P.acc.length + 1 := hlen
      have hn : 0 + min c.sock.mss (sub32 c.sock.sndNxt c.sock.sndUna) ≤ c.sock.txCount := by
        have hnx : c.sock.sndNxt = wrapSeq P.base nxt := h.send.nxt_eq
        have hun : c.sock.sndUna = wrapSeq P.base una := h.send.una_eq
        have hns := h.send.nxt_le
        rw [hnx, hun, sub32_wrapSeq hle (by simp only [netStream] at hns; omega)]
        omega
      exact h.slice hu ho rfl rfl hn (by omega) h.send.una_eq

end CtxOk

end Efishell
