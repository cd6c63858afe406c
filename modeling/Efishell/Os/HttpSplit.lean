import Mathlib.Order.Monotone.Basic
import Efishell.Os.Http

/-!
# Shell — how a response is split

The reader of `os_http_get` and the plain stream.  Main results:

* `osHttpByte_agrees`: wherever `k_net_receive` cuts the stream, the reader gives its bytes in their
  order, unless the time is out.
* `osHttpGet_ok`: a response that is read is that of the stream.
* `osHttpGet_prompt`: where the time is never out (`HttpReader.Prompt`), neither the cuts nor the
  clock matter.
-/

namespace Efishell.Http

/-! ### The plain stream -/

/-- The reader of a plain stream that ends with `e`. -/
def streamByte (e : Errno) : Io (Fault Errno) (List UInt8) UInt8
  | [] => (.error (.code e), [])
  | b :: s => (.ok b, s)

/-- The bytes that arrive. -/
def Recv.bytes : Recv → List UInt8
  | .piece b bs => b :: bs
  | .again => []

/-- What the reader has yet to give. -/
def HttpReader.stream (r : HttpReader) : List UInt8 := r.buffer ++ r.pieces.flatMap Recv.bytes

/-- The response, read from a plain stream. -/
def responseOf (capacity : Nat) (e : Errno) : Io (Fault Errno) (List UInt8) (Nat × List UInt8) :=
  httpResponse (streamByte e) capacity

/-- The gaps between the pieces.  At look `tick` the network is asked for the next piece; while
there is none, less than fifteen seconds have passed since `last`.  Each byte of a piece is one
look. -/
def Waits (clock : Nat → Nat) : Nat → Nat → List Recv → Prop
  | _, _, [] => True
  | last, tick, .again :: ps => clock tick < last + 15000 ∧ Waits clock last (tick + 1) ps
  | _, tick, .piece _ bs :: ps => Waits clock (clock tick) (tick + 1 + bs.length + 1) ps

/-- The clock of a reader for which less than sixty seconds pass. -/
structure HttpReader.Clocked (r : HttpReader) : Prop where
  clock : Monotone r.clock
  started : r.started ≤ r.last
  last : ∀ t, r.tick ≤ t → r.last ≤ r.clock t
  soon : ∀ t, r.clock t < r.started + 60000
  small : r.started + 60000 < 2 ^ 64

/-- The time is never out: less than sixty seconds pass in all, and less than fifteen before each
piece. -/
structure HttpReader.Prompt (r : HttpReader) : Prop extends r.Clocked where
  gaps : Waits r.clock r.last (r.tick + r.buffer.length + 1) r.pieces

/-- The reader `r` has the stream `s` to give and ends with `e`; and if `Timely`, in time. -/
structure Gives (Timely : Prop) (e : Errno) (r : HttpReader) (s : List UInt8) : Prop where
  stream : s = r.stream
  ending : r.ending.code = e
  prompt : Timely → r.Prompt

/-- The errors of a reader that is late. -/
def Late (Timely : Prop) (f : Fault Errno) : Prop := ¬ Timely ∧ f ≠ .code .enoent

/-! ### The reader -/

/-- Without a wrap it is the difference. -/
theorem sub64_eq {a b : Nat} (h : b ≤ a) (ha : a < 2 ^ 64) : sub64 a b = a - b := by
  rw [sub64]
  omega

namespace HttpReader.Clocked

variable {r : HttpReader}

/-- A clocked run never takes a minute. -/
theorem in_time (h : r.Clocked) : sub64 (r.clock r.tick) r.started < 60000 := by
  have hlast := h.last r.tick (le_refl _)
  have hstarted := h.started
  have hsoon := h.soon r.tick
  have hsmall := h.small
  rw [sub64_eq (by omega) (by omega)]
  omega

theorem gap (h : r.Clocked) (hgap : r.clock r.tick < r.last + 15000) :
    sub64 (r.clock r.tick) r.last < 15000 := by
  have hlast := h.last r.tick (le_refl _)
  have hsoon := h.soon r.tick
  have hsmall := h.small
  rw [sub64_eq hlast (by omega)]
  omega

/-- The clock is looked at. -/
theorem look (h : r.Clocked) (buffer : List UInt8) (pieces : List Recv) :
    HttpReader.Clocked { r with buffer := buffer, pieces := pieces, tick := r.tick + 1 } :=
  { h with last := fun t ht => h.last t (Nat.le_of_succ_le ht) }

/-- A piece comes. -/
theorem piece (h : r.Clocked) (buffer : List UInt8) (pieces : List Recv) :
    HttpReader.Clocked { r with
      buffer := buffer
      pieces := pieces
      last := r.clock r.tick
      tick := r.tick + 1 } :=
  { h with
    started := h.started.trans (h.last r.tick (le_refl _))
    last := fun _ ht => h.clock (Nat.le_of_succ_le ht) }

end HttpReader.Clocked

section Reader

variable {Timely : Prop} {e : Errno}

/-- The loop that waits for a piece. -/
theorem httpFill_gives : ∀ (ps : List Recv) {r : HttpReader}, r.buffer = [] → r.ending.code = e →
    (Timely → r.Clocked ∧ Waits r.clock r.last r.tick ps) →
    ((httpFill r ps).1 = (streamByte e (ps.flatMap Recv.bytes)).1 ∧
      Gives Timely e (httpFill r ps).2 (streamByte e (ps.flatMap Recv.bytes)).2) ∨
    ∃ f, Late Timely f ∧ (httpFill r ps).1 = .error f := by
  intro ps
  induction ps with
  | nil =>
      intro r hb he hp
      refine .inl ⟨by rw [httpFill, he]; rfl, ⟨?_, he, fun ht => ?_⟩⟩
      · rw [httpFill, HttpReader.stream, hb]
        rfl
      · exact { (hp ht).1 with gaps := trivial }
  | cons x ps ih =>
      intro r hb he hp
      cases x with
      | piece b bs =>
          exact .inl ⟨rfl, ⟨rfl, he, fun ht => { (hp ht).1.piece bs ps with gaps := (hp ht).2 }⟩⟩
      | again =>
          rw [httpFill]
          dsimp only
          split
          · next hout =>
              refine .inr ⟨_, ⟨fun ht => ?_, by decide⟩, rfl⟩
              obtain ⟨hclock, hgap, -⟩ := hp ht
              have htotal := hclock.in_time
              have hpiece := hclock.gap hgap
              omega
          · exact ih hb he fun ht => ⟨hb ▸ (hp ht).1.look r.buffer ps, (hp ht).2.2⟩

/-- **The reader gives the stream**, unless the time is out. -/
theorem osHttpByte_agrees :
    Io.Agrees (Late Timely) (Gives Timely e) osHttpByte (streamByte e) := by
  rintro r s ⟨rfl, he, hp⟩
  rw [osHttpByte]
  dsimp only
  split
  · next hout =>
      refine .inr ⟨_, ⟨fun ht => ?_, by decide⟩, rfl⟩
      have := (hp ht).in_time
      omega
  · rw [HttpReader.stream]
    cases hb : r.buffer with
    | cons b bs =>
        refine .inl ⟨rfl, ⟨rfl, he, fun ht => { (hp ht).look bs r.pieces with gaps := ?_ }⟩⟩
        have hgaps := (hp ht).gaps
        rw [hb, List.length_cons] at hgaps
        rwa [show r.tick + 1 + bs.length + 1 = r.tick + (bs.length + 1) + 1 by omega]
    | nil =>
        refine httpFill_gives r.pieces rfl he fun ht => ⟨(hp ht).look [] r.pieces, ?_⟩
        have hgaps := (hp ht).gaps
        rwa [hb] at hgaps

end Reader

/-! ### The program -/

section Program

variable {ρ ρ' : Type} {next : Io (Fault Errno) ρ UInt8} {next' : Io (Fault Errno) ρ' UInt8}
  {R : ρ → ρ' → Prop} {Bad : Fault Errno → Prop}

/-- Readers that agree on bytes agree on lines. -/
theorem osHttpLine_agrees (hn : Io.Agrees Bad R next next') {capacity : Nat} :
    ∀ (budget : Nat) (line : List UInt8), Io.Agrees Bad R (osHttpLine next capacity budget line)
      (osHttpLine next' capacity budget line) := by
  intro budget
  induction budget with
  | zero => exact fun line => hn.bind fun _ => .fail _
  | succ budget ih =>
      intro line
      refine hn.bind fun c => .ite (fun _ => hn.bind fun c => ?_) fun _ => ?_
      · exact .ite (fun _ => .fail _) fun _ => .ite (fun _ => .fail _) fun _ => .pure _
      · refine .ite (fun _ => .fail _) fun _ => .ite (fun _ => .fail _) fun _ => ?_
        exact Io.Agrees.bind (.lift _) ih

theorem httpFields_agrees (hn : Io.Agrees Bad R next next') : ∀ (rounds budget : Nat) (hd : Head),
    Io.Agrees Bad R (httpFields next rounds budget hd) (httpFields next' rounds budget hd) := by
  intro rounds
  induction rounds with
  | zero => exact fun _ _ => .fail _
  | succ rounds ih =>
      intro budget hd
      refine (osHttpLine_agrees hn budget []).bind fun ⟨line, budget⟩ => ?_
      exact .ite (fun _ => .pure _) fun _ => Io.Agrees.bind (.lift _) fun hd => ih budget hd

theorem httpBlock_agrees (hn : Io.Agrees Bad R next next') (budget : Nat) :
    Io.Agrees Bad R (httpBlock next budget) (httpBlock next' budget) := by
  refine (osHttpLine_agrees hn budget []).bind fun ⟨line, budget⟩ => ?_
  refine Io.Agrees.bind (.lift _) fun status => ?_
  refine (httpFields_agrees hn _ _ _).bind fun ⟨hd, budget⟩ => ?_
  exact .ite (fun _ => .fail _) fun _ => .pure _

theorem httpHead_agrees (hn : Io.Agrees Bad R next next') : ∀ left budget : Nat,
    Io.Agrees Bad R (httpHead next left budget) (httpHead next' left budget) := by
  intro left
  induction left with
  | zero =>
      intro budget
      refine (httpBlock_agrees hn budget).bind fun ⟨hd, budget⟩ => ?_
      exact .ite (fun _ => .fail _) fun _ => .pure _
  | succ left ih =>
      intro budget
      refine (httpBlock_agrees hn budget).bind fun ⟨hd, budget⟩ => ?_
      exact .ite (fun _ => .ite (fun _ => .fail _) fun _ => ih budget) fun _ => .pure _

theorem httpTrailers_agrees (hn : Io.Agrees Bad R next next') : ∀ rounds budget : Nat,
    Io.Agrees Bad R (httpTrailers next rounds budget) (httpTrailers next' rounds budget) := by
  intro rounds
  induction rounds with
  | zero => exact fun _ => .fail _
  | succ rounds ih =>
      intro budget
      refine (osHttpLine_agrees hn budget []).bind fun ⟨line, budget⟩ => ?_
      exact .ite (fun _ => .pure _) fun _ => ih budget

theorem httpData_agrees (hn : Io.Agrees Bad R next next') {capacity : Nat} :
    ∀ (n : Nat) (body : List UInt8), Io.Agrees Bad R (httpData next capacity n body)
      (httpData next' capacity n body) := by
  intro n
  induction n with
  | zero => exact fun _ => .pure _
  | succ n ih => exact fun body => hn.bind fun c => Io.Agrees.bind (.lift _) ih

theorem httpCrlf_agrees (hn : Io.Agrees Bad R next next') (hbad : ∀ f, Bad f → Bad (.code .eio)) :
    Io.Agrees Bad R (httpCrlf next) (httpCrlf next') := by
  refine (hn.recode hbad).bind fun cr => (hn.recode hbad).bind fun lf => ?_
  exact .ite (fun _ => .fail _) fun _ => .pure _

theorem httpChunks_agrees (hn : Io.Agrees Bad R next next') (hbad : ∀ f, Bad f → Bad (.code .eio))
    {capacity : Nat} : ∀ (rounds : Nat) (body : List UInt8),
    Io.Agrees Bad R (httpChunks next capacity rounds body)
      (httpChunks next' capacity rounds body) := by
  intro rounds
  induction rounds with
  | zero => exact fun _ => .fail _
  | succ rounds ih =>
      intro body
      refine (osHttpLine_agrees hn 256 []).bind fun ⟨line, _⟩ => ?_
      refine Io.Agrees.bind (.lift _) fun n => ?_
      refine .ite (fun _ => .fail _) fun _ => .ite (fun _ => .fail _) fun _ => .ite (fun _ => ?_)
        fun _ => ?_
      · exact (httpTrailers_agrees hn _ _).bind fun _ => .pure _
      · refine (httpData_agrees hn n body).bind fun body => ?_
        exact (httpCrlf_agrees hn hbad).bind fun _ => ih body

theorem httpPlain_agrees (hn : Io.Agrees Bad R next next') (hend : ¬ Bad (.code .enoent))
    {capacity : Nat} {hd : Head} : ∀ (rounds : Nat) (body : List UInt8),
    Io.Agrees Bad R (httpPlain next capacity hd rounds body)
      (httpPlain next' capacity hd rounds body) := by
  intro rounds
  induction rounds with
  | zero => exact fun _ => .fail _
  | succ rounds ih =>
      intro body
      refine .ite (fun _ => .pure _) fun _ => (hn.caught hend).bind fun c => ?_
      cases c with
      | none => exact .ite (fun _ => .fail _) fun _ => .pure _
      | some c => exact .ite (fun _ => .fail _) fun _ => Io.Agrees.bind (.lift _) ih

theorem httpResponse_agrees (hn : Io.Agrees Bad R next next') (hbad : ∀ f, Bad f → Bad (.code .eio))
    (hend : ¬ Bad (.code .enoent)) (capacity : Nat) :
    Io.Agrees Bad R (httpResponse next capacity) (httpResponse next' capacity) := by
  refine (httpHead_agrees hn _ _).bind fun hd => Io.Agrees.bind ?_ fun body => .pure _
  refine .ite (fun _ => .fail _) fun _ => .ite (fun _ => .fail _) fun _ =>
    .ite (fun _ => ?_) fun _ => ?_
  · exact .ite (fun _ => .fail _) fun _ => .pure _
  · refine .ite (fun _ => .fail _) fun _ => .ite (fun _ => ?_) fun _ => ?_
    · exact httpChunks_agrees hn hbad _ _
    · exact httpPlain_agrees hn hend _ _

end Program

/-! ### The response -/

theorem late_eio {Timely : Prop} {f : Fault Errno} (h : Late Timely f) :
    Late Timely (.code .eio) := ⟨h.1, by decide⟩

theorem not_late_enoent {Timely : Prop} : ¬ Late Timely (.code .enoent) := fun h => h.2 rfl

/-- The response depends on the stream only, unless a timeout fires. -/
theorem osHttpGet_agrees (Timely : Prop) (capacity : Nat) (e : Errno) :
    Io.Agrees (Late Timely) (Gives Timely e) (osHttpGet capacity) (responseOf capacity e) :=
  httpResponse_agrees osHttpByte_agrees (fun _ => late_eio) not_late_enoent capacity

/-- A response that is read is that of the stream. -/
theorem osHttpGet_ok {capacity : Nat} {r : HttpReader} {x : Nat × List UInt8}
    (h : (osHttpGet capacity r).1 = .ok x) :
    (responseOf capacity r.ending.code r.stream).1 = .ok x :=
  (osHttpGet_agrees False capacity r.ending.code).ok ⟨rfl, rfl, False.elim⟩ h

/-- **A response that is read in time** is that of the stream. -/
theorem osHttpGet_prompt {capacity : Nat} {r : HttpReader} (hp : r.Prompt) :
    (osHttpGet capacity r).1 = (responseOf capacity r.ending.code r.stream).1 := by
  rcases osHttpGet_agrees True capacity r.ending.code r r.stream ⟨rfl, rfl, fun _ => hp⟩ with
    ⟨heq, -⟩ | ⟨f, hlate, -⟩
  · exact heq
  · exact absurd trivial hlate.1

end Efishell.Http
