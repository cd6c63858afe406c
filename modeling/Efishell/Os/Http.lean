import Efishell.Os.DnsName
import Efishell.Support.Readers

/-!
# Shell — HTTP responses

The part of `os_http_get` that reads the response: `os_http_byte` and its buffer, `os_http_line`,
the headers and the body.  The functions above `os_http_byte` are written for any reader, `next`.

A write outside `line` or `body` and a sum that wraps end in a fault.
-/

namespace Efishell.Http

/-! ### The reader -/

/-- What `k_net_receive` returns while the connection is open. -/
inductive Recv where
  /-- A piece of the stream. -/
  | piece (first : UInt8) (rest : List UInt8)
  /-- `K_EAGAIN`. -/
  | again

/-- How the stream ends. -/
inductive Ending where
  /-- The peer has closed its end: `k_net_receive` returns 0. -/
  | eof
  /-- Nothing comes any more: `k_net_receive` returns `K_EAGAIN` until the time is out. -/
  | silent
  /-- The connection failed.  A socket that is open never fails with `K_ENOENT`. -/
  | failed (e : Errno) (h : e ≠ .enoent)

/-- `os_http_reader`, with what the network is going to deliver and the clock: `clock n` is what the
`n`-th call of `k_uptime_ms` returns. -/
structure HttpReader where
  /-- The `count` bytes from `head` on. -/
  buffer : List UInt8
  pieces : List Recv
  ending : Ending
  started : Nat
  last : Nat
  clock : Nat → Nat
  tick : Nat

/-- A difference of `UINT64`. -/
def sub64 (a b : Nat) : Nat := (a + 2 ^ 64 - b % 2 ^ 64) % 2 ^ 64

/-- What `os_http_byte` returns when there is nothing to come. -/
def Ending.code : Ending → Errno
  | .eof => .enoent
  | .silent => .etimedout
  | .failed e _ => e

/-- The loop of `os_http_byte`, with an empty buffer. -/
def httpFill (r : HttpReader) : List Recv → Except (Fault Errno) UInt8 × HttpReader
  | [] => (.error (.code r.ending.code), { r with pieces := [] })
  | .piece b bs :: pieces =>
      (.ok b, { r with
        buffer := bs
        pieces := pieces
        last := r.clock r.tick
        tick := r.tick + 1 })
  | .again :: pieces =>
      let now := r.clock r.tick
      let r := { r with pieces := pieces, tick := r.tick + 1 }
      if 15000 ≤ sub64 now r.last ∨ 60000 ≤ sub64 now r.started then (.error (.code .etimedout), r)
      else httpFill r pieces

/-- `os_http_byte`: the next byte, waited for at most fifteen seconds. -/
def osHttpByte : Io (Fault Errno) HttpReader UInt8 := fun r =>
  let now := r.clock r.tick
  let r := { r with tick := r.tick + 1 }
  if 60000 ≤ sub64 now r.started then (.error (.code .etimedout), r)
  else
    match r.buffer with
    | b :: bs => (.ok b, { r with buffer := bs })
    | [] => httpFill r r.pieces

/-! ### Lines -/

section Program

variable {ρ : Type} (next : Io (Fault Errno) ρ UInt8)

/-- `os_http_line`: the line and what is left of the budget. -/
def osHttpLine (capacity : Nat) : Nat → List UInt8 → Io (Fault Errno) ρ (List UInt8 × Nat)
  | 0, _ => do
      let _ ← next
      Io.fail (.code .e2big)
  | budget + 1, line => do
      let c ← next
      if c = 13 then do
        let c ← next
        if budget = 0 then Io.fail (.code .e2big)
        else if c ≠ 10 then Io.fail (.code .eio)
        else pure (line, budget - 1)
      else if c = 10 ∨ c = 0 ∨ (c < 32 ∧ c ≠ 9) then Io.fail (.code .eio)
      else if capacity ≤ line.length + 1 then Io.fail (.code .e2big)
      else do
        let line ← Io.lift (putOut capacity c line)
        osHttpLine capacity budget line

/-- `os_http_equal`. -/
def osHttpEqual : List UInt8 → List UInt8 → Bool
  | x :: a, y :: b => if lower x ≠ lower y then false else osHttpEqual a b
  | a, b => a.isEmpty && b.isEmpty

/-- The loop over the digits: the value, and what stands after them. -/
def decimalLoop (v : Nat) : List UInt8 → Checked Errno (Nat × List UInt8)
  | [] => .ok (v, [])
  | c :: s =>
      if 48 ≤ c ∧ c ≤ 57 then
        let d := c.toNat - 48
        if (4194304 - d) / 10 < v then .error (.code .e2big)
        else do
          let v ← mulU 32 v 10
          let v ← addU 32 v d
          decimalLoop v s
      else .ok (v, c :: s)

/-- A blank or a tab. -/
def blank (c : UInt8) : Bool := c == 32 || c == 9

/-- `os_http_decimal`: a number of digits only. -/
def osHttpDecimal (s : List UInt8) : Checked Errno Nat :=
  if ¬ (48 ≤ s.headD 0 ∧ s.headD 0 ≤ 57) then .error (.code .einval)
  else do
    let (v, s) ← decimalLoop 0 s
    if s.dropWhile blank ≠ [] then .error (.code .einval) else .ok v

/-! ### The head -/

/-- What is known of the response when a header has been read. -/
structure Head where
  status : Nat
  hasLength : Bool
  length : Nat
  chunked : Bool
  encoding : Bool
  redirect : List UInt8

/-- `HTTP/1.1 ` without the digit after the dot and the blank. -/
def httpVersion : List UInt8 := [72, 84, 84, 80, 47, 49, 46]

/-- `line[i]`; the line is ended by a zero. -/
def charAt (line : List UInt8) (i : Nat) : UInt8 := line.getD i 0

/-- The status of a response's first line. -/
def httpStatus (line : List UInt8) : Checked Errno Nat :=
  if line.length < 12 ∨
      (line.take 9 ≠ httpVersion ++ [49, 32] ∧ line.take 9 ≠ httpVersion ++ [48, 32]) ∨
      charAt line 9 < 49 ∨ 53 < charAt line 9 ∨ charAt line 10 < 48 ∨ 57 < charAt line 10 ∨
      charAt line 11 < 48 ∨ 57 < charAt line 11 ∨ (charAt line 12 ≠ 0 ∧ charAt line 12 ≠ 32) then
    .error (.code .eio)
  else
    .ok (((charAt line 9).toNat - 48) * 100 + ((charAt line 10).toNat - 48) * 10 +
      ((charAt line 11).toNat - 48))

/-- `Content-Length`, `Transfer-Encoding`, `Content-Encoding`, `Location`, `chunked` and
`identity`. -/
def contentLength : List UInt8 :=
  [67, 111, 110, 116, 101, 110, 116, 45, 76, 101, 110, 103, 116, 104]

/-- The field name `Transfer-Encoding`. -/
def transferEncoding : List UInt8 :=
  [84, 114, 97, 110, 115, 102, 101, 114, 45, 69, 110, 99, 111, 100, 105, 110, 103]

/-- The field name `Content-Encoding`. -/
def contentEncoding : List UInt8 :=
  [67, 111, 110, 116, 101, 110, 116, 45, 69, 110, 99, 111, 100, 105, 110, 103]

/-- The field name `Location`. -/
def location : List UInt8 := [76, 111, 99, 97, 116, 105, 111, 110]

/-- The coding `chunked`. -/
def chunkedText : List UInt8 := [99, 104, 117, 110, 107, 101, 100]

/-- The coding `identity`. -/
def identityText : List UInt8 := [105, 100, 101, 110, 116, 105, 116, 121]

/-- What stands before the first colon. -/
def fieldName (line : List UInt8) : List UInt8 := line.takeWhile (· != colon)

/-- What stands after it, without the blanks around it. -/
def fieldValue (line : List UInt8) : List UInt8 :=
  (((line.drop ((fieldName line).length + 1)).dropWhile blank).reverse.dropWhile blank).reverse

/-- A header line. -/
def httpField (hd : Head) (line : List UInt8) : Checked Errno Head :=
  let name := fieldName line
  let value := fieldValue line
  if (name.any fun c => c ≤ 32 ∨ 127 ≤ c) ∨ name = [] ∨ line.length ≤ name.length then
    .error (.code .eio)
  else if osHttpEqual name contentLength then do
    let v ← osHttpDecimal value
    if hd.hasLength ∧ v ≠ hd.length then .error (.code .eio)
    else .ok { hd with hasLength := true, length := v }
  else if osHttpEqual name transferEncoding then
    if hd.chunked ∨ ¬ osHttpEqual value chunkedText then .error (.code .enotsup)
    else .ok { hd with chunked := true }
  else if osHttpEqual name contentEncoding then
    if hd.encoding ∨ ¬ osHttpEqual value identityText then .error (.code .enotsup)
    else .ok { hd with encoding := true }
  else if osHttpEqual name location then
    if hd.redirect ≠ [] ∨ 1024 ≤ value.length then .error (.code .e2big)
    else .ok { hd with redirect := value }
  else .ok hd

/-- The loop over the header lines; every line takes two of the budget at least. -/
def httpFields : Nat → Nat → Head → Io (Fault Errno) ρ (Head × Nat)
  | 0, _, _ => Io.fail .stray
  | rounds + 1, budget, hd => do
      let (line, budget) ← osHttpLine next 2048 budget []
      if line = [] then pure (hd, budget)
      else do
        let hd ← Io.lift (httpField hd line)
        httpFields rounds budget hd

/-- A status line and its headers. -/
def httpBlock (budget : Nat) : Io (Fault Errno) ρ (Head × Nat) := do
  let (line, budget) ← osHttpLine next 2048 budget []
  let status ← Io.lift (httpStatus line)
  let (hd, budget) ← httpFields next (budget + 1) budget ⟨status, false, 0, false, false, []⟩
  if hd.hasLength ∧ hd.chunked then Io.fail (.code .eio) else pure (hd, budget)

/-- The head of the response, after at most `left` interim ones. -/
def httpHead : Nat → Nat → Io (Fault Errno) ρ Head
  | 0, budget => do
      let (hd, _) ← httpBlock next budget
      if 100 ≤ hd.status ∧ hd.status < 200 then Io.fail (.code .enotsup) else pure hd
  | left + 1, budget => do
      let (hd, budget) ← httpBlock next budget
      if 100 ≤ hd.status ∧ hd.status < 200 then
        if hd.status = 101 then Io.fail (.code .enotsup) else httpHead left budget
      else pure hd

/-! ### The body -/

/-- `capacity - x`, in 32 bits. -/
def sub32 (a b : Nat) : Nat := (a + 2 ^ 32 - b) % 2 ^ 32

/-- The size in a chunk line. -/
def chunkSize (capacity n : Nat) : List UInt8 → Checked Errno Nat
  | [] => .ok n
  | c :: s =>
      if c = 59 then .ok n
      else if 16 ≤ hexDigit c then .error (.code .eio)
      else if sub32 capacity (hexDigit c) / 16 < n then .error (.code .e2big)
      else do
        let n ← mulU 32 n 16
        let n ← addU 32 n (hexDigit c)
        chunkSize capacity n s

/-- The trailer lines. -/
def httpTrailers : Nat → Nat → Io (Fault Errno) ρ Unit
  | 0, _ => Io.fail .stray
  | rounds + 1, budget => do
      let (line, budget) ← osHttpLine next 2048 budget []
      if line = [] then pure () else httpTrailers rounds budget

/-- The data of a chunk. -/
def httpData (capacity : Nat) : Nat → List UInt8 → Io (Fault Errno) ρ (List UInt8)
  | 0, body => pure body
  | n + 1, body => do
      let c ← next
      let body ← Io.lift (putOut capacity c body)
      httpData capacity n body

/-- The end of a chunk. -/
def httpCrlf : Io (Fault Errno) ρ Unit := do
  let cr ← Io.recode (.code .eio) next
  let lf ← Io.recode (.code .eio) next
  if cr ≠ 13 ∨ lf ≠ 10 then Io.fail (.code .eio) else pure ()

/-- The loop over the chunks; each of them but the last adds to the body. -/
def httpChunks (capacity : Nat) : Nat → List UInt8 → Io (Fault Errno) ρ (List UInt8)
  | 0, _ => Io.fail .stray
  | rounds + 1, body => do
      let (line, _) ← osHttpLine next 256 256 []
      let n ← Io.lift (chunkSize capacity 0 line)
      if line = [] ∨ line.headD 0 = 59 then Io.fail (.code .eio)
      else if capacity - body.length < n then Io.fail (.code .e2big)
      else if n = 0 then do
        httpTrailers next (16384 + 1) 16384
        pure body
      else do
        let body ← httpData next capacity n body
        httpCrlf next
        httpChunks capacity rounds body

/-- The loop over the bytes of a body that is not chunked. -/
def httpPlain (capacity : Nat) (hd : Head) : Nat → List UInt8 → Io (Fault Errno) ρ (List UInt8)
  | 0, _ => Io.fail .stray
  | rounds + 1, body =>
      if hd.hasLength ∧ hd.length ≤ body.length then pure body
      else do
        let c ← Io.caught (.code .enoent) next
        match c with
        | none => if hd.hasLength then Io.fail (.code .enoent) else pure body
        | some c =>
            if body.length = capacity then Io.fail (.code .e2big)
            else do
              let body ← Io.lift (putOut capacity c body)
              httpPlain capacity hd rounds body

/-- The part of `os_http_get` after the headers. -/
def httpBody (capacity : Nat) (hd : Head) : Io (Fault Errno) ρ (List UInt8) :=
  if 300 ≤ hd.status ∧ hd.status < 400 then
    Io.fail (.code (if hd.redirect ≠ [] then .eagain else .eio))
  else if hd.status < 200 ∨ 300 ≤ hd.status then Io.fail (.code .eio)
  else if hd.status = 204 then
    if hd.chunked ∨ (hd.hasLength ∧ hd.length ≠ 0) then Io.fail (.code .eio) else pure []
  else if hd.hasLength ∧ capacity < hd.length then Io.fail (.code .e2big)
  else if hd.chunked then httpChunks next capacity (capacity + 1) []
  else httpPlain next capacity hd (capacity + 2) []

/-- The status and the body of the response. -/
def httpResponse (capacity : Nat) : Io (Fault Errno) ρ (Nat × List UInt8) := do
  let hd ← httpHead next 4 16384
  let body ← httpBody next capacity hd
  pure (hd.status, body)

end Program

/-- The rest of `os_http_get`, once the request has been sent. -/
def osHttpGet (capacity : Nat) : Io (Fault Errno) HttpReader (Nat × List UInt8) :=
  httpResponse osHttpByte capacity

end Efishell.Http
