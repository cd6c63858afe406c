import Efishell.Net.AddressText
import Efishell.Fs.Native

/-!
# Shell — names in DNS messages

`os_dns_name`, which reads a name out of a message, and the part of `os_dns_query_depth` that makes
the host name and the query from what the user typed.

A read outside the message and a write outside `out` or `query` end in `stray`.  `out` has `room`
bytes: the callers give it 256.
-/

namespace Efishell

/-- `c >= 'A' && c <= 'Z' ? c + 32 : c`. -/
def lower (c : UInt8) : UInt8 := if 65 ≤ c ∧ c ≤ 90 then c + 32 else c

/-- `out[used++] = c;` in a buffer of `room` bytes, `used` of which are written. -/
def putOut (room : Nat) (c : UInt8) (out : List UInt8) : Checked Errno (List UInt8) :=
  if out.length < room then .ok (out ++ [c]) else .error .stray

/-! ### Reading a name -/

/-- Where the loop of `os_dns_name` stands. -/
structure DnsScan where
  at_ : Nat
  jumps : Nat
  jumped : Bool
  position : Nat
  /-- What has been written to `out`; `used` is its length. -/
  out : List UInt8

/-- `out[used++] = '.';` between two labels. -/
def putDot (room : Nat) (out : List UInt8) : Checked Errno (List UInt8) :=
  if out.length ≠ 0 then putOut room fullStop out else .ok out

/-- The loop over the characters of a label. -/
def dnsLabel (p : Buffer) (room : Nat) : Nat → Nat → List UInt8 → Checked Errno (List UInt8)
  | 0, _, out => .ok out
  | left + 1, at_, out => do
      let c ← p.byte at_
      if c < 33 ∨ 126 < c ∨ c = fullStop then .error (.code .einval)
      else do
        let out ← putOut room (lower c) out
        dnsLabel p room left (at_ + 1) out

/-- The pointer at `at_`, whose first byte is `len`. -/
def dnsPointer (p : Buffer) (len : UInt8) (s : DnsScan) (at_ : Nat) : Checked Errno DnsScan :=
  if p.size ≤ at_ ∨ 32 < s.jumps + 1 then .error (.code .einval)
  else do
    let low ← p.byte at_
    let target := 256 * (len &&& 63).toNat + low.toNat
    if at_ + 1 - 2 ≤ target then .error (.code .einval)
    else .ok {
      at_ := target
      jumps := s.jumps + 1
      jumped := true
      position := if s.jumped then s.position else at_ + 1
      out := s.out }

/-- The body of the loop: another round, or the position and the name. -/
def dnsRound (p : Buffer) (room : Nat) (s : DnsScan) :
    Checked Errno (DnsScan ⊕ (Nat × List UInt8)) := do
  let len ← p.byte s.at_
  let at_ := s.at_ + 1
  if len = 0 then
    if s.out.length < room then .ok (.inr (if s.jumped then s.position else at_, s.out))
    else .error .stray
  else if len &&& 0xc0 = 0xc0 then Sum.inl <$> dnsPointer p len s at_
  else if len &&& 0xc0 ≠ 0 ∨ p.size - at_ < len.toNat ∨
      253 < s.out.length + (if s.out.length ≠ 0 then 1 else 0) + len.toNat then
    .error (.code .einval)
  else do
    let out ← putDot room s.out
    let out ← dnsLabel p room len.toNat at_ out
    .ok (.inl { s with at_ := at_ + len.toNat, out := out })

/-- The loop of `os_dns_name`; `none` when there are not enough rounds. -/
def dnsLoop (p : Buffer) (room : Nat) :
    Nat → DnsScan → Option (Checked Errno (Nat × List UInt8))
  | 0, _ => none
  | rounds + 1, s =>
      if p.size ≤ s.at_ then some (.error (.code .einval))
      else match dnsRound p room s with
        | .error e => some (.error e)
        | .ok (.inr r) => some (.ok r)
        | .ok (.inl s) => dnsLoop p room rounds s

/-- `os_dns_name`: the name at a position of the packet, and where it ends. -/
def osDnsName (p : Buffer) (room position : Nat) : Option (Checked Errno (Nat × List UInt8)) :=
  dnsLoop p room (33 * (p.size + 1)) ⟨position, 0, false, position, []⟩

/-! ### Making the query -/

/-- `length` in `os_dns_query_depth`. -/
def dnsLength (hostname : List UInt8) : Nat :=
  if hostname.getLast? = some fullStop then hostname.length - 1 else hostname.length

/-- `host`, with which the answers are compared. -/
def dnsHost (hostname : List UInt8) : Checked Errno (List UInt8) :=
  if dnsLength hostname = 0 ∨ 253 < dnsLength hostname then .error (.code .einval)
  else .ok ((hostname.take (dnsLength hostname)).map lower)

/-- The bytes of a label put into `query`. -/
def putLabelBytes : List UInt8 → List UInt8 → Checked Errno (List UInt8)
  | [], query => .ok query
  | c :: label, query =>
      if c < 33 ∨ 126 < c then .error (.code .einval)
      else do
        let query ← putOut 512 c query
        putLabelBytes label query

/-- A label put into `query`, the `qn` bytes written so far. -/
def putLabel (label query : List UInt8) : Checked Errno (List UInt8) :=
  if label.length = 0 ∨ 63 < label.length ∨ 512 < query.length + label.length + 6 then
    .error (.code .einval)
  else do
    let query ← putOut 512 (UInt8.ofNat label.length) query
    putLabelBytes label query

/-- The loop over `host`; `label` is `host[begin..at)`. -/
def encodeLoop : List UInt8 → List UInt8 → List UInt8 → Checked Errno (List UInt8)
  | [], label, query => if label = [] then .ok query else putLabel label query
  | c :: rest, label, query =>
      if c = fullStop then do
        let query ← putLabel label query
        encodeLoop rest [] query
      else encodeLoop rest (label ++ [c]) query

/-- `os_put16(query + qn, x); qn += 2;` -/
def putOut16 (x : Nat) (query : List UInt8) : Checked Errno (List UInt8) := do
  let query ← putOut 512 (UInt8.ofNat (x / 256)) query
  putOut 512 (UInt8.ofNat x) query

/-- The first 12 bytes of the query. -/
def dnsHeader (xid : Nat) : List UInt8 :=
  [UInt8.ofNat (xid / 256), UInt8.ofNat xid, 1, 0, 0, 1, 0, 0, 0, 0, 0, 0]

/-- The host and the query for it that `os_dns_query_depth` makes. -/
def dnsQuery (hostname : List UInt8) (family xid : Nat) :
    Checked Errno (List UInt8 × List UInt8) := do
  let host ← dnsHost hostname
  let query ← encodeLoop host [] (dnsHeader xid)
  let query ← putOut 512 0 query
  let query ← putOut16 (if family = 4 then 1 else 28) query
  let query ← putOut16 1 query
  .ok (host, query)

/-- A message in memory. -/
def packet (bytes : List UInt8) : Buffer := ⟨fun i => bytes.getD i 0, bytes.length⟩

/-! ### Names -/

/-- A label as it stands in a name: 1 to 63 printable characters, none of them a full stop. -/
structure IsLabel (l : List UInt8) : Prop where
  ne_nil : l ≠ []
  short : l.length ≤ 63
  chars : ∀ c ∈ l, ¬ (c < 33 ∨ 126 < c ∨ c = fullStop)

/-- The labels of a name as they are sent. -/
def wire (labels : List (List UInt8)) : List UInt8 :=
  labels.flatMap fun l => UInt8.ofNat l.length :: l

/-- The name as it stands at `i` ends before `e`: labels, and then the empty label or a pointer. -/
inductive NameEnds (p : Buffer) : Nat → Nat → Prop where
  | root {i : Nat} : i < p.size → p.data i = 0 → NameEnds p i (i + 1)
  | pointer {i : Nat} : i + 1 < p.size → p.data i &&& 0xc0 = 0xc0 → NameEnds p i (i + 2)
  | label {i e : Nat} : i + (p.data i).toNat < p.size → p.data i ≠ 0 → p.data i &&& 0xc0 = 0 →
      NameEnds p (i + 1 + (p.data i).toNat) e → NameEnds p i e

end Efishell
