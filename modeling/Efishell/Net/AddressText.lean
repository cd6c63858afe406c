import Efishell.Net.Sockets
import Efishell.Support.Checked

/-!
# Networking — addresses as text

`net_parse4`, `k_net_parse` and `k_net_format`.  A C string is the list of its bytes before the
terminating zero, so `*s` is the head and `!*s` is `s = []`.  A write past the end of `words` or of
the buffer `b` ends in `stray`.

`IPv4Text` and `IPv6Text` say which strings are addresses, and which address each of them is.
-/

namespace Efishell

/-- `'.'`. -/
def fullStop : UInt8 := 46

/-- `':'`. -/
def colon : UInt8 := 58

/-! ### Reading -/

/-- The loop of `net_parse4` that reads the digits of a field: the value, how many there were, and
what is left. -/
def parseField : Nat → Nat → List UInt8 → Except Errno (Nat × Nat × List UInt8)
  | x, n, [] => .ok (x, n, [])
  | x, n, c :: s =>
      if 48 ≤ c.toNat ∧ c.toNat ≤ 57 then
        let x := x * 10 + (c.toNat - 48)
        if 3 < n + 1 ∨ 255 < x then .error .einval else parseField x (n + 1) s
      else .ok (x, n, c :: s)

/-- The fields of `net_parse4` from the `i`-th on; `left` of them are to come. -/
def parse4Loop (i : Nat) : Nat → List UInt8 → Bytes → Except Errno Bytes
  | 0, _, out => .ok out
  | left + 1, s, out =>
      match parseField 0 0 s with
      | .error e => .error e
      | .ok (x, n, s) =>
          if n = 0 then .error .einval
          else
            let out := Function.update out i (UInt8.ofNat x)
            if i < 3 then
              match s with
              | [] => .error .einval
              | c :: s => if c ≠ fullStop then .error .einval else parse4Loop (i + 1) left s out
            else if s ≠ [] then .error .einval
            else parse4Loop (i + 1) left s out

/-- `net_parse4`: four decimal fields. -/
def netParse4 (s : List UInt8) (out : Bytes) : Except Errno Bytes := parse4Loop 0 4 s out

/-- The digit that `k_net_parse` takes a character for. -/
def hexDigit (c : UInt8) : Nat :=
  if 48 ≤ c.toNat ∧ c.toNat ≤ 57 then c.toNat - 48
  else if 97 ≤ c.toNat ∧ c.toNat ≤ 102 then c.toNat - 97 + 10
  else if 65 ≤ c.toNat ∧ c.toNat ≤ 70 then c.toNat - 65 + 10
  else 99

/-- The loop that reads the digits of a group. -/
def parseGroup : Nat → Nat → List UInt8 → Except Errno (Nat × Nat × List UInt8)
  | v, digits, [] => .ok (v, digits, [])
  | v, digits, c :: s =>
      if c = colon then .ok (v, digits, c :: s)
      else if 15 < hexDigit c ∨ 4 < digits + 1 then .error .einval
      else parseGroup (16 * v + hexDigit c) (digits + 1) s

/-- `words[i] = v`. -/
def putWord (words : Nat → Nat) (i v : Nat) : Checked Errno (Nat → Nat) :=
  if i < 8 then .ok (Function.update words i v) else .error .stray

/-- `words[i]`. -/
def getWord (words : Nat → Nat) (i : Nat) : Checked Errno Nat :=
  if i < 8 then .ok (words i) else .error .stray

/-- What is left to read after a group, and `gap`; `n` groups have been read. -/
def afterGroup (n : Nat) (gap : Option Nat) : List UInt8 → Checked Errno (List UInt8 × Option Nat)
  | [] => .ok ([], gap)
  | _ :: [] => .error (.code .einval)
  | _ :: c :: s =>
      if c = colon then
        if gap.isSome then .error (.code .einval) else .ok (s, some n)
      else .ok (c :: s, gap)

/-- The loop of `k_net_parse` over the groups.  `left` is `8 - n`, and `gap` is `none` for `-1`. -/
def groupLoop : Nat → (Nat → Nat) → Nat → Option Nat → List UInt8 →
    Checked Errno ((Nat → Nat) × Nat × Option Nat)
  | _, words, n, gap, [] => .ok (words, n, gap)
  | 0, _, _, _, _ :: _ => .error (.code .einval)
  | left + 1, words, n, gap, c :: s =>
      match parseGroup 0 0 (c :: s) with
      | .error e => .error (.code e)
      | .ok (v, digits, s) =>
          if digits = 0 then .error (.code .einval)
          else do
            let words ← putWord words n v
            let (s, gap) ← afterGroup (n + 1) gap s
            groupLoop left words (n + 1) gap s

/-- `for (i = n - 1; i >= gap; --i) words[i + shift] = words[i];` -/
def shiftWords (gap shift : Nat) : Nat → (Nat → Nat) → Checked Errno (Nat → Nat)
  | 0, words => .ok words
  | i + 1, words =>
      if i < gap then .ok words
      else do
        let v ← getWord words i
        let words ← putWord words (i + shift) v
        shiftWords gap shift i words

/-- `for (i = gap; i < gap + shift; ++i) words[i] = 0;` with `left` rounds to go. -/
def clearWords : Nat → Nat → (Nat → Nat) → Checked Errno (Nat → Nat)
  | 0, _, words => .ok words
  | left + 1, i, words => do
      let words ← putWord words i 0
      clearWords left (i + 1) words

/-- The address that the words are written to. -/
def putWords (words : Nat → Nat) : Bytes :=
  (List.range 8).foldl (fun b i => netPut16 b (2 * i) (words i)) fun _ => 0

/-- `*s == ':'` before the first group. -/
def startGap : List UInt8 → Checked Errno (List UInt8 × Option Nat)
  | [] => .ok ([], none)
  | c :: s =>
      if c = colon then
        match s with
        | [] => .error (.code .einval)
        | c :: s => if c ≠ colon then .error (.code .einval) else .ok (s, some 0)
      else .ok (c :: s, none)

/-- The missing groups are put in at `gap`. -/
def fillGap (words : Nat → Nat) (n : Nat) : Option Nat → Checked Errno (Nat → Nat)
  | none => if n ≠ 8 then .error (.code .einval) else .ok words
  | some gap =>
      if 8 ≤ n then .error (.code .einval)
      else do
        let words ← shiftWords gap (8 - n) n words
        clearWords (8 - n) gap words

/-- `k_net_parse`: the address a text names. -/
def kNetParse (s : List UInt8) (family : Nat) : Checked Errno NetAddress :=
  if family ≠ 4 ∧ family ≠ 6 then .error (.code .einval)
  else if family = 4 then
    match netParse4 s fun _ => 0 with
    | .error e => .error (.code e)
    | .ok bytes => .ok ⟨family, netNone, 0, 0, bytes⟩
  else do
    let (s, gap) ← startGap s
    let (words, n, gap) ← groupLoop 8 (fun _ => 0) 0 gap s
    let words ← fillGap words n gap
    .ok ⟨family, netNone, 0, 0, putWords words⟩

/-! ### Writing -/

/-- `b[n++] = c;` in the buffer of 48 bytes, the `n` bytes written so far being `b`. -/
def putChar (c : UInt8) (b : List UInt8) : Checked Errno (List UInt8) :=
  if b.length < 48 then .ok (b ++ [c]) else .error .stray

/-- `if (c) b[n++] = x;` -/
def putIf (c : Prop) [Decidable c] (x : UInt8) (b : List UInt8) : Checked Errno (List UInt8) :=
  if c then putChar x b else .ok b

/-- The character of a digit, `h[v]` for hexadecimal ones. -/
def digitChar (v : Nat) : UInt8 := UInt8.ofNat (if v < 10 then 48 + v else 87 + v)

/-- One field of an IPv4 address. -/
def formatField (v : Nat) (b : List UInt8) : Checked Errno (List UInt8) := do
  let b ← putIf (100 ≤ v) (digitChar (v / 100)) b
  let b ← putIf (10 ≤ v) (digitChar (v / 10 % 10)) b
  putChar (digitChar (v % 10)) b

/-- The loop over the digits of a group, the highest at `shift = 4 * k`; `shown` when one has been
written. -/
def formatDigits (v : Nat) : Nat → Bool → List UInt8 → Checked Errno (List UInt8)
  | 0, _, b => putChar (digitChar (v % 16)) b
  | k + 1, shown, b =>
      if v / 16 ^ (k + 1) ≠ 0 ∨ shown then do
        let b ← putChar (digitChar (v / 16 ^ (k + 1) % 16)) b
        formatDigits v k true b
      else formatDigits v k shown b

/-- The loops of `k_net_format` from the `i`-th part on, with `sep` between two parts. -/
def formatLoop (sep : UInt8) (part : Nat → List UInt8 → Checked Errno (List UInt8)) :
    Nat → Nat → List UInt8 → Checked Errno (List UInt8)
  | 0, _, b => .ok b
  | left + 1, i, b => do
      let b ← putIf (i ≠ 0) sep b
      let b ← part i b
      formatLoop sep part left (i + 1) b

/-- What `k_net_format` writes to its buffer `b`. -/
def formatText (a : NetAddress) : Checked Errno (List UInt8) :=
  if a.family = 4 then formatLoop fullStop (fun i => formatField (a.bytes i).toNat) 4 0 []
  else formatLoop colon (fun i => formatDigits (netBe16 a.bytes (2 * i)) 3 false) 8 0 []

/-- `k_net_format`: the text of an address, if it fits. -/
def kNetFormat (a : NetAddress) (capacity : Nat) : Checked Errno (List UInt8) :=
  if a.family ≠ 4 ∧ a.family ≠ 6 then .error (.code .einval)
  else do
    let b ← formatText a
    if capacity ≤ b.length then .error (.code .e2big) else .ok b

/-! ### The grammar -/

/-- The value of a string of digits. -/
def textValue (base : Nat) (g : List UInt8) : Nat := g.foldl (fun v c => base * v + hexDigit c) 0

/-- A number of one to three decimal digits, at most 255. -/
structure IsField (g : List UInt8) : Prop where
  ne_nil : g ≠ []
  short : g.length ≤ 3
  digits : ∀ c ∈ g, hexDigit c < 10
  small : textValue 10 g ≤ 255

/-- One to four hexadecimal digits. -/
structure IsGroup (g : List UInt8) : Prop where
  ne_nil : g ≠ []
  short : g.length ≤ 4
  digits : ∀ c ∈ g, hexDigit c < 16

/-- Four fields with a full stop between them. -/
inductive IPv4Text : List UInt8 → List Nat → Prop where
  | fields {gs : List (List UInt8)} : gs.length = 4 → (∀ g ∈ gs, IsField g) →
      IPv4Text ([fullStop].intercalate gs) (gs.map (textValue 10))

/-- Eight groups, or at most seven with one `::` for those that are missing. -/
inductive IPv6Text : List UInt8 → List Nat → Prop where
  | full {gs : List (List UInt8)} : gs.length = 8 → (∀ g ∈ gs, IsGroup g) →
      IPv6Text ([colon].intercalate gs) (gs.map (textValue 16))
  | gap {hs ts : List (List UInt8)} : hs.length + ts.length ≤ 7 → (∀ g ∈ hs, IsGroup g) →
      (∀ g ∈ ts, IsGroup g) →
      IPv6Text ([colon].intercalate hs ++ colon :: colon :: [colon].intercalate ts)
        (hs.map (textValue 16) ++ List.replicate (8 - (hs.length + ts.length)) 0 ++
          ts.map (textValue 16))

/-- The address with these fields. -/
def fieldBytes (xs : List Nat) : Bytes := fun i => UInt8.ofNat (xs.getD i 0)

/-- The address with these words. -/
def wordBytes (ws : List Nat) : Bytes := fun i =>
  UInt8.ofNat (if i % 2 = 0 then ws.getD (i / 2) 0 / 256 else ws.getD (i / 2) 0)

end Efishell
