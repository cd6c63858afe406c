import Mathlib.Logic.Function.Basic
import Efishell.Kernel.Bytes
import Efishell.Support.Checked

/-!
# Shell — HID descriptors and reports

`os_hid_parse` runs the items of a report descriptor, which a device sends, and leaves a layout:
where in a report its keys, buttons and axes are.  `os_hid_report` reads a report by the layout.

The report is read into copies of the keys and the buttons; every `return` in the middle of it
leaves the device alone.  The errors of the model say which of them was taken.
-/

namespace Efishell.Hid

/-- `K_INPUT_REPORT_MAX`. -/
def inputReportMax : Nat := 1024

/-- `OS_HID_FIELDS`. -/
def osHidFields : Nat := 160

/-- `HID_NONE`, `HID_KEY` and so on. -/
inductive Kind where
  | none | key | keys | button | x | y | wheel | pan
  deriving DecidableEq

/-- `os_hid_field`. -/
structure Field where
  offset : Nat
  width : Nat
  count : Nat
  usage : Nat
  usageEnd : Nat
  minimum : Int
  maximum : Int
  report : Nat
  kind : Kind
  relative : Bool
  deriving DecidableEq

/-- `os_hid_layout`; the fields in their order. -/
structure Layout where
  fields : List Field
  reportBits : Nat → Nat
  ids : Bool
  mouse : Bool
  keyboard : Bool

/-! ### The descriptor -/

/-- The global state of the items. -/
structure Globals where
  page : Nat
  width : Nat
  count : Nat
  id : Nat
  minimum : Int
  maximum : Int

/-- Where `os_hid_parse` stands.  The stacks have their tops first. -/
structure Parse where
  pos : Nat
  g : Globals
  saved : List Globals
  collection : List Nat
  app : Nat
  usages : List Nat
  usageMin : Nat
  usageMax : Nat
  haveMin : Bool
  haveMax : Bool
  out : Layout

/-- `hid_signed`: the value of `bits` bits, the highest as its sign. -/
def hidSigned (value bits : Nat) : Int :=
  if bits = 0 then 0
  else if value.testBit (bits - 1) then (value : Int) - 2 ^ bits else value

/-- `hid_usage`: a usage with its page. -/
def hidUsage (value bytes page : Nat) : Nat :=
  if bytes = 4 then value else page % 65536 * 65536 + value % 65536

/-- `n` bytes, the low one first. -/
def itemValue (bytes : Bytes) (pos : Nat) : Nat → Nat
  | 0 => 0
  | n + 1 => (bytes pos).toNat + 256 * itemValue bytes (pos + 1) n

/-- The global items of the parser. -/
def globalItem (tag value n : Nat) (s : Parse) : Except Errno Parse :=
  match tag with
  | 0 => .ok { s with g := { s.g with page := value } }
  | 1 => .ok { s with g := { s.g with minimum := hidSigned value (n * 8) } }
  | 2 =>
      let maximum := if s.g.minimum < 0 then hidSigned value (n * 8) else value
      .ok { s with g := { s.g with maximum := maximum } }
  | 7 => .ok { s with g := { s.g with width := value } }
  | 8 =>
      if value = 0 ∨ 255 < value then .error .einval
      else .ok { s with g := { s.g with id := value }, out := { s.out with ids := true } }
  | 9 => .ok { s with g := { s.g with count := value } }
  | 10 => if s.saved.length = 8 then .error .e2big else .ok { s with saved := s.g :: s.saved }
  | 11 =>
      match s.saved with
      | [] => .error .einval
      | g :: saved => .ok { s with g := g, saved := saved }
  | _ => .ok s

/-- The local items of the parser. -/
def localItem (tag value n : Nat) (s : Parse) : Except Errno Parse :=
  match tag with
  | 0 =>
      if s.usages.length = 128 then .error .e2big
      else .ok { s with usages := s.usages ++ [hidUsage value n s.g.page] }
  | 1 => .ok { s with usageMin := hidUsage value n s.g.page, haveMin := true }
  | 2 => .ok { s with usageMax := hidUsage value n s.g.page, haveMax := true }
  | 10 => .error .enotsup
  | _ => .ok s

/-- The usage of element `i` of an input item. -/
def Parse.usage (s : Parse) (i : Nat) : Nat :=
  if i < s.usages.length then s.usages.getD i 0
  else if s.haveMin then
    s.usageMin + (if i < s.usageMax - s.usageMin then i else s.usageMax - s.usageMin)
  else if s.usages.length ≠ 0 then s.usages.getD (s.usages.length - 1) 0
  else 0

/-- What the usage is good for in a mouse, `app == 1`, or a keyboard, `app == 2`. -/
def elementKind (app value usage : Nat) : Kind :=
  let page := usage / 65536
  let id := usage % 65536
  if app = 2 ∧ page = 7 then if value.testBit 1 then .key else .keys
  else if app = 1 ∧ value.testBit 1 then
    if page = 9 ∧ 1 ≤ id ∧ id ≤ 32 then .button
    else if page = 1 then
      if id = 0x30 then .x else if id = 0x31 then .y else if id = 0x38 then .wheel else .none
    else if page = 12 ∧ id = 0x238 then .pan
    else .none
  else .none

/-- The field of element `i`. -/
def Parse.field (s : Parse) (value offset i : Nat) (kind : Kind) : Field where
  offset := offset + i * s.g.width
  width := s.g.width
  count := if kind = .keys then s.g.count else 1
  usage := if kind = .keys then s.usageMin % 65536 else s.usage i % 65536
  usageEnd := if s.haveMax then s.usageMax % 65536 else s.usage i % 65536
  minimum := s.g.minimum
  maximum := s.g.maximum
  report := s.g.id % 256
  kind := kind
  relative := value.testBit 2

/-- The layout with one more field. -/
def Layout.add (out : Layout) (f : Field) : Layout :=
  { out with
    fields := out.fields ++ [f]
    keyboard := out.keyboard || f.kind == .key || f.kind == .keys
    mouse := out.mouse || !(f.kind == .key || f.kind == .keys) }

/-- The loop over the elements of an input item, from element `i` on. -/
def inputLoop (s : Parse) (value offset : Nat) : Nat → Nat → Layout → Except Errno Layout
  | 0, _, out => .ok out
  | left + 1, i, out =>
      let kind := elementKind s.app value (s.usage i)
      if kind = .none then inputLoop s value offset left (i + 1) out
      else if out.fields.length = osHidFields then .error .e2big
      else if kind = .keys then
        if !s.haveMin || s.usages.length != 0 then .error .enotsup
        else .ok (out.add (s.field value offset i kind))
      else inputLoop s value offset left (i + 1) (out.add (s.field value offset i kind))

/-- An input item. -/
def inputItem (value : Nat) (s : Parse) : Except Errno Layout :=
  let bits := s.g.width * s.g.count
  let offset := s.out.reportBits s.g.id
  if inputReportMax * 8 < bits ∨ inputReportMax * 8 - bits < offset then .error .e2big
  else if s.haveMin ≠ s.haveMax ∨
      (s.haveMin ∧ (s.usageMax < s.usageMin ∨ s.usageMax / 65536 ≠ s.usageMin / 65536)) then
    .error .einval
  else
    let out := { s.out with reportBits := Function.update s.out.reportBits s.g.id (offset + bits) }
    if value % 2 = 0 ∧ s.app ≠ 0 then
      if s.g.width = 0 ∨ 32 < s.g.width ∨ s.g.count = 0 ∨ 1024 < s.g.count then .error .enotsup
      else if s.g.maximum < s.g.minimum then .error .einval
      else inputLoop s value offset s.g.count 0 out
    else .ok out

/-- `usage_count ? usages[0] : have_min ? usage_min : 0`. -/
def Parse.collectionUsage (s : Parse) : Nat :=
  if s.usages.length ≠ 0 then s.usages.getD 0 0 else if s.haveMin then s.usageMin else 0

/-- The main items of the parser, after which the local state is empty. -/
def mainItem (tag value : Nat) (s : Parse) : Except Errno Parse :=
  let reset (s : Parse) : Parse := { s with usages := [], haveMin := false, haveMax := false }
  match tag with
  | 10 =>
      if s.collection.length = 16 then .error .e2big
      else
        let app :=
          if value = 1 then
            if s.collectionUsage = 0x10002 then 1 else if s.collectionUsage = 0x10006 then 2 else 0
          else s.app
        .ok (reset { s with collection := s.app :: s.collection, app := app })
  | 12 =>
      match s.collection with
      | [] => .error .einval
      | app :: collection => .ok (reset { s with collection := collection, app := app })
  | 8 => (inputItem value s).map fun out => reset { s with out := out }
  | _ => .ok (reset s)

/-- One item. -/
def parseItem (bytes : Bytes) (size : Nat) (s : Parse) : Except Errno Parse :=
  let code := (bytes s.pos).toNat
  let pos := s.pos + 1
  if code = 0xfe then
    if size - pos < 2 ∨ size - pos - 2 < (bytes pos).toNat then .error .einval
    else .ok { s with pos := pos + 2 + (bytes pos).toNat }
  else
    let n := if code % 4 = 3 then 4 else code % 4
    let tag := code / 16
    if size - pos < n then .error .einval
    else
      let value := itemValue bytes pos n
      let s := { s with pos := pos + n }
      match code / 4 % 4 with
      | 0 => mainItem tag value s
      | 1 => globalItem tag value n s
      | 2 => localItem tag value n s
      | _ => .ok s

/-- The loop over the items.  Each of them has a byte at least, so `size` rounds are enough. -/
def parseLoop (bytes : Bytes) (size : Nat) : Nat → Parse → Except Errno Parse
  | 0, s => .ok s
  | rounds + 1, s =>
      if s.pos < size then
        match parseItem bytes size s with
        | .error e => .error e
        | .ok s => parseLoop bytes size rounds s
      else .ok s

/-- The state the parser starts in. -/
def parseStart : Parse where
  pos := 0
  g := ⟨0, 0, 0, 0, 0, 0⟩
  saved := []
  collection := []
  app := 0
  usages := []
  usageMin := 0
  usageMax := 0
  haveMin := false
  haveMax := false
  out := ⟨[], fun _ => 0, false, false, false⟩

/-- `os_hid_parse`: the layout of a report descriptor. -/
def osHidParse (bytes : Bytes) (size : Nat) : Except Errno Layout :=
  match parseLoop bytes size size parseStart with
  | .error e => .error e
  | .ok s =>
      if s.saved.length ≠ 0 ∨ s.collection.length ≠ 0 ∨ (s.out.ids ∧ s.out.reportBits 0 ≠ 0) then
        .error .einval
      else if s.out.fields.length = 0 then .error .enotsup
      else .ok s.out

/-! ### The report -/

/-- The part of `os_input_device` that a report reads and writes. -/
structure Device where
  layout : Layout
  keys : Bytes
  buttons : Nat
  bootKeys : Bool
  bootPointer : Bool

/-- Why a report is dropped. -/
inductive HidStop where
  /-- It is too short, or has no such id. -/
  | short
  /-- An element of a key array is one of the usages from 1 to 3. -/
  | rollover
  /-- `hid_extract` failed. -/
  | extract
  deriving DecidableEq

/-- A call of `os_mouse_emit`. -/
structure MouseCall where
  dx : Int
  dy : Int
  wx : Int
  wy : Int
  absoluteX : Bool
  absoluteY : Bool

/-- `(p[bit / 8] >> (bit % 8)) & 1`. -/
def bitAt (p : Bytes) (bit : Nat) : Bool := (p (bit / 8)).toNat.testBit (bit % 8)

/-- `width` bits from `bit` on, the low one first. -/
def bitsAt (p : Bytes) (bit : Nat) : Nat → Nat
  | 0 => 0
  | width + 1 => (bitAt p bit).toNat + 2 * bitsAt p (bit + 1) width

/-- `hid_extract`: the field of a report, if it lies inside. -/
def hidExtract (p : Bytes) (n bit width : Nat) : Option Nat :=
  if width = 0 ∨ 32 < width ∨ n * 8 % 2 ^ 32 < bit ∨ n * 8 % 2 ^ 32 - bit < width then none
  else some (bitsAt p bit width)

/-- `os_key_is_down`. -/
def osKeyIsDown (keys : Bytes) (usage : Nat) : Bool := decide (usage < 256) && bitAt keys usage

/-- `os_key_bit`: one key's bit set or cleared. -/
def osKeyBit (keys : Bytes) (usage : Nat) (down : Bool) : Bytes :=
  if 256 ≤ usage then keys
  else
    let mask : UInt8 := UInt8.ofNat (2 ^ (usage % 8))
    Function.update keys (usage / 8)
      (if down then keys (usage / 8) ||| mask else keys (usage / 8) &&& ~~~mask)

/-- `buttons |= 1U << (usage - 1)`, or `buttons &= ~(1U << (usage - 1))`. -/
def buttonBit (buttons usage : Nat) (down : Bool) : Nat :=
  if down then buttons ||| 2 ^ (usage - 1) else buttons &&& (2 ^ 32 - 1 - 2 ^ (usage - 1))

/-- What is staged while the fields are read. -/
structure Staged where
  keys : Bytes
  buttons : Nat
  x : Int
  y : Int
  wx : Int
  wy : Int
  pointer : Bool
  keyboard : Bool
  ax : Bool
  ay : Bool

/-- The value of a field, signed where its minimum is negative. -/
def Field.value (f : Field) (raw : Nat) : Int :=
  if f.minimum < 0 then hidSigned raw f.width else raw

/-- The loop that clears `n` keys from `usage` on. -/
def clearKeys (keys : Bytes) (usage : Nat) : Nat → Bytes
  | 0 => keys
  | n + 1 => clearKeys (osKeyBit keys usage false) (usage + 1) n

/-- The loop over the elements of a key array, from element `i` on. -/
def keysLoop (f : Field) (p : Bytes) (size : Nat) : Nat → Nat → Bytes → Checked HidStop Bytes
  | 0, _, keys => .ok keys
  | left + 1, i, keys =>
      match hidExtract p size (f.offset + i * f.width) f.width with
      | none => .error (.code .extract)
      | some raw =>
          let v := f.value raw
          if v < f.minimum ∨ f.maximum < v then keysLoop f p size left (i + 1) keys
          else do
            let distance ← subS 64 v f.minimum
            let usage ← addS 64 distance f.usage
            if 0 < usage ∧ usage ≤ 3 then .error (.code .rollover)
            else if 0 < usage ∧ usage ≤ f.usageEnd then
              keysLoop f p size left (i + 1) (osKeyBit keys usage.toNat true)
            else keysLoop f p size left (i + 1) keys

/-- `(value - f->minimum) * (limit - 1) / span`. -/
def scaled (f : Field) (limit : Nat) (value : Int) : Checked HidStop Int := do
  let distance ← subS 64 value f.minimum
  let span ← subS 64 f.maximum f.minimum
  let product ← mulS 64 distance ((limit + 2 ^ 32 - 1) % 2 ^ 32 : Nat)
  .ok (product.tdiv span)

/-- What a pointer field does with its value. -/
def pointerField (f : Field) (value : Int) (s : Staged) : Checked HidStop Staged :=
  match f.kind with
  | .x => .ok { s with x := value, ax := !f.relative, pointer := true }
  | .y => .ok { s with y := value, ay := !f.relative, pointer := true }
  | .wheel => do
      let wy ← addS 64 s.wy value
      .ok { s with wy := wy, pointer := true }
  | .pan => do
      let wx ← addS 64 s.wx value
      .ok { s with wx := wx, pointer := true }
  | _ => .ok { s with pointer := true }

/-- A field of the report, of a framebuffer of `w` times `h` pixels. -/
def reportField (w h : Nat) (p : Bytes) (size : Nat) (s : Staged) (f : Field) :
    Checked HidStop Staged :=
  match hidExtract p size f.offset f.width with
  | none => .error (.code .extract)
  | some raw =>
      let value := f.value raw
      match f.kind with
      | .keys => do
          let keys := clearKeys s.keys f.usage (min (f.usageEnd + 1) 256 - f.usage)
          let keys ← keysLoop f p size f.count 0 keys
          .ok { s with keys := keys, keyboard := true }
      | .key => .ok { s with keys := osKeyBit s.keys f.usage (value != 0), keyboard := true }
      | .button =>
          .ok { s with buttons := buttonBit s.buttons f.usage (value != 0), pointer := true }
      | kind =>
          if value < f.minimum ∨ f.maximum < value then .ok s
          else if (kind = .x ∨ kind = .y) ∧ !f.relative then
            if f.maximum - f.minimum ≤ 0 then .ok s
            else do
              let value ← scaled f (if kind = .x then w else h) value
              pointerField f value s
          else pointerField f value s

/-- The loop over the fields. -/
def reportLoop (w h : Nat) (p : Bytes) (size id : Nat) : List Field → Staged →
    Checked HidStop Staged
  | [], s => .ok s
  | f :: fs, s =>
      if f.report ≠ id then reportLoop w h p size id fs s
      else do
        let s ← reportField w h p size s f
        reportLoop w h p size id fs s

/-- The id of the report, and its bytes without the id. -/
def selectReport (layout : Layout) (bytes : Bytes) (size : Nat) :
    Checked HidStop (Nat × Bytes × Nat) :=
  if layout.ids ∧ size = 0 then .error (.code .short)
  else
    let id := if layout.ids then (bytes 0).toNat else 0
    let p : Bytes := if layout.ids then fun i => bytes (1 + i) else bytes
    let n := if layout.ids then size - 1 else size
    if layout.reportBits id = 0 ∨ n * 8 % 2 ^ 32 < layout.reportBits id then .error (.code .short)
    else .ok (id, p, n)

/-- The staged values become those of the device. -/
def Device.commit (d : Device) (s : Staged) : Device × Option MouseCall :=
  ({ d with
      keys := if s.keyboard then s.keys else d.keys
      buttons := if s.pointer then s.buttons else d.buttons },
    if s.pointer then some ⟨s.x, s.y, s.wx, s.wy, s.ax, s.ay⟩ else none)

/-- A report of a device with a layout. -/
def layoutReport (w h : Nat) (d : Device) (bytes : Bytes) (size : Nat) :
    Checked HidStop (Device × Option MouseCall) := do
  let (id, p, n) ← selectReport d.layout bytes size
  let s ← reportLoop w h p n id d.layout.fields
    ⟨d.keys, d.buttons, 0, 0, 0, 0, false, false, false, false⟩
  .ok (d.commit s)

/-- The modifiers of a boot keyboard, `n` of them from `i` on. -/
def bootModifiers (b : UInt8) (i : Nat) (keys : Bytes) : Nat → Bytes
  | 0 => keys
  | n + 1 => bootModifiers b (i + 1) (osKeyBit keys (0xe0 + i) (b.toNat.testBit i)) n

/-- The keys of a boot keyboard, `n` of them from byte `i` on. -/
def bootArray (bytes : Bytes) (i : Nat) (keys : Bytes) : Nat → Checked HidStop Bytes
  | 0 => .ok keys
  | n + 1 =>
      if bytes i ≠ 0 ∧ bytes i ≤ 3 then .error (.code .rollover)
      else if bytes i ≠ 0 then bootArray bytes (i + 1) (osKeyBit keys (bytes i).toNat true) n
      else bootArray bytes (i + 1) keys n

/-- `(INT8)b`. -/
def signedByte (b : UInt8) : Int := hidSigned b.toNat 8

/-- `os_hid_report`: the keys, buttons and motion of one report. -/
def osHidReport (w h : Nat) (d : Device) (bytes : Bytes) (size : Nat) :
    Checked HidStop (Device × Option MouseCall) :=
  if d.bootKeys then
    if size < 8 then .error (.code .short)
    else do
      let keys ← bootArray bytes 2 (bootModifiers (bytes 0) 0 (fun _ => 0) 8) 6
      .ok ({ d with keys := keys }, none)
  else if d.bootPointer then
    if size < 3 then .error (.code .short)
    else
      .ok ({ d with buttons := (bytes 0).toNat % 8 },
        some ⟨signedByte (bytes 1), signedByte (bytes 2), 0, 0, false, false⟩)
  else layoutReport w h d bytes size

/-- The device after the report. -/
def afterReport (w h : Nat) (d : Device) (bytes : Bytes) (size : Nat) : Device :=
  match osHidReport w h d bytes size with
  | .ok (d, _) => d
  | .error _ => d

end Efishell.Hid
