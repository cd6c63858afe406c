import Efishell.Tools.RiefNodes

/-!
# Tools — code for expressions

`gen` of `tools/rief.c` and what it calls.  The code buffer is what a call appends to it.  A branch,
whose distance `fix` fills in once the target is known, is written with that distance; what the
linker and the loader fill in stands as an item of its own: the address of a place in a region, and
the distance to a function.  `spdepth`, the number of words on the stack, is a parameter: every call
restores it.
-/

namespace Efishell.Compiler

open X86

/-- A piece of the output: a byte; eight bytes that the loader replaces by an address, for the
record that `ref` makes; and the four bytes of a call. -/
inductive Item where
  | byte (v : Byte)
  | address (region at_ : Nat)
  | callee (index : Nat)

/-- The bytes an item takes. -/
def Item.size : Item → Nat
  | byte _ => 1
  | address _ _ => 8
  | callee _ => 4

/-- The number of bytes. -/
def size (l : List Item) : Nat := (l.map Item.size).sum

/-- `EMIT`. -/
def emit (l : List Byte) : List Item := l.map .byte

/-- `u32`. -/
def u32 (v : Nat) : List Item := emit (immBytes v 4)

/-- `mov rax, v`. -/
def imm (v : Word) : List Item := emit [0x48, 0xb8] ++ emit (immBytes v.toNat 8)

/-- `mov rax,` with an address the loader fills in. -/
def ref (region at_ : Nat) : List Item := emit [0x48, 0xb8] ++ [.address region at_]

/-- `push rax`. -/
def push : List Item := emit [0x50]

/-- `pop r10`. -/
def pop10 : List Item := emit [0x41, 0x5a]

/-- `add rsp, n`, unless `n` is zero. -/
def adjust (n : Nat) : List Item := if n = 0 then [] else emit [0x48, 0x81, 0xc4] ++ u32 n

/-- The branch `cc`, or the one that is always taken, over `n` bytes. -/
def jump (cc : Option Byte) (n : Nat) : List Item :=
  (match cc with
    | some cc => emit [0x0f, cc]
    | none => emit [0xe9]) ++ u32 n

/-- `cast`: the low bytes of `rax` extended as the type says. -/
def castTo (S : Structs) (t : Ty) : List Item :=
  if t.base.isSome ∨ t.size S = 8 ∨ t.aggregate S = true then []
  else if t.size S = 1 then emit [0x0f, 0xb6, 0xc0]
  else if t.size S = 2 then emit [0x0f, 0xb7, 0xc0]
  else if t.size S = 4 then emit [0x89, 0xc0]
  else []

/-- `load`: the value at the address in `rax`. -/
def load (S : Structs) (t : Ty) : List Item :=
  if t.aggregate S = true then []
  else if t.size S = 1 then emit [0x0f, 0xb6, 0x00]
  else if t.size S = 2 then emit [0x0f, 0xb7, 0x00]
  else if t.size S = 4 then emit [0x8b, 0x00]
  else emit [0x48, 0x8b, 0x00]

/-- `store`: `rax`, cast to the type, to the address in `r10`. -/
def store (S : Structs) (t : Ty) : List Item :=
  castTo S t ++
    (if t.size S = 1 then emit [0x41, 0x88, 0x02]
    else if t.size S = 2 then emit [0x66, 0x41, 0x89, 0x02]
    else if t.size S = 4 then emit [0x41, 0x89, 0x02]
    else emit [0x49, 0x89, 0x02])

/-- `addr` of a `VAR`. -/
def addrVar (s : Sym) : List Item :=
  if s.tls then emit [0x64, 0x48, 0x8b, 0x04, 0x25, 0, 0, 0, 0] ++ emit [0x48, 0x05] ++ u32 s.offset
  else if s.global then ref 1 s.offset
  else emit [0x48, 0x8d, 0x85] ++ u32 (2 ^ 32 - s.offset)

/-- The comparisons of `arithmetic`. -/
def compareCode (op : BinOp) (uns : Bool) : Byte :=
  match op with
  | .lt => if uns then 0x92 else 0x9c
  | .le => if uns then 0x96 else 0x9e
  | .gt => if uns then 0x97 else 0x9f
  | .ge => if uns then 0x93 else 0x9d
  | .eq => 0x94
  | _ => 0x95

/-- The operator on `r10` and `rax`, pointers scaled by what they point at. -/
def arithmetic (S : Structs) (op : BinOp) (left right : Ty) : List Item :=
  let left := left.decay
  let right := right.decay
  let uns := (left.uns && left.size S == 8) || (right.uns && right.size S == 8)
  let scale := match left.base, right.base with
    | some b, none => if op = .add ∨
        op = .sub then emit [0x48, 0x69, 0xc0] ++ u32 (b.size S) else []
    | _, _ => []
  scale ++ match op with
    | .add => emit [0x4c, 0x01, 0xd0]
    | .sub => emit [0x49, 0x29, 0xc2, 0x4c, 0x89, 0xd0] ++
        (match left.base, right.base with
          | some b, some _ => emit [0x48, 0x99, 0x49, 0xc7, 0xc3] ++ u32 (b.size S) ++
              emit [0x49, 0xf7, 0xfb]
          | _, _ => [])
    | .mul => emit [0x49, 0x0f, 0xaf, 0xc2]
    | .div | .mod => emit [0x49, 0x89, 0xc3, 0x4c, 0x89, 0xd0] ++
        (if uns then emit [0x31, 0xd2, 0x49, 0xf7, 0xf3]
          else emit [0x48, 0x99, 0x49, 0xf7, 0xfb]) ++
        (if op = .mod then emit [0x48, 0x89, 0xd0] else [])
    | .shl | .shr => emit [0x48, 0x89, 0xc1, 0x4c, 0x89, 0xd0] ++
        emit [0x48, 0xd3, if op = .shl then 0xe0 else if uns then 0xe8 else 0xf8]
    | .band => emit [0x4c, 0x21, 0xd0]
    | .bor => emit [0x4c, 0x09, 0xd0]
    | .bxor => emit [0x4c, 0x31, 0xd0]
    | op => emit [0x49, 0x39, 0xc2, 0x0f, compareCode op uns, 0xc0, 0x0f, 0xb6, 0xc0]

/-- The registers of arguments, `rdi` to `r9` by their numbers. -/
def argReg (i : Nat) : Nat := [7, 6, 2, 1, 0, 1].getD i 0

/-- Argument `i` of a call with `count` words on the stack is read from the stack. -/
def loadArg (sys : Bool) (count skip i : Nat) : List Item :=
  let r := if sys && i == 3 then 2 else argReg i
  let rex := if (sys && i == 3) || 4 ≤ i then 0x4c else 0x48
  emit [rex, 0x8b, BitVec.ofNat 8 (0x84 ||| r <<< 3), 0x24] ++ u32 ((count - 1 - (i + skip)) * 8)

/-- `gen_call`, after the arguments were pushed. -/
def callCode (spdepth : Nat) (func : Callee) (count : Nat) : List Item :=
  match func with
  | .syscall =>
      (List.range (count - 1)).flatMap (loadArg true count 1) ++
        emit [0x48, 0x8b, 0x84, 0x24] ++ u32 ((count - 1) * 8) ++ adjust (count * 8) ++
          emit [0x0f, 0x05]
  | .builtin nr =>
      (List.range count).flatMap (loadArg true count 0) ++ imm (BitVec.ofNat 64 nr) ++
        adjust (count * 8) ++
        emit [0x0f, 0x05]
  | .function index =>
      let pad := spdepth % 2 = 1
      (List.range count).flatMap (loadArg false count 0) ++ adjust (count * 8) ++
        (if pad then emit [0x48, 0x83, 0xec, 8] else []) ++ emit [0xe8] ++ [.callee index] ++
        (if pad then adjust 8 else [])

/-- `PRE` and `POST`, of the code for the address; `after` comes last. -/
def stepCode (S : Structs) (t : Ty) (down : Bool) (address after : List Item) :
    Except String (List Item) :=
  let n := match t.base with
    | some b => b.size S
    | none => 1
  if n < 1 then .error "incomplete increment"
  else
    .ok (address ++ push ++ load S t ++ emit [0x49, 0x89, 0xc3] ++ emit [0x48, 0x05] ++
      u32 (if down then 2 ^ 32 - n else n) ++ pop10 ++ store S t ++ after)

mutual

/-- The code that leaves the value in `rax`. -/
def gen (S : Structs) (spdepth : Nat) : Node → Except String (List Item)
  | .num v => .ok (imm v)
  | .str start _ => .ok (ref 2 start)
  | .var s => .ok (addrVar s ++ load S s.type)
  | .deref a t => do return (← gen S spdepth a) ++ load S t
  | .member a offset t => do
      return (← addr S spdepth a) ++ emit [0x48, 0x05] ++ u32 offset ++ load S t
  | .addr a => addr S spdepth a
  | .cast t a => do return (← gen S spdepth a) ++ castTo S t
  | .neg a => do return (← gen S spdepth a) ++ emit [0x48, 0xf7, 0xd8]
  | .bitnot a => do return (← gen S spdepth a) ++ emit [0x48, 0xf7, 0xd0]
  | .not a => do
      return (← gen S spdepth a) ++ emit [0x48, 0x85, 0xc0, 0x0f, 0x94, 0xc0, 0x0f, 0xb6, 0xc0]
  | .call func args result => do
      return (← genArgs S spdepth args) ++ callCode spdepth func args.length ++ castTo S result
  | .binary op a b _ => do
      let x ← gen S spdepth a
      if op = .land ∨ op = .lor then
        let y ← gen S spdepth b
        return x ++ emit [0x48, 0x85, 0xc0] ++ jump (some (if op = .land then 0x84 else 0x85))
          (size y) ++ y ++
          emit [0x48, 0x85, 0xc0, 0x0f, 0x95, 0xc0, 0x0f, 0xb6, 0xc0]
      else
        let y ← gen S (spdepth + 1) b
        return x ++ push ++ y ++ pop10 ++ arithmetic S op a.type b.type
  | .assign none a b => do
      let x ← addr S spdepth a
      let y ← gen S (spdepth + 1) b
      return x ++ push ++ y ++ pop10 ++ store S a.type
  | .assign (some op) a b => do
      let x ← addr S spdepth a
      let y ← gen S (spdepth + 2) b
      return x ++ push ++ load S a.type ++ push ++ y ++ pop10 ++
        arithmetic S op a.type b.type ++ pop10 ++
        store S a.type
  | .pre down a => do
      let x ← addr S spdepth a
      stepCode S a.type down x []
  | .post down a => do
      let x ← addr S spdepth a
      stepCode S a.type down x (emit [0x4c, 0x89, 0xd8])
  | .cond a b c => do
      let x ← gen S spdepth a
      let y ← gen S spdepth b
      let z ← gen S spdepth c
      return x ++ emit [0x48, 0x85, 0xc0] ++ jump (some 0x84) (size y + 5) ++ y ++
        jump none (size z) ++ z

/-- The code that leaves the address in `rax`. -/
def addr (S : Structs) (spdepth : Nat) : Node → Except String (List Item)
  | .var s => .ok (addrVar s)
  | .deref a _ => gen S spdepth a
  | .member a offset _ => do return (← addr S spdepth a) ++ emit [0x48, 0x05] ++ u32 offset
  | _ => .error "not addressable"

/-- The arguments are pushed in their order. -/
def genArgs (S : Structs) (spdepth : Nat) : Args → Except String (List Item)
  | .nil => .ok []
  | .cons a rest => do
      let x ← gen S spdepth a
      let y ← genArgs S (spdepth + 1) rest
      return x ++ push ++ y

end

/-! ### Loading -/

/-- Where the loader puts the regions, and where the code of each function begins. -/
structure Layout where
  region : Nat → Word
  entry : Nat → Nat

/-- The bytes of an item at a place in the code. -/
def Item.bytes (L : Layout) (p : Nat) : Item → List Byte
  | byte v => [v]
  | address r at_ => immBytes (L.region r + BitVec.ofNat 64 at_).toNat 8
  | callee i => immBytes (BitVec.ofInt 32 ((L.entry i : Int) - p - 4)).toNat 4

/-- The code as it is loaded. -/
def link (L : Layout) : Nat → List Item → List Byte
  | _, [] => []
  | p, x :: l => x.bytes L p ++ link L (p + x.size) l

/-- An item has as many bytes as its size says. -/
theorem Item.length_bytes (L : Layout) (p : Nat) (x : Item) : (x.bytes L p).length = x.size := by
  cases x with
  | byte v => rfl
  | address r at_ => exact length_immBytes 8 _
  | callee i => exact length_immBytes 4 _

@[simp] theorem size_append (l l' : List Item) : size (l ++ l') = size l + size l' := by
  rw [size, size, size, List.map_append, List.sum_append]

theorem length_link (L : Layout) (l : List Item) : ∀ p, (link L p l).length = size l := by
  induction l with
  | nil => exact fun _ => rfl
  | cons x l ih =>
      intro p
      rw [link, List.length_append, Item.length_bytes, ih, size, size, List.map_cons, List.sum_cons]

/-- One part is linked after the other. -/
theorem link_append (L : Layout) (l l' : List Item) : ∀ p,
    link L p (l ++ l') = link L p l ++ link L (p + size l) l' := by
  induction l with
  | nil => exact fun _ => rfl
  | cons x l ih =>
      intro p
      rw [List.cons_append, link, link, ih, List.append_assoc, Nat.add_assoc]
      rfl

/-- Bytes are linked as they are. -/
theorem link_emit (L : Layout) (l : List Byte) : ∀ p, link L p (emit l) = l := by
  induction l with
  | nil => exact fun _ => rfl
  | cons x l ih => exact fun p => congrArg (x :: ·) (ih (p + 1))

end Efishell.Compiler
