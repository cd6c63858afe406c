import Efishell.Tools.X86

/-!
# Tools — the trees of the RIEF compiler

The types, symbols and expression trees of `tools/rief.c`, and the initialisers of globals.

A `Type *` is a type: the basic ones, pointers, arrays, and structures by a number that stands for
their name.  What a structure holds comes later than pointers to it and is looked up in a table.
The type of a node is a function of the tree (`Node.type`) where the parser computes it from the
parts alone.
-/

namespace Efishell.Compiler

open X86

/-- `Type`. -/
inductive Ty where
  | void | u8 | u16 | u32 | i64 | u64
  | ptr (base : Ty)
  | array (base : Ty) (count : Nat)
  | struct (tag : Nat)
  deriving DecidableEq, Repr

/-- `Field`. -/
structure Field where
  name : String
  type : Ty
  offset : Nat

/-- What the compiler knows of a structure; one without fields has no size. -/
structure Struct where
  fields : List Field
  size : Nat
  empty : fields = [] → size = 0

/-- The structures of a program. -/
abbrev Structs := Nat → Struct

namespace Ty

/-- `t->base`. -/
def base : Ty → Option Ty
  | ptr b | array b _ => some b
  | _ => none

/-- `t->count`. -/
def count : Ty → Nat
  | array _ n => n
  | _ => 0

/-- `t->uns`. -/
def uns : Ty → Bool
  | u8 | u16 | u32 | u64 | ptr _ | array _ _ => true
  | void | i64 | struct _ => false

/-- `t->size`. -/
def size (S : Structs) : Ty → Nat
  | void => 0
  | u8 => 1
  | u16 => 2
  | u32 => 4
  | i64 | u64 | ptr _ => 8
  | array b n => n * b.size S
  | struct tag => (S tag).size

/-- `t->fields`. -/
def fields (S : Structs) : Ty → List Field
  | struct tag => (S tag).fields
  | _ => []

/-- `t->fields || t->count`: the type has no scalar values. -/
def aggregate (S : Structs) (t : Ty) : Bool := !(t.fields S).isEmpty || t.count != 0

/-- `decay`: an array is used as a pointer. -/
def decay : Ty → Ty
  | array b _ => ptr b
  | t => t

/-- The sizes of scalars. -/
theorem size_cases {S : Structs} {t : Ty} (h : t.aggregate S = false) :
    t.size S = 0 ∨ t.size S = 1 ∨ t.size S = 2 ∨ t.size S = 4 ∨ t.size S = 8 := by
  cases t with
  | array b n =>
      obtain rfl : n = 0 := by simpa [aggregate, fields, count] using h
      exact .inl (Nat.zero_mul _)
  | struct tag => exact .inl ((S tag).empty (by simpa [aggregate, fields, count] using h))
  | _ => simp [size]

end Ty

/-- `Sym`; the scope in which it is known is the parser's. -/
structure Sym where
  type : Ty
  offset : Nat
  global : Bool
  tls : Bool

/-- The operators of `BINARY`. -/
inductive BinOp where
  | add | sub | mul | div | mod | shl | shr | lt | le | gt | ge | eq | ne | band | bxor
      | bor | land | lor
  deriving DecidableEq, Repr

/-- `n->func`: the function `syscall`, a function of the system by its number, a function of the
program. -/
inductive Callee where
  | syscall
  | builtin (nr : Nat)
  | function (index : Nat)
  deriving DecidableEq, Repr

mutual

/-- An expression. -/
inductive Node where
  | num (value : Word)
  | str (start length : Nat)
  | var (sym : Sym)
  | call (func : Callee) (args : Args) (result : Ty)
  | addr (a : Node)
  | deref (a : Node) (type : Ty)
  | cast (type : Ty) (a : Node)
  | neg (a : Node)
  | not (a : Node)
  | bitnot (a : Node)
  | binary (op : BinOp) (a b : Node) (type : Ty)
  /-- `a = b`, or `a op= b`. -/
  | assign (op : Option BinOp) (a b : Node)
  | cond (a b c : Node)
  /-- `a++`, or `a--`. -/
  | post (down : Bool) (a : Node)
  | pre (down : Bool) (a : Node)
  | member (a : Node) (offset : Nat) (type : Ty)

/-- The arguments of a call. -/
inductive Args where
  | nil
  | cons (a : Node) (rest : Args)

end

/-- `n->type`. -/
def Node.type : Node → Ty
  | num _ | not _ => .i64
  | str _ n => .array .u8 n
  | var s => s.type
  | call _ _ t | deref _ t | cast t _ | binary _ _ _ t | member _ _ t => t
  | addr a => .ptr a.type
  | neg a | bitnot a => a.type.decay
  | assign _ a _ | post _ a | pre _ a => a.type
  | cond _ b _ => b.type.decay

/-- `n->value` of a call. -/
def Args.length : Args → Nat
  | nil => 0
  | cons _ rest => rest.length + 1

/-! ### Initialisers -/

/-- `constant`: the value of a global's initialiser. -/
def constant : Node → Except String Word
  | .num v => .ok v
  | .neg a => (constant a).map fun v => 0 - v
  | .bitnot a => (constant a).map fun v => ~~~v
  | .cast _ a => constant a
  | _ => .error "global initializer must be an integer literal (possibly negated)"

/-- The bytes from `at_` on become the low `n` bytes of `v`. -/
def initData (data : Nat → Byte) (at_ n : Nat) (v : Word) : Nat → Byte := fun i =>
  if at_ ≤ i ∧ i < at_ + n then byteAt v (i - at_) else data i

/-- What `parse` does after the `=` of a global: `s` is its symbol and `e` the expression. -/
def initGlobal (S : Structs) (s : Sym) (e : Node) (data : Nat → Byte) :
    Except String (Nat → Byte) :=
  if s.type.aggregate S = true ∨ s.tls = true then
    .error "only non-TLS scalar global initializers supported"
  else (constant e).map (initData data s.offset (s.type.size S))

end Efishell.Compiler
