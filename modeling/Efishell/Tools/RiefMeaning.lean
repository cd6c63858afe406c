import Efishell.Tools.RiefNodes

/-!
# Tools — what expressions mean

The meaning of the expressions of the language of `tools/rief.c`, over a memory of bytes: no
register, no stack and no code appears in it.  `Eval` gives values and `Place` addresses; both go
from the memory before to the memory after, and a tree that does what the language does not define
has neither.

Numbers have 64 bits.  A narrower type cuts what is stored in it and what is cast to it, and is read
without a sign.  An addition to a pointer counts its elements.
-/

namespace Efishell.Compiler

open X86

/-- The bytes that a program sees. -/
abbrev Mem := Word → Byte

/-- The program's surroundings while one call of a function runs. -/
structure World where
  /-- The bytes that the program may touch. -/
  data : Word → Prop
  region : Nat → Word
  /-- The block of the thread, which begins with its own address. -/
  tls : Word
  /-- The locals of the call end here. -/
  frame : Word
  /-- A function's result and what it leaves in memory. -/
  call : Nat → List Word → Mem → Word → Mem → Prop
  /-- The same for the system, of the number and the arguments. -/
  syscall : List Word → Mem → Word → Mem → Prop

/-! ### Values -/

/-- A value as one of type `t`. -/
def narrow (S : Structs) (t : Ty) (v : Word) : Word :=
  if t.aggregate S = true ∨ t.size S = 0 then v else BitVec.ofNat 64 (v.toNat % 2 ^ (8 * t.size S))

/-- A comparison's value. -/
def truth (b : Bool) : Word := if b then 1 else 0

/-- An operation on two types is one on numbers without a sign. -/
def unsigned (S : Structs) (left right : Ty) : Bool :=
  (left.decay.uns && left.decay.size S == 8) || (right.decay.uns && right.decay.size S == 8)

/-- What one more is worth to a value of the type. -/
def Ty.stride (S : Structs) (t : Ty) : Nat :=
  match t.base with
  | some b => b.size S
  | none => 1

/-- Division, where the processor does not fault. -/
def quotient (uns : Bool) (x y : Word) : Option Word :=
  if y = 0 ∨ uns = false ∧ x = BitVec.intMin 64 ∧ y = -1 then none
  else some (if uns then x / y else x.sdiv y)

/-- The remainder, where the processor does not fault. -/
def remainder (uns : Bool) (x y : Word) : Option Word :=
  if y = 0 ∨ uns = false ∧ x = BitVec.intMin 64 ∧ y = -1 then none
  else some (if uns then x % y else x.srem y)

/-- The binary operators that need both operands; a difference of two pointers counts elements, and
an integer next to a pointer does too. -/
def arith (S : Structs) (op : BinOp) (left right : Ty) (x y : Word) : Option Word :=
  let uns := unsigned S left right
  let elements := if right.decay.base.isSome then y else y * BitVec.ofNat 64 (left.decay.stride S)
  match op with
  | .add => some (x + elements)
  | .sub =>
      if left.decay.base.isSome ∧ right.decay.base.isSome then
        quotient false (x - y) (BitVec.ofNat 64 (left.decay.stride S))
      else some (x - elements)
  | .mul => some (x * y)
  | .div => quotient uns x y
  | .mod => remainder uns x y
  | .shl => some (x <<< (y.toNat % 64))
  | .shr => some (if uns then x >>> (y.toNat % 64) else x.sshiftRight (y.toNat % 64))
  | .band => some (x &&& y)
  | .bor => some (x ||| y)
  | .bxor => some (x ^^^ y)
  | .lt => some (truth (if uns then x.ult y else x.slt y))
  | .le => some (truth (if uns then x.ule y else x.sle y))
  | .gt => some (truth (if uns then y.ult x else y.slt x))
  | .ge => some (truth (if uns then y.ule x else y.sle x))
  | .eq => some (truth (x == y))
  | .ne => some (truth (x != y))
  | .land | .lor => none

namespace World

variable (W : World) (S : Structs)

/-- `n` bytes of the program from `p` on. -/
def Owns (n : Nat) (p : Word) : Prop := ∀ i < n, W.data (p + BitVec.ofNat 64 i)

/-- What is at `p`: arrays and structures stand for their address. -/
def Reads (μ : Mem) (t : Ty) (p v : Word) : Prop :=
  if t.aggregate S = true then v = p
  else t.size S ≠ 0 ∧ W.Owns (t.size S) p ∧ v = BitVec.ofNat 64 (readMem μ (t.size S) p)

/-- A scalar is stored at `p`. -/
def Writes (μ : Mem) (t : Ty) (p v : Word) (μ' : Mem) : Prop :=
  t.aggregate S = false ∧ t.size S ≠ 0 ∧ W.Owns (t.size S) p ∧ μ' = writeMem μ (t.size S) p v

/-- Where a variable is. -/
def Finds (μ : Mem) (s : Sym) (p : Word) : Prop :=
  if s.tls = true then W.Owns 8 W.tls ∧
    p = BitVec.ofNat 64 (readMem μ 8 W.tls) + BitVec.ofNat 64 s.offset
  else if s.global = true then p = W.region 1 + BitVec.ofNat 64 s.offset
  else p = W.frame - BitVec.ofNat 64 s.offset

/-- A call; the number of a system call is an argument of `syscall`. -/
def Calls : Callee → List Word → Mem → Word → Mem → Prop
  | .syscall, vs => W.syscall vs
  | .builtin nr, vs => W.syscall (BitVec.ofNat 64 nr :: vs)
  | .function i, vs => W.call i vs

end World

/-- `x++`, `x--` and their like. -/
def stepped (S : Structs) (t : Ty) (down : Bool) (x : Word) : Word :=
  if down then x - BitVec.ofNat 64 (t.stride S) else x + BitVec.ofNat 64 (t.stride S)

/-! ### Expressions -/

mutual

/-- The value of an expression. -/
inductive Eval (W : World) (S : Structs) : Node → Mem → Word → Mem → Prop where
  | num {v μ} : Eval W S (.num v) μ v μ
  | str {start n μ} : Eval W S (.str start n) μ (W.region 2 + BitVec.ofNat 64 start) μ
  | var {s μ p v} (hp : W.Finds μ s p) (hv : W.Reads S μ s.type p v) : Eval W S (.var s) μ v μ
  | deref {a t μ p v μ'} (ha : Eval W S a μ p μ') (hv : W.Reads S μ' t p v) :
      Eval W S (.deref a t) μ v μ'
  | member {a offset t μ p v μ'} (ha : Place W S a μ p μ')
      (hv : W.Reads S μ' t (p + BitVec.ofNat 64 offset) v) : Eval W S (.member a offset t) μ v μ'
  | addr {a μ p μ'} (ha : Place W S a μ p μ') : Eval W S (.addr a) μ p μ'
  | cast {t a μ v μ'} (ha : Eval W S a μ v μ') : Eval W S (.cast t a) μ (narrow S t v) μ'
  | neg {a μ v μ'} (ha : Eval W S a μ v μ') : Eval W S (.neg a) μ (-v) μ'
  | bitnot {a μ v μ'} (ha : Eval W S a μ v μ') : Eval W S (.bitnot a) μ (~~~v) μ'
  | not {a μ v μ'} (ha : Eval W S a μ v μ') : Eval W S (.not a) μ (truth (v == 0)) μ'
  | call {func args t μ vs μ' v μ''} (ha : EvalArgs W S args μ vs μ')
      (hc : W.Calls func vs μ' v μ'') :
      Eval W S (.call func args t) μ (narrow S t v) μ''
  -- `&&` and `||` evaluate their right side when the left one does not decide
  | decided {op a b t μ x μ'} (hop : op = .land ∧ x = 0 ∨ op = .lor ∧ x ≠ 0)
      (ha : Eval W S a μ x μ') :
      Eval W S (.binary op a b t) μ (truth (x != 0)) μ'
  | open_ {op a b t μ x μ' y μ''} (hop : op = .land ∧ x ≠ 0 ∨ op = .lor ∧ x = 0)
      (ha : Eval W S a μ x μ')
      (hb : Eval W S b μ' y μ'') : Eval W S (.binary op a b t) μ (truth (y != 0)) μ''
  | binary {op a b t μ x μ' y μ'' v} (ha : Eval W S a μ x μ') (hb : Eval W S b μ' y μ'')
      (hv : arith S op a.type b.type x y = some v) : Eval W S (.binary op a b t) μ v μ''
  | assign {a b μ p μ₁ v μ₂ μ'} (ha : Place W S a μ p μ₁) (hb : Eval W S b μ₁ v μ₂)
      (hw : W.Writes S μ₂ a.type p v μ') : Eval W S (.assign none a b) μ (narrow S a.type v) μ'
  -- the old value is read before the right side is evaluated
  | update {op a b μ p μ₁ x y μ₂ v μ'} (ha : Place W S a μ p μ₁) (hx : W.Reads S μ₁ a.type p x)
      (hb : Eval W S b μ₁ y μ₂) (hv : arith S op a.type b.type x y = some v)
      (hw : W.Writes S μ₂ a.type p v μ') : Eval W S (.assign (some op) a b) μ (narrow S a.type v) μ'
  | pre {down a μ p μ₁ x μ'} (ha : Place W S a μ p μ₁) (hx : W.Reads S μ₁ a.type p x)
      (hw : W.Writes S μ₁ a.type p (stepped S a.type down x) μ') :
      Eval W S (.pre down a) μ (narrow S a.type (stepped S a.type down x)) μ'
  | post {down a μ p μ₁ x μ'} (ha : Place W S a μ p μ₁) (hx : W.Reads S μ₁ a.type p x)
      (hw : W.Writes S μ₁ a.type p (stepped S a.type down x) μ') : Eval W S (.post down a) μ x μ'
  | yes {a b c μ x μ' v μ''} (ha : Eval W S a μ x μ') (hx : x ≠ 0) (hb : Eval W S b μ' v μ'') :
      Eval W S (.cond a b c) μ v μ''
  | no {a b c μ μ' v μ''} (ha : Eval W S a μ 0 μ') (hc : Eval W S c μ' v μ'') :
      Eval W S (.cond a b c) μ v μ''

/-- The address of an expression that has one. -/
inductive Place (W : World) (S : Structs) : Node → Mem → Word → Mem → Prop where
  | var {s μ p} (hp : W.Finds μ s p) : Place W S (.var s) μ p μ
  | deref {a t μ p μ'} (ha : Eval W S a μ p μ') : Place W S (.deref a t) μ p μ'
  | member {a offset t μ p μ'} (ha : Place W S a μ p μ') :
      Place W S (.member a offset t) μ (p + BitVec.ofNat 64 offset) μ'

/-- The values of arguments, from the first to the last. -/
inductive EvalArgs (W : World) (S : Structs) : Args → Mem → List Word → Mem → Prop where
  | nil {μ} : EvalArgs W S .nil μ [] μ
  | cons {a rest μ v μ' vs μ''} (ha : Eval W S a μ v μ') (hr : EvalArgs W S rest μ' vs μ'') :
      EvalArgs W S (.cons a rest) μ (v :: vs) μ''

end

/-- Every argument has a value. -/
theorem EvalArgs.length_eq {W : World} {S : Structs} :
    ∀ {args : Args} {μ : Mem} {vs : List Word} {μ' : Mem},
    EvalArgs W S args μ vs μ' → vs.length = args.length
  | .nil, _, _, _, .nil => rfl
  | .cons _ _, _, _, _, .cons _ hr => congrArg (· + 1) hr.length_eq

end Efishell.Compiler
