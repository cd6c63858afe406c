import Efishell.Support.Checked
import Efishell.Tools.RiefGen
import Efishell.Tools.RiefMeaning

/-!
# Tools — statements

`stmt` of `tools/rief.c`, what statements mean, and the code of the body of a function.  A jump out
of a loop or out of the function is written before its target is known: it stands as a piece of its
own until `fix` gives it its distance, at the end of the loop and of the function.

A block is a sequence that ends in the missing statement, a `while` is a loop without a step, and a
`for` is what it initialises and then a loop.
-/

namespace Efishell.Compiler

open X86

/-- A statement; where the tree has no node, there is `null`. -/
inductive Stmt where
  | null
  | seq (a b : Stmt)
  | expr (a : Option Node)
  | ret (a : Option Node)
  | cond (a : Node) (b c : Stmt)
  | loop (test : Option Node) (body : Stmt) (step : Option Node)
  | brk
  | cont

/-- `WHILE`. -/
def Stmt.while (a : Node) (b : Stmt) : Stmt := .loop (some a) b none

/-- `FOR`. -/
def Stmt.for (a : Stmt) (b c : Option Node) (d : Stmt) : Stmt := .seq a (.loop b d c)

/-- The statements of a `BLOCK`. -/
def Stmt.block (l : List Stmt) : Stmt := l.foldr .seq .null

/-! ### Code -/

/-- The ways out: to the end of the loop, to its step, to the end of the function. -/
inductive Exit where
  | brk | cont | ret
  deriving DecidableEq, Repr

/-- The output with the jumps whose distance is not known yet. -/
inductive Piece where
  | item (x : Item)
  | exit (k : Exit)

/-- The bytes a piece takes. -/
def Piece.size : Piece → Nat
  | item x => x.size
  | exit _ => 5

/-- The bytes of the pieces. -/
def sizeOf (l : List Piece) : Nat := (l.map Piece.size).sum

/-- Pieces without an open jump. -/
def known (l : List Item) : List Piece := l.map .item

/-- `fix` of the jumps of one kind, in code that starts at `p`. -/
def fix (k : Exit) (target : Nat) : Nat → List Piece → List Piece
  | _, [] => []
  | p, .exit j :: l =>
      (if j = k then known (jump none (target - (p + 5))) else [.exit j]) ++ fix k target (p + 5) l
  | p, .item x :: l => .item x :: fix k target (p + x.size) l

/-- `gen` of a tree that may be missing. -/
def genOption (S : Structs) : Option Node → Except String (List Item)
  | none => .ok []
  | some a => gen S 0 a

/-- The test of a loop, before `rest` more bytes of it. -/
def testCode (test : Option Node) (x : List Item) (rest : Nat) : List Item :=
  if test.isSome then x ++ emit [0x48, 0x85, 0xc0] ++ jump (some 0x84) rest else []

/-- `stmt`; `loop`: inside of a loop. -/
def stmt (S : Structs) (loop : Bool) : Stmt → Except String (List Piece)
  | .null => .ok []
  | .seq a b => do
      let x ← stmt S loop a
      let y ← stmt S loop b
      return x ++ y
  | .expr a => do return known (← genOption S a)
  | .ret (some a) => do return known (← gen S 0 a) ++ [.exit .ret]
  | .ret none => .ok (known (imm 0) ++ [.exit .ret])
  | .cond a b c => do
      let x ← gen S 0 a
      let y ← stmt S loop b
      let z ← stmt S loop c
      return known (x ++ emit [0x48, 0x85, 0xc0] ++ jump (some 0x84) (sizeOf y + 5)) ++ y ++
        known (jump none (sizeOf z)) ++ z
  | .loop test body step => do
      let x ← genOption S test
      let y ← stmt S true body
      let z ← genOption S step
      let x := testCode test x (sizeOf y + size z + 5)
      let cont := size x + sizeOf y
      let end_ := cont + size z + 5
      return fix .brk end_ 0
        (fix .cont cont 0 (known x ++ y ++ known (z ++ jump none (2 ^ 32 - end_))))
  | .brk => if loop then .ok [.exit .brk] else .error "break/continue outside loop"
  | .cont => if loop then .ok [.exit .cont] else .error "break/continue outside loop"

/-- The code at `p` when the ways out go to `T`. -/
def place (T : Exit → Nat) : Nat → List Piece → List Item
  | _, [] => []
  | p, .item x :: l => x :: place T (p + x.size) l
  | p, .exit k :: l => jump none (T k - (p + 5)) ++ place T (p + 5) l

/-- The body of a function, up to its epilogue: what is left of the jumps are the returns. -/
def bodyCode (S : Structs) (body : Stmt) : Except String (List Item) := do
  let l ← stmt S false body
  let l := l ++ known (imm 0)
  return place (fun _ => sizeOf l) 0 l

/-! ### Meaning -/

/-- How a statement ends. -/
inductive Outcome where
  | done | brk | cont
  | ret (v : Word)

/-- What a function returns that ends so. -/
def Outcome.value : Outcome → Option Word
  | .done => some 0
  | .ret v => some v
  | _ => none

/-- A test, which is true when it is missing. -/
inductive Tests (W : World) (S : Structs) : Option Node → Mem → Bool → Mem → Prop where
  | none {μ} : Tests W S none μ true μ
  | some {a μ v μ'} (ha : Eval W S a μ v μ') : Tests W S (some a) μ (v != 0) μ'

/-- An expression, for what it does. -/
inductive Does (W : World) (S : Structs) : Option Node → Mem → Mem → Prop where
  | none {μ} : Does W S none μ μ
  | some {a μ v μ'} (ha : Eval W S a μ v μ') : Does W S (some a) μ μ'

/-- A run of a statement. -/
inductive Exec (W : World) (S : Structs) : Stmt → Mem → Outcome → Mem → Prop where
  | null {μ} : Exec W S .null μ .done μ
  | seq {a b μ μ₁ o μ'} (ha : Exec W S a μ .done μ₁) (hb : Exec W S b μ₁ o μ') :
      Exec W S (.seq a b) μ o μ'
  | left {a b μ o μ'} (ha : Exec W S a μ o μ') (ho : o ≠ .done) : Exec W S (.seq a b) μ o μ'
  | expr {a μ μ'} (ha : Does W S a μ μ') : Exec W S (.expr a) μ .done μ'
  | ret {a μ v μ'} (ha : Eval W S a μ v μ') : Exec W S (.ret (some a)) μ (.ret v) μ'
  | retNone {μ} : Exec W S (.ret none) μ (.ret 0) μ
  | yes {a b c μ v μ₁ o μ'} (ha : Eval W S a μ v μ₁) (hv : v ≠ 0) (hb : Exec W S b μ₁ o μ') :
      Exec W S (.cond a b c) μ o μ'
  | no {a b c μ μ₁ o μ'} (ha : Eval W S a μ 0 μ₁) (hc : Exec W S c μ₁ o μ') :
      Exec W S (.cond a b c) μ o μ'
  | brk {μ} : Exec W S .brk μ .brk μ
  | cont {μ} : Exec W S .cont μ .cont μ
  | stop {t b s μ μ'} (ht : Tests W S t μ false μ') : Exec W S (.loop t b s) μ .done μ'
  | turn {t b s μ μ₁ o μ₂ μ₃ o' μ'} (ht : Tests W S t μ true μ₁) (hb : Exec W S b μ₁ o μ₂)
      (ho : o = .done ∨ o = .cont) (hs : Does W S s μ₂ μ₃) (hl : Exec W S (.loop t b s) μ₃ o' μ') :
      Exec W S (.loop t b s) μ o' μ'
  | broken {t b s μ μ₁ μ'} (ht : Tests W S t μ true μ₁) (hb : Exec W S b μ₁ .brk μ') :
      Exec W S (.loop t b s) μ .done μ'
  | returned {t b s μ μ₁ v μ'} (ht : Tests W S t μ true μ₁) (hb : Exec W S b μ₁ (.ret v) μ') :
      Exec W S (.loop t b s) μ (.ret v) μ'

end Efishell.Compiler
