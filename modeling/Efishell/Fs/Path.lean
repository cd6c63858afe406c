import Efishell.Support.Components
import Efishell.Kernel.Bytes

/-!
# File systems — path resolution

`path_prefix`, `k_path_resolve` and `k_root_bind`.  A C string is the list of its bytes before the
terminating zero, so `!*path` is `path = []` and `str_len` is the length; the output buffer is the
list of the bytes before its end `len`, and the table of roots is the list of its used entries,
which only grows at its end.

`k_path_resolve` keeps the canonical path itself while it reads (`resolveLoop`): it cuts the buffer
at the last separator for a `..` (`popTo`) and never below `floor`.  `foldPath` says what is meant:
a fold of the components over a stack of names.
-/

namespace Efishell

open Components

/-- A component of a path. -/
abbrev Name := List UInt8

/-- `'/'`. -/
def slash : UInt8 := 47

/-- `'@'`. -/
def atSign : UInt8 := 64

/-- `"."`. -/
def dot : Name := [46]

/-- `".."`. -/
def dotdot : Name := [46, 46]

/-- `K_PATH_MAX`. -/
def kPathMax : Nat := 256

/-- `K_NAME_MAX`. -/
def kNameMax : Nat := 255

/-- `str_copy(dst, s, size)`, a copy cut to the size of its buffer. -/
def strCopy (s : List UInt8) (size : Nat) : List UInt8 := s.take (size - 1)

/-- An entry of `roots`. -/
structure PathRoot where
  name : Name
  path : List UInt8
  deriving DecidableEq, Repr

/-! ### The source -/

/-- `path_prefix`: `root` is `p` or one of the directories above it. -/
def pathPrefix (p root : List UInt8) : Bool :=
  let n := root.length
  p.take (min n p.length) == root.take (min n p.length) && n ≤ p.length &&
    (n == 1 || n == p.length || p.getD n 0 == slash)

/-- The loop that reads the name behind an `@`; `n` bytes are read. -/
def rootName : Nat → List UInt8 → Except Errno (Name × List UInt8)
  | _, [] => .ok ([], [])
  | n, c :: path =>
    if c = slash then .ok ([], c :: path)
    else if n = 31 then .error .e2big
    else match rootName (n + 1) path with
      | .ok (name, rest) => .ok (c :: name, rest)
      | .error e => .error e

/-- The loop that reads a component; `n` bytes are read. -/
def scanName : Nat → List UInt8 → Except Errno (Name × List UInt8)
  | _, [] => .ok ([], [])
  | n, c :: path =>
    if c = slash then .ok ([], c :: path)
    else if c < 32 ∨ 126 < c ∨ kNameMax < n + 1 then .error .einval
    else match scanName (n + 1) path with
      | .ok (name, rest) => .ok (c :: name, rest)
      | .error e => .error e

/-- `while (next > 1 && out[next - 1] != '/') --next;` -/
def popScan (out : List UInt8) : Nat → Nat
  | 0 => 0
  | next + 1 => if 1 < next + 1 ∧ out.getD next 0 ≠ slash then popScan out next else next + 1

/-- The length that a `..` leaves. -/
def popTo (out : List UInt8) : Nat :=
  let next := popScan out out.length
  if 1 < next then next - 1 else next

/-- The loop over the path.  `left` is how often `++scanned` is still allowed. -/
def resolveLoop (named : Bool) (floor : Nat) :
    Nat → List UInt8 → List UInt8 → Except Errno (List UInt8)
  | _, [], out => .ok out
  | 0, _ :: _, _ => .error .e2big
  | left + 1, c :: path, out =>
    if c = slash then resolveLoop named floor left path out
    else match scanName 0 (c :: path) with
      | .error e => .error e
      | .ok (name, rest) =>
        if name = dot then resolveLoop named floor left rest out
        else if name = dotdot then
          if out.length ≤ floor then
            if named then .error .eperm else resolveLoop named floor left rest out
          else if popTo out < floor then .error .eperm
          else resolveLoop named floor left rest (out.take (popTo out))
        else
          let sep := if 1 < out.length then [slash] else []
          if kPathMax - out.length ≤ name.length + sep.length then .error .e2big
          else resolveLoop named floor left rest (out ++ sep ++ name)

/-- `k_path_resolve`: the canonical text of a path. -/
def kPathResolve (roots : List PathRoot) (path cwd : List UInt8) : Except Errno (List UInt8) :=
  match path with
  | [] => .error .einval
  | c :: rest =>
    if c = atSign then
      match rootName 0 rest with
      | .error e => .error e
      | .ok (name, rest) =>
        match roots.find? fun r => r.name = name with
        | none => .error .enoent
        | some r =>
          let out := strCopy r.path kPathMax
          resolveLoop true out.length 4096 rest out
    else if c ≠ slash then
      if cwd.head? ≠ some slash ∨ kPathMax ≤ cwd.length then .error .einval
      else resolveLoop false 1 4096 path (strCopy cwd kPathMax)
    else resolveLoop false 1 4096 path [slash]

/-- The characters a root may be named with. -/
def rootChar (c : UInt8) : Bool :=
  (97 ≤ c && c ≤ 122) || (65 ≤ c && c ≤ 90) || (48 ≤ c && c ≤ 57) || c == 95 || c == 45

/-- `k_root_bind`: a new root name, bound by the first processor only. -/
def kRootBind (cpu : Nat) (name path : List UInt8) (roots : List PathRoot) :
    Except Errno (List PathRoot) :=
  if cpu ≠ 0 then .error .eperm
  else if name = [] ∨ 31 < name.length ∨ path.head? ≠ some slash then .error .einval
  else if ¬ name.all rootChar then .error .einval
  else match kPathResolve roots path [slash] with
    | .error e => .error e
    | .ok normalized =>
      match roots.find? fun r => r.name = name with
      | some r => if normalized = r.path then .ok roots else .error .eexist
      | none =>
        if roots.length = 64 then .error .e2big
        else .ok (roots ++ [⟨strCopy name 32, strCopy normalized kPathMax⟩])

/-- The tables of roots that calls of `k_root_bind` reach. -/
inductive RootsReach : List PathRoot → Prop
  | init : RootsReach []
  | bind {roots roots' : List PathRoot} (cpu : Nat) (name path : List UInt8) :
      RootsReach roots → kRootBind cpu name path roots = .ok roots' → RootsReach roots'

/-! ### What a path means -/

/-- What one component does to the stack. -/
def pathStep (st : List Name) (c : Name) : List Name :=
  if c = [] ∨ c = dot then st else if c = dotdot then st.dropLast else st ++ [c]

/-- The components of `path` folded over a stack of names. -/
def foldPath (st : List Name) (path : List UInt8) : List Name :=
  (path.splitOn slash).foldl pathStep st

/-- The stack that the fold begins with, and the part of the path that is folded. -/
def pathBase (roots : List PathRoot) (path cwd : List UInt8) : Option (List Name × List UInt8) :=
  match path with
  | [] => none
  | c :: rest =>
    if c = atSign then
      (roots.find? fun r => r.name = rest.takeWhile (· ≠ slash)).map fun r =>
        (components slash r.path, rest.dropWhile (· ≠ slash))
    else if c = slash then some ([], path)
    else some (components slash cwd, path)

/-- The reference: fold, then write the stack down. -/
def normalized (roots : List PathRoot) (path cwd : List UInt8) : Option (List UInt8) :=
  (pathBase roots path cwd).map fun (st, rest) => render slash (foldPath st rest)

/-- A component that a canonical path may hold. -/
structure NameOk (c : Name) : Prop where
  ne_nil : c ≠ []
  chars : ∀ b ∈ c, b ≠ slash ∧ ¬ b < 32 ∧ ¬ 126 < b
  ne_dot : c ≠ dot
  ne_dotdot : c ≠ dotdot

/-- A canonical path: the components it is made of. -/
structure NormalPath where
  stack : List Name
  ok : ∀ c ∈ stack, NameOk c
  short : (render slash stack).length < kPathMax

/-- The path as text, below its root. -/
def NormalPath.text (p : NormalPath) : List UInt8 := render slash p.stack

/-- A string that is a canonical path. -/
def Canonical (s : List UInt8) : Prop := ∃ p : NormalPath, p.text = s

end Efishell
