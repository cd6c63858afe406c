import Mathlib.Data.BitVec
import Mathlib.Logic.Function.Basic
import Mathlib.Logic.Relation

/-!
# Tools — a part of the x86-64

A machine that executes the instructions of a small code generator: bytes are decoded by a table of
opcodes, no one of which begins another (`opcode_inj`), so that code is read back as it was written.
Memory is read and written in the order of the machine, the low byte first.  A call and a system
call leave the program; what they do is a parameter.

Instructions that set the flags for nobody leave them unknown.

* `decode_eq`: code is read as it was written.
* `readMem_writeMem`: what was stored is loaded.
-/

namespace X86

/-- A 64-bit word. -/
abbrev Word := BitVec 64

/-- A byte. -/
abbrev Byte := BitVec 8

/-- The registers the generator uses. -/
inductive Reg where
  | rax | rcx | rdx | rsp | rbp | rsi | rdi | r8 | r9 | r10 | r11
  deriving DecidableEq, Repr

/-- The number of a register in an encoding. -/
def Reg.number : Reg → Nat
  | .rax => 0 | .rcx => 1 | .rdx => 2 | .rsp => 4 | .rbp => 5 | .rsi => 6 | .rdi => 7
  | .r8 => 8 | .r9 => 9 | .r10 => 10 | .r11 => 11

/-- The flags the conditions read. -/
structure Flags where
  zf : Bool
  sf : Bool
  cf : Bool
  of : Bool

/-- What a conditional instruction asks. -/
inductive Cond where
  | b | ae | e | ne | be | a | l | ge | le | g
  deriving DecidableEq, Repr

namespace Cond

/-- The low half of the opcode. -/
def number : Cond → Nat
  | b => 0x2 | ae => 0x3 | e => 0x4 | ne => 0x5 | be => 0x6 | a => 0x7
  | l => 0xc | ge => 0xd | le => 0xe | g => 0xf

/-- The condition holds of the flags. -/
def holds (f : Flags) : Cond → Bool
  | b => f.cf
  | ae => !f.cf
  | e => f.zf
  | ne => !f.zf
  | be => f.cf || f.zf
  | a => !(f.cf || f.zf)
  | l => f.sf != f.of
  | ge => f.sf == f.of
  | le => f.zf || f.sf != f.of
  | g => !(f.zf || f.sf != f.of)

end Cond

/-- The flags after `x` was compared with `y`. -/
def Flags.cmp (x y : Word) : Flags where
  zf := x == y
  sf := (x - y).msb
  cf := decide (x.toNat < y.toNat)
  of := x.msb != y.msb && (x - y).msb != x.msb

/-- The flags of `x & x`. -/
def Flags.test (x : Word) : Flags := ⟨x == 0, x.msb, false, false⟩

/-- The machine: registers, memory, flags and the place in the code. -/
structure Machine where
  reg : Reg → Word
  mem : Word → Byte
  /-- The base of the segment of `fs`. -/
  fs : Word
  flags : Option Flags
  /-- The place in the code of what comes next. -/
  pc : Nat

/-! ### Memory -/

/-- The byte number `i` of a word. -/
def byteAt (v : Word) (i : Nat) : Byte := (v >>> (8 * i)).setWidth 8

/-- `n` bytes from `a` on. -/
def readMem (mem : Word → Byte) : Nat → Word → Nat
  | 0, _ => 0
  | n + 1, a => (mem a).toNat + 2 ^ 8 * readMem mem n (a + 1)

/-- The low `n` bytes of `v` are stored from `a` on. -/
def writeMem (mem : Word → Byte) (n : Nat) (a v : Word) : Word → Byte := fun x =>
  if (x - a).toNat < n then byteAt v (x - a).toNat else mem x

/-! ### Instructions -/

/-- The instructions, with their operands; an operand `imm` follows the opcode. -/
inductive Op where
  | movRaxImm64 | pushRax | popR10 | addRspImm | subRspImm8
  | movzxEaxAl | movzxEaxAx | movEaxEax
  | loadByte | loadWord | loadDword | loadQword
  | storeByte | storeWord | storeDword | storeQword
  | movRaxFs | addRaxImm | leaRaxRbp | imulRaxImm
  | addRaxR10 | subR10Rax | movRaxR10 | cqo | movR11Imm | idivR11 | imulRaxR10 | movR11Rax
  | xorEdxEdx | divR11 | movRaxRdx | movRcxRax | shlRaxCl | shrRaxCl | sarRaxCl
  | andRaxR10 | orRaxR10 | xorRaxR10 | cmpR10Rax | setcc (c : Cond) | testRaxRax
      | jcc (c : Cond) | jmp
  | movRaxR11 | negRax | notRax | loadStack (r : Reg) | call | syscall
  deriving DecidableEq, Repr

namespace Op

/-- The bytes before the operand. -/
def opcode : Op → List Byte
  | movRaxImm64 => [0x48, 0xb8]
  | pushRax => [0x50]
  | popR10 => [0x41, 0x5a]
  | addRspImm => [0x48, 0x81, 0xc4]
  | subRspImm8 => [0x48, 0x83, 0xec]
  | movzxEaxAl => [0x0f, 0xb6, 0xc0]
  | movzxEaxAx => [0x0f, 0xb7, 0xc0]
  | movEaxEax => [0x89, 0xc0]
  | loadByte => [0x0f, 0xb6, 0x00]
  | loadWord => [0x0f, 0xb7, 0x00]
  | loadDword => [0x8b, 0x00]
  | loadQword => [0x48, 0x8b, 0x00]
  | storeByte => [0x41, 0x88, 0x02]
  | storeWord => [0x66, 0x41, 0x89, 0x02]
  | storeDword => [0x41, 0x89, 0x02]
  | storeQword => [0x49, 0x89, 0x02]
  | movRaxFs => [0x64, 0x48, 0x8b, 0x04, 0x25]
  | addRaxImm => [0x48, 0x05]
  | leaRaxRbp => [0x48, 0x8d, 0x85]
  | imulRaxImm => [0x48, 0x69, 0xc0]
  | addRaxR10 => [0x4c, 0x01, 0xd0]
  | subR10Rax => [0x49, 0x29, 0xc2]
  | movRaxR10 => [0x4c, 0x89, 0xd0]
  | cqo => [0x48, 0x99]
  | movR11Imm => [0x49, 0xc7, 0xc3]
  | idivR11 => [0x49, 0xf7, 0xfb]
  | imulRaxR10 => [0x49, 0x0f, 0xaf, 0xc2]
  | movR11Rax => [0x49, 0x89, 0xc3]
  | xorEdxEdx => [0x31, 0xd2]
  | divR11 => [0x49, 0xf7, 0xf3]
  | movRaxRdx => [0x48, 0x89, 0xd0]
  | movRcxRax => [0x48, 0x89, 0xc1]
  | shlRaxCl => [0x48, 0xd3, 0xe0]
  | shrRaxCl => [0x48, 0xd3, 0xe8]
  | sarRaxCl => [0x48, 0xd3, 0xf8]
  | andRaxR10 => [0x4c, 0x21, 0xd0]
  | orRaxR10 => [0x4c, 0x09, 0xd0]
  | xorRaxR10 => [0x4c, 0x31, 0xd0]
  | cmpR10Rax => [0x49, 0x39, 0xc2]
  | setcc c => [0x0f, BitVec.ofNat 8 (0x90 + c.number), 0xc0]
  | testRaxRax => [0x48, 0x85, 0xc0]
  | jcc c => [0x0f, BitVec.ofNat 8 (0x80 + c.number)]
  | jmp => [0xe9]
  | movRaxR11 => [0x4c, 0x89, 0xd8]
  | negRax => [0x48, 0xf7, 0xd8]
  | notRax => [0x48, 0xf7, 0xd0]
  | loadStack r => [if r.number < 8 then 0x48 else 0x4c, 0x8b,
      BitVec.ofNat 8 (0x84 + 8 * (r.number % 8)), 0x24]
  | call => [0xe8]
  | syscall => [0x0f, 0x05]

/-- The size of the operand. -/
def immSize : Op → Nat
  | movRaxImm64 => 8
  | addRspImm | movRaxFs | addRaxImm | leaRaxRbp | imulRaxImm | movR11Imm | jcc _
      | jmp | loadStack _
  | call => 4
  | subRspImm8 => 1
  | _ => 0

/-- All of them. -/
def all : List Op :=
  [movRaxImm64, pushRax, popR10, addRspImm, subRspImm8, movzxEaxAl, movzxEaxAx, movEaxEax,
    loadByte, loadWord, loadDword, loadQword, storeByte, storeWord, storeDword, storeQword,
    movRaxFs, addRaxImm, leaRaxRbp, imulRaxImm, addRaxR10, subR10Rax, movRaxR10, cqo,
      movR11Imm, idivR11,
    imulRaxR10, movR11Rax, xorEdxEdx, divR11, movRaxRdx, movRcxRax, shlRaxCl, shrRaxCl, sarRaxCl,
    andRaxR10, orRaxR10, xorRaxR10, cmpR10Rax, testRaxRax, jmp, movRaxR11, negRax, notRax,
      call, syscall]
  ++ [Cond.b, .ae, .e, .ne, .be, .a, .l, .ge, .le, .g].flatMap (fun c => [setcc c, jcc c])
  ++ [Reg.rax, .rcx, .rdx, .rsp, .rbp, .rsi, .rdi, .r8, .r9, .r10, .r11].map loadStack

/-- Every instruction is in the list. -/
theorem mem_all (op : Op) : op ∈ all := by
  cases op with
  | setcc c => cases c <;> decide
  | jcc c => cases c <;> decide
  | loadStack r => cases r <;> decide
  | _ => decide

/-- No opcode begins another. -/
theorem opcode_inj : ∀ a ∈ all, ∀ b ∈ all, a.opcode <+: b.opcode → a = b := by decide +kernel

end Op

/-! ### Execution -/

/-- The operand of 4 bytes, with its sign. -/
def sext32 (imm : Nat) : Word := (BitVec.ofNat 32 imm).signExtend 64

namespace Machine

/-- One register changed. -/
def set (m : Machine) (r : Reg) (v : Word) : Machine := { m with reg := Function.update m.reg r v }

@[simp] theorem set_self (m : Machine) (r : Reg) (v : Word) : (m.set r v).reg r = v := by
  simp only [set, Function.update_self]

theorem set_ne {m : Machine} {r q : Reg} {v : Word} (h : q ≠ r) : (m.set r v).reg q = m.reg q := by
  simp only [set, Function.update_of_ne h]

/-- The flags are unknown. -/
def noFlags (m : Machine) : Machine := { m with flags := none }

/-- The result of an operation that sets the flags in its own way. -/
def result (m : Machine) (v : Word) : Machine := (m.set .rax v).noFlags

/-- A word pushed. -/
def push (m : Machine) (v : Word) : Machine :=
  { m.set .rsp (m.reg .rsp - 8) with mem := writeMem m.mem 8 (m.reg .rsp - 8) v }

/-- `n` bytes at an address, without a sign. -/
def load (m : Machine) (n : Nat) (a : Word) : Word := BitVec.ofNat 64 (readMem m.mem n a)

/-- The low `n` bytes of `rax` go to where `r10` points. -/
def store (m : Machine) (n : Nat) : Machine :=
  { m with mem := writeMem m.mem n (m.reg .r10) (m.reg .rax) }

/-- A jump by a signed 32-bit distance. -/
def jump (m : Machine) (imm : Nat) : Machine :=
  { m with pc := ((m.pc : Int) + (BitVec.ofNat 32 imm).toInt).toNat }

/-- `rdx:rax` is divided; the processor stops when there is no quotient. -/
def idiv (m : Machine) (d : Word) : Option Machine :=
  let n : Int := (m.reg .rdx).toInt * 2 ^ 64 + (m.reg .rax).toNat
  let q := n.tdiv d.toInt
  if d = 0 ∨ q < -2 ^ 63 ∨ 2 ^ 63 ≤ q then none
  else some ((m.result (BitVec.ofInt 64 q)).set .rdx (BitVec.ofInt 64 (n.tmod d.toInt)))

/-- Unsigned division of `rdx:rax`, which faults when the quotient does not fit. -/
def div (m : Machine) (d : Word) : Option Machine :=
  let n := (m.reg .rdx).toNat * 2 ^ 64 + (m.reg .rax).toNat
  let q := n / d.toNat
  if d = 0 ∨ 2 ^ 64 ≤ q then none
  else some ((m.result (BitVec.ofNat 64 q)).set .rdx (BitVec.ofNat 64 (n % d.toNat)))

/-- An instruction, after `pc` was moved behind it. -/
def exec (m : Machine) (imm : Nat) : Op → Option Machine
  | .movRaxImm64 => some (m.set .rax (BitVec.ofNat 64 imm))
  | .pushRax => some (m.push (m.reg .rax))
  | .popR10 => some ((m.set .r10 (m.load 8 (m.reg .rsp))).set .rsp (m.reg .rsp + 8))
  | .addRspImm => some (m.set .rsp (m.reg .rsp + sext32 imm)).noFlags
  | .subRspImm8 => some (m.set .rsp (m.reg .rsp - (BitVec.ofNat 8 imm).signExtend 64)).noFlags
  | .movzxEaxAl => some (m.set .rax (((m.reg .rax).setWidth 8).setWidth 64))
  | .movzxEaxAx => some (m.set .rax (((m.reg .rax).setWidth 16).setWidth 64))
  | .movEaxEax => some (m.set .rax (((m.reg .rax).setWidth 32).setWidth 64))
  | .loadByte => some (m.set .rax (m.load 1 (m.reg .rax)))
  | .loadWord => some (m.set .rax (m.load 2 (m.reg .rax)))
  | .loadDword => some (m.set .rax (m.load 4 (m.reg .rax)))
  | .loadQword => some (m.set .rax (m.load 8 (m.reg .rax)))
  | .storeByte => some (m.store 1)
  | .storeWord => some (m.store 2)
  | .storeDword => some (m.store 4)
  | .storeQword => some (m.store 8)
  | .movRaxFs => some (m.set .rax (m.load 8 (m.fs + sext32 imm)))
  | .addRaxImm => some (m.result (m.reg .rax + sext32 imm))
  | .leaRaxRbp => some (m.set .rax (m.reg .rbp + sext32 imm))
  | .imulRaxImm => some (m.result (m.reg .rax * sext32 imm))
  | .addRaxR10 => some (m.result (m.reg .rax + m.reg .r10))
  | .subR10Rax => some (m.set .r10 (m.reg .r10 - m.reg .rax)).noFlags
  | .movRaxR10 => some (m.set .rax (m.reg .r10))
  | .cqo => some (m.set .rdx (if (m.reg .rax).msb then -1 else 0))
  | .movR11Imm => some (m.set .r11 (sext32 imm))
  | .idivR11 => m.idiv (m.reg .r11)
  | .imulRaxR10 => some (m.result (m.reg .rax * m.reg .r10))
  | .movR11Rax => some (m.set .r11 (m.reg .rax))
  | .xorEdxEdx => some (m.set .rdx 0).noFlags
  | .divR11 => m.div (m.reg .r11)
  | .movRaxRdx => some (m.set .rax (m.reg .rdx))
  | .movRcxRax => some (m.set .rcx (m.reg .rax))
  | .shlRaxCl => some (m.result (m.reg .rax <<< ((m.reg .rcx).toNat % 64)))
  | .shrRaxCl => some (m.result (m.reg .rax >>> ((m.reg .rcx).toNat % 64)))
  | .sarRaxCl => some (m.result ((m.reg .rax).sshiftRight ((m.reg .rcx).toNat % 64)))
  | .andRaxR10 => some (m.result (m.reg .rax &&& m.reg .r10))
  | .orRaxR10 => some (m.result (m.reg .rax ||| m.reg .r10))
  | .xorRaxR10 => some (m.result (m.reg .rax ^^^ m.reg .r10))
  | .cmpR10Rax => some { m with flags := some (.cmp (m.reg .r10) (m.reg .rax)) }
  | .setcc c => m.flags.map fun f =>
      m.set .rax ((m.reg .rax &&& ~~~0xff) ||| (if c.holds f then 1 else 0))
  | .testRaxRax => some { m with flags := some (.test (m.reg .rax)) }
  | .jcc c => m.flags.map fun f => if c.holds f then m.jump imm else m
  | .jmp => some (m.jump imm)
  | .movRaxR11 => some (m.set .rax (m.reg .r11))
  | .negRax => some (m.result (-m.reg .rax))
  | .notRax => some (m.set .rax (~~~m.reg .rax))
  | .loadStack r => some (m.set r (m.load 8 (m.reg .rsp + sext32 imm)))
  | .call | .syscall => none

end Machine

/-- The code begins with these bytes. -/
def startsWith (c : Nat → Byte) : List Byte → Bool
  | [] => true
  | x :: l => c 0 == x && startsWith (fun i => c (i + 1)) l

/-- `n` bytes of an operand. -/
def readImm (c : Nat → Byte) : Nat → Nat
  | 0 => 0
  | n + 1 => (c 0).toNat + 2 ^ 8 * readImm (fun i => c (i + 1)) n

/-- The instruction at the start of the code, and its operand. -/
def decode (c : Nat → Byte) : Option (Op × Nat) :=
  (Op.all.find? fun op => startsWith c op.opcode).map fun op =>
    (op, readImm (fun i => c (op.opcode.length + i)) op.immSize)

/-- The bytes of an instruction. -/
def Op.length (op : Op) : Nat := op.opcode.length + op.immSize

/-- What happens outside of the code: a call of the code at a place, from the call to the return,
and a call of the system. -/
structure Outside where
  call : Nat → Machine → Machine → Prop
  syscall : Machine → Machine → Prop

/-- One instruction. -/
inductive Step (out : Outside) (code : Nat → Byte) (m : Machine) : Machine → Prop where
  | exec {op : Op} {imm : Nat} {m' : Machine}
      (hd : decode (fun i => code (m.pc + i)) = some (op, imm))
      (he : { m with pc := m.pc + op.length }.exec imm op = some m') : Step out code m m'
  | call {imm : Nat} {m' : Machine} (hd : decode (fun i => code (m.pc + i)) = some (.call, imm))
      (hc : out.call ({ m with pc := m.pc + Op.call.length }.jump imm).pc
        { m with pc := m.pc + Op.call.length } m') : Step out code m m'
  | syscall {imm : Nat} {m' : Machine}
      (hd : decode (fun i => code (m.pc + i)) = some (.syscall, imm))
      (hc : out.syscall { m with pc := m.pc + Op.syscall.length } m') : Step out code m m'

/-- Instructions, one after the other. -/
abbrev Steps (out : Outside) (code : Nat → Byte) : Machine → Machine → Prop :=
  Relation.ReflTransGen (Step out code)

/-! ### Code -/

/-- These bytes are at `p`. -/
def CodeAt (code : Nat → Byte) (p : Nat) (l : List Byte) : Prop :=
  ∀ i (h : i < l.length), code (p + i) = l[i]

section Code

variable {code : Nat → Byte} {p : Nat} {l l' : List Byte}

theorem codeAt_nil : CodeAt code p [] := fun _ h => absurd h (Nat.not_lt_zero _)

/-- Code in two parts. -/
theorem codeAt_append : CodeAt code p (l ++ l') ↔
    CodeAt code p l ∧ CodeAt code (p + l.length) l' := by
  constructor
  · intro h
    refine ⟨fun i hi => ?_, fun i hi => ?_⟩
    · rw [h i (by rw [List.length_append]; omega), List.getElem_append_left hi]
    · rw [Nat.add_assoc, h _ (by rw [List.length_append]; omega),
        List.getElem_append_right (by omega)]
      simp
  · rintro ⟨h₁, h₂⟩ i hi
    by_cases hlt : i < l.length
    · rw [List.getElem_append_left hlt, h₁ i hlt]
    · rw [List.length_append] at hi
      have := h₂ (i - l.length) (by omega)
      rw [List.getElem_append_right (by omega), ← this]
      congr 1
      omega

theorem codeAt_cons {x : Byte} : CodeAt code p (x :: l) ↔ code p = x ∧ CodeAt code (p + 1) l := by
  rw [← List.singleton_append, codeAt_append]
  refine and_congr_left fun _ => ⟨fun h => h 0 Nat.zero_lt_one, fun h i hi => ?_⟩
  obtain rfl := Nat.lt_one_iff.mp hi
  exact h

/-- The comparison with the bytes at a place. -/
theorem startsWith_iff {c : Nat → Byte} : ∀ {l : List Byte} , startsWith c l = true ↔
    CodeAt c 0 l := by
  intro l
  induction l generalizing c with
  | nil => exact iff_of_true rfl codeAt_nil
  | cons x l ih =>
      rw [startsWith, Bool.and_eq_true, beq_iff_eq, ih, codeAt_cons]
      refine and_congr_right fun _ => forall₂_congr fun i hi => ?_
      rw [Nat.zero_add, Nat.zero_add, Nat.add_comm 1 i]

/-- Of two codes at one place one begins the other. -/
theorem CodeAt.prefix_of_le (h : CodeAt code p l) (h' : CodeAt code p l')
    (hle : l.length ≤ l'.length) :
    l <+: l' := by
  rw [List.prefix_iff_eq_take]
  refine List.ext_getElem (by simp [hle]) fun i hi _ => ?_
  rw [List.getElem_take, ← h i hi, h' i (by omega)]

/-- The bytes of an operand. -/
def immBytes (v : Nat) : Nat → List Byte
  | 0 => []
  | n + 1 => BitVec.ofNat 8 v :: immBytes (v / 2 ^ 8) n

@[simp] theorem length_immBytes (n : Nat) : ∀ v, (immBytes v n).length = n := by
  induction n with
  | zero => exact fun _ => rfl
  | succ n ih => exact fun v => congrArg Nat.succ (ih _)

/-- An immediate reads back. -/
theorem readImm_eq {n : Nat} : ∀ {v p : Nat}, CodeAt code p (immBytes v n) →
    readImm (fun i => code (p + i)) n = v % 2 ^ (8 * n) := by
  induction n with
  | zero => exact fun {v p} _ => (Nat.mod_one v).symm
  | succ n ih =>
      intro v p h
      obtain ⟨h₀, h₁⟩ := codeAt_cons.mp h
      have hrest := ih h₁
      simp only [Nat.add_assoc, Nat.add_comm 1] at hrest
      rw [readImm, Nat.add_zero, h₀, hrest, BitVec.toNat_ofNat, Nat.mul_succ, Nat.pow_add,
        Nat.mul_comm (2 ^ (8 * n)), Nat.mod_mul]

/-- **Code is read as it was written.** -/
theorem decode_eq {op : Op} {v : Nat} (h : CodeAt code p (op.opcode ++ immBytes v op.immSize))
    (hv : v < 2 ^ (8 * op.immSize)) : decode (fun i => code (p + i)) = some (op, v) := by
  obtain ⟨h₁, h₂⟩ := codeAt_append.mp h
  have hat : ∀ {l}, startsWith (fun i => code (p + i)) l = true ↔ CodeAt code p l := by
    intro l
    rw [startsWith_iff]
    refine forall₂_congr fun i hi => ?_
    rw [Nat.zero_add]
  have hfind : Op.all.find? (fun op => startsWith (fun i => code (p + i)) op.opcode) = some op := by
    have hsome : (Op.all.find? fun op => startsWith (fun i => code (p + i)) op.opcode).isSome :=
      List.find?_isSome.mpr ⟨op, Op.mem_all op, hat.mpr h₁⟩
    obtain ⟨op', hop'⟩ := Option.isSome_iff_exists.mp hsome
    have hstarts :=
      List.find?_some (p := fun op : Op => startsWith (fun i => code (p + i)) op.opcode) hop'
    have h' := hat.mp hstarts
    rw [hop']
    rcases Nat.le_total op.opcode.length op'.opcode.length with hle | hle
    · rw [Op.opcode_inj op (Op.mem_all op) op' (Op.mem_all op') (h₁.prefix_of_le h' hle)]
    · rw [Op.opcode_inj op' (Op.mem_all op') op (Op.mem_all op) (h'.prefix_of_le h₁ hle)]
  rw [decode, hfind, Option.map_some]
  have := readImm_eq h₂
  simp only [Nat.add_assoc] at this
  rw [this, Nat.mod_eq_of_lt hv]

/-- The bytes of an instruction step as it does. -/
theorem Step.of_code {out : Outside} {m m' : Machine} {op : Op} {v : Nat}
    (h : CodeAt code m.pc (op.opcode ++ immBytes v op.immSize)) (hv : v < 2 ^ (8 * op.immSize))
    (he : { m with pc := m.pc + op.length }.exec v op = some m') : Step out code m m' :=
  .exec (decode_eq h hv) he

end Code

/-! ### Words in memory -/

section Memory

variable {mem : Word → Byte} {a b v : Word} {n : Nat}

/-- The bytes written are there. -/
theorem writeMem_at {i : Nat} (hn : n ≤ 8) (hi : i < n) :
    writeMem mem n a v (a + BitVec.ofNat 64 i) = byteAt v i := by
  have : (a + BitVec.ofNat 64 i - a).toNat = i := by
    rw [BitVec.add_comm, BitVec.add_sub_cancel, BitVec.toNat_ofNat, Nat.mod_eq_of_lt (by omega)]
  rw [writeMem, this, if_pos hi]

/-- A read depends on its own bytes only. -/
theorem readMem_congr {mem' : Word → Byte} : ∀ {n : Nat} {a : Word},
    (∀ i < n, mem (a + BitVec.ofNat 64 i) = mem' (a + BitVec.ofNat 64 i)) →
    readMem mem n a = readMem mem' n a := by
  intro n
  induction n with
  | zero => exact fun _ => rfl
  | succ n ih =>
      intro a h
      have h₀ := h 0 (Nat.zero_lt_succ n)
      rw [BitVec.add_zero] at h₀
      rw [readMem, readMem, h₀, ih fun i hi => ?_]
      have := h (i + 1) (Nat.succ_lt_succ hi)
      rwa [BitVec.ofNat_add, BitVec.add_comm (BitVec.ofNat 64 i), ← BitVec.add_assoc] at this

/-- The `i`th byte of a word. -/
theorem byteAt_toNat (v : Word) (i : Nat) : (byteAt v i).toNat = v.toNat / 2 ^ (8 * i) % 2 ^ 8 := by
  rw [byteAt, BitVec.toNat_setWidth, BitVec.toNat_ushiftRight, Nat.shiftRight_eq_div_pow]

/-- Memory that holds the bytes of a word. -/
theorem readMem_bytes : ∀ {n k : Nat} {a : Word},
    (∀ i < n, mem (a + BitVec.ofNat 64 i) = byteAt v (k + i)) →
    readMem mem n a = v.toNat / 2 ^ (8 * k) % 2 ^ (8 * n) := by
  intro n
  induction n with
  | zero => exact fun _ => (Nat.mod_one _).symm
  | succ n ih =>
      intro k a h
      have h₀ := h 0 (Nat.zero_lt_succ n)
      rw [BitVec.add_zero, Nat.add_zero] at h₀
      have hrest : readMem mem n (a + 1) = v.toNat / 2 ^ (8 * (k + 1)) % 2 ^ (8 * n) := by
        refine ih fun i hi => ?_
        have := h (i + 1) (Nat.succ_lt_succ hi)
        rwa [BitVec.ofNat_add, BitVec.add_comm (BitVec.ofNat 64 i), ← BitVec.add_assoc,
          Nat.add_comm i, ← Nat.add_assoc] at this
      rw [readMem, h₀, hrest, byteAt_toNat, Nat.mul_succ 8 n, Nat.pow_add,
        Nat.mul_comm (2 ^ (8 * n)), Nat.mod_mul, Nat.mul_succ, Nat.pow_add, Nat.div_div_eq_div_mul]

/-- What was stored is loaded. -/
theorem readMem_writeMem (hn : n ≤ 8) :
    readMem (writeMem mem n a v) n a = v.toNat % 2 ^ (8 * n) := by
  have : readMem (writeMem mem n a v) n a = v.toNat / 2 ^ (8 * 0) % 2 ^ (8 * n) :=
    readMem_bytes fun i hi => by rw [writeMem_at hn hi, Nat.zero_add]
  rwa [Nat.mul_zero, Nat.pow_zero, Nat.div_one] at this

end Memory

end X86
