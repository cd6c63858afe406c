import Efishell.Tools.RiefGen

/-!
# Tools — running code

What a piece of emitted code does when it is loaded and executed: `Runs` is its weakest
precondition, with a rule for the end, for code after code and for an instruction.

* `Runs.append`: code after code.
* `Runs.plain`, `Runs.operand`: an instruction without an operand, and with one.
-/

namespace Efishell.Compiler

open X86

/-- Wherever it is loaded, the code `l` takes `m` to its end and to a state that satisfies `Q`. -/
def Runs (L : Layout) (out : Outside) (l : List Item) (m : Machine) (Q : Machine → Prop) : Prop :=
  ∀ code, CodeAt code m.pc (link L m.pc l) →
    ∃ m', Steps out code m m' ∧ m'.pc = m.pc + size l ∧ Q m'

namespace Runs

variable {L : Layout} {out : Outside} {l l' : List Item} {m m' : Machine} {Q R : Machine → Prop}

/-- No code, nothing done. -/
theorem nil (h : Q m) : Runs L out [] m Q := fun _ _ => ⟨m, .refl, rfl, h⟩

/-- A weaker property. -/
theorem mono (h : Runs L out l m Q) (hq : ∀ m', Q m' → R m') : Runs L out l m R := by
  intro code hc
  obtain ⟨m', hs, hp, hm⟩ := h code hc
  exact ⟨m', hs, hp, hq m' hm⟩

/-- Code after code. -/
theorem append (h : Runs L out l m fun m' => Runs L out l' m' Q) : Runs L out (l ++ l') m Q := by
  intro code hc
  rw [link_append, codeAt_append, length_link] at hc
  obtain ⟨m₁, hs, hp, h'⟩ := h code hc.1
  rw [← hp] at hc
  obtain ⟨m₂, hs', hp', hq⟩ := h' code hc.2
  exact ⟨m₂, hs.trans hs', by rw [hp', hp, size_append, Nat.add_assoc], hq⟩

/-- An instruction, whose bytes may come from the loader. -/
theorem instruction {op : Op} {v : Nat} (hl : link L m.pc l = op.opcode ++ immBytes v op.immSize)
    (hv : v < 2 ^ (8 * op.immSize)) (he : { m with pc := m.pc + op.length }.exec v op = some m')
    (hp : m'.pc = m.pc + op.length) (hq : Q m') : Runs L out l m Q := by
  intro code hc
  have hsize : size l = op.length := by
    rw [← length_link L l m.pc, hl, List.length_append, length_immBytes]
    rfl
  refine ⟨m', .single (.of_code (hl ▸ hc) hv he), by rw [hp, hsize], hq⟩

/-- An instruction without an operand. -/
theorem plain (op : Op) (h0 : op.immSize = 0)
    (he : { m with pc := m.pc + op.length }.exec 0 op = some m')
    (hp : m'.pc = m.pc + op.length) (hq : Q m') : Runs L out (emit op.opcode) m Q := by
  refine instruction ?_ (Nat.two_pow_pos _) he hp hq
  rw [link_emit, h0, immBytes, List.append_nil]

/-- An instruction with an operand. -/
theorem operand (op : Op) (v : Nat) (hv : v < 2 ^ (8 * op.immSize))
    (he : { m with pc := m.pc + op.length }.exec v op = some m') (hp : m'.pc = m.pc + op.length)
    (hq : Q m') : Runs L out (emit op.opcode ++ emit (immBytes v op.immSize)) m Q := by
  refine instruction ?_ hv he hp hq
  rw [link_append, link_emit, link_emit]

end Runs

/-! ### Pieces -/

/-- The bits that a cast keeps. -/
def castBits (S : Structs) (t : Ty) : Nat :=
  if t.base.isSome ∨ t.size S = 8 ∨ t.aggregate S = true then 64
  else if t.size S = 1 then 8
  else if t.size S = 2 then 16
  else if t.size S = 4 then 32
  else 64

/-- A cast keeps 64 bits at most. -/
theorem castBits_le (S : Structs) (t : Ty) : castBits S t ≤ 64 := by
  rw [castBits]
  split_ifs <;> decide

/-- What a cast leaves of a value. -/
def castValue (S : Structs) (t : Ty) (v : Word) : Word := (v.setWidth (castBits S t)).setWidth 64

/-- The machine is the same but for `rax` and the flags. -/
structure LeavesRax (m : Machine) (v : Word) (m' : Machine) : Prop where
  rax : m'.reg .rax = v
  regs : ∀ r, r ≠ .rax → m'.reg r = m.reg r
  mem : m'.mem = m.mem
  fs : m'.fs = m.fs

namespace LeavesRax

variable {m m₁ m₂ : Machine} {v w : Word}

theorem refl (m : Machine) : LeavesRax m (m.reg .rax) m := ⟨rfl, fun _ _ => rfl, rfl, rfl⟩

/-- One value after another. -/
theorem trans (h : LeavesRax m v m₁) (h' : LeavesRax m₁ w m₂) : LeavesRax m w m₂ where
  rax := h'.rax
  regs r hr := (h'.regs r hr).trans (h.regs r hr)
  mem := h'.mem.trans h.mem
  fs := h'.fs.trans h.fs

/-- A step that sets `rax` leaves the rest. -/
theorem set {m₀ : Machine} (v : Word) (hr : m₀.reg = m.reg) (hm : m₀.mem = m.mem)
    (hf : m₀.fs = m.fs) :
    LeavesRax m v (m₀.set .rax v) where
  rax := m₀.set_self .rax v
  regs r h := (Machine.set_ne h).trans (congrFun hr r)
  mem := hm
  fs := hf

theorem result {m₀ : Machine} (v : Word) (hr : m₀.reg = m.reg) (hm : m₀.mem = m.mem)
    (hf : m₀.fs = m.fs) : LeavesRax m v (m₀.result v) where
  rax := (set v hr hm hf).rax
  regs := (set v hr hm hf).regs
  mem := hm
  fs := hf

end LeavesRax

section Pieces

variable {L : Layout} {out : Outside} {S : Structs} {t : Ty} {m : Machine} {Q : Machine → Prop}

theorem runs_imm (v : Word) (h : ∀ m', LeavesRax m v m' → Q m') : Runs L out (imm v) m Q := by
  refine .operand .movRaxImm64 v.toNat v.isLt rfl rfl (h _ ?_)
  rw [BitVec.ofNat_toNat, BitVec.setWidth_eq]
  exact .set v rfl rfl rfl

/-- An address of a region. -/
theorem runs_ref (r at_ : Nat)
    (h : ∀ m', LeavesRax m (L.region r + BitVec.ofNat 64 at_) m' → Q m') :
    Runs L out (ref r at_) m Q := by
  generalize hv : L.region r + BitVec.ofNat 64 at_ = v at h
  have hl : link L m.pc (ref r at_) =
      Op.movRaxImm64.opcode ++ immBytes v.toNat Op.movRaxImm64.immSize := by
    rw [ref, link_append, link_emit, link, link, Item.bytes, hv, List.append_nil]
    rfl
  refine .instruction hl v.isLt rfl rfl (h _ ?_)
  rw [BitVec.ofNat_toNat, BitVec.setWidth_eq]
  exact .set v rfl rfl rfl

theorem runs_push (h : ∀ p, Q { m.push (m.reg .rax) with pc := p }) : Runs L out push m Q :=
  .plain .pushRax rfl rfl rfl (h _)

theorem runs_pop10
    (h : ∀ p, Q { (m.set .r10 (m.load 8 (m.reg .rsp))).set .rsp (m.reg .rsp + 8) with pc := p }) :
    Runs L out pop10 m Q :=
  .plain .popR10 rfl rfl rfl (h _)

/-- The four instructions of a cast. -/
theorem castTo_cases (S : Structs) (t : Ty) :
    castTo S t = [] ∧ castBits S t = 64 ∨ castTo S t = emit [0x0f, 0xb6, 0xc0] ∧ castBits S t = 8 ∨
      castTo S t = emit [0x0f, 0xb7, 0xc0] ∧ castBits S t = 16 ∨
      castTo S t = emit [0x89, 0xc0] ∧ castBits S t = 32 := by
  rw [castTo, castBits]
  split_ifs <;> simp

theorem runs_castTo (t : Ty) (h : ∀ m', LeavesRax m (castValue S t (m.reg .rax)) m' → Q m') :
    Runs L out (castTo S t) m Q := by
  rw [castValue] at h
  rcases castTo_cases S t with ⟨hc, hb⟩ | ⟨hc, hb⟩ | ⟨hc, hb⟩ | ⟨hc, hb⟩
  · rw [hb, BitVec.setWidth_eq, BitVec.setWidth_eq] at h
    rw [hc]
    exact .nil (h m (.refl m))
  · rw [hb] at h
    rw [hc]
    exact .plain .movzxEaxAl rfl rfl rfl (h _ (.set _ rfl rfl rfl))
  · rw [hb] at h
    rw [hc]
    exact .plain .movzxEaxAx rfl rfl rfl (h _ (.set _ rfl rfl rfl))
  · rw [hb] at h
    rw [hc]
    exact .plain .movEaxEax rfl rfl rfl (h _ (.set _ rfl rfl rfl))

theorem runs_neg (h : ∀ m', LeavesRax m (-m.reg .rax) m' → Q m') :
    Runs L out (emit [0x48, 0xf7, 0xd8]) m Q :=
  .plain .negRax rfl rfl rfl (h _ (.result _ rfl rfl rfl))

theorem runs_bitnot (h : ∀ m', LeavesRax m (~~~m.reg .rax) m' → Q m') :
    Runs L out (emit [0x48, 0xf7, 0xd0]) m Q :=
  .plain .notRax rfl rfl rfl (h _ (.set _ rfl rfl rfl))

end Pieces

end Efishell.Compiler
