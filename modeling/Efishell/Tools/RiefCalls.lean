import Efishell.Tools.RiefArith

/-!
# Tools — the code of variables and of calls

Where a variable is, and what `gen_call` writes after the arguments were pushed: they are read into
the registers of the convention, the stack is cut back, and the call is made with an aligned stack.
What happens outside is assumed to be what the world says (`Outside.Meets`).

* `runs_addrVar`: the address of a variable.
* `runs_callCode`: the pushed arguments reach the callee in their order.
-/

namespace Efishell.Compiler

open X86

variable {L : Layout} {out : Outside} {W : World} {B : Base W} {S : Structs}
    {ws vs : List Word} {μ μ' : Mem}
  {m : Machine} {p v : Word} {Q : Machine → Prop}

/-! ### Variables -/

/-- The offset of a variable, as the limits of the compiler keep it. -/
def Sym.Fits (s : Sym) : Prop :=
  (s.tls = true → s.offset < 2 ^ 31) ∧
    (s.tls = false → s.global = false → 0 < s.offset ∧ s.offset ≤ 2 ^ 31)

/-- A small negative number keeps its value. -/
theorem sext32_neg {n : Nat} (h₀ : 0 < n) (h : n ≤ 2 ^ 31) :
    sext32 (2 ^ 32 - n) = -BitVec.ofNat 64 n := by
  have hmsb : (BitVec.ofNat 32 (2 ^ 32 - n)).msb = true := by
    rw [BitVec.msb_eq_decide, BitVec.toNat_ofNat, decide_eq_true_iff]
    omega
  have hn : (BitVec.ofNat 64 n).toInt = n := by
    rw [BitVec.toInt_eq_toNat_cond, BitVec.toNat_ofNat]
    split <;> omega
  rw [sext32, ← BitVec.toInt_inj, BitVec.toInt_signExtend_of_le (by decide),
    BitVec.toInt_eq_msb_cond, hmsb,
    if_pos rfl, BitVec.toNat_ofNat, BitVec.toInt_neg, hn, Int.bmod_def]
  split <;> omega

/-- The address of a variable. -/
theorem runs_addrVar {s : Sym} (h : At W B ws μ m) (hregion : L.region = W.region) (hfit : s.Fits)
    (hp : W.Finds μ s p) (hq : ∀ m', LeavesRax m p m' → Q m') : Runs L out (addrVar s) m Q := by
  rw [addrVar]
  rw [World.Finds] at hp
  cases htls : s.tls with
  | true =>
      rw [htls, if_pos rfl] at hp
      obtain ⟨howns, rfl⟩ := hp
      have hcode : emit [0x64, 0x48, 0x8b, 0x04, 0x25, 0, 0, 0, 0] =
          emit Op.movRaxFs.opcode ++ emit (immBytes 0 4) := rfl
      rw [if_pos rfl, hcode, List.append_assoc]
      refine .append (.operand .movRaxFs 0 (by decide) rfl rfl ?_)
      have hlt := hfit.1 htls
      have hload : m.load 8 (m.fs + sext32 0) = BitVec.ofNat 64 (readMem μ 8 W.tls) := by
        rw [Machine.load, h.fs, sext32_small (by decide), BitVec.add_zero, h.readMem_eq howns]
      refine .operand .addRaxImm s.offset (by show _ < 2 ^ 32; omega) rfl rfl (hq _ ?_)
      rw [← hload, ← sext32_small hlt]
      exact (LeavesRax.set _ rfl rfl rfl).trans (.result _ rfl rfl rfl)
  | false =>
      rw [htls, if_neg Bool.false_ne_true] at hp
      rw [if_neg Bool.false_ne_true]
      cases hg : s.global with
      | true =>
          rw [hg, if_pos rfl, ← hregion] at hp
          subst hp
          exact runs_ref 1 s.offset hq
      | false =>
          rw [hg, if_neg Bool.false_ne_true] at hp
          subst hp
          obtain ⟨h₀, hle⟩ := hfit.2 htls hg
          refine .operand .leaRaxRbp (2 ^ 32 - s.offset)
            (by show _ < 2 ^ 32; omega) rfl rfl (hq _ ?_)
          rw [← h.rbp, BitVec.sub_eq_add_neg, ← sext32_neg h₀ hle]
          exact .set _ rfl rfl rfl

/-! ### Arguments -/

/-- The register of an argument. -/
def argument (sys : Bool) (i : Nat) : Reg :=
  if sys && i == 3 then .r10 else [Reg.rdi, .rsi, .rdx, .rcx, .r8, .r9].getD i .rdi

/-- Arguments have registers of their own. -/
theorem argument_inj (sys : Bool) : ∀ i < 6, ∀ j < 6, argument sys i = argument sys j → i = j := by
  cases sys <;> decide

theorem argument_ne (sys : Bool) : ∀ i < 6, argument sys i ≠ .rsp ∧ argument sys i ≠ .rbp ∧
    argument sys i ≠ .rax := by
  cases sys <;> decide

/-- The instruction that loads an argument. -/
theorem loadArg_eq (sys : Bool) (count skip : Nat) : ∀ i < 6, loadArg sys count skip i =
    emit (Op.loadStack (argument sys i)).opcode ++
      emit (immBytes ((count - 1 - (i + skip)) * 8) 4) := by
  have hopcode : ∀ i < 6, [if (sys && i == 3) || 4 ≤ i then 0x4c else 0x48, 0x8b,
      BitVec.ofNat 8 (0x84 ||| (if sys && i == 3 then 2 else argReg i) <<< 3), 0x24] =
        (Op.loadStack (argument sys i)).opcode := by
    cases sys <;> decide
  exact fun i hi => congrArg (emit · ++ _) (hopcode i hi)

/-- A word of the stack is loaded. -/
theorem runs_loadStack (r : Reg) (hr : r ≠ .rsp ∧ r ≠ .rbp) {j : Nat} (h : At W B ws μ m)
    (hj : j < ws.length) (hj' : j < 2 ^ 28) (hq : ∀ m', At W B ws μ m' → m'.reg r = ws[j] →
      (∀ q, q ≠ r → m'.reg q = m.reg q) → Q m') :
    Runs L out (emit (Op.loadStack r).opcode ++ emit (immBytes (j * 8) 4)) m Q := by
  have hload : m.load 8 (m.reg .rsp + sext32 (j * 8)) = ws[j] := by
    rw [sext32_small (by omega), Nat.mul_comm]
    exact h.stack j hj
  refine .operand (.loadStack r) (j * 8) (by show _ < 2 ^ 32; omega) rfl rfl (hq _ ?_ ?_ ?_)
  · exact h.keeps ⟨Machine.set_ne hr.1.symm, Machine.set_ne hr.2.symm, rfl, rfl⟩
  · exact (Machine.set_self _ _ _).trans hload
  · exact fun q hne => Machine.set_ne hne

/-- The arguments from `skip` on are read into their registers. -/
theorem runs_loadArgs (sys : Bool) {skip : Nat} (h : At W B (vs.reverse ++ ws) μ m)
    (hlen : vs.length < 2 ^ 28) :
    ∀ n, n ≤ 6 → n + skip ≤ vs.length →
      (∀ m', At W B (vs.reverse ++ ws) μ m' →
        (∀ j (hj : j + skip < vs.length), j < n → m'.reg (argument sys j) = vs[j + skip]) → Q m') →
      Runs L out ((List.range n).flatMap (loadArg sys vs.length skip)) m Q := by
  intro n
  induction n generalizing Q with
  | zero => exact fun _ _ hq => .nil (hq m h fun _ _ hj => absurd hj (Nat.not_lt_zero _))
  | succ n ih =>
      intro hn hskip hq
      rw [List.range_succ, List.flatMap_append, List.flatMap_singleton]
      refine .append (ih (by omega) (by omega) fun m₁ h₁ hregs => ?_)
      rw [loadArg_eq sys _ _ n (by omega)]
      refine runs_loadStack _
        ⟨(argument_ne sys n (by omega)).1, (argument_ne sys n (by omega)).2.1⟩ h₁
        (by rw [List.length_append, List.length_reverse]; omega) (by omega)
          fun m₂ h₂ hval hrest => ?_
      refine hq m₂ h₂ fun j hj hjn => ?_
      by_cases heq : j = n
      · subst heq
        rw [hval, List.getElem_append_left (by rw [List.length_reverse]; omega),
          List.getElem_reverse]
        congr 1
        omega
      · rw [hrest _ fun h => heq (argument_inj sys j (by omega) n (by omega) h),
          hregs j hj (by omega)]

/-- The arguments are dropped. -/
theorem runs_adjust (h : At W B (vs ++ ws) μ m) (hlen : vs.length < 2 ^ 28)
    (hq : ∀ m', At W B ws μ m' → (∀ r, r ≠ .rsp → m'.reg r = m.reg r) → Q m') :
    Runs L out (adjust (vs.length * 8)) m Q := by
  rw [adjust]
  split
  · next h0 =>
      obtain rfl : vs = [] := List.length_eq_zero_iff.mp (by omega)
      exact .nil (hq m h fun _ _ => rfl)
  · have hrsp : (m.set .rsp (m.reg .rsp + sext32 (vs.length * 8))).reg .rsp =
        m.reg .rsp + BitVec.ofNat 64 (8 * vs.length) := by
      rw [Machine.set_self, sext32_small (by omega), Nat.mul_comm]
    have hrest : ∀ r, r ≠ .rsp →
        (m.set .rsp (m.reg .rsp + sext32 (vs.length * 8))).reg r = m.reg r :=
      fun r hr => Machine.set_ne hr
    refine .operand .addRspImm (vs.length * 8) (by show _ < 2 ^ 32; omega) rfl rfl (hq _ ?_ hrest)
    exact h.drop vs hrsp (hrest .rbp (by decide)) rfl rfl

/-! ### Calls -/

/-- The functions and the system do what the world says, on a machine that shows the memory: `room`
is what a function needs of the stack. -/
structure Meets (out : Outside) (W : World) (L : Layout) (room : Nat → Nat) : Prop where
  region : L.region = W.region
  entry : ∀ i, L.entry i < 2 ^ 31
  call : ∀ {i vs μ v μ'} {B : Base W} {ws m}, W.call i vs μ v μ' → At W B ws μ m →
    ws.length % 2 = 0 →
    B.low + 8 * ws.length + room i ≤ B.top →
      (∀ j (h : j < vs.length), m.reg (argument false j) = vs[j]) →
      m.pc ≤ 2 ^ 31 →
      ∃ m', out.call (L.entry i) m m' ∧ m'.pc = m.pc ∧ At W B ws μ' m' ∧ m'.reg .rax = v
  syscall : ∀ {n vs μ v μ'} {B : Base W} {ws m}, W.syscall (n :: vs) μ v μ' → At W B ws μ m →
    m.reg .rax = n → (∀ j (h : j < vs.length), m.reg (argument true j) = vs[j]) →
      ∃ m', out.syscall m m' ∧ m'.pc = m.pc ∧ At W B ws μ' m' ∧ m'.reg .rax = v

/-- A system call does what the outside says. -/
theorem runs_syscall {m' : Machine} (hs : out.syscall { m with pc := m.pc + 2 } m')
    (hp : m'.pc = m.pc + 2) (hq : Q m') : Runs L out (emit [0x0f, 0x05]) m Q := by
  intro code hc
  rw [link_emit] at hc
  have hd : decode (fun i => code (m.pc + i)) = some (.syscall, 0) := decode_eq hc (by decide)
  exact ⟨m', .single (.syscall hd hs), hp, hq⟩

/-- A call of the code of function `i`. -/
theorem runs_call {i : Nat} {m' : Machine} (hentry : L.entry i < 2 ^ 31) (hpc : m.pc + 5 ≤ 2 ^ 31)
    (hs : out.call (L.entry i) { m with pc := m.pc + 5 } m') (hp : m'.pc = m.pc + 5) (hq : Q m') :
    Runs L out (emit [0xe8] ++ [.callee i]) m Q := by
  intro code hc
  have hlink : link L m.pc (emit [0xe8] ++ [.callee i]) =
      Op.call.opcode ++ immBytes (BitVec.ofInt 32 ((L.entry i : Int) - (m.pc + 1) - 4)).toNat 4 :=
        rfl
  rw [hlink] at hc
  have hd := decode_eq hc (BitVec.isLt _)
  refine ⟨m', .single (.call hd ?_), hp, hq⟩
  have htarget : ({ m with pc := m.pc + Op.call.length }.jump
      (BitVec.ofInt 32 ((L.entry i : Int) - (m.pc + 1) - 4)).toNat).pc = L.entry i := by
    show ((m.pc + 5 : Int) + (BitVec.ofNat 32 _).toInt).toNat = _
    rw [BitVec.ofNat_toNat, BitVec.setWidth_eq, BitVec.toInt_ofInt, Int.bmod_def]
    split <;> omega
  rw [htarget]
  exact hs

/-- How many arguments a call has room for. -/
def Callee.Fits : Callee → Nat → Prop
  | .syscall, n => 1 ≤ n ∧ n ≤ 7
  | _, n => n ≤ 6

/-- What a call needs of the stack. -/
def Callee.room (room : Nat → Nat) : Callee → Nat
  | .function i => 8 + room i
  | _ => 0

/-- The stack is moved by one word. -/
theorem runs_pad (h : At W B ws μ m) (hroom : B.low + 8 * (ws.length + 1) ≤ B.top)
    (hq : ∀ m' w, At W B (w :: ws) μ m' → (∀ r, r ≠ .rsp → m'.reg r = m.reg r) → Q m') :
    Runs L out (emit [0x48, 0x83, 0xec, 8]) m Q := by
  have hcode : emit [0x48, 0x83, 0xec, 8] = emit Op.subRspImm8.opcode ++ emit (immBytes 8 1) := rfl
  have hrsp : (m.set .rsp (m.reg .rsp - 8)).reg .rsp = m.reg .rsp - 8 := Machine.set_self _ _ _
  have hrest : ∀ r, r ≠ .rsp → (m.set .rsp (m.reg .rsp - 8)).reg r = m.reg r :=
    fun r hr => Machine.set_ne hr
  rw [hcode]
  refine .operand .subRspImm8 8 (by decide) rfl rfl (hq _ (m.load 8 (m.reg .rsp - 8)) ?_ hrest)
  exact h.grow hroom hrsp (hrest .rbp (by decide)) rfl rfl fun _ _ => rfl

/-- **Calls.**  The pushed arguments reach the callee in their order, and the stack is as before. -/
theorem runs_callCode {room : Nat → Nat} {func : Callee} (hm : Meets out W L room)
    (h : At W B (vs.reverse ++ ws) μ m) (hfit : func.Fits vs.length)
    (hroom : B.low + 8 * ws.length + func.room room ≤ B.top) (hc : W.Calls func vs μ v μ')
    (hpc : m.pc + size (callCode ws.length func vs.length) ≤ 2 ^ 31)
    (hq : ∀ m', At W B ws μ' m' → m'.reg .rax = v → Q m') :
    Runs L out (callCode ws.length func vs.length) m Q := by
  have hcut : ∀ {m₁ : Machine} {R : Machine → Prop}, At W B (vs.reverse ++ ws) μ m₁ →
      vs.length < 2 ^ 28 →
      (∀ m', At W B ws μ m' → (∀ r, r ≠ .rsp → m'.reg r = m₁.reg r) → R m') →
      Runs L out (adjust (vs.length * 8)) m₁ R := fun h₁ hlen hr => by
    have hrev : vs.reverse.length = vs.length := List.length_reverse
    rw [← hrev] at hlen ⊢
    exact runs_adjust h₁ hlen hr
  have hsys : ∀ {n : Word} {vs : List Word} {m₁ : Machine}, W.syscall (n :: vs) μ v μ' →
      At W B ws μ m₁ →
      m₁.reg .rax = n → (∀ j (hj : j < vs.length), m₁.reg (argument true j) = vs[j]) →
      Runs L out (emit [0x0f, 0x05]) m₁ Q := fun {n vs m₁} hw h₁ hn hregs => by
    obtain ⟨m', hs, hp, hat, hv⟩ := hm.syscall hw
      (h₁.keeps ⟨rfl, rfl, rfl, rfl⟩ : At W B ws μ { m₁ with pc := m₁.pc + 2 }) hn hregs
    exact runs_syscall hs hp (hq m' hat hv)
  cases func with
  | syscall =>
      obtain ⟨hone, hseven⟩ := hfit
      obtain ⟨n, vs, rfl⟩ := List.exists_cons_of_length_pos hone
      have hcode : callCode ws.length .syscall (n :: vs).length =
          (List.range vs.length).flatMap (loadArg true (n :: vs).length 1) ++
            ((emit (Op.loadStack .rax).opcode ++ emit (immBytes (vs.length * 8) 4)) ++
              (adjust ((n :: vs).length * 8) ++ emit [0x0f, 0x05])) := by
        rw [callCode, List.append_assoc, List.append_assoc, List.append_assoc,
          ← List.append_assoc (emit _)]
        rfl
      rw [List.length_cons] at hseven
      have hlast : vs.length < ((n :: vs).reverse ++ ws).length := by
        rw [List.length_append, List.length_reverse, List.length_cons]
        omega
      have hword : ((n :: vs).reverse ++ ws)[vs.length] = n := by
        rw [List.getElem_append_left (by simp), List.getElem_reverse]
        simp
      rw [hcode]
      refine .append
        (runs_loadArgs true h (by simp; omega) _ (by omega) (by simp) fun m₁ h₁ hregs => ?_)
      refine .append
        (runs_loadStack .rax ⟨by decide, by decide⟩ h₁ hlast (by omega) fun m₂ h₂ hn hrest => ?_)
      refine .append (hcut h₂ (by simp; omega) fun m₃ h₃ hrest' => ?_)
      refine hsys hc h₃ ((hrest' _ (by decide)).trans (hn.trans hword)) fun j hj => ?_
      have hne := argument_ne true j (by omega)
      rw [hrest' _ hne.1, hrest _ hne.2.2, hregs j (by simp; omega) hj, List.getElem_cons_succ]
  | builtin nr =>
      have hsix : vs.length ≤ 6 := hfit
      rw [callCode, List.append_assoc, List.append_assoc]
      refine .append (runs_loadArgs true h (by omega) _ hsix (by omega) fun m₁ h₁ hregs => ?_)
      refine .append (runs_imm _ fun m₂ h₂ =>
        .append (hcut (h₁.keeps h₂.keeps) (by omega) fun m₃ h₃ hrest => ?_))
      refine hsys hc h₃ ((hrest _ (by decide)).trans h₂.rax) fun j hj => ?_
      have hne := argument_ne true j (by omega)
      rw [hrest _ hne.1, h₂.regs _ hne.2.2, hregs j hj hj]
      rfl
  | function i =>
      have hsix : vs.length ≤ 6 := hfit
      -- the call itself, on whatever is on the stack by then
      have hcall : ∀ {ws' : List Word} {m₁ : Machine} {R : Machine → Prop}, At W B ws' μ m₁ →
          ws'.length % 2 = 0 →
          B.low + 8 * ws'.length + room i ≤ B.top →
          (∀ j (hj : j < vs.length), m₁.reg (argument false j) = vs[j]) → m₁.pc + 5 ≤ 2 ^ 31 →
          (∀ m', At W B ws' μ' m' → m'.reg .rax = v → R m') →
          Runs L out (emit [0xe8] ++ [.callee i]) m₁ R :=
            fun {ws' m₁ R} h₁ heven hr hregs hpc' hR => by
        obtain ⟨m', hs, hp, hat, hv⟩ := hm.call hc
          (h₁.keeps ⟨rfl, rfl, rfl, rfl⟩ : At W B ws' μ { m₁ with pc := m₁.pc + 5 })
            heven hr hregs hpc'
        exact runs_call (hm.entry i) hpc' hs hp (hR m' hat hv)
      have hroom' : B.low + 8 * ws.length + (8 + room i) ≤ B.top := hroom
      have hfive : size (emit [0xe8]) + size [.callee i] = 5 := rfl
      rw [callCode] at hpc ⊢
      rw [List.append_assoc _ (emit [0xe8])] at hpc ⊢
      simp only [size_append] at hpc
      by_cases hpad : ws.length % 2 = 1
      · rw [if_pos hpad, if_pos hpad] at hpc ⊢
        refine .append
          (.append_pc (.append (.append (runs_loadArgs false h (by omega) _ hsix (by omega)
          fun m₁ h₁ hregs => hcut h₁ (by omega) fun m₂ h₂ hrest => ?_))))
        refine runs_pad h₂ (by omega) fun m₃ w h₃ hrest' hp => ?_
        simp only [size_append] at hp
        refine hcall h₃ (by rw [List.length_cons]; omega) (by rw [List.length_cons]; omega)
          (fun j hj => ?_)
          (by omega) fun m₄ h₄ hv => ?_
        · have hne := (argument_ne false j (by omega)).1
          rw [hrest' _ hne, hrest _ hne, hregs j hj hj]
          rfl
        · exact runs_adjust (show At W B ([w] ++ ws) μ' m₄ from h₄)
            (by rw [List.length_singleton]; decide) fun m₅ h₅ hrest₅ =>
            hq m₅ h₅ ((hrest₅ _ (by decide)).trans hv)
      · rw [if_neg hpad, if_neg hpad] at hpc ⊢
        refine .append
          (.append_pc (.append (.append (runs_loadArgs false h (by omega) _ hsix (by omega)
          fun m₁ h₁ hregs => hcut h₁ (by omega) fun m₂ h₂ hrest => .nil fun hp => ?_))))
        simp only [size_append] at hp
        refine hcall h₂ (by omega) (by omega) (fun j hj => ?_) (by omega) fun m₄ h₄ hv =>
          .nil (hq m₄ h₄ hv)
        have hne := (argument_ne false j (by omega)).1
        rw [hrest _ hne, hregs j hj hj]
        rfl

end Efishell.Compiler
