import Efishell.Tools.RiefState
import Efishell.Tools.X86Arith

/-!
# Tools — the code of the operators

What `arithmetic` writes computes `arith`: the left operand is in `r10` and the right one in `rax`,
and only registers that no pending operation uses are touched.

* `runs_arithmetic`: the code of an operator computes its value, when there is one.
-/

namespace Efishell.Compiler

open X86

variable {L : Layout} {out : Outside} {S : Structs} {m : Machine} {x y v : Word}
    {left right : Ty} {op : BinOp}
  {Q : Machine → Prop}

/-- A small number keeps its value. -/
theorem sext32_small {n : Nat} (h : n < 2 ^ 31) : sext32 n = BitVec.ofNat 64 n := by
  have hmsb : (BitVec.ofNat 32 n).msb = false := by
    rw [BitVec.msb_eq_decide, BitVec.toNat_ofNat, decide_eq_false_iff_not]
    omega
  rw [sext32, BitVec.signExtend_eq_setWidth_of_msb_false hmsb, ← BitVec.toNat_inj,
    BitVec.toNat_setWidth, BitVec.toNat_ofNat, BitVec.toNat_ofNat]
  omega

/-- A comparison of `x` with `y`: a condition, as a number. -/
theorem runs_compare (c : Cond) (h10 : m.reg .r10 = x) (hax : m.reg .rax = y)
    (hq : ∀ m', Keeps m m' → m'.reg .rax = truth (c.holds (.cmp x y)) → Q m') :
    Runs L out (emit ([0x49, 0x39, 0xc2] ++ ([0x0f, BitVec.ofNat 8 (0x90 + c.number), 0xc0] ++
      [0x0f, 0xb6, 0xc0]))) m Q := by
  subst h10 hax
  rw [emit, List.map_append, List.map_append]
  refine .append (.plain .cmpR10Rax rfl rfl rfl (.append (.plain (.setcc c) rfl rfl rfl ?_)))
  exact .plain .movzxEaxAl rfl rfl rfl (hq _ ⟨rfl, rfl, rfl, rfl⟩ (setWidth_setcc _ _))

/-- The value of `rax` is made a truth value, or turned into its opposite. -/
theorem runs_test (c : Cond)
    (h : ∀ m', Keeps m m' → m'.reg .rax = truth (c.holds (.test (m.reg .rax))) → Q m') :
    Runs L out (emit ([0x48, 0x85, 0xc0] ++ ([0x0f, BitVec.ofNat 8 (0x90 + c.number), 0xc0] ++
      [0x0f, 0xb6, 0xc0]))) m Q := by
  rw [emit, List.map_append, List.map_append]
  refine .append (.plain .testRaxRax rfl rfl rfl (.append (.plain (.setcc c) rfl rfl rfl ?_)))
  exact .plain .movzxEaxAl rfl rfl rfl (h _ ⟨rfl, rfl, rfl, rfl⟩ (setWidth_setcc _ _))

/-- `x` is divided by `y`. -/
theorem runs_divide (uns : Bool) (h10 : m.reg .r10 = x) (hax : m.reg .rax = y) (hy : y ≠ 0)
    (ho : uns = false → x ≠ BitVec.intMin 64 ∨ y ≠ -1)
    (hq : ∀ m', Keeps m m' → m'.reg .rax = (if uns then x / y else x.sdiv y) →
      m'.reg .rdx = (if uns then x % y else x.srem y) → Q m') :
    Runs L out (emit [0x49, 0x89, 0xc3, 0x4c, 0x89, 0xd0] ++
      (if uns then emit [0x31, 0xd2, 0x49, 0xf7, 0xf3] else emit [0x48, 0x99, 0x49, 0xf7, 0xfb]))
        m Q := by
  subst h10 hax
  have hsplit : emit [0x49, 0x89, 0xc3, 0x4c, 0x89, 0xd0] =
      emit Op.movR11Rax.opcode ++ emit Op.movRaxR10.opcode := rfl
  rw [hsplit, List.append_assoc]
  refine .append (.plain .movR11Rax rfl rfl rfl (.append (.plain .movRaxR10 rfl rfl rfl ?_)))
  cases uns with
  | true =>
      have hcode : (if true = true then emit [0x31, 0xd2, 0x49, 0xf7, 0xf3]
          else emit [0x48, 0x99, 0x49, 0xf7, 0xfb]) = emit Op.xorEdxEdx.opcode ++
            emit Op.divR11.opcode := rfl
      rw [hcode]
      refine .append (.plain .xorEdxEdx rfl rfl rfl ?_)
      refine .plain .divR11 rfl (Machine.div_eq rfl hy) rfl ?_
      exact hq _ ⟨rfl, rfl, rfl, rfl⟩ rfl rfl
  | false =>
      have hcode : (if false = true then emit [0x31, 0xd2, 0x49, 0xf7, 0xf3]
          else emit [0x48, 0x99, 0x49, 0xf7, 0xfb]) = emit Op.cqo.opcode ++
            emit Op.idivR11.opcode := rfl
      rw [hcode]
      refine .append (.plain .cqo rfl rfl rfl ?_)
      refine .plain .idivR11 rfl (Machine.idiv_eq rfl hy (ho rfl)) rfl ?_
      exact hq _ ⟨rfl, rfl, rfl, rfl⟩ rfl rfl

/-- The condition that a comparison asks. -/
def condition (op : BinOp) (uns : Bool) : Cond :=
  match op with
  | .lt => if uns then .b else .l
  | .le => if uns then .be else .le
  | .gt => if uns then .a else .g
  | .ge => if uns then .ae else .ge
  | .eq => .e
  | _ => .ne

/-- The opcode of a comparison has its condition's number. -/
theorem compareCode_eq (op : BinOp) (uns : Bool) :
    compareCode op uns = BitVec.ofNat 8 (0x90 + (condition op uns).number) := by
  cases op <;> cases uns <;> rfl

/-- The right operand of an addition to a pointer becomes a distance. -/
theorem runs_scale (hfit : ∀ b, left.base = some b → b.size S < 2 ^ 31)
    (hq : ∀ m', LeavesRax m (if (op = .add ∨ op = .sub) ∧ right.base.isSome = false then
      m.reg .rax * BitVec.ofNat 64 (left.stride S) else m.reg .rax) m' → Q m') :
    Runs L out (match left.base, right.base with
      | some b, none =>
        if op = .add ∨ op = .sub then emit [0x48, 0x69, 0xc0] ++ u32 (b.size S) else []
      | _, _ => []) m Q := by
  have hnone : left.base = none → m.reg .rax * BitVec.ofNat 64 (left.stride S) = m.reg .rax := by
    intro h
    rw [Ty.stride, h]
    exact BitVec.mul_one _
  cases hr : right.base with
  | some c =>
      rw [hr, if_neg fun h => Bool.noConfusion h.2] at hq
      cases hl : left.base with
      | none => exact .nil (hq _ (.refl m))
      | some b => exact .nil (hq _ (.refl m))
  | none =>
      rw [hr] at hq
      cases hl : left.base with
      | none =>
          rw [hnone hl, ite_self] at hq
          exact .nil (hq _ (.refl m))
      | some b =>
          dsimp only
          by_cases hop : op = .add ∨ op = .sub
          · rw [if_pos ⟨hop, rfl⟩] at hq
            rw [if_pos hop]
            have hb := hfit b hl
            refine .operand .imulRaxImm (b.size S) (by show _ < 2 ^ 32; omega) rfl rfl (hq _ ?_)
            have :
                m.reg .rax * BitVec.ofNat 64 (left.stride S) = m.reg .rax * sext32 (b.size S) := by
              rw [Ty.stride, hl, sext32_small hb]
            rw [this]
            exact .result _ rfl rfl rfl
          · rw [if_neg fun h => hop h.1] at hq
            rw [if_neg hop]
            exact .nil (hq _ (.refl m))

/-- The condition chosen is the operator's comparison. -/
theorem condition_holds (op : BinOp) (uns : Bool) (x y : Word) :
    (condition op uns).holds (.cmp x y) =
    match op with
    | .lt => if uns then x.ult y else x.slt y
    | .le => if uns then x.ule y else x.sle y
    | .gt => if uns then y.ult x else y.slt x
    | .ge => if uns then y.ule x else y.sle x
    | .eq => x == y
    | _ => x != y := by
  cases uns with
  | true =>
      cases op with
      | lt => exact Cond.holds_b x y
      | le => exact Cond.holds_be x y
      | gt => exact Cond.holds_a x y
      | ge => exact Cond.holds_ae x y
      | _ => rfl
  | false =>
      cases op with
      | lt => exact Cond.holds_l x y
      | le => exact Cond.holds_le x y
      | gt => exact Cond.holds_g x y
      | ge => exact Cond.holds_ge x y
      | _ => rfl

/-- **The operators.**  The code computes the value, when there is one. -/
theorem runs_arithmetic (h10 : m.reg .r10 = x) (hax : m.reg .rax = y)
    (hfit : ∀ b, left.decay.base = some b → b.size S < 2 ^ 31)
    (hv : arith S op left right x y = some v)
    (hq : ∀ m', Keeps m m' → m'.reg .rax = v → Q m') :
    Runs L out (arithmetic S op left right) m Q := by
  rw [arithmetic.eq_def]
  dsimp only
  refine .append (runs_scale hfit fun m₁ h₁ => ?_)
  have h10' : m₁.reg .r10 = x := (h₁.regs .r10 (by decide)).trans h10
  have hax' := h₁.rax
  rw [hax] at hax'
  replace hq : ∀ m', Keeps m₁ m' → m'.reg .rax = v → Q m' := fun m' hk => hq m' (h₁.keeps.trans hk)
  -- what is in `rax` after the scaling: the operand itself but for `+` and `-` on pointers
  have hplain : ¬ (op = .add ∨ op = .sub) → m₁.reg .rax = y := fun h => by
    rw [hax', if_neg fun h' => h h'.1]
  have helements : op = .add ∨ op = .sub → m₁.reg .rax =
      if right.decay.base.isSome then y else y * BitVec.ofNat 64 (left.decay.stride S) := by
    intro h
    rw [hax']
    cases right.decay.base with
    | none => exact if_pos ⟨h, rfl⟩
    | some c => exact if_neg fun h' => Bool.noConfusion h'.2
  have hcompare : ∀ c : Cond, m₁.reg .rax = y → truth (c.holds (.cmp x y)) = v →
      Runs L out (emit ([0x49, 0x39, 0xc2] ++ ([0x0f, BitVec.ofNat 8 (0x90 + c.number), 0xc0] ++
        [0x0f, 0xb6, 0xc0]))) m₁ Q := fun c hy hc =>
    runs_compare c h10' hy fun m' hk hr => hq m' hk (hr.trans hc)
  rw [arith.eq_def] at hv
  dsimp only at hv
  cases op with
  | add =>
      cases hv
      refine .plain .addRaxR10 rfl rfl rfl (hq _ ⟨rfl, rfl, rfl, rfl⟩ ?_)
      show m₁.reg .rax + m₁.reg .r10 = _
      rw [helements (.inl rfl), h10', BitVec.add_comm]
  | sub =>
      have hsplit : emit [0x49, 0x29, 0xc2, 0x4c, 0x89, 0xd0] =
          emit Op.subR10Rax.opcode ++ emit Op.movRaxR10.opcode := rfl
      dsimp only at hv ⊢
      rw [hsplit, List.append_assoc]
      refine .append (.plain .subR10Rax rfl rfl rfl (.append (.plain .movRaxR10 rfl rfl rfl ?_)))
      have hdiff : m₁.reg .r10 - m₁.reg .rax =
          x - if right.decay.base.isSome then y else y * BitVec.ofNat 64 (left.decay.stride S) := by
        rw [h10', helements (.inr rfl)]
      -- the difference of two pointers is divided by the size of an element
      cases hl : left.decay.base with
      | none =>
          rw [hl, if_neg fun h => Bool.noConfusion h.1] at hv
          cases hv
          exact .nil (hq _ ⟨rfl, rfl, rfl, rfl⟩ hdiff)
      | some b =>
          cases hr : right.decay.base with
          | none =>
              rw [hr, if_neg fun h => Bool.noConfusion h.2] at hv
              rw [hr] at hdiff
              cases hv
              exact .nil (hq _ ⟨rfl, rfl, rfl, rfl⟩ hdiff)
          | some c =>
              rw [hl, hr, if_pos ⟨rfl, rfl⟩] at hv
              rw [hr, if_pos (show (some c).isSome = true from rfl)] at hdiff
              have hb := hfit b hl
              have hstride : left.decay.stride S = b.size S := by rw [Ty.stride, hl]
              rw [hstride, ← sext32_small hb, quotient] at hv
              split at hv
              · cases hv
              · next hd =>
                  cases hv
                  rw [not_or, ← hdiff] at hd
                  rw [← hdiff] at hq
                  have hcode : emit [0x48, 0x99, 0x49, 0xc7, 0xc3] ++ u32 (b.size S) ++
                      emit [0x49, 0xf7, 0xfb] =
                      emit Op.cqo.opcode ++
                        (emit Op.movR11Imm.opcode ++ emit (immBytes (b.size S) 4) ++
                        emit Op.idivR11.opcode) := by
                    simp [emit, u32, Op.opcode]
                  show Runs L out (emit [0x48, 0x99, 0x49, 0xc7, 0xc3] ++ u32 (b.size S) ++
                    emit [0x49, 0xf7, 0xfb]) _ Q
                  rw [hcode]
                  refine .append (.plain .cqo rfl rfl rfl (.append ?_))
                  refine .operand .movR11Imm (b.size S) (by show _ < 2 ^ 32; omega) rfl rfl ?_
                  refine .plain .idivR11 rfl (Machine.idiv_eq rfl hd.1 ?_) rfl ?_
                  · exact not_and_or.mp fun h => hd.2 ⟨rfl, h⟩
                  · exact hq _ ⟨rfl, rfl, rfl, rfl⟩ rfl
  | mul =>
      cases hv
      refine .plain .imulRaxR10 rfl rfl rfl (hq _ ⟨rfl, rfl, rfl, rfl⟩ ?_)
      show m₁.reg .rax * m₁.reg .r10 = _
      rw [hplain (by simp), h10', BitVec.mul_comm]
  | div =>
      dsimp only at hv ⊢
      rw [quotient] at hv
      split at hv
      · cases hv
      · next hd =>
          cases hv
          rw [if_neg (show ¬ BinOp.div = .mod by decide), List.append_nil]
          rw [not_or] at hd
          exact runs_divide _ h10' (hplain (by simp)) hd.1
            (fun hu => not_and_or.mp fun h => hd.2 ⟨hu, h⟩) fun m' hk hr _ => hq m' hk hr
  | mod =>
      dsimp only at hv ⊢
      rw [remainder] at hv
      split at hv
      · cases hv
      · next hd =>
          cases hv
          rw [if_pos (show BinOp.mod = .mod from rfl)]
          rw [not_or] at hd
          refine .append (runs_divide _ h10' (hplain (by simp)) hd.1
            (fun hu => not_and_or.mp fun h => hd.2 ⟨hu, h⟩) fun m' hk _ hr => ?_)
          exact .plain .movRaxRdx rfl rfl rfl (hq _ (hk.trans ⟨rfl, rfl, rfl, rfl⟩) hr)
  | shl =>
      cases hv
      refine .append (.append (.plain .movRcxRax rfl rfl rfl (.plain .movRaxR10 rfl rfl rfl ?_)))
      refine .plain .shlRaxCl rfl rfl rfl (hq _ ⟨rfl, rfl, rfl, rfl⟩ ?_)
      show m₁.reg .r10 <<< ((m₁.reg .rax).toNat % 64) = _
      rw [hplain (by simp), h10']
  | shr =>
      dsimp only at hv
      refine .append (.append (.plain .movRcxRax rfl rfl rfl (.plain .movRaxR10 rfl rfl rfl ?_)))
      have hy : m₁.reg .rax = y := hplain (by simp)
      -- the shift has a sign unless an operand is an unsigned word
      cases hu : unsigned S left right with
      | true =>
          rw [hu] at hv
          cases hv
          rw [show (left.decay.uns && left.decay.size S == 8 || right.decay.uns &&
            right.decay.size S == 8) = true
            from hu]
          refine .plain .shrRaxCl rfl rfl rfl (hq _ ⟨rfl, rfl, rfl, rfl⟩ ?_)
          show m₁.reg .r10 >>> ((m₁.reg .rax).toNat % 64) = _
          rw [hy, h10']
          rfl
      | false =>
          rw [hu] at hv
          cases hv
          rw [show (left.decay.uns && left.decay.size S == 8 || right.decay.uns &&
            right.decay.size S == 8) = false
            from hu]
          refine .plain .sarRaxCl rfl rfl rfl (hq _ ⟨rfl, rfl, rfl, rfl⟩ ?_)
          show (m₁.reg .r10).sshiftRight ((m₁.reg .rax).toNat % 64) = _
          rw [hy, h10']
          rfl
  | band =>
      cases hv
      refine .plain .andRaxR10 rfl rfl rfl (hq _ ⟨rfl, rfl, rfl, rfl⟩ ?_)
      show m₁.reg .rax &&& m₁.reg .r10 = _
      rw [hplain (by simp), h10', BitVec.and_comm]
  | bor =>
      cases hv
      refine .plain .orRaxR10 rfl rfl rfl (hq _ ⟨rfl, rfl, rfl, rfl⟩ ?_)
      show m₁.reg .rax ||| m₁.reg .r10 = _
      rw [hplain (by simp), h10', BitVec.or_comm]
  | bxor =>
      cases hv
      refine .plain .xorRaxR10 rfl rfl rfl (hq _ ⟨rfl, rfl, rfl, rfl⟩ ?_)
      show m₁.reg .rax ^^^ m₁.reg .r10 = _
      rw [hplain (by simp), h10', BitVec.xor_comm]
  | lt =>
      dsimp only
      rw [compareCode_eq]
      exact hcompare _ (hplain (by simp)) (Option.some_inj.mp (by rw [← hv, condition_holds]; rfl))
  | le =>
      dsimp only
      rw [compareCode_eq]
      exact hcompare _ (hplain (by simp)) (Option.some_inj.mp (by rw [← hv, condition_holds]; rfl))
  | gt =>
      dsimp only
      rw [compareCode_eq]
      exact hcompare _ (hplain (by simp)) (Option.some_inj.mp (by rw [← hv, condition_holds]; rfl))
  | ge =>
      dsimp only
      rw [compareCode_eq]
      exact hcompare _ (hplain (by simp)) (Option.some_inj.mp (by rw [← hv, condition_holds]; rfl))
  | eq =>
      dsimp only
      rw [compareCode_eq]
      exact hcompare _ (hplain (by simp)) (Option.some_inj.mp (by rw [← hv, condition_holds]))
  | ne =>
      dsimp only
      rw [compareCode_eq]
      exact hcompare _ (hplain (by simp)) (Option.some_inj.mp (by rw [← hv, condition_holds]))
  | land | lor => cases hv

end Efishell.Compiler
