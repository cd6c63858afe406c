import Efishell.Tools.RiefRun

/-!
# Tools — initialisers and the code for them

A global is initialised with the value that `constant` computes; an assignment of the same
expression runs the code that `gen` writes.  The two agree on literals and operators, but `constant`
does not cut a value where a cast does: they store the same bytes exactly when no cast that matters
cuts anything (`CastsFit`).

* `initGlobal_agrees_iff`: exactly when an initialiser and an assignment store the same bytes.
-/

namespace Efishell.Compiler

open X86

/-- The expressions that `constant` takes. -/
inductive Literal : Node → Prop where
  | num (v : Word) : Literal (.num v)
  | neg {a : Node} : Literal a → Literal (.neg a)
  | bitnot {a : Node} : Literal a → Literal (.bitnot a)
  | cast (t : Ty) {a : Node} : Literal a → Literal (.cast t a)

/-- The value at run time. -/
def runValue (S : Structs) : Node → Word
  | .num v => v
  | .neg a => -runValue S a
  | .bitnot a => ~~~runValue S a
  | .cast t a => castValue S t (runValue S a)
  | _ => 0

/-- The value of an expression as an integer, casts left out. -/
def exact : Node → Int
  | .num v => v.toNat
  | .neg a => -exact a
  | .bitnot a => -exact a - 1
  | .cast _ a => exact a
  | _ => 0

/-- Of the `bits` low bits of the value no cast takes any away: a cast that keeps fewer bits than
all that is done with its result is applied to a value that fits. -/
def CastsFit (S : Structs) : Nat → Node → Prop
  | bits, .neg a | bits, .bitnot a => CastsFit S bits a
  | bits, .cast t a =>
      if castBits S t < bits then
        exact a % 2 ^ bits < 2 ^ castBits S t ∧ CastsFit S (castBits S t) a
      else CastsFit S bits a
  | _, _ => True

/-- A mapped result comes from one. -/
theorem map_ok {ε α β : Type} {f : α → β} {x : Except ε α} {b : β} (h : x.map f = .ok b) :
    ∃ a, x = .ok a ∧ f a = b := by
  cases x with
  | error e => cases h
  | ok a => exact ⟨a, rfl, Except.ok.inj h⟩

/-- The complement of an integer. -/
theorem ofInt_not (w : Nat) (i : Int) : BitVec.ofInt w (-i - 1) = ~~~BitVec.ofInt w i := by
  rw [BitVec.not_eq_neg_add, ← BitVec.ofInt_neg, Int.sub_eq_add_neg, BitVec.ofInt_add,
    BitVec.sub_eq_add_neg, BitVec.ofInt_neg (n := 1)]
  rfl

/-- `constant` computes the value modulo `2 ^ 64`. -/
theorem literal_of_constant : ∀ {e : Node} {v : Word}, constant e = .ok v →
    Literal e ∧ v = BitVec.ofInt 64 (exact e)
  | .num v, w, h => by
      cases h
      exact ⟨.num v, by simp [exact]⟩
  | .neg a, w, h => by
      obtain ⟨v, hv, rfl⟩ := map_ok (show (constant a).map (0 - ·) = .ok w from h)
      obtain ⟨hl, rfl⟩ := literal_of_constant hv
      exact ⟨hl.neg, by rw [exact, BitVec.ofInt_neg]; exact BitVec.zero_sub _⟩
  | .bitnot a, w, h => by
      obtain ⟨v, hv, rfl⟩ := map_ok (show (constant a).map (~~~·) = .ok w from h)
      obtain ⟨hl, rfl⟩ := literal_of_constant hv
      exact ⟨hl.bitnot, by rw [exact, ofInt_not]⟩
  | .cast t a, w, h => by
      obtain ⟨hl, hv⟩ := literal_of_constant (show constant a = .ok w from h)
      exact ⟨hl.cast t, hv⟩
  | .str _ _, _, h | .var _, _, h | .call _ _ _, _, h | .addr _, _, h | .deref _ _, _,
      h | .not _, _, h
  | .binary _ _ _ _, _, h | .assign _ _ _, _, h | .cond _ _ _, _, h | .post _ _, _,
      h | .pre _ _, _, h
  | .member _ _ _, _, h => by cases h

/-- A cut word is an integer if both agree in its bits. -/
theorem setWidth_eq_ofInt {w n : Nat} {v : BitVec n} {i : Int} :
    v.setWidth w = BitVec.ofInt w i ↔ (v.toNat : Int) % 2 ^ w = i % 2 ^ w := by
  have hpos : (0 : Int) < 2 ^ w := Int.pow_pos (by decide)
  have h₀ := Int.emod_nonneg i hpos.ne'
  rw [← BitVec.toNat_inj, BitVec.toNat_setWidth, BitVec.toNat_ofInt, ← Int.natCast_inj,
    Int.natCast_emod, Int.natCast_pow, Int.cast_ofNat_Int, Int.toNat_of_nonneg h₀]

/-- An integer, cut further. -/
theorem setWidth_ofInt {w n : Nat} {i : Int} (h : w ≤ n) :
    (BitVec.ofInt n i).setWidth w = BitVec.ofInt w i := by
  have hpos : (0 : Int) < 2 ^ n := Int.pow_pos (by decide)
  rw [setWidth_eq_ofInt, BitVec.toNat_ofInt, Int.natCast_pow, Int.cast_ofNat_Int,
    Int.toNat_of_nonneg (Int.emod_nonneg i hpos.ne'), Int.emod_emod_of_dvd i (pow_dvd_pow 2 h)]

/-- A cut value is the right one when what was cut off was nothing. -/
theorem mod_eq_emod_iff {c bits : Nat} (h : c ≤ bits) (v : Nat) (i : Int) :
    (v : Int) % 2 ^ c = i % 2 ^ bits ↔ i % 2 ^ bits < 2 ^ c ∧ (v : Int) % 2 ^ c = i % 2 ^ c := by
  have hpos : (0 : Int) < 2 ^ c := Int.pow_pos (by decide)
  have hdvd : i % 2 ^ bits % 2 ^ c = i % 2 ^ c := Int.emod_emod_of_dvd i (pow_dvd_pow 2 h)
  constructor
  · intro heq
    rw [← hdvd, ← heq, Int.emod_emod]
    exact ⟨Int.emod_lt_of_pos _ hpos, rfl⟩
  · rintro ⟨hlt, heq⟩
    rw [heq, ← hdvd, Int.emod_eq_of_lt (Int.emod_nonneg i (Int.pow_pos (by decide)).ne') hlt]

/-- **What casts do to a constant.**  The low bits of the value at run time are those of the integer
exactly when no cast takes one of them away; by induction on the expression, from the outside in. -/
theorem runValue_eq_iff {S : Structs} {e : Node} (h : Literal e) : ∀ {bits : Nat}, bits ≤ 64 →
    ((runValue S e).setWidth bits = BitVec.ofInt bits (exact e) ↔ CastsFit S bits e) := by
  induction h with
  | num v =>
      intro bits hb
      refine iff_of_true ?_ trivial
      rw [runValue, exact, BitVec.ofInt_natCast, BitVec.ofNat_toNat]
  | @neg a _ ih =>
      intro bits hb
      rw [runValue, exact, CastsFit, ← ih hb, BitVec.setWidth_neg_of_le hb,
        BitVec.ofInt_neg, neg_inj]
  | @bitnot a _ ih =>
      intro bits hb
      rw [runValue, exact, CastsFit, ← ih hb, BitVec.setWidth_not hb, ofInt_not, BitVec.not_inj]
  | @cast t a _ ih =>
      intro bits hb
      rw [runValue, exact, CastsFit, castValue]
      split
      · next hlt =>
          rw [← ih (castBits_le S t)]
          generalize runValue S a = v
          generalize castBits S t = c at hlt ⊢
          have hpow : v.toNat % 2 ^ c < 2 ^ 64 :=
            (Nat.mod_lt _ (Nat.two_pow_pos c)).trans_le
              (Nat.pow_le_pow_right (by decide) (by omega))
          have hpow' : v.toNat % 2 ^ c < 2 ^ bits :=
            (Nat.mod_lt _ (Nat.two_pow_pos c)).trans_le
              (Nat.pow_le_pow_right (by decide) (by omega))
          rw [setWidth_eq_ofInt, setWidth_eq_ofInt, ← mod_eq_emod_iff (by omega) v.toNat (exact a),
            BitVec.toNat_setWidth, BitVec.toNat_setWidth, Nat.mod_eq_of_lt hpow]
          norm_cast
          rw [Nat.mod_eq_of_lt hpow']
      · next hge => rw [← ih hb, BitVec.setWidth_setWidth_of_le _ hb,
          BitVec.setWidth_setWidth_of_le _ (by omega)]

/-! ### The code -/

section Code

variable {S : Structs} {L : Layout} {out : Outside}

/-- The code of an initialiser computes its value and touches nothing else. -/
theorem runs_literal {e : Node} (h : Literal e) (spdepth : Nat) :
    ∃ l, gen S spdepth e = .ok l ∧ ∀ (m : Machine) (Q : Machine → Prop),
      (∀ m', LeavesRax m (runValue S e) m' → Q m') → Runs L out l m Q := by
  induction h with
  | num v => exact ⟨imm v, rfl, fun m Q hq => runs_imm v hq⟩
  | @neg a _ ih =>
      obtain ⟨l, hl, hruns⟩ := ih
      refine ⟨l ++ emit [0x48, 0xf7, 0xd8], by rw [gen, hl]; rfl, fun m Q hq => ?_⟩
      refine .append (hruns m _ fun m₁ h₁ => runs_neg fun m₂ h₂ => hq m₂ ?_)
      rw [h₁.rax] at h₂
      exact h₁.trans h₂
  | @bitnot a _ ih =>
      obtain ⟨l, hl, hruns⟩ := ih
      refine ⟨l ++ emit [0x48, 0xf7, 0xd0], by rw [gen, hl]; rfl, fun m Q hq => ?_⟩
      refine .append (hruns m _ fun m₁ h₁ => runs_bitnot fun m₂ h₂ => hq m₂ ?_)
      rw [h₁.rax] at h₂
      exact h₁.trans h₂
  | @cast t a _ ih =>
      obtain ⟨l, hl, hruns⟩ := ih
      refine ⟨l ++ castTo S t, by rw [gen, hl]; rfl, fun m Q hq => ?_⟩
      refine .append (hruns m _ fun m₁ h₁ => runs_castTo t fun m₂ h₂ => hq m₂ ?_)
      rw [h₁.rax] at h₂
      exact h₁.trans h₂

/-- The low bytes of a value are not touched by a cast to a type of as many bytes. -/
theorem byteAt_castValue {t : Ty} {v : Word} {i : Nat} (ht : t.aggregate S = false)
    (hi : i < t.size S) :
    byteAt (castValue S t v) i = byteAt v i := by
  have hle : 8 * (i + 1) ≤ castBits S t := by
    rw [castBits]
    rcases Ty.size_cases ht with hs | hs | hs | hs | hs
    · omega
    all_goals
      rw [hs] at hi ⊢
      split_ifs <;> omega
  have hmax := castBits_le S t
  refine BitVec.eq_of_getLsbD_eq fun k hk => ?_
  simp only [byteAt, castValue, BitVec.getLsbD_setWidth, BitVec.getLsbD_ushiftRight]
  simp only [hk, decide_true, Bool.true_and, show 8 * i + k < 64 by omega,
    show 8 * i + k < castBits S t by omega]

/-- The scalar store: the low bytes of the value go to the address in `r10`. -/
theorem runs_store {t : Ty} {m : Machine} {Q : Machine → Prop} (ht : t.aggregate S = false)
    (hsize : t.size S ≠ 0)
    (h : ∀ m', (∀ i < t.size S,
      m'.mem (m.reg .r10 + BitVec.ofNat 64 i) = byteAt (m.reg .rax) i) → Q m') :
    Runs L out (store S t) m Q := by
  rw [store]
  refine .append (runs_castTo t fun m₁ h₁ => ?_)
  have hstore : ∀ p n, n = t.size S → Q ({ m₁ with pc := p }.store n) := by
    rintro p n rfl
    refine h _ fun i hi => ?_
    have hn : t.size S ≤ 8 := by
      have := Ty.size_cases ht
      omega
    have hat :
        writeMem m₁.mem (t.size S) (m₁.reg .r10) (m₁.reg .rax) (m₁.reg .r10 + BitVec.ofNat 64 i) =
        byteAt (m₁.reg .rax) i := writeMem_at hn hi
    rw [h₁.regs .r10 (by decide), h₁.rax, byteAt_castValue ht hi] at hat
    rw [← hat, ← h₁.regs .r10 (by decide), ← h₁.rax]
    rfl
  rcases Ty.size_cases ht with hs | hs | hs | hs | hs
  · exact absurd hs hsize
  · rw [if_pos hs]
    exact .plain .storeByte rfl rfl rfl (hstore _ 1 hs.symm)
  · rw [if_neg (by omega), if_pos hs]
    exact .plain .storeWord rfl rfl rfl (hstore _ 2 hs.symm)
  · rw [if_neg (by omega), if_neg (by omega), if_pos hs]
    exact .plain .storeDword rfl rfl rfl (hstore _ 4 hs.symm)
  · rw [if_neg (by omega), if_neg (by omega), if_neg (by omega)]
    exact .plain .storeQword rfl rfl rfl (hstore _ 8 hs.symm)

/-- The assignment of an initialiser to a global leaves the bytes of its value there. -/
theorem runs_assign {s : Sym} {e : Node} (hg : s.global = true) (htls : s.tls = false)
    (ht : s.type.aggregate S = false) (hsize : s.type.size S ≠ 0) (he : Literal e) (spdepth : Nat) :
    ∃ l, gen S spdepth (.assign none (.var s) e) = .ok l ∧ ∀ m, Runs L out l m fun m' =>
      ∀ i < s.type.size S, m'.mem (L.region 1 + BitVec.ofNat 64 s.offset + BitVec.ofNat 64 i) =
        byteAt (runValue S e) i := by
  obtain ⟨y, hy, hruns⟩ := @runs_literal S L out e he (spdepth + 1)
  have haddr : addrVar s = ref 1 s.offset := by rw [addrVar, htls, hg]; rfl
  refine ⟨ref 1 s.offset ++ push ++ y ++ pop10 ++ store S s.type, ?_, fun m => ?_⟩
  · rw [gen, addr, hy, haddr]
    rfl
  · simp only [List.append_assoc]
    refine .append (runs_ref 1 s.offset fun m₁ h₁ => .append (runs_push fun p => ?_))
    refine .append (hruns _ _ fun m₂ h₂ => .append (runs_pop10 fun q => ?_))
    refine runs_store ht hsize fun m₃ h₃ i hi => ?_
    -- the address comes back from the stack
    have hr10 : m₂.load 8 (m₂.reg .rsp) = L.region 1 + BitVec.ofNat 64 s.offset := by
      have hrsp := h₂.regs .rsp (by decide)
      have hmem := h₂.mem
      dsimp only [Machine.push] at hrsp hmem
      rw [Machine.set_self] at hrsp
      rw [Machine.load, hrsp, hmem, readMem_writeMem (Nat.le_refl 8),
        Nat.mod_eq_of_lt (m₁.reg .rax).isLt, BitVec.ofNat_toNat, BitVec.setWidth_eq, h₁.rax]
    have := h₃ i hi
    simpa only [Machine.set_ne, Machine.set_self, ne_eq, reduceCtorEq,
      not_false_eq_true, hr10, h₂.rax]
      using this

end Code

/-- Words with the same low bytes. -/
theorem byteAt_eq_iff {n : Nat} {v w : Word} :
    (∀ i < n, byteAt v i = byteAt w i) ↔ v.setWidth (8 * n) = w.setWidth (8 * n) := by
  constructor
  · intro h
    refine BitVec.eq_of_getLsbD_eq fun k hk => ?_
    have := congrArg (·.getLsbD (k % 8)) (h (k / 8) (by omega))
    simp only [byteAt, BitVec.getLsbD_setWidth, BitVec.getLsbD_ushiftRight, Nat.div_add_mod,
      Nat.mod_lt k (by decide : 0 < 8), decide_true, Bool.true_and] at this
    rw [BitVec.getLsbD_setWidth, BitVec.getLsbD_setWidth, this]
  · intro h i hi
    refine BitVec.eq_of_getLsbD_eq fun k hk => ?_
    have := congrArg (·.getLsbD (8 * i + k)) h
    simp only [BitVec.getLsbD_setWidth, show 8 * i + k < 8 * n by omega, decide_true,
      Bool.true_and] at this
    simp only [byteAt, BitVec.getLsbD_setWidth, BitVec.getLsbD_ushiftRight, this]

/-- **Initialisers.**  A scalar global has been given an initial value.  The code of the assignment
of the same expression runs to its end, and what it leaves in the global is what the initialiser
stored exactly when no cast cuts a value that is used. -/
theorem initGlobal_agrees_iff {S : Structs} {s : Sym} {e : Node} {data data' : Nat → Byte}
    (hg : s.global = true) (hsize : s.type.size S ≠ 0) (h : initGlobal S s e data = .ok data')
    (L : Layout) (out : Outside) (spdepth : Nat) :
    ∃ l, gen S spdepth (.assign none (.var s) e) = .ok l ∧
      ∀ code m, CodeAt code m.pc (link L m.pc l) →
      ∃ m', Steps out code m m' ∧ m'.pc = m.pc + size l ∧
        ((∀ i < s.type.size S, m'.mem (L.region 1 + BitVec.ofNat 64 s.offset + BitVec.ofNat 64 i) =
            data' (s.offset + i)) ↔ CastsFit S (8 * s.type.size S) e) := by
  rw [initGlobal] at h
  split at h
  · cases h
  · next hscalar =>
      simp only [not_or, Bool.not_eq_true] at hscalar
      obtain ⟨v, hv, rfl⟩ := map_ok h
      obtain ⟨he, rfl⟩ := literal_of_constant hv
      have hle : s.type.size S ≤ 8 := by
        have := Ty.size_cases hscalar.1
        omega
      obtain ⟨l, hl, hruns⟩ := @runs_assign S L out s e hg hscalar.2 hscalar.1 hsize he spdepth
      refine ⟨l, hl, fun code m hc => ?_⟩
      obtain ⟨m', hs, hp, hm⟩ := hruns m code hc
      refine ⟨m', hs, hp, ?_⟩
      rw [← runValue_eq_iff he (by omega),
        ← setWidth_ofInt (n := 64) (by omega : 8 * s.type.size S ≤ 64), ← byteAt_eq_iff]
      refine forall₂_congr fun i hi => ?_
      rw [hm i hi, initData, if_pos (by omega), Nat.add_sub_cancel_left]

/-- `u64 x = (u8)300;` -/
def cutInitialiser : Node := .cast .u8 (.num 300)

/-- A global initialised through a cast that cuts its value. -/
def cutGlobal : Sym := ⟨.u64, 0, true, false⟩

/-- No structure has a field. -/
def noStructs : Structs := fun _ => ⟨[], 0, fun _ => rfl⟩

/-- The data at a place of its own, and no calls. -/
def quietLayout : Layout := ⟨fun r => BitVec.ofNat 64 (r * 65536), fun _ => 0⟩

/-- An outside that never answers. -/
def quietOutside : Outside := ⟨fun _ _ _ => False, fun _ _ => False⟩

/-- `u64 x = -(i64)(u16)300;` is the same both ways. -/
theorem initGlobal_agrees_negated :
    ∃ l, gen noStructs 0
      (.assign none (.var cutGlobal) (.neg (.cast .i64 (.cast .u16 (.num 300))))) = .ok l ∧
      ∀ code m, CodeAt code m.pc (link quietLayout m.pc l) →
        ∃ m', Steps quietOutside code m m' ∧ m'.pc = m.pc + size l ∧
          ∀ i < 8, m'.mem (quietLayout.region 1 + BitVec.ofNat 64 0 + BitVec.ofNat 64 i) =
            initData (fun _ => 0) 0 8 (0 - 300) (0 + i) := by
  obtain ⟨l, hl, h⟩ := @initGlobal_agrees_iff noStructs cutGlobal
    (.neg (.cast .i64 (.cast .u16 (.num 300)))) (fun _ => 0) _ rfl (by decide) rfl quietLayout
    quietOutside 0
  refine ⟨l, hl, fun code m hc => ?_⟩
  obtain ⟨m', hs, hp, hiff⟩ := h code m hc
  refine ⟨m', hs, hp, hiff.mpr ?_⟩
  simp [CastsFit, castBits, exact, cutGlobal, Ty.size, Ty.base, Ty.aggregate, Ty.fields, Ty.count]

/-- The initialiser stores 300, and the assignment 44. -/
theorem initGlobal_cut :
    ∃ data', initGlobal noStructs cutGlobal cutInitialiser (fun _ => 0) = .ok data' ∧
    data' 0 = 44 ∧ data' 1 = 1 ∧ ∀ (L : Layout) (out : Outside),
      ∃ l, gen noStructs 0 (.assign none (.var cutGlobal) cutInitialiser) = .ok l ∧ ∀ code m,
        CodeAt code m.pc (link L m.pc l) → ∃ m', Steps out code m m' ∧ m'.pc = m.pc + size l ∧
          m'.mem (L.region 1) = 44 ∧ m'.mem (L.region 1 + 1) = 0 := by
  refine ⟨_, rfl, rfl, rfl, fun L out => ?_⟩
  obtain ⟨l, hl, hruns⟩ := @runs_assign noStructs L out cutGlobal cutInitialiser rfl rfl rfl
    (by decide) (.cast .u8 (.num 300)) 0
  refine ⟨l, hl, fun code m hc => ?_⟩
  obtain ⟨m', hs, hp, hm⟩ := hruns m code hc
  have h₀ : byteAt (runValue noStructs cutInitialiser) 0 = 44 := by decide
  have h₁ : byteAt (runValue noStructs cutInitialiser) 1 = 0 := by decide
  refine ⟨m', hs, hp, ?_, ?_⟩
  · simpa [cutGlobal, h₀] using hm 0 (by decide)
  · simpa [cutGlobal, h₁] using hm 1 (by decide)

end Efishell.Compiler
