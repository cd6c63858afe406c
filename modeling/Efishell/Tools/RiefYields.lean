import Efishell.Support.Checked
import Efishell.Tools.RiefCalls

/-!
# Tools — code that yields a value

`Yields l ws μ v μ'`: the code `l`, on a machine that shows the memory `μ` and has the words `ws` on
the stack, leaves the value `v` in `rax`, the same words on the stack, and the memory `μ'`.  One
rule for each way in which `gen` puts code together.

* `Yields.load`, `Yields.assign`, `Yields.castTo`: memory and casts.
* `yields_decided`, `yields_yes`, `yields_no`: what decides and what branches.
-/

namespace Efishell.Compiler

open X86

variable {L : Layout} {out : Outside} {W : World} {B : Base W} {S : Structs}

/-! ### Branches -/

section Branches

variable {m : Machine} {y z : List Item} {code : Nat → Byte} {n : Nat} {c : Cond} {f : Flags}
    {Q : Machine → Prop}

/-- The code of a branch under a condition. -/
abbrev branch (c : Cond) (n : Nat) : List Item := jump (some (BitVec.ofNat 8 (0x80 + c.number))) n

/-- A conditional jump is taken where its condition holds. -/
theorem step_branch (hc : CodeAt code m.pc (link L m.pc (branch c n))) (hlt : n < 2 ^ 31)
    (hf : m.flags = some f) :
    Step out code m (if c.holds f then { m with pc := m.pc + 6 + n }
      else { m with pc := m.pc + 6 }) := by
  have hlink : link L m.pc (branch c n) = (Op.jcc c).opcode ++ immBytes n (Op.jcc c).immSize := by
    rw [branch, jump, link_append, link_emit, u32, link_emit]
    rfl
  rw [hlink] at hc
  refine .of_code hc (by show _ < 2 ^ 32; omega) ?_
  rw [← Machine.jump_ofNat (m := { m with pc := m.pc + 6 }) hlt]
  exact congrArg (Option.map _) hf

theorem step_goto (hc : CodeAt code m.pc (link L m.pc (jump none n))) (hlt : n < 2 ^ 31) :
    Step out code m { m with pc := m.pc + 5 + n } := by
  have hlink : link L m.pc (jump none n) = Op.jmp.opcode ++ immBytes n Op.jmp.immSize := by
    rw [jump, link_append, link_emit, u32, link_emit]
    rfl
  rw [hlink] at hc
  refine .of_code hc (by show _ < 2 ^ 32; omega) ?_
  rw [← Machine.jump_ofNat (m := { m with pc := m.pc + 5 }) hlt]
  rfl

/-- A jump back over `n` bytes, its own ones among them. -/
theorem step_back (hc : CodeAt code m.pc (link L m.pc (jump none (2 ^ 32 - n)))) (h₀ : 0 < n)
    (hle : n ≤ 2 ^ 31) :
    Step out code m { m with pc := m.pc + 5 - n } := by
  have hlink : link L m.pc (jump none (2 ^ 32 - n)) = Op.jmp.opcode ++
      immBytes (2 ^ 32 - n) Op.jmp.immSize := by
    rw [jump, link_append, link_emit, u32, link_emit]
    rfl
  rw [hlink] at hc
  refine .of_code hc (by show _ < 2 ^ 32; omega) ?_
  rw [← Machine.jump_back (m := { m with pc := m.pc + 5 }) h₀ hle]
  rfl

/-- A branch over `y`. -/
theorem runs_skip (hlt : size y < 2 ^ 31) (hf : m.flags = some f)
    (htaken : c.holds f = true → Q { m with pc := m.pc + 6 + size y })
    (hnot : c.holds f = false → Runs L out y { m with pc := m.pc + 6 } Q) :
    Runs L out (branch c (size y) ++ y) m Q := by
  have hsize : size (branch c (size y)) = 6 := rfl
  intro code hc
  rw [link_append, codeAt_append, length_link, hsize] at hc
  have hstep : Step out code m _ := step_branch hc.1 hlt hf
  rw [size_append, hsize]
  cases hh : c.holds f with
  | true =>
      rw [hh] at hstep
      exact ⟨_, .single hstep, Nat.add_assoc _ _ _, htaken hh⟩
  | false =>
      rw [hh] at hstep
      obtain ⟨m', hs, hp, hq⟩ := hnot hh code hc.2
      exact ⟨m', .head hstep hs, by rw [hp, Nat.add_assoc], hq⟩

/-- One of two codes. -/
theorem runs_choice (hlt : size y + 5 < 2 ^ 31) (hlt' : size z < 2 ^ 31) (hf : m.flags = some f)
    (htaken : c.holds f = true → Runs L out z { m with pc := m.pc + 6 + (size y + 5) } Q)
    (hnot : c.holds f = false →
      Runs L out y { m with pc := m.pc + 6 } fun m' => ∀ pc, Q { m' with pc := pc }) :
    Runs L out (branch c (size y + 5) ++ y ++ jump none (size z) ++ z) m Q := by
  have hsize : size (branch c (size y + 5)) = 6 := rfl
  have hgoto : size (jump none (size z)) = 5 := rfl
  intro code hc
  simp only [link_append, codeAt_append, List.length_append, length_link, size_append,
    hsize, hgoto] at hc
  obtain ⟨⟨⟨hbranch, hy⟩, hjump⟩, hz⟩ := hc
  have hstep : Step out code m _ := step_branch hbranch hlt hf
  simp only [size_append, hsize, hgoto]
  cases hh : c.holds f with
  | true =>
      rw [hh] at hstep
      have hpc : m.pc + 6 + (size y + 5) = m.pc + (6 + size y + 5) := by omega
      rw [← hpc] at hz
      obtain ⟨m', hs, hp, hq⟩ := htaken hh code hz
      exact ⟨m', .head hstep hs, by rw [hp]; show m.pc + 6 + (size y + 5) + _ = _; omega, hq⟩
  | false =>
      rw [hh] at hstep
      obtain ⟨m₁, hs, hp, hq⟩ := hnot hh code hy
      have hpc : m₁.pc = m.pc + (6 + size y) := by
        rw [hp]
        show m.pc + 6 + size y = _
        omega
      rw [← hpc] at hjump
      refine ⟨_, .head hstep (hs.tail (step_goto hjump hlt')), ?_, hq _⟩
      show m₁.pc + 5 + size z = _
      omega

end Branches

/-! ### Values -/

/-- The code computes `v`, leaves the words of the stack, and takes the memory from `μ` to `μ'`. -/
def Yields (L : Layout) (out : Outside) (B : Base W) (l : List Item) (ws : List Word)
    (μ : Mem) (v : Word) (μ' : Mem) : Prop :=
  ∀ m, At W B ws μ m → m.pc + size l ≤ 2 ^ 31 → Runs L out l m fun m' => At W B ws μ' m' ∧
    m'.reg .rax = v

section Yields

variable {ws vs : List Word} {μ μ₁ μ₂ μ' : Mem} {m : Machine} {x y z : List Item}
    {v w p : Word} {t : Ty}
  {n : Nat} {op : BinOp} {left right : Ty} {Q : Machine → Prop}

/-- An expression, and then the code after it. -/
theorem Yields.runs (h : Yields L out B x ws μ v μ₁) (hat : At W B ws μ m)
    (hpc : m.pc + size (x ++ y) ≤ 2 ^ 31)
    (hy : ∀ m', At W B ws μ₁ m' → m'.reg .rax = v → m'.pc + size y ≤ 2 ^ 31 → Runs L out y m' Q) :
    Runs L out (x ++ y) m Q := by
  rw [size_append] at hpc
  exact .append_pc ((h m hat (by omega)).mono fun m' h' hp => hy m' h'.1 h'.2 (by omega))

/-- A piece that works in `rax` comes last. -/
theorem Yields.then (h : Yields L out B x ws μ v μ₁)
    (hy : ∀ m, m.reg .rax = v → ∀ Q : Machine → Prop, (∀ m', Keeps m m' → m'.reg .rax = w → Q m') →
      Runs L out y m Q) : Yields L out B (x ++ y) ws μ w μ₁ := fun _ hat hpc =>
  h.runs hat hpc fun m₁ h₁ hv _ => hy m₁ hv _ fun _ hk hw => ⟨h₁.keeps hk, hw⟩

theorem yields_imm : Yields L out B (imm v) ws μ v μ := fun _ hat _ =>
  runs_imm v fun _ h => ⟨hat.keeps h.keeps, h.rax⟩

/-- An address of a region. -/
theorem yields_ref {r at_ : Nat} :
    Yields L out B (ref r at_) ws μ (L.region r + BitVec.ofNat 64 at_) μ :=
  fun _ hat _ => runs_ref r at_ fun _ h => ⟨hat.keeps h.keeps, h.rax⟩

/-- The address of a variable. -/
theorem yields_addrVar {s : Sym} (hregion : L.region = W.region) (hfit : s.Fits)
    (hp : W.Finds μ s p) :
    Yields L out B (addrVar s) ws μ p μ := fun _ hat _ =>
  runs_addrVar hat hregion hfit hp fun _ h => ⟨hat.keeps h.keeps, h.rax⟩

/-- The value at an address. -/
theorem Yields.load (h : Yields L out B x ws μ p μ₁) (hv : W.Reads S μ₁ t p v) :
    Yields L out B (x ++ load S t) ws μ v μ₁ := fun _ hat hpc =>
  h.runs hat hpc fun _ h₁ hp _ => runs_load h₁ (hp ▸ hv) fun _ h₂ => ⟨h₁.keeps h₂.keeps, h₂.rax⟩

/-- A constant added. -/
theorem runs_addImm (hn : n < 2 ^ 31)
    (hq : ∀ m', LeavesRax m (m.reg .rax + BitVec.ofNat 64 n) m' → Q m') :
    Runs L out (emit [0x48, 0x05] ++ u32 n) m Q := by
  refine .operand .addRaxImm n (by show _ < 2 ^ 32; omega) rfl rfl (hq _ ?_)
  rw [← sext32_small hn]
  exact .result _ rfl rfl rfl

/-- The address of a field. -/
theorem Yields.offset (h : Yields L out B x ws μ p μ₁) (hn : n < 2 ^ 31) :
    Yields L out B (x ++ emit [0x48, 0x05] ++ u32 n) ws μ (p + BitVec.ofNat 64 n) μ₁ := by
  rw [List.append_assoc]
  refine h.then fun _ hp Q hq => runs_addImm hn fun m' h' => hq m' h'.keeps ?_
  rw [h'.rax, hp]

theorem Yields.castTo (h : Yields L out B x ws μ v μ₁) :
    Yields L out B (x ++ castTo S t) ws μ (narrow S t v) μ₁ :=
  h.then fun _ hv Q hq =>
    runs_castTo t fun m' h' => hq m' h'.keeps (by rw [h'.rax, hv, castValue_eq])

theorem Yields.neg (h : Yields L out B x ws μ v μ₁) :
    Yields L out B (x ++ emit [0x48, 0xf7, 0xd8]) ws μ (-v) μ₁ :=
  h.then fun _ hv Q hq => runs_neg fun m' h' => hq m' h'.keeps (by rw [h'.rax, hv])

theorem Yields.bitnot (h : Yields L out B x ws μ v μ₁) :
    Yields L out B (x ++ emit [0x48, 0xf7, 0xd0]) ws μ (~~~v) μ₁ :=
  h.then fun _ hv Q hq => runs_bitnot fun m' h' => hq m' h'.keeps (by rw [h'.rax, hv])

/-- A logical negation. -/
theorem Yields.not (h : Yields L out B x ws μ v μ₁) :
    Yields L out B (x ++ emit [0x48, 0x85, 0xc0, 0x0f, 0x94, 0xc0, 0x0f, 0xb6, 0xc0]) ws μ
      (truth (v == 0)) μ₁ :=
  h.then fun _ hv Q hq => runs_test .e fun m' hk hr => hq m' hk (by rw [hr, hv]; rfl)

/-- The second operand is computed with the first one on the stack. -/
theorem Yields.binary (hx : Yields L out B x ws μ v μ₁) (hy : Yields L out B y (v :: ws) μ₁ w μ₂)
    (hroom : B.low + 8 * (ws.length + 1) ≤ B.top)
    (hfit : ∀ b, left.decay.base = some b → b.size S < 2 ^ 31)
    {r : Word} (hr : arith S op left right v w = some r) :
    Yields L out B (x ++ push ++ y ++ pop10 ++ arithmetic S op left right) ws μ r μ₂ := by
  simp only [Yields, List.append_assoc]
  intro m hat hpc
  refine hx.runs hat hpc fun m₁ h₁ hv hpc₁ => ?_
  refine .append_pc (runs_push_at h₁ hroom fun m₂ h₂ _ hp₂ => ?_)
  rw [hv] at h₂
  refine hy.runs h₂ (by rw [size_append] at hpc₁; omega) fun m₃ h₃ hw _ => ?_
  refine .append (runs_pop10_at h₃ fun m₄ h₄ h10 hrest => ?_)
  refine runs_arithmetic h10 ((hrest _ (by decide) (by decide)).trans hw) hfit hr
    fun m₅ hk hr₅ => ?_
  exact ⟨h₄.keeps hk, hr₅⟩

/-- What `assign` writes last: the value goes to the address on the stack. -/
theorem runs_popStore (hat : At W B (p :: ws) μ m) (hw : W.Writes S μ t p (m.reg .rax) μ')
    (hq : ∀ m', At W B ws μ' m' → m'.reg .rax = narrow S t (m.reg .rax) →
      m'.reg .r11 = m.reg .r11 → Q m') :
    Runs L out (pop10 ++ store S t) m Q := by
  refine .append (runs_pop10_at hat fun m₁ h₁ h10 hrest => ?_)
  have hax := hrest .rax (by decide) (by decide)
  refine runs_store_at h₁ (by rw [h10, hax]; exact hw) fun m₂ h₂ hr h11 => hq m₂ h₂
    (by rw [hr, hax]) ?_
  exact (h11 .r11 (by decide)).trans (hrest .r11 (by decide) (by decide))

theorem Yields.assign (hx : Yields L out B x ws μ p μ₁) (hy : Yields L out B y (p :: ws) μ₁ v μ₂)
    (hroom : B.low + 8 * (ws.length + 1) ≤ B.top) (hw : W.Writes S μ₂ t p v μ') :
    Yields L out B (x ++ push ++ y ++ pop10 ++ store S t) ws μ (narrow S t v) μ' := by
  simp only [Yields, List.append_assoc]
  intro m hat hpc
  refine hx.runs hat hpc fun m₁ h₁ hp hpc₁ => ?_
  refine .append_pc (runs_push_at h₁ hroom fun m₂ h₂ _ hp₂ => ?_)
  rw [hp] at h₂
  refine hy.runs h₂ (by rw [size_append] at hpc₁; omega) fun m₃ h₃ hv _ => ?_
  exact runs_popStore h₃ (hv ▸ hw) fun m₄ h₄ hr _ => ⟨h₄, by rw [hr, hv]⟩

/-- The old value waits on the stack above the address. -/
theorem Yields.update (hx : Yields L out B x ws μ p μ₁) (hv : W.Reads S μ₁ t p v)
    (hy : Yields L out B y (v :: p :: ws) μ₁ w μ₂) (hroom : B.low + 8 * (ws.length + 2) ≤ B.top)
    (hfit : ∀ b, t.decay.base = some b → b.size S < 2 ^ 31) {r : Word}
    (hr : arith S op t right v w = some r) (hw : W.Writes S μ₂ t p r μ') :
    Yields L out B
      (x ++ push ++ Compiler.load S t ++ push ++ y ++ pop10 ++ arithmetic S op t right ++ pop10 ++
      store S t) ws μ (narrow S t r) μ' := by
  simp only [Yields, List.append_assoc]
  intro m hat hpc
  refine hx.runs hat hpc fun m₁ h₁ hp hpc₁ => ?_
  refine .append_pc (runs_push_at h₁ (by omega) fun m₂ h₂ hrest₂ hp₂ => ?_)
  have hax₂ := hrest₂ .rax (by decide)
  rw [hp] at h₂ hax₂
  refine .append_pc (runs_load h₂ (hax₂ ▸ hv) fun m₃ hr₃ hp₃ => ?_)
  have h₃ := h₂.keeps hr₃.keeps
  refine .append_pc (runs_push_at h₃ (by rw [List.length_cons]; omega) fun m₄ h₄ _ hp₄ => ?_)
  rw [hr₃.rax] at h₄
  simp only [size_append] at hpc₁
  refine hy.runs h₄ (by simp only [size_append]; omega) fun m₅ h₅ hw₅ _ => ?_
  refine .append (runs_pop10_at h₅ fun m₆ h₆ h10 hrest => ?_)
  refine .append
    (runs_arithmetic h10 ((hrest _ (by decide) (by decide)).trans hw₅) hfit hr fun m₇ hk hr₇ => ?_)
  exact runs_popStore (h₆.keeps hk) (hr₇ ▸ hw) fun m₈ h₈ hr₈ _ => ⟨h₈, by rw [hr₈, hr₇]⟩

/-- The step of an increment or a decrement. -/
theorem runs_addStep {down : Bool} (h₀ : 0 < n) (hn : n < 2 ^ 31)
    (hq : ∀ m', LeavesRax m (if down then m.reg .rax - BitVec.ofNat 64 n
      else m.reg .rax + BitVec.ofNat 64 n) m' →
      Q m') : Runs L out (emit [0x48, 0x05] ++ u32 (if down then 2 ^ 32 - n else n)) m Q := by
  cases down with
  | false => exact runs_addImm hn hq
  | true =>
      refine .operand .addRaxImm (2 ^ 32 - n) (by show _ < 2 ^ 32; omega) rfl rfl (hq _ ?_)
      rw [if_pos rfl, BitVec.sub_eq_add_neg, ← sext32_neg h₀ (by omega)]
      exact .result _ rfl rfl rfl

/-- The code of `++` and `--`, with the old value in `r11` at its end. -/
theorem runs_step {down : Bool} (hx : Yields L out B x ws μ p μ₁) (hv : W.Reads S μ₁ t p v)
    (hroom : B.low + 8 * (ws.length + 1) ≤ B.top) (h₀ : 0 < t.stride S) (hn : t.stride S < 2 ^ 31)
    (hw : W.Writes S μ₁ t p (stepped S t down v) μ') (hat : At W B ws μ m)
    (hpc : m.pc + size x ≤ 2 ^ 31)
    (hq : ∀ m', At W B ws μ' m' → m'.reg .rax = narrow S t (stepped S t down v) →
      m'.reg .r11 = v → Q m') :
    Runs L out (x ++ push ++ Compiler.load S t ++ emit [0x49, 0x89, 0xc3] ++ emit [0x48, 0x05] ++
      u32 (if down then 2 ^ 32 - t.stride S else t.stride S) ++ pop10 ++ store S t) m Q := by
  simp only [List.append_assoc]
  rw [← List.append_assoc (emit [0x48, 0x05])]
  refine .append ((hx m hat hpc).mono fun m₁ h₁ => ?_)
  obtain ⟨h₁, hp⟩ := h₁
  refine .append (runs_push_at h₁ hroom fun m₂ h₂ hrest₂ => ?_)
  have hax₂ := hrest₂ .rax (by decide)
  rw [hp] at h₂ hax₂
  refine .append (runs_load h₂ (hax₂ ▸ hv) fun m₃ h₃ => ?_)
  have h₄ : At W B (p :: ws) μ₁ ({ m₃ with pc := m₃.pc + 3 }.set .r11 (m₃.reg .rax)) :=
    (h₂.keeps h₃.keeps).keeps ⟨rfl, rfl, rfl, rfl⟩
  refine .append (.plain .movR11Rax rfl rfl rfl (.append (runs_addStep h₀ hn fun m₅ h₅ => ?_)))
  have hax : m₅.reg .rax = stepped S t down v := by
    rw [← h₃.rax]
    exact h₅.rax
  have h11 : m₅.reg .r11 = v := (h₅.regs .r11 (by decide)).trans h₃.rax
  exact runs_popStore (h₄.keeps h₅.keeps) (hax ▸ hw) fun m₆ h₆ hr₆ h11₆ =>
    hq m₆ h₆ (by rw [hr₆, hax]) (h11₆.trans h11)

/-- An increment or decrement before its value. -/
theorem Yields.pre {down : Bool} (hx : Yields L out B x ws μ p μ₁) (hv : W.Reads S μ₁ t p v)
    (hroom : B.low + 8 * (ws.length + 1) ≤ B.top) (h₀ : 0 < t.stride S) (hn : t.stride S < 2 ^ 31)
    (hw : W.Writes S μ₁ t p (stepped S t down v) μ') :
    Yields L out B
      (x ++ push ++ Compiler.load S t ++ emit [0x49, 0x89, 0xc3] ++ emit [0x48, 0x05] ++
      u32 (if down then 2 ^ 32 - t.stride S else t.stride S) ++ pop10 ++ store S t ++ []) ws μ
        (narrow S t (stepped S t down v)) μ' := by
  intro m hat hpc
  rw [List.append_nil] at hpc ⊢
  refine runs_step hx hv hroom h₀ hn hw hat ?_ fun m' h' hr _ => ⟨h', hr⟩
  simp only [size_append] at hpc
  omega

theorem Yields.post {down : Bool} (hx : Yields L out B x ws μ p μ₁) (hv : W.Reads S μ₁ t p v)
    (hroom : B.low + 8 * (ws.length + 1) ≤ B.top) (h₀ : 0 < t.stride S) (hn : t.stride S < 2 ^ 31)
    (hw : W.Writes S μ₁ t p (stepped S t down v) μ') :
    Yields L out B
      (x ++ push ++ Compiler.load S t ++ emit [0x49, 0x89, 0xc3] ++ emit [0x48, 0x05] ++
      u32 (if down then 2 ^ 32 - t.stride S else t.stride S) ++ pop10 ++ store S t ++
        emit [0x4c, 0x89, 0xd8])
        ws μ v μ' := by
  intro m hat hpc
  refine .append (runs_step hx hv hroom h₀ hn hw hat ?_ fun m' h' _ h11 => ?_)
  · simp only [size_append] at hpc
    omega
  · exact .plain .movRaxR11 rfl rfl rfl ⟨h'.keeps ⟨rfl, rfl, rfl, rfl⟩, h11⟩

/-! ### Choices -/

theorem holds_test_e (v : Word) : Cond.e.holds (.test v) = (v == 0) := rfl

/-- The left side of `&&`, of `||` or of `?:` is tested. -/
theorem runs_tested
    (h : ∀ m', Keeps m m' → m'.reg .rax = m.reg .rax → m'.flags = some (.test (m.reg .rax)) →
    m'.pc = m.pc + 3 → Q m') : Runs L out (emit [0x48, 0x85, 0xc0]) m Q :=
  .plain .testRaxRax rfl rfl rfl (h _ ⟨rfl, rfl, rfl, rfl⟩ rfl rfl rfl)

/-- `&&` and `||`: `c` is the condition under which the left side decides. -/
theorem yields_decided {c : Cond} (hx : Yields L out B x ws μ v μ₁)
    (hc : c.holds (.test v) = true) :
    Yields L out B (x ++ emit [0x48, 0x85, 0xc0] ++ branch c (size y) ++ y ++
      emit [0x48, 0x85, 0xc0, 0x0f, 0x95, 0xc0, 0x0f, 0xb6, 0xc0]) ws μ (truth (v != 0)) μ₁ := by
  intro m hat hpc
  simp only [List.append_assoc] at hpc ⊢
  rw [← List.append_assoc (branch c (size y))] at hpc ⊢
  refine hx.runs hat hpc fun m₁ h₁ hv hpc₁ => ?_
  refine .append (runs_tested fun m₂ hk₂ hr₂ hf₂ _ => ?_)
  rw [hv] at hf₂
  have hthree : size (emit [0x48, 0x85, 0xc0]) = 3 := rfl
  simp only [size_append, hthree] at hpc₁
  refine .append (runs_skip (by omega) hf₂ (fun _ => ?_) fun h =>
    absurd (hc.symm.trans h) (by decide))
  refine runs_test .ne fun m₃ hk₃ hr₃ =>
    ⟨(h₁.keeps hk₂).keeps ⟨hk₃.rsp, hk₃.rbp, hk₃.mem, hk₃.fs⟩, ?_⟩
  rw [hr₃]
  show truth (Cond.ne.holds (.test (m₂.reg .rax))) = _
  rw [hr₂, hv]
  rfl

/-- A left side that decides nothing. -/
theorem yields_open {c : Cond} (hx : Yields L out B x ws μ v μ₁) (hy : Yields L out B y ws μ₁ w μ₂)
    (hc : c.holds (.test v) = false) :
    Yields L out B (x ++ emit [0x48, 0x85, 0xc0] ++ branch c (size y) ++ y ++
      emit [0x48, 0x85, 0xc0, 0x0f, 0x95, 0xc0, 0x0f, 0xb6, 0xc0]) ws μ (truth (w != 0)) μ₂ := by
  intro m hat hpc
  simp only [List.append_assoc] at hpc ⊢
  rw [← List.append_assoc (branch c (size y))] at hpc ⊢
  refine hx.runs hat hpc fun m₁ h₁ hv hpc₁ => ?_
  refine .append (runs_tested fun m₂ hk₂ hr₂ hf₂ hp₂ => ?_)
  rw [hv] at hf₂
  have hsize : size (branch c (size y)) = 6 := rfl
  have hthree : size (emit [0x48, 0x85, 0xc0]) = 3 := rfl
  simp only [size_append, hsize, hthree] at hpc₁
  refine .append
    (runs_skip (by omega) hf₂ (fun h => absurd (hc.symm.trans h) (by decide)) fun _ => ?_)
  have hat₂ : At W B ws μ₁ { m₂ with pc := m₂.pc + 6 } := (h₁.keeps hk₂).keeps ⟨rfl, rfl, rfl, rfl⟩
  refine (hy _ hat₂ (by show m₂.pc + 6 + _ ≤ _; omega)).mono fun m₃ h₃ => ?_
  refine runs_test .ne fun m₄ hk₄ hr₄ => ⟨h₃.1.keeps hk₄, ?_⟩
  rw [hr₄, h₃.2]
  rfl

/-- The code of `?:` up to the branch. -/
theorem runs_cond (hx : Yields L out B x ws μ v μ₁) (hat : At W B ws μ m)
    (hpc : m.pc + size (x ++ emit [0x48, 0x85, 0xc0] ++ jump (some 0x84) (size y + 5) ++ y ++
      jump none (size z) ++ z) ≤ 2 ^ 31)
    (hy : v ≠ 0 → ∀ m', At W B ws μ₁ m' → m'.pc + size y ≤ 2 ^ 31 →
      Runs L out y m' fun m'' => ∀ pc, Q { m'' with pc := pc })
    (hz : v = 0 → ∀ m', At W B ws μ₁ m' → m'.pc + size z ≤ 2 ^ 31 → Runs L out z m' Q) :
    Runs L out (x ++ emit [0x48, 0x85, 0xc0] ++ jump (some 0x84) (size y + 5) ++ y ++
      jump none (size z) ++ z)
      m Q := by
  have hthree : size (emit [0x48, 0x85, 0xc0]) = 3 := rfl
  have hsix : size (branch .e (size y + 5)) = 6 := rfl
  have hfive : size (jump none (size z)) = 5 := rfl
  have hcode : x ++ emit [0x48, 0x85, 0xc0] ++ jump (some 0x84) (size y + 5) ++ y ++
      jump none (size z) ++ z =
      x ++
        (emit [0x48, 0x85, 0xc0] ++ (branch .e (size y + 5) ++ y ++ jump none (size z) ++ z)) := by
    simp only [List.append_assoc]
    rfl
  rw [hcode] at hpc ⊢
  refine hx.runs hat hpc fun m₁ h₁ hv hpc₁ => ?_
  refine .append (runs_tested fun m₂ hk₂ hr₂ hf₂ hp₂ => ?_)
  rw [hv] at hf₂
  simp only [size_append, hthree, hsix, hfive] at hpc₁
  have hat₂ : ∀ pc, At W B ws μ₁ { m₂ with pc := pc } :=
    fun pc => (h₁.keeps hk₂).keeps ⟨rfl, rfl, rfl, rfl⟩
  refine runs_choice (by omega) (by omega) hf₂ (fun h => ?_) fun h => ?_
  · rw [holds_test_e] at h
    exact hz (beq_iff_eq.mp h) _ (hat₂ _) (by show m₂.pc + 6 + (size y + 5) + _ ≤ _; omega)
  · rw [holds_test_e] at h
    exact hy (fun h' => by rw [h'] at h; cases h) _ (hat₂ _) (by show m₂.pc + 6 + _ ≤ _; omega)

/-- A condition that holds. -/
theorem yields_yes (hx : Yields L out B x ws μ v μ₁) (hv : v ≠ 0)
    (hy : Yields L out B y ws μ₁ w μ₂) :
    Yields L out B (x ++ emit [0x48, 0x85, 0xc0] ++ jump (some 0x84) (size y + 5) ++ y ++
      jump none (size z) ++ z)
      ws μ w μ₂ := fun _ hat hpc =>
  runs_cond hx hat hpc
    (fun _ m' h hp => (hy m' h hp).mono fun _ h' _ => ⟨h'.1.keeps ⟨rfl, rfl, rfl, rfl⟩, h'.2⟩)
    fun h => absurd h hv

theorem yields_no (hx : Yields L out B x ws μ 0 μ₁) (hz : Yields L out B z ws μ₁ w μ₂) :
    Yields L out B (x ++ emit [0x48, 0x85, 0xc0] ++ jump (some 0x84) (size y + 5) ++ y ++
      jump none (size z) ++ z)
      ws μ w μ₂ := fun _ hat hpc =>
  runs_cond hx hat hpc (fun h => absurd rfl h) fun _ m' h hp => hz m' h hp

end Yields

end Efishell.Compiler
