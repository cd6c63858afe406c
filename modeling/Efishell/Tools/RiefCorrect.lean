import Efishell.Tools.RiefYields

/-!
# Tools — the code of an expression computes its value

`gen` against `Eval`: for every tree whose offsets and sizes the limits of the compiler keep, the
code that `gen` writes leaves the value that the tree has, and the memory that its assignments
leave, on every machine with room for the pending words.  The proof follows the tree.

* `gen_yields`: the code of an expression computes its value, in context.
* `gen_correct`: the same on a machine.
-/

namespace Efishell.Compiler

open X86

/-! ### Limits -/

mutual

/-- Offsets, sizes of elements and numbers of arguments are within the limits of the compiler. -/
def Node.Fits (S : Structs) : Node → Prop
  | .num _ | .str _ _ => True
  | .var s => s.Fits
  | .call func args _ => func.Fits args.length ∧ args.Fits S
  | .member a offset _ => offset < 2 ^ 31 ∧ a.Fits S
  | .addr a | .deref a _ | .cast _ a | .neg a | .not a | .bitnot a => a.Fits S
  | .binary _ a b _ | .assign _ a b => a.type.stride S < 2 ^ 31 ∧ a.Fits S ∧ b.Fits S
  | .cond a b c => a.Fits S ∧ b.Fits S ∧ c.Fits S
  | .post _ a | .pre _ a => a.type.stride S < 2 ^ 31 ∧ a.Fits S

/-- Every argument fits. -/
def Args.Fits (S : Structs) : Args → Prop
  | .nil => True
  | .cons a rest => a.Fits S ∧ rest.Fits S

end

mutual

/-- The bytes of stack that the code of an expression needs, of what the functions that it calls
need. -/
def Node.room (room : Nat → Nat) : Node → Nat
  | .num _ | .str _ _ | .var _ => 0
  | .call func args _ => max (args.room room) (func.room room)
  | .addr a | .deref a _ | .cast _ a | .neg a | .not a | .bitnot a | .member a _ _ => a.room room
  | .binary _ a b _ | .assign none a b => max (a.room room) (8 + b.room room)
  | .assign (some _) a b => max (a.room room) (16 + b.room room)
  | .cond a b c => max (a.room room) (max (b.room room) (c.room room))
  | .post _ a | .pre _ a => max (a.room room) 8

/-- The stack the arguments need. -/
def Args.room (room : Nat → Nat) : Args → Nat
  | .nil => 0
  | .cons a rest => max (a.room room) (8 + rest.room room)

end

/-- What a pointer points at is no larger than its stride. -/
theorem Ty.base_lt {S : Structs} {t : Ty} (h : t.stride S < 2 ^ 31) : ∀ b, t.decay.base = some b →
    b.size S < 2 ^ 31 := by
  intro b hb
  cases t with
  | ptr c =>
      cases hb
      exact h
  | array c n =>
      cases hb
      exact h
  | _ => cases hb

variable {L : Layout} {out : Outside} {W : World} {B : Base W} {S : Structs} {room : Nat → Nat}
  {ws vs : List Word} {μ μ₁ μ' : Mem} {v : Word} {l x y : List Item}

/-! ### Arguments -/

/-- The code puts the values on the stack, the last one on top. -/
def Pushes (L : Layout) (out : Outside) (B : Base W) (l : List Item) (ws : List Word) (μ : Mem)
    (vs : List Word) (μ' : Mem) : Prop :=
  ∀ m, At W B ws μ m → m.pc + size l ≤ 2 ^ 31 →
    Runs L out l m fun m' => At W B (vs.reverse ++ ws) μ' m'

theorem pushes_nil : Pushes L out B [] ws μ [] μ := fun _ h _ => .nil h

/-- One argument pushed, and then the rest. -/
theorem pushes_cons (hx : Yields L out B x ws μ v μ₁) (hroom : B.low + 8 * (ws.length + 1) ≤ B.top)
    (hy : Pushes L out B y (v :: ws) μ₁ vs μ') :
    Pushes L out B (x ++ push ++ y) ws μ (v :: vs) μ' := by
  intro m hat hpc
  rw [List.append_assoc] at hpc ⊢
  refine hx.runs hat hpc fun m₁ h₁ hv hpc₁ => ?_
  refine .append_pc (runs_push_at h₁ hroom fun m₂ h₂ _ hp₂ => ?_)
  rw [hv] at h₂
  rw [size_append] at hpc₁
  refine (hy m₂ h₂ (by omega)).mono fun m₃ h₃ => ?_
  rw [List.reverse_cons, List.append_assoc]
  exact h₃

/-- A call whose arguments have been pushed. -/
theorem yields_call {func : Callee} {t : Ty} (hm : Meets out W L room)
    (hx : Pushes L out B x ws μ vs μ₁)
    (hfit : func.Fits vs.length) (hroom : B.low + 8 * ws.length + func.room room ≤ B.top)
    (hc : W.Calls func vs μ₁ v μ') :
    Yields L out B (x ++ callCode ws.length func vs.length ++ castTo S t) ws μ
      (narrow S t v) μ' := by
  refine Yields.castTo (fun m hat hpc => ?_)
  rw [size_append] at hpc
  refine .append_pc ((hx m hat (by omega)).mono fun m₁ h₁ hp => ?_)
  exact runs_callCode hm h₁ hfit hroom hc (by omega) fun m₂ h₂ hv => ⟨h₂, hv⟩

/-! ### Trees -/

/-- The code of an increment or a decrement. -/
theorem stepCode_ok {t : Ty} {down : Bool} {address after : List Item}
    (h : stepCode S t down address after = .ok l) : 0 < t.stride S ∧
      l = address ++ push ++ load S t ++ emit [0x49, 0x89, 0xc3] ++ emit [0x48, 0x05] ++
        u32 (if down then 2 ^ 32 - t.stride S else t.stride S) ++ pop10 ++ store S t ++ after := by
  obtain ⟨h₀, hl⟩ := ok_guard.mp h
  cases hl
  exact ⟨Nat.lt_of_lt_of_le Nat.zero_lt_one (Nat.not_lt.mp h₀), rfl⟩

mutual

/-- **The code of an expression computes its value.** -/
theorem gen_yields (hm : Meets out W L room) :
    ∀ (e : Node) {ws : List Word} {μ : Mem} {v : Word} {μ' : Mem}
    {l : List Item}, gen S ws.length e = .ok l → e.Fits S →
      B.low + 8 * ws.length + e.room room ≤ B.top →
      Eval W S e μ v μ' → Yields L out B l ws μ v μ'
  | .num _, ws, μ, v, μ', l, hl, hfit, hroom, he => by
      cases he
      cases hl
      exact yields_imm
  | .str _ _, ws, μ, v, μ', l, hl, hfit, hroom, he => by
      cases he
      cases hl
      rw [← hm.region]
      exact yields_ref
  | .var s, ws, μ, v, μ', l, hl, hfit, hroom, he => by
      cases he with
      | var hp hv =>
          cases hl
          exact (yields_addrVar hm.region hfit hp).load hv
  | .deref a t, ws, μ, v, μ', l, hl, hfit, hroom, he => by
      cases he with
      | deref ha hv =>
          obtain ⟨x, hx, hl⟩ := bind_eq_ok.mp hl
          cases hl
          exact (gen_yields hm a hx hfit hroom ha).load hv
  | .member a offset t, ws, μ, v, μ', l, hl, hfit, hroom, he => by
      cases he with
      | member ha hv =>
          obtain ⟨x, hx, hl⟩ := bind_eq_ok.mp hl
          cases hl
          exact ((addr_yields hm a hx hfit.2 hroom ha).offset hfit.1).load hv
  | .addr a, ws, μ, v, μ', l, hl, hfit, hroom, he => by
      cases he with
      | addr ha =>
          exact addr_yields hm a hl hfit hroom ha
  | .cast t a, ws, μ, v, μ', l, hl, hfit, hroom, he => by
      cases he with
      | cast ha =>
          obtain ⟨x, hx, hl⟩ := bind_eq_ok.mp hl
          cases hl
          exact (gen_yields hm a hx hfit hroom ha).castTo
  | .neg a, ws, μ, v, μ', l, hl, hfit, hroom, he => by
      cases he with
      | neg ha =>
          obtain ⟨x, hx, hl⟩ := bind_eq_ok.mp hl
          cases hl
          exact (gen_yields hm a hx hfit hroom ha).neg
  | .bitnot a, ws, μ, v, μ', l, hl, hfit, hroom, he => by
      cases he with
      | bitnot ha =>
          obtain ⟨x, hx, hl⟩ := bind_eq_ok.mp hl
          cases hl
          exact (gen_yields hm a hx hfit hroom ha).bitnot
  | .not a, ws, μ, v, μ', l, hl, hfit, hroom, he => by
      cases he with
      | not ha =>
          obtain ⟨x, hx, hl⟩ := bind_eq_ok.mp hl
          cases hl
          exact (gen_yields hm a hx hfit hroom ha).not
  | .call func args t, ws, μ, v, μ', l, hl, hfit, hroom, he => by
      cases he with
      | call ha hc =>
          obtain ⟨x, hx, hl⟩ := bind_eq_ok.mp hl
          cases hl
          have hroom' : B.low + 8 * ws.length + max (args.room room) (func.room room) ≤ B.top :=
            hroom
          have hlen := ha.length_eq
          rw [← hlen]
          exact yields_call hm (genArgs_pushes hm args hx hfit.2 (by omega) ha)
            (hlen ▸ hfit.1) (by omega) hc
  | .binary op a b t, ws, μ, v, μ', l, hl, hfit, hroom, he => by
      have hroom' : B.low + 8 * ws.length + max (a.room room) (8 + b.room room) ≤ B.top := hroom
      obtain ⟨x, hx, hl⟩ := bind_eq_ok.mp hl
      -- `&&` and `||` branch over their right operand; every other operator has both
      split at hl
      · next hlogic =>
          obtain ⟨y, hy, hl⟩ := bind_eq_ok.mp hl
          cases hl
          cases he with
          | decided hop ha =>
              have hx' := gen_yields hm a hx hfit.2.1 (by omega) ha
              rcases hop with ⟨rfl, rfl⟩ | ⟨rfl, hne⟩
              · exact yields_decided (c := .e) hx' rfl
              · exact yields_decided (c := .ne) hx' (bne_iff_ne.mpr hne)
          | open_ hop ha hb =>
              have hx' := gen_yields hm a hx hfit.2.1 (by omega) ha
              have hy' := gen_yields hm b hy hfit.2.2 (by omega) hb
              rcases hop with ⟨rfl, hne⟩ | ⟨rfl, rfl⟩
              · exact yields_open (c := .e) hx' hy' (beq_eq_false_iff_ne.mpr hne)
              · exact yields_open (c := .ne) hx' hy' rfl
          | binary ha hb hv => rcases hlogic with rfl | rfl <;> cases hv
      · next hlogic =>
          obtain ⟨y, hy, hl⟩ := bind_eq_ok.mp hl
          cases hl
          cases he with
          | decided hop ha => exact absurd (hop.imp And.left And.left) hlogic
          | open_ hop ha hb => exact absurd (hop.imp And.left And.left) hlogic
          | binary ha hb hv =>
              exact (gen_yields hm a hx hfit.2.1 (by omega) ha).binary
                (gen_yields hm b hy hfit.2.2 (by rw [List.length_cons]; omega) hb) (by omega)
                (Ty.base_lt hfit.1) hv
  | .assign none a b, ws, μ, v, μ', l, hl, hfit, hroom, he => by
      cases he with
      | assign ha hb hw =>
          have hroom' : B.low + 8 * ws.length + max (a.room room) (8 + b.room room) ≤ B.top := hroom
          obtain ⟨x, hx, hl⟩ := bind_eq_ok.mp hl
          obtain ⟨y, hy, hl⟩ := bind_eq_ok.mp hl
          cases hl
          exact (addr_yields hm a hx hfit.2.1 (by omega) ha).assign
            (gen_yields hm b hy hfit.2.2 (by rw [List.length_cons]; omega) hb) (by omega) hw
  | .assign (some op) a b, ws, μ, v, μ', l, hl, hfit, hroom, he => by
      cases he with
      | update ha hx₀ hb hv hw =>
          have hroom' : B.low + 8 * ws.length + max (a.room room) (16 + b.room room) ≤ B.top :=
            hroom
          obtain ⟨x, hx, hl⟩ := bind_eq_ok.mp hl
          obtain ⟨y, hy, hl⟩ := bind_eq_ok.mp hl
          cases hl
          exact (addr_yields hm a hx hfit.2.1 (by omega) ha).update hx₀
            (gen_yields hm b hy hfit.2.2 (by simp only [List.length_cons]; omega) hb) (by omega)
            (Ty.base_lt hfit.1) hv hw
  | .pre down a, ws, μ, v, μ', l, hl, hfit, hroom, he => by
      cases he with
      | pre ha hx₀ hw =>
          have hroom' : B.low + 8 * ws.length + max (a.room room) 8 ≤ B.top := hroom
          obtain ⟨x, hx, hl⟩ := bind_eq_ok.mp hl
          obtain ⟨h₀, rfl⟩ := stepCode_ok hl
          exact (addr_yields hm a hx hfit.2 (by omega) ha).pre hx₀ (by omega) h₀ hfit.1 hw
  | .post down a, ws, μ, v, μ', l, hl, hfit, hroom, he => by
      cases he with
      | post ha hx₀ hw =>
          have hroom' : B.low + 8 * ws.length + max (a.room room) 8 ≤ B.top := hroom
          obtain ⟨x, hx, hl⟩ := bind_eq_ok.mp hl
          obtain ⟨h₀, rfl⟩ := stepCode_ok hl
          exact (addr_yields hm a hx hfit.2 (by omega) ha).post hx₀ (by omega) h₀ hfit.1 hw
  | .cond a b c, ws, μ, v, μ', l, hl, hfit, hroom, he => by
      have hroom' : B.low + 8 * ws.length + max (a.room room)
          (max (b.room room) (c.room room)) ≤ B.top := hroom
      obtain ⟨x, hx, hl⟩ := bind_eq_ok.mp hl
      obtain ⟨y, hy, hl⟩ := bind_eq_ok.mp hl
      obtain ⟨z, hz, hl⟩ := bind_eq_ok.mp hl
      cases hl
      cases he with
      | yes ha hv hb =>
          exact yields_yes (gen_yields hm a hx hfit.1 (by omega) ha) hv
            (gen_yields hm b hy hfit.2.1 (by omega) hb)
      | no ha hc =>
          exact yields_no (gen_yields hm a hx hfit.1 (by omega) ha)
            (gen_yields hm c hz hfit.2.2 (by omega) hc)

/-- The code of an address computes it. -/
theorem addr_yields (hm : Meets out W L room) :
    ∀ (e : Node) {ws : List Word} {μ : Mem} {p : Word} {μ' : Mem}
    {l : List Item}, addr S ws.length e = .ok l → e.Fits S →
      B.low + 8 * ws.length + e.room room ≤ B.top →
      Place W S e μ p μ' → Yields L out B l ws μ p μ'
  | .var s, ws, μ, p, μ', l, hl, hfit, hroom, he => by
      cases he with
      | var hp =>
          cases hl
          exact yields_addrVar hm.region hfit hp
  | .deref a t, ws, μ, p, μ', l, hl, hfit, hroom, he => by
      cases he with
      | deref ha =>
          exact gen_yields hm a hl hfit hroom ha
  | .member a offset t, ws, μ, p, μ', l, hl, hfit, hroom, he => by
      cases he with
      | member ha =>
          obtain ⟨x, hx, hl⟩ := bind_eq_ok.mp hl
          cases hl
          exact (addr_yields hm a hx hfit.2 hroom ha).offset hfit.1
  | .num _, _, _, _, _, _, _, _, _, he => by cases he
  | .str _ _, _, _, _, _, _, _, _, _, he => by cases he
  | .call _ _ _, _, _, _, _, _, _, _, _, he => by cases he
  | .addr _, _, _, _, _, _, _, _, _, he => by cases he
  | .cast _ _, _, _, _, _, _, _, _, _, he => by cases he
  | .neg _, _, _, _, _, _, _, _, _, he => by cases he
  | .not _, _, _, _, _, _, _, _, _, he => by cases he
  | .bitnot _, _, _, _, _, _, _, _, _, he => by cases he
  | .binary _ _ _ _, _, _, _, _, _, _, _, _, he => by cases he
  | .assign _ _ _, _, _, _, _, _, _, _, _, he => by cases he
  | .cond _ _ _, _, _, _, _, _, _, _, _, he => by cases he
  | .post _ _, _, _, _, _, _, _, _, _, he => by cases he
  | .pre _ _, _, _, _, _, _, _, _, _, he => by cases he

/-- The code of arguments pushes their values. -/
theorem genArgs_pushes (hm : Meets out W L room) :
    ∀ (args : Args) {ws : List Word} {μ : Mem} {vs : List Word}
    {μ' : Mem} {l : List Item}, genArgs S ws.length args = .ok l → args.Fits S →
      B.low + 8 * ws.length + args.room room ≤ B.top → EvalArgs W S args μ vs μ' →
        Pushes L out B l ws μ vs μ'
  | .nil, ws, μ, vs, μ', l, hl, hfit, hroom, he => by
      cases he
      cases hl
      exact pushes_nil
  | .cons a rest, ws, μ, vs, μ', l, hl, hfit, hroom, he => by
      cases he with
      | cons ha hr =>
          have hroom' : B.low + 8 * ws.length + max (a.room room) (8 + rest.room room) ≤ B.top :=
            hroom
          obtain ⟨x, hx, hl⟩ := bind_eq_ok.mp hl
          obtain ⟨y, hy, hl⟩ := bind_eq_ok.mp hl
          cases hl
          exact pushes_cons (gen_yields hm a hx hfit.1 (by omega) ha) (by omega)
            (genArgs_pushes hm rest hy hfit.2 (by rw [List.length_cons]; omega) hr)

end

/-- **Expressions.**  The machine shows the memory and has room for what is pending.  When the tree
has a value, the code of the tree runs to its end with the value in `rax`; the stack is as it was,
the program's bytes are what the assignments of the tree leave, and no others have changed outside
of the free stack. -/
theorem gen_correct {e : Node} {code : Nat → Byte} {m : Machine} (hm : Meets out W L room)
    (hl : gen S ws.length e = .ok l) (hfit : e.Fits S)
    (hroom : B.low + 8 * ws.length + e.room room ≤ B.top) (he : Eval W S e μ v μ')
    (hat : At W B ws μ m) (hpc : m.pc + size l ≤ 2 ^ 31) (hc : CodeAt code m.pc (link L m.pc l)) :
    ∃ m', Steps out code m m' ∧ m'.pc = m.pc + size l ∧ m'.reg .rax = v ∧ At W B ws μ' m' := by
  obtain ⟨m', hs, hp, hat', hv⟩ := gen_yields hm e hl hfit hroom he m hat hpc code hc
  exact ⟨m', hs, hp, hv, hat'⟩

/-- A global of 8 bytes and nothing else. -/
def smallWorld : World where
  data p := 65536 ≤ p.toNat ∧ p.toNat < 65544
  region := quietLayout.region
  tls := 0
  frame := 4096
  call _ _ _ _ _ := False
  syscall _ _ _ _ := False

/-- The data lies below the stack. -/
theorem smallWorld_apart (p : Word) (h : smallWorld.data p) : p.toNat < 0 ∨ 4096 ≤ p.toNat :=
  .inr (Nat.le_trans (by decide) h.1)

theorem smallTop_lt : 4096 < 2 ^ 64 := by decide

theorem smallTop_aligned : 4096 % 16 = 0 := by decide

/-- Where the small world's data stands. -/
def smallBase : Base smallWorld :=
  ⟨0, 4096, fun _ => 0, smallTop_lt, smallTop_aligned, smallWorld_apart⟩

/-- A global of eight bytes. -/
def smallGlobal : Sym := ⟨.u64, 0, true, false⟩

/-- `(x = 5) + 2 * x` -/
def smallNode : Node :=
  .binary .add (.assign none (.var smallGlobal) (.num 5))
    (.binary .mul (.num 2) (.var smallGlobal) .u64) .u64

/-- A machine with an empty stack and zero memory. -/
def smallMachine : Machine :=
  ⟨fun r => if r = .rsp ∨ r = .rbp then 4096 else 0, fun _ => 0, 0, none, 0⟩

/-- The global is the world's. -/
theorem smallWorld_owns : smallWorld.Owns 8 65536 := by
  intro i hi
  have h := toNat_add_ofNat (a := 65536) (i := i) (by show 65536 + i < _; omega)
  show 65536 ≤ (_ : Word).toNat ∧ (_ : Word).toNat < 65544
  rw [h]
  show 65536 ≤ 65536 + i ∧ 65536 + i < 65544
  omega

/-- The expression's value is fifteen. -/
theorem smallNode_eval :
    Eval smallWorld noStructs smallNode (fun _ => 0) 15 (writeMem (fun _ => 0) 8 65536 5) := by
  have hfinds : ∀ μ, smallWorld.Finds μ smallGlobal 65536 := fun μ => rfl
  have hread : smallWorld.Reads noStructs (writeMem (fun _ => 0) 8 65536 5) .u64 65536 5 :=
    ⟨by decide, smallWorld_owns, by decide⟩
  have hassign : Eval smallWorld noStructs (.assign none (.var smallGlobal) (.num 5)) (fun _ => 0)
      (narrow noStructs .u64 5) (writeMem (fun _ => 0) 8 65536 5) :=
    .assign (.var (hfinds _)) .num ⟨rfl, by decide, smallWorld_owns, rfl⟩
  have hmul : Eval smallWorld noStructs (.binary .mul (.num 2) (.var smallGlobal) .u64)
      (writeMem (fun _ => 0) 8 65536 5) 10 (writeMem (fun _ => 0) 8 65536 5) :=
    .binary .num (.var (hfinds _) hread) rfl
  exact .binary hassign hmul (by decide)

/-- The machine has an empty stack. -/
theorem smallMachine_at : At smallWorld smallBase [] (fun _ => 0) smallMachine :=
  ⟨rfl, Nat.zero_le _, rfl, rfl, fun _ _ => rfl, fun j hj => absurd hj (Nat.not_lt_zero j),
    fun _ _ _ => rfl⟩

/-- Nothing outside is called. -/
theorem smallWorld_meets : Meets quietOutside smallWorld quietLayout fun _ => 0 :=
  ⟨rfl, fun _ => Nat.two_pow_pos 31, fun h => h.elim, fun h => h.elim⟩

theorem gen_correct_small : ∃ l, gen noStructs 0 smallNode = .ok l ∧ ∀ code,
    CodeAt code 0 (link quietLayout 0 l) →
      ∃ m', Steps quietOutside code smallMachine m' ∧ m'.pc = 0 + size l ∧ m'.reg .rax = 15 ∧
        At smallWorld smallBase [] (writeMem (fun _ => 0) 8 65536 5) m' := by
  refine ⟨_, rfl, fun code hc => ?_⟩
  have hglobal : smallGlobal.Fits := ⟨fun h => (by cases h), fun _ h => (by cases h)⟩
  exact gen_correct smallWorld_meets
    (show gen noStructs ([] : List Word).length smallNode = .ok _ from rfl)
    ⟨by decide, ⟨by decide, hglobal, trivial⟩, by decide, trivial, hglobal⟩
      (by decide) smallNode_eval
    smallMachine_at (by decide) hc

end Efishell.Compiler
