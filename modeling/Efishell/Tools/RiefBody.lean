import Efishell.Tools.RiefCorrect
import Efishell.Tools.RiefStmt

/-!
# Tools — the code of a statement runs as the statement does

`stmt` against `Exec`, by induction on the run: the code takes a machine that shows the memory
before to one that shows the memory after, at the place where the statement's outcome says that it
goes on.  For the body of a function that place is always the epilogue, with the result in `rax`.

* `stmt_steps`: the code of a statement runs as the statement does.
* `body_steps`: the body of a function ends at its epilogue.
-/

namespace Efishell.Compiler

open X86

/-! ### The targets of jumps -/

theorem size_cons (x : Item) (l : List Item) : size (x :: l) = x.size + size l := rfl

theorem sizeOf_cons (x : Piece) (l : List Piece) : sizeOf (x :: l) = x.size + sizeOf l := rfl

/-- The pieces of two parts. -/
@[simp] theorem sizeOf_append (l l' : List Piece) : sizeOf (l ++ l') = sizeOf l + sizeOf l' := by
  rw [sizeOf, sizeOf, sizeOf, List.map_append, List.sum_append]

@[simp] theorem sizeOf_known (l : List Item) : sizeOf (known l) = size l := by
  rw [sizeOf, known, List.map_map]
  rfl

/-- Placed pieces keep their size. -/
theorem size_place (T : Exit → Nat) (l : List Piece) : ∀ p, size (place T p l) = sizeOf l := by
  induction l with
  | nil => exact fun _ => rfl
  | cons x l ih =>
      intro p
      cases x with
      | item x => rw [place, size_cons, ih, sizeOf_cons]; rfl
      | exit k => rw [place, size_append, ih, sizeOf_cons]; rfl

/-- One part is placed after the other. -/
theorem place_append (T : Exit → Nat) (l l' : List Piece) : ∀ p,
    place T p (l ++ l') = place T p l ++ place T (p + sizeOf l) l' := by
  induction l with
  | nil => exact fun _ => rfl
  | cons x l ih =>
      intro p
      cases x with
      | item x => rw [List.cons_append, place, place, ih, sizeOf_cons, ← Nat.add_assoc]; rfl
      | exit k => rw [List.cons_append, place, place, ih, sizeOf_cons, ← Nat.add_assoc,
          List.append_assoc]; rfl

/-- Pieces without an open jump are placed as they are. -/
theorem place_known (T : Exit → Nat) (l : List Item) : ∀ p, place T p (known l) = l := by
  induction l with
  | nil => exact fun _ => rfl
  | cons x l ih => exact fun p => congrArg (x :: ·) (ih _)

/-- A jump filled in keeps its size. -/
theorem sizeOf_fix (k : Exit) (t : Nat) (l : List Piece) :
    ∀ p, sizeOf (fix k t p l) = sizeOf l := by
  induction l with
  | nil => exact fun _ => rfl
  | cons x l ih =>
      intro p
      cases x with
      | item x => rw [fix, sizeOf_cons, sizeOf_cons, ih]
      | exit j =>
          rw [fix, sizeOf_append, sizeOf_cons, ih]
          refine congrArg (· + _) ?_
          split <;> rfl

/-- A jump that `fix` wrote goes where it says. -/
theorem place_fix (T : Exit → Nat) (k : Exit) (t q : Nat) (l : List Piece) : ∀ p,
    place T (q + p) (fix k t p l) = place (Function.update T k (q + t)) (q + p) l := by
  induction l with
  | nil => exact fun _ => rfl
  | cons x l ih =>
      intro p
      cases x with
      | item x => rw [fix, place, place, Nat.add_assoc, ih]
      | exit j =>
          rw [fix, place_append, place, Nat.add_assoc q p 5]
          by_cases h : j = k
          · subst h
            rw [if_pos rfl, place_known, sizeOf_known, Function.update_self, ← ih,
              Nat.add_sub_add_left, Nat.add_assoc]
            rfl
          · rw [if_neg h, Function.update_of_ne h, ← ih, place, place, List.append_nil,
              Nat.add_assoc q p 5, Nat.add_assoc]
            rfl

/-- Code moved as a whole keeps its distances. -/
theorem place_shift (T : Exit → Nat) (q : Nat) (l : List Piece) : ∀ p,
    place (fun k => q + T k) (q + p) l = place T p l := by
  induction l with
  | nil => exact fun _ => rfl
  | cons x l ih =>
      intro p
      cases x with
      | item x => rw [place, place, Nat.add_assoc, ih]
      | exit j => rw [place, place, Nat.add_assoc q p 5, ih, Nat.add_sub_add_left]

/-! ### Limits -/

/-- The expressions of a statement are within the limits. -/
def Stmt.Fits (S : Structs) : Stmt → Prop
  | .null | .brk | .cont => True
  | .seq a b => a.Fits S ∧ b.Fits S
  | .expr a | .ret a => ∀ e ∈ a, e.Fits S
  | .cond a b c => a.Fits S ∧ b.Fits S ∧ c.Fits S
  | .loop test body step => (∀ e ∈ test, e.Fits S) ∧ body.Fits S ∧ ∀ e ∈ step, e.Fits S

/-- The stack an optional expression needs. -/
def roomOption (room : Nat → Nat) : Option Node → Nat
  | none => 0
  | some a => a.room room

/-- The bytes of stack that a statement needs. -/
def Stmt.room (room : Nat → Nat) : Stmt → Nat
  | .null | .brk | .cont => 0
  | .seq a b => max (a.room room) (b.room room)
  | .expr a | .ret a => roomOption room a
  | .cond a b c => max (a.room room) (max (b.room room) (c.room room))
  | .loop test body step => max (roomOption room test) (max (body.room room) (roomOption room step))

/-! ### Runs -/

section Runs

variable {L : Layout} {out : Outside} {W : World} {B : Base W} {S : Structs} {room : Nat → Nat}
  {μ μ' : Mem} {v : Word} {code : Nat → Byte} {m : Machine} {x y z : List Item}

/-- An expression within a statement. -/
theorem gen_steps {e : Node} (hm : Meets out W L room) (hl : gen S 0 e = .ok x) (hfit : e.Fits S)
    (hroom : B.low + e.room room ≤ B.top) (he : Eval W S e μ v μ') (hat : At W B [] μ m)
    (hc : CodeAt code m.pc (link L m.pc x)) (hpc : m.pc + size x ≤ 2 ^ 31) :
    ∃ m', Steps out code m m' ∧ m'.pc = m.pc + size x ∧ At W B [] μ' m' ∧ m'.reg .rax = v := by
  have hlow : B.low + 8 * ([] : List Word).length + e.room room ≤ B.top := hroom
  exact gen_yields hm e hl hfit hlow he m hat hpc code hc

/-- One that may be missing. -/
theorem genOption_steps {e : Option Node} (hm : Meets out W L room) (hl : genOption S e = .ok x)
    (hfit : ∀ a ∈ e, a.Fits S) (hroom : B.low + roomOption room e ≤ B.top) (he : Does W S e μ μ')
    (hat : At W B [] μ m) (hc : CodeAt code m.pc (link L m.pc x)) (hpc : m.pc + size x ≤ 2 ^ 31) :
    ∃ m', Steps out code m m' ∧ m'.pc = m.pc + size x ∧ At W B [] μ' m' := by
  cases he with
  | none =>
      cases hl
      exact ⟨m, .refl, rfl, hat⟩
  | some ha =>
      obtain ⟨m', hs, hp, h, -⟩ := gen_steps hm hl (hfit _ rfl) hroom ha hat hc hpc
      exact ⟨m', hs, hp, h⟩

/-- A test falls through when it holds, and goes over the rest of the loop when it does not. -/
theorem test_steps {e : Option Node} {b : Bool} {rest : Nat} (hm : Meets out W L room)
    (hl : genOption S e = .ok x) (hfit : ∀ a ∈ e, a.Fits S)
    (hroom : B.low + roomOption room e ≤ B.top)
    (he : Tests W S e μ b μ') (hat : At W B [] μ m)
    (hc : CodeAt code m.pc (link L m.pc (testCode e x rest)))
    (hpc : m.pc + size (testCode e x rest) + rest < 2 ^ 31) :
    ∃ m', Steps out code m m' ∧ At W B [] μ' m' ∧
      m'.pc = m.pc + size (testCode e x rest) + if b then 0 else rest := by
  cases he with
  | none => exact ⟨m, .refl, hat, rfl⟩
  | @some a _ v _ ha =>
      have hcode : testCode (some a) x rest = x ++ (emit [0x48, 0x85, 0xc0] ++ branch .e rest) :=
        List.append_assoc _ _ _
      have hthree : size (emit [0x48, 0x85, 0xc0]) = 3 := rfl
      have hsix : size (branch .e rest) = 6 := rfl
      rw [hcode] at hc hpc ⊢
      simp only [size_append, hthree, hsix] at hpc ⊢
      rw [link_append, codeAt_append, length_link, link_append, codeAt_append,
        length_link, hthree] at hc
      obtain ⟨hx, htest, hbranch⟩ := hc
      obtain ⟨m₁, hs₁, hp₁, h₁, hv⟩ := gen_steps hm hl (hfit _ rfl) hroom ha hat hx (by omega)
      rw [← hp₁] at htest hbranch
      obtain ⟨m₂, hs₂, -, hk, hf, hp₂⟩ : ∃ m', Steps out code m₁ m' ∧
        m'.pc = m₁.pc + 3 ∧ Keeps m₁ m' ∧
          m'.flags = some (.test v) ∧ m'.pc = m₁.pc + 3 :=
        runs_tested (fun m' hk _ hf hp => ⟨hk, hv ▸ hf, hp⟩) code htest
      rw [← hp₂] at hbranch
      refine ⟨_, (hs₁.trans hs₂).tail (step_branch hbranch (by omega) hf), ?_, ?_⟩
      · rw [holds_test_e]
        split <;> exact (h₁.keeps hk).keeps ⟨rfl, rfl, rfl, rfl⟩
      · rw [holds_test_e]
        cases hb : v == 0 with
        | true =>
            rw [if_pos rfl, bne, hb]
            show m₂.pc + 6 + rest = _
            rw [hp₂, hp₁]
            show _ = _ + rest
            omega
        | false =>
            rw [if_neg Bool.false_ne_true, bne, hb]
            show m₂.pc + 6 = _
            rw [hp₂, hp₁]
            show _ = _ + 0
            omega

/-- Where the machine is after a statement. -/
def Lands (T : Exit → Nat) (next : Nat) (m : Machine) : Outcome → Prop
  | .done => m.pc = next
  | .brk => m.pc = T .brk
  | .cont => m.pc = T .cont
  | .ret v => m.pc = T .ret ∧ m.reg .rax = v

/-- Where an exit lands does not depend on what follows. -/
theorem Lands.next_of_ne {T : Exit → Nat} {n n' : Nat} {o : Outcome} (h : Lands T n m o)
    (ho : o ≠ .done) :
    Lands T n' m o := by
  cases o with
  | done => exact absurd rfl ho
  | _ => exact h

/-- A statement that ran to its end goes on somewhere else. -/
theorem Lands.over {T : Exit → Nat} {o : Outcome} {p q : Nat} (h : Lands T p m o)
    (hat : At W B [] μ m) (hgo : m.pc = p → Step out code m { m with pc := q }) :
    ∃ m', Steps out code m m' ∧ At W B [] μ m' ∧ Lands T q m' o := by
  cases o with
  | done => exact ⟨_, .single (hgo h), hat.keeps ⟨rfl, rfl, rfl, rfl⟩, rfl⟩
  | _ => exact ⟨m, .refl, hat, h⟩

/-- A jump out. -/
theorem exit_steps {T : Exit → Nat} {k : Exit}
    (hc : CodeAt code m.pc (link L m.pc (place T m.pc [.exit k])))
    (h₁ : m.pc + 5 ≤ T k) (h₂ : T k < 2 ^ 31) : Step out code m { m with pc := T k } := by
  rw [place, place, List.append_nil] at hc
  have hgo : Step out code m _ := step_goto hc (by omega)
  rwa [Nat.add_sub_cancel' h₁] at hgo

/-- The code of an `if`: the test, one side, the jump over the other one, and that one. -/
theorem cond_code {loop : Bool} {a : Node} {b c : Stmt} {l : List Piece} (T : Exit → Nat)
    (h : stmt S loop (.cond a b c) = .ok l) : ∃ x y z, gen S 0 a = .ok x ∧ stmt S loop b = .ok y ∧
      stmt S loop c = .ok z ∧ ∀ head, head = testCode (some a) x (sizeOf y + 5) →
        sizeOf l = size head + sizeOf y + 5 + sizeOf z ∧
        ∀ p, place T p l = head ++ (place T (p + size head) y ++ (jump none (sizeOf z) ++
          place T (p + size head + sizeOf y + 5) z)) := by
  obtain ⟨x, hx, h⟩ := bind_eq_ok.mp h
  obtain ⟨y, hy, h⟩ := bind_eq_ok.mp h
  obtain ⟨z, hz, h⟩ := bind_eq_ok.mp h
  cases h
  refine ⟨x, y, z, hx, hy, hz, ?_⟩
  rintro head rfl
  have hfive : size (jump none (sizeOf z)) = 5 := rfl
  have hhead : x ++ emit [0x48, 0x85, 0xc0] ++ jump (some 0x84) (sizeOf y + 5) =
    testCode (some a) x (sizeOf y + 5) := rfl
  rw [hhead]
  constructor
  · simp only [sizeOf_append, sizeOf_known, hfive]
  · intro p
    simp only [List.append_assoc, place_append, place_known, sizeOf_known, hfive]

/-- The code of a loop: the test, the body with its own ways out, the step, and the jump back. -/
theorem loop_code {loop : Bool} {test step : Option Node} {body : Stmt} {l : List Piece}
    (T : Exit → Nat)
    (h : stmt S loop (.loop test body step) = .ok l) : ∃ x y z, genOption S test = .ok x ∧
      stmt S true body = .ok y ∧ genOption S step = .ok z ∧
        ∀ head, head = testCode test x (sizeOf y + size z + 5) →
        sizeOf l = size head + sizeOf y + size z + 5 ∧
        ∀ p, place T p l = head ++ (place (Function.update (Function.update T .brk
            (p + (size head + sizeOf y + size z + 5))) .cont (p + (size head + sizeOf y)))
              (p + size head) y ++
          (z ++ jump none (2 ^ 32 - (size head + sizeOf y + size z + 5)))) := by
  obtain ⟨x, hx, h⟩ := bind_eq_ok.mp h
  obtain ⟨y, hy, h⟩ := bind_eq_ok.mp h
  obtain ⟨z, hz, h⟩ := bind_eq_ok.mp h
  cases h
  refine ⟨x, y, z, hx, hy, hz, ?_⟩
  rintro head rfl
  have hfive : ∀ n, size (jump none n) = 5 := fun _ => rfl
  constructor
  · simp only [sizeOf_fix, sizeOf_append, sizeOf_known, size_append, hfive]
    omega
  · intro p
    have h₁ := fun l =>
      place_fix T .brk (size (testCode test x (sizeOf y + size z + 5)) + sizeOf y + size z + 5)
      p l 0
    have h₂ := fun T' l =>
      place_fix T' .cont (size (testCode test x (sizeOf y + size z + 5)) + sizeOf y) p l 0
    simp only [Nat.add_zero] at h₁ h₂
    rw [h₁, h₂, List.append_assoc, place_append, place_append, place_known,
      place_known, sizeOf_known]

/-- A turn of a loop begins: the machine is at the body, whose ways out lead to the end of the loop,
to its step, and to where those of the loop lead. -/
theorem loop_turn {loop : Bool} {test step : Option Node} {body : Stmt} {l : List Piece}
    {T : Exit → Nat} (hm : Meets out W L room) (hl : stmt S loop (.loop test body step) = .ok l)
    (hfit : (Stmt.loop test body step).Fits S)
    (hroom : B.low + (Stmt.loop test body step).room room ≤ B.top)
    (ht : Tests W S test μ true μ') (hat : At W B [] μ m)
    (hc : CodeAt code m.pc (link L m.pc (place T m.pc l)))
    (hT : ∀ k, m.pc + sizeOf l ≤ T k ∧ T k < 2 ^ 31) :
    ∃ y z m₁ T', stmt S true body = .ok y ∧ genOption S step = .ok z ∧ Steps out code m m₁ ∧
      At W B [] μ' m₁ ∧
      CodeAt code m₁.pc (link L m₁.pc (place T' m₁.pc y)) ∧
        (∀ k, m₁.pc + sizeOf y ≤ T' k ∧ T' k < 2 ^ 31) ∧
      T' .brk = m.pc + sizeOf l ∧ T' .cont = m₁.pc + sizeOf y ∧ T' .ret = T .ret ∧
      CodeAt code (m₁.pc + sizeOf y) (link L (m₁.pc + sizeOf y) z) ∧
      CodeAt code (m₁.pc + sizeOf y + size z)
        (link L (m₁.pc + sizeOf y + size z) (jump none (2 ^ 32 - sizeOf l))) ∧
      m.pc ≤ m₁.pc ∧ m₁.pc + sizeOf y + size z + 5 = m.pc + sizeOf l := by
  obtain ⟨x, y, z, hx, hy, hz, hcode⟩ := loop_code T hl
  obtain ⟨hsize, hplace⟩ := hcode _ rfl
  generalize hhead : testCode test x (sizeOf y + size z + 5) = head at hsize hplace
  have hroom' : B.low + max (roomOption room test)
      (max (body.room room) (roomOption room step)) ≤ B.top := hroom
  have hret := hT .ret
  rw [hplace, link_append, codeAt_append, length_link, link_append, codeAt_append,
    length_link, size_place, link_append, codeAt_append, length_link, ← hsize] at hc
  obtain ⟨hc₁, hc₂, hc₃, hc₄⟩ := hc
  obtain ⟨m₁, hs₁, h₁, hp₁⟩ :=
    test_steps hm hx hfit.1 (by omega) ht hat (hhead ▸ hc₁) (by rw [hhead]; omega)
  rw [hhead, if_pos rfl, Nat.add_zero] at hp₁
  rw [← hp₁] at hc₂ hc₃ hc₄
  refine ⟨y, z, m₁, _, hy, hz, hs₁, h₁, hc₂, fun k => ?_, rfl, ?_, rfl, hc₃,
    hc₄, by omega, by omega⟩
  · cases k with
    | brk => show _ ≤ m.pc + _ ∧ m.pc + _ < _; omega
    | cont => show _ ≤ m.pc + _ ∧ m.pc + _ < _; omega
    | ret => show _ ≤ T .ret ∧ T .ret < _; omega
  · show m.pc + _ = _
    omega

/-- **The code of a statement runs as the statement does.** -/
theorem stmt_steps (hm : Meets out W L room) {s : Stmt} {o : Outcome} (h : Exec W S s μ o μ') :
    ∀ {loop : Bool} {l : List Piece}, stmt S loop s = .ok l → s.Fits S →
      B.low + s.room room ≤ B.top →
      ∀ {m : Machine} {T : Exit → Nat}, At W B [] μ m →
        CodeAt code m.pc (link L m.pc (place T m.pc l)) →
        (∀ k, m.pc + sizeOf l ≤ T k ∧ T k < 2 ^ 31) →
          ∃ m', Steps out code m m' ∧ At W B [] μ' m' ∧ Lands T (m.pc + sizeOf l) m' o := by
  induction h with
  | null =>
      intro loop l hl hfit hroom m T hat hc hT
      cases hl
      exact ⟨m, .refl, hat, rfl⟩
  | @seq a b μ μ₁ o μ' _ _ iha ihb =>
      intro loop l hl hfit hroom m T hat hc hT
      obtain ⟨x, hx, hl⟩ := bind_eq_ok.mp hl
      obtain ⟨y, hy, hl⟩ := bind_eq_ok.mp hl
      cases hl
      have hroom' : B.low + max (a.room room) (b.room room) ≤ B.top := hroom
      rw [place_append, link_append, codeAt_append, length_link, size_place] at hc
      rw [sizeOf_append] at hT ⊢
      obtain ⟨m₁, hs₁, h₁, hp₁⟩ := iha hx hfit.1 (by omega) hat hc.1 fun k => by have := hT k; omega
      have hp₁' : m₁.pc = m.pc + sizeOf x := hp₁
      rw [← hp₁'] at hc
      obtain ⟨m₂, hs₂, h₂, hp₂⟩ := ihb hy hfit.2 (by omega) h₁ hc.2 fun k => by have := hT k; omega
      refine ⟨m₂, hs₁.trans hs₂, h₂, ?_⟩
      rwa [hp₁', Nat.add_assoc] at hp₂
  | @left a b μ o μ' _ ho iha =>
      intro loop l hl hfit hroom m T hat hc hT
      obtain ⟨x, hx, hl⟩ := bind_eq_ok.mp hl
      obtain ⟨y, hy, hl⟩ := bind_eq_ok.mp hl
      cases hl
      have hroom' : B.low + max (a.room room) (b.room room) ≤ B.top := hroom
      rw [place_append, link_append, codeAt_append, length_link, size_place] at hc
      rw [sizeOf_append] at hT
      obtain ⟨m₁, hs₁, h₁, hp₁⟩ := iha hx hfit.1 (by omega) hat hc.1 fun k => by have := hT k; omega
      exact ⟨m₁, hs₁, h₁, hp₁.next_of_ne ho⟩
  | expr ha =>
      intro loop l hl hfit hroom m T hat hc hT
      obtain ⟨x, hx, hl⟩ := bind_eq_ok.mp hl
      cases hl
      rw [place_known] at hc
      rw [sizeOf_known] at hT ⊢
      obtain ⟨m₁, hs, hp, h₁⟩ :=
        genOption_steps hm hx hfit hroom ha hat hc (by have := hT .ret; omega)
      exact ⟨m₁, hs, h₁, hp⟩
  | @ret a μ v μ' ha =>
      intro loop l hl hfit hroom m T hat hc hT
      obtain ⟨x, hx, hl⟩ := bind_eq_ok.mp hl
      cases hl
      rw [place_append, place_known, link_append, codeAt_append, length_link, sizeOf_known] at hc
      rw [sizeOf_append, sizeOf_known] at hT
      have hret := hT .ret
      have hfive : sizeOf [Piece.exit .ret] = 5 := rfl
      obtain ⟨m₁, hs, hp, h₁, hv⟩ := gen_steps hm hx (hfit a rfl) hroom ha hat hc.1 (by omega)
      rw [← hp] at hc
      exact ⟨_, hs.tail (exit_steps hc.2 (by omega) hret.2), h₁.keeps ⟨rfl, rfl, rfl, rfl⟩, rfl, hv⟩
  | retNone =>
      intro loop l hl hfit hroom m T hat hc hT
      cases hl
      rw [place_append, place_known, link_append, codeAt_append, length_link, sizeOf_known] at hc
      rw [sizeOf_append, sizeOf_known] at hT
      have hret := hT .ret
      have hfive : sizeOf [Piece.exit .ret] = 5 := rfl
      obtain ⟨m₁, hs, hp, h₁, hv⟩ := yields_imm m hat (by omega) code hc.1
      rw [← hp] at hc
      exact ⟨_, hs.tail (exit_steps hc.2 (by omega) hret.2), h₁.keeps ⟨rfl, rfl, rfl, rfl⟩, rfl, hv⟩
  | @yes a b c μ v μ₁ o μ' ha hv _ ih =>
      intro loop l hl hfit hroom m T hat hc hT
      obtain ⟨x, y, z, hx, hy, hz, hcode⟩ := cond_code T hl
      obtain ⟨hsize, hplace⟩ := hcode _ rfl
      generalize hhead : testCode (some a) x (sizeOf y + 5) = head at hsize hplace
      have hroom' : B.low + max (a.room room) (max (b.room room) (c.room room)) ≤ B.top := hroom
      have hfive : size (jump none (sizeOf z)) = 5 := rfl
      rw [hplace, link_append, codeAt_append, length_link, link_append, codeAt_append,
        length_link, size_place, link_append, codeAt_append, length_link, hfive] at hc
      obtain ⟨hc₀, hc₁, hc₂, -⟩ := hc
      have hret := hT .ret
      have ht : Tests W S (some a) μ true μ₁ := bne_iff_ne.mpr hv ▸ .some ha
      obtain ⟨m₁, hs₁, h₁, hp₁⟩ := test_steps hm (show genOption S (some a) = .ok x from hx)
        (fun _ h => Option.some_inj.mp h ▸ hfit.1)
          (show B.low + a.room room ≤ _ by omega) ht hat (hhead ▸ hc₀)
        (by rw [hhead]; omega)
      rw [hhead, if_pos rfl, Nat.add_zero] at hp₁
      rw [← hp₁] at hc₁ hc₂
      obtain ⟨m₂, hs₂, h₂, hp₂⟩ := ih hy hfit.2.1 (by omega) h₁ hc₁ fun k => by have := hT k; omega
      -- unless the branch left the statement, a jump goes over the other one
      obtain ⟨m₃, hs₃, h₃, hp₃⟩ := hp₂.over (q := m.pc + sizeOf l) h₂ fun hpc => by
        rw [← hpc] at hc₂
        have hgo : Step out code m₂ _ := step_goto hc₂ (by omega)
        rwa [show m₂.pc + 5 + sizeOf z = m.pc + sizeOf l by omega] at hgo
      exact ⟨m₃, (hs₁.trans hs₂).trans hs₃, h₃, hp₃⟩
  | @no a b c μ μ₁ o μ' ha _ ih =>
      intro loop l hl hfit hroom m T hat hc hT
      obtain ⟨x, y, z, hx, hy, hz, hcode⟩ := cond_code T hl
      obtain ⟨hsize, hplace⟩ := hcode _ rfl
      generalize hhead : testCode (some a) x (sizeOf y + 5) = head at hsize hplace
      have hroom' : B.low + max (a.room room) (max (b.room room) (c.room room)) ≤ B.top := hroom
      have hfive : size (jump none (sizeOf z)) = 5 := rfl
      rw [hplace, link_append, codeAt_append, length_link, link_append, codeAt_append,
        length_link, size_place, link_append, codeAt_append, length_link, hfive] at hc
      obtain ⟨hc₀, -, -, hc₃⟩ := hc
      have hret := hT .ret
      have ht : Tests W S (some a) μ false μ₁ := .some ha
      obtain ⟨m₁, hs₁, h₁, hp₁⟩ := test_steps hm (show genOption S (some a) = .ok x from hx)
        (fun _ h => Option.some_inj.mp h ▸ hfit.1)
          (show B.low + a.room room ≤ _ by omega) ht hat (hhead ▸ hc₀)
        (by rw [hhead]; omega)
      rw [hhead, if_neg Bool.false_ne_true, ← Nat.add_assoc] at hp₁
      rw [← hp₁] at hc₃
      obtain ⟨m₂, hs₂, h₂, hp₂⟩ := ih hz hfit.2.2 (by omega) h₁ hc₃ fun k => by have := hT k; omega
      rw [hp₁, show m.pc + size head + sizeOf y + 5 + sizeOf z = m.pc + sizeOf l by omega] at hp₂
      exact ⟨m₂, hs₁.trans hs₂, h₂, hp₂⟩
  | brk =>
      intro loop l hl hfit hroom m T hat hc hT
      cases loop with
      | true =>
          cases hl
          exact ⟨_, .single (exit_steps hc (hT .brk).1 (hT .brk).2),
            hat.keeps ⟨rfl, rfl, rfl, rfl⟩, rfl⟩
      | false => cases hl
  | cont =>
      intro loop l hl hfit hroom m T hat hc hT
      cases loop with
      | true =>
          cases hl
          exact ⟨_, .single (exit_steps hc (hT .cont).1 (hT .cont).2),
            hat.keeps ⟨rfl, rfl, rfl, rfl⟩, rfl⟩
      | false => cases hl
  | @stop t b s μ μ' ht =>
      intro loop l hl hfit hroom m T hat hc hT
      obtain ⟨x, y, z, hx, hy, hz, hcode⟩ := loop_code T hl
      obtain ⟨hsize, hplace⟩ := hcode _ rfl
      generalize hhead : testCode t x (sizeOf y + size z + 5) = head at hsize hplace
      have hroom' :
          B.low + max (roomOption room t) (max (b.room room) (roomOption room s)) ≤ B.top := hroom
      have hret := hT .ret
      rw [hplace, link_append, codeAt_append] at hc
      obtain ⟨m₁, hs₁, h₁, hp₁⟩ :=
        test_steps hm hx hfit.1 (by omega) ht hat (hhead ▸ hc.1) (by rw [hhead]; omega)
      rw [hhead, if_neg Bool.false_ne_true] at hp₁
      exact ⟨m₁, hs₁, h₁, show m₁.pc = _ by omega⟩
  | @turn t b s μ μ₁ o μ₂ μ₃ o' μ' ht _ ho hs _ ihb ihl =>
      intro loop l hl hfit hroom m T hat hc hT
      have hroom' :
          B.low + max (roomOption room t) (max (b.room room) (roomOption room s)) ≤ B.top := hroom
      obtain ⟨y, z, m₁, T', hy, hz, hs₁, h₁, hc₁, hT', -, hcont, -, hc₂, hc₃, hle, hend⟩ :=
        loop_turn hm hl hfit hroom ht hat hc hT
      have hret := hT .ret
      obtain ⟨m₂, hs₂, h₂, hp₂⟩ := ihb hy hfit.2.1 (by omega) h₁ hc₁ hT'
      have hp₂' : m₂.pc = m₁.pc + sizeOf y := by
        rcases ho with rfl | rfl
        · exact hp₂
        · exact hp₂.trans hcont
      rw [← hp₂'] at hc₂ hc₃
      obtain ⟨m₃, hs₃, hp₃, h₃⟩ := genOption_steps hm hz hfit.2.2 (by omega) hs h₂ hc₂ (by omega)
      rw [← hp₃] at hc₃
      -- the jump back, and the loop once more from its head
      have hback : Step out code m₃ _ := step_back hc₃ (by omega) (by omega)
      rw [show m₃.pc + 5 - sizeOf l = m.pc by omega] at hback
      have h₄ : At W B [] μ₃ { m₃ with pc := m.pc } := h₃.keeps ⟨rfl, rfl, rfl, rfl⟩
      obtain ⟨m₅, hs₅, h₅, hp₅⟩ := ihl hl hfit hroom h₄ hc hT
      exact ⟨m₅, (((hs₁.trans hs₂).trans hs₃).tail hback).trans hs₅, h₅, hp₅⟩
  | @broken t b s μ μ₁ μ' ht _ ihb =>
      intro loop l hl hfit hroom m T hat hc hT
      have hroom' :
          B.low + max (roomOption room t) (max (b.room room) (roomOption room s)) ≤ B.top := hroom
      obtain ⟨y, z, m₁, T', hy, -, hs₁, h₁, hc₁, hT', hbrk, -⟩ :=
        loop_turn hm hl hfit hroom ht hat hc hT
      obtain ⟨m₂, hs₂, h₂, hp₂⟩ := ihb hy hfit.2.1 (by omega) h₁ hc₁ hT'
      exact ⟨m₂, hs₁.trans hs₂, h₂, hp₂.trans hbrk⟩
  | @returned t b s μ μ₁ v μ' ht _ ihb =>
      intro loop l hl hfit hroom m T hat hc hT
      have hroom' :
          B.low + max (roomOption room t) (max (b.room room) (roomOption room s)) ≤ B.top := hroom
      obtain ⟨y, z, m₁, T', hy, -, hs₁, h₁, hc₁, hT', -, -, hret, -⟩ :=
        loop_turn hm hl hfit hroom ht hat hc hT
      obtain ⟨m₂, hs₂, h₂, hp₂⟩ := ihb hy hfit.2.1 (by omega) h₁ hc₁ hT'
      exact ⟨m₂, hs₁.trans hs₂, h₂, hp₂.1.trans hret, hp₂.2⟩

/-- The body of a function runs to its epilogue. -/
theorem body_runs (hm : Meets out W L room) {s : Stmt} {o : Outcome} (hx : bodyCode S s = .ok x)
    (hfit : s.Fits S) (hroom : B.low + s.room room ≤ B.top) (h : Exec W S s μ o μ')
    (hv : o.value = some v) (hat : At W B [] μ m) (hpc : m.pc + size x < 2 ^ 31) :
    Runs L out x m fun m' => At W B [] μ' m' ∧ m'.reg .rax = v := by
  intro code hc
  obtain ⟨l, hl, hx⟩ := bind_eq_ok.mp hx
  cases hx
  rw [size_place] at hpc ⊢
  rw [← place_shift _ m.pc, Nat.add_zero, place_append, link_append, codeAt_append,
    length_link, size_place, place_known] at hc
  rw [sizeOf_append, sizeOf_known] at hpc hc ⊢
  obtain ⟨m₁, hs₁, h₁, hp₁⟩ := stmt_steps hm h hl hfit hroom hat hc.1 fun k => ⟨by omega, hpc⟩
  cases o with
  | done =>
      cases hv
      have hp₁' : m₁.pc = m.pc + sizeOf l := hp₁
      rw [← hp₁'] at hc
      obtain ⟨m₂, hs₂, hp₂, h₂, hv₂⟩ := yields_imm m₁ h₁ (by omega) code hc.2
      exact ⟨m₂, hs₁.trans hs₂, by rw [hp₂, hp₁', Nat.add_assoc], h₂, hv₂⟩
  | ret v =>
      cases hv
      exact ⟨m₁, hs₁, hp₁.1, h₁, hp₁.2⟩
  | _ => cases hv

/-- **The body of a function** ends at its epilogue, with the result in `rax`. -/
theorem body_steps (hm : Meets out W L room) {s : Stmt} {o : Outcome} (hx : bodyCode S s = .ok x)
    (hfit : s.Fits S) (hroom : B.low + s.room room ≤ B.top) (h : Exec W S s μ o μ')
    (hv : o.value = some v)
    (hat : At W B [] μ m) (hc : CodeAt code m.pc (link L m.pc x)) (hpc : m.pc + size x < 2 ^ 31) :
    ∃ m', Steps out code m m' ∧ m'.pc = m.pc + size x ∧ At W B [] μ' m' ∧ m'.reg .rax = v :=
  body_runs hm hx hfit hroom h hv hat hpc code hc

end Runs

/-- `while (1) { if (x) break; x = 7; } return x;` -/
def smallBody : Stmt :=
  .seq (.while (.num 1) (.seq (.cond (.var smallGlobal) .brk .null)
    (.seq (.expr (some (.assign none (.var smallGlobal) (.num 7)))) .null)))
      (.seq (.ret (some (.var smallGlobal))) .null)

/-- The body returns seven. -/
theorem smallBody_exec : Exec smallWorld noStructs smallBody (fun _ => 0) (.ret 7)
    (writeMem (fun _ => 0) 8 65536 7) := by
  have hfinds : ∀ μ, smallWorld.Finds μ smallGlobal 65536 := fun μ => rfl
  have hvar : ∀ μ v, v = BitVec.ofNat 64 (readMem μ 8 65536) →
      Eval smallWorld noStructs (.var smallGlobal) μ v μ :=
    fun μ v h => .var (hfinds μ) ⟨by decide, smallWorld_owns, h⟩
  have htest : ∀ μ, Tests smallWorld noStructs (some (.num 1)) μ true μ := fun μ => .some .num
  have hset : Eval smallWorld noStructs (.assign none (.var smallGlobal) (.num 7)) (fun _ => 0)
      (narrow noStructs .u64 7) (writeMem (fun _ => 0) 8 65536 7) :=
    .assign (.var (hfinds _)) .num ⟨rfl, by decide, smallWorld_owns, rfl⟩
  refine .seq
    (.turn (htest _) (.seq (.no (hvar _ 0 (by decide)) .null) (.seq (.expr (.some hset)) .null))
      (.inl rfl) .none
    (.broken (htest _) ?_)) (.left (.ret (hvar _ 7 (by decide))) (fun h => Outcome.noConfusion h))
  exact .left (.yes (hvar _ 7 (by decide)) (by decide) .brk) (fun h => Outcome.noConfusion h)

theorem body_steps_small : ∃ x, bodyCode noStructs smallBody = .ok x ∧
    ∀ code, CodeAt code 0 (link quietLayout 0 x) →
    ∃ m', Steps quietOutside code smallMachine m' ∧ m'.pc = 0 + size x ∧
      At smallWorld smallBase [] (writeMem (fun _ => 0) 8 65536 7) m' ∧ m'.reg .rax = 7 := by
  refine ⟨_, rfl, fun code hc => ?_⟩
  have hglobal : smallGlobal.Fits := ⟨fun h => (by cases h), fun _ h => (by cases h)⟩
  have hassign : (Node.assign none (.var smallGlobal) (.num 7)).Fits noStructs :=
    ⟨by decide, hglobal, trivial⟩
  have hfits : ∀ {a b : Node}, a.Fits noStructs → b ∈ some a → b.Fits noStructs :=
    fun h hb => Option.some_inj.mp hb ▸ h
  have hfit : smallBody.Fits noStructs :=
    ⟨⟨fun e => hfits trivial, ⟨⟨hglobal, trivial, trivial⟩, ⟨fun e => hfits hassign, trivial⟩⟩,
      fun e he => by cases he⟩, ⟨fun e => hfits hglobal, trivial⟩⟩
  exact body_steps smallWorld_meets (show bodyCode noStructs smallBody = .ok _ from rfl) hfit
    (by decide)
    smallBody_exec rfl smallMachine_at hc (by decide)

end Efishell.Compiler
