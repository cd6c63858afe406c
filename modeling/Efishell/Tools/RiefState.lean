import Efishell.Tools.RiefConstant
import Efishell.Tools.RiefMeaning

/-!
# Tools — the machine and the memory of the program

How a state of the machine shows a state of the program (`At`): its bytes are the program's where
the program may touch them, the words that pending operations keep are on the stack, the last one on
top, and the rest of memory is as it was.  The pieces of code for variables, loads, stores and the
stack take one such state to another.

* `runs_load`, `runs_store_at`: loads and stores.
* `runs_push_at`, `runs_pop10_at`: the stack.
-/

namespace Efishell.Compiler

open X86

/-- The stack of a call below its locals, and the memory around it. -/
structure Base (W : World) where
  low : Nat
  top : Nat
  mem : Mem
  top_lt : top < 2 ^ 64
  aligned : top % 16 = 0
  apart : ∀ p, W.data p → p.toNat < low ∨ top ≤ p.toNat

/-- The machine shows the memory `μ` and has the words `ws` on the stack. -/
structure At (W : World) (B : Base W) (ws : List Word) (μ : Mem) (m : Machine) : Prop where
  rsp : (m.reg .rsp).toNat + 8 * ws.length = B.top
  low : B.low ≤ (m.reg .rsp).toNat
  rbp : m.reg .rbp = W.frame
  fs : m.fs = W.tls
  data : ∀ p, W.data p → m.mem p = μ p
  stack : ∀ j (h : j < ws.length), m.load 8 (m.reg .rsp + BitVec.ofNat 64 (8 * j)) = ws[j]
  kept : ∀ p, ¬ W.data p → p.toNat < B.low ∨ B.top ≤ p.toNat → m.mem p = B.mem p

/-- Nothing but registers that pending operations do not use has changed. -/
structure Keeps (m m' : Machine) : Prop where
  rsp : m'.reg .rsp = m.reg .rsp
  rbp : m'.reg .rbp = m.reg .rbp
  mem : m'.mem = m.mem
  fs : m'.fs = m.fs

theorem Keeps.trans {m m₁ m₂ : Machine} (h : Keeps m m₁) (h' : Keeps m₁ m₂) : Keeps m m₂ :=
  ⟨h'.rsp.trans h.rsp, h'.rbp.trans h.rbp, h'.mem.trans h.mem, h'.fs.trans h.fs⟩

/-- A value in `rax` leaves the stack and the memory. -/
theorem LeavesRax.keeps {m m' : Machine} {v : Word} (h : LeavesRax m v m') : Keeps m m' :=
  ⟨h.regs .rsp (by decide), h.regs .rbp (by decide), h.mem, h.fs⟩

/-- The distance, added back. -/
theorem add_sub_self (a b : Word) : b + BitVec.ofNat 64 (a - b).toNat = a := by
  rw [BitVec.ofNat_toNat, BitVec.setWidth_eq, BitVec.add_comm, BitVec.sub_add_cancel]

/-- A write elsewhere is not read. -/
theorem readMem_writeMem_apart {mem : Mem} {n k : Nat} {a b v : Word}
    (h : ∀ i < n, ∀ j < k, a + BitVec.ofNat 64 i ≠ b + BitVec.ofNat 64 j) :
    readMem (writeMem mem k b v) n a = readMem mem n a := by
  refine readMem_congr fun i hi => ?_
  rw [writeMem, if_neg fun hlt => h i hi _ hlt (add_sub_self _ _).symm]

/-- The cast of the code is the cast of the meaning. -/
theorem castValue_eq (S : Structs) (t : Ty) (v : Word) : castValue S t v = narrow S t v := by
  have hbits : ∀ k, (v.setWidth k).setWidth 64 = BitVec.ofNat 64 (v.toNat % 2 ^ k) := fun k => by
    rw [← BitVec.toNat_setWidth, BitVec.ofNat_toNat]
  have hv : BitVec.ofNat 64 (v.toNat % 2 ^ 64) = v := by
    rw [Nat.mod_eq_of_lt v.isLt, BitVec.ofNat_toNat, BitVec.setWidth_eq]
  rw [castValue, hbits, narrow]
  cases t with
  | array b n =>
      rw [castBits, if_pos (.inl rfl), hv, if_pos]
      cases n with
      | zero => exact .inr (Nat.zero_mul _)
      | succ n => exact .inl rfl
  | struct tag =>
      have hsize : (Ty.struct tag).aggregate S = true ∨ (Ty.struct tag).size S = 0 := by
        by_cases hf : (S tag).fields = []
        · exact .inr ((S tag).empty hf)
        · exact .inl (by simpa [Ty.aggregate, Ty.fields] using .inl hf)
      have hcast : castBits S (.struct tag) = 64 := by
        rw [castBits]
        rcases hsize with ha | hs
        · rw [if_pos (.inr (.inr ha))]
        · rw [hs]
          simp
      rw [if_pos hsize, hcast, hv]
  | void => simpa [castBits, Ty.base, Ty.size, Ty.aggregate, Ty.fields, Ty.count] using hv
  | _ => simp [castBits, Ty.base, Ty.size, Ty.aggregate, Ty.fields, Ty.count]

/-- An address that does not wrap. -/
theorem toNat_add_ofNat {a : Word} {i : Nat} (h : a.toNat + i < 2 ^ 64) :
    (a + BitVec.ofNat 64 i).toNat = a.toNat + i := by
  rw [BitVec.toNat_add, BitVec.toNat_ofNat, Nat.add_mod_mod, Nat.mod_eq_of_lt h]

/-- The bytes beside those written stay. -/
theorem writeMem_outside {mem : Mem} {n : Nat} {a v p : Word} (hn : a.toNat + n ≤ 2 ^ 64)
    (h : p.toNat < a.toNat ∨ a.toNat + n ≤ p.toNat) : writeMem mem n a v p = mem p := by
  rw [writeMem, if_neg fun hlt => ?_]
  have := toNat_add_ofNat (a := a) (i := (p - a).toNat) (by omega)
  rw [add_sub_self] at this
  omega

namespace At

variable {W : World} {B : Base W} {ws : List Word} {μ : Mem} {m m' : Machine} {v w : Word}

/-- What keeps the stack and the memory. -/
theorem keeps (h : At W B ws μ m) (hk : Keeps m m') : At W B ws μ m' where
  rsp := hk.rsp ▸ h.rsp
  low := hk.rsp ▸ h.low
  rbp := hk.rbp.trans h.rbp
  fs := hk.fs.trans h.fs
  data p hp := by rw [hk.mem, h.data p hp]
  stack j hj := by rw [Machine.load, hk.mem, hk.rsp]; exact h.stack j hj
  kept p hp ho := by rw [hk.mem, h.kept p hp ho]

/-- The address of a byte of the stack. -/
theorem slot (h : At W B ws μ m) {j i : Nat} (hj : j < ws.length) (hi : i < 8) :
    (m.reg .rsp + BitVec.ofNat 64
      (8 * j) + BitVec.ofNat 64 i).toNat = (m.reg .rsp).toNat + 8 * j + i := by
  have := h.rsp
  have := B.top_lt
  have h₁ := toNat_add_ofNat (a := m.reg .rsp) (i := 8 * j) (by omega)
  rw [toNat_add_ofNat (by omega), h₁]

/-- Room for one more word. -/
theorem below (h : At W B ws μ m) (hroom : B.low + 8 * (ws.length + 1) ≤ B.top) :
    (m.reg .rsp - 8).toNat = (m.reg .rsp).toNat - 8 := by
  have hrsp := h.rsp
  rw [BitVec.toNat_sub_of_le (by rw [BitVec.le_def]; simp; omega)]
  rfl

/-- One more word, whose bytes may have been written. -/
theorem grow (h : At W B ws μ m) (hroom : B.low + 8 * (ws.length + 1) ≤ B.top)
    (hs : m'.reg .rsp = m.reg .rsp - 8) (hb : m'.reg .rbp = m.reg .rbp) (hf : m'.fs = m.fs)
    (hv : m'.load 8 (m.reg .rsp - 8) = v)
    (hmem : ∀ p : Word, p.toNat + 8 < (m.reg .rsp).toNat ∨ (m.reg .rsp).toNat ≤ p.toNat →
      m'.mem p = m.mem p) :
    At W B (v :: ws) μ m' := by
  have hrsp := h.rsp
  have htop := B.top_lt
  have hnew := h.below hroom
  refine ⟨by rw [hs, hnew, List.length_cons]; omega, by
    rw [hs, hnew]; omega, hb.trans h.rbp, hf.trans h.fs,
    fun p hp => ?_, fun j hj => ?_, fun p hp ho => ?_⟩
  · have := B.apart p hp
    rw [← h.data p hp]
    exact hmem p (by omega)
  · rw [hs]
    cases j with
    | zero => rw [Nat.mul_zero, BitVec.add_zero, hv]; rfl
    | succ j =>
        have hj' : j < ws.length := Nat.lt_of_succ_lt_succ hj
        have hback : m.reg .rsp - 8 + BitVec.ofNat 64 8 = m.reg .rsp := BitVec.sub_add_cancel _ _
        have haddr : m.reg .rsp - 8 + BitVec.ofNat 64
            (8 * (j + 1)) = m.reg .rsp + BitVec.ofNat 64 (8 * j) := by
          rw [Nat.mul_succ, BitVec.ofNat_add, BitVec.add_comm (BitVec.ofNat 64 (8 * j)),
            ← BitVec.add_assoc, hback]
        rw [haddr, Machine.load, readMem_congr fun i hi =>
          hmem _ (.inr (by rw [h.slot hj' hi]; omega))]
        exact h.stack j hj'
  · rw [← h.kept p hp ho]
    exact hmem p (by omega)

theorem push (h : At W B ws μ m) (hroom : B.low + 8 * (ws.length + 1) ≤ B.top) {pc : Nat} :
    At W B (v :: ws) μ { m.push v with pc := pc } := by
  have hrsp := h.rsp
  have htop := B.top_lt
  have hnew := h.below hroom
  have hrbp : (m.set .rsp (m.reg .rsp - 8)).reg .rbp = m.reg .rbp := Machine.set_ne (by decide)
  refine h.grow hroom (m.set_self .rsp _) hrbp rfl ?_ fun p hp =>
    writeMem_outside (by omega) (by omega)
  show BitVec.ofNat 64 (readMem (writeMem m.mem 8 (m.reg .rsp - 8) v) 8 (m.reg .rsp - 8)) = _
  rw [readMem_writeMem (Nat.le_refl 8), Nat.mod_eq_of_lt v.isLt, BitVec.ofNat_toNat,
    BitVec.setWidth_eq]

theorem top_eq (h : At W B (w :: ws) μ m) : m.load 8 (m.reg .rsp) = w := by
  have := h.stack 0 (Nat.zero_lt_succ _)
  rwa [Nat.mul_zero, BitVec.add_zero] at this

/-- `n` words leave the stack. -/
theorem drop (vs : List Word) (h : At W B (vs ++ ws) μ m)
    (hr : m'.reg .rsp = m.reg .rsp + BitVec.ofNat 64 (8 * vs.length))
    (hb : m'.reg .rbp = m.reg .rbp)
    (hmem : m'.mem = m.mem) (hf : m'.fs = m.fs) : At W B ws μ m' := by
  have hrsp := h.rsp
  rw [List.length_append] at hrsp
  have htop := B.top_lt
  have hnew : (m'.reg .rsp).toNat = (m.reg .rsp).toNat + 8 * vs.length := by
    rw [hr, toNat_add_ofNat (by omega)]
  have hlow := h.low
  refine ⟨by omega, by omega, hb.trans h.rbp, hf.trans h.fs, fun p hp => ?_, fun j hj => ?_,
    fun p hp ho => ?_⟩
  · rw [hmem, h.data p hp]
  · have := h.stack (vs.length + j) (by rw [List.length_append]; omega)
    rw [Nat.mul_add, BitVec.ofNat_add, ← BitVec.add_assoc, ← hr,
      List.getElem_append_right (by omega)] at this
    simp only [Nat.add_sub_cancel_left] at this
    rw [Machine.load, hmem]
    exact this
  · rw [hmem, h.kept p hp ho]

/-- A value written where the meaning writes it. -/
theorem store {S : Structs} {t : Ty} {p : Word} {μ' : Mem} (h : At W B ws μ m)
    (hw : W.Writes S μ t p v μ') (hs : m'.reg .rsp = m.reg .rsp) (hb : m'.reg .rbp = m.reg .rbp)
    (hmem : m'.mem = writeMem m.mem (t.size S) p v) (hf : m'.fs = m.fs) : At W B ws μ' m' := by
  obtain ⟨-, -, howns, rfl⟩ := hw
  have hrsp := h.rsp
  have htop := B.top_lt
  have hlow := h.low
  refine ⟨by rw [hs, hrsp], by rw [hs]; exact h.low, hb.trans h.rbp, hf.trans h.fs, fun q hq => ?_,
    fun j hj => ?_, fun q hq ho => ?_⟩
  · rw [hmem, writeMem, writeMem, h.data q hq]
  · rw [Machine.load, hmem, hs, readMem_writeMem_apart fun i hi k hk heq => ?_]
    · exact h.stack j hj
    · have hslot := h.slot hj hi
      have := B.apart _ (howns k hk)
      rw [← heq] at this
      omega
  · rw [hmem, writeMem, if_neg fun hlt => hq ?_, h.kept q hq ho]
    have := howns _ hlt
    rwa [add_sub_self] at this

/-- The program's bytes are read from the machine's memory. -/
theorem readMem_eq {n : Nat} {p : Word} (h : At W B ws μ m) (ho : W.Owns n p) :
    readMem m.mem n p = readMem μ n p :=
  readMem_congr fun i hi => h.data _ (ho i hi)

end At

/-! ### Pieces of code -/

section Pieces

variable {L : Layout} {out : Outside} {W : World} {B : Base W} {S : Structs}
    {ws : List Word} {μ μ' : Mem}
  {m : Machine} {t : Ty} {p v w : Word} {Q : Machine → Prop}

/-- After a piece, where it ends may be used. -/
theorem Runs.append_pc {l l' : List Item} (h : Runs L out l m fun m' => m'.pc = m.pc + size l →
    Runs L out l' m' Q) : Runs L out (l ++ l') m Q := by
  refine .append fun code hc => ?_
  obtain ⟨m', hs, hp, hq⟩ := h code hc
  exact ⟨m', hs, hp, hq hp⟩

theorem runs_push_at (h : At W B ws μ m) (hroom : B.low + 8 * (ws.length + 1) ≤ B.top)
    (hq : ∀ m', At W B (m.reg .rax :: ws) μ m' → (∀ r, r ≠ .rsp → m'.reg r = m.reg r) → Q m') :
    Runs L out push m Q := by
  have hrest : ∀ r, r ≠ .rsp → (m.set .rsp (m.reg .rsp - 8)).reg r = m.reg r :=
    fun r hr => Machine.set_ne hr
  exact runs_push fun _ => hq _ (h.push hroom) hrest

theorem runs_pop10_at (h : At W B (w :: ws) μ m)
    (hq : ∀ m', At W B ws μ m' → m'.reg .r10 = w →
      (∀ r, r ≠ .r10 → r ≠ .rsp → m'.reg r = m.reg r) → Q m') :
    Runs L out pop10 m Q := by
  refine runs_pop10 fun pc => ?_
  have hrsp : ((m.set .r10 (m.load 8 (m.reg .rsp))).set .rsp (m.reg .rsp + 8)).reg .rsp =
      m.reg .rsp + 8 := Machine.set_self _ _ _
  have hrest : ∀ r, r ≠ .r10 → r ≠ .rsp →
      ((m.set .r10 (m.load 8 (m.reg .rsp))).set .rsp (m.reg .rsp + 8)).reg r = m.reg r :=
    fun r h₁ h₂ => (Machine.set_ne h₂).trans (Machine.set_ne h₁)
  have hr10 : ((m.set .r10 (m.load 8 (m.reg .rsp))).set .rsp (m.reg .rsp + 8)).reg .r10 = w :=
    (Machine.set_ne (by decide)).trans ((m.set_self _ _).trans h.top_eq)
  exact hq _ (.drop [w] h hrsp (hrest .rbp (by decide) (by decide)) rfl rfl) hr10 hrest

/-- A scalar is read from where `rax` points; an aggregate stays an address. -/
theorem runs_load (h : At W B ws μ m) (hv : W.Reads S μ t (m.reg .rax) v)
    (hq : ∀ m', LeavesRax m v m' → Q m') : Runs L out (load S t) m Q := by
  rw [load]
  rw [World.Reads] at hv
  by_cases ha : t.aggregate S = true
  · rw [if_pos ha] at hv ⊢
    subst hv
    exact .nil (hq _ (.refl m))
  · rw [if_neg ha] at hv ⊢
    obtain ⟨hsize, howns, rfl⟩ := hv
    have hset : ∀ (pc n : Nat), n = t.size S →
        LeavesRax m (BitVec.ofNat 64 (readMem μ (t.size S) (m.reg .rax)))
          ({ m with pc := pc }.set .rax ({ m with pc := pc }.load n (m.reg .rax))) := by
      rintro pc _ rfl
      rw [← h.readMem_eq howns]
      exact .set _ rfl rfl rfl
    rcases Ty.size_cases (Bool.eq_false_iff.mpr ha) with hs | hs | hs | hs | hs
    · exact absurd hs hsize
    · rw [if_pos hs]
      exact .plain .loadByte rfl rfl rfl (hq _ (hset _ 1 hs.symm))
    · rw [if_neg (by omega), if_pos hs]
      exact .plain .loadWord rfl rfl rfl (hq _ (hset _ 2 hs.symm))
    · rw [if_neg (by omega), if_neg (by omega), if_pos hs]
      exact .plain .loadDword rfl rfl rfl (hq _ (hset _ 4 hs.symm))
    · rw [if_neg (by omega), if_neg (by omega), if_neg (by omega)]
      exact .plain .loadQword rfl rfl rfl (hq _ (hset _ 8 hs.symm))

/-- A cast before a write does not matter. -/
theorem writeMem_castValue {mem : Mem} (ht : t.aggregate S = false) :
    writeMem mem (t.size S) p (castValue S t v) = writeMem mem (t.size S) p v := by
  funext q
  rw [writeMem, writeMem]
  split
  · next hlt => exact byteAt_castValue ht hlt
  · rfl

/-- `rax` goes to where `r10` points, and stays as it was stored. -/
theorem runs_store_at (h : At W B ws μ m) (hw : W.Writes S μ t (m.reg .r10) (m.reg .rax) μ')
    (hq : ∀ m', At W B ws μ' m' → m'.reg .rax = narrow S t (m.reg .rax) →
      (∀ r, r ≠ .rax → m'.reg r = m.reg r) → Q m') : Runs L out (store S t) m Q := by
  rw [store]
  refine .append (runs_castTo t fun m₁ h₁ => ?_)
  have hstore : ∀ pc n, n = t.size S → Q ({ m₁ with pc := pc }.store n) := by
    rintro pc _ rfl
    refine hq _ (h.store hw (h₁.regs .rsp (by decide)) (h₁.regs .rbp (by decide)) ?_ h₁.fs)
      (h₁.rax.trans (castValue_eq S t _)) h₁.regs
    show writeMem m₁.mem (t.size S) (m₁.reg .r10) (m₁.reg .rax) = _
    rw [h₁.mem, h₁.rax, h₁.regs .r10 (by decide), writeMem_castValue hw.1]
  rcases Ty.size_cases hw.1 with hs | hs | hs | hs | hs
  · exact absurd hs hw.2.1
  · rw [if_pos hs]
    exact .plain .storeByte rfl rfl rfl (hstore _ 1 hs.symm)
  · rw [if_neg (by omega), if_pos hs]
    exact .plain .storeWord rfl rfl rfl (hstore _ 2 hs.symm)
  · rw [if_neg (by omega), if_neg (by omega), if_pos hs]
    exact .plain .storeDword rfl rfl rfl (hstore _ 4 hs.symm)
  · rw [if_neg (by omega), if_neg (by omega), if_neg (by omega)]
    exact .plain .storeQword rfl rfl rfl (hstore _ 8 hs.symm)

end Pieces

end Efishell.Compiler
