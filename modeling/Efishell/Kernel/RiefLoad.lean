import Efishell.Kernel.RiefPlace

/-!
# Kernel — what a loaded image is

The loops of `rief_load_locked` behind the checks: the regions are mapped one after the other, then
the relocations are applied.  `Mapped` is the invariant of both; `content` is what stands in the
regions while the second one runs.

`rief_load_sound` says what a load that succeeds leaves, and `rief_load_failed` what one that fails
leaves.

* `riefMap_ends`, `riefPatches_ends`, `riefPublish_ends`: the regions, the relocations, the exports.
-/

namespace Efishell

namespace RiefImage

variable (im : RiefImage)

/-- The memory of the `i`-th region, in whole pages. -/
def span (i : Nat) : Nat := 4096 * (((im.region i).memorySize + 4095) / 4096)

/-- The byte at `k` of the `i`-th region as the image has it. -/
def regionByte (i k : Nat) : UInt8 :=
  if k < (im.region i).fileSize then im.bytes ((im.region i).fileOffset + k) else 0

/-- The first `n` regions lie between `lo` and `hi`, in their order, aligned, and at least a page
apart. -/
structure Placed (lo hi : Nat) (base : Nat → Nat) (n : Nat) : Prop where
  aligned : ∀ i < n, (im.region i).alignment ∣ base i ∧ 4096 ∣ base i
  low : ∀ i < n, lo ≤ base i
  high : ∀ i < n, base i + im.span i + 4096 ≤ hi
  apart : ∀ i j, i < j → j < n → base i + im.span i + 4096 ≤ base j

/-- `v` lies in one of the first `n` regions. -/
def Within (base : Nat → Nat) (n v : Nat) : Prop := ∃ i < n, base i ≤ v ∧ v < base i + im.span i

variable {im}

/-- A region's pages hold its bytes. -/
theorem span_ge (i : Nat) : (im.region i).memorySize ≤ im.span i := by
  rw [span]
  omega

/-- One more region. -/
theorem Placed.push {lo hi : Nat} {base : Nat → Nat} {n b : Nat} (h : im.Placed lo hi base n)
    (hal : (im.region n).alignment ∣ b ∧ 4096 ∣ b) (hlo : lo ≤ hi) (hb : hi ≤ b) :
    im.Placed lo (b + im.span n + 4096) (Function.update base n b) (n + 1) := by
  have hold : ∀ i < n, Function.update base n b i = base i := fun i hi =>
    Function.update_of_ne (Nat.ne_of_lt hi) _ _
  have hnew : Function.update base n b n = b := Function.update_self _ _ _
  refine ⟨fun i hi => ?_, fun i hi => ?_, fun i hi => ?_, fun i j hij hj => ?_⟩
  · rcases Nat.lt_or_eq_of_le (Nat.le_of_lt_succ hi) with hlt | rfl
    · rw [hold i hlt]
      exact h.aligned i hlt
    · rwa [hnew]
  · rcases Nat.lt_or_eq_of_le (Nat.le_of_lt_succ hi) with hlt | rfl
    · rw [hold i hlt]
      exact h.low i hlt
    · rw [hnew]
      omega
  · rcases Nat.lt_or_eq_of_le (Nat.le_of_lt_succ hi) with hlt | rfl
    · rw [hold i hlt]
      have := h.high i hlt
      omega
    · rw [hnew]
  · rcases Nat.lt_or_eq_of_le (Nat.le_of_lt_succ hj) with hlt | rfl
    · rw [hold i (by omega), hold j hlt]
      exact h.apart i j hij hlt
    · rw [hold i hij, hnew]
      exact (h.high i hij).trans hb

/-- Two regions that meet are one. -/
theorem Placed.unique {lo hi : Nat} {base : Nat → Nat} {n i j v : Nat} (h : im.Placed lo hi base n)
    (hi' : i < n) (hj : j < n) (h₁ : base i ≤ v ∧ v < base i + im.span i)
    (h₂ : base j ≤ v ∧ v < base j + im.span j) : i = j := by
  rcases Nat.lt_trichotomy i j with hlt | rfl | hlt
  · have := h.apart i j hlt hj
    omega
  · rfl
  · have := h.apart j i hlt hi'
    omega

end RiefImage

/-! ### The invariant -/

/-- The first `n` regions of the image are mapped at `base`; `w₀` was the space before. -/
structure Mapped (env : MmuEnv) (s₀ : Phys) (im : RiefImage) (w₀ : Vm) (g₀ : PageMap) (n : Nat)
    (base : Nat → Nat) (w : Vm) (g : PageMap) : Prop where
  kept : Kept env s₀ (im.Within base n) w₀ w g₀ g
  placed : im.Placed w₀.as.next w.as.next base n
  next : w₀.as.next ≤ w.as.next
  pages : ∀ i < n, ∀ v, base i ≤ v → v < base i + im.span i →
    ∃ q, g (1, v / ptSpan 1) = .page q (im.region i).flags

/-- The user sees `content` in the first `n` regions. -/
def Shows (im : RiefImage) (content : Nat → Nat → UInt8) (n : Nat) (base : Nat → Nat)
    (w : Vm) : Prop :=
  ∀ i < n, ∀ k < im.span i, userByte w (base i + k) = some (content i k)

namespace Mapped

variable {env : MmuEnv} {s₀ : Phys} {im : RiefImage} {w₀ w : Vm} {g₀ g : PageMap} {n : Nat}
  {base : Nat → Nat} {content : Nat → Nat → UInt8}

/-- Nothing is mapped yet. -/
theorem start (h : SpaceInv env s₀ w₀ g₀) (im : RiefImage) (base : Nat → Nat) :
    Mapped env s₀ im w₀ g₀ 0 base w₀ g₀ where
  kept := .refl h _
  placed := ⟨by simp, by simp, by simp, by simp⟩
  next := Nat.le_refl _
  pages := by simp

/-- The regions lie in what was not handed out before. -/
theorem ahead (h : Mapped env s₀ im w₀ g₀ n base w g) {v : Nat} (hv : im.Within base n v) :
    Ahead w₀.as.next v := by
  obtain ⟨i, hi, h₁, h₂⟩ := hv
  have hlo := h.placed.low i hi
  have hhi := h.placed.high i hi
  have hlim := h.kept.inv.next_le
  exact ⟨by omega, by omega⟩

/-- A step that hands out nothing and writes in the regions only. -/
theorem step (h : Mapped env s₀ im w₀ g₀ n base w g) {w' : Vm} {g' : PageMap} {S : Nat → Prop}
    (hk : Kept env s₀ S w w' g g') (hS : ∀ v, S v → im.Within base n v) (has : w'.as = w.as) :
    Mapped env s₀ im w₀ g₀ n base w' g' where
  kept := h.kept.trans (hk.mono hS)
  placed := by
    rw [has]
    exact h.placed
  next := by
    rw [has]
    exact h.next
  pages i hi v h₁ h₂ := (h.pages i hi v h₁ h₂).imp fun _ hq => hk.page hq

/-- One region more, or an error. -/
theorem alloc (h : Mapped env s₀ im w₀ g₀ n base w g) (hk : KernelOk env s₀)
    (hs : Shows im content n base w) :
    (∃ e g',
      (asAlloc env (im.region n).memorySize (im.region n).alignment
        (im.region n).flags w).1 = .error e ∧
        Mapped env s₀ im w₀ g₀ n base
          (asAlloc env (im.region n).memorySize (im.region n).alignment
            (im.region n).flags w).2 g') ∨
      ∃ v g',
        (asAlloc env (im.region n).memorySize (im.region n).alignment
          (im.region n).flags w).1 = .ok v ∧
        Mapped env s₀ im w₀ g₀ (n + 1) (Function.update base n v)
          (asAlloc env (im.region n).memorySize (im.region n).alignment
            (im.region n).flags w).2 g' ∧
        Shows im (fun i k => if i = n then 0 else content i k) (n + 1) (Function.update base n v)
          (asAlloc env (im.region n).memorySize (im.region n).alignment
            (im.region n).flags w).2 := by
  rcases h.kept.inv.allocated hk (im.region n).memorySize (im.region n).alignment
    (im.region n).flags
    with ⟨e, g', he, has, hkept⟩ | ⟨v, g', hv, hkept, hal, hpage, hnext, htop, hnew⟩
  · exact Or.inl ⟨e, g', he, h.step hkept (fun _ => False.elim) has⟩
  refine Or.inr ⟨v, g', hv, ⟨?_, ?_, ?_, fun i hi x h₁ h₂ => ?_⟩, fun i hi k hk' => ?_⟩
  · refine (h.kept.mono ?_).trans (hkept.mono ?_)
    · rintro x ⟨i, hi, hx⟩
      exact ⟨i, by omega, by rwa [Function.update_of_ne (Nat.ne_of_lt hi)]⟩
    · intro x hx
      exact ⟨n, by omega, by rwa [Function.update_self]⟩
  · rw [htop]
    exact h.placed.push ⟨hal, hpage⟩ h.next hnext
  · rw [htop]
    exact h.next.trans (by omega)
  · rcases Nat.lt_or_eq_of_le (Nat.le_of_lt_succ hi) with hlt | rfl
    · rw [Function.update_of_ne (Nat.ne_of_lt hlt)] at h₁ h₂
      exact (h.pages i hlt x h₁ h₂).imp fun _ hq => hkept.page hq
    · rw [Function.update_self] at h₁ h₂
      exact (hnew x h₁ h₂).2
  · dsimp only
    rcases Nat.lt_or_eq_of_le (Nat.le_of_lt_succ hi) with hlt | rfl
    · rw [Function.update_of_ne (Nat.ne_of_lt hlt), if_neg (Nat.ne_of_lt hlt), ← hs i hlt k hk']
      have hhi := h.placed.high i hlt
      exact hkept.bytes _ (by omega)
    · rw [Function.update_self, if_pos rfl]
      exact (hnew (v + k) (by omega) (Nat.add_lt_add_left hk' v)).1

/-- Bytes are copied into a region, or an error occurs. -/
theorem copy (h : Mapped env s₀ im w₀ g₀ n base w g) (hk : KernelOk env s₀)
    (hs : Shows im content n base w)
    {i off len : Nat} (hi : i < n) (hin : off + len ≤ im.span i) (buf : Bytes) :
    ∃ g', Mapped env s₀ im w₀ g₀ n base (asCopy (base i + off) buf len true true w).2.2 g' ∧
      Kept env s₀ (im.Within base n) w (asCopy (base i + off) buf len true true w).2.2 g g' ∧
      ((asCopy (base i + off) buf len true true w).1 = .ok () →
        Shows im (fun j k => if j = i ∧ off ≤ k ∧ k < off + len then buf (k - off)
          else content j k) n base
          (asCopy (base i + off) buf len true true w).2.2) := by
  obtain ⟨has, g', hkept, hbytes⟩ := h.kept.inv.copied hk (base i + off) buf len true
  have hin' : ∀ v, base i + off ≤ v ∧ v < base i + off + len → im.Within base n v := fun v hv =>
    ⟨i, hi, by omega, by omega⟩
  refine ⟨g', h.step hkept hin' has, hkept.mono hin', fun hok j hj k hk' => ?_⟩
  dsimp only
  by_cases hat : j = i ∧ off ≤ k ∧ k < off + len
  · obtain ⟨rfl, h₁, h₂⟩ := hat
    rw [if_pos ⟨rfl, h₁, h₂⟩, show base j + k = base j + off + (k - off) by omega]
    exact hbytes hok _ (by omega)
  · rw [if_neg hat, ← hs j hj k hk']
    refine hkept.bytes _ fun hv => hat ?_
    -- the byte lies in the region that is written
    have hji : j = i :=
      h.placed.unique hj hi (v := base j + k) ⟨by omega, by omega⟩ ⟨by omega, by omega⟩
    subst hji
    exact ⟨rfl, by omega, by omega⟩

/-- The user sees every byte of a region. -/
theorem userAt (h : Mapped env s₀ im w₀ g₀ n base w g) (hi' : SpaceInv env s₀ w₀ g₀)
    {i v : Nat} (hi : i < n)
    (h₁ : base i ≤ v) (h₂ : v < base i + im.span i) : UserAt env s₀ g false v := by
  obtain ⟨q, hq⟩ := h.pages i hi v h₁ h₂
  have ha := h.ahead ⟨i, hi, h₁, h₂⟩
  exact h.kept.inv.userAt_page ⟨hi'.base_le_next.trans ha.1, ha.2⟩ hq fun hno => by cases hno

/-- A copy into a region succeeds. -/
theorem copy_ok (h : Mapped env s₀ im w₀ g₀ n base w g) (hi' : SpaceInv env s₀ w₀ g₀)
    {i off len : Nat} (hi : i < n) (hin : off + len ≤ im.span i) (buf : Bytes) :
    (asCopy (base i + off) buf len true true w).1 = .ok () := by
  have hlow := hi'.base_le_next.trans (h.placed.low i hi)
  have hhigh := (h.placed.high i hi).trans h.kept.inv.next_le
  have hal : 4096 ∣ base i := (h.placed.aligned i hi).2
  have hat : ∀ v, (base i + off) / 4096 * 4096 ≤ v → v < base i + off + len →
      UserAt env s₀ g (!true) v :=
    fun v h₁ h₂ => h.userAt hi' hi (by omega) (by omega)
  exact h.kept.inv.copy_ok ⟨by omega, by omega⟩ hat buf

end Mapped

/-! ### The loops -/

section Loops

variable {env : MmuEnv} {s₀ : Phys} {im : RiefImage} {w₀ : Vm} {g₀ g : PageMap} {p : Process}

/-- A load that stopped after the first mapping changed what the user sees from `next` on at
most. -/
structure Torn (env : MmuEnv) (s₀ : Phys) (w₀ : Vm) (g₀ : PageMap) (p p' : Process) : Prop where
  kept : ∃ g, Kept env s₀ (Ahead w₀.as.next) w₀ p'.vm g₀ g
  rest : p' = { p with vm := p'.vm, regionBase := p'.regionBase, regionSize := p'.regionSize }

/-- What is mapped so far is one rollback away from the start. -/
theorem Mapped.torn {n : Nat} {base : Nat → Nat} {p' : Process}
    (h : Mapped env s₀ im w₀ g₀ n base p'.vm g)
    (hr : p' = { p with vm := p'.vm, regionBase := p'.regionBase, regionSize := p'.regionSize }) :
    Torn env s₀ w₀ g₀ p p' := ⟨⟨g, h.kept.mono fun _ => h.ahead⟩, hr⟩

theorem Torn.after {p' p'' : Process} (h : Torn env s₀ w₀ g₀ p' p'')
    (hr : p' = { p with vm := p'.vm, regionBase := p'.regionBase, regionSize := p'.regionSize }) :
    Torn env s₀ w₀ g₀ p p'' := by
  refine ⟨h.kept, ?_⟩
  rw [h.rest, hr]

/-- A call of the space within the loader. -/
theorem Load.onSpace_ends {α : Type} {f : Vm → Except Errno α × Vm} {Q : α → Process → Prop}
    {E : LoadStop → Process → Prop}
    (hok : ∀ a, (f p.vm).1 = .ok a → Q a { p with vm := (f p.vm).2 })
    (herr : ∀ e, (f p.vm).1 = .error e → E (.errno e) { p with vm := (f p.vm).2 }) :
    Io.Ends (Load.onSpace f) p Q E := by
  rw [Io.Ends, Load.onSpace]
  cases hf : f p.vm with
  | mk r w =>
      rw [hf] at hok herr
      cases r with
      | ok a => exact hok a rfl
      | error e => exact herr e rfl

/-- A copy into the space within the loader. -/
theorem Load.copyIn_ends {u n : Nat} {buf : Bytes} {Q : Unit → Process → Prop}
    {E : LoadStop → Process → Prop}
    (hok : (asCopy u buf n true true p.vm).1 = .ok () →
      Q () { p with vm := (asCopy u buf n true true p.vm).2.2 })
    (herr : ∀ e, E (.errno e) { p with vm := (asCopy u buf n true true p.vm).2.2 }) :
    Io.Ends (Load.copyIn u buf n) p Q E :=
  Load.onSpace_ends (fun _ ha => hok ha) fun e _ => herr e

theorem RiefImage.WellFormed.file_le (h : im.WellFormed) {i : Nat}
    (hi : i < im.header.regionCount) : (im.region i).fileSize ≤ (im.region i).memorySize := by
  have hok := (h.regions i hi).ok
  simp only [RiefRegion.ok, Bool.and_eq_true, decide_eq_true_eq] at hok
  exact hok.1.1.1.1.2

/-- `k_as_alloc` has no memory for one of the regions, in a space that came from `w` by calls. -/
def RiefImage.Starved (env : MmuEnv) (im : RiefImage) (w : Vm) (e : LoadStop) : Prop :=
  ∃ i < im.header.regionCount, ∃ w', Run env w w' ∧ ∃ e', e = .errno e' ∧
    (asAlloc env (im.region i).memorySize (im.region i).alignment
      (im.region i).flags w').1 = .error e'

/-- The loop that maps the regions stops for want of memory only. -/
theorem riefMap_ends (hk : KernelOk env s₀) (hw : im.WellFormed) (h₀ : SpaceInv env s₀ w₀ g₀)
    (left : Nat) :
    ∀ {i : Nat} {p : Process} {g : PageMap}, i + left = im.header.regionCount →
    Mapped env s₀ im w₀ g₀ i p.regionBase p.vm g → Run env w₀ p.vm →
    Shows im im.regionByte i p.regionBase p.vm →
      (∀ j < i, p.regionSize j = (im.region j).memorySize) →
    Io.Ends (riefMap env im left i) p
      (fun _ p' => (∃ g', Mapped env s₀ im w₀ g₀ (i + left) p'.regionBase p'.vm g') ∧
        Shows im im.regionByte (i + left) p'.regionBase p'.vm ∧
        (∀ j < i + left, p'.regionSize j = (im.region j).memorySize) ∧
        p' = { p with vm := p'.vm, regionBase := p'.regionBase, regionSize := p'.regionSize })
      (fun e p' => Torn env s₀ w₀ g₀ p p' ∧ im.Starved env w₀ e) := by
  induction left with
  | zero =>
      intro i p g _ hm _ hs hsize
      exact ⟨⟨g, hm⟩, hs, hsize, rfl⟩
  | succ left ih =>
      intro i p g hi hm hrun hs hsize
      have hfile := hw.file_le (i := i) (by omega)
      have hspan : (im.region i).memorySize ≤ im.span i := RiefImage.span_ge i
      rw [riefMap]
      simp only [Io.ends_bind]
      rcases hm.alloc hk hs with ⟨e, g₁, he, hm₁⟩ | ⟨v, g₁, hv, hm₁, hs₁⟩
      · refine Load.onSpace_ends (fun a ha => ?_) fun e' he' =>
          ⟨hm₁.torn rfl, i, by omega, _, hrun, e', rfl, he'⟩
        rw [he] at ha
        cases ha
      · refine Load.onSpace_ends (fun a ha => ?_) fun e he => ?_
        · obtain rfl : v = a := Except.ok.inj (hv.symm.trans ha)
          rw [RiefImage.inside, if_pos (hw.region_file (by omega))]
          simp only [Io.ends_modify, Io.ends_pure]
          have hfit : 0 + (im.region i).fileSize ≤ im.span i := by omega
          -- the file's bytes go to the start of the region, which was zero
          obtain ⟨g₂, hm₂, -, hs₂⟩ := hm₁.copy hk hs₁ (Nat.lt_succ_self i) hfit
            (fun k => im.bytes ((im.region i).fileOffset + k))
          have hok :=
            hm₁.copy_ok h₀ (Nat.lt_succ_self i) hfit
              (fun k => im.bytes ((im.region i).fileOffset + k))
          rw [Function.update_self, Nat.add_zero] at hm₂ hs₂ hok
          refine Load.onSpace_ends (fun _ _ => ?_) fun e he => ?_
          · refine (ih (by omega) hm₂ ((hrun.call (.alloc _ _ _)).call (.copy _ _ _ true true))
              ?_ ?_).mono ?_
              fun e p' he => ⟨he.1.after rfl, he.2⟩
            · intro j hj k hk'
              rw [hs₂ hok j hj k hk']
              dsimp only
              rw [RiefImage.regionByte]
              rcases eq_or_ne j i with rfl | hne
              · simp
              · simp [hne]
            · intro j hj
              dsimp only
              rcases Nat.lt_or_eq_of_le (Nat.le_of_lt_succ hj) with hlt | rfl
              · rw [Function.update_of_ne (Nat.ne_of_lt hlt)]
                exact hsize j hlt
              · exact Function.update_self _ _ _
            · rintro _ p' ⟨hm', hs', hsize', hr⟩
              rw [show i + (left + 1) = i + 1 + left by omega]
              exact ⟨hm', hs', hsize', by rw [hr]⟩
          · have hno := hok.symm.trans he
            cases hno
        · rw [hv] at he
          cases he

end Loops

/-! ### Relocations -/

namespace RiefImage

variable (im : RiefImage) (imports : List Nat) (base : Nat → Nat)

/-- The address that the `i`-th relocation starts from. -/
def relocStart (i : Nat) : Nat :=
  if (im.reloc i).type = riefRelocImport64 then imports.getD (im.reloc i).targetRegion 0
  else base (im.reloc i).targetRegion + (im.reloc i).targetOffset

/-- Where the `i`-th relocation patches. -/
def site (i : Nat) : Nat := base (im.reloc i).patchRegion + (im.reloc i).patchOffset

/-- The distance from the end of the patched bytes to `target`. -/
def relocDelta (i target : Nat) : Int :=
  (target : Int) - (im.site base i + (im.reloc i).width : Nat)

/-- What the `i`-th relocation stores for `target`. -/
def relocStored (i target : Nat) : Nat :=
  if (im.reloc i).type = riefRelocRel32 ∨ (im.reloc i).type = riefRelocRel64 then
    (im.relocDelta base i target % 2 ^ 64).toNat
  else target

/-- The target of the `i`-th relocation, if there is one. -/
def relocTarget (i : Nat) : Nat :=
  (riefTarget (im.relocStart imports base i) (im.reloc i).addend).getD 0

/-- The byte at `k` of the `i`-th region when the first `n` relocations are applied. -/
def patchedByte : (n : Nat) → (i k : Nat) → UInt8
  | 0, i, k => im.regionByte i k
  | n + 1, i, k =>
      if i = (im.reloc n).patchRegion ∧ (im.reloc n).patchOffset ≤ k ∧ k < im.patchEnd n then
        byteOf (im.relocStored base n (im.relocTarget imports base n))
          (k - (im.reloc n).patchOffset)
      else patchedByte n i k

/-- The `i`-th relocation was in order, in a space `w` with the regions at `base`. -/
structure Relocated (i : Nat) (w : Vm) : Prop where
  target :
    (im.relocTarget imports base i : Int) = im.relocStart imports base i + (im.reloc i).addend
  window : kUserBase ≤ im.relocTarget imports base i ∧ im.relocTarget imports base i < kUserLimit
  region : (im.reloc i).type ≠ riefRelocImport64 →
    base (im.reloc i).targetRegion ≤ im.relocTarget imports base i ∧ im.relocTarget imports base i ≤
      base (im.reloc i).targetRegion + (im.region (im.reloc i).targetRegion).memorySize
  imported : (im.reloc i).type = riefRelocImport64 → ∃ t : Translation,
    vmmTranslate w.phys.mem w.as.root (im.relocTarget imports base i) = some t ∧ t.user = true
  short : (im.reloc i).type = riefRelocRel32 →
    -2147483648 ≤ im.relocDelta base i (im.relocTarget imports base i) ∧
      im.relocDelta base i (im.relocTarget imports base i) ≤ 2147483647

end RiefImage

/-- The target is the symbol's address and the addend, as integers. -/
theorem riefTarget_some {start target : Nat} {addend : Int}
    (h : riefTarget start addend = some target) : (target : Int) = start + addend := by
  rw [riefTarget] at h
  split at h
  · split at h
    · cases h
    · obtain rfl := Option.some.inj h
      omega
  · split at h
    · cases h
    · obtain rfl := Option.some.inj h
      omega

section Relocations

variable {env : MmuEnv} {s₀ : Phys} {im : RiefImage} {w₀ : Vm} {g₀ g : PageMap} {p : Process}
  {imports : List Nat}

/-- A patch that was made stays while the bytes do. -/
theorem RiefImage.Relocated.kept {base : Nat → Nat} {i : Nat} {w w' : Vm} {g' : PageMap}
    {S : Nat → Prop}
    (h : im.Relocated imports base i w) (hi : SpaceInv env s₀ w g) (hk : KernelOk env s₀)
    (hw : Kept env s₀ S w w' g g') : im.Relocated imports base i w' where
  target := h.target
  window := h.window
  region := h.region
  imported ht := (h.imported ht).imp fun _ he => ⟨hw.translate hi hk he.1 he.2, he.2⟩
  short := h.short

/-- One relocation writes its field. -/
theorem riefPatch_ends (hk : KernelOk env s₀) (hw : im.WellFormed) {i : Nat}
    (hi : i < im.header.relocCount)
    (hm : Mapped env s₀ im w₀ g₀ im.header.regionCount p.regionBase p.vm g)
    (hs : Shows im (im.patchedByte imports p.regionBase i) im.header.regionCount p.regionBase p.vm)
    (hsize : ∀ j < im.header.regionCount, p.regionSize j = (im.region j).memorySize) :
    Io.Ends (riefPatch im imports i) p
      (fun _ p' => (∃ g' S, Mapped env s₀ im w₀ g₀ im.header.regionCount p.regionBase p'.vm g' ∧
          Kept env s₀ S p.vm p'.vm g g') ∧
        Shows im (im.patchedByte imports p.regionBase (i + 1)) im.header.regionCount
          p.regionBase p'.vm ∧
        im.Relocated imports p.regionBase i p'.vm ∧ p' = { p with vm := p'.vm })
      (fun _ => Torn env s₀ w₀ g₀ p) := by
  have hr := hw.relocs i hi
  rw [riefPatch, RiefImage.inside, if_pos (hw.reloc_inside hi)]
  simp only [Io.ends_bind, Io.ends_pure, Io.ends_get]
  have hstart :
      (if (im.reloc i).type = riefRelocImport64 then imports.getD (im.reloc i).targetRegion 0
      else p.regionBase (im.reloc i).targetRegion + (im.reloc i).targetOffset) =
        im.relocStart imports p.regionBase i := rfl
  rw [hstart]
  cases ht : riefTarget (im.relocStart imports p.regionBase i) (im.reloc i).addend with
  | none => exact hm.torn rfl
  | some target =>
      have htarget : im.relocTarget imports p.regionBase i = target := by
        rw [RiefImage.relocTarget, ht]
        rfl
      dsimp only
      refine Io.Ends.ite (fun _ => hm.torn rfl) fun hwin =>
        Io.Ends.ite (fun _ => hm.torn rfl) fun hreg => ?_
      simp only [not_or, not_lt, not_le] at hwin
      -- what is left when the target was probed, or did not have to be
      have htail : ∀ {w₁ g₁ S}, Mapped env s₀ im w₀ g₀ im.header.regionCount p.regionBase w₁ g₁ →
          Kept env s₀ S p.vm w₁ g g₁ →
          Shows im (im.patchedByte imports p.regionBase i) im.header.regionCount p.regionBase w₁ →
          ((im.reloc i).type = riefRelocImport64 → ∃ t : Translation,
            vmmTranslate w₁.phys.mem w₁.as.root target = some t ∧ t.user = true) →
          Io.Ends (if (im.reloc i).type = riefRelocRel32 ∧
              (im.relocDelta p.regionBase i target < -2147483648 ∨
                2147483647 < im.relocDelta p.regionBase i target)
            then Load.fail .enoexec
            else Load.copyIn (im.site p.regionBase i)
              (byteOf (im.relocStored p.regionBase i target))
              (im.reloc i).width) { p with vm := w₁ }
            (fun _ p' => (∃ g' S,
              Mapped env s₀ im w₀ g₀ im.header.regionCount p.regionBase p'.vm g' ∧
                Kept env s₀ S p.vm p'.vm g g') ∧
              Shows im (im.patchedByte imports p.regionBase (i + 1)) im.header.regionCount
                p.regionBase p'.vm ∧
              im.Relocated imports p.regionBase i p'.vm ∧ p' = { p with vm := p'.vm })
            (fun _ => Torn env s₀ w₀ g₀ p) := by
        intro w₁ g₁ S hm₁ hkept hs₁ himport
        refine Io.Ends.ite (fun _ => hm₁.torn rfl) fun hshort => ?_
        have hin := hr.inside
        have hspan : _ ≤ im.span (im.reloc i).patchRegion := RiefImage.span_ge _
        obtain ⟨g₂, hm₂, hkept₂, hs₂⟩ := hm₁.copy hk hs₁ hr.patch
          (show (im.reloc i).patchOffset + (im.reloc i).width ≤ _ by omega)
          (byteOf (im.relocStored p.regionBase i target))
        refine Load.copyIn_ends (fun hok => ?_) fun e => hm₂.torn rfl
        have hrel : im.Relocated imports p.regionBase i w₁ := by
          refine ⟨?_, ?_, fun ht' => ?_, fun ht' => ?_, fun ht' => ?_⟩
          · rw [htarget]
            exact riefTarget_some ht
          · rw [htarget]
            exact hwin
          · rw [htarget, ← hsize _ (hr.target ht').1]
            simp only [ht', ne_eq, not_false_eq_true, true_and, not_or, not_lt] at hreg
            omega
          · rw [htarget]
            exact himport ht'
          · rw [htarget]
            simp only [ht', true_and, not_or, not_lt] at hshort
            exact hshort
        refine ⟨⟨g₂, fun v => S v ∨ im.Within p.regionBase im.header.regionCount v, hm₂,
          (hkept.mono fun _ => Or.inl).trans (hkept₂.mono fun _ => Or.inr)⟩, fun j hj k hk' => ?_,
          hrel.kept hm₁.kept.inv hk hkept₂, rfl⟩
        rw [RiefImage.patchedByte, htarget]
        exact hs₂ hok j hj k hk'
      refine Io.Ends.ite (fun himport => ?_) fun himport => ?_
      · simp only [Io.ends_bind]
        obtain ⟨g₁, hprobe⟩ := hm.kept.inv.probed hk target
        have has := (hm.kept.inv.tables.asCheck hk target 1 false).1
        have hm₁ := hm.step hprobe (fun _ => False.elim) has
        refine (Load.mapped_ends target).mono ?_ ?_
        · rintro - p' ⟨rfl, hok⟩
          refine htail hm₁ hprobe (fun j hj k hk' => ?_) fun _ => ?_
          · rw [hprobe.bytes _ id]
            exact hs j hj k hk'
          · have hrange := hm.kept.inv.checkedRange hk target 1 false (Prod.ext hok rfl)
            obtain ⟨t, ht, hu, -⟩ := hrange.user target (Nat.le_refl _) (by omega)
            exact ⟨t, ht, hu⟩
        · rintro e p' ⟨-, rfl⟩
          exact hm₁.torn rfl
      · exact htail hm (.refl hm.kept.inv fun _ => False) hs fun h => absurd h himport

/-- All of them, by induction on what is left. -/
theorem riefPatches_ends (hk : KernelOk env s₀) (hw : im.WellFormed) (left : Nat) :
    ∀ {i : Nat} {p : Process}
    {g : PageMap}, i + left = im.header.relocCount →
    Mapped env s₀ im w₀ g₀ im.header.regionCount p.regionBase p.vm g →
    Shows im (im.patchedByte imports p.regionBase i) im.header.regionCount p.regionBase p.vm →
    (∀ j < im.header.regionCount, p.regionSize j = (im.region j).memorySize) →
    (∀ j < i, im.Relocated imports p.regionBase j p.vm) →
    Io.Ends (riefPatches im imports left i) p
      (fun _ p' => (∃ g', Mapped env s₀ im w₀ g₀ im.header.regionCount p.regionBase p'.vm g') ∧
        Shows im (im.patchedByte imports p.regionBase (i + left)) im.header.regionCount
          p.regionBase p'.vm ∧
        (∀ j < i + left, im.Relocated imports p.regionBase j p'.vm) ∧ p' = { p with vm := p'.vm })
      (fun _ => Torn env s₀ w₀ g₀ p) := by
  induction left with
  | zero =>
      intro i p g _ hm hs _ hr
      exact ⟨⟨g, hm⟩, hs, hr, rfl⟩
  | succ left ih =>
      intro i p g hi hm hs hsize hr
      refine (riefPatch_ends hk hw (by omega) hm hs hsize).bind ?_
      rintro _ p₁ ⟨⟨g₁, S, hm₁, hkept⟩, hs₁, hnew, hp₁⟩
      have hbase : p₁.regionBase = p.regionBase := by rw [hp₁]
      have hsize₁ : p₁.regionSize = p.regionSize := by rw [hp₁]
      have hr₁ : ∀ j < i + 1, im.Relocated imports p.regionBase j p₁.vm := fun j hj => by
        rcases Nat.lt_or_eq_of_le (Nat.le_of_lt_succ hj) with hlt | rfl
        · exact (hr j hlt).kept hm.kept.inv hk hkept
        · exact hnew
      rw [← hbase] at hm₁ hs₁ hr₁
      refine (ih (by omega) hm₁ hs₁ (by rwa [hsize₁]) hr₁).mono ?_ fun _ _ he =>
        he.after (by rw [hp₁])
      rintro _ p₂ ⟨hm₂, hs₂, hr₂, hp₂⟩
      rw [hbase, show i + 1 + left = i + (left + 1) by omega] at *
      exact ⟨hm₂, hs₂, hr₂, by rw [hp₂, hp₁]⟩

end Relocations

/-! ### What the patched regions hold -/

section Patched

variable {im : RiefImage} {imports : List Nat} {base : Nat → Nat}

/-- Where no relocation patches, the byte is the image's. -/
theorem RiefImage.patchedByte_rest {i k : Nat} (n : Nat)
    (h : ∀ j < n,
      ¬ (i = (im.reloc j).patchRegion ∧ (im.reloc j).patchOffset ≤ k ∧ k < im.patchEnd j)) :
    im.patchedByte imports base n i k = im.regionByte i k := by
  induction n with
  | zero => rfl
  | succ n ih =>
      rw [RiefImage.patchedByte, if_neg (h n (Nat.lt_succ_self n))]
      exact ih fun j hj => h j (by omega)

/-- Relocations are apart, so that each one finds its bytes as it left them. -/
theorem RiefImage.patchedByte_site (hw : im.WellFormed) {j k : Nat} (n : Nat) (hj : j < n)
    (hn : n ≤ im.header.relocCount) (hk : k < (im.reloc j).width) :
    im.patchedByte imports base n (im.reloc j).patchRegion ((im.reloc j).patchOffset + k) =
      byteOf (im.relocStored base j (im.relocTarget imports base j)) k := by
  induction n with
  | zero => exact absurd hj (Nat.not_lt_zero j)
  | succ n ih =>
      rw [RiefImage.patchedByte]
      rcases Nat.lt_or_eq_of_le (Nat.le_of_lt_succ hj) with hlt | rfl
      · rw [if_neg, ih hlt (by omega)]
        have hafter := hw.sorted j n hlt (by omega)
        simp only [RiefImage.Behind, RiefImage.patchEnd] at hafter ⊢
        omega
      · rw [if_pos ⟨rfl, by omega, by rw [RiefImage.patchEnd]; omega⟩, Nat.add_sub_cancel_left]

end Patched

/-! ### Exports -/

/-- The exports get their addresses. -/
theorem riefPublish_ends {im : RiefImage} (hw : im.WellFormed) (left : Nat) :
    ∀ {i : Nat} {p : Process},
    i + left = im.header.exportCount →
    Io.Ends (riefPublish im left i) p
      (fun _ p' => (∀ k, i ≤ k → k < i + left → (p'.exports k).address =
          p.regionBase (im.export_ k).region + (im.export_ k).offset) ∧
        (∀ k < i, p'.exports k = p.exports k) ∧ (∀ k, (p'.exports k).name = (p.exports k).name) ∧
        p' = { p with exports := p'.exports })
      (fun _ _ => False) := by
  induction left with
  | zero =>
      intro i p _
      exact ⟨fun k h₁ h₂ => absurd h₂ (by omega), fun _ _ => rfl, fun _ => rfl, rfl⟩
  | succ left ih =>
      intro i p hi
      rw [riefPublish, RiefImage.inside, if_pos (hw.export_inside (by omega))]
      simp only [Io.ends_bind, Io.ends_pure, Io.ends_modify]
      refine (ih (by omega)).mono ?_ fun _ _ he => he
      rintro _ p' ⟨haddr, hold, hname, hp⟩
      refine ⟨fun k h₁ h₂ => ?_, fun k hk => ?_, fun k => ?_, by rw [hp]⟩
      · rcases Nat.lt_or_eq_of_le h₁ with hlt | rfl
        · exact haddr k hlt (by omega)
        · rw [hold _ (Nat.lt_succ_self _)]
          simp only [Function.update_self]
      · rw [hold k (by omega)]
        exact Function.update_of_ne (Nat.ne_of_lt hk) _ _
      · rw [hname]
        dsimp only
        rcases eq_or_ne k i with rfl | hne
        · rw [Function.update_self]
        · rw [Function.update_of_ne hne]

end Efishell
