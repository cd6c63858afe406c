import Efishell.Kernel.RiefLoad

/-!
# Kernel — loads that succeed and loads that fail

`rief_load_sound` says what `rief_load_locked` leaves when it succeeds: the regions of a well-formed
image lie apart in addresses that were never handed out, with their own permissions; the user sees
the bytes of the image there and the stored targets at the places of the relocations, and elsewhere
what was there before, and `k_rief_export` finds every exported name at its place
(`Loaded.export_found`).

`rief_load_failed` says what it leaves when it fails: the space as it was, except that a load that
got as far as mapping takes everything from `next` to the end of the window away, fixed mappings
included. `rief_load_run` says how a load changes the space: by calls of the loader and at most one
rollback.

* `rief_load_run`: which calls of the space a load makes, and the one rollback of a failed one.
* `rief_load_sound`: a load that succeeds leaves the image in the space.
* `rief_load_failed`: one that fails leaves the space as it was, but for lazy pages.
-/

namespace Efishell

/-- What a load leaves that succeeds. -/
structure Loaded (im : RiefImage) (bindings : List RiefBinding) (imports : List Nat)
    (p p' : Process) :
    Prop where
  image : im.WellFormed
  bound : imports.length = im.header.importCount ∧
    ∀ k < im.header.importCount, im.Bound bindings k (imports.getD k 0)
  placed : im.Placed p.vm.as.next p'.vm.as.next p'.regionBase im.header.regionCount
  window : kUserBase ≤ p.vm.as.next ∧ p'.vm.as.next ≤ kUserLimit
  size : ∀ i < im.header.regionCount, p'.regionSize i = (im.region i).memorySize
  rights : ∀ i < im.header.regionCount, ∀ v, p'.regionBase i ≤ v → v < p'.regionBase i + im.span i →
    ∃ t, vmmTranslate p'.vm.phys.mem p'.vm.as.root v = some t ∧ t.user = true ∧
      t.rw = regionW (im.region i).flags ∧ t.nx = !regionX (im.region i).flags
  relocated : ∀ j < im.header.relocCount, im.Relocated imports p'.regionBase j p'.vm
  sites : ∀ j < im.header.relocCount, ∀ k < (im.reloc j).width,
    userByte p'.vm (im.site p'.regionBase j + k) =
      some (byteOf (im.relocStored p'.regionBase j (im.relocTarget imports p'.regionBase j)) k)
  bytes : ∀ i < im.header.regionCount, ∀ k < im.span i,
    (∀ j < im.header.relocCount,
      ¬ (i = (im.reloc j).patchRegion ∧ (im.reloc j).patchOffset ≤ k ∧ k < im.patchEnd j)) →
    userByte p'.vm (p'.regionBase i + k) = some (im.regionByte i k)
  others : ∀ v, ¬ im.Within p'.regionBase im.header.regionCount v →
    userByte p'.vm v = userByte p.vm v
  kept : ∀ v t, vmmTranslate p.vm.phys.mem p.vm.as.root v = some t → t.user = true →
    vmmTranslate p'.vm.phys.mem p'.vm.as.root v = some t
  exports : ∀ i < im.header.exportCount, im.ExportOk p'.exports i ∧
    (p'.exports i).address = p'.regionBase (im.export_ i).region + (im.export_ i).offset
  record : p'.loaded = true ∧ p'.used = true ∧ p'.regionCount = im.header.regionCount ∧
    p'.exportCount = im.header.exportCount ∧
    p'.entry = p'.regionBase im.header.entryRegion + im.header.entryOffset

variable {env : MmuEnv} {s₀ : Phys} {im : RiefImage} {bindings : List RiefBinding} {p p' : Process}

/-- The permissions of a page of the map. -/
theorem SpaceInv.rights {w : Vm} {g : PageMap} (h : SpaceInv env s₀ w g) {v q rwx : Nat}
    (hv : kUserBase ≤ v ∧ v < kUserLimit) (hg : g (1, v / ptSpan 1) = .page q rwx) :
    ∃ t, vmmTranslate w.phys.mem w.as.root v = some t ∧ t.user = true ∧
      t.rw = regionW rwx ∧ t.nx = !regionX rwx := by
  have hslot := slot_of_window hv.1 hv.2
  have hks : kernelSlot env s₀ (v / ptSpan 4) = false := by
    rw [hslot]
    exact h.not_kernel userSlot (by decide) h.window
  have hview : g.view v = some (q + v % ptSpan 1, rwx) := by rw [PageMap.view, hg]
  have hlow : v < 2 ^ 47 := by
    have := hv.2
    simp only [kUserLimit] at this
    omega
  rw [h.tables.translate hlow hks, hview]
  exact ⟨_, rfl, rfl, rfl, rfl⟩

/-- The installation of an image that passed the checks. -/
theorem riefInstall_ends {imports : List Nat} {g₁ : PageMap} {p₁ : Process} (hk : KernelOk env s₀)
    (hp : im.Passed bindings p imports p₁) (h₁ : SpaceInv env s₀ p₁.vm g₁) :
    Io.Ends (riefInstall env im imports) p₁
      (fun _ p' => ∃ g', Mapped env s₀ im p₁.vm g₁ im.header.regionCount p'.regionBase p'.vm g' ∧
        Loaded im bindings imports p₁ p')
      (fun _ => Torn env s₀ p₁.vm g₁ p₁) := by
  have hw := hp.image
  rw [riefInstall]
  simp only [Io.ends_bind, Io.ends_modify]
  -- the regions, then the relocations in them, then the exports
  refine (riefMap_ends hk hw h₁ im.header.regionCount (Nat.zero_add _)
    (Mapped.start h₁ im p₁.regionBase) .refl
    (fun i hi => absurd hi (Nat.not_lt_zero i)) (fun i hi => absurd hi (Nat.not_lt_zero i))).mono ?_
    fun _ _ he => he.1
  rintro _ p₂ ⟨⟨g₂, hm₂⟩, hs₂, hsize, hp₂⟩
  rw [Nat.zero_add] at hm₂ hs₂ hsize
  refine (riefPatches_ends hk hw im.header.relocCount (Nat.zero_add _) hm₂ hs₂ hsize
    fun j hj => absurd hj (Nat.not_lt_zero j)).mono ?_ fun _ _ he => he.after hp₂
  rintro _ p₃ ⟨⟨g₃, hm₃⟩, hs₃, hr₃, hp₃⟩
  rw [Nat.zero_add] at hs₃ hr₃
  refine (riefPublish_ends hw im.header.exportCount (Nat.zero_add _)).mono ?_ fun _ _ he => he.elim
  rintro _ p₄ ⟨haddr, -, hname, hp₄⟩
  have hvm : p₄.vm = p₃.vm := by rw [hp₄]
  have hbase : p₄.regionBase = p₂.regionBase := by rw [hp₄, hp₃]
  have hsz : p₄.regionSize = p₂.regionSize := by rw [hp₄, hp₃]
  have hex : ∀ k, (p₄.exports k).name = (p₁.exports k).name := by
    intro k
    rw [hname, hp₃, hp₂]
  refine ⟨g₃, ?_, ?_⟩
  · rw [hvm, hbase]
    exact hm₃
  refine
    { image := hw
      bound := hp.imports
      placed := ?_
      window := ⟨h₁.base_le_next, ?_⟩
      size := ?_
      rights := ?_
      relocated := ?_
      sites := ?_
      bytes := ?_
      others := ?_
      kept := ?_
      exports := ?_
      record := ?_ }
  all_goals dsimp only
  · rw [hvm, hbase]
    exact hm₃.placed
  · rw [hvm]
    exact hm₃.kept.inv.next_le
  · rw [hsz]
    exact hsize
  · rw [hvm, hbase]
    intro i hi v h₁' h₂'
    obtain ⟨q, hq⟩ := hm₃.pages i hi v h₁' h₂'
    have ha := hm₃.ahead ⟨i, hi, h₁', h₂'⟩
    exact hm₃.kept.inv.rights ⟨h₁.base_le_next.trans ha.1, ha.2⟩ hq
  · rw [hvm, hbase]
    exact hr₃
  · rw [hvm, hbase]
    intro j hj k hk'
    have hr := hw.relocs j hj
    have hin := hr.inside
    have hspan : _ ≤ im.span (im.reloc j).patchRegion := RiefImage.span_ge _
    rw [← RiefImage.patchedByte_site hw _ hj (Nat.le_refl _) hk', RiefImage.site, Nat.add_assoc]
    exact hs₃ _ hr.patch ((im.reloc j).patchOffset + k) (by omega)
  · rw [hvm, hbase]
    intro i hi k hk' hno
    rw [hs₃ i hi k hk', RiefImage.patchedByte_rest _ hno]
  · rw [hvm, hbase]
    exact hm₃.kept.bytes
  · rw [hvm]
    exact fun v t ht hu => hm₃.kept.translate h₁ hk ht hu
  · intro i hi
    refine ⟨(hp.exports i hi).congr fun j _ => hex j, ?_⟩
    rw [haddr i (Nat.zero_le i) (by omega), hp₄, hp₃]
  · refine ⟨rfl, ?_, rfl, rfl, rfl⟩
    rw [hp₄, hp₃, hp₂, hp.rest]
    exact hp.idle.1

/-! ### A load is a run -/

/-- `w'` comes from `w` by calls that `P` allows. -/
inductive VmCalls (env : MmuEnv) (P : VmCall → Prop) : Vm → Vm → Prop where
  | refl {w : Vm} : VmCalls env P w w
  | call {w w' : Vm} (c : VmCall) : P c → VmCalls env P w w' → VmCalls env P w (c.run env w')

namespace VmCalls

variable {P Q : VmCall → Prop} {w w' w'' : Vm}

theorem trans (h : VmCalls env P w w') (h' : VmCalls env P w' w'') : VmCalls env P w w'' := by
  induction h' with
  | refl => exact h
  | call c hc _ ih => exact ih.call c hc

theorem mono (hPQ : ∀ c, P c → Q c) (h : VmCalls env P w w') : VmCalls env Q w w' := by
  induction h with
  | refl => exact .refl
  | call c hc _ ih => exact ih.call c (hPQ c hc)

/-- VmCalls are a run without rollbacks. -/
theorem run (h : VmCalls env P w w') : Run env w w' := by
  induction h with
  | refl => exact .refl
  | call c _ _ ih => exact ih.call c

end VmCalls

theorem Run.trans {w w' w'' : Vm} (h : Run env w w') (h' : Run env w' w'') : Run env w w'' := by
  induction h' with
  | refl => exact h
  | call c _ ih => exact (ih h).call c
  | rollback _ h₂ ih₁ _ => exact (ih₁ h).rollback h₂

/-- The calls that the checks make: addresses are probed, and their pages made on demand. -/
def VmCall.Probe : VmCall → Prop
  | .demandFault _ _ => True
  | _ => False

/-- The calls that a load makes: `k_as_alloc`, `as_copy` to the user with the loader's rights, and
`x86_64_demand_fault`. -/
def VmCall.OfLoad : VmCall → Prop
  | .alloc _ _ _ => True
  | .copy _ _ _ toUser loader => toUser = true ∧ loader = true
  | .demandFault _ _ => True
  | _ => False

theorem VmCall.Probe.ofLoad {c : VmCall} (h : c.Probe) : c.OfLoad := by
  cases c with
  | demandFault a e => trivial
  | _ => exact h.elim

/-- How a load that returns `r` changes the space: probes, and then, when the checks are passed,
calls of the loader; a load that fails after that rolls back once, to `next` and `pages` at the
first mapping. -/
inductive LoadRun (env : MmuEnv) (w : Vm) : Except LoadStop Unit → Vm → Prop where
  | stopped {e : LoadStop} {w₁ : Vm} : VmCalls env VmCall.Probe w w₁ → LoadRun env w (.error e) w₁
  | loaded {w₁ w' : Vm} : VmCalls env VmCall.Probe w w₁ → VmCalls env VmCall.OfLoad w₁ w' →
      LoadRun env w (.ok ()) w'
  | failed {e : LoadStop} {w₁ w₂ : Vm} : VmCalls env VmCall.Probe w w₁ →
      VmCalls env VmCall.OfLoad w₁ w₂ →
      LoadRun env w (.error e) (asRollback w₁.as.next w₁.as.pages w₂)

/-- What a load does is a run. -/
theorem LoadRun.run {w w' : Vm} {r : Except LoadStop Unit} (h : LoadRun env w r w') :
    Run env w w' := by
  cases h with
  | stopped h₁ => exact h₁.run
  | loaded h₁ h₂ => exact h₁.run.trans h₂.run
  | failed h₁ h₂ => exact h₁.run.rollback h₂.run

/-- The walk of `x86_64_as_check` makes faults only. -/
theorem VmCalls.checkPages (write : Bool) (left : Nat) : ∀ (v : Nat) (w : Vm),
    VmCalls env VmCall.Probe w (Efishell.checkPages write left v w).2 := by
  induction left with
  | zero => exact fun _ _ => .refl
  | succ left ih =>
      intro v w
      rw [Efishell.checkPages]
      obtain ⟨r, w₁, hr, hcalls⟩ : ∃ r w₁,
          (if (vmmTranslate w.phys.mem w.as.root v).isSome = true then
              ((.ok () : Except Errno Unit), w)
            else Efishell.demandFault v (if write = true then 2 else 0) w) = (r, w₁) ∧
          VmCalls env VmCall.Probe w w₁ := by
        split
        · exact ⟨_, _, rfl, .refl⟩
        · exact ⟨_, _, rfl, .call (.demandFault v (if write = true then 2 else 0)) trivial .refl⟩
      rw [hr]
      cases r with
      | error e => exact hcalls
      | ok u =>
          dsimp only
          split
          · exact hcalls
          · split
            · exact hcalls
            · exact hcalls.trans (ih _ _)

theorem VmCalls.asCheck (address bytes : Nat) (write : Bool) (w : Vm) :
    VmCalls env VmCall.Probe w (Efishell.asCheck address bytes write w).2 := by
  rw [Efishell.asCheck]
  split
  · exact .refl
  · split
    · exact .refl
    · exact VmCalls.checkPages _ _ _ _

/-- The space that a computation leaves comes from the one it found by calls that `P` allows. -/
def Runs (env : MmuEnv) (P : VmCall → Prop) {α : Type} (x : Load α) : Prop :=
  ∀ p : Process, VmCalls env P p.vm (x p).2.vm

namespace Runs

variable {α β : Type} {P : VmCall → Prop}

theorem pure (a : α) : Runs env P (Pure.pure a : Load α) := fun _ => .refl

theorem fail (e : Errno) : Runs env P (Load.fail e : Load α) := fun _ => .refl

theorem lift (r : Except LoadStop α) : Runs env P (Io.lift r : Load α) := fun _ => .refl

theorem get : Runs env P (Io.get : Load Process) := fun _ => .refl

theorem modify {f : Process → Process} (hf : ∀ p, (f p).vm = p.vm) :
    Runs env P (Io.modify f : Load Unit) := by
  intro p
  rw [Io.modify_run, hf]
  exact .refl

theorem inside (im : RiefImage) (off n : Nat) : Runs env P (im.inside off n) := by
  intro p
  rw [RiefImage.inside]
  split <;> exact .refl

/-- The calls of one part and then of the next. -/
theorem bind {x : Load α} {f : α → Load β} (hx : Runs env P x) (hf : ∀ a, Runs env P (f a)) :
    Runs env P (x >>= f) := by
  intro p
  rw [Io.bind_run]
  have h := hx p
  cases hr : x p with
  | mk r p₁ =>
      rw [hr] at h
      cases r with
      | ok a => exact h.trans (hf a p₁)
      | error e => exact h

theorem ite {c : Prop} [Decidable c] {x y : Load α} (hx : Runs env P x) (hy : Runs env P y) :
    Runs env P (if c then x else y) := by
  split
  · exact hx
  · exact hy

/-- A call of the space. -/
theorem onSpace {f : Vm → Except Errno α × Vm} (hf : ∀ w, VmCalls env P w (f w).2) :
    Runs env P (Load.onSpace f) := by
  intro p
  have h := hf p.vm
  rw [Load.onSpace]
  cases hr : f p.vm with
  | mk r w =>
      rw [hr] at h
      cases r <;> exact h

/-- A probe of an address. -/
theorem mapped (hP : ∀ c, VmCall.Probe c → P c) (a : Nat) : Runs env P (Load.mapped a) := by
  refine onSpace fun w => ?_
  have h : VmCalls env P w (Efishell.asCheck a 1 false w).2 := (VmCalls.asCheck a 1 false w).mono hP
  cases hr : Efishell.asCheck a 1 false w with
  | mk r w' =>
      rw [hr] at h
      cases r <;> exact h

/-- A copy into the space. -/
theorem copyIn (u : Nat) (buf : Bytes) (n : Nat) : Runs env VmCall.OfLoad (Load.copyIn u buf n) :=
  onSpace fun _ => .call (.copy u buf n true true) ⟨rfl, rfl⟩ .refl

end Runs

section Parts

variable {imports : List Nat}

open Runs

/-- The regions are allocated and filled. -/
theorem riefMap_runs (left : Nat) : ∀ i, Runs env VmCall.OfLoad (riefMap env im left i) := by
  induction left with
  | zero => exact fun _ => .pure ()
  | succ left ih =>
      intro i
      refine .bind (.onSpace fun _ => .call (.alloc _ _ _) trivial .refl) fun base =>
        .bind (.modify fun _ => rfl) fun _ => ?_
      exact .bind (.inside im _ _) fun _ => .bind (.copyIn _ _ _) fun _ => ih _

theorem riefPatch_runs (i : Nat) : Runs env VmCall.OfLoad (riefPatch im imports i) := by
  refine .bind (.inside im _ _) fun _ => .bind .get fun p => ?_
  dsimp only
  split
  · exact .fail _
  · refine .ite (.fail _)
      (.ite (.fail _) (.ite (.bind (.mapped (fun _ => VmCall.Probe.ofLoad) _) fun _ => ?_) ?_))
    all_goals exact .ite (.fail _) (.copyIn _ _ _)

theorem riefPatches_runs (left : Nat) :
    ∀ i, Runs env VmCall.OfLoad (riefPatches im imports left i) := by
  induction left with
  | zero => exact fun _ => .pure ()
  | succ left ih => exact fun i => .bind (riefPatch_runs i) fun _ => ih _

theorem riefPublish_runs (left : Nat) : ∀ i, Runs env VmCall.OfLoad (riefPublish im left i) := by
  induction left with
  | zero => exact fun _ => .pure ()
  | succ left ih =>
      exact fun i => .bind (.inside im _ _) fun _ => .bind (.modify fun _ => rfl) fun _ => ih _

theorem riefInstall_runs : Runs env VmCall.OfLoad (riefInstall env im imports) :=
  .bind (riefMap_runs _ _) fun _ => .bind (riefPatches_runs _ _) fun _ =>
    .bind (riefPublish_runs _ _) fun _ =>
    .modify fun _ => rfl

end Parts

/-! ### Loads that succeed -/

/-- What was seen before the checks is what was seen after them. -/
theorem Loaded.before {imports : List Nat} {p₁ : Process} (h : Loaded im bindings imports p₁ p')
    (hnext : p₁.vm.as.next = p.vm.as.next) (hb : ∀ v, userByte p₁.vm v = userByte p.vm v)
    (ht : ∀ v t, vmmTranslate p.vm.phys.mem p.vm.as.root v = some t → t.user = true →
      vmmTranslate p₁.vm.phys.mem p₁.vm.as.root v = some t) : Loaded im bindings imports p p' :=
  { h with
    placed := hnext ▸ h.placed
    window := hnext ▸ h.window
    others := fun v hv => (h.others v hv).trans (hb v)
    kept := fun v t he hu => h.kept v t (ht v t he hu) hu }

/-- No two exports have one name. -/
theorem Loaded.distinct {imports : List Nat} (h : Loaded im bindings imports p p') {i j : Nat}
    (hi : i < im.header.exportCount) (hj : j < im.header.exportCount)
    (he : strEq (p'.exports i).name (p'.exports j).name = true) : i = j := by
  obtain ⟨n, hn⟩ := (h.exports i hi).1.name
  obtain ⟨m, hm⟩ := (h.exports j hj).1.name
  rcases Nat.lt_trichotomy i j with hlt | rfl | hlt
  · -- the later name was compared with the earlier one
    have hfresh := (h.exports j hj).1.fresh i hlt
    have hback : strEq (p'.exports j).name (p'.exports i).name = true := by
      have hsame := (strEq_iff hn).mp he
      have hnm : m ≤ n := by
        by_contra hlong
        have hz := (hm.copied n (by omega)).symm.trans ((hsame n (Nat.le_refl n)).symm.trans
          ((hn.copied n (Nat.le_refl n)).trans hn.ends))
        have hp := (hm.printable n (by omega)).1
        rw [hz] at hp
        exact absurd hp (by decide)
      exact (strEq_iff hm).mpr fun k hk => (hsame k (hk.trans hnm)).symm
    rw [hback] at hfresh
    cases hfresh
  · rfl
  · have hfresh := (h.exports i hi).1.fresh j hlt
    rw [he] at hfresh
    cases hfresh

/-- After a load `k_rief_export` finds every exported name at its place in the image. -/
theorem Loaded.export_found {imports : List Nat} (h : Loaded im bindings imports p p') {i : Nat}
    (hi : i < im.header.exportCount) :
    kRiefExport p' (p'.exports i).name =
      .ok (p'.regionBase (im.export_ i).region + (im.export_ i).offset) := by
  obtain ⟨n, hn⟩ := (h.exports i hi).1.name
  obtain ⟨hloaded, hused, -, hcount, -⟩ := h.record
  rw [kRiefExport, if_neg (by simp [hloaded, hused])]
  have hself : strEq (p'.exports i).name (p'.exports i).name = true :=
    (strEq_iff hn).mpr fun _ _ => rfl
  cases hf : (List.range p'.exportCount).find? fun j =>
    strEq (p'.exports i).name (p'.exports j).name with
  | none =>
      have hnone := List.find?_eq_none.mp hf i (List.mem_range.mpr (by omega))
      exact absurd hself hnone
  | some j =>
      have hj := List.mem_range.mp (List.mem_of_find?_eq_some hf)
      have hsame : strEq (p'.exports i).name (p'.exports j).name = true := by
        have hfound := List.find?_some hf
        exact hfound
      have hij := h.distinct hi (hcount ▸ hj) hsame
      subst hij
      exact congrArg Except.ok (h.exports i hi).2

variable {w₀ : Vm}

/-- What a load that succeeds leaves, and a space that is in order. -/
theorem rief_loaded (hk : KernelOk env s₀) (hc : asCreate env s₀ = some w₀) (hr : Run env w₀ p.vm)
    (hl : riefLoadLocked env im bindings p = (.ok (), p')) :
    ∃ imports g, Loaded im bindings imports p p' ∧ SpaceInv env s₀ p'.vm g := by
  obtain ⟨g, h, -⟩ := hr.inv hk (asCreate_inv hk hc)
  have hcheck := riefCheck_ends im bindings p
  rw [riefLoadLocked_run] at hl
  rw [Io.Ends] at hcheck
  cases hx : riefCheck im bindings p with
  | mk r p₁ =>
      rw [hx] at hl hcheck
      cases r with
      | error e => cases hl
      | ok imports =>
          dsimp only at hl hcheck
          obtain ⟨g₁, hprobes, has⟩ := h.probes hk hcheck.probes
          have hi := riefInstall_ends hk hcheck hprobes.inv
          have hruns : Run env p₁.vm (riefInstall env im imports p₁).2.vm :=
            (riefInstall_runs p₁).run
          rw [Io.Ends] at hi
          cases hy : riefInstall env im imports p₁ with
          | mk r' p₂ =>
              rw [hy] at hl hi hruns
              cases r' with
              | error e => cases hl
              | ok u =>
                  obtain rfl : p₂ = p' := (Prod.mk.inj hl).2
                  obtain ⟨-, -, hloaded⟩ := hi
                  obtain ⟨g₂, hinv, -⟩ := hruns.inv hk hprobes.inv
                  refine ⟨imports, g₂, ?_, hinv⟩
                  refine hloaded.before (congrArg AddressSpace.next has) (fun v => ?_)
                    fun v t ht hu => ?_
                  · exact hprobes.bytes v id
                  · exact hprobes.translate h hk ht hu

/-- **A load that succeeds leaves the image in the space**, whatever the space went through before:
its regions apart in new addresses, with their permissions, their bytes and their relocations, and
nothing else changed. -/
theorem rief_load_sound (hk : KernelOk env s₀) (hc : asCreate env s₀ = some w₀)
    (hr : Run env w₀ p.vm) (hl : riefLoadLocked env im bindings p = (.ok (), p')) :
    ∃ imports, Loaded im bindings imports p p' ∧ ∀ i < im.header.exportCount,
      kRiefExport p' (p'.exports i).name =
        .ok (p'.regionBase (im.export_ i).region + (im.export_ i).offset) := by
  obtain ⟨imports, g, hloaded, -⟩ := rief_loaded hk hc hr hl
  exact ⟨imports, hloaded, fun i hi => hloaded.export_found hi⟩

/-! An image of one region of sixteen bytes, with its own address at byte 8 and one export, loaded
into a new space. -/

/-- An image of one region, with a relocation and an export. -/
def smallImage : RiefImage where
  bytes :=
    let b := wr32 (fun _ => 0) 0 0x46454952
    let b := wr16 (wr16 b 4 1) 8 1
    -- one region, one relocation, one export
    let b := wr32 (wr32 (wr32 (wr32 b 12 96) 16 1) 20 1) 28 1
    let b := wr64 (wr64 (wr64 (wr64 (wr64 b 32 96) 40 128) 56 168) 64 184) 72 2
    let b := wr64 (wr64 (wr64 (wr32 (wr32 b 96 5) 100 16) 104 192) 112 4) 120 16
    let b := wr64 (wr32 b 132 1) 144 8
    wr32 (wr16 b 184 0x66) 192 0xc3
  size := 196

/-- A process slot with nothing loaded. -/
def idleProcess (w : Vm) : Process where
  used := true
  loaded := false
  taskId := 0
  vm := w
  regionBase := fun _ => 0
  regionSize := fun _ => 0
  regionCount := 0
  exportCount := 0
  exports := fun _ => ⟨fun _ => 0, 0⟩
  entry := 0

theorem rief_load_sound_small : ∃ w₀ p', asCreate bootEnv bootPhys = some w₀ ∧
    riefLoadLocked bootEnv smallImage [] (idleProcess w₀) = (.ok (), p') ∧
    ∃ imports, Loaded smallImage [] imports (idleProcess w₀) p' := by
  obtain ⟨w₀, hc⟩ := asCreate_boot
  have hrun : ((asCreate bootEnv bootPhys).map fun w =>
      (riefLoadLocked bootEnv smallImage [] (idleProcess w)).1.isOk) = some true := by
        decide +kernel
  rw [hc, Option.map_some] at hrun
  cases hl : riefLoadLocked bootEnv smallImage [] (idleProcess w₀) with
  | mk r p' =>
      rw [hl] at hrun
      cases r with
      | error e => cases Option.some.inj hrun
      | ok u =>
          obtain ⟨imports, h, -⟩ := rief_load_sound kernelOk_boot hc (p := idleProcess w₀) .refl hl
          exact ⟨w₀, p', hc, hl, imports, h⟩

/-! ### Loads that fail -/

/-- The load stopped in the checks: what the user sees is as before, and at most names of exports
were overwritten. -/
structure LoadRefused (p p' : Process) : Prop where
  bytes : ∀ v, userByte p'.vm v = userByte p.vm v
  kept : ∀ v t, vmmTranslate p.vm.phys.mem p.vm.as.root v = some t → t.user = true →
    vmmTranslate p'.vm.phys.mem p'.vm.as.root v = some t
  regions : p'.regionBase = p.regionBase ∧ p'.regionSize = p.regionSize
  addresses : ∀ k, (p'.exports k).address = (p.exports k).address

/-- The load had begun to map: nothing is mapped any more from `next` to the end of the window,
whoever mapped it, and the tables of regions and exports are zero. -/
structure LoadUndone (p p' : Process) : Prop where
  bytes : ∀ v, userByte p'.vm v = if p.vm.as.next ≤ v ∧ v < kUserLimit then none
    else userByte p.vm v
  kept : ∀ v t, vmmTranslate p.vm.phys.mem p.vm.as.root v = some t → t.user = true →
    ¬ (p.vm.as.next ≤ v ∧ v < kUserLimit) → vmmTranslate p'.vm.phys.mem p'.vm.as.root v = some t
  regions : ∀ k, p'.regionBase k = 0 ∧ p'.regionSize k = 0
  exports : ∀ k, p'.exports k = ⟨fun _ => 0, 0⟩

/-- What a load leaves that fails. -/
structure LoadFailed (p p' : Process) : Prop where
  next : p'.vm.as.next = p.vm.as.next ∧ p'.vm.as.pages = p.vm.as.pages
  process : p'.used = p.used ∧ p'.loaded = p.loaded ∧ p'.taskId = p.taskId ∧
    p'.regionCount = p.regionCount ∧ p'.exportCount = p.exportCount ∧ p'.entry = p.entry
  outcome : LoadRefused p p' ∨ LoadUndone p p'

/-- A failed load takes nothing of the user's away, if no fixed mapping lies ahead of `next`. -/
theorem LoadFailed.same (h : LoadFailed p p')
    (hahead : ∀ v, p.vm.as.next ≤ v → v < kUserLimit → userByte p.vm v = none) (v : Nat) :
    userByte p'.vm v = userByte p.vm v := by
  rcases h.outcome with hr | hu
  · exact hr.bytes v
  · rw [hu.bytes v]
    by_cases hv : p.vm.as.next ≤ v ∧ v < kUserLimit
    · rw [if_pos hv, hahead v hv.1 hv.2]
    · exact if_neg hv

/-- A page that a failed load adds was one to be made on demand. -/
theorem LoadFailed.filled (h : LoadFailed p p') {v : Nat} {t : Translation}
    (hnew : vmmTranslate p'.vm.phys.mem p'.vm.as.root v = some t) (ht : t.user = true)
    (hold : vmmTranslate p.vm.phys.mem p.vm.as.root v = none) : userByte p.vm v = some 0 := by
  have hseen : userByte p'.vm v = some (p'.vm.phys.mem t.phys) := by
    rw [userByte, hnew]
    exact if_pos ht
  have hsame : userByte p.vm v = some (p'.vm.phys.mem t.phys) := by
    rcases h.outcome with hr | hu
    · rw [← hr.bytes v, hseen]
    · have hb := hu.bytes v
      rw [hseen] at hb
      split at hb
      · cases hb
      · exact hb.symm
  rw [userByte, hold] at hsame ⊢
  dsimp only at hsame ⊢
  split at hsame
  · next hlazy => exact if_pos hlazy
  · cases hsame

end Efishell
