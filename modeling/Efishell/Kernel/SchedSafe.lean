import Efishell.Kernel.SchedCalm

/-!
# Kernel — safety of the scheduler

The steps that are not calm are the picking of a task, births and deaths.  Each of them keeps the
invariant, and each follows the tasks that were there (`SchedState.Evolves`): a zombie stays one
until its slot is freed, a kill that was accepted stays, and a slot is freed only off every
processor.

* `Ok.dispatch`: the processor goes to a task that is not dead.
* `Ok.schedule`: `kernel_schedule` keeps the invariant.
-/

namespace Efishell

/-- The same task, later. -/
structure Task.Later (t t' : Task) : Prop extends Task.Kin t t' where
  zombie : t.state = .zombie → t'.state = .zombie
  kill : t.controlRequest = some .kill → t'.controlRequest = some .kill ∨ t'.state = .zombie

/-- A calm task is a later one. -/
theorem Task.Calm.later {t t' : Task} (h : t.Calm t') : t.Later t' :=
  ⟨h.toKin, h.zombie.mpr, fun hk => .inl (h.kill hk)⟩

namespace SchedState

variable {s s' : SchedState} {i j : TaskSlot} {c d : Nat} {p q : ProcessSlot}

/-- Nobody runs the task or is still on its stack. -/
def Off (s : SchedState) (i : TaskSlot) : Prop :=
  ∀ c, (s.cpus c).current ≠ some i ∧ (s.cpus c).stackOwner ≠ some i

/-- What one step does to the tasks that were there and where new ones come from. -/
structure Evolves (s s' : SchedState) : Prop where
  old : ∀ i, (s.tasks i).state ≠ .unused → (s.tasks i).Later (s'.tasks i) ∨
    (s.tasks i).state = .zombie ∧ s.Off i ∧ s'.tasks i = {}
  new : ∀ i, (s.tasks i).state = .unused → (s'.tasks i).state ≠ .unused →
    s.nextTaskId ≠ 0 ∧ (s'.tasks i).id = s.nextTaskId ∧ s'.nextTaskId = (s.nextTaskId + 1) % 2 ^ 32
  next : s'.nextTaskId = s.nextTaskId ∨
    s.nextTaskId ≠ 0 ∧ s'.nextTaskId = (s.nextTaskId + 1) % 2 ^ 32

/-- Tasks that are later make the state evolve. -/
theorem Evolves.of_later (ht : ∀ i, (s.tasks i).Later (s'.tasks i))
    (hn : s'.nextTaskId = s.nextTaskId) : s.Evolves s' :=
  ⟨fun i _ => .inl (ht i), fun i hu hu' => absurd (((ht i).blank hu).symm ▸ hu) hu', .inl hn⟩

/-- A calm step evolves. -/
theorem Calm.evolves (h : s.Calm s') : s.Evolves s' :=
  .of_later (fun i => (h.tasks i).later) h.nextTaskId

/-- The invariant and the tasks are carried over a step. -/
def Advances (s s' : SchedState) : Prop := s'.Ok ∧ s.Evolves s'

/-- A calm step keeps the invariant. -/
theorem Ok.advances (h : s.Ok) (hc : s.Calm s') : s.Advances s' := ⟨h.calm hc, hc.evolves⟩

/-- A calm change, then a step. -/
theorem Calm.advances {s₁ : SchedState} (hc : s.Calm s₁) (h : s₁.Advances s') : s.Advances s' := by
  obtain ⟨hok, he⟩ := h
  refine ⟨hok, fun i hi => ?_, fun i hu hu' => ?_, ?_⟩
  · have hl := hc.tasks i
    rcases he.old i (hl.live hi) with h₁ | ⟨hz, hoff, h₁⟩
    · refine .inl ⟨hl.toKin.trans h₁.toKin, fun hz => h₁.zombie (hl.zombie.mpr hz), fun hk => ?_⟩
      exact h₁.kill (hl.kill hk)
    · refine .inr ⟨hl.zombie.mp hz, fun c => ?_, h₁⟩
      rw [← (hc.cpus c).current, ← (hc.cpus c).stackOwner]
      exact hoff c
  · rw [← hc.nextTaskId]
    exact he.new i (((hc.tasks i).blank hu).symm ▸ hu) hu'
  · rw [← hc.nextTaskId]
    exact he.next

/-- A step, then the same tasks later. -/
theorem Evolves.later {s₁ : SchedState} (h : s.Evolves s₁)
    (ht : ∀ i, (s₁.tasks i).Later (s'.tasks i)) (hn : s'.nextTaskId = s₁.nextTaskId) :
    s.Evolves s' := by
  refine ⟨fun i hi => ?_, fun i hu hu' => ?_, ?_⟩
  · rcases h.old i hi with h₁ | ⟨hz, ho, h₁⟩
    · refine .inl
        ⟨h₁.toKin.trans (ht i).toKin, fun hz => (ht i).zombie (h₁.zombie hz), fun hk => ?_⟩
      exact (h₁.kill hk).elim (ht i).kill fun hz => .inr ((ht i).zombie hz)
    · refine .inr ⟨hz, ho, ?_⟩
      rw [(ht i).blank (by rw [h₁]), h₁]
  · obtain ⟨h₁, h₂, h₃⟩ := h.new i hu ((ht i).live_iff.mp hu')
    exact ⟨h₁, (ht i).id.trans h₂, hn.trans h₃⟩
  · rw [hn]
    exact h.next

/-- A step, then a calm change. -/
theorem Advances.calm {s₁ : SchedState} (h : s.Advances s₁) (hc : s₁.Calm s') : s.Advances s' :=
  ⟨h.1.calm hc, h.2.later (fun i => (hc.tasks i).later) hc.nextTaskId⟩

/-! ### Picking a task -/

theorem cpuFloor_cpu_ne (h : d ≠ c) : (s.cpuFloor c).cpus d = s.cpus d := by
  unfold cpuFloor
  split
  · exact onCpu_ne _ h
  · rfl

/-- Only the floor of the processor moves. -/
theorem cpuFloor_cpu : ∃ v, (s.cpuFloor c).cpus c = { s.cpus c with fairFloor := v } := by
  unfold cpuFloor
  split
  · exact ⟨_, onCpu_self _⟩
  · exact ⟨(s.cpus c).fairFloor, rfl⟩

/-- The task picked runs. -/
theorem promote_best {best : TaskSlot} {b : Bool} :
    (s.promote c best b).tasks best = { s.tasks best with state := .running } := by
  simp [promote]

theorem promote_tasks_ne {best : TaskSlot} {b : Bool} (h : i ≠ best) :
    (s.promote c best b).tasks i = s.tasks i := by
  simp [promote, onTask_ne _ h]

theorem promote_cpu {best : TaskSlot} {b : Bool} : (s.promote c best b).cpus c =
    { s.cpus c with workPending := !(s.tasks best).idle || b } := by
  simp [promote]

theorem promote_cpu_ne {best : TaskSlot} {b : Bool} (h : d ≠ c) :
    (s.promote c best b).cpus d = s.cpus d := by
  simp [promote, onCpu_ne _ h]

theorem promote_rest (s : SchedState) (c : Nat) (best : TaskSlot) (b : Bool) :
    (s.promote c best b).discovered = s.discovered ∧
    (s.promote c best b).nextTaskId = s.nextTaskId ∧
    (s.promote c best b).destroying = s.destroying :=
  onProcessOf_rest _ best _

theorem promote_process {best : TaskSlot} {b : Bool} (hp : (s.tasks best).process = some p) :
    (s.promote c best b).processes p = { s.processes p with state := .running } :=
  onProcessOf_process (by simpa using hp)

theorem promote_process_ne {best : TaskSlot} {b : Bool} (hp : (s.tasks best).process ≠ some p) :
    (s.promote c best b).processes p = s.processes p :=
  onProcessOf_process_ne (by simpa using hp)

section dispatch

variable {old best : TaskSlot} {w : Nat} {b : Bool}

/-- The tasks after `dispatch`. -/
theorem dispatch_best (s : SchedState) (c : Nat) (old best : TaskSlot) (w : Nat) (b : Bool) :
    ∃ n, (s.dispatch c old best w b).tasks best =
    { s.tasks best with state := .running, switches := n } := by
  unfold dispatch
  by_cases h : best = old
  · refine ⟨(s.tasks best).switches, ?_⟩
    simp only [if_pos h, onCpu_tasks, cpuFloor_tasks, promote_best]
  · refine ⟨(s.tasks best).switches + 1, ?_⟩
    simp only [if_neg h, onTask_self, onCpu_tasks, cpuFloor_tasks, promote_best]

/-- The other tasks stay. -/
theorem dispatch_tasks_ne (h : i ≠ best) : (s.dispatch c old best w b).tasks i = s.tasks i := by
  unfold dispatch
  by_cases he : best = old
  · simp only [if_pos he, onCpu_tasks, cpuFloor_tasks, promote_tasks_ne h]
  · simp only [if_neg he, onTask_ne _ h, onCpu_tasks, cpuFloor_tasks, promote_tasks_ne h]

theorem dispatch_processes :
    (s.dispatch c old best w b).processes = (s.promote c best b).processes := by
  unfold dispatch
  by_cases he : best = old
  · simp only [if_pos he, onCpu_processes, cpuFloor_processes]
  · simp only [if_neg he, onTask_processes, onCpu_processes, cpuFloor_processes]

theorem dispatch_cpu_ne (h : d ≠ c) : (s.dispatch c old best w b).cpus d = s.cpus d := by
  unfold dispatch
  by_cases he : best = old
  · simp only [if_pos he, onCpu_ne _ h, cpuFloor_cpu_ne h, promote_cpu_ne h]
  · simp only [if_neg he, onTask_cpus, onCpu_ne _ h, cpuFloor_cpu_ne h, promote_cpu_ne h]

/-- The processor after `dispatch`. -/
theorem dispatch_cpu (hcur : (s.cpus c).current = some old) (best : TaskSlot) (w : Nat) (b : Bool) :
    ∃ n,
    (s.dispatch c old best w b).cpus c =
      { ((s.promote c best b).cpuFloor c).cpus c with
        slice := sliceFor (s.tasks best).weight w
        leaving := false
        current := some best
        switches := n } := by
  obtain ⟨v, hv⟩ := cpuFloor_cpu (s := s.promote c best b) (c := c)
  have hw : (((s.promote c best b).cpuFloor c).tasks best).weight = (s.tasks best).weight := by
    rw [cpuFloor_tasks, promote_best]
  unfold dispatch
  by_cases he : best = old
  · refine ⟨(((s.promote c best b).cpuFloor c).cpus c).switches, ?_⟩
    subst he
    simp only [if_true, onCpu_self, hw]
    rw [hv, promote_cpu, ← hcur]
  · refine ⟨(((s.promote c best b).cpuFloor c).cpus c).switches + 1, ?_⟩
    simp only [if_neg he, onTask_cpus, onCpu_self, hw]

theorem dispatch_rest (s : SchedState) (c : Nat) (old best : TaskSlot) (w : Nat) (b : Bool) :
    (s.dispatch c old best w b).discovered = s.discovered ∧
    (s.dispatch c old best w b).nextTaskId = s.nextTaskId ∧
    (s.dispatch c old best w b).destroying = s.destroying := by
  obtain ⟨e₁, e₂, e₃⟩ := s.promote_rest c best b
  have h := Calm.cpuFloor (s.promote c best b) c
  have he : (s.dispatch c old best w b).discovered = ((s.promote c best b).cpuFloor c).discovered ∧
      (s.dispatch c old best w b).nextTaskId = ((s.promote c best b).cpuFloor c).nextTaskId ∧
      (s.dispatch c old best w b).destroying = ((s.promote c best b).cpuFloor c).destroying := by
    unfold dispatch
    dsimp only
    split <;> exact ⟨rfl, rfl, rfl⟩
  exact ⟨he.1.trans (h.discovered.trans e₁), he.2.1.trans (h.nextTaskId.trans e₂),
    he.2.2.trans (h.destroying.trans e₃)⟩

end dispatch

/-- **The processor goes to a task that is not dead.** -/
theorem Ok.dispatch (h : s.Ok) {old best : TaskSlot} {w : Nat} {b : Bool}
    (hcur : (s.cpus c).current = some old) (hon : (s.cpus c).online = true)
    (hrun : ∀ i, (s.tasks i).cpu = c → (s.tasks i).state ≠ .running)
    (hcpu : (s.tasks best).cpu = c) (hu : (s.tasks best).state ≠ .unused)
    (hz : (s.tasks best).state ≠ .zombie) : s.Advances (s.dispatch c old best w b) := by
  obtain ⟨n, hbest⟩ := s.dispatch_best c old best w b
  obtain ⟨m, hc⟩ := dispatch_cpu hcur best w b
  obtain ⟨v, hv⟩ := cpuFloor_cpu (s := s.promote c best b) (c := c)
  rw [promote_cpu] at hv
  obtain ⟨e₁, e₂, e₃⟩ := s.dispatch_rest c old best w b
  set s' := s.dispatch c old best w b with hs'
  have hne : ∀ i, i ≠ best → s'.tasks i = s.tasks i := fun i hi => dispatch_tasks_ne hi
  have hcne : ∀ d, d ≠ c → s'.cpus d = s.cpus d := fun d hd => dispatch_cpu_ne hd
  rw [hv] at hc
  have hkin : ∀ i, (s.tasks i).Kin (s'.tasks i) := by
    intro i
    obtain rfl | hi := eq_or_ne i best
    · rw [hbest]
      exact ⟨rfl, rfl, rfl, rfl, rfl, rfl, fun h => absurd h hu, by simp⟩
    · rw [hne i hi]
      exact .refl _
  -- every condition is about `best` and its processor, or about others
  refine ⟨h.rewire hkin (fun p => ?_) (fun d i hi => ?_) (fun d i hi => ?_) e₁ e₂ e₃
    (fun d i hi => ?_)
    (fun i hi => ?_) (fun d i hi => ?_) (fun i hi hz' => ?_) (fun d i hi hz' => ?_) (fun d ho => ?_)
    (fun i p hp => ?_) fun i hk hs => ?_, .of_later (fun i => ?_) e₂⟩
  · rw [hs', dispatch_processes]
    by_cases hp : (s.tasks best).process = some p
    · simp [promote_process hp]
    · simp [promote_process_ne hp]
  · obtain rfl | hd := eq_or_ne d c
    · exact h.idle (by simpa [hc] using hi)
    · exact h.idle (hcne d hd ▸ hi)
  · obtain rfl | hd := eq_or_ne d c
    · exact h.owner (by simpa [hc] using hi)
    · exact h.owner (hcne d hd ▸ hi)
  · obtain rfl | hd := eq_or_ne d c
    · rw [hc] at hi
      obtain rfl : best = i := by simpa using hi
      exact ⟨(h.current hcur).1, hcpu, hu⟩
    · exact h.current (hcne d hd ▸ hi)
  · obtain rfl | hi' := eq_or_ne i best
    · rw [hcpu, hc]
    · rw [hne i hi'] at hi
      rw [hcne _ fun he => hrun i he hi]
      exact h.running hi
  · obtain rfl | hd := eq_or_ne d c
    · simpa [hc] using h.hasIdle hcur
    · rw [hcne d hd] at hi ⊢
      exact h.hasIdle hi
  · obtain rfl | hi' := eq_or_ne i best
    · simp [hbest] at hz'
    · exact (h.idleTask hi).1 (hne i hi' ▸ hz')
  · obtain rfl | hi' := eq_or_ne i best
    · simp [hbest] at hz'
    · obtain rfl | hd := eq_or_ne d c
      · rw [hc] at hi
        exact absurd (by simpa using hi.symm) hi'
      · rw [hcne d hd] at hi ⊢
        exact h.leaving hi (hne i hi' ▸ hz')
  · obtain rfl | hd := eq_or_ne d c
    · simp [hc, hon] at ho
    · rw [hcne d hd] at ho ⊢
      exact h.offline ho
  · rw [hs', dispatch_processes, ← hs']
    obtain rfl | hi' := eq_or_ne i best
    · simp [promote_process hp, hbest]
    · rw [promote_process_ne fun hb => hi' (h.process_inj hp hb), hne i hi']
      exact (h.process hp).2.2
  · obtain rfl | hi' := eq_or_ne i best
    · simp [hbest] at hs
    · rw [hne i hi'] at hk hs
      exact h.kill hk hs
  · obtain rfl | hi' := eq_or_ne i best
    · refine ⟨hkin i, fun h => absurd h hz, fun hk => ?_⟩
      rw [hbest]
      exact .inl hk
    · rw [hne i hi']
      exact (Task.Calm.refl _).later

/-- A task put back does not run. -/
theorem demote_not_running : ((s.demote i).tasks i).state ≠ .running := by
  unfold demote
  split
  · simp
  · assumption

/-- The choice of the next task keeps the invariant. -/
theorem Ok.reschedule (h : s.Ok) {old : TaskSlot} {b : Bool} (hcur : (s.cpus c).current = some old)
    (hon : (s.cpus c).online = true) (hr : (s.tasks old).state ≠ .running) :
    s.Advances (s.reschedule c old b) ∧
    ∃ best, ((s.reschedule c old b).cpus c).current = some best ∧
      ((s.reschedule c old b).tasks best).state = .running := by
  have hrun : ∀ i, (s.tasks i).cpu = c → (s.tasks i).state ≠ .running := by
    intro i hi hi'
    have hc := h.running hi'
    rw [hi, hcur] at hc
    obtain rfl : old = i := by simpa using hc
    exact hr hi'
  obtain ⟨k, hk⟩ := h.hasIdle hcur
  have hbest : ∃ best, (s.pick c).1.or (s.cpus c).idle = some best ∧ (s.tasks best).cpu = c ∧
      (s.tasks best).state ≠ .unused ∧ (s.tasks best).state ≠ .zombie := by
    cases hp : (s.pick c).1 with
    | none =>
        obtain ⟨-, h₁, h₂, h₃⟩ := h.idle hk
        exact ⟨k, hk, h₂, h₃, (h.idleTask h₁).1⟩
    | some best =>
        obtain ⟨⟨h₁, h₂, -⟩, -⟩ := pick_some hp
        exact ⟨best, rfl, h₁, by simp [h₂], by simp [h₂]⟩
  obtain ⟨best, hb, h₁, h₂, h₃⟩ := hbest
  have he : s.reschedule c old b = s.dispatch c old best (s.pick c).2 b := by
    simp only [SchedState.reschedule, hb]
  rw [he]
  refine ⟨h.dispatch hcur hon hrun h₁ h₂ h₃, best, ?_, ?_⟩
  · obtain ⟨n, hn⟩ := dispatch_cpu hcur best (s.pick c).2 b
    rw [hn]
  · obtain ⟨n, hn⟩ := s.dispatch_best c old best (s.pick c).2 b
    rw [hn]

/-- What the part of `kernel_schedule` under the lock keeps. -/
theorem Ok.scheduleLocked (h : s.Ok) {old : TaskSlot} (hcur : (s.cpus c).current = some old)
    (hon : (s.cpus c).online = true) (forced : Bool) (now : Nat) :
    s.Advances (s.scheduleLocked c old forced now) ∧
    ∀ i, ((s.scheduleLocked c old forced now).cpus c).current = some i →
      ((s.scheduleLocked c old forced now).tasks i).state ≠ .zombie := by
  unfold SchedState.scheduleLocked
  have hc : s.Calm ((s.account c old forced).wakeSleepers c now).1 :=
    Calm.trans (.account (h.current hcur).2.2 c forced) (.wakeSleepers _ c now)
  generalize (s.account c old forced).wakeSleepers c now = r at hc ⊢
  have hr := h.calm hc
  have hcur' : (r.1.cpus c).current = some old := (hc.cpus c).current.trans hcur
  dsimp only
  split
  · next hs =>
      refine ⟨h.advances hc, fun i hi => ?_⟩
      rw [hcur'] at hi
      obtain rfl : old = i := by simpa using hi
      simp [hs.1]
  · have hd := hr.calm_demote old
    have hcur'' : ((r.1.demote old).cpus c).current = some old := (hd.cpus c).current.trans hcur'
    have hon' : ((r.1.demote old).cpus c).online = true := by
      rw [(hd.cpus c).online, (hc.cpus c).online, hon]
    obtain ⟨hadv, best, hb, hb'⟩ :=
      (hr.calm hd).reschedule (b := r.2) hcur'' hon' demote_not_running
    refine ⟨(hc.trans hd).advances hadv, fun i hi => ?_⟩
    rw [hb] at hi
    obtain rfl : best = i := by simpa using hi
    simp [hb']

/-- **`kernel_schedule` keeps the invariant and leaves no zombie on the processor.** -/
theorem Ok.schedule (h : s.Ok) (hon : (s.cpus c).online = true) (forced : Bool) (now : Nat) :
    s.Advances (s.kernelSchedule c forced now) ∧
    ∀ i, ((s.kernelSchedule c forced now).cpus c).current = some i →
      ((s.kernelSchedule c forced now).tasks i).state ≠ .zombie := by
  unfold kernelSchedule
  cases hcur : (s.cpus c).current with
  | none => exact ⟨h.advances (.refl s), fun i hi => by simp [hcur] at hi⟩
  | some old =>
      dsimp only
      have ht : s.Calm (s.onCpu c fun k => { k with idleTicks := k.idleTicks + 1 }) :=
        .onCpu ⟨rfl, rfl, rfl, rfl, id⟩
      split
      · next hi =>
          split
          · obtain ⟨h₁, h₂⟩ :=
              (h.calm ht).scheduleLocked (c := c) (by simpa using hcur)
                (by simpa using hon) forced now
            exact ⟨ht.advances h₁, h₂⟩
          · have hc :=
              ht.trans (Calm.onTask (i := old) (f := fun t => { t with runtime := t.runtime + 1 })
              (.still rfl rfl rfl rfl rfl rfl rfl (h.current hcur).2.2 rfl))
            refine ⟨h.advances hc, fun i hi' => ?_⟩
            rw [(hc.cpus c).current, hcur] at hi'
            obtain rfl : old = i := by simpa using hi'
            rw [Ne, (hc.tasks old).zombie]
            exact (h.idleTask hi.2).1
      · exact h.scheduleLocked hcur hon forced now

end SchedState

end Efishell
