import Efishell.Kernel.SchedLife

/-!
# Kernel — steps that only schedule

Most sections under `sched_lock` change how tasks and processes run and nothing else: no process
gets another identifier, class, task or grant, and no table of what processes own changes
(`SchedState.Kept`).  Each function is looked at once.

* `kept_step`: the sections that have nothing to do with processes.
-/

namespace Efishell

/-- The process keeps all but how it runs. -/
def KProcess.Still (p p' : KProcess) : Prop :=
  p'.used = p.used ∧ p'.id = p.id ∧ p'.taskId = p.taskId ∧ p'.ring1 = p.ring1 ∧ p'.grants = p.grants

theorem KProcess.Still.refl (p : KProcess) : p.Still p := ⟨rfl, rfl, rfl, rfl, rfl⟩

namespace SchedState

variable {s s' : SchedState} {i j : TaskSlot} {c d : Nat} {p q : ProcessSlot}

/-- Processes and what they own stay. -/
structure Kept (s s' : SchedState) : Prop where
  processes : ∀ p, (s.processes p).Still (s'.processes p)
  next : s'.nextProcessId = s.nextProcessId
  partitions : s'.partitions = s.partitions
  destroying : s'.destroying = s.destroying
  services : s'.services = s.services
  inputOwner : s'.inputOwner = s.inputOwner

namespace Kept

theorem refl (s : SchedState) : s.Kept s := ⟨fun _ => .refl _, rfl, rfl, rfl, rfl, rfl⟩

theorem trans {s₁ : SchedState} (h : s.Kept s₁) (h' : s₁.Kept s') : s.Kept s' where
  processes p := by
    obtain ⟨h₁, h₂, h₃, h₄, h₅⟩ := h.processes p
    obtain ⟨h₁', h₂', h₃', h₄', h₅'⟩ := h'.processes p
    exact ⟨h₁'.trans h₁, h₂'.trans h₂, h₃'.trans h₃, h₄'.trans h₄, h₅'.trans h₅⟩
  next := h'.next.trans h.next
  partitions := h'.partitions.trans h.partitions
  destroying := h'.destroying.trans h.destroying
  services := h'.services.trans h.services
  inputOwner := h'.inputOwner.trans h.inputOwner

theorem onTask (f : Task → Task) : s.Kept (s.onTask i f) :=
  ⟨fun _ => .refl _, rfl, rfl, rfl, rfl, rfl⟩

theorem onCpu (f : CpuState → CpuState) : s.Kept (s.onCpu c f) :=
  ⟨fun _ => .refl _, rfl, rfl, rfl, rfl, rfl⟩

theorem onProcess {f : KProcess → KProcess} (hf : ∀ k : KProcess, k.Still (f k)) :
    s.Kept (s.onProcess p f) := by
  refine ⟨fun q => ?_, rfl, rfl, rfl, rfl, rfl⟩
  obtain rfl | hq := eq_or_ne q p
  · rw [onProcess_self]
    exact hf _
  · rw [onProcess_ne _ hq]
    exact .refl _

theorem onProcessOf {f : KProcess → KProcess} (hf : ∀ k : KProcess, k.Still (f k)) :
    s.Kept (s.onProcessOf i f) := by
  unfold SchedState.onProcessOf
  split
  · exact onProcess hf
  · exact refl s

/-- A fold of changes. -/
theorem foldl {α β : Type} (g : β → SchedState) (f : β → α → β)
    (hf : ∀ r a, (g r).Kept (g (f r a))) (l : List α) (r : β) : (g r).Kept (g (l.foldl f r)) := by
  induction l generalizing r with
  | nil => exact refl _
  | cons a l ih => exact (hf r a).trans (ih _)

theorem cpuFloor (s : SchedState) (c : Nat) : s.Kept (s.cpuFloor c) := by
  unfold SchedState.cpuFloor
  split
  · exact onCpu _
  · exact refl s

theorem taskReady (s : SchedState) (i : TaskSlot) : s.Kept (s.taskReady i) := by
  have h := cpuFloor s (s.tasks i).cpu
  exact ⟨h.processes, h.next, h.partitions, h.destroying, h.services, h.inputOwner⟩

theorem fillTask (s : SchedState) (i : TaskSlot) (weight cpu : Nat) (idle : Bool) (stack : Nat) :
    s.Kept (s.fillTask i weight cpu idle stack) := by
  have h := cpuFloor s cpu
  exact ⟨h.processes, h.next, h.partitions, h.destroying, h.services, h.inputOwner⟩

theorem newTask (s : SchedState) (weight cpu : Nat) (idle : Bool) (stack : Nat) :
    s.Kept (s.newTask weight cpu idle stack).2 := by
  unfold SchedState.newTask
  split
  · exact refl s
  · split
    · exact refl s
    · dsimp only
      split
      · exact ⟨fun _ => .refl _, rfl, rfl, rfl, rfl, rfl⟩
      · exact (onTask _).trans (fillTask _ _ _ _ _ _)

theorem smpStart (s : SchedState) (c stack : Nat) : s.Kept (s.smpStart c stack).2 := by
  have h := newTask s 1 c true stack
  unfold SchedState.smpStart
  split
  · next heq => rwa [heq] at h
  · next heq =>
      rw [heq] at h
      exact ⟨h.processes, h.next, h.partitions, h.destroying, h.services, h.inputOwner⟩

theorem apMain (s : SchedState) (c : Nat) : s.Kept (s.apMain c) := by
  unfold SchedState.apMain
  split
  · exact refl s
  · exact (onCpu _).trans (onTask _)

theorem create (s : SchedState) (weight cpu stack : Nat) :
    s.Kept (s.kTaskCreate weight cpu stack).2 := by
  have h := newTask s weight cpu false stack
  unfold SchedState.kTaskCreate
  split
  · exact refl s
  · split
    · next heq => rwa [heq] at h
    · next heq => rwa [heq] at h

theorem account (s : SchedState) (c : Nat) (i : TaskSlot) (forced : Bool) :
    s.Kept (s.account c i forced) := by
  unfold SchedState.account
  split
  · exact onTask _
  · exact (onTask _).trans (onCpu _)

theorem wakeSleepers (s : SchedState) (c now : Nat) : s.Kept (s.wakeSleepers c now).1 := by
  refine foldl (fun r : SchedState × Bool => r.1) _ (fun r i => ?_) _ (s, false)
  split
  · exact taskReady _ _
  · exact refl _

theorem demote (s : SchedState) (i : TaskSlot) : s.Kept (s.demote i) := by
  unfold SchedState.demote
  split
  · exact (onTask _).trans (onProcessOf fun _ => ⟨rfl, rfl, rfl, rfl, rfl⟩)
  · exact refl s

theorem dispatch (s : SchedState) (c : Nat) (old best : TaskSlot) (w : Nat) (b : Bool) :
    s.Kept (s.dispatch c old best w b) := by
  have h₁ : s.Kept (s.promote c best b) :=
    ((onCpu _).trans (onTask _)).trans (onProcessOf fun _ => ⟨rfl, rfl, rfl, rfl, rfl⟩)
  have h₂ := (h₁.trans (cpuFloor _ c)).trans (onCpu (c := c) fun k =>
    { k with
      slice := sliceFor (((s.promote c best b).cpuFloor c).tasks best).weight w, leaving := false })
  unfold SchedState.dispatch
  dsimp only
  split
  · exact h₂
  · exact (h₂.trans (onCpu _)).trans (onTask _)

theorem scheduleLocked (s : SchedState) (c : Nat) (i : TaskSlot) (forced : Bool) (now : Nat) :
    s.Kept (s.scheduleLocked c i forced now) := by
  have h := (account s c i forced).trans (wakeSleepers _ c now)
  unfold SchedState.scheduleLocked
  dsimp only
  split
  · exact h
  · refine (h.trans (demote _ i)).trans ?_
    unfold SchedState.reschedule
    split
    · exact refl _
    · exact dispatch _ _ _ _ _ _

theorem schedule (s : SchedState) (c : Nat) (forced : Bool) (now : Nat) :
    s.Kept (s.kernelSchedule c forced now) := by
  unfold SchedState.kernelSchedule
  split
  · exact refl s
  · split
    · dsimp only
      split
      · exact (onCpu _).trans (scheduleLocked _ _ _ _ _)
      · exact (onCpu _).trans (onTask _)
    · exact scheduleLocked _ _ _ _ _

theorem self {f : TaskSlot → SchedState} (h : ∀ i, s.Kept (f i)) : s.Kept (s.self c f) := by
  unfold SchedState.self
  split
  · exact refl s
  · split
    · exact refl s
    · exact h _

theorem call {f : TaskSlot → Reply × SchedState} (h : ∀ i, s.Kept (f i).2) :
    s.Kept (s.call c f).2 := by
  unfold SchedState.call
  split
  · exact refl s
  · split
    · exact refl s
    · exact h _

theorem die {f : KProcess → KProcess} (hf : ∀ k : KProcess, k.Still (f k)) (c : Nat) (i : TaskSlot)
    (code : Int) : s.Kept (s.die c i code f) := by
  have h : s.Kept ((s.onTask i fun t => { t with exitCode := code, state := .zombie }).onProcessOf i
      fun k => { f k with exitCode := code, state := .zombie }) :=
    (onTask _).trans (onProcessOf fun k => hf k)
  exact ⟨h.processes, h.next, h.partitions, h.destroying, h.services, h.inputOwner⟩

theorem wakeObject (s : SchedState) (o : WaitObject) : s.Kept (s.wakeObject o) := by
  refine foldl (fun r : SchedState => r) _ (fun r i => ?_) _ s
  split
  · exact taskReady _ _
  · exact refl _

theorem freeTasksOf (p : ProcessSlot) (l : List TaskSlot) :
    ∀ s : SchedState, s.Kept (s.freeTasksOf p l).2 := by
  induction l with
  | nil => exact refl
  | cons i l ih =>
      intro s
      unfold SchedState.freeTasksOf
      split
      · split
        · exact refl s
        · exact (onTask _).trans (ih _)
      · exact ih s

theorem control (s : SchedState) (pid : Nat) (op : Control) :
    s.Kept (s.processControlLocked pid op).2 := by
  have hr : ∀ (σ : SchedState) p i, σ.Kept (σ.processReady p i) := fun σ p i =>
    (taskReady σ i).trans (onProcess fun _ => ⟨rfl, rfl, rfl, rfl, rfl⟩)
  unfold SchedState.processControlLocked
  split
  · exact refl s
  · split
    · exact refl s
    · dsimp only
      refine trans ?_ (onCpu _)
      split
      · split
        · split
          · exact hr _ _ _
          · exact refl _
        · split
          · exact (onTask _).trans (hr _ _ _)
          · exact onTask _
      · split
        · split
          · exact (onTask _).trans (hr _ _ _)
          · exact onTask _
        · split
          · exact hr _ _ _
          · exact refl _

end Kept

/-- A return with a kill releases what the process leased; any other return keeps everything. -/
theorem returnControl_cases (s : SchedState) (c : Nat) : s.Kept (s.processReturnControl c) ∨
    ∃ s₁ pid, s.Kept s₁ ∧ s.processReturnControl c = s₁.processResourcesRelease pid := by
  unfold SchedState.processReturnControl SchedState.self
  split
  · exact .inl (.refl s)
  · next i _ =>
      split
      · exact .inl (.refl s)
      · dsimp only
        split
        · next p request _ _ =>
            have h₁ : s.Kept (s.onTask i fun t =>
                { t with controlRequest := none, preemptDepth := 0 }) := Kept.onTask _
            cases request with
            | kill =>
                have h := h₁.trans (Kept.die (f := fun k => k) (fun _ => .refl _) c i (-143))
                exact .inr ⟨_, _, h, rfl⟩
            | stop =>
                have h := (h₁.trans (Kept.onTask (i := i) fun t =>
                  { t with state := .stopped })).trans
                    (Kept.onProcess (p := p) (f := fun q => { q with state := .stopped })
                      fun _ => ⟨rfl, rfl, rfl, rfl, rfl⟩)
                exact .inl ⟨h.processes, h.next, h.partitions, h.destroying,
                  h.services, h.inputOwner⟩
            | «continue» => exact .inl ⟨h₁.processes, h₁.next, h₁.partitions,
                h₁.destroying, h₁.services, h₁.inputOwner⟩
        · exact .inl (.refl s)

/-- The steps that have nothing to do with processes. -/
theorem kept_step (s : SchedState) {e : SchedEvent} (hm : e.underProcessMutex = false)
    (hr : ∀ c, e ≠ .returnControl c) (hd : ∀ b, e ≠ .processDestroyed b) : s.Kept (s.step e) := by
  -- the sections of processes are excluded; all others change tasks, processors and objects
  cases e with
  | schedule c forced now => exact .schedule s c forced now
  | stackSwitched c => exact ⟨fun _ => .refl _, rfl, rfl, rfl, rfl, rfl⟩
  | smpStart c stack => exact .smpStart s c stack
  | apMain c => exact .apMain s c
  | create weight cpu stack => exact .create s weight cpu stack
  | sleep c ms now =>
      refine .self fun i => ?_
      split
      · exact .refl s
      · exact ⟨fun _ => .refl _, rfl, rfl, rfl, rfl, rfl⟩
  | exit c code =>
      refine .self fun i => ?_
      split
      · exact .refl s
      · exact (Kept.onTask _).trans (Kept.die (fun _ => .refl _) _ _ _)
  | fault c vector ip address =>
      refine .self fun i => ?_
      split
      · exact .refl s
      · refine Kept.die (fun _ => ?_) _ _ _
        exact ⟨rfl, rfl, rfl, rfl, rfl⟩
  | badReturn c ip sp =>
      refine .self fun i => ?_
      split
      · exact .refl s
      · refine (Kept.onTask _).trans (Kept.die (fun _ => ?_) _ _ _)
        exact ⟨rfl, rfl, rfl, rfl, rfl⟩
  | returnControl c => exact absurd rfl (hr c)
  | reap id =>
      simp only [step, kTaskReap]
      split
      · exact .refl s
      · split_ifs
        all_goals exact ⟨fun _ => .refl _, rfl, rfl, rfl, rfl, rfl⟩
  | preemptDisable c => exact .self fun i => Kept.onTask _
  | preemptEnable c => exact .self fun i => Kept.onTask _
  | mutexTrylock c m =>
      refine .call fun i => ?_
      split_ifs
      all_goals exact ⟨fun _ => .refl _, rfl, rfl, rfl, rfl, rfl⟩
  | mutexLock c m =>
      refine .call fun i => ?_
      split_ifs
      all_goals exact ⟨fun _ => .refl _, rfl, rfl, rfl, rfl, rfl⟩
  | mutexUnlock c m =>
      refine .call fun i => ?_
      split_ifs
      · exact .refl s
      · have h : s.Kept (s.setMutex m 0) := ⟨fun _ => .refl _, rfl, rfl, rfl, rfl, rfl⟩
        dsimp only
        exact h.trans (Kept.wakeObject _ _)
  | semInit n count => exact ⟨fun _ => .refl _, rfl, rfl, rfl, rfl, rfl⟩
  | semTrywait n =>
      simp only [step, kSemTrywait]
      split
      · exact .refl s
      · exact ⟨fun _ => .refl _, rfl, rfl, rfl, rfl, rfl⟩
  | semWait c n =>
      refine .call fun i => ?_
      split_ifs
      all_goals exact ⟨fun _ => .refl _, rfl, rfl, rfl, rfl, rfl⟩
  | semPost n =>
      dsimp only [step, kSemPost]
      refine Kept.trans ?_ (Kept.wakeObject _ _)
      split
      · exact ⟨fun _ => .refl _, rfl, rfl, rfl, rfl, rfl⟩
      · exact .refl s
  | processDestroyed b => exact absurd rfl (hd b)
  | processCreate => cases hm
  | processCreateFailed => cases hm
  | riefLoaded => cases hm
  | processStart => cases hm
  | processControl => cases hm
  | processDestroy => cases hm

end SchedState

end Efishell
