import Efishell.Kernel.SchedLife

/-!
# Kernel — steps that concern nobody who waits

Most steps of the scheduler neither change a mutex or a semaphore nor put a task to sleep on one,
and they neither deliver a message nor grant anything (`SchedState.Quiet`).  All they do to a
mailbox is to clear it, with the slot it is in.

* `Ok.quiet_step`: every section but those of mutexes and semaphores is quiet.
-/

namespace Efishell

namespace SchedState

variable {s s' : SchedState} {i j : TaskSlot} {c d : Nat} {p q : ProcessSlot}

/-- The task is `K_TASK_BLOCKED` and `wait_object` is `o`. -/
def Waits (s : SchedState) (i : TaskSlot) (o : WaitObject) : Prop :=
  (s.tasks i).state = .blocked ∧ (s.tasks i).waitObject = some o

instance (s : SchedState) (i : TaskSlot) (o : WaitObject) : Decidable (s.Waits i o) :=
  inferInstanceAs (Decidable (_ ∧ _))

/-- The task and its mailbox. -/
def SameMail (t t' : Task) : Prop :=
  t'.id = t.id ∧ t'.mailHead = t.mailHead ∧ t'.mailCount = t.mailCount ∧ t'.mail = t.mail

/-- The mailbox is as `mem_zero` leaves it. -/
def NoMail (t : Task) : Prop := t.mailHead = 0 ∧ t.mailCount = 0

/-- The slot keeps its mailbox, or has an empty one and no task in it or a new one, with the
identifier `next`. -/
def MailKept (next : Nat) (t t' : Task) : Prop :=
  SameMail t t' ∨ NoMail t' ∧ (t'.id = 0 ∨ t'.id = next)

/-- A task that waits afterwards waited before, for the same; its mailbox is kept; and a task of a
process stays one, unless that process is `gone`. -/
def TaskQuiet (next : Nat) (gone : Option ProcessSlot) (t t' : Task) : Prop :=
  (t'.state = .blocked → t.state = .blocked ∧ t'.waitObject = t.waitObject) ∧ MailKept next t t' ∧
    (t'.process = t.process ∨ t.process = none ∨ t.process = gone)

/-- A process keeps its grants, or loses them. -/
def Granted (q q' : KProcess) : Prop := q'.id = q.id ∧ q'.grants = q.grants ∨ q'.grants = []

section Quiet

variable {next : Nat} {gone : Option ProcessSlot}

theorem MailKept.refl (t : Task) : MailKept next t t := .inl ⟨rfl, rfl, rfl, rfl⟩

theorem MailKept.trans {t t₁ t' : Task} (h : MailKept next t t₁) (h' : MailKept next t₁ t') :
    MailKept next t t' := by
  rcases h' with ⟨i', a', c', m'⟩ | hnew
  · rcases h with ⟨i, a, c, m⟩ | ⟨⟨ha, hc⟩, hi⟩
    · exact .inl ⟨i'.trans i, a'.trans a, c'.trans c, m'.trans m⟩
    · rw [← i'] at hi
      exact .inr ⟨⟨a'.trans ha, c'.trans hc⟩, hi⟩
  · exact .inr hnew

theorem TaskQuiet.refl (t : Task) : TaskQuiet next gone t t :=
  ⟨fun h => ⟨h, rfl⟩, .refl t, .inl rfl⟩

/-- A task that is not blocked and keeps its mail is quiet. -/
theorem TaskQuiet.of_ne {t t' : Task} (h : t'.state ≠ .blocked) (hm : SameMail t t')
    (hp : t'.process = t.process) : TaskQuiet next gone t t' :=
  ⟨fun hb => absurd hb h, .inl hm, .inl hp⟩

/-- A slot cleared is quiet when its process goes. -/
theorem TaskQuiet.clear {t : Task} (h : t.process = none ∨ t.process = gone) :
    TaskQuiet next gone t {} := ⟨(fun h => nomatch h), .inr ⟨⟨rfl, rfl⟩, .inl rfl⟩, .inr h⟩

theorem TaskQuiet.trans {t t₁ t' : Task} (h : TaskQuiet next gone t t₁)
    (h' : TaskQuiet next gone t₁ t') :
    TaskQuiet next gone t t' := by
  refine ⟨fun hb => ?_, h.2.1.trans h'.2.1, ?_⟩
  · obtain ⟨hb₁, hw₁⟩ := h'.1 hb
    obtain ⟨hb₀, hw₀⟩ := h.1 hb₁
    exact ⟨hb₀, hw₁.trans hw₀⟩
  · rcases h.2.2 with hp | hp
    · rw [← hp]
      exact h'.2.2
    · exact .inr hp

/-- What is left of the services when those of one process are released. -/
theorem mem_released {pid : Nat} {v : Service} (hv : v ∈ (s.processResourcesRelease pid).services)
    (hne : v.pid ≠ 0) : v ∈ s.services := by
  obtain ⟨w, hw, rfl⟩ := List.mem_map.mp hv
  split at hne
  · exact absurd rfl hne
  · next h =>
      rw [if_neg h]
      exact hw

theorem Granted.refl (q : KProcess) : Granted q q := .inl ⟨rfl, rfl⟩

theorem Granted.trans {q q₁ q' : KProcess} (h : Granted q q₁) (h' : Granted q₁ q') :
    Granted q q' := by
  rcases h' with ⟨hi', hg'⟩ | hg'
  · rcases h with ⟨hi, hg⟩ | hg
    · exact .inl ⟨hi'.trans hi, hg'.trans hg⟩
    · exact .inr (hg'.trans hg)
  · exact .inr hg'

/-- Mutexes and semaphores stay, nobody new waits, and there is no new mail and no new grant. -/
structure Quiet (next : Nat) (gone : Option ProcessSlot) (s s' : SchedState) : Prop where
  mutexes : s'.mutexes = s.mutexes
  semaphores : s'.semaphores = s.semaphores
  tasks : ∀ i, TaskQuiet next gone (s.tasks i) (s'.tasks i)
  processes : ∀ p, Granted (s.processes p) (s'.processes p)
  services : ∀ v ∈ s'.services, v.pid ≠ 0 → v ∈ s.services

namespace Quiet

theorem refl (s : SchedState) : Quiet next gone s s :=
  ⟨rfl, rfl, fun _ => .refl _, fun _ => .refl _, fun _ hv _ => hv⟩

theorem trans {s₁ : SchedState} (h : Quiet next gone s s₁) (h' : Quiet next gone s₁ s') :
    Quiet next gone s s' where
  mutexes := h'.mutexes.trans h.mutexes
  semaphores := h'.semaphores.trans h.semaphores
  tasks i := (h.tasks i).trans (h'.tasks i)
  processes p := (h.processes p).trans (h'.processes p)
  services v hv hp := h.services v (h'.services v hv hp) hp

/-- A task that waits has waited before. -/
theorem waits (h : Quiet next gone s s') {o : WaitObject} (hw : s'.Waits i o) : s.Waits i o := by
  obtain ⟨hb, ho⟩ := (h.tasks i).1 hw.1
  exact ⟨hb, ho.symm.trans hw.2⟩

/-- The rest of the state does not matter. -/
theorem congr {σ : SchedState} (h : Quiet next gone s s') (hm : σ.mutexes = s'.mutexes)
    (hn : σ.semaphores = s'.semaphores) (ht : σ.tasks = s'.tasks) (hp : σ.processes = s'.processes)
    (hv : ∀ v ∈ σ.services, v.pid ≠ 0 → v ∈ s'.services) : Quiet next gone s σ where
  mutexes := hm.trans h.mutexes
  semaphores := hn.trans h.semaphores
  tasks i := by rw [ht]; exact h.tasks i
  processes p := by rw [hp]; exact h.processes p
  services v hmem hne := h.services v (hv v hmem hne) hne

theorem onTask {f : Task → Task} (hf : TaskQuiet next gone (s.tasks i) (f (s.tasks i))) :
    Quiet next gone s (s.onTask i f) := by
  refine ⟨rfl, rfl, fun j => ?_, fun _ => .refl _, fun _ hv _ => hv⟩
  obtain rfl | hj := eq_or_ne j i
  · rw [onTask_self]
    exact hf
  · rw [onTask_ne _ hj]
    exact .refl _

theorem onCpu (f : CpuState → CpuState) : Quiet next gone s (s.onCpu c f) :=
  (refl s).congr rfl rfl rfl rfl fun _ hv _ => hv

theorem onProcess {f : KProcess → KProcess} (hf : Granted (s.processes p) (f (s.processes p))) :
    Quiet next gone s (s.onProcess p f) := by
  refine ⟨rfl, rfl, fun _ => .refl _, fun q => ?_, fun _ hv _ => hv⟩
  obtain rfl | hq := eq_or_ne q p
  · rw [onProcess_self]
    exact hf
  · rw [onProcess_ne _ hq]
    exact .refl _

theorem onProcessOf {f : KProcess → KProcess} (hf : ∀ q, Granted q (f q)) :
    Quiet next gone s (s.onProcessOf i f) := by
  unfold SchedState.onProcessOf
  split
  · exact onProcess (hf _)
  · exact refl s

theorem foldl {α β : Type} (g : β → SchedState) (f : β → α → β)
    (hf : ∀ r a, Quiet next gone (g r) (g (f r a))) (l : List α) (r : β) :
    Quiet next gone (g r) (g (l.foldl f r)) := by
  induction l generalizing r with
  | nil => exact refl _
  | cons a l ih => exact (hf r a).trans (ih _)

theorem cpuFloor (s : SchedState) (c : Nat) : Quiet next gone s (s.cpuFloor c) := by
  unfold SchedState.cpuFloor
  split
  · exact onCpu _
  · exact refl s

theorem taskReady (s : SchedState) (i : TaskSlot) : Quiet next gone s (s.taskReady i) := by
  unfold SchedState.taskReady
  refine ((cpuFloor s _).trans (onTask ?_)).trans (onCpu _)
  exact .of_ne (by simp) ⟨rfl, rfl, rfl, rfl⟩ rfl

theorem fillTask (hn : s.nextTaskId = next) (hi : NoMail (s.tasks i)) (weight cpu : Nat)
    (idle : Bool) (stack : Nat) : Quiet next gone s (s.fillTask i weight cpu idle stack) := by
  subst hn
  have h :
      Quiet s.nextTaskId gone s { s.cpuFloor cpu with nextTaskId := (s.nextTaskId + 1) % 2 ^ 32 } :=
    (cpuFloor s cpu).congr rfl rfl rfl rfl fun _ hv _ => hv
  have hi' : NoMail ((s.cpuFloor cpu).tasks i) := by rwa [cpuFloor_tasks]
  unfold SchedState.fillTask
  refine (h.trans (onTask ?_)).trans (onCpu _)
  exact ⟨(fun hb => nomatch hb), .inr ⟨hi', .inr rfl⟩, .inl rfl⟩

theorem newTask (hu : ∀ i, (s.tasks i).state = .unused → (s.tasks i).process = none)
    (weight cpu : Nat)
    (idle : Bool) (stack : Nat) :
    Quiet s.nextTaskId gone s (s.newTask weight cpu idle stack).2 := by
  unfold SchedState.newTask
  split
  · exact refl s
  · split
    · exact refl s
    · next i hi =>
        have hunused : (s.tasks i).state = .unused := by simpa using List.find?_some hi
        have h : Quiet s.nextTaskId gone s (s.onTask i fun _ => {}) :=
          onTask (.clear (.inl (hu i hunused)))
        dsimp only
        split
        · exact h
        · dsimp only
          refine h.trans (fillTask (s := s.onTask i fun _ => {}) rfl ?_ weight cpu idle stack)
          rw [onTask_self]
          exact ⟨rfl, rfl⟩

theorem wakeSleepers (s : SchedState) (c now : Nat) :
    Quiet next gone s (s.wakeSleepers c now).1 := by
  refine foldl (fun r : SchedState × Bool => r.1) _ (fun r i => ?_) _ (s, false)
  split
  · exact taskReady _ _
  · exact refl _

theorem account (s : SchedState) (c : Nat) (i : TaskSlot) (forced : Bool) :
    Quiet next gone s (s.account c i forced) := by
  unfold SchedState.account
  split
  · refine onTask ?_
    split
    · exact .refl (s.tasks i)
    · exact .refl _
  · refine (onTask ?_).trans (onCpu _)
    dsimp only
    split
    · exact .refl (s.tasks i)
    · exact .refl (s.tasks i)

theorem demote (s : SchedState) (i : TaskSlot) : Quiet next gone s (s.demote i) := by
  unfold SchedState.demote
  split
  · exact (onTask (.of_ne (by simp) ⟨rfl, rfl, rfl, rfl⟩ rfl)).trans (onProcessOf fun q => .refl q)
  · exact refl s

theorem dispatch (s : SchedState) (c : Nat) (old best : TaskSlot) (w : Nat) (b : Bool) :
    Quiet next gone s (s.dispatch c old best w b) := by
  have h : Quiet next gone s (s.promote c best b) :=
    ((onCpu _).trans (onTask (.of_ne (by simp) ⟨rfl, rfl, rfl, rfl⟩ rfl))).trans
      (onProcessOf fun q => .refl q)
  unfold SchedState.dispatch
  dsimp only
  split
  · exact (h.trans (cpuFloor _ c)).trans (onCpu _)
  · exact (((h.trans (cpuFloor _ c)).trans (onCpu _)).trans (onCpu _)).trans (onTask (.refl _))

theorem scheduleLocked (s : SchedState) (c : Nat) (i : TaskSlot) (forced : Bool) (now : Nat) :
    Quiet next gone s (s.scheduleLocked c i forced now) := by
  have h : Quiet next gone s ((s.account c i forced).wakeSleepers c now).1 :=
    (account s c i forced).trans (wakeSleepers _ c now)
  unfold SchedState.scheduleLocked
  dsimp only
  split
  · exact h
  · refine (h.trans (demote _ i)).trans ?_
    unfold SchedState.reschedule
    split
    · exact refl _
    · exact dispatch _ _ _ _ _ _

theorem schedule (s : SchedState) (c : Nat) (forced : Bool) (now : Nat) :
    Quiet next gone s (s.kernelSchedule c forced now) := by
  unfold SchedState.kernelSchedule
  split
  · exact refl s
  · split
    · dsimp only
      split
      · exact (onCpu _).trans (scheduleLocked _ _ _ _ _)
      · exact (onCpu _).trans (onTask (.refl _))
    · exact scheduleLocked _ _ _ _ _

theorem self {f : TaskSlot → SchedState} (h : ∀ i, Quiet next gone s (f i)) :
    Quiet next gone s (s.self c f) := by
  obtain he | ⟨i, -, -, he⟩ := self_eq_or (s := s) (c := c) f
  · rw [he]
    exact refl s
  · rw [he]
    exact h i

theorem die {f : KProcess → KProcess} (hf : ∀ q, Granted q (f q)) (s : SchedState) (c : Nat)
    (i : TaskSlot) (code : Int) : Quiet next gone s (s.die c i code f) := by
  unfold SchedState.die leave
  refine ((onTask ?_).trans (onProcessOf fun q => ?_)).trans (onCpu _)
  · exact .of_ne (by simp) ⟨rfl, rfl, rfl, rfl⟩ rfl
  · exact hf q

theorem freeTask (h : (s.tasks i).process = none ∨ (s.tasks i).process = gone) :
    Quiet next gone s (s.freeTask i) := onTask (.clear h)

theorem freeTasksOf (p : ProcessSlot) (l : List TaskSlot) :
    ∀ s : SchedState, Quiet next (some p) s (s.freeTasksOf p l).2 := by
  induction l with
  | nil => exact refl
  | cons i l ih =>
      intro s
      unfold SchedState.freeTasksOf
      split
      · next hp =>
          split
          · exact refl s
          · exact (freeTask (.inr hp)).trans (ih _)
      · exact ih s

theorem processReady (s : SchedState) (p : ProcessSlot) (i : TaskSlot) :
    Quiet next gone s (s.processReady p i) :=
  (taskReady s i).trans (onProcess (.refl _))

/-- A request leaves a blocked task alone. -/
theorem control (s : SchedState) (pid : Nat) (op : Control) :
    Quiet next gone s (s.processControlLocked pid op).2 := by
  have hready : ∀ (σ : SchedState) (P : Prop) [Decidable P] p i, Quiet next gone s σ →
      Quiet next gone s (if P then σ.processReady p i else σ) := by
    intro σ P _ p i h
    split
    · exact h.trans (processReady σ p i)
    · exact h
  have hrequest : ∀ (P : Prop) [Decidable P] i r, Quiet next gone s
      (if P then s else s.onTask i fun t => { t with controlRequest := r }) := by
    intro P _ i r
    split
    · exact refl s
    · exact onTask (.refl (s.tasks i))
  unfold SchedState.processControlLocked
  split
  · exact refl s
  · split
    · exact refl s
    · dsimp only
      refine trans ?_ (onCpu _)
      split
      · exact hready _ _ _ _ (hrequest _ _ _)
      · refine hready _ _ _ _ ?_
        rw [← ite_not]
        exact hrequest _ _ _

theorem returnControl (s : SchedState) (c : Nat) :
    Quiet next gone s (s.processReturnControl c) := by
  refine self fun i => ?_
  split
  · next p request _ _ =>
      have h : Quiet next gone s
          (s.onTask i fun t => { t with controlRequest := none, preemptDepth := 0 }) :=
        onTask (.refl (s.tasks i))
      cases request with
      | kill =>
          have hdie := h.trans (die (f := id) (fun q => .refl q) _ c i (-143))
          exact hdie.congr rfl rfl rfl rfl fun v => mem_released
      | stop =>
          have hstop := h.trans (onTask (i := i) (f := fun t => { t with state := .stopped })
            (.of_ne (by simp) ⟨rfl, rfl, rfl, rfl⟩ rfl))
          exact (hstop.trans (onProcess (.refl _))).trans (onCpu _)
      | «continue» => exact h.trans (onCpu _)
  · exact refl s

theorem wakeObject (s : SchedState) (o : WaitObject) : Quiet next gone s (s.wakeObject o) := by
  refine foldl (fun r : SchedState => r) _ (fun r i => ?_) _ s
  split
  · exact taskReady _ _
  · exact refl _

end Quiet

end Quiet

end SchedState

/-- The process whose tasks the event frees. -/
def SchedEvent.destroys : SchedEvent → Option ProcessSlot
  | .processDestroy p => some p
  | _ => none

/-- The events that are calls of mutexes and semaphores. -/
def SchedEvent.sync : SchedEvent → Bool
  | .mutexTrylock _ _ | .mutexLock _ _ | .mutexUnlock _ _ | .semInit _ _ | .semTrywait _
      | .semWait _ _
  | .semPost _ => true
  | _ => false

namespace SchedState

variable {s s' : SchedState} {i j : TaskSlot} {c d : Nat} {p q : ProcessSlot}

/-- Every section that is not of a mutex or a semaphore is quiet. -/
theorem Ok.quiet_step (hok : s.Ok) {e : SchedEvent} (he : e.sync = false) :
    Quiet s.nextTaskId e.destroys s (s.step e) := by
  have hu : ∀ i, (s.tasks i).state = .unused → (s.tasks i).process = none := by
    intro i hi
    rw [hok.blank hi]
  -- what a section does is a handful of quiet changes one after the other
  cases e with
  | schedule c forced now => exact .schedule s c forced now
  | stackSwitched c => exact (Quiet.refl s).congr rfl rfl rfl rfl fun _ hv _ => hv
  | smpStart c stack =>
      have h : Quiet s.nextTaskId none s _ := .newTask hu 1 c true stack
      simp only [SchedState.step, smpStart]
      split
      · next heq => rwa [heq] at h
      · next heq =>
          rw [heq] at h
          dsimp only at h ⊢
          refine (h.trans (.onCpu _)).trans (.onTask ?_)
          exact .of_ne (by simp) ⟨rfl, rfl, rfl, rfl⟩ rfl
  | apMain c =>
      simp only [SchedState.step, apMain]
      split
      · exact .refl s
      · exact (Quiet.onCpu _).trans (.onTask (.of_ne (by simp) ⟨rfl, rfl, rfl, rfl⟩ rfl))
  | create weight cpu stack =>
      have h : Quiet s.nextTaskId none s _ := .newTask hu weight cpu false stack
      simp only [SchedState.step, kTaskCreate]
      split
      · exact .refl s
      · split
        · next heq => rwa [heq] at h
        · next heq => rwa [heq] at h
  | sleep c ms now =>
      refine .self fun i => ?_
      split
      · exact .refl s
      · exact (Quiet.onTask (.of_ne (by simp) ⟨rfl, rfl, rfl, rfl⟩ rfl)).trans (.onCpu _)
  | exit c code =>
      refine .self fun i => ?_
      split
      · exact .refl s
      · exact (Quiet.onTask (.refl (s.tasks i))).trans (.die (fun q => .refl q) _ _ _ _)
  | fault c vector ip address =>
      refine .self fun i => ?_
      split
      · exact .refl s
      · refine .die (fun q => ?_) _ _ _ _
        exact .refl q
  | badReturn c ip sp =>
      refine .self fun i => ?_
      split
      · exact .refl s
      · refine (Quiet.onTask (.refl (s.tasks i))).trans (.die (fun q => ?_) _ _ _ _)
        exact .refl q
  | returnControl c => exact .returnControl s c
  | reap id =>
      simp only [SchedState.step, kTaskReap]
      split
      · exact .refl s
      · split_ifs
        · exact .refl s
        · exact .refl s
        · exact .refl s
        · next i _ _ _ hp => exact .freeTask (.inl (by simpa using hp))
  | preemptDisable c => exact .self fun i => .onTask (.refl (s.tasks i))
  | preemptEnable c => exact .self fun i => .onTask (.refl (s.tasks i))
  | processCreate ring1 =>
      simp only [SchedState.step, processCreateLocked]
      split
      · exact .refl s
      · split
        · exact .refl s
        · dsimp only
          refine Quiet.trans ?_ (.onProcess (.inr rfl))
          exact (Quiet.refl s).congr rfl rfl rfl rfl fun _ hv _ => hv
  | processCreateFailed p =>
      simp only [SchedState.step, processCreateFailed]
      split
      · exact .refl s
      · exact .onProcess (.refl _)
  | riefLoaded p =>
      simp only [SchedState.step, riefLoaded]
      split
      · exact .refl s
      · exact .onProcess (.refl _)
  | processStart p cpu stack =>
      simp only [SchedState.step, processStartLocked]
      split
      · exact .refl s
      · split
        · exact .refl s
        · have h : Quiet s.nextTaskId none s _ :=
            .newTask hu 1024 (cpu.getD s.leastLoaded) false stack
          rcases hok.newTask_cases 1024 (cpu.getD s.leastLoaded) false stack with heq
            | ⟨i, heq, -, hi⟩
          · rw [heq]
            exact .refl s
          · have hnone :
                ((s.fillTask i 1024 (cpu.getD s.leastLoaded) false stack).tasks
                  i).process = none := by
              rw [fillTask_self]
              exact hu i hi
            rw [heq] at h ⊢
            dsimp only at h ⊢
            refine (h.trans (.onTask ?_)).trans (.onProcess (.refl _))
            exact ⟨fun hb => ⟨hb, rfl⟩, .refl _, .inr (.inl hnone)⟩
  | processControl pid op => exact .control s pid op
  | processDestroy p =>
      have h : Quiet s.nextTaskId (some p) s
          (if (s.processes p).taskId ≠ 0 then s.freeTasksOf p (List.finRange kMaxTasks)
          else (true, s)).2 := by
        split
        · exact .freeTasksOf p _ s
        · exact .refl s
      simp only [SchedState.step, processDestroyLocked]
      split
      · exact .refl s
      · split
        · exact .refl s
        · generalize (if (s.processes p).taskId ≠ 0 then s.freeTasksOf p (List.finRange kMaxTasks)
            else (true, s)) = r at h ⊢
          split
          · exact h
          · exact h.congr rfl rfl rfl rfl fun v => mem_released
  | processDestroyed b =>
      simp only [SchedState.step, processDestroyed]
      split
      · exact .refl s
      · next p _ =>
          have h : Quiet s.nextTaskId none s { s with destroying := none } :=
            (Quiet.refl s).congr rfl rfl rfl rfl fun _ hv _ => hv
          split_ifs
          · exact h.trans (.onProcess (.inr rfl))
          · exact h
  | _ => cases he

end SchedState

end Efishell
