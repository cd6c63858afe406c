import Efishell.Kernel.SchedRun
import Mathlib.Data.List.Basic
import Mathlib.Data.List.Induction

/-!
# Kernel — calm changes

`SchedState.Ok` is what holds of every reachable state of the scheduler: which tasks are current,
which are zombies, which identifiers are taken, how a process agrees with its task.  Most sections
change the tables calmly (`SchedState.Calm`): no task is born, dies or starts to run, and no
processor changes its task.  What such a change preserves is shown once.

* `Ok.calm`: a calm change keeps the invariant.
-/

namespace Efishell

namespace SchedState

variable {s s' : SchedState} {i j : TaskSlot} {c d : Nat} {p q : ProcessSlot}

/-! ### Tables -/

@[simp] theorem onTask_self (f : Task → Task) : (s.onTask i f).tasks i = f (s.tasks i) := by
  simp [onTask]

/-- Only the function's value at the task matters. -/
theorem onTask_congr {f g : Task → Task} (h : f (s.tasks i) = g (s.tasks i)) :
    s.onTask i f = s.onTask i g := by
  simp [onTask, h]

@[simp] theorem onTask_same : (s.onTask i fun t => t) = s := by
  simp [onTask]

theorem onTask_ne (f : Task → Task) (h : j ≠ i) : (s.onTask i f).tasks j = s.tasks j := by
  simp [onTask, Function.update_of_ne h]

@[simp] theorem onCpu_self (f : CpuState → CpuState) : (s.onCpu c f).cpus c = f (s.cpus c) := by
  simp [onCpu]

theorem onCpu_ne (f : CpuState → CpuState) (h : d ≠ c) : (s.onCpu c f).cpus d = s.cpus d := by
  simp [onCpu, Function.update_of_ne h]

@[simp] theorem onProcess_self (f : KProcess → KProcess) :
    (s.onProcess p f).processes p = f (s.processes p) := by
  simp [onProcess]

theorem onProcess_ne (f : KProcess → KProcess) (h : q ≠ p) :
    (s.onProcess p f).processes q = s.processes q := by
  simp [onProcess, Function.update_of_ne h]

@[simp] theorem onTask_cpus (f : Task → Task) : (s.onTask i f).cpus = s.cpus := rfl
@[simp] theorem onTask_processes (f : Task → Task) : (s.onTask i f).processes = s.processes := rfl
@[simp] theorem onCpu_tasks (f : CpuState → CpuState) : (s.onCpu c f).tasks = s.tasks := rfl
@[simp] theorem onCpu_processes (f : CpuState → CpuState) :
    (s.onCpu c f).processes = s.processes := rfl
@[simp] theorem onProcess_tasks (f : KProcess → KProcess) : (s.onProcess p f).tasks = s.tasks := rfl
@[simp] theorem onProcess_cpus (f : KProcess → KProcess) : (s.onProcess p f).cpus = s.cpus := rfl

@[simp] theorem onProcessOf_tasks (f : KProcess → KProcess) :
    (s.onProcessOf i f).tasks = s.tasks := by
  unfold onProcessOf
  split <;> rfl

@[simp] theorem onProcessOf_cpus (f : KProcess → KProcess) :
    (s.onProcessOf i f).cpus = s.cpus := by
  unfold onProcessOf
  split <;> rfl

/-- The process of the task is changed. -/
theorem onProcessOf_process {f : KProcess → KProcess} (hp : (s.tasks i).process = some p) :
    (s.onProcessOf i f).processes p = f (s.processes p) := by
  simp [onProcessOf, hp]

theorem onProcessOf_process_ne {f : KProcess → KProcess} (hp : (s.tasks i).process ≠ some p) :
    (s.onProcessOf i f).processes p = s.processes p := by
  unfold onProcessOf
  split
  · next q hq => exact onProcess_ne f fun h => hp (h ▸ hq)
  · rfl

theorem onProcessOf_rest (s : SchedState) (i : TaskSlot) (f : KProcess → KProcess) :
    (s.onProcessOf i f).discovered = s.discovered ∧
    (s.onProcessOf i f).nextTaskId = s.nextTaskId ∧
    (s.onProcessOf i f).destroying = s.destroying := by
  unfold onProcessOf
  split <;> exact ⟨rfl, rfl, rfl⟩

/-! ### Calm changes -/

end SchedState

/-- The same task before and after. -/
structure Task.Kin (t t' : Task) : Prop where
  id : t'.id = t.id
  cpu : t'.cpu = t.cpu
  weight : t'.weight = t.weight
  stack : t'.stack = t.stack
  idle : t'.idle = t.idle
  process : t'.process = t.process
  blank : t.state = .unused → t' = t
  unused : t'.state = .unused → t.state = .unused

/-- What happens to a task that neither is born nor dies nor starts to run. -/
structure Task.Calm (t t' : Task) : Prop extends Task.Kin t t' where
  zombie : t'.state = .zombie ↔ t.state = .zombie
  running : t'.state = .running → t.state = .running
  kill : t.controlRequest = some .kill → t'.controlRequest = some .kill
  halted : t'.controlRequest = some .kill → t'.state = .stopped →
    t.controlRequest = some .kill ∧ t.state = .stopped

/-- What happens to a process whose task neither is born nor dies. -/
structure KProcess.Calm (p p' : KProcess) : Prop where
  used : p'.used = p.used
  id : p'.id = p.id
  taskId : p'.taskId = p.taskId
  zombie : p'.state = .zombie ↔ p.state = .zombie

/-- What happens to a processor that keeps its task. -/
structure CpuState.Calm (k k' : CpuState) : Prop where
  current : k'.current = k.current
  stackOwner : k'.stackOwner = k.stackOwner
  idle : k'.idle = k.idle
  online : k'.online = k.online
  leaving : k.leaving = true → k'.leaving = true

theorem Task.Kin.refl (t : Task) : t.Kin t :=
  ⟨rfl, rfl, rfl, rfl, rfl, rfl, fun _ => rfl, fun h => h⟩

theorem Task.Kin.trans {t t₁ t₂ : Task} (h : t.Kin t₁) (h' : t₁.Kin t₂) : t.Kin t₂ where
  id := h'.id.trans h.id
  cpu := h'.cpu.trans h.cpu
  weight := h'.weight.trans h.weight
  stack := h'.stack.trans h.stack
  idle := h'.idle.trans h.idle
  process := h'.process.trans h.process
  blank hu := by
    have h₁ := h.blank hu
    exact (h'.blank (h₁ ▸ hu)).trans h₁
  unused hu := h.unused (h'.unused hu)

/-- A task stays live. -/
theorem Task.Kin.live {t t' : Task} (h : t.Kin t') (hu : t.state ≠ .unused) : t'.state ≠ .unused :=
  fun hu' => hu (h.unused hu')

/-- A kin is in use when the task is. -/
theorem Task.Kin.live_iff {t t' : Task} (h : t.Kin t') :
    t'.state ≠ .unused ↔ t.state ≠ .unused :=
  ⟨fun hu hu' => hu (h.blank hu' ▸ hu'), h.live⟩

namespace Task.Calm

theorem refl (t : Task) : t.Calm t :=
  ⟨.refl t, Iff.rfl, fun h => h, fun h => h, fun h₁ h₂ => ⟨h₁, h₂⟩⟩

theorem trans {t t₁ t₂ : Task} (h : t.Calm t₁) (h' : t₁.Calm t₂) : t.Calm t₂ where
  toKin := h.toKin.trans h'.toKin
  zombie := h'.zombie.trans h.zombie
  running hr := h.running (h'.running hr)
  kill hk := h'.kill (h.kill hk)
  halted hk hs := by
    obtain ⟨hk, hs⟩ := h'.halted hk hs
    exact h.halted hk hs

/-- A live task goes from one state to another. -/
theorem move {t t' : Task} (hid : t'.id = t.id) (hcpu : t'.cpu = t.cpu)
    (hweight : t'.weight = t.weight) (hstack : t'.stack = t.stack) (hidle : t'.idle = t.idle)
    (hprocess : t'.process = t.process)
    (hcontrol : t.controlRequest = some .kill → t'.controlRequest = some .kill)
    (hu : t.state ≠ .unused) (hz : t.state ≠ .zombie) (hu' : t'.state ≠ .unused)
    (hz' : t'.state ≠ .zombie) (hr' : t'.state ≠ .running)
    (hs' : t'.controlRequest = some .kill → t'.state ≠ .stopped) : t.Calm t' where
  id := hid
  cpu := hcpu
  weight := hweight
  stack := hstack
  idle := hidle
  process := hprocess
  blank h := absurd h hu
  unused h := absurd h hu'
  zombie := ⟨fun h => absurd h hz', fun h => absurd h hz⟩
  running h := absurd h hr'
  kill := hcontrol
  halted h₁ h₂ := absurd h₂ (hs' h₁)

/-- A task keeps its state. -/
theorem still {t t' : Task} (hid : t'.id = t.id) (hcpu : t'.cpu = t.cpu)
    (hweight : t'.weight = t.weight) (hstack : t'.stack = t.stack) (hidle : t'.idle = t.idle)
    (hprocess : t'.process = t.process) (hcontrol : t'.controlRequest = t.controlRequest)
    (hu : t.state ≠ .unused) (hs : t'.state = t.state) : t.Calm t' where
  id := hid
  cpu := hcpu
  weight := hweight
  stack := hstack
  idle := hidle
  process := hprocess
  blank h := absurd h hu
  unused h := hs ▸ h
  zombie := by rw [hs]
  running h := hs ▸ h
  kill h := hcontrol ▸ h
  halted h₁ h₂ := ⟨hcontrol ▸ h₁, hs ▸ h₂⟩

end Task.Calm

theorem KProcess.Calm.refl (p : KProcess) : p.Calm p := ⟨rfl, rfl, rfl, Iff.rfl⟩

theorem KProcess.Calm.trans {p p₁ p₂ : KProcess} (h : p.Calm p₁) (h' : p₁.Calm p₂) : p.Calm p₂ :=
  ⟨h'.used.trans h.used, h'.id.trans h.id, h'.taskId.trans h.taskId, h'.zombie.trans h.zombie⟩

theorem CpuState.Calm.refl (k : CpuState) : k.Calm k := ⟨rfl, rfl, rfl, rfl, id⟩

theorem CpuState.Calm.trans {k k₁ k₂ : CpuState} (h : k.Calm k₁) (h' : k₁.Calm k₂) : k.Calm k₂ :=
  ⟨h'.current.trans h.current, h'.stackOwner.trans h.stackOwner, h'.idle.trans h.idle,
    h'.online.trans h.online, fun hl => h'.leaving (h.leaving hl)⟩

namespace SchedState

variable {s s' : SchedState} {i j : TaskSlot} {c d : Nat} {p q : ProcessSlot}

/-- A step that keeps of the state what a pending lookup relies on. -/
structure Calm (s s' : SchedState) : Prop where
  tasks : ∀ i, (s.tasks i).Calm (s'.tasks i)
  processes : ∀ p, (s.processes p).Calm (s'.processes p)
  cpus : ∀ c, (s.cpus c).Calm (s'.cpus c)
  discovered : s'.discovered = s.discovered
  nextTaskId : s'.nextTaskId = s.nextTaskId
  destroying : s'.destroying = s.destroying

namespace Calm

theorem refl (s : SchedState) : s.Calm s :=
  ⟨fun _ => .refl _, fun _ => .refl _, fun _ => .refl _, rfl, rfl, rfl⟩

theorem trans {s₁ s₂ : SchedState} (h : s.Calm s₁) (h' : s₁.Calm s₂) : s.Calm s₂ :=
  ⟨fun i => (h.tasks i).trans (h'.tasks i), fun p => (h.processes p).trans (h'.processes p),
    fun c => (h.cpus c).trans (h'.cpus c), h'.discovered.trans h.discovered,
    h'.nextTaskId.trans h.nextTaskId, h'.destroying.trans h.destroying⟩

theorem onTask {f : Task → Task} (h : (s.tasks i).Calm (f (s.tasks i))) :
    s.Calm (s.onTask i f) := by
  refine ⟨fun j => ?_, fun _ => .refl _, fun _ => .refl _, rfl, rfl, rfl⟩
  obtain rfl | hj := eq_or_ne j i
  · rwa [onTask_self]
  · rw [onTask_ne f hj]
    exact .refl _

theorem onCpu {f : CpuState → CpuState} (h : (s.cpus c).Calm (f (s.cpus c))) :
    s.Calm (s.onCpu c f) := by
  refine ⟨fun _ => .refl _, fun _ => .refl _, fun d => ?_, rfl, rfl, rfl⟩
  obtain rfl | hd := eq_or_ne d c
  · rwa [onCpu_self]
  · rw [onCpu_ne f hd]
    exact .refl _

theorem onProcess {f : KProcess → KProcess} (h : (s.processes p).Calm (f (s.processes p))) :
    s.Calm (s.onProcess p f) := by
  refine ⟨fun _ => .refl _, fun q => ?_, fun _ => .refl _, rfl, rfl, rfl⟩
  obtain rfl | hq := eq_or_ne q p
  · rwa [onProcess_self]
  · rw [onProcess_ne f hq]
    exact .refl _

theorem onProcessOf {f : KProcess → KProcess}
    (h : ∀ p, (s.tasks i).process = some p → (s.processes p).Calm (f (s.processes p))) :
    s.Calm (s.onProcessOf i f) := by
  unfold SchedState.onProcessOf
  split
  · next p hp => exact .onProcess (h p hp)
  · exact .refl s

/-- A loop of calm changes. -/
theorem foldl {f : SchedState → TaskSlot → SchedState} (h : ∀ (s : SchedState) i, s.Calm (f s i))
    (l : List TaskSlot) (s : SchedState) : s.Calm (l.foldl f s) := by
  induction l generalizing s with
  | nil => exact .refl s
  | cons i l ih => exact (h s i).trans (ih (f s i))

theorem leave (s : SchedState) (c : Nat) : s.Calm (s.leave c) :=
  .onCpu ⟨rfl, rfl, rfl, rfl, fun _ => rfl⟩

theorem cpuFloor (s : SchedState) (c : Nat) : s.Calm (s.cpuFloor c) := by
  unfold SchedState.cpuFloor
  split
  · exact .onCpu ⟨rfl, rfl, rfl, rfl, id⟩
  · exact .refl s

end Calm

@[simp] theorem cpuFloor_tasks : (s.cpuFloor c).tasks = s.tasks := by
  unfold cpuFloor
  split <;> rfl

@[simp] theorem cpuFloor_processes : (s.cpuFloor c).processes = s.processes := by
  unfold cpuFloor
  split <;> rfl

/-- The task that `task_ready` leaves. -/
theorem taskReady_self : ∃ v, (s.taskReady i).tasks i =
    { s.tasks i with vruntime := v, state := .ready, waitObject := none } := by
  refine ⟨max (s.tasks i).vruntime ((s.cpuFloor (s.tasks i).cpu).cpus (s.tasks i).cpu).fairFloor,
    ?_⟩
  simp [taskReady]

/-- The other tasks stay. -/
theorem taskReady_ne (h : j ≠ i) : (s.taskReady i).tasks j = s.tasks j := by
  simp [taskReady, onTask_ne _ h]

theorem Calm.taskReady (hu : (s.tasks i).state ≠ .unused) (hz : (s.tasks i).state ≠ .zombie) :
    s.Calm (s.taskReady i) := by
  simp only [SchedState.taskReady]
  refine (Calm.cpuFloor s (s.tasks i).cpu).trans
    (Calm.trans ?_ (Calm.onCpu ⟨rfl, rfl, rfl, rfl, id⟩))
  refine Calm.onTask ?_
  rw [cpuFloor_tasks]
  exact .move rfl rfl rfl rfl rfl rfl id hu hz (by simp) (by simp) (by simp) (by simp)

/-! ### The invariant -/

/-- What holds of every reachable state. -/
structure Ok (s : SchedState) : Prop where
  current : ∀ {c i}, (s.cpus c).current = some i →
    c < s.discovered ∧ (s.tasks i).cpu = c ∧ (s.tasks i).state ≠ .unused
  running : ∀ {i}, (s.tasks i).state = .running → (s.cpus (s.tasks i).cpu).current = some i
  owner : ∀ {c i}, (s.cpus c).stackOwner = some i →
    c < s.discovered ∧ (s.tasks i).state ≠ .unused
  idle : ∀ {c i}, (s.cpus c).idle = some i →
    c < s.discovered ∧ (s.tasks i).idle = true ∧ (s.tasks i).cpu = c ∧ (s.tasks i).state ≠ .unused
  hasIdle : ∀ {c i}, (s.cpus c).current = some i → ∃ j, (s.cpus c).idle = some j
  idleTask : ∀ {i}, (s.tasks i).idle = true →
    (s.tasks i).state ≠ .zombie ∧ (s.tasks i).process = none
  /-- A zombie that is still on a processor executes nothing there. -/
  leaving : ∀ {c i}, (s.cpus c).current = some i → (s.tasks i).state = .zombie →
    (s.cpus c).leaving = true
  offline : ∀ {c}, (s.cpus c).online = false → (s.cpus c).current = (s.cpus c).idle
  blank : ∀ {i}, (s.tasks i).state = .unused → s.tasks i = {}
  next : s.nextTaskId < 2 ^ 32
  fresh : ∀ {i}, (s.tasks i).state ≠ .unused →
    0 < (s.tasks i).id ∧ (s.nextTaskId = 0 ∨ (s.tasks i).id < s.nextTaskId)
  ids : ∀ {i j}, (s.tasks i).state ≠ .unused → (s.tasks j).state ≠ .unused →
    (s.tasks i).id = (s.tasks j).id → i = j
  process : ∀ {i p}, (s.tasks i).process = some p →
    (s.processes p).used = true ∧ (s.processes p).taskId = (s.tasks i).id ∧
      ((s.processes p).state = .zombie ↔ (s.tasks i).state = .zombie)
  destroying : ∀ {p}, s.destroying = some p → ∀ i, (s.tasks i).process ≠ some p
  kill : ∀ {i}, (s.tasks i).controlRequest = some .kill → (s.tasks i).state ≠ .stopped

namespace Ok

/-- A task with a process is live. -/
theorem live_of_process (h : s.Ok) (hp : (s.tasks i).process = some p) :
    (s.tasks i).state ≠ .unused := by
  intro hu
  rw [h.blank hu] at hp
  cases hp

/-- A process has one task at most. -/
theorem process_inj (h : s.Ok) (hi : (s.tasks i).process = some p)
    (hj : (s.tasks j).process = some p) : i = j :=
  h.ids (h.live_of_process hi) (h.live_of_process hj)
    ((h.process hi).2.1.symm.trans (h.process hj).2.1)

/-- What is left to show when the tasks are the same and their states and the current tasks
change. -/
theorem rewire (h : s.Ok) (ht : ∀ i, (s.tasks i).Kin (s'.tasks i))
    (hp : ∀ p, (s'.processes p).used = (s.processes p).used ∧
      (s'.processes p).taskId = (s.processes p).taskId)
    (hk : ∀ c i, (s'.cpus c).idle = some i → c < s.discovered ∧ (s.tasks i).idle = true ∧
      (s.tasks i).cpu = c ∧ (s.tasks i).state ≠ .unused)
    (hown : ∀ c i, (s'.cpus c).stackOwner = some i → c < s.discovered ∧ (s.tasks i).state ≠ .unused)
    (hd : s'.discovered = s.discovered) (hn : s'.nextTaskId = s.nextTaskId)
    (hdes : s'.destroying = s.destroying)
    (hcur : ∀ c i, (s'.cpus c).current = some i →
      c < s.discovered ∧ (s.tasks i).cpu = c ∧ (s.tasks i).state ≠ .unused)
    (hrun : ∀ i, (s'.tasks i).state = .running → (s'.cpus (s.tasks i).cpu).current = some i)
    (hhas : ∀ c i, (s'.cpus c).current = some i → ∃ j, (s'.cpus c).idle = some j)
    (hidle : ∀ i, (s.tasks i).idle = true → (s'.tasks i).state ≠ .zombie)
    (hleave : ∀ c i, (s'.cpus c).current = some i → (s'.tasks i).state = .zombie →
      (s'.cpus c).leaving = true)
    (hoff : ∀ c, (s'.cpus c).online = false → (s'.cpus c).current = (s'.cpus c).idle)
    (hproc : ∀ i p, (s.tasks i).process = some p →
      ((s'.processes p).state = .zombie ↔ (s'.tasks i).state = .zombie))
    (hkill : ∀ i, (s'.tasks i).controlRequest = some .kill → (s'.tasks i).state ≠ .stopped) :
    s'.Ok where
  current {c i} hi := by
    obtain ⟨h₁, h₂, h₃⟩ := hcur c i hi
    exact ⟨hd ▸ h₁, (ht i).cpu.trans h₂, (ht i).live h₃⟩
  running {i} hi := by
    rw [(ht i).cpu]
    exact hrun i hi
  owner {c i} hi := by
    obtain ⟨h₁, h₂⟩ := hown c i hi
    exact ⟨hd ▸ h₁, (ht i).live h₂⟩
  idle {c i} hi := by
    obtain ⟨h₀, h₁, h₂, h₃⟩ := hk c i hi
    exact ⟨hd ▸ h₀, (ht i).idle.trans h₁, (ht i).cpu.trans h₂, (ht i).live h₃⟩
  hasIdle {c i} := hhas c i
  idleTask {i} hi := by
    rw [(ht i).idle] at hi
    exact ⟨hidle i hi, (ht i).process.trans (h.idleTask hi).2⟩
  leaving {c i} := hleave c i
  offline {c} := hoff c
  blank {i} hu := by
    have hu' := (ht i).unused hu
    exact ((ht i).blank hu').trans (h.blank hu')
  next := hn ▸ h.next
  fresh {i} hi := by
    rw [(ht i).id, hn]
    exact h.fresh ((ht i).live_iff.mp hi)
  ids {i j} hi hj he := by
    rw [(ht i).id, (ht j).id] at he
    exact h.ids ((ht i).live_iff.mp hi) ((ht j).live_iff.mp hj) he
  process {i p} hip := by
    rw [(ht i).process] at hip
    obtain ⟨h₁, h₂, -⟩ := h.process hip
    refine ⟨(hp p).1.trans h₁, ?_, hproc i p hip⟩
    rw [(hp p).2, (ht i).id, h₂]
  destroying {p} hd i := by
    rw [hdes] at hd
    rw [(ht i).process]
    exact h.destroying hd i
  kill {i} := hkill i

/-- **Calm changes preserve the invariant.** -/
theorem calm (h : s.Ok) (hc : s.Calm s') : s'.Ok := by
  refine h.rewire (fun i => (hc.tasks i).toKin) (fun p => ⟨(hc.processes p).used,
    (hc.processes p).taskId⟩) (fun c i hi => h.idle ((hc.cpus c).idle ▸ hi)) (fun c i hi => ?_)
    hc.discovered
    hc.nextTaskId hc.destroying (fun c i hi => ?_) (fun i hi => ?_) (fun c i hi => ?_)
    (fun i hi hz => ?_) (fun c i hi hz => ?_) (fun c ho => ?_) (fun i p hp => ?_) fun i hk hs => ?_
  · exact h.owner ((hc.cpus c).stackOwner ▸ hi)
  · exact h.current ((hc.cpus c).current ▸ hi)
  · rw [(hc.cpus _).current]
    exact h.running ((hc.tasks i).running hi)
  · rw [(hc.cpus c).idle]
    exact h.hasIdle ((hc.cpus c).current ▸ hi)
  · exact (h.idleTask hi).1 ((hc.tasks i).zombie.mp hz)
  · exact (hc.cpus c).leaving (h.leaving ((hc.cpus c).current ▸ hi) ((hc.tasks i).zombie.mp hz))
  · rw [(hc.cpus c).current, (hc.cpus c).idle]
    exact h.offline ((hc.cpus c).online ▸ ho)
  · rw [(hc.processes p).zombie, (hc.tasks i).zombie, (h.process hp).2.2]
  · obtain ⟨hk, hs⟩ := (hc.tasks i).halted hk hs
    exact h.kill hk hs

end Ok

/-! ### Sections that change the tables calmly -/

/-- Changes of what the invariant does not look at. -/
theorem Calm.rest {mutexes semaphores : Nat → Nat} {services : List Service}
    {partitions : List PartitionInfo} {inputOwner nextProcessId : Nat} :
    s.Calm { s with mutexes, semaphores, services, partitions, inputOwner, nextProcessId } :=
  ⟨fun _ => .refl _, fun _ => .refl _, fun _ => .refl _, rfl, rfl, rfl⟩

theorem Calm.setMutex (s : SchedState) (m owner : Nat) : s.Calm (s.setMutex m owner) := .rest

theorem Calm.setSemaphore (s : SchedState) (n count : Nat) : s.Calm (s.setSemaphore n count) :=
  .rest

theorem Calm.account (hu : (s.tasks i).state ≠ .unused) (c : Nat) (forced : Bool) :
    s.Calm (s.account c i forced) := by
  unfold SchedState.account
  split
  · refine Calm.onTask ?_
    split
    · exact .still rfl rfl rfl rfl rfl rfl rfl hu rfl
    · exact .refl _
  · refine Calm.trans (Calm.onTask ?_) (Calm.onCpu ⟨rfl, rfl, rfl, rfl, id⟩)
    dsimp only
    split
    · exact .still rfl rfl rfl rfl rfl rfl rfl hu rfl
    · exact .still rfl rfl rfl rfl rfl rfl rfl hu rfl

theorem Calm.wakeSleepers (s : SchedState) (c now : Nat) : s.Calm (s.wakeSleepers c now).1 := by
  unfold SchedState.wakeSleepers
  generalize List.finRange kMaxTasks = l
  generalize false = b
  induction l generalizing s b with
  | nil => exact .refl s
  | cons i l ih =>
      rw [List.foldl_cons]
      dsimp only
      split
      · next hd => exact (Calm.taskReady (by simp [hd.2.1]) (by simp [hd.2.1])).trans (ih _ _)
      · exact ih _ _

theorem Calm.wakeObject (s : SchedState) (o : WaitObject) : s.Calm (s.wakeObject o) := by
  refine Calm.foldl (fun s i => ?_) _ s
  split
  · next h => exact .taskReady (by simp [h.1]) (by simp [h.1])
  · exact .refl s

theorem Ok.calm_demote (h : s.Ok) (i : TaskSlot) : s.Calm (s.demote i) := by
  unfold demote
  split
  · next hr =>
      refine Calm.trans (Calm.onTask (.move rfl rfl rfl rfl rfl rfl id ?_ ?_ ?_ ?_ ?_ ?_))
        (Calm.onProcessOf fun p hp => ?_)
      all_goals try simp [hr]
      rw [onTask_self] at hp
      have hz : (s.processes p).state ≠ .zombie := fun hz => by
        simp [hr, (h.process hp).2.2] at hz
      exact ⟨rfl, rfl, rfl, by simp [hz]⟩
  · exact .refl s

/-- A task that executes is no zombie. -/
theorem Ok.not_zombie (h : s.Ok) (hi : (s.cpus c).current = some i)
    (hl : (s.cpus c).leaving = false) : (s.tasks i).state ≠ .zombie := by
  intro hz
  simp [h.leaving hi hz] at hl

/-- A section of the running task does nothing, or what it does for that task. -/
theorem self_eq_or (f : TaskSlot → SchedState) : s.self c f = s ∨
    ∃ i, (s.cpus c).current = some i ∧ (s.cpus c).leaving = false ∧ s.self c f = f i := by
  unfold self
  cases hi : (s.cpus c).current with
  | none => exact .inl rfl
  | some i =>
      cases hl : (s.cpus c).leaving with
      | true => exact .inl rfl
      | false => exact .inr ⟨i, rfl, rfl, rfl⟩

/-- The state after a call is that of its section. -/
theorem call_snd (f : TaskSlot → Reply × SchedState) :
    (s.call c f).2 = s.self c fun i => (f i).2 := by
  unfold call self
  cases (s.cpus c).current with
  | none => rfl
  | some i => cases (s.cpus c).leaving <;> rfl

/-- A call of a live task that is no zombie. -/
theorem Ok.calm_self (h : s.Ok) {f : TaskSlot → SchedState}
    (hf : ∀ i, (s.cpus c).current = some i → (s.tasks i).state ≠ .unused →
      (s.tasks i).state ≠ .zombie → s.Calm (f i)) : s.Calm (s.self c f) := by
  obtain he | ⟨i, hi, hl, he⟩ := s.self_eq_or (c := c) f
  · rw [he]
    exact .refl s
  · rw [he]
    exact hf i hi (h.current hi).2.2 (h.not_zombie hi hl)

theorem Ok.calm_preemptDisable (h : s.Ok) (c : Nat) : s.Calm (s.kPreemptDisable c) :=
  h.calm_self fun _ _ hu _ => .onTask (.still rfl rfl rfl rfl rfl rfl rfl hu rfl)

theorem Ok.calm_preemptEnable (h : s.Ok) (c : Nat) : s.Calm (s.kPreemptEnable c) :=
  h.calm_self fun _ _ hu _ => .onTask (.still rfl rfl rfl rfl rfl rfl rfl hu rfl)

theorem Ok.calm_sleep (h : s.Ok) (c ms now : Nat) : s.Calm (s.kSleep c ms now) := by
  refine h.calm_self fun i _ hu hz => ?_
  split
  · exact .refl s
  · exact Calm.trans (.onTask (.move rfl rfl rfl rfl rfl rfl id hu hz (by simp) (by simp) (by simp)
      (by simp))) (.leave _ c)

theorem Calm.block (hu : (s.tasks i).state ≠ .unused) (hz : (s.tasks i).state ≠ .zombie)
    (o : WaitObject) : s.Calm (s.block c i o) :=
  Calm.trans (.onTask (.move rfl rfl rfl rfl rfl rfl id hu hz (by simp) (by simp) (by simp)
    (by simp))) (.leave _ c)

theorem Ok.calm_mutexTrylock (h : s.Ok) (c m : Nat) : s.Calm (s.kMutexTrylock c m).2 := by
  rw [kMutexTrylock, call_snd]
  refine h.calm_self fun i _ hu hz => ?_
  split
  · exact .refl s
  · split
    · exact .refl s
    · exact .setMutex s m _

theorem Ok.calm_mutexLock (h : s.Ok) (c m : Nat) : s.Calm (s.kMutexLock c m).2 := by
  rw [kMutexLock, call_snd]
  refine h.calm_self fun i _ hu hz => ?_
  split
  · exact .setMutex s m _
  · split
    · exact .refl s
    · exact .block hu hz _

theorem Ok.calm_mutexUnlock (h : s.Ok) (c m : Nat) : s.Calm (s.kMutexUnlock c m).2 := by
  rw [kMutexUnlock, call_snd]
  refine h.calm_self fun i _ hu hz => ?_
  split
  · exact .refl s
  · dsimp only
    exact Calm.trans (.setMutex s m 0) (.wakeObject _ _)

theorem Ok.calm_semWait (h : s.Ok) (c n : Nat) : s.Calm (s.kSemWait c n).2 := by
  rw [kSemWait, call_snd]
  refine h.calm_self fun i _ hu hz => ?_
  split
  · exact .setSemaphore s n _
  · split
    · exact .refl s
    · exact .block hu hz _

theorem Calm.semTrywait (s : SchedState) (n : Nat) : s.Calm (s.kSemTrywait n).2 := by
  unfold kSemTrywait
  split
  · exact .refl s
  · exact .setSemaphore s n _

theorem Calm.semPost (s : SchedState) (n : Nat) : s.Calm (s.kSemPost n) := by
  unfold kSemPost
  refine Calm.trans ?_ (.wakeObject _ _)
  split
  · exact .setSemaphore s n _
  · exact .refl s

/-! ### Control requests -/

/-- The slot found is used and has the pid. -/
theorem processByPid_some {pid : Nat} (h : s.processByPid pid = some p) :
    (s.processes p).used = true ∧ (s.processes p).id = pid := by
  simpa using List.find?_some h

/-- The task found is the process's. -/
theorem processTask_some (h : s.processTask p = some i) :
    (s.tasks i).state ≠ .unused ∧ (s.tasks i).process = some p := by
  simpa using List.find?_some h

/-- The process of a task that is no zombie is none. -/
theorem Ok.process_not_zombie (h : s.Ok) (hp : (s.tasks i).process = some p)
    (hz : (s.tasks i).state ≠ .zombie) : (s.processes p).state ≠ .zombie :=
  fun hz' => hz ((h.process hp).2.2.mp hz')

/-- A live process in another live state is calm. -/
theorem Calm.processState (hz : (s.processes p).state ≠ .zombie) {state : TaskState}
    (hs : state ≠ .zombie) : s.Calm (s.onProcess p fun q => { q with state }) :=
  .onProcess ⟨rfl, rfl, rfl, by simp [hz, hs]⟩

/-- A request is recorded for a task that is woken at once. -/
theorem Calm.request_ready {r : Option Control} (hu : (s.tasks i).state ≠ .unused)
    (hz : (s.tasks i).state ≠ .zombie) (hp : (s.processes p).state ≠ .zombie)
    (hr : (s.tasks i).controlRequest = some .kill → r = some .kill) :
    s.Calm ((s.onTask i fun t => { t with controlRequest := r }).processReady p i) := by
  have hc : (s.onTask i fun t => { t with controlRequest := r }).Calm _ :=
    Calm.taskReady (i := i) (by simpa using hu) (by simpa using hz)
  have hw : s.Calm ((s.onTask i fun t => { t with controlRequest := r }).taskReady i) := by
    refine ⟨fun j => ?_, hc.processes, hc.cpus, hc.discovered, hc.nextTaskId, hc.destroying⟩
    obtain rfl | hj := eq_or_ne j i
    · obtain ⟨v, hv⟩ :=
        taskReady_self (s := s.onTask j fun t => { t with controlRequest := r }) (i := j)
      rw [hv, onTask_self]
      exact .move rfl rfl rfl rfl rfl rfl hr hu hz (by simp) (by simp) (by simp) (by simp)
    · rw [taskReady_ne hj, onTask_ne _ hj]
      exact .refl _
  refine hw.trans (Calm.processState ?_ (by simp))
  simpa [SchedState.taskReady] using hp

/-- A request is recorded for a task that goes on. -/
theorem Calm.request {r : Option Control} (hu : (s.tasks i).state ≠ .unused)
    (hr : (s.tasks i).controlRequest = some .kill → r = some .kill)
    (hs : r = some .kill → (s.tasks i).state ≠ .stopped) :
    s.Calm (s.onTask i fun t => { t with controlRequest := r }) :=
  .onTask ⟨⟨rfl, rfl, rfl, rfl, rfl, rfl, fun h => absurd h hu, id⟩, Iff.rfl, id, hr,
    fun h₁ h₂ => absurd h₂ (hs h₁)⟩

theorem Calm.processReady (hu : (s.tasks i).state ≠ .unused) (hz : (s.tasks i).state ≠ .zombie)
    (hp : (s.processes p).state ≠ .zombie) : s.Calm (s.processReady p i) := by
  refine Calm.trans (.taskReady hu hz) (Calm.processState ?_ (by simp))
  simpa [SchedState.taskReady] using hp

/-- What `process_control_locked` finds. -/
theorem processControlLocked_cases (s : SchedState) (pid : Nat) (op : Control) :
    (∃ e, s.processControlLocked pid op = (.error e, s)) ∨
    ∃ p i, s.processByPid pid = some p ∧ s.processTask p = some i ∧
      (s.tasks i).state ≠ .zombie ∧ (s.processControlLocked pid op).1 = .ok () := by
  unfold processControlLocked
  cases hp : s.processByPid pid with
  | none => exact .inl ⟨_, rfl⟩
  | some p =>
      cases hi : s.processTask p with
      | none => exact .inl ⟨.enoent, by simp [hi]⟩
      | some i =>
          by_cases hz : (s.tasks i).state = .zombie
          · exact .inl ⟨.enoent, by simp [hi, hz]⟩
          · exact .inr ⟨p, i, rfl, hi, hz, by simp [hi, hz]⟩

/-- The task that a request was accepted for. -/
theorem Ok.calm_control (h : s.Ok) (pid : Nat) (op : Control) :
    s.Calm (s.processControlLocked pid op).2 := by
  obtain ⟨e, he⟩ | ⟨p, i, hp, hi, hz, -⟩ := s.processControlLocked_cases pid op
  · rw [he]
    exact .refl s
  obtain ⟨hu, hpi⟩ := processTask_some hi
  have hpz := h.process_not_zombie hpi hz
  simp only [processControlLocked, hp, hi, Option.bind_some, Option.map_some, if_neg hz]
  refine Calm.trans ?_ (Calm.onCpu ⟨rfl, rfl, rfl, rfl, id⟩)
  by_cases hk : (s.tasks i).controlRequest = some .kill
  · have hs := h.kill hk
    cases op with
    | kill =>
        simp only [hk, reduceCtorEq, if_false, true_or, if_true, onTask_self]
        split
        · exact .request_ready hu hz hpz fun _ => rfl
        · exact .request hu (fun _ => rfl) fun _ => hs
    | stop =>
        simp only [hk, reduceCtorEq, if_false, false_or, not_true_eq_false]
        split
        · exact .processReady hu hz hpz
        · exact .refl s
    | «continue» =>
        simp only [hk, if_true, if_neg hs]
        exact .refl s
  · have hr : ∀ r : Option Control, (s.tasks i).controlRequest = some .kill → r = some .kill :=
      fun r h => absurd h hk
    cases op with
    | kill =>
        simp only [hk, reduceCtorEq, if_false, true_or, if_true, onTask_self]
        split
        · exact .request_ready hu hz hpz (hr _)
        · next hs => exact .request hu (hr _) fun _ hs' => hs (.inl hs')
    | stop =>
        simp only [hk, reduceCtorEq, if_false, false_or, not_false_eq_true, if_true, onTask_self]
        split
        · exact .request_ready hu hz hpz (hr _)
        · exact .request hu (hr _) (by simp)
    | «continue» =>
        simp only [hk, if_false, if_true, onTask_self]
        split
        · exact .request_ready hu hz hpz (hr _)
        · exact .request hu (hr _) (by simp)

/-! ### Picking a task -/

/-- The best candidate of a prefix of the table. -/
theorem foldl_pickStep (s : SchedState) (c : Nat) (l : List TaskSlot) :
    ((l.foldl (s.pickStep c) (none, 0)).1 = none → ∀ j ∈ l, ¬ s.candidate c j) ∧
    ∀ i, (l.foldl (s.pickStep c) (none, 0)).1 = some i → s.candidate c i ∧
      ∀ j ∈ l, s.candidate c j → (s.tasks i).vruntime ≤ (s.tasks j).vruntime := by
  induction l using List.reverseRecOn with
  | nil => simp
  | append_singleton l k ih =>
      obtain ⟨hnone, hsome⟩ := ih
      rw [List.foldl_concat]
      generalize l.foldl (s.pickStep c) (none, 0) = r at hnone hsome ⊢
      -- the slot `k` is behind the prefix; it wins against the best so far, or loses
      by_cases hk : s.candidate c k
      · refine ⟨by simp [pickStep, hk], fun i hi => ?_⟩
        simp only [pickStep, if_pos hk, Option.some.injEq] at hi
        cases hr : r.1 with
        | none =>
            simp only [hr] at hi
            subst hi
            refine ⟨hk, fun j hj hc => ?_⟩
            rcases List.mem_append.mp hj with hj | hj
            · exact absurd hc (hnone hr j hj)
            · rw [List.mem_singleton.mp hj]
        | some b =>
            obtain ⟨hb, hmin⟩ := hsome b hr
            simp only [hr] at hi
            have hi' : s.candidate c i ∧ (s.tasks i).vruntime ≤ (s.tasks b).vruntime ∧
                (s.tasks i).vruntime ≤ (s.tasks k).vruntime := by
              rw [← hi]
              split
              · next hlt =>
                  refine ⟨hk, ?_, le_rfl⟩
                  rcases hlt with hlt | ⟨he, -⟩
                  · exact hlt.le
                  · exact he.le
              · next hlt =>
                  refine ⟨hb, le_rfl, ?_⟩
                  simp only [before, not_or, not_lt] at hlt
                  exact hlt.1
            refine ⟨hi'.1, fun j hj hc => ?_⟩
            rcases List.mem_append.mp hj with hj | hj
            · exact hi'.2.1.trans (hmin j hj hc)
            · rw [List.mem_singleton.mp hj]
              exact hi'.2.2
      · have he : s.pickStep c r k = r := by simp [pickStep, hk]
        rw [he]
        refine ⟨fun h j hj hc => ?_, fun i hi => ⟨(hsome i hi).1, fun j hj hc => ?_⟩⟩
        · rcases List.mem_append.mp hj with hj | hj
          · exact hnone h j hj hc
          · exact hk (List.mem_singleton.mp hj ▸ hc)
        · rcases List.mem_append.mp hj with hj | hj
          · exact (hsome i hi).2 j hj hc
          · exact absurd (List.mem_singleton.mp hj ▸ hc) hk

/-- The slot picked is a candidate, and none is further behind. -/
theorem pick_some (h : (s.pick c).1 = some i) : s.candidate c i ∧
    ∀ j, s.candidate c j → (s.tasks i).vruntime ≤ (s.tasks j).vruntime := by
  obtain ⟨h₁, h₂⟩ := (foldl_pickStep s c _).2 i h
  exact ⟨h₁, fun j => h₂ j (List.mem_finRange j)⟩

/-- Nothing is picked only when there is no candidate. -/
theorem pick_none (h : (s.pick c).1 = none) (j : TaskSlot) : ¬ s.candidate c j :=
  (foldl_pickStep s c _).1 h j (List.mem_finRange j)

end SchedState

end Efishell
