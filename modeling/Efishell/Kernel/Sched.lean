import Efishell.Kernel.Bytes
import Mathlib.Logic.Function.Basic
import Mathlib.Data.List.FinRange

/-!
# Kernel — tasks, processors and processes

The scheduler of `kernel.c` with the calls that change the state of a task: creation, sleep, exit,
reaping, mutexes and semaphores, and from `process.c` and `cpu.c` the start, control, death and
destruction of processes.  Each function is one section under `sched_lock`, so a run of the system
is a sequence of them (`SchedRun.lean`).

Pointers to tasks and processes are slots of their tables, wait objects are numbers.  The clock
(`now`, the result of `k_ticks`) and the answers of the allocators are arguments.  Names, saved
frames and the registers of a task are left out: none of these functions looks at them.
-/

namespace Efishell

/-- `K_MAX_TASKS`. -/
def kMaxTasks : Nat := 128

/-- `MAX_PROCESSES`. -/
def maxProcesses : Nat := 64

/-- `MAX_SERVICES`. -/
def maxServices : Nat := 32

/-- The states of a task. -/
inductive TaskState where
  | unused | ready | running | sleeping | blocked | zombie | stopped
  deriving DecidableEq, Repr

/-- `K_CTL_KILL`, `K_CTL_STOP`, `K_CTL_CONTINUE`. -/
inductive Control where
  | kill | stop | continue
  deriving DecidableEq, Repr

/-- What a task blocks on. -/
inductive WaitObject where
  | mutex (m : Nat)
  | semaphore (n : Nat)
  deriving DecidableEq, Repr

instance : NeZero kMaxTasks := ⟨by decide⟩

/-- A slot of `tasks`. -/
abbrev TaskSlot := Fin kMaxTasks

/-- A slot of `processes`. -/
abbrev ProcessSlot := Fin maxProcesses

/-- `k_message`. -/
structure Message where
  sender : Nat := 0
  size : Nat := 0
  bytes : Bytes := fun _ => 0

/-- The defaults are what `mem_zero` leaves. -/
structure Task where
  id : Nat := 0
  cpu : Nat := 0
  state : TaskState := .unused
  weight : Nat := 0
  stack : Nat := 0
  vruntime : Nat := 0
  runtime : Nat := 0
  switches : Nat := 0
  wake : Nat := 0
  process : Option ProcessSlot := none
  waitObject : Option WaitObject := none
  exitCode : Int := 0
  preemptDepth : Nat := 0
  mailHead : Nat := 0
  mailCount : Nat := 0
  idle : Bool := false
  /-- `0` is no request. -/
  controlRequest : Option Control := none
  mail : Nat → Message := fun _ => {}

/-- What a tick, or a turn given up, costs: `2^20 / weight`, rounded up. -/
def Task.cost (t : Task) : Nat := (1024 * 1024 + t.weight - 1) / t.weight

/-- The task's virtual runtime after one more slice. -/
def Task.charge (t : Task) : Task := { t with vruntime := (t.vruntime + t.cost) % 2 ^ 64 }

/-- What the scheduler keeps for one processor. -/
structure CpuState where
  stackOwner : Option TaskSlot := none
  current : Option TaskSlot := none
  online : Bool := false
  switches : Nat := 0
  fairFloor : Nat := 0
  idleTicks : Nat := 0
  slice : Nat := 0
  workPending : Bool := false
  idle : Option TaskSlot := none
  /-- Where the processor is in its program: the current task has given up its turn and runs nothing
  but interrupts until `kernel_schedule`. -/
  leaving : Bool := false

/-- A process slot, as far as the scheduler and the IPC read it. -/
structure KProcess where
  used : Bool := false
  loaded : Bool := false
  id : Nat := 0
  taskId : Nat := 0
  /-- `K_EXEC_RING1`. -/
  ring1 : Bool := false
  state : TaskState := .unused
  faultVector : Nat := 0
  faultIp : Nat := 0
  faultAddress : Nat := 0
  exitCode : Int := 0
  /-- The first `grant_count` entries of `grants`. -/
  grants : List Nat := []
  deriving DecidableEq, Repr

/-- An entry of `services`. -/
structure Service where
  name : List UInt8
  pid : Nat
  task : Nat
  deriving DecidableEq, Repr

/-- `k_partition_info`. -/
structure PartitionInfo where
  disk : Nat
  number : Nat
  sectorSize : Nat
  start : Nat
  sectors : Nat
  readOnly : Bool
  mounted : Bool
  ownerPid : Nat
  failed : Bool
  deriving DecidableEq, Repr

/-- What `sched_lock` guards. -/
structure SchedState where
  tasks : TaskSlot → Task
  cpus : Nat → CpuState
  processes : ProcessSlot → KProcess
  /-- `platform.discovered_cpus`. -/
  discovered : Nat
  timerHz : Nat
  nextTaskId : Nat
  nextProcessId : Nat
  /-- `owner` of each mutex. -/
  mutexes : Nat → Nat
  /-- `count` of each semaphore. -/
  semaphores : Nat → Nat
  services : List Service
  partitions : List PartitionInfo
  inputOwner : Nat
  /-- Where the holder of `process_mutex` is: between the two sections of
  `process_destroy_locked` for this process. -/
  destroying : Option ProcessSlot

namespace SchedState

/-- One task slot changed. -/
def onTask (s : SchedState) (i : TaskSlot) (f : Task → Task) : SchedState :=
  { s with tasks := Function.update s.tasks i (f (s.tasks i)) }

/-- One processor changed. -/
def onCpu (s : SchedState) (c : Nat) (f : CpuState → CpuState) : SchedState :=
  { s with cpus := Function.update s.cpus c (f (s.cpus c)) }

/-- One process slot changed. -/
def onProcess (s : SchedState) (p : ProcessSlot) (f : KProcess → KProcess) : SchedState :=
  { s with processes := Function.update s.processes p (f (s.processes p)) }

/-- `if (t->process) ...`. -/
def onProcessOf (s : SchedState) (i : TaskSlot) (f : KProcess → KProcess) : SchedState :=
  match (s.tasks i).process with
  | some p => s.onProcess p f
  | none => s

/-- `k_task_id`. -/
def kTaskId (s : SchedState) (c : Nat) : Nat :=
  match (s.cpus c).current with
  | some i => (s.tasks i).id
  | none => 0

/-! ### Waking and creating -/

/-- A task that the fair share counts. -/
def counts (s : SchedState) (c : Nat) (i : TaskSlot) : Prop :=
  (s.tasks i).cpu = c ∧ (s.tasks i).idle = false ∧
    ((s.tasks i).state = .ready ∨ (s.tasks i).state = .running)

instance (s : SchedState) (c : Nat) (i : TaskSlot) : Decidable (s.counts c i) :=
  inferInstanceAs (Decidable (_ ∧ _ ∧ _))

/-- The loop of `cpu_floor`. -/
def minVruntime (s : SchedState) (c : Nat) : Nat :=
  (List.finRange kMaxTasks).foldl
    (fun m i => if s.counts c i ∧ (s.tasks i).vruntime < m then (s.tasks i).vruntime else m)
    (2 ^ 64 - 1)

/-- The floor that `cpu_floor` returns is the new `fair_floor`. -/
def cpuFloor (s : SchedState) (c : Nat) : SchedState :=
  if s.minVruntime c ≠ 2 ^ 64 - 1 ∧ (s.cpus c).fairFloor < s.minVruntime c then
    s.onCpu c fun k => { k with fairFloor := s.minVruntime c }
  else s

/-- `task_ready`: the task may be picked, no further behind than the floor of its processor. -/
def taskReady (s : SchedState) (i : TaskSlot) : SchedState :=
  let c := (s.tasks i).cpu
  let s := s.cpuFloor c
  let s := s.onTask i fun t =>
    { t with
      vruntime := max t.vruntime (s.cpus c).fairFloor
      state := .ready
      waitObject := none }
  s.onCpu c fun k => { k with workPending := true }

/-- `new_task` fills in the slot `i`. -/
def fillTask (s : SchedState) (i : TaskSlot) (weight cpu : Nat) (idle : Bool) (stack : Nat) :
    SchedState :=
  let id := s.nextTaskId
  let s := s.cpuFloor cpu
  let s := { s with nextTaskId := (id + 1) % 2 ^ 32 }
  let s := s.onTask i fun t =>
    { t with id, cpu, weight, stack, idle, vruntime := (s.cpus cpu).fairFloor, state := .ready }
  s.onCpu cpu fun k => { k with workPending := k.workPending || !idle }

/-- `stack` is the answer of `k_pmm_alloc_pages`, `0` if it has none. -/
def newTask (s : SchedState) (weight cpu : Nat) (idle : Bool) (stack : Nat) :
    Option TaskSlot × SchedState :=
  if s.nextTaskId = 0 then (none, s)
  else
    match (List.finRange kMaxTasks).find? fun i => (s.tasks i).state = .unused with
    | none => (none, s)
    | some i =>
        let s := s.onTask i fun _ => {}
        if stack = 0 then (none, s) else (some i, s.fillTask i weight cpu idle stack)

/-- The tables before `k_scheduler_init`. -/
def blank (discovered timerHz : Nat) : SchedState where
  tasks := fun _ => {}
  cpus := fun c => { online := decide (c = 0) }
  processes := fun _ => {}
  discovered
  timerHz
  nextTaskId := 1
  nextProcessId := 1
  mutexes := fun _ => 0
  semaphores := fun _ => 0
  services := List.replicate maxServices ⟨[], 0, 0⟩
  partitions := []
  inputOwner := 0
  destroying := none

/-- `k_scheduler_init`: the boot task, running on the first processor. -/
def kSchedulerInit (s : SchedState) (stack : Nat) : Except Errno Unit × SchedState :=
  let s := s.onTask 0 fun t =>
    { t with id := s.nextTaskId, cpu := 0, weight := 1024, state := .running }
  let s := { s with nextTaskId := s.nextTaskId + 1 }
  let s := s.onCpu 0 fun k => { k with current := some 0, stackOwner := some 0 }
  match s.newTask 1 0 true stack with
  | (none, s) => (.error .enomem, s)
  | (some i, s) => (.ok (), s.onCpu 0 fun k => { k with idle := some i })

/-- The section of `x86_64_smp_start` for processor `c`. -/
def smpStart (s : SchedState) (c stack : Nat) : Except Errno Unit × SchedState :=
  match s.newTask 1 c true stack with
  | (none, s) => (.error .enomem, s)
  | (some i, s) =>
      let s := s.onCpu c fun k => { k with idle := some i, current := some i }
      (.ok (), s.onTask i fun t => { t with state := .running })

/-- The processor `c` comes up in `ap_main`. -/
def apMain (s : SchedState) (c : Nat) : SchedState :=
  match (s.cpus c).idle with
  | none => s
  | some i =>
      let s := s.onCpu c fun k => { k with current := some i, stackOwner := some i, online := true }
      s.onTask i fun t => { t with state := .running }

/-- `k_task_create`: a new kernel task on the processor asked for. -/
def kTaskCreate (s : SchedState) (weight cpu stack : Nat) : Except Errno Nat × SchedState :=
  if weight = 0 ∨ 4096 < weight ∨ s.discovered ≤ cpu ∨ (s.cpus cpu).online = false then
    (.error .einval, s)
  else
    match s.newTask weight cpu false stack with
    | (none, s) => (.error .enomem, s)
    | (some i, s) => (.ok (s.tasks i).id, s)

/-! ### `kernel_schedule` -/

/-- The charges at the head of `kernel_schedule`. -/
def account (s : SchedState) (c : Nat) (old : TaskSlot) (forced : Bool) : SchedState :=
  if forced then
    s.onTask old fun t =>
      if t.state = .running ∧ t.idle = false ∧ t.preemptDepth = 0 then t.charge else t
  else
    let s := s.onTask old fun t =>
      let t := { t with runtime := t.runtime + 1 }
      if t.idle then t else t.charge
    s.onCpu c fun k => { k with slice := k.slice - 1 }

/-- A sleeper of processor `c` whose time has come. -/
def due (s : SchedState) (c now : Nat) (i : TaskSlot) : Prop :=
  (s.tasks i).cpu = c ∧ (s.tasks i).state = .sleeping ∧ (s.tasks i).wake ≤ now

instance (s : SchedState) (c now : Nat) (i : TaskSlot) : Decidable (s.due c now i) :=
  inferInstanceAs (Decidable (_ ∧ _ ∧ _))

/-- The loop over the sleepers; the flag is `sleepers`. -/
def wakeSleepers (s : SchedState) (c now : Nat) : SchedState × Bool :=
  (List.finRange kMaxTasks).foldl
    (fun r i =>
      if r.1.due c now i then (r.1.taskReady i, r.2)
      else (r.1, r.2 || decide ((r.1.tasks i).cpu = c ∧ (r.1.tasks i).state = .sleeping)))
    (s, false)

/-- The current task keeps its turn. -/
def stays (s : SchedState) (c : Nat) (old : TaskSlot) (forced : Bool) : Prop :=
  (s.tasks old).state = .running ∧
    ((s.tasks old).preemptDepth ≠ 0 ∨
      forced = false ∧ (s.cpus c).slice ≠ 0 ∧ (s.tasks old).idle = false)

instance (s : SchedState) (c : Nat) (old : TaskSlot) (forced : Bool) :
    Decidable (s.stays c old forced) :=
  inferInstanceAs (Decidable (_ ∧ _))

/-- A running task goes back to the ready ones. -/
def demote (s : SchedState) (old : TaskSlot) : SchedState :=
  if (s.tasks old).state = .running then
    (s.onTask old fun t => { t with state := .ready }).onProcessOf old fun p =>
      { p with state := .ready }
  else s

/-- The candidates of `kernel_schedule`. -/
def candidate (s : SchedState) (c : Nat) (i : TaskSlot) : Prop :=
  (s.tasks i).cpu = c ∧ (s.tasks i).state = .ready ∧ (s.tasks i).idle = false

instance (s : SchedState) (c : Nat) (i : TaskSlot) : Decidable (s.candidate c i) :=
  inferInstanceAs (Decidable (_ ∧ _ ∧ _))

/-- `t` goes before the best task so far. -/
def before (t best : Task) : Prop :=
  t.vruntime < best.vruntime ∨ t.vruntime = best.vruntime ∧ t.id < best.id

instance (t best : Task) : Decidable (before t best) := inferInstanceAs (Decidable (_ ∨ _))

/-- One round of the loop that looks for the best candidate and adds up the weights. -/
def pickStep (s : SchedState) (c : Nat) (r : Option TaskSlot × Nat) (i : TaskSlot) :
    Option TaskSlot × Nat :=
  if s.candidate c i then
    let best :=
      match r.1 with
      | none => i
      | some b => if before (s.tasks i) (s.tasks b) then i else b
    (some best, r.2 + (s.tasks i).weight)
  else r

/-- The loop of `kernel_schedule` over the slots: the slot picked and its virtual runtime. -/
def pick (s : SchedState) (c : Nat) : Option TaskSlot × Nat :=
  (List.finRange kMaxTasks).foldl (s.pickStep c) (none, 0)

/-- `cpu->slice` for a task of this weight among candidates of these weights. -/
def sliceFor (weight weights : Nat) : Nat :=
  let slice := if weights = 0 then 1 else (8 * weight + weights - 1) / weights
  max 1 (min slice 8)

/-- `best` is the one that runs. -/
def promote (s : SchedState) (c : Nat) (best : TaskSlot) (sleepers : Bool) : SchedState :=
  let s := s.onCpu c fun k => { k with workPending := !(s.tasks best).idle || sleepers }
  let s := s.onTask best fun t => { t with state := .running }
  s.onProcessOf best fun p => { p with state := .running }

/-- The processor goes to `best`. -/
def dispatch (s : SchedState) (c : Nat) (old best : TaskSlot) (weights : Nat) (sleepers : Bool) :
    SchedState :=
  let s := (s.promote c best sleepers).cpuFloor c
  let s := s.onCpu c fun k =>
    { k with slice := sliceFor (s.tasks best).weight weights, leaving := false }
  if best = old then s
  else
    -- `arch_task_switch`; `stack_owner` follows when the processor has left the old stack
    let s := s.onCpu c fun k => { k with current := some best, switches := k.switches + 1 }
    s.onTask best fun t => { t with switches := t.switches + 1 }

/-- From the best candidate on. -/
def reschedule (s : SchedState) (c : Nat) (old : TaskSlot) (sleepers : Bool) : SchedState :=
  match (s.pick c).1.or (s.cpus c).idle with
  | none => s
  | some best => s.dispatch c old best (s.pick c).2 sleepers

/-- The part of `kernel_schedule` under `sched_lock`. -/
def scheduleLocked (s : SchedState) (c : Nat) (old : TaskSlot) (forced : Bool) (now : Nat) :
    SchedState :=
  let r := (s.account c old forced).wakeSleepers c now
  if r.1.stays c old forced then r.1 else (r.1.demote old).reschedule c old r.2

/-- `kernel_schedule`: the next task of the processor. -/
def kernelSchedule (s : SchedState) (c : Nat) (forced : Bool) (now : Nat) : SchedState :=
  match (s.cpus c).current with
  | none => s
  | some old =>
      if forced = false ∧ (s.tasks old).idle = true then
        let s := s.onCpu c fun k => { k with idleTicks := k.idleTicks + 1 }
        -- an idle processor stays away from the lock until there is work
        if (s.cpus c).workPending then s.scheduleLocked c old forced now
        else s.onTask old fun t => { t with runtime := t.runtime + 1 }
      else s.scheduleLocked c old forced now

/-- The interrupt returns on the stack of the current task. -/
def stackSwitched (s : SchedState) (c : Nat) : SchedState :=
  s.onCpu c fun k => { k with stackOwner := k.current }

/-! ### Calls of the current task -/

/-- The task that runs on processor `c` makes a call; a task that has given up its turn makes
none. -/
def self (s : SchedState) (c : Nat) (f : TaskSlot → SchedState) : SchedState :=
  match (s.cpus c).current with
  | none => s
  | some i => if (s.cpus c).leaving then s else f i

/-- The answer of a call that can block; `none` is none yet. -/
abbrev Reply := Option (Except Errno Unit)

/-- A call with an answer, of the task that runs on processor `c`. -/
def call (s : SchedState) (c : Nat) (f : TaskSlot → Reply × SchedState) : Reply × SchedState :=
  match (s.cpus c).current with
  | none => (some (.error .einval), s)
  | some i => if (s.cpus c).leaving then (none, s) else f i

/-- The task is on its way to `kernel_schedule`. -/
def leave (s : SchedState) (c : Nat) : SchedState := s.onCpu c fun k => { k with leaving := true }

/-- `k_preempt_disable` of the running task. -/
def kPreemptDisable (s : SchedState) (c : Nat) : SchedState :=
  s.self c fun i =>
    s.onTask i fun t => { t with preemptDepth := (t.preemptDepth + 1) % 2 ^ 32 }

/-- `k_preempt_enable` of the running task. -/
def kPreemptEnable (s : SchedState) (c : Nat) : SchedState :=
  s.self c fun i => s.onTask i fun t => { t with preemptDepth := t.preemptDepth - 1 }

/-- `k_sleep` up to its `k_yield`. -/
def kSleep (s : SchedState) (c ms now : Nat) : SchedState :=
  s.self c fun i =>
    if ms = 0 ∨ (s.tasks i).preemptDepth ≠ 0 then s
    else
      let ticks := (min ms 86400000 * s.timerHz + 999) / 1000
      (s.onTask i fun t => { t with wake := now + ticks, state := .sleeping }).leave c

/-- The current task dies with this exit code, its process with it. -/
def die (s : SchedState) (c : Nat) (i : TaskSlot) (code : Int) (f : KProcess → KProcess) :
    SchedState :=
  ((s.onTask i fun t => { t with exitCode := code, state := .zombie }).onProcessOf i fun p =>
    { f p with exitCode := code, state := .zombie }).leave c

/-- The boot task and the idle tasks do not come back from the attempt (`kernel_halt`). -/
def kTaskExit (s : SchedState) (c : Nat) (code : Int) : SchedState :=
  s.self c fun i =>
    if (s.tasks i).idle ∨ (s.tasks i).id = 1 then s
    else
      (s.onTask i fun t => { t with preemptDepth := 0 }).die c i code id

/-- A fault of user code that nothing resolves, in `x86_64_irq_dispatch_inner`. -/
def userFault (s : SchedState) (c vector ip address : Nat) : SchedState :=
  s.self c fun i =>
    if (s.tasks i).process = none then s
    else
      s.die c i (-(128 + vector)) fun p =>
        { p with
          faultVector := vector
          faultIp := ip
          faultAddress := if vector = 14 then address else 0 }

/-- A return to user code with a bad frame, in `x86_64_irq_dispatch`. -/
def badReturn (s : SchedState) (c ip sp : Nat) : SchedState :=
  s.self c fun i =>
    if (s.tasks i).process = none then s
    else
      (s.onTask i fun t => { t with preemptDepth := 0 }).die c i (-141) fun p =>
        { p with faultVector := 13, faultAddress := sp, faultIp := ip }

/-! ### Reaping -/

/-- The slot is empty again. -/
def freeTask (s : SchedState) (i : TaskSlot) : SchedState := s.onTask i fun _ => {}

/-- Some processor runs the task or is still on its stack. -/
def onCpuNow (s : SchedState) (i : TaskSlot) : Bool :=
  (List.range s.discovered).any fun c =>
    decide ((s.cpus c).current = some i ∨ (s.cpus c).stackOwner = some i)

/-- `k_task_reap`: the exit code of a zombie, whose slot is freed. -/
def kTaskReap (s : SchedState) (id : Nat) : Except Errno Int × SchedState :=
  match (List.finRange kMaxTasks).find? fun i =>
      (s.tasks i).state ≠ .unused ∧ (s.tasks i).id = id with
  | none => (.error .enoent, s)
  | some i =>
      if (s.tasks i).state ≠ .zombie then (.error .ebusy, s)
      else if s.onCpuNow i then (.error .ebusy, s)
      else if (s.tasks i).process.isSome then (.error .eperm, s)
      else (.ok (s.tasks i).exitCode, s.freeTask i)

/-! ### Mutexes and semaphores -/

/-- `wake_object`: every task that waits for the object is made ready. -/
def wakeObject (s : SchedState) (o : WaitObject) : SchedState :=
  (List.finRange kMaxTasks).foldl
    (fun s i =>
      if (s.tasks i).state = .blocked ∧ (s.tasks i).waitObject = some o then s.taskReady i else s)
    s

/-- The current task blocks on `o`. -/
def block (s : SchedState) (c : Nat) (i : TaskSlot) (o : WaitObject) : SchedState :=
  (s.onTask i fun t => { t with waitObject := some o, state := .blocked }).leave c

/-- The mutex with another owner; zero for none. -/
def setMutex (s : SchedState) (m owner : Nat) : SchedState :=
  { s with mutexes := Function.update s.mutexes m owner }

/-- The semaphore with another count. -/
def setSemaphore (s : SchedState) (n count : Nat) : SchedState :=
  { s with semaphores := Function.update s.semaphores n count }

/-- `k_mutex_trylock`. -/
def kMutexTrylock (s : SchedState) (c m : Nat) : Reply × SchedState :=
  s.call c fun i =>
    if s.mutexes m = (s.tasks i).id then (some (.error .edeadlk), s)
    else if s.mutexes m ≠ 0 then (some (.error .ebusy), s)
    else (some (.ok ()), s.setMutex m (s.tasks i).id)

/-- One round of the loop of `k_mutex_lock`. -/
def kMutexLock (s : SchedState) (c m : Nat) : Reply × SchedState :=
  s.call c fun i =>
    if s.mutexes m = 0 then (some (.ok ()), s.setMutex m (s.tasks i).id)
    else if s.mutexes m = (s.tasks i).id ∨ (s.tasks i).preemptDepth ≠ 0 then
      (some (.error .edeadlk), s)
    else (none, s.block c i (.mutex m))

/-- `k_mutex_unlock`. -/
def kMutexUnlock (s : SchedState) (c m : Nat) : Reply × SchedState :=
  s.call c fun i =>
    if s.mutexes m = 0 ∨ s.mutexes m ≠ (s.tasks i).id then (some (.error .eperm), s)
    else (some (.ok ()), (s.setMutex m 0).wakeObject (.mutex m))

/-- `k_sem_init`. -/
def kSemInit (s : SchedState) (n count : Nat) : SchedState := s.setSemaphore n count

/-- `k_sem_trywait`. -/
def kSemTrywait (s : SchedState) (n : Nat) : Except Errno Unit × SchedState :=
  if s.semaphores n = 0 then (.error .eagain, s)
  else (.ok (), s.setSemaphore n (s.semaphores n - 1))

/-- One round of the loop of `k_sem_wait`. -/
def kSemWait (s : SchedState) (c n : Nat) : Reply × SchedState :=
  s.call c fun i =>
    if s.semaphores n ≠ 0 then (some (.ok ()), s.setSemaphore n (s.semaphores n - 1))
    else if (s.tasks i).preemptDepth ≠ 0 then (some (.error .edeadlk), s)
    else (none, s.block c i (.semaphore n))

/-- `k_sem_post`: a count more, up to the limit, and every waiter woken. -/
def kSemPost (s : SchedState) (n : Nat) : SchedState :=
  (if s.semaphores n ≠ 0xffffffff then s.setSemaphore n (s.semaphores n + 1) else s).wakeObject
    (.semaphore n)

end SchedState

end Efishell
