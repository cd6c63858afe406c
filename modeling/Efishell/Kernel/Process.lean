import Efishell.Kernel.Sched

/-!
# Kernel — processes

The functions of `process.c` that create, start, control and destroy processes, again one section
under `sched_lock` each.  They run under `process_mutex`, which also keeps them out of the middle of
`process_destroy_locked` (`SchedState.destroying`); the start, the loader and the address spaces of
a process are left out where no state of a task depends on them.
-/

namespace Efishell

instance : NeZero maxProcesses := ⟨by decide⟩

namespace SchedState

/-- `process_by_pid`: the used slot with this pid. -/
def processByPid (s : SchedState) (pid : Nat) : Option ProcessSlot :=
  (List.finRange maxProcesses).find? fun p =>
    decide ((s.processes p).used = true ∧ (s.processes p).id = pid)

/-- `process_task`: the first task of the process. -/
def processTask (s : SchedState) (p : ProcessSlot) : Option TaskSlot :=
  (List.finRange kMaxTasks).find? fun i =>
    decide ((s.tasks i).state ≠ .unused ∧ (s.tasks i).process = some p)

/-- The first section of `process_create_locked`; `execution_class` and `parent` come from
`k_process_launch`. -/
def processCreateLocked (s : SchedState) (ring1 : Bool) : Option ProcessSlot × SchedState :=
  if s.nextProcessId = 0 then (none, s)
  else
    match (List.finRange maxProcesses).find? fun p => !(s.processes p).used with
    | none => (none, s)
    | some p =>
        let id := s.nextProcessId
        let s := { s with nextProcessId := (id + 1) % 2 ^ 32 }
        (some p, s.onProcess p fun _ => { used := true, id, ring1 })

/-- `k_as_create` found no memory, in `process_create_locked`. -/
def processCreateFailed (s : SchedState) (p : ProcessSlot) : SchedState :=
  if (s.processes p).loaded ∨ (s.processes p).taskId ≠ 0 then s
  else s.onProcess p fun q => { q with used := false }

/-- `rief_load_locked` succeeds. -/
def riefLoaded (s : SchedState) (p : ProcessSlot) : SchedState :=
  if (s.processes p).used = false ∨ (s.processes p).loaded then s
  else s.onProcess p fun q => { q with loaded := true }

/-- The load of processor `c` as `process_start_locked` measures it. -/
def load (s : SchedState) (c : Nat) : Nat :=
  (List.finRange kMaxTasks).foldl
    (fun n i =>
      let t := s.tasks i
      if t.cpu = c ∧ t.idle = false ∧ t.state ≠ .unused ∧ t.state ≠ .zombie then n + t.weight
      else n)
    0

/-- The choice of a processor for `K_CPU_AUTO`. -/
def leastLoaded (s : SchedState) : Nat :=
  ((List.range s.discovered).foldl
    (fun r c => if (s.cpus c).online ∧ s.load c < r.1 then (s.load c, c) else r)
    (2 ^ 64 - 1, 0)).2

/-- The section of `process_start_locked`; no processor is `K_CPU_AUTO`. -/
def processStartLocked (s : SchedState) (p : ProcessSlot) (cpu : Option Nat) (stack : Nat) :
    Except Errno Nat × SchedState :=
  if (s.processes p).used = false ∨ (s.processes p).loaded = false ∨ (s.processes p).taskId ≠ 0 then
    (.error .einval, s)
  else
    let cpu := cpu.getD s.leastLoaded
    if s.discovered ≤ cpu ∨ (s.cpus cpu).online = false then (.error .einval, s)
    else
      match s.newTask 1024 cpu false stack with
      | (none, s) => (.error .enomem, s)
      | (some i, s) =>
          let id := (s.tasks i).id
          let s := s.onTask i fun t => { t with process := some p }
          (.ok id, s.onProcess p fun q => { q with taskId := id, state := .ready })

/-- `process_resources_release`: the services and the partition leases of the process are given
back. -/
def processResourcesRelease (s : SchedState) (pid : Nat) : SchedState :=
  { s with
    services := s.services.map fun v => if v.pid = pid then ⟨[], 0, 0⟩ else v
    partitions := s.partitions.map fun v => if v.ownerPid = pid then { v with ownerPid := 0 } else v
    inputOwner := if s.inputOwner = pid then 0 else s.inputOwner }

/-- The loop of `process_destroy_locked` over the tasks; `none` is `K_EBUSY`. -/
def freeTasksOf (s : SchedState) (p : ProcessSlot) : List TaskSlot → Bool × SchedState
  | [] => (true, s)
  | i :: rest =>
      if (s.tasks i).process = some p then
        if s.onCpuNow i then (false, s) else (s.freeTask i).freeTasksOf p rest
      else s.freeTasksOf p rest

/-- The first section of `process_destroy_locked`. -/
def processDestroyLocked (s : SchedState) (p : ProcessSlot) : Except Errno Unit × SchedState :=
  if (s.processes p).used = false then (.error .einval, s)
  else if (s.processes p).taskId ≠ 0 ∧ (s.processes p).state ≠ .zombie then (.error .ebusy, s)
  else
    let r :=
      if (s.processes p).taskId ≠ 0 then s.freeTasksOf p (List.finRange kMaxTasks) else (true, s)
    if r.1 = false then (.error .ebusy, r.2)
    else
      let s := r.2.processResourcesRelease (s.processes p).id
      (.ok (), { s with destroying := some p })

/-- The end of `process_destroy_locked`, after `k_as_destroy`. -/
def processDestroyed (s : SchedState) (asDestroyed : Bool) : SchedState :=
  match s.destroying with
  | none => s
  | some p =>
      let s := { s with destroying := none }
      if asDestroyed then s.onProcess p fun _ => {} else s

/-- `process_return_control`: what was asked of the task happens as it returns to Ring 3. -/
def processReturnControl (s : SchedState) (c : Nat) : SchedState :=
  s.self c fun i =>
    match (s.tasks i).process, (s.tasks i).controlRequest with
    | some p, some request =>
        let s := s.onTask i fun t => { t with controlRequest := none, preemptDepth := 0 }
        match request with
        | .kill => (s.die c i (-143) id).processResourcesRelease (s.processes p).id
        | .stop =>
            ((s.onTask i fun t => { t with state := .stopped }).onProcess p fun q =>
              { q with state := .stopped }).leave c
        | .continue => s.leave c
    | _, _ => s

/-- `task_ready(t); p->state = t->state`. -/
def processReady (s : SchedState) (p : ProcessSlot) (i : TaskSlot) : SchedState :=
  (s.taskReady i).onProcess p fun q => { q with state := .ready }

/-- `process_control_locked`: kill, stop or continue. -/
def processControlLocked (s : SchedState) (pid : Nat) (op : Control) :
    Except Errno Unit × SchedState :=
  match (s.processByPid pid).bind fun p => (s.processTask p).map fun i => (p, i) with
  | none => (.error .enoent, s)
  | some (p, i) =>
      if (s.tasks i).state = .zombie then (.error .enoent, s)
      else
        let kill := (s.tasks i).controlRequest = some .kill
        let s :=
          if op = .continue then
            let s := if kill then s else s.onTask i fun t => { t with controlRequest := none }
            if (s.tasks i).state = .stopped then s.processReady p i else s
          else
            let s :=
              if op = .kill ∨ ¬ kill then s.onTask i fun t => { t with controlRequest := some op }
              else s
            -- a task blocked in the kernel is left to finish what it waits for
            if (s.tasks i).state = .stopped ∨ (s.tasks i).state = .sleeping then s.processReady p i
            else s
        (.ok (), s.onCpu (s.tasks i).cpu fun k => { k with workPending := true })

end SchedState

end Efishell
