import Efishell.Kernel.SchedRun

/-!
# Kernel — messages, grants and services

`k_ipc_send`, `k_ipc_receive` and `k_ipc_grant` of `kernel.c`, and `service_register` and
`k_service_lookup` of `process.c`, again one section under `sched_lock` each.  A mailbox is a ring
in its task; a grant is an entry of an array of the process, from which entries are taken by moving
the last one to their place.
-/

namespace Efishell

/-- `K_IPC_BYTES`. -/
def kIpcBytes : Nat := 128

/-- `MAIL_DEPTH`. -/
def mailDepth : Nat := 16

/-- `ARRAY_LEN(p->grants)`. -/
def grantMax : Nat := 16

/-- What `k_ipc_send` stores for `n` bytes of `data`. -/
def Message.of (sender : Nat) (data : Bytes) (n : Nat) : Message :=
  ⟨sender, n, memCopy (fun _ => 0) 0 data 0 n⟩

/-- A message comes in. -/
def Task.deliver (t : Task) (msg : Message) : Task :=
  { t with
    mail := Function.update t.mail ((t.mailHead + t.mailCount) % mailDepth) msg
    mailCount := t.mailCount + 1 }

/-- The oldest message is taken out. -/
def Task.take (t : Task) : Task :=
  { t with mailHead := (t.mailHead + 1) % mailDepth, mailCount := t.mailCount - 1 }

/-! ### Arrays of grants -/

/-- `grants[i] = grants[--grant_count]`. -/
def swapRemove (l : List Nat) (i : Nat) : List Nat := (l.set i (l.getLast?.getD 0)).dropLast

/-- The loop of `grant_locked` over the entries from `i` on that takes out the dead ones; `left`
entries are still to be looked at. -/
def pruneGrants (live : Nat → Bool) : Nat → List Nat → Nat → List Nat
  | 0, l, _ => l
  | left + 1, l, i =>
      if live (l.getD i 0) then pruneGrants live left l (i + 1)
      else pruneGrants live left (swapRemove l i) i

/-- The grants that `grant_locked` leaves. -/
def grantInto (live : Nat → Bool) (l : List Nat) (tid : Nat) : Except Errno Unit × List Nat :=
  if tid ∈ l then (.ok (), l)
  else
    let l := pruneGrants live l.length l 0
    if l.length = grantMax then (.error .e2big, l) else (.ok (), l ++ [tid])

/-- The first grant for `tid` is taken back. -/
def dropGrant (l : List Nat) (tid : Nat) : List Nat :=
  if tid ∈ l then swapRemove l (l.idxOf tid) else l

/-- The characters that `service_name` allows. -/
def serviceChar (c : UInt8) : Bool :=
  (97 ≤ c && c ≤ 122) || (65 ≤ c && c ≤ 90) || (48 ≤ c && c ≤ 57) || c == 95 || c == 45 || c == 46

/-- `service_name`: a name of 1 to 63 allowed characters. -/
def serviceName (name : List UInt8) : Bool :=
  !name.isEmpty && decide (name.length < 64) && name.all serviceChar

namespace SchedState

/-- A task that can get messages. -/
def receives (s : SchedState) (target : Nat) (i : TaskSlot) : Bool :=
  decide ((s.tasks i).id = target ∧ (s.tasks i).state ≠ .unused ∧ (s.tasks i).state ≠ .zombie)

/-- Some task with this identifier can. -/
def reachable (s : SchedState) (target : Nat) : Bool :=
  (List.finRange kMaxTasks).any (s.receives target)

/-- A call with an answer, of the task that runs on processor `c`; without one the answer is `e`. -/
def ask {α : Type} (s : SchedState) (c : Nat) (e : Errno)
    (f : TaskSlot → Except Errno α × SchedState) :
    Option (Except Errno α) × SchedState :=
  match (s.cpus c).current with
  | none => (some (.error e), s)
  | some i => if (s.cpus c).leaving then (none, s) else (some (f i).1, (f i).2)

/-- The sender may send to `target`. -/
def granted (s : SchedState) (me : TaskSlot) (target : Nat) : Bool :=
  match (s.tasks me).process with
  | none => true
  | some p => decide (target = (s.tasks me).id) || (s.processes p).grants.contains target

/-- `k_ipc_send` of the task that runs on processor `c`. -/
def kIpcSend (s : SchedState) (c target : Nat) (data : Bytes) (n : Nat) :
    Option (Except Errno Unit) × SchedState :=
  s.ask c .einval fun me =>
    if kIpcBytes < n then (.error .einval, s)
    else if s.granted me target = false then (.error .eperm, s)
    else
      match (List.finRange kMaxTasks).find? (s.receives target) with
      | none => (.error .enoent, s)
      | some i =>
          if (s.tasks i).mailCount = mailDepth then (.error .eagain, s)
          else (.ok (), s.onTask i fun t => t.deliver (.of (s.tasks me).id data n))

/-- `k_ipc_receive`: the oldest message of the caller's mailbox. -/
def kIpcReceive (s : SchedState) (c : Nat) : Option (Except Errno Message) × SchedState :=
  s.ask c .einval fun i =>
    if (s.tasks i).mailCount = 0 then (.error .eagain, s)
    else (.ok ((s.tasks i).mail (s.tasks i).mailHead), s.onTask i Task.take)

/-- The process with another list of grants. -/
def setGrants (s : SchedState) (p : ProcessSlot) (l : List Nat) : SchedState :=
  s.onProcess p fun q => { q with grants := l }

/-- Only the kernel grants. -/
def kIpcGrant (s : SchedState) (c pid target : Nat) : Except Errno Unit × SchedState :=
  if ((s.cpus c).current.bind fun i => (s.tasks i).process).isSome then (.error .eperm, s)
  else
    match s.processByPid pid with
    | none => (.error .enoent, s)
    | some p =>
        let l := (s.processes p).grants
        if target ∈ l then (.ok (), s)
        else if l.length = grantMax then (.error .e2big, s)
        else (.ok (), s.setGrants p (l ++ [target]))

/-- `grant_locked`: the process may send to `tid` from now on. -/
def grantLocked (s : SchedState) (p : ProcessSlot) (tid : Nat) : Except Errno Unit × SchedState :=
  let r := grantInto s.reachable (s.processes p).grants tid
  (r.1, s.setGrants p r.2)

/-! ### Services -/

/-- The owner of a service is gone. -/
def ownerGone (s : SchedState) (pid : Nat) : Bool :=
  match s.processByPid pid with
  | none => true
  | some p => decide ((s.processes p).state = .zombie)

/-- The loop of `service_register` over the entries from number `i` on: the answer if the name is
taken, the first free entry, and what the loop leaves. -/
def registerLoop (s : SchedState) (pid : Nat) (name : List UInt8) :
    List Service → Nat → Option Nat → Option (Except Errno Unit) × Option Nat × List Service
  | [], _, slot => (none, slot, [])
  | v :: rest, i, slot =>
      let v := if s.ownerGone v.pid then ⟨[], 0, 0⟩ else v
      if v.pid ≠ 0 ∧ v.name = name then
        (some (if v.pid = pid then .ok () else .error .eexist), slot, v :: rest)
      else
        let slot := if v.pid = 0 ∧ slot = none then some i else slot
        let r := s.registerLoop pid name rest (i + 1) slot
        (r.1, r.2.1, v :: r.2.2)

/-- The process that runs on `c` registers a service; nobody else makes this call. -/
def serviceRegister (s : SchedState) (c : Nat) (name : List UInt8) :
    Option (Except Errno Unit) × SchedState :=
  s.ask c .einval fun i =>
    match (s.tasks i).process with
    | none => (.error .einval, s)
    | some p =>
        if (s.processes p).ring1 = false then (.error .eperm, s)
        else if serviceName name = false then (.error .einval, s)
        else
          match s.registerLoop (s.processes p).id name s.services 0 none with
          | (some e, _, l) => (e, { s with services := l })
          | (none, none, l) => (.error .e2big, { s with services := l })
          | (none, some k, l) =>
              (.ok (),
                { s with services := l.set k ⟨name, (s.processes p).id, (s.processes p).taskId⟩ })

/-- The two grants of `k_service_lookup`: the service `v` of process `p` may answer the caller, and
the caller's process may ask.  On a failure the first one is taken back, unless it was there
before. -/
def lookupGrants (s : SchedState) (me : TaskSlot) (v : Service) (p : ProcessSlot) :
    Except Errno Nat × SchedState :=
  let id := (s.tasks me).id
  let already := (s.processes p).grants.contains id
  let r := s.grantLocked p id
  let r :=
    match r.1, (s.tasks me).process with
    | .ok (), some q => r.2.grantLocked q v.task
    | _, _ => r
  match r.1 with
  | .ok () => (.ok v.task, r.2)
  | .error e =>
      (.error e, if already then r.2 else r.2.setGrants p (dropGrant (r.2.processes p).grants id))

/-- The service of this name and its process, if it has one that is not dead. -/
def findService (s : SchedState) (name : List UInt8) : Option (Service × ProcessSlot) :=
  match s.services.find? fun v => decide (v.pid ≠ 0 ∧ v.name = name) with
  | none => none
  | some v =>
      match s.processByPid v.pid with
      | none => none
      | some p => if (s.processes p).state = .zombie then none else some (v, p)

/-- `k_service_lookup`: the task of the service, with grants in both directions. -/
def kServiceLookup (s : SchedState) (c : Nat) (name : List UInt8) :
    Option (Except Errno Nat) × SchedState :=
  if serviceName name = false then (some (.error .einval), s)
  else
    s.ask c .eperm fun me =>
      match s.findService name with
      | none => (.error .enoent, s)
      | some (v, p) => s.lookupGrants me v p

end SchedState

/-! ### Runs -/

/-- What happens: a step of the scheduler, or a call of this module on processor `c`. -/
inductive IpcEvent where
  | sched (e : SchedEvent)
  | send (c target : Nat) (data : Bytes) (n : Nat)
  | receive (c : Nat)
  | grant (c pid target : Nat)
  | register (c : Nat) (name : List UInt8)
  | lookup (c : Nat) (name : List UInt8)

namespace SchedState

/-- One section of the IPC calls, or of the scheduler. -/
def ipcStep (s : SchedState) : IpcEvent → SchedState
  | .sched e => s.step e
  | .send c target data n => (s.kIpcSend c target data n).2
  | .receive c => (s.kIpcReceive c).2
  | .grant c pid target => (s.kIpcGrant c pid target).2
  | .register c name => (s.serviceRegister c name).2
  | .lookup c name => (s.kServiceLookup c name).2

/-- A call is made by a processor that is up. -/
def IpcEnabled (s : SchedState) : IpcEvent → Prop
  | .sched e => s.Enabled e
  | .send c _ _ _ | .receive c | .grant c _ _ | .register c _ | .lookup c _ =>
      (s.cpus c).online = true

end SchedState

/-- What happened, the last step first, each with the state before it. -/
abbrev IpcHistory := List (SchedState × IpcEvent)

/-- `s` is reached by the steps of the history. -/
inductive IpcRun (s₀ : SchedState) : IpcHistory → SchedState → Prop where
  | nil : IpcRun s₀ [] s₀
  | cons {h : IpcHistory} {s : SchedState} {e : IpcEvent} :
      IpcRun s₀ h s → s.IpcEnabled e → IpcRun s₀ ((s, e) :: h) (s.ipcStep e)

end Efishell
