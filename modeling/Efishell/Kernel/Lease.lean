import Efishell.Kernel.SchedRun
import Efishell.Fs.Partition
import Efishell.Storage.Write

/-!
# Kernel — partitions and their leases

`k_vfs_mount_disks`, which fills `partitions`, and the disk part of `admin_operation`, by which a
Ring-1 process leases a partition, reads and writes it and gives it back.  Both the scan and the
requests work on the table of `SchedState`, so that the releases of `process_resources_release` are
those of the scheduler's model.

Whether `fat_mount` and `native_probe` recognise a file system is left to a `Probe`: they read the
disk and add at most one volume.  A request is one step: `process_mutex` is held from its first
check to its last, and the caller returns to user mode, where a kill takes effect, only after it.
-/

namespace Efishell

/-- `MAX_PARTITIONS`. -/
def maxPartitions : Nat := 128

/-- A mounted volume, and the sectors it was given. -/
structure Volume where
  disk : Nat
  start : Nat
  length : Nat
  number : Nat
  native : Bool
  readOnly : Bool
  deriving DecidableEq, Repr

/-- The answers of `fat_mount` and `native_probe` for the sectors `[start, start + length)` of a
disk, with the volumes mounted so far: whether one more is mounted, and the commands sent by
then. -/
structure Probe where
  fat : Disk → List Volume → (start length number : Nat) → Bool × Nat
  native : Disk → List Volume → (start length number : Nat) → Bool × Nat

/-- Where the partitions of a disk come from. -/
inductive Table where
  | none
  | mbr
  /-- The header at `headerLba` was accepted. -/
  | gpt (headerLba : Nat)
  deriving DecidableEq, Repr

/-- The scheduler's state with the disks and the mounts. -/
structure System where
  sched : SchedState
  drives : Nat → Drive
  driveCount : Nat
  /-- `disk_scanned`. -/
  scanned : Nat → Bool
  volumes : List Volume
  /-- What the scan of each disk found. -/
  tables : Nat → Table

/-! ### The scan -/

/-- An entry of sector 0 says that the disk has a GPT. -/
def protectiveMbr (sector : Bytes) : Bool :=
  (List.range 4).any fun j => sector (446 + 16 * j + 4) == 0xee

/-- The partitions of a disk, and whether its backup GPT had to be used. -/
def partitionTable (sector : Bytes) : Io Errno Disk (Table × Bool × List PartitionEntry) := do
  let d ← Io.get
  if protectiveMbr sector then
    match ← Io.attempt (gptParse 1) with
    | .ok parts => return (.gpt 1, false, parts)
    | .error e =>
        if 2 < d.geo.sectors then do
          let parts ← gptParse (d.geo.sectors - 1)
          return (.gpt (d.geo.sectors - 1), true, parts)
        else Io.fail e
  else do
    let parts ← mbrParse sector
    return (.mbr, false, parts)

namespace System

/-- One drive changed. -/
def onDrive (m : System) (k : Nat) (f : Drive → Drive) : System :=
  { m with drives := Function.update m.drives k (f (m.drives k)) }

/-- Another partition table. -/
def setPartitions (m : System) (l : List PartitionInfo) : System :=
  { m with sched := { m.sched with partitions := l } }

/-- The disk has been read from. -/
def setDisk (m : System) (k : Nat) (disk : Disk) : System := m.onDrive k fun d => { d with disk }

/-- A probe of disk `id` that mounts a volume or does not. -/
def probed (m : System) (id start length number : Nat) (native readOnly : Bool)
    (answer : Bool × Nat) : System :=
  let m := m.setDisk id { (m.drives id).disk with clock := answer.2 }
  if answer.1 then
    { m with volumes := m.volumes ++ [⟨id, start, length, number, native, readOnly⟩] }
  else m

/-- `fat_mount` of one partition. -/
def fatMount (probe : Probe) (m : System) (id start length number : Nat) (readOnly : Bool) :
    System :=
  m.probed id start length number false readOnly
    (probe.fat (m.drives id).disk m.volumes start length number)

/-- `native_probe` of one partition. -/
def nativeProbe (probe : Probe) (m : System) (id start length number : Nat) (readOnly : Bool) :
    System :=
  m.probed id start length number true readOnly
    (probe.native (m.drives id).disk m.volumes start length number)

/-- One round of the loop over the partitions of disk `id`. -/
def mountPartition (probe : Probe) (id : Nat) (recovered : Bool) (m : System) (p : PartitionEntry) :
    System :=
  let index := m.sched.partitions.length
  let readOnly := recovered || p.readOnly
  let m :=
    if index < maxPartitions then
      m.setPartitions (m.sched.partitions ++
        [{ disk := id
           number := p.number
           sectorSize := (m.drives id).disk.geo.sectorSize
           start := p.start
           sectors := p.length
           readOnly
           mounted := false
           ownerPid := 0
           failed := false }])
    else m
  let prior := m.volumes.length
  let m := m.fatMount probe id p.start p.length p.number readOnly
  let m :=
    if m.volumes.length = prior then
      m.nativeProbe probe id p.start p.length p.number readOnly else m
  m.setPartitions (m.sched.partitions.modify index fun q =>
    { q with mounted := decide (prior < m.volumes.length) })

/-- One round of the loop over the disks. -/
def mountDisk (probe : Probe) (m : System) (id : Nat) : System :=
  let d := (m.drives id).disk
  if m.scanned id ∨ d.online = false then m
  else
    let m := { m with scanned := Function.update m.scanned id true }
    if d.ram then m
    else
      match kDiskRead 0 1 4096 d with
      | (.error _, d) => m.setDisk id d
      | (.ok sector, d) =>
          if sector 510 ≠ 0x55 ∨ sector 511 ≠ 0xaa then m.setDisk id d
          else
            match partitionTable sector d with
            | (.ok (table, recovered, p :: parts), d) =>
                (p :: parts).foldl (mountPartition probe id recovered)
                  { m.setDisk id d with tables := Function.update m.tables id table }
            | (.ok (_, _, []), d) =>
                let m := m.setDisk id d
                -- a disk without a table may be one volume
                if protectiveMbr sector then m else m.fatMount probe id 0 d.geo.sectors 0 false
            | (.error _, d) =>
                let m := m.setDisk id d
                if protectiveMbr sector then m else m.fatMount probe id 0 d.geo.sectors 0 true

/-- `k_vfs_mount_disks`: every drive, in order. -/
def kVfsMountDisks (probe : Probe) (m : System) : System :=
  (List.range m.driveCount).foldl (mountDisk probe) m

end System

/-! ### Requests -/

/-- The operations of `K_SYS_ADMIN` that name a disk or a partition. -/
inductive AdminOperation where
  | diskRead | partClaim | partRead | partWrite | partRelease
  deriving DecidableEq, Repr

/-- `k_admin_request`, with what the checks of the caller's memory and the copies answer. -/
structure AdminRequest where
  operation : AdminOperation
  resource : Nat
  address : Nat
  length : Nat
  /-- `caller_uuid` is that of the caller. -/
  uuidOk : Bool
  /-- `version`, `size` and `flags` are right. -/
  formOk : Bool
  /-- `k_mutex_lock` of `process_mutex`. -/
  lock : Except Errno Unit
  /-- `k_as_check` of the buffer. -/
  check : Except Errno Unit
  /-- `k_copy_from_user`. -/
  copyIn : Except Errno Bytes
  /-- `k_copy_to_user`. -/
  copyOut : Except Errno Unit

/-- A write is not done before it is flushed. -/
def diskWriteThrough (lba count : Nat) (p : Bytes) (bytes : Nat) : Io Errno Drive Unit := do
  diskWriteFs lba count p bytes
  diskFlush

namespace System

/-- One record of the partition table changed. -/
def onPartition (m : System) (i : Nat) (f : PartitionInfo → PartitionInfo) : System :=
  m.setPartitions (m.sched.partitions.modify i f)

/-- The end of a request that writes partition `i` of disk `k`. -/
def adminWrite (m : System) (k i lba count : Nat) (p : Bytes) (bytes : Nat) :
    Except Errno Unit × System :=
  match diskWriteThrough lba count p bytes (m.drives k) with
  | (.ok (), d) => (.ok (), m.onDrive k fun _ => d)
  | (.error e, d) =>
      (.error e, (m.onDrive k fun _ => d).onPartition i fun q => { q with failed := true })

/-- The end of a request that reads disk `k`. -/
def adminRead (m : System) (k lba count bytes : Nat) (r : AdminRequest) :
    Except Errno Unit × System :=
  match kDiskRead lba count bytes (m.drives k).disk with
  | (.error e, d) => (.error e, m.setDisk k d)
  | (.ok _, d) => (r.copyOut, m.setDisk k d)

/-- From the check of the range on: `limit` sectors from `start` on of disk `k` can be reached. -/
def adminTransfer (m : System) (k start limit : Nat) (r : AdminRequest) :
    Except Errno Unit × System :=
  let sector := (m.drives k).disk.geo.sectorSize
  if r.length = 0 ∨ 4096 < r.length ∨ r.length % sector ≠ 0 ∨ limit ≤ r.address ∨
      limit - r.address < r.length / sector then (.error .einval, m)
  else
    match r.check with
    | .error e => (.error e, m)
    | .ok () =>
        if r.operation = .partWrite then
          match r.copyIn with
          | .error e => (.error e, m)
          | .ok buffer =>
              m.adminWrite k r.resource (start + r.address) (r.length / sector) buffer r.length
        else m.adminRead k (start + r.address) (r.length / sector) r.length r

/-- The disk part of `admin_operation` for the process with identifier `pid`. -/
def adminDisk (m : System) (pid : Nat) (r : AdminRequest) : Except Errno Unit × System :=
  if r.operation = .diskRead then
    if m.driveCount ≤ r.resource then (.error .enoent, m)
    else m.adminTransfer r.resource 0 (m.drives r.resource).disk.geo.sectors r
  else
    match m.sched.partitions[r.resource]? with
    | none => (.error .enoent, m)
    | some part =>
        if r.operation = .partClaim then
          if part.readOnly || part.mounted || part.failed then (.error .erofs, m)
          else if part.ownerPid ≠ 0 ∧ part.ownerPid ≠ pid then (.error .ebusy, m)
          else (.ok (), m.onPartition r.resource fun q => { q with ownerPid := pid })
        else if part.ownerPid ≠ pid then (.error .eperm, m)
        else if r.operation = .partRelease then
          (.ok (), m.onPartition r.resource fun q => { q with ownerPid := 0 })
        else if part.failed then (.error .erofs, m)
        else m.adminTransfer part.disk part.start part.sectors r

/-- The process whose task executes on processor `c`. -/
def caller (m : System) (c : Nat) : Option ProcessSlot :=
  match (m.sched.cpus c).current with
  | none => none
  | some i => if (m.sched.cpus c).leaving then none else (m.sched.tasks i).process

/-- `admin_operation` for the caller on processor `c`. -/
def adminOperation (m : System) (c : Nat) (r : AdminRequest) : Except Errno Unit × System :=
  match m.caller c with
  | none => (.error .einval, m)
  | some p =>
      if (m.sched.processes p).ring1 = false ∨ r.uuidOk = false then (.error .eperm, m)
      else if r.formOk = false then (.error .einval, m)
      else
        match r.lock with
        | .error e => (.error e, m)
        | .ok () => m.adminDisk (m.sched.processes p).id r

/-! ### Runs -/

/-- What happens: an event of the scheduler, or a request of the process on processor `c`. -/
inductive Event where
  | sched (e : SchedEvent)
  | admin (c : Nat) (r : AdminRequest)

/-- The event can happen now. -/
def Enabled (m : System) : Event → Prop
  | .sched e => m.sched.Enabled e
  | .admin c _ => (m.sched.cpus c).online = true ∧ m.sched.destroying = none

/-- What the event does. -/
def step (m : System) : Event → System
  | .sched e => { m with sched := m.sched.step e }
  | .admin c r => (m.adminOperation c r).2

/-- Events, one after the other. -/
inductive Steps : System → System → Prop where
  | refl (m : System) : Steps m m
  | next {m m' : System} {e : Event} : Steps m m' → m'.Enabled e → Steps m (m'.step e)

/-- Before the scan: the scheduler has started, with any drives. -/
structure Fresh (m : System) : Prop where
  sched : ∃ discovered timerHz stack, 0 < discovered ∧ stack ≠ 0 ∧
    m.sched = SchedState.initial discovered timerHz stack
  scanned : ∀ k, m.scanned k = false
  volumes : m.volumes = []
  tables : ∀ k, m.tables k = .none

end System

end Efishell
