import Efishell.Kernel.LeaseScan

/-!
# Kernel — isolation of raw writes

After the scan, processes claim, read, write and release partitions while other processes are
created, killed, exit and are destroyed.  The layout that the scan left is never changed, a
partition is leased only while it is neither mounted nor read-only, and a process that was killed or
destroyed executes nothing any more, so that the lease it lost is never taken again in its name.

* `Leased.step`, `Leased.steps`: every event and every run keeps the leases apart.
* `lease_isolation`: a raw write goes to a partition that its process holds.
-/

namespace Efishell

namespace SchedState

variable {s s' : SchedState} {i : TaskSlot} {c pid : Nat} {p q : ProcessSlot}

/-! ### Identifiers -/

/-- Identifiers are given once. -/
structure Roll (s : SchedState) : Prop where
  next : s.nextProcessId < 2 ^ 32
  given : ∀ {p}, (s.processes p).used = true →
    0 < (s.processes p).id ∧ (s.nextProcessId = 0 ∨ (s.processes p).id < s.nextProcessId)
  unique : ∀ {p q}, (s.processes p).used = true → (s.processes q).used = true →
    (s.processes p).id = (s.processes q).id → p = q

/-- An identifier that was given is not given again. -/
theorem Roster.next_gt (h : s.Roster s') (hn : s.nextProcessId < 2 ^ 32) {n : Nat}
    (hlt : s.nextProcessId = 0 ∨ n < s.nextProcessId) :
    s'.nextProcessId = 0 ∨ n < s'.nextProcessId := by
  rcases h.next with he | ⟨h₀, he⟩
  · rwa [he]
  · rw [he]
    omega

/-- A process in use afterwards was in use before with the same identifier, or has the next one. -/
theorem Roster.cases (h : s.Roster s') (hu : (s'.processes p).used = true) :
    (s.processes p).used = true ∧ (s'.processes p).id = (s.processes p).id ∨
      s.nextProcessId ≠ 0 ∧ (s'.processes p).id = s.nextProcessId ∧
        s'.nextProcessId = (s.nextProcessId + 1) % 2 ^ 32 ∧ (s.processes p).used = false := by
  rcases h.processes p with ⟨h₁, h₂, -⟩ | h₁ | ⟨h₁, h₂, h₃, h₄⟩ | ⟨-, h₁, h₂⟩
  · exact .inl ⟨h₁ ▸ hu, h₂⟩
  · rw [h₁] at hu
    cases hu
  · exact .inr ⟨h₂, h₃, h₄, h₁⟩
  · exact .inl ⟨h₁ ▸ hu, h₂⟩

/-- A section keeps the roll of the processes in order. -/
theorem Roll.step (h : s.Roll) (hr : s.Roster s') : s'.Roll where
  next := by
    have := h.next
    rcases hr.next with he | ⟨-, he⟩
    · rwa [he]
    · rw [he]
      omega
  given := by
    intro p hu
    have hn := h.next
    rcases hr.cases hu with ⟨hu₀, hid⟩ | ⟨h₀, hid, hnext, -⟩
    · obtain ⟨h₁, h₂⟩ := h.given hu₀
      rw [hid]
      exact ⟨h₁, hr.next_gt hn h₂⟩
    · rw [hid, hnext]
      omega
  unique := by
    intro p q hp hq he
    rcases hr.cases hp with ⟨hp₀, hpid⟩ | ⟨h₀, hpid, -, hpu⟩
    · rcases hr.cases hq with ⟨hq₀, hqid⟩ | ⟨h₀, hqid, -, -⟩
      · exact h.unique hp₀ hq₀ (hpid.symm.trans (he.trans hqid))
      · obtain ⟨-, hlt⟩ := h.given hp₀
        rw [hpid, hqid] at he
        exact absurd he (hlt.resolve_left h₀).ne
    · rcases hr.cases hq with ⟨hq₀, hqid⟩ | ⟨-, hqid, -, hqu⟩
      · obtain ⟨-, hlt⟩ := h.given hq₀
        rw [hpid, hqid] at he
        exact absurd he (hlt.resolve_left h₀).ne'
      · exact hr.one hpu hp hqu hq

/-- The process has had its task, and the task is a zombie or gone. -/
def Finished (s : SchedState) (p : ProcessSlot) : Prop :=
  (s.processes p).taskId ≠ 0 ∧
    (s.nextTaskId = 0 ∨ (s.processes p).taskId < s.nextTaskId) ∧
    ∀ i, (s.tasks i).state ≠ .unused → (s.tasks i).id = (s.processes p).taskId →
      (s.tasks i).state = .zombie

/-- Whoever still has the identifier `pid` has finished. -/
def Over (s : SchedState) (pid : Nat) : Prop :=
  0 < pid ∧ (s.nextProcessId = 0 ∨ pid < s.nextProcessId) ∧
    ∀ p, (s.processes p).used = true → (s.processes p).id = pid → s.Finished p

/-- What has finished does not start again. -/
theorem Over.step (h : s.Over pid) (hok : s.Ok) (hroll : s.Roll) (hr : s.Roster s')
    (he : s.Evolves s') : s'.Over pid := by
  obtain ⟨hpos, hlt, hfin⟩ := h
  refine ⟨hpos, hr.next_gt hroll.next hlt, fun p hu hid => ?_⟩
  obtain ⟨hu₀, hid₀⟩ : (s.processes p).used = true ∧ (s'.processes p).id = (s.processes p).id := by
    rcases hr.cases hu with h₀ | ⟨h₀, hid', -, -⟩
    · exact h₀
    · exact absurd (hid'.symm.trans hid) (hlt.resolve_left h₀).ne'
  obtain ⟨ht, htlt, hz⟩ := hfin p hu₀ (hid₀.symm.trans hid)
  have hsame : (s'.processes p).taskId = (s.processes p).taskId := by
    rcases hr.processes p with ⟨-, -, h₃⟩ | h₁ | ⟨h₁, -⟩ | ⟨h₁, -⟩
    · exact h₃
    · rw [h₁] at hu
      cases hu
    · rw [h₁] at hu₀
      cases hu₀
    · exact absurd h₁ ht
  unfold Finished
  rw [hsame]
  refine ⟨ht, he.next_gt hok.next htlt, fun i hi hid' => ?_⟩
  by_cases hi₀ : (s.tasks i).state = .unused
  · obtain ⟨h₀, hnew, -⟩ := he.new i hi₀ hi
    exact absurd (hnew.symm.trans hid') (htlt.resolve_left h₀).ne'
  · rcases he.old i hi₀ with hl | ⟨-, -, hb⟩
    · exact hl.zombie (hz i hi₀ (hl.id.symm.trans hid'))
    · rw [hb] at hi
      exact absurd rfl hi

/-- A kill takes effect: what the process leased is released, and the process is over. -/
theorem killed_over (hok : s.Ok) (hroll : s.Roll) (hon : (s.cpus c).online = true)
    (hcur : (s.cpus c).current = some i) (hl : (s.cpus c).leaving = false)
    (hp : (s.tasks i).process = some p) (hk : (s.tasks i).controlRequest = some .kill) :
    (s.processReturnControl c).Over (s.processes p).id ∧
      (s.processReturnControl c).partitions = released s.partitions (s.processes p).id := by
  obtain ⟨hu, ht, -⟩ := hok.process hp
  obtain ⟨hid, hlt⟩ := hroll.given hu
  have hlive := hok.live_of_process hp
  obtain ⟨htpos, htlt⟩ := hok.fresh hlive
  have hroster := s.roster_step (.returnControl c)
  have hok' : (s.processReturnControl c).Ok :=
    (hok.step (e := .returnControl c) (enabled_on rfl hon rfl)).1
  have he : s.processReturnControl c = ((s.onTask i fun t =>
      { t with controlRequest := none, preemptDepth := 0 }).die c i (-143)
        fun k => k).processResourcesRelease (s.processes p).id := by
    rw [processReturnControl, SchedState.self, hcur]
    dsimp only
    rw [if_neg (by simp [hl]), hp, hk]
    rfl
  have hpl : s.Plain ((s.onTask i fun t =>
      { t with controlRequest := none, preemptDepth := 0 }).die c i (-143) fun k => k) :=
    ((Kept.onTask _).trans (Kept.die (fun _ => .refl _) _ _ _)).plain
  have htask : ((s.processReturnControl c).tasks i).state = .zombie ∧
      ((s.processReturnControl c).tasks i).id = (s.tasks i).id := by
    rw [he]
    simp [processResourcesRelease, die, leave]
  have hnt : (s.processReturnControl c).nextTaskId = s.nextTaskId := by
    rw [he]
    exact (onProcessOf_rest _ i _).2.1
  have hsame : ∀ q, (s.processes q).Same ((s.processReturnControl c).processes q) := by
    rw [he]
    exact hpl.processes
  refine ⟨⟨hid, hroster.next_gt hroll.next hlt, fun q hq hqid => ?_⟩, ?_⟩
  · obtain ⟨hqu, hqi, hqt⟩ := hsame q
    obtain rfl : q = p := hroll.unique (hqu ▸ hq) hu (hqi.symm.trans hqid)
    unfold Finished
    rw [hqt, ht, hnt]
    refine ⟨htpos.ne', htlt, fun j hj hjid => ?_⟩
    obtain rfl : j = i := hok'.ids hj (by rw [htask.1]; decide) (hjid.trans htask.2.symm)
    exact htask.1
  · rw [he]
    exact congrArg (released · _) hpl.partitions

/-- The slot of a destroyed process is cleared, and its identifier is over. -/
theorem destroyed_over (hroll : s.Roll) (hu : (s.processes p).used = true)
    (hd : s.destroying = some p) : (s.processDestroyed true).Over (s.processes p).id := by
  obtain ⟨hid, hlt⟩ := hroll.given hu
  have he : s.processDestroyed true =
      ({ s with destroying := none } : SchedState).onProcess p fun _ => {} := by
    rw [SchedState.processDestroyed, hd]
    rfl
  rw [he]
  refine ⟨hid, hlt, fun q hq hqid => ?_⟩
  obtain rfl | hne := eq_or_ne q p
  · simp at hq
  · rw [onProcess_ne _ hne] at hq hqid
    exact absurd (hroll.unique hq hu hqid) hne

end SchedState

/-! ### Requests -/

namespace System

open SchedState

variable {m m' : System} {c : Nat} {r : AdminRequest} {p : ProcessSlot} {q : PartitionInfo}

@[simp] theorem onDrive_self (m : System) (k : Nat) (f : Drive → Drive) :
    (m.onDrive k f).drives k = f (m.drives k) := Function.update_self ..

@[simp] theorem onPartition_drives (m : System) (i : Nat) (f : PartitionInfo → PartitionInfo) :
    (m.onPartition i f).drives = m.drives := rfl

/-- The caller is the process of the task that runs. -/
theorem caller_some (h : m.caller c = some p) : ∃ i, (m.sched.cpus c).current = some i ∧
    (m.sched.cpus c).leaving = false ∧ (m.sched.tasks i).process = some p := by
  unfold caller at h
  split at h
  · cases h
  · next i hi =>
      split at h
      · cases h
      · next hl => exact ⟨i, hi, by simpa using hl, h⟩

/-- A process that has finished makes no request. -/
theorem caller_not_over (hok : m.sched.Ok) (h : m.caller c = some p) :
    ¬ m.sched.Over (m.sched.processes p).id := by
  obtain ⟨i, hi, hl, hp⟩ := caller_some h
  obtain ⟨hu, ht, -⟩ := hok.process hp
  rintro ⟨-, -, hfin⟩
  have hz := (hfin p hu rfl).2.2 i (hok.live_of_process hp) ht.symm
  rw [hok.leaving hi hz] at hl
  cases hl

/-- What a request can come to. -/
inductive AdminEffect (m : System) (c : Nat) (r : AdminRequest) :
    Except Errno Unit × System → Prop where
  | refused (e : Errno) : AdminEffect m c r (.error e, m)
  | claim {p : ProcessSlot} {q : PartitionInfo} (ho : r.operation ≠ .partWrite)
      (hc : m.caller c = some p)
      (hq : m.sched.partitions[r.resource]? = some q) (hro : q.readOnly = false)
      (hm : q.mounted = false) :
      AdminEffect m c r (.ok (), m.onPartition r.resource fun q =>
        { q with ownerPid := (m.sched.processes p).id })
  | release (ho : r.operation ≠ .partWrite) :
      AdminEffect m c r (.ok (), m.onPartition r.resource fun q => { q with ownerPid := 0 })
  | read {k : Nat} {d : Disk} (ho : r.operation ≠ .partWrite) (x : Except Errno Unit)
      (hd : (m.drives k).disk.Same d) :
      AdminEffect m c r (x, m.setDisk k d)
  | write {p : ProcessSlot} {q : PartitionInfo} {count : Nat} {buffer : Bytes}
      (ho : r.operation = .partWrite) (hc : m.caller c = some p)
      (hq : m.sched.partitions[r.resource]? = some q)
      (hown : q.ownerPid = (m.sched.processes p).id) (hf : q.failed = false)
      (hin : r.address + count ≤ q.sectors) :
      AdminEffect m c r
        (m.adminWrite q.disk r.resource (q.start + r.address) count buffer r.length)

/-- A read changes no sector. -/
theorem adminRead_effect (ho : r.operation ≠ .partWrite) (k lba count bytes : Nat) :
    AdminEffect m c r (m.adminRead k lba count bytes r) := by
  have hread := Reads.kDiskRead lba count bytes (m.drives k).disk
  unfold adminRead
  split
  · next heq =>
      rw [heq] at hread
      exact .read ho _ hread
  · next heq =>
      rw [heq] at hread
      exact .read ho _ hread

/-- The transfer of a request that may not write. -/
theorem adminTransfer_read (hw : r.operation ≠ .partWrite) (k start limit : Nat) :
    AdminEffect m c r (m.adminTransfer k start limit r) := by
  unfold adminTransfer
  dsimp only
  split
  · exact .refused _
  · split
    · exact .refused _
    · exact adminRead_effect hw _ _ _ _

/-- A write changes sectors of the leased partition only. -/
theorem adminTransfer_write (hc : m.caller c = some p)
    (hq : m.sched.partitions[r.resource]? = some q) (hown : q.ownerPid = (m.sched.processes p).id)
    (hf : q.failed = false) : AdminEffect m c r (m.adminTransfer q.disk q.start q.sectors r) := by
  by_cases hw : r.operation = .partWrite
  · unfold adminTransfer
    dsimp only
    split
    · exact .refused _
    · next hin =>
        split
        · exact .refused _
        · split
          · exact .refused _
          · refine .write hw hc hq hown hf ?_
            omega
  · exact adminTransfer_read hw _ _ _

/-- **The effect of a request.** -/
theorem adminOperation_effect (m : System) (c : Nat) (r : AdminRequest) :
    AdminEffect m c r (m.adminOperation c r) := by
  unfold adminOperation
  split
  · exact .refused _
  · next p hc =>
      split
      · exact .refused _
      · split
        · exact .refused _
        · split
          · exact .refused _
          · unfold adminDisk
            split
            · next ho =>
                split
                · exact .refused _
                · exact adminTransfer_read (by simp [ho]) _ _ _
            · split
              · exact .refused _
              · next q hq =>
                  split
                  · next ho =>
                    split
                    · exact .refused _
                    · next hfree =>
                        split
                        · exact .refused _
                        · simp only [Bool.or_eq_true, not_or, Bool.not_eq_true] at hfree
                          exact .claim (by simp [ho]) hc hq hfree.1.1 hfree.1.2
                  · split
                    · exact .refused _
                    · next hown =>
                        split
                        · next ho => exact .release (by simp [ho])
                        · split
                          · exact .refused _
                          · next hf =>
                              exact adminTransfer_write hc hq (not_not.mp hown) (by simpa using hf)

/-- What a write does to the drive, and to the partition when it fails. -/
theorem adminWrite_cases (m : System) (k i lba count : Nat) (p : Bytes) (bytes : Nat) :
    ∃ d, (m.drives k).Wrote lba (lba + count) d ∧
      diskWriteThrough lba count p bytes
        (m.drives k) = ((m.adminWrite k i lba count p bytes).1, d) ∧
      ((m.adminWrite k i lba count p bytes).2 = m.onDrive k (fun _ => d) ∧
          (m.adminWrite k i lba count p bytes).1 = .ok () ∨
        (m.adminWrite k i lba count p bytes).2 =
          (m.onDrive k fun _ => d).onPartition i fun q => { q with failed := true }) := by
  have hw : (m.drives k).Wrote lba (lba + count)
      (diskWriteThrough lba count p bytes (m.drives k)).2 := by
    have h₁ := diskWriteFs_wrote lba count p bytes (m.drives k)
    rw [diskWriteThrough, Io.bind_run]
    split
    · next heq =>
        rw [heq] at h₁
        exact h₁.trans (diskFlush_wrote _ _ _)
    · next heq =>
        rw [heq] at h₁
        exact h₁
  unfold adminWrite
  split
  · next d heq =>
      rw [heq] at hw
      exact ⟨d, hw, heq, .inl ⟨rfl, rfl⟩⟩
  · next e d heq =>
      rw [heq] at hw
      exact ⟨d, hw, heq, .inr rfl⟩

/-- A request changes no more of the scheduler's state than the table. -/
theorem admin_sched (m : System) (c : Nat) (r : AdminRequest) :
    ∃ l, (m.step (.admin c r)).sched = { m.sched with partitions := l } := by
  rw [step]
  have heff := adminOperation_effect m c r
  generalize m.adminOperation c r = x at heff ⊢
  cases heff with
  | refused e => exact ⟨m.sched.partitions, rfl⟩
  | claim ho hc hq hro hm => exact ⟨_, rfl⟩
  | release ho => exact ⟨_, rfl⟩
  | read ho x hs => exact ⟨m.sched.partitions, rfl⟩
  | @write p q count buffer ho hc hq hown hf hin =>
      obtain ⟨d, -, -, ⟨he, -⟩ | he⟩ :=
        m.adminWrite_cases q.disk r.resource (q.start + r.address) count
        buffer r.length
      · rw [he]
        exact ⟨m.sched.partitions, rfl⟩
      · rw [he]
        exact ⟨_, rfl⟩

/-! ### Leases over a step -/

/-- What a step does to the table: the layout stays, and a lease stays, ends, or is taken by a
process that makes a request, on a partition that is neither mounted nor read-only. -/
structure Leases (m m' : System) : Prop where
  kindred : Kindred m.sched.partitions m'.sched.partitions
  owner : ∀ {i : Nat} {q q' : PartitionInfo}, m.sched.partitions[i]? = some q →
    m'.sched.partitions[i]? = some q' →
    q'.ownerPid = q.ownerPid ∨ q'.ownerPid = 0 ∨
      m.sched.destroying = none ∧ q.mounted = false ∧ q.readOnly = false ∧
        ∃ c p, m.caller c = some p ∧ q'.ownerPid = (m.sched.processes p).id
  rest : ∃ l, m'.sched = { m.sched with partitions := l } ∨
    ∃ e, m.sched.Enabled e ∧ m'.sched = m.sched.step e
  tables : m'.tables = m.tables
  volumes : m'.volumes = m.volumes
  geo : ∀ k, (m'.drives k).disk.geo = (m.drives k).disk.geo

/-- A table with the leases of one process released. -/
theorem owner_released {l : List PartitionInfo} {pid i : Nat} {q q' : PartitionInfo}
    (hq : l[i]? = some q) (hq' : (released l pid)[i]? = some q') :
    q'.ownerPid = q.ownerPid ∧ q.ownerPid ≠ pid ∨ q'.ownerPid = 0 := by
  rw [released, List.getElem?_map, hq] at hq'
  obtain rfl := Option.some.inj hq'
  dsimp only
  split
  · exact .inr rfl
  · next h => exact .inl ⟨rfl, h⟩

/-- Partitions released keep their places. -/
theorem kindred_released (l : List PartitionInfo) (pid : Nat) : Kindred l (released l pid) := by
  refine .map fun q => ?_
  split
  · exact ⟨rfl, rfl, rfl, rfl, rfl, id⟩
  · exact .refl q

/-- A section of the scheduler changes leases only as a process exits. -/
theorem Leases.sched {e : SchedEvent} (he : m.sched.Enabled e) : m.Leases (m.step (.sched e)) := by
  have hr := m.sched.roster_step e
  refine ⟨?_, fun {i q q'} hq hq' => ?_, ⟨[], .inr ⟨e, he, rfl⟩⟩, rfl, rfl, fun _ => rfl⟩
  · rcases hr.partitions with hp | ⟨pid, hp⟩
    · rw [step, hp]
      exact .refl _
    · rw [step, hp]
      exact kindred_released _ pid
  · rcases hr.partitions with hp | ⟨pid, hp⟩
    · rw [step, hp, hq] at hq'
      obtain rfl := Option.some.inj hq'
      exact .inl rfl
    · rw [step, hp] at hq'
      exact (owner_released hq hq').imp (fun h => h.1) .inl

/-- A change of one partition. -/
theorem Leases.onPartition {f : PartitionInfo → PartitionInfo} {n : Nat}
    (hf : ∀ q : PartitionInfo, q.Kin (f q))
    (ho : ∀ q, m.sched.partitions[n]? = some q → (f q).ownerPid = q.ownerPid ∨ (f q).ownerPid = 0 ∨
      m.sched.destroying = none ∧ q.mounted = false ∧ q.readOnly = false ∧
        ∃ c p, m.caller c = some p ∧ (f q).ownerPid = (m.sched.processes p).id) :
    m.Leases (m.onPartition n f) := by
  refine ⟨.modify hf n, fun {i q q'} hq hq' => ?_, ⟨_, .inl rfl⟩, rfl, rfl, fun _ => rfl⟩
  simp only [System.onPartition, System.setPartitions, List.getElem?_modify, hq] at hq'
  obtain rfl := Option.some.inj hq'
  dsimp only
  split
  · next h =>
      subst h
      exact ho q hq
  · exact .inl rfl

/-- A drive changed leaves the leases. -/
theorem Leases.drive (k : Nat) {d : Drive} (hg : d.disk.geo = (m.drives k).disk.geo) :
    m.Leases (m.onDrive k fun _ => d) := by
  refine ⟨.refl _, fun {i q q'} hq hq' => ?_, ⟨m.sched.partitions, .inl rfl⟩, rfl, rfl, fun j => ?_⟩
  · obtain rfl := Option.some.inj (hq.symm.trans hq')
    exact .inl rfl
  · obtain rfl | hj := eq_or_ne j k
    · simpa [onDrive] using hg
    · simp [onDrive, Function.update_of_ne hj]

theorem Leases.trans_drive {m₁ : System} {k : Nat} {d : Drive}
    (h : (m.onDrive k fun _ => d).Leases m₁) (hg : d.disk.geo = (m.drives k).disk.geo) :
    m.Leases m₁ where
  kindred := h.kindred
  owner := h.owner
  rest := h.rest
  tables := h.tables
  volumes := h.volumes
  geo j := (h.geo j).trans ((Leases.drive k hg).geo j)

/-- `admin_operation` changes the leases as it answers. -/
theorem Leases.admin (hd : m.sched.destroying = none) :
    m.Leases (m.step (.admin c r)) := by
  rw [step]
  have heff := adminOperation_effect m c r
  generalize m.adminOperation c r = x at heff ⊢
  cases heff with
  | refused e =>
      exact ⟨.refl _, fun hq hq' => .inl (by rw [Option.some.inj (hq.symm.trans hq')]),
        ⟨m.sched.partitions, .inl rfl⟩, rfl, rfl, fun _ => rfl⟩
  | claim ho hc hq hro hm =>
      refine .onPartition (fun _ => ⟨rfl, rfl, rfl, rfl, rfl, fun h => h⟩) fun q' hq' => ?_
      obtain rfl := Option.some.inj (hq.symm.trans hq')
      exact .inr (.inr ⟨hd, hm, hro, _, _, hc, rfl⟩)
  | release ho =>
      exact .onPartition (fun _ => ⟨rfl, rfl, rfl, rfl, rfl, fun h => h⟩) fun _ _ => .inr (.inl rfl)
  | read ho x hs => exact .drive _ hs.geo
  | @write p q count buffer ho hc hq hown hf hin =>
      obtain ⟨d, hw, -, ⟨he, -⟩ | he⟩ :=
        m.adminWrite_cases q.disk r.resource (q.start + r.address) count
        buffer r.length
      · rw [he]
        exact .drive _ hw.geo
      · rw [he]
        refine Leases.trans_drive ?_ hw.geo
        exact .onPartition (fun _ => ⟨rfl, rfl, rfl, rfl, rfl, fun _ => rfl⟩) fun _ _ => .inl rfl

/-- The two together. -/
theorem Leases.step {e : Event} (he : m.Enabled e) : m.Leases (m.step e) := by
  cases e with
  | sched e => exact .sched he
  | admin c r => exact .admin he.2

/-! ### The invariant -/

/-- What holds after the scan, in every state of a run. -/
structure Leased (disks : Nat → Disk) (m : System) : Prop where
  sched : m.sched.Ok
  roll : m.sched.Roll
  layout : Layout disks m.tables m.volumes m.sched.partitions
  geo : ∀ k, (m.drives k).disk.geo = (disks k).geo
  owner : ∀ {i : Nat} {q : PartitionInfo}, m.sched.partitions[i]? = some q → q.ownerPid ≠ 0 →
    q.mounted = false ∧ q.readOnly = false
  destroying : ∀ {p}, m.sched.destroying = some p → (m.sched.processes p).used = true ∧
    ∀ {i : Nat} {q : PartitionInfo}, m.sched.partitions[i]? = some q →
      q.ownerPid ≠ (m.sched.processes p).id

variable {disks : Nat → Disk}

theorem Calm.setPartitions (s : SchedState) (l : List PartitionInfo) :
    s.Calm { s with partitions := l } :=
  ⟨fun _ => .refl _, fun _ => .refl _, fun _ => .refl _, rfl, rfl, rfl⟩

/-- The scheduler over a step. -/
theorem Leased.advances (h : m.Leased disks) (hl : m.Leases m') :
    m.sched.Advances m'.sched ∧ m'.sched.Roll ∧
      ((∃ l, m'.sched = { m.sched with partitions := l }) ∨ m.sched.Roster m'.sched) := by
  obtain ⟨l, hs | ⟨e, he, hs⟩⟩ := hl.rest
  · have ha := h.sched.advances (Calm.setPartitions m.sched l)
    rw [hs]
    exact ⟨ha, ⟨h.roll.next, h.roll.given, h.roll.unique⟩, .inl ⟨l, rfl⟩⟩
  · have hr := m.sched.roster_step e
    rw [hs]
    exact ⟨h.sched.step he, h.roll.step hr, .inr hr⟩

/-- Whoever has an identifier that is over does not get a lease. -/
theorem Leased.over (h : m.Leased disks) (hl : m.Leases m') {pid : Nat} (ho : m.sched.Over pid)
    (hn : ∀ {i : Nat} {q : PartitionInfo}, m.sched.partitions[i]? = some q → q.ownerPid ≠ pid) :
    m'.sched.Over pid ∧
      ∀ {i : Nat} {q : PartitionInfo}, m'.sched.partitions[i]? = some q → q.ownerPid ≠ pid := by
  obtain ⟨⟨-, he⟩, -, hr⟩ := h.advances hl
  refine ⟨?_, fun {i q'} hq' hpid => ?_⟩
  · rcases hr with ⟨l, hs⟩ | hr
    · rw [hs]
      exact ho
    · exact ho.step h.sched h.roll hr he
  · obtain ⟨q, hq, -⟩ := (hl.kindred i).1 q' hq'
    rcases hl.owner hq hq' with hown | hown | ⟨-, -, -, c, p, hc, hown⟩
    · exact hn hq (hown.symm.trans hpid)
    · exact ho.1.ne (hown.symm.trans hpid)
    · refine caller_not_over h.sched hc ?_
      rwa [← hown, hpid]

/-- One event keeps the invariant. -/
theorem Leased.step (h : m.Leased disks) {e : Event} (he : m.Enabled e) :
    (m.step e).Leased disks := by
  have hl := Leases.step he
  obtain ⟨⟨hok, -⟩, hroll, -⟩ := h.advances hl
  refine ⟨hok, hroll, ?_, fun k => (hl.geo k).trans (h.geo k), fun {i q'} hq' hne => ?_,
    fun {p} hp => ?_⟩
  · rw [hl.tables, hl.volumes]
    exact h.layout.kindred hl.kindred
  · obtain ⟨q, hq, hk⟩ := (hl.kindred i).1 q' hq'
    rw [hk.mounted, hk.readOnly]
    rcases hl.owner hq hq' with hown | hown | ⟨-, hm, hro, -⟩
    · exact h.owner hq (hown ▸ hne)
    · exact absurd hown hne
    · exact ⟨hm, hro⟩
  · cases e with
    | admin c r =>
        obtain ⟨l, hs⟩ := m.admin_sched c r
        rw [hs] at hp
        cases he.2.symm.trans hp
    | sched e =>
        obtain ⟨⟨hu, hid, -⟩, hd⟩ := destroying_step he hp
        rw [System.step]
        dsimp only
        rw [hu, hid]
        rcases hd with hd | ⟨hused, hrel⟩
        · obtain ⟨hused, hno⟩ := h.destroying hd
          refine ⟨hused, fun {i q'} hq' hpid => ?_⟩
          obtain ⟨q, hq, -⟩ := (hl.kindred i).1 q' hq'
          rcases hl.owner hq hq' with hown | hown | ⟨hn, -⟩
          · exact hno hq (hown.symm.trans hpid)
          · exact (h.roll.given hused).1.ne (hown.symm.trans hpid)
          · rw [hd] at hn
            cases hn
        · refine ⟨hused, fun {i q'} hq' hpid => ?_⟩
          rw [hrel] at hq'
          obtain ⟨q, hq, -⟩ :=
            (kindred_released m.sched.partitions (m.sched.processes p).id i).1 q' hq'
          rcases owner_released hq hq' with ⟨hown, hne⟩ | hown
          · exact hne (hown.symm.trans hpid)
          · exact (h.roll.given hused).1.ne (hown.symm.trans hpid)

/-! ### Runs -/

/-- Every run keeps it, by induction on the run. -/
theorem Leased.steps (h : m.Leased disks) (hr : Steps m m') : m'.Leased disks := by
  induction hr with
  | refl => exact h
  | next _ he ih => exact ih.step he

/-- An identifier that is over owns nothing, and never will. -/
theorem Leased.over_steps (h : m.Leased disks) {pid : Nat} (ho : m.sched.Over pid)
    (hn : ∀ {i : Nat} {q : PartitionInfo}, m.sched.partitions[i]? = some q → q.ownerPid ≠ pid)
    (hr : Steps m m') : ∀ {i : Nat} {q : PartitionInfo}, m'.sched.partitions[i]? = some q →
      q.ownerPid ≠ pid := by
  have hinv : m'.sched.Over pid ∧ ∀ {i : Nat} {q : PartitionInfo},
      m'.sched.partitions[i]? = some q → q.ownerPid ≠ pid := by
    induction hr with
    | refl => exact ⟨ho, hn⟩
    | next hr he ih => exact (h.steps hr).over (.step he) ih.1 ih.2
  intro i q hq
  exact hinv.2 hq

/-- The table keeps its layout, and a failure is not forgotten. -/
theorem Steps.kindred (hr : Steps m m') : Kindred m.sched.partitions m'.sched.partitions := by
  induction hr with
  | refl => exact .refl _
  | next _ he ih => exact ih.trans (Leases.step he).kindred

/-- It holds after `k_vfs_mount_disks`. -/
theorem Fresh.leased (h : m.Fresh) (probe : Probe) :
    (m.kVfsMountDisks probe).Leased fun k => (m.drives k).disk := by
  have hs := h.scanned_nil.kVfsMountDisks probe
  obtain ⟨discovered, timerHz, stack, hd, hst, he⟩ := h.sched
  obtain ⟨l, hl⟩ := hs.sched
  have hok : m.sched.Ok := by
    rw [he]
    exact initial_ok hd hst
  have hpl := Kept.fillTask (booted discovered timerHz) 1 1 0 true stack
  have hproc : ∀ p, (m.sched.processes p).used = false := by
    intro p
    rw [he, initial_eq hst]
    exact (hpl.processes p).1
  have hnext : m.sched.nextProcessId = 1 := by
    rw [he, initial_eq hst]
    exact hpl.next
  have hdes : m.sched.destroying = none := by
    rw [he, initial_eq hst]
    exact hpl.destroying
  refine ⟨?_, ?_, hs.layout, fun k => (hs.same k).geo, fun {i q} hq hne => ?_, fun {p} hp => ?_⟩
  · rw [hl]
    exact hok.calm (Calm.setPartitions _ l)
  · rw [hl]
    refine ⟨by simp [hnext], fun {p} hu => ?_, fun {p q} hu _ _ => ?_⟩
    · cases (hproc p).symm.trans hu
    · cases (hproc p).symm.trans hu
  · exact absurd (hs.free q (List.mem_of_getElem? hq)).1 hne
  · rw [hl] at hp
    cases hdes.symm.trans hp

/-- Between `m` and `m'` a command was sent that writes sector `lba` of drive `k`. -/
def Writes (m m' : System) (k lba : Nat) : Prop :=
  lba ∈ (m'.drives k).trace.drop (m.drives k).trace.length

/-- The request writes only what its caller has leased, and nothing but what it writes changes. -/
theorem Leased.writes (h : m.Leased disks) (c : Nat) (r : AdminRequest) :
    (∀ k lba, m.Writes (m.step (.admin c r)) k lba → r.operation = .partWrite ∧
      ∃ p q, m.caller c = some p ∧ m.sched.partitions[r.resource]? = some q ∧ q.disk = k ∧
        q.Covers lba ∧ q.ownerPid = (m.sched.processes p).id ∧ q.failed = false ∧
        q.ownerPid ≠ 0) ∧
    ∀ k b, ((m.step (.admin c r)).drives k).disk.image b ≠ (m.drives k).disk.image b →
      m.Writes (m.step (.admin c r)) k (b / (m.drives k).disk.geo.sectorSize) := by
  rw [System.step]
  have heff := adminOperation_effect m c r
  generalize m.adminOperation c r = x at heff ⊢
  -- all but a write leave the drives as they are, clocks apart
  have hquiet : ∀ {m' : System}, (∀ k, (m'.drives k).trace = (m.drives k).trace ∧
      (m'.drives k).disk.image = (m.drives k).disk.image) →
      (∀ k lba, ¬ m.Writes m' k lba) ∧
        ∀ k b, (m'.drives k).disk.image b = (m.drives k).disk.image b := by
    intro m' hq
    refine ⟨fun k lba hw => ?_, fun k b => by rw [(hq k).2]⟩
    rw [Writes, (hq k).1, List.drop_length] at hw
    cases hw
  have hdone : ∀ {m' : System}, (∀ k, (m'.drives k).trace = (m.drives k).trace ∧
      (m'.drives k).disk.image = (m.drives k).disk.image) → ∀ {P : Nat → Nat → Prop},
      (∀ k lba, m.Writes m' k lba → P k lba) ∧ ∀ k b, (m'.drives k).disk.image b ≠
        (m.drives k).disk.image b → m.Writes m' k (b / (m.drives k).disk.geo.sectorSize) := by
    intro m' hq P
    obtain ⟨h₁, h₂⟩ := hquiet hq
    exact ⟨fun k lba hw => absurd hw (h₁ k lba), fun k b hb => absurd (h₂ k b) hb⟩
  cases heff with
  | refused e => exact hdone fun _ => ⟨rfl, rfl⟩
  | claim ho hc hq hro hm => exact hdone fun _ => ⟨rfl, rfl⟩
  | release ho => exact hdone fun _ => ⟨rfl, rfl⟩
  | @read k d ho x hs =>
      have hi := Idle.setDisk m hs
      exact hdone fun j => ⟨hi.traces j, (hi.disks j).image⟩
  | @write p q count buffer ho hc hq hown hf hin =>
      obtain ⟨d, hw, -, he⟩ := m.adminWrite_cases q.disk r.resource (q.start + r.address) count
        buffer r.length
      obtain ⟨i, -, -, hp⟩ := caller_some hc
      have hpos := (h.roll.given (h.sched.process hp).1).1
      have hdr :
          ∀ j, (m.adminWrite q.disk r.resource (q.start + r.address) count buffer r.length).2.drives
          j = if j = q.disk then d else m.drives j := by
        intro j
        rcases he with ⟨he, -⟩ | he
        · rw [he]
          exact Function.update_apply _ _ _ _
        · rw [he]
          exact Function.update_apply _ _ _ _
      obtain ⟨l, hl, hrange, himg⟩ := hw.trace
      refine ⟨fun k lba hwr => ?_, fun k b hb => ?_⟩
      · rw [Writes, hdr] at hwr
        split at hwr
        · next hk =>
            subst hk
            rw [hl, List.drop_left] at hwr
            obtain ⟨h₁, h₂⟩ := hrange lba hwr
            refine ⟨ho, p, q, hc, hq, rfl, ⟨by omega, by omega⟩, hown, hf, ?_⟩
            rw [hown]
            exact hpos.ne'
        · rw [List.drop_length] at hwr
          cases hwr
      · rw [hdr] at hb
        rw [Writes, hdr]
        split at hb
        · next hk =>
            subst hk
            rw [if_pos rfl, hl, List.drop_left]
            exact himg b hb
        · exact absurd rfl hb

/-- What a request to write answers, and what it does to the partition. -/
theorem write_reply (m : System) (c : Nat) {r : AdminRequest} (ho : r.operation = .partWrite) :
    (m.step (.admin c r) = m ∧ ∃ e, (m.adminOperation c r).1 = .error e) ∨
    ∃ q lba count buffer, m.sched.partitions[r.resource]? = some q ∧
      diskWriteThrough lba count buffer r.length (m.drives q.disk) =
        ((m.adminOperation c r).1, (m.step (.admin c r)).drives q.disk) ∧
      ∀ e, (m.adminOperation c r).1 = .error e →
        ∃ q', (m.step (.admin c r)).sched.partitions[r.resource]? = some q' ∧ q'.failed = true := by
  rw [step]
  have heff := adminOperation_effect m c r
  generalize m.adminOperation c r = x at heff ⊢
  cases heff with
  | refused e => exact .inl ⟨rfl, e, rfl⟩
  | claim hne => exact absurd ho hne
  | release hne => exact absurd ho hne
  | read hne => exact absurd ho hne
  | @write p q count buffer _ hc hq hown hf hin =>
      refine .inr ⟨q, q.start + r.address, count, buffer, hq, ?_⟩
      obtain ⟨d, -, hd, ⟨he, hok⟩ | he⟩ :=
        m.adminWrite_cases q.disk r.resource (q.start + r.address)
        count buffer r.length
      · rw [he]
        refine ⟨by rw [hd, onDrive_self], fun e hr => ?_⟩
        cases hok.symm.trans hr
      · rw [he]
        refine ⟨by rw [hd, onPartition_drives, onDrive_self], fun e _ => ?_⟩
        refine ⟨{ q with failed := true }, ?_, rfl⟩
        simp only [onPartition, setPartitions, onDrive, List.getElem?_modify, hq]
        exact congrArg some (if_pos trivial)

/-- **Isolation of raw writes.**  After the scan of any disks, in every state of every run of
requests, kills, exits and destroys: a lease has one holder; a sector that a request writes is in a
partition leased to its caller that is not mounted, not read-only and has not failed, it is no
sector of the partition table, of a mounted volume or of a partition leased to another, and no other
sector changes; a write or flush that fails marks its partition, and a partition so marked is not
written again; and a process that was killed or destroyed owns no partition from then on. -/
theorem lease_isolation {m₀ : System} {probe : Probe} (hf : m₀.Fresh)
    (hr : Steps (m₀.kVfsMountDisks probe) m) :
    (∀ q ∈ m.sched.partitions, ∀ p p', (m.sched.processes p).used = true →
      (m.sched.processes p').used = true → (m.sched.processes p).id = q.ownerPid →
      (m.sched.processes p').id = q.ownerPid → p = p') ∧
    (∀ c r, m.Enabled (.admin c r) →
      (∀ k lba, m.Writes (m.step (.admin c r)) k lba → r.operation = .partWrite ∧
        ∃ p q, m.caller c = some p ∧ m.sched.partitions[r.resource]? = some q ∧ q.disk = k ∧
          q.Covers lba ∧ q.ownerPid = (m.sched.processes p).id ∧ q.mounted = false ∧
          q.readOnly = false ∧ q.failed = false ∧
          ¬ (m₀.drives k).disk.Reserved (m.tables k) lba ∧
          (∀ w ∈ m.volumes, w.disk = k → ¬ w.Covers lba) ∧
          ∀ q' ∈ m.sched.partitions, q'.disk = k → q'.Covers lba →
            q'.ownerPid = (m.sched.processes p).id) ∧
      ∀ k b, ((m.step (.admin c r)).drives k).disk.image b ≠ (m.drives k).disk.image b →
        m.Writes (m.step (.admin c r)) k (b / (m.drives k).disk.geo.sectorSize)) ∧
    (∀ c r, r.operation = .partWrite →
      (m.step (.admin c r) = m ∧ ∃ e, (m.adminOperation c r).1 = .error e) ∨
      ∃ q lba count buffer, m.sched.partitions[r.resource]? = some q ∧
        diskWriteThrough lba count buffer r.length (m.drives q.disk) =
          ((m.adminOperation c r).1, (m.step (.admin c r)).drives q.disk) ∧
        ∀ e, (m.adminOperation c r).1 = .error e →
          ∃ q', (m.step (.admin c r)).sched.partitions[r.resource]? = some q' ∧ q'.failed = true) ∧
    (∀ q ∈ m.sched.partitions, q.failed = true → ∀ m₁, Steps m m₁ → ∀ c r, m₁.Enabled (.admin c r) →
      ∀ lba, m₁.Writes (m₁.step (.admin c r)) q.disk lba → ¬ q.Covers lba) ∧
    (∀ c i p, m.Enabled (.sched (.returnControl c)) → (m.sched.cpus c).current = some i →
      (m.sched.cpus c).leaving = false → (m.sched.tasks i).process = some p →
      (m.sched.tasks i).controlRequest = some .kill →
      ∀ m', Steps (m.step (.sched (.returnControl c))) m' →
        ∀ q ∈ m'.sched.partitions, q.ownerPid ≠ (m.sched.processes p).id) ∧
    (∀ p, m.sched.destroying = some p →
      ∀ m', Steps (m.step (.sched (.processDestroyed true))) m' →
        ∀ q ∈ m'.sched.partitions, q.ownerPid ≠ (m.sched.processes p).id) := by
  have h := (hf.leased probe).steps hr
  refine ⟨fun q _ p p' hu hu' hp hp' => h.roll.unique hu hu' (hp.trans hp'.symm), fun c r _ => ?_,
    fun c r ho => write_reply m c ho, fun q hq hfail m₁ hr₁ c r _ lba hw hcov => ?_,
    fun c i p he hcur hl hp hk m' hr' q hq => ?_, fun p hd m' hr' q hq => ?_⟩
  · obtain ⟨h₁, h₂⟩ := h.writes c r
    refine ⟨fun k lba hw => ?_, h₂⟩
    obtain ⟨ho, p, q, hc, hq, rfl, hcov, hown, hfl, hne⟩ := h₁ k lba hw
    obtain ⟨hm, hro⟩ := h.owner hq hne
    refine ⟨ho, p, q, hc, hq, rfl, hcov, hown, hm, hro, hfl, h.layout.clear hq hcov,
      fun w hw' hd => h.layout.volumes hq hm hw' hd hcov, fun q' hq' hd hcov' => ?_⟩
    obtain ⟨j, hj⟩ := List.getElem?_of_mem hq'
    obtain rfl := h.layout.apart hj hq hd hcov' hcov
    rw [Option.some.inj (hj.symm.trans hq), hown]
  · -- the sector written is in a partition that has not failed, so in another one
    obtain ⟨i, hi⟩ := List.getElem?_of_mem hq
    have hk := hr₁.kindred
    obtain ⟨q₁, hq₁⟩ := (hk i).2 q hi
    obtain ⟨q₂, hq₂, hkin⟩ := (hk i).1 q₁ hq₁
    obtain rfl := Option.some.inj (hi.symm.trans hq₂)
    have h' := h.steps hr₁
    obtain ⟨-, p, q', -, hq', hd', hcov', -, hfl, -⟩ := (h'.writes c r).1 q.disk lba hw
    obtain rfl := h'.layout.apart hq₁ hq' (hkin.disk.trans hd'.symm) (hkin.covers.mpr hcov) hcov'
    obtain rfl := Option.some.inj (hq₁.symm.trans hq')
    rw [hkin.failed hfail] at hfl
    cases hfl
  · -- the identifier is over, and its partitions were released in the same section
    obtain ⟨hover, hrel⟩ := killed_over h.sched h.roll (he.online c rfl) hcur hl hp hk
    obtain ⟨hu, -⟩ := h.sched.process hp
    obtain ⟨j, hj⟩ := List.getElem?_of_mem hq
    refine (h.step he).over_steps hover (fun {i q'} hq' hpid => ?_) hr' hj
    rw [System.step] at hq'
    dsimp only [SchedState.step] at hq'
    rw [hrel] at hq'
    obtain ⟨q₀, hq₀, -⟩ := (kindred_released _ _ i).1 q' hq'
    rcases owner_released hq₀ hq' with ⟨hown, hne⟩ | hown
    · exact hne (hown.symm.trans hpid)
    · exact (h.roll.given hu).1.ne (hown.symm.trans hpid)
  · -- from the first section of the destruction on it owns nothing
    obtain ⟨hu, hno⟩ := h.destroying hd
    have he : m.Enabled (.sched (.processDestroyed true)) :=
      ⟨by simp [SchedEvent.cpu], by simp [SchedEvent.underProcessMutex], by simp, by simp⟩
    obtain ⟨j, hj⟩ := List.getElem?_of_mem hq
    refine (h.step he).over_steps (destroyed_over h.roll hu hd) (fun {i q'} hq' hpid => ?_) hr' hj
    obtain ⟨q₀, hq₀, -⟩ := ((Leases.step he).kindred i).1 q' hq'
    rcases (Leases.step he).owner hq₀ hq' with hown | hown | ⟨hn, -⟩
    · exact hno hq₀ (hown.symm.trans hpid)
    · exact (h.roll.given hu).1.ne (hown.symm.trans hpid)
    · rw [hd] at hn
      cases hn

/-! ### One partition, one process -/

theorem leaseDisk_pos : 0 < 8 := by decide

theorem leaseDisk_lt : 8 ≤ (2 ^ 64 - 1) / 512 := by decide

/-- Eight sectors, and an MBR with one partition: the sectors 1 to 3. -/
def leaseDisk : Disk where
  geo :=
    ⟨512, 8, leaseDisk_pos, Geometry.power2_512, Geometry.min_512, Geometry.max_512, leaseDisk_lt⟩
  online := true
  ram := false
  image i := if i = 450 then 0x83 else if i = 454 then 1 else if i = 458 then 3
    else if i = 510 then 0x55 else if i = 511 then 0xaa else 0
  outcome _ := none
  clock := 0

/-- A freshly started system with one drive. -/
def leaseFresh : System where
  sched := .initial 1 1000 4096
  drives _ := ⟨leaseDisk, false, true, fun _ _ => 0, []⟩
  driveCount := 1
  scanned _ := false
  volumes := []
  tables _ := .none

/-- No file system is recognised. -/
def noProbe : Probe where
  fat d _ _ _ _ := (false, d.clock)
  native d _ _ _ _ := (false, d.clock)

/-- A request for the first partition. -/
def leaseRequest (operation : AdminOperation) : AdminRequest where
  operation
  resource := 0
  address := 1
  length := 512
  uuidOk := true
  formOk := true
  lock := .ok ()
  check := .ok ()
  copyIn := .ok fun _ => 7
  copyOut := .ok ()

/-- A Ring-1 process is created, started and scheduled, and claims the partition. -/
def leaseHeld : System :=
  (((((leaseFresh.kVfsMountDisks noProbe).step (.sched (.processCreate true))).step
    (.sched (.riefLoaded 0))).step (.sched (.processStart 0 none 8192))).step
      (.sched (.schedule 0 true 0))).step (.admin 0 (leaseRequest .partClaim))

/-- The system is freshly started. -/
theorem leaseFresh_fresh : leaseFresh.Fresh :=
  ⟨⟨1, 1000, 4096, by decide, by decide, rfl⟩, fun _ => rfl, rfl, fun _ => rfl⟩

/-- A process is created, runs and claims the partition. -/
theorem leaseHeld_steps : Steps (leaseFresh.kVfsMountDisks noProbe) leaseHeld := by
  refine .next (.next (.next (.next (.next (.refl _) ?_) ?_) ?_) ?_) ?_
  · exact ⟨by simp [SchedEvent.cpu], fun _ => by decide +kernel, by simp, by simp⟩
  · exact ⟨by simp [SchedEvent.cpu], fun _ => by decide +kernel, by simp, by simp⟩
  · exact ⟨by simp [SchedEvent.cpu], fun _ => by decide +kernel, by simp, by simp⟩
  · exact enabled_on rfl (by decide +kernel) rfl
  · exact ⟨by decide +kernel, by decide +kernel⟩

theorem leaseHeld_writes :
    leaseHeld.Writes (leaseHeld.step (.admin 0 (leaseRequest .partWrite))) 0 2 := by
  have h : ((leaseHeld.step (.admin 0 (leaseRequest .partWrite))).drives 0).trace = [2] ∧
      (leaseHeld.drives 0).trace = [] := by decide +kernel
  rw [Writes, h.1, h.2]
  decide

/-- The process writes sector 2, which is no sector of the partition table. -/
theorem lease_isolation_held :
    leaseHeld.Writes (leaseHeld.step (.admin 0 (leaseRequest .partWrite))) 0 2 ∧
    ¬ leaseDisk.Reserved (leaseHeld.tables 0) 2 := by
  have he : leaseHeld.Enabled (.admin 0 (leaseRequest .partWrite)) :=
    ⟨by decide +kernel, by decide +kernel⟩
  have h := (lease_isolation leaseFresh_fresh leaseHeld_steps).2.1 0 (leaseRequest .partWrite) he
  obtain ⟨-, p, q, -, -, -, -, -, -, -, -, hres, -⟩ := h.1 0 2 leaseHeld_writes
  exact ⟨leaseHeld_writes, hres⟩

end System

end Efishell
