import Efishell.Kernel.Lease
import Efishell.Kernel.SchedRoster
import Efishell.Fs.PartitionSound

/-!
# Kernel — the scan of the disks

What `k_vfs_mount_disks` leaves: the partitions of the table do not overlap, none of them holds a
sector of the partition table it came from, and a volume that is mounted lies in no partition but
one that is marked as mounted (`Layout`).  The scan writes nothing.

* `Layout.add`: a partition and its volume are added.
* `Scanned.kVfsMountDisks`: the scan of the disks leaves a sound layout and free partitions.
-/

namespace Efishell

/-! ### Reads -/

/-- Whatever its outcome, `x` changes nothing of the disk but its clock. -/
def Reads {α : Type} (x : Io Errno Disk α) : Prop := ∀ d : Disk, d.Same (x d).2

namespace Reads

variable {α β : Type}

theorem pure (a : α) : Reads (Pure.pure a : Io Errno Disk α) := fun d => .refl d

theorem fail (e : Errno) : Reads (Io.fail e : Io Errno Disk α) := fun d => .refl d

theorem lift (r : Except Errno α) : Reads (Io.lift r : Io Errno Disk α) := fun d => .refl d

theorem get : Reads (Io.get : Io Errno Disk Disk) := fun d => .refl d

/-- One read after another. -/
theorem bind {x : Io Errno Disk α} {f : α → Io Errno Disk β} (hx : Reads x)
    (hf : ∀ a, Reads (f a)) :
    Reads (x >>= f) := by
  intro d
  have h₁ := hx d
  rw [Io.bind_run]
  cases hr : x d with
  | mk r d₁ =>
      rw [hr] at h₁
      cases r with
      | ok a => exact h₁.trans (hf a d₁)
      | error e => exact h₁

/-- A read whose failure is caught. -/
theorem attempt {x : Io Errno Disk α} (hx : Reads x) : Reads (Io.attempt x) := hx

theorem ite {c : Prop} [Decidable c] {x y : Io Errno Disk α} (hx : Reads x) (hy : Reads y) :
    Reads (if c then x else y) := by
  split
  · exact hx
  · exact hy

/-- A disk command leaves the bytes. -/
theorem command : Reads command := by
  intro d
  obtain ⟨r, t, hc⟩ := command_cases d
  rw [hc]
  exact ⟨t, rfl⟩

theorem kDiskRead (lba count bytes : Nat) : Reads (kDiskRead lba count bytes) :=
  get.bind fun _ => (lift _).bind fun _ => command.bind fun _ => pure _

theorem diskBytesLoop (fuel : Nat) :
    ∀ (offset n p : Nat) (out : Bytes), Reads (diskBytesLoop fuel offset n p out) := by
  induction fuel with
  | zero => exact fun _ _ _ out => pure out
  | succ fuel ih =>
      intro offset n p out
      refine ite (pure out) (get.bind fun d => ite ?_ ?_)
      · exact (kDiskRead _ _ _).bind fun _ => ih _ _ _ _
      · exact (kDiskRead _ _ _).bind fun _ => ih _ _ _ _

theorem diskBytes (offset n : Nat) : Reads (diskBytes offset n) :=
  get.bind fun _ => ite (fail _) (diskBytesLoop _ _ _ _ _)

theorem gptTableCrc (bps table left : Nat) :
    ∀ (i : Nat) (crc : UInt32) (remaining : Nat),
      Reads (gptTableCrc bps table left i crc remaining) := by
  induction left with
  | zero => exact fun _ crc _ => pure crc
  | succ left ih => exact fun _ _ _ => (kDiskRead _ _ _).bind fun _ => ih _ _ _

theorem gptEntries (h : GptHeader) (sectors bps left : Nat) :
    ∀ (i : Nat) (parts : List PartitionEntry), Reads (gptEntries h sectors bps left i parts) := by
  induction left with
  | zero => exact fun _ parts => pure parts
  | succ left ih =>
      intro i parts
      refine (diskBytes _ _).bind fun entry => ite (ih _ _) (ite (fail _) ?_)
      exact (lift _).bind fun _ => ih _ _

theorem gptParse (headerLba : Nat) : Reads (gptParse headerLba) := by
  refine get.bind fun d => (kDiskRead _ _ _).bind fun sector => ite (fail _) (ite (fail _) ?_)
  exact (gptTableCrc _ _ _ _ _ _).bind fun crc => ite (fail _) (gptEntries _ _ _ _ _ _)

theorem ebrChain (base length sectors left : Nat) :
    ∀ (ebr : Nat) (seen : List Nat) (parts : List PartitionEntry),
      Reads (ebrChain base length sectors left ebr seen parts) := by
  induction left with
  | zero => exact fun _ _ _ => fail _
  | succ left ih =>
      intro ebr seen parts
      refine ite (fail _) (ite (fail _) ((kDiskRead _ _ _).bind fun sector => ite (fail _) ?_))
      exact (lift _).bind fun _ => ite (pure _) (ite (fail _) (ite (fail _) (ih _ _ _)))

theorem mbrParse (mbr : Bytes) : Reads (mbrParse mbr) := by
  refine get.bind fun d => (lift _).bind fun r =>
    ite (fail _) (bind ?_ fun r => ite (fail _) (pure _))
  exact ite (pure _) (ebrChain _ _ _ _ _ _ _)

/-- The choice between the two tables reads only. -/
theorem partitionTable (sector : Bytes) : Reads (partitionTable sector) := by
  refine get.bind fun d => ite ((attempt (gptParse 1)).bind fun r => ?_) ?_
  · cases r with
    | ok parts => exact pure _
    | error e => exact ite ((gptParse _).bind fun _ => pure _) (fail _)
  · exact (mbrParse sector).bind fun _ => pure _

end Reads

/-! ### Tables -/

/-- The sector lies in the partition. -/
def PartitionInfo.Covers (q : PartitionInfo) (lba : Nat) : Prop :=
  q.start ≤ lba ∧ lba < q.start + q.sectors

/-- The sector lies in the mounted volume. -/
def Volume.Covers (w : Volume) (lba : Nat) : Prop := w.start ≤ lba ∧ lba < w.start + w.length

/-- The sectors of a disk that its partition table is made of: sector 0, the extended boot records
that the walk comes to, and the GPT header and entry table that were accepted. -/
def Disk.Reserved (d : Disk) (t : Table) (lba : Nat) : Prop :=
  lba = 0 ∨
    match t with
    | .none => False
    | .mbr => ∃ base length, ExtendedContainer (d.span 0 1) base length ∧ EbrVisited d base lba
    | .gpt headerLba => lba = headerLba ∨
        ∃ k < (d.gptHeaderAt headerLba).tableSectors d.geo.sectorSize,
          lba = (d.gptHeaderAt headerLba).table + k

/-- The chain of boot records is the disk's. -/
theorem EbrVisited.same {d d' : Disk} (h : d.Same d') {base e : Nat} (hv : EbrVisited d base e) :
    EbrVisited d' base e := by
  induction hv with
  | root => exact .root
  | next _ hl ih =>
      refine ih.next ?_
      unfold Disk.EbrLink at hl ⊢
      rwa [h.span]

/-- The partitions that a scan of disk `d` may report. -/
structure PartsOk (d : Disk) (t : Table) (parts : List PartitionEntry) : Prop where
  inside : ∀ p ∈ parts, p.start + p.length ≤ d.geo.sectors
  apart : parts.Pairwise PartitionEntry.Apart
  clear : ∀ p ∈ parts, ∀ lba, p.Covers lba → ¬ d.Reserved t lba

/-- The partitions of a GPT are sound. -/
theorem PartsOk.gpt {d d₁ d' : Disk} (hd : d.Same d₁) {headerLba : Nat}
    {parts : List PartitionEntry}
    (hlba : GptLba d headerLba) (h : Io.Returns (gptParse headerLba) d₁ parts d') :
    PartsOk d (.gpt headerLba) parts := by
  obtain ⟨hok, hinv⟩ := gptParse_returns h
  have hh : d₁.gptHeaderAt headerLba = d.gptHeaderAt headerLba := by
    rw [Disk.gptHeaderAt, Disk.gptHeaderAt, hd.span]
  rw [hh, hd.geo] at hok
  rw [hh] at hinv
  have h₁ := hok.two_le
  have h₂ := hok.last_lt
  refine ⟨fun p hp => ?_, hinv.ok.apart, fun p hp lba hcov hr => ?_⟩
  · rw [← hd.geo]
    exact hinv.ok.inside p hp
  · obtain ⟨hb₁, hb₂⟩ := hinv.between p hp
    obtain ⟨hc₁, hc₂⟩ := hcov
    rcases hr with hr | hr | ⟨k, hk, hr⟩
    · omega
    · rcases hlba with e | e <;> omega
    · rcases hok.table_apart with e | e <;> omega

theorem PartsOk.mbr {d d₁ d' : Disk} (hd : d.Same d₁) {parts : List PartitionEntry}
    (h : Io.Returns (mbrParse (d.span 0 1)) d₁ parts d') : PartsOk d .mbr parts := by
  have hs := mbrSound_of_returns h
  refine ⟨fun p hp => ?_, hs.ok.apart, fun p hp lba hcov hr => ?_⟩
  · rw [← hd.geo]
    exact hs.ok.inside p hp
  · rcases hr with hr | ⟨base, length, hc, hv⟩
    · have := hs.ok.start_pos p hp
      obtain ⟨h₁, -⟩ := hcov
      omega
    · exact hs.ebr p hp base length lba hc (hv.same hd) hcov

/-- The partitions the mount works on are sound. -/
theorem PartsOk.of_table {d d₁ d' : Disk} (hd : d.Same d₁) {t : Table} {recovered : Bool}
    {parts : List PartitionEntry}
    (h : Io.Returns (partitionTable (d.span 0 1)) d₁ (t, recovered, parts) d') :
    PartsOk d t parts := by
  simp only [partitionTable, Io.returns_bind, Io.returns_ite] at h
  obtain ⟨d₀, s₀, h₀, h⟩ := h
  cases h₀
  rcases h with ⟨-, r, d₂, hg, h⟩ | ⟨-, ps, d₂, hm, h⟩
  · have h₂ : d.Same d₂ := by
      have he := hd.trans ((Reads.gptParse 1).attempt d₁)
      rwa [show (Io.attempt (gptParse 1) d₁).2 = d₂ by rw [hg]] at he
    cases r with
    | ok ps =>
        obtain ⟨he, rfl⟩ := Io.returns_pure.mp h
        cases he
        have hg' : Io.Returns (gptParse 1) d₁ parts d' := by
          simp only [Io.Returns, Io.attempt] at hg ⊢
          rw [Prod.ext_iff] at hg ⊢
          exact ⟨Except.ok.inj hg.1, hg.2⟩
        exact PartsOk.gpt hd (.inl rfl) hg'
    | error e =>
        simp only [Io.returns_ite, Io.returns_bind] at h
        rcases h with ⟨-, ps, d₃, hp, h⟩ | ⟨-, h⟩
        · obtain ⟨he, rfl⟩ := Io.returns_pure.mp h
          cases he
          rw [hd.geo] at hp ⊢
          exact PartsOk.gpt h₂ (.inr rfl) hp
        · exact absurd h Io.not_returns_fail
  · obtain ⟨he, rfl⟩ := Io.returns_pure.mp h
    cases he
    exact PartsOk.mbr hd hm

/-! ### The layout -/

/-- How the partitions `l` and the volumes lie on the disks. -/
structure Layout (disks : Nat → Disk) (tables : Nat → Table) (volumes : List Volume)
    (l : List PartitionInfo) : Prop where
  inside : ∀ {i : Nat} {q : PartitionInfo}, l[i]? = some q →
    q.start + q.sectors ≤ (disks q.disk).geo.sectors
  clear : ∀ {i lba : Nat} {q : PartitionInfo}, l[i]? = some q → q.Covers lba →
    ¬ (disks q.disk).Reserved (tables q.disk) lba
  apart : ∀ {i j lba : Nat} {q q' : PartitionInfo}, l[i]? = some q → l[j]? = some q' →
    q.disk = q'.disk → q.Covers lba → q'.Covers lba → i = j
  volumes : ∀ {i lba : Nat} {q : PartitionInfo} {w : Volume}, l[i]? = some q → q.mounted = false →
    w ∈ volumes → w.disk = q.disk → q.Covers lba → ¬ w.Covers lba

/-- The partition is the same but for its lease. -/
structure PartitionInfo.Kin (q q' : PartitionInfo) : Prop where
  disk : q'.disk = q.disk
  start : q'.start = q.start
  sectors : q'.sectors = q.sectors
  readOnly : q'.readOnly = q.readOnly
  mounted : q'.mounted = q.mounted
  failed : q.failed = true → q'.failed = true

theorem PartitionInfo.Kin.refl (q : PartitionInfo) : q.Kin q := ⟨rfl, rfl, rfl, rfl, rfl, id⟩

/-- A record of the same place covers the same sectors. -/
theorem PartitionInfo.Kin.covers {q q' : PartitionInfo} (h : q.Kin q') {lba : Nat} :
    q'.Covers lba ↔ q.Covers lba := by
  rw [Covers, Covers, h.start, h.sectors]

/-- Only leases differ between the tables. -/
def Kindred (l l' : List PartitionInfo) : Prop :=
  ∀ i : Nat, (∀ q', l'[i]? = some q' → ∃ q : PartitionInfo, l[i]? = some q ∧ q.Kin q') ∧
    (∀ q, l[i]? = some q → ∃ q', l'[i]? = some q')

theorem Kindred.refl (l : List PartitionInfo) : Kindred l l :=
  fun _ => ⟨fun q h => ⟨q, h, .refl q⟩, fun q h => ⟨q, h⟩⟩

/-- Records changed in other fields keep their places. -/
theorem Kindred.map {l : List PartitionInfo} {f : PartitionInfo → PartitionInfo}
    (hf : ∀ q : PartitionInfo, q.Kin (f q)) : Kindred l (l.map f) := by
  refine fun i => ⟨fun q' h => ?_, fun q h => ⟨f q, by rw [List.getElem?_map, h]; rfl⟩⟩
  rw [List.getElem?_map] at h
  obtain ⟨q, hq, rfl⟩ := Option.map_eq_some_iff.mp h
  exact ⟨q, hq, hf q⟩

theorem Kindred.modify {l : List PartitionInfo} {f : PartitionInfo → PartitionInfo}
    (hf : ∀ q : PartitionInfo, q.Kin (f q)) (j : Nat) : Kindred l (l.modify j f) := by
  refine fun i => ⟨fun q' h => ?_, fun q h => ?_⟩
  · rw [List.getElem?_modify] at h
    obtain ⟨q, hq, rfl⟩ := Option.map_eq_some_iff.mp h
    refine ⟨q, hq, ?_⟩
    split
    · exact hf q
    · exact .refl q
  · rw [List.getElem?_modify, h]
    exact ⟨_, rfl⟩

theorem Kindred.trans {l l₁ l₂ : List PartitionInfo} (h : Kindred l l₁) (h' : Kindred l₁ l₂) :
    Kindred l l₂ := by
  refine fun i => ⟨fun q' hq' => ?_, fun q hq => ?_⟩
  · obtain ⟨q₁, hq₁, hk₁⟩ := (h' i).1 q' hq'
    obtain ⟨q, hq, hk⟩ := (h i).1 q₁ hq₁
    exact ⟨q, hq, hk₁.disk.trans hk.disk, hk₁.start.trans hk.start, hk₁.sectors.trans hk.sectors,
      hk₁.readOnly.trans hk.readOnly, hk₁.mounted.trans hk.mounted, fun hf =>
        hk₁.failed (hk.failed hf)⟩
  · obtain ⟨q₁, hq₁⟩ := (h i).2 q hq
    exact (h' i).2 q₁ hq₁

variable {disks : Nat → Disk} {tables : Nat → Table} {volumes : List Volume}
    {l l' : List PartitionInfo}

/-- The layout is about the places only. -/
theorem Layout.kindred (h : Layout disks tables volumes l) (hk : Kindred l l') :
    Layout disks tables volumes l' where
  inside := by
    intro i q' hq'
    obtain ⟨q, hq, hkin⟩ := (hk i).1 q' hq'
    rw [hkin.start, hkin.sectors, hkin.disk]
    exact h.inside hq
  clear := by
    intro i lba q' hq' hcov
    obtain ⟨q, hq, hkin⟩ := (hk i).1 q' hq'
    rw [hkin.disk]
    exact h.clear hq (hkin.covers.mp hcov)
  apart := by
    intro i j lba q' r' hq' hr' hd hc hc'
    obtain ⟨q, hq, hkin⟩ := (hk i).1 q' hq'
    obtain ⟨r, hr, hkin'⟩ := (hk j).1 r' hr'
    exact h.apart hq hr (hkin.disk.symm.trans (hd.trans hkin'.disk)) (hkin.covers.mp hc)
      (hkin'.covers.mp hc')
  volumes := by
    intro i lba q' w hq' hm hw hd hc
    obtain ⟨q, hq, hkin⟩ := (hk i).1 q' hq'
    exact h.volumes hq (hkin.mounted.symm.trans hm) hw (hd.trans hkin.disk) (hkin.covers.mp hc)

/-- Nothing on disk `id` meets the sectors of `p`. -/
structure Avoids (volumes : List Volume) (l : List PartitionInfo) (id : Nat) (p : PartitionEntry) :
    Prop where
  partitions : ∀ {i lba : Nat} {q : PartitionInfo}, l[i]? = some q → q.disk = id → q.Covers lba →
    ¬ p.Covers lba
  volumes : ∀ {w : Volume} {lba : Nat}, w ∈ volumes → w.disk = id → w.Covers lba → ¬ p.Covers lba

/-- A partition of disk `id` and at most one volume in it are added. -/
theorem Layout.add (h : Layout disks tables volumes l) {id : Nat} {p : PartitionEntry}
    (ha : Avoids volumes l id p) (hin : p.start + p.length ≤ (disks id).geo.sectors)
    (hc : ∀ lba, p.Covers lba → ¬ (disks id).Reserved (tables id) lba) {vs : List Volume}
    (hvs : ∀ w ∈ vs, w.disk = id ∧ w.start = p.start ∧ w.length = p.length) :
    Layout disks tables (volumes ++ vs) l ∧ ∀ q : PartitionInfo, q.disk = id → q.start = p.start →
      q.sectors = p.length → (q.mounted = false → vs = []) →
      Layout disks tables (volumes ++ vs) (l ++ [q]) := by
  have hv : ∀ {w : Volume} {lba : Nat}, w ∈ vs → w.Covers lba → p.Covers lba := by
    intro w lba hw hcov
    obtain ⟨-, h₁, h₂⟩ := hvs w hw
    unfold Volume.Covers at hcov
    rwa [h₁, h₂] at hcov
  have hold : Layout disks tables (volumes ++ vs) l := by
    refine ⟨h.inside, h.clear, h.apart, fun {i lba q w} hq hm hw hd hcov hcov' => ?_⟩
    rcases List.mem_append.mp hw with hw | hw
    · exact h.volumes hq hm hw hd hcov hcov'
    · exact ha.partitions hq (hd.symm.trans (hvs w hw).1) hcov (hv hw hcov')
  refine ⟨hold, fun q hd hs hl hm => ?_⟩
  have hq : ∀ {lba}, q.Covers lba ↔ p.Covers lba := by
    intro lba
    rw [PartitionInfo.Covers, PartitionEntry.Covers, hs, hl]
  -- an index of the longer table is one of the old ones or that of `q`
  have hget : ∀ {i r}, (l ++ [q])[i]? = some r → l[i]? = some r ∨ i = l.length ∧ r = q := by
    intro i r hr
    rw [List.getElem?_append] at hr
    split at hr
    · exact .inl hr
    · rw [List.getElem?_singleton] at hr
      split at hr
      · next hi => exact .inr ⟨by omega, (Option.some.inj hr).symm⟩
      · cases hr
  constructor
  case inside =>
    intro i r hr
    rcases hget hr with hr | ⟨-, rfl⟩
    · exact hold.inside hr
    · rw [hs, hl, hd]
      exact hin
  case clear =>
    intro i lba r hr hcov
    rcases hget hr with hr | ⟨-, rfl⟩
    · exact hold.clear hr hcov
    · rw [hd]
      exact hc lba (hq.mp hcov)
  case apart =>
    intro i j lba r r' hr hr' hdd hcov hcov'
    rcases hget hr with hi | ⟨hi, rfl⟩
    · rcases hget hr' with hj | ⟨hj, rfl⟩
      · exact hold.apart hi hj hdd hcov hcov'
      · exact absurd (hq.mp hcov') (ha.partitions hi (hdd.trans hd) hcov)
    · rcases hget hr' with hj | ⟨hj, rfl⟩
      · exact absurd (hq.mp hcov) (ha.partitions hj (hdd.symm.trans hd) hcov')
      · rw [hi, hj]
  case volumes =>
    intro i lba r w hr hmt hw hdd hcov hcov'
    rcases hget hr with hr | ⟨-, rfl⟩
    · exact hold.volumes hr hmt hw hdd hcov hcov'
    · rw [hm hmt, List.append_nil] at hw
      exact ha.volumes hw (hdd.trans hd) hcov' (hq.mp hcov)

/-! ### The scan -/

theorem modify_length_append (l : List PartitionInfo) (q : PartitionInfo)
    (f : PartitionInfo → PartitionInfo) : (l ++ [q]).modify l.length f = l ++ [f q] := by
  induction l with
  | nil => rfl
  | cons a l ih => rw [List.cons_append, List.length_cons, List.modify_succ_cons, ih]; rfl

namespace System

variable {m m' : System} {probe : Probe} {id : Nat}

/-- Reading a disk leaves everything but its clock. -/
structure Idle (m m' : System) : Prop where
  disks : ∀ k, (m.drives k).disk.Same (m'.drives k).disk
  traces : ∀ k, (m'.drives k).trace = (m.drives k).trace
  scanned : m'.scanned = m.scanned
  driveCount : m'.driveCount = m.driveCount
  sched : ∃ l, m'.sched = { m.sched with partitions := l }

theorem Idle.trans {m₁ : System} (h : m.Idle m₁) (h' : m₁.Idle m') : m.Idle m' where
  disks k := (h.disks k).trans (h'.disks k)
  traces k := (h'.traces k).trans (h.traces k)
  scanned := h'.scanned.trans h.scanned
  driveCount := h'.driveCount.trans h.driveCount
  sched := by
    obtain ⟨l, hl⟩ := h.sched
    obtain ⟨l', hl'⟩ := h'.sched
    exact ⟨l', by rw [hl', hl]⟩

/-- A disk that was only read. -/
theorem Idle.setDisk (m : System) {k : Nat} {d : Disk} (hd : (m.drives k).disk.Same d) :
    m.Idle (m.setDisk k d) where
  disks j := by
    obtain rfl | hj := eq_or_ne j k
    · simpa [System.setDisk, onDrive] using hd
    · simpa [System.setDisk, onDrive, Function.update_of_ne hj] using .refl _
  traces j := by
    obtain rfl | hj := eq_or_ne j k
    · simp [System.setDisk, onDrive]
    · simp [System.setDisk, onDrive, Function.update_of_ne hj]
  scanned := rfl
  driveCount := rfl
  sched := ⟨m.sched.partitions, rfl⟩

/-- Another partition table. -/
theorem Idle.setPartitions (m : System) (l : List PartitionInfo) : m.Idle (m.setPartitions l) :=
  ⟨fun _ => .refl _, fun _ => rfl, rfl, rfl, l, rfl⟩

/-- A probe adds no volume or one with the sectors it was given. -/
theorem probed_spec (m : System) (id start length number : Nat) (native readOnly : Bool)
    (answer : Bool × Nat) :
    m.Idle (m.probed id start length number native readOnly answer) ∧
    (m.probed id start length number native readOnly answer).tables = m.tables ∧
    (m.probed id start length number native readOnly answer).sched = m.sched ∧
    ∃ vs : List Volume, (m.probed id start length number native readOnly answer).volumes =
        m.volumes ++ vs ∧ ∀ w ∈ vs, w.disk = id ∧ w.start = start ∧ w.length = length := by
  have h : m.Idle (m.setDisk id { (m.drives id).disk with clock := answer.2 }) :=
    Idle.setDisk m ⟨answer.2, rfl⟩
  unfold probed
  dsimp only
  split
  · exact ⟨⟨h.disks, h.traces, h.scanned, h.driveCount, h.sched⟩, rfl, rfl, _, rfl, by simp⟩
  · exact ⟨h, rfl, rfl, [], by simp [System.setDisk, onDrive], by simp⟩

/-- What one round over the partitions adds. -/
theorem mountPartition_spec (probe : Probe) (id : Nat) (recovered : Bool) (m : System)
    (p : PartitionEntry) :
    m.Idle (m.mountPartition probe id recovered p) ∧
    (m.mountPartition probe id recovered p).tables = m.tables ∧
    ∃ vs : List Volume, (m.mountPartition probe id recovered p).volumes = m.volumes ++ vs ∧
      (∀ w ∈ vs, w.disk = id ∧ w.start = p.start ∧ w.length = p.length) ∧
      ((m.mountPartition probe id recovered p).sched.partitions = m.sched.partitions ∨
        ∃ q : PartitionInfo, (m.mountPartition probe id recovered p).sched.partitions =
          m.sched.partitions ++ [q] ∧ q.disk = id ∧ q.start = p.start ∧ q.sectors = p.length ∧
          (q.mounted = false → vs = []) ∧ q.ownerPid = 0 ∧ q.failed = false) := by
  unfold mountPartition
  dsimp only
  -- in order: a place in the table, the FAT probe, the native probe, the marks of the partition
  generalize hl : (if m.sched.partitions.length < maxPartitions then _ else m : System) = m₁
  have h₁ : m.Idle m₁ ∧ m₁.tables = m.tables ∧ m₁.volumes = m.volumes := by
    rw [← hl]
    split
    · exact ⟨.setPartitions m _, rfl, rfl⟩
    · exact ⟨⟨fun _ => .refl _, fun _ => rfl, rfl, rfl, m.sched.partitions, rfl⟩, rfl, rfl⟩
  obtain ⟨h₂, ht₂, hs₂, vs, hv₂, hvs⟩ := m₁.probed_spec id p.start p.length p.number false
    (recovered || p.readOnly) (probe.fat (m₁.drives id).disk m₁.volumes p.start p.length p.number)
  rw [← fatMount] at h₂ ht₂ hs₂ hv₂
  generalize m₁.fatMount probe id p.start p.length p.number (recovered || p.readOnly) = m₂ at *
  generalize hn : (if m₂.volumes.length = m₁.volumes.length then _ else m₂ : System) = m₃
  have h₃ : m₂.Idle m₃ ∧ m₃.tables = m₂.tables ∧ m₃.sched = m₂.sched ∧
      ∃ vs : List Volume, m₃.volumes = m.volumes ++ vs ∧
        ∀ w ∈ vs, w.disk = id ∧ w.start = p.start ∧ w.length = p.length := by
    rw [← hn]
    split
    · next hlen =>
        obtain ⟨h, ht, hs, ws, hv, hws⟩ := m₂.probed_spec id p.start p.length p.number true
          (recovered || p.readOnly)
          (probe.native (m₂.drives id).disk m₂.volumes p.start p.length p.number)
        have hnil : vs = [] := by simpa [hv₂] using hlen
        refine ⟨h, ht, hs, ws, ?_, hws⟩
        rw [nativeProbe, hv, hv₂, hnil, List.append_nil, h₁.2.2]
    · refine ⟨⟨fun _ => .refl _, fun _ => rfl, rfl, rfl, m₂.sched.partitions, rfl⟩,
        rfl, rfl, vs, ?_, hvs⟩
      rw [hv₂, h₁.2.2]
  obtain ⟨hi₃, ht₃, hs₃, vs', hv₃, hvs'⟩ := h₃
  refine ⟨(h₁.1.trans (h₂.trans hi₃)).trans (.setPartitions m₃ _),
    ht₃.trans (ht₂.trans h₁.2.1), vs', hv₃, hvs', ?_⟩
  have hm : decide (m.volumes.length < m₃.volumes.length) = false → vs' = [] := by
    intro hd
    have hlt : ¬ m.volumes.length < m₃.volumes.length := by simpa using hd
    rw [hv₃, List.length_append] at hlt
    exact List.eq_nil_of_length_eq_zero (by omega)
  dsimp only [System.setPartitions]
  rw [hs₃, hs₂, ← hl]
  split
  · exact .inr ⟨_, modify_length_append _ _ _, rfl, rfl, rfl, hm, rfl, rfl⟩
  · refine .inl (List.modify_eq_self ?_)
    exact le_rfl

/-- What holds between two rounds of the scan; it found `disks`, and the scheduler at `σ`. -/
structure Scanned (disks : Nat → Disk) (σ : SchedState) (m : System) : Prop where
  layout : Layout disks m.tables m.volumes m.sched.partitions
  same : ∀ k, (disks k).Same (m.drives k).disk
  sched : ∃ l, m.sched = { σ with partitions := l }
  free : ∀ q ∈ m.sched.partitions, q.ownerPid = 0 ∧ q.failed = false
  untouched : ∀ k, m.scanned k = false →
    (∀ q ∈ m.sched.partitions, q.disk ≠ k) ∧ ∀ w ∈ m.volumes, w.disk ≠ k

variable {disks : Nat → Disk} {σ : SchedState}

/-- The mount changes nothing of the scheduler's state but the partitions. -/
theorem Scanned.sched_idle (h : m.Scanned disks σ) (hi : m.Idle m') :
    ∃ l, m'.sched = { σ with partitions := l } := by
  obtain ⟨l, hl⟩ := h.sched
  obtain ⟨l', hl'⟩ := hi.sched
  exact ⟨l', by rw [hl', hl]⟩

/-- Nothing but clocks has changed. -/
theorem Scanned.idle (h : m.Scanned disks σ) (hi : m.Idle m') (ht : m'.tables = m.tables)
    (hv : m'.volumes = m.volumes) (hp : m'.sched.partitions = m.sched.partitions) :
    m'.Scanned disks σ := by
  refine ⟨?_, fun k => (h.same k).trans (hi.disks k), h.sched_idle hi, ?_, fun k hk => ?_⟩
  · rw [ht, hv, hp]
    exact h.layout
  · rw [hp]
    exact h.free
  · rw [hi.scanned] at hk
    rw [hp, hv]
    exact h.untouched k hk

/-- One partition, and the partitions still to come. -/
theorem Scanned.round (h : m.Scanned disks σ) (hs : m.scanned id = true) (probe : Probe)
    (recovered : Bool) {p : PartitionEntry} (ha : Avoids m.volumes m.sched.partitions id p)
    (hin : p.start + p.length ≤ (disks id).geo.sectors)
    (hc : ∀ lba, p.Covers lba → ¬ (disks id).Reserved (m.tables id) lba) :
    (m.mountPartition probe id recovered p).Scanned disks σ ∧
    ∀ p' : PartitionEntry, p.Apart p' → Avoids m.volumes m.sched.partitions id p' →
      Avoids (m.mountPartition probe id recovered p).volumes
        (m.mountPartition probe id recovered p).sched.partitions id p' := by
  obtain ⟨hi, ht, vs, hv, hvs, hp⟩ := mountPartition_spec probe id recovered m p
  generalize m.mountPartition probe id recovered p = m' at *
  obtain ⟨hold, hnew⟩ := h.layout.add ha hin hc hvs
  have hdisj : ∀ {p' : PartitionEntry} {a n lba : Nat}, p.Apart p' → a = p.start → n = p.length →
      a ≤ lba ∧ lba < a + n → ¬ p'.Covers lba := by
    rintro p' a n lba hap rfl rfl hcov ⟨h₁, h₂⟩
    unfold PartitionEntry.Apart at hap
    omega
  have hvol : ∀ {p' : PartitionEntry} {w : Volume} {lba : Nat}, p.Apart p' →
      Avoids m.volumes m.sched.partitions id p' → w ∈ m'.volumes → w.disk = id → w.Covers lba →
      ¬ p'.Covers lba := by
    intro p' w lba hap ha' hw hd hcov
    rw [hv, List.mem_append] at hw
    rcases hw with hw | hw
    · exact ha'.volumes hw hd hcov
    · obtain ⟨-, h₁, h₂⟩ := hvs w hw
      exact hdisj hap h₁ h₂ hcov
  have hother : ∀ k, m'.scanned k = false → (∀ w ∈ m'.volumes, w.disk ≠ k) ∧ id ≠ k := by
    intro k hk
    rw [hi.scanned] at hk
    have hne : id ≠ k := by
      rintro rfl
      rw [hs] at hk
      cases hk
    refine ⟨fun w hw => ?_, hne⟩
    rw [hv, List.mem_append] at hw
    rcases hw with hw | hw
    · exact (h.untouched k hk).2 w hw
    · rwa [(hvs w hw).1]
  have hsame := fun k => (h.same k).trans (hi.disks k)
  -- the partition is left out, or it is added to the table
  rcases hp with hp | ⟨q, hp, hd, hst, hlen, hm, hown, hfail⟩
  · refine ⟨⟨?_, hsame, h.sched_idle hi, ?_, fun k hk => ?_⟩, fun p' hap ha' => ⟨?_, hvol hap ha'⟩⟩
    · rw [ht, hv, hp]
      exact hold
    · rw [hp]
      exact h.free
    · obtain ⟨hw, -⟩ := hother k hk
      rw [hi.scanned] at hk
      rw [hp]
      exact ⟨(h.untouched k hk).1, hw⟩
    · rw [hp]
      exact ha'.partitions
  · refine ⟨⟨?_, hsame, h.sched_idle hi, ?_, fun k hk => ?_⟩, fun p' hap ha' => ⟨?_, hvol hap ha'⟩⟩
    · rw [ht, hv, hp]
      exact hnew q hd hst hlen hm
    · rw [hp]
      intro r hr
      rcases List.mem_append.mp hr with hr | hr
      · exact h.free r hr
      · obtain rfl := List.mem_singleton.mp hr
        exact ⟨hown, hfail⟩
    · obtain ⟨hw, hne⟩ := hother k hk
      rw [hi.scanned] at hk
      rw [hp]
      refine ⟨fun r hr => ?_, hw⟩
      rcases List.mem_append.mp hr with hr | hr
      · exact (h.untouched k hk).1 r hr
      · obtain rfl := List.mem_singleton.mp hr
        rwa [hd]
    · rw [hp]
      intro i lba r hr hrd hcov
      rw [List.getElem?_append] at hr
      split at hr
      · exact ha'.partitions hr hrd hcov
      · rw [List.getElem?_singleton] at hr
        split at hr
        · obtain rfl := Option.some.inj hr
          exact hdisj hap hst hlen hcov
        · cases hr

/-- The loop over the partitions of a disk. -/
theorem Scanned.rounds (recovered : Bool) (parts : List PartitionEntry) :
    ∀ {m : System}, m.Scanned disks σ → m.scanned id = true →
      (∀ p ∈ parts, Avoids m.volumes m.sched.partitions id p) →
      PartsOk (disks id) (m.tables id) parts →
      (parts.foldl (mountPartition probe id recovered) m).Scanned disks σ ∧
        m.Idle (parts.foldl (mountPartition probe id recovered) m) := by
  induction parts with
  | nil =>
      intro m h _ _ _
      exact ⟨h, fun _ => .refl _, fun _ => rfl, rfl, rfl, m.sched.partitions, rfl⟩
  | cons p parts ih =>
      intro m h hs ha hp
      obtain ⟨hi, ht, -⟩ := mountPartition_spec probe id recovered m p
      obtain ⟨h₁, h₂⟩ := h.round hs probe recovered (ha p List.mem_cons_self)
        (hp.inside p List.mem_cons_self) (hp.clear p List.mem_cons_self)
      obtain ⟨hap, hap'⟩ := List.pairwise_cons.mp hp.apart
      obtain ⟨h₃, hi₃⟩ := ih h₁ (by rw [hi.scanned, hs])
        (fun p' hp' => h₂ p' (hap p' hp') (ha p' (List.mem_cons_of_mem _ hp')))
        ⟨fun p' hp' => hp.inside p' (List.mem_cons_of_mem _ hp'), hap', fun p' hp' => by
          rw [ht]
          exact hp.clear p' (List.mem_cons_of_mem _ hp')⟩
      exact ⟨h₃, hi.trans hi₃⟩

/-- A disk that is scanned has nothing on it yet. -/
theorem Scanned.avoids (h : m.Scanned disks σ) (hs : m.scanned id = false) (p : PartitionEntry) :
    Avoids m.volumes m.sched.partitions id p where
  partitions hq hd := absurd hd ((h.untouched id hs).1 _ (List.mem_of_getElem? hq))
  volumes hw hd := absurd hd ((h.untouched id hs).2 _ hw)

/-- The disk is one volume and has no partitions. -/
theorem Scanned.superfloppy (h : m.Scanned disks σ) (hs : m.scanned id = true)
    (hno : ∀ q ∈ m.sched.partitions, q.disk ≠ id) (probe : Probe) (length : Nat) (readOnly : Bool) :
    (m.fatMount probe id 0 length 0 readOnly).Scanned disks σ ∧
      m.Idle (m.fatMount probe id 0 length 0 readOnly) := by
  obtain ⟨hi, ht, hsch, vs, hv, hvs⟩ := m.probed_spec id 0 length 0 false readOnly
    (probe.fat (m.drives id).disk m.volumes 0 length 0)
  rw [← fatMount] at hi ht hsch hv
  generalize m.fatMount probe id 0 length 0 readOnly = m' at *
  have hp := congrArg SchedState.partitions hsch
  refine ⟨⟨?_, fun k => (h.same k).trans (hi.disks k), h.sched_idle hi, ?_, fun k hk => ?_⟩, hi⟩
  · rw [ht, hv, hp]
    refine ⟨h.layout.inside, h.layout.clear, h.layout.apart, fun {i lba q w} hq hm hw hd hcov => ?_⟩
    rcases List.mem_append.mp hw with hw | hw
    · exact h.layout.volumes hq hm hw hd hcov
    · exact absurd (hd.symm.trans (hvs w hw).1) (hno q (List.mem_of_getElem? hq))
  · rw [hp]
    exact h.free
  · rw [hi.scanned] at hk
    rw [hp]
    refine ⟨(h.untouched k hk).1, fun w hw => ?_⟩
    rw [hv, List.mem_append] at hw
    rcases hw with hw | hw
    · exact (h.untouched k hk).2 w hw
    · rw [(hvs w hw).1]
      rintro rfl
      rw [hs] at hk
      cases hk

/-- One disk. -/
theorem Scanned.disk (h : m.Scanned disks σ) (probe : Probe) (id : Nat) :
    (m.mountDisk probe id).Scanned disks σ := by
  unfold mountDisk
  dsimp only
  split
  · exact h
  · next hs =>
      have hs' : m.scanned id = false := by
        rw [not_or] at hs
        simpa using hs.1
      obtain ⟨hno, hnov⟩ := h.untouched id hs'
      -- the flag is set before anything is read
      have h₀ : Scanned disks σ { m with scanned := Function.update m.scanned id true } := by
        refine ⟨h.layout, h.same, h.sched, h.free, fun k hk => ?_⟩
        refine h.untouched k ?_
        obtain rfl | hne := eq_or_ne k id
        · simp at hk
        · dsimp only at hk
          rwa [Function.update_of_ne hne] at hk
      have hset : ∀ {d : Disk}, (m.drives id).disk.Same d →
          Scanned disks σ
            (({ m with scanned := Function.update m.scanned id true } : System).setDisk
            id d) := fun hd => h₀.idle (.setDisk _ hd) rfl rfl rfl
      split
      · exact h₀
      · have hread := Reads.kDiskRead 0 1 4096 (m.drives id).disk
        split
        · next d heq =>
            rw [heq] at hread
            exact hset hread
        · next sector d heq =>
            rw [heq] at hread
            have hsec : sector = (disks id).span 0 1 := by
              rw [(kDiskRead_returns heq).1, (h.same id).span]
            split
            · exact hset hread
            · have htab := Reads.partitionTable sector d
              split
              · next table recovered p parts d' heq' =>
                  rw [heq'] at htab
                  have hd' := hread.trans htab
                  have hok : PartsOk (disks id) table (p :: parts) := by
                    rw [hsec] at heq'
                    exact PartsOk.of_table ((h.same id).trans hread) heq'
                  have hdisk := hset hd'
                  have h₁ : Scanned disks σ { ({ m with
                      scanned := Function.update m.scanned id true } : System).setDisk id d' with
                      tables := Function.update m.tables id table } := by
                    refine ⟨⟨hdisk.layout.inside, fun {i lba q} hq hcov => ?_, hdisk.layout.apart,
                      hdisk.layout.volumes⟩, hdisk.same, hdisk.sched, hdisk.free, hdisk.untouched⟩
                    have hne : q.disk ≠ id := hno q (List.mem_of_getElem? hq)
                    dsimp only
                    rw [Function.update_of_ne hne]
                    exact h.layout.clear hq hcov
                  have hok' : PartsOk (disks id) (Function.update m.tables id table id)
                      (p :: parts) := by
                    rwa [Function.update_self]
                  exact (h₁.rounds recovered (p :: parts) (by simp [System.setDisk, onDrive])
                    (fun p' _ => h.avoids hs' p') hok').1
              · next d' heq' =>
                  rw [heq'] at htab
                  have hd' := hread.trans htab
                  split
                  · exact hset hd'
                  · exact ((hset hd').superfloppy
                      (by simp [System.setDisk, onDrive]) hno probe _ _).1
              · next d' heq' =>
                  rw [heq'] at htab
                  have hd' := hread.trans htab
                  split
                  · exact hset hd'
                  · exact ((hset hd').superfloppy
                      (by simp [System.setDisk, onDrive]) hno probe _ _).1

/-- **The scan** leaves a sound layout and free partitions. -/
theorem Scanned.kVfsMountDisks (h : m.Scanned disks σ) (probe : Probe) :
    (m.kVfsMountDisks probe).Scanned disks σ := by
  unfold System.kVfsMountDisks
  generalize List.range m.driveCount = ids
  induction ids generalizing m with
  | nil => exact h
  | cons id ids ih => exact ih (h.disk probe id)

/-- At first nothing is mounted. -/
theorem Fresh.scanned_nil (h : m.Fresh) : m.Scanned (fun k => (m.drives k).disk) m.sched := by
  obtain ⟨discovered, timerHz, stack, hd, hs, he⟩ := h.sched
  have hp : m.sched.partitions = [] := by
    have hf := (SchedState.Kept.fillTask (SchedState.booted discovered timerHz) 1 1 0 true
      stack).partitions
    have hc : ∀ (σ : SchedState) (f : CpuState → CpuState),
        (σ.onCpu 0 f).partitions = σ.partitions :=
      fun _ _ => rfl
    rw [he, SchedState.initial_eq hs, hc, hf]
    rfl
  refine ⟨?_, fun k => .refl _, ⟨m.sched.partitions, rfl⟩, by simp [hp], by simp [hp, h.volumes]⟩
  rw [hp, h.volumes]
  constructor <;> simp

end System

end Efishell
