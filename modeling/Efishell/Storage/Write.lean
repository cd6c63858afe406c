import Efishell.Storage.Disk

/-!
# Storage — writes

`disk_write_fs` and `disk_flush`.  A drive is a disk with what its kind decides: how many sectors
one write command takes, and whether there is a command to flush.  A write command that fails leaves
its sectors with any contents at all (`torn`).  `trace` records the sectors of the write commands
sent so far.  What a failure does to the controller shows in the answers to the commands that
follow.

* `diskWriteFs_wrote`: a write changes its own sectors at most.
-/

namespace Efishell

/-- A disk, with what its driver does on a write. -/
structure Drive where
  disk : Disk
  /-- `DISK_ATA`: one sector at a time. -/
  ata : Bool
  flushCommand : Bool
  torn : Nat → Bytes
  trace : List Nat

/-- The sectors that one command writes at most. -/
def Drive.chunk (d : Drive) : Nat := if d.ata then 1 else 4096 / d.disk.geo.sectorSize

/-- The `n` bytes from `off` on are those of `src` at `at_`. -/
def Drive.store (d : Drive) (off : Nat) (src : Bytes) (at_ n : Nat) : Drive :=
  { d with disk := { d.disk with image := memCopy d.disk.image off src at_ n } }

/-- One command that writes `sectors` sectors at `lba` with the bytes of `p` from `at_` on. -/
def writeCommand (lba sectors : Nat) (p : Bytes) (at_ : Nat) : Io Errno Drive Unit := fun d =>
  let size := d.disk.geo.sectorSize
  let torn := d.torn d.disk.clock
  match command d.disk with
  | (.ok (), disk) =>
      (.ok (), { d with disk, trace := d.trace ++ List.range' lba sectors }.store (lba * size) p at_
        (sectors * size))
  | (.error e, disk) =>
      (.error e, { d with disk, trace := d.trace ++ List.range' lba sectors }.store
        (lba * size) torn 0
        (sectors * size))

/-- The loop of `disk_write_fs`; a round writes at least one sector, so `count` rounds are
enough. -/
def diskWriteLoop (p : Bytes) : Nat → Nat → Nat → Nat → Io Errno Drive Unit
  | 0, _, _, _ => return ()
  | fuel + 1, lba, count, at_ =>
      if count = 0 then return ()
      else do
        let d ← Io.get
        let sectors := min count d.chunk
        writeCommand lba sectors p at_
        diskWriteLoop p fuel (lba + sectors) (count - sectors)
          (at_ + sectors * d.disk.geo.sectorSize)

/-- `disk_write_fs`. -/
def diskWriteFs (lba count : Nat) (p : Bytes) (bytes : Nat) : Io Errno Drive Unit := do
  let d ← Io.get
  Io.lift (diskRange d.disk lba count bytes)
  if d.disk.ram = false ∧ d.flushCommand = false then Io.fail .erofs
  else diskWriteLoop p count lba count 0

/-- A command of the disk below. -/
def onDisk {α : Type} (x : Io Errno Disk α) : Io Errno Drive α := fun d =>
  match x d.disk with
  | (r, disk) => (r, { d with disk })

/-- `disk_flush`. -/
def diskFlush : Io Errno Drive Unit := do
  let d ← Io.get
  if d.disk.online = false then Io.fail .eio
  else if d.disk.ram then return ()
  else if d.flushCommand = false then Io.fail .erofs
  else onDisk command

/-! ### What a write can change -/

/-- The drive afterwards: the sectors sent are sectors of `[lo, hi)`, and a byte outside of them
stays. -/
structure Drive.Wrote (lo hi : Nat) (d d' : Drive) : Prop where
  geo : d'.disk.geo = d.disk.geo
  online : d'.disk.online = d.disk.online
  trace : ∃ l, d'.trace = d.trace ++ l ∧ (∀ lba ∈ l, lo ≤ lba ∧ lba < hi) ∧
    ∀ b, d'.disk.image b ≠ d.disk.image b → b / d.disk.geo.sectorSize ∈ l

namespace Drive.Wrote

variable {lo hi : Nat} {d d₁ d' : Drive}

theorem refl (lo hi : Nat) (d : Drive) : d.Wrote lo hi d :=
  ⟨rfl, rfl, [], by simp, by simp, fun _ h => absurd rfl h⟩

/-- One write after another. -/
theorem trans (h : d.Wrote lo hi d₁) (h' : d₁.Wrote lo hi d') : d.Wrote lo hi d' := by
  obtain ⟨l, hl, hin, himg⟩ := h.trace
  obtain ⟨l', hl', hin', himg'⟩ := h'.trace
  refine ⟨h'.geo.trans h.geo, h'.online.trans h.online, l ++ l', by rw [hl', hl, List.append_assoc],
    fun lba hm => ?_, fun b hb => ?_⟩
  · exact (List.mem_append.mp hm).elim (hin lba) (hin' lba)
  · rw [List.mem_append]
    by_cases hb₁ : d₁.disk.image b = d.disk.image b
    · rw [h.geo] at himg'
      exact .inr (himg' b (by rwa [hb₁]))
    · exact .inl (himg b hb₁)

end Drive.Wrote

/-- A command changes the clock only. -/
theorem command_cases (d : Disk) : ∃ r t, command d = (r, { d with clock := t }) := by
  unfold command
  split
  · exact ⟨.ok (), d.clock, rfl⟩
  · split
    · exact ⟨.ok (), d.clock + 1, rfl⟩
    · next e _ => exact ⟨.error e, d.clock + 1, rfl⟩

/-- A write command writes its own sectors at most. -/
theorem writeCommand_wrote {lo hi lba sectors at_ : Nat} {p : Bytes} (hlo : lo ≤ lba)
    (hhi : lba + sectors ≤ hi) (d : Drive) :
    d.Wrote lo hi (writeCommand lba sectors p at_ d).2 := by
  obtain ⟨r, t, hc⟩ := command_cases d.disk
  have himg : ∀ (src : Bytes) (k b : Nat),
      memCopy d.disk.image (lba * d.disk.geo.sectorSize) src k (sectors * d.disk.geo.sectorSize) b ≠
        d.disk.image b → b / d.disk.geo.sectorSize ∈ List.range' lba sectors := by
    intro src k b hb
    have hpos := d.disk.geo.sectorSize_pos
    by_contra hn
    refine hb (memCopy_ne ?_)
    rw [List.mem_range'_1, not_and_or, not_le, not_lt] at hn
    rcases hn with hn | hn
    · exact .inl ((Nat.div_lt_iff_lt_mul hpos).mp hn)
    · rw [Nat.le_div_iff_mul_le hpos, Nat.add_mul] at hn
      exact .inr hn
  have hin : ∀ l ∈ List.range' lba sectors, lo ≤ l ∧ l < hi := by
    intro l hl
    rw [List.mem_range'_1] at hl
    omega
  unfold writeCommand
  dsimp only
  rw [hc]
  cases r with
  | ok u => exact ⟨rfl, rfl, _, rfl, hin, himg _ _⟩
  | error e => exact ⟨rfl, rfl, _, rfl, hin, himg _ _⟩

theorem diskWriteLoop_wrote {lo hi : Nat} {p : Bytes} {fuel : Nat} :
    ∀ {lba count at_ : Nat}, lo ≤ lba → lba + count ≤ hi → ∀ d : Drive,
      d.Wrote lo hi (diskWriteLoop p fuel lba count at_ d).2 := by
  induction fuel with
  | zero =>
      intro lba count at_ _ _ d
      exact .refl lo hi d
  | succ fuel ih =>
      intro lba count at_ hlo hhi d
      rw [diskWriteLoop]
      split
      · exact .refl lo hi d
      · have hw : d.Wrote lo hi (writeCommand lba (min count d.chunk) p at_ d).2 :=
          writeCommand_wrote hlo (by omega) d
        rw [Io.bind_run, Io.get_run]
        dsimp only
        rw [Io.bind_run]
        cases hr : writeCommand lba (min count d.chunk) p at_ d with
        | mk r d₁ =>
            rw [hr] at hw
            cases r with
            | ok u => exact hw.trans (ih (by omega) (by omega) d₁)
            | error e => exact hw

theorem diskWriteFs_wrote (lba count : Nat) (p : Bytes) (bytes : Nat) (d : Drive) :
    d.Wrote lba (lba + count) (diskWriteFs lba count p bytes d).2 := by
  rw [diskWriteFs, Io.bind_run, Io.get_run]
  dsimp only
  rw [Io.bind_run, Io.lift_run]
  cases diskRange d.disk lba count bytes with
  | error e => exact .refl _ _ d
  | ok u =>
      dsimp only
      split
      · exact .refl _ _ d
      · exact diskWriteLoop_wrote le_rfl le_rfl d

theorem onDisk_command_wrote (lo hi : Nat) (d : Drive) : d.Wrote lo hi (onDisk command d).2 := by
  obtain ⟨r, t, hc⟩ := command_cases d.disk
  rw [onDisk, hc]
  exact ⟨rfl, rfl, [], by simp, by simp, fun _ h => absurd rfl h⟩

/-- A flush writes nothing. -/
theorem diskFlush_wrote (lo hi : Nat) (d : Drive) : d.Wrote lo hi (diskFlush d).2 := by
  rw [diskFlush, Io.bind_run, Io.get_run]
  dsimp only
  split
  · exact .refl _ _ d
  · split
    · exact .refl _ _ d
    · split
      · exact .refl _ _ d
      · exact onDisk_command_wrote lo hi d

end Efishell
