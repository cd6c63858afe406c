import Efishell.Storage.Write

/-!
# Storage — how disk calls end

The calls of the two modules before this one, each with everything that it can come to: a value and
a disk, or an error.  A call in range fails only when the drive is not reliable: it is offline, a
command gets an error, or it has no command to flush.  Whatever happens, nothing changes but what
was to be written.

* `diskBytes_ends`, `diskWriteFs_ends`, `diskFlush_ends`: the three calls, in range.
* `diskBytes_commutes`, `diskWriteFs_commutes`: they look at nothing outside their range.
-/

namespace Efishell

/-- Every command from now on succeeds. -/
def Disk.Reliable (d : Disk) : Prop :=
  d.online = true ∧ (d.ram = true ∨ ∀ k, d.clock ≤ k → d.outcome k = none)

/-- Commands were sent, all of them with success. -/
structure Disk.Passes (d d' : Disk) : Prop where
  same : d.Same d'
  reliable : d.Reliable → d'.Reliable

/-- A command failed. -/
structure Disk.Breaks (d d' : Disk) : Prop where
  same : d.Same d'
  unreliable : ¬ d.Reliable

namespace Disk

variable {d d₁ d' : Disk}

theorem Passes.refl (d : Disk) : d.Passes d := ⟨.refl d, id⟩

theorem Passes.trans (h : d.Passes d₁) (h' : d₁.Passes d') : d.Passes d' :=
  ⟨h.same.trans h'.same, h'.reliable ∘ h.reliable⟩

/-- What passes first may break afterwards. -/
theorem Passes.breaks (h : d.Passes d₁) (h' : d₁.Breaks d') : d.Breaks d' :=
  ⟨h.same.trans h'.same, fun hr => h'.unreliable (h.reliable hr)⟩

end Disk

/-- A command passes, or the disk has broken. -/
theorem command_ends (d : Disk) : Io.Ends command d (fun _ => d.Passes) (fun _ => d.Breaks) := by
  rw [Io.Ends, command]
  split
  · next h =>
      split at h
      · cases h
        exact .refl d
      · split at h
        · cases h
          refine ⟨⟨_, rfl⟩, fun h => ⟨h.1, h.2.imp_right fun hall k hk => hall k ?_⟩⟩
          exact Nat.le_of_succ_le hk
        · cases h
  · next h =>
      split at h
      · cases h
      · next hram =>
          split at h
          · cases h
          · next e he =>
              cases h
              refine ⟨⟨_, rfl⟩, fun h => ?_⟩
              rcases h.2 with hr | hr
              · exact hram hr
              · rw [hr _ (Nat.le_refl _)] at he
                cases he

/-- `k_disk_read` returns the bytes of its sectors. -/
theorem kDiskRead_ends {d : Disk} {lba count bytes : Nat} (hc : count ≠ 0)
    (hin : lba + count ≤ d.geo.sectors) (hb : count * d.geo.sectorSize ≤ bytes) :
    Io.Ends (kDiskRead lba count bytes) d (fun b d' => b = d.span lba count ∧ d.Passes d')
      (fun _ => d.Breaks) := by
  rw [kDiskRead]
  refine Io.ends_bind.mpr
    (Io.ends_get.mpr (Io.ends_bind.mpr (Io.ends_lift.mpr ⟨fun _ _ => ?_, fun e he => ?_⟩)))
  · exact (command_ends d).bind fun _ d' h => Io.ends_pure.mpr ⟨rfl, h⟩
  · refine ⟨.refl d, fun hr => ?_⟩
    rw [diskRange, if_neg hc, hr.1, if_neg (by simp), if_neg (by omega)] at he
    cases he

/-- The loop of `disk_bytes`, by induction on the fuel. -/
theorem diskBytesLoop_ends {fuel : Nat} : ∀ {d : Disk} {offset n p : Nat} {out : Bytes}, n ≤ fuel →
    offset + n ≤ d.geo.sectors * d.geo.sectorSize →
    Io.Ends (diskBytesLoop fuel offset n p out) d (fun _ => d.Passes) (fun _ => d.Breaks) := by
  induction fuel with
  | zero =>
      intro d offset n p out _ _
      exact .refl d
  | succ fuel ih =>
      intro d offset n p out hn hin
      rw [diskBytesLoop]
      refine .ite (fun _ => .refl d) fun hn0 => Io.ends_bind.mpr (Io.ends_get.mpr ?_)
      have hpos := d.geo.sectorSize_pos
      -- the rest of the loop, after `k` bytes were read
      have hrest : ∀ {k : Nat} {d₁ : Disk} {q : Nat} {out : Bytes}, 0 < k → k ≤ n → d.Passes d₁ →
          Io.Ends (diskBytesLoop fuel (offset + k) (n - k) q out) d₁ (fun _ => d.Passes)
            (fun _ => d.Breaks) := by
        intro k d₁ q out hk hkn h₁
        exact (ih (by omega) (by rw [h₁.same.geo]; omega)).mono (fun _ _ => h₁.trans) fun _ _ =>
          h₁.breaks
      refine .ite (fun h => ?_) fun _ => ?_
      · obtain ⟨ha, hsz⟩ := h
        have hq : 0 < n / d.geo.sectorSize := Nat.div_pos hsz hpos
        have hk : min (n / d.geo.sectorSize) 128 * d.geo.sectorSize ≤ n :=
          (Nat.mul_le_mul_right _ (Nat.min_le_left _ _)).trans (Nat.div_mul_le_self _ _)
        have hk0 : 0 < min (n / d.geo.sectorSize) 128 * d.geo.sectorSize :=
          Nat.mul_pos (by omega) hpos
        have hoff := Nat.div_mul_cancel (Nat.dvd_of_mod_eq_zero ha)
        refine (kDiskRead_ends (by omega) ?_ hk).bind fun b d₁ h₁ => hrest hk0 hk h₁.2
        refine Nat.le_of_mul_le_mul_right ?_ hpos
        rw [Nat.add_mul]
        omega
      · have hlt := Nat.mod_lt offset hpos
        have hmax := d.geo.sectorSize_max
        refine (kDiskRead_ends Nat.one_ne_zero ?_ (by omega)).bind fun b d₁ h₁ =>
          hrest (by omega) (Nat.min_le_left _ _) h₁.2
        exact (Nat.div_lt_iff_lt_mul hpos).mpr (by omega)

/-- **`disk_bytes`** in range: the slice of the disk. -/
theorem diskBytes_ends {d : Disk} {offset n : Nat}
    (hin : offset + n ≤ d.geo.sectors * d.geo.sectorSize) :
    Io.Ends (diskBytes offset n) d (fun b d' => (∀ i < n, b i = d.image (offset + i)) ∧ d.Passes d')
      (fun _ => d.Breaks) := by
  have h : Io.Ends (diskBytes offset n) d (fun _ => d.Passes) (fun _ => d.Breaks) := by
    rw [diskBytes]
    refine Io.ends_bind.mpr (Io.ends_get.mpr (.ite (fun hout => ?_) fun _ => ?_))
    · rw [Nat.mod_eq_of_lt d.geo.mul_lt] at hout
      omega
    · exact diskBytesLoop_ends (Nat.le_refl n) hin
  rw [Io.Ends] at h ⊢
  cases hr : diskBytes offset n d with
  | mk r d' =>
      rw [hr] at h
      cases r with
      | ok b => exact ⟨(diskBytes_returns hr).1, h⟩
      | error e => exact h

/-- Out of range it reads nothing. -/
theorem diskBytes_outside {d : Disk} {offset n : Nat}
    (hout : d.geo.sectors * d.geo.sectorSize < offset + n) :
    diskBytes offset n d = (.error .einval, d) := by
  rw [diskBytes, Io.bind_run, Io.get_run]
  dsimp only
  rw [Nat.mod_eq_of_lt d.geo.mul_lt, if_pos (by omega), Io.fail_run]

/-! ### Writes -/

/-- Every command succeeds, and there is one to flush. -/
def Drive.Reliable (d : Drive) : Prop :=
  d.disk.Reliable ∧ (d.disk.ram = true ∨ d.flushCommand = true)

/-- The drive is the same but for its contents and what was sent. -/
structure Drive.Like (d d' : Drive) : Prop where
  geo : d'.disk.geo = d.disk.geo
  reliable : d.Reliable → d'.Reliable

/-- A command failed: only bytes that satisfy `P` may have changed. -/
structure Drive.Breaks (P : Nat → Prop) (d d' : Drive) : Prop where
  geo : d'.disk.geo = d.disk.geo
  image : ∀ b, ¬ P b → d'.disk.image b = d.disk.image b
  unreliable : ¬ d.Reliable

namespace Drive

variable {d d₁ d' : Drive}

theorem Like.refl (d : Drive) : d.Like d := ⟨rfl, id⟩

/-- What passes on the disk passes on the drive. -/
theorem like_of_passes {disk : Disk} (h : d.disk.Passes disk) : d.Like { d with disk } := by
  obtain ⟨⟨t, rfl⟩, hr⟩ := h
  exact ⟨rfl, fun ⟨h₁, h₂⟩ => ⟨hr h₁, h₂⟩⟩

/-- A drive breaks with its disk. -/
theorem breaks_of_breaks {P : Nat → Prop} {disk : Disk} (h : d.disk.Breaks disk) :
    d.Breaks P { d with disk } := by
  obtain ⟨⟨t, rfl⟩, hr⟩ := h
  exact ⟨rfl, fun _ _ => rfl, fun hd => hr hd.1⟩

end Drive

/-- A write command writes its sector, or the drive breaks. -/
theorem writeCommand_ends (d : Drive) (lba : Nat) (p : Bytes) :
    Io.Ends (writeCommand lba 1 p 0) d
      (fun _ d' => d.Like d' ∧
        d'.disk.image = memCopy d.disk.image
          (lba * d.disk.geo.sectorSize) p 0 d.disk.geo.sectorSize)
      (fun _ => d.Breaks fun b => lba * d.disk.geo.sectorSize ≤ b ∧
        b < lba * d.disk.geo.sectorSize + d.disk.geo.sectorSize) := by
  have hcmd := command_ends d.disk
  rw [Io.Ends] at hcmd
  cases hc : command d.disk with
  | mk r disk =>
      rw [hc] at hcmd
      cases r with
      | ok u =>
          obtain ⟨⟨t, rfl⟩, hr⟩ := hcmd
          simp only [Io.Ends, writeCommand, hc, Drive.store, Nat.one_mul]
          exact ⟨⟨rfl, fun h => ⟨hr h.1, h.2⟩⟩, trivial⟩
      | error e =>
          obtain ⟨⟨t, rfl⟩, hr⟩ := hcmd
          simp only [Io.Ends, writeCommand, hc, Drive.store, Nat.one_mul]
          refine ⟨rfl, fun b hb => ?_, fun hd => hr hd.1⟩
          exact memCopy_ne (by omega)

/-- One command writes a sector. -/
theorem Drive.chunk_one (d : Drive) : min 1 d.chunk = 1 := by
  have h := Nat.div_pos d.disk.geo.sectorSize_max d.disk.geo.sectorSize_pos
  rw [Drive.chunk]
  split <;> omega

/-- One sector is written. -/
theorem diskWriteFs_ends {d : Drive} {lba : Nat} {p : Bytes} (hin : lba < d.disk.geo.sectors) :
    Io.Ends (diskWriteFs lba 1 p d.disk.geo.sectorSize) d
      (fun _ d' => d.Like d' ∧
        d'.disk.image = memCopy d.disk.image
          (lba * d.disk.geo.sectorSize) p 0 d.disk.geo.sectorSize)
      (fun _ => d.Breaks fun b => lba * d.disk.geo.sectorSize ≤ b ∧
        b < lba * d.disk.geo.sectorSize + d.disk.geo.sectorSize) := by
  rw [diskWriteFs]
  refine Io.ends_bind.mpr
    (Io.ends_get.mpr (Io.ends_bind.mpr (Io.ends_lift.mpr ⟨fun _ _ => ?_, fun e he => ?_⟩)))
  · refine .ite (fun hf => ?_) fun _ => ?_
    · refine Io.ends_fail.mpr ⟨rfl, fun _ _ => rfl, fun hr => ?_⟩
      rcases hr.2 with h | h
      · rw [h] at hf
        cases hf.1
      · rw [h] at hf
        cases hf.2
    · rw [diskWriteLoop, if_neg Nat.one_ne_zero]
      refine Io.ends_bind.mpr (Io.ends_get.mpr ?_)
      rw [d.chunk_one]
      exact (writeCommand_ends d lba p).bind fun _ d' h => h
  · refine ⟨rfl, fun _ _ => rfl, fun hr => ?_⟩
    rw [diskRange, if_neg Nat.one_ne_zero, hr.1.1, if_neg (by simp), if_neg (by omega)] at he
    cases he

/-- What ends so on the disk ends so on the drive. -/
theorem onDisk_ends {α : Type} {x : Io Errno Disk α} {d : Drive} {Q : α → Prop} (P : Nat → Prop)
    (h : Io.Ends x d.disk (fun a d' => Q a ∧ d.disk.Passes d') (fun _ => d.disk.Breaks)) :
    Io.Ends (onDisk x) d (fun a d' => Q a ∧ d.Like d' ∧ d'.disk.image = d.disk.image)
      (fun _ => d.Breaks P) := by
  rw [Io.Ends] at h ⊢
  rw [onDisk]
  cases hx : x d.disk with
  | mk r disk =>
      rw [hx] at h
      cases r with
      | ok a => exact ⟨h.1, Drive.like_of_passes h.2, h.2.same.image⟩
      | error e => exact Drive.breaks_of_breaks h

/-- A flush changes no byte. -/
theorem diskFlush_ends (P : Nat → Prop) (d : Drive) :
    Io.Ends diskFlush d (fun _ d' => d.Like d' ∧ d'.disk.image = d.disk.image)
      (fun _ => d.Breaks P) := by
  have hno : ∀ {x : Drive}, x = d → ¬ d.Reliable → d.Breaks P x := by
    rintro x rfl h
    exact ⟨rfl, fun _ _ => rfl, h⟩
  rw [diskFlush]
  refine Io.ends_bind.mpr
    (Io.ends_get.mpr (.ite (fun ho => ?_) fun _ => .ite (fun _ => ?_) fun hram =>
      .ite (fun hf => ?_) fun _ => ?_))
  · refine hno rfl fun hr => ?_
    rw [hr.1.1] at ho
    cases ho
  · exact Io.ends_pure.mpr ⟨.refl d, rfl⟩
  · refine hno rfl fun hr => ?_
    rcases hr.2 with h | h
    · exact hram h
    · rw [h] at hf
      cases hf
  · have hc :
        Io.Ends command d.disk (fun _ d' => True ∧ d.disk.Passes d') (fun _ => d.disk.Breaks) :=
      (command_ends d.disk).mono (fun _ _ h => ⟨trivial, h⟩) fun _ _ h => h
    exact (onDisk_ends P hc).mono (fun _ _ h => h.2) fun _ _ h => h

/-! ### Nothing outside -/

/-- The bytes of `b` in `[lo, hi)`, those of `m` elsewhere. -/
def Bytes.graft (b : Bytes) (lo hi : Nat) (m : Bytes) : Bytes :=
  fun i => if lo ≤ i ∧ i < hi then b i else m i

/-- The disk with other contents outside of `[lo, hi)`. -/
def Disk.graft (lo hi : Nat) (m : Bytes) (d : Disk) : Disk :=
  { d with image := d.image.graft lo hi m }

/-- The drive with the bytes from `lo` to `hi` replaced. -/
def Drive.graft (lo hi : Nat) (m : Bytes) (d : Drive) : Drive :=
  { d with disk := d.disk.graft lo hi m }

section Graft

variable {lo hi : Nat} {m : Bytes}

theorem Bytes.graft_self (b : Bytes) : b.graft lo hi b = b := by
  ext i
  simp [Bytes.graft]

/-- The bytes inside stay. -/
theorem Bytes.graft_in {b : Bytes} {i : Nat} (h : lo ≤ i) (h' : i < hi) : b.graft lo hi m i = b i :=
  if_pos ⟨h, h'⟩

theorem Bytes.graft_out {b : Bytes} {i : Nat} (h : ¬ (lo ≤ i ∧ i < hi)) : b.graft lo hi m i = m i :=
  if_neg h

/-- A copy inside commutes with the graft. -/
theorem graft_memCopy {b p : Bytes} {off at_ n : Nat} (hlo : lo ≤ off) (hhi : off + n ≤ hi) :
    memCopy (b.graft lo hi m) off p at_ n = (memCopy b off p at_ n).graft lo hi m := by
  funext i
  by_cases hi' : lo ≤ i ∧ i < hi
  · rw [Bytes.graft_in hi'.1 hi'.2, memCopy, memCopy, Bytes.graft_in hi'.1 hi'.2]
  · rw [Bytes.graft_out hi', memCopy_ne (by omega), Bytes.graft_out hi']

theorem command_commutes (d : Disk) : Io.Commutes command (Disk.graft lo hi m) d := by
  have hr : (d.graft lo hi m).ram = d.ram := rfl
  have ho : (d.graft lo hi m).outcome (d.graft lo hi m).clock = d.outcome d.clock := rfl
  rw [Io.Commutes, command, command, hr, ho]
  split
  · rfl
  · split <;> rfl

theorem span_graft {d : Disk} {lba count : Nat} (hlo : lo ≤ lba * d.geo.sectorSize)
    (hhi : (lba + count) * d.geo.sectorSize ≤ hi) :
    (d.graft lo hi m).span lba count = d.span lba count := by
  funext i
  rw [Nat.add_mul] at hhi
  have hg : (d.graft lo hi m).geo = d.geo := rfl
  rw [Disk.span, Disk.span, hg]
  split
  · exact Bytes.graft_in (by omega) (by omega)
  · rfl

/-- Nothing is known of an error. -/
theorem lift_keeps {σ α : Type} (r : Except Errno α) (s : σ) :
    Io.Ends (Io.lift r) s (fun _ s' => s = s') fun _ _ => True :=
  Io.ends_lift.mpr ⟨fun _ _ => rfl, fun _ _ => trivial⟩

/-- A read inside does not depend on the bytes outside. -/
theorem kDiskRead_commutes {d : Disk} {lba count bytes : Nat} (hlo : lo ≤ lba * d.geo.sectorSize)
    (hhi : (lba + count) * d.geo.sectorSize ≤ hi) :
    Io.Commutes (kDiskRead lba count bytes) (Disk.graft lo hi m) d := by
  refine Io.Commutes.get_bind ?_
    (Io.Commutes.bind (.lift _) (lift_keeps _ d) ?_)
  · rw [span_graft hlo hhi]
    rfl
  · rintro _ _ rfl
    exact .bind (command_commutes d)
      ((command_ends d).mono (fun _ _ _ => trivial) fun _ _ _ => trivial)
      fun _ _ _ => .pure _

theorem diskBytesLoop_commutes {fuel : Nat} : ∀ {d : Disk} {offset n p : Nat} {out : Bytes},
    d.geo.sectorSize ∣ lo → d.geo.sectorSize ∣ hi → lo ≤ offset → offset + n ≤ hi →
    hi ≤ d.geo.sectors * d.geo.sectorSize →
    Io.Commutes (diskBytesLoop fuel offset n p out) (Disk.graft lo hi m) d := by
  induction fuel with
  | zero =>
      intro d offset n p out _ _ _ _ _
      exact .pure out
  | succ fuel ih =>
      intro d offset n p out hdl hdh hlo hhi hsize
      rw [diskBytesLoop]
      have hpos := d.geo.sectorSize_pos
      have hoff := Nat.div_add_mod' offset d.geo.sectorSize
      have hlt := Nat.mod_lt offset hpos
      refine .ite (fun _ => .pure out) fun hn0 => Io.Commutes.get_bind rfl ?_
      -- the rest of the loop, after `k` bytes were read
      have hrest : ∀ {k : Nat} {d₁ : Disk} {q : Nat} {out : Bytes}, k ≤ n → d.Passes d₁ →
          Io.Commutes (diskBytesLoop fuel (offset + k) (n - k) q out) (Disk.graft lo hi m) d₁ := by
        intro k d₁ q out hkn h₁
        have hg := h₁.same.geo
        exact ih (hg ▸ hdl) (hg ▸ hdh) (by omega) (by omega) (hg ▸ hsize)
      have hstart : lo ≤ offset / d.geo.sectorSize * d.geo.sectorSize := by
        obtain ⟨k, rfl⟩ := hdl
        rw [Nat.mul_comm _ k] at hlo ⊢
        exact Nat.mul_le_mul_right _ ((Nat.le_div_iff_mul_le hpos).mpr hlo)
      refine .ite (fun h => ?_) fun _ => ?_
      · obtain ⟨ha, hsz⟩ := h
        have hk : min (n / d.geo.sectorSize) 128 * d.geo.sectorSize ≤ n :=
          (Nat.mul_le_mul_right _ (Nat.min_le_left _ _)).trans (Nat.div_mul_le_self _ _)
        have hq : 0 < n / d.geo.sectorSize := Nat.div_pos hsz hpos
        have hend :
            (offset / d.geo.sectorSize + min
              (n / d.geo.sectorSize) 128) * d.geo.sectorSize ≤ hi := by
          rw [Nat.add_mul]
          omega
        refine .bind (kDiskRead_commutes hstart hend) (kDiskRead_ends (by omega) ?_ hk)
          fun b d₁ h₁ =>
          hrest hk h₁.2
        exact Nat.le_of_mul_le_mul_right (hend.trans hsize) hpos
      · have hend : (offset / d.geo.sectorSize + 1) * d.geo.sectorSize ≤ hi := by
          obtain ⟨k, rfl⟩ := hdh
          rw [Nat.mul_comm _ k]
          refine Nat.mul_le_mul_right _ ((Nat.div_lt_iff_lt_mul hpos).mpr ?_)
          rw [Nat.mul_comm k]
          omega
        have hmax := d.geo.sectorSize_max
        refine .bind (kDiskRead_commutes hstart hend) (kDiskRead_ends Nat.one_ne_zero ?_ (by omega))
          fun b d₁ h₁ => hrest (Nat.min_le_left _ _) h₁.2
        exact Nat.le_of_mul_le_mul_right (hend.trans hsize) hpos

/-- **Reads in a range of whole sectors** look at nothing else. -/
theorem diskBytes_commutes {d : Disk} {offset n : Nat} (hdl : d.geo.sectorSize ∣ lo)
    (hdh : d.geo.sectorSize ∣ hi) (hlo : lo ≤ offset) (hhi : offset + n ≤ hi)
    (hsize : hi ≤ d.geo.sectors * d.geo.sectorSize) :
    Io.Commutes (diskBytes offset n) (Disk.graft lo hi m) d :=
  Io.Commutes.get_bind rfl
    (.ite (fun _ => .fail _) fun _ => diskBytesLoop_commutes hdl hdh hlo hhi hsize)

theorem onDisk_commutes {α : Type} {x : Io Errno Disk α} {d : Drive}
    (h : Io.Commutes x (Disk.graft lo hi m) d.disk) :
    Io.Commutes (onDisk x) (Drive.graft lo hi m) d := by
  have hd : (d.graft lo hi m).disk = d.disk.graft lo hi m := rfl
  rw [Io.Commutes, onDisk, onDisk, hd, h]
  rfl

theorem diskFlush_commutes (d : Drive) : Io.Commutes diskFlush (Drive.graft lo hi m) d :=
  Io.Commutes.get_bind rfl (.ite (fun _ => .fail _) fun _ => .ite (fun _ => .pure _) fun _ =>
    .ite (fun _ => .fail _) fun _ => onDisk_commutes (command_commutes d.disk))

theorem writeCommand_commutes {d : Drive} {lba : Nat} {p : Bytes}
    (hlo : lo ≤ lba * d.disk.geo.sectorSize) (hhi : (lba + 1) * d.disk.geo.sectorSize ≤ hi) :
    Io.Commutes (writeCommand lba 1 p 0) (Drive.graft lo hi m) d := by
  have hc : Io.Commutes command (Disk.graft lo hi m) d.disk := command_commutes d.disk
  rw [Io.Commutes] at hc
  have hend : lba * d.disk.geo.sectorSize + 1 * d.disk.geo.sectorSize ≤ hi := by
    rw [← Nat.add_mul]
    exact hhi
  obtain ⟨r, t, hr⟩ := command_cases d.disk
  rw [hr] at hc
  have hd : (d.graft lo hi m).disk = d.disk.graft lo hi m := rfl
  simp only [Io.Commutes, writeCommand, hd, hc, hr]
  cases r with
  | ok u => simp only [Drive.store, Drive.graft, Disk.graft, graft_memCopy hlo hend]
  | error e => simp only [Drive.store, Drive.graft, Disk.graft, graft_memCopy hlo hend]

theorem diskWriteFs_commutes {d : Drive} {lba bytes : Nat} {p : Bytes}
    (hlo : lo ≤ lba * d.disk.geo.sectorSize) (hhi : (lba + 1) * d.disk.geo.sectorSize ≤ hi) :
    Io.Commutes (diskWriteFs lba 1 p bytes) (Drive.graft lo hi m) d := by
  refine Io.Commutes.get_bind rfl
    (Io.Commutes.bind (.lift _) (lift_keeps _ d) ?_)
  rintro _ _ rfl
  refine .ite (fun _ => .fail _) fun _ => ?_
  rw [diskWriteLoop, if_neg Nat.one_ne_zero]
  refine Io.Commutes.get_bind rfl ?_
  rw [Drive.chunk_one]
  exact .bind (writeCommand_commutes hlo hhi) (writeCommand_ends d lba p) fun _ _ _ => .pure _

end Graft

end Efishell
