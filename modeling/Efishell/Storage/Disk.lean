import Efishell.Kernel.Bytes

/-!
# Storage — disks

`disk_add`, `disk_range`, `k_disk_read` and, one level up, the byte reader `disk_bytes` of the
file system code.

A disk is its geometry, its contents as one array of bytes, and the answers of its controller:
the `n`-th command sent to the controller succeeds when `outcome n` is `none` and otherwise
fails with that code.  A RAM disk has no controller.

* `kDiskRead_returns`, `diskBytes_returns`: the slice of the disk that was asked for.
* `diskBytes_within`: the commands that it takes.
-/

namespace Efishell

/-- The geometries `disk_add` registers. -/
structure Geometry where
  sectorSize : Nat
  sectors : Nat
  sectors_pos : 0 < sectors
  sectorSize_pow : power2 sectorSize = true
  sectorSize_min : 512 ≤ sectorSize
  sectorSize_max : sectorSize ≤ 4096
  bytes_lt : sectors ≤ (2 ^ 64 - 1) / sectorSize

namespace Geometry

/-- Sectors of 512 bytes. -/
theorem power2_512 : power2 512 = true := by decide

theorem min_512 : 512 ≤ 512 := by decide

theorem max_512 : 512 ≤ 4096 := by decide

/-- A sector has a byte. -/
theorem sectorSize_pos (g : Geometry) : 0 < g.sectorSize := by
  have := g.sectorSize_min
  omega

/-- The size of a disk in bytes fits 64 bits. -/
theorem mul_lt (g : Geometry) : g.sectors * g.sectorSize < 2 ^ 64 := by
  have h := (Nat.le_div_iff_mul_le g.sectorSize_pos).mp g.bytes_lt
  omega

theorem sectors_lt (g : Geometry) : g.sectors < 2 ^ 64 := by
  have h := g.mul_lt
  have h₁ : g.sectors * 1 ≤ g.sectors * g.sectorSize := Nat.mul_le_mul_left _ g.sectorSize_pos
  omega

end Geometry

/-- A disk, as its driver answers for it. -/
structure Disk where
  geo : Geometry
  online : Bool
  ram : Bool
  image : Bytes
  outcome : Nat → Option Errno
  clock : Nat

/-- One command to the controller. -/
def command : Io Errno Disk Unit := fun d =>
  if d.ram then (.ok (), d)
  else match d.outcome d.clock with
    | none => (.ok (), { d with clock := d.clock + 1 })
    | some e => (.error e, { d with clock := d.clock + 1 })

/-- `disk_range`: the sectors are on the disk and fill the buffer. -/
def diskRange (d : Disk) (lba count bytes : Nat) : Except Errno Unit :=
  if count = 0 then .error .einval
  else if !d.online then .error .eio
  else if d.geo.sectors ≤ lba ∨ d.geo.sectors - lba < count ∨
      bytes < count * d.geo.sectorSize then .error .einval
  else .ok ()

/-- The bytes of `count` sectors from `lba` on. -/
def Disk.span (d : Disk) (lba count : Nat) : Bytes := fun i =>
  if i < count * d.geo.sectorSize then d.image (lba * d.geo.sectorSize + i) else 0

/-- `k_disk_read`. -/
def kDiskRead (lba count bytes : Nat) : Io Errno Disk Bytes := do
  let d ← Io.get
  Io.lift (diskRange d lba count bytes)
  command
  return d.span lba count

/-- The loop of `disk_bytes`: `n` bytes from `offset` on go to position `p` of `out`.  An
iteration transfers at least one byte, so `n` iterations are enough. -/
def diskBytesLoop : Nat → Nat → Nat → Nat → Bytes → Io Errno Disk Bytes
  | 0, _, _, _, out => return out
  | fuel + 1, offset, n, p, out =>
      if n = 0 then return out
      else do
        let d ← Io.get
        let size := d.geo.sectorSize
        if offset % size = 0 ∧ size ≤ n then
          let sectors := min (n / size) 128
          let b ← kDiskRead (offset / size) sectors n
          let bytes := sectors * size
          diskBytesLoop fuel (offset + bytes) (n - bytes) (p + bytes) (memCopy out p b 0 bytes)
        else
          let lba := offset / size
          let at_ := offset % size
          let part := min n (size - at_)
          let b ← kDiskRead lba 1 4096
          diskBytesLoop fuel (offset + part) (n - part) (p + part) (memCopy out p b at_ part)

/-- `disk_bytes`: a range of bytes, read through whole sectors. -/
def diskBytes (offset n : Nat) : Io Errno Disk Bytes := do
  let d ← Io.get
  let size := d.geo.sectors * d.geo.sectorSize % 2 ^ 64
  if size < offset ∨ size - offset < n then Io.fail .einval
  else diskBytesLoop n offset n 0 fun _ => 0

/-! ### Reads leave everything but the clock -/

/-- The two disks differ at most in the number of commands sent. -/
def Disk.Same (d d' : Disk) : Prop := ∃ t, d' = { d with clock := t }

namespace Disk.Same

theorem refl (d : Disk) : d.Same d := ⟨d.clock, rfl⟩

theorem trans {d d₁ d₂ : Disk} (h₁ : d.Same d₁) (h₂ : d₁.Same d₂) : d.Same d₂ := by
  obtain ⟨t₁, rfl⟩ := h₁
  obtain ⟨t₂, rfl⟩ := h₂
  exact ⟨t₂, rfl⟩

theorem geo {d d' : Disk} (h : d.Same d') : d'.geo = d.geo := by
  obtain ⟨t, rfl⟩ := h
  rfl

theorem image {d d' : Disk} (h : d.Same d') : d'.image = d.image := by
  obtain ⟨t, rfl⟩ := h
  rfl

theorem span {d d' : Disk} (h : d.Same d') : d'.span = d.span := by
  obtain ⟨t, rfl⟩ := h
  rfl

end Disk.Same

/-- A command leaves the bytes of the disk. -/
theorem command_same {d d' : Disk} (h : Io.Returns command d () d') : d.Same d' := by
  simp only [Io.Returns, command] at h
  split at h
  · cases h
    exact Disk.Same.refl d
  · split at h
    · cases h
      exact ⟨_, rfl⟩
    · cases h

/-- A read that succeeds returns the contents of the sectors it names. -/
theorem kDiskRead_returns {d d' : Disk} {lba count bytes : Nat} {b : Bytes}
    (h : Io.Returns (kDiskRead lba count bytes) d b d') :
    b = d.span lba count ∧ d.Same d' ∧ lba + count ≤ d.geo.sectors := by
  simp only [kDiskRead, Io.returns_bind, Io.returns_lift] at h
  obtain ⟨d₀, s₀, h₀, ⟨⟩, s₁, ⟨hr, rfl⟩, ⟨⟩, s₂, hc, hp⟩ := h
  cases h₀
  obtain ⟨rfl, rfl⟩ := Io.returns_pure.mp hp
  refine ⟨rfl, command_same hc, ?_⟩
  simp only [diskRange] at hr
  split at hr
  · cases hr
  · split at hr
    · cases hr
    · split at hr
      · cases hr
      · omega

/-- What one iteration of `disk_bytes` leaves to do after it copied `k` bytes. -/
theorem diskBytesLoop_step {d d₁ d' : Disk} {offset n p k at_ : Nat} {out s b : Bytes}
    (hd : d.Same d₁) (hk : k ≤ n) (hs : ∀ i < k, s (at_ + i) = d.image (offset + i))
    (ih : (∀ i < n - k, b (p + k + i) = d₁.image (offset + k + i)) ∧
      (∀ i < p + k, b i = memCopy out p s at_ k i) ∧ d₁.Same d') :
    (∀ i < n, b (p + i) = d.image (offset + i)) ∧ (∀ i < p, b i = out i) ∧ d.Same d' := by
  obtain ⟨h₁, h₂, h₃⟩ := ih
  rw [hd.image] at h₁
  refine ⟨fun i hi => ?_, fun i hi => ?_, hd.trans h₃⟩
  · by_cases hik : i < k
    · rw [h₂ _ (by omega), memCopy_eq (by omega) (by omega), Nat.add_sub_cancel_left, hs i hik]
    · have := h₁ (i - k) (by omega)
      rwa [show p + k + (i - k) = p + i by omega,
        show offset + k + (i - k) = offset + i by omega] at this
  · rw [h₂ i (by omega), memCopy_ne (by omega)]

/-- The bytes before `p` stay, the `n` bytes from `p` on are those of the disk at `offset`. -/
theorem diskBytesLoop_returns {fuel : Nat} : ∀ {d d' : Disk} {offset n p : Nat} {out b : Bytes},
    n ≤ fuel → Io.Returns (diskBytesLoop fuel offset n p out) d b d' →
      (∀ i < n, b (p + i) = d.image (offset + i)) ∧ (∀ i < p, b i = out i) ∧ d.Same d' := by
  induction fuel with
  | zero =>
      intro d d' offset n p out b hn h
      obtain ⟨rfl, rfl⟩ := Io.returns_pure.mp h
      exact ⟨fun i hi => by omega, fun _ _ => rfl, Disk.Same.refl _⟩
  | succ fuel ih =>
      intro d d' offset n p out b hn h
      simp only [diskBytesLoop, Io.returns_ite, Io.returns_bind] at h
      rcases h with ⟨rfl, h⟩ | ⟨hn0, d₀, s₀, h₀, h⟩
      · obtain ⟨rfl, rfl⟩ := Io.returns_pure.mp h
        exact ⟨fun i hi => by omega, fun _ _ => rfl, Disk.Same.refl _⟩
      · cases h₀
        have hpos := d.geo.sectorSize_pos
        rcases h with ⟨⟨ha, hsz⟩, s, d₁, hr, h⟩ | ⟨-, s, d₁, hr, h⟩
        · -- a run of whole sectors
          obtain ⟨rfl, hd, hin⟩ := kDiskRead_returns hr
          have hq : 0 < n / d.geo.sectorSize := Nat.div_pos hsz hpos
          have hk : min (n / d.geo.sectorSize) 128 * d.geo.sectorSize ≤ n :=
            (Nat.mul_le_mul_right _ (Nat.min_le_left _ _)).trans (Nat.div_mul_le_self _ _)
          have hk0 : 0 < min (n / d.geo.sectorSize) 128 * d.geo.sectorSize :=
            Nat.mul_pos (by omega) hpos
          refine diskBytesLoop_step hd hk (fun i hi => ?_) (ih (by omega) h)
          rw [Disk.span, if_pos (by omega), Nat.zero_add,
            Nat.div_mul_cancel (Nat.dvd_of_mod_eq_zero ha)]
        · -- a part of one sector
          obtain ⟨rfl, hd, hin⟩ := kDiskRead_returns hr
          have hlt := Nat.mod_lt offset hpos
          refine diskBytesLoop_step hd (Nat.min_le_left _ _) (fun i hi => ?_) (ih (by omega) h)
          have hdiv := Nat.div_add_mod offset d.geo.sectorSize
          rw [Disk.span, if_pos (by omega)]
          congr 1
          rw [Nat.mul_comm]
          omega

/-- `disk_bytes` returns the slice of the disk it was asked for. -/
theorem diskBytes_returns {d d' : Disk} {offset n : Nat} {b : Bytes}
    (h : Io.Returns (diskBytes offset n) d b d') :
    (∀ i < n, b i = d.image (offset + i)) ∧ d.Same d' := by
  simp only [diskBytes, Io.returns_bind, Io.returns_guard] at h
  obtain ⟨d₀, s₀, h₀, -, h⟩ := h
  cases h₀
  obtain ⟨h₁, -, h₃⟩ := diskBytesLoop_returns (Nat.le_refl _) h
  exact ⟨fun i hi => by simpa using h₁ i hi, h₃⟩

/-! ### Commands sent -/

/-- Whatever its outcome, `x` sends the controller at most `n` commands. -/
def Within {α : Type} (n : Nat) (x : Io Errno Disk α) : Prop := ∀ d, (x d).2.clock ≤ d.clock + n

namespace Within

variable {α β : Type} {m n : Nat}

theorem mono {x : Io Errno Disk α} (h : Within m x) (hmn : m ≤ n) : Within n x := by
  intro d
  exact (h d).trans (Nat.add_le_add_left hmn _)

theorem pure (a : α) : Within n (pure a : Io Errno Disk α) := fun _ => Nat.le_add_right _ _

theorem fail (e : Errno) : Within n (Io.fail e : Io Errno Disk α) := fun _ => Nat.le_add_right _ _

theorem lift (r : Except Errno α) : Within n (Io.lift r : Io Errno Disk α) :=
  fun _ => Nat.le_add_right _ _

/-- The commands of one part and of the next. -/
theorem bind {x : Io Errno Disk α} {f : α → Io Errno Disk β} (hx : Within m x)
    (hf : ∀ a, Within n (f a)) : Within (m + n) (x >>= f) := by
  intro d
  have h₁ := hx d
  rw [Io.bind_run]
  cases hr : x d with
  | mk r d₁ =>
      rw [hr] at h₁
      dsimp only at h₁
      cases r with
      | ok a =>
          have h₂ := hf a d₁
          dsimp only
          omega
      | error e =>
          dsimp only
          omega

/-- A computation that looks at the disk first. -/
theorem bind_get {f : Disk → Io Errno Disk α} (h : ∀ d, (f d d).2.clock ≤ d.clock + n) :
    Within n (Io.get >>= f) := fun d => h d

theorem ite {c : Prop} [Decidable c] {x y : Io Errno Disk α} (hx : c → Within n x)
    (hy : ¬ c → Within n y) : Within n (if c then x else y) := by
  by_cases h : c
  · rw [if_pos h]
    exact hx h
  · rw [if_neg h]
    exact hy h

end Within

theorem command_within : Within 1 command := by
  intro d
  rw [command]
  split
  · exact Nat.le_succ _
  · split <;> exact Nat.le_refl _

/-- `k_disk_read` is one command at most. -/
theorem kDiskRead_within (lba count bytes : Nat) : Within 1 (kDiskRead lba count bytes) := by
  refine Within.bind_get fun d => ?_
  have h : Within (0 + (1 + 0)) (do
      Io.lift (diskRange d lba count bytes)
      command
      return d.span lba count) :=
    (Within.lift _).bind fun _ => command_within.bind fun _ => Within.pure _
  exact h d

/-- Every round of the loop is one at most. -/
theorem diskBytesLoop_within {fuel : Nat} :
    ∀ (offset n p : Nat) (out : Bytes), Within fuel (diskBytesLoop fuel offset n p out) := by
  induction fuel with
  | zero =>
      intro offset n p out
      exact Within.pure out
  | succ fuel ih =>
      intro offset n p out
      refine Within.ite (fun _ => Within.pure out) fun _ => Within.bind_get fun d => ?_
      rw [Nat.add_comm fuel 1]
      refine Within.ite (fun _ => ?_) (fun _ => ?_) d
      · exact (kDiskRead_within _ _ _).bind fun b => ih _ _ _ _
      · exact (kDiskRead_within _ _ _).bind fun b => ih _ _ _ _

theorem diskBytes_within (offset n : Nat) : Within n (diskBytes offset n) := by
  refine Within.bind_get fun d => ?_
  exact Within.ite (fun _ => Within.fail _) (fun _ => diskBytesLoop_within _ _ _ _) d

end Efishell
