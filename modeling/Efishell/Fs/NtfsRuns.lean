import Efishell.Fs.Extents

/-!
# File systems — the clusters of an NTFS attribute

`ntfs_runs`: the mapping pairs of a nonresident attribute.  A pair is a header with two widths, the
length of a run and the signed distance of its first cluster from the one before; a pair without a
distance is a hole.

* `sound_ntfsRuns`: `ntfs_runs` gives a list in order, whatever the attribute holds.
* `decoded_runs`: so do all decoders, on every volume that `native_probe` accepts.
-/

namespace Efishell

/-- `n` bytes at `at_`, the low one first. -/
def Buffer.le {ε : Type} (a : Buffer) : (n at_ : Nat) → Checked ε Nat
  | 0, _ => .ok 0
  | n + 1, at_ => do
      let x ← a.byte at_
      let rest ← a.le n (at_ + 1)
      return x.toNat + 2 ^ 8 * rest

/-- The value of 64 bits as a signed integer. -/
def signed64 (x : Nat) : Int := if x < 2 ^ 63 then x else (x : Int) - 2 ^ 64

/-- The sign of `n` bytes goes to the bytes above them. -/
def signExtend (n delta : Nat) : Nat :=
  if 0 < n ∧ n < 8 ∧ delta.testBit (8 * n - 1) then delta ||| (2 ^ 64 - 2 ^ (8 * n)) else delta

/-- The cluster `delta` after `lcn`, or before it. -/
def ntfsMove (lcn : Int) (delta : Nat) : Checked Errno Int :=
  if signed64 delta < 0 then do
    let sub := (2 ^ 64 - delta) % 2 ^ 64
    let now ← toU lcn
    if now < sub then .error (.code .eio)
    else
      let d ← toS 64 sub
      subS 64 lcn d
  else do
    let now ← toU lcn
    let room ← subU (2 ^ 63 - 1) now
    if room < delta then .error (.code .eio)
    else
      let d ← toS 64 delta
      addS 64 lcn d

/-- The cluster of a run; a hole leaves it where it is. -/
def ntfsLcn (lcn : Int) (offbytes delta : Nat) : Checked Errno Int :=
  if offbytes = 0 then .ok lcn else ntfsMove lcn (signExtend offbytes delta)

/-- Where the walk over the mapping pairs stands. -/
structure NtfsWalk where
  at_ : Nat
  vcn : Nat
  lcn : Int
  runs : List NativeRun

/-- One mapping pair, with its header. -/
def ntfsPair (v : NativeVolume) (a : Buffer) (w : NtfsWalk) (header : UInt8) :
    Checked Errno NtfsWalk :=
  let at_ := w.at_ + 1
  let lenbytes := header.toNat % 16
  let offbytes := header.toNat / 16
  if lenbytes = 0 ∨ 8 < lenbytes ∨ 8 < offbytes ∨ a.size - at_ < lenbytes + offbytes then
    .error (.code .eio)
  else do
    let len ← a.le lenbytes at_
    let delta ← a.le offbytes (at_ + lenbytes)
    let lcn ← ntfsLcn w.lcn offbytes delta
    let physical ← toU lcn
    let runs ← runAdd v w.runs ⟨w.vcn, physical, len, decide (offbytes = 0)⟩
    let vcn ← addU 64 w.vcn len
    return ⟨at_ + lenbytes + offbytes, vcn, lcn, runs⟩

/-- The loop of `ntfs_runs`.  A round takes at least the header, so as many rounds as the attribute
has bytes are enough. -/
def ntfsLoop (v : NativeVolume) (a : Buffer) : Nat → NtfsWalk → Checked Errno NtfsWalk
  | 0, w => .ok w
  | fuel + 1, w =>
      if a.size ≤ w.at_ then .ok w
      else do
        let header ← a.byte w.at_
        if header = 0 then return w
        else
          let w ← ntfsPair v a w header
          ntfsLoop v a fuel w

/-- The sizes that the attribute gives, against its last cluster. -/
def ntfsEnd (v : NativeVolume) (a : Buffer) (w : NtfsWalk) : Checked Errno (List NativeRun) :=
  if a.size ≤ w.at_ ∨ w.vcn = 0 ∨ (2 ^ 64 - 1) / v.block < w.vcn then .error (.code .eio)
  else do
    let highest ← a.rd64 24
    let last ← subU w.vcn 1
    let initialized ← a.rd64 56
    let size ← a.rd64 48
    let allocated ← mulU 64 w.vcn v.block
    if highest ≠ last ∨ size < initialized ∨ allocated < size then .error (.code .eio)
    else return w.runs

/-- `ntfs_runs`: the runs of a non-resident attribute. -/
def ntfsRuns (v : NativeVolume) (a : Buffer) : Checked Errno (List NativeRun) :=
  if a.size < 64 then .error (.code .enotsup)
  else do
    let nonresident ← a.byte 8
    let lowest ← a.rd64 16
    let flags ← a.rd16 12
    let unit ← a.rd16 34
    if nonresident ≠ 1 ∨ lowest ≠ 0 ∨ flags &&& 0xc001 ≠ 0 ∨ unit ≠ 0 then .error (.code .enotsup)
    else
      let at_ ← a.rd16 32
      if at_ < 64 ∨ a.size ≤ at_ then .error (.code .eio)
      else
        let w ← ntfsLoop v a a.size ⟨at_, 0, 0, []⟩
        ntfsEnd v a w

/-! ### The decoder stays in its types and in the attribute -/

/-- A number of `n` bytes is below `2 ^ (8 * n)`. -/
theorem Buffer.sound_le {ε : Type} {a : Buffer} {n : Nat} : ∀ {at_ : Nat}, at_ + n ≤ a.size →
    Sound (a.le n at_ : Checked ε Nat) (· < 2 ^ (8 * n)) := by
  induction n with
  | zero =>
      intro at_ _
      simp [Buffer.le]
  | succ n ih =>
      intro at_ h
      refine (Buffer.sound_byte (by omega)).bind ?_
      rintro _ rfl
      refine (ih (by omega)).bind fun rest hrest => ?_
      have hx := (a.data at_).toNat_lt
      rw [sound_pure, show 8 * (n + 1) = 8 + 8 * n by ring, Nat.pow_add]
      omega

/-- The extended number is a 64-bit word. -/
theorem signExtend_lt {n delta : Nat} (h : delta < 2 ^ (8 * n)) (hn : n ≤ 8) :
    signExtend n delta < 2 ^ 64 := by
  have hd : delta < 2 ^ 64 := h.trans_le (Nat.pow_le_pow_right (by omega) (by omega))
  rw [signExtend]
  split
  · refine Nat.or_lt_two_pow hd ?_
    have := Nat.two_pow_pos (8 * n)
    omega
  · exact hd

/-- The move of the cluster neither wraps nor goes below zero. -/
theorem sound_ntfsMove {lcn : Int} (h : 0 ≤ lcn) (hlt : lcn < 2 ^ 63) {delta : Nat}
    (hd : delta < 2 ^ 64) : Sound (ntfsMove lcn delta) fun lcn' => 0 ≤ lcn' ∧ lcn' < 2 ^ 63 := by
  have hint : signed64 delta < 0 ↔ 2 ^ 63 ≤ delta := by
    rw [signed64]
    split <;> omega
  refine Sound.ite (fun hneg => ?_) (fun hpos => ?_)
  · have := hint.mp hneg
    refine (sound_toU h).bind ?_
    rintro _ rfl
    refine Sound.guard fun hsub => ?_
    refine (sound_toS (by omega)).bind ?_
    rintro _ rfl
    refine (sound_subS (by omega) (by omega)).mono ?_
    rintro _ rfl
    omega
  · rw [hint] at hpos
    refine (sound_toU h).bind ?_
    rintro _ rfl
    refine (sound_subU (by omega)).bind ?_
    rintro _ rfl
    refine Sound.guard fun hroom => ?_
    refine (sound_toS (by omega)).bind ?_
    rintro _ rfl
    refine (sound_addS (by omega) (by omega)).mono ?_
    rintro _ rfl
    omega

/-- The cluster stays in `INT64`. -/
theorem sound_ntfsLcn {lcn : Int} (h : 0 ≤ lcn) (hlt : lcn < 2 ^ 63) {offbytes delta : Nat}
    (ho : offbytes ≤ 8) (hd : delta < 2 ^ (8 * offbytes)) :
    Sound (ntfsLcn lcn offbytes delta) fun lcn' => 0 ≤ lcn' ∧ lcn' < 2 ^ 63 :=
  Sound.ite (fun _ => ⟨h, hlt⟩) fun _ => sound_ntfsMove h hlt (signExtend_lt hd ho)

/-- What a round of `ntfs_runs` keeps. -/
structure NtfsWalk.Ok (v : NativeVolume) (w : NtfsWalk) : Prop where
  runs : RunList v w.runs
  lcn_nonneg : 0 ≤ w.lcn
  lcn_lt : w.lcn < 2 ^ 63

/-- One mapping pair keeps the walk's invariant. -/
theorem sound_ntfsPair {v : NativeVolume} (hv : v.Ok) {a : Buffer} {w : NtfsWalk} (hw : w.Ok v)
    (hat : w.at_ < a.size) (header : UInt8) : Sound (ntfsPair v a w header) (NtfsWalk.Ok v) := by
  refine Sound.guard fun hg => ?_
  simp only [not_or, not_lt] at hg
  obtain ⟨hl₀, hl, ho, hroom⟩ := hg
  refine (Buffer.sound_le (by omega)).bind fun len hlen => ?_
  refine (Buffer.sound_le (by omega)).bind fun delta hdelta => ?_
  have hlen64 : len < 2 ^ 64 := hlen.trans_le (Nat.pow_le_pow_right (by omega) (by omega))
  refine (sound_ntfsLcn hw.lcn_nonneg hw.lcn_lt ho hdelta).bind ?_
  rintro lcn ⟨hlcn, hlcn'⟩
  refine (sound_toU hlcn).bind ?_
  rintro _ rfl
  refine (sound_runAdd hv hw.runs hlen64).bind ?_
  rintro runs ⟨hruns, -, hr⟩
  refine (sound_addU hr.logical_lt).bind ?_
  rintro _ rfl
  exact sound_pure.mpr ⟨hruns, hlcn, hlcn'⟩

theorem sound_ntfsLoop {v : NativeVolume} (hv : v.Ok) {a : Buffer} {fuel : Nat} : ∀ {w : NtfsWalk},
    w.Ok v → Sound (ntfsLoop v a fuel w) (NtfsWalk.Ok v) := by
  induction fuel with
  | zero => exact fun hw => hw
  | succ fuel ih =>
      intro w hw
      refine Sound.ite (fun _ => hw) fun hat => ?_
      refine (Buffer.sound_byte (by omega)).bind fun header _ => ?_
      refine Sound.ite (fun _ => sound_pure.mpr hw) fun _ => ?_
      exact (sound_ntfsPair hv hw (by omega) header).bind fun w' hw' => ih hw'

/-- The last checks leave runs in order. -/
theorem sound_ntfsEnd {v : NativeVolume} (hv : v.Ok) {a : Buffer} (ha : 64 ≤ a.size) {w : NtfsWalk}
    (hw : w.Ok v) : Sound (ntfsEnd v a w) (RunList v) := by
  refine Sound.guard fun hg => ?_
  simp only [not_or, not_le, not_lt] at hg
  obtain ⟨-, hvcn, hfit⟩ := hg
  have hmul := (Nat.le_div_iff_mul_le hv.block_pos).mp hfit
  refine (Buffer.sound_rd64 (by omega)).bind fun _ _ => ?_
  refine (sound_subU (by omega)).bind fun _ _ => ?_
  refine (Buffer.sound_rd64 (by omega)).bind fun _ _ => ?_
  refine (Buffer.sound_rd64 (by omega)).bind fun _ _ => ?_
  refine (sound_mulU (by omega)).bind fun _ _ => ?_
  exact Sound.guard fun _ => hw.runs

/-- **`ntfs_runs`** gives a list in order, whatever the attribute holds. -/
theorem sound_ntfsRuns {v : NativeVolume} (hv : v.Ok) (a : Buffer) :
    Sound (ntfsRuns v a) (RunList v) := by
  refine Sound.guard fun hsize => ?_
  rw [not_lt] at hsize
  refine (Buffer.sound_byte (by omega)).bind fun _ _ => ?_
  refine (Buffer.sound_rd64 (by omega)).bind fun _ _ => ?_
  refine (Buffer.sound_rd16 (by omega)).bind fun _ _ => ?_
  refine (Buffer.sound_rd16 (by omega)).bind fun _ _ => ?_
  refine Sound.guard fun _ => ?_
  refine (Buffer.sound_rd16 (by omega)).bind fun at_ _ => ?_
  refine Sound.guard fun _ => ?_
  refine (sound_ntfsLoop hv ⟨RunList.nil, Int.le_refl _, Int.pow_pos (by decide)⟩).bind
    fun w hw => ?_
  exact sound_ntfsEnd hv hsize hw

/-! ### Any image -/

/-- The nodes of a tree of extents that were visited. -/
def ExtWalk.visited {σ : Type} (w : ExtWalk σ) : Nat := 1024 - w.budget

/-- What holds of the lists of runs that are decoded on a volume. -/
structure RunsDecoded (σ : Type) (v : NativeVolume) : Prop where
  /-- `ext_map`, for any contents of the inode and of the blocks. -/
  ext : v.kind = .ext4 → ∀ (env : NativeEnv σ) (inode : Nat) (raw : Buffer) (s : σ),
    raw.size = v.inodeSize →
    Io.Ends (extMap env v inode raw) s (fun runs _ => RunList v runs) fun f _ => f.IsCode
  /-- A tree of extents has at most 1024 nodes that are visited, whatever it looks like, and each
  block that is read is one of them, but for the last one before an error. -/
  tree : v.kind = .ext4 → ∀ (env : NativeEnv σ) (clock : σ → Nat), env.Clocked clock →
    ∀ (seed : UInt32) (depth : Nat) (root : Buffer) (s : σ),
    Io.Ends (extExtents env v seed depth root) ⟨s, [], 1024⟩
      (fun _ w => w.budget + w.visited = 1024 ∧ clock w.outer + 1 ≤ clock s + w.visited)
      (fun _ w => w.budget + w.visited = 1024 ∧ clock w.outer ≤ clock s + w.visited)
  /-- `ntfs_runs`, for any bytes of the attribute. -/
  ntfs : ∀ a : Buffer, Sound (ntfsRuns v a) (RunList v)

/-- **Decoded run lists** are well formed, on every volume that `native_probe` accepts: no
arithmetic wraps and no byte outside the inode, the block or the attribute is read. -/
theorem decoded_runs (σ : Type) {g : Geometry} {disk start length : Nat} {ro : Bool}
    {boot super : Bytes} {v : NativeVolume}
    (h : nativeGeometry g disk start length ro boot super = .ok v) : RunsDecoded σ v := by
  have hv := nativeGeometry_ok h
  refine ⟨?_, ?_, sound_ntfsRuns hv⟩
  · intro hk env inode raw s hraw
    have hsize := (hv.ext hk).2.2.1
    exact extMap_ends hv hk (by omega) s
  · intro hk env clock hc seed depth root s
    refine (extExtents_spends hv hk hc seed root ⟨s, [], 1024⟩ RunList.nil).mono ?_ ?_
    · rintro _ w ⟨-, hb, hclock⟩
      dsimp only at hb hclock
      rw [ExtWalk.visited]
      omega
    · rintro f w ⟨-, hb, hclock⟩
      dsimp only at hb hclock
      rw [ExtWalk.visited]
      omega

theorem smallDisk_pos : 0 < 100 := by decide

theorem smallDisk_lt : 100 ≤ (2 ^ 64 - 1) / 512 := by decide

/-- A disk of one hundred sectors. -/
def smallDisk : Geometry where
  sectorSize := 512
  sectors := 100
  sectors_pos := smallDisk_pos
  sectorSize_pow := Geometry.power2_512
  sectorSize_min := Geometry.min_512
  sectorSize_max := Geometry.max_512
  bytes_lt := smallDisk_lt

/-- The boot sector of an NTFS volume on it. -/
def smallNtfs : Bytes := fun i =>
  match i with
  | 3 => 78
  | 4 => 84
  | 5 => 70
  | 6 => 83
  | 7 => 32
  | 8 => 32
  | 9 => 32
  | 10 => 32
  | 12 => 2
  | 13 => 1
  | 40 => 99
  | 48 => 4
  | 64 => 0xf6
  | 68 => 0xf4
  | 510 => 0x55
  | 511 => 0xaa
  | _ => 0

/-- The superblock of an ext4 volume on it, with blocks of 1024 bytes. -/
def smallExt : Bytes := fun i =>
  match i with
  | 0 => 16
  | 4 => 49
  | 20 => 1
  | 33 => 32
  | 40 => 16
  | 56 => 0x53
  | 57 => 0xef
  | _ => 0

theorem decoded_runs_small :
    (∃ v, nativeGeometry smallDisk 0 1 99 false smallNtfs (fun _ => 0) = .ok v ∧ v.kind = .ntfs ∧
      v.blocks = 99 ∧ RunsDecoded Unit v) ∧
    ∃ v, nativeGeometry smallDisk 0 0 100 false (fun _ => 0) smallExt = .ok v ∧ v.kind = .ext4 ∧
      v.blocks = 49 ∧ RunsDecoded Unit v := by
  constructor
  · have h : (nativeGeometry smallDisk 0 1 99 false smallNtfs fun _ => 0).map
        (fun v => (v.kind, v.blocks)) = .ok (.ntfs, 99) := by rfl
    cases hv : nativeGeometry smallDisk 0 1 99 false smallNtfs fun _ => 0 with
    | error e => simp [hv, Except.map] at h
    | ok v =>
        simp only [hv, Except.map, Except.ok.injEq, Prod.mk.injEq] at h
        exact ⟨v, rfl, h.1, h.2, decoded_runs Unit hv⟩
  · have h : (nativeGeometry smallDisk 0 0 100 false (fun _ => 0) smallExt).map
        (fun v => (v.kind, v.blocks)) = .ok (.ext4, 49) := by rfl
    cases hv : nativeGeometry smallDisk 0 0 100 false (fun _ => 0) smallExt with
    | error e => simp [hv, Except.map] at h
    | ok v =>
        simp only [hv, Except.map, Except.ok.injEq, Prod.mk.injEq] at h
        exact ⟨v, rfl, h.1, h.2, decoded_runs Unit hv⟩

end Efishell
