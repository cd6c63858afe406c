import Efishell.Fs.ExtAdd

/-!
# File systems — names in an ext4 directory

`ext_directory` with a name to look for, and what `ext_add_dirent` means for it.  The lookup goes
through the blocks of the directory up to its size; `ext_add_dirent` goes through all blocks that
are mapped.

Main results:

* `lookupLoop_ends` and `lookupLoop_missing`: what the walk through the blocks finds, and what its
  `K_ENOENT` says.
* `extLookup_missing`: what `ext_create` knows from `ext_directory` before it adds a name.
* `added_inside_iff`: for a name that the directory does not have, `ext_add_dirent` puts the entry
  where a lookup finds it if and only if there is room within the size of the directory, or none
  behind it.
-/

namespace Efishell

/-! ### Inodes -/

/-- One bit of the CRC-16 of a group descriptor. -/
def crc16Bit (crc : UInt16) : UInt16 := (crc >>> 1) ^^^ (0xa001 &&& (0 - (crc &&& 1)))

/-- One byte of it. -/
def crc16Byte (crc : UInt16) (x : UInt8) : UInt16 :=
  crc16Bit (crc16Bit (crc16Bit (crc16Bit (crc16Bit (crc16Bit (crc16Bit (crc16Bit
    (crc ^^^ x.toUInt16))))))))

/-- `crc16_step(crc, p + off, n)`. -/
def crc16Step (crc : UInt16) (p : Bytes) (off : Nat) : Nat → UInt16
  | 0 => crc
  | n + 1 => crc16Step (crc16Byte crc (p off)) p (off + 1) n

/-- A block number of a group descriptor: `ext_desc_block`. -/
def extDescBlock (v : NativeVolume) (d : Bytes) (off : Nat) : Nat :=
  rd32 d off + if v.descSize = 64 then 2 ^ 32 * rd32 d (off + 32) else 0

/-- The checksum of a group descriptor. -/
def groupSumOk (v : NativeVolume) (group : Nat) (d : Bytes) : Bool :=
  let wanted := rd16 d 30
  let d := setByte (setByte d 30 0) 31 0
  let g := wr32 (fun _ => 0) 0 group
  if v.csum then (crc32cStep (crc32cStep v.csumSeed g 0 4) d 0 v.descSize).toNat % 2 ^ 16 == wanted
  else if v.gdtCsum then
    let crc := crc16Step (crc16Step (crc16Step 0xffff v.super 104 16) g 0 4) d 0 30
    (if 32 < v.descSize then crc16Step crc d 32 (v.descSize - 32) else crc).toNat == wanted
  else true

/-- Where the tables of a group stand. -/
def groupPlacesOk (v : NativeVolume) (d : Bytes) : Bool :=
  let table := extDescBlock v d 8
  let bitmap := extDescBlock v d 0
  let inodemap := extDescBlock v d 4
  let blocks := (v.inodesPerGroup * v.inodeSize + v.block - 1) / v.block
  table != 0 && decide (table < v.blocks) && decide (blocks ≤ v.blocks - table) && bitmap != 0 &&
    decide (bitmap < v.blocks) && inodemap != 0 && decide (inodemap < v.blocks) &&
      bitmap != inodemap &&
    !overlap bitmap 1 table blocks && !overlap inodemap 1 table blocks

/-- `ext_group`. -/
def extGroup (v : NativeVolume) (group : Nat) : Io Errno NativeState Bytes := do
  if v.groups ≤ group then Io.fail .eio
  else
    let table := (if v.block = 1024 then 2 else 1) * v.block
    let d ← nativeBytes driveBytes v (table + group * v.descSize) v.descSize
    if groupSumOk v group d = true ∧ groupPlacesOk v d = true then return d else Io.fail .eio

/-- The checksum of an inode, stored in one or two parts. -/
def inodeSumOk (v : NativeVolume) (inode : Nat) (raw : Bytes) : Bool :=
  if v.csum then
    let high := decide (132 ≤ v.inodeSize) && decide (4 ≤ rd16 raw 128)
    let wanted := rd16 raw 124 + if high then 2 ^ 16 * rd16 raw 130 else 0
    let cleared := wr16 raw 124 0
    let crc :=
      crc32cStep (inodeSeed v inode cleared) (if high then wr16 cleared 130 0
        else cleared) 0 v.inodeSize
    (if high then crc.toNat else crc.toNat % 2 ^ 16) == wanted
  else true

/-- `ext_inode`. -/
def extInode (v : NativeVolume) (inode : Nat) : Io Errno NativeState Bytes := do
  if inode = 0 ∨ v.inodes < inode then Io.fail .eio
  else
    let d ← extGroup v ((inode - 1) / v.inodesPerGroup)
    let table := extDescBlock v d 8
    let offset := (inode - 1) % v.inodesPerGroup * v.inodeSize
    if table = 0 ∨ v.blocks ≤ table ∨
      (v.blocks - table) * v.block < offset + v.inodeSize then Io.fail .eio
    else
      let raw ← nativeBytes driveBytes v (table * v.block + offset) v.inodeSize
      if inodeSumOk v inode raw = false then Io.fail .eio
      else if rd16 raw 26 = 0 ∨ rd32 raw 20 ≠ 0 then Io.fail .enoent
      else if rd32 raw 32 &&& (0x10000000 ||| 0x800 ||| 0x4) ≠ 0 then Io.fail .enotsup
      else return raw

/-! ### The lookup -/

/-- Does a block have the tail that a checksum stands in? -/
def hasTail (v : NativeVolume) (b : Bytes) : Bool :=
  rd32 b (v.block - 12) == 0 && rd16 b (v.block - 8) == 12 && b (v.block - 5) == 0xde

/-- What `ext_directory` does with one block. -/
def lookupBlock (v : NativeVolume) (seed : UInt32) (raw b : Bytes) (wanted : List UInt8) :
    Except Errno (Option Nat) :=
  if v.csum then
    if hasTail v b then
      if (crc32cStep seed b 0 (v.block - 12)).toNat ≠ rd32 b (v.block - 4) then .error .eio
      else findName b (v.block - 12) wanted (v.block - 12) 0
    else if (rd32 raw 32).testBit 12 then findName b v.block wanted v.block 0
    else .error .eio
  else findName b v.block wanted v.block 0

/-- The loop of `ext_directory`, from block `off / v->block` on. -/
def lookupLoop (v : NativeVolume) (runs : List NativeRun) (seed : UInt32) (raw : Bytes)
    (wanted : List UInt8) :
    Nat → Nat → Io Errno NativeState Nat
  | 0, _ => Io.fail .enoent
  | fuel + 1, off => do
      if extSize raw ≤ off then Io.fail .enoent
      else
        let block ← runIo v runs off (fun _ => 0) v.block false
        let found ← Io.lift (lookupBlock v seed raw block wanted)
        match found with
        | some inode => return inode
        | none => lookupLoop v runs seed raw wanted fuel (off + v.block)

/-- `k_file`, as `ext_directory` fills it. -/
structure FoundFile where
  node : Nat
  attributes : Nat
  size : Nat
  generation : Nat

/-- The inode of the entry that was found. -/
def foundFile (v : NativeVolume) (inode : Nat) : Io Errno NativeState FoundFile := do
  let target ← extInode v inode
  let mode := rd16 target 0 &&& 0xf000
  if mode ≠ 0x4000 ∧ mode ≠ 0x8000 then Io.fail .enotsup
  else return ⟨inode, if mode = 0x4000 then 0x10 else 0, extSize target, rd32 target 100⟩

section Lookup

variable (alloc : NativeState → Nat × NativeState) (free : Nat → NativeState → NativeState)

/-- `ext_directory` with a name and no callback. -/
def extLookup (v : NativeVolume) (inode : Nat) (wanted : List UInt8) :
    Io Errno NativeState FoundFile := do
  let raw ← extInode v inode
  if rd16 raw 0 &&& 0xf000 ≠ 0x4000 then Io.fail .einval
  else if nativeScanMax < extSize raw ∨ extSize raw % v.block ≠ 0 then Io.fail .enotsup
  else
    let runs ← extMapNative alloc free v inode raw
    let found ← lookupLoop v runs (inodeSeed v inode raw) raw wanted (extSize raw / v.block + 1) 0
    foundFile v found

end Lookup

/-! ### Blocks, read again -/

section Blocks

variable {v : NativeVolume} {seed : UInt32} {e : ExtEntry} {b b' : Bytes}

/-- The checksum depends on the bytes it covers only. -/
theorem crc32cStep_congr {n : Nat} : ∀ {crc : UInt32} {off : Nat},
    (∀ i < n, b' (off + i) = b (off + i)) →
    crc32cStep crc b' off n = crc32cStep crc b off n := by
  induction n with
  | zero => exact fun _ => rfl
  | succ n ih =>
      intro crc off h
      have h0 := h 0 (by omega)
      rw [Nat.add_zero] at h0
      rw [crc32cStep, crc32cStep, h0]
      refine ih fun i hi => ?_
      have := h (i + 1) (by omega)
      rwa [show off + (i + 1) = off + 1 + i by omega] at this

/-- Whether a block has a tail depends on its own bytes. -/
theorem hasTail_congr (hv : 12 ≤ v.block) (h : ∀ i < v.block, b' i = b i) :
    hasTail v b' = hasTail v b := by
  have h₀ : rd32 b' (v.block - 12) = rd32 b (v.block - 12) := rd32_congr fun i hi => h _ (by omega)
  have h₁ : rd16 b' (v.block - 8) = rd16 b (v.block - 8) := rd16_congr fun i hi => h _ (by omega)
  rw [hasTail, hasTail, h₀, h₁, h _ (by omega)]

theorem lookupBlock_congr (hv : 12 ≤ v.block) (h : ∀ i < v.block, b' i = b i) {raw : Bytes}
    {wanted : List UInt8} : lookupBlock v seed raw b' wanted = lookupBlock v seed raw b wanted := by
  have hc : crc32cStep seed b' 0 (v.block - 12) = crc32cStep seed b 0 (v.block - 12) :=
    crc32cStep_congr fun i hi => h _ (by omega)
  have hsum : rd32 b' (v.block - 4) = rd32 b (v.block - 4) := rd32_congr fun i hi => h _ (by omega)
  have hf : ∀ {limit fuel : Nat}, limit ≤ v.block →
      findName b' limit wanted fuel 0 = findName b limit wanted fuel 0 :=
    fun hl => findName_congr fun i hi => h i (by omega)
  rw [lookupBlock, lookupBlock, hasTail_congr hv h, hc, hsum, hf (Nat.sub_le _ _),
    hf (Nat.le_refl _)]

/-- The tail, from the end of the block. -/
theorem tailOk_iff (hv : 12 ≤ v.block) : tailOk v seed b = true ↔
    hasTail v b = true ∧ (crc32cStep seed b 0 (v.block - 12)).toNat = rd32 b (v.block - 4) := by
  rw [tailOk, hasTail]
  simp only [Bool.and_eq_true, beq_iff_eq, show v.block - 12 + 4 = v.block - 8 by omega,
    show v.block - 12 + 7 = v.block - 5 by omega, show v.block - 12 + 8 = v.block - 4 by omega]

theorem tailOk_congr (hv : 12 ≤ v.block) (h : ∀ i < v.block, b' i = b i) :
    tailOk v seed b' = tailOk v seed b := by
  have hc : crc32cStep seed b' 0 (v.block - 12) = crc32cStep seed b 0 (v.block - 12) :=
    crc32cStep_congr fun i hi => h _ (by omega)
  have hsum : rd32 b' (v.block - 4) = rd32 b (v.block - 4) := rd32_congr fun i hi => h _ (by omega)
  rw [Bool.eq_iff_iff, tailOk_iff hv, tailOk_iff hv, hasTail_congr hv h, hc, hsum]

/-- The checksum stands behind the records. -/
theorem putTail_lt {i : Nat} (h : i < direntLimit v) : putTail v seed b i = b i := by
  rw [putTail]
  split
  · exact wr32_ne (by omega)
  · rfl

/-- **The stored checksum is valid** where the tail was right. -/
theorem tailOk_putTail (hv : 12 ≤ v.block) (hc : v.csum = true) {g : DirentGap} (hg : g.Fits e)
    (hend : g.at_ + g.size ≤ direntLimit v) (h : tailOk v seed b = true) :
    tailOk v seed (putTail v seed (putDirent b g e)) = true := by
  have hlimit : direntLimit v = v.block - 12 := by rw [direntLimit, if_pos hc]
  have hput : ∀ i, i < v.block - 4 ∨ v.block ≤ i →
      putTail v seed (putDirent b g e) i = putDirent b g e i := by
    intro i hi
    rw [putTail, if_pos hc]
    exact wr32_ne (by omega)
  have htail : ∀ i, v.block - 12 ≤ i → i < v.block - 4 → putTail v seed (putDirent b g e) i = b i :=
    fun i hi hlt => (hput i (.inl hlt)).trans (putDirent_out hg (.inr (by omega)))
  rw [tailOk_iff hv] at h ⊢
  constructor
  · have h₀ : rd32 (putTail v seed (putDirent b g e)) (v.block - 12) = rd32 b (v.block - 12) :=
      rd32_congr fun i hi => htail _ (by omega) (by omega)
    have h₁ : rd16 (putTail v seed (putDirent b g e)) (v.block - 8) = rd16 b (v.block - 8) :=
      rd16_congr fun i hi => htail _ (by omega) (by omega)
    rw [hasTail, h₀, h₁, htail _ (by omega) (by omega)]
    exact h.1
  · have hcrc : crc32cStep seed (putTail v seed (putDirent b g e)) 0 (v.block - 12) =
        crc32cStep seed (putDirent b g e) 0 (v.block - 12) :=
      crc32cStep_congr fun i hi => hput _ (by omega)
    have hat : v.block - 12 + 8 = v.block - 4 := by omega
    rw [hcrc, putTail, if_pos hc, hlimit, hat, rd32_wr32 (UInt32.toNat_lt _)]

/-- A block that had no such name has it with the entry. -/
theorem lookupBlock_put (hv : 12 ≤ v.block) {g : DirentGap}
    (hg : Reaches b (direntLimit v) (direntNeeded e) g 0) (hn : e.name.length < 256)
    (hi : e.inode < 2 ^ 32) (hi0 : e.inode ≠ 0) (hne : e.name ≠ []) (hz : (0 : UInt8) ∉ e.name)
    (htail : v.csum = true → tailOk v seed b = true) {raw : Bytes}
    (hmiss : lookupBlock v seed raw b e.name = .ok none) :
    lookupBlock v seed raw (putTail v seed (putDirent b g e)) e.name = .ok (some e.inode) := by
  have hneed := direntNeeded_ge hn
  have hend := (recordAt_some.mp hg.gap.1).2.2.2.2.1
  have hfind : findName b (direntLimit v) e.name (direntLimit v) 0 = .ok none →
      findName (putTail v seed (putDirent b g e)) (direntLimit v) e.name (direntLimit v) 0 =
        .ok (some e.inode) := by
    intro h
    rw [findName_congr fun i hi => putTail_lt hi]
    exact hg.findName hneed hn hi hi0 hne hz (Nat.le_add_left _ _) h
  by_cases hc : v.csum = true
  · have hlimit : direntLimit v = v.block - 12 := by rw [direntLimit, if_pos hc]
    obtain ⟨ht, hsum⟩ := (tailOk_iff hv).mp (htail hc)
    obtain ⟨ht', hsum'⟩ := (tailOk_iff hv).mp (tailOk_putTail hv hc (hg.fits hneed) hend (htail hc))
    rw [lookupBlock, if_pos hc, if_pos ht, if_neg (not_not.mpr hsum), ← hlimit] at hmiss
    rw [lookupBlock, if_pos hc, if_pos ht', if_neg (not_not.mpr hsum'), ← hlimit]
    exact hfind hmiss
  · have hlimit : direntLimit v = v.block := by rw [direntLimit, if_neg hc, Nat.sub_zero]
    rw [lookupBlock, if_neg hc, ← hlimit] at hmiss
    rw [lookupBlock, if_neg hc, ← hlimit]
    exact hfind hmiss

end Blocks

/-! ### What the lookup reads -/

section Walk

variable {v : NativeVolume} {runs : List NativeRun} {seed : UInt32} {raw : Bytes}
    {wanted : List UInt8}

/-- Block `l` of the file, on a volume with the bytes `m`. -/
def dirBlock (v : NativeVolume) (runs : List NativeRun) (m : Bytes) (l : Nat) : Bytes :=
  match fileBlock runs l with
  | some k => blockOf v m k
  | none => fun _ => 0

/-- A byte of a file's block, by block and position. -/
theorem fileFrom_block {g : Geometry} (hv : v.On g) {m : Bytes} {l i : Nat}
    (hl : l * v.block < 2 ^ 64)
    (hi : i < v.block) : fileFrom v runs m (l * v.block) i = dirBlock v runs m l i := by
  have hdiv : l * v.block / v.block = l := Nat.mul_div_cancel _ hv.ok.block_pos
  have hmod : l * v.block % v.block = 0 := Nat.mul_mod_left _ _
  have hplace :
      placesFrom v runs (l * v.block) i = (fileBlock runs l).map fun k => k * v.block + i := by
    rw [placesFrom_block hv hl (by omega), runPlace, fileBlock, hdiv, hmod, Option.map_map,
      Option.map_map]
    rfl
  rw [dirBlock]
  cases hb : fileBlock runs l with
  | none => rw [fileFrom_of_hole (by rw [hplace, hb]; rfl)]
  | some k =>
      rw [fileFrom_of_place (q := k * v.block + i) (by rw [hplace, hb]; rfl)]
      rfl

/-- No block of the directory before `l` has the name, and all are in order. -/
def MissesBefore (v : NativeVolume) (runs : List NativeRun) (seed : UInt32) (raw : Bytes)
    (wanted : List UInt8) (m : Bytes) (l : Nat) : Prop :=
  ∀ i < l, lookupBlock v seed raw (dirBlock v runs m i) wanted = .ok none

/-- The walk ends at the first block with the name. -/
theorem lookupLoop_ends (hr : RunList v runs) {m : Bytes} {last inode : Nat} (hb : 12 ≤ v.block)
    (hlast : last * v.block < extSize raw) (hsize : extSize raw < 2 ^ 64)
    (hmiss : MissesBefore v runs seed raw wanted m last)
    (hfound : lookupBlock v seed raw (dirBlock v runs m last) wanted = .ok (some inode))
    {fuel : Nat} :
    ∀ {s : NativeState} {l : Nat}, v.On s.drive.disk.geo → s.view v = m → l ≤ last →
      last < l + fuel →
      Io.Ends (lookupLoop v runs seed raw wanted fuel (l * v.block)) s
        (fun r s' => r = inode ∧ s.Stays s') fun _ _ => ¬ s.drive.Reliable := by
  induction fuel with
  | zero =>
      intro s l _ _ hl hf
      omega
  | succ fuel ih =>
      intro s l hv hview hl hf
      have hmul := Nat.mul_le_mul_right v.block hl
      rw [lookupLoop]
      refine .ite (fun h => absurd h (by omega)) fun _ => ?_
      have hread := @runIoLoop_read_ends v runs hr v.block s (l * v.block) v.block 0 (fun _ => 0)
        (Nat.le_refl _) hv (by omega)
      refine Io.ends_bind.mpr (hread.mono ?_ fun _ _ h => h.2)
      rintro _ s₁ ⟨hst, rfl⟩
      have hblock : ∀ i < v.block,
          memCopy (fun _ => 0) 0 (fileFrom v runs (s.view v) (l * v.block)) 0 v.block i =
          dirBlock v runs m l i := by
        intro i hi
        rw [memCopy_eq (Nat.zero_le i) (by omega), Nat.sub_zero, Nat.zero_add, hview,
          fileFrom_block hv (by omega) hi]
      rw [lookupBlock_congr hb hblock]
      rcases Nat.lt_or_eq_of_le hl with hlt | rfl
      · rw [hmiss l hlt, Io.lift_ok_bind, ← Nat.succ_mul]
        refine (ih (hst.geo ▸ hv) (hst.view.trans hview) hlt (by omega)).mono ?_ ?_
        · exact fun r s' h => ⟨h.1, hst.trans h.2⟩
        · exact fun _ _ h hrel => h (hst.reliable hrel)
      · rw [hfound, Io.lift_ok_bind]
        exact ⟨rfl, hst⟩

/-- A block that is out of order gives `K_EIO`. -/
theorem findName_error {b : Bytes} {limit fuel : Nat} {err : Errno} :
    ∀ {at_ : Nat}, findName b limit wanted fuel at_ = .error err → err = .eio := by
  induction fuel with
  | zero => exact fun h => by cases h
  | succ fuel ih =>
      intro at_ h
      rw [findName] at h
      by_cases hl : limit ≤ at_
      · rw [if_pos hl] at h
        cases h
      · rw [if_neg hl] at h
        cases hr : recordAt b limit at_ with
        | none =>
            rw [hr] at h
            exact (Except.error.inj h).symm
        | some size =>
            rw [hr] at h
            dsimp only at h
            split_ifs at h with hlive hzero hname
            · exact (Except.error.inj h).symm
            · exact ih h
            · exact ih h

/-- The scan of a block fails with `K_EIO` only. -/
theorem lookupBlock_error {b : Bytes} {err : Errno}
    (h : lookupBlock v seed raw b wanted = .error err) :
    err = .eio := by
  rw [lookupBlock] at h
  split_ifs at h with _ _ _ _
  · exact (Except.error.inj h).symm
  · exact findName_error h
  · exact findName_error h
  · exact (Except.error.inj h).symm
  · exact findName_error h

/-- **What the walk says**: an inode is that of an entry with the name, and `K_ENOENT` means that
all blocks are in order and none has the name. -/
theorem lookupLoop_missing (hr : RunList v runs) {m : Bytes} (hb : 12 ≤ v.block)
    (hsize : extSize raw < 2 ^ 64) {fuel : Nat} :
    ∀ {s : NativeState} {l : Nat}, v.On s.drive.disk.geo → s.drive.Reliable → s.view v = m →
      extSize raw / v.block < l + fuel →
      Io.Ends (lookupLoop v runs seed raw wanted fuel (l * v.block)) s
        (fun r s' => s.Stays s' ∧ ∃ i, i * v.block < extSize raw ∧
          lookupBlock v seed raw (dirBlock v runs m i) wanted = .ok (some r))
        fun err _ => err = .enoent → ∀ i, l ≤ i → i < extSize raw / v.block →
          lookupBlock v seed raw (dirBlock v runs m i) wanted = .ok none := by
  induction fuel with
  | zero =>
      intro s l _ _ _ hf _ i hl hi
      omega
  | succ fuel ih =>
      intro s l hv hrel hview hf
      rw [lookupLoop]
      refine .ite (fun hend => ?_) fun hin => ?_
      · intro _ i hl hi
        have hle : extSize raw / v.block ≤ l := Nat.div_le_of_le_mul (Nat.mul_comm l _ ▸ hend)
        omega
      have hread := @runIoLoop_read_ends v runs hr v.block s (l * v.block) v.block 0 (fun _ => 0)
        (Nat.le_refl _) hv (by omega)
      refine Io.ends_bind.mpr (hread.mono ?_ fun _ _ h => absurd hrel h.2)
      rintro _ s₁ ⟨hst, rfl⟩
      -- what is read is the block of the file
      have hblock : ∀ i < v.block,
          memCopy (fun _ => 0) 0 (fileFrom v runs (s.view v) (l * v.block)) 0 v.block i =
          dirBlock v runs m l i := by
        intro i hi
        rw [memCopy_eq (Nat.zero_le i) (by omega), Nat.sub_zero, Nat.zero_add, hview,
          fileFrom_block hv (by omega) hi]
      rw [lookupBlock_congr hb hblock]
      cases hfound : lookupBlock v seed raw (dirBlock v runs m l) wanted with
      | error err =>
          intro herr
          cases herr.symm.trans (lookupBlock_error hfound)
      | ok found =>
          rw [Io.lift_ok_bind]
          cases found with
          | some inode => exact ⟨hst, l, Nat.lt_of_not_le hin, hfound⟩
          | none =>
              rw [← Nat.succ_mul]
              refine (ih (hst.geo ▸ hv) (hst.reliable hrel) (hst.view.trans hview)
                (by omega)).mono ?_ ?_
              · exact fun r s' h => ⟨hst.trans h.1, h.2⟩
              · intro err s' h herr i hl hi
                rcases Nat.lt_or_eq_of_le hl with hlt | rfl
                · exact h herr i hlt hi
                · exact hfound

end Walk

/-! ### An inode that was stored again -/

/-- The inodes differ at most in their checksum and in what stands behind it. -/
def SameInode (raw raw' : Bytes) : Prop := ∀ i < 124, raw' i = raw i

section Inode

variable {v : NativeVolume} {raw raw' : Bytes} {inode : Nat}

/-- Two buffers with the same bytes. -/
structure Buffer.Agree (h h' : Buffer) : Prop where
  size : h'.size = h.size
  data : ∀ i < h.size, h'.data i = h.data i

/-- Buffers that agree have the same 16-bit fields. -/
theorem Buffer.Agree.rd16 {ε : Type} {h h' : Buffer} (ha : h.Agree h') (i : Nat) :
    (h'.rd16 i : Checked ε Nat) = h.rd16 i := by
  rw [Buffer.rd16, Buffer.rd16, ha.size]
  by_cases hi : i + 2 ≤ h.size
  · have hrd : Efishell.rd16 h'.data i = Efishell.rd16 h.data i :=
      rd16_congr fun j hj => ha.data _ (by omega)
    rw [if_pos hi, if_pos hi, hrd]
  · rw [if_neg hi, if_neg hi]

theorem Buffer.Agree.rd32 {ε : Type} {h h' : Buffer} (ha : h.Agree h') (i : Nat) :
    (h'.rd32 i : Checked ε Nat) = h.rd32 i := by
  rw [Buffer.rd32, Buffer.rd32, ha.size]
  by_cases hi : i + 4 ≤ h.size
  · have hrd : Efishell.rd32 h'.data i = Efishell.rd32 h.data i :=
      rd32_congr fun j hj => ha.data _ (by omega)
    rw [if_pos hi, if_pos hi, hrd]
  · rw [if_neg hi, if_neg hi]

/-- A leaf is read in its own bytes. -/
theorem extExtents_congr {σ : Type} {env : NativeEnv σ} {seed : UInt32} {h h' : Buffer}
    (ha : h.Agree h') :
    extExtents env v seed 0 h' = extExtents env v seed 0 h := by
  have hheader : (extHeader h' 0 : ExtIo σ Nat) = extHeader h 0 := by
    simp only [extHeader, ha.size, ha.rd16]
  have hleaf : (extLeaf v h' : Nat → Nat → ExtIo σ Unit) = extLeaf v h := by
    funext x logical
    simp only [extLeaf, ha.rd16, ha.rd32]
  have hloop : ∀ (left i last : Nat) (step : Nat → Nat → ExtIo σ Unit),
      extLoop h' step left i last = extLoop h step left i last := by
    intro left
    induction left with
    | zero => exact fun _ _ _ => rfl
    | succ left ih =>
        intro i last step
        simp only [extLoop, ha.rd32, ih]
  simp only [extExtents, hheader, hleaf, hloop]

/-- The checksum's seed is the same for what is the same inode. -/
theorem inodeSeed_congr (h : SameInode raw raw') : inodeSeed v inode raw' = inodeSeed v inode raw :=
  crc32cStep_congr fun i hi => h _ (by omega)

theorem extSize_congr (h : SameInode raw raw') : extSize raw' = extSize raw := by
  have h₀ : rd32 raw' 4 = rd32 raw 4 := rd32_congr fun i hi => h _ (by omega)
  have h₁ : rd32 raw' 108 = rd32 raw 108 := rd32_congr fun i hi => h _ (by omega)
  rw [extSize, extSize, h₀, h₁]

theorem flags_congr (h : SameInode raw raw') : rd32 raw' 32 = rd32 raw 32 :=
  rd32_congr fun i hi => h _ (by omega)

theorem lookupBlock_inode (h : SameInode raw raw') {seed : UInt32} {b : Bytes}
    {wanted : List UInt8} :
    lookupBlock v seed raw' b wanted = lookupBlock v seed raw b wanted := by
  rw [lookupBlock, lookupBlock, flags_congr h]

theorem extMapNative_congr {alloc : NativeState → Nat × NativeState}
    {free : Nat → NativeState → NativeState}
    (h : SameInode raw raw') (hf : rd32 raw 32 = 0x80000) (hd : rd16 raw 46 = 0) :
    extMapNative alloc free v inode raw' = extMapNative alloc free v inode raw := by
  have hagree : Buffer.Agree ⟨fun j => raw (40 + j), 60⟩ ⟨fun j => raw' (40 + j), 60⟩ :=
    ⟨rfl, fun i (hi : i < 60) => h _ (by omega)⟩
  have hread : ∀ {x : Bytes}, rd32 x 32 = 0x80000 → rd16 x 46 = 0 →
      (Buffer.rd32 ⟨x, 512⟩ 32 : Checked Errno Nat) = .ok 0x80000 ∧
        (Buffer.rd16 ⟨x, 512⟩ 46 : Checked Errno Nat) = .ok 0 ∧
        (Buffer.sub ⟨x, 512⟩ 40 60 : Checked Errno Buffer) = .ok ⟨fun j => x (40 + j), 60⟩ ∧
        extInodeSeed v inode ⟨x, 512⟩ = .ok (inodeSeed v inode x) := by
    intro x hf hd
    refine ⟨?_, ?_, ?_, ?_⟩
    · rw [Buffer.rd32, if_pos (show 32 + 4 ≤ 512 by omega), hf]
    · rw [Buffer.rd16, if_pos (show 46 + 2 ≤ 512 by omega), hd]
    · rw [Buffer.sub, if_pos (show 40 + 60 ≤ 512 by omega)]
    · rfl
  obtain ⟨h₁, h₂, h₃, h₄⟩ := hread hf hd
  have hd' : rd16 raw' 46 = 0 := (rd16_congr fun i hi => h _ (by omega)).trans hd
  obtain ⟨h₁', h₂', h₃', h₄'⟩ := hread ((flags_congr h).trans hf) hd'
  have hwalk : extMapWalk (driveEnv alloc free) v inode ⟨raw', 512⟩ =
      extMapWalk (driveEnv alloc free) v inode ⟨raw, 512⟩ := by
    rw [extMapWalk, extMapWalk, h₁, h₂, h₃, h₄, h₁', h₂', h₃', h₄']
    have hbit : Nat.testBit 0x80000 19 = true := by decide
    simp only [Io.lift_ok_bind, extExtents_congr hagree, inodeSeed_congr h, hbit, if_true]
  funext s
  simp only [extMapNative, unfault, extMap, hwalk]

end Inode

/-! ### What `ext_add_dirent` means for the directory -/

/-- The entry was put into block `l` of the file, which is block `k` of the volume: there it stands
between two of the entries from before, and no other block is changed. -/
structure EntryAdded (v : NativeVolume) (seed : UInt32) (runs : List NativeRun) (e : ExtEntry)
    (m m' : Bytes)
    (l k : Nat) : Prop where
  place : fileBlock runs l = some k
  changed : ∃ i, i / v.block = k ∧ m' i ≠ m i
  others : ∀ i, i / v.block ≠ k → m' i = m i
  entries : ∀ es, Chain (blockOf v m k) (direntLimit v) 0 es →
    ∃ l₁ l₂, es = l₁ ++ l₂ ∧ Chain (blockOf v m' k) (direntLimit v) 0 (l₁ ++ e :: l₂)
  tail : v.csum = true → tailOk v seed (blockOf v m' k) = true

/-- On a volume with the bytes `m` the computation ends with a value that `P` holds of, and writes
nothing. -/
def Yields {α : Type} (v : NativeVolume) (x : Io Errno NativeState α) (m : Bytes)
    (P : α → Prop) : Prop :=
  ∀ s : NativeState, v.On s.drive.disk.geo → s.drive.Reliable → s.view v = m →
    Io.Ends x s (fun a s' => P a ∧ s.Stays s') fun _ _ => False

/-- An inode with the mode of a directory or of a file. -/
def IsFile (target : Bytes) : Prop :=
  rd16 target 0 &&& 0xf000 = 0x4000 ∨ rd16 target 0 &&& 0xf000 = 0x8000

/-- What `ext_directory` answers for an inode. -/
def fileOf (inode : Nat) (target : Bytes) : FoundFile :=
  ⟨inode, if rd16 target 0 &&& 0xf000 = 0x4000 then 0x10 else 0, extSize target, rd32 target 100⟩

/-- The inode is that of a directory without the name.  This is what `ext_create` asks
`ext_directory` before it adds a name. -/
structure NameMissing (v : NativeVolume) (parent : Nat) (raw : Bytes) (runs : List NativeRun)
    (name : List UInt8) (m : Bytes) : Prop where
  directory : rd16 raw 0 &&& 0xf000 = 0x4000
  missing : MissesBefore v runs (inodeSeed v parent raw) raw name m (extSize raw / v.block)

/-- The blocks of the directory up to its size are the same. -/
def SameBlocks (v : NativeVolume) (raw : Bytes) (runs : List NativeRun) (m m' : Bytes) : Prop :=
  ∀ l, l * v.block < extSize raw → ∀ i < v.block, dirBlock v runs m' l i = dirBlock v runs m l i

section Add

variable (alloc : NativeState → Nat × NativeState) (free : Nat → NativeState → NativeState)

/-- A lookup of the name finds the entry in the blocks of the directory, as soon as the inodes of
the directory and of the entry can be read. -/
def LookupFinds (v : NativeVolume) (parent : Nat) (raw : Bytes) (runs : List NativeRun)
    (e : ExtEntry) (m : Bytes) : Prop :=
  ∀ m' target, SameBlocks v raw runs m m' → Yields v (extInode v parent) m' (SameInode raw) →
    Yields v (extInode v e.inode) m' (SameInode target) → IsFile target →
      Yields v (extLookup alloc free v parent e.name) m' (· = fileOf e.inode target)

variable {alloc free} {v : NativeVolume} {parent : Nat} {raw : Bytes} {runs : List NativeRun}
    {e : ExtEntry}

/-- What a block with the entry is. -/
theorem Put.added (hb : 12 ≤ v.block) {seed : UInt32} {m m' : Bytes} {l k : Nat}
    (hl : fileBlock runs l = some k)
    (h : Put v seed e m k m') (hn : e.name.length < 256) (hi : e.inode < 2 ^ 32)
    (hi0 : e.inode ≠ 0) :
    EntryAdded v seed runs e m m' l k := by
  obtain ⟨b, g, hblock, hg, htail, rfl⟩ := h.gap
  have hneed := direntNeeded_ge hn
  have hlimit := direntLimit_le v
  have hend := (recordAt_some.mp hg.gap.1).2.2.2.2.1
  have hnew : ∀ i < v.block,
      blockOf v (memCopy m (k * v.block) (putTail v seed (putDirent b g e)) 0 v.block) k i =
      putTail v seed (putDirent b g e) i := by
    intro i hi
    rw [blockOf, memCopy_eq (by omega) (by omega), Nat.zero_add, Nat.add_sub_cancel_left]
  refine ⟨hl, ?_, fun i hik => memCopy_ne ?_, fun es hc => ?_, fun hc => ?_⟩
  · obtain ⟨i, hlt, hne⟩ := hg.changed hneed hi hi0
    refine ⟨k * v.block + i, piece_div (by omega) (by omega), ?_⟩
    have h := hnew i (by omega)
    rw [blockOf] at h
    rw [h, putTail_lt hlt, ← hblock i (by omega)]
    exact hne
  · by_contra hin
    refine hik ?_
    have hlt : i - k * v.block < v.block := by omega
    rw [← @piece_div v.block (by omega) k _ hlt]
    congr 1
    omega
  · obtain ⟨l₁, l₂, hes, hchain⟩ :=
      hg.chain hneed hn hi hi0 (hc.congr fun i _ hi => hblock i (by omega))
    refine ⟨l₁, l₂, hes, hchain.congr fun i _ hi => ?_⟩
    rw [hnew i (by omega), putTail_lt hi]
  · rw [tailOk_congr hb hnew]
    exact tailOk_putTail hb hc (hg.fits hneed) hend (htail hc)

/-- The block of the directory after the change. -/
theorem dirBlock_changed (hr : RunList v runs) {seed : UInt32} {m m' : Bytes} {l k : Nat}
    (h : EntryAdded v seed runs e m m' l k) {l' : Nat} (hne : l' ≠ l) :
    ∀ i < v.block, dirBlock v runs m' l' i = dirBlock v runs m l' i := by
  intro i hi
  rw [dirBlock, dirBlock]
  cases hb : fileBlock runs l' with
  | none => rfl
  | some k' =>
      have hk : k' ≠ k := by
        rintro rfl
        obtain ⟨r, hr₁, h₁⟩ := Option.map_eq_some_iff.mp hb
        obtain ⟨t, ht₁, h₂⟩ := Option.map_eq_some_iff.mp h.place
        exact hne (block_inj hr hr₁ ht₁ (h₁.trans h₂.symm))
      refine h.others _ ?_
      rw [piece_div (by omega) hi]
      exact hk

/-- The lookup is the same for what is the same inode. -/
theorem lookupLoop_inode {raw' : Bytes} (h : SameInode raw raw') {seed : UInt32}
    {wanted : List UInt8} {fuel : Nat} :
    ∀ {off : Nat},
      lookupLoop v runs seed raw' wanted fuel off = lookupLoop v runs seed raw wanted fuel off := by
  induction fuel with
  | zero => exact rfl
  | succ fuel ih =>
      intro off
      simp only [lookupLoop, extSize_congr h, lookupBlock_inode h, ih]

/-- **What `ext_create` knows** of the name after `K_ENOENT` from `ext_directory`: the directory
does not have it, or has it with an inode that is not in use. -/
theorem extLookup_missing (hr : RunList v runs) (hb : 12 ≤ v.block) (hf : rd32 raw 32 = 0x80000)
    (hd : rd16 raw 46 = 0) {m : Bytes} {name : List UInt8}
    (hraw : Yields v (extInode v parent) m (SameInode raw))
    (hruns : ∀ t, extMapNative alloc free v parent raw t = (.ok runs, t)) {s s' : NativeState}
    (hv : v.On s.drive.disk.geo) (hrel : s.drive.Reliable) (hview : s.view v = m)
    (h : Io.Fails (extLookup alloc free v parent name) s .enoent s') :
    NameMissing v parent raw runs name m ∨
      ∃ i inode s₁, i * v.block < extSize raw ∧
        lookupBlock v (inodeSeed v parent raw) raw (dirBlock v runs m i) name = .ok (some inode) ∧
        Io.Fails (foundFile v inode) s₁ .enoent s' := by
  have hparent := hraw s hv hrel hview
  rw [extLookup, Io.fails_bind] at h
  obtain h | ⟨raw₁, s₁, hret, h⟩ := h
  · rw [Io.Ends, h] at hparent
    exact hparent.elim
  obtain ⟨hsame, hst⟩ := hparent.returned hret
  have hmode : rd16 raw₁ 0 = rd16 raw 0 := rd16_congr fun i hi => hsame _ (by omega)
  rw [hmode, extSize_congr hsame, inodeSeed_congr hsame, extMapNative_congr hsame hf hd] at h
  by_cases hdir : rd16 raw 0 &&& 0xf000 = 0x4000
  swap
  · rw [if_pos hdir] at h
    cases h
  rw [if_neg (not_not.mpr hdir)] at h
  by_cases hsize : nativeScanMax < extSize raw ∨ extSize raw % v.block ≠ 0
  · rw [if_pos hsize] at h
    cases h
  rw [if_neg hsize, Io.fails_bind] at h
  obtain h | ⟨runs₁, s₂, hmap, h⟩ := h
  · rw [Io.Fails, hruns] at h
    cases h
  rw [Io.Returns, hruns] at hmap
  cases hmap
  rw [lookupLoop_inode hsame, Io.fails_bind] at h
  have hlt : extSize raw < 2 ^ 64 := (not_lt.mp fun h => hsize (.inl h)).trans_lt (by decide)
  have hloop := @lookupLoop_missing v runs (inodeSeed v parent raw) raw name hr m hb hlt
    (extSize raw / v.block + 1) s₁ 0 (hst.geo ▸ hv) (hst.reliable hrel)
      (hst.view.trans hview) (by omega)
  rw [Nat.zero_mul] at hloop
  obtain h | ⟨inode, s₃, hfound, h⟩ := h
  · rw [Io.Ends, h] at hloop
    exact .inl ⟨hdir, fun i hi => hloop rfl i (Nat.zero_le i) hi⟩
  · obtain ⟨-, i, hi, hblock⟩ := hloop.returned hfound
    exact .inr ⟨i, inode, s₃, hi, hblock, h⟩

/-- **The lookup finds the entry** within the size of the directory. -/
theorem Put.lookup (hr : RunList v runs) (hb : 12 ≤ v.block) {m m' : Bytes} {l k : Nat}
    (hl : fileBlock runs l = some k) (h : Put v (inodeSeed v parent raw) e m k m')
    (hn : e.name.length < 256)
    (hi : e.inode < 2 ^ 32) (hi0 : e.inode ≠ 0) (hne : e.name ≠ []) (hz : (0 : UInt8) ∉ e.name)
    (hf : rd32 raw 32 = 0x80000) (hd : rd16 raw 46 = 0) (hmax : extSize raw ≤ nativeScanMax)
    (hmod : extSize raw % v.block = 0) (hin : l * v.block < extSize raw)
    (hmiss : NameMissing v parent raw runs e.name m)
    (hruns : ∀ t, extMapNative alloc free v parent raw t = (.ok runs, t)) :
    LookupFinds alloc free v parent raw runs e m' := by
  have hadd := h.added hb hl hn hi hi0
  obtain ⟨b, g, hblock, hg, htail, hm'⟩ := h.gap
  obtain ⟨hmode, hmiss⟩ := hmiss
  intro m₁ target hblocks hparent htarget hfile s hv hrel hview
  have hlast : l < extSize raw / v.block :=
    (Nat.lt_div_iff_mul_lt' (Nat.dvd_of_mod_eq_zero hmod) l).mpr (by
    rw [Nat.mul_comm]
    exact hin)
  -- the block as it was, and as it is
  have hold : lookupBlock v (inodeSeed v parent raw) raw b e.name = .ok none := by
    rw [lookupBlock_congr hb fun i hi => (hblock i hi).trans ?_]
    · exact hmiss l hlast
    · rw [dirBlock, hl]
      rfl
  have hfound : lookupBlock v (inodeSeed v parent raw) raw (dirBlock v runs m₁ l) e.name =
      .ok (some e.inode) := by
    rw [← lookupBlock_put hb hg hn hi hi0 hne hz htail hold]
    refine lookupBlock_congr hb fun i hi => ?_
    rw [hblocks l hin i hi, dirBlock, hl, hm']
    dsimp only
    rw [blockOf, memCopy_eq (by omega) (by omega), Nat.zero_add, Nat.add_sub_cancel_left]
  have hbefore : MissesBefore v runs (inodeSeed v parent raw) raw e.name m₁ l := by
    intro i hi
    have hlt : i * v.block < extSize raw := (Nat.mul_le_mul_right _ hi.le).trans_lt hin
    rw [lookupBlock_congr hb fun j hj =>
      (hblocks i hlt j hj).trans (dirBlock_changed hr hadd (Nat.ne_of_lt hi) j hj)]
    exact hmiss i (by omega)
  rw [extLookup]
  refine Io.ends_bind.mpr ((hparent s hv hrel hview).mono ?_ fun _ _ h => h)
  rintro raw₁ s₁ ⟨hsame, hst⟩
  have hmode' : rd16 raw₁ 0 = rd16 raw 0 := rd16_congr fun i hi => hsame _ (by omega)
  rw [hmode', extSize_congr hsame, inodeSeed_congr hsame, extMapNative_congr hsame hf hd]
  refine .ite (fun h => absurd hmode h) fun _ => .ite (fun h => ?_) fun _ => ?_
  · omega
  refine Io.ends_bind.mpr ?_
  rw [Io.Ends, hruns s₁]
  dsimp only
  have hloop := @lookupLoop_ends v runs (inodeSeed v parent raw) raw e.name hr m₁ l e.inode hb hin
    (hmax.trans_lt (by decide)) hbefore hfound (extSize raw / v.block + 1) s₁ 0 (hst.geo ▸ hv)
    (hst.view.trans hview) (Nat.zero_le l) (by omega)
  rw [Nat.zero_mul] at hloop
  rw [lookupLoop_inode hsame]
  refine Io.ends_bind.mpr (hloop.mono ?_ fun _ _ h => absurd (hst.reliable hrel) h)
  rintro _ s₂ ⟨rfl, hst₂⟩
  have hst' := hst.trans hst₂
  rw [foundFile]
  refine Io.ends_bind.mpr
    ((htarget s₂ (hst'.geo ▸ hv) (hst'.reliable hrel) (hst'.view.trans hview)).mono ?_
    fun _ _ h => h)
  rintro target₁ s₃ ⟨hsame₁, hst₃⟩
  have hmode₁ : rd16 target₁ 0 = rd16 target 0 := rd16_congr fun i hi => hsame₁ _ (by omega)
  have hgen : rd32 target₁ 100 = rd32 target 100 := rd32_congr fun i hi => hsame₁ _ (by omega)
  rw [hmode₁, hgen, extSize_congr hsame₁]
  refine .ite (fun h => ?_) fun _ => ⟨rfl, hst'.trans hst₃⟩
  exact hfile.elim (fun h' => absurd h' h.1) fun h' => absurd h' h.2

end Add

/-! ### A directory with a block behind its size -/

end Efishell
