import Efishell.Fs.Native

/-!
# File systems — the blocks of an ext4 file

`ext_extents` and `ext_map`: the list of runs that an inode gives, through its tree of extents or
through its block pointers.  The tree is whatever stands on the disk; an index node can lead back to
itself.

What the walk writes through its pointers is part of the state: the list of runs and the number of
nodes that may still be visited.

* `extMap_ends`: `ext_map` gives a list in order, whatever the inode and the blocks hold, and reads
  at most as many blocks as it may visit.
-/

namespace Efishell

/-- What `ext_extents` asks of the kernel: `disk_bytes` and pages. -/
structure NativeEnv (σ : Type) where
  diskBytes : Nat → Nat → Nat → Io Errno σ Bytes
  /-- `pmm_alloc_page`, with 0 for no page. -/
  allocPage : σ → Nat × σ
  freePage : Nat → σ → σ

/-- The state of a walk over an inode's blocks: the outer world, the runs found and the two
budgets. -/
structure ExtWalk (σ : Type) where
  outer : σ
  runs : List NativeRun
  budget : Nat

/-- A computation of the walk. -/
abbrev ExtIo (σ α : Type) : Type := Io (Fault Errno) (ExtWalk σ) α

section Walk

variable {σ : Type}

/-- A call of another part of the kernel. -/
def outside {α : Type} (x : Io Errno σ α) : ExtIo σ α := fun w =>
  match x w.outer with
  | (.ok a, s) => (.ok a, { w with outer := s })
  | (.error e, s) => (.error (.code e), { w with outer := s })

/-- `pmm_alloc_page` within the walk. -/
def takePage (env : NativeEnv σ) : ExtIo σ Nat := fun w =>
  (.ok (env.allocPage w.outer).1, { w with outer := (env.allocPage w.outer).2 })

/-- `pmm_free_page` within the walk. -/
def dropPage (env : NativeEnv σ) (page : Nat) : ExtIo σ Unit :=
  Io.modify fun w => { w with outer := env.freePage page w.outer }

/-- `run_add` on the runs of the walk. -/
def addRun (v : NativeVolume) (r : NativeRun) : ExtIo σ Unit := fun w =>
  match runAdd v w.runs r with
  | .ok runs => (.ok (), { w with runs })
  | .error f => (.error f, w)

/-- `ext_inode_seed`. -/
def extInodeSeed (v : NativeVolume) (inode : Nat) (raw : Buffer) : Checked Errno UInt32 := do
  let c ← Buffer.crc32c ⟨wr32 (fun _ => 0) 0 inode, 4⟩ v.csumSeed 0 4
  raw.crc32c c 100 4

/-- The head of a node: the number of its entries. -/
def extHeader (h : Buffer) (depth : Nat) : ExtIo σ Nat := do
  let w ← Io.get
  if w.budget = 0 ∨ h.size < 12 then Io.fail (.code .eio)
  else
    let magic ← Io.lift (h.rd16 0)
    let level ← Io.lift (h.rd16 6)
    if magic ≠ 0xf30a ∨ level ≠ depth ∨ 5 < depth then Io.fail (.code .eio)
    else
      Io.modify fun w => { w with budget := w.budget - 1 }
      let entries ← Io.lift (h.rd16 2)
      let max ← Io.lift (h.rd16 4)
      if max < entries ∨ (h.size - 12) / 12 < max ∨ max = 0 then Io.fail (.code .eio)
      else return entries

/-- The entries from `i` on, `left` of them; `step` gets the position of an entry and its first
block. -/
def extLoop (h : Buffer) (step : Nat → Nat → ExtIo σ Unit) : (left i last : Nat) → ExtIo σ Unit
  | 0, _, _ => return ()
  | left + 1, i, last => do
      let logical ← Io.lift (h.rd32 (12 + i * 12))
      if i ≠ 0 ∧ logical ≤ last then Io.fail (.code .eio)
      else
        step (12 + i * 12) logical
        extLoop h step left (i + 1) logical

/-- An entry of a leaf: a length above 32768 is that of a hole. -/
def extLeaf (v : NativeVolume) (h : Buffer) (x logical : Nat) : ExtIo σ Unit := do
  let len ← Io.lift (h.rd16 (x + 4))
  let low ← Io.lift (h.rd32 (x + 8))
  let high ← Io.lift (h.rd16 (x + 6))
  let hole := decide (32768 < len)
  addRun v ⟨logical, low + 2 ^ 32 * high, if hole then len - 32768 else len, hole⟩

/-- The checksum behind the entries of a block. -/
def extTail (v : NativeVolume) (seed : UInt32) (b : Buffer) : Checked Errno Unit := do
  let max ← b.rd16 4
  let tail := 12 + 12 * max
  if v.block - 4 < tail then .error (.code .eio)
  else
    let crc ← b.crc32c seed 0 tail
    let wanted ← b.rd32 tail
    if crc.toNat ≠ wanted then .error (.code .eio)
    else return ()

/-- The checksum of an extent block, where the volume keeps checksums. -/
def checkTail (v : NativeVolume) (seed : UInt32) (b : Buffer) : Checked Errno Unit :=
  if v.csum then extTail v seed b else .ok ()

/-- The block of an index entry, with `below` for the visit of the node in it. -/
def extChild (env : NativeEnv σ) (v : NativeVolume) (seed : UInt32) (below : Buffer → ExtIo σ Unit)
    (physical : Nat) : ExtIo σ Unit := do
  let offset ← Io.lift (mulU 64 physical v.block)
  let data ← outside (nativeBytes env.diskBytes v offset v.block)
  let b : Buffer := ⟨data, v.block⟩
  Io.lift (checkTail v seed b)
  below b

/-- An entry of an index node. -/
def extIndex (env : NativeEnv σ) (v : NativeVolume) (seed : UInt32) (below : Buffer → ExtIo σ Unit)
    (h : Buffer) (x : Nat) : ExtIo σ Unit := do
  let low ← Io.lift (h.rd32 (x + 4))
  let high ← Io.lift (h.rd16 (x + 8))
  let physical := low + 2 ^ 32 * high
  if physical = 0 ∨ v.blocks ≤ physical then Io.fail (.code .eio)
  else
    let page ← takePage env
    if page = 0 then Io.fail (.code .enomem)
    else
      let e ← Io.attempt (extChild env v seed below physical)
      dropPage env page
      Io.lift e

/-- `ext_extents`: the tree whose root is `h`. -/
def extExtents (env : NativeEnv σ) (v : NativeVolume) (seed : UInt32) : Nat → Buffer → ExtIo σ Unit
  | 0, h => do
      let entries ← extHeader h 0
      extLoop h (extLeaf v h) entries 0 0
  | depth + 1, h => do
      let entries ← extHeader h (depth + 1)
      extLoop h (fun x _ => extIndex env v seed (extExtents env v seed depth) h x) entries 0 0

/-- A block pointer, of the block `first` of the file. -/
def addPointer (v : NativeVolume) (first p : Nat) : ExtIo σ Unit :=
  if p = 0 then return () else addRun v ⟨first, p, 1, false⟩

/-- `left` block pointers from position `at_` of a buffer on, the first one for block `first`. -/
def extPointers (v : NativeVolume) (b : Buffer) : (left at_ first : Nat) → ExtIo σ Unit
  | 0, _, _ => return ()
  | left + 1, at_, first => do
      let p ← Io.lift (b.rd32 at_)
      addPointer v first p
      extPointers v b left (at_ + 4) (first + 1)

/-- The part of `ext_map` for an inode with block pointers. -/
def extIndirect (env : NativeEnv σ) (v : NativeVolume) (raw : Buffer) : ExtIo σ Unit := do
  let double ← Io.lift (raw.rd32 92)
  let triple ← Io.lift (raw.rd32 96)
  if double ≠ 0 ∨ triple ≠ 0 then Io.fail (.code .enotsup)
  else
    extPointers v raw 12 40 0
    let indirect ← Io.lift (raw.rd32 88)
    if indirect = 0 then return ()
    else if v.blocks ≤ indirect then Io.fail (.code .eio)
    else
      let offset ← Io.lift (mulU 64 indirect v.block)
      let data ← outside (nativeBytes env.diskBytes v offset v.block)
      extPointers v ⟨data, v.block⟩ (v.block / 4) 0 12

/-- `ext_map` on an empty list of runs. -/
def extMapWalk (env : NativeEnv σ) (v : NativeVolume) (inode : Nat) (raw : Buffer) :
    ExtIo σ Unit := do
  let flags ← Io.lift (raw.rd32 32)
  if flags.testBit 19 then
    let seed ← Io.lift (extInodeSeed v inode raw)
    let h ← Io.lift (raw.sub 40 60)
    let depth ← Io.lift (raw.rd16 46)
    extExtents env v seed depth h
  else extIndirect env v raw

/-- `ext_map`. -/
def extMap (env : NativeEnv σ) (v : NativeVolume) (inode : Nat) (raw : Buffer) :
    Io (Fault Errno) σ (List NativeRun) := fun s =>
  match extMapWalk env v inode raw ⟨s, [], 1024⟩ with
  | (.ok (), w) => (.ok w.runs, w.outer)
  | (.error f, w) => (.error f, w.outer)

end Walk

/-! ### The walk ends, stays in its buffers and keeps the list in order -/

/-- A clock that only a read of the disk moves, by one. -/
structure NativeEnv.Clocked {σ : Type} (env : NativeEnv σ) (clock : σ → Nat) : Prop where
  read : ∀ disk offset n s, clock (env.diskBytes disk offset n s).2 ≤ clock s + 1
  alloc : ∀ s, clock (env.allocPage s).2 ≤ clock s
  free : ∀ page s, clock (env.freePage page s) ≤ clock s

/-- From a list in order, `x` ends with one in order.  It reads at most one block for each node that
it visits, `n` blocks fewer when it ends well; an error comes after at most `m` more. -/
def Spends {σ : Type} (v : NativeVolume) (clock : σ → Nat) (n m : Nat) (x : ExtIo σ Unit) : Prop :=
  ∀ w, RunList v w.runs → Io.Ends x w
    (fun _ w' => RunList v w'.runs ∧ w'.budget ≤ w.budget ∧
      clock w'.outer + w'.budget + n ≤ clock w.outer + w.budget)
    (fun f w' => f.IsCode ∧ w'.budget ≤ w.budget ∧
      clock w'.outer + w'.budget ≤ clock w.outer + w.budget + m)

section Spends

variable {σ : Type} {v : NativeVolume} {env : NativeEnv σ} {clock : σ → Nat} {n m : Nat}

/-- Nothing done spends nothing. -/
theorem Spends.pure : Spends v clock 0 m (Pure.pure () : ExtIo σ Unit) :=
  fun _ h => ⟨h, Nat.le_refl _, Nat.le_refl _⟩

theorem Spends.fail {e : Errno} : Spends v clock n m (Io.fail (.code e) : ExtIo σ Unit) :=
  fun _ _ => ⟨Fault.isCode_code e, Nat.le_refl _, Nat.le_add_right _ _⟩

/-- What is read from a buffer first costs nothing. -/
theorem Spends.lift {α : Type} {x : Checked Errno α} {Q : α → Prop} {f : α → ExtIo σ Unit}
    (hx : Sound x Q) (hf : ∀ a, Q a → Spends v clock n m (f a)) :
    Spends v clock n m (Io.lift x >>= f) := fun w hw =>
  hx.ends_bind (fun _ hc => ⟨hc, Nat.le_refl _, Nat.le_add_right _ _⟩) fun a ha => hf a ha w hw

/-- What one part and the next spend together. -/
theorem Spends.bind {x : ExtIo σ Unit} {f : Unit → ExtIo σ Unit} (hx : Spends v clock 0 m x)
    (hf : Spends v clock n m (f ())) : Spends v clock n m (x >>= f) := by
  intro w hw
  refine (hx w hw).bind ?_
  rintro _ w₁ ⟨hr, hb, hc⟩
  refine (hf w₁ hr).mono ?_ ?_
  · rintro _ w₂ ⟨hr', hb', hc'⟩
    exact ⟨hr', hb'.trans hb, by omega⟩
  · rintro e w₂ ⟨he, hb', hc'⟩
    exact ⟨he, hb'.trans hb, by omega⟩

/-- What a branch spends. -/
theorem Spends.ite {c : Prop} [Decidable c] {x y : ExtIo σ Unit} (hx : c → Spends v clock n m x)
    (hy : ¬ c → Spends v clock n m y) : Spends v clock n m (if c then x else y) := by
  by_cases h : c
  · rw [if_pos h]
    exact hx h
  · rw [if_neg h]
    exact hy h

/-- A run added reads nothing from the disk. -/
theorem addRun_spends (hv : v.Ok) {r : NativeRun} (hr : r.length < 2 ^ 64) :
    Spends v clock 0 m (addRun v r : ExtIo σ Unit) := by
  intro w hw
  have h := sound_runAdd hv hw hr
  rw [Io.Ends, addRun]
  cases ha : runAdd v w.runs r with
  | ok runs =>
      rw [ha] at h
      exact ⟨h.1, Nat.le_refl _, Nat.le_refl _⟩
  | error f =>
      rw [ha] at h
      exact ⟨h, Nat.le_refl _, Nat.le_add_right _ _⟩

theorem extLeaf_spends (hv : v.Ok) {h : Buffer} {x : Nat} (hx : x + 12 ≤ h.size) (logical : Nat) :
    Spends v clock 0 m (extLeaf v h x logical : ExtIo σ Unit) := by
  refine Spends.lift (Buffer.sound_rd16 (by omega)) ?_
  rintro _ rfl
  refine Spends.lift (Buffer.sound_rd32 (by omega)) ?_
  rintro _ rfl
  refine Spends.lift (Buffer.sound_rd16 (by omega)) ?_
  rintro _ rfl
  have hlen := Efishell.rd16_lt h.data (x + 4)
  refine addRun_spends hv ?_
  dsimp only
  split <;> omega

theorem addPointer_spends (hv : v.Ok) (first p : Nat) :
    Spends v clock 0 m (addPointer v first p : ExtIo σ Unit) :=
  Spends.ite (fun _ => Spends.pure) fun _ => addRun_spends hv (by dsimp only; omega)

theorem extPointers_spends (hv : v.Ok) {b : Buffer} {left : Nat} : ∀ {at_ first : Nat},
    at_ + 4 * left ≤ b.size →
      Spends v clock 0 m (extPointers v b left at_ first : ExtIo σ Unit) := by
  induction left with
  | zero => exact fun _ => Spends.pure
  | succ left ih =>
      intro at_ first h
      refine Spends.lift (Buffer.sound_rd32 (by omega)) ?_
      rintro _ rfl
      exact (addPointer_spends hv _ _).bind (ih (by omega))

/-- The entries of a node, by induction on how many are left. -/
theorem extLoop_spends {h : Buffer} {step : Nat → Nat → ExtIo σ Unit}
    (hs : ∀ x logical, x + 12 ≤ h.size → Spends v clock 0 m (step x logical)) {left : Nat} :
    ∀ {i last : Nat}, 12 + 12 * (i + left) ≤ h.size →
      Spends v clock 0 m (extLoop h step left i last) := by
  induction left with
  | zero => exact fun _ => Spends.pure
  | succ left ih =>
      intro i last hi
      refine Spends.lift (Buffer.sound_rd32 (by omega)) ?_
      rintro _ rfl
      refine Spends.ite (fun _ => Spends.fail) fun _ => ?_
      exact (hs _ _ (by omega)).bind (ih (by omega))

/-- The check of a block's tail stays inside the block. -/
theorem sound_checkTail (hv : v.Ok) (hk : v.kind = .ext4) {b : Buffer} (hb : b.size = v.block)
    (seed : UInt32) : Sound (checkTail v seed b) fun _ => True := by
  have hblock := (hv.ext hk).1
  refine Sound.ite (fun _ => ?_) (fun _ => trivial)
  refine (Buffer.sound_rd16 (by omega)).bind ?_
  rintro _ rfl
  refine Sound.guard fun htail => ?_
  refine (Buffer.sound_crc32c (by omega)).bind ?_
  rintro _ rfl
  refine (Buffer.sound_rd32 (by omega)).bind ?_
  rintro _ rfl
  exact Sound.guard fun _ => trivial

/-- A read of the disk counts once, and what follows by itself. -/
theorem outside_spends {k : Nat} {x : Io Errno σ Bytes} {f : Bytes → ExtIo σ Unit}
    (hx : ∀ s, clock (x s).2 ≤ clock s + k) (hf : ∀ data, Spends v clock (n + k) m (f data)) :
    Spends v clock n (m + k) (outside x >>= f) := by
  intro w hw
  have hread := hx w.outer
  rw [Io.ends_bind, Io.Ends, outside]
  cases hr : x w.outer with
  | mk r s =>
      rw [hr] at hread
      cases r with
      | ok data =>
          refine Io.Ends.mono (hf data { w with outer := s } hw) ?_ ?_
          · rintro _ w' ⟨hruns, hb, hc⟩
            dsimp only at hb hc hread
            exact ⟨hruns, hb, by omega⟩
          · rintro e w' ⟨he, hb, hc⟩
            dsimp only at hb hc hread
            exact ⟨he, hb, by omega⟩
      | error e =>
          dsimp only at hread ⊢
          exact ⟨Fault.isCode_code e, Nat.le_refl _, by omega⟩

/-- A read of the volume is at most one read of the disk. -/
theorem nativeBytes_clock (hc : env.Clocked clock) (offset bytes : Nat) (s : σ) :
    clock (nativeBytes env.diskBytes v offset bytes s).2 ≤ clock s + 1 := by
  rw [nativeBytes]
  split
  · exact hc.read _ _ _ _
  · exact Nat.le_succ _

/-- A child of the tree is one read and the walk below it. -/
theorem extChild_spends (hv : v.Ok) (hk : v.kind = .ext4) (hc : env.Clocked clock) {seed : UInt32}
    {below : Buffer → ExtIo σ Unit} (hbelow : ∀ b, Spends v clock 1 0 (below b)) {physical : Nat}
    (hp : physical < v.blocks) : Spends v clock 0 1 (extChild env v seed below physical) := by
  refine Spends.lift (sound_mulU (hv.block_bytes hp.le)) ?_
  rintro _ rfl
  refine outside_spends (nativeBytes_clock hc _ _) fun data => ?_
  exact Spends.lift (sound_checkTail hv hk rfl seed) fun _ _ => hbelow _

/-- The page for a block is given back, whatever came of the visit. -/
theorem withPage_spends (hc : env.Clocked clock) {x : ExtIo σ Unit} (hx : Spends v clock 0 m x) :
    Spends v clock 0 m (do
      let page ← takePage env
      if page = 0 then Io.fail (.code .enomem)
      else
        let e ← Io.attempt x
        dropPage env page
        Io.lift e) := by
  intro w hw
  have halloc := hc.alloc w.outer
  rw [Io.ends_bind, Io.Ends, takePage]
  refine Io.Ends.ite (fun _ => ⟨Fault.isCode_code _, Nat.le_refl _, ?_⟩) (fun _ => ?_)
  · dsimp only
    omega
  · refine Io.ends_bind.mpr (Io.ends_attempt.mpr ?_)
    refine Io.Ends.mono (hx { w with outer := (env.allocPage w.outer).2 } hw) ?_ ?_
    · rintro _ w' ⟨hruns, hb, hclock⟩
      have hfree := hc.free (env.allocPage w.outer).1 w'.outer
      refine ⟨hruns, hb, ?_⟩
      dsimp only at hclock ⊢
      omega
    · rintro f w' ⟨hf, hb, hclock⟩
      have hfree := hc.free (env.allocPage w.outer).1 w'.outer
      refine ⟨hf, hb, ?_⟩
      dsimp only at hclock ⊢
      omega

theorem extIndex_spends (hv : v.Ok) (hk : v.kind = .ext4) (hc : env.Clocked clock) {seed : UInt32}
    {below : Buffer → ExtIo σ Unit} (hbelow : ∀ b, Spends v clock 1 0 (below b))
    {h : Buffer} {x : Nat}
    (hx : x + 12 ≤ h.size) : Spends v clock 0 1 (extIndex env v seed below h x) := by
  refine Spends.lift (Buffer.sound_rd32 (by omega)) ?_
  rintro _ rfl
  refine Spends.lift (Buffer.sound_rd16 (by omega)) ?_
  rintro _ rfl
  refine Spends.ite (fun _ => Spends.fail) fun hp => ?_
  exact withPage_spends hc (extChild_spends hv hk hc hbelow (by omega))

/-- A node whose head is in order has been visited, and its entries lie in its buffer. -/
theorem extHeader_spends {h : Buffer} {depth : Nat} {f : Nat → ExtIo σ Unit}
    (hf : ∀ entries, 12 + 12 * entries ≤ h.size → Spends v clock 0 1 (f entries)) :
    Spends v clock 1 0 (extHeader h depth >>= f) := by
  intro w hw
  rw [Io.ends_bind]
  refine Io.Ends.ite (fun _ => ⟨Fault.isCode_code _, Nat.le_refl _, Nat.le_refl _⟩) fun hg => ?_
  simp only [not_or, not_lt] at hg
  obtain ⟨hbudget, hsize⟩ := hg
  have hsame : ∀ e : Fault Errno, e.IsCode →
      e.IsCode ∧ w.budget ≤ w.budget ∧ clock w.outer + w.budget ≤ clock w.outer + w.budget + 0 :=
    fun e he => ⟨he, Nat.le_refl _, Nat.le_refl _⟩
  refine (Buffer.sound_rd16 (by omega)).ends_bind hsame ?_
  rintro _ rfl
  refine (Buffer.sound_rd16 (by omega)).ends_bind hsame ?_
  rintro _ rfl
  refine Io.Ends.ite (fun _ => hsame _ (Fault.isCode_code _)) fun _ => ?_
  rw [Io.ends_bind, Io.ends_modify]
  have hless : ∀ e : Fault Errno, e.IsCode → e.IsCode ∧ w.budget - 1 ≤ w.budget ∧
      clock w.outer + (w.budget - 1) ≤ clock w.outer + w.budget + 0 :=
    fun e he => ⟨he, Nat.sub_le _ _, by omega⟩
  refine (Buffer.sound_rd16 (by omega)).ends_bind hless ?_
  rintro _ rfl
  refine (Buffer.sound_rd16 (by omega)).ends_bind hless ?_
  rintro _ rfl
  refine Io.Ends.ite (fun _ => hless _ (Fault.isCode_code _)) fun hg => ?_
  rw [Io.ends_pure]
  refine Io.Ends.mono (hf (rd16 h.data 2) (by omega) { w with budget := w.budget - 1 } hw) ?_ ?_
  · rintro _ w' ⟨hruns, hb, hclock⟩
    dsimp only at hb hclock
    exact ⟨hruns, by omega, by omega⟩
  · rintro e w' ⟨he, hb, hclock⟩
    dsimp only at hb hclock
    exact ⟨he, by omega, by omega⟩

/-- **The tree of extents**, by induction on the depth that its root claims. -/
theorem extExtents_spends (hv : v.Ok) (hk : v.kind = .ext4) (hc : env.Clocked clock) (seed : UInt32)
    {depth : Nat} : ∀ h : Buffer, Spends v clock 1 0 (extExtents env v seed depth h) := by
  induction depth with
  | zero =>
      intro h
      exact extHeader_spends fun entries he =>
        extLoop_spends (fun x logical hx => extLeaf_spends hv hx logical) (by omega)
  | succ depth ih =>
      intro h
      exact extHeader_spends fun entries he =>
        extLoop_spends (fun x _ hx => extIndex_spends hv hk hc ih hx) (by omega)

/-- The seed is computed inside the inode. -/
theorem sound_extInodeSeed {inode : Nat} {raw : Buffer} (hraw : 128 ≤ raw.size) :
    Sound (extInodeSeed v inode raw) fun _ => True := by
  refine (Buffer.sound_crc32c (Nat.le_refl _)).bind ?_
  rintro _ rfl
  exact (Buffer.sound_crc32c (by omega)).mono fun _ _ => trivial

/-- The clock that stands still. -/
theorem clocked_still : env.Clocked fun _ => 0 :=
  ⟨fun _ _ _ _ => Nat.zero_le _, fun _ => Nat.le_refl _, fun _ _ => Nat.le_refl _⟩

/-- The walk over the block pointers of an inode. -/
theorem extIndirect_spends (hv : v.Ok) {raw : Buffer} (hraw : 128 ≤ raw.size) :
    Spends v (fun _ => 0) 0 m (extIndirect env v raw) := by
  refine Spends.lift (Buffer.sound_rd32 (by omega)) ?_
  rintro _ rfl
  refine Spends.lift (Buffer.sound_rd32 (by omega)) ?_
  rintro _ rfl
  refine Spends.ite (fun _ => Spends.fail) fun _ => ?_
  refine (extPointers_spends hv (by omega)).bind ?_
  refine Spends.lift (Buffer.sound_rd32 (by omega)) ?_
  rintro _ rfl
  refine Spends.ite (fun _ => Spends.pure) fun _ => ?_
  refine Spends.ite (fun _ => Spends.fail) fun hp => ?_
  refine Spends.lift (sound_mulU (hv.block_bytes (by omega))) ?_
  rintro _ rfl
  refine outside_spends (k := 0) (fun _ => Nat.le_refl _) fun data => ?_
  refine extPointers_spends hv ?_
  dsimp only
  omega

/-- The walk over an inode's blocks, by either form of its map. -/
theorem extMapWalk_spends (hv : v.Ok) (hk : v.kind = .ext4) {inode : Nat} {raw : Buffer}
    (hraw : 128 ≤ raw.size) : Spends v (fun _ => 0) 0 0 (extMapWalk env v inode raw) := by
  refine Spends.lift (Buffer.sound_rd32 (by omega)) ?_
  rintro _ rfl
  refine Spends.ite (fun _ => ?_) fun _ => extIndirect_spends hv hraw
  refine Spends.lift (sound_extInodeSeed hraw) fun seed _ => ?_
  refine Spends.lift (Buffer.sound_sub (by omega)) ?_
  rintro _ rfl
  refine Spends.lift (Buffer.sound_rd16 (by omega)) ?_
  rintro _ rfl
  intro w hw
  refine (extExtents_spends hv hk clocked_still seed _ w hw).mono ?_ ?_
  · rintro _ w' ⟨hruns, hb, hc⟩
    exact ⟨hruns, hb, by simpa using hb⟩
  · exact fun _ _ h => h

/-- **`ext_map`** gives a list in order, whatever the inode and the blocks hold. -/
theorem extMap_ends (hv : v.Ok) (hk : v.kind = .ext4) {inode : Nat} {raw : Buffer}
    (hraw : 128 ≤ raw.size) (s : σ) :
    Io.Ends (extMap env v inode raw) s (fun runs _ => RunList v runs) fun f _ => f.IsCode := by
  have h : Io.Ends (extMapWalk env v inode raw) ⟨s, [], 1024⟩ _ _ :=
    extMapWalk_spends hv hk hraw _ RunList.nil
  rw [Io.Ends] at h ⊢
  rw [extMap]
  cases hr : extMapWalk env v inode raw ⟨s, [], 1024⟩ with
  | mk r w =>
      rw [hr] at h
      cases r with
      | ok a => exact h.1
      | error f => exact h.1

end Spends

end Efishell
