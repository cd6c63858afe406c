import Efishell.Fs.Staging

/-!
# File systems — staged writes

`nt_tx_bytes`, `nt_tx_stream` and the loop of `nt_commit` that writes what they staged, the table
being `nt_tx`.  They read and write the volume with the staged sectors laid over it, `TxState.view`.

* `ntTxBytes_read_ends`, `ntTxBytes_write_ends`: the overlaid volume is read and written.
* `ntTxStreamLoop_read_ends`, `ntTxStreamLoop_write_ends`: so is a file without holes.
-/

namespace Efishell

/-- `NT_TX_SECTORS`. -/
def ntTxSectors : Nat := 128

/-- The staged sector `lba`. -/
def ntStaged (v : NativeVolume) (lba : Nat) : Io Errno TxState Bytes :=
  fetchPiece v v.sector ntTxSectors lba

/-- What `nt_tx_bytes` does with `n` bytes of one sector. -/
def ntTxPiece (v : NativeVolume) (write : Bool) (offset n pos : Nat) (bytes : Bytes) :
    Io Errno TxState Bytes := do
  let lba := offset / v.sector
  let at_ := offset % v.sector
  if write then do
    let b ← ntStaged v lba
    Io.modify fun s => { s with tx := stage s.tx lba (memCopy b at_ bytes pos n) }
    return bytes
  else do
    let s ← Io.get
    match s.tx.lookup lba with
    | some b => return memCopy bytes pos b at_ n
    | none => do
        let b ← inNative (nativeBytes driveBytes v offset n)
        return memCopy bytes pos b 0 n

/-- The loop of `nt_tx_bytes`; a round gets at least one byte done. -/
def ntTxLoop (v : NativeVolume) (write : Bool) : Nat → Nat → Nat → Nat → Bytes →
    Io Errno TxState Bytes
  | 0, _, _, _, bytes => return bytes
  | fuel + 1, offset, length, pos, bytes =>
      if length = 0 then return bytes
      else do
        let n := min length (v.sector - offset % v.sector)
        let bytes ← ntTxPiece v write offset n pos bytes
        ntTxLoop v write fuel (offset + n) (length - n) (pos + n) bytes

/-- `nt_tx_bytes` on the `length` bytes of `bytes` from `pos` on: `bytes` afterwards. -/
def ntTxBytes (v : NativeVolume) (offset : Nat) (bytes : Bytes) (pos length : Nat) (write : Bool) :
    Io Errno TxState Bytes :=
  if spanOk offset length (v.length * v.sector % 2 ^ 64) = false then Io.fail .eio
  else ntTxLoop v write length offset length pos bytes

/-- The loop of `nt_tx_stream`. -/
def ntTxStreamLoop (v : NativeVolume) (runs : List NativeRun) (write : Bool) :
    Nat → Nat → Nat → Nat → Bytes → Io Errno TxState Bytes
  | 0, _, _, _, bytes => return bytes
  | fuel + 1, offset, length, pos, bytes =>
      if length = 0 then return bytes
      else do
        let logical := offset / v.block
        let at_ := offset % v.block
        let n := min length (v.block - at_)
        match backing runs logical with
        | none => Io.fail .enotsup
        | some r => do
            let bytes ← ntTxBytes v (r.address v logical at_) bytes pos n write
            ntTxStreamLoop v runs write fuel ((offset + n) % 2 ^ 64) (length - n) (pos + n) bytes

/-- `nt_tx_stream`: a range of a stream, through its runs. -/
def ntTxStream (v : NativeVolume) (runs : List NativeRun) (offset : Nat) (bytes : Bytes)
    (length : Nat) (write : Bool) : Io Errno TxState Bytes :=
  ntTxStreamLoop v runs write length offset length 0 bytes

/-- The loop of `nt_commit` that writes the staged sectors. -/
def ntCommitStaged (v : NativeVolume) : List (Nat × Bytes) → Io Errno NativeState Unit
  | [] => return ()
  | (lba, b) :: tx => do
      nativeWriteBytes v (lba * v.sector) b 0 v.sector
      ntCommitStaged v tx

/-! ### Staged reads and writes -/

/-- The volume as the transaction sees it. -/
def TxState.view (v : NativeVolume) (s : TxState) : Bytes := overlay v.sector s.tx (s.native.view v)

/-- The table is in order. -/
abbrev Staged (v : NativeVolume) (tx : List (Nat × Bytes)) : Prop := TxTable ntTxSectors v.length tx

section Staged

variable {v : NativeVolume} {s : TxState}

/-- Nothing was written; the table is in order. -/
structure TxState.Stages (v : NativeVolume) (s s' : TxState) : Prop where
  native : s.native.Stays s'.native
  staged : Staged v s'.tx

/-- What keeps the staged sectors keeps the volume's bytes. -/
theorem TxState.Keeps.view {s s' : TxState} (h : s.Keeps s') : s'.view v = s.view v := by
  rw [TxState.view, TxState.view, h.tx, h.native.view]

/-- It stages nothing twice. -/
theorem TxState.Keeps.stages {s s' : TxState} (h : s.Keeps s') (ht : Staged v s.tx) :
    s.Stages v s' :=
  ⟨h.native, h.tx ▸ ht⟩

theorem TxState.Stages.trans {s s₁ s' : TxState} (h : s.Stages v s₁) (h' : s₁.Stages v s') :
    s.Stages v s' := ⟨h.native.trans h'.native, h'.staged⟩

/-- The sector of `nt_tx_bytes`, staged with the bytes the volume has. -/
theorem ntStaged_ends (hv : v.On s.native.drive.disk.geo) {lba : Nat} (hlba : lba < v.length) :
    Io.Ends (ntStaged v lba) s
      (fun b s' => s.Keeps s' ∧ (∀ i < v.sector, b i = s.view v (lba * v.sector + i)) ∧
        (s.tx.lookup lba = none → s.tx.length ≠ ntTxSectors))
      (fun e s' => s.Keeps s' ∧
        (s.tx.length = ntTxSectors ∧ e = .e2big ∨ ¬ s.native.drive.Reliable)) := by
  refine fetchPiece_ends hv hv.ok.sector_pos ?_
  rw [← Nat.succ_mul]
  exact Nat.mul_le_mul_right _ hlba

/-- A piece written changes the staged bytes it names. -/
theorem ntTxPiece_write_ends (hv : v.On s.native.drive.disk.geo) (ht : Staged v s.tx)
    {offset n pos : Nat}
    {bytes : Bytes} (hin : offset < v.bytes) (hn : offset % v.sector + n ≤ v.sector) :
    Io.Ends (ntTxPiece v true offset n pos bytes) s
      (fun b s' => b = bytes ∧ s.Stages v s' ∧ s'.view v = memCopy (s.view v) offset bytes pos n)
      (fun e s' => s.Keeps s' ∧
        (s.tx.length = ntTxSectors ∧ e = .e2big ∨ ¬ s.native.drive.Reliable)) := by
  have hlba := hv.lba_lt hin
  rw [ntTxPiece, if_pos rfl]
  refine Io.ends_bind.mpr ((ntStaged_ends hv hlba).mono ?_ fun e s' h => h)
  rintro b s₁ ⟨hk, hb, hroom⟩
  refine Io.ends_bind.mpr (Io.ends_modify.mpr (Io.ends_pure.mpr ⟨rfl, ⟨hk.native, ?_⟩, ?_⟩))
  · dsimp only
    rw [hk.tx]
    exact ht.stage hlba hroom
  · rw [TxState.view]
    dsimp only
    rw [hk.native.view, hk.tx, overlay_stage hv.ok.sector_pos hb hn, Nat.div_add_mod']
    rfl

/-- A piece read is the volume's, staged sectors included. -/
theorem ntTxPiece_read_ends (hv : v.On s.native.drive.disk.geo) {offset n pos : Nat} {bytes : Bytes}
    (hin : offset + n ≤ v.bytes) (hn : offset % v.sector + n ≤ v.sector) :
    Io.Ends (ntTxPiece v false offset n pos bytes) s
      (fun b s' => s.Keeps s' ∧ b = memCopy bytes pos (s.view v) offset n)
      (fun _ s' => s.Keeps s' ∧ ¬ s.native.drive.Reliable) := by
  have hdiv := Nat.div_add_mod' offset v.sector
  rw [ntTxPiece, if_neg Bool.false_ne_true]
  refine Io.ends_bind.mpr (Io.ends_get.mpr ?_)
  -- the bytes of the piece, from the start of its sector on
  have hview :
      ∀ {f : Nat → UInt8}, (∀ i < v.sector, s.view v (offset / v.sector * v.sector + i) = f i) →
      ∀ i < n, s.view v (offset + i) = f (offset % v.sector + i) := by
    intro f hf i hi
    rw [← hf _ (by omega), ← Nat.add_assoc, hdiv]
  cases hl : s.tx.lookup (offset / v.sector) with
  | some b =>
      refine Io.ends_pure.mpr ⟨⟨.refl _, rfl⟩, memCopy_congr fun i hi => ?_⟩
      exact (hview (fun i hi => overlay_some hv.ok.sector_pos hl hi) i hi).symm
  | none =>
      refine Io.ends_bind.mpr ((inNative_read_ends hv hin).mono ?_ fun e s' h => h)
      rintro b s' ⟨hb, hk⟩
      refine Io.ends_pure.mpr ⟨hk, memCopy_congr fun i hi => ?_⟩
      rw [Nat.zero_add, hb i hi, hview (fun i hi => overlay_none hv.ok.sector_pos hl hi) i hi,
        ← Nat.add_assoc, hdiv]

/-- Why a staged write stopped. -/
def StageStops (s s' : TxState) (e : Errno) : Prop :=
  s'.tx.length = ntTxSectors ∧ e = .e2big ∨ ¬ s.native.drive.Reliable

/-- The loop of a read, by induction on the fuel. -/
theorem ntTxLoop_read_ends {fuel : Nat} :
    ∀ {s : TxState} {offset n pos : Nat} {bytes : Bytes}, n ≤ fuel →
    v.On s.native.drive.disk.geo → offset + n ≤ v.bytes →
    Io.Ends (ntTxLoop v false fuel offset n pos bytes) s
      (fun b s' => s.Keeps s' ∧ b = memCopy bytes pos (s.view v) offset n)
      (fun _ s' => s.Keeps s' ∧ ¬ s.native.drive.Reliable) := by
  have hnone : ∀ {b p : Bytes} {off at_ : Nat}, b = memCopy b off p at_ 0 :=
    fun {b p off at_} => funext fun i => (memCopy_ne (by omega)).symm
  induction fuel with
  | zero =>
      intro s offset n pos bytes hn _ _
      obtain rfl := Nat.le_zero.mp hn
      exact ⟨⟨.refl _, rfl⟩, hnone⟩
  | succ fuel ih =>
      intro s offset n pos bytes hn hv hin
      rw [ntTxLoop]
      refine .ite (fun h0 => ?_) fun h0 => ?_
      · subst h0
        exact ⟨⟨.refl _, rfl⟩, hnone⟩
      · have hmod := Nat.mod_lt offset hv.ok.sector_pos
        dsimp only
        generalize hk : min n (v.sector - offset % v.sector) = k
        refine Io.ends_bind.mpr
          ((ntTxPiece_read_ends hv (by omega) (by omega)).mono ?_ fun e s₁ h => h)
        rintro b s₁ ⟨hst, rfl⟩
        refine (ih (by omega) (hst.native.geo ▸ hv) (by omega)).mono ?_ ?_
        · rintro b s' ⟨hst', rfl⟩
          refine ⟨⟨hst.native.trans hst'.native, hst'.tx.trans hst.tx⟩, ?_⟩
          rw [hst.view, memCopy_append]
          congr 1
          omega
        · rintro e s' ⟨hst', hrel⟩
          exact ⟨⟨hst.native.trans hst'.native, hst'.tx.trans hst.tx⟩, fun h =>
            hrel (hst.native.reliable h)⟩

/-- The loop of a write, by induction on the fuel. -/
theorem ntTxLoop_write_ends {fuel : Nat} :
    ∀ {s : TxState} {offset n pos : Nat} {bytes : Bytes}, n ≤ fuel →
    v.On s.native.drive.disk.geo → Staged v s.tx → offset + n ≤ v.bytes →
    Io.Ends (ntTxLoop v true fuel offset n pos bytes) s
      (fun b s' => b = bytes ∧ s.Stages v s' ∧ s'.view v = memCopy (s.view v) offset bytes pos n)
      (fun e s' => s.Stages v s' ∧ (∃ k ≤ n, s'.view v = memCopy (s.view v) offset bytes pos k) ∧
        StageStops s s' e) := by
  have hnone : ∀ {b p : Bytes} {off at_ : Nat}, b = memCopy b off p at_ 0 :=
    fun {b p off at_} => funext fun i => (memCopy_ne (by omega)).symm
  induction fuel with
  | zero =>
      intro s offset n pos bytes hn _ ht _
      obtain rfl := Nat.le_zero.mp hn
      exact ⟨rfl, ⟨.refl _, ht⟩, hnone⟩
  | succ fuel ih =>
      intro s offset n pos bytes hn hv ht hin
      rw [ntTxLoop]
      refine .ite (fun h0 => ?_) fun h0 => ?_
      · subst h0
        exact ⟨rfl, ⟨.refl _, ht⟩, hnone⟩
      · have hmod := Nat.mod_lt offset hv.ok.sector_pos
        dsimp only
        generalize hk : min n (v.sector - offset % v.sector) = k
        refine Io.ends_bind.mpr ((ntTxPiece_write_ends hv ht (by omega) (by omega)).mono ?_ ?_)
        · rintro b s₁ ⟨rfl, hst, hview⟩
          refine (ih (by omega) (hst.native.geo ▸ hv) hst.staged (by omega)).mono ?_ ?_
          · rintro b s' ⟨rfl, hst', hview'⟩
            refine ⟨rfl, hst.trans hst', ?_⟩
            rw [hview', hview, memCopy_append]
            congr 1
            omega
          · rintro e s' ⟨hst', ⟨l, hl, hview'⟩, hstop⟩
            refine ⟨hst.trans hst', ⟨k + l, by omega, ?_⟩, hstop.imp_right fun hrel h =>
              hrel (hst.native.reliable h)⟩
            rw [hview', hview, memCopy_append]
        · rintro e s₁ ⟨hst, hstop⟩
          refine ⟨hst.stages ht, ⟨0, Nat.zero_le n, hst.view.trans hnone⟩, ?_⟩
          rw [StageStops, hst.tx]
          exact hstop

/-- **`nt_tx_bytes`** reads the overlaid volume. -/
theorem ntTxBytes_read_ends (hv : v.On s.native.drive.disk.geo) {offset n pos : Nat}
    {bytes : Bytes} :
    Io.Ends (ntTxBytes v offset bytes pos n false) s
      (fun b s' => offset + n ≤ v.bytes ∧ s.Keeps s' ∧ b = memCopy bytes pos (s.view v) offset n)
      (fun e s' => s.Keeps s' ∧ (v.bytes < offset + n ∧ e = .eio ∨ ¬ s.native.drive.Reliable)) := by
  rw [ntTxBytes, hv.bytes_mod]
  refine .ite (fun hs => ?_) fun hs => ?_
  · rw [Bool.eq_false_iff, ne_eq, spanOk_iff] at hs
    exact ⟨⟨.refl _, rfl⟩, .inl ⟨by omega, rfl⟩⟩
  · rw [Bool.not_eq_false, spanOk_iff] at hs
    exact (ntTxLoop_read_ends (Nat.le_refl n) hv hs).mono (fun b s' h => ⟨hs, h⟩)
      fun e s' h => ⟨h.1, .inr h.2⟩

/-- **`nt_tx_bytes`** writes the overlaid volume. -/
theorem ntTxBytes_write_ends (hv : v.On s.native.drive.disk.geo) (ht : Staged v s.tx)
    {offset n pos : Nat} {bytes : Bytes} :
    Io.Ends (ntTxBytes v offset bytes pos n true) s
      (fun b s' => offset + n ≤ v.bytes ∧ b = bytes ∧ s.Stages v s' ∧
        s'.view v = memCopy (s.view v) offset bytes pos n)
      (fun e s' => s.Stages v s' ∧
        (v.bytes < offset + n ∧ e = .eio ∧ s'.view v = s.view v ∨
          offset + n ≤ v.bytes ∧ (∃ k ≤ n, s'.view v = memCopy (s.view v) offset bytes pos k) ∧
            StageStops s s' e)) := by
  rw [ntTxBytes, hv.bytes_mod]
  refine .ite (fun hs => ?_) fun hs => ?_
  · rw [Bool.eq_false_iff, ne_eq, spanOk_iff] at hs
    exact ⟨⟨.refl _, ht⟩, .inl ⟨by omega, rfl, rfl⟩⟩
  · rw [Bool.not_eq_false, spanOk_iff] at hs
    exact (ntTxLoop_write_ends (Nat.le_refl n) hv ht hs).mono (fun b s' h => ⟨hs, h⟩)
      fun e s' h => ⟨h.1, .inr ⟨hs, h.2⟩⟩

section Stream

variable {runs : List NativeRun}

/-- **`nt_tx_stream`** reads a file without holes. -/
theorem ntTxStreamLoop_read_ends (hr : RunList v runs) {fuel : Nat} :
    ∀ {s : TxState} {offset n pos : Nat} {bytes : Bytes}, n ≤ fuel →
      v.On s.native.drive.disk.geo → offset < 2 ^ 64 →
      Io.Ends (ntTxStreamLoop v runs false fuel offset n pos bytes) s
        (fun b s' => s.Keeps s' ∧ (∀ i < n, placesFrom v runs offset i ≠ none) ∧
          b = memCopy bytes pos (fileFrom v runs (s.view v) offset) 0 n)
        (fun e s' => s.Keeps s' ∧
          ((∃ i < n, placesFrom v runs offset i = none) ∧ e = .enotsup ∨
            ¬ s.native.drive.Reliable)) := by
  have hnone : ∀ {b p : Bytes} {off : Nat}, b = memCopy b off p 0 0 :=
    fun {b p off} => funext fun i => (memCopy_ne (by omega)).symm
  induction fuel with
  | zero =>
      intro s offset n pos bytes hn _ _
      obtain rfl := Nat.le_zero.mp hn
      exact ⟨⟨.refl _, rfl⟩, fun i h => absurd h (Nat.not_lt_zero i), hnone⟩
  | succ fuel ih =>
      intro s offset n pos bytes hn hv ho
      rw [ntTxStreamLoop]
      refine .ite (fun h0 => ?_) fun h0 => ?_
      · subst h0
        exact ⟨⟨.refl _, rfl⟩, fun i h => absurd h (Nat.not_lt_zero i), hnone⟩
      · have hmod := Nat.mod_lt offset hv.ok.block_pos
        dsimp only
        -- the piece that lies in one block, and the rest by induction
        generalize hk : min n (v.block - offset % v.block) = k
        have hplace : ∀ i < k, placesFrom v runs offset i = (runPlace v runs offset).map (· + i) :=
          fun i hi => placesFrom_block hv ho (by omega)
        cases hb : backing runs (offset / v.block) with
        | none =>
            have hp : runPlace v runs offset = none := by rw [runPlace, hb]; rfl
            refine Io.ends_fail.mpr ⟨⟨.refl _, rfl⟩, .inl ⟨⟨0, by omega, ?_⟩, rfl⟩⟩
            rw [hplace 0 (by omega), hp]
            rfl
        | some r =>
            have hp : runPlace v runs offset = some
                (r.address v (offset / v.block) (offset % v.block)) := by
              rw [runPlace, hb, address_eq hv.ok hr hb]
              rfl
            refine Io.ends_bind.mpr ((ntTxBytes_read_ends hv).mono ?_ ?_)
            · rintro b s₁ ⟨-, hst, rfl⟩
              refine (ih (by omega) (hst.native.geo ▸ hv) (Nat.mod_lt _ (by norm_num))).mono ?_ ?_
              · rintro b s' ⟨hst', hall, rfl⟩
                refine ⟨⟨hst.native.trans hst'.native, hst'.tx.trans hst.tx⟩, fun i hi => ?_, ?_⟩
                · by_cases hik : i < k
                  · rw [hplace i hik, hp]
                    simp
                  · have h := hall (i - k) (by omega)
                    rwa [placesFrom_add, Nat.add_sub_cancel' (Nat.le_of_not_lt hik)] at h
                · have hpiece : ∀ {m : Bytes} {at_ : Nat},
                      runPlace v runs offset = some at_ →
                      memCopy bytes pos m at_ k = memCopy bytes pos
                        (fileFrom v runs m offset) 0 k := by
                    intro m at_ hat
                    refine memCopy_congr fun i hi => ?_
                    rw [Nat.zero_add,
                      fileFrom_of_place (q := at_ + i) (by rw [hplace i hi, hat]; rfl)]
                  rw [hst.view, hpiece hp,
                    memCopy_pieces (fun i _ => by rw [fileFrom_add, Nat.zero_add])]
                  congr 1
                  omega
              · rintro e s' ⟨hst', ⟨⟨i, hi, hnone⟩, he⟩ | hrel⟩
                · exact ⟨⟨hst.native.trans hst'.native, hst'.tx.trans hst.tx⟩,
                    .inl ⟨⟨k + i, by omega, placesFrom_add ▸ hnone⟩, he⟩⟩
                · exact ⟨⟨hst.native.trans hst'.native, hst'.tx.trans hst.tx⟩,
                    .inr fun h => hrel (hst.native.reliable h)⟩
            · rintro e s₁ ⟨hst, ⟨hout, -⟩ | hrel⟩
              · have := address_le hv.ok hr hb (show offset % v.block + k ≤ v.block by omega)
                omega
              · exact ⟨hst, .inr hrel⟩

/-- **`nt_tx_stream`** writes a file without holes. -/
theorem ntTxStreamLoop_write_ends (hr : RunList v runs) {fuel : Nat} :
    ∀ {s : TxState} {offset n pos : Nat} {bytes : Bytes}, n ≤ fuel → n < 2 ^ 64 →
      v.On s.native.drive.disk.geo → Staged v s.tx → offset < 2 ^ 64 →
      Io.Ends (ntTxStreamLoop v runs true fuel offset n pos bytes) s
        (fun b s' => b = bytes ∧ s.Stages v s' ∧
          Stored (placesFrom v runs offset) (fun i => bytes (pos + i)) n (s.view v) (s'.view v))
        (fun e s' => s.Stages v s' ∧
          (∃ k ≤ n, Stored (placesFrom v runs offset) (fun i => bytes (pos + i)) k (s.view v)
            (s'.view v)) ∧
          ((∃ i < n, placesFrom v runs offset i = none) ∧ e = .enotsup ∨ StageStops s s' e)) := by
  induction fuel with
  | zero =>
      intro s offset n pos bytes hn _ _ ht _
      obtain rfl := Nat.le_zero.mp hn
      exact ⟨rfl, ⟨.refl _, ht⟩, .zero _ _ _⟩
  | succ fuel ih =>
      intro s offset n pos bytes hn hn64 hv ht ho
      rw [ntTxStreamLoop]
      refine .ite (fun h0 => ?_) fun h0 => ?_
      · subst h0
        exact ⟨rfl, ⟨.refl _, ht⟩, .zero _ _ _⟩
      · have hmod := Nat.mod_lt offset hv.ok.block_pos
        dsimp only
        generalize hk : min n (v.block - offset % v.block) = k
        have hplace : ∀ i < k, placesFrom v runs offset i = (runPlace v runs offset).map (· + i) :=
          fun i hi => placesFrom_block hv ho (by omega)
        cases hb : backing runs (offset / v.block) with
        | none =>
            have hp : runPlace v runs offset = none := by rw [runPlace, hb]; rfl
            refine Io.ends_fail.mpr ⟨⟨.refl _, ht⟩, ⟨0, Nat.zero_le n, .zero _ _ _⟩,
              .inl ⟨⟨0, by omega, ?_⟩, rfl⟩⟩
            rw [hplace 0 (by omega), hp]
            rfl
        | some r =>
            have hp : runPlace v runs offset = some
                (r.address v (offset / v.block) (offset % v.block)) := by
              rw [runPlace, hb, address_eq hv.ok hr hb]
              rfl
            -- the bytes of one block
            have hpiece : ∀ {m m' : Bytes} {l : Nat}, l ≤ k →
                m' = memCopy m (r.address v (offset / v.block) (offset % v.block)) bytes pos l →
                Stored (placesFrom v runs offset) (fun i => bytes (pos + i)) l m m' := by
              rintro m m' l hl rfl
              refine Stored.memCopy fun i hi => ?_
              rw [hplace i (by omega), hp]
              rfl
            have hin := address_le hv.ok hr hb (show offset % v.block + k ≤ v.block by omega)
            refine Io.ends_bind.mpr ((ntTxBytes_write_ends hv ht).mono ?_ ?_)
            · rintro b s₁ ⟨-, rfl, hst, hview⟩
              have hfirst := hpiece (Nat.le_refl k) hview
              refine (ih (by omega) (by omega) (hst.native.geo ▸ hv) hst.staged
                (Nat.mod_lt _ (by norm_num))).mono ?_ ?_
              · rintro b s' ⟨rfl, hst', hstored⟩
                refine ⟨rfl, hst.trans hst', ?_⟩
                have h := hfirst.append_from hv.ok hr (n := n - k) (by omega) hstored
                rwa [Nat.add_sub_cancel' (by omega)] at h
              · rintro e s' ⟨hst', ⟨l, hl, hstored⟩, hstop⟩
                refine ⟨hst.trans hst',
                  ⟨k + l, by omega, hfirst.append_from hv.ok hr (by omega) hstored⟩, ?_⟩
                rcases hstop with ⟨⟨i, hi, hnone⟩, he⟩ | hstop
                · exact .inl ⟨⟨k + i, by omega, placesFrom_add ▸ hnone⟩, he⟩
                · exact .inr (hstop.imp_right fun hrel h => hrel (hst.native.reliable h))
            · rintro e s₁ ⟨hst, ⟨hout, -⟩ | ⟨-, ⟨l, hl, hview⟩, hstop⟩⟩
              · omega
              · exact ⟨hst, ⟨l, by omega, hpiece hl hview⟩, .inr hstop⟩

end Stream

end Staged

end Efishell
