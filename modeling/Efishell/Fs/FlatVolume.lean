import Efishell.Fs.NtTx
import Efishell.Fs.NtfsAlloc

/-!
# File systems — a volume is an array of bytes

Reads and writes of every kind (of the drive, of the volume, of a file, staged ones, the commit)
against one array.  Nothing outside of the volume has a part in any of them.

* `TxOp.meets`, `runOps_ends`: staged calls are calls on the overlaid array.
* `ntCommitStaged_ends`: the commit makes the volume equal to it.
* `flat_access`: all of this, for every volume that `native_probe` accepts.
-/

namespace Efishell

/-! ### The staged phase of a commit -/

/-- A sector staged first covers the ones below it. -/
theorem overlay_cons {v : NativeVolume} (hv : v.Ok) {lba : Nat} {b m : Bytes}
    {tx : List (Nat × Bytes)} (h : tx.lookup lba = none) :
    overlay v.sector tx (memCopy m (lba * v.sector) b 0 v.sector) = overlay v.sector
      ((lba, b) :: tx) m := by
  funext i
  have hdiv := Nat.div_add_mod' i v.sector
  have hmod := Nat.mod_lt i hv.sector_pos
  rw [overlay, overlay, lookup_cons_if]
  by_cases hl : i / v.sector = lba
  · rw [if_pos hl, hl, h]
    rw [hl] at hdiv
    dsimp only
    rw [memCopy_eq (by omega) (by omega), Nat.zero_add]
    congr 1
    omega
  · rw [if_neg hl]
    have hout : i < lba * v.sector ∨ lba * v.sector + v.sector ≤ i := by
      rw [← Nat.succ_mul]
      rcases Nat.lt_or_gt_of_ne hl with hlt | hgt
      · exact .inl ((Nat.div_lt_iff_lt_mul hv.sector_pos).mp hlt)
      · exact .inr ((Nat.le_div_iff_mul_le hv.sector_pos).mp hgt)
    cases tx.lookup (i / v.sector) with
    | some b => rfl
    | none => exact memCopy_ne hout

/-- **The commit** makes the volume equal to the overlay. -/
theorem ntCommitStaged_ends {v : NativeVolume} {tx : List (Nat × Bytes)} :
    ∀ {s : NativeState}, v.On s.drive.disk.geo → (tx.map Prod.fst).Nodup →
    (∀ e ∈ tx, e.1 < v.length) →
      Io.Ends (ntCommitStaged v tx) s
        (fun _ s' => s.Writes s' ∧ s'.view v = overlay v.sector tx (s.view v))
        (fun e s' => s'.drive.disk.geo = s.drive.disk.geo ∧
          ((v.readOnly = true ∨ s.failed = true) ∧ e = .erofs ∨ ¬ s.drive.Reliable)) := by
  induction tx with
  | nil =>
      intro s _ _ _
      exact ⟨(NativeState.Stays.refl s).writes, rfl⟩
  | cons e tx ih =>
      intro s hv hnd hin
      obtain ⟨lba, b⟩ := e
      rw [List.map_cons, List.nodup_cons] at hnd
      have hlookup : tx.lookup lba = none :=
        Option.not_isSome_iff_eq_none.mp (mem_keys_iff.not.mp hnd.1)
      have hlba : lba < v.length := hin (lba, b) List.mem_cons_self
      have hend : lba * v.sector + v.sector ≤ v.bytes := by
        rw [← Nat.succ_mul]
        exact Nat.mul_le_mul_right _ hlba
      rw [ntCommitStaged]
      refine Io.ends_bind.mpr ((nativeWriteBytes_ends hv).mono ?_ ?_)
      · rintro _ s₁ ⟨-, -, -, hw, -, hi⟩
        refine (ih (hw.geo ▸ hv) hnd.2 fun e he => hin e (List.mem_cons_of_mem _ he)).mono ?_ ?_
        · rintro _ s' ⟨hw', hview⟩
          exact ⟨hw.trans hw', by rw [hview, view_memCopy hi, overlay_cons hv.ok hlookup]⟩
        · rintro e s' ⟨hg, hro | hrel⟩
          · exact ⟨hg.trans hw.geo, .inl (by rwa [hw.failed] at hro)⟩
          · exact ⟨hg.trans hw.geo, .inr fun h => hrel (hw.reliable h)⟩
      · rintro e s₁ ⟨hg, ⟨hro, he, -⟩ | ⟨hout, -⟩ | ⟨hrel, -⟩⟩
        · exact ⟨hg, .inl ⟨hro, he⟩⟩
        · omega
        · exact ⟨hg, .inr hrel⟩

/-! ### Sequences of staged calls -/

/-- What a staged call is about. -/
inductive TxTarget where
  | bytes (offset : Nat)
  | stream (runs : List NativeRun) (offset : Nat)

/-- One access of a transaction. -/
structure TxOp where
  target : TxTarget
  write : Bool
  data : Bytes
  length : Nat

/-- The access as the model performs it. -/
def TxOp.run (v : NativeVolume) (op : TxOp) : Io Errno TxState Bytes :=
  match op.target with
  | .bytes offset => ntTxBytes v offset op.data 0 op.length op.write
  | .stream runs offset => ntTxStream v runs offset op.data op.length op.write

/-- The lists that `run_add` makes of runs with lengths of 64 bits. -/
inductive Accepted (v : NativeVolume) : List NativeRun → Prop where
  | nil : Accepted v []
  | add {runs runs' : List NativeRun} {r : NativeRun} (before : Accepted v runs)
      (length_lt : r.length < 2 ^ 64)
      (added : runAdd v runs r = .ok runs') : Accepted v runs'

/-- The runs `run_add` accepts are in order and apart. -/
theorem Accepted.runList {v : NativeVolume} (hv : v.Ok) {runs : List NativeRun}
    (h : Accepted v runs) :
    RunList v runs := by
  induction h with
  | nil => exact .nil
  | add _ hlen hadd ih => exact ((sound_runAdd hv ih hlen).value hadd).1

namespace TxOp

/-- A call that can be made: lengths and offsets are numbers of 64 bits, and `run_add` has accepted
the runs. -/
def Ok (v : NativeVolume) (op : TxOp) : Prop :=
  op.length < 2 ^ 64 ∧
    match op.target with
    | .bytes _ => True
    | .stream runs offset => Accepted v runs ∧ offset < 2 ^ 64

/-- The bytes of the volume that the call is about. -/
def place (v : NativeVolume) (op : TxOp) : Nat → Option Nat :=
  match op.target with
  | .bytes offset => fun i => if offset + op.length ≤ v.bytes then some (offset + i) else none
  | .stream runs offset => placesFrom v runs offset

end TxOp

/-- A read or a write of `n` bytes at places of the array `m`: the result, and the array afterwards.
A write that stops has stored what comes before. -/
inductive FlatStep (place : Nat → Option Nat) (data : Bytes) (n : Nat) (m : Bytes) :
    Bool → Except Errno Bytes → Bytes → Prop where
  | read {b : Bytes} (each : ∀ i < n, ∃ q, place i = some q ∧ b i = m q)
      (rest : ∀ i, n ≤ i → b i = data i) :
      FlatStep place data n m false (.ok b) m
  | readFails (e : Errno) : FlatStep place data n m false (.error e) m
  | write {m' : Bytes} (stored : Stored place data n m m') :
      FlatStep place data n m true (.ok data) m'
  | writeStops {k : Nat} {e : Errno} {m' : Bytes} (le : k ≤ n) (stored : Stored place data k m m') :
      FlatStep place data n m true (.error e) m'

/-- A sequence of calls on the array. -/
inductive FlatRun (v : NativeVolume) : List TxOp → Bytes → List (Except Errno Bytes) →
    Bytes → Prop where
  | nil {m : Bytes} : FlatRun v [] m [] m
  | cons {op : TxOp} {ops : List TxOp} {m m₁ m' : Bytes} {r : Except Errno Bytes}
      {rs : List (Except Errno Bytes)}
        (step : FlatStep (op.place v) op.data op.length m op.write r m₁)
      (rest : FlatRun v ops m₁ rs m') : FlatRun v (op :: ops) m (r :: rs) m'

/-- The calls, one after the other; one that fails does not end the sequence. -/
def runOps (v : NativeVolume) : List TxOp → Io Errno TxState (List (Except Errno Bytes))
  | [] => return []
  | op :: ops => do
      let r ← Io.attempt (op.run v)
      let rs ← runOps v ops
      return r :: rs

/-! ### Staged calls are calls on the array -/

/-- The call asks for bytes that are not there. -/
def TxOp.Refused (v : NativeVolume) (op : TxOp) : Prop :=
  match op.target with
  | .bytes offset => v.bytes < offset + op.length
  | .stream runs offset => ∃ i < op.length, placesFrom v runs offset i = none

/-- What a staged call does. -/
def TxOp.Meets (v : NativeVolume) (op : TxOp) (s : TxState) : Prop :=
  Io.Ends (op.run v) s
    (fun b s' => s.Stages v s' ∧ ¬ op.Refused v ∧
      FlatStep (op.place v) op.data op.length (s.view v) op.write (.ok b) (s'.view v))
    (fun e s' => s.Stages v s' ∧
      FlatStep (op.place v) op.data op.length (s.view v) op.write (.error e) (s'.view v) ∧
      (op.Refused v ∨ (op.write = true ∧ s'.tx.length = ntTxSectors) ∨ ¬ s.native.drive.Reliable))

section Ops

variable {v : NativeVolume} {s : TxState}

theorem place_bytes {offset n : Nat} {w : Bool} {data : Bytes}
    (hin : offset + n ≤ v.bytes) (i : Nat) :
    (⟨.bytes offset, w, data, n⟩ : TxOp).place v i = some (offset + i) := if_pos hin

/-- An access of bytes meets the flat volume. -/
theorem meets_bytes (hv : v.On s.native.drive.disk.geo) (ht : Staged v s.tx)
    {offset n : Nat} {w : Bool}
    {data : Bytes} : (⟨.bytes offset, w, data, n⟩ : TxOp).Meets v s := by
  -- what a piece of `k` bytes has stored
  have hstored : ∀ {k : Nat} {m : Bytes}, offset + n ≤ v.bytes →
      Stored ((⟨.bytes offset, w, data, n⟩ : TxOp).place v) data k m
        (memCopy m offset data 0 k) := by
    intro k m hin
    have h : Stored ((⟨.bytes offset, w, data, n⟩ : TxOp).place v) (fun i => data (0 + i)) k m
        (memCopy m offset data 0 k) := Stored.memCopy fun i _ => place_bytes hin i
    simpa only [Nat.zero_add] using h
  cases w with
  | false =>
      refine (ntTxBytes_read_ends hv).mono ?_ ?_
      · rintro b s' ⟨hin, hk, rfl⟩
        refine ⟨hk.stages ht, Nat.not_lt.mpr hin, ?_⟩
        rw [hk.view]
        refine .read (fun i hi => ⟨offset + i, place_bytes hin i, ?_⟩) fun i hi =>
          memCopy_ne (by omega)
        rw [memCopy_eq (Nat.zero_le i) (by omega), Nat.sub_zero]
      · rintro e s' ⟨hk, hwhy⟩
        rw [hk.view]
        exact ⟨hk.stages ht, .readFails e, hwhy.imp And.left .inr⟩
  | true =>
      refine (ntTxBytes_write_ends hv ht).mono ?_ ?_
      · rintro b s' ⟨hin, rfl, hst, hview⟩
        rw [hview]
        exact ⟨hst, Nat.not_lt.mpr hin, .write (hstored hin)⟩
      · rintro e s' ⟨hst, ⟨hout, -, hview⟩ | ⟨hin, ⟨k, hk, hview⟩, hstop⟩⟩
        · rw [hview]
          exact ⟨hst, .writeStops (Nat.zero_le n) (.zero _ _ _), .inl hout⟩
        · rw [hview]
          exact ⟨hst, .writeStops hk (hstored hin), .inr (hstop.imp_left fun h => ⟨rfl, h.1⟩)⟩

/-- An access of a stream meets the flat volume through its runs. -/
theorem meets_stream (hv : v.On s.native.drive.disk.geo) (ht : Staged v s.tx)
    {runs : List NativeRun}
    (hr : RunList v runs) {offset n : Nat} (ho : offset < 2 ^ 64) (hn : n < 2 ^ 64) {w : Bool}
    {data : Bytes} : (⟨.stream runs offset, w, data, n⟩ : TxOp).Meets v s := by
  cases w with
  | false =>
      refine (ntTxStreamLoop_read_ends hr (Nat.le_refl n) hv ho).mono ?_ ?_
      · rintro b s' ⟨hk, hall, rfl⟩
        refine ⟨hk.stages ht, fun ⟨i, hi, hnone⟩ => hall i hi hnone, ?_⟩
        rw [hk.view]
        refine .read (fun i (hi : i < n) => ?_) fun i (hi : n ≤ i) => memCopy_ne (by omega)
        obtain ⟨q, hq⟩ := Option.ne_none_iff_exists'.mp (hall i hi)
        refine ⟨q, hq, ?_⟩
        rw [memCopy_eq (Nat.zero_le i) (by omega), Nat.sub_zero, Nat.zero_add, fileFrom_of_place hq]
      · rintro e s' ⟨hk, hwhy⟩
        rw [hk.view]
        exact ⟨hk.stages ht, .readFails e, hwhy.imp And.left .inr⟩
  | true =>
      refine (ntTxStreamLoop_write_ends hr (Nat.le_refl n) hn hv ht ho).mono ?_ ?_
      · rintro b s' ⟨rfl, hst, hstored⟩
        simp only [Nat.zero_add] at hstored
        refine ⟨hst, fun ⟨i, hi, hnone⟩ => ?_, .write hstored⟩
        obtain ⟨q, hq, -⟩ := hstored.each i hi
        rw [hnone] at hq
        cases hq
      · rintro e s' ⟨hst, ⟨k, hk, hstored⟩, hstop⟩
        simp only [Nat.zero_add] at hstored
        refine ⟨hst, .writeStops hk hstored, hstop.imp And.left ?_⟩
        exact fun h => h.imp_left fun h => ⟨rfl, h.1⟩

/-- **A staged call** is a call on the overlaid array, and nothing is written. -/
theorem TxOp.meets (hv : v.On s.native.drive.disk.geo) (ht : Staged v s.tx) {op : TxOp}
    (hop : op.Ok v) :
    op.Meets v s := by
  obtain ⟨target, w, data, n⟩ := op
  cases target with
  | bytes offset => exact meets_bytes hv ht
  | stream runs offset => exact meets_stream hv ht (hop.2.1.runList hv.ok) hop.2.2 hop.1

/-- **Sequences of staged calls** are sequences of calls on the overlaid array. -/
theorem runOps_ends {ops : List TxOp} : ∀ {s : TxState}, v.On s.native.drive.disk.geo →
    Staged v s.tx →
    (∀ op ∈ ops, op.Ok v) →
    Io.Ends (runOps v ops) s (fun rs s' => s.Stages v s' ∧ FlatRun v ops (s.view v) rs (s'.view v))
      fun _ _ => False := by
  induction ops with
  | nil =>
      intro s _ ht _
      exact ⟨⟨.refl _, ht⟩, .nil⟩
  | cons op ops ih =>
      intro s hv ht hops
      have hop := TxOp.meets hv ht (hops op List.mem_cons_self)
      rw [TxOp.Meets] at hop
      -- the rest of the sequence, whatever the first call has come to
      have hrest : ∀ {r : Except Errno Bytes} {s₁ : TxState}, s.Stages v s₁ →
          FlatStep (op.place v) op.data op.length (s.view v) op.write r (s₁.view v) →
          Io.Ends (do let rs ← runOps v ops; return r :: rs) s₁
            (fun rs s' => s.Stages v s' ∧ FlatRun v (op :: ops) (s.view v) rs (s'.view v))
              fun _ _ => False := by
        intro r s₁ hst hstep
        refine Io.ends_bind.mpr ((ih (hst.native.geo ▸ hv) hst.staged fun o ho =>
          hops o (List.mem_cons_of_mem _ ho)).mono ?_ fun _ _ h => h)
        rintro rs s' ⟨hst', hrun⟩
        exact ⟨hst.trans hst', .cons hstep hrun⟩
      rw [runOps]
      refine Io.ends_bind.mpr (Io.ends_attempt.mpr (hop.mono ?_ ?_))
      · exact fun b s₁ h => hrest h.1 h.2.2
      · exact fun e s₁ h => hrest h.1 h.2.1

end Ops

/-! ### Nothing outside of the volume -/

/-- The state with the volume's bytes replaced. -/
def TxState.graft (v : NativeVolume) (m : Bytes) (s : TxState) : TxState :=
  { s with native := s.native.graft v m }

section Graft

variable {v : NativeVolume} {m : Bytes}

/-- What does not depend on the bytes outside the volume does not within a transaction either. -/
theorem inNative_commutes {α : Type} {x : Io Errno NativeState α} {s : TxState}
    (h : Io.Commutes x (NativeState.graft v m) s.native) :
    Io.Commutes (inNative x) (TxState.graft v m) s := by
  have hd : (s.graft v m).native = s.native.graft v m := rfl
  rw [Io.Commutes, inNative, inNative, hd, h]
  rfl

/-- A fetched sector does not depend on the bytes outside. -/
theorem fetchPiece_commutes {s : TxState} (hv : v.On s.native.drive.disk.geo) {size room k : Nat} :
    Io.Commutes (fetchPiece v size room k) (TxState.graft v m) s := by
  refine Io.Commutes.get_bind rfl ?_
  cases s.tx.lookup k with
  | some b => exact .pure b
  | none => exact .ite (fun _ => .fail _) fun _ => inNative_commutes (nativeBytes_commutes hv)

theorem ntTxPiece_commutes {s : TxState} (hv : v.On s.native.drive.disk.geo) {write : Bool}
    {offset n pos : Nat} {bytes : Bytes} :
    Io.Commutes (ntTxPiece v write offset n pos bytes) (TxState.graft v m) s := by
  refine .ite (fun _ => ?_) fun _ => ?_
  · exact .bind (fetchPiece_commutes hv) (Io.ends_trivial _ s) fun _ _ _ =>
      .bind (.modify rfl) (Io.ends_trivial _ _) fun _ _ _ => .pure _
  · refine Io.Commutes.get_bind rfl ?_
    cases s.tx.lookup (offset / v.sector) with
    | some b => exact .pure _
    | none =>
        exact .bind (inNative_commutes (nativeBytes_commutes hv)) (Io.ends_trivial _ s)
          fun _ _ _ => .pure _

/-- The drive keeps its geometry. -/
def KeepsGeometry {α : Type} (x : Io Errno TxState α) (s : TxState) : Prop :=
  Io.Ends x s (fun _ s' => s'.native.drive.disk.geo = s.native.drive.disk.geo) fun _ s' =>
    s'.native.drive.disk.geo = s.native.drive.disk.geo

theorem inNative_geometry {s : TxState} (hv : v.On s.native.drive.disk.geo) {offset n : Nat} :
    KeepsGeometry (inNative (nativeBytes driveBytes v offset n)) s :=
  (inNative_ends (nativeBytes_ends hv)).mono (fun _ _ h => h.1.2.2.geo) fun _ _ h => h.1.1.geo

theorem fetchPiece_geometry {s : TxState} (hv : v.On s.native.drive.disk.geo) {size room k : Nat} :
    KeepsGeometry (fetchPiece v size room k) s := by
  rw [KeepsGeometry, fetchPiece]
  refine Io.ends_bind.mpr (Io.ends_get.mpr ?_)
  cases s.tx.lookup k with
  | some b => rfl
  | none => exact .ite (fun _ => rfl) fun _ => inNative_geometry hv

theorem ntTxPiece_geometry {s : TxState} (hv : v.On s.native.drive.disk.geo) {write : Bool}
    {offset n pos : Nat} {bytes : Bytes} :
    KeepsGeometry (ntTxPiece v write offset n pos bytes) s := by
  rw [KeepsGeometry, ntTxPiece]
  refine .ite (fun _ => ?_) fun _ => ?_
  · exact Io.ends_bind.mpr ((fetchPiece_geometry hv).mono (fun _ _ h => h) fun _ _ h => h)
  · refine Io.ends_bind.mpr (Io.ends_get.mpr ?_)
    cases s.tx.lookup (offset / v.sector) with
    | some b => rfl
    | none => exact Io.ends_bind.mpr ((inNative_geometry hv).mono (fun _ _ h => h) fun _ _ h => h)

/-- The loop of `nt_tx_bytes` neither depends on the bytes outside nor changes the geometry. -/
theorem ntTxLoop_within {write : Bool} {fuel : Nat} :
    ∀ {s : TxState} {offset n pos : Nat} {bytes : Bytes}, v.On s.native.drive.disk.geo →
      Io.Commutes (ntTxLoop v write fuel offset n pos bytes) (TxState.graft v m) s ∧
        KeepsGeometry (ntTxLoop v write fuel offset n pos bytes) s := by
  induction fuel with
  | zero =>
      intro s offset n pos bytes _
      exact ⟨.pure bytes, rfl⟩
  | succ fuel ih =>
      intro s offset n pos bytes hv
      rw [ntTxLoop]
      constructor
      · exact .ite (fun _ => .pure bytes) fun _ =>
          .bind (ntTxPiece_commutes hv) (ntTxPiece_geometry hv) fun _ s₁ hg => (ih (hg ▸ hv)).1
      · exact .ite (fun _ => rfl) fun _ => Io.ends_bind.mpr ((ntTxPiece_geometry hv).mono
          (fun _ s₁ hg => (ih (hg ▸ hv)).2.mono (fun _ _ h => h.trans hg) fun _ _ h => h.trans hg)
            fun _ _ h => h)

theorem ntTxBytes_within {s : TxState} (hv : v.On s.native.drive.disk.geo) {write : Bool}
    {offset n pos : Nat} {bytes : Bytes} :
    Io.Commutes (ntTxBytes v offset bytes pos n write) (TxState.graft v m) s ∧
      KeepsGeometry (ntTxBytes v offset bytes pos n write) s :=
  ⟨.ite (fun _ => .fail _) fun _ => (ntTxLoop_within hv).1,
    .ite (fun _ => rfl) fun _ => (ntTxLoop_within (m := fun _ => 0) hv).2⟩

theorem ntTxStreamLoop_within {runs : List NativeRun} {write : Bool} {fuel : Nat} :
    ∀ {s : TxState} {offset n pos : Nat} {bytes : Bytes}, v.On s.native.drive.disk.geo →
      Io.Commutes (ntTxStreamLoop v runs write fuel offset n pos bytes) (TxState.graft v m) s ∧
        KeepsGeometry (ntTxStreamLoop v runs write fuel offset n pos bytes) s := by
  induction fuel with
  | zero =>
      intro s offset n pos bytes _
      exact ⟨.pure bytes, rfl⟩
  | succ fuel ih =>
      intro s offset n pos bytes hv
      rw [ntTxStreamLoop]
      dsimp only
      cases backing runs (offset / v.block) with
      | none => exact ⟨.ite (fun _ => .pure _) fun _ => .fail _, .ite (fun _ => rfl) fun _ => rfl⟩
      | some r =>
          have hpiece := fun k => @ntTxBytes_within v m s hv write
            (r.address v (offset / v.block) (offset % v.block)) k pos bytes
          constructor
          · exact .ite (fun _ => .pure bytes) fun _ =>
              .bind (hpiece _).1 (hpiece _).2 fun _ s₁ hg => (ih (hg ▸ hv)).1
          · exact .ite (fun _ => rfl) fun _ => Io.ends_bind.mpr ((hpiece _).2.mono
              (fun _ s₁ hg => (ih (hg ▸ hv)).2.mono (fun _ _ h => h.trans hg) fun _ _ h =>
                h.trans hg)
              fun _ _ h => h)

theorem run_within {s : TxState} (hv : v.On s.native.drive.disk.geo) (op : TxOp) :
    Io.Commutes (op.run v) (TxState.graft v m) s ∧ KeepsGeometry (op.run v) s := by
  obtain ⟨target, w, data, n⟩ := op
  cases target with
  | bytes offset => exact ntTxBytes_within hv
  | stream runs offset => exact ntTxStreamLoop_within hv

theorem runOps_commutes {ops : List TxOp} : ∀ {s : TxState}, v.On s.native.drive.disk.geo →
    Io.Commutes (runOps v ops) (TxState.graft v m) s := by
  induction ops with
  | nil => exact fun _ => .pure []
  | cons op ops ih =>
      intro s hv
      have hop := run_within (m := m) hv op
      have hg : Io.Ends (Io.attempt (op.run v)) s
          (fun _ s' => s'.native.drive.disk.geo = s.native.drive.disk.geo) fun _ _ => True :=
        Io.ends_attempt.mpr hop.2
      exact .bind (.attempt hop.1) hg fun _ s₁ hg =>
        .bind (ih (hg ▸ hv)) (Io.ends_trivial _ s₁) fun _ _ _ => .pure _

theorem ntCommitStaged_commutes {tx : List (Nat × Bytes)} :
    ∀ {s : NativeState}, v.On s.drive.disk.geo →
    Io.Commutes (ntCommitStaged v tx) (NativeState.graft v m) s := by
  induction tx with
  | nil => exact fun _ => .pure ()
  | cons e tx ih =>
      intro s hv
      exact .bind (nativeWriteBytes_commutes hv) (nativeWriteBytes_ends hv) fun _ s₁ h => ih
        (h.2.2.2.1.geo ▸ hv)

end Graft

/-- The computation neither reads nor writes bytes of the drive outside of the volume: whatever they
are, it ends in the same way, and they stay. -/
structure Confined {α : Type} (v : NativeVolume) (x : Io Errno TxState α) (s : TxState) : Prop where
  reads : ∀ m, x (s.graft v m) = ((x s).1, (x s).2.graft v m)
  writes : ∀ b, ¬ (v.base ≤ b ∧ b < v.base + v.bytes) →
    (x s).2.native.drive.disk.image b = s.native.drive.disk.image b

/-- What does not depend on the bytes outside is confined. -/
theorem Confined.of_commutes {α : Type} {v : NativeVolume} {x : Io Errno TxState α} {s : TxState}
    (h : ∀ m, Io.Commutes x (TxState.graft v m) s) : Confined v x s := by
  refine ⟨h, fun b hb => ?_⟩
  have hself : s.graft v s.native.drive.disk.image = s := by
    simp only [TxState.graft, NativeState.graft, Drive.graft, Disk.graft, Bytes.graft_self]
  have hx := h s.native.drive.disk.image
  rw [Io.Commutes, hself] at hx
  have himg := congrArg (fun r => r.2.native.drive.disk.image b) hx
  exact himg.trans (Bytes.graft_out hb)

/-! ### Volumes as arrays -/

/-- What access to a volume comes to. -/
structure FlatAccess (v : NativeVolume) (s : NativeState) : Prop where
  /-- `disk_bytes`: the slice of the disk. -/
  disk : ∀ offset n, Io.Ends (diskBytes offset n) s.drive.disk
    (fun b d' => offset + n ≤ s.drive.disk.geo.sectors * s.drive.disk.geo.sectorSize ∧
      (∀ i < n, b i = s.drive.disk.image (offset + i)) ∧ s.drive.disk.Passes d')
    (fun e d' => s.drive.disk.Same d' ∧
      (s.drive.disk.geo.sectors * s.drive.disk.geo.sectorSize < offset + n ∧ e = .einval ∨
        ¬ s.drive.disk.Reliable))
  /-- `native_bytes`: the slice of the volume. -/
  read : ∀ offset n, Io.Ends (nativeBytes driveBytes v offset n) s
    (fun b s' => offset + n ≤ v.bytes ∧ (∀ i < n, b i = s.view v (offset + i)) ∧ s.Stays s')
    (fun e s' => s.Stays s' ∧ (v.bytes < offset + n ∧ e = .eio ∨ ¬ s.drive.Reliable))
  /-- `native_write_bytes`: these bytes, and no others. -/
  write : ∀ offset p n, Io.Ends (nativeWriteBytes v offset p 0 n) s
    (fun _ s' => offset + n ≤ v.bytes ∧ (∀ i < n, s'.view v (offset + i) = p i) ∧
      ∀ b, b < v.base + offset ∨ v.base + offset + n ≤ b →
        s'.drive.disk.image b = s.drive.disk.image b)
    (fun e s' => (v.readOnly = true ∨ s.failed = true) ∧ e = .erofs ∧ s' = s ∨
      v.bytes < offset + n ∧ e = .eio ∧ s' = s ∨ ¬ s.drive.Reliable ∧ s'.failed = true)
  /-- `run_io`, reading: the bytes at the places of the file, zeroes in its holes. -/
  fileRead : ∀ runs offset n data, Accepted v runs → offset < 2 ^ 64 →
    Io.Ends (runIo v runs offset data n false) s
      (fun b s' => s.Stays s' ∧
        (∀ i < n, b i = fileBytes v runs (s.view v) ((offset + i) % 2 ^ 64)) ∧
        ∀ i, n ≤ i → b i = data i)
      (fun _ s' => s.Stays s' ∧ ¬ s.drive.Reliable)
  /-- `run_io`, writing: the bytes at the places of the file, which has no holes there. -/
  fileWrite : ∀ runs offset n data, Accepted v runs → offset < 2 ^ 64 → n < 2 ^ 64 →
    Io.Ends (runIo v runs offset data n true) s
      (fun _ s' => Stored (placesFrom v runs offset) data n (s.view v) (s'.view v))
      (fun e s' => (∃ k ≤ n, Stored (placesFrom v runs offset) data k (s.view v) (s'.view v)) ∧
        WriteStops v (placesFrom v runs offset) n s e ∨ ¬ s.drive.Reliable)
  /-- `nt_tx_bytes` and `nt_tx_stream` from the empty table that `nt_prepare` leaves: calls on the
  overlaid volume, which the staged phase of `nt_commit` writes. -/
  staged : ∀ ops : List TxOp, (∀ op ∈ ops, op.Ok v) →
    Io.Ends (runOps v ops) ⟨s, []⟩
      (fun rs t => s.Stays t.native ∧ FlatRun v ops (s.view v) rs (t.view v) ∧
        Io.Ends (ntCommitStaged v t.tx) t.native (fun _ s' => s'.view v = t.view v)
          fun e _ => (v.readOnly = true ∨ s.failed = true) ∧ e = .erofs ∨ ¬ t.native.drive.Reliable)
      fun _ _ => False
  /-- A staged call fails when it asks for what is not there, the table is full or a command
  fails. -/
  stagedCall : ∀ (t : TxState) (op : TxOp), t.native.drive.disk.geo = s.drive.disk.geo →
    Staged v t.tx →
    op.Ok v → op.Meets v t
  /-- Nothing outside of the volume. -/
  inside : ∀ tx, (∀ offset n, Confined v (inNative (nativeBytes driveBytes v offset n)) ⟨s, tx⟩) ∧
    (∀ offset p n, Confined v (inNative (nativeWriteBytes v offset p 0 n)) ⟨s, tx⟩) ∧
    (∀ runs offset data n write, Confined v (inNative (runIo v runs offset data n write)) ⟨s, tx⟩) ∧
    (∀ ops, Confined v (runOps v ops) ⟨s, tx⟩) ∧
    ∀ tx', Confined v (inNative (ntCommitStaged v tx')) ⟨s, tx⟩

section Access

variable {v : NativeVolume} {s : NativeState}

/-- `disk_bytes` returns the slice of the disk's image, or says that it does not fit. -/
theorem diskBytes_access (d : Disk) (offset n : Nat) : Io.Ends (diskBytes offset n) d
    (fun b d' => offset + n ≤ d.geo.sectors * d.geo.sectorSize ∧
      (∀ i < n, b i = d.image (offset + i)) ∧ d.Passes d')
    (fun e d' => d.Same d' ∧
      (d.geo.sectors * d.geo.sectorSize < offset + n ∧ e = .einval ∨ ¬ d.Reliable)) := by
  by_cases hin : offset + n ≤ d.geo.sectors * d.geo.sectorSize
  · exact (diskBytes_ends hin).mono (fun _ _ h => ⟨hin, h⟩) fun _ _ h => ⟨h.same, .inr h.unreliable⟩
  · rw [Io.Ends, diskBytes_outside (by omega)]
    exact ⟨.refl d, .inl ⟨by omega, rfl⟩⟩

/-- `native_write_bytes` changes the bytes it is given and no others. -/
theorem write_access (hv : v.On s.drive.disk.geo) (offset : Nat) (p : Bytes) (n : Nat) :
    Io.Ends (nativeWriteBytes v offset p 0 n) s
      (fun _ s' => offset + n ≤ v.bytes ∧ (∀ i < n, s'.view v (offset + i) = p i) ∧
        ∀ b, b < v.base + offset ∨ v.base + offset + n ≤ b →
          s'.drive.disk.image b = s.drive.disk.image b)
      (fun e s' => (v.readOnly = true ∨ s.failed = true) ∧ e = .erofs ∧ s' = s ∨
        v.bytes < offset + n ∧ e = .eio ∧ s' = s ∨ ¬ s.drive.Reliable ∧ s'.failed = true) := by
  refine (nativeWriteBytes_ends hv).mono ?_ fun _ _ h => h.2
  rintro _ s' ⟨-, -, hin, -, -, hi⟩
  refine ⟨hin, fun i hlt => ?_, fun b hb => by rw [hi, memCopy_ne hb]⟩
  rw [view_memCopy hi, memCopy_eq (Nat.le_add_right _ _) (by omega), Nat.zero_add,
    Nat.add_sub_cancel_left]

/-- `run_io` reads the bytes of the runs, and zeros in holes. -/
theorem fileRead_access (hv : v.On s.drive.disk.geo) {runs : List NativeRun} (hr : RunList v runs)
    {offset : Nat} (ho : offset < 2 ^ 64) (n : Nat) (data : Bytes) :
    Io.Ends (runIo v runs offset data n false) s
      (fun b s' =>
        s.Stays s' ∧ (∀ i < n, b i = fileBytes v runs (s.view v) ((offset + i) % 2 ^ 64)) ∧
        ∀ i, n ≤ i → b i = data i)
      (fun _ s' => s.Stays s' ∧ ¬ s.drive.Reliable) := by
  refine (runIoLoop_read_ends hr (Nat.le_refl n) hv ho).mono ?_ fun _ _ h => h
  rintro b s' ⟨hst, rfl⟩
  refine ⟨hst, fun i hi => ?_, fun i hi => memCopy_ne (by omega)⟩
  rw [memCopy_eq (Nat.zero_le i) (by omega), Nat.sub_zero, Nat.zero_add, fileFrom]

/-- A transaction sees its own writes, and the disk does only after the commit. -/
theorem staged_access (hv : v.On s.drive.disk.geo) {ops : List TxOp} (hops : ∀ op ∈ ops, op.Ok v) :
    Io.Ends (runOps v ops) ⟨s, []⟩
      (fun rs t => s.Stays t.native ∧ FlatRun v ops (s.view v) rs (t.view v) ∧
        Io.Ends (ntCommitStaged v t.tx) t.native (fun _ s' => s'.view v = t.view v)
          fun e _ => (v.readOnly = true ∨ s.failed = true) ∧ e = .erofs ∨ ¬ t.native.drive.Reliable)
      fun _ _ => False := by
  have hrun := runOps_ends (s := ⟨s, []⟩) hv (.nil _ _) hops
  refine hrun.mono ?_ fun _ _ h => h
  rintro rs t ⟨hst, hflat⟩
  have hcommit := ntCommitStaged_ends (hst.native.geo ▸ hv) hst.staged.nodup hst.staged.inside
  refine ⟨hst.native, hflat, hcommit.mono (fun _ _ h => h.2) fun e _ h => ?_⟩
  rw [hst.native.failed] at h
  exact h.2

/-- No access depends on the bytes outside the volume, or changes them. -/
theorem inside_access (hv : v.On s.drive.disk.geo) (tx : List (Nat × Bytes)) :
    (∀ offset n, Confined v (inNative (nativeBytes driveBytes v offset n)) ⟨s, tx⟩) ∧
      (∀ offset p n, Confined v (inNative (nativeWriteBytes v offset p 0 n)) ⟨s, tx⟩) ∧
      (∀ runs offset data n write,
        Confined v (inNative (runIo v runs offset data n write)) ⟨s, tx⟩) ∧
      (∀ ops, Confined v (runOps v ops) ⟨s, tx⟩) ∧
      ∀ tx', Confined v (inNative (ntCommitStaged v tx')) ⟨s, tx⟩ := by
  refine ⟨?_, ?_, ?_, ?_, ?_⟩
  · exact fun offset n => .of_commutes fun m => inNative_commutes (nativeBytes_commutes hv)
  · exact fun offset p n => .of_commutes fun m => inNative_commutes (nativeWriteBytes_commutes hv)
  · exact fun runs offset data n write => .of_commutes fun m =>
      inNative_commutes (runIoLoop_commutes hv)
  · exact fun ops => .of_commutes fun m => runOps_commutes hv
  · exact fun tx' => .of_commutes fun m => inNative_commutes (ntCommitStaged_commutes hv)

end Access

/-- **A volume is an array of bytes**, for each one that `native_probe` accepts on a drive. -/
theorem flat_access {g : Geometry} {disk start length : Nat} {ro : Bool} {boot super : Bytes}
    {v : NativeVolume} (h : nativeGeometry g disk start length ro boot super = .ok v)
    {s : NativeState} (hs : s.drive.disk.geo = g) : FlatAccess v s := by
  have hv : v.On s.drive.disk.geo := hs ▸ NativeVolume.nativeGeometry_on h
  refine
    { disk := diskBytes_access s.drive.disk
      read := fun offset n => (nativeBytes_ends hv).mono (fun _ _ h => h) fun _ _ h =>
        ⟨h.1, h.2.imp_right And.right⟩
      write := write_access hv
      fileRead := fun runs offset n data hr ho => fileRead_access hv (hr.runList hv.ok) ho n data
      fileWrite := fun runs offset n data hr ho hn => ?_
      staged := fun ops hops => staged_access hv hops
      stagedCall := fun t op ht hst hop => TxOp.meets (ht ▸ hv) hst hop
      inside := inside_access hv }
  refine (runIoLoop_write_ends (hr.runList hv.ok) (Nat.le_refl n) hn hv ho).mono ?_ ?_
  · rintro b s' ⟨-, -, hst⟩
    simpa only [Nat.zero_add] using hst
  · rintro e s' ⟨-, hstop⟩
    simpa only [Nat.zero_add] using hstop

/-- The boot sector of a volume of 37 clusters of eight sectors, with records of 1024 bytes. -/
def clusterNtfs : Bytes := fun i => if i = 13 then 8 else widerNtfs i

/-- A volume with clusters of 4096 bytes and records of 1024. -/
def clusterVolume : NativeVolume :=
  { widerVolume with
    block := 4096
    blocks := 37
    super := memCopy (fun _ => 0) 0 clusterNtfs 0 512 }

/-- The volume is one `native_probe` accepts. -/
theorem clusterVolume_mounts :
    nativeGeometry widerDisk 0 1 299 false clusterNtfs (fun _ => 0) = .ok clusterVolume := by rfl

/-- A drive with the volume behind its first sector. -/
def widerDrive : Drive where
  disk := ⟨widerDisk, true, false, memCopy (fun _ => 0) 512 clusterNtfs 0 512, fun _ => none, 0⟩
  ata := true
  flushCommand := true
  torn := fun _ _ => 0
  trace := []

theorem flat_access_wider : widerDrive.Reliable ∧
    FlatAccess clusterVolume ⟨widerDrive, false, false⟩ :=
  ⟨⟨⟨rfl, .inr fun _ _ => rfl⟩, .inr rfl⟩, flat_access clusterVolume_mounts rfl⟩

end Efishell
