import Efishell.Fs.NtfsRuns
import Efishell.Kernel.Words

/-!
# File systems — clusters for new data on NTFS

`nt_alloc_data` looks for a stretch of free clusters in the bitmap of the volume, and
`nt_data_attribute` writes the attribute that names it: one mapping pair.

By the format both fields of a pair are signed.  The kernel gives the cluster number a byte more
where its top bit would be a sign, and the length not.

* `ntScanLoop_found`: what the bitmap's scan returns is free.
* `ntfsRuns_data`: the kernel reads its own attribute back.
* `ntDataAttribute_reads_iff`: by the format it is read back exactly when the length has no sign.
-/

namespace Efishell

/-! ### Looking for free clusters -/

section Alloc

variable {σ : Type}

/-- `available` and `first`: the free clusters before the current one. -/
structure NtScan where
  available : Nat
  first : Nat

/-- The bits of one part of the bitmap, from cluster `base` on; true when `want` clusters were
found. -/
def ntScanBits (v : NativeVolume) (want : Nat) (bitmap : Bytes) (base : Nat) :
    (left bit : Nat) → NtScan → NtScan × Bool
  | 0, _, s => (s, false)
  | left + 1, bit, s =>
      let c := base + bit
      if c = 0 ∨ v.blocks - 1 ≤ c then ntScanBits v want bitmap base left (bit + 1) s
      else if (bitmap (bit / 8)).toNat.testBit (bit % 8) = false then
        let s : NtScan := ⟨s.available + 1, if s.available = 0 then c else s.first⟩
        if s.available = want then (s, true) else ntScanBits v want bitmap base left (bit + 1) s
      else ntScanBits v want bitmap base left (bit + 1) { s with available := 0 }

/-- The parts of a bitmap of `total` bytes.  `data` is `ntfs_data` on the bitmap: the bytes and the
size of the file.  A round takes at least a byte. -/
def ntScanLoop (data : Nat → Nat → Io Errno σ (Bytes × Nat)) (v : NativeVolume) (want total : Nat) :
    (fuel off : Nat) → NtScan → Io Errno σ (Option NtScan)
  | 0, _, _ => return none
  | fuel + 1, off, s =>
      if total ≤ off then return none
      else do
        let n := min (total - off) 4096
        let (bitmap, _) ← data off n
        match ntScanBits v want bitmap (off * 8) (n * 8) 0 s with
        | (s, true) => return some s
        | (s, false) => ntScanLoop data v want total fuel (off + 4096) s

/-- The bits of `want` clusters are set; `mark` is `nt_bitmap_bit` on the bitmap. -/
def ntMark (mark : Nat → Io Errno σ Unit) : (want first : Nat) → Io Errno σ Unit
  | 0, _ => return ()
  | want + 1, first => do
      mark first
      ntMark mark want (first + 1)

/-- `nt_alloc_data`: free clusters for `size` bytes, found in the bitmap and marked. -/
def ntAllocData (data : Nat → Nat → Io Errno σ (Bytes × Nat)) (mark : Nat → Io Errno σ Unit)
    (v : NativeVolume) (size : Nat) : Io Errno σ NativeRun :=
  let want := (size + v.block - 1) % 2 ^ 64 / v.block
  if want = 0 then return ⟨0, 0, 0, false⟩
  else do
    let (_, total) ← data 0 0
    if 64 * 1024 * 1024 < total ∨ total < (v.blocks + 7) / 8 then Io.fail .enotsup
    else
      match ← ntScanLoop data v want total total 0 ⟨0, 0⟩ with
      | none => Io.fail .enospc
      | some s => do
          ntMark mark want s.first
          return ⟨0, s.first, want, false⟩

end Alloc

/-! ### The attribute -/

/-- The bytes for `x` in a mapping pair, from `n` on and at most `fuel` more: as many as leave
nothing of `x` above them, and `slack` bits free. -/
def fieldWidth (slack x : Nat) : (fuel n : Nat) → Nat
  | 0, n => n
  | fuel + 1, n => if x / 2 ^ (8 * n - slack) = 0 then n else fieldWidth slack x fuel (n + 1)

/-- `nt_resident_attr`, of an attribute without a name and without a value. -/
def ntEmptyAttr (type instance_ : Nat) : Buffer :=
  let b := wr32 (fun _ => 0) 0 type
  let b := wr32 b 4 24
  let b := wr16 b 14 instance_
  ⟨wr16 b 20 24, 24⟩

/-- `nt_data_attribute`, for a run at the start of the file. -/
def ntDataAttribute (v : NativeVolume) (id : Nat) (run : NativeRun) (size : Nat) : Buffer :=
  if size = 0 then ntEmptyAttr 0x80 id
  else
    let len := run.length
    let lcn := run.physical
    let lb := fieldWidth 0 len 7 1
    let ob := fieldWidth 1 lcn 7 1
    let bytes := (64 + 1 + lb + ob + 1 + 7) / 8 * 8
    let b := wr32 (fun _ => 0) 0 0x80
    let b := wr32 b 4 bytes
    let b := wrBytes 1 b 8 1
    let b := wr16 b 14 id
    let b := wr64 b 24 (len - 1)
    let b := wr16 b 32 64
    let b := wr64 b 40 (len * v.block)
    let b := wr64 b 48 size
    let b := wr64 b 56 size
    let b := wrBytes 1 b 64 (lb + 16 * ob)
    let b := wrBytes lb b 65 len
    ⟨wrBytes ob b (65 + lb) lcn, bytes⟩

/-! ### The format -/

/-- `n` bytes at `at_` in two's complement, the low one first. -/
def leInt (b : Bytes) (n at_ : Nat) : Int :=
  if n ≠ 0 ∧ 2 ^ (8 * n - 1) ≤ leNat b n at_ then (leNat b n at_ : Int) - 2 ^ (8 * n)
  else leNat b n at_

/-- The mapping pairs from `at_` on as the format has them: lengths and distances, both signed, up
to a header 0.  A pair has at least a byte. -/
def mappingPairs (b : Bytes) : (fuel at_ : Nat) → List (Int × Int)
  | 0, _ => []
  | fuel + 1, at_ =>
      if b at_ = 0 then []
      else
        let n := (b at_).toNat % 16
        let o := (b at_).toNat / 16
        (leInt b n (at_ + 1), leInt b o (at_ + 1 + n)) :: mappingPairs b fuel (at_ + 1 + n + o)

/-! ### What is allocated -/

/-- The free clusters that were counted end at `c`, or at the last cluster that may be used. -/
structure NtScan.Ok (v : NativeVolume) (c : Nat) (s : NtScan) : Prop where
  first_pos : s.available ≠ 0 → 0 < s.first
  stop : s.available ≠ 0 → s.first + s.available ≤ v.blocks - 1
  ends : s.available ≠ 0 → s.first + s.available = c ∨ v.blocks - 1 ≤ c

/-- No free cluster has been seen. -/
theorem NtScan.Ok.start {v : NativeVolume} {c first : Nat} : NtScan.Ok v c ⟨0, first⟩ :=
  ⟨fun h => absurd rfl h, fun h => absurd rfl h, fun h => absurd rfl h⟩

/-- A stretch of clusters that was found. -/
structure NtScan.Found (v : NativeVolume) (want : Nat) (s : NtScan) : Prop where
  enough : s.available = want
  first_pos : 0 < s.first
  stop : s.first + want ≤ v.blocks - 1

/-- By induction on the bits that are left. -/
theorem ntScanBits_ok {v : NativeVolume} {want : Nat} {bitmap : Bytes} {base left : Nat} :
    ∀ {bit : Nat} {s s' : NtScan} {found : Bool}, s.Ok v (base + bit) →
      ntScanBits v want bitmap base left bit s = (s', found) →
      (found = false → s'.Ok v (base + (bit + left))) ∧ (found = true → s'.Found v want) := by
  induction left with
  | zero =>
      intro bit s s' found hs h
      cases h
      exact ⟨fun _ => hs, by simp⟩
  | succ left ih =>
      intro bit s s' found hs h
      rw [show base + (bit + (left + 1)) = base + (bit + 1 + left) by omega]
      rw [ntScanBits] at h
      split at h
      · rename_i hskip
        refine ih ⟨hs.first_pos, hs.stop, fun ha => ?_⟩ h
        have h₁ := hs.first_pos ha
        rcases hs.ends ha with h₂ | h₂ <;> omega
      · rename_i hskip
        simp only [not_or, not_le] at hskip
        split at h
        · -- one more free cluster
          have hs' : NtScan.Ok v (base + (bit + 1))
              ⟨s.available + 1, if s.available = 0 then base + bit else s.first⟩ := by
            by_cases h0 : s.available = 0
            · rw [if_pos h0, h0]
              exact ⟨fun _ => by dsimp only; omega, fun _ => by dsimp only; omega,
                fun _ => .inl (by dsimp only; omega)⟩
            · have h₁ := hs.first_pos h0
              have h₂ := hs.ends h0
              rw [if_neg h0]
              exact ⟨fun _ => h₁, fun _ => by dsimp only; omega,
                fun _ => .inl (by dsimp only; omega)⟩
          dsimp only at h
          split at h
          · rename_i hwant
            cases h
            refine ⟨by simp, fun _ => ⟨hwant, hs'.first_pos (Nat.succ_ne_zero _), ?_⟩⟩
            rw [← hwant]
            exact hs'.stop (Nat.succ_ne_zero _)
          · exact ih hs' h
        · exact ih NtScan.Ok.start h

section Alloc

variable {σ : Type} {data : Nat → Nat → Io Errno σ (Bytes × Nat)} {mark : Nat → Io Errno σ Unit}
  {v : NativeVolume}

/-- Past the end of the bitmap nothing is found. -/
theorem ntScanLoop_past {want total fuel off : Nat} {s s' : NtScan} {t t' : σ}
    (hoff : total ≤ off) :
    ¬ Io.Returns (ntScanLoop data v want total fuel off s) t (some s') t' := by
  intro h
  cases fuel with
  | zero => cases (Io.returns_pure.mp h).1
  | succ fuel =>
      rw [ntScanLoop, if_pos hoff] at h
      cases (Io.returns_pure.mp h).1

/-- What the scan finds is a run of free clusters, by induction on the fuel. -/
theorem ntScanLoop_found {want total fuel : Nat} : ∀ {off : Nat} {s s' : NtScan} {t t' : σ},
    s.Ok v (off * 8) → Io.Returns (ntScanLoop data v want total fuel off s) t (some s') t' →
    s'.Found v want := by
  induction fuel with
  | zero =>
      intro off s s' t t' _ h
      cases (Io.returns_pure.mp h).1
  | succ fuel ih =>
      intro off s s' t t' hs h
      rw [ntScanLoop, Io.returns_ite] at h
      rcases h with ⟨-, h⟩ | ⟨hoff, h⟩
      · cases (Io.returns_pure.mp h).1
      · obtain ⟨⟨bitmap, got⟩, t₁, -, h⟩ := Io.returns_bind.mp h
        dsimp only at h
        cases hscan : ntScanBits v want bitmap (off * 8) (min (total - off) 4096 * 8) 0 s with
        | mk s₁ found =>
            have hstart : s.Ok v (off * 8 + 0) := hs
            have hok := ntScanBits_ok hstart hscan
            rw [hscan] at h
            cases found with
            | true =>
                cases (Io.returns_pure.mp h).1
                exact hok.2 rfl
            | false =>
                have h₁ := hok.1 rfl
                dsimp only at h
                by_cases hfull : 4096 ≤ total - off
                · rw [Nat.min_eq_right hfull, Nat.zero_add, ← Nat.add_mul] at h₁
                  exact ih h₁ h
                · exact absurd h (ntScanLoop_past (by omega))

/-- **The run that `nt_alloc_data` returns** is not empty, starts after cluster 0, and ends before
the last cluster of a volume of at most `2 ^ 29` clusters. -/
theorem ntAllocData_run {size : Nat} {run : NativeRun} {t t' : σ}
    (h : Io.Returns (ntAllocData data mark v size) t run t') (hlen : run.length ≠ 0) :
    run.logical = 0 ∧ run.hole = false ∧ 0 < run.physical ∧
      run.physical + run.length ≤ v.blocks - 1 ∧ v.blocks ≤ 2 ^ 29 := by
  rw [ntAllocData, Io.returns_ite] at h
  rcases h with ⟨-, h⟩ | ⟨-, h⟩
  · rw [(Io.returns_pure.mp h).1] at hlen
    exact absurd rfl hlen
  · obtain ⟨⟨bitmap, total⟩, t₁, -, h⟩ := Io.returns_bind.mp h
    rw [Io.returns_guard] at h
    obtain ⟨htotal, h⟩ := h
    obtain ⟨found, t₂, hscan, h⟩ := Io.returns_bind.mp h
    cases found with
    | none => exact absurd h Io.not_returns_fail
    | some s =>
        have hs := ntScanLoop_found NtScan.Ok.start hscan
        obtain ⟨_, t₃, -, h⟩ := Io.returns_bind.mp h
        rw [(Io.returns_pure.mp h).1]
        exact ⟨rfl, rfl, hs.first_pos, hs.stop, by omega⟩

end Alloc

/-! ### Fields of a pair -/

/-- The width that the loop stops at holds `x` with `slack` bits to spare, and one byte less does
not. -/
theorem fieldWidth_spec {slack x fuel : Nat} : ∀ {n : Nat}, x < 2 ^ (8 * (n + fuel) - slack) →
    n ≤ fieldWidth slack x fuel n ∧ fieldWidth slack x fuel n ≤ n + fuel ∧
      x < 2 ^ (8 * fieldWidth slack x fuel n - slack) ∧
      (n < fieldWidth slack x fuel n → 2 ^ (8 * (fieldWidth slack x fuel n - 1) - slack) ≤ x) := by
  induction fuel with
  | zero =>
      intro n hx
      exact ⟨Nat.le_refl _, Nat.le_refl _, hx, fun h => absurd h (Nat.lt_irrefl _)⟩
  | succ fuel ih =>
      intro n hx
      have hpos := Nat.two_pow_pos (8 * n - slack)
      rw [fieldWidth]
      split
      · rename_i h0
        rw [Nat.div_eq_zero_iff_lt hpos] at h0
        exact ⟨Nat.le_refl _, Nat.le_add_right _ _, h0, fun h => absurd h (Nat.lt_irrefl _)⟩
      · rename_i h0
        rw [Nat.div_eq_zero_iff_lt hpos, not_lt] at h0
        rw [show n + (fuel + 1) = n + 1 + fuel by omega] at hx
        obtain ⟨h₁, h₂, h₃, h₄⟩ := ih hx
        refine ⟨by omega, by omega, h₃, fun _ => ?_⟩
        rcases Nat.lt_or_ge (n + 1) (fieldWidth slack x fuel (n + 1)) with hlt | hge
        · exact h₄ hlt
        · rw [show fieldWidth slack x fuel (n + 1) - 1 = n by omega]
          exact h0

/-- The bytes of a little-endian number, read inside the buffer. -/
theorem Buffer.le_eq {ε : Type} {a : Buffer} {n : Nat} : ∀ {at_ : Nat}, at_ + n ≤ a.size →
    (a.le n at_ : Checked ε Nat) = .ok (leNat a.data n at_) := by
  induction n with
  | zero => exact fun _ => rfl
  | succ n ih =>
      intro at_ h
      rw [Buffer.le, Buffer.byte, if_pos (by omega), ih (by omega)]
      rfl

/-! ### Reading the attribute back -/

/-- The widths of the two fields, the length's `lb` and the cluster's `ob`. -/
structure PairWidths (run : NativeRun) (lb ob : Nat) : Prop where
  len_pos : 1 ≤ lb
  len_le : lb ≤ 8
  lcn_pos : 1 ≤ ob
  lcn_le : ob ≤ 8
  len : run.length < 2 ^ (8 * lb)
  len_least : 1 < lb → 2 ^ (8 * (lb - 1)) ≤ run.length
  lcn : run.physical < 2 ^ (8 * ob - 1)

/-- The widths the writer chooses hold the numbers of the run. -/
theorem pairWidths {run : NativeRun} (hlen : run.length < 2 ^ 64) (hlcn : run.physical < 2 ^ 63) :
    PairWidths run (fieldWidth 0 run.length 7 1) (fieldWidth 1 run.physical 7 1) := by
  obtain ⟨h₁, h₂, h₃, h₄⟩ := @fieldWidth_spec 0 run.length 7 1 hlen
  obtain ⟨h₅, h₆, h₇, -⟩ := @fieldWidth_spec 1 run.physical 7 1 hlcn
  exact ⟨h₁, h₂, h₅, h₆, h₃, h₄, h₇⟩

/-- What stands in the attribute of a run. -/
structure DataFields (v : NativeVolume) (run : NativeRun) (size lb ob : Nat) (a : Buffer) :
    Prop where
  room : 66 + lb + ob ≤ a.size
  nonresident : leNat a.data 1 8 = 1
  lowest : leNat a.data 8 16 = 0
  flags : leNat a.data 2 12 = 0
  highest : leNat a.data 8 24 = run.length - 1
  pairs : leNat a.data 2 32 = 64
  unit : leNat a.data 2 34 = 0
  bytes : leNat a.data 8 48 = size
  initialized : leNat a.data 8 56 = size
  header : leNat a.data 1 64 = lb + 16 * ob
  length : leNat a.data lb 65 = run.length
  lcn : leNat a.data ob (65 + lb) = run.physical
  stop : leNat a.data 1 (65 + lb + ob) = 0

/-- The fields the writer leaves in the attribute. -/
theorem ntDataAttribute_fields {v : NativeVolume} {id size : Nat} {run : NativeRun}
    (hlen : run.length < 2 ^ 64) (hlcn : run.physical < 2 ^ 63) (hsize : size ≠ 0)
    (hsize' : size < 2 ^ 64) :
    DataFields v run size (fieldWidth 0 run.length 7 1) (fieldWidth 1 run.physical 7 1)
      (ntDataAttribute v id run size) := by
  have hw := pairWidths hlen hlcn
  rw [ntDataAttribute, if_neg hsize]
  dsimp only
  generalize fieldWidth 0 run.length 7 1 = lb at hw
  generalize fieldWidth 1 run.physical 7 1 = ob at hw
  have h₁ := hw.len_le
  have h₂ := hw.lcn_le
  refine ⟨?_, ?_, ?_, ?_, ?_, ?_, ?_, ?_, ?_, ?_, ?_, ?_, ?_⟩
  · dsimp only
    omega
  all_goals simp (disch := omega) only [wr16, wr32, wr64, leNat_wrBytes_ne,
    leNat_wrBytes, leNat_zero]
  · exact leNat_wrBytes hw.len
  · exact leNat_wrBytes (hw.lcn.trans_le (Nat.pow_le_pow_right (by omega) (Nat.sub_le _ _)))

section Read

variable {ε : Type} {a : Buffer} {i : Nat}

theorem Buffer.rd16_eq (h : i + 2 ≤ a.size) :
    (a.rd16 i : Checked ε Nat) = .ok (leNat a.data 2 i) := by
  rw [Buffer.rd16, if_pos h, rd16_eq_leNat]

theorem Buffer.rd64_eq (h : i + 8 ≤ a.size) :
    (a.rd64 i : Checked ε Nat) = .ok (leNat a.data 8 i) := by
  rw [Buffer.rd64, if_pos h, rd64_eq_leNat]

theorem Buffer.byte_eq {x : Nat} (h : i < a.size) (hx : x < 256) (hi : leNat a.data 1 i = x) :
    (a.byte i : Checked ε UInt8) = .ok (UInt8.ofNat x) := by
  rw [Buffer.byte, if_pos h, leNat_one hx hi]

end Read

section Decode

variable {v : NativeVolume} {run : NativeRun} {size lb ob : Nat} {a : Buffer}

/-- A cluster number with its top bit clear is not extended. -/
theorem ntfsLcn_start {n lcn : Nat} (hn : n ≠ 0) (hn' : n ≤ 8) (h : lcn < 2 ^ (8 * n - 1)) :
    ntfsLcn 0 n lcn = .ok (lcn : Int) := by
  have h63 : lcn < 2 ^ 63 := h.trans_le (Nat.pow_le_pow_right (by omega) (by omega))
  have hsign : signExtend n lcn = lcn := by
    rw [signExtend, if_neg]
    rintro ⟨-, -, hbit⟩
    rw [Nat.testBit_lt_two_pow h] at hbit
    cases hbit
  rw [ntfsLcn, if_neg hn, hsign, ntfsMove, signed64, if_pos h63, if_neg (by omega), toU,
    if_pos (Int.le_refl _), ok_bind, subU, if_pos (by simp), ok_bind, if_neg (by simp; omega), toS,
    if_pos h63, ok_bind, addS, if_pos (by omega), Int.zero_add]

/-- One run into an empty list. -/
theorem runAdd_first (hlen : run.length ≠ 0) (hlog : run.logical = 0) (hlt : run.length < 2 ^ 64)
    (hin : run.physical + run.length ≤ v.blocks) : runAdd v [] run = .ok [run] := by
  rw [runAdd, if_neg]
  · cases hh : run.hole <;> simp [runEarly, runsOverlap, pure, Except.pure]
  · simp only [not_or]
    refine ⟨hlen, by simp [nativeRuns], by omega, by omega⟩

/-- The mapping pair it writes is read as the run. -/
theorem ntfsPair_data (hf : DataFields v run size lb ob a) (hw : PairWidths run lb ob)
    (hlog : run.logical = 0) (hhole : run.hole = false) (hlen : run.length ≠ 0)
    (hlt : run.length < 2 ^ 64) (hin : run.physical + run.length ≤ v.blocks) :
    ntfsPair v a ⟨64, 0, 0, []⟩ (UInt8.ofNat (lb + 16 * ob)) =
      .ok ⟨65 + lb + ob, run.length, run.physical, [run]⟩ := by
  have h₁ := hw.len_pos
  have h₂ := hw.len_le
  have h₃ := hw.lcn_pos
  have h₄ := hw.lcn_le
  have h₅ := hf.room
  have hhead : (UInt8.ofNat (lb + 16 * ob)).toNat = lb + 16 * ob := by
    rw [UInt8.toNat_ofNat']
    omega
  have hlow : (lb + 16 * ob) % 16 = lb := by omega
  have hhigh : (lb + 16 * ob) / 16 = ob := by omega
  have hob : ob ≠ 0 := by omega
  have hrun : (⟨0, run.physical, run.length, decide (ob = 0)⟩ : NativeRun) = run := by
    cases run
    simp_all
  rw [ntfsPair]
  dsimp only
  rw [hhead, hlow, hhigh, if_neg (by omega), Buffer.le_eq (by omega), ok_bind,
    Buffer.le_eq (by omega), ok_bind, hf.length, hf.lcn, ntfsLcn_start hob h₄ hw.lcn, ok_bind, toU,
    if_pos (by omega), ok_bind, Int.toNat_natCast, hrun, runAdd_first hlen hlog hlt hin,
      ok_bind, addU,
    if_pos (by omega), ok_bind, Nat.zero_add]
  rfl

/-- **The kernel reads its own attribute**: `ntfs_runs` gives the run back. -/
theorem ntfsRuns_data (hv : v.Ok) (hf : DataFields v run size lb ob a) (hw : PairWidths run lb ob)
    (hlog : run.logical = 0) (hhole : run.hole = false) (hlen : run.length ≠ 0)
    (hin : run.physical + run.length ≤ v.blocks) (hsize : size ≤ run.length * v.block) :
    ntfsRuns v a = .ok [run] := by
  have hblocks := hv.blocks_lt
  have hmul := hv.block_bytes (show run.length ≤ v.blocks by omega)
  have h₁ := hw.len_pos
  have h₂ := hw.len_le
  have h₃ := hw.lcn_pos
  have h₄ := hw.lcn_le
  have h₅ := hf.room
  have hfuel : ∃ f, a.size = f + 2 := ⟨a.size - 2, by omega⟩
  obtain ⟨f, hfuel⟩ := hfuel
  have hne : UInt8.ofNat (lb + 16 * ob) ≠ 0 := by
    intro h
    have := congrArg UInt8.toNat h
    rw [UInt8.toNat_ofNat'] at this
    simp at this
    omega
  have hloop : ntfsLoop v a a.size ⟨64, 0, 0, []⟩ =
      .ok ⟨65 + lb + ob, run.length, run.physical, [run]⟩ := by
    rw [hfuel, ntfsLoop, if_neg (by dsimp only; omega), Buffer.byte_eq (by omega) (by omega)
      hf.header, ok_bind, if_neg hne, ntfsPair_data hf hw hlog hhole hlen (by omega) hin, ok_bind,
      ntfsLoop, if_neg (by dsimp only; omega), Buffer.byte_eq (by omega) (by omega) hf.stop,
      ok_bind, if_pos (by rfl)]
    rfl
  rw [ntfsRuns, if_neg (by omega), Buffer.byte_eq (by omega) (by omega) hf.nonresident, ok_bind,
    Buffer.rd64_eq (by omega), ok_bind, Buffer.rd16_eq (by omega), ok_bind,
      Buffer.rd16_eq (by omega),
    ok_bind, hf.lowest, hf.flags, hf.unit, if_neg (by decide), Buffer.rd16_eq (by omega), ok_bind,
    hf.pairs, if_neg (by omega), hloop, ok_bind, ntfsEnd, if_neg,
      Buffer.rd64_eq (by omega), ok_bind,
    subU, if_pos (by dsimp only; omega), ok_bind, Buffer.rd64_eq (by omega), ok_bind,
    Buffer.rd64_eq (by omega), ok_bind, mulU, if_pos hmul, ok_bind, hf.highest, hf.bytes,
      hf.initialized,
    if_neg (by simp; omega)]
  · rfl
  · simp only [not_or, not_le, not_lt]
    refine ⟨by omega, hlen, (Nat.le_div_iff_mul_le hv.block_pos).mpr (by omega)⟩

/-- A number without its sign bit is read as itself. -/
theorem leInt_eq {b : Bytes} {n at_ x : Nat} (h : leNat b n at_ = x) (hx : x < 2 ^ (8 * n - 1)) :
    leInt b n at_ = x := by
  rw [leInt, h, if_neg]
  rintro ⟨-, hle⟩
  omega

theorem leInt_neg {b : Bytes} {n at_ x : Nat} (hn : n ≠ 0) (h : leNat b n at_ = x)
    (hx : 2 ^ (8 * n - 1) ≤ x) : leInt b n at_ = (x : Int) - 2 ^ (8 * n) := by
  rw [leInt, h, if_pos ⟨hn, hx⟩]

/-- By the format there is one pair: the cluster is what it should be. -/
theorem mappingPairs_data (hf : DataFields v run size lb ob a)
    (hw : PairWidths run lb ob) {f : Nat} :
    mappingPairs a.data (f + 2) 64 = [(leInt a.data lb 65, (run.physical : Int))] := by
  have h₁ := hw.len_pos
  have h₂ := hw.len_le
  have h₃ := hw.lcn_pos
  have h₄ := hw.lcn_le
  have hhead := leNat_one (by omega) hf.header
  have hstop := leNat_one (by omega) hf.stop
  have hnat : (UInt8.ofNat (lb + 16 * ob)).toNat = lb + 16 * ob := by
    rw [UInt8.toNat_ofNat']
    omega
  have hne : UInt8.ofNat (lb + 16 * ob) ≠ 0 := by
    intro h
    have := congrArg UInt8.toNat h
    rw [hnat] at this
    simp at this
    omega
  have hlow : (lb + 16 * ob) % 16 = lb := by omega
  have hhigh : (lb + 16 * ob) / 16 = ob := by omega
  rw [mappingPairs, hhead, if_neg hne]
  dsimp only
  rw [hnat, hlow, hhigh, mappingPairs, show 64 + 1 + lb + ob = 65 + lb + ob by omega, hstop,
    if_pos (by rfl), leInt_eq hf.lcn hw.lcn]

/-- The sign of the length is clear exactly when its bits do not fill its bytes. -/
theorem lenSign_iff (hw : PairWidths run lb ob) (hlen : run.length ≠ 0) :
    run.length < 2 ^ (8 * lb - 1) ↔ run.length.log2 % 8 ≠ 7 := by
  have h₁ := hw.len_pos
  have hlt : run.length.log2 < 8 * lb := (Nat.log2_lt hlen).mpr hw.len
  have hge : 8 * (lb - 1) ≤ run.length.log2 := by
    rcases Nat.lt_or_ge 1 lb with h | h
    · exact (Nat.le_log2 hlen).mpr (hw.len_least h)
    · omega
  rw [← Nat.log2_lt hlen]
  omega

end Decode

/-- What the attribute of a run says: to `ntfs_runs`, and by the format. -/
structure DataAttributeReads (v : NativeVolume) (run : NativeRun) (size : Nat) (a : Buffer) :
    Prop where
  runs : ntfsRuns v a = .ok [run]
  bytes : rd64 a.data 48 = size
  pairs : mappingPairs a.data a.size (rd16 a.data 32) = [((run.length : Int), (run.physical : Int))]

/-- **Mapping pairs.**  The attribute of a run that `nt_alloc_data` returns is read back by the
kernel; by the format it names the same run exactly when the top bit of the last byte of its length
is clear. -/
theorem ntDataAttribute_reads_iff {σ : Type} {g : Geometry} {disk start length : Nat} {ro : Bool}
    {boot super : Bytes} {v : NativeVolume}
    (hv : nativeGeometry g disk start length ro boot super = .ok v)
    {data : Nat → Nat → Io Errno σ (Bytes × Nat)} {mark : Nat → Io Errno σ Unit} {wanted : Nat}
    {run : NativeRun} {t t' : σ} (hrun : Io.Returns (ntAllocData data mark v wanted) t run t')
    {size : Nat} (hlo : (run.length - 1) * v.block < size) (hhi : size ≤ run.length * v.block)
    (id : Nat) :
    DataAttributeReads v run size (ntDataAttribute v id run size) ↔ run.length.log2 % 8 ≠ 7 := by
  have hok := nativeGeometry_ok hv
  have hlen : run.length ≠ 0 := by
    intro h
    rw [h, Nat.zero_mul] at hhi
    omega
  obtain ⟨hlog, hhole, -, hin, hblocks⟩ := ntAllocData_run hrun hlen
  have hsize := hok.block_bytes (show run.length ≤ v.blocks by omega)
  have hw := pairWidths (show run.length < 2 ^ 64 by omega) (show run.physical < 2 ^ 63 by omega)
  have hf : DataFields v run size _ _ (ntDataAttribute v id run size) :=
    ntDataAttribute_fields (by omega) (by omega) (by omega) (by omega)
  generalize ntDataAttribute v id run size = a at hf
  generalize fieldWidth 0 run.length 7 1 = lb at hf hw
  generalize fieldWidth 1 run.physical 7 1 = ob at hf hw
  have hroom := hf.room
  obtain ⟨f, hfuel⟩ : ∃ f, a.size = f + 2 := ⟨a.size - 2, by omega⟩
  have hpairs : mappingPairs a.data a.size (rd16 a.data 32) =
      [(leInt a.data lb 65, (run.physical : Int))] := by
    rw [rd16_eq_leNat, hf.pairs, hfuel, mappingPairs_data hf hw]
  rw [← lenSign_iff hw hlen]
  refine ⟨fun h => ?_, fun h => ⟨?_, ?_, ?_⟩⟩
  · -- a length with its sign set reads as a negative one
    by_contra hsign
    have := h.pairs
    rw [hpairs, leInt_neg (by have := hw.len_pos; omega) hf.length (not_lt.mp hsign)] at this
    simp at this
  · exact ntfsRuns_data hok hf hw hlog hhole hlen (by omega) hhi
  · rw [rd64_eq_leNat, hf.bytes]
  · rw [hpairs, leInt_eq hf.length h]

theorem widerDisk_pos : 0 < 300 := by decide

theorem widerDisk_lt : 300 ≤ (2 ^ 64 - 1) / 512 := by decide

/-- A disk of three hundred sectors. -/
def widerDisk : Geometry where
  sectorSize := 512
  sectors := 300
  sectors_pos := widerDisk_pos
  sectorSize_pow := Geometry.power2_512
  sectorSize_min := Geometry.min_512
  sectorSize_max := Geometry.max_512
  bytes_lt := widerDisk_lt

/-- The boot sector of a volume of 299 clusters. -/
def widerNtfs : Bytes := wr64 smallNtfs 40 299

/-- A small NTFS volume. -/
def widerVolume : NativeVolume where
  kind := .ntfs
  disk := 0
  sector := 512
  start := 1
  length := 299
  block := 512
  blocks := 299
  readOnly := false
  super := memCopy (fun _ => 0) 0 widerNtfs 0 512
  inodeSize := 0
  inodes := 0
  inodesPerGroup := 0
  blocksPerGroup := 0
  groups := 0
  descSize := 0
  csumSeed := 0
  csum := false
  gdtCsum := false
  recordSize := 1024
  indexSize := 4096

/-- The volume is one `native_probe` accepts. -/
theorem widerVolume_mounts :
    nativeGeometry widerDisk 0 1 299 false widerNtfs (fun _ => 0) = .ok widerVolume := by rfl

/-- A bitmap with every cluster free. -/
def freeBitmap : Nat → Nat → Io Errno Unit (Bytes × Nat) := fun _ _ => pure (fun _ => 0, 38)

theorem ntDataAttribute_two_clusters :
    DataAttributeReads widerVolume ⟨0, 1, 2, false⟩ 1000
      (ntDataAttribute widerVolume 2 ⟨0, 1, 2, false⟩ 1000) :=
  (ntDataAttribute_reads_iff widerVolume_mounts
    (show Io.Returns (ntAllocData freeBitmap (fun _ => pure ()) widerVolume 1000) ()
      ⟨0, 1, 2, false⟩ () by rfl) (by decide) (by decide) 2).mpr (by decide)

/-- The attribute of a file of 128 clusters. -/
def attr128 : Buffer := ntDataAttribute widerVolume 2 ⟨0, 1, 128, false⟩ 65536

set_option maxRecDepth 4000 in
/-- 128 clusters: their number is the byte 0x80, by the format a length of -128. -/
theorem ntDataAttribute_128_clusters :
    nativeGeometry widerDisk 0 1 299 false widerNtfs (fun _ => 0) = .ok widerVolume ∧
      Io.Returns (ntAllocData freeBitmap (fun _ => pure ()) widerVolume 65536) ()
        ⟨0, 1, 128, false⟩ () ∧
      mappingPairs attr128.data attr128.size (rd16 attr128.data 32) = [(-128, 1)] ∧
      ¬ DataAttributeReads widerVolume ⟨0, 1, 128, false⟩ 65536
        (ntDataAttribute widerVolume 2 ⟨0, 1, 128, false⟩ 65536) := by
  have hpairs : mappingPairs attr128.data attr128.size (rd16 attr128.data 32) = [(-128, 1)] := by
    decide
  refine ⟨by rfl, by rfl, hpairs, fun h => ?_⟩
  have := hpairs.symm.trans h.pairs
  simp at this

end Efishell
