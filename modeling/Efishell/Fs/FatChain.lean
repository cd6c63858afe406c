import Mathlib.Data.Fintype.Card
import Efishell.Fs.Fat

/-!
# File systems — walks along FAT chains

The table of a FAT volume is whatever is on the disk: a chain may be cyclic, run into another one or
lead nowhere.  Four things hold on any image:

* no request leaves the volume (`AgreeIn`: two disks that agree there are not told apart);
* what `fat_read` returns is what stands in the clusters of the chain (`Faithful.fatReadLoop`);
* a chain that ends is never taken for a cycle (`Ends.dirLoop`, `Ends.fatReadLoop`), since its
  clusters are all different (`Ends.inj`);
* an entry of a FAT12 table is the twelve bits where it should be (`entry_fat12`).

The walks end because the rounds they have left get fewer.
-/

namespace Efishell

/-! ### The geometry -/

/-- What `fat_mount` makes sure of. -/
structure FatVolume.Ok (v : FatVolume) : Prop where
  sector_pos : 0 < v.sector
  spc_pos : 0 < v.spc
  count_le : v.clusterCount ≤ 0x0fffffee
  fat : v.fatStart + v.fatSectors ≤ v.length
  table : v.bits.tableBytes (v.clusterCount + 2) ≤ v.fatSectors * v.sector
  data : v.dataStart + v.clusterCount * v.spc ≤ v.length

theorem power2_pos {n : Nat} (h : power2 n = true) : 0 < n := by
  obtain ⟨k, rfl⟩ := power2_iff.mp h
  exact Nat.two_pow_pos k

/-- A boot sector that is accepted gives a volume whose parts lie inside it. -/
theorem fatGeometry_ok {disk sectorSize start length : Nat} {boot : Bytes} {v : FatVolume}
    (hs : 0 < sectorSize) (h : fatGeometry disk sectorSize start length boot = .ok v) : v.Ok := by
  rw [fatGeometry] at h
  generalize fatBoot boot = b at h
  split at h
  · cases h
  · rename_i h₁
    split at h
    · cases h
    · rename_i h₂
      split at h
      · cases h
      · rename_i h₃
        split at h
        · cases h
        · rename_i h₄
          split at h
          · cases h
          · rename_i h₅
            split at h
            · cases h
            · cases h
              simp only [not_or, not_lt, not_le, not_not, Bool.not_eq_false] at h₁ h₂ h₃ h₄
              obtain ⟨-, hbps, hspc, -, -, hfats, -, -, -, -⟩ := h₁
              have hpos := power2_pos hspc
              have hdata : b.data + b.clusters * b.spc ≤ b.total := by
                have := Nat.div_mul_le_self (b.total - b.data) b.spc
                rw [FatBoot.clusters]
                omega
              -- the table in use is one of the tables
              have hactive : b.active < b.fats := by
                by_cases hb : b.bits = .fat32
                · simp only [hb, true_and, not_or, not_le] at h₅
                  exact h₅.2.2.2.2.2
                · rw [FatBoot.active, if_neg (fun e => hb e.1)]
                  omega
              have hfat : b.reserved + b.active * b.fatSize + b.fatSize ≤ b.data := by
                have hle : (b.active + 1) * b.fatSize ≤ b.fats * b.fatSize :=
                  Nat.mul_le_mul_right _ hactive
                rw [Nat.add_mul, Nat.one_mul] at hle
                rw [FatBoot.data]
                omega
              rw [← hbps] at hs
              exact ⟨hs, hpos, h₃.2, hfat.trans h₂.le, h₄, hdata⟩

/-! ### No request leaves the volume -/

section Agree

variable {σ : Type} {io io' : Nat → Nat → Nat → Io Errno σ Bytes} {v : FatVolume}

/-- The two disks answer every request inside the volume alike. -/
def AgreeIn (v : FatVolume) (io io' : Nat → Nat → Nat → Io Errno σ Bytes) : Prop :=
  ∀ offset n, v.start * v.sector ≤ offset → offset + n ≤ (v.start + v.length) * v.sector →
    io v.disk offset n = io' v.disk offset n

/-- Two disks that agree inside the volume answer the same to `volume_bytes`. -/
theorem volumeBytes_agree (h : AgreeIn v io io') (offset n : Nat) :
    volumeBytes io v offset n = volumeBytes io' v offset n := by
  rw [volumeBytes, volumeBytes]
  split
  · rename_i hs
    simp only [spanOk, Bool.and_eq_true, decide_eq_true_eq] at hs
    refine h _ _ (Nat.le_add_right _ _) ?_
    rw [Nat.add_mul]
    omega
  · rfl

theorem fatNext_agree (h : AgreeIn v io io') (cluster : Nat) :
    fatNext io v cluster = fatNext io' v cluster := by
  rw [fatNext, fatNext, volumeBytes_agree h]

theorem chase_agree (h : AgreeIn v io io') (strict : Bool) (rounds cluster tortoise : Nat) :
    chase io v strict rounds cluster tortoise = chase io' v strict rounds cluster tortoise := by
  simp only [chase, slowNext, fatNext_agree h]

theorem dirSectors_agree (h : AgreeIn v io io') (fixed : Bool) (cb : Dirent → Nat → Io Errno σ Bool)
    (first left : Nat) : ∀ s st,
    dirSectors io v fixed cb first left s st = dirSectors io' v fixed cb first left s st := by
  induction left with
  | zero => exact fun _ _ => rfl
  | succ left ih =>
      intro s st
      rw [dirSectors, dirSectors, volumeBytes_agree h]
      simp only [ih]

theorem dirLoop_agree (h : AgreeIn v io io') (cb : Dirent → Nat → Io Errno σ Bool) (left : Nat) :
    ∀ visited cluster tortoise st,
    dirLoop io v cb left visited cluster tortoise st = dirLoop io' v cb left visited cluster
      tortoise st := by
  induction left with
  | zero => exact fun _ _ _ _ => rfl
  | succ left ih =>
      intro visited cluster tortoise st
      rw [dirLoop, dirLoop]
      simp only [dirCluster, dirSectors_agree h, chase_agree h, ih]

theorem fatDirectory_agree (h : AgreeIn v io io') (cluster : Nat)
    (cb : Dirent → Nat → Io Errno σ Bool) :
    fatDirectory io v cluster cb = fatDirectory io' v cluster cb := by
  rw [fatDirectory, fatDirectory]
  simp only [dirSectors_agree h, dirLoop_agree h]

theorem fatReadLoop_agree (h : AgreeIn v io io') (left : Nat) :
    ∀ steps cluster tortoise skip at_ bytes out p,
    fatReadLoop io v left steps cluster tortoise skip at_ bytes out p =
      fatReadLoop io' v left steps cluster tortoise skip at_ bytes out p := by
  induction left with
  | zero => exact fun _ _ _ _ _ _ _ _ => rfl
  | succ left ih =>
      intro steps cluster tortoise skip at_ bytes out p
      rw [fatReadLoop, fatReadLoop]
      simp only [readPart, volumeBytes_agree h, chase_agree h, ih]

/-- A refreshed file is on the same volume. -/
theorem fatRefresh_object {volumes : List FatVolume} {f f' : KFile} {s s' : σ}
    (h : Io.Returns (fatRefresh io volumes f) s f' s') : f'.object = f.object := by
  rw [fatRefresh, Io.returns_guard] at h
  obtain ⟨-, h⟩ := h
  split at h
  · exact absurd h Io.not_returns_fail
  · rw [Io.returns_ite] at h
    rcases h with ⟨-, h⟩ | ⟨-, h⟩
    · rw [(Io.returns_pure.mp h).1]
    · obtain ⟨d, s₁, -, h⟩ := Io.returns_bind.mp h
      rw [Io.returns_guard, Io.returns_guard] at h
      rw [(Io.returns_pure.mp h.2.2).1]

/-- Two disks that agree inside the file's volume give the same read. -/
theorem fatRead_agree {volumes : List FatVolume} {file : KFile}
    (h : ∀ v, volumes[file.object]? = some v → AgreeIn v io io') (offset bytes : Nat)
    (out : Bytes) :
    fatRead io volumes file offset bytes out = fatRead io' volumes file offset bytes out := by
  have hrefresh : fatRefresh io volumes file = fatRefresh io' volumes file := by
    rw [fatRefresh, fatRefresh]
    cases hv : volumes[file.object]? with
    | none => rfl
    | some v =>
        dsimp only
        rw [volumeBytes_agree (h v hv)]
  funext s
  rw [fatRead, fatRead, Io.bind_run, Io.bind_run, ← hrefresh]
  cases hr : fatRefresh io volumes file s with
  | mk r s' =>
      cases r with
      | error e => rfl
      | ok f =>
          have hobj := fatRefresh_object (show Io.Returns _ s f s' from hr)
          dsimp only
          rw [hobj]
          cases hv : volumes[file.object]? with
          | none => rfl
          | some v =>
              dsimp only
              simp only [fatReadLoop_agree (h v hv)]

end Agree

/-! ### The chain of an image -/

/-- The entry of a cluster on the disk `img`. -/
def FatVolume.entry (v : FatVolume) (img : Nat → Bytes) (cluster : Nat) : Nat :=
  v.bits.decode cluster fun i =>
    img v.disk (v.start * v.sector + (v.fatStart * v.sector + v.bits.offset cluster) + i)

/-- The cluster that follows, or `fatEnd`. -/
def FatVolume.next (v : FatVolume) (img : Nat → Bytes) (cluster : Nat) : Except Errno Nat :=
  if v.has cluster = false then .error .eio else v.link (v.entry img cluster)

/-- Cluster number `k` of the chain that begins with `first`. -/
def FatVolume.chain (v : FatVolume) (img : Nat → Bytes) (first : Nat) : Nat → Option Nat
  | 0 => some first
  | k + 1 =>
      match v.chain img first k with
      | none => none
      | some c =>
          match v.next img c with
          | .ok n => if n = fatEnd then none else some n
          | .error _ => none

/-- A table entry depends on its own bytes only. -/
theorem decode_congr {bits : FatBits} {cluster : Nat} {raw raw' : Bytes}
    (h : ∀ i < bits.bytes, raw i = raw' i) :
    bits.decode cluster raw = bits.decode cluster raw' := by
  cases bits with
  | fat12 =>
      have h16 : rd16 raw 0 = rd16 raw' 0 := by rw [rd16, rd16, h 0 (by decide), h 1 (by decide)]
      rw [FatBits.decode, FatBits.decode, h16]
  | fat16 => rw [FatBits.decode, FatBits.decode, rd16, rd16, h 0 (by decide), h 1 (by decide)]
  | fat32 =>
      rw [FatBits.decode, FatBits.decode, rd32, rd32, rd16, rd16, rd16, rd16, h 0 (by decide),
        h 1 (by decide), h 2 (by decide), h 3 (by decide)]

/-- One more step along the chain. -/
theorem chain_succ {v : FatVolume} {img : Nat → Bytes} {first k c n : Nat}
    (hc : v.chain img first k = some c) (hn : v.next img c = .ok n) (hne : n ≠ fatEnd) :
    v.chain img first (k + 1) = some n := by
  rw [FatVolume.chain, hc]
  dsimp only
  rw [hn]
  exact if_neg hne

/-! ### What is read -/

/-- A disk that answers with what stands in `img`, if it answers. -/
def Faithful {σ : Type} (io : Nat → Nat → Nat → Io Errno σ Bytes) (img : Nat → Bytes)
    (P : σ → Prop) :
    Prop :=
  ∀ disk offset n s b s', P s → Io.Returns (io disk offset n) s b s' →
    P s' ∧ ∀ i < n, b i = img disk (offset + i)

/-- `disk_bytes` is such a disk. -/
theorem diskBytes_faithful (image : Bytes) :
    Faithful (fun _ => diskBytes) (fun _ => image) fun d => d.image = image := by
  intro disk offset n d b d' hd h
  obtain ⟨hb, hsame⟩ := diskBytes_returns h
  exact ⟨hsame.image.trans hd, fun i hi => by rw [hb i hi, hd]⟩

section Faithful

variable {σ : Type} {io : Nat → Nat → Nat → Io Errno σ Bytes} {img : Nat → Bytes} {P : σ → Prop}
  {v : FatVolume} {s s' : σ}

/-- What `volume_bytes` returns is what the image has. -/
theorem Faithful.volumeBytes (hf : Faithful io img P) (hs : P s) {offset n : Nat} {b : Bytes}
    (h : Io.Returns (volumeBytes io v offset n) s b s') :
    P s' ∧ ∀ i < n, b i = img v.disk (v.start * v.sector + offset + i) := by
  rw [Efishell.volumeBytes, Io.returns_ite] at h
  rcases h with ⟨-, h⟩ | ⟨-, h⟩
  · exact hf _ _ _ _ _ _ hs h
  · exact absurd h Io.not_returns_fail

/-- `fat_next` returns the image's successor. -/
theorem Faithful.fatNext (hf : Faithful io img P) (hs : P s) {cluster n : Nat}
    (h : Io.Returns (fatNext io v cluster) s n s') : P s' ∧ v.next img cluster = .ok n := by
  rw [Efishell.fatNext, Io.returns_guard, Io.returns_guard, Io.returns_bind] at h
  obtain ⟨hhas, -, raw, s₁, hraw, h⟩ := h
  obtain ⟨hlink, rfl⟩ := Io.returns_lift.mp h
  obtain ⟨hs₁, hbytes⟩ := hf.volumeBytes hs hraw
  refine ⟨hs₁, ?_⟩
  rw [FatVolume.next, if_neg hhas, FatVolume.entry, ← hlink]
  congr 1
  exact decode_congr fun i hi => (hbytes i hi).symm

/-- The end of a round that goes on. -/
theorem Faithful.chase (hf : Faithful io img P) (hs : P s) {strict : Bool}
    {rounds cluster tortoise next slow : Nat}
    (h : Io.Returns (chase io v strict rounds cluster tortoise) s (some (next, slow)) s') :
    P s' ∧ v.next img cluster = .ok next ∧ next ≠ fatEnd := by
  rw [Efishell.chase] at h
  obtain ⟨n, s₁, hn, h⟩ := Io.returns_bind.mp h
  obtain ⟨hs₁, hlink⟩ := hf.fatNext hs hn
  rw [Io.returns_ite] at h
  rcases h with ⟨-, h⟩ | ⟨hend, h⟩
  · cases (Io.returns_pure.mp h).1
  · obtain ⟨t, s₂, ht, h⟩ := Io.returns_bind.mp h
    rw [Io.returns_guard, Io.returns_guard] at h
    obtain ⟨e, rfl⟩ := Io.returns_pure.mp h.2.2
    cases e
    refine ⟨?_, hlink, hend⟩
    rw [slowNext, Io.returns_ite] at ht
    rcases ht with ⟨-, ht⟩ | ⟨-, ht⟩
    · exact (hf.fatNext hs₁ ht).1
    · rw [(Io.returns_pure.mp ht).2]
      exact hs₁

/-- The bytes from `at` on of the chain that begins with cluster number `k` stand at `p` of
`out`. -/
def Holds (v : FatVolume) (img : Nat → Bytes) (first k at_ bytes p : Nat) (out : Bytes) : Prop :=
  ∀ i < bytes, ∃ c, v.chain img first (k + (at_ + i) / v.clusterBytes) = some c ∧
    out (p + i) = img v.disk (v.start * v.sector + v.position c ((at_ + i) % v.clusterBytes))

/-- A part of one cluster. -/
theorem Holds.part {first k at_ n p cluster : Nat} {out b : Bytes}
    (hc : v.chain img first k = some cluster) (hn : at_ + n ≤ v.clusterBytes)
    (hb : ∀ i < n, b i = img v.disk (v.start * v.sector + v.position cluster at_ + i)) :
    Holds v img first k at_ n p (memCopy out p b 0 n) := by
  intro i hi
  have hlt : at_ + i < v.clusterBytes := by omega
  refine ⟨cluster, by rw [Nat.div_eq_of_lt hlt, Nat.add_zero, hc], ?_⟩
  rw [memCopy_eq (by omega) (by omega), Nat.mod_eq_of_lt hlt, show 0 + (p + i - p) = i by omega,
    hb i hi, FatVolume.position, FatVolume.position]
  congr 1
  omega

/-- The rest of a cluster and what follows it. -/
theorem Holds.append {first k at_ n bytes p : Nat} {out out' : Bytes} (hpos : 0 < v.clusterBytes)
    (hn : at_ + n = v.clusterBytes) (h₁ : Holds v img first k at_ n p out)
    (h₂ : Holds v img first (k + 1) 0 bytes (p + n) out') (hold : ∀ i < p + n, out' i = out i) :
    Holds v img first k at_ (n + bytes) p out' := by
  intro i hi
  by_cases hin : i < n
  · rw [hold (p + i) (by omega)]
    exact h₁ i hin
  · obtain ⟨c, hc, hval⟩ := h₂ (i - n) (by omega)
    have hsplit : at_ + i = i - n + v.clusterBytes := by omega
    rw [Nat.zero_add] at hc hval
    rw [hsplit, Nat.add_div_right _ hpos, Nat.add_mod_right]
    refine ⟨c, ?_, ?_⟩
    · rw [← hc]
      congr 1
      omega
    · rw [← hval]
      congr 1
      omega

/-- **The loop of `fat_read`** fills in the bytes of the clusters of the chain, one cluster after
the other.  The induction is on the rounds left; cluster number `k` of the chain is at hand. -/
theorem Faithful.fatReadLoop (hf : Faithful io img P) (first : Nat) (left : Nat) :
    ∀ {steps cluster tortoise skip at_ bytes p k : Nat} {out : Bytes} {s s' : σ}
    {r : Bytes × Nat}, P s →
      v.chain img first k = some cluster → at_ < v.clusterBytes →
      Io.Returns (fatReadLoop io v left steps cluster tortoise skip at_ bytes out p) s r s' →
      r.2 = p + bytes ∧ (∀ i < p, r.1 i = out i) ∧
        Holds v img first (k + skip) at_ bytes p r.1 := by
  induction left with
  | zero =>
      intro steps cluster tortoise skip at_ bytes p k out s s' r hs hc hat h
      rw [Efishell.fatReadLoop, Io.returns_ite] at h
      rcases h with ⟨hz, h⟩ | ⟨-, h⟩
      · obtain ⟨rfl, -⟩ := Io.returns_pure.mp h
        exact ⟨by simp [hz.2], fun _ _ => rfl, fun i hi => by omega⟩
      · exact absurd h Io.not_returns_fail
  | succ left ih =>
      intro steps cluster tortoise skip at_ bytes p k out s s' r hs hc hat h
      rw [Efishell.fatReadLoop, Io.returns_ite] at h
      rcases h with ⟨hz, h⟩ | ⟨hz, h⟩
      · obtain ⟨rfl, -⟩ := Io.returns_pure.mp h
        exact ⟨by simp [hz.2], fun _ _ => rfl, fun i hi => by omega⟩
      · rw [Io.returns_guard, Io.returns_bind] at h
        obtain ⟨-, out₁, s₁, hread, h⟩ := h
        -- the rounds that follow, whatever this one did
        have hrest : ∀ {skip' at' bytes' p' : Nat} {go : Nat × Nat} {s₂ : σ}, P s₁ →
            at' < v.clusterBytes →
            Io.Returns (Efishell.chase io v false (steps + 1) cluster tortoise) s₁ (some go) s₂ →
            Io.Returns
              (Efishell.fatReadLoop io v left (steps + 1) go.1 go.2 skip' at' bytes' out₁ p')
              s₂ r s' →
            r.2 = p' + bytes' ∧ (∀ i < p', r.1 i = out₁ i) ∧
              Holds v img first (k + 1 + skip') at' bytes' p' r.1 := by
          intro skip' at' bytes' p' go s₂ hs₁ hat' hgo h
          obtain ⟨hs₂, hlink, hend⟩ := hf.chase hs₁ hgo
          exact ih hs₂ (chain_succ hc hlink hend) hat' h
        by_cases hskip : skip = 0
        · -- a part of this cluster is read
          subst hskip
          have hpart : v.part 0 at_ bytes = min bytes (v.clusterBytes - at_) := if_pos rfl
          generalize v.part 0 at_ bytes = n at *
          rw [readPart, if_pos rfl] at hread
          obtain ⟨b, s₂, hb, hout⟩ := Io.returns_bind.mp hread
          obtain ⟨rfl, rfl⟩ := Io.returns_pure.mp hout
          obtain ⟨hs₁, hbytes⟩ := hf.volumeBytes hs hb
          have hhere : Holds v img first k at_ n p (memCopy out p b 0 n) :=
            .part hc (by omega) hbytes
          rw [Io.returns_ite] at h
          rcases h with ⟨hdone, h⟩ | ⟨hmore, h⟩
          · obtain ⟨rfl, -⟩ := Io.returns_pure.mp h
            obtain rfl : bytes = n := by omega
            exact ⟨rfl, fun i hi => memCopy_ne (Or.inl hi), hhere⟩
          · rw [if_pos rfl] at h
            obtain ⟨go, s₃, hgo, h⟩ := Io.returns_bind.mp h
            cases go with
            | none => exact absurd h Io.not_returns_fail
            | some go =>
                obtain ⟨h₁, h₂, h₃⟩ := hrest hs₁ (by omega) hgo h
                refine ⟨by omega, fun i hi => ?_, ?_⟩
                · rw [h₂ i (by omega)]
                  exact memCopy_ne (Or.inl hi)
                · have := hhere.append (by omega) (by omega) h₃ h₂
                  rwa [show n + (bytes - n) = bytes by omega] at this
        · -- the cluster is skipped
          have hpart : v.part skip at_ bytes = 0 := if_neg hskip
          rw [hpart] at h hread
          rw [readPart, if_neg hskip] at hread
          obtain ⟨rfl, rfl⟩ := Io.returns_pure.mp hread
          rw [if_neg (fun e => hskip e.1), if_neg hskip] at h
          obtain ⟨go, s₃, hgo, h⟩ := Io.returns_bind.mp h
          cases go with
          | none => exact absurd h Io.not_returns_fail
          | some go =>
              obtain ⟨h₁, h₂, h₃⟩ := hrest hs hat hgo h
              simp only [Nat.sub_zero, Nat.add_zero] at h₁ h₂ h₃
              exact ⟨h₁, h₂, by rwa [show k + 1 + (skip - 1) = k + skip by omega] at h₃⟩

/-- A refresh keeps what is known of the state. -/
theorem Faithful.fatRefresh (hf : Faithful io img P) (hs : P s) {volumes : List FatVolume}
    {f f' : KFile} (h : Io.Returns (fatRefresh io volumes f) s f' s') : P s' := by
  rw [Efishell.fatRefresh, Io.returns_guard] at h
  obtain ⟨-, h⟩ := h
  split at h
  · exact absurd h Io.not_returns_fail
  · rw [Io.returns_ite] at h
    rcases h with ⟨-, h⟩ | ⟨-, h⟩
    · rw [(Io.returns_pure.mp h).2]
      exact hs
    · obtain ⟨d, s₁, hd, h⟩ := Io.returns_bind.mp h
      rw [Io.returns_guard, Io.returns_guard] at h
      rw [(Io.returns_pure.mp h.2.2).2]
      exact (hf.volumeBytes hs hd).1

/-- What a successful `fat_read` returns. -/
theorem Faithful.fatRead (hf : Faithful io img P) (hs : P s) (hpos : 0 < v.clusterBytes)
    {volumes : List FatVolume} {file : KFile} (hv : volumes[file.object]? = some v)
    {offset bytes : Nat}
    {out : Bytes} {r : Bytes × Nat}
    (h : Io.Returns (fatRead io volumes file offset bytes out) s r s') :
    ∃ f s₁, Io.Returns (Efishell.fatRefresh io volumes file) s f s₁ ∧
      r.2 = min bytes (f.size - offset) ∧
      ∀ i < r.2, ∃ c, v.chain img f.cluster ((offset + i) / v.clusterBytes) = some c ∧
        r.1 i = img v.disk (v.start * v.sector + v.position c ((offset + i) % v.clusterBytes)) := by
  rw [Efishell.fatRead] at h
  obtain ⟨f, s₁, hf₁, h⟩ := Io.returns_bind.mp h
  refine ⟨f, s₁, hf₁, ?_⟩
  have hs₁ : P s₁ := hf.fatRefresh hs hf₁
  rw [fatRefresh_object hf₁, hv] at h
  dsimp only at h
  rw [Io.returns_ite] at h
  rcases h with ⟨hnone, h⟩ | ⟨hsome, h⟩
  · obtain ⟨rfl, -⟩ := Io.returns_pure.mp h
    exact ⟨by dsimp only; omega, fun i hi => absurd hi (Nat.not_lt_zero i)⟩
  · rw [Io.returns_guard] at h
    have hfirst : v.chain img f.cluster 0 = some f.cluster := rfl
    obtain ⟨h₁, -, h₃⟩ := hf.fatReadLoop f.cluster _ hs₁ hfirst (Nat.mod_lt _ hpos) h.2
    rw [Nat.zero_add] at h₃
    rw [Nat.zero_add] at h₁
    refine ⟨h₁, fun i hi => ?_⟩
    obtain ⟨c, hc, hval⟩ := h₃ i (h₁ ▸ hi)
    have hsplit :
        offset + i = offset % v.clusterBytes + i + v.clusterBytes * (offset / v.clusterBytes) := by
      have := Nat.mod_add_div offset v.clusterBytes
      omega
    rw [hsplit, Nat.add_mul_div_left _ _ hpos, Nat.add_mul_mod_self_left]
    refine ⟨c, ?_, ?_⟩
    · rw [← hc]
      congr 1
      omega
    · rw [← hval, Nat.zero_add]

end Faithful

/-! ### Chains that end -/

/-- The disk that always answers. -/
def imageIo {σ : Type} (img : Nat → Bytes) : Nat → Nat → Nat → Io Errno σ Bytes :=
  fun disk offset _ =>
  pure fun i => img disk (offset + i)

/-- Cluster number `m` is the last one of the chain. -/
def Ends (v : FatVolume) (img : Nat → Bytes) (first m : Nat) : Prop :=
  ∃ c, v.chain img first m = some c ∧ v.next img c = .ok fatEnd

/-- A walk over the slots of the clusters of a list, one after the other. -/
def scanChain {σ : Type} (io : Nat → Nat → Nat → Io Errno σ Bytes) (v : FatVolume)
    (cb : Dirent → Nat → Io Errno σ Bool) : List Nat → DirState → Io Errno σ Unit
  | [], _ => return ()
  | c :: cs, st => do
      let more ← dirCluster io v cb c st
      match more with
      | none => return ()
      | some st => scanChain io v cb cs st

/-- The clusters of the chain from number `k` on, `n` of them if it does not end before. -/
def FatVolume.clusters (v : FatVolume) (img : Nat → Bytes) (first k n : Nat) : List Nat :=
  (List.range' k n).filterMap (v.chain img first)

section Image

variable {σ : Type} {img : Nat → Bytes} {v : FatVolume} {first m : Nat}

/-- The clusters of the volume, by number. -/
theorem FatVolume.has_iff {cluster : Nat} :
    v.has cluster = true ↔ 2 ≤ cluster ∧ cluster - 2 < v.clusterCount := by
  simp [FatVolume.has]

/-- The entry of a cluster is inside the table. -/
theorem FatVolume.Ok.offset_le (hv : v.Ok) {cluster : Nat} (h : v.has cluster = true) :
    v.bits.offset cluster + v.bits.bytes ≤ v.fatSectors * v.sector := by
  have htable := hv.table
  rw [FatVolume.has_iff] at h
  cases hb : v.bits <;> rw [hb] at htable <;>
    simp only [FatBits.tableBytes, FatBits.offset, FatBits.bytes] at htable ⊢ <;> omega

/-- A part of a cluster is inside the volume. -/
theorem FatVolume.Ok.position_le (hv : v.Ok) {cluster at_ n : Nat} (h : v.has cluster = true)
    (hn : at_ + n ≤ v.clusterBytes) : v.position cluster at_ + n ≤ v.length * v.sector := by
  rw [FatVolume.has_iff] at h
  have hle : (cluster - 2 + 1) * v.spc ≤ v.clusterCount * v.spc := Nat.mul_le_mul_right _ h.2
  rw [Nat.add_mul, Nat.one_mul] at hle
  have hdata : (v.dataStart + (cluster - 2) * v.spc + v.spc) * v.sector ≤ v.length * v.sector :=
    Nat.mul_le_mul_right _ (by have := hv.data; omega)
  rw [Nat.add_mul] at hdata
  rw [FatVolume.clusterBytes] at hn
  rw [FatVolume.position]
  omega

/-- A read inside the volume succeeds on an image. -/
theorem volumeBytes_image {offset n : Nat} (h : offset + n ≤ v.length * v.sector) (s : σ) :
    volumeBytes (imageIo img) v offset n s =
      (.ok fun i => img v.disk (v.start * v.sector + offset + i), s) := by
  have hspan : spanOk offset n (v.length * v.sector) = true := by
    simp only [spanOk, Bool.and_eq_true, decide_eq_true_eq]
    omega
  rw [volumeBytes, if_pos hspan]
  rfl

/-- The successor of a cluster, on an image. -/
theorem fatNext_image (hv : v.Ok) (cluster : Nat) (s : σ) :
    fatNext (imageIo img) v cluster s = (v.next img cluster, s) := by
  rw [fatNext, FatVolume.next]
  cases hh : v.has cluster with
  | false => rfl
  | true =>
      have hoff := hv.offset_le hh
      have hspan :
          spanOk (v.bits.offset cluster) v.bits.bytes (v.fatSectors * v.sector) = true := by
        simp only [spanOk, Bool.and_eq_true, decide_eq_true_eq]
        omega
      have hin :
          v.fatStart * v.sector + v.bits.offset cluster + v.bits.bytes ≤ v.length * v.sector := by
        have hfat := Nat.mul_le_mul_right v.sector hv.fat
        rw [Nat.add_mul] at hfat
        omega
      rw [if_neg (by decide), if_neg (by rw [hspan]; decide), if_neg (by decide), Io.bind_run,
        volumeBytes_image hin]
      rfl

/-- One cluster tells the rest of the chain. -/
theorem chain_congr {i j : Nat} (h : v.chain img first i = v.chain img first j) (d : Nat) :
    v.chain img first (i + d) = v.chain img first (j + d) := by
  induction d with
  | zero => exact h
  | succ d ih => rw [← Nat.add_assoc, ← Nat.add_assoc, FatVolume.chain, FatVolume.chain, ih]

/-- The last step along the chain. -/
theorem chain_pred {k n : Nat} (h : v.chain img first (k + 1) = some n) :
    ∃ c, v.chain img first k = some c ∧ v.next img c = .ok n ∧ n ≠ fatEnd := by
  rw [FatVolume.chain] at h
  cases hc : v.chain img first k with
  | none => simp [hc] at h
  | some c =>
      cases hn : v.next img c with
      | error e => simp [hc, hn] at h
      | ok n' =>
          simp only [hc, hn] at h
          split at h
          · cases h
          · rename_i hne
            cases h
            exact ⟨c, rfl, hn, hne⟩

/-- The clusters before one of the chain. -/
theorem chain_before {k d n : Nat} (h : v.chain img first (k + d) = some n) :
    ∃ c, v.chain img first k = some c := by
  induction d generalizing n with
  | zero => exact ⟨n, h⟩
  | succ d ih =>
      obtain ⟨c, hc, -, -⟩ := chain_pred h
      exact ih hc

/-- A cluster with a successor is one of the volume's. -/
theorem next_has {cluster n : Nat} (h : v.next img cluster = .ok n) : v.has cluster = true := by
  rw [FatVolume.next] at h
  split at h
  · cases h
  · rename_i hhas
    simpa using hhas

namespace Ends

/-- Before its end the chain has all its clusters. -/
theorem cluster (h : Ends v img first m) {k : Nat} (hk : k ≤ m) :
    ∃ c, v.chain img first k = some c := by
  obtain ⟨c, hc, -⟩ := h
  obtain ⟨d, rfl⟩ := Nat.exists_eq_add_of_le hk
  exact chain_before hc

/-- The last cluster's entry is the end mark. -/
theorem last (h : Ends v img first m) {c : Nat} (hc : v.chain img first m = some c) :
    v.next img c = .ok fatEnd := by
  obtain ⟨c', hc', hend⟩ := h
  cases hc.symm.trans hc'
  exact hend

/-- Every cluster before it has a successor. -/
theorem next (h : Ends v img first m) {k c : Nat} (hk : k < m) (hc : v.chain img first k = some c) :
    ∃ n, v.chain img first (k + 1) = some n ∧ v.next img c = .ok n ∧ n ≠ fatEnd := by
  obtain ⟨n, hn⟩ := h.cluster hk
  obtain ⟨c', hc', hlink, hne⟩ := chain_pred hn
  cases hc.symm.trans hc'
  exact ⟨n, hn, hlink, hne⟩

/-- Every cluster of the chain is one of the volume's. -/
theorem has (h : Ends v img first m) {k c : Nat} (hk : k ≤ m) (hc : v.chain img first k = some c) :
    v.has c = true := by
  rcases Nat.lt_or_ge k m with hlt | hge
  · obtain ⟨n, -, hlink, -⟩ := h.next hlt hc
    exact next_has hlink
  · obtain rfl : k = m := by omega
    exact next_has (h.last hc)

/-- The clusters of a chain that ends are different: after a repetition the end would come twice. -/
theorem inj (h : Ends v img first m) {i j : Nat} (hij : i < j) (hj : j ≤ m) :
    v.chain img first i ≠ v.chain img first j := by
  intro heq
  obtain ⟨c, hc, hend⟩ := h
  have hsame := chain_congr heq (m - j)
  rw [show j + (m - j) = m by omega, hc] at hsame
  obtain ⟨n, -, hlink, hne⟩ := Ends.next ⟨c, hc, hend⟩ (show i + (m - j) < m by omega) hsame
  rw [hend] at hlink
  exact hne (Except.ok.inj hlink).symm

/-- So there are no more of them than the volume has. -/
theorem length_le (h : Ends v img first m) : m + 1 ≤ v.clusterCount := by
  have hpick : ∀ k : Fin (m + 1), ∃ c, v.chain img first k = some c := fun k =>
    h.cluster (Nat.le_of_lt_succ k.isLt)
  choose c hc using hpick
  have hbound : ∀ k, 2 ≤ c k ∧ c k - 2 < v.clusterCount := fun k =>
    FatVolume.has_iff.mp (h.has (Nat.le_of_lt_succ k.isLt) (hc k))
  let f : Fin (m + 1) → Fin v.clusterCount := fun k => ⟨c k - 2, (hbound k).2⟩
  have hf : Function.Injective f := by
    intro i j hij
    have hval : c i - 2 = c j - 2 := congrArg Fin.val hij
    have hcij : c i = c j := by
      have := hbound i
      have := hbound j
      omega
    have hchain : v.chain img first i = v.chain img first j := by rw [hc, hc, hcij]
    rcases Nat.lt_trichotomy i j with hlt | heq | hgt
    · exact absurd hchain (h.inj hlt (Nat.le_of_lt_succ j.isLt))
    · exact Fin.ext heq
    · exact absurd hchain.symm (h.inj hgt (Nat.le_of_lt_succ i.isLt))
  simpa using Fintype.card_le_of_injective f hf

/-- The end of a round before the last cluster: the slow pointer is half as far, and is not met. -/
theorem chase (h : Ends v img first m) (hv : v.Ok) {strict : Bool} {k c t : Nat} (hk : k < m)
    (hc : v.chain img first k = some c) (ht : v.chain img first (k / 2) = some t) (s : σ) :
    ∃ n t', v.chain img first (k + 1) = some n ∧ v.chain img first ((k + 1) / 2) = some t' ∧
      Efishell.chase (imageIo img) v strict (k + 1) c t s = (.ok (some (n, t')), s) := by
  obtain ⟨n, hn, hlink, hne⟩ := h.next hk hc
  -- where the slow pointer comes to
  have hslow : ∃ t', v.chain img first ((k + 1) / 2) = some t' ∧ t' ≠ fatEnd ∧
      slowNext (imageIo img) v (k + 1) t s = (.ok t', s) := by
    rw [slowNext]
    split
    · rename_i heven
      obtain ⟨t', ht', hlink', hne'⟩ := h.next (show k / 2 < m by omega) ht
      refine ⟨t', ?_, hne', by rw [fatNext_image hv, hlink']⟩
      rw [← ht']
      congr 1
      omega
    · rename_i hodd
      have hhas := FatVolume.has_iff.mp (h.has (show k / 2 ≤ m by omega) ht)
      refine ⟨t, ?_, ?_, rfl⟩
      · rw [← ht]
        congr 1
        omega
      · have := hv.count_le
        rw [fatEnd]
        omega
  obtain ⟨t', ht', hne', hrun⟩ := hslow
  refine ⟨n, t', hn, ht', ?_⟩
  have hapart : n ≠ t' := by
    rintro rfl
    exact h.inj (show (k + 1) / 2 < k + 1 by omega) hk (ht'.trans hn.symm)
  rw [Efishell.chase, Io.bind_run, fatNext_image hv, hlink]
  dsimp only
  rw [if_neg hne, Io.bind_run, hrun]
  dsimp only
  rw [if_neg (fun e => hne' e.2.2), if_neg hapart]
  rfl

/-- The walk stops at the last cluster. -/
theorem chase_last (h : Ends v img first m) (hv : v.Ok) {strict : Bool} {rounds c t : Nat}
    (hc : v.chain img first m = some c) (s : σ) :
    Efishell.chase (imageIo img) v strict rounds c t s = (.ok none, s) := by
  rw [Efishell.chase, Io.bind_run, fatNext_image hv, h.last hc]
  rfl

/-- **The loop of `fat_directory`** on a chain that ends is the walk over its clusters.  The
induction is on the number of clusters that follow. -/
theorem dirLoop (h : Ends v img first m) (hv : v.Ok)
    (cb : Dirent → Nat → Io Errno σ Bool) (d : Nat) :
    ∀ {k left c t : Nat} {st : DirState}, k + d = m → d < left → v.chain img first k = some c →
      v.chain img first (k / 2) = some t →
      Efishell.dirLoop (imageIo img) v cb left k c t st =
        scanChain (imageIo img) v cb (v.clusters img first k (d + 1)) st := by
  induction d with
  | zero =>
      intro k left c t st hkd hleft hc ht
      obtain rfl : k = m := by omega
      obtain ⟨left, rfl⟩ := Nat.exists_eq_succ_of_ne_zero (Nat.pos_iff_ne_zero.mp hleft)
      funext s
      rw [Efishell.dirLoop, if_neg (by rw [h.has le_rfl hc]; decide), FatVolume.clusters,
        List.range'_succ, List.filterMap_cons, hc, Io.bind_run]
      dsimp only
      rw [scanChain, Io.bind_run]
      cases hrun : dirCluster (imageIo img) v cb c st s with
      | mk r s₁ =>
          cases r with
          | error e => rfl
          | ok more =>
              cases more with
              | none => rfl
              | some st' =>
                  dsimp only
                  rw [Io.bind_run, h.chase_last hv hc]
                  rfl
  | succ d ih =>
      intro k left c t st hkd hleft hc ht
      obtain ⟨left, rfl⟩ := Nat.exists_eq_succ_of_ne_zero (show left ≠ 0 by omega)
      funext s
      rw [Efishell.dirLoop, if_neg (by rw [h.has (by omega) hc]; decide), FatVolume.clusters,
        List.range'_succ, List.filterMap_cons, hc, Io.bind_run]
      dsimp only
      rw [scanChain, Io.bind_run]
      cases hrun : dirCluster (imageIo img) v cb c st s with
      | mk r s₁ =>
          cases r with
          | error e => rfl
          | ok more =>
              cases more with
              | none => rfl
              | some st' =>
                  -- the tortoise is behind, so the walk is not stopped as a cycle
                  obtain ⟨n, t', hn, ht', hchase⟩ := h.chase hv (show k < m by omega) hc ht s₁
                  dsimp only
                  rw [Io.bind_run, hchase]
                  exact congrFun (ih (by omega) (by omega) hn ht') s₁

/-- `fat_directory` of a chain that ends scans its clusters in order. -/
theorem fatDirectory (h : Ends v img first m) (hv : v.Ok) (hm : m < 65536)
    (cb : Dirent → Nat → Io Errno σ Bool) :
    Efishell.fatDirectory (imageIo img) v first cb =
      scanChain (imageIo img) v cb (v.clusters img first 0 (m + 1)) ⟨0, .start⟩ := by
  have hfirst : v.chain img first 0 = some first := rfl
  have hne : first ≠ 0 := by
    have := FatVolume.has_iff.mp (h.has (Nat.zero_le m) hfirst)
    omega
  rw [Efishell.fatDirectory, if_neg (fun e => hne e.1), if_neg hne]
  exact h.dirLoop hv cb m (Nat.zero_add m) (lt_min hm h.length_le) hfirst hfirst

/-- **The loop of `fat_read`** on a chain that ends reads whatever lies in its clusters. -/
theorem fatReadLoop (h : Ends v img first m) (hv : v.Ok) (left : Nat) :
    ∀ {k c t skip at_ bytes p : Nat} {out : Bytes}, m < k + left → v.chain img first k = some c →
      v.chain img first (k / 2) = some t → k + skip ≤ m → at_ < v.clusterBytes → 0 < bytes →
      at_ + bytes ≤ (m + 1 - (k + skip)) * v.clusterBytes → ∀ s : σ,
      ∃ r, Efishell.fatReadLoop (imageIo img) v left k c t skip at_ bytes out p s = (.ok r, s) := by
  induction left with
  | zero =>
      intro k c t skip at_ bytes p out hleft hc ht hskip
      omega
  | succ left ih =>
      intro k c t skip at_ bytes p out hleft hc ht hskip hat hbytes hfit s
      have hhas := h.has (show k ≤ m by omega) hc
      rw [Efishell.fatReadLoop, if_neg (fun e => by omega),
        if_neg (by rw [hhas]; decide), Io.bind_run, readPart]
      by_cases hz : skip = 0
      · -- a part of this cluster is read
        subst hz
        have hpart : v.part 0 at_ bytes = min bytes (v.clusterBytes - at_) := if_pos rfl
        generalize v.part 0 at_ bytes = n at *
        rw [if_pos rfl, Io.bind_run, volumeBytes_image (hv.position_le hhas (by omega))]
        dsimp only [Io.pure_run]
        by_cases hdone : bytes - n = 0
        · rw [if_pos ⟨rfl, hdone⟩]
          exact ⟨_, rfl⟩
        · have hmore : k < m := by
            by_contra hlast
            rw [show m + 1 - (k + 0) = 1 by omega] at hfit
            omega
          obtain ⟨n', t', hn', ht', hchase⟩ := h.chase hv hmore hc ht s
          rw [if_neg (fun e => hdone e.2), Io.bind_run, hchase, if_pos rfl]
          refine ih (by omega) hn' ht' (by omega) (by omega) (by omega) ?_ s
          rw [show m + 1 - (k + 0) = m + 1 - (k + 1 + (0 - 1)) + 1 by
            omega, Nat.add_mul, Nat.one_mul] at hfit
          omega
      · -- the cluster is skipped
        have hpart : v.part skip at_ bytes = 0 := if_neg hz
        rw [if_neg hz, Io.pure_run]
        dsimp only
        obtain ⟨n', t', hn', ht', hchase⟩ := h.chase hv (show k < m by omega) hc ht s
        rw [if_neg (fun e => hz e.1), Io.bind_run, hchase, if_neg hz, hpart]
        refine ih (by omega) hn' ht' (by omega) hat hbytes ?_ s
        rwa [show k + 1 + (skip - 1) = k + skip by omega]

/-- `fat_read` of a chain that ends reads its clusters in order. -/
theorem fatRead (h : Ends v img first m) (hv : v.Ok) (hm : m < 65536) {volumes : List FatVolume}
    {file f : KFile} (hvol : volumes[file.object]? = some v) (hfirst : f.cluster = first) {s s₁ : σ}
    (hf : Io.Returns (fatRefresh (imageIo img) volumes file) s f s₁)
    {offset bytes : Nat} {out : Bytes}
    (hfit : min (offset + bytes) f.size ≤ (m + 1) * v.clusterBytes) :
    ∃ r, Io.Returns (Efishell.fatRead (imageIo img) volumes file offset bytes out) s r s₁ := by
  subst hfirst
  have hpos : 0 < v.clusterBytes := Nat.mul_pos hv.spc_pos hv.sector_pos
  have hchain : v.chain img f.cluster 0 = some f.cluster := rfl
  rw [Io.Returns] at hf
  simp only [Io.Returns, Efishell.fatRead, Io.bind_run, hf]
  rw [fatRefresh_object hf, hvol]
  dsimp only
  by_cases hnone : f.size ≤ offset ∨ bytes = 0
  · rw [if_pos hnone]
    exact ⟨_, rfl⟩
  · rw [if_neg hnone]
    have hsplit := Nat.mod_add_div offset v.clusterBytes
    have hlt : offset / v.clusterBytes < m + 1 := by
      rw [Nat.div_lt_iff_lt_mul hpos]
      omega
    have hlen := h.length_le
    rw [if_neg (by omega)]
    refine h.fatReadLoop hv _ (by omega) hchain hchain (by omega) (Nat.mod_lt _ hpos)
      (by omega) ?_ s₁
    have hrest : (m + 1 - (0 + offset / v.clusterBytes)) * v.clusterBytes +
        v.clusterBytes * (offset / v.clusterBytes) = (m + 1) * v.clusterBytes := by
      rw [Nat.mul_comm v.clusterBytes, ← Nat.add_mul]
      congr 1
      omega
    omega

end Ends

/-! ### FAT12 -/

/-- Bit number `k` of the table. -/
def FatVolume.tableBit (v : FatVolume) (img : Nat → Bytes) (k : Nat) : Bool :=
  (img v.disk (v.start * v.sector + v.fatStart * v.sector + k / 8)).toNat.testBit (k % 8)

/-- A 16-bit field, bit by bit. -/
theorem testBit_rd16 (b : Bytes) (i : Nat) (hi : i < 16) :
    (rd16 b 0).testBit i = (b (i / 8)).toNat.testBit (i % 8) := by
  rw [rd16, Nat.add_comm, Nat.testBit_two_pow_mul_add _ (b 0).toNat_lt]
  split
  · rename_i h
    rw [Nat.div_eq_of_lt h, Nat.mod_eq_of_lt h]
  · rename_i h
    rw [show i / 8 = 0 + 1 by omega, show i % 8 = i - 8 by omega]

/-- An entry has twelve bits, and they are the bits from `12 * cluster` on. -/
theorem entry_fat12 (hb : v.bits = .fat12) (cluster : Nat) :
    v.entry img cluster < 4096 ∧
      ∀ i < 12, (v.entry img cluster).testBit i = v.tableBit img (12 * cluster + i) := by
  rw [FatVolume.entry, hb, FatBits.decode, FatBits.offset]
  have hlt := rd16_lt (fun i =>
    img v.disk (v.start * v.sector + (v.fatStart * v.sector + (cluster + cluster / 2)) + i)) 0
  split
  · rename_i hodd
    refine ⟨by omega, fun i hi => ?_⟩
    rw [show 16 = 2 ^ 4 from rfl, Nat.testBit_div_two_pow, testBit_rd16 _ _ (by omega),
      FatVolume.tableBit,
        show (12 * cluster + i) / 8 = cluster + cluster / 2 + (i + 4) / 8 by omega,
      show (12 * cluster + i) % 8 = (i + 4) % 8 by omega]
    simp only [Nat.add_assoc]
  · rename_i heven
    refine ⟨by omega, fun i hi => ?_⟩
    rw [show 0x1000 = 2 ^ 12 from rfl, Nat.testBit_mod_two_pow, decide_eq_true hi, Bool.true_and,
      testBit_rd16 _ _ (by omega), FatVolume.tableBit,
      show (12 * cluster + i) / 8 = cluster + cluster / 2 + i / 8 by omega,
      show (12 * cluster + i) % 8 = i % 8 by omega]
    simp only [Nat.add_assoc]

end Image

/-! ### Any image -/

/-- What holds of the walks of `fat_directory` and `fat_read` on any image of the volume. -/
structure ChainWalks (σ : Type) (v : FatVolume) : Prop where
  /-- No request leaves the volume. -/
  inside : ∀ io io' : Nat → Nat → Nat → Io Errno σ Bytes, AgreeIn v io io' →
    (∀ cluster cb, fatDirectory io v cluster cb = fatDirectory io' v cluster cb) ∧
    ∀ volumes : List FatVolume, ∀ file : KFile, volumes[file.object]? = some v → ∀ offset bytes out,
      fatRead io volumes file offset bytes out = fatRead io' volumes file offset bytes out
  /-- What is read are the bytes of the clusters of the chain. -/
  reads : ∀ (io : Nat → Nat → Nat → Io Errno σ Bytes) (img : Nat → Bytes) (P : σ → Prop),
    Faithful io img P → ∀ volumes : List FatVolume, ∀ file : KFile, volumes[file.object]? = some v →
    ∀ offset bytes out s r s', P s → Io.Returns (fatRead io volumes file offset bytes out) s r s' →
    ∃ f s₁, Io.Returns (fatRefresh io volumes file) s f s₁ ∧ r.2 = min bytes (f.size - offset) ∧
      ∀ i < r.2, ∃ c, v.chain img f.cluster ((offset + i) / v.clusterBytes) = some c ∧
        r.1 i = img v.disk (v.start * v.sector + v.position c ((offset + i) % v.clusterBytes))
  /-- A chain that ends is walked to its end. -/
  patient : ∀ img first m, Ends v img first m → m < 65536 →
    (∀ cb : Dirent → Nat → Io Errno σ Bool, fatDirectory (imageIo img) v first cb =
      scanChain (imageIo img) v cb (v.clusters img first 0 (m + 1)) ⟨0, .start⟩) ∧
    ∀ volumes : List FatVolume, ∀ file f : KFile, volumes[file.object]? = some v →
      f.cluster = first →
    ∀ offset bytes out, ∀ s s₁ : σ, Io.Returns (fatRefresh (imageIo img) volumes file) s f s₁ →
      min (offset + bytes) f.size ≤ (m + 1) * v.clusterBytes →
      ∃ r, Io.Returns (fatRead (imageIo img) volumes file offset bytes out) s r s₁
  /-- The entries of a FAT12 table have twelve bits. -/
  twelve : v.bits = .fat12 → ∀ img cluster, v.has cluster = true → ∃ n,
    (∀ s : σ, fatNext (imageIo img) v cluster s = (v.link n, s)) ∧ n < 4096 ∧
      ∀ i < 12, n.testBit i = v.tableBit img (12 * cluster + i)

/-- **Walks along chains** end, stay inside the volume and are exact, whatever the table holds: for
every volume that `fat_mount` accepts. -/
theorem chain_walks (σ : Type) {disk sectorSize start length : Nat} {boot : Bytes} {v : FatVolume}
    (hs : 0 < sectorSize) (h : fatGeometry disk sectorSize start length boot = .ok v) :
    ChainWalks σ v := by
  have hv := fatGeometry_ok hs h
  have hpos : 0 < v.clusterBytes := Nat.mul_pos hv.spc_pos hv.sector_pos
  refine ⟨fun io io' hio => ⟨fatDirectory_agree hio, fun volumes file hvol => ?_⟩, ?_, ?_, ?_⟩
  · refine fatRead_agree fun v' hv' => ?_
    cases hvol.symm.trans hv'
    exact hio
  · intro io img P hf volumes file hvol offset bytes out s r s' hP hr
    exact hf.fatRead hP hpos hvol hr
  · intro img first m hends hm
    refine ⟨hends.fatDirectory hv hm, ?_⟩
    intro volumes file f hvol hfirst offset bytes out s s₁ hf hfit
    exact hends.fatRead hv hm hvol hfirst hf hfit
  · intro hb img cluster hhas
    refine ⟨v.entry img cluster, fun s => ?_, entry_fat12 hb cluster⟩
    rw [fatNext_image hv, FatVolume.next, hhas]
    rfl

/-- The boot sector of a volume of one hundred sectors. -/
def smallBoot : Bytes := fun i =>
  match i with
  | 0 => 0xeb
  | 12 => 2
  | 13 => 1
  | 14 => 1
  | 16 => 2
  | 17 => 16
  | 19 => 100
  | 22 => 1
  | 510 => 0x55
  | 511 => 0xaa
  | _ => 0

theorem chain_walks_small : ∃ v, fatGeometry 0 512 63 100 smallBoot = .ok v ∧ v.bits = .fat12 ∧
    v.clusterCount = 96 ∧ ChainWalks Unit v := by
  have h : fatGeometry 0 512 63 100 smallBoot = .ok ((fatBoot smallBoot).volume 0 63) := by rfl
  exact ⟨_, h, by decide, by decide, chain_walks Unit (by decide) h⟩

end Efishell
