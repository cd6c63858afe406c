import Efishell.Fs.Partition

/-!
# File systems — what the partition parsers accept

`PartitionsOk` says that a list of partitions is a sound division of a disk: nonempty ranges, none
at sector 0, all inside the disk, pairwise disjoint, pairwise distinct numbers.  Both parsers
build their list with `partition_add`, and `PartitionsOk.add` is the one step lemma about it.

`GptSound` adds that the partitions keep clear of the header, of the alternate header the header
names and of the entry table; `MbrSound` adds that logical partitions lie inside the extended
container, primary ones outside, and that no partition covers an extended boot record.

The checks of `gpt_parse` keep the entry table away from the alternate header, but nothing keeps
the partitions away from it.  `partition_parsing_sound_iff` says that this is the only gap: both
parsers are sound on a disk exactly when no used entry of an accepted table covers the alternate
header.
-/

namespace Efishell

namespace PartitionEntry

/-- The sector `lba` belongs to the partition. -/
def Covers (p : PartitionEntry) (lba : Nat) : Prop := p.start ≤ lba ∧ lba < p.start + p.length

/-- The partitions have no sector in common. -/
def Apart (p q : PartitionEntry) : Prop :=
  p.start + p.length ≤ q.start ∨ q.start + q.length ≤ p.start

end PartitionEntry

/-- A sound division of a disk of `sectors` sectors. -/
structure PartitionsOk (sectors : Nat) (parts : List PartitionEntry) : Prop where
  nonempty : ∀ p ∈ parts, 0 < p.length
  start_pos : ∀ p ∈ parts, 1 ≤ p.start
  inside : ∀ p ∈ parts, p.start + p.length ≤ sectors
  apart : parts.Pairwise PartitionEntry.Apart
  numbers : (parts.map PartitionEntry.number).Nodup

theorem PartitionsOk.nil (sectors : Nat) : PartitionsOk sectors [] :=
  ⟨by simp, by simp, by simp, .nil, .nil⟩

/-- What `partition_add` checked, and what it appends. -/
theorem partitionAdd_ok {parts parts' : List PartitionEntry} {start length number sectors : Nat}
    (h : partitionAdd parts start length number sectors = .ok parts') :
    0 < length ∧ 0 < start ∧ start + length ≤ sectors ∧
      (∀ p ∈ parts, overlap start length p.start p.length = false) ∧
      parts' = parts ++ [⟨start, length, number, false⟩] := by
  simp only [partitionAdd] at h
  split at h
  · cases h
  · split at h
    · cases h
    · rename_i hr ho
      cases h
      refine ⟨by omega, by omega, by omega, fun p hp => ?_, rfl⟩
      rw [Bool.not_eq_true, List.any_eq_false] at ho
      exact Bool.not_eq_true _ ▸ ho p hp

/-- Appending what `partition_add` let through keeps the division sound, under any value of the
read-only mark. -/
theorem PartitionsOk.add {parts : List PartitionEntry} {start length number sectors : Nat}
    (hok : PartitionsOk sectors parts) (hs : sectors < 2 ^ 64) (hl : 0 < length) (hp : 0 < start)
    (hi : start + length ≤ sectors)
    (ho : ∀ p ∈ parts, overlap start length p.start p.length = false)
    (hnum : ∀ p ∈ parts, p.number < number) (readOnly : Bool) :
    PartitionsOk sectors (parts ++ [⟨start, length, number, readOnly⟩]) where
  nonempty := by
    intro p hp'
    rcases List.mem_append.mp hp' with h | h
    · exact hok.nonempty p h
    · rw [List.mem_singleton.mp h]
      exact hl
  start_pos := by
    intro p hp'
    rcases List.mem_append.mp hp' with h | h
    · exact hok.start_pos p h
    · rw [List.mem_singleton.mp h]
      exact hp
  inside := by
    intro p hp'
    rcases List.mem_append.mp hp' with h | h
    · exact hok.inside p h
    · rw [List.mem_singleton.mp h]
      exact hi
  apart := by
    refine List.pairwise_append.mpr ⟨hok.apart, List.pairwise_singleton _ _, fun p h q h' => ?_⟩
    obtain rfl := List.mem_singleton.mp h'
    have hin := hok.inside p h
    have hne := hok.nonempty p h
    rcases (overlap_eq_false_iff hl hne (by omega) (by omega)).mp (ho p h) with e | e
    · exact Or.inr e
    · exact Or.inl e
  numbers := by
    rw [List.map_append]
    refine List.nodup_append.mpr ⟨hok.numbers, by simp, fun a ha b hb e => ?_⟩
    obtain ⟨p, h, rfl⟩ := List.mem_map.mp ha
    have := hnum p h
    simp only [List.map_cons, List.map_nil, List.mem_singleton] at hb
    omega

/-! ### GPT -/

/-- The header `gpt_parse` reads at `headerLba`. -/
def Disk.gptHeaderAt (d : Disk) (headerLba : Nat) : GptHeader := gptHeader (d.span headerLba 1)

/-- Entry `i` of the table, as it stands on the disk. -/
def Disk.gptEntryAt (d : Disk) (h : GptHeader) (i : Nat) : Bytes := fun j =>
  d.image (h.table * d.geo.sectorSize + i * h.entrySize + j)

/-- Partition `p` is what entry `i` describes. -/
def GptEntryIs (d : Disk) (h : GptHeader) (i : Nat) (p : PartitionEntry) : Prop :=
  gptUsed (d.gptEntryAt h i) = true ∧ p.number = i + 1 ∧ p.start = rd64 (d.gptEntryAt h i) 32 ∧
    p.start + p.length = rd64 (d.gptEntryAt h i) 40 + 1

/-- What the checks of the header give. -/
structure GptHeader.Ok (h : GptHeader) (g : Geometry) (headerLba : Nat) : Prop where
  first_le : h.first ≤ h.last
  two_le : 2 ≤ h.first
  last_lt : h.last + 1 < g.sectors
  backup_lt : h.backup < g.sectors
  table_le : h.table + h.tableSectors g.sectorSize ≤ g.sectors
  table_apart : h.table + h.tableSectors g.sectorSize ≤ h.first ∨ h.last < h.table

/-- A whole number of sectors holds the table. -/
theorem GptHeader.tableBytes_le (h : GptHeader) {bps : Nat} (hb : 0 < bps) :
    h.tableBytes ≤ h.tableSectors bps * bps := by
  have hdiv := Nat.div_add_mod (h.tableBytes + bps - 1) bps
  have hlt := Nat.mod_lt (h.tableBytes + bps - 1) hb
  rw [GptHeader.tableSectors, Nat.mul_comm]
  omega

/-- A header the parser accepts lies on the disk with its table. -/
theorem GptHeader.ok_of_geometryOk {h : GptHeader} {g : Geometry} {headerLba : Nat}
    (hg : h.geometryOk g.sectors g.sectorSize headerLba = true) : h.Ok g headerLba := by
  simp only [GptHeader.geometryOk, Bool.not_eq_true', Bool.or_eq_false_iff, decide_eq_false_iff_not,
    Nat.not_le, Nat.not_lt, beq_eq_false_iff_ne, bne_eq_false_iff_eq] at hg
  obtain ⟨⟨⟨⟨⟨⟨⟨⟨⟨⟨⟨⟨⟨⟨⟨hb, -⟩, hfl⟩, h2⟩, hl⟩, he0⟩, -⟩, hes⟩, -⟩, -⟩, -⟩, ht⟩, hts⟩, hov⟩, -⟩,
      -⟩ := hg
  have hs := g.sectors_lt
  have hpos := g.sectorSize_pos
  -- the table is not empty, so its overlap test is not vacuous
  have hbytes : 0 < h.tableBytes := Nat.mul_pos (Nat.pos_of_ne_zero he0) (by omega)
  have hts0 : 0 < h.tableSectors g.sectorSize := by
    rw [GptHeader.tableSectors]
    exact Nat.div_pos (by omega) hpos
  have hap := (overlap_eq_false_iff hts0 (by omega) (by omega) (by omega)).mp hov
  exact ⟨hfl, h2, by omega, hb, by omega, by omega⟩

/-- An entry of the table is read where it stands: the product and the sum fit 64 bits. -/
theorem GptHeader.Ok.entry_lt {h : GptHeader} {g : Geometry} {headerLba i : Nat}
    (hok : h.Ok g headerLba) (hi : i < h.entries) :
    h.table * g.sectorSize + i * h.entrySize < 2 ^ 64 := by
  have h₁ : i * h.entrySize ≤ h.tableBytes := Nat.mul_le_mul_right _ (Nat.le_of_lt hi)
  have h₂ := h.tableBytes_le g.sectorSize_pos
  have h₃ := Nat.mul_le_mul_right g.sectorSize hok.table_le
  rw [Nat.add_mul] at h₃
  have h₄ := g.mul_lt
  omega

/-- The state of the loop over the entries before entry `i`. -/
structure GptInv (d : Disk) (h : GptHeader) (i : Nat) (parts : List PartitionEntry) : Prop where
  ok : PartitionsOk d.geo.sectors parts
  between : ∀ p ∈ parts, h.first ≤ p.start ∧ p.start + p.length ≤ h.last + 1
  sound : ∀ p ∈ parts, ∃ j < i, GptEntryIs d h j p
  complete : ∀ j < i, gptUsed (d.gptEntryAt h j) = true → ∃ p ∈ parts, GptEntryIs d h j p

/-- An unused entry is passed over. -/
theorem GptInv.skip {d : Disk} {h : GptHeader} {i : Nat} {parts : List PartitionEntry}
    (hinv : GptInv d h i parts) (hu : gptUsed (d.gptEntryAt h i) = false) :
    GptInv d h (i + 1) parts where
  ok := hinv.ok
  between := hinv.between
  sound := by
    intro p hp
    obtain ⟨j, hj, he⟩ := hinv.sound p hp
    exact ⟨j, by omega, he⟩
  complete := by
    intro j hj hu'
    rcases Nat.lt_or_ge j i with hlt | hge
    · exact hinv.complete j hlt hu'
    · obtain rfl : j = i := by omega
      rw [hu] at hu'
      cases hu'

/-- A used entry that passes the checks is appended. -/
theorem GptInv.add {d : Disk} {h : GptHeader} {i : Nat} {parts : List PartitionEntry}
    (hinv : GptInv d h i parts) {p : PartitionEntry} (he : GptEntryIs d h i p)
    (hb : h.first ≤ p.start ∧ p.start + p.length ≤ h.last + 1)
    (hok : PartitionsOk d.geo.sectors (parts ++ [p])) : GptInv d h (i + 1) (parts ++ [p]) where
  ok := hok
  between := by
    intro q hq
    rcases List.mem_append.mp hq with hq | hq
    · exact hinv.between q hq
    · rw [List.mem_singleton.mp hq]
      exact hb
  sound := by
    intro q hq
    rcases List.mem_append.mp hq with hq | hq
    · obtain ⟨j, hj, hj'⟩ := hinv.sound q hq
      exact ⟨j, by omega, hj'⟩
    · rw [List.mem_singleton.mp hq]
      exact ⟨i, by omega, he⟩
  complete := by
    intro j hj hu
    rcases Nat.lt_or_ge j i with hlt | hge
    · obtain ⟨q, hq, hq'⟩ := hinv.complete j hlt hu
      exact ⟨q, List.mem_append_left _ hq, hq'⟩
    · obtain rfl : j = i := by omega
      exact ⟨p, by simp, he⟩

/-- Whether an entry is used depends on its type only. -/
theorem gptUsed_congr {b c : Bytes} (h : ∀ i < 16, b i = c i) : gptUsed b = gptUsed c := by
  rw [gptUsed, gptUsed, Bool.eq_iff_iff]
  simp only [List.any_eq_true, List.mem_range]
  constructor
  · rintro ⟨j, hj, hne⟩
    exact ⟨j, hj, h j hj ▸ hne⟩
  · rintro ⟨j, hj, hne⟩
    exact ⟨j, hj, (h j hj).symm ▸ hne⟩

/-- The last partition changed. -/
theorem modify_last (parts : List PartitionEntry) (p : PartitionEntry)
    (f : PartitionEntry → PartitionEntry) :
    (parts ++ [p]).modify ((parts ++ [p]).length - 1) f = parts ++ [f p] := by
  rw [List.length_append, List.length_singleton, Nat.add_sub_cancel]
  induction parts with
  | nil => rfl
  | cons q parts ih => rw [List.cons_append, List.length_cons, List.modify_succ_cons, ih]; rfl

/-- The loop keeps its invariant to the end of the table. -/
theorem gptEntries_returns {h : GptHeader} {headerLba : Nat} {left : Nat} :
    ∀ {d d' : Disk} {i : Nat} {parts parts' : List PartitionEntry},
      h.Ok d.geo headerLba → i + left = h.entries → GptInv d h i parts →
      Io.Returns (gptEntries h d.geo.sectors d.geo.sectorSize left i parts) d parts' d' →
        GptInv d h h.entries parts' := by
  induction left with
  | zero =>
      intro d d' i parts parts' _ hi hinv hr
      obtain ⟨rfl, rfl⟩ := Io.returns_pure.mp hr
      rw [Nat.add_zero] at hi
      exact hi ▸ hinv
  | succ left ih =>
      intro d d' i parts parts' hok hi hinv hr
      simp only [gptEntries, Io.returns_bind, Io.returns_ite, Io.returns_lift] at hr
      obtain ⟨e, d₁, he, hr⟩ := hr
      rw [Nat.mod_eq_of_lt (hok.entry_lt (by omega))] at he
      obtain ⟨hb, hd⟩ := diskBytes_returns he
      -- the rest of the loop runs on the same disk, a command later
      have rest : ∀ {ps : List PartitionEntry}, GptInv d h (i + 1) ps →
          Io.Returns (gptEntries h d.geo.sectors d.geo.sectorSize left (i + 1) ps) d₁ parts' d' →
          GptInv d h h.entries parts' := by
        intro ps hps hr'
        obtain ⟨t, rfl⟩ := hd
        have := ih (d := { d with clock := t }) (i := i + 1) hok (by omega)
          ⟨hps.ok, hps.between, hps.sound, hps.complete⟩ hr'
        exact ⟨this.ok, this.between, this.sound, this.complete⟩
      have heq : ∀ j < 128, e j = d.gptEntryAt h i j := hb
      have hu := gptUsed_congr (b := e) (c := d.gptEntryAt h i) fun j hj => heq j (by omega)
      have h32 : rd64 e 32 = rd64 (d.gptEntryAt h i) 32 :=
        rd64_congr fun j hj => heq _ (by omega)
      have h40 : rd64 e 40 = rd64 (d.gptEntryAt h i) 40 :=
        rd64_congr fun j hj => heq _ (by omega)
      rw [hu, h32, h40] at hr
      rcases hr with ⟨hun, hr⟩ | ⟨hus, ⟨-, hr⟩ | ⟨hab, ps, s₁, ⟨hadd, rfl⟩, hr⟩⟩
      · exact rest (hinv.skip hun) hr
      · exact absurd hr Io.not_returns_fail
      · obtain ⟨hl, hp, hin, hov, rfl⟩ := partitionAdd_ok hadd
        have hlt := rd64_lt (d.gptEntryAt h i) 40
        have hl1 := hok.last_lt
        have hs := d.geo.sectors_lt
        have hlen : (rd64 (d.gptEntryAt h i) 40 - rd64 (d.gptEntryAt h i) 32 + 1) % 2 ^ 64 =
            rd64 (d.gptEntryAt h i) 40 - rd64 (d.gptEntryAt h i) 32 + 1 :=
          Nat.mod_eq_of_lt (by omega)
        rw [modify_last] at hr
        rw [hlen] at hr hl hin hov
        refine rest (hinv.add ⟨Bool.not_eq_false _ ▸ hus, rfl, rfl, ?_⟩ ⟨?_, ?_⟩ ?_) hr
        · dsimp only
          omega
        · dsimp only
          omega
        · dsimp only
          omega
        · refine hinv.ok.add hs hl hp hin hov (fun p hp' => ?_) _
          obtain ⟨j, hj, -, hnum, -, -⟩ := hinv.sound p hp'
          show p.number < i + 1
          omega

/-- The alternate header is inside no partition of the table, as far as the table says. -/
def Disk.AlternateClear (d : Disk) (headerLba : Nat) : Prop :=
  let h := d.gptHeaderAt headerLba
  ∀ i < h.entries, gptUsed (d.gptEntryAt h i) = true →
    ¬ (rd64 (d.gptEntryAt h i) 32 ≤ h.backup ∧ h.backup ≤ rd64 (d.gptEntryAt h i) 40)

/-- What a list of partitions reported by `gpt_parse` has to satisfy. -/
structure GptSound (d : Disk) (headerLba : Nat) (parts : List PartitionEntry) : Prop where
  ok : PartitionsOk d.geo.sectors parts
  between : ∀ p ∈ parts, (d.gptHeaderAt headerLba).first ≤ p.start ∧
    p.start + p.length ≤ (d.gptHeaderAt headerLba).last + 1
  header : ∀ p ∈ parts, ¬ p.Covers headerLba
  alternate : ∀ p ∈ parts, ¬ p.Covers (d.gptHeaderAt headerLba).backup
  table : ∀ p ∈ parts, ∀ k < (d.gptHeaderAt headerLba).tableSectors d.geo.sectorSize,
    ¬ p.Covers ((d.gptHeaderAt headerLba).table + k)

/-- The checksum's loop leaves the disk. -/
theorem gptTableCrc_same {bps table left : Nat} :
    ∀ {d d' : Disk} {i remaining : Nat} {crc crc' : UInt32},
      Io.Returns (gptTableCrc bps table left i crc remaining) d crc' d' → d.Same d' := by
  induction left with
  | zero =>
      intro d d' i remaining crc crc' h
      obtain ⟨-, rfl⟩ := Io.returns_pure.mp h
      exact Disk.Same.refl _
  | succ left ih =>
      intro d d' i remaining crc crc' h
      simp only [gptTableCrc, Io.returns_bind] at h
      obtain ⟨b, d₁, hr, h⟩ := h
      exact (kDiskRead_returns hr).2.1.trans (ih h)

/-- A parse that succeeds went through the header checks and the whole table. -/
theorem gptParse_returns {d d' : Disk} {headerLba : Nat} {parts : List PartitionEntry}
    (h : Io.Returns (gptParse headerLba) d parts d') :
    (d.gptHeaderAt headerLba).Ok d.geo headerLba ∧
      GptInv d (d.gptHeaderAt headerLba) (d.gptHeaderAt headerLba).entries parts := by
  simp only [gptParse, Io.returns_bind, Io.returns_guard] at h
  obtain ⟨d₀, s₀, h₀, sector, d₁, hr, -, hg, crc, d₂, hc, -, he⟩ := h
  cases h₀
  obtain ⟨rfl, hd₁, -⟩ := kDiskRead_returns hr
  have hok := GptHeader.ok_of_geometryOk (Bool.not_eq_false _ ▸ hg)
  refine ⟨hok, ?_⟩
  obtain ⟨t, rfl⟩ := hd₁.trans (gptTableCrc_same hc)
  have hinv := gptEntries_returns (d := { d with clock := t }) (i := 0) hok (Nat.zero_add _)
    ⟨PartitionsOk.nil _, by simp, by simp, by simp⟩ he
  exact ⟨hinv.ok, hinv.between, hinv.sound, hinv.complete⟩

/-- The entries of a table that was accepted decide whether the alternate header is safe. -/
theorem GptInv.alternate_iff {d : Disk} {headerLba : Nat} {parts : List PartitionEntry}
    (hinv : GptInv d (d.gptHeaderAt headerLba) (d.gptHeaderAt headerLba).entries parts) :
    (∀ p ∈ parts, ¬ p.Covers (d.gptHeaderAt headerLba).backup) ↔ d.AlternateClear headerLba := by
  constructor
  · intro h i hi hu hcov
    obtain ⟨p, hp, -, -, hs, hl⟩ := hinv.complete i hi hu
    exact h p hp ⟨by omega, by omega⟩
  · intro h p hp hcov
    obtain ⟨i, hi, hu, -, hs, hl⟩ := hinv.sound p hp
    obtain ⟨h₁, h₂⟩ := hcov
    exact h i hi hu ⟨by omega, by omega⟩

/-- The two positions `k_vfs_mount_disks` passes to `gpt_parse`. -/
def GptLba (d : Disk) (headerLba : Nat) : Prop := headerLba = 1 ∨ headerLba = d.geo.sectors - 1

/-- An accepted table is sound if and only if the alternate header and table are clear of its
partitions. -/
theorem gptSound_iff {d d' : Disk} {headerLba : Nat} {parts : List PartitionEntry}
    (hlba : GptLba d headerLba) (h : Io.Returns (gptParse headerLba) d parts d') :
    GptSound d headerLba parts ↔ d.AlternateClear headerLba := by
  obtain ⟨hok, hinv⟩ := gptParse_returns h
  constructor
  · intro hs
    exact hinv.alternate_iff.mp hs.alternate
  · intro hc
    have h₁ := hok.two_le
    have h₂ := hok.last_lt
    refine ⟨hinv.ok, hinv.between, fun p hp hcov => ?_, hinv.alternate_iff.mpr hc,
      fun p hp k hk hcov => ?_⟩
    · -- the header is below `first` or above `last`
      obtain ⟨hb₁, hb₂⟩ := hinv.between p hp
      obtain ⟨hc₁, hc₂⟩ := hcov
      rcases hlba with rfl | rfl <;> omega
    · obtain ⟨hb₁, hb₂⟩ := hinv.between p hp
      obtain ⟨hc₁, hc₂⟩ := hcov
      rcases hok.table_apart with e | e <;> omega

/-! ### MBR -/

/-- An entry of sector 0 names the extended container `[base, base + length)`. -/
def ExtendedContainer (mbr : Bytes) (base length : Nat) : Prop :=
  ∃ i < 4, extendedType (mbr (446 + 16 * i + 4)) = true ∧ length ≠ 0 ∧
    base = rd32 mbr (446 + 16 * i + 8) ∧ length = rd32 mbr (446 + 16 * i + 12)

/-- The extended boot record at `e` has a link, and it leads to `e'`. -/
def Disk.EbrLink (d : Disk) (base e e' : Nat) : Prop :=
  d.span e 1 (462 + 4) ≠ 0 ∧ e' = base + rd32 (d.span e 1) (462 + 8)

/-- The extended boot records a walk from `base` on comes to. -/
inductive EbrVisited (d : Disk) (base : Nat) : Nat → Prop where
  | root : EbrVisited d base base
  | next {e e' : Nat} (h : EbrVisited d base e) (hl : d.EbrLink base e e') : EbrVisited d base e'

/-- Primary partitions are numbered from 1 to 4, logical ones from 5 on. -/
def PartitionEntry.Logical (p : PartitionEntry) : Prop := 4 < p.number

/-- What a list of partitions reported by `mbr_parse` has to satisfy. -/
structure MbrSound (d : Disk) (mbr : Bytes) (parts : List PartitionEntry) : Prop where
  ok : PartitionsOk d.geo.sectors parts
  logical : ∀ p ∈ parts, p.Logical → ∃ base length, ExtendedContainer mbr base length ∧
    base ≤ p.start ∧ p.start + p.length ≤ base + length
  primary : ∀ p ∈ parts, ¬ p.Logical → ∀ base length, ExtendedContainer mbr base length →
    p.start + p.length ≤ base ∨ base + length ≤ p.start
  ebr : ∀ p ∈ parts, ∀ base length e, ExtendedContainer mbr base length →
    EbrVisited d base e → ¬ p.Covers e

/-- The state of the loop over the primary entries before entry `i`. -/
structure PrimaryInv (mbr : Bytes) (sectors i : Nat) (parts : List PartitionEntry)
    (extBase extLength : Nat) : Prop where
  ok : PartitionsOk sectors parts
  number : ∀ p ∈ parts, p.number ≤ i
  inside : extLength ≠ 0 → 0 < extBase ∧ extBase + extLength ≤ sectors
  named : extLength ≠ 0 → ∃ j < i, extendedType (mbr (446 + 16 * j + 4)) = true ∧
    extBase = rd32 mbr (446 + 16 * j + 8) ∧ extLength = rd32 mbr (446 + 16 * j + 12)
  only : ∀ j < i, extendedType (mbr (446 + 16 * j + 4)) = true →
    rd32 mbr (446 + 16 * j + 12) ≠ 0 →
      extBase = rd32 mbr (446 + 16 * j + 8) ∧ extLength = rd32 mbr (446 + 16 * j + 12)

/-- An entry that is skipped keeps the invariant. -/
theorem PrimaryInv.skip {mbr : Bytes} {sectors i extBase extLength : Nat}
    {parts : List PartitionEntry} (hinv : PrimaryInv mbr sectors i parts extBase extLength)
    (h : extendedType (mbr (446 + 16 * i + 4)) = true → rd32 mbr (446 + 16 * i + 12) = 0) :
    PrimaryInv mbr sectors (i + 1) parts extBase extLength where
  ok := hinv.ok
  number := fun p hp => (hinv.number p hp).trans (Nat.le_succ i)
  inside := hinv.inside
  named := by
    intro he
    obtain ⟨j, hj, hj'⟩ := hinv.named he
    exact ⟨j, by omega, hj'⟩
  only := by
    intro j hj ht hl
    rcases Nat.lt_or_ge j i with hlt | hge
    · exact hinv.only j hlt ht hl
    · obtain rfl : j = i := by omega
      exact absurd (h ht) hl

/-- The first extended entry becomes the container. -/
theorem PrimaryInv.container {mbr : Bytes} {sectors i extBase : Nat} {parts : List PartitionEntry}
    (hinv : PrimaryInv mbr sectors i parts extBase 0)
    (ht : extendedType (mbr (446 + 16 * i + 4)) = true)
    (hs : 0 < rd32 mbr (446 + 16 * i + 8))
    (hin : rd32 mbr (446 + 16 * i + 8) + rd32 mbr (446 + 16 * i + 12) ≤ sectors) :
    PrimaryInv mbr sectors (i + 1) parts (rd32 mbr (446 + 16 * i + 8))
      (rd32 mbr (446 + 16 * i + 12)) where
  ok := hinv.ok
  number := fun p hp => (hinv.number p hp).trans (Nat.le_succ i)
  inside := fun _ => ⟨hs, hin⟩
  named := fun _ => ⟨i, Nat.lt_succ_self i, ht, rfl, rfl⟩
  only := by
    intro j hj ht' hl
    rcases Nat.lt_or_ge j i with hlt | hge
    · exact absurd (hinv.only j hlt ht' hl).2.symm hl
    · obtain rfl : j = i := by omega
      exact ⟨rfl, rfl⟩

theorem PrimaryInv.add {mbr : Bytes} {sectors i extBase extLength start length : Nat}
    {parts parts' : List PartitionEntry} (hs : sectors < 2 ^ 64)
    (hinv : PrimaryInv mbr sectors i parts extBase extLength)
    (ht : extendedType (mbr (446 + 16 * i + 4)) = false)
    (hadd : partitionAdd parts start length (i + 1) sectors = .ok parts') :
    PrimaryInv mbr sectors (i + 1) parts' extBase extLength := by
  have hskip := hinv.skip fun h => by rw [ht] at h; cases h
  obtain ⟨hl, hp, hin, hov, rfl⟩ := partitionAdd_ok hadd
  refine ⟨?_, fun p hp' => ?_, hskip.inside, hskip.named, hskip.only⟩
  · exact hinv.ok.add hs hl hp hin hov (fun p hp' => Nat.lt_succ_of_le (hinv.number p hp')) _
  · rcases List.mem_append.mp hp' with h | h
    · exact hskip.number p h
    · rw [List.mem_singleton.mp h]

/-- The loop over the primary entries keeps it. -/
theorem mbrPrimaries_ok {mbr : Bytes} {sectors left : Nat} (hs : sectors < 2 ^ 64) :
    ∀ {i extBase extLength extBase' extLength' : Nat} {parts parts' : List PartitionEntry},
      PrimaryInv mbr sectors i parts extBase extLength →
      mbrPrimaries mbr sectors left i parts extBase extLength =
        .ok (parts', extBase', extLength') →
      PrimaryInv mbr sectors (i + left) parts' extBase' extLength' := by
  induction left with
  | zero =>
      intro i extBase extLength extBase' extLength' parts parts' hinv h
      cases h
      exact hinv
  | succ left ih =>
      intro i extBase extLength extBase' extLength' parts parts' hinv h
      rw [show i + (left + 1) = i + 1 + left by omega]
      simp only [mbrPrimaries] at h
      split at h
      · rename_i h0
        refine ih (hinv.skip fun ht => ?_) h
        rcases h0 with h0 | h0
        · rw [h0] at ht
          cases ht
        · exact h0
      · rename_i h0
        split at h
        · cases h
        · split at h
          · cases h
          · rename_i hr
            split at h
            · rename_i ht
              split at h
              · cases h
              · rename_i hz
                obtain rfl : extLength = 0 := Decidable.not_not.mp hz
                exact ih (hinv.container ht (by omega) (by omega)) h
            · rename_i ht
              split at h
              · cases h
              · rename_i hadd
                exact ih (hinv.add hs (Bool.not_eq_true _ ▸ ht) hadd) h

/-- The state of the walk before the record at `ebr`. -/
structure EbrInv (d : Disk) (base length ebr : Nat) (seen : List Nat)
    (parts : List PartitionEntry) : Prop where
  ok : PartitionsOk d.geo.sectors parts
  number : ∀ p ∈ parts, p.number ≤ 4 + seen.length
  logical : ∀ p ∈ parts, p.Logical → base ≤ p.start ∧ p.start + p.length ≤ base + length
  primary : ∀ p ∈ parts, ¬ p.Logical → p.start + p.length ≤ base ∨ base + length ≤ p.start
  seen_inside : ∀ e ∈ seen, e < base + length
  root : base ∈ seen ∨ base = ebr
  links : ∀ e ∈ seen, ∀ e', d.EbrLink base e e' → e' ∈ seen ∨ e' = ebr

/-- The record at `ebr` adds at most one logical partition, inside the container. -/
theorem EbrInv.record {d : Disk} {base length ebr : Nat} {seen : List Nat}
    {parts parts' : List PartitionEntry} (hinv : EbrInv d base length ebr seen parts)
    (hlo : base ≤ ebr) (hhi : ebr < base + length)
    (hadd : ebrLogical (d.span ebr 1) ebr base length (seen ++ [ebr]).length d.geo.sectors parts =
      .ok parts') :
    PartitionsOk d.geo.sectors parts' ∧
      (∀ p ∈ parts', p.number ≤ 4 + (seen ++ [ebr]).length) ∧
      (∀ p ∈ parts', p.Logical → base ≤ p.start ∧ p.start + p.length ≤ base + length) ∧
      (∀ p ∈ parts', ¬ p.Logical → p.start + p.length ≤ base ∨ base + length ≤ p.start) := by
  have hlen : (seen ++ [ebr]).length = seen.length + 1 := by simp
  have hnum : ∀ p ∈ parts, p.number ≤ 4 + (seen ++ [ebr]).length := by
    intro p hp
    have := hinv.number p hp
    omega
  simp only [ebrLogical] at hadd
  split at hadd
  · split at hadd
    · cases hadd
    · rename_i hr
      obtain ⟨hl, hp, hin, hov, rfl⟩ := partitionAdd_ok hadd
      refine ⟨?_, fun p hp' => ?_, fun p hp' hlog => ?_, fun p hp' hlog => ?_⟩
      · refine hinv.ok.add d.geo.sectors_lt hl hp hin hov (fun p hp' => ?_) _
        have := hinv.number p hp'
        omega
      · rcases List.mem_append.mp hp' with h | h
        · exact hnum p h
        · rw [List.mem_singleton.mp h]
      · rcases List.mem_append.mp hp' with h | h
        · exact hinv.logical p h hlog
        · rw [List.mem_singleton.mp h]
          dsimp only
          omega
      · rcases List.mem_append.mp hp' with h | h
        · exact hinv.primary p h hlog
        · rw [List.mem_singleton.mp h] at hlog
          simp only [PartitionEntry.Logical] at hlog
          omega
  · cases hadd
    exact ⟨hinv.ok, hnum, hinv.logical, hinv.primary⟩

/-- What holds of the walk when it ends. -/
structure EbrDone (d : Disk) (base length : Nat) (seen : List Nat)
    (parts : List PartitionEntry) : Prop where
  ok : PartitionsOk d.geo.sectors parts
  logical : ∀ p ∈ parts, p.Logical → base ≤ p.start ∧ p.start + p.length ≤ base + length
  primary : ∀ p ∈ parts, ¬ p.Logical → p.start + p.length ≤ base ∨ base + length ≤ p.start
  seen_inside : ∀ e ∈ seen, e < base + length
  visited : ∀ e, EbrVisited d base e → e ∈ seen

/-- The loop over the chain of extended boot records. -/
theorem ebrChain_returns {base length left : Nat} :
    ∀ {d d' : Disk} {ebr : Nat} {seen seen' : List Nat} {parts parts' : List PartitionEntry},
      EbrInv d base length ebr seen parts →
      Io.Returns (ebrChain base length d.geo.sectors left ebr seen parts) d (seen', parts') d' →
        EbrDone d base length seen' parts' := by
  induction left with
  | zero =>
      intro d d' ebr seen seen' parts parts' _ h
      exact absurd h Io.not_returns_fail
  | succ left ih =>
      intro d d' ebr seen seen' parts parts' hinv h
      simp only [ebrChain, Io.returns_bind, Io.returns_lift, Io.returns_ite, Io.not_returns_fail,
        and_false, false_or] at h
      obtain ⟨hb, -, b, d₁, hr, -, ps, d₂, ⟨hadd, rfl⟩, h⟩ := h
      obtain ⟨rfl, hd, -⟩ := kDiskRead_returns hr
      obtain ⟨hok, hnum, hlog, hpri⟩ := hinv.record (by omega) (by omega) hadd
      have hin : ∀ e ∈ seen ++ [ebr], e < base + length := by
        intro e he
        rcases List.mem_append.mp he with he | he
        · exact hinv.seen_inside e he
        · rw [List.mem_singleton.mp he]
          omega
      have hroot : base ∈ seen ++ [ebr] := by
        rcases hinv.root with h | h
        · exact List.mem_append_left _ h
        · exact List.mem_append_right _ (List.mem_singleton.mpr h)
      -- links of the records before this one lead to a visited record
      have hold : ∀ e ∈ seen, ∀ e', d.EbrLink base e e' → e' ∈ seen ++ [ebr] := by
        intro e he e' hl
        rcases hinv.links e he e' hl with h | h
        · exact List.mem_append_left _ h
        · exact List.mem_append_right _ (List.mem_singleton.mpr h)
      rcases h with ⟨hend, h⟩ | ⟨-, -, -, h⟩
      · obtain ⟨hp, rfl⟩ := Io.returns_pure.mp h
        cases hp
        refine ⟨hok, hlog, hpri, hin, fun e he => ?_⟩
        induction he with
        | root => exact hroot
        | next _ hl ihe =>
            rcases List.mem_append.mp ihe with h | h
            · exact hold _ h _ hl
            · rw [List.mem_singleton.mp h] at hl
              exact absurd hend hl.1
      · obtain ⟨t, rfl⟩ := hd
        have hdone := ih (d := { d with clock := t })
          ⟨hok, hnum, hlog, hpri, hin, Or.inl hroot, ?_⟩ h
        · refine ⟨hdone.ok, hdone.logical, hdone.primary, hdone.seen_inside, fun e he => ?_⟩
          refine hdone.visited e ?_
          induction he with
          | root => exact .root
          | next _ hl ihe => exact .next ihe hl
        · intro e he e' hl
          rcases List.mem_append.mp he with he | he
          · exact Or.inl (hold e he e' hl)
          · rw [List.mem_singleton.mp he] at hl
            exact Or.inr hl.2

/-- What `mbr_parse` returns is sound. -/
theorem mbrSound_of_returns {d d' : Disk} {mbr : Bytes} {parts : List PartitionEntry}
    (h : Io.Returns (mbrParse mbr) d parts d') : MbrSound d mbr parts := by
  simp only [mbrParse, Io.returns_bind, Io.returns_lift, Io.returns_guard] at h
  obtain ⟨d₀, s₀, h₀, ⟨ps, base, length⟩, s₁, ⟨hpri, rfl⟩, hout, ⟨seen, ps'⟩, d₁, hch, hseen, h⟩ :=
    h
  cases h₀
  obtain ⟨rfl, rfl⟩ := Io.returns_pure.mp h
  dsimp only at hout hch hseen
  have hs := d.geo.sectors_lt
  obtain ⟨hok, hnum, hin, hnamed, honly⟩ := mbrPrimaries_ok hs
    (⟨PartitionsOk.nil _, by simp, by simp, by simp, by simp⟩ : PrimaryInv mbr _ 0 [] 0 0) hpri
  have hcont : ∀ {b l}, ExtendedContainer mbr b l → b = base ∧ l = length := by
    rintro b l ⟨i, hi, ht, hl, rfl, rfl⟩
    obtain ⟨h₁, h₂⟩ := honly i (by omega) ht hl
    exact ⟨h₁.symm, h₂.symm⟩
  rcases Io.returns_ite.mp hch with ⟨hz, hch⟩ | ⟨hnz, hch⟩
  · -- no container: the primaries are all there is
    obtain ⟨hp, rfl⟩ := Io.returns_pure.mp hch
    cases hp
    have hno : ∀ {b l}, ¬ ExtendedContainer mbr b l := by
      intro b l hc
      obtain ⟨-, hl⟩ := hcont hc
      obtain ⟨-, -, -, hl', -⟩ := hc
      exact hl' (hl.trans hz)
    refine ⟨hok, fun p hp hlog => ?_, fun p _ _ b l hc => absurd hc hno,
      fun p _ b l e hc => absurd hc hno⟩
    have := hnum p hp
    simp only [PartitionEntry.Logical] at hlog
    omega
  · obtain ⟨hb, hbl⟩ := hin hnz
    -- the primaries lie outside the container, and the walk stays in it
    have hprim : ∀ p ∈ ps, p.start + p.length ≤ base ∨ base + length ≤ p.start := by
      intro p hp
      have hov : overlap base length p.start p.length = false := by
        by_contra hne
        exact hout ⟨hnz, List.any_eq_true.mpr ⟨p, hp, Bool.not_eq_false _ ▸ hne⟩⟩
      have hi := hok.inside p hp
      have := (overlap_eq_false_iff (by omega) (hok.nonempty p hp) (by omega) (by omega)).mp hov
      exact this.symm
    have hdone := ebrChain_returns (d := d)
      ⟨hok, fun p hp => (hnum p hp).trans (by simp), fun p hp hlog => ?_, fun p hp _ => hprim p hp,
        by simp, Or.inr rfl, by simp⟩ hch
    · obtain ⟨j, hj, ht, hb', hl'⟩ := hnamed hnz
      refine ⟨hdone.ok, fun p hp hlog => ?_, fun p hp hlog b l hc => ?_,
        fun p hp b l e hc he hcov => ?_⟩
      · exact ⟨base, length, ⟨j, hj, ht, hnz, hb', hl'⟩, hdone.logical p hp hlog⟩
      · obtain ⟨rfl, rfl⟩ := hcont hc
        exact hdone.primary p hp hlog
      · obtain ⟨rfl, rfl⟩ := hcont hc
        have hmem := hdone.visited e he
        have hlt := hdone.seen_inside e hmem
        have hi := hdone.ok.inside p hp
        have hov : overlap e 1 p.start p.length = false := by
          by_contra hne
          refine hseen (List.any_eq_true.mpr ⟨e, hmem, List.any_eq_true.mpr ⟨p, hp, ?_⟩⟩)
          exact Bool.not_eq_false _ ▸ hne
        obtain ⟨h₁, h₂⟩ := hcov
        rcases (overlap_eq_false_iff (by omega) (hdone.ok.nonempty p hp) (by omega)
          (by omega)).mp hov with h | h <;> omega
    · have := hnum p hp
      simp only [PartitionEntry.Logical] at hlog
      omega

/-! ### Both parsers end -/

/-- The checksum reads each sector of the table once. -/
theorem gptTableCrc_within {bps table left : Nat} :
    ∀ (i remaining : Nat) (crc : UInt32),
      Within left (gptTableCrc bps table left i crc remaining) := by
  induction left with
  | zero =>
      intro i remaining crc
      exact Within.pure crc
  | succ left ih =>
      intro i remaining crc
      rw [gptTableCrc, Nat.add_comm]
      exact (kDiskRead_within _ _ _).bind fun b => ih _ _ _

/-- The entries are at most 128 reads each. -/
theorem gptEntries_within {h : GptHeader} {sectors bps left : Nat} :
    ∀ (i : Nat) (parts : List PartitionEntry),
      Within (left * 128) (gptEntries h sectors bps left i parts) := by
  induction left with
  | zero =>
      intro i parts
      exact Within.pure parts
  | succ left ih =>
      intro i parts
      rw [Nat.succ_mul, Nat.add_comm]
      refine (diskBytes_within _ _).bind fun entry => ?_
      refine Within.ite (fun _ => ih _ _) fun _ => Within.ite (fun _ => Within.fail _) fun _ => ?_
      rw [← Nat.zero_add (left * 128)]
      exact (Within.lift _).bind fun parts => ih _ _

/-- The bounds on the number and the size of the entries bound the work. -/
theorem GptHeader.bounds {h : GptHeader} {g : Geometry} {headerLba : Nat}
    (hg : h.geometryOk g.sectors g.sectorSize headerLba = true) :
    h.entries ≤ 4096 ∧ h.tableSectors g.sectorSize ≤ 8193 := by
  simp only [GptHeader.geometryOk, Bool.not_eq_true', Bool.or_eq_false_iff, decide_eq_false_iff_not,
    Nat.not_le, Nat.not_lt, beq_eq_false_iff_ne, bne_eq_false_iff_eq] at hg
  obtain ⟨⟨⟨⟨⟨⟨⟨⟨⟨⟨-, he⟩, -⟩, hs⟩, -⟩, -⟩, -⟩, -⟩, -⟩, -⟩, -⟩ := hg
  refine ⟨he, ?_⟩
  have h₁ : h.tableBytes ≤ 4096 * 1024 := Nat.mul_le_mul he hs
  have h₂ := g.sectorSize_min
  refine Nat.div_le_of_le_mul ?_
  omega

/-- A bound on the disk commands of `gpt_parse`. -/
theorem gptParse_within (headerLba : Nat) : Within (2 ^ 20) (gptParse headerLba) := by
  refine Within.bind_get fun d => ?_
  have h : Within (1 + (8193 + 4096 * 128)) (do
      let sector ← kDiskRead headerLba 1 4096
      if GptHeader.signatureOk sector d.geo.sectorSize headerLba = false then Io.fail .einval
      else
        let h := gptHeader sector
        if h.geometryOk d.geo.sectors d.geo.sectorSize headerLba = false then Io.fail .einval
        else do
          let crc ← gptTableCrc d.geo.sectorSize h.table (h.tableSectors d.geo.sectorSize) 0
            0xffffffff h.tableBytes
          if (crc ^^^ 0xffffffff).toNat ≠ h.wanted then Io.fail .einval
          else gptEntries h d.geo.sectors d.geo.sectorSize h.entries 0 []) := by
    refine (kDiskRead_within _ _ _).bind fun sector =>
      Within.ite (fun _ => Within.fail _) fun _ => ?_
    refine Within.ite (fun _ => Within.fail _) fun hg => ?_
    obtain ⟨he, ht⟩ := GptHeader.bounds (Bool.not_eq_false _ ▸ hg)
    refine Within.bind ((gptTableCrc_within _ _ _).mono ht) fun crc => ?_
    refine Within.ite (fun _ => Within.fail _) fun _ => ?_
    exact (gptEntries_within _ _).mono (Nat.mul_le_mul_right _ he)
  exact (h.mono (by decide)) d

/-- Cyclic and self-referential chains included: a record is read once at most. -/
theorem ebrChain_within {base length sectors left : Nat} :
    ∀ (ebr : Nat) (seen : List Nat) (parts : List PartitionEntry),
      Within left (ebrChain base length sectors left ebr seen parts) := by
  induction left with
  | zero =>
      intro ebr seen parts
      exact Within.fail _
  | succ left ih =>
      intro ebr seen parts
      refine Within.ite (fun _ => Within.fail _) fun _ =>
        Within.ite (fun _ => Within.fail _) fun _ => ?_
      rw [Nat.add_comm]
      refine (kDiskRead_within _ _ _).bind fun sector =>
        Within.ite (fun _ => Within.fail _) fun _ => ?_
      rw [← Nat.zero_add left]
      refine (Within.lift _).bind fun parts => Within.ite (fun _ => Within.pure _) fun _ => ?_
      refine Within.ite (fun _ => Within.fail _) fun _ =>
        Within.ite (fun _ => Within.fail _) fun _ => ?_
      rw [Nat.zero_add]
      exact ih _ _ _

theorem mbrParse_within (mbr : Bytes) : Within 124 (mbrParse mbr) := by
  refine Within.bind_get fun d => ?_
  have hwalk : ∀ base length sectors parts, Within 124 (ebrWalk base length sectors parts) := by
    intro base length sectors parts
    exact Within.ite (fun _ => Within.pure _) fun _ => ebrChain_within _ _ _
  refine Within.bind (m := 0) (n := 124) (Within.lift _) (fun r => ?_) d
  refine Within.ite (fun _ => Within.fail _) fun _ => ?_
  refine Within.bind (m := 124) (n := 0) (hwalk _ _ _ _) fun r' => ?_
  exact Within.ite (fun _ => Within.fail _) fun _ => Within.pure _

/-! ### Soundness of partition parsing -/

/-- **Partition parsing is sound exactly where no partition covers the alternate header.**  A list
`mbr_parse` accepts is sound, a list `gpt_parse` accepts is sound if and only if no used entry
of the table covers the alternate header, and both parsers end after a bounded number of
commands on every disk. -/
theorem partition_parsing_sound_iff (d : Disk) (headerLba : Nat) (mbr : Bytes)
    (hlba : GptLba d headerLba) :
    (∀ parts d', Io.Returns (gptParse headerLba) d parts d' →
      (GptSound d headerLba parts ↔ d.AlternateClear headerLba)) ∧
    (∀ parts d', Io.Returns (mbrParse mbr) d parts d' → MbrSound d mbr parts) ∧
    (gptParse headerLba d).2.clock ≤ d.clock + 2 ^ 20 ∧
    (mbrParse mbr d).2.clock ≤ d.clock + 124 := by
  refine ⟨fun parts d' h => gptSound_iff hlba h, fun parts d' h => mbrSound_of_returns h, ?_, ?_⟩
  · exact gptParse_within headerLba d
  · exact mbrParse_within mbr d

/-- The header at sector 1 of `alternateDisk`: alternate header 40, usable sectors 3 to 62, one
entry of 128 bytes at sector 2. -/
def alternateHeader : List UInt8 :=
  [69, 70, 73, 32, 80, 65, 82, 84, 0, 0, 1, 0, 92, 0, 0, 0, 212, 243, 47, 61, 0, 0, 0, 0,
    1, 0, 0, 0, 0, 0, 0, 0, 40, 0, 0, 0, 0, 0, 0, 0, 3, 0, 0, 0, 0, 0, 0, 0,
    62, 0, 0, 0, 0, 0, 0, 0, 0, 0, 0, 0, 0, 0, 0, 0, 0, 0, 0, 0, 0, 0, 0, 0,
    2, 0, 0, 0, 0, 0, 0, 0, 1, 0, 0, 0, 128, 0, 0, 0, 245, 69, 36, 241]

/-- A disk of 64 sectors whose only partition, from sector 10 to sector 50, covers the alternate
header its table names. -/
def alternateDisk : Disk where
  geo := ⟨512, 64, by decide, by decide, by decide, by decide, by decide⟩
  online := true
  ram := true
  image := fun i =>
    if i < 512 then 0
    else if i < 1024 then alternateHeader.getD (i - 512) 0
    else if i = 1024 then 1
    else if i = 1056 then 10
    else if i = 1064 then 50
    else 0
  outcome := fun _ => none
  clock := 0

/-- A table whose partition covers the alternate header is accepted. -/
theorem gptParse_alternateDisk :
    ∃ d', Io.Returns (gptParse 1) alternateDisk [⟨10, 41, 1, false⟩] d' := by
  have h : (gptParse 1 alternateDisk).1 = .ok [⟨10, 41, 1, false⟩] := by decide +kernel
  exact Io.exists_returns h

theorem partition_covers_alternate :
    ¬ ∀ (d d' : Disk) (headerLba : Nat) (parts : List PartitionEntry), GptLba d headerLba →
      Io.Returns (gptParse headerLba) d parts d' → GptSound d headerLba parts := by
  intro h
  obtain ⟨d', hd'⟩ := gptParse_alternateDisk
  have hs := h alternateDisk d' 1 _ (Or.inl rfl) hd'
  refine hs.alternate ⟨10, 41, 1, false⟩ (List.mem_singleton.mpr rfl) ?_
  have hb : (alternateDisk.gptHeaderAt 1).backup = 40 := by decide +kernel
  rw [hb]
  exact ⟨by decide, by decide⟩

theorem partition_parsing_alternateDisk :
    ¬ alternateDisk.AlternateClear 1 ∧
      ¬ GptSound alternateDisk 1 [⟨10, 41, 1, false⟩] := by
  have hc : ¬ alternateDisk.AlternateClear 1 := by
    intro h
    exact h 0 (by decide +kernel) (by decide +kernel) (by decide +kernel)
  obtain ⟨d', hd'⟩ := gptParse_alternateDisk
  refine ⟨hc, fun hs => hc ?_⟩
  exact ((partition_parsing_sound_iff alternateDisk 1 (fun _ => 0) (Or.inl rfl)).1 _ d' hd').mp hs

end Efishell
