import Efishell.Kernel.RiefSound

/-!
# Kernel — images that load

The other direction of the checks, for images without imports whose relocations are absolute.  The
soundness of the load does not rest on it: it says that the checks refuse no image of this kind.

Main results:

* `riefCheck_accepts`: such an image, when it is well formed, passes every check.
* `rief_load_plain`: nothing but a failing `k_as_alloc` stops its load.
* `Loaded.export_named`: after the load `k_rief_export` finds each of its exports by name.
-/

namespace Efishell

/-- An image without imports, whose relocations are addresses of places in it. -/
structure RiefImage.Plain (im : RiefImage) : Prop extends im.WellFormed where
  size : 96 ≤ im.size ∧ im.size ≤ 64 * 1024 * 1024
  tables : riefTablesOk im.size 0 [] im.header.tables = true
  imports : im.header.importCount = 0
  absolute : ∀ i < im.header.relocCount,
    (im.reloc i).type = riefRelocAbs64 ∧ (im.reloc i).addend = 0 ∧ (im.reloc i).reserved = 0
  exports : ∀ i < im.header.exportCount, (im.export_ i).region < im.header.regionCount ∧
    (im.export_ i).offset < (im.region (im.export_ i).region).memorySize ∧
    ∃ n, im.NameAt (im.export_ i).nameOffset n
  distinct : ∀ i j, i < j → j < im.header.exportCount → ∀ n, im.NameAt (im.export_ j).nameOffset n →
    ∃ k ≤ n, im.bytes (im.header.stringTableOffset + (im.export_ j).nameOffset + k) ≠
      im.bytes (im.header.stringTableOffset + (im.export_ i).nameOffset + k)

variable {im : RiefImage} {p : Process}

/-! ### Names -/

theorem RiefImage.NameAt.ne_zero {off n k : Nat} (h : im.NameAt off n) (hk : k < n) :
    im.bytes (im.header.stringTableOffset + off + k) ≠ 0 := by
  intro hz
  have := (h.printable k hk).1
  rw [hz] at this
  exact absurd this (by decide)

/-- A name ends in one place. -/
theorem RiefImage.NameAt.unique {off n n' : Nat} (h : im.NameAt off n) (h' : im.NameAt off n') :
    n = n' := by
  rcases Nat.lt_trichotomy n n' with hlt | rfl | hlt
  · exact absurd h.ends (h'.ne_zero hlt)
  · rfl
  · exact absurd h'.ends (h.ne_zero hlt)

/-- A printable name that ends in the table is read. -/
theorem riefStringFrom_returns {off n : Nat} (h : im.NameAt off n)
    (ht : im.header.stringTableOffset + im.header.stringTableSize ≤ im.size) (left : Nat) :
    ∀ {i : Nat} {out : Bytes}, i ≤ n → n < i + left →
    (riefStringFrom im im.header.stringTableOffset im.header.stringTableSize off left i out).1 = .ok
    () := by
  have hin := h.inside
  induction left with
  | zero =>
      intro i out hi hn
      omega
  | succ left ih =>
      intro i out hi hn
      rw [riefStringFrom, if_neg (by omega), if_neg (by omega)]
      dsimp only
      rcases Nat.lt_or_eq_of_le hi with hlt | rfl
      · have hp := h.printable i hlt
        rw [if_neg (h.ne_zero hlt), if_neg (by simp [not_or, UInt8.not_lt, hp])]
        exact ih hlt (by omega)
      · rw [if_pos h.ends, if_neg (Nat.ne_of_gt h.pos)]

/-- `rief_string` takes a name. -/
theorem riefString_returns {off n : Nat} (h : im.NameAt off n)
    (ht : im.header.stringTableOffset + im.header.stringTableSize ≤ im.size) (out : Bytes) :
    (riefString im off out).1 = .ok () := by
  have hin := h.inside
  have hlt := h.lt
  rw [riefString, if_neg (by omega)]
  exact riefStringFrom_returns h ht 128 (Nat.zero_le n) (by omega)

/-- Names that are compared equal are the same characters. -/
theorem RiefImage.Named.same {off off' n n' : Nat} {a b : Bytes} (h : im.Named off n a)
    (h' : im.Named off' n' b)
    (he : strEq a b = true) : ∀ k ≤ n, im.bytes (im.header.stringTableOffset + off + k) =
      im.bytes (im.header.stringTableOffset + off' + k) := by
  have hsame := (strEq_iff h).mp he
  have hle : n ≤ n' := by
    by_contra hlt
    have hz := (h.copied n' (by omega)).symm.trans ((hsame n' (by omega)).trans
      ((h'.copied n' (Nat.le_refl _)).trans h'.ends))
    exact h.ne_zero (by omega) hz
  intro k hk
  rw [← h.copied k hk, ← h'.copied k (by omega), hsame k hk]

/-- Two copies of a name compare alike. -/
theorem RiefImage.Named.strEq_congr {off n m : Nat} {a b : Bytes} (h : im.Named off n a)
    (h' : im.Named off m b) (c : Bytes) : strEq a c = strEq b c := by
  obtain rfl := h.toNameAt.unique h'.toNameAt
  rw [Bool.eq_iff_iff, strEq_iff h, strEq_iff h']
  refine forall₂_congr fun k hk => ?_
  rw [h.copied k hk, h'.copied k hk]

/-- After a load `k_rief_export` finds a name of the image, whatever stands behind its end. -/
theorem Loaded.export_named {bindings : List RiefBinding} {imports : List Nat} {p' : Process}
    (h : Loaded im bindings imports p p') {i n : Nat} (hi : i < im.header.exportCount)
    {symbol : Bytes} (hs : im.Named (im.export_ i).nameOffset n symbol) :
    kRiefExport p' symbol = .ok (p'.regionBase (im.export_ i).region + (im.export_ i).offset) := by
  obtain ⟨m, hm⟩ := (h.exports i hi).1.name
  have hcongr :
      ∀ j, strEq symbol (p'.exports j).name = strEq (p'.exports i).name (p'.exports j).name :=
    fun j => hs.strEq_congr hm _
  rw [← h.export_found hi, kRiefExport, kRiefExport]
  simp only [hcongr]

/-! ### The loops of the checks -/

/-- More regions need more room. -/
theorem RiefImage.room_mono (im : RiefImage) : Monotone im.room :=
  monotone_nat_of_le_succ fun n => (Nat.le_add_right _ _).trans (Finset.sum_range_succ _ n).ge

/-- The regions of a well-formed image pass. -/
theorem riefRegions_returns (h : im.WellFormed)
    (ht : im.header.regionTableOffset + 32 * im.header.regionCount ≤ im.size) (left : Nat) :
    ∀ {i : Nat},
    i + left = im.header.regionCount →
    Io.Ends (riefRegions im left i (im.room i)) p (fun _ p' => p' = p) fun _ _ => False := by
  induction left with
  | zero => exact fun _ => rfl
  | succ left ih =>
      intro i hi
      have hok := h.regions i (by omega)
      have hsum : im.room i + alignUp 64 (im.region i).memorySize 4096 = im.room (i + 1) :=
        (Finset.sum_range_succ _ i).symm
      have hle : im.room (i + 1) ≤ im.room im.header.regionCount := im.room_mono (by omega)
      have hroom := h.room
      have htables : (im.header.tables.any fun t =>
          overlap (im.region i).fileOffset (im.region i).fileSize t.1 t.2) = false := by
        simpa using fun a b hab => hok.tables (a, b) hab
      have hbefore :
          ((List.range i).any fun j => overlap (im.region i).fileOffset (im.region i).fileSize
          (im.region j).fileOffset (im.region j).fileSize) = false := by
        simpa using hok.before
      rw [riefRegions, RiefImage.inside, if_pos (by omega)]
      simp only [Io.ends_bind, Io.ends_pure, hok.ok, htables, hbefore, hsum, Bool.not_true,
        Bool.false_eq_true, if_false]
      rw [if_neg (by omega)]
      exact ih (by omega)

theorem riefRelocs_returns (ht : im.header.relocTableOffset + 40 * im.header.relocCount ≤ im.size)
    (left : Nat) :
    ∀ {i lastRegion lastEnd : Nat}, i + left = im.header.relocCount →
    (0 < left → riefRelocOk im i lastRegion lastEnd = true) →
    (∀ j, i ≤ j → j + 1 < im.header.relocCount →
      riefRelocOk im (j + 1) (im.reloc j).patchRegion (im.patchEnd j) = true) →
    Io.Ends (riefRelocs im left i lastRegion lastEnd) p (fun _ p' => p' = p) fun _ _ => False := by
  induction left with
  | zero => exact fun _ _ _ => rfl
  | succ left ih =>
      intro i lastRegion lastEnd hi hfirst hnext
      rw [riefRelocs, RiefImage.inside, if_pos (by omega)]
      simp only [Io.ends_bind, Io.ends_pure, hfirst (Nat.succ_pos left), Bool.not_true,
        Bool.false_eq_true, if_false]
      exact ih (by omega) (fun hl => hnext i (Nat.le_refl i) (by omega)) fun j hj =>
        hnext j (by omega)

/-- A relocation of a plain image passes its check. -/
theorem RiefImage.Plain.relocOk (h : im.Plain) {i lastRegion lastEnd : Nat}
    (hi : i < im.header.relocCount)
    (hlast : i ≠ 0 → im.Behind lastRegion lastEnd i) :
    riefRelocOk im i lastRegion lastEnd = true := by
  have hr := h.relocs i hi
  obtain ⟨htype, -, hres⟩ := h.absolute i hi
  have hne : (im.reloc i).type ≠ riefRelocImport64 := by
    rw [htype]
    decide
  have htarget := hr.target hne
  have hin :
      (im.reloc i).patchOffset + (im.reloc i).width ≤ (im.region
        (im.reloc i).patchRegion).memorySize := hr.inside
  have hord : (i != 0 && (decide ((im.reloc i).patchRegion < lastRegion) ||
      (im.reloc i).patchRegion == lastRegion &&
        decide ((im.reloc i).patchOffset < lastEnd))) = false := by
    by_cases h0 : i = 0
    · simp [h0]
    · have := hlast h0
      rw [RiefImage.Behind] at this
      simp only [Bool.and_eq_false_iff, Bool.or_eq_false_iff, decide_eq_false_iff_not,
        beq_eq_false_iff_ne]
      omega
  simp only [riefRelocOk, hres, hr.patch, hord, if_neg hne, htarget.1, htarget.2,
    hr.type.1, hr.type.2,
    spanOk_iff.mpr hin, decide_true, beq_self_eq_true, Bool.not_false, Bool.and_self]

theorem riefExports_returns (h : im.Plain)
    (hs : im.header.stringTableOffset + im.header.stringTableSize ≤ im.size)
    (ht : im.header.exportTableOffset + 16 * im.header.exportCount ≤ im.size) (left : Nat) :
    ∀ {p : Process} {i : Nat}, i + left = im.header.exportCount →
    (∀ k < i, ∃ n, im.Named (im.export_ k).nameOffset n (p.exports k).name) →
    Io.Ends (riefExports im left i) p (fun _ p' => p' = { p with exports := p'.exports })
      fun _ _ => False := by
  induction left with
  | zero => exact fun _ _ => rfl
  | succ left ih =>
      intro p i hi hall
      obtain ⟨hregion, hoffset, n, hname⟩ := h.exports i (by omega)
      have hok := riefString_returns hname hs (p.exports i).name
      obtain ⟨n', hnamed⟩ := RiefImage.riefString_ok hok
      rw [riefExports, RiefImage.inside, if_pos (by omega)]
      simp only [Io.ends_bind, Io.ends_pure]
      rw [if_neg (by omega)]
      simp only [Io.ends_bind, Io.ends_get, Io.ends_modify, Io.ends_lift, hok]
      refine ⟨fun _ _ => ?_, fun _ he => by cases he⟩
      have hnew : ((List.range i).any fun j =>
          strEq (riefString im (im.export_ i).nameOffset (p.exports i).name).2
            (p.exports j).name) = false := by
        simp only [List.any_eq_false, List.mem_range]
        intro j hj he
        obtain ⟨m, hm⟩ := hall j hj
        obtain ⟨k, hk, hne⟩ := h.distinct j i hj (by omega) n' hnamed.toNameAt
        exact hne (hnamed.same hm he k hk)
      rw [hnew, if_neg Bool.false_ne_true]
      refine (ih (by omega) fun k hk => ?_).mono (fun _ p' hp => by rw [hp]) fun _ _ he => he
      rcases Nat.lt_or_eq_of_le (Nat.le_of_lt_succ hk) with hlt | rfl
      · simp only [Function.update_of_ne (Nat.ne_of_lt hlt)]
        exact hall k hlt
      · simp only [Function.update_self]
        exact ⟨n', hnamed⟩

/-- **A plain image passes the checks** of a load into an idle process. -/
theorem riefCheck_accepts (h : im.Plain) (hp : p.used = true ∧ p.loaded = false ∧ p.taskId = 0) :
    Io.Ends (riefCheck im []) p (fun l p' => l = [] ∧ p' = { p with exports := p'.exports })
      fun _ _ => False := by
  have hsize := h.size
  have hin := h.inside
  have hregion :=
    (hin (im.header.regionTableOffset, 32 * im.header.regionCount) (by simp [RiefHeader.tables])).1
  have hreloc :=
    (hin (im.header.relocTableOffset, 40 * im.header.relocCount) (by simp [RiefHeader.tables])).1
  have hexport :=
    (hin (im.header.exportTableOffset, 16 * im.header.exportCount) (by simp [RiefHeader.tables])).1
  have hstring :=
    (hin (im.header.stringTableOffset, im.header.stringTableSize) (by simp [RiefHeader.tables])).1
  have hheader : im.header.headerSize ≤ im.size :=
    (hin (0, im.header.headerSize) (by simp [RiefHeader.tables])).1.trans' (by simp)
  have htail : ∀ left i, 96 ≤ i → i + left ≤ im.header.headerSize →
      Io.Ends (riefHeaderTail im left i) p (fun _ p' => p' = p) fun _ _ => False := by
    intro left
    induction left with
    | zero => exact fun _ _ _ => rfl
    | succ left ih =>
        intro i hi hl
        rw [riefHeaderTail, RiefImage.inside, if_pos (by omega)]
        simp only [Io.ends_bind, Io.ends_pure, h.tail i hi (by omega), ne_eq,
          not_true_eq_false, if_false]
        exact ih (i + 1) (by omega) (by omega)
  have hhead : 96 ≤ im.header.headerSize := by
    have hok := h.header
    simp only [RiefHeader.ok, Bool.and_eq_true, decide_eq_true_eq] at hok
    exact hok.1.1.1.1.1.1.1.1.2
  have hrelocs : ∀ j, j + 1 < im.header.relocCount →
      riefRelocOk im (j + 1) (im.reloc j).patchRegion (im.patchEnd j) = true := fun j hj =>
    h.relocOk hj fun _ => h.sorted j (j + 1) (Nat.lt_succ_self j) hj
  rw [riefCheck]
  simp only [Io.ends_bind, Io.ends_get]
  rw [if_neg (by simp [hp]), if_neg (by omega), RiefImage.inside, if_pos (by omega)]
  simp only [Io.ends_bind, Io.ends_pure, h.header, Bool.not_true, Bool.false_eq_true, if_false]
  refine (htail _ 96 (Nat.le_refl _) (by omega)).mono ?_ fun _ _ he => he
  rintro _ p' rfl
  rw [h.tables]
  simp only [Io.ends_bind, Bool.not_true, Bool.false_eq_true, if_false]
  refine (riefRegions_returns h.toWellFormed hregion im.header.regionCount (Nat.zero_add _)).mono ?_
    fun _ _ he => he
  rintro _ p' rfl
  rw [if_neg (by simp [h.entry.1, h.entry.2]), h.imports]
  simp only [riefImports, Io.ends_bind, Io.ends_pure]
  refine (riefRelocs_returns hreloc im.header.relocCount (Nat.zero_add _)
    (fun hl => h.relocOk hl fun h0 => absurd rfl h0)
    fun j _ hj => hrelocs j hj).mono ?_ fun _ _ he => he
  rintro _ p' rfl
  refine (riefExports_returns h hstring hexport im.header.exportCount (Nat.zero_add _)
    fun k hk => absurd hk (Nat.not_lt_zero k)).mono ?_ fun _ _ he => he
  exact fun _ p' hp' => ⟨trivial, hp'⟩

/-! ### Installation -/

section Install

variable {env : MmuEnv} {s₀ : Phys} {w₀ : Vm} {g₀ g : PageMap}

/-- A relocation of a plain image is applied. -/
theorem riefPatch_plain (h : im.Plain) (h₀ : SpaceInv env s₀ w₀ g₀) {i : Nat}
    (hi : i < im.header.relocCount)
    (hm : Mapped env s₀ im w₀ g₀ im.header.regionCount p.regionBase p.vm g)
    (hsize : ∀ j < im.header.regionCount, p.regionSize j = (im.region j).memorySize) :
    Io.Ends (riefPatch im [] i) p (fun _ _ => True) fun _ _ => False := by
  have hr := h.relocs i hi
  obtain ⟨htype, hadd, -⟩ := h.absolute i hi
  have hne : (im.reloc i).type ≠ riefRelocImport64 := by
    rw [htype]
    decide
  obtain ⟨ht, hoff⟩ := hr.target hne
  have hlow := h₀.base_le_next.trans (hm.placed.low _ ht)
  have hhigh := (hm.placed.high _ ht).trans hm.kept.inv.next_le
  have hspan :
      (im.region (im.reloc i).targetRegion).memorySize ≤ im.span (im.reloc i).targetRegion :=
    RiefImage.span_ge _
  have hsz := hsize _ ht
  have hlim : kUserLimit < 2 ^ 64 := by decide
  have hstart : riefTarget (p.regionBase (im.reloc i).targetRegion + (im.reloc i).targetOffset) 0 =
      some (p.regionBase (im.reloc i).targetRegion + (im.reloc i).targetOffset) := by
    rw [riefTarget, if_pos (Int.le_refl 0), if_neg (by omega)]
    rfl
  have hin : (im.reloc i).patchOffset + (im.reloc i).width ≤ im.span (im.reloc i).patchRegion :=
    hr.inside.trans (RiefImage.span_ge _)
  rw [riefPatch, RiefImage.inside, if_pos (h.reloc_inside hi)]
  simp only [Io.ends_bind, Io.ends_pure, Io.ends_get, if_neg hne, hadd, hstart]
  rw [if_neg (by omega), if_neg (by omega)]
  rw [if_neg (by rw [htype]; simp [riefRelocAbs64, riefRelocRel32])]
  refine Load.onSpace_ends (fun _ _ => trivial) fun e he => ?_
  have hno := (hm.copy_ok h₀ hr.patch hin _).symm.trans he
  cases hno

/-- The relocations of a plain image are applied. -/
theorem riefPatches_plain (hk : KernelOk env s₀) (h : im.Plain) (h₀ : SpaceInv env s₀ w₀ g₀)
    (left : Nat) :
    ∀ {i : Nat} {p : Process} {g : PageMap}, i + left = im.header.relocCount →
    Mapped env s₀ im w₀ g₀ im.header.regionCount p.regionBase p.vm g →
    Shows im (im.patchedByte [] p.regionBase i) im.header.regionCount p.regionBase p.vm →
    (∀ j < im.header.regionCount, p.regionSize j = (im.region j).memorySize) →
    Io.Ends (riefPatches im [] left i) p (fun _ _ => True) fun _ _ => False := by
  induction left with
  | zero => exact fun _ _ _ _ => trivial
  | succ left ih =>
      intro i p g hi hm hs hsize
      have hi' : i < im.header.relocCount := by omega
      refine (((riefPatch_ends hk h.toWellFormed hi' hm hs hsize).and
        (riefPatch_plain h h₀ hi' hm hsize)).mono
        (fun _ _ hq => hq) fun _ _ he => he.2.elim).bind ?_
      rintro _ p₁ ⟨⟨⟨g₁, S, hm₁, -⟩, hs₁, -, hp₁⟩, -⟩
      have hbase : p₁.regionBase = p.regionBase := by rw [hp₁]
      have hsize₁ : p₁.regionSize = p.regionSize := by rw [hp₁]
      rw [← hbase] at hm₁ hs₁
      exact ih (by omega) hm₁ hs₁ (by rwa [hsize₁])

/-- What follows the checks fails for want of memory only. -/
theorem riefInstall_plain (hk : KernelOk env s₀) (h : im.Plain) (h₀ : SpaceInv env s₀ p.vm g₀) :
    Io.Ends (riefInstall env im []) p (fun _ _ => True) fun e _ => im.Starved env p.vm e := by
  have hw := h.toWellFormed
  rw [riefInstall]
  simp only [Io.ends_bind, Io.ends_modify]
  refine (riefMap_ends hk hw h₀ im.header.regionCount (Nat.zero_add _)
    (Mapped.start h₀ im p.regionBase) .refl
    (fun i hi => absurd hi (Nat.not_lt_zero i)) (fun i hi => absurd hi (Nat.not_lt_zero i))).mono ?_
    fun _ _ he => he.2
  rintro _ p₁ ⟨⟨g₁, hm₁⟩, hs₁, hsize₁, -⟩
  rw [Nat.zero_add] at hm₁ hs₁ hsize₁
  refine (riefPatches_plain hk h h₀ im.header.relocCount (Nat.zero_add _) hm₁ hs₁ hsize₁).mono ?_
    fun _ _ he => he.elim
  intro _ p₂ _
  exact (riefPublish_ends hw im.header.exportCount (Nat.zero_add _)).mono (fun _ _ _ => trivial)
    fun _ _ he => he.elim

/-- **Only memory can stop the load of a plain image**: in any space, the load succeeds or
`k_as_alloc` failed for one of the regions. -/
theorem rief_load_plain (hk : KernelOk env s₀) (hc : asCreate env s₀ = some w₀)
    (hr : Run env w₀ p.vm) (h : im.Plain) (hp : p.used = true ∧ p.loaded = false ∧ p.taskId = 0) :
    Io.Ends (riefLoadLocked env im []) p (fun _ _ => True) fun e _ => im.Starved env p.vm e := by
  obtain ⟨g, hinv, -⟩ := hr.inv hk (asCreate_inv hk hc)
  have hcheck := riefCheck_accepts h hp
  rw [Io.Ends] at hcheck
  rw [Io.Ends, riefLoadLocked_run]
  cases hx : riefCheck im [] p with
  | mk r p₁ =>
      rw [hx] at hcheck
      cases r with
      | error e => exact hcheck.elim
      | ok imports =>
          obtain ⟨rfl, hp₁⟩ := hcheck
          have hvm : p₁.vm = p.vm := by rw [hp₁]
          rw [← hvm] at hinv
          have hi := riefInstall_plain hk h hinv
          rw [Io.Ends] at hi
          dsimp only
          cases hy : riefInstall env im [] p₁ with
          | mk r' p₂ =>
              rw [hy] at hi
              cases r' with
              | ok u => trivial
              | error e => exact hvm ▸ hi

end Install

end Efishell
