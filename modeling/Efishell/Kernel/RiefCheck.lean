import Mathlib.Algebra.BigOperators.Intervals
import Efishell.Kernel.Rief

/-!
# Kernel — the checks of a RIEF image

`RiefImage.WellFormed` is what the checks of `rief_load_locked` are for: the tables lie inside the
image and apart, the bytes of the regions lie apart from the tables and from each other, the regions
fit the window together, the places that are patched lie in their regions, in order and apart, and
no two exports have one name.

An image that passes the checks is well formed (`riefCheck_ends`), and no load of any image, well
formed or not, reads outside of it (`rief_load_inside`).

* `riefCheck_ends`: an image that passes the checks is well formed.
* `rief_load_inside`: no load reads outside the image.
-/

namespace Efishell

/-! ### Names -/

/-- The characters from `off` on in the string table are a name of `n` characters. -/
structure RiefImage.NameAt (im : RiefImage) (off n : Nat) : Prop where
  pos : 0 < n
  lt : n < 128
  inside : off + n < im.header.stringTableSize
  printable : ∀ k < n, 33 ≤ im.bytes (im.header.stringTableOffset + off + k) ∧
    im.bytes (im.header.stringTableOffset + off + k) ≤ 126
  ends : im.bytes (im.header.stringTableOffset + off + n) = 0

/-- `out` holds the name of `n` characters from `off` on. -/
structure RiefImage.Named (im : RiefImage) (off n : Nat) (out : Bytes) : Prop extends
    im.NameAt off n where
  copied : ∀ k ≤ n, out k = im.bytes (im.header.stringTableOffset + off + k)

namespace RiefImage

variable {im : RiefImage}

/-- A string the loader accepts is printable and ends in the table, by induction on what is left. -/
theorem riefStringFrom_ok {off : Nat} (left : Nat) : ∀ {i : Nat} {out : Bytes}, i + left = 128 →
    (∀ k < i, 33 ≤ im.bytes (im.header.stringTableOffset + off + k) ∧
      im.bytes (im.header.stringTableOffset + off + k) ≤ 126 ∧
      out k = im.bytes (im.header.stringTableOffset + off + k)) →
    (riefStringFrom im im.header.stringTableOffset im.header.stringTableSize off left i out).1 = .ok
    () →
    ∃ n, im.Named off n
      (riefStringFrom im im.header.stringTableOffset im.header.stringTableSize off
        left i out).2 := by
  induction left with
  | zero =>
      intro i out _ _ h
      cases h
  | succ left ih =>
      intro i out hi hbefore
      rw [riefStringFrom]
      split
      · intro h
        cases h
      · rename_i hsize
        split
        · intro h
          cases h
        · dsimp only
          split
          · rename_i hzero
            split
            · intro h
              cases h
            · rename_i hpos
              intro _
              refine ⟨i, ⟨⟨Nat.pos_of_ne_zero hpos, by omega, by omega,
                fun k hk => ⟨(hbefore k hk).1, (hbefore k hk).2.1⟩, hzero⟩, fun k hk => ?_⟩⟩
              show Function.update out i 0 k = _
              rcases Nat.lt_or_eq_of_le hk with hlt | rfl
              · rw [Function.update_of_ne (by omega)]
                exact (hbefore k hlt).2.2
              · rw [Function.update_self, hzero]
          · split
            · intro h
              cases h
            · rename_i hchar
              simp only [not_or, UInt8.not_lt] at hchar
              refine ih (by omega) fun k hk => ?_
              rcases Nat.lt_or_eq_of_le (Nat.le_of_lt_succ hk) with hlt | rfl
              · rw [Function.update_of_ne (by omega)]
                exact hbefore k hlt
              · rw [Function.update_self]
                exact ⟨hchar.1, hchar.2, rfl⟩

/-- `rief_string` copies a name or fails. -/
theorem riefString_ok {off : Nat} {out : Bytes} (h : (riefString im off out).1 = .ok ()) :
    ∃ n, im.Named off n (riefString im off out).2 := by
  rw [riefString] at h ⊢
  split at h
  · cases h
  · rename_i hsize
    rw [if_neg hsize]
    exact riefStringFrom_ok 128 rfl (fun k hk => absurd hk (Nat.not_lt_zero k)) h

/-- It is read inside the image. -/
theorem riefStringFrom_inside {off : Nat}
    (ht : im.header.stringTableOffset + im.header.stringTableSize ≤ im.size) (left : Nat) :
    ∀ {i : Nat} {out : Bytes},
    (riefStringFrom im im.header.stringTableOffset im.header.stringTableSize off left i out).1 ≠
      .error .outside := by
  induction left with
  | zero =>
      intro i out h
      cases h
  | succ left ih =>
      intro i out
      rw [riefStringFrom]
      split
      · simp
      · rw [if_neg (by omega)]
        dsimp only
        split
        · split <;> simp
        · split
          · simp
          · exact ih

theorem riefString_inside (ht : im.header.stringTableOffset + im.header.stringTableSize ≤ im.size)
    (off : Nat) (out : Bytes) : (riefString im off out).1 ≠ .error .outside := by
  rw [riefString]
  split
  · simp
  · exact riefStringFrom_inside ht 128

end RiefImage

/-- `str_eq` compares up to the end of the strings. -/
theorem strEqFrom_iff {a b : Bytes} (fuel : Nat) : ∀ {i n : Nat}, n < i + fuel →
    i ≤ n → (∀ k, i ≤ k → k < n → a k ≠ 0) → a n = 0 →
    (strEqFrom a b fuel i = true ↔ ∀ k, i ≤ k → k ≤ n → a k = b k) := by
  induction fuel with
  | zero =>
      intro i n hn hi
      omega
  | succ fuel ih =>
      intro i n hn hi hne hend
      have hat : (∀ k, i ≤ k → k ≤ n → a k = b k) → a i = b i := fun h => h i (Nat.le_refl i) hi
      rw [strEqFrom]
      rcases Nat.lt_or_eq_of_le hi with hlt | rfl
      · by_cases hab : a i = b i
        · rw [if_pos ⟨hne i (Nat.le_refl i) hlt, hab⟩,
            ih (i := i + 1) (n := n) (by omega) hlt (fun k hk => hne k (by omega)) hend]
          refine ⟨fun h k hk hkn => ?_, fun h k hk => h k (by omega)⟩
          rcases Nat.lt_or_eq_of_le hk with hlt' | rfl
          · exact h k hlt' hkn
          · exact hab
        · rw [if_neg fun h => hab h.2, beq_iff_eq]
          exact ⟨fun h => absurd h hab, hat⟩
      · rw [if_neg fun h => h.1 hend, beq_iff_eq]
        refine ⟨fun h k hk hkn => ?_, hat⟩
        rw [Nat.le_antisymm hkn hk]
        exact h

/-- `str_eq` compares a name to the end. -/
theorem strEq_iff {im : RiefImage} {off n : Nat} {a b : Bytes} (h : im.Named off n a) :
    strEq a b = true ↔ ∀ k ≤ n, a k = b k := by
  have hends : a n = 0 := (h.copied n (Nat.le_refl n)).trans h.ends
  have hlt := h.lt
  have hne : ∀ k < n, a k ≠ 0 := by
    intro k hk hz
    have hp := (h.printable k hk).1
    rw [← h.copied k (Nat.le_of_lt hk), hz] at hp
    exact absurd hp (by decide)
  rw [strEq, strEqFrom_iff 128 (n := n) (by omega) (Nat.zero_le n) (fun k _ => hne k) hends]
  exact ⟨fun hk k hkn => hk k (Nat.zero_le k) hkn, fun hk k _ hkn => hk k hkn⟩

/-! ### Tables -/

/-- The tables lie inside the image and apart. -/
theorem riefTablesOk_spec {size : Nat} (tables : List (Nat × Nat)) : ∀ {i : Nat}
    {before : List (Nat × Nat)}, riefTablesOk size i before tables = true →
    (∀ t ∈ tables, t.1 + t.2 ≤ size ∧ (t.2 = 0 → t.1 = 0)) ∧
      (∀ t ∈ tables, ∀ b ∈ before, overlap t.1 t.2 b.1 b.2 = false) ∧
      tables.Pairwise fun b t => overlap t.1 t.2 b.1 b.2 = false := by
  induction tables with
  | nil =>
      intro i before _
      exact ⟨by simp, by simp, .nil⟩
  | cons t rest ih =>
      intro i before h
      simp only [riefTablesOk, Bool.and_eq_true, spanOk_iff, List.all_eq_true,
        Bool.not_eq_true'] at h
      obtain ⟨⟨⟨⟨hin, hnil⟩, -⟩, hbefore⟩, hrest⟩ := h
      obtain ⟨h₁, h₂, h₃⟩ := ih hrest
      have hzero : t.2 = 0 → t.1 = 0 := by
        intro hz
        simpa [hz] using hnil
      refine ⟨fun x hx => ?_, fun x hx b hb => ?_, ?_⟩
      · rcases List.mem_cons.mp hx with rfl | hx
        · exact ⟨hin, hzero⟩
        · exact h₁ x hx
      · rcases List.mem_cons.mp hx with rfl | hx
        · exact hbefore b hb
        · exact h₂ x hx b (List.mem_append_left _ hb)
      · exact List.pairwise_cons.mpr ⟨fun x hx => h₂ x hx t (by simp), h₃⟩

/-! ### What the checks establish -/

/-- A relocation names a region of the image, patches inside of it, and has a target. -/
structure RiefReloc.Ok (im : RiefImage) (r : RiefReloc) : Prop where
  type : riefRelocAbs64 ≤ r.type ∧ r.type ≤ riefRelocImport64
  patch : r.patchRegion < im.header.regionCount
  inside : r.patchOffset + r.width ≤ (im.region r.patchRegion).memorySize
  imports : r.type = riefRelocImport64 → r.targetRegion < im.header.importCount ∧ r.targetOffset = 0
  target : r.type ≠ riefRelocImport64 → r.targetRegion < im.header.regionCount ∧
    r.targetOffset ≤ (im.region r.targetRegion).memorySize

namespace RiefImage

/-- The `j`-th relocation patches behind the byte `e` of the region `b`. -/
def Behind (im : RiefImage) (b e j : Nat) : Prop :=
  b < (im.reloc j).patchRegion ∨ b = (im.reloc j).patchRegion ∧ e ≤ (im.reloc j).patchOffset

/-- The end of the bytes that the `j`-th relocation patches. -/
def patchEnd (im : RiefImage) (j : Nat) : Nat := (im.reloc j).patchOffset + (im.reloc j).width

/-- The memory that the first `n` regions ask for. -/
def room (im : RiefImage) (n : Nat) : Nat :=
  ∑ i ∈ Finset.range n, alignUp 64 (im.region i).memorySize 4096

/-- The `i`-th region is sound, and its bytes lie apart from the tables and from earlier
regions'. -/
structure RegionOk (im : RiefImage) (i : Nat) : Prop where
  ok : (im.region i).ok im.size = true
  tables : ∀ t ∈ im.header.tables,
    overlap (im.region i).fileOffset (im.region i).fileSize t.1 t.2 = false
  before : ∀ j < i, overlap (im.region i).fileOffset (im.region i).fileSize
    (im.region j).fileOffset (im.region j).fileSize = false

/-- What the checks establish about the image alone. -/
structure WellFormed (im : RiefImage) : Prop where
  header : im.header.ok im.size = true
  tail : ∀ k, 96 ≤ k → k < im.header.headerSize → im.bytes k = 0
  inside : ∀ t ∈ im.header.tables, t.1 + t.2 ≤ im.size ∧ (t.2 = 0 → t.1 = 0)
  apart : im.header.tables.Pairwise fun b t => overlap t.1 t.2 b.1 b.2 = false
  regions : ∀ i < im.header.regionCount, im.RegionOk i
  room : im.room im.header.regionCount ≤ 64 * 1024 * 1024
  entry : regionX (im.region im.header.entryRegion).flags = true ∧
    im.header.entryOffset < (im.region im.header.entryRegion).fileSize
  relocs : ∀ i < im.header.relocCount, (im.reloc i).Ok im
  sorted : ∀ i j, i < j → j < im.header.relocCount →
    im.Behind (im.reloc i).patchRegion (im.patchEnd i) j

end RiefImage

/-- `w'` comes from `w` by checks of addresses. -/
def Probes : Vm → Vm → Prop := Relation.ReflTransGen fun w w' => ∃ a, w' = (asCheck a 1 false w).2

/-- A load that stopped before the first mapping: it did not read outside the image, and touched
nothing but names of exports and pages to be made on demand. -/
structure Stopped (p : Process) (e : LoadStop) (p' : Process) : Prop where
  inside : e ≠ .outside
  probes : Probes p.vm p'.vm
  rest : p' = { p with vm := p'.vm, exports := p'.exports }
  addresses : ∀ k, (p'.exports k).address = (p.exports k).address

theorem Stopped.errno (p : Process) (e : Errno) : Stopped p (.errno e) p :=
  ⟨by simp, .refl, rfl, fun _ => rfl⟩

/-! ### The loops -/

section Loops

variable {im : RiefImage} {p : Process}

/-- A part of the image that is inside it can be read. -/
theorem RiefImage.inside_ends {off n : Nat} (h : off + n ≤ im.size) :
    Io.Ends (im.inside off n) p (fun _ p' => p' = p) (Stopped p) := by
  rw [RiefImage.inside, if_pos h]
  rfl

/-- The rest of the header is zero. -/
theorem riefHeaderTail_ends (left : Nat) : ∀ {i : Nat}, i + left ≤ im.size →
    Io.Ends (riefHeaderTail im left i) p
      (fun _ p' => p' = p ∧ ∀ k, i ≤ k → k < i + left → im.bytes k = 0) (Stopped p) := by
  induction left with
  | zero =>
      intro i _
      exact ⟨rfl, fun k h₁ h₂ => absurd h₂ (by omega)⟩
  | succ left ih =>
      intro i hi
      refine (RiefImage.inside_ends (by omega)).bind fun _ p' hp => ?_
      subst hp
      refine Io.Ends.ite (fun _ => Stopped.errno _ _) fun hz =>
        (ih (by omega)).mono ?_ fun _ _ he => he
      rintro _ p' ⟨rfl, hrest⟩
      refine ⟨rfl, fun k h₁ h₂ => ?_⟩
      rcases Nat.lt_or_eq_of_le h₁ with hlt | rfl
      · exact hrest k hlt (by omega)
      · exact not_not.mp hz

/-- Every region passes its checks, and together they stay below the limit. -/
theorem riefRegions_ends (left : Nat) : ∀ {i : Nat},
    im.header.regionTableOffset + 32 * (i + left) ≤ im.size →
    (∀ k < i, im.RegionOk k) → im.room i ≤ 64 * 1024 * 1024 →
    Io.Ends (riefRegions im left i (im.room i)) p
      (fun _ p' => p' = p ∧ (∀ k < i + left, im.RegionOk k) ∧ im.room (i + left) ≤ 64 * 1024 * 1024)
      (Stopped p) := by
  induction left with
  | zero =>
      intro i _ hok hroom
      exact ⟨rfl, hok, hroom⟩
  | succ left ih =>
      intro i hi hok _
      refine (RiefImage.inside_ends (by omega)).bind fun _ p' hp => ?_
      subst hp
      refine Io.Ends.ite (fun _ => Stopped.errno _ _) fun h₁ => ?_
      refine Io.Ends.ite (fun _ => Stopped.errno _ _) fun h₂ => ?_
      refine Io.Ends.ite (fun _ => Stopped.errno _ _) fun h₃ => ?_
      refine Io.Ends.ite (fun _ => Stopped.errno _ _) fun h₄ => ?_
      have hsum : im.room i + alignUp 64 (im.region i).memorySize 4096 = im.room (i + 1) :=
        (Finset.sum_range_succ _ i).symm
      rw [hsum, not_lt] at h₂
      simp only [List.any_eq_true, not_exists, not_and, Bool.not_eq_true, List.mem_range] at h₃ h₄
      rw [hsum, show i + (left + 1) = i + 1 + left by omega]
      refine ih (by omega) (fun k hk => ?_) h₂
      rcases Nat.lt_or_eq_of_le (Nat.le_of_lt_succ hk) with hlt | rfl
      · exact hok k hlt
      · exact ⟨by simpa using h₁, h₃, h₄⟩

/-- A relocation that is accepted lies in its region, behind the one before. -/
theorem riefRelocOk_spec {i lastRegion lastEnd : Nat}
    (h : riefRelocOk im i lastRegion lastEnd = true) :
    (im.reloc i).Ok im ∧ (i ≠ 0 → im.Behind lastRegion lastEnd i) := by
  simp only [riefRelocOk, Bool.and_eq_true, decide_eq_true_eq, spanOk_iff] at h
  obtain ⟨⟨⟨⟨⟨⟨-, ht₁⟩, ht₂⟩, hp⟩, hin⟩, hord⟩, htarget⟩ := h
  refine ⟨⟨⟨ht₁, ht₂⟩, hp, hin, fun ht => ?_, fun ht => ?_⟩, fun hi => ?_⟩
  · rw [if_pos ht] at htarget
    simpa using htarget
  · rw [if_neg ht] at htarget
    simpa using htarget
  · simp only [Bool.not_eq_true', Bool.and_eq_false_iff, bne_eq_false_iff_eq, hi, false_or,
      Bool.or_eq_false_iff, decide_eq_false_iff_not, not_lt, beq_eq_false_iff_ne] at hord
    rw [RiefImage.Behind]
    omega

/-- Relocations in order, one after another. -/
theorem RiefImage.Behind.trans {b e i j : Nat} (h : im.Behind b e i)
    (h' : im.Behind (im.reloc i).patchRegion (im.patchEnd i) j) : im.Behind b e j := by
  simp only [RiefImage.Behind, RiefImage.patchEnd] at h h' ⊢
  omega

/-- Every relocation is in order. -/
theorem riefRelocs_ends (left : Nat) : ∀ {i lastRegion lastEnd : Nat},
    im.header.relocTableOffset + 40 * (i + left) ≤ im.size →
    Io.Ends (riefRelocs im left i lastRegion lastEnd) p
      (fun _ p' => p' = p ∧ ∀ j, i ≤ j → j < i + left → (im.reloc j).Ok im ∧
        (i ≠ 0 → im.Behind lastRegion lastEnd j) ∧
        ∀ k, i ≤ k → k < j → im.Behind (im.reloc k).patchRegion (im.patchEnd k) j)
      (Stopped p) := by
  induction left with
  | zero =>
      intro i _ _ _
      exact ⟨rfl, fun j h₁ h₂ => absurd h₂ (by omega)⟩
  | succ left ih =>
      intro i lastRegion lastEnd hi
      refine (RiefImage.inside_ends (by omega)).bind fun _ p' hp => ?_
      subst hp
      refine Io.Ends.ite (fun _ => Stopped.errno _ _) fun hok =>
        (ih (by omega)).mono ?_ fun _ _ he => he
      rintro _ p' ⟨rfl, hrest⟩
      obtain ⟨hr, hlast⟩ := riefRelocOk_spec (by simpa using hok)
      refine ⟨rfl, fun j h₁ h₂ => ?_⟩
      rcases Nat.lt_or_eq_of_le h₁ with hlt | rfl
      · obtain ⟨hj, hnext, hall⟩ := hrest j hlt (by omega)
        have hfrom := hnext (Nat.succ_ne_zero i)
        refine ⟨hj, fun h0 => (hlast h0).trans hfrom, fun k h₃ h₄ => ?_⟩
        rcases Nat.lt_or_eq_of_le h₃ with hlt' | rfl
        · exact hall k hlt' h₄
        · exact hfrom
      · exact ⟨hr, hlast, fun k h₃ h₄ => absurd h₄ (by omega)⟩

/-- An address that is mapped; the probe may back a lazy page. -/
theorem Load.mapped_ends (a : Nat) : Io.Ends (Load.mapped a) p
    (fun _ p' => p' = { p with vm := (asCheck a 1 false p.vm).2 } ∧
      (asCheck a 1 false p.vm).1 = .ok ())
    (fun e p' => e = .errno .efault ∧ p' = { p with vm := (asCheck a 1 false p.vm).2 }) := by
  rw [Io.Ends, Load.mapped, Load.onSpace]
  cases he : asCheck a 1 false p.vm with
  | mk r w =>
      cases r with
      | ok u => exact ⟨rfl, rfl⟩
      | error e => exact ⟨rfl, rfl⟩

theorem Probes.single (w : Vm) (a : Nat) : Probes w (asCheck a 1 false w).2 :=
  Relation.ReflTransGen.single ⟨a, rfl⟩

/-- What follows a step that only probed. -/
theorem Stopped.after {p' p'' : Process} {e : LoadStop} (h : Stopped p' e p'')
    (hv : Probes p.vm p'.vm) (hr : p' = { p with vm := p'.vm, exports := p'.exports })
    (ha : ∀ k, (p'.exports k).address = (p.exports k).address) : Stopped p e p'' := by
  refine ⟨h.inside, hv.trans h.probes, ?_, fun k => (h.addresses k).trans (ha k)⟩
  rw [h.rest, hr]

/-- The addresses bound to a name. -/
def bound (symbol : Bytes) (bindings : List RiefBinding) : List Nat :=
  (bindings.filter fun b => b.name.any fun name => strEq symbol name).map (·.address)

/-- The bindings of a symbol, of which there may be one. -/
theorem riefBind_ends {symbol : Bytes} (bindings : List RiefBinding) :
    ∀ {p : Process} {found : Option Nat},
    Io.Ends (riefBind symbol bindings found) p
      (fun r p' => r.toList = found.toList ++ bound symbol bindings ∧ Probes p.vm p'.vm ∧
        p' = { p with vm := p'.vm })
      (Stopped p) := by
  induction bindings with
  | nil =>
      intro p found
      exact ⟨(List.append_nil _).symm, .refl, rfl⟩
  | cons b rest ih =>
      intro p found
      rw [riefBind]
      by_cases hb : (b.name.any fun name => strEq symbol name) = true
      · have hbound : bound symbol (b :: rest) = b.address :: bound symbol rest := by
          simp [bound, hb]
        rw [if_pos hb, hbound]
        refine Io.Ends.ite (fun _ => Stopped.errno _ _) fun hf => ?_
        obtain rfl : found = none := by simpa using hf
        refine ((Load.mapped_ends b.address).mono (fun _ _ h => h) ?_).bind ?_
        · rintro e p' ⟨rfl, rfl⟩
          exact ⟨by simp, Probes.single _ _, rfl, fun _ => rfl⟩
        · rintro - p' ⟨rfl, -⟩
          refine ih.mono ?_ fun e p' he => he.after (Probes.single _ _) rfl fun _ => rfl
          rintro r p' ⟨hr, hv, hp⟩
          exact ⟨hr, (Probes.single _ _).trans hv, by rw [hp]⟩
      · have hbound : bound symbol (b :: rest) = bound symbol rest := by
          simp [bound, hb]
        rw [if_neg hb, hbound]
        exact ih

/-- Exactly one binding has the name of the `i`-th import, and `a` is its address. -/
def RiefImage.Bound (im : RiefImage) (bindings : List RiefBinding) (i a : Nat) : Prop :=
  ∃ n symbol, im.Named (im.import_ i).1 n symbol ∧ bound symbol bindings = [a]

/-- Every import is bound. -/
theorem riefImports_ends {bindings : List RiefBinding}
    (hs : im.header.stringTableOffset + im.header.stringTableSize ≤ im.size) (left : Nat) :
    ∀ {p : Process} {i : Nat}, im.header.importTableOffset + 8 * (i + left) ≤ im.size →
    Io.Ends (riefImports im bindings left i) p
      (fun l p' => (l.length = left ∧ ∀ k < left, im.Bound bindings (i + k) (l.getD k 0)) ∧
        Probes p.vm p'.vm ∧ p' = { p with vm := p'.vm })
      (Stopped p) := by
  induction left with
  | zero =>
      intro p i _
      exact ⟨⟨rfl, fun k hk => absurd hk (Nat.not_lt_zero k)⟩, .refl, rfl⟩
  | succ left ih =>
      intro p i hi
      refine (RiefImage.inside_ends (by omega)).bind fun _ p' hp => ?_
      subst hp
      refine Io.Ends.ite (fun _ => Stopped.errno _ _) fun _ => ?_
      refine Io.ends_bind.mpr
        (Io.ends_lift.mpr ⟨fun u hu => ?_, fun e he => ⟨?_, .refl, rfl, fun _ => rfl⟩⟩)
      · obtain ⟨n, hname⟩ := RiefImage.riefString_ok hu
        refine (riefBind_ends bindings).bind ?_
        rintro r p₁ ⟨hr, hv, hp⟩
        cases r with
        | none => exact (Stopped.errno p₁ _).after hv (by rw [hp]) fun k => by rw [hp]
        | some a =>
            refine ((ih (by omega)).mono (fun _ _ h => h)
              fun e p₂ he => he.after hv (by rw [hp]) fun k => by rw [hp]).bind ?_
            rintro l p₂ ⟨⟨hlen, hall⟩, hv', hp'⟩
            refine ⟨⟨congrArg (· + 1) hlen, fun k hk => ?_⟩, hv.trans hv', by rw [hp', hp]⟩
            cases k with
            | zero => exact ⟨n, _, hname, hr.symm⟩
            | succ k =>
                rw [show i + (k + 1) = i + 1 + k by omega]
                exact hall k (by omega)
      · rintro rfl
        exact RiefImage.riefString_inside hs _ _ he

/-- The `i`-th export lies in its region, and its name is none of an earlier one's. -/
structure RiefImage.ExportOk (im : RiefImage) (exports : Nat → ProcessExport) (i : Nat) : Prop where
  region : (im.export_ i).region < im.header.regionCount
  offset : (im.export_ i).offset < (im.region (im.export_ i).region).memorySize
  name : ∃ n, im.Named (im.export_ i).nameOffset n (exports i).name
  fresh : ∀ j < i, strEq (exports i).name (exports j).name = false

/-- An export's check depends on the names before it only. -/
theorem RiefImage.ExportOk.congr {exports exports' : Nat → ProcessExport} {i : Nat}
    (h : im.ExportOk exports i) (he : ∀ j ≤ i, (exports' j).name = (exports j).name) :
    im.ExportOk exports' i := by
  refine ⟨h.region, h.offset, ?_, fun j hj => ?_⟩
  · rw [he i (Nat.le_refl i)]
    exact h.name
  · rw [he i (Nat.le_refl i), he j (Nat.le_of_lt hj)]
    exact h.fresh j hj

/-- Every export passes its checks. -/
theorem riefExports_ends
    (hs : im.header.stringTableOffset + im.header.stringTableSize ≤ im.size) (left : Nat) :
    ∀ {p : Process} {i : Nat}, im.header.exportTableOffset + 16 * (i + left) ≤ im.size →
    (∀ k < i, im.ExportOk p.exports k) →
    Io.Ends (riefExports im left i) p
      (fun _ p' => (∀ k < i + left, im.ExportOk p'.exports k) ∧
        p' = { p with exports := p'.exports })
      (Stopped p) := by
  induction left with
  | zero =>
      intro p i _ hall
      exact ⟨hall, rfl⟩
  | succ left ih =>
      intro p i hi hall
      refine (RiefImage.inside_ends (by omega)).bind fun _ p' hp => ?_
      subst hp
      refine Io.Ends.ite (fun _ => Stopped.errno _ _) fun hex => ?_
      simp only [not_or, not_le] at hex
      simp only [Io.ends_bind, Io.ends_get, Io.ends_modify]
      -- the name stands in the array, whether it is taken or not
      have haddr : ∀ (name : Bytes) (k : Nat), (Function.update p'.exports i
          { p'.exports i with name := name } k).address = (p'.exports k).address := by
        intro name k
        rcases eq_or_ne k i with rfl | hne
        · rw [Function.update_self]
        · rw [Function.update_of_ne hne]
      have hrest : ∀ {e : LoadStop} {name : Bytes}, e ≠ .outside → Stopped p' e { p' with
          exports := Function.update p'.exports i { p'.exports i with name := name } } :=
        fun he => ⟨he, .refl, rfl, haddr _⟩
      refine Io.ends_lift.mpr ⟨fun u hu => ?_, fun e he => hrest ?_⟩
      · refine Io.Ends.ite (fun _ => hrest (by simp)) fun hnew => ?_
        simp only [List.any_eq_true, not_exists, not_and, Bool.not_eq_true, List.mem_range] at hnew
        refine (ih (by omega) fun k hk => ?_).mono ?_ fun e q he =>
          he.after .refl rfl (haddr _)
        · rcases Nat.lt_or_eq_of_le (Nat.le_of_lt_succ hk) with hlt | rfl
          · refine (hall k hlt).congr fun j hj => ?_
            simp only [Function.update_of_ne (show j ≠ i by omega)]
          · refine ⟨hex.1, hex.2, ?_, fun j hj => ?_⟩
            · simp only [Function.update_self]
              exact RiefImage.riefString_ok hu
            · simp only [Function.update_self, Function.update_of_ne (Nat.ne_of_lt hj)]
              exact hnew j hj
        · rintro _ q ⟨hq, hsame⟩
          refine ⟨by rwa [show i + (left + 1) = i + 1 + left by omega], ?_⟩
          rw [hsame]
      · rintro rfl
        exact RiefImage.riefString_inside hs _ _ he

/-- The checks were passed. -/
structure RiefImage.Passed (im : RiefImage) (bindings : List RiefBinding) (p : Process)
    (imports : List Nat) (p' : Process) : Prop where
  idle : p.used = true ∧ p.loaded = false ∧ p.taskId = 0
  image : im.WellFormed
  imports : imports.length = im.header.importCount ∧
    ∀ k < im.header.importCount, im.Bound bindings k (imports.getD k 0)
  exports : ∀ k < im.header.exportCount, im.ExportOk p'.exports k
  probes : Probes p.vm p'.vm
  rest : p' = { p with vm := p'.vm, exports := p'.exports }

/-- **The checks of a load**: they read inside the image, and an image that passes them is well
formed. -/
theorem riefCheck_ends (im : RiefImage) (bindings : List RiefBinding) (p : Process) :
    Io.Ends (riefCheck im bindings) p (im.Passed bindings p) (Stopped p) := by
  rw [riefCheck]
  simp only [Io.ends_bind, Io.ends_get]
  refine Io.Ends.ite (fun _ => Stopped.errno _ _) fun hidle => ?_
  refine Io.Ends.ite (fun _ => Stopped.errno _ _) fun hsize => ?_
  simp only [not_or, not_lt, Bool.not_eq_true, Bool.not_eq_false', not_not] at hidle hsize
  refine (RiefImage.inside_ends (by omega)).bind fun _ p' hp => ?_
  subst hp
  refine Io.Ends.ite (fun _ => Stopped.errno _ _) fun hheader => ?_
  rw [Bool.not_eq_true', Bool.not_eq_false] at hheader
  have hhead : 96 ≤ im.header.headerSize ∧ im.header.headerSize ≤ im.size := by
    simp only [RiefHeader.ok, Bool.and_eq_true, decide_eq_true_eq] at hheader
    exact ⟨hheader.1.1.1.1.1.1.1.1.2, hheader.1.1.1.1.1.1.2⟩
  refine (riefHeaderTail_ends _ (by omega)).bind ?_
  rintro _ p' ⟨rfl, htail⟩
  refine Io.Ends.ite (fun _ => Stopped.errno _ _) fun htables => ?_
  rw [Bool.not_eq_true', Bool.not_eq_false] at htables
  -- the five tables lie in the image, so what is read of them does
  obtain ⟨hin, -, hapart⟩ := riefTablesOk_spec _ htables
  have hregion :=
    (hin (im.header.regionTableOffset, 32 * im.header.regionCount) (by simp [RiefHeader.tables])).1
  have hreloc :=
    (hin (im.header.relocTableOffset, 40 * im.header.relocCount) (by simp [RiefHeader.tables])).1
  have himport :=
    (hin (im.header.importTableOffset, 8 * im.header.importCount) (by simp [RiefHeader.tables])).1
  have hexport :=
    (hin (im.header.exportTableOffset, 16 * im.header.exportCount) (by simp [RiefHeader.tables])).1
  have hstring :=
    (hin (im.header.stringTableOffset, im.header.stringTableSize) (by simp [RiefHeader.tables])).1
  refine (riefRegions_ends _ (i := 0) (by simpa using hregion)
    (fun k hk => absurd hk (Nat.not_lt_zero k))
    (Nat.zero_le _)).bind ?_
  rintro _ p' ⟨rfl, hregions, hroom⟩
  rw [Nat.zero_add] at hregions hroom
  refine Io.Ends.ite (fun _ => Stopped.errno _ _) fun hentry => ?_
  simp only [not_or, not_le, Bool.not_eq_true, Bool.not_eq_false'] at hentry
  refine (riefImports_ends hstring _ (i := 0) (by simpa using himport)).bind ?_
  -- from here on a failure finds the exports as the imports left them
  rintro imports p₁ ⟨himports, hv, hp₁⟩
  refine ((riefRelocs_ends _ (i := 0) (by simpa using hreloc)).mono (fun _ _ h => h)
    fun e q he => he.after hv (by rw [hp₁]) fun k => by rw [hp₁]).bind ?_
  rintro _ p₂ ⟨rfl, hrelocs⟩
  rw [Nat.zero_add] at hrelocs
  refine ((riefExports_ends hstring _ (i := 0) (by simpa using hexport)
    fun k hk => absurd hk (Nat.not_lt_zero k)).mono (fun _ _ h => h)
    fun e q he => he.after hv (by rw [hp₁]) fun k => by rw [hp₁]).bind ?_
  rintro _ p₃ ⟨hexports, hp₃⟩
  rw [Nat.zero_add] at hexports
  refine
    { idle := ⟨hidle.1, hidle.2.1, hidle.2.2.1⟩
      image :=
        { header := hheader
          tail := fun k h₁ h₂ => htail k h₁ (by omega)
          inside := hin
          apart := hapart
          regions := hregions
          room := hroom
          entry := hentry
          relocs := fun i hi => (hrelocs i (Nat.zero_le i) hi).1
          sorted := fun i j hij hj => (hrelocs j (Nat.zero_le j) hj).2.2 i (Nat.zero_le i) hij }
      imports := ⟨himports.1, fun k hk => by simpa using himports.2 k hk⟩
      exports := hexports
      probes := by
        rw [hp₃]
        exact hv
      rest := by rw [hp₃, hp₁] }

end Loops

/-! ### No load reads outside the image -/

namespace RiefImage.WellFormed

variable {im : RiefImage}

/-- A region's bytes lie in the image. -/
theorem region_file (h : im.WellFormed) {i : Nat} (hi : i < im.header.regionCount) :
    (im.region i).fileOffset + (im.region i).fileSize ≤ im.size := by
  have hok := (h.regions i hi).ok
  simp only [RiefRegion.ok, Bool.and_eq_true, spanOk_iff] at hok
  exact hok.1.1.1.2

theorem reloc_inside (h : im.WellFormed) {i : Nat} (hi : i < im.header.relocCount) :
    im.header.relocTableOffset + 40 * i + 40 ≤ im.size := by
  have htable := (h.inside (im.header.relocTableOffset, 40 * im.header.relocCount)
    (by simp [RiefHeader.tables])).1
  omega

theorem export_inside (h : im.WellFormed) {i : Nat} (hi : i < im.header.exportCount) :
    im.header.exportTableOffset + 16 * i + 16 ≤ im.size := by
  have htable := (h.inside (im.header.exportTableOffset, 16 * im.header.exportCount)
    (by simp [RiefHeader.tables])).1
  omega

end RiefImage.WellFormed

namespace Io.Avoids

theorem inside {im : RiefImage} {off n : Nat} (h : off + n ≤ im.size) :
    Avoids (im.inside off n) .outside := by
  rw [RiefImage.inside, if_pos h]
  exact .pure ()

theorem onSpace {α : Type} (f : Vm → Except Errno α × Vm) : Avoids (Load.onSpace f) .outside := by
  intro p
  rw [Load.onSpace]
  cases f p.vm with
  | mk r w => cases r <;> simp

end Io.Avoids

section Inside

variable {im : RiefImage} {env : MmuEnv} {imports : List Nat}

open Io

/-- The mapping of the regions reads inside the image. -/
theorem riefMap_inside (h : im.WellFormed) (left : Nat) :
    ∀ {i : Nat}, i + left = im.header.regionCount →
    Avoids (riefMap env im left i) .outside := by
  induction left with
  | zero => exact fun _ => .pure ()
  | succ left ih =>
      intro i hi
      refine .bind (.onSpace _) fun base _ _ _ => .bind (.modify _) fun _ _ _ _ => ?_
      exact .bind (.inside (h.region_file (by omega))) fun _ _ _ _ =>
        .bind (.onSpace _) fun _ _ _ _ => ih (by omega)

theorem riefPatch_inside (h : im.WellFormed) {i : Nat} (hi : i < im.header.relocCount) :
    Avoids (riefPatch im imports i) .outside := by
  refine .bind (.inside (h.reloc_inside hi)) fun _ _ _ _ => .bind .get fun p _ _ _ => ?_
  dsimp only
  split
  · exact .fail (by simp)
  · refine .ite (fun _ => .fail (by simp)) fun _ => .ite (fun _ => .fail (by simp)) fun _ => ?_
    refine .ite (fun _ => .bind (.onSpace _) fun _ _ _ _ => ?_) fun _ => ?_
    all_goals exact .ite (fun _ => .fail (by simp)) fun _ => .onSpace _

theorem riefPatches_inside (h : im.WellFormed) (left : Nat) :
    ∀ {i : Nat}, i + left = im.header.relocCount →
    Avoids (riefPatches im imports left i) .outside := by
  induction left with
  | zero => exact fun _ => .pure ()
  | succ left ih =>
      intro i hi
      exact .bind (riefPatch_inside h (by omega)) fun _ _ _ _ => ih (by omega)

theorem riefPublish_inside (h : im.WellFormed) (left : Nat) :
    ∀ {i : Nat}, i + left = im.header.exportCount →
    Avoids (riefPublish im left i) .outside := by
  induction left with
  | zero => exact fun _ => .pure ()
  | succ left ih =>
      intro i hi
      exact .bind (.inside (h.export_inside (by omega))) fun _ _ _ _ =>
        .bind (.modify _) fun _ _ _ _ =>
        ih (by omega)

theorem riefInstall_inside (h : im.WellFormed) : Avoids (riefInstall env im imports) .outside := by
  refine .bind (riefMap_inside h _ (Nat.zero_add _)) fun _ _ _ _ => ?_
  refine .bind (riefPatches_inside h _ (Nat.zero_add _)) fun _ _ _ _ => ?_
  exact .bind (riefPublish_inside h _ (Nat.zero_add _)) fun _ _ _ _ => .modify _

end Inside

/-- A load is the checks, then the installation, which is undone when it fails. -/
theorem riefLoadLocked_run (env : MmuEnv) (im : RiefImage) (bindings : List RiefBinding)
    (p : Process) :
    riefLoadLocked env im bindings p =
      match riefCheck im bindings p with
      | (.ok imports, p₁) =>
          (match riefInstall env im imports p₁ with
          | (.ok (), p₂) => (.ok (), p₂)
          | (.error e, p₂) => (.error e, riefFail p₁.vm.as.next p₁.vm.as.pages p₂))
      | (.error e, p₁) => (.error e, p₁) := by
  rw [riefLoadLocked]
  refine (Io.bind_run _ _ p).trans ?_
  cases riefCheck im bindings p with
  | mk r p₁ => cases r <;> rfl

/-- **A load reads inside the image**, whatever the image holds, whatever is bound, and in whatever
state the process is. -/
theorem rief_load_inside (env : MmuEnv) (im : RiefImage) (bindings : List RiefBinding) :
    Io.Avoids (riefLoadLocked env im bindings) .outside := by
  intro p h
  rw [riefLoadLocked_run] at h
  have hc := riefCheck_ends im bindings p
  rw [Io.Ends] at hc
  cases hr : riefCheck im bindings p with
  | mk r p₁ =>
      rw [hr] at h hc
      cases r with
      | error e => exact hc.inside (Except.error.inj h)
      | ok imports =>
          have hi : (riefInstall env im imports p₁).1 ≠ .error .outside :=
            riefInstall_inside hc.image p₁
          cases hx : riefInstall env im imports p₁ with
          | mk r' p₂ =>
              rw [hx] at hi
              dsimp only at h
              rw [hx] at h
              cases r' with
              | ok u => cases h
              | error e => exact hi h

end Efishell
