import Efishell.Fs.UpdateSequence

/-!
# File systems — the records of an ext4 directory block

A directory block is a chain of records of variable length.  A record that is in use can be longer
than its name needs; `ext_add_dirent` splits it, or takes a record that is not in use.

`Chain` reads a block as the list of its entries.  The new entry comes between two of them, and the
others stay as they are.

* `Reaches.chain`: the new entry comes between two others, which stay as they are.
* `Reaches.findName`: the entry is found where no entry before has its name.
-/

namespace Efishell

/-! ### Records -/

/-- The length of the record at `at_`: what `ext_add_dirent` and `ext_directory` check before they
look at it. -/
def recordAt (b : Bytes) (limit at_ : Nat) : Option Nat :=
  if limit - at_ < 8 then none
  else
    let size := rd16 b (at_ + 4)
    let len := (b (at_ + 6)).toNat
    if size < 8 ∨ size % 4 ≠ 0 ∨ limit - at_ < size ∨ size - 8 < len then none else some size

/-- The bytes that the record needs for its name. -/
def direntUsed (b : Bytes) (at_ : Nat) : Nat :=
  if rd32 b at_ ≠ 0 then alignUp 32 (8 + (b (at_ + 6)).toNat) 4 else 0

/-- A record with `needed` bytes to spare. -/
structure DirentGap where
  at_ : Nat
  used : Nat
  size : Nat
  deriving DecidableEq, Repr

/-- The loop of `ext_add_dirent` over one block, up to the record that has room.  A round moves
`at_`, so `limit` rounds are enough. -/
def findGap (b : Bytes) (limit needed : Nat) : Nat → Nat → Except Errno (Option DirentGap)
  | 0, _ => .ok none
  | fuel + 1, at_ =>
      if limit ≤ at_ then .ok none
      else match recordAt b limit at_ with
        | none => .error .eio
        | some size =>
            if needed ≤ size - direntUsed b at_ then .ok (some ⟨at_, direntUsed b at_, size⟩)
            else findGap b limit needed fuel (at_ + size)

/-- A directory entry. -/
structure ExtEntry where
  inode : Nat
  type : UInt8
  name : List UInt8
  deriving DecidableEq, Repr

/-- The bytes of a name, which end with a zero. -/
def nameBytes (name : List UInt8) : Bytes := fun i => name.getD i 0

/-- The bytes with one of them written. -/
def setByte (b : Bytes) (i : Nat) (x : UInt8) : Bytes := fun j => if j = i then x else b j

/-- The block with the entry in the gap. -/
def putDirent (b : Bytes) (g : DirentGap) (e : ExtEntry) : Bytes :=
  let target := g.at_ + g.used
  let b := if g.used ≠ 0 then wr16 b (g.at_ + 4) g.used else b
  let b := memZero b target (g.size - g.used)
  let b := wr32 b target e.inode
  let b := wr16 b (target + 4) (g.size - g.used)
  let b := setByte b (target + 6) (UInt8.ofNat e.name.length)
  let b := setByte b (target + 7) e.type
  memCopy b (target + 8) (nameBytes e.name) 0 e.name.length

/-- The record at `at_` as an entry. -/
def direntAt (b : Bytes) (at_ : Nat) : ExtEntry where
  inode := rd32 b at_
  type := b (at_ + 7)
  name := (List.range (b (at_ + 6)).toNat).map fun i => b (at_ + 8 + i)

/-- The loop of `ext_directory` over one block, up to an entry with the name. -/
def findName (b : Bytes) (limit : Nat) (wanted : List UInt8) : Nat → Nat → Except Errno (Option Nat)
  | 0, _ => .ok none
  | fuel + 1, at_ =>
      if limit ≤ at_ then .ok none
      else match recordAt b limit at_ with
        | none => .error .eio
        | some size =>
            let e := direntAt b at_
            if e.inode ≠ 0 ∧ e.name ≠ [] then
              if 0 ∈ e.name then .error .eio
              else if e.name = wanted then .ok (some e.inode)
              else findName b limit wanted fuel (at_ + size)
            else findName b limit wanted fuel (at_ + size)

/-! ### Chains -/

/-- From `at_` on the block is covered by records up to `limit`; the entries are those of the
records in use. -/
inductive Chain (b : Bytes) (limit : Nat) : Nat → List ExtEntry → Prop where
  | done : Chain b limit limit []
  | dead {at_ size : Nat} {es : List ExtEntry} (record : recordAt b limit at_ = some size)
      (unused : rd32 b at_ = 0) (rest : Chain b limit (at_ + size) es) : Chain b limit at_ es
  | live {at_ size : Nat} {es : List ExtEntry} (record : recordAt b limit at_ = some size)
      (inUse : rd32 b at_ ≠ 0) (rest : Chain b limit (at_ + size) es) :
      Chain b limit at_ (direntAt b at_ :: es)

section Records

variable {b b' : Bytes} {limit at_ size needed : Nat}

/-- What a record of a directory block satisfies. -/
theorem recordAt_some : recordAt b limit at_ = some size ↔
    at_ + 8 ≤ limit ∧ size = rd16 b (at_ + 4) ∧ 8 ≤ size ∧ size % 4 = 0 ∧ at_ + size ≤ limit ∧
      8 + (b (at_ + 6)).toNat ≤ size := by
  rw [recordAt]
  by_cases h : limit - at_ < 8
  · rw [if_pos h]
    constructor
    · exact fun h => by cases h
    · omega
  · rw [if_neg h]
    dsimp only
    by_cases h' : rd16 b (at_ + 4) < 8 ∨ rd16 b (at_ + 4) % 4 ≠ 0 ∨ limit - at_ < rd16 b (at_ + 4) ∨
        rd16 b (at_ + 4) - 8 < (b (at_ + 6)).toNat
    · rw [if_pos h']
      constructor
      · exact fun h => by cases h
      · omega
    · rw [if_neg h', Option.some.injEq]
      constructor
      · rintro rfl
        omega
      · exact fun h => h.2.1.symm

theorem rd32_congr (h : ∀ i < 4, b' (at_ + i) = b (at_ + i)) : rd32 b' at_ = rd32 b at_ := by
  have h₀ : rd16 b' at_ = rd16 b at_ := rd16_congr fun i hi => h i (by omega)
  have h₂ : rd16 b' (at_ + 2) = rd16 b (at_ + 2) := rd16_congr fun i hi => by
    rw [Nat.add_assoc]
    exact h (2 + i) (by omega)
  rw [rd32, rd32, h₀, h₂]

/-- A record is read in its own bytes. -/
theorem recordAt_congr (h : ∀ i < 8, b' (at_ + i) = b (at_ + i)) :
    recordAt b' limit at_ = recordAt b limit at_ := by
  have h₄ : rd16 b' (at_ + 4) = rd16 b (at_ + 4) := rd16_congr fun i hi => by
    rw [Nat.add_assoc]
    exact h (4 + i) (by omega)
  rw [recordAt, recordAt, h 6 (by omega), h₄]

/-- An entry does not depend on the length of its record. -/
theorem direntAt_congr (hlen : 8 + (b (at_ + 6)).toNat ≤ size)
    (h : ∀ i < size, i ≠ 4 → i ≠ 5 → b' (at_ + i) = b (at_ + i)) :
    direntAt b' at_ = direntAt b at_ := by
  have h₀ : rd32 b' at_ = rd32 b at_ := rd32_congr fun i hi => h i (by omega) (by omega) (by omega)
  rw [direntAt, direntAt, h 7 (by omega) (by omega) (by omega),
    h 6 (by omega) (by omega) (by omega), h₀]
  congr 1
  refine List.map_congr_left fun i hi => ?_
  rw [List.mem_range] at hi
  rw [Nat.add_assoc]
  exact h (8 + i) (by omega) (by omega) (by omega)

/-- A chain is read in the bytes behind its start. -/
theorem Chain.congr {es : List ExtEntry} (hc : Chain b limit at_ es)
    (h : ∀ i, at_ ≤ i → i < limit → b' i = b i) : Chain b' limit at_ es := by
  induction hc with
  | done => exact .done
  | @dead at_ size es hr hu _ ih =>
      obtain ⟨h8, -, hsz, -, hend, -⟩ := recordAt_some.mp hr
      have hr' : recordAt b' limit at_ = some size :=
        (recordAt_congr fun i hi => h _ (by omega) (by omega)).trans hr
      refine .dead hr' ?_ (ih fun i hi hl => h i (by omega) hl)
      have h₀ : rd32 b' at_ = rd32 b at_ := rd32_congr fun i hi => h _ (by omega) (by omega)
      rw [h₀, hu]
  | @live at_ size es hr hu _ ih =>
      obtain ⟨h8, -, hsz, -, hend, hlen⟩ := recordAt_some.mp hr
      rw [← direntAt_congr hlen fun i hi _ _ => h _ (by omega) (by omega)]
      have hr' : recordAt b' limit at_ = some size :=
        (recordAt_congr fun i hi => h _ (by omega) (by omega)).trans hr
      refine .live hr' ?_ (ih fun i hi hl => h i (by omega) hl)
      have h₀ : rd32 b' at_ = rd32 b at_ := rd32_congr fun i hi => h _ (by omega) (by omega)
      rw [h₀]
      exact hu

/-- The used part of a record lies inside it. -/
theorem direntUsed_le (h : recordAt b limit at_ = some size) : direntUsed b at_ ≤ size := by
  obtain ⟨-, -, h8, h4, -, hlen⟩ := recordAt_some.mp h
  have hmax := (b (at_ + 6)).toNat_lt
  rw [direntUsed]
  split
  · have ha : alignUp 32 (8 + (b (at_ + 6)).toNat) 4 = _ :=
      alignUp_eq (by decide) (by decide) (by omega)
    rw [ha]
    omega
  · exact Nat.zero_le _

/-- A record with an inode uses its header and its name, rounded up to four bytes. -/
theorem direntUsed_pos (h : rd32 b at_ ≠ 0) :
    8 + (b (at_ + 6)).toNat ≤ direntUsed b at_ ∧ direntUsed b at_ % 4 = 0 := by
  have hmax := (b (at_ + 6)).toNat_lt
  have ha : alignUp 32 (8 + (b (at_ + 6)).toNat) 4 = _ :=
    alignUp_eq (by decide) (by decide) (by omega)
  rw [direntUsed, if_pos h, ha]
  omega

end Records

/-! ### The block with the entry -/

section Put

variable {b : Bytes} {g : DirentGap} {e : ExtEntry} {i : Nat}

theorem setByte_ne {x : UInt8} {j : Nat} (h : i ≠ j) : setByte b j x i = b i := if_neg h

theorem setByte_eq {x : UInt8} : setByte b i x i = x := if_pos rfl

/-- The bytes beside the field stay. -/
theorem wr32_ne {a d v : Nat} (h : a < d ∨ d + 4 ≤ a) : wr32 b d v a = b a := by
  rw [wr32, wrBytes, if_neg (by omega)]

theorem wr32_at {d v t : Nat} (ht : t < 4) : wr32 b d v (d + t) = byteOf v t := by
  rw [wr32, wrBytes, if_pos (by omega), Nat.add_sub_cancel_left]

/-- The field reads back. -/
theorem rd32_wr32 {d x : Nat} (hx : x < 2 ^ 32) : rd32 (wr32 b d x) d = x := by
  rw [rd32_eq_leNat]
  exact leNat_wrBytes hx

/-- The gap is one of a record, and the entry fits. -/
structure DirentGap.Fits (g : DirentGap) (e : ExtEntry) : Prop where
  used_le : g.used ≤ g.size
  header : g.used ≠ 0 → 8 ≤ g.used
  room : 8 + e.name.length ≤ g.size - g.used

/-- Nothing outside of the record changes. -/
theorem putDirent_out (hg : g.Fits e) (h : i < g.at_ ∨ g.at_ + g.size ≤ i) :
    putDirent b g e i = b i := by
  obtain ⟨hu, hh, hr⟩ := hg
  rw [putDirent, memCopy_ne (by omega), setByte_ne (by omega), setByte_ne (by omega),
    wr16_ne (by omega), wr32_ne (by omega), memZero_ne (by omega)]
  split
  · exact wr16_ne (by omega)
  · rfl

/-- The record before the gap gets shorter, and is the same else. -/
theorem putDirent_head (hg : g.Fits e) (h : i < g.used) (h4 : i ≠ 4) (h5 : i ≠ 5) :
    putDirent b g e (g.at_ + i) = b (g.at_ + i) := by
  obtain ⟨hu, hh, hr⟩ := hg
  rw [putDirent, memCopy_ne (by omega), setByte_ne (by omega), setByte_ne (by omega),
    wr16_ne (by omega), wr32_ne (by omega), memZero_ne (by omega)]
  split
  · exact wr16_ne (by omega)
  · rfl

/-- The record before the new one ends where its used part does. -/
theorem putDirent_head_size (hg : g.Fits e) (hu0 : g.used ≠ 0) (hlt : g.size < 2 ^ 16) :
    rd16 (putDirent b g e) (g.at_ + 4) = g.used := by
  obtain ⟨hu, hh, hr⟩ := hg
  refine (rd16_eq_iff (by omega)).mpr fun t ht => ?_
  have h8 := hh hu0
  rw [putDirent, memCopy_ne (by omega), setByte_ne (by omega), setByte_ne (by omega),
    wr16_ne (by omega), wr32_ne (by omega), memZero_ne (by omega), if_pos hu0, wr16_at ht]

/-- The new record has the entry's inode. -/
theorem putDirent_inode (hi : e.inode < 2 ^ 32) :
    rd32 (putDirent b g e) (g.at_ + g.used) = e.inode := by
  rw [rd32_eq_leNat, leNat_byteOf fun t ht => ?_]
  · exact Nat.mod_eq_of_lt hi
  · rw [putDirent, memCopy_ne (by omega), setByte_ne (by omega), setByte_ne (by omega),
      wr16_ne (by omega), wr32_at ht]

theorem putDirent_size (hlt : g.size < 2 ^ 16) :
    rd16 (putDirent b g e) (g.at_ + g.used + 4) = g.size - g.used := by
  refine (rd16_eq_iff (by omega)).mpr fun t ht => ?_
  rw [putDirent, memCopy_ne (by omega), setByte_ne (by omega), setByte_ne (by omega), wr16_at ht]

theorem putDirent_length (hn : e.name.length < 256) :
    (putDirent b g e (g.at_ + g.used + 6)).toNat = e.name.length := by
  rw [putDirent, memCopy_ne (by omega), setByte_ne (by omega), setByte_eq, UInt8.toNat_ofNat',
    Nat.mod_eq_of_lt hn]

theorem putDirent_type : putDirent b g e (g.at_ + g.used + 7) = e.type := by
  rw [putDirent, memCopy_ne (by omega), setByte_eq]

theorem putDirent_name (h : i < e.name.length) :
    putDirent b g e (g.at_ + g.used + 8 + i) = e.name.getD i 0 := by
  rw [putDirent, memCopy_eq (by omega) (by omega), Nat.add_sub_cancel_left, Nat.zero_add, nameBytes]

/-- The new record is read as the entry. -/
theorem direntAt_putDirent (hi : e.inode < 2 ^ 32) (hn : e.name.length < 256) :
    direntAt (putDirent b g e) (g.at_ + g.used) = e := by
  rw [direntAt, putDirent_inode hi, putDirent_type, putDirent_length hn]
  obtain ⟨inode, type, name⟩ := e
  congr 1
  refine List.ext_getElem (by simp) fun i h₁ h₂ => ?_
  rw [List.getElem_map, List.getElem_range, putDirent_name h₂, List.getD_eq_getElem _ _ h₂]

end Put

/-! ### The gap that is found -/

section Gap

variable {b : Bytes} {limit needed : Nat}

/-- The records from `from_` up to the one with the gap, none of which has room. -/
inductive Reaches (b : Bytes) (limit needed : Nat) (g : DirentGap) : Nat → Prop where
  | here (record : recordAt b limit g.at_ = some g.size) (used : g.used = direntUsed b g.at_)
      (room : needed ≤ g.size - g.used) : Reaches b limit needed g g.at_
  | next {at_ size : Nat} (record : recordAt b limit at_ = some size)
      (full : size - direntUsed b at_ < needed) (rest : Reaches b limit needed g (at_ + size)) :
      Reaches b limit needed g at_

/-- A gap found is one the records lead to. -/
theorem findGap_some {g : DirentGap} {fuel : Nat} : ∀ {at_ : Nat},
    findGap b limit needed fuel at_ = .ok (some g) → Reaches b limit needed g at_ := by
  induction fuel with
  | zero =>
      intro at_ h
      cases h
  | succ fuel ih =>
      intro at_ h
      rw [findGap] at h
      split at h
      · cases h
      · cases hr : recordAt b limit at_ with
        | none => simp [hr] at h
        | some size =>
            simp only [hr] at h
            split at h
            · next hroom =>
                cases h
                exact .here hr rfl hroom
            · next hroom => exact .next hr (Nat.not_le.mp hroom) (ih h)

variable {g : DirentGap} {e : ExtEntry} {at_ : Nat}

/-- The loop finds the gap. -/
theorem Reaches.findGap (h : Reaches b limit needed g at_) {fuel : Nat}
    (hfuel : limit ≤ at_ + fuel) :
    findGap b limit needed fuel at_ = .ok (some g) := by
  induction h generalizing fuel with
  | here hr hu hroom =>
      have h8 := (recordAt_some.mp hr).1
      obtain ⟨fuel, rfl⟩ := Nat.exists_eq_succ_of_ne_zero (show fuel ≠ 0 by omega)
      rw [Efishell.findGap, if_neg (by omega), hr]
      dsimp only
      rw [← hu, if_pos hroom]
  | next hr hfull _ ih =>
      obtain ⟨h8, -, hs8, -⟩ := recordAt_some.mp hr
      obtain ⟨fuel, rfl⟩ := Nat.exists_eq_succ_of_ne_zero (show fuel ≠ 0 by omega)
      rw [Efishell.findGap, if_neg (by omega), hr]
      dsimp only
      rw [if_neg (Nat.not_le.mpr hfull)]
      exact ih (by omega)

theorem direntUsed_congr {b' : Bytes} (h : ∀ i < 8, b' (at_ + i) = b (at_ + i)) :
    direntUsed b' at_ = direntUsed b at_ := by
  have h₀ : rd32 b' at_ = rd32 b at_ := rd32_congr fun i hi => h i (by omega)
  rw [direntUsed, direntUsed, h₀, h 6 (by omega)]

/-- What the records lead to depends on the bytes below the limit only. -/
theorem Reaches.congr {b' : Bytes} (h : Reaches b limit needed g at_)
    (hb : ∀ i < limit, b' i = b i) :
    Reaches b' limit needed g at_ := by
  have hrec : ∀ {at_ size : Nat}, recordAt b limit at_ = some size →
      recordAt b' limit at_ = some size ∧ direntUsed b' at_ = direntUsed b at_ := by
    intro at_ size hr
    have h8 := (recordAt_some.mp hr).1
    exact ⟨(recordAt_congr fun i hi => hb _ (by omega)).trans hr,
      direntUsed_congr fun i hi => hb _ (by omega)⟩
  induction h with
  | here hr hu hroom => exact .here (hrec hr).1 (hu.trans (hrec hr).2.symm) hroom
  | next hr hfull _ ih =>
      refine .next (hrec hr).1 ?_ ih
      rw [(hrec hr).2]
      exact hfull

/-- The gap is not before the place the search started at. -/
theorem Reaches.le (h : Reaches b limit needed g at_) : at_ ≤ g.at_ := by
  induction h with
  | here => exact Nat.le_refl _
  | next _ _ _ ih => omega

/-- The gap is the unused end of a record, and large enough. -/
theorem Reaches.gap (h : Reaches b limit needed g at_) :
    recordAt b limit g.at_ = some g.size ∧ g.used = direntUsed b g.at_ ∧
      needed ≤ g.size - g.used := by
  induction h with
  | here hr hu hroom => exact ⟨hr, hu, hroom⟩
  | next _ _ _ ih => exact ih

theorem Reaches.size_lt (h : Reaches b limit needed g at_) : g.size < 2 ^ 16 := by
  obtain ⟨-, hs, -⟩ := recordAt_some.mp h.gap.1
  exact hs ▸ rd16_lt b _

/-- An entry of that size fits in the gap. -/
theorem Reaches.fits (h : Reaches b limit needed g at_) (hneed : 8 + e.name.length ≤ needed) :
    g.Fits e := by
  obtain ⟨hr, hu, hroom⟩ := h.gap
  refine ⟨hu ▸ direntUsed_le hr, fun h0 => ?_, hneed.trans hroom⟩
  have hlive : rd32 b g.at_ ≠ 0 := by
    intro hz
    rw [hu, direntUsed, if_neg (by simpa using hz)] at h0
    exact h0 rfl
  have := (direntUsed_pos hlive).1
  omega

/-- The record that the entry makes of the gap. -/
theorem Reaches.newRecord (h : Reaches b limit needed g at_) (hneed : 8 + e.name.length ≤ needed)
    (hn : e.name.length < 256) :
    recordAt (putDirent b g e) limit (g.at_ + g.used) = some (g.size - g.used) := by
  obtain ⟨hr, hu, hroom⟩ := h.gap
  obtain ⟨h8, -, -, h4, hend, -⟩ := recordAt_some.mp hr
  have hfits := h.fits hneed
  have hused : g.used % 4 = 0 := by
    by_cases hz : rd32 b g.at_ = 0
    · rw [hu, direntUsed, if_neg (by simpa using hz)]
    · rw [hu]
      exact (direntUsed_pos hz).2
  have hle := hfits.used_le
  have hfit := hfits.room
  exact recordAt_some.mpr ⟨by omega, (putDirent_size h.size_lt).symm, by omega, by omega, by omega,
    by rw [putDirent_length hn]; exact hfit⟩

/-- The block with the entry is another one. -/
theorem Reaches.changed (h : Reaches b limit needed g at_) (hneed : 8 + e.name.length ≤ needed)
    (hi : e.inode < 2 ^ 32) (hi0 : e.inode ≠ 0) : ∃ i < limit, putDirent b g e i ≠ b i := by
  obtain ⟨hr, hu, hroom⟩ := h.gap
  obtain ⟨h8, hsize, -⟩ := recordAt_some.mp hr
  by_contra hsame
  simp only [not_exists, not_and, not_not] at hsame
  by_cases h0 : g.used = 0
  · have hz : rd32 b g.at_ = 0 := by
      by_contra hz
      have := (direntUsed_pos hz).1
      omega
    have hinode : rd32 (putDirent b g e) (g.at_ + g.used) = e.inode := putDirent_inode hi
    have hcongr : rd32 (putDirent b g e) g.at_ = rd32 b g.at_ :=
      rd32_congr fun i hi => hsame _ (by omega)
    rw [h0, Nat.add_zero, hcongr, hz] at hinode
    exact hi0 hinode.symm
  · have hhead : rd16 (putDirent b g e) (g.at_ + 4) = g.used :=
      putDirent_head_size (h.fits hneed) h0 h.size_lt
    have hcongr : rd16 (putDirent b g e) (g.at_ + 4) = rd16 b (g.at_ + 4) :=
      rd16_congr fun i hi => hsame _ (by omega)
    omega

/-- **The entry is inserted**: the chain stays one, with the new entry between two others. -/
theorem Reaches.chain (h : Reaches b limit needed g at_) (hneed : 8 + e.name.length ≤ needed)
    (hn : e.name.length < 256) (hi : e.inode < 2 ^ 32) (hi0 : e.inode ≠ 0) {es : List ExtEntry}
    (hc : Chain b limit at_ es) :
    ∃ l₁ l₂, es = l₁ ++ l₂ ∧ Chain (putDirent b g e) limit at_ (l₁ ++ e :: l₂) := by
  have hfits := h.fits hneed
  have hle := hfits.used_le
  -- the new entry, and what comes behind the gap
  have hnew : ∀ {es : List ExtEntry}, Chain b limit (g.at_ + g.size) es →
      Chain (putDirent b g e) limit (g.at_ + g.used) (e :: es) := by
    intro es hrest
    have hlive : rd32 (putDirent b g e) (g.at_ + g.used) ≠ 0 := by
      rw [putDirent_inode hi]
      exact hi0
    have hbehind : Chain (putDirent b g e) limit (g.at_ + g.used + (g.size - g.used)) es := by
      rw [Nat.add_assoc, Nat.add_sub_cancel' hle]
      exact hrest.congr fun i hi _ => putDirent_out hfits (.inr hi)
    have hc := Chain.live (h.newRecord hneed hn) hlive hbehind
    rwa [direntAt_putDirent hi hn] at hc
  have hsize := h.size_lt
  clear hneed hn hi
  induction h generalizing es with
  | here hr hu hroom =>
      cases hc with
      | done => exact absurd (recordAt_some.mp hr).1 (by omega)
      | @dead _ size _ hr' hunused hrest =>
          obtain rfl := Option.some.inj (hr.symm.trans hr')
          have h0 : g.used = 0 := by rw [hu, direntUsed, if_neg (by simpa using hunused)]
          have hc := hnew hrest
          rw [h0, Nat.add_zero] at hc
          exact ⟨[], es, rfl, hc⟩
      | @live _ size es hr' hlive hrest =>
          obtain rfl := Option.some.inj (hr.symm.trans hr')
          obtain ⟨h8, hmod⟩ := direntUsed_pos hlive
          rw [← hu] at h8 hmod
          have hlen : putDirent b g e (g.at_ + 6) = b (g.at_ + 6) :=
            putDirent_head hfits (by omega) (by omega) (by omega)
          have hinode : rd32 (putDirent b g e) g.at_ = rd32 b g.at_ :=
            rd32_congr fun i hi => putDirent_head hfits (by omega) (by omega) (by omega)
          have hsame : direntAt (putDirent b g e) g.at_ = direntAt b g.at_ :=
            direntAt_congr h8 fun i hi h₄ h₅ => putDirent_head hfits hi h₄ h₅
          have hend := (recordAt_some.mp hr).2.2.2.2.1
          have hrec : recordAt (putDirent b g e) limit g.at_ = some g.used :=
            recordAt_some.mpr
              ⟨by omega, (putDirent_head_size hfits (by omega) hsize).symm, by omega, hmod,
              by omega, by rw [hlen]; exact h8⟩
          have hc := Chain.live hrec (by rw [hinode]; exact hlive) (hnew hrest)
          rw [hsame] at hc
          exact ⟨[direntAt b g.at_], es, rfl, hc⟩
  | @next at_ size hr hfull hreach ih =>
      have hbefore := hreach.le
      have h8 := (recordAt_some.mp hr).2.2.1
      -- this record is not touched
      have hbytes : ∀ i < size, putDirent b g e (at_ + i) = b (at_ + i) :=
        fun i hi => putDirent_out hfits (.inl (by omega))
      have hrec : recordAt (putDirent b g e) limit at_ = some size :=
        (recordAt_congr fun i hi => hbytes i (by omega)).trans hr
      have hinode : rd32 (putDirent b g e) at_ = rd32 b at_ :=
        rd32_congr fun i hi => hbytes i (by omega)
      cases hc with
      | done => exact absurd (recordAt_some.mp hr).1 (by omega)
      | @dead _ size' _ hr' hunused hrest =>
          obtain rfl := Option.some.inj (hr.symm.trans hr')
          obtain ⟨l₁, l₂, hes, hc⟩ := ih hrest
          exact ⟨l₁, l₂, hes, .dead hrec (by rw [hinode]; exact hunused) hc⟩
      | @live _ size' es hr' hlive hrest =>
          obtain rfl := Option.some.inj (hr.symm.trans hr')
          obtain ⟨l₁, l₂, rfl, hc⟩ := ih hrest
          have hsame : direntAt (putDirent b g e) at_ = direntAt b at_ :=
            direntAt_congr (recordAt_some.mp hr).2.2.2.2.2 fun i hi _ _ => hbytes i hi
          have hc := Chain.live hrec (by rw [hinode]; exact hlive) hc
          rw [hsame] at hc
          exact ⟨direntAt b at_ :: l₁, l₂, rfl, hc⟩

/-! ### Lookups -/

section Lookup

variable {wanted : List UInt8}

/-- A record that a lookup passes. -/
theorem findName_step {fuel size : Nat} (hr : recordAt b limit at_ = some size)
    (h : findName b limit wanted (fuel + 1) at_ = .ok none) :
    findName b limit wanted fuel (at_ + size) = .ok none ∧
      ((direntAt b at_).inode ≠ 0 → (direntAt b at_).name ≠ [] →
        (0 : UInt8) ∉ (direntAt b at_).name ∧ (direntAt b at_).name ≠ wanted) := by
  have h8 := (recordAt_some.mp hr).1
  rw [findName, if_neg (by omega), hr] at h
  dsimp only at h
  split at h
  · split at h
    · cases h
    · next hz =>
        split at h
        · cases h
        · next hw => exact ⟨h, fun _ _ => ⟨hz, hw⟩⟩
  · next hn => exact ⟨h, fun h₁ h₂ => absurd ⟨h₁, h₂⟩ hn⟩

/-- A record that a lookup passes in another block, too. -/
theorem findName_pass {b' : Bytes} {fuel size : Nat} (hr : recordAt b' limit at_ = some size)
    (he : (direntAt b' at_).inode ≠ 0 → (direntAt b' at_).name ≠ [] →
      (0 : UInt8) ∉ (direntAt b' at_).name ∧ (direntAt b' at_).name ≠ wanted) :
    findName b' limit wanted (fuel + 1) at_ = findName b' limit wanted fuel (at_ + size) := by
  have h8 := (recordAt_some.mp hr).1
  rw [findName, if_neg (by omega), hr]
  dsimp only
  split
  · next hn => rw [if_neg (he hn.1 hn.2).1, if_neg (he hn.1 hn.2).2]
  · rfl

/-- **The entry is found** where no entry before has its name. -/
theorem Reaches.findName (h : Reaches b limit needed g at_) (hneed : 8 + e.name.length ≤ needed)
    (hn : e.name.length < 256) (hi : e.inode < 2 ^ 32) (hi0 : e.inode ≠ 0) (hne : e.name ≠ [])
    (hz : (0 : UInt8) ∉ e.name) {fuel : Nat} (hfuel : limit ≤ at_ + fuel)
    (hmiss : findName b limit e.name fuel at_ = .ok none) :
    findName (putDirent b g e) limit e.name fuel at_ = .ok (some e.inode) := by
  have hfits := h.fits hneed
  -- at the new record the lookup ends
  have hnew : ∀ {fuel : Nat}, fuel ≠ 0 →
      Efishell.findName (putDirent b g e) limit e.name fuel (g.at_ + g.used) = .ok
        (some e.inode) := by
    intro fuel h0
    obtain ⟨fuel, rfl⟩ := Nat.exists_eq_succ_of_ne_zero h0
    have hr := h.newRecord hneed hn
    have h8 := (recordAt_some.mp hr).1
    rw [Efishell.findName, if_neg (by omega), hr]
    dsimp only
    rw [direntAt_putDirent hi hn, if_pos ⟨hi0, hne⟩, if_neg hz, if_pos rfl]
  have hsize := h.size_lt
  clear hneed hn hi hz
  induction h generalizing fuel with
  | here hr hu hroom =>
      have h8 := (recordAt_some.mp hr).1
      by_cases hz : rd32 b g.at_ = 0
      · have h0 : g.used = 0 := by rw [hu, direntUsed, if_neg (by simpa using hz)]
        rw [h0, Nat.add_zero] at hnew
        exact hnew (by omega)
      · obtain ⟨h8', hmod⟩ := direntUsed_pos hz
        rw [← hu] at h8' hmod
        have hend := (recordAt_some.mp hr).2.2.2.2.1
        have hle := hfits.used_le
        have hlen : putDirent b g e (g.at_ + 6) = b (g.at_ + 6) :=
          putDirent_head hfits (by omega) (by omega) (by omega)
        have hsame : direntAt (putDirent b g e) g.at_ = direntAt b g.at_ :=
          direntAt_congr h8' fun i hi h₄ h₅ => putDirent_head hfits hi h₄ h₅
        have hrec : recordAt (putDirent b g e) limit g.at_ = some g.used :=
          recordAt_some.mpr
            ⟨by omega, (putDirent_head_size hfits (by omega) hsize).symm, by omega, hmod,
            by omega, by rw [hlen]; exact h8'⟩
        obtain ⟨fuel, rfl⟩ := Nat.exists_eq_succ_of_ne_zero (show fuel ≠ 0 by omega)
        rw [findName_pass hrec (hsame ▸ (findName_step hr hmiss).2)]
        exact hnew (by omega)
  | @next at_ size hr hfull hreach ih =>
      have hbefore := hreach.le
      obtain ⟨h8, -, hs8, -, hend, hlen⟩ := recordAt_some.mp hr
      have hbytes : ∀ i < size, putDirent b g e (at_ + i) = b (at_ + i) :=
        fun i hi => putDirent_out hfits (.inl (by omega))
      have hrec : recordAt (putDirent b g e) limit at_ = some size :=
        (recordAt_congr fun i hi => hbytes i (by omega)).trans hr
      have hsame : direntAt (putDirent b g e) at_ = direntAt b at_ :=
        direntAt_congr hlen fun i hi _ _ => hbytes i hi
      obtain ⟨fuel, rfl⟩ := Nat.exists_eq_succ_of_ne_zero (show fuel ≠ 0 by omega)
      obtain ⟨hrest, hpass⟩ := findName_step hr hmiss
      rw [findName_pass hrec (hsame ▸ hpass)]
      exact ih (by omega) hrest

/-- A lookup reads the bytes before `limit`. -/
theorem findName_congr {b' : Bytes} (h : ∀ i < limit, b' i = b i) {fuel : Nat} : ∀ {at_ : Nat},
    Efishell.findName b' limit wanted fuel at_ = Efishell.findName b limit wanted fuel at_ := by
  induction fuel with
  | zero => exact rfl
  | succ fuel ih =>
      intro at_
      rw [Efishell.findName, Efishell.findName]
      by_cases hl : limit ≤ at_
      · rw [if_pos hl, if_pos hl]
      · rw [if_neg hl, if_neg hl]
        by_cases h8 : limit - at_ < 8
        · rw [recordAt, recordAt, if_pos h8, if_pos h8]
        · have hr : recordAt b' limit at_ = recordAt b limit at_ :=
            recordAt_congr fun i hi => h _ (by omega)
          rw [hr]
          cases hrec : recordAt b limit at_ with
          | none => rfl
          | some size =>
              obtain ⟨-, -, -, -, hend, hlen⟩ := recordAt_some.mp hrec
              have hsame : direntAt b' at_ = direntAt b at_ :=
                direntAt_congr hlen fun i hi _ _ => h _ (by omega)
              dsimp only
              rw [hsame, ih]

end Lookup

end Gap

end Efishell
