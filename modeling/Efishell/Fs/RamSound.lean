import Efishell.Fs.RamTree
import Efishell.Fs.FileMap
import Efishell.Memory.PhysicalRun

/-!
# File systems — nodes, pages and the map they stand for

`Vfs.map` reads the map off the nodes: a path leads to a node, and a node that is no directory
stands for the bytes in its pages.

`RamOk s image pages` is the invariant.  The call that runs may hold `pages` pages at `image`, which
are no node's yet; between two calls it holds none, which is `RamOk s 0 0`.  The lemmas follow the
way of the pages through a call: they are taken (`RamOk.alloc`), filled (`RamOk.fill`), and go to a
node (`RamOk.replace`) or back (`RamOk.abort`).  Only the step in which they go to a node changes
the map.

* `RamOk.new`: what `ram_new` does on a canonical path.
* `RamOk.alloc`, `RamOk.fill`, `RamOk.replace`, `RamOk.abort`: the way of the pages through a call.
-/

namespace Efishell

open Components Walk

variable {δ : Type}

/-! ### The map -/

/-- The bytes of a node. -/
def Vfs.content (s : Vfs δ) (i : Nat) : List UInt8 :=
  memSlice s.phys.mem (s.nodes i).data (s.nodes i).size

/-- What a node stands for. -/
def Vfs.entry (s : Vfs δ) (i : Nat) : Entry :=
  if (s.nodes i).directory = true then .dir else .file (s.content i)

/-- The map that the nodes stand for. -/
def Vfs.map (s : Vfs δ) : FileMap := fun st => (walk (childOf s.nodes) 0 st).map s.entry

/-- The pages of a node. -/
def RamNode.holds (r : RamNode) (p : Nat) : Prop :=
  r.data ≠ 0 ∧ r.data / 4096 ≤ p ∧ p < r.data / 4096 + r.pages

/-- What holds while a call runs that holds `pages` pages at `image`. -/
structure RamOk (s : Vfs δ) (image pages : Nat) : Prop where
  ready : s.ready = true
  mounts : s.mounts = []
  roots : RootsOk s.roots
  tree : RamTree s.nodes
  reached : ∀ i, (s.nodes i).used = true → ∃ st, walk (childOf s.nodes) 0 st = some i
  counted : PmmCounted s.phys.pmm
  held : PagesHeld s.phys.pmm (fun x : Option Nat => x.elim image fun i => (s.nodes i).data)
    fun x => x.elim pages fun i => (s.nodes i).pages
  sized : ∀ i, (s.nodes i).pages = pagesFor (s.nodes i).size
  placed : ∀ i, (s.nodes i).data = 0 ↔ (s.nodes i).size = 0
  small : ∀ i, (s.nodes i).size ≤ fatWriteMax
  plain : ∀ i, (s.nodes i).directory = true ∨ (s.nodes i).used = false → (s.nodes i).size = 0

/-! ### Bytes -/

@[simp] theorem memSlice_length (b : Bytes) (off n : Nat) : (memSlice b off n).length = n := by
  simp [memSlice]

/-- A slice depends on its own bytes only. -/
theorem memSlice_congr {b b' : Bytes} {off n : Nat} (h : ∀ i < n, b' (off + i) = b (off + i)) :
    memSlice b' off n = memSlice b off n := by
  refine List.map_congr_left fun i hi => h i (List.mem_range.mp hi)

theorem memSlice_getElem? (b : Bytes) (off n i : Nat) :
    (memSlice b off n)[i]? = if i < n then some (b (off + i)) else none := by
  rw [memSlice, List.getElem?_map]
  split
  · rename_i h
    rw [List.getElem?_range h, Option.map_some]
  · rename_i h
    rw [List.getElem?_eq_none (by simpa using h), Option.map_none]

/-- A part of a slice. -/
theorem memSlice_drop_take (b : Bytes) (off n offset k : Nat) :
    ((memSlice b off n).drop offset).take k = memSlice b (off + offset) (min k (n - offset)) := by
  ext i : 1
  rw [List.getElem?_take, List.getElem?_drop, memSlice_getElem?, memSlice_getElem?]
  by_cases hk : i < k
  · rw [if_pos hk, Nat.add_assoc]
    congr 1
    rw [eq_iff_iff]
    omega
  · rw [if_neg hk, if_neg (by omega)]

/-- What is stored is there, and nothing else changes. -/
theorem memStore_apply (b : Bytes) (dst : Nat) (data : List UInt8) (i : Nat) :
    memStore b dst data i = if dst ≤ i ∧ i < dst + data.length then data.getD (i - dst) 0
      else b i := by
  rw [memStore, memCopy, Nat.zero_add]

/-- Stored bytes are read back. -/
theorem memSlice_memStore (b : Bytes) (dst : Nat) (data : List UInt8) :
    memSlice (memStore b dst data) dst data.length = data := by
  ext i : 1
  rw [memSlice_getElem?]
  split
  · rename_i h
    rw [memStore_apply, if_pos ⟨by omega, by omega⟩, Nat.add_sub_cancel_left,
      List.getD_eq_getElem _ _ h, List.getElem?_eq_getElem h]
  · rename_i h
    rw [List.getElem?_eq_none (by omega)]

/-- The pages hold the bytes. -/
theorem le_pagesFor (size : Nat) : size ≤ 4096 * pagesFor size := by
  rw [pagesFor]
  omega

theorem pagesFor_pos {n : Nat} (h : n ≠ 0) : 0 < pagesFor n := by
  rw [pagesFor]
  omega

namespace FileMap

/-- A write ends the file at its own end or at the old one. -/
theorem writeAt_length (bytes : List UInt8) (offset : Nat) (data : List UInt8) :
    (writeAt bytes offset data).length = max bytes.length (offset + data.length) := by
  simp only [writeAt, List.length_append, List.length_take, List.length_replicate,
    List.length_drop]
  omega

/-- The bytes of a file after a positional write. -/
theorem writeAt_getElem? {bytes : List UInt8} {offset : Nat} {data : List UInt8} {i : Nat}
    (hi : i < max bytes.length (offset + data.length)) :
    (writeAt bytes offset data)[i]? = some (if offset ≤ i ∧ i < offset + data.length
      then data.getD (i - offset) 0 else bytes.getD i 0) := by
  have hlen :
      ((bytes ++ List.replicate (offset - bytes.length) 0).take offset).length = offset := by
    simp only [List.length_take, List.length_append, List.length_replicate]
    omega
  rw [writeAt, List.append_assoc]
  rcases Nat.lt_or_ge i offset with h | h
  · -- before the new bytes: old bytes, or the gap
    rw [List.getElem?_append_left (by omega), List.getElem?_take, if_pos h, if_neg (by omega)]
    rcases Nat.lt_or_ge i bytes.length with hb | hb
    · rw [List.getElem?_append_left hb, List.getElem?_eq_getElem hb, List.getD_eq_getElem _ _ hb]
    · rw [List.getElem?_append_right hb, List.getElem?_replicate, if_pos (by omega),
        List.getD_eq_default _ _ hb]
  · rw [List.getElem?_append_right (by omega), hlen]
    rcases Nat.lt_or_ge i (offset + data.length) with h' | h'
    · rw [List.getElem?_append_left (by omega), if_pos ⟨h, h'⟩,
        List.getElem?_eq_getElem (by omega), List.getD_eq_getElem _ _ (by omega)]
    · have hb : i < bytes.length := by omega
      rw [List.getElem?_append_right (by omega), List.getElem?_drop, if_neg (by omega),
        show offset + data.length + (i - offset - data.length) = i by omega,
        List.getElem?_eq_getElem hb, List.getD_eq_getElem _ _ hb]

end FileMap

/-! ### The way of the pages -/

/-- New data leaves the shape of the nodes. -/
theorem ramReplace_shape (s : Vfs δ) (index data size pages i : Nat) :
    ((ramReplace s index data size pages).nodes i).shape = (s.nodes i).shape := by
  rw [ramReplace]
  dsimp only
  rcases eq_or_ne i index with rfl | e
  · rw [Function.update_self]
    rfl
  · rw [Function.update_of_ne e]

/-- No run of free pages is long enough. -/
def Vfs.NoRun (s : Vfs δ) (pages : Nat) : Prop := ¬ ∃ start, s.phys.pmm.Run pages 1 0 start

namespace RamOk

variable {s : Vfs δ} {image pages : Nat}

/-- The bytes of a node stay clear of the pages of the call. -/
theorem apart (h : RamOk s image pages) {i k : Nat} (hk : k < (s.nodes i).size) (hi : image ≠ 0) :
    (s.nodes i).data + k < image ∨ image + 4096 * pages ≤ (s.nodes i).data + k := by
  have hd : (s.nodes i).data ≠ 0 := fun e => by
    have := (h.placed i).mp e
    omega
  have hle := le_pagesFor (s.nodes i).size
  rw [← h.sized i] at hle
  have := h.held.apart none (some i) (by simp) hi hd
  simp only [Option.elim_none, Option.elim_some] at this
  omega

/-- **The call takes pages**: they are zero and nobody else's, or there are none to take. -/
theorem alloc (h : RamOk s 0 0) {n image : Nat} {phys : Phys} (hn : 0 < n)
    (ha : kPmmAllocPages n 0 s.phys = (image, phys)) :
    (image = 0 ∧ phys = s.phys ∧ s.NoRun n) ∨
      (image ≠ 0 ∧ RamOk { s with phys } image n ∧
        (∀ b, image ≤ b → b < image + 4096 * n → phys.mem b = 0) ∧
        ∀ i, { s with phys }.content i = s.content i) := by
  have hspec : PmmAlloc s.phys n 1 0 (kPmmAllocAligned n 1 0 s.phys) := h.counted.alloc hn rfl
  rw [← kPmmAllocPages, ha] at hspec
  by_cases hi : image = 0
  · exact Or.inl ⟨hi, hspec.none_same hi, hspec.none_iff.mp hi⟩
  · refine Or.inr ⟨hi, ?_⟩
    rcases kPmmAllocAligned_cases n 1 0 s.phys with e | ⟨start, e, -, hrun, -, -⟩
    · rw [← kPmmAllocPages, ha] at e
      exact absurd (congrArg Prod.fst e) hi
    · have hcount := h.counted.allocAligned n 1 0
      rw [← kPmmAllocPages, ha] at e hcount
      obtain ⟨rfl, rfl⟩ := Prod.mk.inj e
      have hok : RamOk { s with phys := s.phys.claim start n } (4096 * start) n :=
        { h with counted := hcount, held := h.held.stage hn hrun }
      refine ⟨hok, fun b h₁ h₂ => ?_, fun i => memSlice_congr fun k hk => ?_⟩
      · exact if_pos ⟨h₁, h₂⟩
      · have hout := hok.apart hk hi
        refine if_neg ?_
        dsimp only at hout ⊢
        omega

/-- The call fills its pages. -/
theorem fill (h : RamOk s image pages) (mem : Bytes)
    (hmem : ∀ b, b < image ∨ image + 4096 * pages ≤ b → mem b = s.phys.mem b) (hi : image ≠ 0) :
    RamOk { s with phys := { s.phys with mem } } image pages ∧
      ∀ i, { s with phys := { s.phys with mem } }.content i = s.content i := by
  refine ⟨{ h with }, fun i => memSlice_congr fun k hk => ?_⟩
  exact hmem _ (h.apart hk hi)

/-- The call gives its pages back. -/
theorem abort (h : RamOk s image pages) (hi : image ≠ 0) :
    RamOk { s with phys := { s.phys with pmm := kPmmFreePages image pages s.phys.pmm } } 0 0 :=
  { h with counted := h.counted.freePages image pages, held := h.held.unstage 0 hi }

/-- **The pages of the call go to a file**, and its old pages back. -/
theorem replace (h : RamOk s image pages) {index size : Nat}
    (hu : (s.nodes index).used = true) (hd : (s.nodes index).directory = false)
    (hs : size ≤ fatWriteMax) (hp : pages = pagesFor size) (hz : image = 0 ↔ size = 0) :
    RamOk (ramReplace s index image size pages) 0 0 := by
  have hother : ∀ {j}, j ≠ index → (ramReplace s index image size pages).nodes j = s.nodes j :=
    fun e => Function.update_of_ne e _ _
  have hself : (ramReplace s index image size pages).nodes index =
      { s.nodes index with data := image, size := size, pages := pages } := Function.update_self ..
  have hpmm : (ramReplace s index image size pages).phys.pmm =
      if (s.nodes index).data ≠ 0
        then kPmmFreePages (s.nodes index).data (s.nodes index).pages s.phys.pmm
        else s.phys.pmm := by
    rw [ramReplace]
    dsimp only
    split <;> rfl
  have hshape := ramReplace_shape s index image size pages
  refine ⟨h.ready, h.mounts, h.roots, h.tree.shape hshape, fun j hj => ?_, ?_, ?_, fun j => ?_,
    fun j => ?_, fun j => ?_, fun j => ?_⟩
  · rw [childOf_shape hshape]
    rw [(RamNode.shape_eq (hshape j)).1] at hj
    exact h.reached j hj
  · rw [hpmm]
    split
    · exact h.counted.freePages _ _
    · exact h.counted
  · rw [hpmm]
    refine (h.held.exchange 0 index).congr (fun x => ?_) fun x _ => ?_
    · cases x with
      | none => rfl
      | some j =>
          rcases eq_or_ne j index with rfl | e
          · simp [hself]
          · simp [hother e, e]
    · cases x with
      | none => rfl
      | some j =>
          rcases eq_or_ne j index with rfl | e
          · simp [hself]
          · simp [hother e, e]
  · rcases eq_or_ne j index with rfl | e
    · rw [hself]
      exact hp
    · rw [hother e]
      exact h.sized j
  · rcases eq_or_ne j index with rfl | e
    · rw [hself]
      exact hz
    · rw [hother e]
      exact h.placed j
  · rcases eq_or_ne j index with rfl | e
    · rw [hself]
      exact hs
    · rw [hother e]
      exact h.small j
  · rcases eq_or_ne j index with rfl | e
    · rw [hself]
      intro hor
      rcases hor with hor | hor
      · exact absurd hor (by simp [hd])
      · exact absurd hor (by simp [hu])
    · rw [hother e]
      exact h.plain j

end RamOk

/-! ### What becomes of the map -/

/-- Every entry of the table is in use. -/
def Vfs.Full (s : Vfs δ) : Prop := ∀ i ∈ nodeIndices, (s.nodes i).used = true

/-- An entry depends on its node and its bytes only. -/
theorem Vfs.entry_congr {s s' : Vfs δ} {i : Nat} (hn : s'.nodes i = s.nodes i)
    (hc : s'.content i = s.content i) : s'.entry i = s.entry i := by
  rw [Vfs.entry, Vfs.entry, hn, hc]

/-- A fresh node is an empty directory or an empty file. -/
theorem Vfs.entry_fresh {s : Vfs δ} {q i : Nat} {directory : Bool} {c : Name}
    (hn : s.nodes i = .fresh q directory c) :
    s.entry i = if directory then .dir else .file [] := by
  rw [Vfs.entry, Vfs.content, hn]
  cases directory <;> rfl

/-- The map depends on the nodes and the bytes only. -/
theorem Vfs.map_congr {s s' : Vfs δ} (hn : s'.nodes = s.nodes)
    (hc : ∀ i, s'.content i = s.content i) : s'.map = s.map := by
  have hentry : s'.entry = s.entry := funext fun i => Vfs.entry_congr (congrFun hn i) (hc i)
  funext st
  rw [Vfs.map, Vfs.map, hn, hentry]

/-- A path that walks to a node has its entry. -/
theorem Vfs.map_eq {s : Vfs δ} {st : List Name} {i : Nat}
    (hw : walk (childOf s.nodes) 0 st = some i) : s.map st = some (s.entry i) := by
  rw [Vfs.map, hw, Option.map_some]

/-- A path that walks nowhere has none. -/
theorem Vfs.map_none {s : Vfs δ} {st : List Name} (hw : walk (childOf s.nodes) 0 st = none) :
    s.map st = none := by
  rw [Vfs.map, hw, Option.map_none]

theorem Vfs.entry_dir {s : Vfs δ} {i : Nat} (h : (s.nodes i).directory = true) : s.entry i = .dir :=
  if_pos h

theorem Vfs.entry_file {s : Vfs δ} {i : Nat} (h : (s.nodes i).directory = false) :
    s.entry i = .file (s.content i) := if_neg (by simp [h])

/-- Paths that led somewhere lead there still, and what stands there has the same shape. -/
def Vfs.Keeps (s s' : Vfs δ) : Prop :=
  ∀ st i, walk (childOf s.nodes) 0 st = some i →
    walk (childOf s'.nodes) 0 st = some i ∧ (s'.nodes i).shape = (s.nodes i).shape

theorem Vfs.Keeps.refl (s : Vfs δ) : s.Keeps s := fun _ _ hw => ⟨hw, rfl⟩

theorem Vfs.Keeps.trans {s s' s'' : Vfs δ} (h : s.Keeps s') (h' : s'.Keeps s'') : s.Keeps s'' := by
  intro st i hw
  obtain ⟨hw', hs⟩ := h st i hw
  obtain ⟨hw'', hs'⟩ := h' st i hw'
  exact ⟨hw'', hs'.trans hs⟩

/-- New data keeps every path. -/
theorem ramReplace_keeps (s : Vfs δ) (index data size pages : Nat) :
    s.Keeps (ramReplace s index data size pages) := by
  have hshape := ramReplace_shape s index data size pages
  intro st i hw
  rw [childOf_shape hshape]
  exact ⟨hw, hshape i⟩

namespace RamOk

variable {s : Vfs δ} {image pages : Nat}

/-- The map after the bytes of a file were replaced. -/
theorem map_replace (h : RamOk s image pages) {st : List Name} {index : Nat} (size : Nat)
    (hw : walk (childOf s.nodes) 0 st = some index) (hd : (s.nodes index).directory = false) :
    (ramReplace s index image size pages).map =
      Function.update s.map st (some (.file (memSlice s.phys.mem image size))) := by
  have hchild := childOf_shape (ramReplace_shape s index image size pages)
  have hmem : (ramReplace s index image size pages).phys.mem = s.phys.mem := by
    rw [ramReplace]
    dsimp only
    split <;> rfl
  have hself : (ramReplace s index image size pages).nodes index =
      { s.nodes index with data := image, size := size, pages := pages } := Function.update_self ..
  funext t
  rw [Vfs.map, hchild]
  rcases eq_or_ne t st with rfl | hne
  · rw [Function.update_self, hw, Option.map_some, Vfs.entry_file (by rw [hself]; exact hd),
      Vfs.content, hself, hmem]
  · rw [Function.update_of_ne hne, Vfs.map]
    cases ht : walk (childOf s.nodes) 0 t with
    | none => rfl
    | some j =>
        have hj : j ≠ index := by
          rintro rfl
          exact hne (h.tree.rooted.walk_injective ht hw)
        have hother : (ramReplace s index image size pages).nodes j = s.nodes j :=
          Function.update_of_ne hj _ _
        rw [Option.map_some, Option.map_some, Vfs.entry_congr hother]
        rw [Vfs.content, Vfs.content, hother, hmem]

/-- The map with a new node. -/
theorem map_grow (h : RamOk s image pages) {q i : Nat} {st : List Name} {c : Name}
    (hw : walk (childOf s.nodes) 0 st = some q) (hd : (s.nodes q).directory = true)
    (hc : ramChild s.nodes q c = none) (hi : i ∈ nodeIndices) (hu : (s.nodes i).used = false)
    (directory : Bool) {s' : Vfs δ}
    (hs : s' = { s with nodes := Function.update s.nodes i (.fresh q directory c) }) :
    s.Keeps s' ∧ walk (childOf s'.nodes) 0 (st ++ [c]) = some i ∧
      s'.map = Function.update s.map (st ++ [c]) (some (if directory then .dir else .file [])) := by
  have hsprout := h.tree.sprouts (h.tree.used_of_walk hw) hd hc hi hu directory
  have hnodes : s'.nodes = Function.update s.nodes i (.fresh q directory c) := by rw [hs]
  have hmem : s'.phys = s.phys := by rw [hs]
  have hwalk : ∀ t, walk (childOf s'.nodes) 0 t =
      if t = st ++ [c] then some i else walk (childOf s.nodes) 0 t := by
    rw [hnodes]
    exact hsprout.walk_eq h.tree.rooted hw
  have hnode : ∀ {j}, (s.nodes j).used = true → s'.nodes j = s.nodes j := by
    intro j hj
    rw [hnodes]
    refine Function.update_of_ne ?_ _ _
    rintro rfl
    rw [hu] at hj
    cases hj
  refine ⟨fun t j ht => ?_, by rw [hwalk, if_pos rfl], ?_⟩
  · have hold : t ≠ st ++ [c] := by
      rintro rfl
      rw [walk_concat, hw, Option.bind_some, h.tree.childOf_eq, hc] at ht
      cases ht
    rw [hwalk, if_neg hold, hnode (h.tree.used_of_walk ht)]
    exact ⟨ht, rfl⟩
  · funext t
    rw [Vfs.map, hwalk]
    rcases eq_or_ne t (st ++ [c]) with rfl | hnt
    · have hfresh : s'.nodes i = .fresh q directory c := by rw [hnodes, Function.update_self]
      rw [if_pos rfl, Function.update_self, Option.map_some, Vfs.entry_fresh hfresh]
    · rw [if_neg hnt, Function.update_of_ne hnt, Vfs.map]
      cases ht : walk (childOf s.nodes) 0 t with
      | none => rfl
      | some j =>
          have hj := hnode (h.tree.used_of_walk ht)
          rw [Option.map_some, Option.map_some, Vfs.entry_congr hj]
          rw [Vfs.content, Vfs.content, hj, hmem]

/-- The nodes with a new one. -/
theorem grow (h : RamOk s image pages) {q i : Nat} {st : List Name} {c : Name}
    (hw : walk (childOf s.nodes) 0 st = some q) (hd : (s.nodes q).directory = true)
    (hc : ramChild s.nodes q c = none) (hi : i ∈ nodeIndices) (hu : (s.nodes i).used = false)
    (directory : Bool) :
    RamOk { s with nodes := Function.update s.nodes i (.fresh q directory c) } image pages := by
  have hsize := h.plain i (Or.inr hu)
  have hdata := (h.placed i).mpr hsize
  -- the entry held no pages before and holds none now
  have hfield : ∀ (f : RamNode → Nat) j, f (.fresh q directory c) = f (s.nodes i) →
      f (Function.update s.nodes i (.fresh q directory c) j) = f (s.nodes j) := by
    intro f j hf
    rcases eq_or_ne j i with rfl | e
    · rw [Function.update_self, hf]
    · rw [Function.update_of_ne e]
  have hsizes : ∀ j, (Function.update s.nodes i (.fresh q directory c) j).size = (s.nodes j).size :=
    fun j => hfield RamNode.size j hsize.symm
  have hdatas : ∀ j, (Function.update s.nodes i (.fresh q directory c) j).data = (s.nodes j).data :=
    fun j => hfield RamNode.data j hdata.symm
  have hpages :
      ∀ j, (Function.update s.nodes i (.fresh q directory c) j).pages = (s.nodes j).pages := by
    refine fun j => hfield RamNode.pages j ?_
    rw [h.sized i, hsize]
    rfl
  obtain ⟨hkeep, hleaf, -⟩ := h.map_grow hw hd hc hi hu directory rfl
  refine { h with
    tree := h.tree.grow (h.tree.used_of_walk hw) hd hc hi hu directory
    reached := fun j hj => ?_
    held := ?_, sized := ?_, placed := ?_, small := ?_, plain := ?_ }
  · rcases eq_or_ne j i with rfl | e
    · exact ⟨_, hleaf⟩
    · dsimp only at hj
      rw [Function.update_of_ne e] at hj
      obtain ⟨t, ht⟩ := h.reached j hj
      exact ⟨t, (hkeep t j ht).1⟩
  · simpa only [hdatas, hpages] using h.held
  · simpa only [hsizes, hpages] using h.sized
  · simpa only [hsizes, hdatas] using h.placed
  · simpa only [hsizes] using h.small
  · intro j hj
    dsimp only at hj ⊢
    rcases eq_or_ne j i with rfl | e
    · rw [Function.update_self]
      rfl
    · rw [Function.update_of_ne e] at hj ⊢
      exact h.plain j hj

/-- **What `ram_new` does** on a canonical path: it fails as the map does, finds the table full, or
adds an empty entry to the map. -/
theorem new (h : RamOk s image pages) (p : NormalPath) (directory : Bool) :
    (∃ e, ramNew p.text directory s.nodes = .error e ∧ ∀ x, s.map.add p.stack x = .error e) ∨
      (ramNew p.text directory s.nodes = .error .enomem ∧ s.Full) ∨
      ∃ i nodes, ramNew p.text directory s.nodes = .ok (i, nodes) ∧
        (∀ x, s.map.add p.stack x = .ok (Function.update s.map p.stack (some x))) ∧
        RamOk { s with nodes } image pages ∧ s.Keeps { s with nodes } ∧
        walk (childOf nodes) 0 p.stack = some i ∧ (nodes i).directory = directory ∧
        { s with nodes }.map =
          Function.update s.map p.stack (some (if directory then .dir else .file [])) := by
  rcases List.eq_nil_or_concat p.stack with hst | ⟨st, c, hst⟩
  · exact Or.inl ⟨.eexist, ramNew_root p hst directory, fun x => if_pos hst⟩
  rw [List.concat_eq_append] at hst
  have hne : p.stack ≠ [] := by simp [hst]
  have hinit : p.stack.dropLast = st := by rw [hst, List.dropLast_concat]
  have hnew := ramNew_text s.nodes p hst directory
  cases hw : walk (childOf s.nodes) 0 st with
  | none =>
      rw [hw] at hnew
      refine Or.inl ⟨.enoent, hnew, fun x => ?_⟩
      rw [FileMap.add, if_neg hne, hinit, Vfs.map_none hw, if_pos (by simp)]
  | some q =>
      rw [hw] at hnew
      dsimp only at hnew
      cases hd : (s.nodes q).directory with
      | false =>
          rw [if_pos hd] at hnew
          refine Or.inl ⟨.enoent, hnew, fun x => ?_⟩
          rw [FileMap.add, if_neg hne, hinit, Vfs.map_eq hw, Vfs.entry_file hd, if_pos (by simp)]
      | true =>
          have hdir : ¬ s.map p.stack.dropLast ≠ some .dir := by
            rw [hinit, Vfs.map_eq hw, Vfs.entry_dir hd]
            simp
          have hlast : walk (childOf s.nodes) 0 p.stack = ramChild s.nodes q c := by
            rw [hst, walk_concat, hw, Option.bind_some, h.tree.childOf_eq]
          rw [if_neg (by simp [hd])] at hnew
          cases hc : ramChild s.nodes q c with
          | some j =>
              rw [hc, if_pos (by simp)] at hnew
              refine Or.inl ⟨.eexist, hnew, fun x => ?_⟩
              rw [FileMap.add, if_neg hne, if_neg hdir, Vfs.map_eq (hlast.trans hc),
                if_pos (by simp)]
          | none =>
              rw [hc, if_neg (by simp)] at hnew
              have hadd :
                  ∀ x, s.map.add p.stack x = .ok (Function.update s.map p.stack (some x)) := by
                intro x
                rw [FileMap.add, if_neg hne, if_neg hdir, Vfs.map_none (hlast.trans hc),
                  if_neg (by simp)]
              -- the name is free: only an entry for it can be missing
              cases hf : nodeIndices.find? fun i => !(s.nodes i).used with
              | none =>
                  rw [hf] at hnew
                  refine Or.inr (Or.inl ⟨hnew, fun i hi => ?_⟩)
                  simpa using List.find?_eq_none.mp hf i hi
              | some i =>
                  rw [hf] at hnew
                  have hi := List.mem_of_find?_eq_some hf
                  have hu : (s.nodes i).used = false := by simpa using List.find?_some hf
                  obtain ⟨hkeep, hleaf, hmap⟩ := h.map_grow hw hd hc hi hu directory rfl
                  rw [← hst] at hleaf hmap
                  refine Or.inr (Or.inr ⟨i, _, hnew, hadd,
                    h.grow hw hd hc hi hu directory, hkeep, hleaf, ?_, hmap⟩)
                  rw [Function.update_self]
                  rfl

end RamOk

end Efishell
