import Efishell.Fs.RamSound

/-!
# File systems — the calls on nodes in memory

One lemma for each call, against the function on the map that it stands for.  `Vfs.Stable s s'` is
what every call keeps: the invariant, the roots and the paths of the nodes that were there.
`Changes` says how the map ends: as the function on the map has it, or unchanged for want of an
entry or of pages.

* `RamOk.mkdir`, `RamOk.put`, `RamOk.create`, `RamOk.write`: the calls that change the map.
* `RamOk.kVfsOpen`, `RamOk.read`, `RamOk.stat`: the calls that read it.
-/

namespace Efishell

open Components Walk

variable {δ : Type}

/-- What every call keeps. -/
structure Vfs.Stable (s s' : Vfs δ) : Prop where
  ok : RamOk s' 0 0
  keeps : s.Keeps s'
  roots : s'.roots = s.roots

theorem RamOk.stable {s : Vfs δ} (h : RamOk s 0 0) : Vfs.Stable s s := ⟨h, .refl s, rfl⟩

/-- How a call ends whose effect on the map is `spec`; `full` is what it may run out of. -/
inductive Changes (s : Vfs δ) (spec : Except Errno FileMap) (full : Prop) :
    Except Errno Unit × Vfs δ → Prop where
  | refused {e : Errno} {s' : Vfs δ} (hr : spec = .error e) (hm : s'.map = s.map) :
      Changes s spec full (.error e, s')
  | done {m : FileMap} {s' : Vfs δ} (hr : spec = .ok m) (hm : s'.map = m) :
      Changes s spec full (.ok (), s')
  | noRoom {s' : Vfs δ} (hf : full) (hm : s'.map = s.map) : Changes s spec full (.error .enomem, s')

/-- With no volume mounted every path belongs to the nodes in memory. -/
theorem RamOk.mount {s : Vfs δ} {image pages : Nat} (h : RamOk s image pages) (path : List UInt8) :
    chooseMount path s.mounts = none := by rw [h.mounts]; rfl

/-- A resolved path is canonical. -/
theorem RamOk.resolved {s : Vfs δ} {image pages : Nat} (h : RamOk s image pages)
    {path out : List UInt8} (hr : kPathResolve s.roots path [slash] = .ok out) :
    ∃ p : NormalPath, out = p.text ∧ components slash out = p.stack := by
  obtain ⟨_, _, _, _, hout, _⟩ := kPathResolve_spec h.roots canonical_slash hr
  obtain ⟨p, rfl⟩ := hout.canonical
  exact ⟨p, rfl, p.components⟩

/-! ### New nodes -/

/-- `k_vfs_mkdir` on the map. -/
theorem RamOk.mkdir {s : Vfs δ} (h : RamOk s 0 0) (fs : Drivers δ) {path : List UInt8}
    {p : NormalPath} (hr : kPathResolve s.roots path [slash] = .ok p.text) :
    Vfs.Stable s (kVfsMkdir fs path s).2 ∧
      Changes s (s.map.mkdir p.stack) s.Full (kVfsMkdir fs path s) := by
  rw [kVfsMkdir, if_neg (by simp [h.ready]), hr]
  dsimp only
  rw [h.mount]
  dsimp only
  rcases h.new p true with ⟨e, hnew, hadd⟩ | ⟨hnew, hfull⟩ |
    ⟨i, nodes, hnew, hadd, hok, hkeep, -, -, hmap⟩
  · rw [hnew]
    exact ⟨h.stable, .refused (hadd .dir) rfl⟩
  · rw [hnew]
    exact ⟨h.stable, .noRoom hfull rfl⟩
  · rw [hnew]
    exact ⟨⟨hok, hkeep, rfl⟩, .done (hadd .dir) hmap⟩

/-! ### Bytes -/

theorem memStore_nil (b : Bytes) (dst : Nat) : memStore b dst [] = b := by
  funext i
  rw [memStore_apply, if_neg (by simp)]

namespace RamOk

variable {s : Vfs δ} {image pages : Nat}

/-- The pages that `k_vfs_put` takes; for no bytes it takes none. -/
theorem stage (h : RamOk s 0 0) (size : Nat) {phys : Phys}
    (ha : (if pagesFor size ≠ 0 then kPmmAllocPages (pagesFor size) 0 s.phys else (0, s.phys)) =
      (image, phys)) :
    (pagesFor size ≠ 0 ∧ image = 0 ∧ phys = s.phys ∧ s.NoRun (pagesFor size)) ∨
      ((image = 0 ↔ size = 0) ∧ RamOk { s with phys } image (pagesFor size) ∧
        { s with phys }.map = s.map) := by
  by_cases hz : size = 0
  · subst hz
    obtain ⟨rfl, rfl⟩ := Prod.mk.inj ha
    exact Or.inr ⟨by simp, h, rfl⟩
  · have hp := pagesFor_pos hz
    rw [if_pos (by omega)] at ha
    rcases h.alloc hp ha with ⟨hi, hphys, hno⟩ | ⟨hi, hok, -, hc⟩
    · exact Or.inl ⟨by omega, hi, hphys, hno⟩
    · exact Or.inr ⟨by simp [hi, hz], hok, Vfs.map_congr rfl hc⟩

/-- The bytes go to the pages of the call. -/
theorem store (h : RamOk s image pages) {bytes : List UInt8} (hz : image = 0 ↔ bytes.length = 0)
    (hp : pages = pagesFor bytes.length) {s' : Vfs δ}
    (hs : s' = { s with phys := { s.phys with mem := memStore s.phys.mem image bytes } }) :
    RamOk s' image pages ∧ s'.map = s.map ∧ memSlice s'.phys.mem image bytes.length = bytes := by
  subst hs
  by_cases hi : image = 0
  · obtain rfl := List.length_eq_zero_iff.mp (hz.mp hi)
    rw [memStore_nil]
    exact ⟨h, rfl, rfl⟩
  · have hle := le_pagesFor bytes.length
    obtain ⟨hok, hc⟩ := h.fill (memStore s.phys.mem image bytes) (fun b hb => by
      rw [memStore_apply, if_neg (by rw [hp] at hb; omega)]) hi
    exact ⟨hok, Vfs.map_congr rfl hc, memSlice_memStore _ _ _⟩

/-- Bytes that are in the pages of the call become the file at `st`. -/
theorem publish (h : RamOk s image pages) {st : List Name} {index : Nat} {bytes : List UInt8}
    (hw : walk (childOf s.nodes) 0 st = some index) (hd : (s.nodes index).directory = false)
    (hb : bytes.length ≤ fatWriteMax) (hz : image = 0 ↔ bytes.length = 0)
    (hp : pages = pagesFor bytes.length)
    (hbytes : memSlice s.phys.mem image bytes.length = bytes) :
    Vfs.Stable s (ramReplace s index image bytes.length pages) ∧
      (ramReplace s index image bytes.length pages).map =
        Function.update s.map st (some (.file bytes)) := by
  refine ⟨⟨?_, ramReplace_keeps s index image bytes.length pages, rfl⟩, ?_⟩
  · exact h.replace (h.tree.used_of_walk hw) hd hb hp hz
  · rw [h.map_replace bytes.length hw hd, hbytes]

end RamOk

/-- `k_vfs_put` once it has found a file or nothing: pages, then a node, then the bytes. -/
def putBytes (found : Option Nat) (path bytes : List UInt8) (s : Vfs δ) :
    Except Errno Unit × Vfs δ :=
  match (if pagesFor bytes.length ≠ 0 then kPmmAllocPages (pagesFor bytes.length) 0 s.phys
    else (0, s.phys)) with
  | (data, phys) =>
    if pagesFor bytes.length ≠ 0 ∧ data = 0 then (.error .enomem, { s with phys })
    else
      match ramTarget found path s.nodes with
      | .error e =>
        (.error e, { s with
          phys := if data ≠ 0
            then { phys with pmm := kPmmFreePages data (pagesFor bytes.length) phys.pmm }
              else phys })
      | .ok (index, nodes) =>
        (.ok (),
          ramReplace { s with nodes, phys := { phys with mem := memStore phys.mem data bytes } }
          index data bytes.length (pagesFor bytes.length))

/-- The two branches of `k_vfs_put` below the path. -/
theorem ramPut_eq (path bytes : List UInt8) (s : Vfs δ) :
    ramPut path bytes s =
      if ((ramWalk s.nodes path).any fun i => (s.nodes i).directory || (s.nodes i).kind != 1) = true
      then (.error .einval, s) else putBytes (ramWalk s.nodes path) path bytes s := rfl

/-- With a target in hand, `putBytes` does to the map what the target does, and then the bytes. -/
theorem RamOk.putBytes {s : Vfs δ} (h : RamOk s 0 0) {found : Option Nat} (p : NormalPath)
    {bytes : List UInt8} (hb : bytes.length ≤ fatWriteMax)
    (hfound : walk (childOf s.nodes) 0 p.stack = found)
    (hfile : ∀ i, found = some i → (s.nodes i).directory = false) :
    Vfs.Stable s (putBytes found p.text bytes s).2 ∧
      Changes s (s.map.put p.stack bytes) (s.Full ∨ s.NoRun (pagesFor bytes.length))
        (putBytes found p.text bytes s) := by
  rw [Efishell.putBytes]
  generalize halloc :
      (if pagesFor bytes.length ≠ 0 then kPmmAllocPages (pagesFor bytes.length) 0 s.phys
    else (0, s.phys)) = alloc
  obtain ⟨data, phys⟩ := alloc
  dsimp only
  rcases h.stage bytes.length halloc with ⟨hp, hz, rfl, hno⟩ | ⟨hz, hok, hmap⟩
  · rw [if_pos ⟨hp, hz⟩]
    exact ⟨h.stable, .noRoom (Or.inr hno) rfl⟩
  rw [if_neg fun hcon => hcon.1 (by rw [hz.mp hcon.2]; rfl)]
  -- a file that is there, or a new one, of which the pages are then the bytes
  have hpublish : ∀ {index nodes} {m : FileMap},
      RamOk { s with nodes, phys } data (pagesFor bytes.length) →
      s.Keeps { s with nodes, phys } → walk (childOf nodes) 0 p.stack = some index →
      (nodes index).directory = false → { s with nodes, phys }.map = m →
      s.map.put p.stack bytes = .ok (Function.update m p.stack (some (.file bytes))) →
      Vfs.Stable s
        (ramReplace { s with nodes, phys := { phys with mem := memStore phys.mem data bytes } }
          index data bytes.length (pagesFor bytes.length)) ∧
        Changes s (s.map.put p.stack bytes) (s.Full ∨ s.NoRun (pagesFor bytes.length))
          (.ok (),
            ramReplace { s with nodes, phys := { phys with mem := memStore phys.mem data bytes } }
            index data bytes.length (pagesFor bytes.length)) := by
    intro index nodes m hok hkeep hw hd hm hput
    obtain ⟨hok', hmap', hbytes⟩ := hok.store hz rfl rfl
    obtain ⟨hstable, hmap''⟩ := hok'.publish hw hd hb hz rfl hbytes
    refine ⟨⟨hstable.ok, hkeep.trans hstable.keeps, rfl⟩, .done hput ?_⟩
    rw [hmap'', hmap', hm]
  cases found with
  | some i =>
      have hd := hfile i rfl
      refine hpublish (m := s.map) hok (.refl s) hfound hd hmap ?_
      rw [FileMap.put, Vfs.map_eq hfound, Vfs.entry_file hd]
  | none =>
      have hput : s.map.put p.stack bytes = s.map.add p.stack (.file bytes) := by
        rw [FileMap.put, Vfs.map_none hfound]
      have habort : Vfs.Stable s { s with
            phys := if data ≠ 0
              then { phys with pmm := kPmmFreePages data (pagesFor bytes.length) phys.pmm }
                else phys } ∧
          { s with
            phys := if data ≠ 0
              then { phys with pmm := kPmmFreePages data (pagesFor bytes.length) phys.pmm }
              else phys }.map = s.map := by
        split
        · rename_i hd
          exact ⟨⟨hok.abort hd, .refl s, rfl⟩, hmap⟩
        · rename_i hd
          have hd := not_not.mp hd
          rw [hd, hz.mp hd] at hok
          exact ⟨⟨hok, .refl s, rfl⟩, hmap⟩
      rw [ramTarget]
      rcases hok.new p false with ⟨e, hnew, hadd⟩ | ⟨hnew, hfull⟩ |
        ⟨i, nodes, hnew, hadd, hok', hkeep, hw, hd, hmap'⟩
      · rw [hnew]
        rw [hmap] at hadd
        exact ⟨habort.1, .refused (hput.trans (hadd _)) habort.2⟩
      · rw [hnew]
        exact ⟨habort.1, .noRoom (Or.inl hfull) habort.2⟩
      · rw [hnew]
        rw [hmap] at hadd hmap'
        refine hpublish hok' hkeep hw hd hmap' ?_
        rw [hput, hadd, Function.update_idem]

/-- The RAM branch of `k_vfs_put` on the map. -/
theorem RamOk.ramPut {s : Vfs δ} (h : RamOk s 0 0) (p : NormalPath) {bytes : List UInt8}
    (hb : bytes.length ≤ fatWriteMax) :
    Vfs.Stable s (ramPut p.text bytes s).2 ∧
      Changes s (s.map.put p.stack bytes) (s.Full ∨ s.NoRun (pagesFor bytes.length))
        (ramPut p.text bytes s) := by
  rw [ramPut_eq, ramWalk_text]
  cases hw : walk (childOf s.nodes) 0 p.stack with
  | none =>
      rw [if_neg (by simp)]
      exact h.putBytes p hb hw (by simp)
  | some i =>
      have hk := h.tree.kind i (h.tree.used_of_walk hw)
      cases hd : (s.nodes i).directory with
      | true =>
          rw [if_pos (by simp [hd])]
          refine ⟨h.stable, .refused ?_ rfl⟩
          rw [FileMap.put, Vfs.map_eq hw, Vfs.entry_dir hd]
      | false =>
          rw [if_neg (by simp [hd, hk])]
          refine h.putBytes p hb hw fun j hj => ?_
          rw [← Option.some.inj hj]
          exact hd

/-- `k_vfs_put` on the map. -/
theorem RamOk.put {s : Vfs δ} (h : RamOk s 0 0) (fs : Drivers δ) {path bytes : List UInt8}
    {p : NormalPath} (hr : kPathResolve s.roots path [slash] = .ok p.text)
    (hb : bytes.length ≤ fatWriteMax) :
    Vfs.Stable s (kVfsPut fs path bytes s).2 ∧
      Changes s (s.map.put p.stack bytes) (s.Full ∨ s.NoRun (pagesFor bytes.length))
        (kVfsPut fs path bytes s) := by
  have hcall : kVfsPut fs path bytes s = Efishell.ramPut p.text bytes s := by
    rw [kVfsPut, if_neg (by simp [h.ready, hb]), hr]
    dsimp only
    rw [h.mount]
  rw [hcall]
  exact h.ramPut p hb

/-! ### Handles -/

/-- The handle of a node. -/
def Vfs.handle (s : Vfs δ) (n : Nat) : KFile :=
  ⟨1, n, 0, if (s.nodes n).directory then 0x10 else 0, (s.nodes n).size, 0⟩

/-- The handle stands for the node at `st`; its size may be out of date. -/
structure Vfs.Denotes (s : Vfs δ) (f : KFile) (st : List Name) : Prop where
  kind : f.kind = 1
  node : walk (childOf s.nodes) 0 st = some f.object
  attributes : f.attributes = if (s.nodes f.object).directory then 0x10 else 0

/-- A handle keeps its meaning while the tree only grows. -/
theorem Vfs.Denotes.keeps {s s' : Vfs δ} {f : KFile} {st : List Name} (h : s.Denotes f st)
    (hk : s.Keeps s') : s'.Denotes f st := by
  obtain ⟨hw, hs⟩ := hk st f.object h.node
  refine ⟨h.kind, hw, ?_⟩
  rw [(RamNode.shape_eq hs).2.1]
  exact h.attributes

/-- The size in a handle does not matter. -/
theorem Vfs.Denotes.size {s : Vfs δ} {f : KFile} {st : List Name} (h : s.Denotes f st) (n : Nat) :
    s.Denotes { f with size := n } st := ⟨h.kind, h.node, h.attributes⟩

theorem Vfs.entry_isDir (s : Vfs δ) (i : Nat) :
    (s.entry i).isDir = (s.nodes i).directory := by
  cases hd : (s.nodes i).directory with
  | true => rw [Vfs.entry_dir hd, Entry.isDir]
  | false => rw [Vfs.entry_file hd, Entry.isDir]

/-- A new handle denotes the path it was opened by. -/
theorem Vfs.denotes_handle {s : Vfs δ} {n : Nat} {st : List Name}
    (hw : walk (childOf s.nodes) 0 st = some n) : s.Denotes (s.handle n) st := ⟨rfl, hw, rfl⟩

namespace RamOk

variable {s : Vfs δ} {image pages : Nat}

/-- The size of an entry is the node's. -/
theorem entry_size (h : RamOk s image pages) (i : Nat) : (s.entry i).size = (s.nodes i).size := by
  cases hd : (s.nodes i).directory with
  | true => rw [Vfs.entry_dir hd, h.plain i (Or.inl hd), Entry.size]
  | false => rw [Vfs.entry_file hd, Entry.size, Vfs.content, memSlice_length]

/-- `vfs_open_locked` finds the node the path walks to. -/
theorem openLocked (h : RamOk s image pages) (fs : Drivers δ) (p : NormalPath) :
    vfsOpenLocked fs p.text s =
      match walk (childOf s.nodes) 0 p.stack with
      | none => (.error .enoent, s)
      | some n => (.ok (s.handle n), s) := by
  rw [vfsOpenLocked, h.mount, ramWalk_text]
  cases hw : walk (childOf s.nodes) 0 p.stack with
  | none => rfl
  | some n =>
      have hk := h.tree.kind n (h.tree.used_of_walk hw)
      dsimp only
      rw [hk, Vfs.handle]
      rfl

/-- `k_vfs_open` finds it from the resolved path. -/
theorem kVfsOpen (h : RamOk s image pages) (fs : Drivers δ) {path : List UInt8} {p : NormalPath}
    (hr : kPathResolve s.roots path [slash] = .ok p.text) :
    kVfsOpen fs path s =
      match walk (childOf s.nodes) 0 p.stack with
      | none => (.error .enoent, s)
      | some n => (.ok (s.handle n), s) := by
  rw [Efishell.kVfsOpen, if_neg (by simp [h.ready]), hr]
  exact h.openLocked fs p

/-- A new file, of which the client gets a handle. -/
theorem create (h : RamOk s 0 0) (fs : Drivers δ) {path : List UInt8} {p : NormalPath}
    (hr : kPathResolve s.roots path [slash] = .ok p.text) :
    Vfs.Stable s (kVfsCreate fs path s).2 ∧
      Changes s (s.map.create p.stack) s.Full ((kVfsCreate fs path s).1.map fun _ => (),
        (kVfsCreate fs path s).2) ∧
      ∀ f, (kVfsCreate fs path s).1 = .ok f → ∃ n,
        walk (childOf (kVfsCreate fs path s).2.nodes) 0 p.stack = some n ∧
          f = (kVfsCreate fs path s).2.handle n := by
  have hopen := h.openLocked fs p
  rw [kVfsCreate, if_neg (by simp [h.ready]), hr]
  dsimp only
  rw [hopen]
  cases hw : walk (childOf s.nodes) 0 p.stack with
  | some n =>
      refine ⟨h.stable, .refused ?_ rfl, fun f hf => by cases hf⟩
      rw [FileMap.create, Vfs.map_eq hw, if_pos (by simp)]
  | none =>
      have hspec : s.map.create p.stack = s.map.add p.stack (.file []) := by
        rw [FileMap.create, Vfs.map_none hw, if_neg (by simp)]
      dsimp only
      rw [if_neg (by simp), h.mount]
      dsimp only
      rcases h.new p false with ⟨e, hnew, hadd⟩ | ⟨hnew, hfull⟩ |
        ⟨i, nodes, hnew, hadd, hok, hkeep, hleaf, -, hmap⟩
      · rw [hnew]
        exact ⟨h.stable, .refused (hspec.trans (hadd _)) rfl, fun f hf => by cases hf⟩
      · rw [hnew]
        exact ⟨h.stable, .noRoom hfull rfl, fun f hf => by cases hf⟩
      · rw [hnew]
        dsimp only
        rw [hok.openLocked fs p]
        dsimp only
        rw [hleaf]
        refine ⟨⟨hok, hkeep, rfl⟩, .done (hspec.trans (hadd _)) hmap, fun f hf => ⟨i, hleaf, ?_⟩⟩
        exact (Except.ok.inj hf).symm

/-- A handle that stands for a node passes the checks of the calls. -/
theorem handle_ok (h : RamOk s image pages) {f : KFile} {st : List Name} (hf : s.Denotes f st) :
    ¬ (maxNodes ≤ f.object ∨ (s.nodes f.object).used = false) := by
  have hu := h.tree.used_of_walk hf.node
  have := h.tree.bound _ hu
  simp [hu, this]

/-- `k_vfs_read` on the map. -/
theorem read (h : RamOk s image pages) (fs : Drivers δ) {f : KFile} {st : List Name}
    (hf : s.Denotes f st) (offset n : Nat) :
    kVfsRead fs f offset n s = (s.map.read st offset n, s) := by
  rw [kVfsRead, FileMap.read, Vfs.map_eq hf.node, hf.attributes]
  cases hd : (s.nodes f.object).directory with
  | true => rw [Vfs.entry_dir hd, if_pos (by simp)]
  | false =>
      rw [Vfs.entry_file hd, if_neg (by simp), if_pos hf.kind, if_neg (h.handle_ok hf), Vfs.content]
      dsimp only
      rw [memSlice_drop_take]
      split
      · rfl
      · rename_i hlt
        rw [show min n ((s.nodes f.object).size - offset) = 0 by omega]
        rfl

/-- `k_vfs_stat` on the map. -/
theorem stat (h : RamOk s image pages) (fs : Drivers δ) {f : KFile} {st : List Name}
    (hf : s.Denotes f st) :
    kVfsStat fs f s = (.ok { f with size := (s.entry f.object).size }, s) := by
  rw [kVfsStat, if_pos hf.kind, if_neg (h.handle_ok hf), h.entry_size]

end RamOk

/-! ### Writing -/

/-- **The image of a file** in zeroed pages: the old bytes, and the new ones at their offset. -/
theorem memSlice_image {mem : Bytes} {image offset : Nat} {data : List UInt8} (src n : Nat)
    (hzero : ∀ k < max n (offset + data.length), mem (image + k) = 0) :
    memSlice
      (memStore (if n ≠ 0 then memCopy mem image mem src n else mem) (image + offset) data) image
        (max n (offset + data.length)) =
      FileMap.writeAt (memSlice mem src n) offset data := by
  have hold : ∀ k < max n (offset + data.length),
      (if n ≠ 0 then memCopy mem image mem src n else mem) (image + k) =
        (memSlice mem src n).getD k 0 := by
    intro k hk
    rw [List.getD_eq_getElem?_getD, memSlice_getElem?]
    rcases Nat.lt_or_ge k n with hn | hn
    · rw [if_pos (by omega), memCopy, if_pos ⟨by omega, by omega⟩,
        Nat.add_sub_cancel_left, if_pos hn, Option.getD_some]
    · rw [if_neg (Nat.not_lt.mpr hn), Option.getD_none]
      split
      · rw [memCopy, if_neg (by omega), hzero k hk]
      · exact hzero k hk
  ext k : 1
  rw [memSlice_getElem?]
  split
  · rename_i hk
    rw [FileMap.writeAt_getElem? (by rwa [memSlice_length]), memStore_apply, hold k hk]
    rcases Nat.lt_or_ge k offset with hlt | hge
    · rw [if_neg (by omega), if_neg (by omega)]
    · rcases Nat.lt_or_ge k (offset + data.length) with hin | hout
      · rw [if_pos ⟨by omega, by omega⟩, if_pos ⟨hge, hin⟩,
          show image + k - (image + offset) = k - offset by omega]
      · rw [if_neg (by omega), if_neg (by omega)]
  · rename_i hk
    rw [List.getElem?_eq_none]
    rw [FileMap.writeAt_length, memSlice_length]
    omega

/-- How a call of `k_vfs_write` ends. -/
structure Wrote (s : Vfs δ) (st : List Name) (offset : Nat) (data : List UInt8)
    (out : Except Errno Nat × KFile × Vfs δ) : Prop where
  stable : Vfs.Stable s out.2.2
  denotes : out.2.2.Denotes out.2.1 st
  size : out.2.1.size = ((out.2.2.map st).elim 0 Entry.size)
  count : ∀ n, out.1 = .ok n → n = data.length
  changes : Changes s (s.map.write st offset data)
    (∃ bytes, s.map st = some (.file bytes) ∧
      s.NoRun (pagesFor (FileMap.writeAt bytes (FileMap.offsetIn bytes offset) data).length))
    (out.1.map fun _ => (), out.2.2)

namespace RamOk

variable {s : Vfs δ}

/-- The last part of `k_vfs_write` on a node: the image is made and published. -/
theorem writeImage (h : RamOk s 0 0) {st : List Name} {index offset : Nat} {data : List UInt8}
    (hw : walk (childOf s.nodes) 0 st = some index) (hd : (s.nodes index).directory = false)
    (hmax : offset + data.length ≤ fatWriteMax) (hne : data ≠ []) {size image : Nat} {phys : Phys}
    (hsize : size = max (s.nodes index).size (offset + data.length))
    (ha : kPmmAllocPages (pagesFor size) 0 s.phys = (image, phys)) :
    (image = 0 ∧ phys = s.phys ∧ s.NoRun (pagesFor size)) ∨
      (image ≠ 0 ∧ ∀ {mem}, mem = memStore (if (s.nodes index).size ≠ 0
          then memCopy phys.mem image phys.mem (s.nodes index).data (s.nodes index).size
          else phys.mem) (image + offset) data →
        Vfs.Stable s
          (ramReplace { s with phys := { phys with mem } } index image size (pagesFor size)) ∧
          (ramReplace { s with phys := { phys with mem } } index image size (pagesFor size)).map =
            Function.update s.map st
              (some (.file (FileMap.writeAt (s.content index) offset data)))) := by
  have hpos := List.length_pos_iff.mpr hne
  have hsmall := h.small index
  have hle := le_pagesFor size
  rcases h.alloc (pagesFor_pos (n := size) (by omega)) ha with hfail | ⟨hi, hok, hzero, hc⟩
  · exact Or.inl hfail
  refine Or.inr ⟨hi, fun {mem} hmem => ?_⟩
  -- the image lies inside the pages of the call
  have hout : ∀ b, b < image ∨ image + 4096 * pagesFor size ≤ b → mem b = phys.mem b := by
    intro b hb
    rw [hmem, memStore_apply, if_neg (by omega)]
    split
    · rw [memCopy, if_neg (by omega)]
    · rfl
  obtain ⟨hok', hc'⟩ := hok.fill mem hout hi
  have hblank : ∀ k < max (s.nodes index).size (offset + data.length), phys.mem (image + k) = 0 :=
    fun k hk => hzero _ (by omega) (by omega)
  have hbytes := memSlice_image (s.nodes index).data (s.nodes index).size hblank
  rw [← hmem, ← hsize] at hbytes
  have hcontent : memSlice phys.mem (s.nodes index).data (s.nodes index).size = s.content index :=
    hc index
  rw [hcontent] at hbytes
  have hlen : (FileMap.writeAt (s.content index) offset data).length = size := by
    rw [FileMap.writeAt_length, Vfs.content, memSlice_length, hsize]
  rw [← hlen] at hbytes
  have hpublish := hok'.publish hw hd (by omega) (by omega) (by rw [hlen]) hbytes
  rw [hlen] at hpublish
  obtain ⟨hstable, hmap⟩ := hpublish
  have hsame : Vfs.map { s with phys := { phys with mem } } = s.map :=
    Vfs.map_congr rfl fun i => (hc' i).trans (hc i)
  refine ⟨⟨hstable.ok, hstable.keeps, rfl⟩, ?_⟩
  rw [← hsame]
  exact hmap

/-- The handle passes or its node is a directory; either way it learns the size. -/
theorem writeTarget (h : RamOk s 0 0) (fs : Drivers δ) {f : KFile} {st : List Name}
    (hf : s.Denotes f st) :
    writeTarget fs f s =
      (if (s.nodes f.object).directory = true then .error .einval else .ok (),
        { f with size := (s.nodes f.object).size }, s) := by
  have hu := h.tree.used_of_walk hf.node
  rw [Efishell.writeTarget, if_neg (by simp [hf.kind]),
    if_pos ⟨hf.kind, h.tree.bound _ hu, hu⟩]
  dsimp only
  rw [h.tree.kind _ hu]
  cases hd : (s.nodes f.object).directory <;> simp

/-- `k_vfs_write` on the map. -/
theorem write (h : RamOk s 0 0) (fs : Drivers δ) {f : KFile} {st : List Name} (hf : s.Denotes f st)
    (offset : Nat) {data : List UInt8} (hn : data.length ≤ fatWriteMax) :
    Wrote s st offset data (kVfsWrite fs f offset data s) := by
  have hmap := Vfs.map_eq hf.node
  have hsize := h.entry_size f.object
  -- a call that leaves the nodes alone
  have hsame : ∀ (r : Except Errno Nat), (∀ n, r = .ok n → n = data.length) →
      Changes s (s.map.write st offset data)
        (∃ bytes, s.map st = some (.file bytes) ∧
          s.NoRun (pagesFor (FileMap.writeAt bytes (FileMap.offsetIn bytes offset) data).length))
        (r.map fun _ => (), s) →
      Wrote s st offset data (r, { f with size := (s.nodes f.object).size }, s) := by
    intro r hr hc
    refine ⟨h.stable, hf.size _, ?_, hr, hc⟩
    dsimp only
    rw [hmap, Option.elim_some, hsize]
  rw [kVfsWrite]
  dsimp only
  rw [if_neg (by simp [hf.kind]), if_neg (by omega), if_neg (by simp [hf.kind]),
    h.writeTarget fs hf]
  cases hd : (s.nodes f.object).directory with
  | true =>
      refine hsame (.error .einval) (fun n e => by cases e) (.refused ?_ rfl)
      rw [FileMap.write, hmap, Vfs.entry_dir hd]
  | false =>
      have hwrite : s.map.write st offset data =
          if maxFileSize < FileMap.offsetIn (s.content f.object) offset + data.length
          then .error .e2big
          else if data = [] then .ok s.map
          else .ok (Function.update s.map st (some (.file (FileMap.writeAt (s.content f.object)
            (FileMap.offsetIn (s.content f.object) offset) data)))) := by
        rw [FileMap.write, hmap, Vfs.entry_file hd]
      have hoffset : (if offset = 2 ^ 64 - 1 then (s.nodes f.object).size else offset) =
          FileMap.offsetIn (s.content f.object) offset := by
        rw [FileMap.offsetIn, Vfs.content, memSlice_length]
      have hsmall := h.small f.object
      simp only [Bool.false_eq_true, if_false]
      rw [if_neg (by simp [hf.attributes, hd]), hoffset]
      generalize hoff : FileMap.offsetIn (s.content f.object) offset = off at *
      split
      · rename_i hbig
        refine hsame (.error .e2big) (fun n e => by cases e) (.refused ?_ rfl)
        rw [hwrite, if_pos]
        simp only [maxFileSize, fatWriteMax] at *
        omega
      · rename_i hfit
        have hmax : off + data.length ≤ fatWriteMax := by omega
        rw [if_neg (by simp only [maxFileSize, fatWriteMax] at *; omega)] at hwrite
        by_cases hnil : data = []
        · rw [if_pos hnil] at hwrite
          rw [if_pos (by simp [hnil])]
          refine hsame (.ok 0) (fun n e => ?_) (.done hwrite rfl)
          rw [← Except.ok.inj e, hnil]
          rfl
        · rw [if_neg hnil] at hwrite
          rw [if_neg (by simp [hnil])]
          generalize hnew :
              (if off + data.length < (s.nodes f.object).size then (s.nodes f.object).size
            else off + data.length) = size
          have hmaxsize : size = max (s.nodes f.object).size (off + data.length) := by
            rw [← hnew]
            split <;> omega
          generalize halloc : kPmmAllocPages (pagesFor size) 0 s.phys = alloc
          obtain ⟨image, phys⟩ := alloc
          dsimp only
          rcases h.writeImage hf.node hd hmax hnil hmaxsize halloc with
            ⟨hi, rfl, hno⟩ | ⟨hi, hdone⟩
          · rw [if_pos hi]
            refine hsame (.error .enomem) (fun n e => by cases e)
              (.noRoom ⟨s.content f.object, ?_, ?_⟩ rfl)
            · rw [hmap, Vfs.entry_file hd]
            · rw [hoff, FileMap.writeAt_length, Vfs.content, memSlice_length, ← hmaxsize]
              exact hno
          · rw [if_neg hi, if_neg (by simp [hf.kind])]
            obtain ⟨hstable, hafter⟩ := hdone rfl
            refine ⟨hstable, (hf.keeps hstable.keeps).size size, ?_, fun n e =>
              (Except.ok.inj e).symm, .done hwrite hafter⟩
            dsimp only
            rw [hafter, Function.update_self, Option.elim_some, Entry.size, FileMap.writeAt_length,
              Vfs.content, memSlice_length, ← hmaxsize]

end RamOk

end Efishell
