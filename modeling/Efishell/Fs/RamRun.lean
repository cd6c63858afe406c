import Efishell.Fs.RamCalls

/-!
# File systems — runs of a client

A client of the calls holds handles (`Session`).  `Session.abs` reads the state of the map off a
session, and `Session.Ok.call` says that each call is a call on the map, or one for which an entry
or pages were missing.

Between two calls other parts of the kernel may take pages, give back what they hold and write to
memory that is not a file's, and roots may be bound; `VfsRun` has a step for each.

* `Session.Ok.call`: a call of a client is a call on the map.
* `ram_vfs_refines_map`: so is every run.
-/

namespace Efishell

open Components Walk

variable {δ : Type}

/-- A handle of the client, with the path that it was opened at. -/
structure Opened where
  file : KFile
  path : List Name

/-- The file system and the handles its client holds. -/
structure Session (δ : Type) where
  vfs : Vfs δ
  handles : List Opened

/-- The components of the canonical path that `path` stands for. -/
def Vfs.resolve (s : Vfs δ) (path : List UInt8) : List Name :=
  match kPathResolve s.roots path [slash] with
  | .error _ => []
  | .ok out => components slash out

namespace Session

variable (fs : Drivers δ)

/-- The client keeps the handle it got. -/
def keep (s : Session δ) (path : List UInt8) (r : Except Errno KFile × Vfs δ) :
    Except Errno VfsValue × Session δ :=
  match r with
  | (.error e, vfs) => (.error e, { s with vfs })
  | (.ok f, vfs) =>
    (.ok (.opened (f.attributes &&& 0x10 != 0) f.size),
      ⟨vfs, s.handles ++ [⟨f, s.vfs.resolve path⟩]⟩)

/-- A call through a handle; the null pointer is no handle. -/
def through (s : Session δ) (handle : Nat) (f : Opened → Except Errno VfsValue × Session δ) :
    Except Errno VfsValue × Session δ :=
  match s.handles[handle]? with
  | none => (.error .einval, s)
  | some o => f o

/-- One call of the client. -/
def call (s : Session δ) : VfsCall → Except Errno VfsValue × Session δ
  | .mkdir path =>
    match kVfsMkdir fs path s.vfs with
    | (r, vfs) => (r.map fun _ => .done, { s with vfs })
  | .put path bytes =>
    match kVfsPut fs path bytes s.vfs with
    | (r, vfs) => (r.map fun _ => .done, { s with vfs })
  | .create path => s.keep path (kVfsCreate fs path s.vfs)
  | .open path => s.keep path (kVfsOpen fs path s.vfs)
  | .read handle offset n =>
    s.through handle fun o =>
      match kVfsRead fs o.file offset n s.vfs with
      | (r, vfs) => (r.map .bytes, { s with vfs })
  | .write handle offset data =>
    s.through handle fun o =>
      match kVfsWrite fs o.file offset data s.vfs with
      | (r, file, vfs) => (r.map .written, ⟨vfs, s.handles.set handle { o with file }⟩)
  | .stat handle =>
    s.through handle fun o =>
      match kVfsStat fs o.file s.vfs with
      | (.error e, vfs) => (.error e, { s with vfs })
      | (.ok file, vfs) => (.ok (.size file.size), ⟨vfs, s.handles.set handle { o with file }⟩)

/-- The state of the map that a session stands for. -/
def abs (s : Session δ) : MapState where
  roots := s.vfs.roots
  map := s.vfs.map
  handles := s.handles.map fun o => ⟨o.path, o.file.size⟩

/-- What a call may run out of: entries of the table, or pages in a row. -/
def Exhausted (s : Session δ) : VfsCall → Prop
  | .mkdir _ => s.vfs.Full
  | .create _ => s.vfs.Full
  | .put _ bytes => s.vfs.Full ∨ s.vfs.NoRun (pagesFor bytes.length)
  | .write handle offset data => ∃ o bytes, s.handles[handle]? = some o ∧
      s.vfs.map o.path = some (.file bytes) ∧
      s.vfs.NoRun (pagesFor (FileMap.writeAt bytes (FileMap.offsetIn bytes offset) data).length)
  | _ => False

/-- What holds of a session between two calls. -/
structure Ok (s : Session δ) : Prop where
  vfs : RamOk s.vfs 0 0
  handles : ∀ o ∈ s.handles, s.vfs.Denotes o.file o.path

end Session

/-- The state after `k_vfs_init`, over an allocator and the memory it manages. -/
def Session.boot (phys : Phys) (volumes : δ) : Session δ where
  vfs := (kVfsInit ⟨false, fun _ => .blank, [], [], phys, volumes⟩).2
  handles := []

/-- Other parts of the kernel leave the pages of files alone. -/
structure Elsewhere (s : Vfs δ) (phys : Phys) : Prop where
  counted : PmmCounted phys.pmm
  held : ∀ i, (s.nodes i).data ≠ 0 →
    phys.pmm.held ((s.nodes i).data / 4096) (s.nodes i).pages = true
  bytes : ∀ i k, k < (s.nodes i).size →
    phys.mem ((s.nodes i).data + k) = s.phys.mem ((s.nodes i).data + k)

/-- The runs of a client from `k_vfs_init` on, with the calls and their answers in the order they
were made. -/
inductive VfsRun (fs : Drivers δ) : List (VfsCall × Except Errno VfsValue) → Session δ → Prop where
  | boot {phys : Phys} (volumes : δ) : PmmCounted phys.pmm → VfsRun fs [] (.boot phys volumes)
  | call {t : List (VfsCall × Except Errno VfsValue)} {s : Session δ} (c : VfsCall) :
      VfsRun fs t s → VfsRun fs (t ++ [(c, (s.call fs c).1)]) (s.call fs c).2
  | other {t : List (VfsCall × Except Errno VfsValue)} {s : Session δ} {phys : Phys} :
      VfsRun fs t s → Elsewhere s.vfs phys → VfsRun fs t { s with vfs := { s.vfs with phys } }
  | bind {t : List (VfsCall × Except Errno VfsValue)} {s : Session δ} {roots : List PathRoot}
      (cpu : Nat) (name path : List UInt8) : VfsRun fs t s →
      kRootBind cpu name path s.vfs.roots = .ok roots →
      VfsRun fs t { s with vfs := { s.vfs with roots } }

/-! ### Each call is a call on the map -/

/-- What a call of the client keeps, and what its answer is. -/
structure Session.Refines (s : Session δ) (c : VfsCall)
    (out : Except Errno VfsValue × Session δ) : Prop where
  ok : out.2.Ok
  answer : (out.1, out.2.abs) = s.abs.call c ∨ s.Exhausted c ∧ (out.1, out.2.abs) = s.abs.noRoom c

namespace Session

variable {s : Session δ}

/-- A stable call keeps the session in order. -/
theorem Ok.step (h : s.Ok) {vfs : Vfs δ} (hs : Vfs.Stable s.vfs vfs) : Ok { s with vfs } where
  vfs := hs.ok
  handles := fun o ho => (h.handles o ho).keeps hs.keeps

/-- It changes the map of what the session stands for. -/
theorem abs_step {vfs : Vfs δ} (hs : Vfs.Stable s.vfs vfs) :
    abs { s with vfs } = { s.abs with map := vfs.map } := by
  rw [abs, abs, hs.roots]

/-- A call whose only effect is on the map. -/
theorem Ok.change (h : s.Ok) {spec : Except Errno FileMap} {full : Prop} {r : Except Errno Unit}
    {vfs : Vfs δ} (hs : Vfs.Stable s.vfs vfs) (hc : Changes s.vfs spec full (r, vfs)) :
    Ok { s with vfs } ∧
      ((r.map fun _ => VfsValue.done, abs { s with vfs }) = s.abs.change spec ∨
        full ∧ (r.map fun _ => VfsValue.done, abs { s with vfs }) = (.error .enomem, s.abs)) := by
  refine ⟨h.step hs, ?_⟩
  rw [abs_step hs]
  cases hc with
  | refused hr hm =>
      rw [hr, hm]
      exact Or.inl rfl
  | done hr hm =>
      rw [hr, hm]
      exact Or.inl rfl
  | noRoom hf hm =>
      rw [hm]
      exact Or.inr ⟨hf, rfl⟩

/-- Paths resolve to the components of the canonical text. -/
theorem abs_resolve (path : List UInt8) :
    s.abs.resolve path = (kPathResolve s.vfs.roots path [slash]).map (components slash) := rfl

/-- `mkdir` refines the map's. -/
theorem Ok.mkdir (h : s.Ok) (fs : Drivers δ) (path : List UInt8) :
    s.Refines (.mkdir path) (s.call fs (.mkdir path)) := by
  cases hr : kPathResolve s.vfs.roots path [slash] with
  | error e =>
      have hcall : kVfsMkdir fs path s.vfs = (.error e, s.vfs) := by
        rw [kVfsMkdir, if_neg (by simp [h.vfs.ready]), hr]
      rw [Session.call, hcall]
      refine ⟨h, Or.inl ?_⟩
      rw [MapState.call, abs_resolve, hr]
      rfl
  | ok out =>
      obtain ⟨p, rfl, hst⟩ := h.vfs.resolved hr
      obtain ⟨hs, hc⟩ := h.vfs.mkdir fs hr
      obtain ⟨hok, hanswer⟩ := h.change hs hc
      refine ⟨hok, ?_⟩
      rw [MapState.call, abs_resolve, hr, Except.map, hst]
      exact hanswer

theorem maxFileSize_eq : maxFileSize = fatWriteMax := rfl

/-- `put` refines the map's. -/
theorem Ok.put (h : s.Ok) (fs : Drivers δ) (path bytes : List UInt8) :
    s.Refines (.put path bytes) (s.call fs (.put path bytes)) := by
  by_cases hb : fatWriteMax < bytes.length
  · have hcall : kVfsPut fs path bytes s.vfs = (.error .einval, s.vfs) := by
      rw [kVfsPut, if_pos (Or.inr hb)]
    rw [Session.call, hcall]
    refine ⟨h, Or.inl ?_⟩
    rw [MapState.call, maxFileSize_eq, if_pos hb]
    rfl
  · cases hr : kPathResolve s.vfs.roots path [slash] with
    | error e =>
        have hcall : kVfsPut fs path bytes s.vfs = (.error e, s.vfs) := by
          rw [kVfsPut, if_neg (by simpa [h.vfs.ready] using hb), hr]
        rw [Session.call, hcall]
        refine ⟨h, Or.inl ?_⟩
        rw [MapState.call, maxFileSize_eq, if_neg hb, abs_resolve, hr]
        rfl
    | ok out =>
        obtain ⟨p, rfl, hst⟩ := h.vfs.resolved hr
        obtain ⟨hs, hc⟩ := h.vfs.put fs hr (Nat.le_of_not_lt hb)
        rw [Session.call]
        generalize kVfsPut fs path bytes s.vfs = out at hs hc ⊢
        obtain ⟨hok, hanswer⟩ := h.change hs hc
        refine ⟨hok, ?_⟩
        rw [MapState.call, maxFileSize_eq, if_neg hb, abs_resolve, hr, Except.map, hst]
        exact hanswer

/-- The client gets the handle of a node. -/
theorem Ok.keep (h : s.Ok) {path : List UInt8} {p : NormalPath} {vfs : Vfs δ} {n : Nat}
    (hr : kPathResolve s.vfs.roots path [slash] = .ok p.text) (hs : Vfs.Stable s.vfs vfs)
    (hw : walk (childOf vfs.nodes) 0 p.stack = some n) :
    (s.keep path (.ok (vfs.handle n), vfs)).2.Ok ∧
      ((s.keep path (.ok (vfs.handle n), vfs)).1, (s.keep path (.ok (vfs.handle n), vfs)).2.abs) =
        { s.abs with map := vfs.map }.opened p.stack := by
  have hpath : s.vfs.resolve path = p.stack := by
    rw [Vfs.resolve, hr]
    exact p.components
  have hdir : ((vfs.handle n).attributes &&& 0x10 != 0) = (vfs.entry n).isDir := by
    rw [Vfs.entry_isDir, Vfs.handle]
    cases (vfs.nodes n).directory <;> simp
  have hsize : (vfs.handle n).size = (vfs.entry n).size := by
    rw [hs.ok.entry_size, Vfs.handle]
  refine ⟨⟨hs.ok, fun o ho => ?_⟩, ?_⟩
  · rcases List.mem_append.mp ho with ho | ho
    · exact (h.handles o ho).keeps hs.keeps
    · rw [List.mem_singleton.mp ho, hpath]
      exact Vfs.denotes_handle hw
  · rw [MapState.opened]
    dsimp only
    rw [Vfs.map_eq hw, Session.keep, abs, hdir, hsize, hpath, hs.roots]
    dsimp only
    rw [List.map_append, List.map_singleton, hsize]
    rfl

/-- `create` refines the map's. -/
theorem Ok.create (h : s.Ok) (fs : Drivers δ) (path : List UInt8) :
    s.Refines (.create path) (s.call fs (.create path)) := by
  cases hr : kPathResolve s.vfs.roots path [slash] with
  | error e =>
      have hcall : kVfsCreate fs path s.vfs = (.error e, s.vfs) := by
        rw [kVfsCreate, if_neg (by simp [h.vfs.ready]), hr]
      rw [Session.call, hcall]
      refine ⟨h, Or.inl ?_⟩
      rw [MapState.call, abs_resolve, hr]
      rfl
  | ok out =>
      obtain ⟨p, rfl, hst⟩ := h.vfs.resolved hr
      obtain ⟨hs, hc, hf⟩ := h.vfs.create fs hr
      have hmap : s.abs.map = s.vfs.map := rfl
      have hrefused : ∀ e, s.vfs.map.create p.stack = .error e →
          s.abs.call (.create path) = (.error e, s.abs) := by
        intro e he
        rw [MapState.call, abs_resolve, hr, Except.map, hst]
        dsimp only
        rw [hmap, he]
      have hdone : ∀ map, s.vfs.map.create p.stack = .ok map →
          s.abs.call (.create path) = { s.abs with map }.opened p.stack := by
        intro map he
        rw [MapState.call, abs_resolve, hr, Except.map, hst]
        dsimp only
        rw [hmap, he]
      rw [Session.call]
      generalize kVfsCreate fs path s.vfs = out at hs hc hf ⊢
      obtain ⟨r, vfs⟩ := out
      dsimp only at hs hc hf
      -- the file is opened, or the map refuses it too, or the table is full
      cases r with
      | ok f =>
          obtain ⟨n, hw, rfl⟩ := hf f rfl
          obtain ⟨hok, hanswer⟩ := h.keep hr hs hw
          refine ⟨hok, Or.inl ?_⟩
          cases hc with
          | done hcreate hm =>
              rw [hdone _ hcreate, hanswer, ← hm]
      | error e =>
          refine ⟨h.step hs, ?_⟩
          rw [Session.keep]
          dsimp only
          rw [abs_step hs]
          cases hc with
          | refused hcreate hm =>
              rw [hrefused e hcreate, hm]
              exact Or.inl rfl
          | noRoom hfull hm =>
              rw [hm]
              exact Or.inr ⟨hfull, rfl⟩

/-- `open` refines the map's. -/
theorem Ok.open (h : s.Ok) (fs : Drivers δ) (path : List UInt8) :
    s.Refines (.open path) (s.call fs (.open path)) := by
  cases hr : kPathResolve s.vfs.roots path [slash] with
  | error e =>
      have hcall : kVfsOpen fs path s.vfs = (.error e, s.vfs) := by
        rw [kVfsOpen, if_neg (by simp [h.vfs.ready]), hr]
      rw [Session.call, hcall]
      refine ⟨h, Or.inl ?_⟩
      rw [MapState.call, abs_resolve, hr]
      rfl
  | ok out =>
      obtain ⟨p, rfl, hst⟩ := h.vfs.resolved hr
      have hspec : s.abs.call (.open path) = s.abs.opened p.stack := by
        rw [MapState.call, abs_resolve, hr, Except.map, hst]
      rw [Session.call, h.vfs.kVfsOpen fs hr]
      cases hw : walk (childOf s.vfs.nodes) 0 p.stack with
      | none =>
          refine ⟨h, Or.inl ?_⟩
          have hnone : s.abs.map p.stack = none := Vfs.map_none hw
          rw [hspec, MapState.opened, hnone]
          rfl
      | some n =>
          obtain ⟨hok, hanswer⟩ := h.keep hr h.vfs.stable hw
          exact ⟨hok, Or.inl (hanswer.trans hspec.symm)⟩

/-- What a handle of the session stands for. -/
theorem abs_handle {handle : Nat} {o : Opened} (ho : s.handles[handle]? = some o) :
    s.abs.handles[handle]? = some ⟨o.path, o.file.size⟩ := by
  rw [abs, List.getElem?_map, ho, Option.map_some]

/-- Without a handle there is nothing to call. -/
theorem Ok.through (h : s.Ok) {c : VfsCall} {handle : Nat}
    {f : Opened → Except Errno VfsValue × Session δ}
    {g : MapHandle → Except Errno VfsValue × MapState}
    (hcall : s.abs.call c = s.abs.through handle g)
    (hf : ∀ o, s.handles[handle]? = some o → s.vfs.Denotes o.file o.path → s.Refines c (f o)) :
    s.Refines c (s.through handle f) := by
  rw [Session.through]
  cases ho : s.handles[handle]? with
  | none =>
      refine ⟨h, Or.inl ?_⟩
      have hnone : s.abs.handles[handle]? = none := by
        rw [abs, List.getElem?_map, ho, Option.map_none]
      rw [hcall, MapState.through, hnone]
  | some o => exact hf o ho (h.handles o (List.mem_of_getElem? ho))

/-- A handle that has learnt the size. -/
theorem Ok.refresh (h : s.Ok) (handle : Nat) {o : Opened} {file : KFile} {vfs : Vfs δ}
    (hs : Vfs.Stable s.vfs vfs) (hd : vfs.Denotes file o.path)
    (hsize : file.size = (vfs.map o.path).elim 0 Entry.size) :
    Ok ⟨vfs, s.handles.set handle { o with file }⟩ ∧
      abs ⟨vfs, s.handles.set handle { o with file }⟩ =
        { s.abs with map := vfs.map }.refresh handle o.path := by
  refine ⟨⟨hs.ok, fun o' ho' => ?_⟩, ?_⟩
  · rcases List.mem_or_eq_of_mem_set ho' with ho' | rfl
    · exact (h.handles o' ho').keeps hs.keeps
    · exact hd
  · rw [abs, MapState.refresh, List.map_set, hs.roots]
    dsimp only
    rw [hsize]
    rfl

/-- `read` refines the map's. -/
theorem Ok.read (h : s.Ok) (fs : Drivers δ) (handle offset n : Nat) :
    s.Refines (.read handle offset n) (s.call fs (.read handle offset n)) := by
  refine h.through rfl fun o ho hd => ?_
  rw [h.vfs.read fs hd]
  refine ⟨h, Or.inl ?_⟩
  rw [MapState.call, MapState.through, abs_handle ho]
  dsimp only
  have hmap : s.abs.map = s.vfs.map := rfl
  rw [hmap]
  cases s.vfs.map.read o.path offset n <;> rfl

/-- `write` refines the map's. -/
theorem Ok.write (h : s.Ok) (fs : Drivers δ) (handle offset : Nat) (data : List UInt8) :
    s.Refines (.write handle offset data) (s.call fs (.write handle offset data)) := by
  refine h.through rfl fun o ho hd => ?_
  have hmap : s.abs.map = s.vfs.map := rfl
  by_cases hn : fatWriteMax < data.length
  · have hcall : kVfsWrite fs o.file offset data s.vfs = (.error .e2big, o.file, s.vfs) := by
      rw [kVfsWrite]
      dsimp only
      rw [if_neg (by simp [hd.kind]), if_pos hn]
    have hset : s.handles.set handle { o with file := o.file } = s.handles := by
      obtain ⟨hlt, rfl⟩ := List.getElem?_eq_some_iff.mp ho
      exact List.set_getElem_self hlt
    rw [hcall]
    dsimp only
    rw [hset]
    refine ⟨h, Or.inl ?_⟩
    rw [MapState.call, MapState.through, abs_handle ho]
    dsimp only
    rw [maxFileSize_eq, if_pos hn]
    rfl
  · have hw := h.vfs.write fs hd offset (Nat.le_of_not_lt hn)
    have hrefused : ∀ e, s.vfs.map.write o.path offset data = .error e →
        s.abs.call (.write handle offset data) = (.error e, s.abs.refresh handle o.path) := by
      intro e he
      rw [MapState.call, MapState.through, abs_handle ho]
      dsimp only
      rw [maxFileSize_eq, if_neg hn, hmap, he]
    have hdone : ∀ map, s.vfs.map.write o.path offset data = .ok map →
        s.abs.call (.write handle offset data) =
          (.ok (.written data.length), { s.abs with map }.refresh handle o.path) := by
      intro map he
      rw [MapState.call, MapState.through, abs_handle ho]
      dsimp only
      rw [maxFileSize_eq, if_neg hn, hmap, he]
    -- either the map refuses the write as the file does, or both do it, or pages are missing
    generalize kVfsWrite fs o.file offset data s.vfs = out at hw ⊢
    obtain ⟨r, file, vfs⟩ := out
    obtain ⟨hs, hden, hsize, hcount, hc⟩ := hw
    dsimp only at hs hden hsize hcount hc ⊢
    obtain ⟨hok, habs⟩ := h.refresh handle hs hden hsize
    refine ⟨hok, ?_⟩
    dsimp only
    rw [habs]
    cases r with
    | ok n =>
        cases hc with
        | done hr hm =>
            rw [hdone _ hr, hm, hcount n rfl]
            exact Or.inl rfl
    | error e =>
        cases hc with
        | refused hr hm =>
            rw [hrefused e hr, hm]
            exact Or.inl rfl
        | noRoom hf hm =>
            obtain ⟨bytes, hfile, hno⟩ := hf
            refine Or.inr ⟨⟨o, bytes, ho, hfile, hno⟩, ?_⟩
            rw [hm, MapState.noRoom, MapState.through, abs_handle ho]
            rfl

/-- `stat` refines the map's. -/
theorem Ok.stat (h : s.Ok) (fs : Drivers δ) (handle : Nat) :
    s.Refines (.stat handle) (s.call fs (.stat handle)) := by
  refine h.through rfl fun o ho hd => ?_
  have hmap := Vfs.map_eq hd.node
  rw [h.vfs.stat fs hd]
  dsimp only
  obtain ⟨hok, habs⟩ := h.refresh handle h.vfs.stable
    (hd.size (s.vfs.entry o.file.object).size) (by rw [hmap, Option.elim_some])
  refine ⟨hok, Or.inl ?_⟩
  have hmap' : s.abs.map o.path = some (s.vfs.entry o.file.object) := hmap
  rw [MapState.call, MapState.through, abs_handle ho]
  dsimp only
  rw [hmap', habs]
  rfl

/-- **Each call is a call on the map**, or one for which an entry or pages were missing. -/
theorem Ok.call (h : s.Ok) (fs : Drivers δ) (c : VfsCall) : s.Refines c (s.call fs c) := by
  cases c with
  | mkdir path => exact h.mkdir fs path
  | put path bytes => exact h.put fs path bytes
  | create path => exact h.create fs path
  | «open» path => exact h.open fs path
  | read handle offset n => exact h.read fs handle offset n
  | write handle offset data => exact h.write fs handle offset data
  | stat handle => exact h.stat fs handle

end Session

/-! ### Runs -/

namespace Session

/-- The nodes after `k_vfs_init`: the root and nothing else. -/
theorem boot_nodes (phys : Phys) (volumes : δ) (i : Nat) :
    (boot phys volumes).vfs.nodes i =
      if i = 0 then { RamNode.blank with used := true, directory := true, kind := 1 }
        else .blank := by
  rw [boot, kVfsInit, if_neg (by simp)]
  dsimp only
  rw [Function.update_apply]

/-- After `k_vfs_init` the root is the only node. -/
theorem boot_walk (phys : Phys) (volumes : δ) (st : List Name) :
    walk (childOf (boot phys volumes).vfs.nodes) 0 st = if st = [] then some 0 else none := by
  have hchild : ∀ a c, childOf (boot phys volumes).vfs.nodes a c = none := by
    intro a c
    rw [childOf]
    split
    · refine List.find?_eq_none.mpr fun i hi => ?_
      rw [boot_nodes, if_neg (mem_nodeIndices.mp hi).1]
      simp [RamNode.blank]
    · rfl
  cases st with
  | nil => rfl
  | cons c st =>
      rw [walk_cons, hchild, if_neg (by simp)]
      rfl

/-- The session it starts is in order. -/
theorem boot_ok {phys : Phys} (hp : PmmCounted phys.pmm) (volumes : δ) :
    (boot phys volumes).Ok where
  vfs := by
    have hnodes := boot_nodes phys volumes
    have hused : ∀ i, ((boot phys volumes).vfs.nodes i).used = true ↔ i = 0 := by
      intro i
      rw [hnodes]
      split <;> simp [RamNode.blank, *]
    have hroot : (boot phys volumes).vfs.nodes 0 =
        { RamNode.blank with used := true, directory := true, kind := 1 } := by
          rw [hnodes, if_pos rfl]
    have hbare : ∀ i, ((boot phys volumes).vfs.nodes i).data = 0 ∧
        ((boot phys volumes).vfs.nodes i).size = 0 ∧
          ((boot phys volumes).vfs.nodes i).pages = 0 := by
      intro i
      rw [hnodes]
      split <;> exact ⟨rfl, rfl, rfl⟩
    refine ⟨rfl, rfl, ⟨by simp [boot, kVfsInit], by simp [boot, kVfsInit]⟩, ?_,
      fun i hi => ?_, hp, ?_, fun i => ?_, fun i => ?_, fun i => ?_, fun i _ => (hbare i).2.1⟩
    · refine ⟨by rw [hroot]; exact ⟨rfl, rfl⟩, fun i hi hu => absurd ((hused i).mp hu) hi,
        fun i j hi _ hu => absurd ((hused i).mp hu) hi, fun i hu => ?_, fun i hu => ?_⟩
      · rw [(hused i).mp hu]
        decide
      · rw [(hused i).mp hu, hroot]
    · rw [(hused i).mp hi]
      exact ⟨[], rfl⟩
    · have hnone : PagesHeld phys.pmm (fun _ : Option Nat => 0) fun _ => 0 := .none hp.toPmmOk
      refine hnone.congr (fun x => ?_) fun x hx => absurd rfl hx
      cases x with
      | none => rfl
      | some i => exact (hbare i).1
    · rw [(hbare i).2.1, (hbare i).2.2]
      rfl
    · rw [(hbare i).1, (hbare i).2.1]
    · rw [(hbare i).2.1]
      exact Nat.zero_le _
  handles := by
    intro o ho
    cases ho

/-- It stands for the empty map. -/
theorem abs_boot (phys : Phys) (volumes : δ) :
    (boot phys volumes).abs = ⟨[], FileMap.empty, []⟩ := by
  have hmap : (boot phys volumes).vfs.map = FileMap.empty := by
    funext st
    rw [Vfs.map, boot_walk, FileMap.empty]
    split
    · rw [Option.map_some, Vfs.entry_dir (by rw [boot_nodes, if_pos rfl])]
    · rfl
  rw [abs, hmap]
  rfl

variable {s : Session δ}

/-- What others do with memory does not show. -/
theorem Ok.other (h : s.Ok) {phys : Phys} (he : Elsewhere s.vfs phys) :
    Ok { s with vfs := { s.vfs with phys } } ∧
      abs { s with vfs := { s.vfs with phys } } = s.abs := by
  have hok : RamOk { s.vfs with phys } 0 0 := { h.vfs with
    counted := he.counted
    held := by
      refine ⟨he.counted.toPmmOk, h.vfs.held.aligned, h.vfs.held.nonempty, fun x hx => ?_,
        h.vfs.held.apart⟩
      cases x with
      | none => exact absurd rfl hx
      | some i => exact he.held i hx }
  refine ⟨⟨hok, fun o ho => ?_⟩, ?_⟩
  · exact (h.handles o ho).keeps fun _ _ hw => ⟨hw, rfl⟩
  · have hmap : Vfs.map { s.vfs with phys } = s.vfs.map :=
      Vfs.map_congr rfl fun i => memSlice_congr fun k hk => he.bytes i k hk
    rw [abs, hmap]
    rfl

/-- A new root name keeps the session in order. -/
theorem Ok.bind (h : s.Ok) {roots : List PathRoot} {cpu : Nat} {name path : List UInt8}
    (hb : kRootBind cpu name path s.vfs.roots = .ok roots) :
    Ok { s with vfs := { s.vfs with roots } } where
  vfs := { h.vfs with roots := h.vfs.roots.bind hb }
  handles := fun o ho => (h.handles o ho).keeps fun _ _ hw => ⟨hw, rfl⟩

end Session

/-- A run keeps the invariant, and its calls and answers are a run of the map. -/
theorem VfsRun.refines {fs : Drivers δ} {t : List (VfsCall × Except Errno VfsValue)} {s : Session δ}
    (hr : VfsRun fs t s) : s.Ok ∧ MapRun ⟨[], FileMap.empty, []⟩ t s.abs := by
  induction hr with
  | boot volumes hp =>
      refine ⟨Session.boot_ok hp volumes, ?_⟩
      rw [Session.abs_boot]
      exact .start
  | @call t s c _ ih =>
      obtain ⟨hok, hrun⟩ := ih
      obtain ⟨hok', hanswer⟩ := hok.call fs c
      refine ⟨hok', ?_⟩
      rcases hanswer with e | ⟨-, e⟩
      · obtain ⟨e₁, e₂⟩ := Prod.mk.inj e
        rw [e₁, e₂]
        exact hrun.call c
      · obtain ⟨e₁, e₂⟩ := Prod.mk.inj e
        rw [e₁, e₂]
        exact hrun.noRoom c
  | other _ he ih =>
      obtain ⟨hok, habs⟩ := ih.1.other he
      exact ⟨hok, by rw [habs]; exact ih.2⟩
  | @bind t s roots cpu name path _ hb ih => exact ⟨ih.1.bind hb, ih.2.bind roots⟩

/-- **Files in memory are a map.**  In every run of a client from `k_vfs_init` on, with no volume
mounted and other parts of the kernel at work between its calls:

* the calls and their answers are those of a map from canonical paths to directories and strings of
  bytes that starts with the root alone, and so is every call that comes next, unless the table of
  nodes is full or no run of free pages is long enough for it;
* a call that fails leaves the map as it is;
* a page that a node holds is no other node's, the node is a file, and the allocator counts the page
  as taken; no file is larger than 4 MiB;
* names are unique in a directory, the parent of a used node is a used directory, and every used
  node has a path. -/
theorem ram_vfs_refines_map {fs : Drivers δ} {t : List (VfsCall × Except Errno VfsValue)}
    {s : Session δ} (hr : VfsRun fs t s) :
    MapRun ⟨[], FileMap.empty, []⟩ t s.abs ∧
      (∀ c, ((s.call fs c).1, (s.call fs c).2.abs) = s.abs.call c ∨
        s.Exhausted c ∧ ((s.call fs c).1, (s.call fs c).2.abs) = s.abs.noRoom c) ∧
      (∀ c e, (s.call fs c).1 = .error e → (s.call fs c).2.vfs.map = s.vfs.map) ∧
      (∀ i p, (s.vfs.nodes i).holds p →
        (∀ j, (s.vfs.nodes j).holds p → j = i) ∧
        (s.vfs.nodes i).used = true ∧ (s.vfs.nodes i).directory = false ∧
        s.vfs.phys.pmm.eligible p = true ∧ s.vfs.phys.pmm.free p = false) ∧
      (∀ i, (s.vfs.nodes i).size ≤ 4 * 1024 * 1024) ∧
      (∀ i j, i ≠ 0 → j ≠ 0 → (s.vfs.nodes i).used = true → (s.vfs.nodes j).used = true →
        (s.vfs.nodes i).parent = (s.vfs.nodes j).parent →
        (s.vfs.nodes i).name = (s.vfs.nodes j).name → i = j) ∧
      (∀ i, i ≠ 0 → (s.vfs.nodes i).used = true →
        (s.vfs.nodes (s.vfs.nodes i).parent).used = true ∧
        (s.vfs.nodes (s.vfs.nodes i).parent).directory = true) ∧
      ∀ i, (s.vfs.nodes i).used = true → ∃ st, walk (childOf s.vfs.nodes) 0 st = some i := by
  obtain ⟨hok, hrun⟩ := hr.refines
  have hstep := fun c => (hok.call fs c).answer
  refine ⟨hrun, hstep, fun c e he => ?_, fun i p hp => ?_, hok.vfs.small, hok.vfs.tree.names,
    hok.vfs.tree.parents, hok.vfs.reached⟩
  · rcases hstep c with h | ⟨-, h⟩
    · have e₁ : (s.call fs c).1 = (s.abs.call c).1 := congrArg Prod.fst h
      have e₂ : (s.call fs c).2.abs = (s.abs.call c).2 := congrArg Prod.snd h
      have hmap := MapState.call_error (e₁.symm.trans he)
      rw [← e₂] at hmap
      exact hmap
    · have e₂ : (s.call fs c).2.abs = (s.abs.noRoom c).2 := congrArg Prod.snd h
      have hmap := MapState.noRoom_map s.abs c
      rw [← e₂] at hmap
      exact hmap
  · -- what is held is taken, and only by a file that is not empty
    obtain ⟨hd, hlo, hhi⟩ := hp
    have hsize : (s.vfs.nodes i).size ≠ 0 := fun e => hd ((hok.vfs.placed i).mpr e)
    have hheld := Pmm.held_iff.mp (hok.vfs.held.held (some i) hd) p hlo hhi
    refine ⟨fun j hj => ?_, ?_, ?_, hheld.1, hheld.2⟩
    · -- two nodes that share a page are one
      obtain ⟨hd', hlo', hhi'⟩ := hj
      by_contra hne
      have h₁ := Nat.mul_div_cancel' (hok.vfs.held.aligned (some i) hd)
      have h₂ := Nat.mul_div_cancel' (hok.vfs.held.aligned (some j) hd')
      have hapart := hok.vfs.held.apart (some j) (some i) (by simpa using hne) hd' hd
      simp only [Option.elim_some] at h₁ h₂ hapart
      omega
    · by_contra hu
      exact hsize (hok.vfs.plain i (Or.inr (by simpa using hu)))
    · by_contra hdir
      exact hsize (hok.vfs.plain i (Or.inl (by simpa using hdir)))

/-- Drivers of volumes that are not there. -/
def Drivers.absent : Drivers Unit where
  nativeCreate _ _ _ := Io.fail .enotsup
  fatCreateLocked _ _ _ := Io.fail .enotsup
  nativeStore _ _ _ := Io.fail .enotsup
  fatStoreLocked _ _ _ := Io.fail .enotsup
  nativeOpen _ _ := Io.fail .enotsup
  fatOpen _ _ := Io.fail .enotsup
  nativeRead _ _ _ := Io.fail .enotsup
  fatRead _ _ _ := Io.fail .enotsup
  nativeRefresh _ := Io.fail .enotsup
  fatRefresh _ := Io.fail .enotsup
  nativeWrite f _ _ s := (.error .enotsup, f, s)
  fatReplaceLocked f _ s := (.error .enotsup, f, s)
  diskSize _ := none
  diskBytes _ _ _ := Io.fail .enotsup

/-- A client that makes `/a` and `/a/f`, writes one byte behind a gap and reads it back. -/
theorem ram_vfs_refines_map_gap : ∃ (t : List (VfsCall × Except Errno VfsValue)) (s : Session Unit),
    VfsRun .absent t s ∧ MapRun ⟨[], FileMap.empty, []⟩ t s.abs ∧
      t.map Prod.snd =
        [.ok .done, .ok (.opened false 0), .ok (.written 1), .ok (.bytes [0, 0, 0, 7])] := by
  have hboot : VfsRun .absent [] (.boot ⟨pmmSeedFromEfiMap overlappingMap, fun _ => 0⟩ ()) :=
    .boot () (pmmCounted_seed overlappingMap)
  have hrun := (((hboot.call (.mkdir [47, 97])).call (.create [47, 97, 47, 102])).call
    (.write 0 3 [7])).call (.read 0 0 9)
  refine ⟨_, _, hrun, (ram_vfs_refines_map hrun).1, ?_⟩
  decide +kernel

end Efishell
