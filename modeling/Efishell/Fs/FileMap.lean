import Efishell.Fs.Path

/-!
# File systems — files as a map

What a file system without volumes is for: a map from canonical paths to directories and strings of
bytes.  A canonical path is the list of its components, so the parent of `st` is `st.dropLast`; the
root is `[]`.

Each call is a function on the map.  A client holds handles; all that the map remembers of one is
the path it was opened at and the size it last told the client.
-/

namespace Efishell

open Components

/-- The largest file. -/
def maxFileSize : Nat := 4 * 1024 * 1024

/-- What a path names: a directory, or a file with its bytes. -/
inductive Entry where
  | dir
  | file (bytes : List UInt8)
  deriving DecidableEq, Repr

/-- The path names a directory. -/
def Entry.isDir : Entry → Bool
  | .dir => true
  | .file _ => false

/-- The bytes of a file; none for a directory. -/
def Entry.size : Entry → Nat
  | .dir => 0
  | .file bytes => bytes.length

/-- A map from paths, as their components, to entries. -/
abbrev FileMap := List Name → Option Entry

namespace FileMap

/-- The map with nothing but the root. -/
def empty : FileMap := fun st => if st = [] then some .dir else none

/-- A new entry needs a parent that is a directory, and a name that is free. -/
def add (m : FileMap) (st : List Name) (e : Entry) : Except Errno FileMap :=
  if st = [] then .error .eexist
  else if m st.dropLast ≠ some .dir then .error .enoent
  else if (m st).isSome then .error .eexist
  else .ok (Function.update m st (some e))

/-- A new empty directory. -/
def mkdir (m : FileMap) (st : List Name) : Except Errno FileMap := m.add st .dir

/-- A new empty file, at a path nothing has. -/
def create (m : FileMap) (st : List Name) : Except Errno FileMap :=
  if (m st).isSome then .error .eexist else m.add st (.file [])

/-- The bytes of a file are replaced, or the file is new. -/
def put (m : FileMap) (st : List Name) (bytes : List UInt8) : Except Errno FileMap :=
  match m st with
  | some .dir => .error .einval
  | some (.file _) => .ok (Function.update m st (some (.file bytes)))
  | none => m.add st (.file bytes)

/-- `data` stands at `offset`; what lay between the end of the file and `offset` is zero. -/
def writeAt (bytes : List UInt8) (offset : Nat) (data : List UInt8) : List UInt8 :=
  (bytes ++ List.replicate (offset - bytes.length) 0).take offset ++ data ++
    bytes.drop (offset + data.length)

/-- The offset that `~0` stands for is the end of the file. -/
def offsetIn (bytes : List UInt8) (offset : Nat) : Nat :=
  if offset = 2 ^ 64 - 1 then bytes.length else offset

/-- `data` at an offset of a file, within the largest size. -/
def write (m : FileMap) (st : List Name) (offset : Nat) (data : List UInt8) :
    Except Errno FileMap :=
  match m st with
  | none => .error .enoent
  | some .dir => .error .einval
  | some (.file bytes) =>
    if maxFileSize < offsetIn bytes offset + data.length then .error .e2big
    else if data = [] then .ok m
    else .ok (Function.update m st (some (.file (writeAt bytes (offsetIn bytes offset) data))))

/-- At most `n` bytes of a file from an offset on. -/
def read (m : FileMap) (st : List Name) (offset n : Nat) : Except Errno (List UInt8) :=
  match m st with
  | none => .error .enoent
  | some .dir => .error .einval
  | some (.file bytes) => .ok ((bytes.drop offset).take n)

end FileMap

/-! ### A client's calls -/

/-- The calls, with the handles of the client named by the order in which it got them. -/
inductive VfsCall where
  | mkdir (path : List UInt8)
  | put (path bytes : List UInt8)
  | create (path : List UInt8)
  | open (path : List UInt8)
  | read (handle offset n : Nat)
  | write (handle offset : Nat) (data : List UInt8)
  | stat (handle : Nat)
  deriving DecidableEq, Repr

/-- What the client gets from a call that succeeds. -/
inductive VfsValue where
  | done
  | opened (directory : Bool) (size : Nat)
  | bytes (data : List UInt8)
  | written (n : Nat)
  | size (n : Nat)
  deriving DecidableEq, Repr

/-- A handle, by the path that was opened. -/
structure MapHandle where
  path : List Name
  size : Nat

/-- The map together with the roots the paths are read by. -/
structure MapState where
  roots : List PathRoot
  map : FileMap
  handles : List MapHandle

namespace MapState

/-- The components of the canonical path that `path` stands for. -/
def resolve (m : MapState) (path : List UInt8) : Except Errno (List Name) :=
  (kPathResolve m.roots path [slash]).map (components slash)

/-- A call whose only effect is on the map. -/
def change (m : MapState) (r : Except Errno FileMap) : Except Errno VfsValue × MapState :=
  match r with
  | .error e => (.error e, m)
  | .ok map => (.ok .done, { m with map })

/-- The client gets a handle. -/
def opened (m : MapState) (st : List Name) : Except Errno VfsValue × MapState :=
  match m.map st with
  | none => (.error .enoent, m)
  | some e => (.ok (.opened e.isDir e.size), { m with handles := m.handles ++ [⟨st, e.size⟩] })

/-- A handle learns the size of what it stands for. -/
def refresh (m : MapState) (handle : Nat) (st : List Name) : MapState :=
  { m with handles := m.handles.set handle ⟨st, ((m.map st).elim 0 Entry.size)⟩ }

/-- A call through a handle; the null pointer is no handle. -/
def through (m : MapState) (handle : Nat)
    (f : MapHandle → Except Errno VfsValue × MapState) : Except Errno VfsValue × MapState :=
  match m.handles[handle]? with
  | none => (.error .einval, m)
  | some h => f h

/-- One call of the file system, on the map. -/
def call (m : MapState) : VfsCall → Except Errno VfsValue × MapState
  | .mkdir path =>
    match m.resolve path with
    | .error e => (.error e, m)
    | .ok st => m.change (m.map.mkdir st)
  | .put path bytes =>
    if maxFileSize < bytes.length then (.error .einval, m)
    else
      match m.resolve path with
      | .error e => (.error e, m)
      | .ok st => m.change (m.map.put st bytes)
  | .create path =>
    match m.resolve path with
    | .error e => (.error e, m)
    | .ok st =>
      match m.map.create st with
      | .error e => (.error e, m)
      | .ok map => { m with map }.opened st
  | .open path =>
    match m.resolve path with
    | .error e => (.error e, m)
    | .ok st => m.opened st
  | .read handle offset n =>
    m.through handle fun h =>
      match m.map.read h.path offset n with
      | .error e => (.error e, m)
      | .ok data => (.ok (.bytes data), m)
  | .write handle offset data =>
    m.through handle fun h =>
      if maxFileSize < data.length then (.error .e2big, m)
      else
        match m.map.write h.path offset data with
        | .error e => (.error e, m.refresh handle h.path)
        | .ok map => (.ok (.written data.length), { m with map }.refresh handle h.path)
  | .stat handle =>
    m.through handle fun h =>
      match m.map h.path with
      | none => (.error .enoent, m)
      | some e => (.ok (.size e.size), m.refresh handle h.path)

/-- The answer to a call for which there is no memory: only the handle of a `write` has learnt the
size by then. -/
def noRoom (m : MapState) : VfsCall → Except Errno VfsValue × MapState
  | .write handle _ _ => m.through handle fun h => (.error .enomem, m.refresh handle h.path)
  | _ => (.error .enomem, m)

end MapState

namespace MapState

/-- A call that fails leaves the map as it is. -/
theorem call_error {m : MapState} {c : VfsCall} {e : Errno} :
    (m.call c).1 = .error e → (m.call c).2.map = m.map := by
  have hchange : ∀ r, (m.change r).1 = .error e → (m.change r).2.map = m.map := by
    intro r hr
    cases r with
    | error _ => rfl
    | ok _ => cases hr
  cases c with
  | mkdir path =>
      rw [call]
      split
      · exact fun _ => rfl
      · exact hchange _
  | put path bytes =>
      rw [call]
      split
      · exact fun _ => rfl
      · split
        · exact fun _ => rfl
        · exact hchange _
  | create path =>
      rw [call]
      split
      · exact fun _ => rfl
      · rename_i st _
        split
        · exact fun _ => rfl
        · -- a file that was just made can be opened
          rename_i map hmap
          have hst : map st = some (.file []) := by
            rw [FileMap.create, FileMap.add] at hmap
            split_ifs at hmap
            rw [← Except.ok.inj hmap, Function.update_self]
          rw [opened]
          dsimp only
          rw [hst]
          exact fun he => (nomatch he)
  | «open» path =>
      rw [call]
      split
      · exact fun _ => rfl
      · rw [opened]
        split <;> exact fun _ => rfl
  | read handle offset n =>
      rw [call, through]
      split
      · exact fun _ => rfl
      · split <;> exact fun _ => rfl
  | write handle offset data =>
      rw [call, through]
      split
      · exact fun _ => rfl
      · split
        · exact fun _ => rfl
        · split
          · exact fun _ => rfl
          · exact fun he => (nomatch he)
  | stat handle =>
      rw [call, through]
      split
      · exact fun _ => rfl
      · split <;> exact fun _ => rfl

/-- A call that finds no room leaves the map. -/
theorem noRoom_map (m : MapState) (c : VfsCall) : (m.noRoom c).2.map = m.map := by
  cases c with
  | write handle offset data =>
      rw [noRoom, through]
      split <;> rfl
  | _ => rfl

end MapState

/-- The runs of the map, with the calls and their answers in the order they were made.  Between two
calls a root may be bound. -/
inductive MapRun (m₀ : MapState) : List (VfsCall × Except Errno VfsValue) → MapState → Prop where
  | start : MapRun m₀ [] m₀
  | call {t : List (VfsCall × Except Errno VfsValue)} {m : MapState} (c : VfsCall) :
      MapRun m₀ t m → MapRun m₀ (t ++ [(c, (m.call c).1)]) (m.call c).2
  | noRoom {t : List (VfsCall × Except Errno VfsValue)} {m : MapState} (c : VfsCall) :
      MapRun m₀ t m → MapRun m₀ (t ++ [(c, (m.noRoom c).1)]) (m.noRoom c).2
  | bind {t : List (VfsCall × Except Errno VfsValue)} {m : MapState} (roots : List PathRoot) :
      MapRun m₀ t m → MapRun m₀ t { m with roots }

end Efishell
