import ConnectorAudit.Storage

/-!
# Folders

A place for files that is held in memory: files under the names on their paths.
-/

namespace ConnectorAudit

/-- What can be in a folder. -/
inductive Folder.Item where
  | file (content : ByteArray)
  | folder

/-- A folder in memory: what is in it, and in the folders in it, by the names on the way. -/
structure Folder where
  items : List (List String × Folder.Item) := []

namespace Folder

/-- The longest name, in bytes. -/
def nameLimit : Nat := 255

/-- The longest path, in bytes. -/
def pathLimit : Nat := 4095

/-- What is at a place.  The folder itself is at the empty one, and above it are the folders
that hold it. -/
def find? (f : Folder) (place : List String) : Option Item :=
  if place.all (· == "..") then some .folder else f.items.lookup place

/-- Puts something at a place, over what is there. -/
def put (f : Folder) (place : List String) (item : Item) : Folder :=
  ⟨(place, item) :: f.items⟩

/-- Goes on from a place by one part of a path. -/
def enter (place : List String) (part : String) : List String :=
  if Path.isIdle part then place
  else if part = ".." ∧ place.getLast?.any (· != "..") then place.dropLast
  else place ++ [part]

/-- The place that a row of parts leads to, if there are folders all the way. -/
def walk (f : Folder) (place : List String) : List String → Except StorageError (List String)
  | [] => pure place
  | part :: parts =>
    match f.find? place with
    | none => throw .absent
    | some (.file _) => throw .notFolder
    | some .folder =>
      if nameLimit < part.utf8ByteSize then throw .nameTooLong
      else f.walk (enter place part) parts

/-- The parts of a path that can be followed at all. -/
def usableParts (path : String) : Except StorageError (List String) :=
  if path.toList.contains '\x00' then throw .zeroInName
  else if path.isEmpty then throw .absent
  else if pathLimit < path.utf8ByteSize then throw .nameTooLong
  else pure (Path.parts path)

/-- The place that a path leads to. -/
def locate (f : Folder) (path : String) : Except StorageError (List String) := do
  f.walk [] (← usableParts path)

def read (f : Folder) (path : String) : Option ByteArray :=
  match f.locate path with
  | .error _ => none
  | .ok place =>
    match f.find? place with
    | some (.file content) => some content
    | _ => none

def isFolder (f : Folder) (path : String) : Bool :=
  match f.locate path with
  | .error _ => false
  | .ok place =>
    match f.find? place with
    | some .folder => true
    | _ => false

/-- Makes one folder.  Slashes at the end of its path do not count. -/
def makeOne (f : Folder) (path : String) : Except StorageError Folder := do
  let parts ← usableParts path
  let place ← f.walk [] (parts.reverse.dropWhile (· == "")).reverse
  match f.find? place with
  | some _ => throw .taken
  | none => pure (f.put place .folder)

def write (f : Folder) (path : String) (content : ByteArray) : Except StorageError Folder := do
  let place ← f.locate path
  match f.find? place with
  | some .folder => throw .isFolder
  | _ => pure (f.put place (.file content))

/-- Does something to the folder that may fail. -/
def attempt (change : Folder → Except StorageError Folder) :
    StateM Folder (Except StorageError Unit) := fun f =>
  match change f with
  | .error e => (.error e, f)
  | .ok f => (.ok (), f)

/-- A folder in memory as a place for files. -/
def storage : Storage (StateM Folder) where
  read path := fun f => (f.read path, f)
  isFolder path := fun f => (f.isFolder path, f)
  makeOne path := attempt (·.makeOne path)
  write path text := attempt (·.write path text.toUTF8)

/-- The folder that holds some files. -/
def ofFiles (files : List (String × ByteArray)) : Except StorageError Folder :=
  files.foldlM (fun f (path, content) => do
    let (made, f) := (storage.makeFolder (Path.folder path)).run f
    made
    f.write path content) {}

end Folder

end ConnectorAudit
