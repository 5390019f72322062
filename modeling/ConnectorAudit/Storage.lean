import ConnectorAudit.Path

/-!
# Storage

Where sources are read from and results are written to: what the program asks
of such a place, and how it makes a folder that has folders on its way.
-/

namespace ConnectorAudit

/-- Why something could not be made or written. -/
inductive StorageError where
  /-- There is something of that name. -/
  | taken
  /-- Something on the way is no folder. -/
  | notFolder
  /-- It is a folder. -/
  | isFolder
  /-- There is nothing of that name. -/
  | absent
  /-- A name on the path, or the whole path, is too long. -/
  | nameTooLong
  /-- The path has a character of value zero. -/
  | zeroInName
  /-- Some other reason, in words. -/
  | other (reason : String)
  deriving DecidableEq, Repr

def StorageError.message : StorageError → String
  | taken => "File exists (os error 17)"
  | notFolder => "Not a directory (os error 20)"
  | isFolder => "Is a directory (os error 21)"
  | absent => "No such file or directory (os error 2)"
  | nameTooLong => "File name too long (os error 36)"
  | zeroInName => "file name contained an unexpected NUL byte"
  | other reason => reason

/-- A place for files, as the program uses it. -/
structure Storage (m : Type → Type) where
  /-- The content of a regular file; nothing if there is none under that path. -/
  read : String → m (Option ByteArray)
  /-- Whether a path leads to a folder. -/
  isFolder : String → m Bool
  /-- Makes one folder, in a folder that is there. -/
  makeOne : String → m (Except StorageError Unit)
  /-- Writes a text. -/
  write : String → String → m (Except StorageError Unit)

namespace Storage

variable {m : Type → Type} [Monad m]

/-- Makes one folder; one that is there is left as it is. -/
def ensureOne (storage : Storage m) (path : String) : m (Except StorageError Unit) := do
  match ← storage.makeOne path with
  | .error .taken => return if ← storage.isFolder path then .ok () else .error .taken
  | result => return result

/-- Makes the first of some folders, each of which is in the next.  The next are looked at only
if the first cannot be made for want of something on its way. -/
def ensureFirst (storage : Storage m) : List String → m (Except StorageError Unit)
  | [] => return .ok ()
  | path :: folders => do
    match ← storage.ensureOne path with
    | .error .absent =>
      match ← storage.ensureFirst folders with
      | .error e => return .error e
      | .ok () => storage.ensureOne path
    | result => return result

/-- Makes a folder and all folders on its way; those that are there are left as they are. -/
def makeFolder (storage : Storage m) (path : String) : m (Except StorageError Unit) :=
  if path.isEmpty then return .ok () else storage.ensureFirst (Path.withFolders path)

end Storage

end ConnectorAudit
