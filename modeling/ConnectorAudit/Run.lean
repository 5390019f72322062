import ConnectorAudit.CommandLine
import ConnectorAudit.SourceFile
import ConnectorAudit.Storage

/-!
# Runs

What the program does: it reads a source, audits it, and writes the results.
-/

namespace ConnectorAudit

/-- Why a run ends without all of its results. -/
inductive RunError where
  | missingInput
  | notAFile (path : String)
  /-- The source is not text. -/
  | notText (path : String)
  /-- The folder for the results could not be made. -/
  | folder (outdir : String) (cause : StorageError)
  /-- A result could not be written. -/
  | file (outdir path : String) (cause : StorageError)
  deriving DecidableEq, Repr

namespace RunError

def message : RunError → String
  | missingInput => "no input file given"
  | notAFile path => path ++ " is not a regular file"
  | notText path => "reading " ++ path ++ ": stream did not contain valid UTF-8"
  | folder outdir cause =>
    "Writing outputs to " ++ outdir ++ ": Creating " ++ outdir ++ ": " ++ cause.message
  | file outdir path cause =>
    "Writing outputs to " ++ outdir ++ ": Writing " ++ path ++ ": " ++ cause.message

/-- Whether the program was called wrongly. -/
def isUsage : RunError → Bool
  | missingInput | notAFile _ => true
  | _ => false

end RunError

section

variable {m : Type → Type} [Monad m]

def loadSource (storage : Storage m) (path : Option String) : m (Except RunError SourceFile) :=
  match path with
  | none => pure (.error .missingInput)
  | some path => do
    match ← storage.read path with
    | none => pure (.error (.notAFile path))
    | some content =>
      match String.fromUTF8? content with
      | none => pure (.error (.notText path))
      | some text => pure (.ok { path, text })

/-- Writes an audit in some formats, each into a file of its own, up to the first file that
cannot be written.  The formats `done` are written already, to the paths `written`, and are passed
over. -/
def emitFormats (storage : Storage m) (a : Audit) (outdir : String) (o : OutputOptions)
    (done : List Format) (written : List String) :
    List Format → m (Except RunError (List String))
  | [] => pure (.ok written)
  | f :: formats =>
    if done.contains f then emitFormats storage a outdir o done written formats
    else do
      let path := Path.join outdir (f.fileName o.base)
      match ← storage.write path (a.render o f) with
      | .error cause => pure (.error (.file outdir path cause))
      | .ok () =>
        emitFormats storage a outdir o (done ++ [f]) (written ++ [path]) formats

/-- Writes an audit into a folder, in each format once, in the order asked for; the paths
written. -/
def emit (storage : Storage m) (a : Audit) (outdir : String) (o : OutputOptions) :
    m (Except RunError (List String)) := do
  match ← storage.makeFolder outdir with
  | .error cause => pure (.error (.folder outdir cause))
  | .ok () => emitFormats storage a outdir o [] [] o.formats

/-- The settings of an audit of a source. -/
def Arguments.settings (args : Arguments) (source : SourceFile) : Settings :=
  { filename := source.displayName, maxWarnings := args.maxWarnings }

/-- Reads the source, audits it and writes the results; the paths of what was written. -/
def run (storage : Storage m) (args : Arguments) : m (Except RunError (List String)) := do
  match ← loadSource storage args.path with
  | .error e => pure (.error e)
  | .ok source =>
    emit storage (Audit.ofSource source.text (args.settings source)) args.outdir args.output

end

end ConnectorAudit
