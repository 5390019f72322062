import ConnectorAudit.Run

/-!
# The program

Reads the source named on the command line, audits it and writes the results.
-/

namespace ConnectorAudit

/-- What the program says about its use. -/
def usage : String :=
  "Usage: connector-audit [OPTIONS] [PATH]\n\n" ++
  "Arguments:\n" ++
  "  [PATH]  Connector source file\n\n" ++
  "Options:\n" ++
  "      --outdir <OUTDIR>              Output directory [default: ./out]\n" ++
  "      --base <BASE>                  Base name of the output files [default: connector]\n" ++
  "      --emit <EMIT>                  Outputs to write, comma separated " ++
    "[default: json,md,dot,ndjson]\n" ++
  "      --pretty                       Pretty-print the JSON bundle (default)\n" ++
  "      --no-pretty                    Write compact JSON\n" ++
  "      --graph-name <GRAPH_NAME>      Name of the DOT graph [default: Connector]\n" ++
  "      --max-warnings <MAX_WARNINGS>  Keep at most this many warnings [default: 10000]\n" ++
  "  -h, --help                         Print help\n" ++
  "  -V, --version                      Print version"

/-- The text of what ends the program before it has begun. -/
def CommandLine.Stop.message : CommandLine.Stop → String
  | unknownArgument => "unexpected argument"
  | invalidValue => "invalid value"
  | invalidNumber => "invalid number"
  | repeated => "an argument cannot be used multiple times"
  | unexpectedValue => "unexpected value"
  | help => usage
  | version => "connector-audit 0.1.0"

/-- What the system says of an error, as a cause. -/
def StorageError.ofSystem : IO.Error → StorageError
  | .alreadyExists .. => .taken
  | .noFileOrDirectory .. => .absent
  | .inappropriateType _ code _ => if code = 21 then .isFolder else .notFolder
  | e => .other e.toString

/-- What an action on the system does, with its error as a value. -/
def attemptOnSystem (action : IO Unit) : IO (Except StorageError Unit) := do
  try
    action
    return .ok ()
  catch e => return .error (.ofSystem e)

/-- The files of the system as a place for files.  A path that goes on by a lone dot can be
followed only if it leads to a folder. -/
def systemStorage : Storage IO where
  read path := do
    try return some (← IO.FS.readBinFile path)
    catch _ => return none
  isFolder path := do
    try
      let _ ← IO.FS.realPath (path ++ "/.")
      return true
    catch _ => return false
  makeOne path := attemptOnSystem (IO.FS.createDir path)
  write path text := attemptOnSystem (IO.FS.writeFile path text)

end ConnectorAudit

open ConnectorAudit in
def main (words : List String) : IO UInt32 := do
  match Arguments.ofWords words with
  | .error stop =>
    if stop == .help || stop == .version then
      IO.println stop.message
      return 0
    IO.eprintln ("error: " ++ stop.message)
    return 2
  | .ok args =>
    match ← run systemStorage args with
    | .ok _ =>
      IO.println ("Wrote outputs to " ++ args.outdir)
      return 0
    | .error e =>
      IO.eprintln ("error: " ++ e.message)
      if e.isUsage then
        IO.eprintln "Usage: connector-audit [OPTIONS] [PATH]"
        return 2
      return 1
