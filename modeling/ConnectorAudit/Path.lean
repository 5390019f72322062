/-!
# Paths

A path is a row of parts with slashes between them.  An empty part and a lone
dot lead nowhere; every other part leads to another place.
-/

namespace ConnectorAudit

namespace Path

/-- A path cut at its slashes. -/
def parts (path : String) : List String := (path.toList.splitOn '/').map String.ofList

/-- The path with some parts. -/
def ofParts (parts : List String) : String := "/".intercalate parts

/-- The path of a file in a folder; an empty path leads to the folder that one is in. -/
def join (folder name : String) : String :=
  if folder.isEmpty || folder.toList.getLast? = some '/' then folder ++ name
  else folder ++ "/" ++ name

/-- The path of the folder that a file is in. -/
def folder (path : String) : String := ofParts (parts path).dropLast

/-- A part that leads nowhere. -/
def isIdle (part : String) : Bool := part == "" || part == "."

/-- The beginnings of a row of parts that end in a part that leads elsewhere, the shortest
first; `before` has the parts in front of the row. -/
def beginnings (before : List String) : List String → List (List String)
  | [] => []
  | part :: rest =>
    let upTo := before ++ [part]
    if isIdle part then beginnings upTo rest else upTo :: beginnings upTo rest

/-- A path and after it the paths of the folders on its way, the nearest first.  The parts at
its end that lead nowhere belong to the path itself. -/
def withFolders (path : String) : List String :=
  path :: ((beginnings [] (parts path)).dropLast.reverse.map ofParts)

end Path

end ConnectorAudit
