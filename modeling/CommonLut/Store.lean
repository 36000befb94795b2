import CommonLut.Error

/-!
# Files

Documents refer to other documents by paths. A store is what the library knows of a file system:
the files and directories that exist, and the directory that relative paths start from. Nothing in
it is a link, so a file has one canonical location.

Following a path, a blank component or a dot stays in place and two dots go up; each of them needs a
directory to stand in, so a trailing separator after a file leads nowhere.

Main definitions: `Location`, `Store`, `Store.canonical`, `Store.read`, `Store.write`,
`joinPath`.
-/

namespace CommonLut

/-! ## §1 Locations and paths -/

/-- A canonical location: the names from the root down. -/
abbrev Location := List String

namespace Location

/-- A location as an absolute path. -/
def text (l : Location) : String := "/" ++ "/".intercalate l

/-- The directory that holds a location; the root is in none. -/
def parent? (l : Location) : Option Location :=
  if l.isEmpty then none else some l.dropLast

end Location

/-- The components of a path, blank ones included. -/
def pathComponents (path : String) : List String :=
  (path.toList.splitOnP (· == '/')).map String.ofList

/-- Whether a path starts from the root. -/
def isAbsolute (path : String) : Bool :=
  path.toList.head? == some '/'

/-- A path taken relative to a directory; an absolute path stays as it is. -/
def joinPath (directory path : String) : String :=
  if isAbsolute path ∨ directory.isEmpty then path
  else if directory.toList.getLast? = some '/' then directory ++ path
  else directory ++ "/" ++ path

/-! ## §2 Stores -/

/-- What is at a location. -/
inductive Entry where
  | file (content : ByteArray)
  | directory

/-- What is known of a file system; of two entries for one location the first counts. -/
structure Store where
  workingDirectory : Location
  entries : List (Location × Entry) := []

namespace Store

/-- What is at a location. The root and the directories on the way to the working directory are
always there. -/
def entry? (s : Store) (l : Location) : Option Entry :=
  match s.entries.find? fun e => e.1 == l with
  | some e => some e.2
  | none => if l.isPrefixOf s.workingDirectory then some .directory else none

/-- One step from a location. -/
def enter (s : Store) (l : Location) (component : String) : Except FileFault Location :=
  match s.entry? l with
  | none => .error .notFound
  | some (.file _) => .error .notDirectory
  | some .directory =>
    if component = "" ∨ component = "." then .ok l
    else if component = ".." then .ok l.dropLast
    else
      match s.entry? (l ++ [component]) with
      | some _ => .ok (l ++ [component])
      | none => .error .notFound

/-- Where a path starts. -/
def start (s : Store) (path : String) : Location :=
  if isAbsolute path then [] else s.workingDirectory

/-- The location that a path leads to, if there is something. -/
def canonical (s : Store) (path : String) : Except FileFault Location :=
  if path.isEmpty then .error .notFound
  else (pathComponents path).foldlM s.enter (s.start path)

/-- The content of the file at a location. -/
def read (s : Store) (l : Location) : Except FileFault ByteArray :=
  match s.entry? l with
  | some (.file content) => .ok content
  | some .directory => .error .isDirectory
  | none => .error .notFound

/-- Puts something at a location. -/
def put (s : Store) (l : Location) (e : Entry) : Store :=
  { s with entries := (l, e) :: s.entries.filter fun old => old.1 != l }

/-- Takes away what is at a location. -/
def remove (s : Store) (l : Location) : Store :=
  { s with entries := s.entries.filter fun old => old.1 != l }

/-- Puts something at a location and makes the directories on the way to it. -/
def putWithParents (s : Store) (l : Location) (e : Entry) : Store :=
  let parents := (List.range l.length).map fun n => l.take n
  (parents.foldl (fun s p => if (s.entry? p).isSome then s else s.put p .directory) s).put l e

/-- The location that a path would lead to if everything on the way were a directory. -/
def plainLocation (s : Store) (path : String) : Location :=
  (pathComponents path).foldl (fun l component =>
    if component = "" ∨ component = "." then l
    else if component = ".." then l.dropLast
    else l ++ [component]) (s.start path)

/-- Writes a file, which need not exist yet, into a directory, which has to. A path that can only
mean a directory, since it ends with a separator or dots, is refused even if nothing is there. -/
def write (s : Store) (path : String) (content : ByteArray) : Except FileFault Store :=
  if path.isEmpty then .error .notFound
  else
    match ((pathComponents path).filter (· != "")).reverse with
    | [] => .error .isDirectory
    | last :: before => do
      let directory ← (before.reverse ++ ["."]).foldlM s.enter (s.start path)
      if last = "." ∨ last = ".." ∨ path.toList.getLast? = some '/' then throw .isDirectory
      match s.entry? (directory ++ [last]) with
      | some .directory => .error .isDirectory
      | _ => .ok (s.put (directory ++ [last]) (.file content))

end Store

end CommonLut
