import CommonLut.Command.Run

/-!
# The program

The command line tool takes a snapshot of the files that its arguments name and of those that the
documents among them refer to, runs the command on the snapshot, and then prints and writes what
the command leaves behind.

Main definitions: `main`.
-/

namespace CommonLut.Program

/-! ## §1 Snapshots -/

mutual
/-- The targets of the references in an element. -/
def targets : Element → List Target
  | ⟨name, attributes, text, children⟩ =>
    let e : Element := ⟨name, attributes, text, children⟩
    let own :=
      if name = NodeKind.reference.elementName then
        ((Target.schema.readAttributes {} e).toOption).toList
      else []
    own ++ targetsAll children
termination_by structural e => e

/-- The targets of the references in a list of elements. -/
def targetsAll : List Element → List Target
  | [] => []
  | e :: es => targets e ++ targetsAll es
termination_by structural es => es
end

/-- The paths that a document at a location refers to. -/
def referredPaths (location : Location) (content : ByteArray) : List String :=
  match ProcessList.rootElement content with
  | .ok root => (targets root).map (·.pathFrom (location.parent?.map Location.text))
  | .error _ => []

/-- Adds what is at a path and the directories on the way to it; gives the store and the content
of a file that is new. -/
def observe (store : Store) (path : String) : IO (Store × Option (Location × ByteArray)) := do
  let location := store.plainLocation path
  let mut store := store
  for n in List.range location.length do
    let ancestor := location.take n
    if (store.entry? ancestor).isNone then
      if ← (System.mkFilePath [Location.text ancestor]).isDir then
        store := store.put ancestor .directory
  if (store.entry? location).isSome then return (store, none)
  let file := System.mkFilePath [Location.text location]
  if ← file.isDir then return (store.put location .directory, none)
  if ← file.pathExists then
    let content ← IO.FS.readBinFile file
    return (store.put location (.file content), some (location, content))
  return (store, none)

/-- Adds everything that can be reached from some paths. -/
partial def observeAll (store : Store) : List String → IO Store
  | [] => return store
  | path :: rest => do
    match ← observe store path with
    | (store, some (location, content)) =>
      observeAll store (referredPaths location content ++ rest)
    | (store, none) => observeAll store rest

/-- The texts in the arguments that may be paths. -/
def candidatePaths (arguments : List String) : List String :=
  arguments ++ arguments.map (fun a => String.ofList ((a.toList.dropWhile (· != '=')).drop 1)) ++
    arguments.map fun a => String.ofList (a.toList.drop 2)

/-! ## §2 Running -/

/-- The files that a run has written. -/
def written (before after : Store) : List (Location × ByteArray) :=
  after.entries.filterMap fun e =>
    match e.2, before.entry? e.1 with
    | .file content, some (.file old) => if content == old then none else some (e.1, content)
    | .file content, _ => some (e.1, content)
    | .directory, _ => none

/-- Runs the command line in the current directory. -/
def runProgram (arguments : List String) : IO UInt32 := do
  let here := (← IO.currentDir).toString
  let root : Store := { workingDirectory := [] }
  let start : Store := { workingDirectory := root.plainLocation here }
  let before ← observeAll start (candidatePaths arguments)
  let outcome := Command.run before arguments
  for (location, content) in written before outcome.store do
    IO.FS.writeBinFile (System.mkFilePath [Location.text location]) content
  IO.print outcome.output
  IO.eprint outcome.errors
  return outcome.exitCode

end CommonLut.Program

/-- The entry point of the program. -/
def main (arguments : List String) : IO UInt32 :=
  CommonLut.Program.runProgram arguments
