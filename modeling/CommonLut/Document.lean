import CommonLut.Gzip.Member
import CommonLut.Markup.Printer
import CommonLut.Markup.Reader
import CommonLut.Node.Read
import CommonLut.Node.Write
import CommonLut.Store

/-!
# Documents

A process list is read from the bytes of a document, compressed or not, and written to bytes again.
The references of a document are followed while it is read. A target that cannot be found, read or
understood leaves its reference unresolved; a target that is already being read, a nesting deeper
than the limit, and a target that needs a refused extension stop the reading of the document.

Each step into a target uses up one level of the nesting that is left, so reading ends however the
documents refer to each other.

Main definitions: `Target.pathFrom`, `resolveTarget`, `ProcessList.ofBytes`, `ProcessList.load`,
`ProcessList.toBytes`, `ProcessList.save`, `Node.loadTarget`.
-/

namespace CommonLut

/-! ## §1 Bytes -/

namespace ProcessList

/-- The root element of a document. -/
def rootElement (bytes : ByteArray) : Except Error Element :=
  if Gzip.isCompressed bytes then
    match Gzip.decompress? bytes with
    | some content => Element.parse content
    | none => .error (.file .badCompression)
  else Element.parse bytes

/-- The list in a document, its references being looked up by `link`. -/
def readBytes (link : Link) (options : ReadOptions) (bytes : ByteArray) :
    Except Error ProcessList := do
  read link options (← rootElement bytes)

/-- The document of a list. -/
def toBytes (l : ProcessList) (options : WriteOptions) : ByteArray :=
  let plain := (l.write options.selfContained).toBytes
  if options.gzip then Gzip.compress plain else plain

end ProcessList

/-! ## §2 References -/

/-- The path of a target as seen from a document in a directory. -/
def Target.pathFrom (t : Target) (directory : Option String) : String :=
  if isAbsolute t.path then t.path
  else
    let joined :=
      match t.basePath with
      | some base => joinPath base t.path
      | none => t.path
    match directory with
    | some d => joinPath d joined
    | none => joined

/-- The list of a target, `visit` giving that of the document at a location. `chain` are the
locations of the documents that are being read, outermost first, and `directory` that of the
innermost one. -/
def followTarget (store : Store) (chain : List Location) (directory : Option String)
    (visit : Location → Except Error (Option ProcessList)) : Link := fun target =>
  match store.canonical (target.pathFrom directory) with
  | .error _ => .ok none
  | .ok location =>
    if chain.contains location then
      .error (.circularReference ((chain ++ [location]).map Location.text))
    else visit location

/-- The list of a target, `levels` being the nesting that is left. -/
def resolveTarget (store : Store) (options : ReadOptions) :
    (levels : Nat) → (chain : List Location) → (directory : Option String) → Link
  | 0, chain, directory =>
    followTarget store chain directory fun _ => .error (.referenceDepth options.maxReferenceDepth)
  | levels + 1, chain, directory =>
    followTarget store chain directory fun location =>
      match store.read location with
      | .error _ => .ok none
      | .ok bytes =>
        let inner := resolveTarget store options levels (chain ++ [location])
          (location.parent?.map Location.text)
        match ProcessList.readBytes inner options bytes with
        | .ok list => .ok (some list)
        | .error e => if e.stopsReferrer then .error e else .ok none

/-- The lookup of references in a document that comes from no file. -/
def freeLink (store : Store) (options : ReadOptions) : Link :=
  resolveTarget store options options.maxReferenceDepth [] options.basePath

namespace ProcessList

/-- The list in a document that comes from no file. -/
def ofBytes (store : Store) (options : ReadOptions) (bytes : ByteArray) :
    Except Error ProcessList :=
  readBytes (freeLink store options) options bytes

/-- The list that an element describes. -/
def ofElement (store : Store) (options : ReadOptions) (e : Element) : Except Error ProcessList :=
  read (freeLink store options) options e

/-- The list in the file that a path leads to. -/
def load (store : Store) (options : ReadOptions) (path : String) : Except Error ProcessList := do
  let location ← (store.canonical path).mapError .file
  let bytes ← (store.read location).mapError .file
  let link := resolveTarget store options options.maxReferenceDepth [location]
    (location.parent?.map Location.text)
  readBytes link options bytes

/-- The store after the document of a list is written to a path. -/
def save (l : ProcessList) (store : Store) (options : WriteOptions) (path : String) :
    Except Error Store :=
  (store.write path (l.toBytes options)).mapError .file

end ProcessList

/-- The node that an element describes, if it names a kind of node. -/
def Node.ofElement (store : Store) (options : ReadOptions) (e : Element) :
    Except Error (Option Node) :=
  Node.read (freeLink store options) options e

/-- A reference with its target looked up again. A target that is not found leaves the node as it
was. -/
def Node.loadTarget (store : Store) (options : ReadOptions) (n : Node) : Except Error Node :=
  match n with
  | .reference common target | .resolved common target _ _ => do
    match ← freeLink store options target with
    | some list => return .resolved common target list.header list.nodes
    | none => return n
  | n => .ok n

end CommonLut
