import CommonLut.Error

/-!
# Options of reading and writing

Main definitions: `ReadOptions`, `ReadOptions.require`, `WriteOptions`.
-/

namespace CommonLut

/-- How documents are read. -/
structure ReadOptions where
  /-- The accepted vendor extensions. -/
  profile : Profile := .permissive
  /-- Whether every index map is tabulated over the half floats when it is read. -/
  cacheIndexMaps : Bool := false
  /-- How deep references may be nested. -/
  maxReferenceDepth : Nat := 16
  /-- The directory of relative references in a document that comes from no file. -/
  basePath : Option String := none
deriving DecidableEq, Repr

namespace ReadOptions

/-- Only the core format is accepted. -/
def strict : ReadOptions := { profile := .core }

/-- Fails unless the profile accepts the extension that a feature belongs to. -/
def require (o : ReadOptions) (e : Extension) (feature : String) : Except Error Unit :=
  if o.profile.accepts e then .ok () else .error (.unsupported feature e)

end ReadOptions

/-- How documents are written. -/
structure WriteOptions where
  /-- Whether the nodes of a resolved reference are written in place of the reference. -/
  selfContained : Bool := false
  /-- Whether the written document is compressed. -/
  gzip : Bool := false
deriving DecidableEq, Repr

end CommonLut
