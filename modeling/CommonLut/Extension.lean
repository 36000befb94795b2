/-!
# Vendor extensions

Two vendors add features to the core format. A profile is the set of the extensions that a reader
accepts.

Main definitions: `Extension`, `Profile`.
-/

namespace CommonLut

/-- A set of vendor features on top of the core format. -/
inductive Extension where
  /-- `DynamicParameter`, `ExposureContrast`, `Reference`, `IndexMap`, and the half-domain and
  raw-half attributes of one-dimensional tables. -/
  | autodesk
  /-- `Group`, `ColorCorrection`, `Log`, `Gamma`, and the binary sample encodings. -/
  | duikerResearch
deriving DecidableEq, Repr

/-- The vendor's name. -/
def Extension.name : Extension → String
  | autodesk => "Autodesk"
  | duikerResearch => "Duiker Research"

/-- The extensions that a reader accepts. -/
structure Profile where
  autodesk : Bool
  duikerResearch : Bool
deriving DecidableEq, Repr

namespace Profile

/-- Every extension is accepted. -/
def permissive : Profile := ⟨true, true⟩

/-- Only the core format is accepted. -/
def core : Profile := ⟨false, false⟩

/-- Whether a profile accepts an extension. -/
def accepts (p : Profile) : Extension → Bool
  | .autodesk => p.autodesk
  | .duikerResearch => p.duikerResearch

/-- Accepts or refuses one extension from now on. -/
def set (p : Profile) (e : Extension) (accepted : Bool) : Profile :=
  match e with
  | .autodesk => { p with autodesk := accepted }
  | .duikerResearch => { p with duikerResearch := accepted }

end Profile

end CommonLut
