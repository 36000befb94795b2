import CommonLut.BitDepth
import CommonLut.Markup.Element
import CommonLut.Options

/-!
# How the parameters of a node stand in its element

Every kind of node reads its parameters from attributes and children of its own and leaves the
others to the node around it. A schema holds both directions for one kind: reading starts from the
attributes, takes the children one after the other, the last one of a name winning where there is
room for one, and ends with a check of the whole.

Main definitions: `Schema`, `readToken`.
-/

namespace CommonLut

/-- Reading and writing of the parameters of one kind of node. -/
structure Schema (α : Type) where
  /-- The attributes that belong to the kind. -/
  ownAttributes : List String := []
  /-- The parameters as far as attributes give them. -/
  readAttributes : ReadOptions → Element → Except Error α
  /-- The parameters with one more child read, or nothing if the child is not the kind's own. -/
  readChild : ReadOptions → α → Element → Except Error (Option α) := fun _ _ _ => .ok none
  /-- The check of the parameters of a whole element, which also gets the output depth. -/
  finish : (element : String) → BitDepth → α → Except Error α := fun _ _ a => .ok a
  writeAttributes : α → List (String × String) := fun _ => []
  writeChildren : α → List Element := fun _ => []

/-- The value with a token, out of a list of spellings. -/
def readToken {α : Type} (subject : String) (spellings : List (String × α)) (token : String) :
    Except Error α :=
  match spellings.find? fun s => s.1 == token with
  | some s => .ok s.2
  | none => .error (.content (.unknownToken subject token))

/-- The value whose token is in an attribute, if the attribute is there. -/
def readToken? {α : Type} (read : String → Except Error α) (e : Element) (key : String) :
    Except Error (Option α) :=
  match e.attribute? key with
  | none => .ok none
  | some token => (read token).map some

end CommonLut
