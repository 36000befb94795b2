import CommonLut.Error
import CommonLut.Text.Blank
import CommonLut.Text.Numeral

/-!
# Element trees

A document is a tree of elements. Each has a name, attributes in document order, its character
data trimmed at both ends, and its child elements; the order between character data and children
is not kept.

Main definitions: `Element`, its `BEq` instance, and the typed access to attributes and text.
-/

namespace CommonLut

/-- An element with everything inside it. -/
structure Element where
  name : String
  attributes : List (String × String) := []
  text : String := ""
  children : List Element := []
deriving Repr, Inhabited

namespace Element

/-! ## §1 Equality -/

mutual
/-- Whether two trees agree in every name, attribute, text and child. -/
def equal : Element → Element → Bool
  | ⟨n, as, t, cs⟩, ⟨n', as', t', cs'⟩ => n == n' && as == as' && t == t' && equalAll cs cs'
termination_by structural e => e

/-- Whether two lists of trees agree tree by tree. -/
def equalAll : List Element → List Element → Bool
  | [], [] => true
  | c :: cs, c' :: cs' => c.equal c' && equalAll cs cs'
  | _, _ => false
termination_by structural es => es
end

instance : BEq Element := ⟨equal⟩

/-! ## §2 Building -/

/-- An element with character data and nothing else. -/
def leaf (name text : String) : Element := { name, text }

/-- Appends an attribute. -/
def withAttribute (e : Element) (key value : String) : Element :=
  { e with attributes := e.attributes ++ [(key, value)] }

/-- Appends an attribute if there is a value for it. -/
def withAttribute? (e : Element) (key : String) : Option String → Element
  | some value => e.withAttribute key value
  | none => e

/-- Appends children. -/
def withChildren (e : Element) (more : List Element) : Element :=
  { e with children := e.children ++ more }

/-! ## §3 Access -/

/-- The value of the first attribute with a name. -/
def attribute? (e : Element) (key : String) : Option String :=
  (e.attributes.find? fun a => a.1 == key).map (·.2)

/-- The value of an attribute that has to be there. -/
def requiredAttribute (e : Element) (key : String) : Except Error String :=
  match e.attribute? key with
  | some value => .ok value
  | none => .error (.missingAttribute e.name key)

/-- The first child with a name. -/
def child? (e : Element) (name : String) : Option Element :=
  e.children.find? fun c => c.name == name

/-- The children with a name. -/
def childrenNamed (e : Element) (name : String) : List Element :=
  e.children.filter fun c => c.name == name

/-- Whether an element has neither attributes nor children. -/
def isPlain (e : Element) : Bool :=
  e.attributes.isEmpty && e.children.isEmpty

/-! ## §4 Numbers and flags -/

/-- The number that a text spells; blanks around it mean nothing. -/
def number? (s : String) : Option Float :=
  Text.float64? (Text.trim s)

/-- The number in an attribute, if the attribute is there. -/
def numberAttribute (e : Element) (key : String) : Except Error (Option Float) :=
  match e.attribute? key with
  | none => .ok none
  | some value =>
    match number? value with
    | some x => .ok (some x)
    | none => .error (.content (.attributeNumber e.name key value))

/-- The flag in an attribute, if the attribute is there. -/
def flagAttribute (e : Element) (key : String) : Except Error (Option Bool) :=
  match e.attribute? key with
  | none => .ok none
  | some value =>
    let token := Text.trim value
    if token = "true" ∨ token = "1" then .ok (some true)
    else if token = "false" ∨ token = "0" then .ok (some false)
    else .error (.content (.attributeFlag e.name key token))

/-- The number that is the text of an element. -/
def numberText (e : Element) : Except Error Float :=
  match number? e.text with
  | some x => .ok x
  | none => .error (.content (.elementNumber e.name e.text))

/-- The numbers that are the words of an element's text. -/
def numbersText (e : Element) : Except Error (List Float) :=
  (Text.words e.text).mapM fun w =>
    match number? w with
    | some x => .ok x
    | none => .error (.content (.elementNumber e.name w))

/-- The three numbers that are the words of an element's text. -/
def tripleText (e : Element) : Except Error (Float × Float × Float) := do
  match ← e.numbersText with
  | [x, y, z] => .ok (x, y, z)
  | xs => .error (.content (.elementCount e.name 3 xs.length))

end Element

end CommonLut
