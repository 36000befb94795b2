import CommonLut.Markup.Element

/-!
# Writing an element tree as a document

Every tag starts on a line of its own, two blanks deeper for each level, except directly after
character data: a text and the tag behind it stay together, so that no blank is added to the text.

Main definitions: `Element.render`, `Element.toBytes`.
-/

namespace CommonLut

/-! ## §1 Escaping -/

/-- The written form of a character in a text or attribute value. -/
def escapeChar : Char → String
  | '<' => "&lt;"
  | '>' => "&gt;"
  | '&' => "&amp;"
  | '\'' => "&apos;"
  | '"' => "&quot;"
  | c => c.toString

/-- A text with every character of the markup escaped. -/
def escape (s : String) : String :=
  String.join (s.toList.map escapeChar)

/-! ## §2 Trees -/

namespace Element

/-- What stands before a tag: a new line with its indentation, or nothing after character data. -/
def lead (depth : Nat) (glued : Bool) : String :=
  if glued then "" else "\n" ++ String.ofList (List.replicate (2 * depth) ' ')

/-- The attributes as a tag shows them. -/
def renderAttributes (attributes : List (String × String)) : String :=
  String.join (attributes.map fun a => " " ++ a.1 ++ "=\"" ++ escape a.2 ++ "\"")

mutual
/-- An element at a depth, directly after character data or not. -/
def render (depth : Nat) (glued : Bool) : Element → String
  | ⟨name, attributes, text, children⟩ =>
    let tag := lead depth glued ++ "<" ++ name ++ renderAttributes attributes
    if children.isEmpty && text.isEmpty then tag ++ "/>"
    else
      tag ++ ">" ++ escape text ++ renderAll (depth + 1) (!text.isEmpty) children ++
        lead depth children.isEmpty ++ "</" ++ name ++ ">"
termination_by structural e => e

/-- Elements in order; only the first one can follow character data. -/
def renderAll (depth : Nat) (glued : Bool) : List Element → String
  | [] => ""
  | e :: es => e.render depth glued ++ renderAll depth false es
termination_by structural es => es
end

/-- The first line of every document. -/
def declaration : String := "<?xml version=\"1.0\" encoding=\"UTF-8\"?>"

/-- The document with an element as its root. -/
def toText (e : Element) : String :=
  declaration ++ e.render 0 false ++ "\n"

/-- The encoded document with an element as its root. -/
def toBytes (e : Element) : ByteArray :=
  e.toText.toUTF8

end Element

end CommonLut
