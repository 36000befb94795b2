import CommonLut.Markup.Element

/-!
# Reading a document into an element tree

The reader takes one character after the other. Its state is the stack of open elements together
with the construct that the last character stands in: character data, a reference, a tag, a
comment, a character data section, a processing instruction or a document type. Nothing is looked
at twice, so the first fault in document order is the one reported.

A byte that belongs to no encoded character is allowed where the content is ignored (comments,
instructions, the document type, data outside the root) and a fault everywhere else.

Outside the root element, data and references are ignored, though a reference still has to end.
Attribute values know the five predefined entities and numbers without a sign; references in
character data are resolved by `resolveEntity?`.

Main definitions: `Source.ofBytes`, `Reader.step`, `Element.parse`.
-/

namespace CommonLut

/-! ## §1 Characters of a document -/

/-- A character of a document, or `none` for a byte that belongs to no encoded character. -/
abbrev Glyph := Option Char

namespace Source

/-- The characters from a byte position on, one glyph for each byte that begins no character;
`read` holds those before it, last one first. -/
def scan (bytes : ByteArray) (position : Nat) (read : List Glyph) : List Glyph :=
  if position < bytes.size then
    match bytes.utf8DecodeChar? position with
    | some c => scan bytes (position + c.utf8Size) (some c :: read)
    | none => scan bytes (position + 1) (none :: read)
  else read.reverse
termination_by bytes.size - position
decreasing_by
  all_goals have := Char.utf8Size_pos
  all_goals grind

/-- The characters of a document. -/
def glyphs (bytes : ByteArray) : List Glyph :=
  match String.fromUTF8? bytes with
  | some s => s.toList.map some
  | none => scan bytes 0 []

/-- The characters of a document without a byte order mark in front. -/
def ofBytes (bytes : ByteArray) : List Glyph :=
  match glyphs bytes with
  | some '\uFEFF' :: rest => rest
  | all => all

/-- The text of a run of glyphs, which must all be characters. -/
def text? (run : List Glyph) : Option (List Char) :=
  run.mapM id

end Source

/-! ## §2 References -/

/-- The five entities that every document knows. -/
def predefinedEntity? (name : String) : Option Char :=
  if name = "lt" then some '<'
  else if name = "gt" then some '>'
  else if name = "amp" then some '&'
  else if name = "apos" then some '\''
  else if name = "quot" then some '"'
  else none

/-- The character with a code, if the code is that of a character. -/
def charOfCode? (code : Nat) : Option Char :=
  if code.isValidChar then some (Char.ofNat code) else none

/-- One more than the largest code that is read. -/
def codeBound : Nat := 0x100000000

/-- The character that a reference in character data stands for. -/
def resolveEntity? (name : String) : Option Char :=
  (predefinedEntity? name).or <|
    match name.toList with
    | '#' :: 'x' :: digits => (Text.natural? 16 codeBound (String.ofList digits)).bind charOfCode?
    | '#' :: digits => (Text.natural? 10 codeBound (String.ofList digits)).bind charOfCode?
    | _ => none

/-- The character that a reference in an attribute value stands for: numbers have no sign and are
not zero. -/
def resolveAttributeEntity? (name : List Char) : Option Char :=
  match name with
  | '#' :: 'x' :: digits => (Text.bareNatural? 16 codeBound digits).bind nonzero?
  | '#' :: digits => (Text.bareNatural? 10 codeBound digits).bind nonzero?
  | _ => predefinedEntity? (String.ofList name)
where
  nonzero? (code : Nat) : Option Char := if code = 0 then none else charOfCode? code

/-- An attribute value with its references resolved; `pending` is the reference being read, last
character first. -/
def unescape? (pending : Option (List Char)) : List Char → Option (List Char)
  | [] => if pending.isSome then none else some []
  | c :: rest =>
    match pending with
    | none => if c = '&' then unescape? (some []) rest else (unescape? none rest).map (c :: ·)
    | some name =>
      if c = ';' then do
        let resolved ← resolveAttributeEntity? name.reverse
        (unescape? none rest).map (resolved :: ·)
      else if c = '&' then none
      else unescape? (some (c :: name)) rest

/-! ## §3 Tags -/

/-- The blanks of the markup itself. -/
def isMarkupBlank (c : Char) : Bool :=
  c == ' ' || c == '\t' || c == '\r' || c == '\n'

/-- Where the next character of an attribute list stands. Keys and values are kept with the last
character first. -/
inductive AttributeMode where
  | gap
  | key (read : List Char)
  | afterKey (key : String)
  | afterEquals (key : String)
  | value (key : String) (quote : Char) (read : List Char)
deriving Repr

/-- The attributes of a tag, read so far, and the place of the next character. -/
structure AttributeState where
  done : List (String × String) := []
  mode : AttributeMode := .gap
deriving Repr

namespace AttributeState

/-- A finished key, unless the tag has it already. -/
def newKey? (s : AttributeState) (read : List Char) : Option String :=
  let key := String.ofList read.reverse
  if s.done.any fun a => a.1 == key then none else some key

/-- One more character of an attribute list. -/
def step (s : AttributeState) (c : Char) : Option AttributeState :=
  match s.mode with
  | .gap => if isMarkupBlank c then some s else some { s with mode := .key [c] }
  | .key read =>
    if c = '=' then (s.newKey? read).map fun k => { s with mode := .afterEquals k }
    else if isMarkupBlank c then (s.newKey? read).map fun k => { s with mode := .afterKey k }
    else some { s with mode := .key (c :: read) }
  | .afterKey key =>
    if isMarkupBlank c then some s
    else if c = '=' then some { s with mode := .afterEquals key }
    else none
  | .afterEquals key =>
    if isMarkupBlank c then some s
    else if c = '"' ∨ c = '\'' then some { s with mode := .value key c [] }
    else none
  | .value key quote read =>
    if c = quote then do
      let value ← unescape? none read.reverse
      return { done := s.done ++ [(key, String.ofList value)], mode := .gap }
    else some { s with mode := .value key quote (c :: read) }

/-- The attributes, if the list ends between two of them. -/
def finish? (s : AttributeState) : Option (List (String × String)) :=
  match s.mode with
  | .gap => some s.done
  | _ => none

end AttributeState

/-- The element opened by what stands in a start tag: the name up to the first blank, then the
attributes. -/
def openTag? (body : List Char) : Option Element := do
  let (name, rest) := body.span fun c => !isMarkupBlank c
  let attributes ← (rest.foldlM AttributeState.step {}).bind AttributeState.finish?
  return { name := String.ofList name, attributes }

/-- The name in an end tag: blanks after it are dropped unless there is nothing else. -/
def closingName (body : List Char) : List Char :=
  let stripped := (body.reverse.dropWhile isMarkupBlank).reverse
  if stripped.isEmpty then body else stripped

/-! ## §4 The reader -/

namespace Reader

/-- The construct that the next character stands in. Runs are kept with the last glyph first. -/
inductive Mode where
  | data
  | reference (run : List Glyph)
  /-- After `<`. -/
  | markup
  | startTag (run : List Glyph) (quote : Option Char)
  | endTag (run : List Glyph) (quote : Option Char)
  | instruction (run : List Glyph)
  /-- After `<!`. -/
  | declaration
  /-- After `<!-`. -/
  | commentStart
  | comment (run : List Glyph)
  /-- After `<![`, with the characters that have to follow. -/
  | cdataStart (expected : List Char)
  | cdata (run : List Glyph)
  /-- After `<!` and the first letter; `depth` counts the open angle brackets. -/
  | docType (run : List Glyph) (depth : Nat)
deriving Repr

/-- An element whose end tag has not come: its text has the last character first, its children
the last child first. -/
structure Frame where
  element : Element
  text : List Char := []
  children : List Element := []
deriving Repr

/-- The state between two characters. -/
structure State where
  mode : Mode := .data
  /-- The open elements, innermost first. -/
  stack : List Frame := []
  root : Option Element := none
deriving Repr

/-- The element of a frame, complete. -/
def Frame.close (f : Frame) : Element :=
  { f.element with
    text := String.ofList (Text.trimChars f.text.reverse)
    children := f.children.reverse }

/-- The outcome of a fault of the syntax. -/
def malformed {α : Type} : Except MarkupFault α := .error .malformed

/-- A value that has to be there. -/
def demand {α : Type} : Option α → Except MarkupFault α
  | some a => .ok a
  | none => malformed

/-- Places a complete element in its parent, or as the root. -/
def attach (s : State) (e : Element) : Except MarkupFault State :=
  match s.stack, s.root with
  | f :: outer, _ => .ok { s with stack := { f with children := e :: f.children } :: outer }
  | [], none => .ok { s with root := some e }
  | [], some _ => .error .secondRoot

/-- Adds characters to the innermost open element; outside the root they are ignored. -/
def addData (s : State) (data : Unit → Except MarkupFault (List Char)) :
    Except MarkupFault State :=
  match s.stack with
  | [] => .ok s
  | f :: outer => do
    let chars ← data ()
    return { s with stack := { f with text := chars.reverse ++ f.text } :: outer }

/-- A complete start tag or empty element. -/
def closeStartTag (s : State) (run : List Glyph) : Except MarkupFault State :=
  match run with
  | some '/' :: body => do
    let e ← demand ((Source.text? body.reverse).bind openTag?)
    attach { s with mode := .data } e
  | body => do
    let e ← demand ((Source.text? body.reverse).bind openTag?)
    return { s with mode := .data, stack := { element := e } :: s.stack }

/-- A complete end tag, which has to name the innermost open element. -/
def closeEndTag (s : State) (run : List Glyph) : Except MarkupFault State :=
  match s.stack with
  | [] => malformed
  | f :: outer => do
    let body ← demand (Source.text? run.reverse)
    if closingName body = f.element.name.toList then
      attach { s with mode := .data, stack := outer } f.close
    else malformed

/-- A complete reference. -/
def closeReference (s : State) (run : List Glyph) : Except MarkupFault State :=
  addData { s with mode := .data } fun _ => do
    let name := String.ofList (← demand (Source.text? run.reverse))
    match resolveEntity? name with
    | some c => return [c]
    | none => .error (.unknownEntity name)

/-- Whether a complete document type says more than the word. -/
def isDocType (run : List Glyph) : Bool :=
  let body := run.reverse
  (body.take 7).map (Option.map Char.toUpper) == "DOCTYPE".toList.map some &&
    (body.drop 7).any fun g => !(g.any isMarkupBlank)

/-- The quote that a tag stands in after one more character. -/
def quoteAfter (quote : Option Char) (c : Char) : Option Char :=
  match quote with
  | some q => if c = q then none else some q
  | none => if c = '"' ∨ c = '\'' then some c else none

/-- One more character of a start tag. -/
def stepStartTag (s : State) (run : List Glyph) (quote : Option Char) (g : Glyph) :
    Except MarkupFault State :=
  if g = some '>' ∧ quote = none then closeStartTag s run
  else .ok { s with mode := .startTag (g :: run) (g.elim quote (quoteAfter quote)) }

/-- One more character of an end tag. -/
def stepEndTag (s : State) (run : List Glyph) (quote : Option Char) (g : Glyph) :
    Except MarkupFault State :=
  if g = some '>' ∧ quote = none then closeEndTag s run
  else .ok { s with mode := .endTag (g :: run) (g.elim quote (quoteAfter quote)) }

/-- One more character of a document. -/
def step (s : State) (g : Glyph) : Except MarkupFault State :=
  match s.mode with
  | .data =>
    match g with
    | some '<' => .ok { s with mode := .markup }
    | some '&' => .ok { s with mode := .reference [] }
    | g => addData s fun _ => demand (Source.text? [g])
  | .reference run =>
    match g with
    | some ';' => closeReference s run
    | some '<' | some '&' => malformed
    | g => .ok { s with mode := .reference (g :: run) }
  | .markup =>
    match g with
    | some '!' => .ok { s with mode := .declaration }
    | some '?' => .ok { s with mode := .instruction [] }
    | some '/' => .ok { s with mode := .endTag [] none }
    | g => stepStartTag s [] none g
  | .startTag run quote => stepStartTag s run quote g
  | .endTag run quote => stepEndTag s run quote g
  | .instruction run =>
    match g, run with
    | some '>', some '?' :: _ => .ok { s with mode := .data }
    | some '>', [] => malformed
    | g, run => .ok { s with mode := .instruction (g :: run) }
  | .declaration =>
    match g with
    | some '-' => .ok { s with mode := .commentStart }
    | some '[' => .ok { s with mode := .cdataStart "CDATA[".toList }
    | some 'D' | some 'd' => .ok { s with mode := .docType [g] 0 }
    | _ => malformed
  | .commentStart => if g = some '-' then .ok { s with mode := .comment [] } else malformed
  | .comment run =>
    match g, run with
    | some '>', some '-' :: some '-' :: _ => .ok { s with mode := .data }
    | g, run => .ok { s with mode := .comment (g :: run) }
  | .cdataStart expected =>
    match expected with
    | [] => malformed
    | [c] => if g = some c then .ok { s with mode := .cdata [] } else malformed
    | c :: more => if g = some c then .ok { s with mode := .cdataStart more } else malformed
  | .cdata run =>
    match g, run with
    | some '>', some ']' :: some ']' :: body =>
      addData { s with mode := .data } fun _ => demand (Source.text? body.reverse)
    | g, run => .ok { s with mode := .cdata (g :: run) }
  | .docType run depth =>
    match g, depth with
    | some '>', 0 => if isDocType run then .ok { s with mode := .data } else malformed
    | some '>', d + 1 => .ok { s with mode := .docType (g :: run) d }
    | some '<', d => .ok { s with mode := .docType (g :: run) (d + 1) }
    | g, d => .ok { s with mode := .docType (g :: run) d }

/-- The root element, once the document has ended. -/
def finish (s : State) : Except MarkupFault Element :=
  match s.mode, s.stack, s.root with
  | .data, [], some e => .ok e
  | .data, [], none => .error .noRoot
  | .data, f :: _, _ => .error (.unclosed f.element.name)
  | _, _, _ => malformed

end Reader

/-- Reads a document into its root element. -/
def Element.parse (bytes : ByteArray) : Except Error Element :=
  match (Source.ofBytes bytes).foldlM Reader.step {} >>= Reader.finish with
  | .ok e => .ok e
  | .error fault => .error (.markup fault)

end CommonLut
