import CommonLut.Chunks
import CommonLut.Lookup.SampleArray
import CommonLut.Markup.Element
import CommonLut.Options

/-!
# Arrays in documents

An array is an element whose attribute gives the dimensions and whose text holds the samples as
words. It is written with one row on each line.

Main definitions: `SampleArray.read`, `SampleArray.write`.
-/

namespace CommonLut.SampleArray

/-- The dimensions in an attribute. -/
def readDimensions (text : String) : Except Error (List Nat) :=
  match (Text.words text).mapM Text.size? with
  | none => .error (.content (.arrayDimension text))
  | some [] => .error (.content .noDimension)
  | some dims => .ok dims

/-- The encoding that an element announces. Bit patterns are an extension. -/
def readEncoding (options : ReadOptions) (e : Element) : Except Error SampleEncoding :=
  match e.attribute? "floatEncoding" with
  | none => .ok .text
  | some token =>
    match SampleEncoding.ofToken? token with
    | none => .error (.content (.unknownEncoding token))
    | some .text => .ok .text
    | some encoding => do
      options.require .duikerResearch "floatEncoding"
      return encoding

/-- One sample. In a table of raw halfs every word is a half pattern, whatever the encoding. -/
def readSample (rawHalfs : Bool) (encoding : SampleEncoding) (word : String) :
    Except Error Double :=
  match if rawHalfs then SampleEncoding.decodeHalf? word else encoding.decode? word with
  | some x => .ok x
  | none => .error (.content (.sample word encoding.token))

/-- The array that an element describes. -/
def read (options : ReadOptions) (layout : ArrayLayout) (rawHalfs : Bool) (e : Element) :
    Except Error (SampleArray Double) := do
  let dims ← readDimensions (← e.requiredAttribute "dim")
  let encoding ← readEncoding options e
  let values ← (Text.words e.text).mapM (readSample rawHalfs encoding)
  (check { dims, values := values.toArray, layout, rawHalfs, encoding }).mapError .content

/-- The spelling of a sample. -/
def spell (a : SampleArray Double) (x : Double) : String :=
  if a.rawHalfs then Text.decimal (SampleEncoding.halfPattern x) else a.encoding.encode x

/-- The samples as the text of an element: one row on each line, nothing for an empty array. -/
def spellRows (a : SampleArray Double) : String :=
  let rows := (chunks (max a.columns 1) a.values.toList).map fun row =>
    " ".intercalate (row.map a.spell)
  if rows.isEmpty then "" else "\n" ++ "\n".intercalate rows ++ "\n"

/-- The element that describes an array. -/
def write (a : SampleArray Double) : Element :=
  let announced := if a.rawHalfs then none else a.encoding.announcement?
  ((Element.leaf "Array" a.spellRows).withAttribute "dim"
    (" ".intercalate (a.dims.map Text.decimal))).withAttribute? "floatEncoding" announced

end CommonLut.SampleArray
