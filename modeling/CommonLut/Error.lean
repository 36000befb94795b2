import CommonLut.Extension
import CommonLut.Text.Digits

/-!
# Errors

What can go wrong while a document is read or written, by cause. The wording of each cause is in
one place, `Error.message`.

Main definitions: `FileFault`, `MarkupFault`, `ContentFault`, `Error`.
-/

namespace CommonLut

/-! ## §1 Causes -/

/-- Why a file cannot be used. -/
inductive FileFault where
  | notFound
  | notDirectory
  | isDirectory
  | notText
  | badCompression
deriving DecidableEq, Repr

/-- The wording of the operating system. -/
def FileFault.message : FileFault → String
  | notFound => "No such file or directory (os error 2)"
  | notDirectory => "Not a directory (os error 20)"
  | isDirectory => "Is a directory (os error 21)"
  | notText => "stream did not contain valid UTF-8"
  | badCompression => "corrupt compressed stream"

/-- Why a text is no document. -/
inductive MarkupFault where
  /-- A tag, reference, comment or the like that is not formed as the markup requires. -/
  | malformed
  | unclosed (element : String)
  | unknownEntity (name : String)
  | secondRoot
  | noRoot
deriving DecidableEq, Repr

/-- What the report of a fault says; a plain fault of the syntax has no details. -/
def MarkupFault.message : MarkupFault → String
  | malformed => "malformed markup"
  | unclosed element => "unclosed element <" ++ element ++ ">"
  | unknownEntity name => "unknown entity '&" ++ name ++ ";'"
  | secondRoot => "multiple root elements"
  | noRoot => "document has no root element"

/-- Why a well-formed document has no meaning. -/
inductive ContentFault where
  | zeroDimension (dims : List Nat)
  | ragged (count columns : Nat)
  | hugeDimensions (dims : List Nat)
  | sampleCount (dims : List Nat) (expected found : Nat)
  | arrayDimension (text : String)
  | noDimension
  | unknownEncoding (token : String)
  | sample (token encoding : String)
  | breakpointCounts (inputs outputs : Nat)
  | noBreakpoint
  | breakpointOrder
  | indexMapDimension (text : String)
  | breakpointMark (entry : String)
  | breakpoint (entry : String)
  | attributeNumber (element key value : String)
  | attributeFlag (element key value : String)
  | elementNumber (element text : String)
  | elementCount (element : String) (expected found : Nat)
  | unknownToken (subject token : String)
  | noArray (element : String)
  | curveShape (dims : List Nat)
  | latticeShape (dims : List Nat)
  | emptyMatrix
  | matrixShape (rows columns : Nat)
  | rootElement (name : String)
deriving DecidableEq, Repr

/-- Dimensions as messages show them. -/
def showDimensions (dims : List Nat) : String :=
  "[" ++ ", ".intercalate (dims.map Text.decimal) ++ "]"

/-- What the report of a fault says. -/
def ContentFault.message : ContentFault → String
  | zeroDimension dims => "array dimension of zero in " ++ showDimensions dims
  | ragged count columns =>
    "array holds " ++ Text.decimal count ++ " values, not a multiple of " ++
      Text.decimal columns ++ " columns"
  | hugeDimensions dims => "array dim " ++ showDimensions dims ++ " overflows"
  | sampleCount dims expected found =>
    "array dim " ++ showDimensions dims ++ " expects " ++ Text.decimal expected ++
      " values, found " ++ Text.decimal found
  | arrayDimension text => "invalid Array dim '" ++ text ++ "'"
  | noDimension => "Array dim is empty"
  | unknownEncoding token => "unknown float encoding '" ++ token ++ "'"
  | sample token encoding => "invalid Array value '" ++ token ++ "' (" ++ encoding ++ ")"
  | breakpointCounts inputs outputs =>
    "IndexMap has " ++ Text.decimal inputs ++ " inputs but " ++ Text.decimal outputs ++
      " outputs"
  | noBreakpoint => "IndexMap is empty"
  | breakpointOrder => "IndexMap inputs must be non-decreasing"
  | indexMapDimension text => "invalid IndexMap dim '" ++ text ++ "'"
  | breakpointMark entry => "IndexMap entry '" ++ entry ++ "' lacks '@'"
  | breakpoint entry => "invalid IndexMap entry '" ++ entry ++ "'"
  | attributeNumber element key value =>
    "<" ++ element ++ "> " ++ key ++ "='" ++ value ++ "' is not a number"
  | attributeFlag element key value =>
    "<" ++ element ++ "> " ++ key ++ "='" ++ value ++ "' is not a boolean"
  | elementNumber element text => "<" ++ element ++ "> '" ++ text ++ "' is not a number"
  | elementCount element expected found =>
    "<" ++ element ++ "> expects " ++ Text.decimal expected ++ " values, found " ++
      Text.decimal found
  | unknownToken subject token => "unknown " ++ subject ++ " '" ++ token ++ "'"
  | noArray element => "<" ++ element ++ "> has no Array"
  | curveShape dims =>
    "LUT1D Array dim " ++ showDimensions dims ++ " must be 'size 1' or 'size 3'"
  | latticeShape dims => "LUT3D Array dim " ++ showDimensions dims ++ " must be 'r g b 3'"
  | emptyMatrix => "Matrix has no coefficients"
  | matrixShape rows columns =>
    "Matrix of " ++ Text.decimal rows ++ " rows needs " ++ Text.decimal rows ++ " or " ++
      Text.decimal (rows + 1) ++ " columns, found " ++ Text.decimal columns
  | rootElement name => "root element is <" ++ name ++ ">, expected <ProcessList>"

/-! ## §2 Errors -/

/-- Why a document cannot be read or written. -/
inductive Error where
  | file (fault : FileFault)
  | markup (fault : MarkupFault)
  | content (fault : ContentFault)
  | missingAttribute (element key : String)
  | invalidBitDepth (token : String)
  /-- The document is well formed, but the profile refuses a feature that it uses. -/
  | unsupported (feature : String) (extension : Extension)
  /-- A reference leads back to a document that is being read; the paths go from the outermost
  document to the repeated one. -/
  | circularReference (chain : List String)
  | referenceDepth (limit : Nat)
deriving DecidableEq, Repr

namespace Error

/-- What the report of an error says. -/
def message : Error → String
  | file fault => "I/O error: " ++ fault.message
  | markup fault => "XML error: " ++ fault.message
  | content fault => "parse error: " ++ fault.message
  | missingAttribute element key =>
    "<" ++ element ++ "> is missing required attribute '" ++ key ++ "'"
  | invalidBitDepth token => "invalid bit depth: '" ++ token ++ "'"
  | unsupported feature extension =>
    feature ++ " requires the " ++ extension.name ++ " extension"
  | circularReference chain => "circular reference detected: " ++ " -> ".intercalate chain
  | referenceDepth limit =>
    "reference nesting exceeds " ++ Text.decimal limit ++ " levels"

/-- Whether an error in the target of a reference stops the reading of the referencing document.
Every other error leaves that reference unresolved. -/
def stopsReferrer : Error → Bool
  | circularReference _ | referenceDepth _ | unsupported _ _ => true
  | _ => false

end Error

end CommonLut
