import CommonLut.Command.Failure
import CommonLut.Node.Evaluate
import CommonLut.Text.Numeral
import CommonLut.Text.Shortest

/-!
# Values on the command line

Values are read from text, where commas and blanks separate them, evaluated in large chunks of whole
pixels, and written with one pixel on each line.

Main definitions: `Command.readValues`, `Command.chunkLength?`, `Command.evaluate?`,
`Command.showValues`.
-/

namespace CommonLut.Command

/-- One value. -/
def readValue (word : String) : Except Failure Float32 :=
  match Text.float32? word with
  | some x => .ok x
  | none =>
    .error { summary := "Invalid number: '" ++ word ++ "'", causes := ["invalid float literal"] }

/-- The values in a text. -/
def readValues (text : String) : Except Failure (List Float32) :=
  (Text.fields (fun c => c == ',' || Text.isBlank c) text).mapM readValue

/-- The number of pixels in a chunk. -/
def pixelsPerChunk : Nat := 4096

/-- The number of values in a chunk; nothing when it is beyond the sizes of sixty-four bits. A build
that checks its arithmetic for overflow stops there. One whose arithmetic wraps around would go on
with another number, which is not modelled. -/
def chunkLength? (stride : Nat) : Option Nat :=
  Option.guard (· < Text.sizeBound) (stride * pixelsPerChunk)

/-- The values after a list, chunk by chunk; nothing when the length of the chunks overflows, which
stops a build that checks its arithmetic. Without the check such a stride need not stop anything: the
length for `2 ^ 52 + 1` wraps around to 4096, and where there are no values there is no chunk. -/
def evaluate? (l : ProcessList) (stride : Nat) (values : List Float32) : Option (List Float32) :=
  if stride = 0 then some (l.process 0 values)
  else (chunkLength? stride).map fun length => (chunks length values).flatMap (l.process stride)

/-- The values as text, one pixel on each line. -/
def showValues (stride : Nat) (values : List Float32) : String :=
  let width := if stride = 0 then max values.length 1 else stride
  String.join ((chunks width values).map fun pixel =>
    " ".intercalate (pixel.map Text.format32) ++ "\n")

end CommonLut.Command
