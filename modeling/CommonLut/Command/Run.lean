import CommonLut.Command.Arguments
import CommonLut.Command.Describe
import CommonLut.Command.Values
import CommonLut.Document
import CommonLut.Node.Edit

/-!
# Running a command

A command line is a function from the files that exist to an exit code, what is printed, and the
files that exist afterwards.

Main definitions: `Command.Outcome`, `Command.run`.
-/

namespace CommonLut.Command

/-! ## §1 Outcomes -/

/-- What a run leaves behind. -/
structure Outcome where
  exitCode : UInt32
  output : String := ""
  errors : String := ""
  store : Store

/-- Why a command stops. -/
inductive Stop where
  | failure (f : Failure)
  /-- The length of the chunks of values overflows, and the arithmetic is checked. -/
  | abort
deriving DecidableEq, Repr

/-- The exit code of a command line that asks for nothing. -/
def misuseCode : UInt32 := 2

/-- The exit code of a command that stops without a report. -/
def abortCode : UInt32 := 101

/-- The outcome of a command that stops after it has printed something. -/
def Stop.outcome (stop : Stop) (output : String) (store : Store) : Outcome :=
  match stop with
  | .failure f => { exitCode := 1, output, errors := f.report, store }
  | .abort => { exitCode := abortCode, output, errors := "chunk size is too large\n", store }

/-! ## §2 Commands -/

/-- The options that the global flags ask for. -/
def readOptions (strict : Bool) : ReadOptions := if strict then .strict else {}

/-- The list in a file. -/
def loadList (store : Store) (options : ReadOptions) (path : String) :
    Except Failure ProcessList :=
  (ProcessList.load store options path).mapError fun e =>
    { summary := "Failed to load: " ++ path, causes := Failure.causesOf e }

/-- The text in a file. -/
def loadText (store : Store) (path : String) : Except Failure String :=
  let failure (fault : FileFault) : Failure :=
    { summary := "Failed to read: " ++ path, causes := [fault.message] }
  match store.canonical path >>= store.read with
  | .error fault => .error (failure fault)
  | .ok bytes =>
    match String.fromUTF8? bytes with
    | some text => .ok text
    | none => .error (failure .notText)

/-- Describes the lists in files; what is printed before a failure stays printed. -/
def runInfo (store : Store) (options : ReadOptions) (expand spaced : Bool) :
    (printed : String) → List String → Outcome
  | printed, [] => { exitCode := 0, output := printed, store }
  | printed, path :: rest =>
    match loadList store options path with
    | .error f => (Stop.failure f).outcome printed store
    | .ok list =>
      let lines := path :: list.describe expand ++ if spaced then [""] else []
      runInfo store options expand spaced
        (printed ++ String.join (lines.map (· ++ "\n"))) rest

/-- The text of the values to evaluate. -/
def sourceText (store : Store) (a : ApplyOptions) : Except Failure String :=
  match a.values, a.input with
  | some text, _ => .ok text
  | none, some path => loadText store path
  | none, none => .error { summary := "Nothing to apply: pass --values or --input" }

/-- The evaluated values as text. -/
def applyText (store : Store) (options : ReadOptions) (a : ApplyOptions) :
    Except Stop String := do
  let list ← (loadList store options a.list).mapError .failure
  let text ← (sourceText store a).mapError .failure
  let values ← (readValues text).mapError .failure
  if 0 < a.stride ∧ values.length % a.stride ≠ 0 then
    throw (.failure
      { summary := Text.decimal values.length ++ " values do not divide into pixels of " ++
          Text.decimal a.stride ++ " channels" })
  match evaluate? list a.stride values with
  | some result => return showValues a.stride result
  | none => throw .abort

/-- Evaluates values; the result is printed or written to a file. -/
def runApply (store : Store) (options : ReadOptions) (a : ApplyOptions) : Outcome :=
  match applyText store options a, a.output with
  | .error stop, _ => stop.outcome "" store
  | .ok text, none => { exitCode := 0, output := text, store }
  | .ok text, some path =>
    match store.write path text.toUTF8 with
    | .ok store => { exitCode := 0, store }
    | .error fault =>
      (Stop.failure { summary := "Failed to write: " ++ path, causes := [fault.message] }).outcome
        "" store

/-- The store after a document is rewritten. -/
def convert (store : Store) (options : ReadOptions) (c : ConvertOptions) :
    Except Failure Store := do
  let list ← loadList store options c.input
  let list ←
    match c.encoding with
    | none => pure list
    | some token =>
      match SampleEncoding.ofToken? token with
      | some encoding => pure (list.withEncoding encoding)
      | none => throw { summary := (ContentFault.unknownEncoding token).message }
  (list.save store { selfContained := c.selfContained, gzip := c.gzip } c.output).mapError
    fun e => { summary := "Failed to write: " ++ c.output, causes := Failure.causesOf e }

/-- Rewrites a document. -/
def runConvert (store : Store) (options : ReadOptions) (c : ConvertOptions) : Outcome :=
  match convert store options c with
  | .ok store => { exitCode := 0, store }
  | .error f => (Stop.failure f).outcome "" store

/-! ## §3 The program -/

/-- The name and version that the program gives. -/
def versionText : String := "clf 0.1.0\n"

/-- How the program is used. -/
def usageText : String :=
  "Common LUT Format tool\n\n" ++
  "Usage: clf [OPTIONS] <COMMAND>\n\n" ++
  "Commands:\n" ++
  "  info     Display document attributes and nodes [aliases: i]\n" ++
  "  apply    Evaluate values through a process list [aliases: a]\n" ++
  "  convert  Re-serialize a document [aliases: c]\n" ++
  "  help     Print this message or the help of the given subcommand(s)\n\n" ++
  "Options:\n" ++
  "  -v, --verbose...         Verbose output (-v info, -vv debug, -vvv trace)\n" ++
  "      --strict             Accept core CLF only (no vendor extensions)\n" ++
  "  -j, --threads <THREADS>  Number of threads (0 = auto) [default: 0]\n" ++
  "  -h, --help               Print help (see more with '--help')\n" ++
  "  -V, --version            Print version\n"

/-- Runs a command line. -/
def run (store : Store) (arguments : List String) : Outcome :=
  match parse arguments with
  | .help => { exitCode := 0, output := usageText, store }
  | .version => { exitCode := 0, output := versionText, store }
  | .misuse => { exitCode := misuseCode, errors := usageText, store }
  | .run invocation =>
    let options := readOptions invocation.strict
    match invocation.task with
    | .info inputs =>
      runInfo store options invocation.verbose (decide (1 < inputs.length)) "" inputs
    | .apply a => runApply store options a
    | .convert c => runConvert store options c

end CommonLut.Command
