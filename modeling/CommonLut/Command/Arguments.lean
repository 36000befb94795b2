import CommonLut.Text.Digits

/-!
# Command line arguments

The program has three commands, each with positional arguments and options of its own; a few
options may stand before or after the name of the command. An option with a value takes it from the
same argument, after an equals sign or directly behind its letter, or from the next argument, which
then must not look like an option. Letters without values may share one argument. After two dashes
everything is positional.

Main definitions: `Command.Invocation`, `Command.parse`.
-/

namespace CommonLut.Command

/-! ## §1 What can be asked for -/

/-- The options of evaluation. -/
structure ApplyOptions where
  list : String
  values : Option String := none
  input : Option String := none
  output : Option String := none
  stride : Nat := 3
deriving DecidableEq, Repr

/-- The options of rewriting. -/
structure ConvertOptions where
  input : String
  output : String
  selfContained : Bool := false
  encoding : Option String := none
  gzip : Bool := false
deriving DecidableEq, Repr

/-- What a command is to do. -/
inductive Task where
  | info (inputs : List String)
  | apply (options : ApplyOptions)
  | convert (options : ConvertOptions)
deriving DecidableEq, Repr

/-- A command line that asks for work. -/
structure Invocation where
  task : Task
  verbose : Bool := false
  strict : Bool := false
deriving DecidableEq, Repr

/-- What a command line comes to. -/
inductive Request where
  | run (invocation : Invocation)
  | help
  | version
  | misuse
deriving DecidableEq, Repr

/-! ## §2 Splitting arguments -/

/-- The options of the program. -/
inductive OptionName where
  | help
  | version
  | verbose
  | strict
  | threads
  | values
  | input
  | output
  | stride
  | selfContained
  | encoding
  | gzip
deriving DecidableEq, Repr

/-- The form of an option: its letter and word, and whether it takes a value. -/
structure OptionForm where
  name : OptionName
  letter : Option Char
  word : String
  takesValue : Bool := false
deriving Repr

/-- The options that stand anywhere. -/
def commonForms : List OptionForm :=
  [⟨.help, some 'h', "help", false⟩, ⟨.verbose, some 'v', "verbose", false⟩,
    ⟨.strict, none, "strict", false⟩, ⟨.threads, some 'j', "threads", true⟩]

/-- The options before the name of a command. -/
def programForms : List OptionForm :=
  ⟨.version, some 'V', "version", false⟩ :: commonForms

/-- The options of evaluation. -/
def applyForms : List OptionForm :=
  [⟨.values, some 'V', "values", true⟩, ⟨.input, some 'i', "input", true⟩,
    ⟨.output, some 'o', "output", true⟩, ⟨.stride, some 's', "stride", true⟩] ++ commonForms

/-- The options of rewriting. -/
def convertForms : List OptionForm :=
  [⟨.selfContained, none, "self-contained", false⟩, ⟨.encoding, some 'e', "encoding", true⟩,
    ⟨.gzip, some 'z', "gzip", false⟩] ++ commonForms

/-- One piece of a command line. -/
inductive Piece where
  | option (name : OptionName) (value : Option String)
  | positional (text : String)
  /-- Something that is no argument of the command. -/
  | unknown
deriving DecidableEq, Repr

/-- Whether an argument is positional, whatever options there are. -/
def looksPositional (argument : String) : Bool :=
  match argument.toList with
  | '-' :: _ :: _ => false
  | _ => true

/-- An option with its value, which is in the same argument or is the next one. -/
def valued (name : OptionName) (attached : Option String) (rest : List String) :
    Piece × List String :=
  match attached, rest with
  | some value, rest => (.option name (some value), rest)
  | none, next :: rest =>
    if looksPositional next then (.option name (some next), rest) else (.unknown, [])
  | none, [] => (.unknown, [])

/-- The pieces of an argument after two dashes. -/
def longPieces (forms : List OptionForm) (body : List Char) (rest : List String) :
    List Piece × List String :=
  let (word, after) := body.span (· != '=')
  let attached := after.tail?.map String.ofList
  match forms.find? fun f => f.word == String.ofList word with
  | none => ([.unknown], rest)
  | some form =>
    if form.takesValue then
      let (piece, rest) := valued form.name attached rest
      ([piece], rest)
    else if attached.isSome then ([.unknown], rest)
    else ([.option form.name none], rest)

/-- The pieces of an argument after one dash. -/
def shortPieces (forms : List OptionForm) : List Char → List String → List Piece × List String
  | [], rest => ([], rest)
  | c :: more, rest =>
    match forms.find? fun f => f.letter == some c with
    | none => ([.unknown], rest)
    | some form =>
      if form.takesValue then
        let attached :=
          match more with
          | [] => none
          | '=' :: value => some (String.ofList value)
          | value => some (String.ofList value)
        let (piece, rest) := valued form.name attached rest
        ([piece], rest)
      else
        let (pieces, rest) := shortPieces forms more rest
        (.option form.name none :: pieces, rest)

/-- The pieces of the first argument, and the arguments that are left. -/
def nextPieces (forms : List OptionForm) (argument : String) (rest : List String) :
    List Piece × List String :=
  match argument.toList with
  | ['-', '-'] => (rest.map .positional, [])
  | '-' :: '-' :: body => longPieces forms body rest
  | '-' :: c :: body => shortPieces forms (c :: body) rest
  | _ => ([.positional argument], rest)

/-- The pieces of a command line. Each argument is looked at once at most, so the number of
arguments is enough `fuel`. -/
def splitArguments (forms : List OptionForm) : (fuel : Nat) → List String → List Piece
  | fuel + 1, argument :: rest =>
    let (pieces, rest) := nextPieces forms argument rest
    pieces ++ splitArguments forms fuel rest
  | _, _ => []

/-! ## §3 Options of a command -/

/-- The value of an option that is given at most once. -/
def valueOf (pieces : List Piece) (name : OptionName) : Option String :=
  pieces.findSome? fun
    | .option n value => if n = name then value else none
    | _ => none

/-- How often an option is given. -/
def countOf (pieces : List Piece) (name : OptionName) : Nat :=
  pieces.countP fun
    | .option n _ => n == name
    | _ => false

/-- The positional arguments. -/
def positionals (pieces : List Piece) : List String :=
  pieces.filterMap fun
    | .positional text => some text
    | _ => none

/-- The options whose values are paths, which are not empty. -/
def pathOptions : List OptionName := [.input, .output]

/-- The options whose values are sizes. -/
def sizeOptions : List OptionName := [.stride, .threads]

/-- Whether a piece is an argument of the command, with a value of the right form. -/
def isWellFormed : Piece → Bool
  | .unknown => false
  | .positional text => !text.isEmpty
  | .option name (some value) =>
    !(pathOptions.contains name && value.isEmpty) &&
      !(sizeOptions.contains name && (Text.size? value).isNone)
  | .option _ none => true

/-- What a piece decides about the command line after the pieces `before` it: help and version are
given at once, and what is malformed, repeated or one positional argument too many is refused. Only
the verbosity may be repeated. -/
def Piece.decision? (limit : Option Nat) (before : List Piece) (piece : Piece) :
    Option Request :=
  if !isWellFormed piece then some .misuse
  else
    match piece with
    | .option .help _ => some .help
    | .option .version _ => some .version
    | .option .verbose _ => none
    | .option name _ => if countOf before name = 0 then none else some .misuse
    | .positional _ => if limit == some (positionals before).length then some .misuse else none
    | .unknown => some .misuse

/-- What the first of some pieces decides that decides anything; `limit` is the largest number of
positional arguments. -/
def firstDecision? (limit : Option Nat) : (before pieces : List Piece) → Option Request
  | _, [] => none
  | before, piece :: pieces =>
    match piece.decision? limit before with
    | some request => some request
    | none => firstDecision? limit (before ++ [piece]) pieces

/-! ## §4 Commands -/

/-- The commands. -/
inductive CommandName where
  | info
  | apply
  | convert
deriving DecidableEq, Repr

/-- The command with a name or a letter. -/
def CommandName.ofText? (text : String) : Option CommandName :=
  if text = "info" ∨ text = "i" then some .info
  else if text = "apply" ∨ text = "a" then some .apply
  else if text = "convert" ∨ text = "c" then some .convert
  else none

/-- The options of a command. -/
def CommandName.forms : CommandName → List OptionForm
  | info => commonForms
  | apply => applyForms
  | convert => convertForms

/-- The largest number of positional arguments of a command. -/
def CommandName.positionalLimit : CommandName → Option Nat
  | info => none
  | apply => some 1
  | convert => some 2

/-- The task of a command with its pieces. -/
def CommandName.task? (name : CommandName) (pieces : List Piece) : Option Task :=
  match name, positionals pieces with
  | info, [] => none
  | info, inputs => some (.info inputs)
  | apply, [list] =>
    let values := valueOf pieces .values
    let input := valueOf pieces .input
    if values.isSome && input.isSome then none
    else
      some (.apply
        { list, values, input
          output := valueOf pieces .output
          stride := ((valueOf pieces .stride).bind Text.size?).getD 3 })
  | convert, [input, output] =>
    some (.convert
      { input, output
        selfContained := countOf pieces .selfContained != 0
        encoding := valueOf pieces .encoding
        gzip := countOf pieces .gzip != 0 })
  | _, _ => none

/-- The request of the arguments after the name of a command; `before` are the pieces in front of
the name. What is missing and what excludes each other matters only if nothing else decides. -/
def parseCommand (before : List Piece) (name : CommandName) (arguments : List String) : Request :=
  let pieces := splitArguments name.forms arguments.length arguments
  match firstDecision? name.positionalLimit [] pieces with
  | some request => request
  | none =>
    match name.task? pieces with
    | none => .misuse
    | some task =>
      let given (option : OptionName) : Bool :=
        countOf before option != 0 || countOf pieces option != 0
      .run { task, verbose := given .verbose, strict := given .strict }

/-- The request of the arguments after `help`, which name one command at most. -/
def parseHelp : List String → Request
  | [] => .help
  | [topic] => if topic = "help" ∨ (CommandName.ofText? topic).isSome then .help else .misuse
  | _ => .misuse

/-- The request of the arguments from the first one that may name a command; `read` are the pieces
before it and `fuel` the number of arguments. There are no positional arguments before the name. -/
def parseFrom (read : List Piece) : (fuel : Nat) → List String → Request
  | fuel + 1, argument :: rest =>
    if looksPositional argument then
      if argument = "help" then parseHelp rest
      else
        match CommandName.ofText? argument with
        | some name => parseCommand read name rest
        | none => .misuse
    else
      let (pieces, rest) := nextPieces programForms argument rest
      match firstDecision? (some 0) read pieces with
      | some request => request
      | none => parseFrom (read ++ pieces) fuel rest
  | _, _ => .misuse

/-- The request of a command line. -/
def parse (arguments : List String) : Request :=
  parseFrom [] arguments.length arguments

end CommonLut.Command
