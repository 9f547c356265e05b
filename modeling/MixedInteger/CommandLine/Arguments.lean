import MixedInteger.Decimal.Literal

/-!
# Arguments

The command line names a command, `solve` or `demo`, followed by its options and one operand.
Options have long names and some have a letter; letters can be put together behind one hyphen, and
the value of an option is attached to it or is the next argument, which then must not begin with a
hyphen.  Nothing may be given twice.  After a double hyphen everything is an operand.  Where help is
asked for, reading stops, and what stands before it must still be in order.

The options about logging may stand before the command as well.  They are checked and change
nothing here.
-/

namespace MixedInteger

namespace CommandLine

/-! ## Commands -/

/-- How results are shown. -/
inductive Format where
  | pretty
  | json
  deriving DecidableEq, Repr

/-- The format with a name. -/
def Format.ofName? : String → Option Format
  | "pretty" => some pretty
  | "json" => some json
  | _ => none

/-- The samples that can be solved by name. -/
inductive SampleName where
  | boundedRows
  | setPacking
  deriving DecidableEq, Repr

/-- The sample with a name. -/
def SampleName.ofName? : String → Option SampleName
  | "lp" => some boundedRows
  | "milp" => some setPacking
  | _ => none

/-- What to do with a model file. -/
structure SolveRequest where
  file : String
  /-- Whether integrality is ignored. -/
  relax : Bool
  format : Format
  /-- Whether every node of a search is reported. -/
  progress : Bool
  tolerance : Option Float
  integrality : Option Float

/-- What to do. -/
inductive Command where
  | solve (request : SolveRequest)
  | demo (sample : SampleName) (format : Format)

/-- Why a command line is not carried out. -/
inductive Refusal where
  /-- It is not a command line of this program. -/
  | usage
  /-- It asks for help. -/
  | help
  deriving DecidableEq, Repr

/-! ## Options -/

/-- The options of all commands. -/
inductive Key where
  | help
  | logLevel
  | logFormat
  | format
  | relax
  | progress
  | tolerance
  | integrality
  deriving DecidableEq, Repr

/-- How an option is written. -/
structure Spelling where
  key : Key
  name : List Char
  letter : Option Char
  hasValue : Bool

/-- The options that may stand before a command. -/
def sharedOptions : List Spelling :=
  [{ key := .help, name := "help".toList, letter := some 'h', hasValue := false },
    { key := .logLevel, name := "log-level".toList, letter := none, hasValue := true },
    { key := .logFormat, name := "log-format".toList, letter := none, hasValue := true }]

/-- The options of `demo`. -/
def demoOptions : List Spelling :=
  { key := .format, name := "format".toList, letter := some 'f', hasValue := true } ::
    sharedOptions

/-- The options of `solve`. -/
def solveOptions : List Spelling :=
  [{ key := .relax, name := "relax".toList, letter := none, hasValue := false },
    { key := .progress, name := "progress".toList, letter := some 'p', hasValue := false },
    { key := .tolerance, name := "tolerance".toList, letter := none, hasValue := true },
    { key := .integrality, name := "int-tolerance".toList, letter := none, hasValue := true }] ++
    demoOptions

/-- An option as it was given. -/
structure Given where
  key : Key
  /-- The value, empty for an option that has none. -/
  value : List Char
  deriving DecidableEq, Repr

/-- What one argument is. -/
inductive Argument where
  /-- The double hyphen. -/
  | escape
  | operand
  /-- Options, the last of which still needs its value if there is a key. -/
  | options (given : List Given) (pending : Option Key)
  | unknown
  deriving DecidableEq, Repr

/-- Whether help is asked for. -/
def wantsHelp (given : List Given) : Bool :=
  given.any (·.key == .help)

/-- Reads letters behind a hyphen, up to the one that asks for help. -/
def ofLetters (spellings : List Spelling) : List Char → Argument
  | [] => .options [] none
  | c :: rest =>
    match spellings.find? (·.letter == some c) with
    | none => .unknown
    | some spelling =>
      if spelling.key = .help then .options [{ key := .help, value := [] }] none
      else if spelling.hasValue then
        match rest with
        | [] => .options [] (some spelling.key)
        | '=' :: value => .options [{ key := spelling.key, value := value }] none
        | value => .options [{ key := spelling.key, value := value }] none
      else
        match ofLetters spellings rest with
        | .options given pending =>
          .options ({ key := spelling.key, value := [] } :: given) pending
        | other => other

/-- Reads a long option behind its hyphens. -/
def ofName (spellings : List Spelling) (text : List Char) : Argument :=
  let name := text.takeWhile (· != '=')
  match spellings.find? (·.name == name), text.dropWhile (· != '=') with
  | none, _ => .unknown
  | some spelling, [] =>
    if spelling.hasValue then .options [] (some spelling.key)
    else .options [{ key := spelling.key, value := [] }] none
  | some spelling, _ :: value =>
    if spelling.hasValue then .options [{ key := spelling.key, value := value }] none
    else .unknown

/-- Reads one argument. -/
def Argument.ofText (spellings : List Spelling) : List Char → Argument
  | ['-', '-'] => .escape
  | '-' :: '-' :: text => ofName spellings text
  | ['-'] => .operand
  | '-' :: letters => ofLetters spellings letters
  | _ => .operand

/-- Whether a text can be the value of the option before it. -/
def isValue : List Char → Bool
  | ['-'] => true
  | '-' :: _ => false
  | _ => true

/-! ## Command lines -/

/-- Reads options up to the first operand, which comes first in what is left. -/
def leadingOptions (spellings : List Spelling) :
    List (List Char) → Except Refusal (List Given × List (List Char))
  | [] => .ok ([], [])
  | text :: rest =>
    match Argument.ofText spellings text with
    | .escape => .error .usage
    | .unknown => .error .usage
    | .operand => .ok ([], text :: rest)
    | .options given none =>
      if wantsHelp given then .ok (given, [])
      else do
        let (others, rest) ← leadingOptions spellings rest
        return (given ++ others, rest)
    | .options given (some key) =>
      match rest with
      | [] => .error .usage
      | value :: rest => do
        if !isValue value then throw .usage
        let (others, rest) ← leadingOptions spellings rest
        return (given ++ { key := key, value := value } :: others, rest)

/-- Reads options and operands. -/
def optionsAndOperands (spellings : List Spelling) :
    List (List Char) → Except Refusal (List Given × List (List Char))
  | [] => .ok ([], [])
  | text :: rest =>
    match Argument.ofText spellings text with
    | .escape => .ok ([], rest)
    | .unknown => .error .usage
    | .operand => do
      let (given, operands) ← optionsAndOperands spellings rest
      return (given, text :: operands)
    | .options given none =>
      if wantsHelp given then .ok (given, [])
      else do
        let (others, operands) ← optionsAndOperands spellings rest
        return (given ++ others, operands)
    | .options given (some key) =>
      match rest with
      | [] => .error .usage
      | value :: rest => do
        if !isValue value then throw .usage
        let (others, operands) ← optionsAndOperands spellings rest
        return (given ++ { key := key, value := value } :: others, operands)

/-- The value of an option that is given once at most. -/
def valueOf (given : List Given) (key : Key) : Except Refusal (Option (List Char)) :=
  match given.filter (·.key == key) with
  | [] => .ok none
  | [one] => .ok (some one.value)
  | _ => .error .usage

/-- Whether an option without a value is given, which it is once at most. -/
def isGiven (given : List Given) (key : Key) : Except Refusal Bool :=
  (valueOf given key).map Option.isSome

/-- The value of an option, read by `read?` if it is given. -/
def valueWith {β : Type} (given : List Given) (key : Key) (read? : List Char → Option β) :
    Except Refusal (Option β) := do
  match ← valueOf given key with
  | none => return none
  | some text =>
    match read? text with
    | some value => return some value
    | none => throw .usage

/-- The format that is asked for. -/
def formatOf (given : List Given) (key : Key) : Except Refusal Format := do
  let format ← valueWith given key fun text ↦ Format.ofName? (String.ofList text)
  return format.getD .pretty

/-- Checks the options about logging. -/
def checkLogging (given : List Given) : Except Refusal Unit := do
  let _ ← valueOf given .logLevel
  let _ ← formatOf given .logFormat

/-- Reads the only operand with `read?`, if there is one. -/
def operandWith {β : Type} (read? : List Char → Option β) :
    List (List Char) → Except Refusal (Option β)
  | [] => .ok none
  | [operand] =>
    match read? operand with
    | some value => .ok (some value)
    | none => .error .usage
  | _ => .error .usage

/-- The operand, unless help is asked for or it is missing. -/
def required {β : Type} (given : List Given) (operand : Option β) : Except Refusal β :=
  if wantsHelp given then .error .help
  else
    match operand with
    | some value => .ok value
    | none => .error .usage

/-- The path of a file, which is not empty. -/
def path? (text : List Char) : Option String :=
  if text.isEmpty then none else some (String.ofList text)

/-- Reads what follows `solve`. -/
def parseSolve (texts : List (List Char)) : Except Refusal Command := do
  let (given, operands) ← optionsAndOperands solveOptions texts
  checkLogging given
  let file ← operandWith path? operands
  let relax ← isGiven given .relax
  let format ← formatOf given .format
  let progress ← isGiven given .progress
  let tolerance ← valueWith given .tolerance Decimal.parseFloat?
  let integrality ← valueWith given .integrality Decimal.parseFloat?
  let file ← required given file
  return .solve
    { file := file
      relax := relax
      format := format
      progress := progress
      tolerance := tolerance
      integrality := integrality }

/-- Reads what follows `demo`. -/
def parseDemo (texts : List (List Char)) : Except Refusal Command := do
  let (given, operands) ← optionsAndOperands demoOptions texts
  checkLogging given
  let sample ← operandWith (fun text ↦ SampleName.ofName? (String.ofList text)) operands
  let format ← formatOf given .format
  let sample ← required given sample
  return .demo sample format

/-- Reads what follows `help`. -/
def parseHelp : List (List Char) → Refusal
  | [] => .help
  | [name] => if ["solve", "demo", "help"].contains (String.ofList name) then .help else .usage
  | _ => .usage

/-- Reads a command line. -/
def parse (arguments : List String) : Except Refusal Command := do
  let (given, rest) ← leadingOptions sharedOptions (arguments.map String.toList)
  checkLogging given
  let name ← required given rest.head?
  match String.ofList name with
  | "solve" => parseSolve rest.tail
  | "demo" => parseDemo rest.tail
  | "help" => throw (parseHelp rest.tail)
  | _ => throw .usage

end CommandLine

end MixedInteger
