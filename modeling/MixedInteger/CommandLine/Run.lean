import MixedInteger.CommandLine.Arguments
import MixedInteger.CommandLine.Folder
import MixedInteger.CommandLine.Report
import MixedInteger.Message
import MixedInteger.ModelFile.Reader
import MixedInteger.Sample

/-!
# Running commands

A command is carried out on the contents of the files it names, and what comes of it is the text of
both output streams and an exit code: zero for an optimal answer, one for any other and for every
failure, two for a command line that is not understood.
-/

namespace MixedInteger

namespace CommandLine

/-- What a command leaves behind. -/
structure Output where
  exit : Nat
  /-- The lines of the standard output. -/
  lines : List String
  /-- The lines of the error stream. -/
  errors : List String
  deriving DecidableEq, Repr

/-- Lines as a text in which each of them is ended. -/
def textOf (lines : List String) : String :=
  String.join (lines.map (· ++ "\n"))

/-- Reads the file of a path. -/
abbrev ReadFile := String → Except ReadError ByteArray

/-! ## Loading -/

/-- Why a model file cannot be loaded. -/
inductive LoadError where
  | unreadable (path : String) (reason : ReadError)
  | invalid (problem : Json.Problem)
  deriving DecidableEq, Repr

/-- The wording of a problem with a text. -/
def problemText : Json.Problem → String
  | .truncated => "the text ends too early"
  | .malformed => "the text is not JSON"
  | .mismatched => "the text is not a model"

/-- The wording of a reason. -/
def LoadError.message : LoadError → String
  | unreadable path reason => s!"Cannot read {path}: {reason.message}"
  | invalid problem => s!"Invalid model JSON: {problemText problem}"

/-- Loads a model file. -/
def load (read : ReadFile) (path : String) : Except LoadError (Model Float) :=
  match read path with
  | .error reason => .error (.unreadable path reason)
  | .ok contents =>
    match String.fromUTF8? contents with
    | none => .error (.unreadable path .notText)
    | some text =>
      match ModelFile.parse text with
      | .error problem => .error (.invalid problem)
      | .ok file => .ok file.toModel

/-! ## Solving -/

/-- The lines of an answer. -/
def answerLines (format : Format) (model : Model Float) (nodes : Option Nat) : List String :=
  match format with
  | .pretty => prettyLines model nodes
  | .json => jsonLines model nodes

/-- The exit code of an answer. -/
def exitCode (model : Model Float) : Nat :=
  if model.status = .optimal then 0 else 1

/-- Shows the end of an attempt, of which `nodes` tells the number of nodes if there are any. -/
def conclude {β : Type} {model : Model Float} (format : Format) (progress : List String)
    (nodes : β → Option Nat) (attempt : Attempt model β) : Output :=
  match attempt.result with
  | none => { exit := 1, lines := [], errors := progress }
  | some (.error failure) =>
    { exit := 1, lines := [], errors := progress ++ [s!"Solver error: {failure.text}"] }
  | some (.ok value) =>
    { exit := exitCode attempt.after
      lines := answerLines format attempt.after (nodes value)
      errors := progress }

/-- Solves a model, without its integrality requirements if they are to be ignored or there are
none, and shows the answer. -/
def solveAndShow (settings : Settings Float) (relax progress : Bool) (format : Format)
    (model : Model Float) : Output :=
  if relax || model.integerCount == 0 then
    conclude format [] (fun _ ↦ none) (model.solveRelaxation settings .ample)
  else
    let attempt := model.solve settings .ample
    let lines := if progress then attempt.records.filterMap (·.nodeEvent?.map nodeLine) else []
    conclude format lines (fun summary ↦ some summary.statistics.nodes) attempt

/-! ## Commands -/

/-- Carries out a command. -/
def Command.run (read : ReadFile) : Command → Output
  | .demo .boundedRows format =>
    solveAndShow .standard true false format Sample.boundedRows
  | .demo .setPacking format =>
    solveAndShow .standard false false format Sample.setPacking
  | .solve request =>
    match load read request.file with
    | .error e => { exit := 1, lines := [], errors := [s!"Error: {e.message}"] }
    | .ok model =>
      let settings : Settings Float :=
        { tolerance := request.tolerance.getD Settings.standard.tolerance
          integrality := request.integrality.getD Settings.standard.integrality }
      solveAndShow settings request.relax request.progress request.format model

/-- How the program is used. -/
def usageLines : List String :=
  ["Solve mixed-integer linear programs by simplex and branch-and-bound",
    "",
    "Usage: milp [OPTIONS] <COMMAND>",
    "",
    "Commands:",
    "  solve  Solve a JSON model file",
    "  demo   Solve one of the built-in example problems",
    "  help   Print this message",
    "",
    "Options:",
    "      --log-level <LOG_LEVEL>    Log filter [default: warn]",
    "      --log-format <LOG_FORMAT>  Log format [default: pretty] [possible values: pretty, json]",
    "  -h, --help                     Print help"]

/-- Shows why a command line is not carried out. -/
def Refusal.output : Refusal → Output
  | .help => { exit := 0, lines := usageLines, errors := [] }
  | .usage => { exit := 2, lines := [], errors := usageLines }

/-- The file that a command reads. -/
def Command.file? : Command → Option String
  | .solve request => some request.file
  | .demo _ _ => none

/-- Carries out a command line. -/
def run (read : ReadFile) (arguments : List String) : Output :=
  match parse arguments with
  | .ok command => command.run read
  | .error refusal => refusal.output

end CommandLine

end MixedInteger
