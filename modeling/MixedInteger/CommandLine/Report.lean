import MixedInteger.Decimal.Fixed
import MixedInteger.Json.Number
import MixedInteger.Search.Node
import MixedInteger.Model

/-!
# Reports

What the command line shows of an answer: one line per node of a search while it runs, and at the
end the model's answer, as text for people or as JSON.
-/

namespace MixedInteger

namespace CommandLine

/-- A text with blanks in front, up to a width. -/
def padLeft (width : Nat) (text : String) : String :=
  String.ofList (List.replicate (width - text.length) ' ') ++ text

/-- A number with a fixed number of places. -/
def fixed (places : Nat) (x : Float) : String :=
  String.ofList (Decimal.fixed places (Decimal.Value.ofFloat x))

/-! ## Nodes -/

/-- What became of a node. -/
def verdictText {n : Nat} : Search.Verdict Float n → String
  | .infeasible => "infeasible, fathomed"
  | .unbounded => "unbounded"
  | .fathomed => "worse than incumbent, fathomed"
  | .integral true => "integer feasible, new incumbent"
  | .integral false => "integer feasible"
  | .branched k value => s!"branching on x[{k.val}] = {fixed 4 value}"

/-- A cost in a column, where a dash stands for none. -/
def costText (z : Option Float) : String :=
  padLeft 12 <|
    match z with
    | some z => fixed 6 z
    | none => "-"

/-- The line about a node. -/
def nodeLine {n : Nat} (event : Search.NodeEvent Float n) : String :=
  let node := padLeft 5 (toString event.node)
  let depth := padLeft 3 (toString event.depth)
  let waiting := padLeft 5 (toString event.waiting)
  s!"node {node}  depth {depth}  open {waiting}  z {costText event.z}  " ++
    s!"best {costText event.incumbent}  {verdictText event.verdict}"

/-! ## Answers -/

/-- The lines about the variables of a solution. -/
def variableLines (x : List Float) (integer : List Bool) : List String :=
  x.zipIdx.map fun (value, j) ↦
    let kind := if integer[j]?.getD false then "int" else ""
    s!"  x[{padLeft 3 (toString j)}] {padLeft 14 (fixed 6 value)} {kind}"

/-- The answer of a model as text; `nodes` counts the nodes of a search. -/
def prettyLines (model : Model Float) (nodes : Option Nat) : List String :=
  let count :=
    match nodes with
    | some nodes => [s!"Nodes: {nodes}"]
    | none => []
  let solution :=
    match model.x, model.z with
    | some x, some z =>
      [s!"Objective: {fixed 6 z}", "", "Variables:"] ++ variableLines x model.integer
    | _, _ => []
  s!"Status: {model.status.label}" :: count ++ solution

/-- A number in JSON. -/
def jsonNumber (x : Float) : String :=
  String.ofList (Json.writeNumber x)

/-- The lines of a solution in JSON, as the value of a key. -/
def jsonSolution : Option (List Float) → List String
  | none => ["  \"x\": null,"]
  | some [] => ["  \"x\": [],"]
  | some (value :: values) =>
    let before := (value :: values).dropLast.map fun value ↦ s!"    {jsonNumber value},"
    let last := (value :: values).getLast (by simp)
    ["  \"x\": ["] ++ before ++ [s!"    {jsonNumber last}", "  ],"]

/-- The answer of a model in JSON; `nodes` counts the nodes of a search. -/
def jsonLines (model : Model Float) (nodes : Option Nat) : List String :=
  let z :=
    match model.z with
    | some z => jsonNumber z
    | none => "null"
  let count :=
    match nodes with
    | some nodes => toString nodes
    | none => "null"
  ["\x7b", s!"  \"status\": \"{model.status.name}\","] ++ jsonSolution model.x ++
    [s!"  \"z\": {z},", s!"  \"nodes\": {count}", "\x7d"]

end CommandLine

end MixedInteger
