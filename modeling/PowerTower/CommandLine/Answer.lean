import PowerTower.Circuit.Digest
import PowerTower.Circuit.Dot
import PowerTower.Circuit.Report
import PowerTower.CommandLine.Request
import PowerTower.Config.Reader
import PowerTower.Expr.Eval
import PowerTower.Expr.Parser

/-!
# Answers to requests

Each request makes one circuit, evaluates its expressions there and reports on them: a comparison, the counts and
the digest of the circuit, or a drawing.

Nothing here touches a file. `respond` is told what the configuration file holds, and may answer that a text
be written to a file; `written` says how that ends.
-/

namespace PowerTower.CommandLine

/-- The name of the program. -/
def programName : String := "power-circuit-cli"

/-- The name and the version of the program. -/
def versionLine : String := programName ++ " 0.1.0\n"

/-- How the program is called. -/
def usageText : String :=
  s!"Usage: {programName} [-v] [--checked | --unchecked] [--config FILE] COMMAND\n\n" ++
  "  compare LHS RHS         print <, = or >\n" ++
  "  stats EXPR [--json]     print the counts and the digest of the circuit of EXPR\n" ++
  "  dot EXPR [-o FILE]      draw the circuit of EXPR\n"

/-- How a call ends. -/
structure Outcome where
  code : Nat := 0
  stdout : String := ""
  stderr : String := ""
deriving DecidableEq, Repr

/-- What a request leads to. -/
inductive Answer where
  | done (o : Outcome)
  /-- A text is to be written to a file. -/
  | write (path text : String)
deriving DecidableEq, Repr

/-- A failure: what was being done, and the chain of causes. -/
structure Failure where
  context : String
  causes : List String := []
deriving DecidableEq, Repr

/-- The causes of a failure, numbered from zero if there are several. -/
def Failure.renderCauses : List String → String
  | [] => ""
  | [cause] => s!"\n\nCaused by:\n    {cause}"
  | causes => "\n\nCaused by:" ++ String.join (causes.zipIdx.map fun e => s!"\n{padLeft 5 (toString e.2)}: {e.1}")
where
  /-- Fills a text with spaces on the left. -/
  padLeft (width : Nat) (text : String) : String :=
    String.ofList (List.replicate (width - text.length) ' ') ++ text

/-- The report on a failure. -/
def Failure.render (f : Failure) : String := s!"Error: {f.context}{renderCauses f.causes}\n"

/-- A failed call. -/
def Failure.outcome (f : Failure) : Outcome := { code := 1, stderr := f.render }

/-- The wording of a refused command line. -/
def Refusal.outcome : Refusal → Outcome
  | usage => { code := 2, stderr := usageText }
  | version => { stdout := versionLine }
  | help => { stdout := usageText }

/-! ## The circuit -/

/-- The configuration of the circuit. `file` is what the configuration file holds, or why it cannot be read. -/
def Request.circuitConfig (r : Request) (file : Except String String) : Except Failure Config := do
  let base ← match r.config with
    | none => pure {}
    | some path =>
      match file with
      | .error cause => throw { context := s!"read config {path}", causes := [cause] }
      | .ok text =>
        match Config.parse? text with
        | some config => pure config
        | none => throw { context := s!"parse config {path}", causes := ["not a configuration"] }
  return { base with
    checkInvariants := if r.unchecked then false else base.checkInvariants || r.checked }

/-- Evaluates an expression that is given as a text. -/
def evaluateText (text : String) : Call Failure Marking :=
  match Expr.parse text with
  | .error e => throw { context := s!"parse {Text.quoteText text}", causes := [e.message] }
  | .ok e => e.evaluate.mapError fun err =>
    { context := s!"evaluate {Text.quoteText text}", causes := [err.message] }

/-- A question to the circuit. -/
def query {α : Type} (q : Circuit → Except CircuitError α) : Call Failure α :=
  (Call.ask q).mapError fun e => { context := e.message }

/-- The mark of an ordering. -/
def orderingSymbol : Ordering → String
  | .lt => "<"
  | .eq => "="
  | .gt => ">"

/-- The counts and the digest as text. -/
def statsText (s : Stats) (digest : String) : String := s!"{s.render}\ndigest {digest}\n"

/-- The counts and the digest as JSON. -/
def statsJson (s : Stats) (digest : String) : String :=
  "\x7b\n  \"stats\": \x7b\n" ++
  s!"    \"nodes\": {s.nodes},\n    \"reduced_nodes\": {s.reducedNodes},\n" ++
  s!"    \"markings\": {s.markings},\n    \"edges\": {s.edges}\n" ++
  "  \x7d,\n" ++ s!"  \"reduced_prefix_digest\": \"{digest}\"\n" ++ "\x7d\n"

/-- What a command leads to. -/
def Command.serve : Command → Call Failure Answer
  | .compare lhs rhs => do
    let a ← evaluateText lhs
    let b ← evaluateText rhs
    let o ← query fun c => c.compare a b
    return .done { stdout := orderingSymbol o ++ "\n" }
  | .stats expr json => do
    let _ ← evaluateText expr
    let s ← query fun c => .ok c.stats
    let digest ← query fun c => c.digest
    return .done { stdout := if json then statsJson s (hexText digest) else statsText s (hexText digest) }
  | .dot expr output => do
    let m ← evaluateText expr
    let text ← query fun c => c.toDot [m]
    match output with
    | some path => return .write path text
    | none => return .done { stdout := text }

/-! ## The answer -/

/-- What a request leads to. `file` is what the configuration file holds, or why it cannot be read. -/
def Request.respond (r : Request) (file : Except String String) : Answer :=
  match r.circuitConfig file with
  | .error f => .done f.outcome
  | .ok config =>
    match (r.command.serve.run (Circuit.empty ⟨1⟩ config)).1 with
    | .ok answer => answer
    | .error f => .done f.outcome

/-- How a call ends after a text was written to a file, or why it could not be written. -/
def written (path : String) : Except String Unit → Outcome
  | .ok () => {}
  | .error cause =>
    Failure.outcome { context := s!"write {path}", causes := [s!"failed to write dot file: {cause}", cause] }

end PowerTower.CommandLine
