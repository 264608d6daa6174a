/-!
# Requests on the command line

A command line names a command, `compare`, `stats` or `dot`, with its expressions and switches. The general
switches may stand before the command or among its arguments.

A switch that takes a value is followed by it, `--config FILE`, or has it attached, `--config=FILE`, `-oFILE`,
`-o=FILE`. Switches of one letter may be written together. After `--` everything is an expression. An expression may
begin with a hyphen: as long as one is due, an argument that is no known switch is taken for it.

* `Given.take` : one more argument of the program or of a command;
* `Request.ofArguments` : the request of a whole command line, or why there is none.
-/

namespace PowerTower.CommandLine

/-- What is asked for. -/
inductive Command where
  | compare (lhs rhs : String)
  | stats (expr : String) (json : Bool)
  | dot (expr : String) (output : Option String)
deriving DecidableEq, Repr

/-- A command with the general switches. -/
structure Request where
  /-- How much to log. -/
  verbosity : Nat := 0
  /-- The circuit is to check itself. -/
  checked : Bool := false
  /-- The circuit is not to check itself, whatever else is said. -/
  unchecked : Bool := false
  /-- The file with the configuration of the circuit. -/
  config : Option String := none
  command : Command
deriving DecidableEq, Repr

/-- Why there is nothing to be done. -/
inductive Refusal where
  /-- The command line is not understood. -/
  | usage
  /-- The version was asked for. -/
  | version
  /-- Help was asked for. -/
  | help
deriving DecidableEq, Repr

/-- The switches. -/
inductive Switch where
  | verbose
  | checked
  | unchecked
  | config
  | json
  | output
  | help
  | version
deriving DecidableEq, Repr

/-- Whether a switch takes a value. -/
def Switch.takesValue : Switch → Bool
  | config => true
  | output => true
  | _ => false

/-- Whose arguments are read: those of the program, before the command, or those of a command. -/
inductive Level where
  | program
  | compare
  | stats
  | dot
deriving DecidableEq, Repr

namespace Level

/-- The switch of a name. -/
def long? (level : Level) (name : String) : Option Switch :=
  match name with
  | "verbose" => some .verbose
  | "checked" => some .checked
  | "unchecked" => some .unchecked
  | "config" => some .config
  | "help" => some .help
  | "version" => if level = .program then some .version else none
  | "json" => if level = .stats then some .json else none
  | "output" => if level = .dot then some .output else none
  | _ => none

/-- The switch of a letter. -/
def short? (level : Level) (letter : Char) : Option Switch :=
  match letter with
  | 'v' => some .verbose
  | 'h' => some .help
  | 'V' => if level = .program then some .version else none
  | 'o' => if level = .dot then some .output else none
  | _ => none

/-- The number of expressions. -/
def arity : Level → Nat
  | program => 0
  | compare => 2
  | stats => 1
  | dot => 1

/-- The command of a name. -/
def ofName? : String → Option Level
  | "compare" => some compare
  | "stats" => some stats
  | "dot" => some dot
  | _ => none

end Level

/-- The arguments read so far. -/
structure Given where
  verbosity : Nat := 0
  checked : Bool := false
  unchecked : Bool := false
  config : Option String := none
  json : Bool := false
  output : Option String := none
  /-- The expressions, in order. -/
  exprs : List String := []
  /-- A switch whose value is yet to come. -/
  due : Option Switch := none
  /-- Whether only expressions can follow. -/
  plain : Bool := false
deriving DecidableEq, Repr

namespace Given

/-- Sets a switch without a value. Only `verbose` may be set again. -/
def set (g : Given) : Switch → Except Refusal Given
  | .verbose => .ok { g with verbosity := g.verbosity + 1 }
  | .checked => if g.checked then .error .usage else .ok { g with checked := true }
  | .unchecked => if g.unchecked then .error .usage else .ok { g with unchecked := true }
  | .json => if g.json then .error .usage else .ok { g with json := true }
  | .help => .error .help
  | .version => .error .version
  | .config => .error .usage
  | .output => .error .usage

/-- Gives a switch its value: once, and not the empty one. -/
def setValue (g : Given) (s : Switch) (v : String) : Except Refusal Given :=
  if v.isEmpty then .error .usage
  else match s with
    | .config => if g.config.isSome then .error .usage else .ok { g with config := some v, due := none }
    | .output => if g.output.isSome then .error .usage else .ok { g with output := some v, due := none }
    | _ => .error .usage

/-- Takes a switch, perhaps with a value attached. No value may be due. -/
def takeSwitch (g : Given) (s : Switch) (attached : Option String) : Except Refusal Given :=
  if g.due.isSome then .error .usage
  else if s.takesValue then
    match attached with
    | some v => g.setValue s v
    | none => .ok { g with due := some s }
  else match attached with
    | some _ => .error .usage
    | none => g.set s

/-- Takes switches of one letter that are written together. -/
def takeLetters (level : Level) (g : Given) : List Char → Except Refusal Given
  | [] => .ok g
  | letter :: rest =>
    match level.short? letter with
    | none => .error .usage
    | some s =>
      if s.takesValue then
        match rest with
        | [] => g.takeSwitch s none
        | '=' :: v => g.takeSwitch s (some (String.ofList v))
        | v => g.takeSwitch s (some (String.ofList v))
      else do takeLetters level (← g.takeSwitch s none) rest

/-- Takes an argument for the value that is due, or else for an expression. -/
def takeWord (level : Level) (g : Given) (word : String) : Except Refusal Given :=
  match g.due with
  | some s => if g.plain then .error .usage else g.setValue s word
  | none => if g.exprs.length < level.arity then .ok { g with exprs := g.exprs ++ [word] } else .error .usage

/-- Takes an argument. -/
def take (level : Level) (g : Given) (arg : String) : Except Refusal Given :=
  let exprDue := decide (g.exprs.length < level.arity)
  if g.plain then g.takeWord level arg
  else match arg.toList with
    | ['-', '-'] => .ok { g with plain := true }
    | '-' :: '-' :: body =>
      let name := body.takeWhile (· ≠ '=')
      let attached := match body.dropWhile (· ≠ '=') with
        | [] => none
        | _ :: v => some (String.ofList v)
      match level.long? (String.ofList name) with
      | some s => g.takeSwitch s attached
      | none => if exprDue then g.takeWord level arg else .error .usage
    | '-' :: letter :: letters =>
      if exprDue && (letter :: letters).any (fun l => (level.short? l).isNone) then g.takeWord level arg
      else g.takeLetters level (letter :: letters)
    | _ => g.takeWord level arg

/-- The arguments of one level have to be complete and must not contradict each other. -/
def complete (level : Level) (g : Given) : Except Refusal Given :=
  if g.due.isSome || (g.checked && g.unchecked) || g.exprs.length ≠ level.arity then .error .usage else .ok g

/-- The command that the arguments of a level describe. -/
def command? (level : Level) (g : Given) : Option Command :=
  match level, g.exprs with
  | .compare, [lhs, rhs] => some (.compare lhs rhs)
  | .stats, [expr] => some (.stats expr g.json)
  | .dot, [expr] => some (.dot expr g.output)
  | _, _ => none

end Given

namespace Request

/-- The request of a command with the switches before it. Where both give a configuration, that of the command
counts. -/
def ofCommand (g : Given) (level : Level) (args : List String) : Except Refusal Request := do
  let h ← args.foldlM (Given.take level) {}
  let h ← h.complete level
  let g ← g.complete .program
  match h.command? level with
  | some command => return {
      verbosity := if h.verbosity = 0 then g.verbosity else h.verbosity
      checked := g.checked || h.checked
      unchecked := g.unchecked || h.unchecked
      config := h.config.or g.config
      command }
  | none => throw .usage

/-- The topics of help have to be commands. -/
def ofHelp : List String → Refusal
  | [] => .help
  | [topic] => if topic = "help" ∨ (Level.ofName? topic).isSome then .help else .usage
  | _ => .usage

/-- The request of the arguments that are left, after some switches of the program. -/
def ofRest (g : Given) : List String → Except Refusal Request
  | [] => .error .usage
  | arg :: args =>
    match (if g.plain || g.due.isSome then none else some arg) with
    | some "help" => .error (ofHelp args)
    | some name =>
      match Level.ofName? name with
      | some level => ofCommand g level args
      | none => do ofRest (← g.take .program arg) args
    | none => do ofRest (← g.take .program arg) args

/-- The request of a command line. -/
def ofArguments (args : List String) : Except Refusal Request := ofRest {} args

end Request

end PowerTower.CommandLine
