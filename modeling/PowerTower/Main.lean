import PowerTower.CommandLine.Answer

/-!
# The program

Reads and writes the files that a request names, and prints its outcome.
-/

namespace PowerTower

open CommandLine

/-- What the system says about a failure, with its number. -/
def systemMessage (code : UInt32) (details : String) : String := s!"{details} (os error {code})"

/-- The wording of a failed access to a file. -/
def accessMessage : IO.Error → String
  | .alreadyExists _ code details => systemMessage code details
  | .otherError code details => systemMessage code details
  | .resourceBusy code details => systemMessage code details
  | .resourceVanished code details => systemMessage code details
  | .unsupportedOperation code details => systemMessage code details
  | .hardwareFault code details => systemMessage code details
  | .unsatisfiedConstraints code details => systemMessage code details
  | .interrupted _ code details => systemMessage code details
  | .noFileOrDirectory _ code details => systemMessage code details
  | .invalidArgument _ code details => systemMessage code details
  | .permissionDenied _ code details => systemMessage code details
  | .resourceExhausted _ code details => systemMessage code details
  | .inappropriateType _ code details => systemMessage code details
  | .noSuchThing _ code details => systemMessage code details
  | e => toString e

/-- The wording for a file that holds no text. -/
def noTextMessage : String := "stream did not contain valid UTF-8"

/-- Reads a file. -/
def readText (path : String) : IO (Except String String) := do
  try
    match String.fromUTF8? (← IO.FS.withFile path .read fun file => file.readBinToEnd) with
    | some text => return .ok text
    | none => return .error noTextMessage
  catch e => return .error (accessMessage e)

/-- Writes a file. -/
def writeText (path text : String) : IO (Except String Unit) := do
  try
    IO.FS.writeFile path text
    return .ok ()
  catch e => return .error (accessMessage e)

/-- Prints an outcome. -/
def finish (o : Outcome) : IO UInt32 := do
  (← IO.getStdout).putStr o.stdout
  (← IO.getStderr).putStr o.stderr
  return o.code.toUInt32

/-- Carries a request out. -/
def serve (r : Request) : IO UInt32 := do
  let file ← match r.config with
    | some path => readText path
    | none => pure (.ok "")
  match r.respond file with
  | .done o => finish o
  | .write path text => finish (written path (← writeText path text))

end PowerTower

/-- Runs the program. -/
def main (args : List String) : IO UInt32 :=
  match PowerTower.CommandLine.Request.ofArguments args with
  | .ok r => PowerTower.serve r
  | .error refusal => PowerTower.finish refusal.outcome
