/-
# The executable

Carries tasks out on the files of the system, and writes what they lead to.
-/

import HclLint.Command.Program

namespace HclLint.Main

open HclLint.Files HclLint.Command

/-- The fault that an error of the system is. -/
def faultOf : IO.Error → ReadFault
  | .noFileOrDirectory _ _ _ => .missing
  | .inappropriateType _ 21 _ => .isDirectory
  | .inappropriateType _ _ _ => .notDirectory
  | .permissionDenied _ code reason => .other reason code.toNat
  | .otherError code reason => .other reason code.toNat
  | error => .other (toString error) 0

/-- The result of an action, with the fault that keeps it from one. -/
def attempt {α : Type} (action : IO α) : IO (Except ReadFault α) := do
  try
    return .ok (← action)
  catch error => return .error (faultOf error)

/-- The content of the file at a path. -/
def read (path : String) : IO (Except ReadFault ByteArray) :=
  if path.isEmpty then return .error .missing else attempt (IO.FS.readBinFile path)

/-- The names in the directory at a path. -/
def list (path : String) : IO (Except ReadFault (List String)) :=
  attempt do
    let entries ← (← IO.FS.realPath path).readDir
    return entries.toList.map (·.fileName)

/-- Whether there is a file at a path. -/
def isFile (path : String) : IO Bool := do
  match ← attempt do return (← (← IO.FS.realPath path).metadata).type with
  | .ok .file => return true
  | _ => return false

/-- Carries a task out. -/
def carryOut {ε α : Type} : Task ε α → IO (Except ε α × Log)
  | .done value => return (.ok value, [])
  | .fail error => return (.error error, [])
  | .note entry rest => do
    let (result, log) ← carryOut rest
    return (result, entry :: log)
  | .read path next => do
    let answer ← read path
    carryOut (next answer)
  | .list path next => do
    let answer ← list path
    carryOut (next answer)
  | .isFile path next => do
    let answer ← isFile path
    carryOut (next answer)

/-- Whether the output is to be coloured. -/
def wantsColour : IO Bool := do
  match ← IO.getEnv "CLICOLOR_FORCE" with
  | some force => if force != "0" then return true
  | none => pure ()
  if (← IO.getEnv "NO_COLOR").isSome || (← IO.getEnv "CLICOLOR") == some "0" then return false
  (← IO.getStdout).isTty

/-- The outcome of a command line on the files of the system. -/
def outcomeOf (words : List String) : IO Outcome := do
  match Request.ofWords words with
  | .error error => return error.outcome
  | .ok request =>
    let filterText := (← IO.getEnv "RUST_LOG").getD "warn"
    return request.finish filterText (← carryOut (request.task (← wantsColour)))

end HclLint.Main

/-- Writes the outcome of a command line and ends with its status. -/
def main (words : List String) : IO UInt32 := do
  let outcome ← HclLint.Main.outcomeOf words
  (← IO.getStdout).putStr outcome.output
  (← IO.getStderr).putStr outcome.errors
  return outcome.status.toUInt32
