/-
# Reading a command line

Words are read from left to right. A value that an option awaits, or that stands in a place
of its own, is judged only when the next argument is met or the words end; one that is
attached to its option is judged at once. So a word that is no argument is complained about
before a value ahead of it.

## Main definitions

* `readAssignment`: a name and a value around an equals sign.
* `Arguments.ofWords`: what the words behind `lint` ask for.
* `Request.ofWords`: what a whole command line asks for.
-/

import HclLint.Command.Usage
import HclLint.Report.Format
import HclLint.Text.Blank

namespace HclLint.Command

open HclLint.Text HclLint.Report

/-- The arguments of a check. -/
structure Arguments where
  directory : String
  deep : Bool
  format? : Option Format
  varFiles : List String
  assignments : List (String × String)
  cloudState? : Option String
  ignoredRules : List String
  config? : Option String
  errorWithIssues : Bool
  debug : Bool
  deriving Repr

/-- What holds where no argument is given. -/
def Arguments.initial : Arguments := ⟨".", false, none, [], [], none, [], none, false, false⟩

/-- The name before the first equals sign, without blanks around it, and the text behind
the sign. There is no assignment without a name. -/
def readAssignment? (text : String) : Option (String × String) :=
  match text.toList.dropWhile (· != '=') with
  | [] => none
  | _ :: value =>
    let name := trim (text.toList.takeWhile (· != '='))
    if name.isEmpty then none else some (String.ofList name, String.ofList value)

/-- A value that may not be empty. -/
def nonEmpty (a : Argument) (value : String) : Except UsageError String :=
  if value.isEmpty then .error (.missingValue a) else .ok value

/-- The format that a value names. -/
def readFormat (value : String) : Except UsageError Format := do
  match Format.ofName? (← nonEmpty .format value) with
  | some format => return format
  | none => throw (.invalidValue .format value)

/-- The arguments with one more value. -/
def Arguments.take (given : Arguments) (a : Argument) (value : String) :
    Except UsageError Arguments := do
  match a with
  | .directory => return { given with directory := ← nonEmpty a value }
  | .format => return { given with format? := some (← readFormat value) }
  | .varFile => return { given with varFiles := given.varFiles ++ [← nonEmpty a value] }
  | .var =>
    match readAssignment? value with
    | some assignment => return { given with assignments := given.assignments ++ [assignment] }
    | none => throw (.invalidAssignment value)
  | .cloudState => return { given with cloudState? := some (← nonEmpty a value) }
  | .ignoreRule => return { given with ignoredRules := given.ignoredRules ++ [value] }
  | .config => return { given with config? := some (← nonEmpty a value) }
  | .deep => return { given with deep := true }
  | .errorWithIssues => return { given with errorWithIssues := true }
  | .debug => return { given with debug := true }
  | .help => throw .helpWanted
  | .version => throw .versionWanted

/-- An argument that is not judged yet, with its value if that has been met. -/
structure Pending where
  argument : Argument
  value? : Option String

/-- How far the words have been read. -/
structure Reading where
  given : Arguments
  /-- The arguments that have been judged. -/
  seen : List Argument
  pending? : Option Pending
  /-- Whether the directory has been met. -/
  isPlaced : Bool

namespace Reading

/-- The start of a reading. -/
def start : Reading := ⟨.initial, [], none, false⟩

/-- Judges an argument: it may not come again unless it is repeatable. -/
def judge (r : Reading) (a : Argument) (value : String) : Except UsageError Reading := do
  if a ∈ r.seen && !a.isRepeatable then throw (.repeated a)
  return { r with given := ← r.given.take a value, seen := a :: r.seen }

/-- Judges the argument that waits for it. -/
def settle (r : Reading) : Except UsageError Reading :=
  match r.pending? with
  | none => .ok r
  | some ⟨a, none⟩ => .error (.missingValue a)
  | some ⟨a, some value⟩ => judge { r with pending? := none } a value

/-- Reads an option and the value attached to it. -/
def option (r : Reading) (a : Argument) (value? : Option String) : Except UsageError Reading := do
  match a.manner, value? with
  | .valued, some value => (← r.settle).judge a value
  | .valued, none => return { ← r.settle with pending? := some ⟨a, none⟩ }
  | _, _ => (← r.settle).judge a ""

/-- Reads a word in a place of its own. Only the directory has one. -/
def placed (r : Reading) (word : String) : Except UsageError Reading := do
  if r.isPlaced then throw (.unexpected word)
  return { ← r.settle with pending? := some ⟨.directory, some word⟩, isPlaced := true }

/-- Reads a plain word: the value that an option awaits, or else the directory. -/
def plain (r : Reading) (word : String) : Except UsageError Reading :=
  match r.pending? with
  | some ⟨a, none⟩ => .ok { r with pending? := some ⟨a, some word⟩ }
  | _ => r.placed word

/-- Reads the words of a check. -/
def words (r : Reading) : List String → Except UsageError Reading
  | [] => r.settle
  | word :: rest => do
    match Word.ofText word with
    | .dashes => (← rest.foldlM placed r).settle
    | .long name value? =>
      match Argument.ofName? Argument.options name, value? with
      -- The value that waits to be judged is passed over.
      | none, _ => throw (.unexpected ("--" ++ name))
      | some a, some value =>
        if a.manner = .named then throw (.unwantedValue a value)
        (← r.option a value).words rest
      | some a, none => (← r.option a none).words rest
    | .short letter value =>
      match Argument.ofLetter? Argument.options letter with
      | none => throw (.unexpected (String.ofList ['-', letter]))
      | some a => (← r.option a (Word.attached? value)).words rest
    | .plain => (← r.plain word).words rest

end Reading

/-- The arguments that the words of a check give. -/
def Arguments.ofWords (words : List String) : Except UsageError Arguments := do
  return (← Reading.start.words words).given

/-- What a command line asks for. -/
inductive Request where
  | lint (arguments : Arguments)
  | rules
  deriving Repr

namespace Request

/-- The names of the commands. -/
def commands : List String := ["lint", "rules", "help"]

/-- What an option asks for that is no option of a check. -/
def wish : Argument → UsageError
  | .version => .versionWanted
  | _ => .helpWanted

/-- What a long option means where only some wishes are known. -/
def longWish (known : List Argument) (name : String) (value? : Option String) : UsageError :=
  match Argument.ofName? known name, value? with
  | none, _ => .unexpected ("--" ++ name)
  | some a, some value => .unwantedValue a value
  | some a, none => wish a

/-- What a letter means where only some wishes are known. -/
def letterWish (known : List Argument) (letter : Char) : UsageError :=
  match Argument.ofLetter? known letter with
  | none => .unexpected (String.ofList ['-', letter])
  | some a => wish a

/-- Reads the words behind a command without arguments. -/
def nothingMore : List String → Except UsageError Unit
  | [] => .ok ()
  | word :: rest =>
    match Word.ofText word, rest with
    | .dashes, [] => .ok ()
    | .dashes, first :: _ => .error (.unexpected first)
    | .plain, _ => .error (.unexpected word)
    | .long name value?, _ => .error (longWish [.help] name value?)
    | .short letter _, _ => .error (letterWish [.help] letter)

/-- Reads the commands for which help is wanted, of which none has commands of its own. -/
def helpFor : List String → UsageError
  | [] => .helpWanted
  | first :: rest =>
    if first ∉ commands then .unknownCommand first
    else
      match rest with
      | [] => .helpWanted
      | second :: _ => .unknownCommand second

/-- Reads a whole command line. -/
def ofWords : List String → Except UsageError Request
  | [] => .error .noCommand
  | "lint" :: rest => (Arguments.ofWords rest).map lint
  | "rules" :: rest => (nothingMore rest).map fun _ => rules
  | "help" :: rest => .error (helpFor rest)
  | word :: rest =>
    match Word.ofText word, rest with
    | .dashes, [] => .error .noCommand
    | .dashes, first :: _ =>
      .error (if first ∈ commands then .unexpected first else .unknownCommand first)
    | .plain, _ => .error (.unknownCommand word)
    | .long name value?, _ => .error (longWish [.help, .version] name value?)
    | .short letter _, _ => .error (letterWish [.help, .version] letter)

end Request

example : readAssignment? " a = b=c " = some ("a", " b=c ") := by decide +kernel
example : readAssignment? " =b" = none ∧ readAssignment? "a" = none := by decide +kernel

end HclLint.Command
