/-
# The command line and its misuse

The arguments that a check of a directory takes, how each one is written, and what can be
wrong with a command line.

## Main definitions

* `Argument`: the arguments, with their names, letters and manners.
* `Word`: a word of a command line, told apart by its dashes.
* `UsageError`: what is wrong with a command line, with its wording.
-/

namespace HclLint.Command

/-- What can be given on a command line. -/
inductive Argument where
  | directory | deep | format | varFile | var | cloudState | ignoreRule | config
  | errorWithIssues | debug | help | version
  deriving DecidableEq, Repr

/-- How an argument is given. -/
inductive Manner where
  /-- By its place. -/
  | placed
  /-- By its name alone. -/
  | named
  /-- By its name and a value. -/
  | valued
  deriving DecidableEq, Repr

namespace Argument

/-- The options of a check. -/
def options : List Argument :=
  [deep, format, varFile, var, cloudState, ignoreRule, config, errorWithIssues, debug, help]

/-- The long name of an argument. -/
def name : Argument → String
  | directory => "dir"
  | deep => "deep"
  | format => "format"
  | varFile => "var-file"
  | var => "var"
  | cloudState => "cloud-state"
  | ignoreRule => "ignore-rule"
  | config => "config"
  | errorWithIssues => "error-with-issues"
  | debug => "debug"
  | help => "help"
  | version => "version"

/-- The letter of an argument. -/
def letter? : Argument → Option Char
  | format => some 'f'
  | config => some 'c'
  | help => some 'h'
  | version => some 'V'
  | _ => none

/-- How an argument is given. -/
def manner : Argument → Manner
  | directory => .placed
  | deep | errorWithIssues | debug | help | version => .named
  | format | varFile | var | cloudState | ignoreRule | config => .valued

/-- Whether an argument may be given more than once. -/
def isRepeatable : Argument → Bool
  | varFile | var | ignoreRule => true
  | _ => false

/-- An argument as it is shown in messages. -/
def shown : Argument → String
  | directory => "[DIR]"
  | format => "--format <FORMAT>"
  | varFile => "--var-file <VAR_FILES>"
  | var => "--var <VARS>"
  | cloudState => "--cloud-state <CLOUD_STATE>"
  | ignoreRule => "--ignore-rule <IGNORE_RULES>"
  | config => "--config <CONFIG>"
  | a => "--" ++ a.name

/-- The argument with a name, among some arguments. -/
def ofName? (among : List Argument) (name : String) : Option Argument :=
  among.find? (·.name == name)

/-- The argument with a letter, among some arguments. -/
def ofLetter? (among : List Argument) (letter : Char) : Option Argument :=
  among.find? (·.letter? == some letter)

end Argument

/-- A word of a command line. -/
inductive Word where
  /-- Two dashes, behind which all words are plain. -/
  | dashes
  /-- Two dashes and a name, and the value behind an equals sign. -/
  | long (name : String) (value? : Option String)
  /-- A dash and a letter, and what stands behind the letter. -/
  | short (letter : Char) (rest : List Char)
  | plain
  deriving DecidableEq, Repr

namespace Word

/-- The name and the value around the first equals sign. -/
def ofLong (cs : List Char) : Word :=
  let name := String.ofList (cs.takeWhile (· != '='))
  match cs.dropWhile (· != '=') with
  | [] => .long name none
  | _ :: value => .long name (some (String.ofList value))

/-- What kind of word a text is. -/
def ofText (text : String) : Word :=
  match text.toList with
  | ['-', '-'] => .dashes
  | '-' :: '-' :: rest => ofLong rest
  | '-' :: letter :: rest => .short letter rest
  | _ => .plain

/-- The value attached to a letter, of which a first equals sign is no part. -/
def attached? : List Char → Option String
  | [] => none
  | '=' :: value => some (String.ofList value)
  | value => some (String.ofList value)

end Word

/-- What is wrong with a command line, or asked for instead of a run. -/
inductive UsageError where
  | helpWanted
  | versionWanted
  /-- There is no command. -/
  | noCommand
  | unknownCommand (word : String)
  /-- The word stands for no argument. -/
  | unexpected (word : String)
  | missingValue (a : Argument)
  | invalidValue (a : Argument) (value : String)
  /-- The value gives no name to assign to. -/
  | invalidAssignment (value : String)
  /-- The argument may be given only once. -/
  | repeated (a : Argument)
  /-- The argument takes no value. -/
  | unwantedValue (a : Argument) (value : String)
  deriving DecidableEq, Repr

/-- The wording of an error. -/
def UsageError.message : UsageError → String
  | .helpWanted => "help is wanted"
  | .versionWanted => "the version is wanted"
  | .noCommand => "a command is missing"
  | .unknownCommand word => s!"unrecognized subcommand '{word}'"
  | .unexpected word => s!"unexpected argument '{word}' found"
  | .missingValue a => s!"a value is required for '{a.shown}' but none was supplied"
  | .invalidValue a value => s!"invalid value '{value}' for '{a.shown}'"
  | .invalidAssignment value =>
    s!"invalid value '{value}' for '{Argument.var.shown}': " ++
      s!"invalid variable assignment '{value}', expected NAME=VALUE"
  | .repeated a => s!"the argument '{a.shown}' cannot be used multiple times"
  | .unwantedValue a value =>
    s!"unexpected value '{value}' for '{a.shown}' found; no more were expected"

end HclLint.Command
