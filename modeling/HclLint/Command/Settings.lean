/-
# Settings

What a check is to do. Settings come from a file and from the command line: of a setting
with one value the command line's goes first, lists are joined with the file's items ahead,
and a deep check takes place if either asks for it.

## Main definitions

* `FileSettings.ofNode?`: the settings that a document holds.
* `FileSettings.load`: the settings in a file, with paths seen from where the file is.
* `Settings.merge`: the settings of a file and of a command line together.
* `Settings.load`: the settings of a check.
-/

import HclLint.Command.Arguments
import HclLint.Command.Failure
import HclLint.Files.Task
import HclLint.Model.Merge
import HclLint.Yaml.Reader

namespace HclLint.Command

open HclLint.Text HclLint.Files HclLint.Model HclLint.Report

/-- The settings in a file. -/
structure FileSettings where
  deepCheck : Bool
  ignoredRules : List String
  varFiles : List String
  cloudState? : Option String
  precedence? : Option Precedence
  format? : Option Format
  deriving DecidableEq, Repr

namespace FileSettings

/-- What holds where no file does. -/
def initial : FileSettings := ⟨false, [], [], none, none, none⟩

/-- The names of the settings. -/
def names : List String :=
  ["deep_check", "ignore_rules", "var_files", "cloud_state", "override_precedence", "format"]

/-- The entries of a document: every key is the name of a setting, and none comes twice. -/
def entries? : Yaml.Node → Option (List (String × Yaml.Node))
  | .map entries => do
    let named ← entries.mapM fun (key, value) => key.text?.map (·, value)
    let keys := named.map (·.1)
    if keys.Nodup ∧ ∀ key ∈ keys, key ∈ names then some named else none
  | node => if node.isVoid then some [] else none

/-- Reads the entry with a name, if there is one. -/
def entry {α : Type} (entries : List (String × Yaml.Node)) (name : String) (missing : α)
    (read : Yaml.Node → Option α) : Option α :=
  match entries.find? (·.1 == name) with
  | some (_, node) => read node
  | none => some missing

/-- Reads a node that may stand for no value. -/
def nullable {α : Type} (read : Yaml.Node → Option α) (node : Yaml.Node) : Option (Option α) :=
  if node.isNull then some none else (read node).map some

/-- The settings that a document holds. -/
def ofNode? (node : Yaml.Node) : Option FileSettings := do
  let entries ← entries? node
  return {
    deepCheck := ← entry entries "deep_check" false (·.bool?)
    ignoredRules := ← entry entries "ignore_rules" [] (·.texts?)
    varFiles := ← entry entries "var_files" [] (·.texts?)
    cloudState? := ← entry entries "cloud_state" none (nullable (·.text?))
    precedence? :=
      ← entry entries "override_precedence" none (nullable (·.text? >>= Precedence.ofName?))
    format? := ← entry entries "format" none (nullable (·.text? >>= Format.ofName?)) }

/-- The settings that a text describes. Nothing but blanks describes the initial ones. -/
def ofText? (text : String) : Option FileSettings :=
  if (trim text.toList).isEmpty then some initial else Yaml.read? text >>= ofNode?

/-- The settings with their paths seen from a directory. -/
def seenFrom (directory : String) (s : FileSettings) : FileSettings :=
  { s with
    varFiles := s.varFiles.map (Path.join directory)
    cloudState? := s.cloudState?.map (Path.join directory) }

/-- Reads the settings in a file. -/
def load (path : String) : Task Failure FileSettings := do
  let text ← (Task.readText path).mapError (.unreadable path)
  match ofText? text with
  | some settings => return settings.seenFrom ((Path.parent? path).getD "")
  | none => .fail (.invalidSettings path)

/-- The name of the file that holds the settings of its directory. -/
def usualName : String := ".tfcheck.yml"

/-- Finds the settings of a check: in the file that is asked for, or else in the usual file
of the directory, if it exists. -/
def find (config? : Option String) (directory : String) : Task Failure FileSettings :=
  match config? with
  | some path => load path
  | none =>
    let path := Path.join directory usualName
    .isFile path fun isThere =>
      if isThere then .note ⟨.debug, .config, s!"using configuration file {path}"⟩ (load path)
      else pure initial

end FileSettings

/-- What a check is to do. -/
structure Settings where
  directory : String
  deepCheck : Bool
  ignoredRules : List String
  varFiles : List String
  assignments : List (String × String)
  cloudState? : Option String
  precedence : Precedence
  format : Format
  errorWithIssues : Bool
  deriving DecidableEq, Repr

namespace Settings

/-- The settings of a file and of a command line together. -/
def merge (file : FileSettings) (given : Arguments) : Settings where
  directory := given.directory
  deepCheck := file.deepCheck || given.deep
  ignoredRules := file.ignoredRules ++ given.ignoredRules
  varFiles := file.varFiles ++ given.varFiles
  assignments := given.assignments
  cloudState? := given.cloudState? <|> file.cloudState?
  precedence := file.precedence?.getD .lexical
  format := (given.format? <|> file.format?).getD .stylish
  errorWithIssues := given.errorWithIssues

/-- The settings of a check. -/
def load (given : Arguments) : Task Failure Settings := do
  return merge (← FileSettings.find given.config? given.directory) given

end Settings

end HclLint.Command
