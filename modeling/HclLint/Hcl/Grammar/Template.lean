/-
# Templates

The parts of a template between quotes or in a heredoc, and the removal of a heredoc's
indentation.

## Main definitions

* `templatePart`: text, an interpolation or a directive.
* `quotedForm`: a string or a template between quotes.
* `heredocForm`: a heredoc.
* `dedent`: the parts of a heredoc without their common indentation.
-/

import HclLint.Text.Blank
import HclLint.Hcl.Grammar.Level

namespace HclLint.Hcl.Grammar

open HclLint.Text HclLint.Hcl.Parser

/-- Whether a trimming mark stands here. -/
def trimMark : Parser Bool := do
  return (← optional (char '~')).isSome

/-- The end of a tag: an optional trimming mark and the closing brace. -/
def tagEnd : Parser Bool := do
  skip true
  let trim ← trimMark
  demandWord "\x7d"
  return trim

/-- The start of a directive's tag, through the blanks before its keyword. -/
def tagStart : Parser Bool := do
  word ['%', '\x7b']
  let trim ← trimMark
  skip true
  return trim

/-- The value of an expression inside a template. -/
def interpolation (level : Level) : Parser Part := do
  word ['$', '\x7b']
  let left ← trimMark
  skip true
  let inner ← level.expr .bracket
  let right ← tagEnd
  return .interpolation ⟨left, right⟩ inner

/-- The names a repetition binds: a value, or a key and a value. -/
def boundNames : Parser (List String) := do
  let first ← demandIdentifier
  skip true
  let second ← optional do
    let _ ← char ','
    skip true
    let name ← demandIdentifier
    skip true
    return name
  return first :: second.toList

/-- The part of a conditional directive behind its test. -/
def elseParts (level : Level) (quoting : Quoting) : Parser (List Part × Trim) := do
  let left ← tagStart
  word "else".toList
  let right ← tagEnd
  let parts ← many (level.part quoting)
  return (parts, ⟨left, right⟩)

/-- The tag that closes a directive. -/
def closingTag (keyword : String) : Parser Trim := do
  let left ← tagStart
  demandWord keyword
  let right ← tagEnd
  return ⟨left, right⟩

/-- A conditional directive, from its keyword on. -/
def branchPart (level : Level) (quoting : Quoting) (left : Bool) : Parser Part := do
  word "if".toList
  skip true
  let test ← level.expr .bracket
  let right ← tagEnd
  let yes ← many (level.part quoting)
  let no ← optional (elseParts level quoting)
  let closing ← closingTag "endif"
  return .branch test yes (no.map (·.1)) (⟨left, right⟩ :: (no.map (·.2)).toList ++ [closing])

/-- A repeating directive, from its keyword on. -/
def loopPart (level : Level) (quoting : Quoting) (left : Bool) : Parser Part := do
  word "for".toList
  skip true
  let names ← boundNames
  demandWord "in"
  skip true
  let collection ← level.expr .bracket
  let right ← tagEnd
  let body ← many (level.part quoting)
  let closing ← closingTag "endfor"
  return .loop names collection body [⟨left, right⟩, closing]

/-- A directive. -/
def directive (level : Level) (quoting : Quoting) : Parser Part := do
  let left ← tagStart
  choice (branchPart level quoting left) (loopPart level quoting left)

/-- A part of a template. -/
def templatePart (level : Level) (quoting : Quoting) : Parser Part :=
  choice (do return .literal (← templateText quoting))
    (choice (interpolation level) (directive level quoting))

/-- A string without interpolations and directives. -/
def stringForm : Parser Form := do
  let _ ← char '"'
  let text ← optional quotedText
  let _ ← char '"'
  return .string (text.getD "")

/-- A template between quotes. -/
def quotedTemplateForm (level : Level) : Parser Form := do
  let _ ← char '"'
  let parts ← many (level.part .quoted)
  let _ ← char '"'
  return .template parts

/-- A string or a template between quotes. -/
def quotedForm (level : Level) : Parser Form := choice stringForm (quotedTemplateForm level)

/-! ## Indentation -/

/-- The lines of a text. Each is given without its line break, and nothing follows a final
one. -/
def lines : List Char → List (List Char)
  | [] => []
  | '\r' :: '\n' :: rest => [] :: lines rest
  | '\n' :: rest => [] :: lines rest
  | x :: rest =>
    match lines rest with
    | [] => [[x]]
    | line :: more => (x :: line) :: more

/-- The indentation of a run of text: the least of its lines that are not empty, none where
it is zero. A first line counts only where the run starts a line. -/
def indentation (startsLine : Bool) (text : List Char) : Option Nat :=
  let counted := (lines text).drop (if startsLine then 0 else 1)
  let widths := (counted.filter (!·.isEmpty)).map fun line => (line.takeWhile isBlank).length
  widths.min?.filter (0 < ·)

/-- Drops characters from the start of every line of a run of text. A first line is left
alone where the run does not start a line. -/
def dedentText (width : Nat) (startsLine : Bool) (text : List Char) : List Char :=
  let kept := (lines text).zipIdx.map fun (line, i) =>
    if i == 0 && !startsLine then line else line.drop width
  let ending := if text.getLast? == some '\n' then ['\n'] else []
  (List.intercalate ['\n'] kept) ++ ending

/-- Whether a line starts behind a run of text. -/
def endsLine (text : List Char) : Bool := text.getLast? == some '\n'

/-- The indentations of the runs of text in a template, none where something else starts a
line. -/
def indentations (startsLine : Bool) : List Part → Option (List Nat)
  | [] => some []
  | .literal text :: rest =>
    (indentations (endsLine text.toList) rest).map
      ((indentation startsLine text.toList).toList ++ ·)
  | _ :: rest => if startsLine then none else indentations false rest

/-- Removes an indentation from the runs of text in a template. -/
def dedentBy (width : Nat) (startsLine : Bool) : List Part → List Part
  | [] => []
  | .literal text :: rest =>
    .literal (String.ofList (dedentText width startsLine text.toList)) ::
      dedentBy width (endsLine text.toList) rest
  | part :: rest => part :: dedentBy width false rest

/-- Removes the common indentation of a heredoc's lines. -/
def dedent (parts : List Part) : List Part :=
  match (indentations true parts).bind (·.min?) with
  | some width => dedentBy width true parts
  | none => parts

/-! ## Heredocs -/

/-- Appends text to a template. -/
def appendText (text : List Char) : List Part → List Part
  | [] => [.literal (String.ofList text)]
  | [.literal before] => [.literal (before ++ String.ofList text)]
  | part :: rest => part :: appendText text rest

/-- The parts of a heredoc through the line break before its delimiter. -/
def heredocParts (level : Level) (delimiter : String) : Parser (List Part) := do
  let parts ← many (level.part (.heredoc delimiter))
  let ending ← lineBreak
  return appendText ending parts

/-- A heredoc. Where its delimiter follows at once it is empty. -/
def heredocForm (level : Level) : Parser Form := do
  word ['<', '<']
  let indented ← optional (char '-')
  let delimiter ← demandIdentifier
  let _ ← demand .newline lineBreak
  let parts ← choice (heredocParts level delimiter) (return [])
  let _ ← many (satisfy isSpace)
  demand .heredocEnd (word delimiter.toList)
  return .heredoc delimiter (if indented.isSome then dedent parts else parts)

end HclLint.Hcl.Grammar
