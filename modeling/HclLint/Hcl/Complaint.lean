/-
# Complaints

What the reader can find wrong with a text, and how it is worded.
-/

namespace HclLint.Hcl

/-- The reasons for refusing a text. -/
inductive Complaint where
  /-- Something is left over, or the text ends too early. -/
  | unexpected
  /-- A whole number does not fit 64 bits. -/
  | numeralTooLarge
  /-- No expression starts here. -/
  | expression
  /-- A name is followed neither by a value nor by a block. -/
  | item
  /-- The attribute of a one-line block lacks its equals sign. -/
  | attribute
  /-- A body gives one attribute twice. -/
  | repeatedAttribute
  /-- A block is not closed. -/
  | blockBody
  /-- The key of an object lacks its value. -/
  | objectValue
  /-- The items of an object are not separated. -/
  | objectItem
  /-- A dot is not followed by a step. -/
  | step
  /-- A backslash is followed by a character that it does not escape. -/
  | escape
  /-- An escape does not give the code point of a character. -/
  | codePoint (digits : Nat)
  /-- The arguments of a call are not closed. -/
  | callEnd
  /-- A line goes on after its structure. -/
  | lineEnd
  | newline
  | identifier
  | digit
  /-- A heredoc lacks its delimiter. -/
  | heredocEnd
  /-- A word or a sign of the grammar is missing. -/
  | wanted (word : String)
  deriving DecidableEq, Repr

namespace Complaint

/-- The wording of a complaint: what it is about, then what would have been accepted. -/
def message : Complaint → String
  | .unexpected => "unexpected token"
  | .numeralTooLarge => "unexpected token; number too large to fit in target type"
  | .expression =>
    "invalid expression; expected `\"`, `[`, `\x7b`, `-`, `!`, `(`, `_`, `<`, letter or digit"
  | .item => "invalid structure; expected `\x7b`, `=`, `\"` or identifier"
  | .attribute => "invalid attribute; expected `=`"
  | .repeatedAttribute =>
    "invalid attribute; expected unique attribute key; found redefined attribute"
  | .blockBody => "invalid block body; expected `\x7d`, newline or identifier"
  | .objectValue => "invalid object value assignment; expected `=` or `:`"
  | .objectItem => "invalid object item; expected `\x7d`, `,` or newline"
  | .step => "invalid traversal operator; expected `*`, identifier or unsigned integer"
  | .escape =>
    "invalid escape sequence; expected `b`, `f`, `n`, `r`, `t`, `u`, `U`, `\\` or `\"`"
  | .codePoint digits => s!"invalid unicode {digits}-digit hex code; unexpected token"
  | .callEnd => "expected `)` or expression"
  | .lineEnd => "expected newline or eof"
  | .newline => "expected newline"
  | .identifier => "expected identifier"
  | .digit => "expected digit"
  | .heredocEnd => "expected heredoc end delimiter"
  | .wanted word => s!"expected `{word}`"

end Complaint

end HclLint.Hcl
