/-
# YAML scalars

Plain and quoted text. A line break inside of a scalar is folded: a single one becomes a
blank, and of several the first is dropped. Blanks around a line break are dropped.

## Main definitions

* `Place`: the rest of a document, with its column.
* `skipGap`: the next token, past blanks, comments and line breaks.
* `readPlain`, `readSingle`, `readDouble`: a scalar, and the place behind it.
-/

import HclLint.Text.Hex

namespace HclLint.Yaml

open HclLint.Text (hexValue? charOfCodePoint?)

/-- A place in a document: what follows, in which column it starts, and whether a block may
open there, which is so at the start of a line and behind the mark of a list item. -/
structure Place where
  rest : List Char
  column : Nat
  opens : Bool

/-- A blank inside of a line. -/
def isBlank (c : Char) : Bool := c == ' ' || c == '\t'

/-- Whether a token ends in front of a text. -/
def endsToken : List Char → Bool
  | [] => true
  | c :: _ => isBlank c || c == '\n'

/-- Whether a text starts with the mark of a document's start or end. -/
def startsWithMark : List Char → Bool
  | '-' :: '-' :: '-' :: rest | '.' :: '.' :: '.' :: rest => endsToken rest
  | _ => false

namespace Place

/-- Whether the document ends at a place. -/
def atEnd (p : Place) : Bool := p.rest.isEmpty || (p.column == 0 && startsWithMark p.rest)

/-- The place behind some characters of a line. -/
def advance (p : Place) (count : Nat) : Place :=
  ⟨p.rest.drop count, p.column + count, p.opens⟩

end Place

/-- Skips to the next token. A tab may not stand where a block may open, unless it is inside
of brackets; a comment goes on to the end of its line. -/
def skipFrom (inFlow inComment opens : Bool) (column : Nat) : List Char → Place
  | [] => ⟨[], column, opens⟩
  | c :: rest =>
    if c = '\n' then skipFrom inFlow false true 0 rest
    else if inComment then skipFrom inFlow true opens (column + 1) rest
    else if c = ' ' ∨ (c = '\t' ∧ (inFlow ∨ ¬opens)) then
      skipFrom inFlow false opens (column + 1) rest
    else if c = '#' then skipFrom inFlow true opens (column + 1) rest
    else ⟨c :: rest, column, opens⟩

/-- The next token from a place on. -/
def skipGap (inFlow : Bool) (p : Place) : Place :=
  skipFrom inFlow false p.opens p.column p.rest

/-- What was passed over since the last character of a scalar. -/
inductive Gap where
  /-- Blanks of one line, the last one first. -/
  | blanks (reversed : List Char)
  /-- Line breaks. -/
  | breaks (count : Nat)
  /-- Line breaks behind one that was escaped. -/
  | afterEscape (count : Nat)

namespace Gap

/-- No gap. -/
def none : Gap := .blanks []

/-- Whether the gap spans lines. -/
def isBroken : Gap → Bool
  | .blanks _ => false
  | .breaks _ | .afterEscape _ => true

/-- A gap with another blank. Blanks around line breaks are dropped. -/
def addBlank (c : Char) : Gap → Gap
  | .blanks reversed => .blanks (c :: reversed)
  | gap => gap

/-- A gap with another line break. -/
def addBreak : Gap → Gap
  | .blanks _ => .breaks 1
  | .breaks count => .breaks (count + 1)
  | .afterEscape count => .afterEscape (count + 1)

/-- What a gap contributes to a text, the last character first. -/
def reversedText : Gap → List Char
  | .blanks reversed => reversed
  | .breaks 1 => [' ']
  | .breaks count => List.replicate (count - 1) '\n'
  | .afterEscape count => List.replicate count '\n'

end Gap

/-- A scalar's text, whether it spans lines, and the place behind it. -/
structure Scalar where
  text : String
  isBroken : Bool
  after : Place

/-- The marks that end plain text inside of brackets. -/
def isFlowMark (c : Char) : Bool := [',', '[', ']', '\x7b', '\x7d'].contains c

/-- Whether plain text ends in front of a text. -/
def endsPlain (inFlow : Bool) : List Char → Bool
  | [] => true
  | ':' :: rest => endsToken rest || (inFlow && (rest.head?.map isFlowMark).getD false)
  | c :: _ => inFlow && isFlowMark c

/-- The characters that no plain text starts with. -/
def isIndicator (c : Char) : Bool := "-?:,[]\x7b\x7d#&*!|>'\"%@`".toList.contains c

/-- Whether plain text can start in front of a text. -/
def startsPlain (inFlow : Bool) : List Char → Bool
  | [] => false
  | '-' :: rest => !(endsToken rest)
  | c :: rest =>
    if c = '?' ∨ c = ':' then !inFlow && !(endsToken rest)
    else !(isIndicator c) && !(isBlank c) && c != '\n'

/-- Plain text from some of its characters on, with the gap behind them. -/
def plainFrom (inFlow : Bool) (indent : Nat) (text : List Char) (gap : Gap) (broken : Bool)
    (column : Nat) : List Char → Option Scalar
  | [] => some ⟨String.ofList text.reverse, broken, ⟨[], column, gap.isBroken⟩⟩
  | c :: rest =>
    if c = '\n' then plainFrom inFlow indent text gap.addBreak broken 0 rest
    else if isBlank c then
      if gap.isBroken && c == '\t' && column < indent then none
      else plainFrom inFlow indent text (gap.addBlank c) broken (column + 1) rest
    else if (gap.isBroken && !inFlow && column < indent) ||
        (column == 0 && startsWithMark (c :: rest)) ||
        (c == '#' && !gap.reversedText.isEmpty) || endsPlain inFlow (c :: rest) then
      some ⟨String.ofList text.reverse, broken, ⟨c :: rest, column, gap.isBroken⟩⟩
    else
      plainFrom inFlow indent (c :: (gap.reversedText ++ text)) .none (broken || gap.isBroken)
        (column + 1) rest

/-- The plain text at a place. Its further lines are indented at least so far. -/
def readPlain (inFlow : Bool) (indent : Nat) (p : Place) : Option Scalar :=
  plainFrom inFlow indent [] .none false p.column p.rest

/-- Text between single quotes, in which two quotes stand for one. -/
def singleFrom (text : List Char) (gap : Gap) (broken : Bool) (column : Nat) :
    List Char → Option Scalar
  | [] => none
  | '\'' :: '\'' :: rest =>
    singleFrom ('\'' :: (gap.reversedText ++ text)) .none (broken || gap.isBroken) (column + 2)
      rest
  | '\'' :: rest =>
    some ⟨String.ofList (gap.reversedText ++ text).reverse, broken || gap.isBroken,
      ⟨rest, column + 1, false⟩⟩
  | c :: rest =>
    if column == 0 && startsWithMark (c :: rest) then none
    else if c = '\n' then singleFrom text gap.addBreak broken 0 rest
    else if isBlank c then singleFrom text (gap.addBlank c) broken (column + 1) rest
    else
      singleFrom (c :: (gap.reversedText ++ text)) .none (broken || gap.isBroken) (column + 1)
        rest

/-- The text between single quotes behind the first of them. -/
def readSingle (p : Place) : Option Scalar := singleFrom [] .none false p.column p.rest

/-- What a letter behind a backslash stands for. -/
def escaped? : Char → Option Char
  | '0' => some '\x00'
  | 'a' => some '\x07'
  | 'b' => some '\x08'
  | 't' | '\t' => some '\t'
  | 'n' => some '\n'
  | 'v' => some '\x0b'
  | 'f' => some '\x0c'
  | 'r' => some '\r'
  | 'e' => some '\x1b'
  | ' ' => some ' '
  | '"' => some '"'
  | '/' => some '/'
  | '\\' => some '\\'
  | 'N' => some '\u0085'
  | '_' => some '\u00a0'
  | 'L' => some '\u2028'
  | 'P' => some '\u2029'
  | _ => none

/-- The number of hexadecimal digits behind a letter of an escape. -/
def escapeDigits? : Char → Option Nat
  | 'x' => some 2
  | 'u' => some 4
  | 'U' => some 8
  | _ => none

/-- How far an escape has been read. -/
inductive EscapeState where
  | outside
  /-- Behind the backslash. -/
  | backslash
  /-- Behind some digits of a code point, of which some more are missing. -/
  | digits (missing code : Nat)

/-- Text between double quotes, with escapes. -/
def doubleFrom (text : List Char) (gap : Gap) (state : EscapeState) (broken : Bool)
    (column : Nat) : List Char → Option Scalar
  | [] => none
  | c :: rest =>
    match state with
    | .outside =>
      if column == 0 && startsWithMark (c :: rest) then none
      else if c = '"' then
        some ⟨String.ofList (gap.reversedText ++ text).reverse, broken || gap.isBroken,
          ⟨rest, column + 1, false⟩⟩
      else if c = '\n' then doubleFrom text gap.addBreak .outside broken 0 rest
      else if isBlank c then doubleFrom text (gap.addBlank c) .outside broken (column + 1) rest
      else if c = '\\' then
        doubleFrom (gap.reversedText ++ text) .none .backslash (broken || gap.isBroken)
          (column + 1) rest
      else
        doubleFrom (c :: (gap.reversedText ++ text)) .none .outside (broken || gap.isBroken)
          (column + 1) rest
    | .backslash =>
      if c = '\n' then doubleFrom text (.afterEscape 0) .outside broken 0 rest
      else
        match escapeDigits? c with
        | some count => doubleFrom text gap (.digits count 0) broken (column + 1) rest
        | none => do
          doubleFrom ((← escaped? c) :: text) .none .outside broken (column + 1) rest
    | .digits missing code => do
      let code := code * 16 + (← hexValue? c)
      if missing ≤ 1 then
        doubleFrom ((← charOfCodePoint? code) :: text) .none .outside broken (column + 1) rest
      else doubleFrom text gap (.digits (missing - 1) code) broken (column + 1) rest

/-- The text between double quotes behind the first of them. -/
def readDouble (p : Place) : Option Scalar :=
  doubleFrom [] .none .outside false p.column p.rest

end HclLint.Yaml
