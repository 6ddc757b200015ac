/-
# Expressions

A term with the steps and operators behind it, and the recursion that ties up the readers
of terms, expressions and templates.
-/

import HclLint.Hcl.Grammar.Operand

namespace HclLint.Hcl.Grammar

open HclLint.Text HclLint.Hcl.Parser

/-! ## Steps into a value -/

/-- A step behind a dot. -/
def dotStep : Parser Step := do
  let _ ← char '.'
  skip true
  fun c =>
    match c.rest with
    | [] => .undone .unexpected
    | x :: _ =>
      if x == '*' then .read .attributeSplat (c.drop 1)
      else if x.isDigit then (do return .legacyIndex (← legacyIndex) : Parser Step) c
      else if isIdentifierStart x then (do return .attribute (← identifier) : Parser Step) c
      else .final .step c.offset

/-- A step between brackets. -/
def bracketStep (level : Level) : Parser Step := do
  let _ ← char '['
  skip true
  -- A star starts no expression, so it can be tried first.
  let step ← choice (do let _ ← char '*'; return .fullSplat)
    (do return .index (← level.expr .bracket))
  skip true
  demandWord "]"
  return step

/-- Whether two dots come next. -/
def startsDots : List Char → Bool
  | '.' :: '.' :: _ => true
  | _ => false

/-- A step into a value, with the blanks before it. -/
def step (level : Level) (breaks : Bool) : Parser Step := do
  skip breaks
  fun c => if startsDots c.rest then .undone .unexpected
    else choice dotStep (bracketStep level) c

/-! ## Operators -/

/-- An operator between two operands. -/
def binaryOp : Parser BinaryOp := fun c =>
  match c.rest with
  | '=' :: '=' :: _ => .read .eq (c.drop 2)
  | '!' :: '=' :: _ => .read .ne (c.drop 2)
  | '<' :: '=' :: _ => .read .le (c.drop 2)
  | '<' :: _ => .read .lt (c.drop 1)
  | '>' :: '=' :: _ => .read .ge (c.drop 2)
  | '>' :: _ => .read .gt (c.drop 1)
  | '+' :: _ => .read .plus (c.drop 1)
  | '-' :: _ => .read .minus (c.drop 1)
  | '*' :: _ => .read .times (c.drop 1)
  | '/' :: _ => .read .div (c.drop 1)
  | '%' :: _ => .read .mod (c.drop 1)
  | '&' :: '&' :: _ => .read .and (c.drop 2)
  | '|' :: '|' :: _ => .read .or (c.drop 2)
  | _ => .undone .unexpected

/-- What the next two characters announce behind a term. -/
inductive Sequel where
  | nothing | steps | conditional | operator
  deriving DecidableEq, Repr

/-- What the text behind a term and its blanks announces. A single character announces
nothing, and neither do comments and dots. -/
def sequelOf : List Char → Sequel
  | '/' :: '/' :: _ => .nothing
  | '/' :: '*' :: _ => .nothing
  | '.' :: '.' :: _ => .nothing
  | '=' :: '=' :: _ => .operator
  | x :: _ :: _ =>
    if x == '.' || x == '[' then .steps
    else if x == '?' then .conditional
    else if "!<>+-*/%&|".toList.contains x then .operator
    else .nothing
  | _ => .nothing

/-- The rest of a conditional behind its test. -/
def conditionalRest (level : Level) (setting : Setting) (test : Expr) : Parser Form := do
  skip setting.breaks
  let _ ← char '?'
  skip setting.breaks
  let yes ← level.expr setting
  skip setting.breaks
  demandWord ":"
  skip setting.breaks
  let no ← level.expr setting
  return .conditional test yes no

/-- An operator and the operand behind it. -/
def operatorRest (level : Level) (setting : Setting) (left : Expr) : Parser Form := do
  skip setting.breaks
  let op ← binaryOp
  skip setting.breaks
  let right ← level.expr setting.withoutConditionals
  return .binary op left right

/-- The expression that started at `first` and was read up to here with the given form. -/
def grown (first : Cursor) (form : Form) : Parser Expr := fun c =>
  .read (.mk ⟨first.offset, String.ofList (first.upTo c)⟩ form) c

/-- Extends an expression that started at `first` by what follows it, at most once for
every character of `limit`. Whether it may become a conditional is settled where it
starts. -/
def extend (level : Level) (first : Cursor) (conditionals : Bool) :
    List Char → Setting → Expr → Parser Expr
  | [], _, e => pure e
  | _ :: limit, setting, e => fun c =>
    match sequelOf (afterBlanks setting.breaks c).rest with
    | .nothing => .read e c
    | .steps =>
      (do let path ← many1 (step level setting.breaks)
          let e ← grown first (.traversal e path)
          extend level first conditionals limit setting e : Parser Expr) c
    | .conditional =>
      -- A question mark that opens no conditional ends the expression.
      if conditionals then
        (do let form ← conditionalRest level setting e
            grown first form : Parser Expr) c
      else .read e c
    | .operator =>
      -- The operand took all operators behind it, but steps and a question mark may follow.
      (do let form ← operatorRest level setting e
          let e ← grown first form
          extend level first conditionals limit setting.withoutConditionals e : Parser Expr) c

/-- An expression. -/
def exprAt (level : Level) (setting : Setting) : Parser Expr := fun c =>
  (do let (e, after) ← level.term setting
      fun next => extend level c setting.conditionals (' ' :: next.rest) after e next :
    Parser Expr) c

/-! ## The recursion -/

/-- The readers that nest expressions at most `depth` deep. -/
def levelOf : Nat → Level
  | 0 => .bottom
  | depth + 1 =>
    { expr := fun setting c => exprAt (levelOf depth) setting c
      term := fun setting c => termAt (levelOf depth) setting c
      part := fun quoting c => templatePart (levelOf depth) quoting c }

/-- A depth that no expression of the text exceeds: an expression is nested in another only
behind at least one character. -/
def depthOf (text : List Char) : Nat := 3 * text.length + 3

end HclLint.Hcl.Grammar
