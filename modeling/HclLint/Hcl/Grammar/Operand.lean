/-
# Terms

The expressions that need no operator: literals, lists, objects, calls, comprehensions,
expressions in parentheses, and a sign before any of them.
-/

import HclLint.Hcl.Grammar.Template

namespace HclLint.Hcl.Grammar

open HclLint.Text HclLint.Hcl.Parser

/-- An expression in parentheses. -/
def parensForm (level : Level) : Parser Form := do
  let _ ← char '('
  skip true
  let inner ← level.expr .bracket
  skip true
  demandWord ")"
  return .parens inner

/-! ## Comprehensions -/

/-- Whether a comprehension starts here, behind the opening bracket. -/
def startsFor (c : Cursor) : Bool :=
  match (afterBlanks true c).rest with
  | 'f' :: 'o' :: 'r' :: x :: _ => isSpace x || x == '#' || x == '/' || x == '\n'
  | _ => false

/-- The head of a comprehension: the names it binds and what it runs over. -/
def forHead (level : Level) : Parser (List String × Expr) := do
  skip true
  word "for".toList
  skip true
  let names ← boundNames
  demandWord "in"
  skip true
  let collection ← level.expr .line
  skip true
  demandWord ":"
  return (names, collection)

/-- The test at the end of a comprehension. -/
def forFilter (level : Level) (setting : Setting) : Parser Expr := do
  skip true
  word "if".toList
  skip true
  let test ← level.expr setting
  skip true
  return test

/-- A comprehension between square brackets, behind the opening one. -/
def listForForm (level : Level) (setting : Setting) : Parser Form := do
  let (names, collection) ← forHead level
  skip true
  let item ← level.expr setting
  skip true
  let filter ← optional (forFilter level setting)
  return .listFor names collection item filter

/-- A comprehension between braces, behind the opening one. -/
def objectForForm (level : Level) (setting : Setting) : Parser Form := do
  let (names, collection) ← forHead level
  skip true
  let key ← level.expr .line
  skip true
  demandWord "=>"
  skip true
  let value ← level.expr .line
  skip true
  let grouped ← optional (do word "...".toList; skip true)
  let filter ← optional (forFilter level setting)
  return .objectFor names collection key value grouped.isSome filter

/-! ## Lists and objects -/

/-- The items of a list, behind the opening bracket. -/
def listItemsForm (level : Level) (setting : Setting) : Parser Form := do
  let items ← separated do
    skip true
    notAhead (· == ']')
    let item ← level.expr setting
    skip true
    return item
  let _ ← optional (char ',')
  skip true
  return .list items

/-- A list. -/
def listForm (level : Level) (setting : Setting) : Parser Form := do
  let _ ← char '['
  let form ← fun c =>
    if startsFor c then listForForm level setting c else listItemsForm level setting c
  demandWord "]"
  return form

/-- The sign between the key and the value of an object. A wrong sign is passed before it
is blamed. -/
def objectSign : Parser Unit := fun c =>
  match c.rest with
  | [] => .undone .unexpected
  | x :: _ =>
    if x == '=' || x == ':' then .read () (c.drop 1) else .final .objectValue (c.offset + 1)

/-- What separates an item of an object from the next: nothing at the closing brace, else a
comma or the end of the line. -/
def objectSeparator : Parser Unit := fun c =>
  match c.rest with
  | [] => .undone .unexpected
  | '\x7d' :: _ => .read () c
  | ',' :: _ => .read () (c.drop 1)
  | x :: _ =>
    if x == '\n' || x == '\r' then (do let _ ← lineBreak) c
    else if x == '#' || x == '/' then (do lineComment; let _ ← lineBreak) c
    else .final .objectItem c.offset

/-- A key and its value. -/
def objectItem (level : Level) : Parser (Expr × Expr) := do
  let key ← level.expr .line
  skip false
  objectSign
  skip false
  let value ← level.expr .line
  skip false
  objectSeparator
  return (key, value)

/-- The items of an object up to its closing brace, at most one for every character of
`limit`. A failure in an item is one of the object. -/
def objectItems (level : Level) : List Char → Parser (List (Expr × Expr))
  | [] => fail
  | _ :: limit => do
    skip true
    let more ← optional (notAhead (· == '\x7d'))
    if more.isSome then
      let item ← objectItem level
      let rest ← objectItems level limit
      return item :: rest
    else return []

/-- Puts an entry into the slot of an entry whose key is the same but for its layout, or
behind the others. -/
def putEntry (entry : Expr × Expr) : List (Expr × Expr) → List (Expr × Expr)
  | [] => [entry]
  | other :: rest =>
    if other.1.marks = entry.1.marks then entry :: rest else other :: putEntry entry rest

/-- The entries of an object: a later item takes the slot of an earlier one with the same
key. -/
def entriesOf (items : List (Expr × Expr)) : List (Expr × Expr) :=
  items.foldl (fun entries item => putEntry item entries) []

/-- The items of an object, behind the opening brace. -/
def objectItemsForm (level : Level) : Parser Form := fun c =>
  (do let items ← objectItems level (' ' :: c.rest)
      return .object (entriesOf items) : Parser Form) c

/-- An object, and the setting for what follows it. -/
def objectForm (level : Level) (setting : Setting) : Parser (Form × Setting) := do
  let _ ← char '\x7b'
  let result ← fun c =>
    if startsFor c then
      (do let form ← objectForForm level setting.withBreaks
          return (form, setting.withBreaks) : Parser (Form × Setting)) c
    else
      (do let form ← objectItemsForm level
          return (form, setting) : Parser (Form × Setting)) c
  demandWord "\x7d"
  return result

/-! ## Names and calls -/

/-- The end of a call's arguments: a trailing comma, or the dots that spread the last
argument. -/
def argumentsEnd : Parser Bool := fun c =>
  match c.rest with
  | ',' :: _ => .read false (c.drop 1)
  | '.' :: _ => (do demandWord ".."; return true : Parser Bool) (c.drop 1)
  | _ => .undone .unexpected

/-- The arguments of a call, and whether the last one is spread. -/
def arguments (level : Level) (setting : Setting) : Parser (List Expr × Bool) := do
  demandWord "("
  let result ← optional do
    let arguments ← separated1 do
      skip true
      notAhead fun x => x == ',' || x == '.' || x == ')'
      let argument ← level.expr setting
      skip true
      return argument
    let spread ← optional argumentsEnd
    return (arguments, spread.getD false)
  skip true
  demand .callEnd (word [')'])
  return result.getD ([], false)

/-- One more name behind a double colon. -/
def namespacePart (breaks : Bool) : Parser String := do
  skip breaks
  word [':', ':']
  skip breaks
  demandIdentifier

/-- A name as a term. -/
def nameForm : String → Form
  | "null" => .null
  | "true" => .bool true
  | "false" => .bool false
  | name => .variable name

/-- A name or a call, and the setting for what follows it. A single parenthesis at the end
of the text opens no call. -/
def nameOrCall (level : Level) (setting : Setting) : Parser (Form × Setting) := do
  let name ← identifier
  let call (names : List String) : Parser (Form × Setting) := do
    skip setting.breaks
    let (arguments, spread) ← arguments level setting.withBreaks
    return (.call names arguments spread, setting.withBreaks)
  fun c =>
    match (afterBlanks setting.breaks c).rest with
    -- Behind a double colon only a call can follow.
    | ':' :: ':' :: _ =>
      (do let more ← many1 (namespacePart setting.breaks)
          call (name :: more) : Parser (Form × Setting)) c
    | '(' :: _ :: _ => call [name] c
    | _ => .read (nameForm name, setting) c

/-! ## Signs and terms -/

/-- Keeps the extent of a form and the setting that goes with it. -/
def markedWith (p : Parser (Form × Setting)) : Parser (Expr × Setting) := fun c =>
  match p c with
  | .read (form, setting) next =>
    .read (.mk ⟨c.offset, String.ofList (c.upTo next)⟩ form, setting) next
  | .undone complaint => .undone complaint
  | .final complaint place => .final complaint place

/-- A sign and its term. -/
def signed (level : Level) (setting : Setting) (sign : Char) (op : UnaryOp) :
    Parser (Form × Setting) := do
  let _ ← char sign
  skip false
  let (operand, setting) ← level.term setting
  return (.unary op operand, setting)

/-- A term, and the setting for the rest of its expression. Its first character tells what
kind it is. -/
def termAt (level : Level) (setting : Setting) : Parser (Expr × Setting) := fun c =>
  let plain (p : Parser Form) : Parser (Form × Setting) := do return (← p, setting)
  match c.rest with
  | [] => .undone .unexpected
  | x :: _ =>
    if x == '"' then markedWith (plain (quotedForm level)) c
    else if x == '[' then
      markedWith (do return (← listForm level setting.withBreaks, setting.withBreaks)) c
    else if x == '\x7b' then markedWith (objectForm level setting) c
    else if x == '<' then markedWith (plain (heredocForm level)) c
    else if x == '(' then markedWith (plain (parensForm level)) c
    else if x == '-' then
      markedWith (choice (plain (do return .number (← negativeNumber)))
        (signed level setting '-' .minus)) c
    else if x == '!' then markedWith (signed level setting '!' .not) c
    else if x.isDigit then markedWith (plain (do return .number (← number))) c
    else if isIdentifierStart x then markedWith (nameOrCall level setting) c
    else .final .expression c.offset

end HclLint.Hcl.Grammar
