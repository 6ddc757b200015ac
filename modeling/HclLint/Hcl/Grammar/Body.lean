/-
# Bodies

A body is a sequence of attributes and blocks, each on its own line. A block either opens a
body of its own on the lines that follow, or holds at most one attribute on one line.
-/

import HclLint.Hcl.Body
import HclLint.Hcl.Grammar.Expression

namespace HclLint.Hcl.Grammar

open HclLint.Text HclLint.Hcl.Parser

/-- What a block's body is read from: expressions, and bodies nested less deep. -/
structure BodyLevel where
  expr : Parser Expr
  body : Parser Body

/-- A label, quoted or bare. -/
def label : Parser String := do
  let text ← choice
    (do match ← stringForm with
        | .string text => return text
        | _ => fail)
    identifier
  skip false
  return text

/-- The end of a line, or of the text. -/
def lineEnd : Parser Unit := fun c =>
  if c.rest.isEmpty then .read () c else (do let _ ← lineBreak) c

/-- The body of a block on its own lines, behind the opening brace. -/
def openBody (level : BodyLevel) : Parser Body := do
  skip false
  let _ ← optional lineComment
  let _ ← lineBreak
  level.body

/-- The body of a block on one line, behind the opening brace. -/
def lineBody (level : BodyLevel) : Parser Body := do
  let single ← optional do
    skip false
    let key ← identifier
    skip false
    demand .attribute (do let _ ← char '=')
    skip false
    let value ← level.expr
    skip false
    return Item.attribute key value
  skip false
  return single.toList

/-- A block from its opening brace on. -/
def blockBody (level : BodyLevel) : Parser Body := do
  demandWord "\x7b"
  let body ← choice (openBody level) (lineBody level)
  demand .blockBody (word ['\x7d'])
  return body

/-- An attribute or a block. An attribute's key must not be among those `seen` before. -/
def item (level : BodyLevel) (seen : List String) : Parser Item := fun c =>
  (do let name ← identifier
      skip false
      fun next =>
        match next.rest with
        | [] => .undone .unexpected
        | x :: _ =>
          if x == '=' then
            if seen.contains name then .final .repeatedAttribute c.offset
            else
              (do skip false
                  let value ← level.expr
                  return .attribute name value : Parser Item) (next.drop 1)
          else if x == '\x7b' then
            (do return .block c.offset name [] (← blockBody level) : Parser Item) next
          else if x == '"' || isIdentifierStart x then
            (do let labels ← many label
                return .block c.offset name labels (← blockBody level) : Parser Item) next
          else .final .item next.offset : Parser Item) c

/-- The attribute keys a structure adds to those of its body. -/
def keysOf : Item → List String
  | .attribute key _ => [key]
  | .block .. => []

/-- The structures of a body, at most one for every character of `limit`, and the blanks
behind them. -/
def items (level : BodyLevel) : List Char → List String → Parser Body
  | [], _ => do skip true; return []
  | _ :: limit, seen => do
    match ← optional (do skip true; item level seen) with
    | none =>
      -- The blanks were given back together with what could not be read.
      skip true
      return []
    | some first =>
      skip false
      let _ ← optional lineComment
      demand .lineEnd lineEnd
      let rest ← items level limit (keysOf first ++ seen)
      return first :: rest

/-- The body that reads expressions with `expr` and nests blocks at most `depth` deep. -/
def bodyOf (expr : Parser Expr) : Nat → Parser Body
  | 0 => fail
  | depth + 1 => fun c =>
    items ⟨expr, fun c => bodyOf expr depth c⟩ (' ' :: c.rest) [] c

end HclLint.Hcl.Grammar
