/-
# Expressions

The tree of an HCL expression. Every node keeps its extent, the byte offset where it
starts and the exact characters it was read from, so that a part of an expression can be
quoted or read again on its own.

## Main definitions

* `Extent`, `Expr`, `Form`, `Part`, `Step`: the tree.
* `Expr.marks`: an expression without blanks, comments and spellings, as a sequence in
  which every node announces the number of its children. Two expressions are the same up
  to layout exactly when their marks agree.
-/

import HclLint.Hcl.Numeral

namespace HclLint.Hcl

/-- A stretch of a text: its byte offset and its characters. -/
structure Extent where
  start : Nat
  text : String
  deriving DecidableEq, Repr, Inhabited

/-- The operators written before their operand. -/
inductive UnaryOp where
  | minus | not
  deriving DecidableEq, Repr

/-- The operators written between their operands. -/
inductive BinaryOp where
  | eq | ne | le | lt | ge | gt | plus | minus | times | div | mod | and | or
  deriving DecidableEq, Repr

/-- Whether a tag of a template trims the text on its left and on its right. -/
structure Trim where
  left : Bool
  right : Bool
  deriving DecidableEq, Repr, Inhabited

mutual

/-- An expression and where it was written. -/
inductive Expr where
  | mk (extent : Extent) (form : Form)

/-- What an expression consists of. -/
inductive Form where
  | null
  | bool (value : Bool)
  | number (value : Numeral)
  | string (value : String)
  | template (parts : List Part)
  | heredoc (delimiter : String) (parts : List Part)
  | list (items : List Expr)
  | object (entries : List (Expr × Expr))
  | parens (inner : Expr)
  | variable (name : String)
  | conditional (test yes no : Expr)
  | call (name : List String) (arguments : List Expr) (spread : Bool)
  | traversal (root : Expr) (path : List Step)
  | unary (op : UnaryOp) (operand : Expr)
  | binary (op : BinaryOp) (left right : Expr)
  | listFor (names : List String) (collection item : Expr) (filter : Option Expr)
  | objectFor (names : List String) (collection key value : Expr) (grouped : Bool)
      (filter : Option Expr)

/-- A part of a template: text, the value of an expression, or a directive. -/
inductive Part where
  | literal (text : String)
  | interpolation (trim : Trim) (inner : Expr)
  | branch (test : Expr) (yes : List Part) (no : Option (List Part)) (trims : List Trim)
  | loop (names : List String) (collection : Expr) (body : List Part) (trims : List Trim)

/-- One step into a value. -/
inductive Step where
  | attribute (name : String)
  | legacyIndex (index : Nat)
  | index (key : Expr)
  | attributeSplat
  | fullSplat

end

namespace Expr

/-- Where the expression was written. -/
def extent : Expr → Extent
  | mk extent _ => extent

/-- The expression without its extent. -/
def form : Expr → Form
  | mk _ form => form

/-- The characters of the expression. -/
def text (e : Expr) : String := e.extent.text

/-- The byte offset where the expression starts. -/
def start (e : Expr) : Nat := e.extent.start

end Expr

/-- One mark of an expression's outline: a node with the number of its children, or what a
leaf holds. -/
inductive Mark where
  | node (label : String) (children : Nat)
  | name (text : String)
  | numeral (value : Numeral)
  | unary (op : UnaryOp)
  | binary (op : BinaryOp)
  | trim (trim : Trim)
  | flag (value : Bool)
  | index (value : Nat)
  deriving DecidableEq, Repr

/-- The outline of a sequence of names. -/
def nameMarks (names : List String) : List Mark :=
  .node "names" names.length :: names.map .name

mutual

/-- The outline of an expression, in which layout and extents play no role. -/
def Expr.marks : Expr → List Mark
  | .mk _ form => form.marks

def Form.marks : Form → List Mark
  | .null => [.node "null" 0]
  | .bool value => [.node "bool" 1, .flag value]
  | .number value => [.node "number" 1, .numeral value]
  | .string value => [.node "string" 1, .name value]
  | .template parts => .node "template" parts.length :: partsMarks parts
  | .heredoc delimiter parts =>
    .node "heredoc" parts.length :: .name delimiter :: partsMarks parts
  | .list items => .node "list" items.length :: itemsMarks items
  | .object entries => .node "object" entries.length :: entriesMarks entries
  | .parens inner => .node "parens" 1 :: inner.marks
  | .variable name => [.node "variable" 1, .name name]
  | .conditional test yes no => .node "conditional" 3 :: (test.marks ++ yes.marks ++ no.marks)
  | .call name arguments spread =>
    .node "call" arguments.length :: .flag spread :: (nameMarks name ++ itemsMarks arguments)
  | .traversal root path => .node "traversal" path.length :: (root.marks ++ pathMarks path)
  | .unary op operand => .node "unary" 1 :: .unary op :: operand.marks
  | .binary op left right => .node "binary" 2 :: .binary op :: (left.marks ++ right.marks)
  | .listFor names collection item filter =>
    .node "listFor" 2 :: (nameMarks names ++ collection.marks ++ item.marks ++ filterMarks filter)
  | .objectFor names collection key value grouped filter =>
    .node "objectFor" 3 :: .flag grouped ::
      (nameMarks names ++ collection.marks ++ key.marks ++ value.marks ++ filterMarks filter)

def Part.marks : Part → List Mark
  | .literal text => [.node "literal" 1, .name text]
  | .interpolation trim inner => .node "interpolation" 1 :: .trim trim :: inner.marks
  | .branch test yes no trims =>
    .node "branch" yes.length :: (trims.map .trim ++ test.marks ++ partsMarks yes ++ elseMarks no)
  | .loop names collection body trims =>
    .node "loop" body.length ::
      (trims.map .trim ++ nameMarks names ++ collection.marks ++ partsMarks body)

def Step.marks : Step → List Mark
  | .attribute name => [.node "attribute" 1, .name name]
  | .legacyIndex index => [.node "legacyIndex" 1, .index index]
  | .index key => .node "index" 1 :: key.marks
  | .attributeSplat => [.node "attributeSplat" 0]
  | .fullSplat => [.node "fullSplat" 0]

def partsMarks : List Part → List Mark
  | [] => []
  | part :: rest => part.marks ++ partsMarks rest

def itemsMarks : List Expr → List Mark
  | [] => []
  | item :: rest => item.marks ++ itemsMarks rest

def entriesMarks : List (Expr × Expr) → List Mark
  | [] => []
  | (key, value) :: rest => key.marks ++ value.marks ++ entriesMarks rest

def pathMarks : List Step → List Mark
  | [] => []
  | step :: rest => step.marks ++ pathMarks rest

def filterMarks : Option Expr → List Mark
  | none => [.flag false]
  | some test => .flag true :: test.marks

def elseMarks : Option (List Part) → List Mark
  | none => [.flag false]
  | some parts => .node "else" parts.length :: partsMarks parts

end

end HclLint.Hcl
