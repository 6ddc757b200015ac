/-
# Values

What an attribute or a variable holds: a token, a list of values, or values under keys.
Lists and objects are taken apart as far as they are written out; every other expression is
kept as a token.

## Main definitions

* `Value`, and `Value.ofExpr` for the value of an expression.
* `bodyEntries`: the values of a nested block's structures, under their names.
* `addBlock`: another block under a name that may be taken already.
-/

import HclLint.Text.Blank
import HclLint.Text.Source
import HclLint.Hcl.Body
import HclLint.Model.Entries
import HclLint.Model.Token

namespace HclLint.Model

open HclLint.Text HclLint.Hcl

/-- A token, a list, or values under keys. -/
inductive Value where
  | scalar (token : Token)
  | list (items : List Value)
  | map (entries : List (String × Value))
  deriving Inhabited

namespace Value

/-- The token of a scalar. -/
def scalar? : Value → Option Token
  | .scalar token => some token
  | _ => none

/-- The items of a list. -/
def list? : Value → Option (List Value)
  | .list items => some items
  | _ => none

/-- The entries of a map. -/
def map? : Value → Option (Entries Value)
  | .map entries => some entries
  | _ => none

/-- Whether a value is a map. -/
def isMap : Value → Bool
  | .map _ => true
  | _ => false

/-- The name of a value's shape. -/
def typeName : Value → String
  | .scalar _ => "scalar"
  | .list _ => "list"
  | .map _ => "map"

end Value

/-- The text of an expression as it is kept, without blanks at its ends. -/
def keptText (e : Expr) : String := String.ofList (trim e.text.toList)

/-- The key of an object's entry: a bare name, the text of a plain string, or the
expression as it is written. -/
def objectKey (key : Expr) : String :=
  match key.form with
  | .variable name => name
  | .string text => text
  | _ => keptText key

/-- The token of an expression in a file. -/
def tokenOf (source : Source) (e : Expr) : Token :=
  ⟨.ofExpr e, keptText e, source.positionAt e.start⟩

mutual

/-- The value of an expression in a file. -/
def Value.ofExpr (source : Source) : Expr → Value
  | .mk extent form => Value.ofForm source (tokenOf source (.mk extent form)) form

/-- The value of an expression's form, which is the given token unless it is a list or an
object. -/
def Value.ofForm (source : Source) (token : Token) : Form → Value
  | .list items => .list (Value.ofItems source items)
  | .object entries => .map (Value.ofEntries source [] entries)
  | _ => .scalar token

/-- The values of a list's items. -/
def Value.ofItems (source : Source) : List Expr → List Value
  | [] => []
  | item :: rest => Value.ofExpr source item :: Value.ofItems source rest

/-- The values of an object's entries, behind those read before. -/
def Value.ofEntries (source : Source) (before : Entries Value) :
    List (Expr × Expr) → Entries Value
  | [] => before
  | (key, value) :: rest =>
    Value.ofEntries source (before.put (objectKey key) (Value.ofExpr source value)) rest

end

/-- Adds a block's value under its name. A list of maps under the name grows by it, and any
other value is put into a list with it. -/
def addBlock (name : String) (value : Value) (entries : Entries Value) : Entries Value :=
  match entries.get? name with
  | none => entries.put name value
  | some (.list items) =>
    if items.all Value.isMap then entries.put name (.list (items ++ [value]))
    else entries.put name (.list [.list items, value])
  | some before => entries.put name (.list [before, value])

/-- Adds the value of a structure under its name: an attribute replaces what is there, and a
block joins it. -/
def addItem (item : Item) (value : Value) (entries : Entries Value) : Entries Value :=
  match item with
  | .attribute key _ => entries.put key value
  | .block _ kind _ _ => addBlock kind value entries

mutual

/-- The value of a structure: that of an attribute's expression, or the entries of a block's
body. -/
def Value.ofItem (source : Source) : Item → Value
  | .attribute _ e => Value.ofExpr source e
  | .block _ _ _ body => .map (bodyEntries source [] body)

/-- The values of a body's structures under their names, behind those read before. -/
def bodyEntries (source : Source) (before : Entries Value) : List Item → Entries Value
  | [] => before
  | item :: rest =>
    bodyEntries source (addItem item (Value.ofItem source item) before) rest

end

end HclLint.Model
