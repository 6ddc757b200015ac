/-
# Reading YAML

Documents of scalars, lists and maps, written as blocks or between brackets. Anchors, tags,
block scalars and keys that are no scalars are not taken, nor is more than one document.

## Main definitions

* `readFlow`: a node between brackets or inside of them.
* `readBlock`: a node that is laid out by its indentation.
* `read?`: the node of a document.
-/

import HclLint.Yaml.Node
import HclLint.Yaml.Scalar

namespace HclLint.Yaml

/-- A node and the next token behind it. -/
abbrev Reading : Type := Option (Node × Place)

/-- A quoted or plain scalar, whether it spans lines, and the next token behind it. -/
def readScalar (inFlow : Bool) (indent : Nat) (p : Place) : Option (Node × Bool × Place) := do
  let (isPlain, scalar) ← match p.rest with
    | '"' :: _ => (readDouble (p.advance 1)).map (false, ·)
    | '\'' :: _ => (readSingle (p.advance 1)).map (false, ·)
    | rest => if startsPlain inFlow rest then (readPlain inFlow indent p).map (true, ·) else none
  return (.scalar isPlain scalar.text, scalar.isBroken, skipGap inFlow scalar.after)

mutual

/-- A node inside of brackets. -/
def readFlow : Nat → Place → Reading
  | 0, _ => none
  | depth + 1, p =>
    match p.rest with
    | '[' :: _ => do
      let (items, after) ← readFlowItems depth (skipGap true (p.advance 1))
      return (.list items, after)
    | '\x7b' :: _ => do
      let (entries, after) ← readFlowEntries depth (skipGap true (p.advance 1))
      return (.map entries, after)
    | _ =>
      if p.atEnd then none
      else (readScalar true 0 p).map fun (node, _, after) => (node, after)

/-- The value behind a colon inside of brackets. -/
def readFlowValue : Nat → Place → Reading
  | 0, _ => none
  | depth + 1, p =>
    match p.rest with
    | ',' :: _ | ']' :: _ | '\x7d' :: _ => some (.nothing, p)
    | _ => readFlow depth p

/-- The items of a list through its closing bracket. -/
def readFlowItems : Nat → Place → Option (List Node × Place)
  | 0, _ => none
  | depth + 1, p =>
    match p.rest with
    | ']' :: _ => some ([], (p.advance 1))
    | _ => do
      let (first, after) ← readFlow depth p
      let (item, after) ← match after.rest with
        | ':' :: _ => do
          let (value, after) ← readFlowValue depth (skipGap true (after.advance 1))
          pure (Node.map [(first, value)], after)
        | _ => pure (first, after)
      match after.rest with
      | ',' :: _ =>
        let (items, after) ← readFlowItems depth (skipGap true (after.advance 1))
        return (item :: items, after)
      | ']' :: _ => return ([item], after.advance 1)
      | _ => none

/-- The entries of a map through its closing brace. -/
def readFlowEntries : Nat → Place → Option (List (Node × Node) × Place)
  | 0, _ => none
  | depth + 1, p =>
    match p.rest with
    | '\x7d' :: _ => some ([], (p.advance 1))
    | _ => do
      let (key, after) ← readFlow depth p
      let (value, after) ← match after.rest with
        | ':' :: _ => readFlowValue depth (skipGap true (after.advance 1))
        | _ => pure (Node.nothing, after)
      match after.rest with
      | ',' :: _ =>
        let (entries, after) ← readFlowEntries depth (skipGap true (after.advance 1))
        return ((key, value) :: entries, after)
      | '\x7d' :: _ => return ([(key, value)], after.advance 1)
      | _ => none

end

/-- Whether a list item starts at a place. -/
def startsItem (p : Place) : Bool :=
  match p.rest with
  | '-' :: rest => endsToken rest
  | _ => false

/-- Whether the colon behind a key stands at a place. -/
def startsValue (p : Place) : Bool :=
  match p.rest with
  | ':' :: rest => !p.opens && endsToken rest
  | _ => false

/-- The key at a place, on one line, and the place behind its colon. -/
def readKey (p : Place) : Reading := do
  let (key, broken, after) ← readScalar false 0 p
  if !broken && startsValue after then
    return (key, skipGap false ⟨after.rest.drop 1, after.column + 1, false⟩)
  else none

mutual

/-- A node whose lines are indented at least so far. -/
def readBlock : Nat → Nat → Place → Reading
  | 0, _, _ => none
  | depth + 1, indent, p =>
    if p.atEnd || p.column < indent then some (.nothing, p)
    else if startsItem p then
      if p.opens then
        (readBlockItems depth p.column p).map fun (items, after) => (.list items, after)
      else none
    else if p.opens && (readKey p).isSome then
      (readBlockEntries depth p.column p).map fun (entries, after) => (.map entries, after)
    else
      match p.rest with
      | '[' :: _ | '\x7b' :: _ =>
        (readFlow depth p).map fun (node, after) => (node, skipGap false after)
      | _ => (readScalar false indent p).map fun (node, _, after) => (node, after)

/-- The items of a list in a column. -/
def readBlockItems : Nat → Nat → Place → Option (List Node × Place)
  | 0, _, _ => none
  | depth + 1, column, p => do
    let (item, after) ←
      readBlock depth (column + 1) (skipGap false ⟨p.rest.drop 1, p.column + 1, true⟩)
    if !after.atEnd && after.opens && after.column == column && startsItem after then
      let (items, after) ← readBlockItems depth column after
      return (item :: items, after)
    else return ([item], after)

/-- The entries of a map in a column. The items of a list that is the value of an entry may
stand in the same column. -/
def readBlockEntries : Nat → Nat → Place → Option (List (Node × Node) × Place)
  | 0, _, _ => none
  | depth + 1, column, p => do
    let (key, inner) ← readKey p
    let (value, after) ←
      if inner.opens && !inner.atEnd && inner.column == column && startsItem inner then
        (readBlockItems depth column inner).map fun (items, after) => (Node.list items, after)
      else readBlock depth (column + 1) inner
    if after.atEnd || after.column < column then return ([(key, value)], after)
    else if after.opens && after.column == column then
      let (entries, after) ← readBlockEntries depth column after
      return ((key, value) :: entries, after)
    else none

end

/-- Whether a character may stand in a document. -/
def isAllowed (c : Char) : Bool :=
  let n := c.toNat
  n == 0x09 || n == 0x0A || (0x20 ≤ n && n ≤ 0x7E) || (0xA0 ≤ n && n ≤ 0xFFFD && n != 0xFEFF) ||
    0x10000 ≤ n

/-- A text in which every line ends with a line feed. -/
def unifyBreaks : List Char → List Char
  | [] => []
  | '\r' :: '\n' :: rest => '\n' :: unifyBreaks rest
  | c :: rest =>
    if c = '\r' ∨ c = '\u0085' ∨ c = '\u2028' ∨ c = '\u2029' then '\n' :: unifyBreaks rest
    else c :: unifyBreaks rest

/-- A text without the mark of its byte order. -/
def withoutByteOrderMark : List Char → List Char
  | '\ufeff' :: rest => rest
  | cs => cs

/-- The place behind the mark of a document's start, if it has one. -/
def skipStart (p : Place) : Place :=
  match p.rest with
  | '-' :: _ => if p.atEnd then skipGap false ⟨p.rest.drop 3, 3, false⟩ else p
  | _ => p

/-- Whether nothing follows a document. -/
def isFinished (p : Place) : Bool :=
  match p.rest with
  | '.' :: _ => p.atEnd && (skipGap false ⟨p.rest.drop 3, 3, false⟩).rest.isEmpty
  | rest => rest.isEmpty

/-- The node of a document. No node is entered more often than there are characters, twice
over. -/
def read? (text : String) : Option Node := do
  let cs := unifyBreaks (withoutByteOrderMark text.toList)
  if !cs.all isAllowed then none
  let (node, after) ← readBlock (2 * cs.length + 4) 0 (skipStart (skipGap false ⟨cs, 0, true⟩))
  if isFinished after then some node else none

end HclLint.Yaml
