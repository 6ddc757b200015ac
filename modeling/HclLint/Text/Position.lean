/-
# Positions

Where something stands in a file: the file's name, the byte offset, and the line and
column that a reader counts from one. A position without a file or without a line is
unknown.
-/

namespace HclLint.Text

/-- A place in a named file. -/
structure Position where
  file : String
  offset : Nat
  line : Nat
  column : Nat
  deriving DecidableEq, Repr, Inhabited

namespace Position

/-- The position of what was not read from any file. -/
def unknown : Position := ⟨"", 0, 0, 0⟩

/-- A position is known when it names a file and a line. -/
def isKnown (p : Position) : Bool := p.file != "" && p.line != 0

/-- The written form, `file:line:column`. -/
def toText (p : Position) : String :=
  if p.isKnown then s!"{p.file}:{p.line}:{p.column}" else "<unknown>"

@[simp]
theorem isKnown_unknown : unknown.isKnown = false := rfl

end Position

end HclLint.Text
