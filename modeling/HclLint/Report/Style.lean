/-
# Styled text

Text with the escape sequences that make a terminal show it in a colour or a face.
-/

namespace HclLint.Report

/-- What a text can be styled with. -/
inductive Face where
  | bold | dimmed | underlined | red | green | yellow | blue
  deriving DecidableEq, Repr

/-- The number of a face in an escape sequence. -/
def Face.code : Face → Nat
  | .bold => 1
  | .dimmed => 2
  | .underlined => 4
  | .red => 31
  | .green => 32
  | .yellow => 33
  | .blue => 34

/-- A text in some faces, plain where colours are not wanted. -/
def styled (colour : Bool) (faces : List Face) (text : String) : String :=
  if colour then
    "\x1b[" ++ String.intercalate ";" (faces.map fun face => toString face.code) ++ "m" ++ text ++
      "\x1b[0m"
  else text

/-- Without color a text is written as it is. -/
@[simp]
theorem styled_false (faces : List Face) (text : String) : styled false faces text = text := rfl

end HclLint.Report
