/-
# Bodies

The tree of an HCL file: attributes with their values, and blocks with their labels and
their own bodies.
-/

import HclLint.Hcl.Expression

namespace HclLint.Hcl

/-- One structure of a body. A block keeps the byte offset of its identifier. -/
inductive Item where
  | attribute (key : String) (value : Expr)
  | block (start : Nat) (kind : String) (labels : List String) (body : List Item)

/-- The structures of a file or a block, in source order. -/
abbrev Body : Type := List Item

namespace Item

/-- The attribute's name or the block's identifier. -/
def name : Item → String
  | .attribute key _ => key
  | .block _ kind _ _ => kind

/-- Where the structure's value starts: an attribute's expression, or the block itself. -/
def start : Item → Nat
  | .attribute _ value => value.start
  | .block start _ _ _ => start

end Item

end HclLint.Hcl
