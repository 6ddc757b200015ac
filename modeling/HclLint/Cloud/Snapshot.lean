/-
# Snapshots in files

A snapshot is an object with lists of ids under `security_groups` and `subnets`, or an
array of these two lists. A list that is left out is empty, and other members are passed
over.
-/

import HclLint.Cloud.Client
import HclLint.Files.Task
import HclLint.Json.Reader

namespace HclLint.Cloud

open HclLint.Files

/-- The text of a JSON string. -/
def textOf? : Json.Value → Option String
  | .string items => Json.text? items
  | _ => none

/-- The texts in a JSON array of strings. -/
def textsOf? : Json.Value → Option (List String)
  | .array items => items.mapM textOf?
  | _ => none

/-- The list under a name, none where it comes twice or is no list of texts. -/
def listUnder? (name : String) (members : List (String × Json.Value)) : Option (List String) :=
  match members.filter (·.1 == name) with
  | [] => some []
  | [(_, value)] => textsOf? value
  | _ => none

namespace Snapshot

/-- The snapshot that a JSON value describes. -/
def ofJson? : Json.Value → Option Snapshot
  | .object members => do
    let named ← members.mapM fun (key, value) => (Json.text? key).map (·, value)
    return ⟨← listUnder? "security_groups" named, ← listUnder? "subnets" named⟩
  | .array [] => some ⟨[], []⟩
  | .array [groups] => do return ⟨← textsOf? groups, []⟩
  | .array [groups, subnets] => do return ⟨← textsOf? groups, ← textsOf? subnets⟩
  | _ => none

/-- The snapshot that a text describes. -/
def ofText? (text : String) : Option Snapshot := Json.read? text >>= ofJson?

/-- Reads the snapshot in a file. -/
def load (path : String) : Task CloudError Snapshot :=
  .note ⟨.debug, .cloud, s!"reading cloud state snapshot from {path}"⟩ do
    let text ← (Task.readText path).mapError (.unreadable path)
    match ofText? text with
    | some snapshot => pure snapshot
    | none => .fail (.undecodable path)

end Snapshot

end HclLint.Cloud
