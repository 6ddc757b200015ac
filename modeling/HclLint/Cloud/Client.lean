/-
# The account in the cloud

What is known to exist in the account, and why that may not be known.

Why a text does not decode is told by the library that decodes it, in words that are none of the
program's. They are no part of the model: a message that quotes them goes up to where they start.
-/

import HclLint.Files.Tree

namespace HclLint.Cloud

open HclLint.Files

/-- Why the state of the account is not known. -/
inductive CloudError where
  | unavailable
  | unreadable (path : String) (fault : ReadFault)
  /-- The file at the path is no snapshot of an account. -/
  | undecodable (path : String)
  /-- A service refused to answer. -/
  | refused (service message : String)
  deriving DecidableEq, Repr

/-- The wording of an error, up to the words of a decoder. -/
def CloudError.message : CloudError → String
  | .unavailable => "no cloud state client is configured"
  | .unreadable path fault => s!"unable to read cloud state from {path}: {fault.message}"
  | .undecodable path => s!"unable to decode cloud state from {path}"
  | .refused service message => s!"{service} query failed: {message}"

/-- What can be asked about an account: the ids of its security groups and of its
subnets. -/
structure CloudClient where
  securityGroups : Except CloudError (List String)
  subnets : Except CloudError (List String)

/-- The state of an account at some time. -/
structure Snapshot where
  securityGroups : List String
  subnets : List String
  deriving DecidableEq, Repr

/-- The client that answers from a snapshot. -/
def Snapshot.client (s : Snapshot) : CloudClient := ⟨.ok s.securityGroups, .ok s.subnets⟩

end HclLint.Cloud
