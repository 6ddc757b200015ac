/-
# Probes

Detectors made to order, which report what they see of every resource: its identity, or
the value of one attribute. They serve to watch a registry at work.
-/

import HclLint.Lint.Rules

namespace HclLint.Lint

open HclLint.Text HclLint.Model HclLint.Eval HclLint.Cloud

/-- The description of a probe. -/
structure Probe where
  name : String
  target : String
  severity : Severity
  isDeep : Bool
  /-- With what message its preparation is refused, if it is. -/
  refusal? : Option String
  /-- Whether it asks for the security groups of the account. -/
  asksCloud : Bool
  /-- The attribute whose value it reports, if not the resource itself. -/
  attributeName? : Option String

namespace Probe

/-- Prepares a probe. -/
def prepare (probe : Probe) (context : Context) (known : KnownIds) :
    Except CloudError PUnit × KnownIds :=
  match probe.refusal? with
  | some message => (.error (.refused "ec2" message), known)
  | none =>
    if probe.asksCloud then
      match context.cloud >>= (·.securityGroups) with
      | .ok ids => (.ok ⟨⟩, ids)
      | .error error => (.error error, known)
    else (.ok ⟨⟩, known)

/-- What a probe reports of a resource. -/
def inspect (probe : Probe) (context : Context) (known : KnownIds) (resource : Resource) :
    List Remark :=
  match probe.attributeName? with
  | none =>
    [.finding resource.position
      (resource.key.type ++ "." ++ resource.key.id ++ " groups=" ++ toString known.length)]
  | some name =>
    match resource.token? name with
    | none => []
    | some token =>
      match resolveScalar context.table token with
      | .ok text => [.finding token.position text]
      | .error error => [.finding token.position ("! " ++ error.message)]

/-- The detector that a probe is. -/
def detector (probe : Probe) : Detector KnownIds where
  id := .custom probe.name
  target := probe.target
  severity := probe.severity
  isDeep := probe.isDeep
  prepare := probe.prepare
  inspect := probe.inspect

end Probe

end HclLint.Lint
