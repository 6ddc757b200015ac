/-
# Built-in rules

The checks that come with the program. A value rule judges an attribute that is one text.
An existence rule looks up every element of an attribute that is a list in what exists in
the account. What cannot be resolved is noted and passed over.

## Main definitions

* `ValueRule` and `ExistenceRule`, and the detectors they make.
* `builtinDetectors` and `builtinRegistry`.
-/

import HclLint.Eval.Resolve
import HclLint.Lint.Registry

namespace HclLint.Lint

open HclLint.Text HclLint.Model HclLint.Eval HclLint.Cloud

/-- Ids that are known to exist. -/
abbrev KnownIds : Type := List String

/-- The note on a token that cannot be resolved. -/
def skipped (id : DetectorId) (token : Token) (error : EvalError) : Remark :=
  .note ⟨.debug, .rules,
    id.name ++ ": skipping value at " ++ token.position.toText ++ ": " ++ error.message⟩

/-- Judges the text of a token: a text that offends is found at the token. -/
def judge (id : DetectorId) (offends : String → Bool) (message : String → String)
    (table : VariableTable) (token : Token) : List Remark :=
  match resolveScalar table token with
  | .ok text => if offends text then [.finding token.position (message text)] else []
  | .error error => [skipped id token error]

/-- A rule on the text of an attribute. -/
structure ValueRule where
  builtin : BuiltinDetector
  target : String
  severity : Severity
  attributeName : String
  offends : String → Bool
  message : String → String

namespace ValueRule

/-- What a rule remarks on a resource. -/
def inspect (rule : ValueRule) (context : Context) (resource : Resource) : List Remark :=
  match resource.token? rule.attributeName with
  | none => []
  | some token =>
    judge (.builtin rule.builtin) rule.offends rule.message context.table token

/-- The detector of a rule, which needs no preparation. -/
def detector (rule : ValueRule) : Detector KnownIds where
  id := .builtin rule.builtin
  target := rule.target
  severity := rule.severity
  isDeep := false
  prepare _ known := (.ok ⟨⟩, known)
  inspect context _ resource := rule.inspect context resource

end ValueRule

/-- A rule on the elements of an attribute, which must exist in the account. -/
structure ExistenceRule where
  builtin : BuiltinDetector
  target : String
  attributeName : String
  query : CloudClient → Except CloudError (List String)
  message : String → String

namespace ExistenceRule

/-- The note on an attribute that is no list. -/
def unresolved (rule : ExistenceRule) (resource : Resource) (error : EvalError) : Remark :=
  .note ⟨.warn, .rules,
    rule.builtin.name ++ ": cannot evaluate " ++ resource.key.type ++ "." ++ resource.key.id ++
      "." ++ rule.attributeName ++ ": " ++ error.message⟩

/-- What a rule remarks on a resource, given what exists. -/
def inspect (rule : ExistenceRule) (context : Context) (known : KnownIds)
    (resource : Resource) : List Remark :=
  match resource.attribute? rule.attributeName with
  | none => []
  | some given =>
    match resolveListAttribute context.table given with
    | .error error => [rule.unresolved resource error]
    | .ok tokens =>
      tokens.flatMap <| judge (.builtin rule.builtin) (fun text => !known.contains text)
        rule.message context.table

/-- Fetches what exists. A failure leaves the memory as it was. -/
def prepare (rule : ExistenceRule) (context : Context) (known : KnownIds) :
    Except CloudError PUnit × KnownIds :=
  match context.cloud >>= rule.query with
  | .ok ids => (.ok ⟨⟩, ids)
  | .error error => (.error error, known)

/-- The detector of a rule. -/
def detector (rule : ExistenceRule) : Detector KnownIds where
  id := .builtin rule.builtin
  target := rule.target
  severity := .error
  isDeep := true
  prepare := rule.prepare
  inspect := rule.inspect

end ExistenceRule

/-- Instance types of earlier generations. -/
def previousInstanceTypes : List String :=
  ["t1.micro", "m1.small", "m1.medium", "m1.large", "m1.xlarge", "c1.medium", "c1.xlarge",
    "cc2.8xlarge", "cg1.4xlarge", "m2.xlarge", "m2.2xlarge", "m2.4xlarge", "cr1.8xlarge",
    "hi1.4xlarge", "hs1.8xlarge"]

/-- The units that a metric may have. -/
def metricUnits : List String :=
  ["Seconds", "Microseconds", "Milliseconds", "Bytes", "Kilobytes", "Megabytes", "Gigabytes",
    "Terabytes", "Bits", "Kilobits", "Megabits", "Gigabits", "Terabits", "Percent", "Count",
    "Bytes/Second", "Kilobytes/Second", "Megabytes/Second", "Gigabytes/Second",
    "Terabytes/Second", "Bits/Second", "Kilobits/Second", "Megabits/Second", "Gigabits/Second",
    "Terabits/Second", "Count/Second", "None"]

/-- A text between quotes, as it is, before the rest of a message. -/
def about (text rest : String) : String := "\"" ++ text ++ "\" is " ++ rest

/-- An instance should not be of a previous generation. -/
def instancePreviousType : ValueRule where
  builtin := .instancePreviousType
  target := "aws_instance"
  severity := .warning
  attributeName := "instance_type"
  offends text := previousInstanceTypes.contains text
  message text := about text "previous generation instance type."

/-- The unit of a metric alarm must be one of the known units. -/
def metricAlarmInvalidUnit : ValueRule where
  builtin := .metricAlarmInvalidUnit
  target := "aws_cloudwatch_metric_alarm"
  severity := .error
  attributeName := "unit"
  offends text := !metricUnits.contains text
  message text := about text "invalid unit."

/-- The subnets of a load balancer must exist. -/
def elbInvalidSubnet : ExistenceRule where
  builtin := .elbInvalidSubnet
  target := "aws_elb"
  attributeName := "subnets"
  query client := client.subnets
  message text := about text "invalid subnet ID."

/-- The security groups of a load balancer must exist. -/
def albInvalidSecurityGroup : ExistenceRule where
  builtin := .albInvalidSecurityGroup
  target := "aws_alb"
  attributeName := "security_groups"
  query client := client.securityGroups
  message text := about text "invalid security group."

/-- The detector of a built-in name. -/
def BuiltinDetector.detector : BuiltinDetector → Detector KnownIds
  | .instancePreviousType => Lint.instancePreviousType.detector
  | .metricAlarmInvalidUnit => Lint.metricAlarmInvalidUnit.detector
  | .elbInvalidSubnet => Lint.elbInvalidSubnet.detector
  | .albInvalidSecurityGroup => Lint.albInvalidSecurityGroup.detector

/-- A built-in detector is listed under its own identity. -/
@[simp]
theorem BuiltinDetector.id_detector (b : BuiltinDetector) : b.detector.id = .builtin b := by
  cases b <;> rfl

/-- The built-in detectors in the order in which they run. -/
def builtinDetectors : List (Detector KnownIds) := BuiltinDetector.all.map (·.detector)

/-- The registry of the built-in detectors, to which nothing is known yet. -/
def builtinRegistry : Registry KnownIds := .ofList builtinDetectors []

end HclLint.Lint
