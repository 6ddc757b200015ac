/-
# Detectors

A detector inspects the resources of one type. Before a run it may prepare itself, which
can fail; it keeps what it learns in a memory of its own. What it finds becomes an issue
under its name and severity.

## Main definitions

* `DetectorId`, with the built-in names told apart from all others.
* `Severity` and `Issue`.
* `Detector`: how one prepares and how it inspects.
-/

import HclLint.Cloud.Client
import HclLint.Eval.Variables

namespace HclLint.Lint

open HclLint.Text HclLint.Model HclLint.Eval HclLint.Cloud

/-- The detectors that come with the program. -/
inductive BuiltinDetector where
  | instancePreviousType | metricAlarmInvalidUnit | elbInvalidSubnet | albInvalidSecurityGroup
  deriving DecidableEq, Repr

namespace BuiltinDetector

/-- The built-in detectors in the order in which they run. -/
def all : List BuiltinDetector :=
  [.instancePreviousType, .metricAlarmInvalidUnit, .elbInvalidSubnet, .albInvalidSecurityGroup]

/-- The name of a built-in detector. -/
def name : BuiltinDetector → String
  | .instancePreviousType => "aws_instance_previous_type"
  | .metricAlarmInvalidUnit => "aws_cloudwatch_metric_alarm_invalid_unit"
  | .elbInvalidSubnet => "aws_elb_invalid_subnet"
  | .albInvalidSecurityGroup => "aws_alb_invalid_security_group"

/-- What a built-in detector checks. -/
def description : BuiltinDetector → String
  | .instancePreviousType => "Warns about previous generation EC2 instance types"
  | .metricAlarmInvalidUnit => "Checks that metric alarm units are valid CloudWatch units"
  | .elbInvalidSubnet => "Checks that load balancer subnets exist in the account"
  | .albInvalidSecurityGroup => "Checks that load balancer security groups exist in the account"

/-- The built-in detector with a name. -/
def ofName? (name : String) : Option BuiltinDetector := all.find? (·.name == name)

/-- The list of built-in detectors is complete. -/
theorem mem_all (b : BuiltinDetector) : b ∈ all := by cases b <;> decide

/-- A name is read back as what it is the name of. -/
theorem ofName?_name (b : BuiltinDetector) : ofName? b.name = some b := by
  cases b <;> decide

/-- No two built-in detectors have the same name. -/
theorem name_injective {a b : BuiltinDetector} (h : a.name = b.name) : a = b := by
  have same : ofName? a.name = ofName? b.name := congrArg ofName? h
  rw [ofName?_name, ofName?_name] at same
  exact Option.some.inj same

end BuiltinDetector

/-- A detector's identity. A name given to another detector does not make it a built-in
one. -/
inductive DetectorId where
  | builtin (detector : BuiltinDetector)
  | custom (name : String)
  deriving DecidableEq, Repr

namespace DetectorId

/-- The name of a detector. -/
def name : DetectorId → String
  | .builtin detector => detector.name
  | .custom name => name

/-- Whether a detector is built in. -/
def isBuiltin : DetectorId → Bool
  | .builtin _ => true
  | .custom _ => false

/-- What a detector checks, as far as it is built in. -/
def description? : DetectorId → Option String
  | .builtin detector => some detector.description
  | .custom _ => none

/-- The detector that a name stands for: the built-in one if there is one. -/
def ofName (name : String) : DetectorId :=
  match BuiltinDetector.ofName? name with
  | some detector => .builtin detector
  | none => .custom name

/-- An identity has the name that it was made from. -/
@[simp]
theorem name_ofName (text : String) : (ofName text).name = text := by
  unfold ofName
  split
  · next detector h => simpa [name] using List.find?_some h
  · rfl

end DetectorId

/-- How serious an issue is. -/
inductive Severity where
  | error | warning | notice
  deriving DecidableEq, Repr

namespace Severity

/-- The severities. -/
def all : List Severity := [.error, .warning, .notice]

/-- The name of a severity in capitals. -/
def name : Severity → String
  | .error => "ERROR"
  | .warning => "WARNING"
  | .notice => "NOTICE"

/-- The name of a severity in small letters. -/
def label : Severity → String
  | .error => "error"
  | .warning => "warning"
  | .notice => "notice"

/-- The severity with a name in capitals. -/
def ofName? (name : String) : Option Severity := all.find? (·.name == name)

/-- The severity with a name in letters of any case. -/
def ofText? (text : String) : Option Severity :=
  ofName? (String.ofList (text.toList.map Char.toUpper))

/-- A name is read back as what it is the name of. -/
theorem ofName?_name (s : Severity) : ofName? s.name = some s := by cases s <;> decide

end Severity

/-- What a detector found, and where. -/
structure Issue where
  severity : Severity
  message : String
  file : String
  line : Nat
  column : Nat
  detector : DetectorId
  deriving DecidableEq, Repr

/-- What a detector may consult besides a resource. -/
structure Context where
  table : VariableTable
  cloud? : Option CloudClient

/-- The client for the account in the cloud. -/
def Context.cloud (context : Context) : Except CloudError CloudClient :=
  match context.cloud? with
  | some client => .ok client
  | none => .error .unavailable

/-- What an inspection yields, in order: findings and notes. -/
inductive Remark where
  | finding (position : Position) (message : String)
  | note (entry : LogEntry)

/-- A detector with a memory. A preparation leaves a memory behind whether or not it
fails. -/
structure Detector (μ : Type) where
  id : DetectorId
  /-- The type of the resources that it inspects. -/
  target : String
  severity : Severity
  /-- Whether it needs the state of the cloud. -/
  isDeep : Bool
  prepare : Context → μ → Except CloudError PUnit × μ
  inspect : Context → μ → Resource → List Remark

namespace Detector

variable {μ : Type}

/-- The issue that a finding of a detector is. -/
def issue (d : Detector μ) (position : Position) (message : String) : Issue :=
  ⟨d.severity, message, position.file, position.line, position.column, d.id⟩

/-- The issues among a detector's remarks. -/
def issuesOf (d : Detector μ) (remarks : List Remark) : List Issue :=
  remarks.filterMap fun
    | .finding position message => some (d.issue position message)
    | .note _ => none

end Detector

end HclLint.Lint
