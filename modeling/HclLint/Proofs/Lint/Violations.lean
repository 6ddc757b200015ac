/-
# Which issues there are

When the account answers and nothing is passed over, the issues are the violations, and each of
them is reported where the text that violates a rule is denoted. An id that exists is reported
nowhere. One that does not exist is reported as often as elements of lists denote it.

## Main definitions

* `issueAbout`: an issue about a text, at the token that denotes it.

## Main statements

* `BuiltinDetector.countP_isAbout_issues`: how often a detector reports a text.
* `issues_exactly_violations`: the issues of a deep run.
-/

import HclLint.Proofs.Lint.Builtin

namespace HclLint.Lint

open HclLint.Model HclLint.Eval HclLint.Cloud

/-- The issue about a text at the token that denotes it, where the message ends in the given
words. -/
def issueAbout (severity : Severity) (b : BuiltinDetector) (rest : String)
    (denoted : Token × String) : Issue where
  severity
  message := "\"" ++ denoted.2 ++ "\" is " ++ rest
  file := denoted.1.position.file
  line := denoted.1.position.line
  column := denoted.1.position.column
  detector := .builtin b

/-- Whether a token denotes a text. -/
def denotes (table : VariableTable) (text : String) (token : Token) : Bool :=
  (resolveScalar table token).toOption == some text

/-- Messages tell texts apart. -/
theorem about_inj {rest text other : String} :
    about text rest = about other rest ↔ text = other := by
  constructor
  · intro same
    have chars := congrArg String.toList same
    simp only [about, String.toList_append, List.append_cancel_right_eq,
      List.append_cancel_left_eq] at chars
    exact String.toList_injective chars
  · rintro rfl
    rfl

theorem countP_denotedTexts (table : VariableTable) (text : String) (tokens : List Token) :
    (denotedTexts table tokens).countP (·.2 == text) = tokens.countP (denotes table text) := by
  unfold denotedTexts
  rw [List.countP_filterMap]
  congr 1
  funext token
  unfold denotes
  cases resolveScalar table token <;> rfl

/-- How often the elements of some resources' lists denote a text. -/
theorem countP_elementTexts (table : VariableTable) (name text : String)
    (resources : List Resource) :
    (resources.flatMap (elementTexts table name)).countP (·.2 == text) =
      (resources.flatMap (elementsOf table name)).countP (denotes table text) := by
  rw [← countP_denotedTexts]
  congr 1
  exact (List.filterMap_flatMap ..).symm

namespace BuiltinDetector

variable (b : BuiltinDetector)

/-- What a detector that is done reports, where it is said what it objects to and how. -/
theorem issues_eq_flatMap_issueAbout (templates : List Template) (context : Context)
    (options : RunOptions) (objects : String → Prop) [DecidablePred objects] {ids : KnownIds}
    {severity : Severity} {rest : String}
    (done : b.verdict options context.cloud? = .done)
    (answered : b.answer context.cloud? = .ok ids)
    (offends : ∀ text, b.offends ids text = decide (objects text))
    (said : ∀ token text, b.issue token text = issueAbout severity b rest (token, text)) :
    b.issues templates context options =
      (resourcesOf templates b.detector.target).flatMap fun r =>
        ((b.texts context.table r).filter fun (_, text) => objects text).map
          (issueAbout severity b rest) := by
  rw [b.issues_of_answer done answered]
  refine List.flatMap_congr fun r _ => ?_
  simp only [violations, offends]
  exact List.map_congr_left fun (token, text) _ => said token text

theorem message_inj {text other : String} : b.message text = b.message other ↔ text = other := by
  cases b <;> exact about_inj

/-- Whether an issue is that of a detector about a text. -/
def isAbout (text : String) (issue : Issue) : Bool :=
  issue.detector == .builtin b && issue.message == b.message text

@[simp]
theorem isAbout_issue {token : Token} {text other : String} :
    b.isAbout text (b.issue token other) = (other == text) := by
  rw [isAbout, Bool.eq_iff_iff]
  simp [issue, Detector.issue, message_inj]

/-- A detector reports a text as often as it is denoted among what it judges, unless it has no
objection to it. -/
theorem countP_isAbout_violations (table : VariableTable) (known : KnownIds) (r : Resource)
    (text : String) :
    ((b.violations table known r).map fun (token, other) => b.issue token other).countP
        (b.isAbout text) =
      if b.offends known text then (b.texts table r).countP (·.2 == text) else 0 := by
  unfold violations
  -- Only the text counts for the message, and it decides whether there is one.
  rw [List.countP_map, List.countP_filter]
  split
  · next bad =>
    refine List.countP_congr fun (token, other) _ => ?_
    simp only [Function.comp_apply, isAbout_issue, Bool.and_eq_true, beq_iff_eq]
    exact ⟨fun h => h.1, fun same => ⟨same, same ▸ bad⟩⟩
  · next fine =>
    refine List.countP_eq_zero.mpr fun (token, other) _ counted => fine ?_
    simp only [Function.comp_apply, isAbout_issue, Bool.and_eq_true, beq_iff_eq] at counted
    exact counted.1 ▸ counted.2

/-- How often a detector that is done reports a text. -/
theorem countP_isAbout_issues {templates : List Template} {context : Context}
    {options : RunOptions} {ids : KnownIds} (done : b.verdict options context.cloud? = .done)
    (answered : b.answer context.cloud? = .ok ids) (text : String) :
    (b.issues templates context options).countP (b.isAbout text) =
      if b.offends ids text then
        ((resourcesOf templates b.detector.target).flatMap (b.texts context.table)).countP
          (·.2 == text)
      else 0 := by
  rw [issues_of_answer b done answered]
  induction resourcesOf templates b.detector.target with
  | nil => simp
  | cons r resources ih =>
    rw [List.flatMap_cons, List.flatMap_cons, List.countP_append, List.countP_append, ih,
      countP_isAbout_violations]
    split <;> rfl

/-- A detector of what does not exist reports an id once for each element that denotes it. -/
theorem countP_isAbout_of_absent {templates : List Template} {context : Context}
    {options : RunOptions} {ids : KnownIds} {name : String}
    (done : b.verdict options context.cloud? = .done)
    (answered : b.answer context.cloud? = .ok ids)
    (offends : ∀ text, b.offends ids text = !ids.contains text)
    (texts : b.texts context.table = elementTexts context.table name) (id : String) :
    (b.issues templates context options).countP (b.isAbout id) =
      if id ∈ ids then 0
      else ((resourcesOf templates b.detector.target).flatMap
        (elementsOf context.table name)).countP (denotes context.table id) := by
  rw [b.countP_isAbout_issues done answered, offends, texts, countP_elementTexts]
  by_cases known : id ∈ ids <;> simp [known]

variable {b}

/-- A detector does not report in the place of another one. -/
theorem countP_isAbout_issues_of_ne {other : BuiltinDetector} (different : other ≠ b)
    (templates : List Template) (context : Context) (options : RunOptions) (text : String) :
    (other.issues templates context options).countP (b.isAbout text) = 0 := by
  refine List.countP_eq_zero.mpr fun issue member counted => different ?_
  have same : issue.detector = .builtin b := beq_iff_eq.mp (Bool.and_eq_true_iff.mp counted).1
  rw [detector_of_mem_issues member] at same
  exact DetectorId.builtin.inj same

end BuiltinDetector

theorem countP_isAbout_builtinReport (templates : List Template) (context : Context)
    (options : RunOptions) (b : BuiltinDetector) (text : String) :
    (builtinReport templates context options).issues.countP (b.isAbout text) =
      (b.issues templates context options).countP (b.isAbout text) := by
  have others {other : BuiltinDetector} (different : other ≠ b) :=
    BuiltinDetector.countP_isAbout_issues_of_ne different templates context options text
  cases b <;> simp [builtinReport, BuiltinDetector.all, others]

/-- **The issues of a deep run are exactly the violations.** The variables may have any values,
and the account may be in any state. The built-in detectors report, each by itself and in the
order of the resources: the instances whose type is of a previous generation, the alarms whose
unit is unknown, and the elements of the lists of subnets and of security groups that do not
exist. Every issue stands at the token that denotes the text, and what does not resolve is no
issue. An id that exists is never reported, and one that does not is reported once for each
element that denotes it. -/
theorem issues_exactly_violations (templates : List Template) (table : VariableTable)
    (account : Snapshot) :
    let issues :=
      (builtinRegistry.run templates ⟨table, some account.client⟩ ⟨true, []⟩).report.issues
    issues =
        ((resourcesOf templates "aws_instance").flatMap fun r =>
          ((scalarTexts table "instance_type" r).filter fun (_, type) =>
            type ∈ previousInstanceTypes).map
              (issueAbout .warning .instancePreviousType "previous generation instance type.")) ++
        ((resourcesOf templates "aws_cloudwatch_metric_alarm").flatMap fun r =>
          ((scalarTexts table "unit" r).filter fun (_, unit) => unit ∉ metricUnits).map
            (issueAbout .error .metricAlarmInvalidUnit "invalid unit.")) ++
        ((resourcesOf templates "aws_elb").flatMap fun r =>
          ((elementTexts table "subnets" r).filter fun (_, id) => id ∉ account.subnets).map
            (issueAbout .error .elbInvalidSubnet "invalid subnet ID.")) ++
        ((resourcesOf templates "aws_alb").flatMap fun r =>
          ((elementTexts table "security_groups" r).filter fun (_, id) =>
            id ∉ account.securityGroups).map
              (issueAbout .error .albInvalidSecurityGroup "invalid security group.")) ∧
      (∀ issue ∈ issues, ∃ b token text, resolveScalar table token = .ok text ∧
        issue = BuiltinDetector.issue b token text) ∧
      (∀ id, issues.countP (BuiltinDetector.elbInvalidSubnet.isAbout id) =
        if id ∈ account.subnets then 0
        else ((resourcesOf templates "aws_elb").flatMap (elementsOf table "subnets")).countP
          (denotes table id)) ∧
      ∀ id, issues.countP (BuiltinDetector.albInvalidSecurityGroup.isAbout id) =
        if id ∈ account.securityGroups then 0
        else ((resourcesOf templates "aws_alb").flatMap (elementsOf table "security_groups")).countP
          (denotes table id) := by
  intro issues
  let context : Context := ⟨table, some account.client⟩
  have whole : issues = (builtinReport templates context ⟨true, []⟩).issues :=
    congrArg Report.issues (Registry.report_eq_builtinReport detectors_builtinRegistry _ _ _)
  rw [whole]
  refine ⟨?_, ?_, fun id => ?_, fun id => ?_⟩
  · have instances := BuiltinDetector.instancePreviousType.issues_eq_flatMap_issueAbout templates
      context ⟨true, []⟩ (· ∈ previousInstanceTypes) rfl rfl (fun _ => List.contains_eq_mem ..)
      fun _ _ => rfl
    have alarms := BuiltinDetector.metricAlarmInvalidUnit.issues_eq_flatMap_issueAbout templates
      context ⟨true, []⟩ (· ∉ metricUnits) rfl rfl (by simp [BuiltinDetector.offends])
      fun _ _ => rfl
    have subnets := BuiltinDetector.elbInvalidSubnet.issues_eq_flatMap_issueAbout templates
      context ⟨true, []⟩ (· ∉ account.subnets) rfl rfl (by simp [BuiltinDetector.offends])
      fun _ _ => rfl
    have groups := BuiltinDetector.albInvalidSecurityGroup.issues_eq_flatMap_issueAbout templates
      context ⟨true, []⟩ (· ∉ account.securityGroups) rfl rfl (by simp [BuiltinDetector.offends])
      fun _ _ => rfl
    simp only [builtinReport, BuiltinDetector.all, List.flatMap_cons, List.flatMap_nil,
      List.append_nil, List.append_assoc, instances, alarms, subnets, groups]
    rfl
  · intro issue member
    obtain ⟨b, _, found⟩ := List.mem_flatMap.mp member
    obtain ⟨_, _, token, text, known, same⟩ := BuiltinDetector.exists_of_mem_issues found
    exact ⟨b, token, text, BuiltinDetector.resolved_of_mem_texts known, same⟩
  · rw [countP_isAbout_builtinReport]
    exact BuiltinDetector.elbInvalidSubnet.countP_isAbout_of_absent rfl rfl (fun _ => rfl)
      (funext fun _ => rfl) id
  · rw [countP_isAbout_builtinReport]
    exact BuiltinDetector.albInvalidSecurityGroup.countP_isAbout_of_absent rfl rfl (fun _ => rfl)
      (funext fun _ => rfl) id

end HclLint.Lint
