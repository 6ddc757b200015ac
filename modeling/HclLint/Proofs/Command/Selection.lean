/-
# Which detectors a check leaves out

A check that ignores more rules, or that no longer looks deeply, runs its detectors on the same
sources, the same values and the same account. So what it reports is the report that it made
before, from which the detectors left out have dropped out. In which order the rules are listed,
how often, and where, is of no influence.

## Main definitions

* `ignoredBy`: the detectors that drop out where rules are ignored by name.
* `DetectorId.isDeep`: whether a detector needs a deep check.

## Main statements

* `lint_reselected`: a check with other rules and another depth sees what it saw before.
* `selection_filters_report`: the reports of checks that leave out more detectors.
-/

import HclLint.Command.Linter
import HclLint.Proofs.Command.Precedence
import HclLint.Proofs.Lint.Dependence

namespace HclLint.Lint

open HclLint.Model HclLint.Eval HclLint.Cloud

namespace DetectorId

/-- A name stands for a built-in detector if it is the detector's own. -/
theorem ofName_eq_builtin_iff {rule : String} {b : BuiltinDetector} :
    ofName rule = .builtin b ↔ rule = b.name := by
  constructor
  · intro same
    have named := name_ofName rule
    rw [same] at named
    exact named.symm
  · rintro rfl
    rw [ofName, BuiltinDetector.ofName?_name]

/-- Whether a detector needs a deep check. -/
def isDeep : DetectorId → Bool
  | .builtin b => b.detector.isDeep
  | .custom _ => false

end DetectorId

/-- The state in which a detector drops out where some rules are ignored: it does if its name is
one of them. -/
def ignoredBy (rules : List String) (id : DetectorId) : Option DetectorState :=
  if id.name ∈ rules then some .ignored else none

/-- The state in which a detector drops out where no deep check takes place. A detector that is
ignored stays so. -/
def shallowBy (ignored : List DetectorId) (id : DetectorId) : Option DetectorState :=
  if id.isDeep = true ∧ id ∉ ignored then some .needsDeepCheck else none

namespace BuiltinDetector

variable {b : BuiltinDetector} {templates : List Template} {context : Context}
  {wanted wanted' : RunOptions}

/-- A detector fares alike under options that agree on it. -/
theorem fares_alike_of_options
    (listed : .builtin b ∈ wanted'.ignored ↔ .builtin b ∈ wanted.ignored)
    (depth : b.detector.isDeep = true → wanted'.deepCheck = wanted.deepCheck) :
    b.verdict wanted' context.cloud? = b.verdict wanted context.cloud? ∧
      b.issues templates context wanted' = b.issues templates context wanted := by
  have shallow : (b.detector.isDeep = true ∧ wanted'.deepCheck = false) ↔
      (b.detector.isDeep = true ∧ wanted.deepCheck = false) :=
    and_congr_right fun deep => by rw [depth deep]
  have verdict : b.verdict wanted' context.cloud? = b.verdict wanted context.cloud? := by
    unfold BuiltinDetector.verdict
    simp only [listed, shallow]
  exact ⟨verdict, by rw [issues, issues, verdict]⟩

/-- A detector that has found something is not ignored. -/
theorem not_ignored_of_mem_issues {issue : Issue}
    (member : issue ∈ b.issues templates context wanted) : .builtin b ∉ wanted.ignored := by
  intro listed
  have ignored : b.verdict wanted context.cloud? = .ignored := verdict_of_ignored listed
  rw [issues_of_ne_done (ignored.trans_ne (by decide))] at member
  cases member

end BuiltinDetector

section Reports

variable {templates : List Template} {context : Context} {wanted wanted' : RunOptions}

/-- Where more detectors are ignored, these drop out of the report, and no others. -/
theorem builtinReport_of_ignoring {rules : List String}
    (depth : wanted'.deepCheck = wanted.deepCheck)
    (listed : ∀ b : BuiltinDetector,
      .builtin b ∈ wanted'.ignored ↔ .builtin b ∈ wanted.ignored ∨ b.name ∈ rules) :
    builtinReport templates context wanted' =
      (builtinReport templates context wanted).without (ignoredBy rules) := by
  refine builtinReport_eq_without (fun b state dropped => ?_) fun b stays => ?_
  · unfold ignoredBy at dropped
    split at dropped
    · next named =>
      obtain rfl := Option.some.inj dropped
      exact ⟨BuiltinDetector.verdict_of_ignored ((listed b).mpr (.inr named)), by decide⟩
    · cases dropped
  · unfold ignoredBy at stays
    split at stays
    · cases stays
    · next unnamed =>
      refine BuiltinDetector.fares_alike_of_options ?_ fun _ => depth
      rw [listed]
      exact or_iff_left unnamed

/-- Where a check is no longer deep, the detectors that need it drop out of the report, and no
others. -/
theorem builtinReport_of_shallowing {ignored : List DetectorId} :
    builtinReport templates context ⟨false, ignored⟩ =
      (builtinReport templates context ⟨true, ignored⟩).without (shallowBy ignored) := by
  refine builtinReport_eq_without (fun b state dropped => ?_) fun b stays => ?_
  · unfold shallowBy at dropped
    split at dropped
    · next needs =>
      obtain rfl := Option.some.inj dropped
      exact ⟨BuiltinDetector.verdict_of_shallow needs.2 needs.1 rfl, by decide⟩
    · cases dropped
  · by_cases listed : .builtin b ∈ ignored
    · exact BuiltinDetector.fares_alike_of_verdict (by decide)
        (BuiltinDetector.verdict_of_ignored listed) (BuiltinDetector.verdict_of_ignored listed)
    · have checkable : ¬ b.detector.isDeep = true := by
        intro deep
        simp [shallowBy, DetectorId.isDeep, deep, listed] at stays
      exact BuiltinDetector.fares_alike_of_options Iff.rfl fun deep => absurd deep checkable

/-- The issues that are left of a deep check are those of the detectors that need none. -/
theorem issues_of_shallowing {ignored : List DetectorId} :
    (builtinReport templates context ⟨false, ignored⟩).issues =
      (builtinReport templates context ⟨true, ignored⟩).issues.filter
        fun issue => !issue.detector.isDeep := by
  rw [builtinReport_of_shallowing]
  refine List.filter_congr fun issue member => ?_
  -- Whoever has reported an issue is not ignored.
  obtain ⟨b, _, found⟩ := List.mem_flatMap.mp member
  have unlisted := BuiltinDetector.not_ignored_of_mem_issues found
  rw [BuiltinDetector.detector_of_mem_issues found, shallowBy]
  cases deep : (DetectorId.builtin b).isDeep <;> simp [unlisted]

end Reports

end HclLint.Lint

namespace HclLint.Command

open HclLint.Text HclLint.Files HclLint.Model HclLint.Eval HclLint.Cloud HclLint.Lint

variable {tree : FileTree} {settings : Settings} {report : Lint.Report}

/-- The detectors that are to be ignored are those whose names are listed. -/
theorem builtin_mem_ignored_iff (settings : Settings) (b : BuiltinDetector) :
    .builtin b ∈ settings.ignored ↔ b.name ∈ settings.ignoredRules := by
  simp [Settings.ignored, DetectorId.ofName_eq_builtin_iff]

/-- A check that comes to a report does so too with other rules and another depth, and its
detectors see the same templates, values and account. -/
theorem lint_reselected (checked : (lint settings).result tree = .ok report) :
    ∃ templates context,
      report = builtinReport templates context ⟨settings.deepCheck, settings.ignored⟩ ∧
      ∀ deepCheck ignoredRules,
        (lint { settings with deepCheck, ignoredRules }).result tree =
          .ok (builtinReport templates context
            ⟨deepCheck, { settings with deepCheck, ignoredRules }.ignored⟩) := by
  simp only [lint, Task.result_bind, Task.result_noteAll, Task.result_pure,
    except_bind_eq_ok] at checked
  obtain ⟨c, loaded, table, assigned, cloud?, connected, _, _, _, _, same⟩ := checked
  obtain rfl := Except.ok.inj same
  have reports (options : RunOptions) :
      (builtinRegistry.run c.templates ⟨table, cloud?⟩ options).report =
        builtinReport c.templates ⟨table, cloud?⟩ options :=
    Registry.report_eq_builtinReport detectors_builtinRegistry _ _ _
  refine ⟨c.templates, ⟨table, cloud?⟩, reports _, fun deepCheck ignoredRules => ?_⟩
  -- Sources, values and account are looked for where the first check has found them.
  have loaded' : (loadConfiguration { settings with deepCheck, ignoredRules }).result tree =
      .ok c := loaded
  have assigned' :
      (assignVariables { settings with deepCheck, ignoredRules } c.table).result tree =
        .ok table := assigned
  simp only [lint, Task.result_bind, Task.result_noteAll, Task.result_pure, except_bind_eq_ok]
  exact ⟨c, loaded', table, assigned', cloud?, connected, ⟨⟩, trivial, ⟨⟩, trivial,
    congrArg Except.ok (reports _)⟩

/-- Where more rules are ignored, in whatever order and however often they are listed, the
detectors of these names drop out of the report, and no others. -/
theorem lint_ignoring (checked : (lint settings).result tree = .ok report)
    {rules rules' : List String}
    (listed : ∀ rule, rule ∈ rules' ↔ rule ∈ settings.ignoredRules ∨ rule ∈ rules) :
    (lint { settings with ignoredRules := rules' }).result tree =
      .ok (report.without (ignoredBy rules)) := by
  obtain ⟨templates, context, rfl, again⟩ := lint_reselected checked
  rw [again settings.deepCheck rules']
  refine congrArg Except.ok (builtinReport_of_ignoring rfl fun b => ?_)
  have before := builtin_mem_ignored_iff settings b
  have after := builtin_mem_ignored_iff { settings with ignoredRules := rules' } b
  rw [after, before]
  exact listed b.name

/-- **Leaving out detectors filters the report.** Let a check come to a report. With more rules
to be ignored it comes to the same report without the detectors of these names: their issues are
gone and they are ignored, and all other issues and states are as they were, in their order. It
does not matter which of the names belong to a detector, in which order the rules are listed, how
often, and whether the settings' file or the command line lists them. A check that is no longer
deep comes to the report without the issues of the detectors that need a deep check; these are
passed over, unless they are ignored, and the others are as they were. -/
theorem selection_filters_report (checked : (lint settings).result tree = .ok report) :
    (∀ rules rules' : List String,
      (∀ rule, rule ∈ rules' ↔ rule ∈ settings.ignoredRules ∨ rule ∈ rules) →
      (lint { settings with ignoredRules := rules' }).result tree =
        .ok (report.without (ignoredBy rules))) ∧
    (∀ (file : FileSettings) (given : Arguments), settings = .merge file given →
      ∀ rules fromFile fromCommand : List String,
        (∀ rule, rule ∈ fromFile ∨ rule ∈ fromCommand ↔
          rule ∈ file.ignoredRules ∨ rule ∈ given.ignoredRules ∨ rule ∈ rules) →
        (lint (.merge { file with ignoredRules := fromFile }
            { given with ignoredRules := fromCommand })).result tree =
          .ok (report.without (ignoredBy rules))) ∧
    (settings.deepCheck = true →
      ∃ shallow, (lint { settings with deepCheck := false }).result tree = .ok shallow ∧
        shallow.issues = report.issues.filter (fun issue => !issue.detector.isDeep) ∧
        shallow.states = report.states.map fun (id, state) =>
          (id, if id.isDeep = true ∧ id ∉ settings.ignored then .needsDeepCheck else state)) := by
  refine ⟨fun rules rules' => lint_ignoring checked, ?_, fun deep => ?_⟩
  · rintro file given rfl rules fromFile fromCommand listed
    have together : ∀ rule, rule ∈ fromFile ++ fromCommand ↔
        rule ∈ (Settings.merge file given).ignoredRules ∨ rule ∈ rules := by
      intro rule
      have before : (Settings.merge file given).ignoredRules =
          file.ignoredRules ++ given.ignoredRules := rfl
      rw [before, List.mem_append, List.mem_append, or_assoc]
      exact listed rule
    exact lint_ignoring checked together
  · obtain ⟨templates, context, rfl, again⟩ := lint_reselected checked
    refine ⟨_, again false settings.ignoredRules, ?_, ?_⟩
    · rw [deep]
      exact issues_of_shallowing
    · rw [deep]
      refine (congrArg Report.states builtinReport_of_shallowing).trans ?_
      refine List.map_congr_left fun (id, state) _ => ?_
      change (id, (shallowBy settings.ignored id).getD state) = _
      rw [shallowBy, apply_ite (Option.getD · state)]
      rfl

/-- A source with an old instance and with a load balancer in a subnet that the account does not
have. -/
def oldInstanceTree : FileTree := .directory [
  ("src", .directory [
    ("main.tf", .file (
      "resource \"aws_instance\" \"web\" \x7b\n  instance_type = \"t1.micro\"\n\x7d\n" ++
      "resource \"aws_elb\" \"web\" \x7b\n  subnets = [\"subnet-2\"]\n\x7d\n").toUTF8)]),
  ("account.json", .file "\x7b\"subnets\": [\"subnet-1\"]\x7d".toUTF8)]

/-- A deep check of the source. -/
def oldInstanceSettings : Settings :=
  .merge { FileSettings.initial with deepCheck := true }
    { Arguments.initial with directory := "src", cloudState? := some "account.json" }

theorem lint_oldInstanceTree :
    ∃ report, (lint oldInstanceSettings).result oldInstanceTree = .ok report ∧
      report.issues.map (·.detector.name) =
        ["aws_instance_previous_type", "aws_elb_invalid_subnet"] := by
  have sources : (Workspace.load "src").result oldInstanceTree =
      (["main.tf"].foldlM (Workspace.loadFile "src") .empty).result oldInstanceTree :=
    load_of_single_name rfl
  have directory : oldInstanceSettings.directory = "src" := rfl
  have checked : ((lint oldInstanceSettings).result oldInstanceTree).toOption.any
      (fun report => report.issues.map (·.detector.name) ==
        ["aws_instance_previous_type", "aws_elb_invalid_subnet"]) = true := by
    rw [lint, Task.result_bind, loadConfiguration, Task.result_bind, directory, sources]
    decide +kernel
  obtain ⟨report, found, issues⟩ := exists_eq_ok_of_any checked
  exact ⟨report, found, beq_iff_eq.mp issues⟩

/-- Of the two issues of the source, one goes with its rule, which may be listed twice beside one
that does not exist, and the other goes with the deep check. -/
theorem selection_filters_report_oldInstance :
    ∃ report, (lint oldInstanceSettings).result oldInstanceTree = .ok report ∧
      report.issues.map (·.detector.name) =
        ["aws_instance_previous_type", "aws_elb_invalid_subnet"] ∧
      (lint { oldInstanceSettings with
          ignoredRules :=
            ["none", "aws_elb_invalid_subnet", "aws_elb_invalid_subnet"] }).result
          oldInstanceTree =
        .ok (report.without (ignoredBy ["aws_elb_invalid_subnet", "none"])) ∧
      ∃ shallow,
        (lint { oldInstanceSettings with deepCheck := false }).result oldInstanceTree =
          .ok shallow ∧
        shallow.issues = report.issues.filter fun issue => !issue.detector.isDeep := by
  obtain ⟨report, checked, issues⟩ := lint_oldInstanceTree
  obtain ⟨ignoring, _, shallowing⟩ := selection_filters_report checked
  obtain ⟨shallow, again, left, _⟩ := shallowing rfl
  refine ⟨report, checked, issues, ignoring _ _ fun rule => ?_, shallow, again, left⟩
  have none : oldInstanceSettings.ignoredRules = [] := rfl
  simp [none, or_comm]

end HclLint.Command
