/-
# The report line by line

The report with one line an issue writes the issues one after the other, each with a line feed
behind it. What an issue consists of is written as it is: the name of its file, and a message that
quotes the text which a detector objects to. So an issue takes one line if neither of the two holds
a line feed, and one more line for each line feed in them. What comes behind such a line feed may
look like an issue that nobody reported.

## Main definitions

* `issueLine`: an issue as it is rendered.
* `linesOf`: the lines of a text.

## Main statements

* `linesOf_compact`: the lines of a report are those of its issues.
* `breaksIn_issueLine_of_builtin`: the line feeds in an issue of a built-in detector.
* `compact_lines_of_builtins`: when a report has one line for each issue.
-/

import HclLint.Model.Configuration
import HclLint.Proofs.Lint.Builtin
import HclLint.Report.Format
import Mathlib.Algebra.Ring.Nat

namespace HclLint.Report

open HclLint.Text HclLint.Model HclLint.Eval HclLint.Cloud HclLint.Lint

/-- An issue as it is rendered: where it is, how serious, what it is, and who found it. -/
def issueLine (issue : Issue) : String :=
  shownFile issue ++ ":" ++ toString issue.line ++ ":" ++ toString issue.column ++ ": " ++
    issue.severity.label ++ ": " ++ issue.message ++ " (" ++ issue.detector.name ++ ")"

/-- The lines of a text, each of them ended by a line feed. -/
def linesOf (text : String) : List String := ((split '\n' text.toList).dropLast).map String.ofList

/-- The number of line feeds in a text. -/
def breaksIn (text : String) : Nat := text.toList.count '\n'

/-! ## Lines of a report -/

/-- A line of the compact report is the line of an issue, ended by a line feed. -/
theorem compactLine_eq (issue : Issue) : compactLine issue = issueLine issue ++ "\n" := by
  simp [compactLine, issueLine, String.append_assoc]

/-- The compact report is one such line after the other. -/
theorem compact_eq_join (issues : List Issue) :
    compact issues = String.join (issues.map fun issue => issueLine issue ++ "\n") := by
  rw [compact, funext compactLine_eq]

/-- Texts that are written one after the other, each with a line feed behind it, have the pieces
of each of them, and nothing behind the last line feed. -/
theorem split_join_lines (texts : List String) :
    split '\n' (String.join (texts.map (· ++ "\n"))).toList =
      (texts.flatMap fun text => split '\n' text.toList) ++ [[]] := by
  induction texts with
  | nil => rfl
  | cons text texts ih =>
    have behind : (String.join ((text :: texts).map (· ++ "\n"))).toList =
        text.toList ++ '\n' :: (String.join (texts.map (· ++ "\n"))).toList := by
      simp
    rw [behind, split_append_cons, ih, List.flatMap_cons, List.append_assoc]

/-- Its lines are those of the issues. -/
theorem linesOf_compact (issues : List Issue) :
    linesOf (compact issues) = issues.flatMap fun issue =>
      (split '\n' (issueLine issue).toList).map String.ofList := by
  have texts : issues.map (fun issue => issueLine issue ++ "\n") =
      (issues.map issueLine).map (· ++ "\n") := by
    rw [List.map_map]
    rfl
  rw [compact_eq_join, texts, linesOf, split_join_lines, List.dropLast_concat, List.flatMap_map,
    List.map_flatMap]

/-- An issue takes a line, and one more for each line feed in it. -/
theorem length_linesOf_compact (issues : List Issue) :
    (linesOf (compact issues)).length =
      issues.length + (issues.map fun issue => breaksIn (issueLine issue)).sum := by
  rw [linesOf_compact]
  induction issues with
  | nil => rfl
  | cons issue issues ih =>
    rw [List.flatMap_cons, List.length_append, ih, List.length_map, length_split, List.length_cons,
      List.map_cons, List.sum_cons, breaksIn]
    omega

/-- The lines are the issues as they are rendered exactly if there is no line feed in them. -/
theorem linesOf_compact_eq_iff (issues : List Issue) :
    linesOf (compact issues) = issues.map issueLine ↔
      ∀ issue ∈ issues, breaksIn (issueLine issue) = 0 := by
  constructor
  · intro lines
    have count := congrArg List.length lines
    rw [length_linesOf_compact, List.length_map] at count
    have none : (issues.map fun issue => breaksIn (issueLine issue)).sum = 0 := by omega
    intro issue member
    exact List.sum_eq_zero_iff_forall_eq_nat.mp none _ (List.mem_map_of_mem member)
  · intro plain
    rw [linesOf_compact, ← List.flatMap_pure_eq_map]
    refine List.flatMap_congr fun issue member => ?_
    rw [split_of_not_mem (List.count_eq_zero.mp (plain issue member)), List.map_singleton,
      String.ofList_toList]
    rfl

/-! ## Line feeds in an issue -/

/-- Line breaks are counted part by part. -/
@[simp]
theorem breaksIn_append (text other : String) :
    breaksIn (text ++ other) = breaksIn text + breaksIn other := by
  rw [breaksIn, String.toList_append, List.count_append]
  rfl

@[simp]
theorem breaksIn_repr (n : Nat) : breaksIn n.repr = 0 := by
  refine List.count_eq_zero.mpr fun member => ?_
  have digit : '\n'.isDigit = true := by
    refine Nat.isDigit_of_mem_toDigits (b := 10) (n := n) (by decide) (by decide) ?_
    simpa using member
  revert digit
  decide

theorem breaksIn_shownFile (issue : Issue) : breaksIn (shownFile issue) = breaksIn issue.file := by
  unfold shownFile
  split
  · next unnamed => rw [String.isEmpty_iff.mp unnamed]; decide
  · rfl

theorem breaksIn_label (severity : Severity) : breaksIn severity.label = 0 := by
  cases severity <;> decide

/-- The line feeds in an issue are those in the name of its file, in its message, and in the name
of its detector. -/
theorem breaksIn_issueLine (issue : Issue) :
    breaksIn (issueLine issue) =
      breaksIn issue.file + breaksIn issue.message + breaksIn issue.detector.name := by
  have colon : breaksIn ":" = 0 := by decide
  have space : breaksIn ": " = 0 := by decide
  have opening : breaksIn " (" = 0 := by decide
  have closing : breaksIn ")" = 0 := by decide
  simp [issueLine, breaksIn_shownFile, breaksIn_label, colon, space, opening, closing]

/-- A message holds the line feeds of the text that it quotes. -/
theorem breaksIn_message (b : BuiltinDetector) (text : String) :
    breaksIn (b.message text) = breaksIn text := by
  have quote : breaksIn "\"" = 0 := by decide
  have verb : breaksIn "\" is " = 0 := by decide
  have about_eq (rest : String) (plain : breaksIn rest = 0) :
      breaksIn (about text rest) = breaksIn text := by
    simp [about, quote, verb, plain]
  cases b <;> exact about_eq _ (by decide)

/-- The line of a built-in issue breaks where the file or the value does. -/
theorem breaksIn_issueLine_of_builtin (b : BuiltinDetector) (token : Token) (text : String) :
    breaksIn (issueLine (b.issue token text)) =
      breaksIn token.position.file + breaksIn text := by
  have name : breaksIn (DetectorId.builtin b).name = 0 := by cases b <;> decide
  have message : (b.issue token text).message = b.message text := rfl
  have detector : (b.issue token text).detector = .builtin b := b.id_detector
  rw [breaksIn_issueLine, detector, name, message, breaksIn_message]
  rfl

/-! ## The main result -/

/-- **An issue takes one line unless a line feed is in what it names.** Whatever the templates, the
variables and the account are, the built-in detectors' report is written issue by issue, each as it
is rendered and a line feed behind it. The line feeds in an issue are those in the name of its file
and in the text that it reports. So the lines are the issues, one for each and in their order,
exactly if there are none of them, and otherwise each of them makes one more line. -/
theorem compact_lines_of_builtins (templates : List Template) (context : Context)
    (options : RunOptions) (colour : Bool) :
    let report := (builtinRegistry.run templates context options).report
    let output := render .compact colour report
    output = String.join (report.issues.map fun issue => issueLine issue ++ "\n") ∧
      (∀ issue ∈ report.issues, ∃ b token text, resolveScalar context.table token = .ok text ∧
        issue = BuiltinDetector.issue b token text ∧
        breaksIn (issueLine issue) = breaksIn issue.file + breaksIn text) ∧
      (linesOf output).length =
        report.issues.length + (report.issues.map fun issue => breaksIn (issueLine issue)).sum ∧
      (linesOf output = report.issues.map issueLine ↔
        ∀ issue ∈ report.issues, breaksIn (issueLine issue) = 0) := by
  intro report output
  refine ⟨compact_eq_join _, ?_, length_linesOf_compact _, linesOf_compact_eq_iff _⟩
  have same : report = builtinReport templates context options :=
    Registry.report_eq_builtinReport detectors_builtinRegistry _ _ _
  intro issue member
  rw [same] at member
  obtain ⟨b, _, found⟩ := List.mem_flatMap.mp member
  obtain ⟨_, _, token, text, known, rfl⟩ := BuiltinDetector.exists_of_mem_issues found
  exact ⟨b, token, text, BuiltinDetector.resolved_of_mem_texts known, rfl,
    breaksIn_issueLine_of_builtin b token text⟩

/-- An alarm whose unit holds a line feed, and what looks like an issue behind it. -/
def brokenUnitFiles : SourceSet := .ofList [
  ⟨"main.tf", "resource \"aws_cloudwatch_metric_alarm\" \"a\" \x7b\n" ++
    "  unit = \"a\\nmain.tf:9:9: error: b\"\n\x7d\n"⟩]

/-- An issue at a place that the file does not have. -/
def unreportedIssue : Issue :=
  ⟨.error, "b\" is invalid unit.", "main.tf", 9, 9, .builtin .metricAlarmInvalidUnit⟩

/-- A unit makes two lines of one issue, and the second one is that of an issue that nobody
reported. -/
theorem brokenUnit_not_one_line :
    ∃ c, Configuration.load .lexical brokenUnitFiles = .ok c ∧
      let report := (builtinRegistry.run c.templates ⟨c.table, none⟩ ⟨false, []⟩).report
      report.issues.length = 1 ∧ unreportedIssue ∉ report.issues ∧
        linesOf (render .compact false report) =
          ["main.tf:2:10: error: \"a", issueLine unreportedIssue] := by
  have holds : (Configuration.load .lexical brokenUnitFiles).toOption.any (fun c =>
      let report := (builtinRegistry.run c.templates ⟨c.table, none⟩ ⟨false, []⟩).report
      decide (report.issues.length = 1 ∧ unreportedIssue ∉ report.issues ∧
        linesOf (render .compact false report) =
          ["main.tf:2:10: error: \"a", issueLine unreportedIssue])) = true := by
    decide +kernel
  obtain ⟨c, loaded, same⟩ := exists_eq_ok_of_any holds
  exact ⟨c, loaded, of_decide_eq_true same⟩

end HclLint.Report
