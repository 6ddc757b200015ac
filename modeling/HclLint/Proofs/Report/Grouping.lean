/-
# The report grouped by file

The report for readers is a stable partition of the issues. Each file that is shown has one group,
the groups stand in the order of the bytes of the files' names, and within a group the issues keep
the order in which they were reported. Issues without a file are shown under a name of their own,
which a file may bear too; they then share its group.

## Main definitions

* `groupsOf`: the issues of a report, file by file.
* `groupText`: the written form of a group.
* `IsGrouping`: what makes some groups a stable partition.

## Main statements

* `flatMap_filter_perm`: distinct names that cover all items partition them.
* `isGrouping_groupsOf`: the groups of a report are a stable partition of its issues.
* `stylish_groups_issues`: the report for readers, and its summary.
-/

import HclLint.Report.Format
import HclLint.Proofs.Text.ByteOrder
import Mathlib.Data.List.Perm.Basic
import Mathlib.Data.List.Induction

namespace HclLint.Report

open HclLint.Text HclLint.Lint

/-! ## Partitions by name -/

section Partition

variable {α : Type} {name : α → String} {names : List String} {items : List α}

theorem nodup_eraseDups (names : List String) : names.eraseDups.Nodup := by
  induction names using List.reverseRecOn with
  | nil => exact List.nodup_nil
  | append_singleton names last ih =>
    rw [List.eraseDups_append, List.nodup_append]
    refine ⟨ih, ?_, ?_⟩
    · by_cases old : last ∈ names <;> simp [List.removeAll, old, List.eraseDups_cons]
    · rintro a earlier b later rfl
      simp only [List.mem_eraseDups, List.removeAll, List.mem_filter] at earlier later
      simp [earlier] at later

/-- Items sorted into distinct names that cover them are the items, in another order. -/
theorem flatMap_filter_perm (distinct : names.Nodup)
    (covered : ∀ item ∈ items, name item ∈ names) :
    (names.flatMap fun key => items.filter (name · == key)).Perm items := by
  induction names generalizing items with
  | nil =>
    have none : items = [] :=
      List.eq_nil_iff_forall_not_mem.mpr fun item member => List.not_mem_nil (covered item member)
    rw [none]
    exact .nil
  | cons first names ih =>
    obtain ⟨new, distinct⟩ := List.nodup_cons.mp distinct
    -- The later names sort what the first one leaves.
    have later : (names.flatMap fun key => items.filter (name · == key)) =
        names.flatMap fun key => (items.filter fun item => !(name item == first)).filter
          (name · == key) := by
      refine List.flatMap_congr fun key member => ?_
      rw [List.filter_filter]
      refine List.filter_congr fun item _ => ?_
      have apart : key ≠ first := fun same => new (same ▸ member)
      by_cases same : name item = key <;> simp [same, apart]
    have rest : ∀ item ∈ items.filter (fun item => !(name item == first)), name item ∈ names := by
      intro item member
      obtain ⟨member, other⟩ := List.mem_filter.mp member
      have other : name item ≠ first := by simpa using other
      exact (List.mem_cons.mp (covered item member)).resolve_left other
    rw [List.flatMap_cons, later]
    exact (List.Perm.append_left _ (ih distinct rest)).trans (List.filter_append_perm _ items)

/-- Among items sorted into distinct names, those of one name keep their order. -/
theorem filter_flatMap_filter (distinct : names.Nodup) {key : String} (known : key ∈ names) :
    (names.flatMap fun key => items.filter (name · == key)).filter (name · == key) =
      items.filter (name · == key) := by
  have each (other : String) : (items.filter (name · == other)).filter (name · == key) =
      if other = key then items.filter (name · == key) else [] := by
    rw [List.filter_filter]
    split
    · next same => simp [same]
    · next apart =>
      refine List.filter_eq_nil_iff.mpr fun item _ => ?_
      rintro both
      simp only [Bool.and_eq_true, beq_iff_eq] at both
      exact apart (both.2.symm.trans both.1)
  rw [List.filter_flatMap]
  simp only [each]
  induction names with
  | nil => cases known
  | cons first names ih =>
    obtain ⟨new, distinct⟩ := List.nodup_cons.mp distinct
    rw [List.flatMap_cons]
    rcases List.mem_cons.mp known with rfl | later
    · have none : (names.flatMap fun other =>
          if other = key then items.filter (name · == key) else []) = [] := by
        refine List.flatMap_eq_nil_iff.mpr fun other member => if_neg ?_
        rintro rfl
        exact new member
      rw [if_pos rfl, none, List.append_nil]
    · have apart : first ≠ key := fun same => new (same ▸ later)
      rw [if_neg apart, List.nil_append, ih distinct later]

end Partition

/-! ## The groups of a report -/

variable {issues : List Issue}

theorem nodup_shownFiles (issues : List Issue) : (shownFiles issues).Nodup :=
  (List.mergeSort_perm _ _).nodup_iff.mpr (nodup_eraseDups _)

/-- Files are shown in the strict order of their bytes. -/
theorem shownFiles_ordered (issues : List Issue) :
    (shownFiles issues).Pairwise fun file other => bytes file < bytes other := by
  have sorted : (shownFiles issues).Pairwise fun file other => decide (file ≤ other) = true := by
    refine List.pairwise_mergeSort (fun a b c first second => ?_) (fun a b => ?_) _
    · exact decide_eq_true
        (String.le_trans (of_decide_eq_true first) (of_decide_eq_true second))
    · simpa using String.le_total a b
  refine (sorted.and (nodup_shownFiles issues)).imp fun {file other} ⟨before, apart⟩ => ?_
  rw [bytes_lt_bytes_iff]
  exact Std.lt_of_le_of_ne (of_decide_eq_true before) apart

theorem mem_shownFiles {file : String} :
    file ∈ shownFiles issues ↔ ∃ issue ∈ issues, shownFile issue = file := by
  rw [shownFiles, List.mem_mergeSort, List.mem_eraseDups, List.mem_map]

/-- The issues of a report by the files that are shown for them. -/
def groupsOf (issues : List Issue) : List (String × List Issue) :=
  (shownFiles issues).map fun file => (file, issues.filter (shownFile · == file))

/-- The line of an issue in its group. -/
def entryText (issue : Issue) : String :=
  "  " ++ toString issue.line ++ ":" ++ toString issue.column ++ "  " ++ issue.severity.label ++
    "  " ++ issue.message ++ "  " ++ issue.detector.name ++ "\n"

/-- A group in its written form: the file, a line for each of its issues, and a blank line. -/
def groupText (group : String × List Issue) : String :=
  group.1 ++ "\n" ++ String.join (group.2.map entryText) ++ "\n"

theorem entryLine_false : entryLine false = entryText := by
  funext issue
  simp [entryLine, entryText, ← String.append_assoc]

theorem fileGroup_false (issues : List Issue) (file : String) :
    fileGroup false issues file = groupText (file, issues.filter (shownFile · == file)) := by
  simp [fileGroup, groupText, entryLine_false]

/-- Groups that are a stable partition of the issues by the files that are shown for them, in the
strict order of the bytes of these files' names. -/
structure IsGrouping (issues : List Issue) (groups : List (String × List Issue)) : Prop where
  ordered : groups.Pairwise fun group other => bytes group.1 < bytes other.1
  files : ∀ file, file ∈ groups.map (·.1) ↔ ∃ issue ∈ issues, shownFile issue = file
  entries : ∀ group ∈ groups, group.2 = issues.filter (shownFile · == group.1)
  partition : (groups.flatMap (·.2)).Perm issues
  stable : ∀ file, (groups.flatMap (·.2)).filter (shownFile · == file) =
    issues.filter (shownFile · == file)

theorem isGrouping_groupsOf (issues : List Issue) : IsGrouping issues (groupsOf issues) := by
  have names : (groupsOf issues).map (·.1) = shownFiles issues := by
    simp [groupsOf, Function.comp_def]
  have listed : (groupsOf issues).flatMap (·.2) =
      (shownFiles issues).flatMap fun file => issues.filter (shownFile · == file) := by
    rw [groupsOf, List.flatMap_map]
  have covered : ∀ issue ∈ issues, shownFile issue ∈ shownFiles issues :=
    fun issue member => mem_shownFiles.mpr ⟨issue, member, rfl⟩
  constructor
  · exact List.pairwise_map.mpr (shownFiles_ordered issues)
  · intro file
    rw [names, mem_shownFiles]
  · intro group member
    obtain ⟨file, _, rfl⟩ := List.mem_map.mp member
    rfl
  · rw [listed]
    exact flatMap_filter_perm (nodup_shownFiles issues) covered
  · intro file
    rw [listed]
    by_cases known : file ∈ shownFiles issues
    · exact filter_flatMap_filter (nodup_shownFiles issues) known
    · -- A file that is not shown has no issues, in the groups no more than in the report.
      have elsewhere : ∀ issue ∈ issues, ¬ (shownFile issue == file) = true := by
        intro issue member same
        exact known (beq_iff_eq.mp same ▸ covered issue member)
      rw [List.filter_eq_nil_iff.mpr elsewhere, List.filter_eq_nil_iff]
      intro issue member
      obtain ⟨other, _, member⟩ := List.mem_flatMap.mp member
      exact elsewhere issue (List.mem_filter.mp member).1

/-! ## The whole report -/

/-- Every issue has one of three severities. -/
theorem countOf_add (issues : List Issue) :
    countOf .error issues + countOf .warning issues + countOf .notice issues = issues.length := by
  induction issues with
  | nil => rfl
  | cons issue issues ih =>
    unfold countOf at ih ⊢
    rw [List.countP_cons, List.countP_cons, List.countP_cons, List.length_cons, ← ih]
    cases issue.severity <;> simp <;> omega

/-- **The report for readers is a stable grouping of the issues.** Where there is any issue, one
group for each file that is shown is written, in the order of the bytes of the names, and each
group lists the issues of its file as they were reported. So each issue is written once. Behind
the groups comes how many issues there are, which is the sum of the counts by severity. -/
theorem stylish_groups_issues {report : Lint.Report} (some : report.issues ≠ []) :
    ∃ groups total errors warnings notices, IsGrouping report.issues groups ∧
      render .stylish false report = String.join (groups.map groupText) ++
        "Found " ++ toString total ++ " issue(s): " ++ toString errors ++ " error(s), " ++
          toString warnings ++ " warning(s), " ++ toString notices ++ " notice(s)" ++ "\n" ∧
      total = report.issues.length ∧ total = errors + warnings + notices ∧
      errors = report.issues.countP (·.severity == .error) ∧
      warnings = report.issues.countP (·.severity == .warning) ∧
      notices = report.issues.countP (·.severity == .notice) := by
  refine ⟨groupsOf report.issues, report.issues.length, countOf .error report.issues,
    countOf .warning report.issues, countOf .notice report.issues, isGrouping_groupsOf _, ?_, rfl,
    (countOf_add _).symm, rfl, rfl, rfl⟩
  have texts : (shownFiles report.issues).map (fileGroup false report.issues) =
      (groupsOf report.issues).map groupText := by
    rw [groupsOf, List.map_map]
    exact List.map_congr_left fun file _ => fileGroup_false report.issues file
  rw [render, stylish, if_neg (by simpa using some), texts, styled_false, summary]
  simp only [String.append_assoc]
  rfl

/-- Issues of two files in turn, one of them without a file's name. -/
def mixedReport : Lint.Report :=
  let found (file : String) (line : Nat) : Issue :=
    ⟨.warning, "old", file, line, 1, .builtin .instancePreviousType⟩
  { issues := [found "b.tf" 1, found "" 2, found "a.tf" 3, found "b.tf" 4], states := [] }

/-- Issues of files in turn are grouped, and those of `b.tf` keep their order. -/
theorem stylish_groups_issues_mixedReport :
    ∃ groups summary, IsGrouping mixedReport.issues groups ∧
      render .stylish false mixedReport = String.join (groups.map groupText) ++ summary ∧
      (groups.flatMap (·.2)).Perm mixedReport.issues ∧
      ((groups.flatMap (·.2)).filter (shownFile · == "b.tf")).map (·.line) = [1, 4] := by
  have some : mixedReport.issues ≠ [] := by decide
  obtain ⟨groups, _, _, _, _, grouping, written, _⟩ := stylish_groups_issues some
  simp only [String.append_assoc] at written
  refine ⟨groups, _, grouping, written, grouping.partition, ?_⟩
  rw [grouping.stable]
  decide

end HclLint.Report
