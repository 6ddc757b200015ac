/-
# Which value of a variable counts

A check declares the variables of its sources in the order in which the files take effect, then
reads the files of assignments that the settings name, those of the settings' file first, and
then takes the assignments of the command line. The detectors consult the table that this
leaves.

## Main definitions

* `IsReadAs`: what a file of assignments is for a check.

## Main statements

* `lint_eq_ok`: what a check that comes to a report has done.
* `values_by_precedence`: the current values of variables, under any changes and in a check.
-/

import HclLint.Command.Linter
import HclLint.Proofs.Eval.History
import HclLint.Proofs.Files.Result
import HclLint.Proofs.Merge.Reference

namespace HclLint.Command

open HclLint.Text HclLint.Files HclLint.Hcl HclLint.Model HclLint.Eval HclLint.Cloud HclLint.Lint

variable {tree : FileTree}

/-- The file of assignments at a path is read as a source. -/
def IsReadAs (tree : FileTree) (directory path : String) (source : Source) : Prop :=
  (readFile path).result tree = .ok source.text ∧ source.name = displayName directory path

/-! ## What a check does -/

theorem assignFromFile_eq_ok {directory path : String} {table after : VariableTable}
    (assigned : (assignFromFile directory table path).result tree = .ok after) :
    ∃ source, IsReadAs tree directory path source ∧ table.assignFile source = .ok after := by
  simp only [assignFromFile, Task.result_bind, Task.result_ofExcept, Task.result_noteAll,
    Task.result_pure, except_bind_eq_ok, mapError_eq_ok_iff] at assigned
  obtain ⟨text, read, _, changed, _, _, same⟩ := assigned
  obtain rfl := Except.ok.inj same
  exact ⟨⟨displayName directory path, text⟩, ⟨read, rfl⟩, changed⟩

theorem foldlM_assignFromFile_eq_ok {directory : String} {paths : List String}
    {table after : VariableTable}
    (assigned : paths.foldlM (fun t path => (assignFromFile directory t path).result tree) table =
      .ok after) :
    ∃ sources, List.Forall₂ (IsReadAs tree directory) paths sources ∧
      sources.foldlM VariableTable.assignFile table = .ok after := by
  induction paths generalizing table with
  | nil =>
    obtain rfl := Except.ok.inj assigned
    exact ⟨[], .nil, rfl⟩
  | cons path paths ih =>
    rw [List.foldlM_cons] at assigned
    obtain ⟨next, first, rest⟩ := except_bind_eq_ok.mp assigned
    obtain ⟨source, read, changed⟩ := assignFromFile_eq_ok first
    obtain ⟨sources, others, run⟩ := ih rest
    refine ⟨source :: sources, .cons read others, ?_⟩
    rw [List.foldlM_cons]
    exact except_bind_eq_ok.mpr ⟨next, changed, run⟩

theorem foldlM_assignFromCommand (assignments : List (String × String)) (table : VariableTable) :
    assignments.foldlM (fun t given => (assignFromCommand t given).result tree) table =
      .ok (assignments.foldl (fun t given => t.assignText given.1 given.2) table) := by
  induction assignments generalizing table with
  | nil => rfl
  | cons given assignments ih =>
    have first : (assignFromCommand table given).result tree =
        .ok (table.assignText given.1 given.2) := by
      simp only [assignFromCommand, Task.result_bind, Task.result_noteAll, Task.result_pure]
      rfl
    rw [List.foldlM_cons, first]
    exact ih _

theorem loadConfiguration_eq_ok {settings : Settings} {c : Configuration}
    (loaded : (loadConfiguration settings).result tree = .ok c) :
    ∃ set, (Workspace.load settings.directory).result tree = .ok set ∧
      Configuration.load settings.precedence set = .ok c := by
  simp only [loadConfiguration, Task.result_bind, Task.result_ofExcept, Task.result_noteAll,
    Task.result_pure, except_bind_eq_ok, mapError_eq_ok_iff] at loaded
  obtain ⟨set, read, _, made, _, _, same⟩ := loaded
  obtain rfl := Except.ok.inj same
  exact ⟨set, read, made⟩

/-- What a check that comes to a report has done. -/
theorem lint_eq_ok {settings : Settings} {report : Lint.Report}
    (checked : (lint settings).result tree = .ok report) :
    ∃ set c filled cloud?,
      (Workspace.load settings.directory).result tree = .ok set ∧
      Configuration.load settings.precedence set = .ok c ∧
      settings.varFiles.foldlM
        (fun t path => (assignFromFile settings.directory t path).result tree) c.table =
          .ok filled ∧
      report = (builtinRegistry.run c.templates
        ⟨settings.assignments.foldl (fun t given => t.assignText given.1 given.2) filled, cloud?⟩
        ⟨settings.deepCheck, settings.ignored⟩).report := by
  simp only [lint, assignVariables, Task.result_bind, Task.result_noteAll, Task.result_pure,
    Task.result_foldlM, foldlM_assignFromCommand, except_bind_eq_ok] at checked
  obtain ⟨c, loaded, table, ⟨filled, assigned, given⟩, cloud?, _, _, _, _, _, same⟩ := checked
  obtain ⟨set, read, made⟩ := loadConfiguration_eq_ok loaded
  obtain rfl := Except.ok.inj given
  obtain rfl := Except.ok.inj same
  exact ⟨set, c, filled, cloud?, read, made, assigned, rfl⟩

/-- The table that the detectors of a check consult: what the sources declare in the order in
which they take effect, then the files of assignments, and then the texts of the command
line. -/
theorem lint_table {file : FileSettings} {given : Arguments} {report : Lint.Report}
    (checked : (lint (.merge file given)).result tree = .ok report) :
    ∃ set all c fromSettings fromCommand table cloud?,
      (Workspace.load given.directory).result tree = .ok set ∧
      set.files.mapM declarationsOf = .ok all ∧
      Configuration.load (file.precedence?.getD .lexical) set = .ok c ∧
      List.Forall₂ (IsReadAs tree given.directory) file.varFiles fromSettings ∧
      List.Forall₂ (IsReadAs tree given.directory) given.varFiles fromCommand ∧
      report = (builtinRegistry.run c.templates ⟨table, cloud?⟩
        ⟨file.deepCheck || given.deep, (Settings.merge file given).ignored⟩).report ∧
      table = (changesOf
        ((processingOrder (file.precedence?.getD .lexical) all).flatMap (·.vars))
        (fromSettings ++ fromCommand) given.assignments).foldl VariableTable.change .empty := by
  obtain ⟨set, c, filled, cloud?, read, loaded, assigned, rfl⟩ := lint_eq_ok checked
  obtain ⟨all, declared, same⟩ := load_eq_ok loaded
  -- The files that the settings' file names come ahead of those of the command line.
  have assigned : (file.varFiles ++ given.varFiles).foldlM
      (fun t path => (assignFromFile given.directory t path).result tree) c.table =
        .ok filled := assigned
  rw [List.foldlM_append] at assigned
  obtain ⟨half, first, second⟩ := except_bind_eq_ok.mp assigned
  obtain ⟨fromSettings, ahead, runFirst⟩ := foldlM_assignFromFile_eq_ok first
  obtain ⟨fromCommand, behind, runSecond⟩ := foldlM_assignFromFile_eq_ok second
  refine ⟨set, all, c, fromSettings, fromCommand, _, cloud?, read, declared, loaded, ahead,
    behind, rfl, ?_⟩
  have declares : c.table = (((processingOrder (file.precedence?.getD .lexical) all).flatMap
      (·.vars)).map .declare).foldl VariableTable.change .empty := by
    rw [same, Configuration.ofDeclared, vars_ofDeclarations, List.foldl_map]
    rfl
  rw [changesOf, List.map_append, List.foldl_append, List.foldl_append, List.foldl_append,
    ← declares, foldl_change_of_foldlM runFirst, foldl_change_of_foldlM runSecond, List.foldl_map]
  rfl

/-- **Which value of a variable counts.** After any declarations, files of assignments and
assigned texts, in any order, a variable that was never declared is unknown. Any other has the
value of the last text, or else of the last accepted file that assigns it, or else the default
of its last declaration, or none. A file is refused if it is no body or holds a block, and then
the table stays as it was.

So in a check, texts of the command line go before files of the command line, these before
files that the settings name, and these before defaults; of several the last one counts, where
declarations come in the order in which their files take effect. -/
theorem values_by_precedence :
    (∀ changes name,
      let table := changes.foldl VariableTable.change .empty
      table.get name =
          currentValue name (lastOf (·.declaration? name) changes)
            ((lastOf (·.textValue? name) changes).or (lastOf (·.fileValue? name) changes)) ∧
        (table.get name = .error (.undeclared name) ↔
          ∀ v, Change.declare v ∈ changes → v.name ≠ name)) ∧
    (∀ (table : VariableTable) source,
      ((∃ e, table.assignFile source = .error e) ↔
        (∃ e, bodyOf source = .error e) ∨
          ∃ body start kind labels inner, bodyOf source = .ok body ∧
            Item.block start kind labels inner ∈ body) ∧
        ∀ e, table.assignFile source = .error e → table.change (.assignFile source) = table) ∧
    ∀ tree file given report, (lint (.merge file given)).result tree = .ok report →
      ∃ set all c fromSettings fromCommand table cloud?,
        (Workspace.load given.directory).result tree = .ok set ∧
        set.files.mapM declarationsOf = .ok all ∧
        Configuration.load (file.precedence?.getD .lexical) set = .ok c ∧
        List.Forall₂ (IsReadAs tree given.directory) file.varFiles fromSettings ∧
        List.Forall₂ (IsReadAs tree given.directory) given.varFiles fromCommand ∧
        report = (builtinRegistry.run c.templates ⟨table, cloud?⟩
          ⟨file.deepCheck || given.deep, (Settings.merge file given).ignored⟩).report ∧
        ∀ name, table.get name =
          currentValue name
            (lastOf (fun v => if v.name = name then some v else none)
              ((processingOrder (file.precedence?.getD .lexical) all).flatMap (·.vars)))
            ((lastOf (fun text => if text.1 = name then some (.scalar (.ofText text.2)) else none)
                given.assignments).or
              ((lastOf (assignedIn? name) fromCommand).or
                (lastOf (assignedIn? name) fromSettings))) := by
  refine ⟨fun changes name => ?_, fun table source => ?_, fun tree file given report checked => ?_⟩
  · have value := VariableTable.get_foldl_change name changes
    refine ⟨value, ?_⟩
    rw [value, currentValue_eq_undeclared_iff, lastOf_declaration?_eq_none_iff]
  · refine ⟨assignFile_eq_error_iff, fun e refused => ?_⟩
    rw [VariableTable.change, refused]
  · obtain ⟨set, all, c, fromSettings, fromCommand, table, cloud?, read, declared, loaded, ahead,
      behind, made, rfl⟩ := lint_table checked
    refine ⟨set, all, c, fromSettings, fromCommand, _, cloud?, read, declared, loaded, ahead,
      behind, made, fun name => ?_⟩
    rw [get_foldl_changesOf, lastOf_append]

/-- A single name needs no sorting. -/
theorem load_of_single_name {directory name : String}
    (listed : ((Task.listNames directory).mapError (Failure.unlistable directory)).result tree =
      .ok [name]) :
    (Workspace.load directory).result tree =
      ([name].foldlM (Workspace.loadFile directory) .empty).result tree := by
  rw [Workspace.load, Task.result_bind, listed]
  change (([name].mergeSort (· ≤ ·)).foldlM (Workspace.loadFile directory) .empty).result _ = _
  rw [List.mergeSort_singleton]

/-- A source that declares a variable with a default, and two files that assign it. -/
def sizeTree : FileTree := .directory [
  ("src", .directory [
    ("main.tf", .file "variable \"size\" \x7b\n  default = 1\n\x7d\n".toUTF8)]),
  ("small.tfvars", .file "size = 2\n".toUTF8),
  ("large.tfvars", .file "size = 3\n".toUTF8)]

/-- Settings that name one of the two files. -/
def sizeSettings : FileSettings := { FileSettings.initial with varFiles := ["small.tfvars"] }

/-- A command line that names the other file. -/
def sizeArguments : Arguments :=
  { Arguments.initial with directory := "src", varFiles := ["large.tfvars"] }

theorem load_sizeTree :
    (Workspace.load "src").result sizeTree =
      (["main.tf"].foldlM (Workspace.loadFile "src") .empty).result sizeTree :=
  load_of_single_name rfl

theorem lint_sizeTree :
    ∃ report, (lint (.merge sizeSettings sizeArguments)).result sizeTree = .ok report := by
  refine eq_ok_of_isSome ?_
  have directory : (Settings.merge sizeSettings sizeArguments).directory = "src" := rfl
  rw [lint, Task.result_bind, loadConfiguration, Task.result_bind, directory, load_sizeTree]
  decide +kernel

/-- In the check of the source the file that the command line names goes before the other. -/
theorem values_by_precedence_sizeTree :
    ∃ report, (lint (.merge sizeSettings sizeArguments)).result sizeTree = .ok report ∧
      ∃ (all : List Declarations) (c : Configuration) (small large : Source)
        (table : VariableTable) (cloud? : Option CloudClient),
        IsReadAs sizeTree "src" "small.tfvars" small ∧
        IsReadAs sizeTree "src" "large.tfvars" large ∧
        report = (builtinRegistry.run c.templates ⟨table, cloud?⟩ ⟨false, []⟩).report ∧
        table.get "size" =
          currentValue "size"
            (lastOf (fun v => if v.name = "size" then some v else none)
              ((processingOrder .lexical all).flatMap (·.vars)))
            ((assignedIn? "size" large).or (assignedIn? "size" small)) := by
  obtain ⟨report, checked⟩ := lint_sizeTree
  obtain ⟨set, all, c, fromSettings, fromCommand, table, cloud?, _, _, _, ahead, behind, made,
    values⟩ := values_by_precedence.2.2 _ _ _ _ checked
  obtain ⟨small, _, isSmall, rest, rfl⟩ := List.forall₂_cons_left_iff.mp ahead
  obtain rfl := List.forall₂_nil_left_iff.mp rest
  obtain ⟨large, _, isLarge, rest, rfl⟩ := List.forall₂_cons_left_iff.mp behind
  obtain rfl := List.forall₂_nil_left_iff.mp rest
  refine ⟨report, checked, all, c, small, large, table, cloud?, isSmall, isLarge, made, ?_⟩
  have noTexts : sizeArguments.assignments = [] := rfl
  have usual : sizeSettings.precedence? = none := rfl
  simpa [lastOf, noTexts, usual] using values "size"

end HclLint.Command
