/-
# Checks without a state of the account

A check whose snapshot cannot be read, or is none, comes to the report of a check for which no
snapshot was asked. In this report the detectors that look something up in the account have
failed, and no issue is theirs. The other detectors report what they would report anyway.

## Main definitions

* `IsSnapshotAt`: the file at a path is a snapshot of an account.

## Main statements

* `lint_of_no_snapshot`: a snapshot that is of no use counts as none.
* `deep_checks_fail_closed`: what reports lose where the account does not answer.
-/

import HclLint.Command.Linter
import HclLint.Proofs.Command.Precedence
import HclLint.Proofs.Files.Result
import HclLint.Proofs.Lint.Dependence

namespace HclLint.Command

open HclLint.Text HclLint.Files HclLint.Model HclLint.Eval HclLint.Cloud HclLint.Lint

/-- The file at a path can be read, and its text describes an account. -/
def IsSnapshotAt (tree : FileTree) (path : String) (account : Snapshot) : Prop :=
  ∃ text, (Task.readText path).result tree = .ok text ∧ Snapshot.ofText? text = some account

section Snapshots

variable {tree : FileTree} {path : String}

theorem snapshot_load_eq_ok_iff {account : Snapshot} :
    (Snapshot.load path).result tree = .ok account ↔ IsSnapshotAt tree path account := by
  simp only [Snapshot.load, Task.result_note, Task.result_bind, Task.result_mapError,
    except_bind_eq_ok, mapError_eq_ok_iff]
  refine exists_congr fun text => and_congr_right fun _ => ?_
  cases Snapshot.ofText? text with
  | none =>
    constructor
    · intro ended
      cases ended
    · intro described
      cases described
  | some described =>
    change Except.ok described = .ok account ↔ _
    rw [Except.ok.injEq, Option.some.injEq]

/-- A file that is no snapshot gives no client. -/
theorem connect_of_no_snapshot (useless : ∀ account, ¬ IsSnapshotAt tree path account) :
    (connect (some path)).result tree = .ok none := by
  -- What fails to load is noted, and the check goes on without a client.
  have failed : ∃ error, (Snapshot.load path).result tree = .error error := by
    cases ended : (Snapshot.load path).result tree with
    | error error => exact ⟨error, rfl⟩
    | ok account => exact absurd (snapshot_load_eq_ok_iff.mp ended) (useless account)
  obtain ⟨error, failed⟩ := failed
  rw [connect, Task.result_bind, Task.result_attempt, failed]
  rfl

/-- A snapshot that is of no use counts as none. -/
theorem lint_of_no_snapshot {settings : Settings} (wanted : settings.cloudState? = some path)
    (useless : ∀ account, ¬ IsSnapshotAt tree path account) :
    (lint settings).result tree = (lint { settings with cloudState? := none }).result tree := by
  have unconnected : (connect settings.cloudState?).result tree = .ok none := by
    rw [wanted, connect_of_no_snapshot useless]
  have unasked : (connect none).result tree = .ok none := rfl
  simp only [lint, Task.result_bind, unconnected, unasked]
  rfl

end Snapshots

/-- **Deep checks fail closed, and only there.** Let the account answer all queries, and let a
second one, which may be missing, answer some of them alike and the others not at all. Then the
second report of a deep check is the first one from which those detectors have dropped out that
are not ignored and are not answered: their issues are gone, and they have failed. All other
issues and states are the same, in the same order. Without a deep check the account is of no
influence. In a check from the command line, a snapshot that cannot be read or decoded counts as
none. -/
theorem deep_checks_fail_closed :
    (∀ (templates : List Template) (table : VariableTable) (ignored : List DetectorId)
        (account : Snapshot) (other? : Option CloudClient),
      (∀ other ∈ other?, AnswersLike account other) →
      (builtinRegistry.run templates ⟨table, other?⟩ ⟨true, ignored⟩).report =
        (builtinRegistry.run templates ⟨table, some account.client⟩ ⟨true, ignored⟩).report.without
          (droppedBy ⟨true, ignored⟩ other?)) ∧
    (∀ (templates : List Template) (table : VariableTable) (ignored : List DetectorId)
        (cloud? other? : Option CloudClient),
      (builtinRegistry.run templates ⟨table, other?⟩ ⟨false, ignored⟩).report =
        (builtinRegistry.run templates ⟨table, cloud?⟩ ⟨false, ignored⟩).report) ∧
    ∀ (tree : FileTree) (settings : Settings) (path : String),
      settings.cloudState? = some path → (∀ account, ¬ IsSnapshotAt tree path account) →
      (lint settings).result tree =
        (lint { settings with cloudState? := none }).result tree := by
  refine ⟨?_, ?_, fun tree settings path => lint_of_no_snapshot⟩
  · intro templates table ignored account other? alike
    simp only [Registry.report_eq_builtinReport detectors_builtinRegistry]
    exact builtinReport_of_failures rfl (answer_of_answersLike alike)
  · intro templates table ignored cloud? other?
    simp only [Registry.report_eq_builtinReport detectors_builtinRegistry]
    exact builtinReport_of_shallow rfl cloud? other?

/-- Settings that ask for the state of the account at a path. -/
def sizeSettingsAt (cloudState? : Option String) : Settings :=
  { Settings.merge sizeSettings sizeArguments with cloudState? }

/-- A client that is refused an answer about subnets. -/
def refusingClient : CloudClient := ⟨.ok ["sg-1"], .error (.refused "subnets" "throttled")⟩

/-- A refused query takes the one issue out of a report. In the check of a source, a file that
is missing and one that is no snapshot do as well as none. -/
theorem deep_checks_fail_closed_balancer :
    let report (client : CloudClient) :=
      (builtinRegistry.run [balancerTemplate] ⟨.empty, some client⟩ ⟨true, []⟩).report
    (report balancerAccount.client).issues.length = 1 ∧
      (report refusingClient).issues = [] ∧
      report refusingClient =
        (report balancerAccount.client).without (droppedBy ⟨true, []⟩ (some refusingClient)) ∧
      ∃ report, (lint (sizeSettingsAt (some "missing.json"))).result sizeTree = .ok report ∧
        (lint (sizeSettingsAt (some "small.tfvars"))).result sizeTree = .ok report := by
  intro report
  have alike : ∀ other ∈ some refusingClient, AnswersLike balancerAccount other := by
    rintro _ ⟨⟩
    refine ⟨fun _ answer => ?_, fun _ answer => (Except.ok.inj answer).symm⟩
    cases answer
  have refused := deep_checks_fail_closed.1 [balancerTemplate] .empty [] balancerAccount
    (some refusingClient) alike
  have missing : ∀ account, ¬ IsSnapshotAt sizeTree "missing.json" account := by
    rintro account ⟨text, read, _⟩
    have absent : (Task.readText "missing.json").result sizeTree = .error .missing := rfl
    rw [absent] at read
    cases read
  have undecodable : ∀ account, ¬ IsSnapshotAt sizeTree "small.tfvars" account := by
    rintro account ⟨text, read, described⟩
    have here : (Task.readText "small.tfvars").result sizeTree = .ok "size = 2\n" := rfl
    rw [here] at read
    obtain rfl := Except.ok.inj read
    have nothing : Snapshot.ofText? "size = 2\n" = none := by decide +kernel
    rw [nothing] at described
    cases described
  obtain ⟨found, checked⟩ := lint_sizeTree
  refine ⟨by decide +kernel, by decide +kernel, refused, found, ?_, ?_⟩
  · exact (deep_checks_fail_closed.2.2 _ _ _ rfl missing).trans checked
  · exact (deep_checks_fail_closed.2.2 _ _ _ rfl undecodable).trans checked

end HclLint.Command
