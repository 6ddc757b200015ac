/-
# What a report depends on

No call leaves anything behind that a later run of the built-in detectors would look at, so a
registry that was used before reports what a new one does. Of the account a run looks at the
answers to the detectors that ask for something. Where an answer fails, its detector drops out
of the report, and all others stay as they are. Without a deep check there are no answers to
look at.

## Main definitions

* `Report.without`: a report from which some detectors have dropped out.
* `droppedBy`: the detectors that drop out where an account does not answer them.

## Main statements

* `builtinReport_eq_without`: what it takes for some detectors to drop out of a report.
* `builtinReport_of_failures`: detectors that are not answered drop out, and no others.
* `builtinReport_of_shallow`: without a deep check the account does not matter.
* `run_forgets_calls`: neither does what was called before.
-/

import HclLint.Proofs.Lint.Builtin
import HclLint.Proofs.Lint.LifeCycle

namespace HclLint.Lint

open HclLint.Text HclLint.Model HclLint.Eval HclLint.Cloud

/-- The report from which some detectors have dropped out: each of them has the given state, and
its issues are gone. -/
def Report.without (dropped? : DetectorId → Option DetectorState) (report : Report) : Report where
  issues := report.issues.filter fun issue => (dropped? issue.detector).isNone
  states := report.states.map fun (id, state) => (id, (dropped? id).getD state)

namespace BuiltinDetector

variable {b : BuiltinDetector} {options : RunOptions} {cloud? other? : Option CloudClient}

theorem issues_of_ne_done {templates : List Template} {context : Context}
    (other : b.verdict options context.cloud? ≠ .done) :
    b.issues templates context options = [] :=
  if_neg other

/-- A detector that is not done fares alike in all runs where it has the same verdict. -/
theorem fares_alike_of_verdict {templates : List Template} {before after : Context}
    {wanted wanted' : RunOptions} {state : DetectorState} (other : state ≠ .done)
    (first : b.verdict wanted before.cloud? = state)
    (second : b.verdict wanted' after.cloud? = state) :
    b.verdict wanted' after.cloud? = b.verdict wanted before.cloud? ∧
      b.issues templates after wanted' = b.issues templates before wanted := by
  refine ⟨second.trans first.symm, ?_⟩
  rw [issues_of_ne_done (first.trans_ne other), issues_of_ne_done (second.trans_ne other)]

/-- Of an account only the answer to the detector matters. -/
theorem verdict_congr (same : b.answer other? = b.answer cloud?) :
    b.verdict options other? = b.verdict options cloud? := by
  unfold verdict
  rw [same]

theorem issues_congr {table : VariableTable} (templates : List Template)
    (same : b.answer other? = b.answer cloud?) :
    b.issues templates ⟨table, other?⟩ options = b.issues templates ⟨table, cloud?⟩ options := by
  unfold issues
  rw [verdict_congr same, same]

theorem verdict_of_ignored (listed : .builtin b ∈ options.ignored) :
    b.verdict options cloud? = .ignored :=
  if_pos listed

theorem verdict_of_shallow (wanted : .builtin b ∉ options.ignored)
    (deep : b.detector.isDeep = true) (shallow : options.deepCheck = false) :
    b.verdict options cloud? = .needsDeepCheck :=
  (if_neg wanted).trans (if_pos ⟨deep, shallow⟩)

theorem verdict_of_failure {error : CloudError} (wanted : .builtin b ∉ options.ignored)
    (deep : options.deepCheck = true) (failed : b.answer cloud? = .error error) :
    b.verdict options cloud? = .failed error.message := by
  have checkable : ¬ (b.detector.isDeep = true ∧ options.deepCheck = false) := by
    rw [deep]
    exact fun shallow => Bool.noConfusion shallow.2
  rw [verdict, if_neg wanted, if_neg checkable, failed]

end BuiltinDetector

/-! ## Detectors that drop out -/

/-- The state in which a detector drops out where an account does not answer it. Detectors that
are ignored are not asked. -/
def droppedBy (options : RunOptions) (cloud? : Option CloudClient) :
    DetectorId → Option DetectorState
  | .builtin b =>
    if .builtin b ∈ options.ignored then none
    else
      match b.answer cloud? with
      | .ok _ => none
      | .error error => some (.failed error.message)
  | .custom _ => none

theorem droppedBy_eq_some_iff {options : RunOptions} {cloud? : Option CloudClient}
    {b : BuiltinDetector} {state : DetectorState} :
    droppedBy options cloud? (.builtin b) = some state ↔
      .builtin b ∉ options.ignored ∧
        ∃ error, b.answer cloud? = .error error ∧ state = .failed error.message := by
  unfold droppedBy
  by_cases listed : DetectorId.builtin b ∈ options.ignored
  · simp [listed]
  · cases answer : b.answer cloud? <;> simp [listed, answer, eq_comm]

theorem droppedBy_eq_none_iff {options : RunOptions} {cloud? : Option CloudClient}
    {b : BuiltinDetector} :
    droppedBy options cloud? (.builtin b) = none ↔
      .builtin b ∈ options.ignored ∨ ∃ ids, b.answer cloud? = .ok ids := by
  unfold droppedBy
  by_cases listed : DetectorId.builtin b ∈ options.ignored
  · simp [listed]
  · cases answer : b.answer cloud? <;> simp [listed, answer]

/-- Where a client answers, it answers like an account. -/
def AnswersLike (account : Snapshot) (client : CloudClient) : Prop :=
  (∀ ids, client.subnets = .ok ids → ids = account.subnets) ∧
    ∀ ids, client.securityGroups = .ok ids → ids = account.securityGroups

/-- A detector gets the account's answer from a client, or none at all. -/
theorem answer_of_answersLike {account : Snapshot} {other? : Option CloudClient}
    (alike : ∀ other ∈ other?, AnswersLike account other) (b : BuiltinDetector) :
    b.answer other? = b.answer (some account.client) ∨
      ∃ error, b.answer other? = .error error := by
  have asking (query : CloudClient → Except CloudError KnownIds)
      (same : ∀ other ∈ other?, ∀ ids, query other = .ok ids → .ok ids = query account.client) :
      other?.elim (.error .unavailable) query = query account.client ∨
        ∃ error, other?.elim (.error .unavailable) query = .error error := by
    cases other? with
    | none => exact .inr ⟨.unavailable, rfl⟩
    | some other =>
      cases answer : query other with
      | error error => exact .inr ⟨error, answer⟩
      | ok ids => exact .inl (answer.trans (same other rfl ids answer))
  cases b with
  | instancePreviousType | metricAlarmInvalidUnit => exact .inl rfl
  | elbInvalidSubnet =>
    exact asking (·.subnets) fun other known ids answer =>
      congrArg Except.ok ((alike other known).1 ids answer)
  | albInvalidSecurityGroup =>
    exact asking (·.securityGroups) fun other known ids answer =>
      congrArg Except.ok ((alike other known).2 ids answer)

section Reports

variable {templates : List Template} {table : VariableTable}

/-- What it takes for some detectors to drop out of a report: those that do are not done, and
the others fare as before. -/
theorem builtinReport_eq_without {before after : Context} {wanted wanted' : RunOptions}
    {dropped? : DetectorId → Option DetectorState}
    (drops : ∀ b state, dropped? (.builtin b) = some state →
      b.verdict wanted' after.cloud? = state ∧ state ≠ .done)
    (stays : ∀ b : BuiltinDetector, dropped? (.builtin b) = none →
      b.verdict wanted' after.cloud? = b.verdict wanted before.cloud? ∧
        b.issues templates after wanted' = b.issues templates before wanted) :
    builtinReport templates after wanted' =
      (builtinReport templates before wanted).without dropped? := by
  refine congrArg₂ Report.mk ?_ ?_
  · simp only [builtinReport, List.filter_flatMap]
    refine List.flatMap_congr fun b _ => ?_
    -- The issues of a detector bear its name, so they stay together or go together.
    cases state : dropped? (.builtin b) with
    | none =>
      rw [(stays b state).2]
      refine (List.filter_eq_self.mpr fun issue member => ?_).symm
      rw [BuiltinDetector.detector_of_mem_issues member, state]
      rfl
    | some state' =>
      obtain ⟨verdict, other⟩ := drops b state' state
      rw [BuiltinDetector.issues_of_ne_done (verdict ▸ other)]
      refine (List.filter_eq_nil_iff.mpr fun issue member => ?_).symm
      rw [BuiltinDetector.detector_of_mem_issues member, state]
      exact Bool.false_ne_true
  · simp only [builtinReport, List.map_map]
    refine List.map_congr_left fun b _ => ?_
    cases state : dropped? (.builtin b) with
    | none => simp [state, (stays b state).1]
    | some state' => simp [state, (drops b state' state).1]

/-- Detectors whose answer has become a failure drop out of the report, and no others. -/
theorem builtinReport_of_failures {options : RunOptions} {cloud? other? : Option CloudClient}
    (deep : options.deepCheck = true)
    (agree : ∀ b : BuiltinDetector,
      b.answer other? = b.answer cloud? ∨ ∃ error, b.answer other? = .error error) :
    builtinReport templates ⟨table, other?⟩ options =
      (builtinReport templates ⟨table, cloud?⟩ options).without (droppedBy options other?) := by
  refine builtinReport_eq_without (fun b state dropped => ?_) fun b stays => ?_
  · obtain ⟨wanted, error, failed, rfl⟩ := droppedBy_eq_some_iff.mp dropped
    exact ⟨BuiltinDetector.verdict_of_failure wanted deep failed, DetectorState.noConfusion⟩
  · obtain listed | ⟨ids, answered⟩ := droppedBy_eq_none_iff.mp stays
    · exact BuiltinDetector.fares_alike_of_verdict (by decide)
        (BuiltinDetector.verdict_of_ignored listed) (BuiltinDetector.verdict_of_ignored listed)
    · obtain same | ⟨error, failed⟩ := agree b
      · exact ⟨BuiltinDetector.verdict_congr same, BuiltinDetector.issues_congr templates same⟩
      · rw [failed] at answered
        cases answered

/-- Without a deep check no detector asks the account for anything. -/
theorem builtinReport_of_shallow {options : RunOptions} (shallow : options.deepCheck = false)
    (cloud? other? : Option CloudClient) :
    builtinReport templates ⟨table, other?⟩ options =
      builtinReport templates ⟨table, cloud?⟩ options := by
  have none_dropped (report : Report) : report.without (fun _ => none) = report := by
    simp [Report.without]
  rw [← none_dropped (builtinReport templates ⟨table, cloud?⟩ options)]
  refine builtinReport_eq_without (fun _ _ dropped => nomatch dropped) fun b _ => ?_
  by_cases listed : .builtin b ∈ options.ignored
  · exact BuiltinDetector.fares_alike_of_verdict (by decide)
      (BuiltinDetector.verdict_of_ignored listed) (BuiltinDetector.verdict_of_ignored listed)
  · by_cases deep : b.detector.isDeep = true
    · exact BuiltinDetector.fares_alike_of_verdict (by decide)
        (BuiltinDetector.verdict_of_shallow listed deep shallow)
        (BuiltinDetector.verdict_of_shallow listed deep shallow)
    · -- A detector that does not check deeply has its answer from no account.
      have same : b.answer other? = b.answer cloud? := by
        cases b with
        | instancePreviousType | metricAlarmInvalidUnit => rfl
        | elbInvalidSubnet | albInvalidSecurityGroup => exact absurd rfl deep
      exact ⟨BuiltinDetector.verdict_congr same, BuiltinDetector.issues_congr templates same⟩

end Reports

/-! ## Registries that were used before -/

namespace Registry

/-- **A registry that was used before reports what a new one does.** Take a registry that holds
the built-in detectors, in any states and with anything to remember, and let it prepare, inspect
and run any number of times, for any templates and accounts. A run after that gives the same
issues and the same states as it gives for a new registry. What an earlier account has answered
is of no influence, also where the new one does not answer, or is not asked. -/
theorem run_forgets_calls {registry : Registry KnownIds} {calls : List (Call KnownIds)}
    (builtin : registry.detectors = builtinDetectors)
    (same : ∀ call ∈ calls, call.newcomer? = none) (templates : List Template)
    (context : Context) (options : RunOptions) :
    ((calls.foldl perform registry).run templates context options).report =
      (builtinRegistry.run templates context options).report := by
  -- No detector joined the others, so they are those of a new registry.
  have none_added : calls.filterMap Call.newcomer? = [] :=
    List.filterMap_eq_nil_iff.mpr same
  have kept : (calls.foldl perform registry).detectors = builtinDetectors := by
    rw [foldl_perform_detectors, none_added, List.append_nil, builtin]
  rw [report_eq_builtinReport kept, report_eq_builtinReport detectors_builtinRegistry]

end Registry

/-- A template with a load balancer in a subnet. -/
def balancerTemplate : Template where
  file := "main.tf"
  resources := [
    { file := "main.tf"
      key := ⟨"aws_elb", "web"⟩
      position := ⟨"main.tf", 0, 1, 1⟩
      attributes := [
        ("subnets", ⟨⟨⟨"main.tf", 27, 2, 3⟩, .list [.scalar (.ofText "subnet-2")]⟩, []⟩)] }]

/-- An account without the subnet. -/
def balancerAccount : Snapshot := ⟨["sg-1"], ["subnet-1"]⟩

/-- A run in which an account answers, and then phases in which there is none. -/
def earlierCalls : List (Call KnownIds) :=
  [.run [balancerTemplate] ⟨.empty, some balancerAccount.client⟩ ⟨true, []⟩,
    .prepare ⟨true, []⟩ ⟨.empty, none⟩, .inspect [balancerTemplate] ⟨.empty, none⟩]

/-- What the account has answered is still remembered, and is of no influence. -/
theorem run_forgets_calls_earlierCalls :
    (earlierCalls.foldl Registry.perform builtinRegistry).slots.map (·.memory) =
        [[], [], ["subnet-1"], ["sg-1"]] ∧
      ((earlierCalls.foldl Registry.perform builtinRegistry).run [balancerTemplate]
          ⟨.empty, none⟩ ⟨true, []⟩).report =
        (builtinRegistry.run [balancerTemplate] ⟨.empty, none⟩ ⟨true, []⟩).report :=
  ⟨by decide +kernel,
    Registry.run_forgets_calls detectors_builtinRegistry
      (by simp [earlierCalls, Call.newcomer?]) _ _ _⟩

end HclLint.Lint
