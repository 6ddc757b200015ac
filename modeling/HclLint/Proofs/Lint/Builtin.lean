/-
# The built-in detectors in a run

A built-in rule reads texts of a resource, each with the token that denotes it, and reports those
that offend. Whether it gets to do so is decided by the options and by what the account answers.
Neither the state in which an earlier run left the detector nor what it learned then plays any
part, because every preparation that succeeds replaces what was known.

## Main definitions

* `resourcesOf`: the resources of a type, in the order of the templates.
* `scalarTexts`, `elementTexts`: the texts that a rule reads of a resource.
* `BuiltinDetector.answer`: what the account answers to a detector.
* `BuiltinDetector.violations`: the texts of a resource that a detector objects to.
* `BuiltinDetector.verdict`, `BuiltinDetector.issues`: what becomes of a detector in a run, and
  what it contributes.
* `builtinReport`: the report of all built-in detectors.

## Main statements

* `elementsOf_eq`: the elements of an attribute are what it resolves to.
* `BuiltinDetector.issuesOf_inspect`: a prepared detector reports the violations of a resource.
* `report_eq_builtinReport`: what every registry of the built-in detectors reports.
-/

import HclLint.Lint.Rules
import HclLint.Proofs.Lint.Run
import HclLint.Proofs.Sequencing

namespace HclLint.Lint

open HclLint.Text HclLint.Model HclLint.Eval HclLint.Cloud

/-! ## The texts of a resource -/

/-- The resources of a type, in the order of the templates. -/
def resourcesOf (templates : List Template) (type : String) : List Resource :=
  templates.flatMap (·.ofType type)

section Texts

variable (table : VariableTable) (name : String) (r : Resource)

/-- The texts that some tokens denote, each with its token. Tokens that cannot be resolved are
left out. -/
def denotedTexts (tokens : List Token) : List (Token × String) :=
  tokens.filterMap fun token => (resolveScalar table token).toOption.map (token, ·)

/-- The text of an attribute that is first given as one token. -/
def scalarTexts : List (Token × String) := denotedTexts table (r.token? name).toList

/-- The elements of an attribute that is first given as a list of tokens, or as one token that
resolves to a list. -/
def elementsOf : List Token :=
  (r.listTokens? name <|> (r.token? name).bind fun token =>
    (resolveList table token).toOption).getD []

/-- The texts of the elements of an attribute. -/
def elementTexts : List (Token × String) := denotedTexts table (elementsOf table name r)

variable {table} in
/-- The denoted texts are those of the tokens that resolve. -/
theorem mem_denotedTexts {tokens : List Token} {token : Token} {text : String} :
    (token, text) ∈ denotedTexts table tokens ↔
      token ∈ tokens ∧ resolveScalar table token = .ok text := by
  unfold denotedTexts
  rw [List.mem_filterMap]
  constructor
  · rintro ⟨other, member, found⟩
    obtain ⟨value, resolved, same⟩ := Option.map_eq_some_iff.mp found
    obtain ⟨rfl, rfl⟩ := Prod.mk.inj same
    refine ⟨member, ?_⟩
    cases result : resolveScalar table other with
    | error e =>
      rw [result] at resolved
      cases resolved
    | ok text =>
      rw [result] at resolved
      rw [Option.some.inj resolved]
  · rintro ⟨member, resolved⟩
    refine ⟨token, member, ?_⟩
    rw [resolved]
    rfl

theorem toOption_itemOfList (p : Position) (item : Value) :
    (itemOfList p item).toOption = item.scalar? := by
  cases item <;> rfl

variable {table name r} in
/-- The elements are what the attribute resolves to. -/
theorem elementsOf_eq {a : Attribute} (found : r.attribute? name = some a) :
    elementsOf table name r = (resolveListAttribute table a).toOption.getD [] := by
  unfold elementsOf Resource.listTokens? Resource.token? resolveListAttribute
  rw [found]
  -- Only one of the two ways of being a list is open to a value.
  cases value : a.first.value with
  | scalar token => simp [value, Value.list?, Value.scalar?]
  | list items =>
    simp [value, Value.list?, Value.scalar?, ← toOption_mapM (toOption_itemOfList a.first.position)]
  | map entries => simp [value, Value.list?, Value.scalar?, Except.toOption]

variable {table name r} in
/-- A resource without the attribute has no elements of it. -/
theorem elementsOf_of_none (absent : r.attribute? name = none) : elementsOf table name r = [] := by
  unfold elementsOf Resource.listTokens? Resource.token?
  rw [absent]
  rfl

end Texts

/-! ## What the rules remark -/

/-- A list of tokens is judged one by one, and what cannot be resolved is no finding. -/
theorem issuesOf_judge {μ : Type} (d : Detector μ) (id : DetectorId) (offends : String → Bool)
    (message : String → String) (table : VariableTable) (tokens : List Token) :
    d.issuesOf (tokens.flatMap (judge id offends message table)) =
      ((denotedTexts table tokens).filter fun (_, text) => offends text).map
        fun (token, text) => d.issue token.position (message text) := by
  induction tokens with
  | nil => rfl
  | cons token tokens ih =>
    have split : d.issuesOf ((token :: tokens).flatMap (judge id offends message table)) =
        d.issuesOf (judge id offends message table token) ++
          d.issuesOf (tokens.flatMap (judge id offends message table)) := by
      rw [List.flatMap_cons]
      exact List.filterMap_append
    rw [split, ih, judge]
    -- A note is no issue, so a token that cannot be resolved adds nothing on either side.
    cases result : resolveScalar table token with
    | error e => simp [denotedTexts, result, Except.toOption, Detector.issuesOf, skipped]
    | ok text =>
      by_cases bad : offends text = true
      · simp [denotedTexts, result, Except.toOption, Detector.issuesOf, bad]
      · simp [denotedTexts, result, Except.toOption, Detector.issuesOf, bad]

theorem ValueRule.inspect_eq (rule : ValueRule) (context : Context) (r : Resource) :
    rule.inspect context r =
      (r.token? rule.attributeName).toList.flatMap
        (judge (.builtin rule.builtin) rule.offends rule.message context.table) := by
  unfold ValueRule.inspect
  cases r.token? rule.attributeName with
  | none => rfl
  | some token => simp

/-- A rule for values reports the texts that offend it, each at its token. -/
theorem ValueRule.issuesOf_inspect (rule : ValueRule) (context : Context) (r : Resource) :
    rule.detector.issuesOf (rule.inspect context r) =
      ((scalarTexts context.table rule.attributeName r).filter fun (_, text) =>
        rule.offends text).map
          fun (token, text) => rule.detector.issue token.position (rule.message text) := by
  rw [inspect_eq]
  exact issuesOf_judge _ _ _ _ _ _

/-- A rule for existence reports the elements that are not known. -/
theorem ExistenceRule.issuesOf_inspect (rule : ExistenceRule) (context : Context)
    (known : KnownIds) (r : Resource) :
    rule.detector.issuesOf (rule.inspect context known r) =
      ((elementTexts context.table rule.attributeName r).filter
        fun (_, text) => !known.contains text).map
          fun (token, text) => rule.detector.issue token.position (rule.message text) := by
  unfold ExistenceRule.inspect elementTexts
  cases found : r.attribute? rule.attributeName with
  | none =>
    rw [elementsOf_of_none found]
    rfl
  | some a =>
    rw [elementsOf_eq found]
    cases listed : resolveListAttribute context.table a with
    | error e => simp [Except.toOption, Detector.issuesOf, denotedTexts, unresolved, listed]
    | ok tokens =>
      simp only [listed, Except.toOption, Option.getD_some]
      exact issuesOf_judge _ _ _ _ _ _

/-- An existence rule asks the account that there is. A preparation that succeeds replaces what
was known. -/
theorem ExistenceRule.prepare_eq (rule : ExistenceRule) (context : Context) (known : KnownIds) :
    rule.prepare context known =
      match context.cloud?.elim (.error .unavailable) rule.query with
      | .ok ids => (.ok ⟨⟩, ids)
      | .error error => (.error error, known) := by
  unfold prepare Context.cloud
  cases context.cloud? <;> rfl

/-- What a rule finds after a preparation depends on the answer alone. -/
theorem ExistenceRule.issuesOf_prepared {rule : ExistenceRule} {context : Context}
    {ids : KnownIds} (answered : context.cloud?.elim (.error .unavailable) rule.query = .ok ids)
    (known : KnownIds) (r : Resource) :
    rule.detector.issuesOf (rule.inspect context (rule.prepare context known).2 r) =
      ((elementTexts context.table rule.attributeName r).filter
        fun (_, text) => !ids.contains text).map
          fun (token, text) => rule.detector.issue token.position (rule.message text) := by
  rw [prepare_eq, answered]
  exact rule.issuesOf_inspect context ids r

/-! ## One detector -/

namespace BuiltinDetector

/-- What the account answers to a detector. Those that do not ask learn nothing. -/
def answer (cloud? : Option CloudClient) : BuiltinDetector → Except CloudError KnownIds
  | .instancePreviousType | .metricAlarmInvalidUnit => .ok []
  | .elbInvalidSubnet => cloud?.elim (.error .unavailable) (·.subnets)
  | .albInvalidSecurityGroup => cloud?.elim (.error .unavailable) (·.securityGroups)

/-- The attribute that a detector judges. -/
def attributeName : BuiltinDetector → String
  | .instancePreviousType => "instance_type"
  | .metricAlarmInvalidUnit => "unit"
  | .elbInvalidSubnet => "subnets"
  | .albInvalidSecurityGroup => "security_groups"

/-- The texts of a resource that a detector judges. -/
def texts (table : VariableTable) (r : Resource) : BuiltinDetector → List (Token × String)
  | .instancePreviousType => scalarTexts table "instance_type" r
  | .metricAlarmInvalidUnit => scalarTexts table "unit" r
  | .elbInvalidSubnet => elementTexts table "subnets" r
  | .albInvalidSecurityGroup => elementTexts table "security_groups" r

/-- Whether a detector objects to a text, given what exists in the account. -/
def offends (known : KnownIds) (text : String) : BuiltinDetector → Bool
  | .instancePreviousType => previousInstanceTypes.contains text
  | .metricAlarmInvalidUnit => !metricUnits.contains text
  | .elbInvalidSubnet | .albInvalidSecurityGroup => !known.contains text

/-- The texts of a resource that a detector objects to. -/
def violations (table : VariableTable) (known : KnownIds) (r : Resource) (b : BuiltinDetector) :
    List (Token × String) :=
  (b.texts table r).filter fun (_, text) => b.offends known text

/-- What a detector says of a text. -/
def message (text : String) : BuiltinDetector → String
  | .instancePreviousType => about text "previous generation instance type."
  | .metricAlarmInvalidUnit => about text "invalid unit."
  | .elbInvalidSubnet => about text "invalid subnet ID."
  | .albInvalidSecurityGroup => about text "invalid security group."

/-- The issue that a text of a token is for a detector. -/
def issue (b : BuiltinDetector) (token : Token) (text : String) : Issue :=
  b.detector.issue token.position (b.message text)

/-- What becomes of a detector in a run. -/
def verdict (options : RunOptions) (cloud? : Option CloudClient) (b : BuiltinDetector) :
    DetectorState :=
  if .builtin b ∈ options.ignored then .ignored
  else if b.detector.isDeep = true ∧ options.deepCheck = false then .needsDeepCheck
  else
    match b.answer cloud? with
    | .ok _ => .done
    | .error error => .failed error.message

/-- The issues that a detector contributes to a run. -/
def issues (templates : List Template) (context : Context) (options : RunOptions)
    (b : BuiltinDetector) : List Issue :=
  if b.verdict options context.cloud? = .done then
    (resourcesOf templates b.detector.target).flatMap fun r =>
      (b.violations context.table ((b.answer context.cloud?).toOption.getD []) r).map
        fun (token, text) => b.issue token text
  else []

variable (b : BuiltinDetector)

/-- A detector that is done reports what violates its rule, by the answer that it got. -/
theorem issues_of_answer {templates : List Template} {context : Context} {options : RunOptions}
    {ids : KnownIds} (done : b.verdict options context.cloud? = .done)
    (answered : b.answer context.cloud? = .ok ids) :
    b.issues templates context options =
      (resourcesOf templates b.detector.target).flatMap fun r =>
        (b.violations context.table ids r).map fun (token, text) => b.issue token text := by
  rw [issues, if_pos done, answered]
  rfl

variable {b} in
theorem resolved_of_mem_texts {table : VariableTable} {r : Resource} {token : Token}
    {text : String} (member : (token, text) ∈ b.texts table r) :
    resolveScalar table token = .ok text := by
  cases b <;> exact (mem_denotedTexts.mp member).2

variable {b} in
/-- Every issue of a detector is about a text of a resource. -/
theorem exists_of_mem_issues {templates : List Template} {context : Context}
    {options : RunOptions} {issue : Issue} (member : issue ∈ b.issues templates context options) :
    ∃ r ∈ resourcesOf templates b.detector.target, ∃ token text,
      (token, text) ∈ b.texts context.table r ∧ issue = b.issue token text := by
  unfold issues at member
  split at member
  · obtain ⟨r, inTemplates, found⟩ := List.mem_flatMap.mp member
    obtain ⟨⟨token, text⟩, violates, rfl⟩ := List.mem_map.mp found
    exact ⟨r, inTemplates, token, text, (List.mem_filter.mp violates).1, rfl⟩
  · cases member

variable {b} in
/-- Every issue carries the detector that found it. -/
theorem detector_of_mem_issues {templates : List Template} {context : Context}
    {options : RunOptions} {issue : Issue} (member : issue ∈ b.issues templates context options) :
    issue.detector = .builtin b := by
  obtain ⟨_, _, token, text, _, rfl⟩ := exists_of_mem_issues member
  exact b.id_detector

variable (context : Context) (known : KnownIds)

/-- Whether a preparation succeeds is up to the account alone. -/
theorem fst_prepare :
    (b.detector.prepare context known).1 = (b.answer context.cloud?).map fun _ => ⟨⟩ := by
  have asking (rule : ExistenceRule) :
      (rule.prepare context known).1 =
        (context.cloud?.elim (.error .unavailable) rule.query).map fun _ => ⟨⟩ := by
    rw [rule.prepare_eq]
    cases context.cloud?.elim (.error .unavailable) rule.query <;> rfl
  cases b with
  | instancePreviousType | metricAlarmInvalidUnit => rfl
  | elbInvalidSubnet => exact asking Lint.elbInvalidSubnet
  | albInvalidSecurityGroup => exact asking Lint.albInvalidSecurityGroup

/-- A detector that is done is not passed over, and the account has answered it. -/
theorem answered_of_done {options : RunOptions} {cloud? : Option CloudClient}
    (done : b.verdict options cloud? = .done) :
    ¬ (.builtin b ∈ options.ignored ∨ b.detector.isDeep = true ∧ options.deepCheck = false) ∧
      ∃ ids, b.answer cloud? = .ok ids := by
  unfold verdict at done
  split at done
  · cases done
  · next wanted =>
    split at done
    · cases done
    · next checkable =>
      refine ⟨not_or.mpr ⟨wanted, checkable⟩, ?_⟩
      split at done
      · next ids answered => exact ⟨ids, answered⟩
      · cases done

/-- After a preparation that succeeds a detector reports the violations of a resource, whatever
it knew before. -/
theorem issuesOf_inspect {ids : KnownIds} (answered : b.answer context.cloud? = .ok ids)
    (r : Resource) :
    b.detector.issuesOf (b.detector.inspect context (b.detector.prepare context known).2 r) =
      (b.violations context.table ids r).map fun (token, text) => b.issue token text := by
  cases b with
  | instancePreviousType => exact Lint.instancePreviousType.issuesOf_inspect context r
  | metricAlarmInvalidUnit => exact Lint.metricAlarmInvalidUnit.issuesOf_inspect context r
  | elbInvalidSubnet =>
    have asked : context.cloud?.elim _ Lint.elbInvalidSubnet.query = .ok ids := answered
    exact ExistenceRule.issuesOf_prepared asked known r
  | albInvalidSecurityGroup =>
    have asked : context.cloud?.elim _ Lint.albInvalidSecurityGroup.query = .ok ids := answered
    exact ExistenceRule.issuesOf_prepared asked known r

end BuiltinDetector

/-! ## A detector's slot -/

namespace Slot

variable {s : Slot KnownIds} {b : BuiltinDetector}

theorem verdict_of_builtin (same : s.detector = b.detector) (options : RunOptions)
    (context : Context) : s.verdict options context = b.verdict options context.cloud? := by
  unfold verdict BuiltinDetector.verdict
  rw [same, b.id_detector, b.fst_prepare]
  cases b.answer context.cloud? <;> rfl

theorem findings_of_builtin (same : s.detector = b.detector) (templates : List Template)
    (context : Context) (options : RunOptions) :
    s.findings templates context options = b.issues templates context options := by
  unfold findings inspected BuiltinDetector.issues
  rw [verdict_of_builtin same]
  by_cases done : b.verdict options context.cloud? = .done
  · -- A detector that is done was prepared, and the account has answered it.
    obtain ⟨wanted, ids, answered⟩ := b.answered_of_done done
    have prepared : s.memoryAfter options context =
        (b.detector.prepare context s.memory).2 := by
      rw [memoryAfter, if_neg, same]
      rwa [IsPassedOver, same, b.id_detector]
    rw [if_pos done, if_pos done, answered, prepared, same]
    exact List.flatMap_congr fun r _ => b.issuesOf_inspect context s.memory answered r
  · rw [if_neg done, if_neg done]
    rfl

/-- What comes of slots that hold built-in detectors, one by one. -/
theorem outcomes_of_builtins {slots : List (Slot KnownIds)} {builtins : List BuiltinDetector}
    (same : slots.map (·.detector) = builtins.map (·.detector)) (templates : List Template)
    (context : Context) (options : RunOptions) :
    slots.flatMap (·.findings templates context options) =
        builtins.flatMap (·.issues templates context options) ∧
      (slots.map fun s => (s.detector.id, s.verdict options context)) =
        builtins.map fun b => (.builtin b, b.verdict options context.cloud?) := by
  -- The slots and their detectors go together one by one.
  induction slots generalizing builtins with
  | nil =>
    rw [List.map_eq_nil_iff.mp same.symm]
    exact ⟨rfl, rfl⟩
  | cons s slots ih =>
    cases builtins with
    | nil => cases same
    | cons b builtins =>
      obtain ⟨here, rest⟩ : s.detector = b.detector ∧ _ := List.cons.inj same
      obtain ⟨issues, states⟩ := ih rest
      constructor
      · rw [List.flatMap_cons, List.flatMap_cons, findings_of_builtin here, issues]
      · rw [List.map_cons, List.map_cons, verdict_of_builtin here, states, here, b.id_detector]

end Slot

/-! ## All detectors -/

/-- The report of all built-in detectors. -/
def builtinReport (templates : List Template) (context : Context) (options : RunOptions) :
    Report where
  issues := BuiltinDetector.all.flatMap (·.issues templates context options)
  states := BuiltinDetector.all.map fun b => (.builtin b, b.verdict options context.cloud?)

/-- What every registry of the built-in detectors reports, whatever states they are in and
whatever they remember. -/
theorem Registry.report_eq_builtinReport {registry : Registry KnownIds}
    (same : registry.detectors = builtinDetectors) (templates : List Template)
    (context : Context) (options : RunOptions) :
    (registry.run templates context options).report =
      builtinReport templates context options := by
  obtain ⟨issues, states⟩ := Slot.outcomes_of_builtins same templates context options
  rw [run_eq]
  exact congrArg₂ Report.mk issues states

/-- The built-in registry holds the built-in detectors in their order. -/
theorem detectors_builtinRegistry : builtinRegistry.detectors = builtinDetectors := rfl

end HclLint.Lint
