/-
# Variables that no detector comes to

A detector resolves tokens of a resource: those that the attribute which it judges is given as, and
the elements if they denote a list. What it comes to in the table is the reach of these tokens.
Whatever happens to other variables, it sees the same texts, and the report stays as it is.

## Main definitions

* `BuiltinDetector.resolved`: the tokens that a detector resolves on a resource.
* `IsConsulted`: the variables in the reach of what the detectors resolve.

## Main statements

* `builtinReport_of_agreement`: tables that agree on what is consulted have the same report.
* `unreached_variables_do_not_matter`: what happens to other variables is of no influence.
-/

import HclLint.Proofs.Eval.History
import HclLint.Proofs.Eval.Reach
import HclLint.Proofs.Eval.Transparency
import HclLint.Proofs.Lint.Builtin

namespace HclLint.Lint

open HclLint.Text HclLint.Model HclLint.Eval HclLint.Cloud

variable {table other : VariableTable} {r : Resource}

/-! ## What the detectors resolve -/

/-- The tokens that a detector resolves on a resource: the one that its attribute is given as, and
of a list the elements. -/
def BuiltinDetector.resolved (table : VariableTable) (r : Resource) : BuiltinDetector → List Token
  | .instancePreviousType => (r.token? "instance_type").toList
  | .metricAlarmInvalidUnit => (r.token? "unit").toList
  | .elbInvalidSubnet => (r.token? "subnets").toList ++ elementsOf table "subnets" r
  | .albInvalidSecurityGroup =>
    (r.token? "security_groups").toList ++ elementsOf table "security_groups" r

/-- The variable is in the reach of a token that some detector resolves on a resource of the type
that it inspects. -/
def IsConsulted (templates : List Template) (table : VariableTable) (name : String) : Prop :=
  ∃ b : BuiltinDetector, ∃ r ∈ resourcesOf templates b.detector.target,
    ∃ token ∈ b.resolved table r, table.InReach token.text name

/-- The tables agree on the reach of some tokens. -/
def AgreeOnReach (table other : VariableTable) (tokens : List Token) : Prop :=
  ∀ token ∈ tokens, ∀ name, table.InReach token.text name → other.get name = table.get name

/-- Tables that agree on what tokens reach give them the same texts. -/
theorem denotedTexts_congr {tokens : List Token} (agree : AgreeOnReach table other tokens) :
    denotedTexts other tokens = denotedTexts table tokens :=
  List.filterMap_congr fun token member => by rw [(resolve_congr (agree token member)).1]

/-- Such tables find the same elements in an attribute. -/
theorem elementsOf_congr {name : String}
    (agree : AgreeOnReach table other (r.token? name).toList) :
    elementsOf other name r = elementsOf table name r := by
  have same : ∀ token ∈ r.token? name, resolveList other token = resolveList table token :=
    fun token given => (resolve_congr (agree token (Option.mem_toList.mpr given))).2
  unfold elementsOf
  cases given : r.token? name with
  | none => rw [Option.bind_none, Option.bind_none]
  | some token => rw [Option.bind_some, Option.bind_some, same token given]

/-- The elements have the same texts if the tables agree on their reach too. -/
theorem elementTexts_congr {name : String}
    (agree : AgreeOnReach table other ((r.token? name).toList ++ elementsOf table name r)) :
    elementTexts other name r = elementTexts table name r := by
  have given : AgreeOnReach table other (r.token? name).toList :=
    fun token member => agree token (List.mem_append_left _ member)
  have elements : AgreeOnReach table other (elementsOf table name r) :=
    fun token member => agree token (List.mem_append_right _ member)
  rw [elementTexts, elementTexts, elementsOf_congr given, denotedTexts_congr elements]

/-- A detector finds the same texts on a resource where the tables agree on what it resolves. -/
theorem BuiltinDetector.texts_congr {b : BuiltinDetector}
    (agree : AgreeOnReach table other (b.resolved table r)) :
    b.texts other r = b.texts table r := by
  cases b with
  | instancePreviousType | metricAlarmInvalidUnit => exact denotedTexts_congr agree
  | elbInvalidSubnet | albInvalidSecurityGroup => exact elementTexts_congr agree

/-! ## Reports -/

section Reports

variable {templates : List Template} {cloud? : Option CloudClient} {options : RunOptions}

/-- A built-in detector reports the same by tables that agree on what it consults. -/
theorem BuiltinDetector.issues_of_agreement (b : BuiltinDetector)
    (agree : ∀ name, IsConsulted templates table name → other.get name = table.get name) :
    b.issues templates ⟨other, cloud?⟩ options = b.issues templates ⟨table, cloud?⟩ options := by
  unfold issues
  have same : ∀ r ∈ resourcesOf templates b.detector.target, b.texts other r = b.texts table r :=
    fun r inspected => texts_congr fun token resolved name reached =>
      agree name ⟨b, r, inspected, token, resolved, reached⟩
  split
  · refine List.flatMap_congr fun r inspected => ?_
    rw [violations, violations, same r inspected]
  · rfl

/-- Tables that agree on all variables that are consulted have the same report. -/
theorem builtinReport_of_agreement
    (agree : ∀ name, IsConsulted templates table name → other.get name = table.get name) :
    builtinReport templates ⟨other, cloud?⟩ options =
      builtinReport templates ⟨table, cloud?⟩ options := by
  unfold builtinReport
  simp only [BuiltinDetector.issues_of_agreement _ agree]

end Reports

/-- **Unreachable variables do not matter.** Two tables that give the same answers, values and
failures, to every variable in the reach of a token resolve it alike, as a text and as a list, down
to the failures and the cycles that they report. Hence whatever happens to a table, be it
declarations of variables, files of assignments or assigned texts, the report of the built-in
detectors stays what it was, as long as none of it concerns a variable in the reach of what they
resolve. -/
theorem unreached_variables_do_not_matter (table : VariableTable) :
    (∀ (other : VariableTable) (token : Token),
      (∀ name, table.InReach token.text name → other.get name = table.get name) →
        resolveScalar other token = resolveScalar table token ∧
          resolveList other token = resolveList table token) ∧
    ∀ (templates : List Template) (changes : List Change) (cloud? : Option CloudClient)
      (options : RunOptions),
      (∀ name, IsConsulted templates table name → ∀ change ∈ changes, ¬ change.Concerns name) →
        (builtinRegistry.run templates ⟨changes.foldl .change table, cloud?⟩ options).report =
          (builtinRegistry.run templates ⟨table, cloud?⟩ options).report := by
  refine ⟨fun other token => resolve_congr, fun templates changes cloud? options apart => ?_⟩
  rw [Registry.report_eq_builtinReport detectors_builtinRegistry,
    Registry.report_eq_builtinReport detectors_builtinRegistry]
  exact builtinReport_of_agreement fun name consulted =>
    VariableTable.get_foldl_of_unconcerned (apart name consulted) table

/-- A variable that holds a type of instances. -/
def kindTable : VariableTable :=
  VariableTable.empty.declare ⟨"kind", .unknown, some (.scalar (.ofText "m1.small"))⟩

/-- An instance of that type. -/
def kindTemplate : Template where
  file := "main.tf"
  resources := [
    { file := "main.tf"
      key := ⟨"aws_instance", "web"⟩
      position := ⟨"main.tf", 0, 1, 1⟩
      attributes := [
        ("instance_type",
          ⟨⟨⟨"main.tf", 32, 2, 3⟩, .scalar ⟨.expression, "var.kind", ⟨"main.tf", 48, 2, 19⟩⟩⟩, []⟩)] }]

/-- Another variable is declared and assigned to. -/
def zoneChanges : List Change :=
  [.declare ⟨"zone", .unknown, none⟩, .assignText "zone" "west"]

theorem eq_of_inReach_kindTable {name : String} (reached : kindTable.InReach "var.kind" name) :
    name = "kind" := by
  induction reached with
  | mentioned mentions =>
    obtain ⟨e, parsed, written⟩ := mentions
    obtain ⟨reference, read, refers⟩ : TextIsReference "kind" "var.kind" :=
      textIsReference_of_isIdentifier (by decide)
    obtain rfl := Except.ok.inj (read.symm.trans parsed)
    exact eq_of_mentions_reference refers written
  | behind before current held mentions ih =>
    subst ih
    have value : kindTable.get "kind" = .ok (.scalar (.ofText "m1.small")) := rfl
    obtain rfl := Except.ok.inj (value.symm.trans current)
    cases held
    exact absurd mentions (not_textMentions_ofText _ _)

/-- The instance is reported whether or not there is another variable. -/
theorem unreached_variables_do_not_matter_zone :
    resolveScalar (zoneChanges.foldl .change kindTable) ⟨.expression, "var.kind", .unknown⟩ =
        resolveScalar kindTable ⟨.expression, "var.kind", .unknown⟩ ∧
      (builtinRegistry.run [kindTemplate] ⟨zoneChanges.foldl .change kindTable, none⟩
          ⟨false, []⟩).report =
        (builtinRegistry.run [kindTemplate] ⟨kindTable, none⟩ ⟨false, []⟩).report := by
  have apart : ∀ name, name = "kind" → ∀ change ∈ zoneChanges, ¬ change.Concerns name := by
    rintro name rfl change member
    simp only [zoneChanges, List.mem_cons, List.not_mem_nil, or_false] at member
    rcases member with rfl | rfl <;> simp [Change.Concerns]
  have consulted : ∀ name, IsConsulted [kindTemplate] kindTable name → name = "kind" := by
    rintro name ⟨b, r, inspected, token, resolved, reached⟩
    cases b with
    | instancePreviousType =>
      obtain rfl : r = _ := List.mem_singleton.mp inspected
      obtain rfl : token = _ := List.mem_singleton.mp resolved
      exact eq_of_inReach_kindTable reached
    | metricAlarmInvalidUnit | elbInvalidSubnet | albInvalidSecurityGroup => cases inspected
  obtain ⟨alike, unchanged⟩ := unreached_variables_do_not_matter kindTable
  refine ⟨(alike (zoneChanges.foldl .change kindTable) _ fun name reached => ?_).1, ?_⟩
  · exact VariableTable.get_foldl_of_unconcerned (apart name (eq_of_inReach_kindTable reached)) _
  · exact unchanged [kindTemplate] zoneChanges none ⟨false, []⟩ fun name used =>
      apart name (consulted name used)

end HclLint.Lint
