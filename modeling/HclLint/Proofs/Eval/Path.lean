/-
# What a path leads to

A reference names a variable and goes on into its value, by keys and by indices. It leads to a part
of the value exactly if every access on its way meets what it asks for: a map that has the key, or
a list that is longer than the index. Otherwise the first access that does not is reported, and
what is written behind it plays no part. Nor does the spelling of an access: a key may be an
attribute or a string between brackets, and an index may stand behind a dot or between brackets.

## Main definitions

* `Access`: what a step asks for, however it is written.
* `Access.target?`, `partAt?`: what one access finds in a value, and what a path of them finds.
* `Access.failure`: how an access is reported that finds nothing.
* `Writes`, `Brackets`: the steps that write an access, and the same access between brackets.

## Main statements

* `stepInto_of_writes`: what a step does is told by its access.
* `walk_eq_error_iff`: a walk fails as the first access does that finds nothing.
* `lookup_follows_path`: what a reference to a variable denotes, and how it fails.
-/

import HclLint.Proofs.Eval.Derivation
import HclLint.Proofs.Hcl.Index

namespace HclLint.Eval

open HclLint.Text HclLint.Hcl HclLint.Model

/-! ## Accesses -/

/-- What a step asks of a value: the entry under a key, or the item at an index. -/
inductive Access where
  | key (name : String)
  | index (place : Nat)
  deriving DecidableEq, Repr

namespace Access

/-- What an access finds: a map has to have the key, and a list to be longer than the index. -/
def target? : Access → Value → Option Value
  | .key name, .map entries => Entries.get? name entries
  | .index place, .list items => items[place]?
  | _, _ => none

/-- How an access is reported that finds nothing. The text is that of the reference. -/
def failure (text : String) : Access → Value → EvalError
  | .key name, .map _ => .missingKey text name
  | .index place, .list items => .outOfRange text place items.length
  | _, _ => .unsupported text .badStep

end Access

/-- The part of a value that some accesses lead to, one after the other. -/
def partAt? : List Access → Value → Option Value
  | [], value => some value
  | access :: rest, value => (access.target? value).bind (partAt? rest)

/-- The step writes the access: a key as an attribute or as a string, and an index behind a dot or
as a whole number between brackets. -/
inductive Writes : Access → Step → Prop where
  | attribute (name : String) : Writes (.key name) (.attribute name)
  | string (extent : Extent) (name : String) :
      Writes (.key name) (.index (.mk extent (.string name)))
  | index {place : Nat} {step : Step} (selects : Selects place step) : Writes (.index place) step

/-- The second step is the first one, or the same access written between brackets. -/
inductive Brackets : Step → Step → Prop where
  | same (step : Step) : Brackets step step
  | key (extent : Extent) (name : String) :
      Brackets (.attribute name) (.index (.mk extent (.string name)))
  | index (extent : Extent) {place : Nat} (small : place < Numeral.wordLimit) :
      Brackets (.legacyIndex place) (.index (.mk extent (.number (.ofNat place))))

/-- The same failure with another text quoted in it. -/
def EvalError.quoting (text : String) : EvalError → EvalError
  | .unsupported _ reason => .unsupported text reason
  | .notString _ found => .notString text found
  | .notList _ found => .notList text found
  | .outOfRange _ index size => .outOfRange text index size
  | .missingKey _ key => .missingKey text key
  | .malformed _ complaint => .malformed text complaint
  | other => other

variable {table : VariableTable} {name text : String} {value target : Value} {access : Access}
  {step other : Step} {accesses : List Access} {steps others : List Step}

theorem Access.quoting_failure (access : Access) (text text' : String) (value : Value) :
    (access.failure text value).quoting text' = access.failure text' value := by
  cases access <;> cases value <;> rfl

/-- A step that is put between brackets writes the same access. -/
theorem Writes.bracketed (writes : Writes access step) (brackets : Brackets step other) :
    Writes access other := by
  cases brackets with
  | same => exact writes
  | key extent name =>
    cases writes with
    | «attribute» => exact .string extent name
    | index selects => cases selects
  | index extent small =>
    cases writes with
    | index selects =>
      cases selects
      exact .index (.number extent (Numeral.toIndex?_ofNat small))

/-! ## Walks -/

/-- What a step does to a value is told by its access. -/
theorem stepInto_of_writes (writes : Writes access step) (text : String) (value : Value) :
    stepInto text value step =
      match access.target? value with
      | some target => .ok target
      | none => .error (access.failure text value) := by
  cases writes with
  | «attribute» name | string extent name =>
    cases value with
    | scalar token | list items => rfl
    | map entries =>
      cases found : Entries.get? name entries <;>
        simp [stepInto, Expr.form, valueAtKey, Access.target?, Access.failure, found]
  | @index place _ selects =>
    cases selects with
    | number extent whole =>
      cases value with
      | scalar token | map entries => rfl
      | list items =>
        cases found : items[place]? <;>
          simp [stepInto, Expr.form, whole, itemAt, Access.target?, Access.failure, found]
    | legacy =>
      cases value with
      | scalar token | map entries => rfl
      | list items =>
        cases found : items[place]? <;>
          simp [stepInto, itemAt, Access.target?, Access.failure, found]

/-- A walk comes to the part of the value that its accesses lead to. -/
theorem walk_eq_ok_iff_partAt? (written : List.Forall₂ Writes accesses steps) :
    walk text value steps = .ok target ↔ partAt? accesses value = some target := by
  induction written generalizing value with
  | nil => simp [partAt?]
  | cons writes _ ih =>
    rw [walk_cons, stepInto_of_writes writes, partAt?]
    split
    · next found =>
      rw [found, Option.bind_some]
      exact ih
    · next found => simp [found, Except.bind]

/-- A walk fails as the first access does that finds nothing. -/
theorem walk_eq_error_iff {failure : EvalError} (written : List.Forall₂ Writes accesses steps) :
    walk text value steps = .error failure ↔
      ∃ front access back holder, accesses = front ++ access :: back ∧
        partAt? front value = some holder ∧ access.target? holder = none ∧
        failure = access.failure text holder := by
  induction written generalizing value with
  | nil => simp
  | @cons access step accesses steps writes _ ih =>
    rw [walk_cons, stepInto_of_writes writes]
    split
    · next found =>
      refine ih.trans ⟨?_, ?_⟩
      · rintro ⟨front, failing, back, holder, rfl, reached, rest⟩
        exact ⟨access :: front, failing, back, holder, rfl, by simpa [partAt?, found], rest⟩
      · rintro ⟨front, failing, back, holder, split, reached, lost, rest⟩
        -- The failing access is not the first one, which finds something.
        rcases List.cons_eq_append_iff.mp split with ⟨rfl, same⟩ | ⟨front, rfl, same⟩
        · obtain ⟨rfl, rfl⟩ := List.cons.inj same
          obtain rfl := Option.some.inj reached
          rw [found] at lost
          cases lost
        · refine ⟨front, failing, back, holder, same, ?_, lost, rest⟩
          simpa [partAt?, found] using reached
    · next found =>
      constructor
      · intro failed
        exact ⟨[], access, accesses, value, rfl, rfl, found, (Except.error.inj failed).symm⟩
      · rintro ⟨front, failing, back, holder, split, reached, lost, rfl⟩
        rcases List.cons_eq_append_iff.mp split with ⟨rfl, same⟩ | ⟨front, rfl, _⟩
        · obtain ⟨rfl, rfl⟩ := List.cons.inj same
          obtain rfl := Option.some.inj reached
          rfl
        · simp [partAt?, found] at reached

/-- A walk that has failed fails in the same way whatever the path goes on with. -/
theorem walk_append_of_error {failure : EvalError} (failed : walk text value steps = .error failure)
    (behind : List Step) : walk text value (steps ++ behind) = .error failure := by
  rw [walk] at failed ⊢
  rw [List.foldlM_append, failed]
  rfl

/-- How the accesses of a path are written shows in nothing but the text that a failure quotes. -/
theorem walk_congr_of_writes (written : List.Forall₂ Writes accesses steps)
    (rewritten : List.Forall₂ Writes accesses others) (text text' : String) (value : Value) :
    walk text' value others = (walk text value steps).mapError (·.quoting text') := by
  induction written generalizing value others with
  | nil =>
    cases rewritten
    rfl
  | cons writes _ ih =>
    obtain _ | ⟨rewrites, rewritten⟩ := rewritten
    rw [walk_cons, walk_cons, stepInto_of_writes writes, stepInto_of_writes rewrites]
    split
    · exact ih rewritten _
    · exact congrArg Except.error (Access.quoting_failure _ _ _ _).symm

/-! ## References -/

/-- A reference to a variable walks into its current value. -/
theorem lookup_eq_walk {root : Expr} (current : table.get name = .ok value)
    (isVar : root.form = .variable "var") (text : String) (steps : List Step) :
    lookup table text root (.attribute name :: steps) =
      (walk text value steps).map fun target => (name, target) := by
  obtain ⟨extent, form⟩ := root
  obtain rfl : form = .variable "var" := isVar
  simp only [lookup, variableReference?, Expr.form, current, bind, Except.bind]
  cases walk text value steps <;> rfl

theorem written_of_brackets (written : List.Forall₂ Writes accesses steps)
    (bracketed : List.Forall₂ Brackets steps others) : List.Forall₂ Writes accesses others := by
  induction written generalizing others with
  | nil =>
    cases bracketed
    exact .nil
  | cons writes _ ih =>
    obtain _ | ⟨brackets, bracketed⟩ := bracketed
    exact .cons (writes.bracketed brackets) (ih bracketed)

/-- **Indexing walks exactly the written path.** Let a variable have a value, and let steps behind
it write a sequence of accesses by keys and by indices. The reference denotes exactly the part of
the value that the accesses lead to. It fails exactly if one of them finds nothing, and as the first
such access does: a key that a map lacks is missing, an index is out of range for a list that is too
short, and any other value is not stepped into in this way. Whatever steps follow, the failure is
the same. Where attributes and indices behind a dot are written between brackets instead, the
reference denotes the same value or fails for the same reason, quoting its own text. -/
theorem lookup_follows_path {root : Expr} (current : table.get name = .ok value)
    (isVar : root.form = .variable "var") (written : List.Forall₂ Writes accesses steps)
    (text : String) :
    (∀ found, lookup table text root (.attribute name :: steps) = .ok found ↔
      ∃ target, partAt? accesses value = some target ∧ found = (name, target)) ∧
    (∀ failure, lookup table text root (.attribute name :: steps) = .error failure ↔
      ∃ front access back holder, accesses = front ++ access :: back ∧
        partAt? front value = some holder ∧ access.target? holder = none ∧
        failure = access.failure text holder) ∧
    (∀ failure behind, lookup table text root (.attribute name :: steps) = .error failure →
      lookup table text root (.attribute name :: (steps ++ behind)) = .error failure) ∧
    ∀ otherRoot otherText others, otherRoot.form = .variable "var" →
      List.Forall₂ Brackets steps others →
      lookup table otherText otherRoot (.attribute name :: others) =
        (lookup table text root (.attribute name :: steps)).mapError (·.quoting otherText) := by
  have walked := lookup_eq_walk current isVar text
  refine ⟨fun found => ?_, fun failure => ?_, fun failure behind failed => ?_,
    fun otherRoot otherText others isVar' bracketed => ?_⟩
  · rw [walked]
    cases reached : walk text value steps with
    | error failure =>
      have nowhere : ∀ target, partAt? accesses value ≠ some target := fun target part => by
        rw [(walk_eq_ok_iff_partAt? written).mpr part] at reached
        cases reached
      simp [Except.map, nowhere]
    | ok target =>
      rw [(walk_eq_ok_iff_partAt? written).mp reached]
      simp [Except.map, eq_comm]
  · rw [walked, ← walk_eq_error_iff written]
    cases walk text value steps <;> simp [Except.map]
  · rw [walked] at failed ⊢
    cases reached : walk text value steps with
    | error other =>
      rw [reached] at failed
      rw [walk_append_of_error reached, ← failed]
    | ok target =>
      rw [reached] at failed
      cases failed
  · rw [walked, lookup_eq_walk current isVar', walk_congr_of_writes written
      (written_of_brackets written bracketed) text]
    cases walk text value steps <;> rfl

/-! ## A path in both spellings -/

/-- A variable whose value is a map, with a list in it that holds a token and a map. -/
def deepTable : VariableTable :=
  { VariableTable.empty with
    declared := [("t", ⟨"t", .unknown, some (.map [("a", .list [.scalar (.ofText "x"),
      .map [("b", .list [.scalar (.ofText "y")])]])])⟩)] }

/-- The root of a reference to a variable. -/
def varRoot : Expr := .mk ⟨0, "var"⟩ (.variable "var")

/-- A key between brackets. -/
def stringStep (name : String) : Step := .index (.mk ⟨0, quote name⟩ (.string name))

/-- An index between brackets. -/
def numberStep (place : Nat) : Step := .index (.mk ⟨0, toString place⟩ (.number (.ofNat place)))

/-- The reference `var.t.a[1].b.0` and its spelling `var.t["a"][1]["b"][0]` denote the same token.
Behind `var.t.a[7]`, which is out of range, a splat plays no part. -/
theorem lookup_follows_path_deepTable :
    lookup deepTable "var.t.a[1].b.0" varRoot
        [.attribute "t", .attribute "a", numberStep 1, .attribute "b", .legacyIndex 0] =
      .ok ("t", .scalar (.ofText "y")) ∧
    lookup deepTable "var.t[\"a\"][1][\"b\"][0]" varRoot
        [.attribute "t", stringStep "a", numberStep 1, stringStep "b", numberStep 0] =
      .ok ("t", .scalar (.ofText "y")) ∧
    lookup deepTable "var.t.a[7][*]" varRoot
        [.attribute "t", .attribute "a", numberStep 7, .fullSplat] =
      .error (.outOfRange "var.t.a[7][*]" 7 2) := by
  have number (place : Nat) (small : place < Numeral.wordLimit) :
      Writes (.index place) (numberStep place) :=
    .index (.number _ (Numeral.toIndex?_ofNat small))
  have current : deepTable.get "t" = .ok _ := rfl
  have isVar : varRoot.form = .variable "var" := rfl
  have inRange : List.Forall₂ Writes [.key "a", .index 1, .key "b", .index 0]
      [.attribute "a", numberStep 1, .attribute "b", .legacyIndex 0] :=
    .cons (.attribute "a") (.cons (number 1 (by decide))
      (.cons (.attribute "b") (.cons (.index .legacy) .nil)))
  have tooFar : List.Forall₂ Writes [.key "a", .index 7] [.attribute "a", numberStep 7] :=
    .cons (.attribute "a") (.cons (number 7 (by decide)) .nil)
  obtain ⟨denotes, -, -, bracketed⟩ :=
    lookup_follows_path current isVar inRange "var.t.a[1].b.0"
  obtain ⟨-, fails, behind, -⟩ := lookup_follows_path current isVar tooFar "var.t.a[7][*]"
  have first := (denotes _).mpr ⟨_, rfl, rfl⟩
  have rewritten : List.Forall₂ Brackets
      [.attribute "a", numberStep 1, .attribute "b", .legacyIndex 0]
      [stringStep "a", numberStep 1, stringStep "b", numberStep 0] :=
    .cons (.key _ "a") (.cons (.same _) (.cons (.key _ "b")
      (.cons (.index _ (by decide)) .nil)))
  refine ⟨first, ?_, ?_⟩
  · rw [bracketed varRoot _ _ rfl rewritten, first]
    rfl
  · exact behind _ [.fullSplat] ((fails _).mpr
      ⟨[.key "a"], .index 7, [], _, rfl, rfl, rfl, rfl⟩)

end HclLint.Eval
