/-
# Derivations of a text

What it means for an expression to denote a text, told without following variables by a
function. A derivation is a tree: an expression has the derivations of its parts below it, and
a reference the derivation of the token that it reaches. Each branch of the tree enters some
variables, one behind the other.

## Main definitions

* `StepsTo`, `Reaches`: one step into a value, and the steps of a path.
* `LosesBreak`: a text without one line break at its end.
* `Derivation`, `PartsDerivation`: the derivations of an expression's and of a template's text.
* `Derivation.branches`: the variables entered along each branch of a derivation.

## Main statements

* `walk_eq_ok_iff`, `lookup_eq_ok_iff`: walking a path and looking a reference up succeed
  exactly where the path leads somewhere.
* `losesBreak_dropFinalBreak`, `LosesBreak.dropFinalBreak_eq`: the final break is what is dropped.
-/

import HclLint.Eval.Resolve
import HclLint.Proofs.Sequencing

namespace HclLint.Eval

open HclLint.Text HclLint.Hcl HclLint.Model

variable {table : VariableTable} {text : String} {value target : Value}

/-! ## Paths into values -/

/-- One step leads from a value to another: a name or a string to the entry of a map under that
key, an index to the item of a list at that place. -/
inductive StepsTo : Value → Step → Value → Prop where
  | attributeKey {entries : Entries Value} {key : String} {target : Value}
      (found : entries.get? key = some target) :
      StepsTo (.map entries) (.attribute key) target
  | stringKey {entries : Entries Value} {extent : Extent} {key : String} {target : Value}
      (found : entries.get? key = some target) :
      StepsTo (.map entries) (.index (.mk extent (.string key))) target
  | legacyIndex {items : List Value} {index : Nat} {target : Value}
      (found : items[index]? = some target) : StepsTo (.list items) (.legacyIndex index) target
  | numberIndex {items : List Value} {extent : Extent} {number : Numeral} {index : Nat}
      {target : Value} (whole : number.toIndex? = some index)
      (found : items[index]? = some target) :
      StepsTo (.list items) (.index (.mk extent (.number number))) target

/-- The steps of a path lead from a value to another. -/
inductive Reaches : Value → List Step → Value → Prop where
  | here (value : Value) : Reaches value [] value
  | step {value next target : Value} {step : Step} {path : List Step}
      (taken : StepsTo value step next) (rest : Reaches next path target) :
      Reaches value (step :: path) target

/-- A key leads to the value that is held under it, and only there. -/
theorem valueAtKey_eq_ok_iff {key : String} {entries : Entries Value} :
    valueAtKey text key entries = .ok target ↔ entries.get? key = some target := by
  unfold valueAtKey
  cases entries.get? key with
  | none => simp
  | some value => simp

/-- An index leads to the item that stands there, and only there. -/
theorem itemAt_eq_ok_iff {index : Nat} {items : List Value} :
    itemAt text index items = .ok target ↔ items[index]? = some target := by
  unfold itemAt
  cases items[index]? with
  | none => simp
  | some value => simp

/-- A step of the evaluation is a step of the specification. -/
theorem stepInto_sound {step : Step} (taken : stepInto text value step = .ok target) :
    StepsTo value step target := by
  unfold stepInto at taken
  -- The cases are those in which a step fits the value, and the last one is all others.
  split at taken
  · exact .attributeKey (valueAtKey_eq_ok_iff.mp taken)
  · next entries key =>
    obtain ⟨extent, form⟩ := key
    split at taken
    · next name same =>
      obtain rfl : form = .string name := same
      exact .stringKey (valueAtKey_eq_ok_iff.mp taken)
    · cases taken
  · exact .legacyIndex (itemAt_eq_ok_iff.mp taken)
  · next items key =>
    obtain ⟨extent, form⟩ := key
    split at taken
    · next number same =>
      obtain rfl : form = .number number := same
      split at taken
      · next index whole => exact .numberIndex whole (itemAt_eq_ok_iff.mp taken)
      · cases taken
    · cases taken
  · cases taken

/-- Every step of the specification is taken by the evaluation. -/
theorem StepsTo.stepInto_eq {step : Step} (taken : StepsTo value step target) (text : String) :
    stepInto text value step = .ok target := by
  cases taken with
  | attributeKey found => exact valueAtKey_eq_ok_iff.mpr found
  | stringKey found => exact valueAtKey_eq_ok_iff.mpr found
  | legacyIndex found => exact itemAt_eq_ok_iff.mpr found
  | numberIndex whole found =>
    simp only [stepInto, Expr.form, whole]
    exact itemAt_eq_ok_iff.mpr found

/-- Walking a path succeeds exactly where the path leads somewhere. -/
theorem walk_eq_ok_iff {path : List Step} :
    walk text value path = .ok target ↔ Reaches value path target := by
  induction path generalizing value with
  | nil =>
    rw [walk_nil]
    constructor
    · intro same
      obtain rfl := Except.ok.inj same
      exact .here value
    · rintro ⟨⟩
      rfl
  | cons step path ih =>
    rw [walk_cons]
    constructor
    · intro walked
      obtain ⟨next, taken, rest⟩ := except_bind_eq_ok.mp walked
      exact .step (stepInto_sound taken) (ih.mp rest)
    · rintro (_ | ⟨taken, rest⟩)
      exact except_bind_eq_ok.mpr ⟨_, taken.stepInto_eq text, ih.mpr rest⟩

/-- A reference to a variable is `var` with the name of the variable behind it. -/
theorem variableReference?_eq_some {root : Expr} {path steps : List Step} {name : String}
    (refers : variableReference? root path = some (name, steps)) :
    ∃ extent, root = .mk extent (.variable "var") ∧ path = .attribute name :: steps := by
  obtain ⟨extent, form⟩ := root
  unfold variableReference? at refers
  split at refers
  · next _ _ isVar =>
    obtain rfl : form = .variable "var" := isVar
    obtain ⟨rfl, rfl⟩ := Prod.mk.inj (Option.some.inj refers)
    exact ⟨extent, rfl, rfl⟩
  · cases refers

/-- A reference denotes a value exactly if it names a variable and its steps lead from the
variable's current value to that value. -/
theorem lookup_eq_ok_iff {root : Expr} {path : List Step} {name : String} :
    lookup table text root path = .ok (name, target) ↔
      ∃ extent steps start, root = .mk extent (.variable "var") ∧
        path = .attribute name :: steps ∧ table.get name = .ok start ∧
        Reaches start steps target := by
  constructor
  · intro found
    unfold lookup at found
    split at found
    · cases found
    · next steps refers =>
      obtain ⟨start, current, found⟩ := except_bind_eq_ok.mp found
      obtain ⟨walked, reached, kept⟩ := except_bind_eq_ok.mp found
      obtain ⟨rfl, rfl⟩ := Prod.mk.inj (Except.ok.inj kept)
      obtain ⟨extent, rfl, rfl⟩ := variableReference?_eq_some refers
      exact ⟨extent, steps, start, rfl, rfl, current, walk_eq_ok_iff.mp reached⟩
  · rintro ⟨extent, steps, start, rfl, rfl, current, reached⟩
    have walked : walk text start steps = .ok target := walk_eq_ok_iff.mpr reached
    exact except_bind_eq_ok.mpr ⟨start, current, except_bind_eq_ok.mpr ⟨target, walked, rfl⟩⟩

/-- What a path reaches from the value of a variable is found by the look-up. -/
theorem lookup_of_reaches {name : String} {steps : List Step} {start : Value} (text : String)
    (rootExtent : Extent) (current : table.get name = .ok start)
    (reached : Reaches start steps target) :
    lookup table text (.mk rootExtent (.variable "var")) (.attribute name :: steps) =
      .ok (name, target) :=
  lookup_eq_ok_iff.mpr ⟨rootExtent, steps, start, rfl, rfl, current, reached⟩

/-! ## The final break of a heredoc -/

/-- The second text is the first one without one line break at its end, CRLF or LF. -/
inductive LosesBreak : String → String → Prop where
  | crlf (text : String) : LosesBreak (text ++ "\r\n") text
  | lf (text : String) (bare : ∀ front, text ≠ front ++ "\r") : LosesBreak (text ++ "\n") text
  | none (text : String) (unbroken : ∀ front, text ≠ front ++ "\n") : LosesBreak text text

theorem reverse_toList_append (front back : String) :
    (front ++ back).toList.reverse = back.toList.reverse ++ front.toList.reverse := by
  rw [String.toList_append, List.reverse_append]

/-- A text is told by its characters from the last one on. -/
theorem eq_append_of_reverse {text : String} (back : String) {rest : List Char}
    (ends : text.toList.reverse = back.toList.reverse ++ rest) :
    text = String.ofList rest.reverse ++ back := by
  have forward := congrArg List.reverse ends
  rw [List.reverse_reverse, List.reverse_append, List.reverse_reverse] at forward
  rw [← String.ofList_toList (s := text), forward, String.ofList_append, String.ofList_toList]

/-- What is dropped from the end of a text is one line break or nothing. -/
theorem losesBreak_dropFinalBreak (text : String) : LosesBreak text (dropFinalBreak text) := by
  unfold dropFinalBreak
  split
  · next rest ends =>
    have same := eq_append_of_reverse "\r\n" ends
    nth_rewrite 1 [same]
    exact .crlf _
  · next rest notCrlf ends =>
    have same := eq_append_of_reverse "\n" ends
    nth_rewrite 1 [same]
    -- A carriage return before the line feed would have been dropped with it.
    refine .lf _ fun front again => notCrlf front.toList.reverse ?_
    have backward := congrArg (·.toList.reverse) again
    simpa using backward
  · next notLf =>
    refine .none _ fun front same => ?_
    refine notLf front.toList.reverse ?_
    rw [same, reverse_toList_append]
    rfl

/-- The text without its last line break is determined by the whole. -/
theorem LosesBreak.dropFinalBreak_eq {whole text : String} (loses : LosesBreak whole text) :
    dropFinalBreak whole = text := by
  cases loses with
  | crlf =>
    unfold dropFinalBreak
    rw [reverse_toList_append]
    simp
  | lf text bare =>
    have ends := reverse_toList_append text "\n"
    unfold dropFinalBreak
    split
    · next rest crlf =>
      rw [ends] at crlf
      have last := eq_append_of_reverse "\r" (List.cons.inj crlf).2
      exact absurd last (bare _)
    · next rest _ lf =>
      rw [ends] at lf
      have same := eq_append_of_reverse "" (List.cons.inj lf).2
      rw [String.append_empty] at same
      exact same.symm
    · next notLf => exact absurd ends (notLf _)
  | none _ unbroken =>
    unfold dropFinalBreak
    split
    · next rest crlf => exact absurd (eq_append_of_reverse "\n" crlf) (unbroken _)
    · next rest _ lf => exact absurd (eq_append_of_reverse "\n" lf) (unbroken _)
    · rfl

/-! ## Derivations -/

mutual

/-- A derivation that an expression denotes a text. -/
inductive Derivation (table : VariableTable) : Expr → String → Type where
  | string (extent : Extent) (value : String) : Derivation table (.mk extent (.string value)) value
  | number (extent : Extent) (value : Numeral) :
      Derivation table (.mk extent (.number value)) extent.text
  | bool (extent : Extent) (value : Bool) :
      Derivation table (.mk extent (.bool value)) (if value then "true" else "false")
  | parens (extent : Extent) {inner : Expr} {text : String} (below : Derivation table inner text) :
      Derivation table (.mk extent (.parens inner)) text
  | template (extent : Extent) {parts : List Part} {text : String}
      (below : PartsDerivation table parts text) :
      Derivation table (.mk extent (.template parts)) text
  | heredoc (extent : Extent) (delimiter : String) {parts : List Part} {whole text : String}
      (below : PartsDerivation table parts whole) (loses : LosesBreak whole text) :
      Derivation table (.mk extent (.heredoc delimiter parts)) text
  /-- The variable is entered: below stands the derivation of the token that the steps lead to. -/
  | reference (extent rootExtent : Extent) (name : String) {steps : List Step} {value : Value}
      {token : Token} {e : Expr} {text : String} (current : table.get name = .ok value)
      (reached : Reaches value steps (.scalar token)) (parsed : parse token.text = .ok e)
      (below : Derivation table e text) :
      Derivation table
        (.mk extent (.traversal (.mk rootExtent (.variable "var")) (.attribute name :: steps))) text

/-- A derivation that the parts of a template denote a text, one after the other. -/
inductive PartsDerivation (table : VariableTable) : List Part → String → Type where
  | nil : PartsDerivation table [] ""
  | literal (value : String) {rest : List Part} {text : String}
      (behind : PartsDerivation table rest text) :
      PartsDerivation table (.literal value :: rest) (value ++ text)
  | interpolation (trim : Trim) {inner : Expr} {rest : List Part} {value text : String}
      (below : Derivation table inner value) (behind : PartsDerivation table rest text) :
      PartsDerivation table (.interpolation trim inner :: rest) (value ++ text)

end

mutual

/-- The variables entered along each branch of a derivation, from its root to a leaf. -/
def Derivation.branches {e : Expr} {text : String} : Derivation table e text → List (List String)
  | .string _ _ | .number _ _ | .bool _ _ => [[]]
  | .parens _ below => below.branches
  | .template _ below => below.branches
  | .heredoc _ _ below _ => below.branches
  | .reference _ _ name _ _ _ below => below.branches.map (name :: ·)

/-- The variables entered along each branch below a template. A template is a leaf itself, so
that one without parts has a branch as well. -/
def PartsDerivation.branches {parts : List Part} {text : String} :
    PartsDerivation table parts text → List (List String)
  | .nil => [[]]
  | .literal _ behind => behind.branches
  | .interpolation _ below behind => below.branches ++ behind.branches

end

end HclLint.Eval
