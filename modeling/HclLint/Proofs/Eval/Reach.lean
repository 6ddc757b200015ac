/-
# What an evaluation can depend on

An evaluation consults the table only for variables that it comes to. The token mentions some, the
current values of those mention others, and so on. Two tables that give the same answers to all of
these cannot be told apart by the token: where one evaluation goes on, goes in a circle or fails,
so does the other. How many variables there are besides does not matter either, although the bound
on the depth is taken from their number, since it is never what an evaluation stops at.

## Main definitions

* `Mentions`, `TextMentions`: the references that are written in an expression and in a text.
* `VariableTable.InReach`: the variables to which what is written leads from a text.
* `AgreeOnLookups`, `Evaluator.Consults`: rules that consult a table only for what is looked up.

## Main statements

* `consults_scalarEvaluator`, `consults_listEvaluator`: the rules for texts and lists are such.
* `Evaluator.token_congr`: tokens that are entered one inside the other are evaluated alike.
* `resolve_congr`: tables that agree on the reach of a token resolve it alike.
-/

import HclLint.Proofs.Eval.Cycle

namespace HclLint.Eval

open HclLint.Text HclLint.Hcl HclLint.Hcl.Grammar HclLint.Model

variable {α : Type} {table other : VariableTable}

/-! ## Mentioned variables -/

/-- The outline of a reference to a variable up to the name, where some number of steps follow the
root. -/
def referenceMarks (name : String) (steps : Nat) : List Mark :=
  [.node "traversal" steps, .node "variable" 1, .name "var", .node "attribute" 1, .name name]

/-- A reference to the variable is written somewhere in the expression. It may be an argument, an
operand or an index, or stand in a directive, where nothing looks it up. -/
def Mentions (name : String) (e : Expr) : Prop :=
  ∃ steps, referenceMarks name steps <:+: e.marks

/-- The text is an expression in which a reference to the variable is written. -/
def TextMentions (name text : String) : Prop :=
  ∃ e, parse text = .ok e ∧ Mentions name e

/-- The variables in the reach of a text: those that it mentions, and with each of them those that
the tokens in its current value mention. -/
inductive VariableTable.InReach (table : VariableTable) (text : String) : String → Prop where
  | mentioned {name : String} (mentions : TextMentions name text) : InReach table text name
  | behind {name next : String} {value : Value} {token : Token} (before : InReach table text name)
      (current : table.get name = .ok value) (held : value.Holds token)
      (mentions : TextMentions next token.text) : InReach table text next

/-- The outline of an interpolated expression is part of that of the template. -/
theorem marks_infix_partsMarks {parts : List Part} {trim : Trim} {inner : Expr}
    (member : .interpolation trim inner ∈ parts) : inner.marks <:+: partsMarks parts := by
  induction parts with
  | nil => cases member
  | cons part rest ih =>
    rw [partsMarks]
    rcases List.mem_cons.mp member with rfl | later
    · -- The expression stands behind the two marks of the interpolation itself.
      exact ⟨[.node "interpolation" 1, .trim trim], partsMarks rest, by simp [Part.marks]⟩
    · exact (ih later).trans (List.suffix_append _ _).isInfix

/-- What an expression looks up is mentioned in it. -/
theorem LooksUp.mentions {name : String} {steps : List Step} {e : Expr}
    (looksUp : LooksUp name steps e) : Mentions name e := by
  induction looksUp with
  | reference extent rootExtent =>
    refine ⟨steps.length + 1, [], pathMarks steps, ?_⟩
    simp [referenceMarks, Expr.marks, Form.marks, pathMarks, Step.marks]
  | parens extent below ih =>
    obtain ⟨length, written⟩ := ih
    exact ⟨length, written.trans ⟨[.node "parens" 1], [], by simp [Expr.marks, Form.marks]⟩⟩
  | @template extent parts trim inner member below ih =>
    obtain ⟨length, written⟩ := ih
    refine ⟨length, (written.trans (marks_infix_partsMarks member)).trans ?_⟩
    exact ⟨[.node "template" parts.length], [], by simp [Expr.marks, Form.marks]⟩
  | @heredoc extent delimiter parts trim inner member below ih =>
    obtain ⟨length, written⟩ := ih
    refine ⟨length, (written.trans (marks_infix_partsMarks member)).trans ?_⟩
    exact ⟨[.node "heredoc" parts.length, .name delimiter], [], by simp [Expr.marks, Form.marks]⟩

/-- A text that is a reference to a variable mentions it. -/
theorem TextRefersTo.textMentions {text name : String} (refers : TextRefersTo text name) :
    TextMentions name text := by
  obtain ⟨e, steps, parsed, looksUp⟩ := refers
  exact ⟨e, parsed, looksUp.mentions⟩

/-- A reference without steps mentions its own variable only. -/
theorem eq_of_mentions_reference {name next : String} {e : Expr} (refers : IsReferenceTo name e)
    (mentions : Mentions next e) : next = name := by
  obtain ⟨extent, form⟩ := e
  obtain ⟨⟨rootExtent, rootForm⟩, traversal, isVar⟩ := refers
  obtain rfl : form = .traversal _ [.attribute name] := traversal
  obtain rfl : rootForm = .variable "var" := isVar
  obtain ⟨steps, written⟩ := mentions
  have whole : (Expr.mk extent (.traversal (.mk rootExtent (.variable "var"))
      [.attribute name])).marks = referenceMarks name 1 := by
    simp [referenceMarks, Expr.marks, Form.marks, pathMarks, Step.marks]
  -- The outline is as long as that of any reference, and so it is the same one.
  rw [whole] at written
  have same := written.eq_of_length rfl
  simp only [referenceMarks, List.cons.injEq, Mark.name.injEq] at same
  exact same.2.2.2.2.1

/-- A text that was given on the command line mentions nothing, since it is quoted. -/
theorem not_textMentions_ofText (value name : String) :
    ¬ TextMentions name (Token.ofText value).text := by
  rintro ⟨e, parsed, steps, written⟩
  obtain ⟨extent, plain⟩ := exists_parse_ofText value
  obtain rfl := Except.ok.inj (plain.symm.trans parsed)
  -- The outline of a text is too short for a reference.
  have fits := written.length_le
  simp [referenceMarks, Expr.marks, Form.marks] at fits

/-! ## Consulting a table -/

/-- The tables give the same answers to all variables that an expression looks up. -/
def AgreeOnLookups (table other : VariableTable) (e : Expr) : Prop :=
  ∀ name steps, LooksUp name steps e → other.get name = table.get name

/-- The same for the parts of a template. -/
def AgreeOnParts (table other : VariableTable) (parts : List Part) : Prop :=
  ∀ trim inner, .interpolation trim inner ∈ parts → AgreeOnLookups table other inner

/-- Tables that agree on the parts agree on the first interpolation. -/
theorem AgreeOnParts.first {trim : Trim} {inner : Expr} {rest : List Part}
    (agree : AgreeOnParts table other (.interpolation trim inner :: rest)) :
    AgreeOnLookups table other inner :=
  agree trim inner List.mem_cons_self

theorem AgreeOnParts.tail {part : Part} {rest : List Part}
    (agree : AgreeOnParts table other (part :: rest)) : AgreeOnParts table other rest :=
  fun trim inner member => agree trim inner (.tail part member)

/-- A reference is looked up alike. -/
theorem lookup_congr {own : String} {extent : Extent} {root : Expr} {path : List Step}
    (agree : AgreeOnLookups table other (.mk extent (.traversal root path))) :
    lookup other own root path = lookup table own root path := by
  unfold lookup
  cases refers : variableReference? root path with
  | none => rfl
  | some reference =>
    obtain ⟨name, steps⟩ := reference
    obtain ⟨rootExtent, rfl, rfl⟩ := variableReference?_eq_some refers
    simp only [agree name steps (.reference extent rootExtent)]

section Texts

variable {entering : Entering String} {text : String}

mutual

/-- An expression has the same text by both tables, entered alike. The three functions of the
evaluation are treated together, along the syntax tree. -/
theorem scalarExpr_congr (e : Expr) (agree : AgreeOnLookups table other e) :
    scalarExpr other entering text e = scalarExpr table entering text e := by
  match e with
  | .mk extent form =>
    unfold scalarExpr
    exact scalarForm_congr form agree

theorem scalarForm_congr {extent : Extent} (form : Form)
    (agree : AgreeOnLookups table other (.mk extent form)) :
    scalarForm other entering text extent.text form =
      scalarForm table entering text extent.text form := by
  match form with
  | .parens inner =>
    exact scalarExpr_congr inner fun name steps below => agree name steps (.parens extent below)
  | .template parts =>
    exact scalarParts_congr parts fun trim inner member name steps below =>
      agree name steps (.template extent member below)
  | .heredoc delimiter parts =>
    have same : scalarParts other entering text parts = scalarParts table entering text parts :=
      scalarParts_congr parts fun trim inner member name steps below =>
        agree name steps (.heredoc extent delimiter member below)
    rw [scalarForm, scalarForm, same]
  | .traversal root path => rw [scalarForm, scalarForm, lookup_congr agree]
  | .string _ | .number _ | .bool _ | .variable _ | .null | .list _ | .object _
  | .conditional .. | .call .. | .unary .. | .binary .. | .listFor .. | .objectFor .. => rfl

theorem scalarParts_congr (parts : List Part) (agree : AgreeOnParts table other parts) :
    scalarParts other entering text parts = scalarParts table entering text parts := by
  match parts with
  | [] => rfl
  | .literal value :: rest => rw [scalarParts, scalarParts, scalarParts_congr rest agree.tail]
  | .interpolation trim inner :: rest =>
    rw [scalarParts, scalarParts, scalarExpr_congr inner agree.first,
      scalarParts_congr rest agree.tail]
  | .branch .. :: _ | .loop .. :: _ => rfl

end

end Texts

section Lists

variable {entering : Entering (List Token)} {token : Token}

mutual

/-- It has the same items, again along the syntax tree. -/
theorem listExpr_congr (e : Expr) (agree : AgreeOnLookups table other e) :
    listExpr other entering token e = listExpr table entering token e := by
  match e with
  | .mk extent form =>
    unfold listExpr
    exact listForm_congr form agree

theorem listForm_congr {extent : Extent} (form : Form)
    (agree : AgreeOnLookups table other (.mk extent form)) :
    listForm other entering token extent.text form =
      listForm table entering token extent.text form := by
  match form with
  | .parens inner =>
    exact listExpr_congr inner fun name steps below => agree name steps (.parens extent below)
  | .template parts =>
    exact listParts_congr parts fun trim inner member name steps below =>
      agree name steps (.template extent member below)
  | .traversal root path => rw [listForm, listForm, lookup_congr agree]
  | .list _ | .string _ | .number _ | .bool _ | .object _ | .variable _ | .null | .heredoc ..
  | .conditional .. | .call .. | .unary .. | .binary .. | .listFor .. | .objectFor .. => rfl

theorem listParts_congr (parts : List Part) (agree : AgreeOnParts table other parts) :
    listParts other entering token parts = listParts table entering token parts := by
  match parts with
  | [.interpolation trim inner] => exact listExpr_congr inner agree.first
  | [] | .literal _ :: _ | .branch .. :: _ | .loop .. :: _ | .interpolation .. :: _ :: _ => rfl

end

end Lists

/-- With the other table, the rules evaluate an expression alike if both agree on what it looks
up. -/
def Evaluator.Consults (table other : VariableTable) (evaluate evaluate' : Evaluator α) : Prop :=
  ∀ entering token e, AgreeOnLookups table other e →
    evaluate' entering token e = evaluate entering token e

theorem consults_scalarEvaluator :
    Evaluator.Consults table other (scalarEvaluator table) (scalarEvaluator other) :=
  fun _ _ e agree => scalarExpr_congr e agree

theorem consults_listEvaluator :
    Evaluator.Consults table other (listEvaluator table) (listEvaluator other) :=
  fun _ _ e agree => listExpr_congr e agree

/-! ## Tokens one inside the other -/

/-- Variables on which tables agree, closed under the references of their current values. -/
structure AgreeOn (table other : VariableTable) (known : String → Prop) : Prop where
  same : ∀ name, known name → other.get name = table.get name
  closed : ∀ name next, known name → table.RefersTo name next → known next

/-- At any depth and behind any variables, tables that agree on all to which references lead from a
token evaluate it alike. -/
theorem Evaluator.token_congr {evaluate evaluate' : Evaluator α} {known : String → Prop}
    (hinges : evaluate.Hinges table) (consults : evaluate.Consults table other evaluate')
    (agree : AgreeOn table other known) {depth : Nat} {followed : List String} {token : Token}
    (starts : ∀ name, TextRefersTo token.text name → known name) :
    evaluate'.token depth followed token = evaluate.token depth followed token := by
  induction depth generalizing followed token with
  | zero => rfl
  | succ depth ih =>
    rw [Evaluator.token, Evaluator.token]
    cases parsed : parse token.text with
    | error failure => rfl
    | ok e =>
      have lookups : AgreeOnLookups table other e := fun name steps looksUp =>
        agree.same name (starts name ⟨e, steps, parsed, looksUp⟩)
      change evaluate' (enter (evaluate'.token depth) followed) token e =
        evaluate (enter (evaluate.token depth) followed) token e
      rw [consults _ token e lookups]
      refine (hinges _ token e).congr fun name inner asked => ?_
      -- A variable is refused or entered by both, and its token leads to known variables only.
      by_cases member : name ∈ followed
      · rw [enter_of_followed member, enter_of_followed member]
      · rw [enter_of_fresh member, enter_of_fresh member]
        have known := starts name (asked.textRefersTo parsed)
        exact ih fun next refers => agree.closed name next known (asked.refersTo refers)

/-- The same within the bounds that each table sets by the number of its variables. -/
theorem Evaluator.token_depthOf_congr {evaluate evaluate' : Evaluator α} {known : String → Prop}
    (hinges : evaluate.Hinges table) (hinges' : evaluate'.Hinges other)
    (consults : evaluate.Consults table other evaluate') (agree : AgreeOn table other known)
    {token : Token} (starts : ∀ name, TextRefersTo token.text name → known name) :
    evaluate'.token (depthOf other) [] token = evaluate.token (depthOf table) [] token := by
  have ends := Evaluator.endsWith hinges token
  have ends' := Evaluator.endsWith hinges' token
  let depth := max (depthOf table) (depthOf other)
  have common : evaluate'.token depth [] token = evaluate.token depth [] token :=
    Evaluator.token_congr hinges consults agree starts
  rwa [ends.computed depth (Nat.le_max_left _ _),
    ends'.computed depth (Nat.le_max_right _ _)] at common

/-! ## Resolving -/

/-- Tables that agree on the reach of a text agree on variables closed under references. -/
theorem agreeOn_inReach {text : String}
    (agree : ∀ name, table.InReach text name → other.get name = table.get name) :
    AgreeOn table other (table.InReach text) where
  same := agree
  closed name next before refers := by
    obtain ⟨value, token, current, held, onward⟩ := refers
    exact .behind before current held onward.textMentions

/-- **Variables out of reach do not matter.** Two tables that give the same answers, values and
failures, to all variables in the reach of a token resolve it alike, as a text and as a list. The
failures are the same as well, with the cycles that they report. -/
theorem resolve_congr {token : Token}
    (agree : ∀ name, table.InReach token.text name → other.get name = table.get name) :
    resolveScalar other token = resolveScalar table token ∧
      resolveList other token = resolveList table token := by
  have reached := agreeOn_inReach agree
  have starts : ∀ name, TextRefersTo token.text name → table.InReach token.text name :=
    fun name refers => .mentioned refers.textMentions
  constructor
  · rw [resolveScalar_eq_token, resolveScalar_eq_token]
    exact Evaluator.token_depthOf_congr hinges_scalarEvaluator hinges_scalarEvaluator
      consults_scalarEvaluator reached starts
  · rw [resolveList_eq_token, resolveList_eq_token]
    rw [Evaluator.token_depthOf_congr hinges_listEvaluator hinges_listEvaluator
      consults_listEvaluator reached starts]

end HclLint.Eval
