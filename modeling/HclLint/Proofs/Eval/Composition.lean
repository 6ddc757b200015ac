/-
# Templates denote what they are put together of

A template is written as literals and expressions by turns. It denotes the texts of all of them, one
after the other, where each can be read and evaluated by itself, and it fails where one of the
expressions fails. What an expression does not have by itself, its place in the template and the
variables that are followed for the other expressions, has no influence on it.

So an expression may be put into parentheses, and into templates that hold nothing else, as often as
one likes. What it denotes stays the same, be it a text or a list.

## Main definitions

* `IsExpression`, `IsLiteral`: texts that can be read by themselves.
* `IsComposed`: literals and expressions that a template can be put together of.
* `Wraps`: an expression in parentheses and templates.

## Main statements

* `IsComposed.exists_spells`: the parts of the template, and what they denote.
* `IsComposed.isExpression`: what is put together can itself be put into a template.
* `template_compositional`: a template denotes what it is put together of.
* `readable_pieces_compose`: without heredocs it is enough that the pieces can be read.
-/

import HclLint.Proofs.Hcl.Composition
import HclLint.Proofs.Hcl.Congruence
import HclLint.Proofs.Eval.Unplaced
import HclLint.Proofs.Eval.Verbatim

namespace HclLint.Eval

open HclLint.Text HclLint.Hcl HclLint.Hcl.Grammar HclLint.Model

variable {table : VariableTable} {e e' : Expr} {parts : List Part} {runs : List String}

/-! ## Parts of templates -/

/-- The text that the parts of a template denote by themselves. -/
def partsTextOf (table : VariableTable) (parts : List Part) : Option String :=
  (scalarParts table (enter (scalarToken table table.declared.length) []) "" parts).toOption

theorem partsTextOf_interpolation (trim : Trim) (e : Expr) (parts : List Part) :
    partsTextOf table (.interpolation trim e :: parts) =
      (textOf table e).bind fun text => (partsTextOf table parts).map (text ++ ·) := by
  rw [partsTextOf, scalarParts, toOption_bind]
  simp only [toOption_map_pure]
  rfl

theorem partsTextOf_runs (runs : List String) (parts : List Part) :
    partsTextOf table (runs.map .literal ++ parts) =
      (partsTextOf table parts).map (String.join runs ++ ·) := by
  induction runs with
  | nil => simp
  | cons run runs ih =>
    rw [List.map_cons, List.cons_append, partsTextOf, scalarParts, toOption_map_pure]
    change (partsTextOf table (runs.map .literal ++ parts)).map (run ++ ·) = _
    rw [ih, Option.map_map]
    simp [Function.comp_def, String.append_assoc]

section Forms

variable {form : Form}

/-- What an expression denotes is what its form denotes, wherever it stands. -/
theorem textOf_of_form (same : e.form.unplaced = form.unplaced) : textOf table e =
    (scalarForm table (enter (scalarToken table table.declared.length) []) "" e.text
      form).toOption := by
  obtain ⟨extent, form'⟩ := e
  have same : form'.unplaced = form.unplaced := same
  rw [textOf, scalarExpr, ← toOption_scalarForm_unplaced "" "", same,
    toOption_scalarForm_unplaced "" ""]
  rfl

theorem contentsOf_of_form (same : e.form.unplaced = form.unplaced) : contentsOf table e =
    contents (listForm table (enter (listToken table table.declared.length) []) default e.text
      form) := by
  obtain ⟨extent, form'⟩ := e
  have same : form'.unplaced = form.unplaced := same
  rw [contentsOf, listExpr, ← contents_listForm_unplaced default default, same,
    contents_listForm_unplaced default default]
  rfl

theorem textOf_template (same : e.form.unplaced = (Form.template parts).unplaced) :
    textOf table e = partsTextOf table parts := textOf_of_form same

theorem textOf_parens (same : e'.form.unplaced = (Form.parens e).unplaced) :
    textOf table e' = textOf table e := textOf_of_form same

theorem contentsOf_parens (same : e'.form.unplaced = (Form.parens e).unplaced) :
    contentsOf table e' = contentsOf table e := contentsOf_of_form same

theorem contentsOf_template {trim : Trim}
    (same : e'.form.unplaced = (Form.template [.interpolation trim e]).unplaced) :
    contentsOf table e' = contentsOf table e := contentsOf_of_form same

end Forms

theorem textOf_isText (text : IsText e.form runs) : textOf table e = some (String.join runs) := by
  obtain ⟨extent, form⟩ := e
  have text : IsText form runs := text
  cases text with
  | string => rfl
  | template =>
    change partsTextOf table (runs.map .literal) = _
    rw [← List.append_nil (runs.map Part.literal), partsTextOf_runs]
    simp [partsTextOf, scalarParts, Except.toOption]

/-! ## Literals and expressions -/

/-- The text is an expression by itself, and it holds no empty heredoc. -/
def IsExpression (text : String) : Prop := ∃ e, readWithout Form.isEmptyHeredoc text = .ok e

/-- Every expression without a doubled `<` is one, since it holds no heredoc at all. -/
theorem isExpression_of_readExpr {text : String} (read : readExpr text = .ok e)
    (lacks : LacksMark text.toList) : IsExpression text :=
  ⟨e, (readWithout_isEmptyHeredoc lacks).trans read⟩

/-- Between quotes the text is a string, or a template without interpolations and directives. -/
def IsLiteral (text : String) : Prop :=
  ∃ e runs, readExpr (quoted text) = .ok e ∧ IsText e.form runs

/-- What stands between the quotes of a template: the first literal, and behind each expression the
literal that comes next. -/
def templateContent (first : String) : List (String × String) → String
  | [] => first
  | (inner, next) :: rest =>
    first ++ ("$\x7b" ++ (inner ++ ("\x7d" ++ templateContent next rest)))

/-- The texts that a template is put together of: its expressions, and its literals between quotes
of their own. -/
def templatePieces (first : String) : List (String × String) → List String
  | [] => [quoted first]
  | (inner, next) :: rest => quoted first :: inner :: templatePieces next rest

/-- The literals and the expressions can be read by themselves, and no literal doubles the marker
behind it. -/
inductive IsComposed : String → List (String × String) → Prop
  | last {first : String} (literal : IsLiteral first) : IsComposed first []
  | insert {first inner next : String} {rest : List (String × String)} (literal : IsLiteral first)
      (plain : first.toList.getLast? ≠ some '$') (expression : IsExpression inner)
      (onward : IsComposed next rest) : IsComposed first ((inner, next) :: rest)

/-- The expression in parentheses and in templates that hold nothing else. -/
inductive Wraps (inner : String) : String → Prop
  | self : Wraps inner inner
  | parens {wrapped : String} (within : Wraps inner wrapped) : Wraps inner ("(" ++ wrapped ++ ")")
  | template {wrapped : String} (within : Wraps inner wrapped) :
      Wraps inner (quoted (templateContent "" [(wrapped, "")]))

section Tokens

variable {token : String → Token} (spelled : ∀ text, (token text).text = text)
include spelled

/-- A text that is an expression by itself denotes what the expression denotes. -/
theorem toOption_resolveScalar_of_read {text : String}
    (read : readWithout Form.isEmptyHeredoc text = .ok e) :
    (resolveScalar table (token text)).toOption = textOf table e := by
  obtain ⟨e', again, same⟩ := readExpr_of_readWithout read
  rw [toOption_resolveScalar (parse_eq_ok ((spelled text).symm ▸ again)), textOf_congr same]

theorem contents_resolveList_of_read {text : String}
    (read : readWithout Form.isEmptyHeredoc text = .ok e) :
    contents (resolveList table (token text)) = contentsOf table e := by
  obtain ⟨e', again, same⟩ := readExpr_of_readWithout read
  rw [contents_resolveList (parse_eq_ok ((spelled text).symm ▸ again)), contentsOf_congr same]

/-- A literal denotes its runs of text. -/
theorem IsLiteral.exists_runs {body : String} (literal : IsLiteral body) :
    ∃ runs, ReadsRuns body.toList runs ∧ ∀ table,
      (resolveScalar table (token (quoted body))).toOption = some (String.join runs) := by
  obtain ⟨e, _, read, text⟩ := literal
  obtain ⟨runs, reads, text⟩ := exists_readsRuns read text
  refine ⟨runs, reads, fun table => ?_⟩
  have parsed : parse (token (quoted body)).text = .ok e := by
    rw [spelled]
    exact parse_eq_ok read
  rw [toOption_resolveScalar parsed, textOf_isText text]

/-- What is put together spells the parts of a template, and they denote what its pieces denote. -/
theorem IsComposed.exists_spells {first : String} {rest : List (String × String)}
    (composed : IsComposed first rest) :
    ∃ parts, Spells (templateContent first rest).toList parts ∧
      (rest ≠ [] → ∃ trim e, .interpolation trim e ∈ parts) ∧ ∀ table,
        partsTextOf table parts = ((templatePieces first rest).mapM fun piece =>
          (resolveScalar table (token piece)).toOption).map String.join := by
  induction composed with
  | last literal =>
    obtain ⟨runs, reads, denotes⟩ := literal.exists_runs spelled
    refine ⟨_, .text reads, fun some => absurd rfl some, fun table => ?_⟩
    have nothing : partsTextOf table [] = some "" := rfl
    rw [← List.append_nil (runs.map Part.literal), partsTextOf_runs, nothing]
    simp [templatePieces, List.mapM_cons, denotes]
  | @insert first inner next rest literal plain expression _ ih =>
    obtain ⟨runs, reads, denotes⟩ := literal.exists_runs spelled
    obtain ⟨e, read⟩ := expression
    obtain ⟨parts, spells, _, same⟩ := ih
    refine ⟨runs.map .literal ++ .interpolation ⟨false, false⟩ e :: parts, ?_, fun _ =>
      ⟨_, e, List.mem_append_right _ List.mem_cons_self⟩, fun table => ?_⟩
    · simpa [templateContent] using Spells.interpolation reads plain read spells
    · rw [partsTextOf_runs, partsTextOf_interpolation, same]
      simp only [templatePieces, List.mapM_cons, denotes,
        toOption_resolveScalar_of_read spelled read]
      cases textOf table e with
      | none => rfl
      | some text =>
        cases (templatePieces next rest).mapM fun piece =>
          (resolveScalar table (token piece)).toOption with
        | none => rfl
        | some texts => simp

/-- A template denotes its pieces, one after the other. -/
theorem IsComposed.toOption_resolveScalar {first : String} {rest : List (String × String)}
    (composed : IsComposed first rest) (table : VariableTable) :
    (resolveScalar table (token (quoted (templateContent first rest)))).toOption =
      ((templatePieces first rest).mapM fun piece =>
        (resolveScalar table (token piece)).toOption).map String.join := by
  obtain ⟨parts, spells, inserted, denotes⟩ := composed.exists_spells spelled
  cases composed with
  | last =>
    simp only [templatePieces, templateContent, List.mapM_cons, List.mapM_nil]
    cases (resolveScalar table (token (quoted first))).toOption with
    | none => rfl
    | some text => simp
  | insert =>
    obtain ⟨e, read, same⟩ :=
      spells.exists_readWithout (fun _ empty => empty) (inserted (List.cons_ne_nil _ _))
    rw [toOption_resolveScalar_of_read spelled read, textOf_template same, denotes]

end Tokens

/-- What is put together can itself be put into a template. -/
theorem IsComposed.isExpression {first : String} {rest : List (String × String)}
    (composed : IsComposed first rest) (inserts : rest ≠ []) :
    IsExpression (quoted (templateContent first rest)) := by
  obtain ⟨parts, spells, inserted, _⟩ :=
    composed.exists_spells fun text => (rfl : Token.text ⟨.expression, text, .unknown⟩ = text)
  obtain ⟨e, read, _⟩ := spells.exists_readWithout (fun _ empty => empty) (inserted inserts)
  exact ⟨e, read⟩

/-- What an expression denotes, text or list, it denotes in parentheses and templates as well. -/
theorem Wraps.exists_read {inner wrapped : String} (wraps : Wraps inner wrapped)
    (read : readWithout Form.isEmptyHeredoc inner = .ok e) :
    ∃ e', readWithout Form.isEmptyHeredoc wrapped = .ok e' ∧
      ∀ table, textOf table e' = textOf table e ∧ contentsOf table e' = contentsOf table e := by
  induction wraps with
  | self => exact ⟨e, read, fun _ => ⟨rfl, rfl⟩⟩
  | parens _ ih =>
    obtain ⟨inside, read, same⟩ := ih
    obtain ⟨e', read', form⟩ := exists_readWithout_parens (fun _ empty => empty) read
    refine ⟨e', read', fun table => ?_⟩
    rw [textOf_parens form, contentsOf_parens form]
    exact same table
  | @template wrapped _ ih =>
    obtain ⟨inside, read, same⟩ := ih
    have nothing : ReadsRuns [] [] := fun rest offset =>
      ⟨offset, .nil (isUndone_quotedText_quote rest offset).choose_spec⟩
    have spells : Spells (templateContent "" [(wrapped, "")]).toList
        [.interpolation ⟨false, false⟩ inside] := by
      simpa [templateContent] using Spells.interpolation nothing (by simp) read (.text nothing)
    obtain ⟨e', read', form⟩ :=
      spells.exists_readWithout (fun _ empty => empty) ⟨_, inside, List.mem_cons_self⟩
    refine ⟨e', read', fun table => ?_⟩
    rw [contentsOf_template form, textOf_template form, partsTextOf_interpolation, (same table).1]
    refine ⟨?_, (same table).2⟩
    cases textOf table e with
    | none => rfl
    | some text => simp [partsTextOf, scalarParts, Except.toOption]

/-- What an expression denotes does not change by what is put around it. -/
theorem Wraps.denotes_alike {token : String → Token} (spelled : ∀ text, (token text).text = text)
    {inner wrapped : String} (wraps : Wraps inner wrapped) (expression : IsExpression inner)
    (table : VariableTable) :
    (resolveScalar table (token wrapped)).toOption =
        (resolveScalar table (token inner)).toOption ∧
      contents (resolveList table (token wrapped)) =
        contents (resolveList table (token inner)) := by
  obtain ⟨e, read⟩ := expression
  obtain ⟨e', read', same⟩ := wraps.exists_read read
  rw [toOption_resolveScalar_of_read spelled read, toOption_resolveScalar_of_read spelled read',
    contents_resolveList_of_read spelled read, contents_resolveList_of_read spelled read']
  exact same table

/-- **A template denotes what it is put together of.** Its literals always denote a text. The
template denotes the texts of its literals and its expressions, one after the other, and fails where
one of the expressions fails. In particular an expression denotes the same text or list, or fails as
it does by itself, in any nesting of parentheses and templates that hold nothing else. -/
theorem template_compositional (table : VariableTable) (token : String → Token)
    (spelled : ∀ text, (token text).text = text) :
    (∀ first rest, IsComposed first rest →
      (∀ literal ∈ first :: rest.map Prod.snd,
        ∃ text, resolveScalar table (token (quoted literal)) = .ok text) ∧
      (resolveScalar table (token (quoted (templateContent first rest)))).toOption =
        ((templatePieces first rest).mapM fun piece =>
          (resolveScalar table (token piece)).toOption).map String.join) ∧
    ∀ inner wrapped, IsExpression inner → Wraps inner wrapped →
      (resolveScalar table (token wrapped)).toOption =
        (resolveScalar table (token inner)).toOption ∧
      contents (resolveList table (token wrapped)) =
        contents (resolveList table (token inner)) := by
  refine ⟨fun first rest composed => ⟨?_, composed.toOption_resolveScalar spelled table⟩, ?_⟩
  · have denotes {body : String} (literal : IsLiteral body) :
        ∃ text, resolveScalar table (token (quoted body)) = .ok text := by
      obtain ⟨runs, _, same⟩ := literal.exists_runs spelled
      exact ⟨_, eq_ok_of_toOption_eq_some (same table)⟩
    induction composed with
    | last literal => simpa using denotes literal
    | insert literal _ _ _ ih =>
      rw [List.map_cons, List.forall_mem_cons]
      exact ⟨denotes literal, ih⟩
  · exact fun inner wrapped expression wraps => wraps.denotes_alike spelled expression table

/-- Whether a form is a string. -/
def isString : Form → Bool
  | .string _ => true
  | _ => false

theorem isLiteral_of_isString {body : String}
    (read : (readExpr (quoted body)).toOption.any (isString ·.form) = true) : IsLiteral body := by
  obtain ⟨⟨extent, form⟩, read, string⟩ := exists_eq_ok_of_any read
  cases form with
  | string value =>
    have text : IsText (.string value) [value] := by simpa using IsText.string [value]
    exact ⟨_, [value], read, text⟩
  | _ => cases string

/-- A variable that holds a number. -/
def sizeTable : VariableTable :=
  VariableTable.empty.declare ⟨"size", .unknown, some (.scalar ⟨.number, "1.0", .unknown⟩)⟩

/-- Escapes are decoded, numbers keep their spelling, and a dollar sign may stand at the end. -/
theorem template_compositional_numbers :
    IsComposed "a\\t" [("var.size", "-"), ("\"$\x7b007\x7d\"", "$")] ∧
      resolveScalar sizeTable
        ⟨.template, "\"a\\t$\x7bvar.size\x7d-$\x7b\"$\x7b007\x7d\"\x7d$\"", .unknown⟩ =
          .ok "a\t1.0-007$" ∧
      Wraps "007" "(\"$\x7b007\x7d\")" ∧
      resolveScalar sizeTable ⟨.template, "(\"$\x7b007\x7d\")", .unknown⟩ = .ok "007" := by
  have composed : IsComposed "a\\t" [("var.size", "-"), ("\"$\x7b007\x7d\"", "$")] :=
    .insert (isLiteral_of_isString (by decide +kernel)) (by decide +kernel)
      (eq_ok_of_isSome (by decide +kernel))
      (.insert (isLiteral_of_isString (by decide +kernel)) (by decide +kernel)
        (eq_ok_of_isSome (by decide +kernel))
        (.last (isLiteral_of_isString (by decide +kernel))))
  have wraps : Wraps "007" "(\"$\x7b007\x7d\")" := .parens (.template .self)
  obtain ⟨template, wrapped⟩ :=
    template_compositional sizeTable (fun text => ⟨.template, text, .unknown⟩) fun _ => rfl
  have joined := (template _ _ composed).2
  have same := (wrapped "007" _ (eq_ok_of_isSome (by decide +kernel)) wraps).1
  refine ⟨composed, eq_ok_of_toOption_eq_some (joined.trans ?_), wraps,
    eq_ok_of_toOption_eq_some (same.trans ?_)⟩
  · decide +kernel
  · decide +kernel

/-! ## Templates without heredocs -/

/-- Pieces that can be read by themselves, and whose expressions hold no heredocs because they do
not double a `<`. No literal but the last one doubles the marker behind it. -/
structure ArePieces (first : String) (rest : List (String × String)) : Prop where
  literals : ∀ literal ∈ first :: rest.map Prod.snd, IsLiteral literal
  plain : ∀ literal ∈ (first :: rest.map Prod.snd).dropLast, literal.toList.getLast? ≠ some '$'
  readable : ∀ inner ∈ rest.map Prod.fst, ∃ e, readExpr inner = .ok e
  lacks : ∀ inner ∈ rest.map Prod.fst, LacksMark inner.toList

/-- A template can be put together of such pieces. -/
theorem ArePieces.isComposed {first : String} {rest : List (String × String)}
    (pieces : ArePieces first rest) : IsComposed first rest := by
  obtain ⟨literals, plain, readable, lacks⟩ := pieces
  induction rest generalizing first with
  | nil => exact .last (literals first List.mem_cons_self)
  | cons piece rest ih =>
    obtain ⟨inner, next⟩ := piece
    rw [List.map_cons, List.forall_mem_cons] at literals readable lacks
    rw [List.map_cons, List.dropLast_cons_cons, List.forall_mem_cons] at plain
    obtain ⟨e, read⟩ := readable.1
    exact .insert literals.1 plain.1 (isExpression_of_readExpr read lacks.1)
      (ih literals.2 plain.2 readable.2 lacks.2)

/-- **Without a doubled `<` whatever can be read composes.** A template of literals and expressions
that can be read by themselves denotes the texts of all of them, one after the other. An expression
that can be read by itself, such a template among them, denotes the same text or list in any nesting
of parentheses and templates that hold nothing else. -/
theorem readable_pieces_compose (table : VariableTable) (token : String → Token)
    (spelled : ∀ text, (token text).text = text) :
    (∀ first rest, ArePieces first rest →
      (resolveScalar table (token (quoted (templateContent first rest)))).toOption =
        ((templatePieces first rest).mapM fun piece =>
          (resolveScalar table (token piece)).toOption).map String.join) ∧
    ∀ inner wrapped, (((∃ e, readExpr inner = .ok e) ∧ LacksMark inner.toList) ∨
        ∃ first rest, ArePieces first rest ∧ rest ≠ [] ∧
          inner = quoted (templateContent first rest)) →
      Wraps inner wrapped →
      (resolveScalar table (token wrapped)).toOption =
        (resolveScalar table (token inner)).toOption ∧
      contents (resolveList table (token wrapped)) =
        contents (resolveList table (token inner)) := by
  refine ⟨fun first rest pieces => pieces.isComposed.toOption_resolveScalar spelled table, ?_⟩
  rintro inner wrapped (⟨⟨e, read⟩, lacks⟩ | ⟨first, rest, pieces, inserts, rfl⟩) wraps
  · exact wraps.denotes_alike spelled (isExpression_of_readExpr read lacks) table
  · exact wraps.denotes_alike spelled (pieces.isComposed.isExpression inserts) table

end HclLint.Eval
