/-
# Literals and references as whole expressions

A literal, a reference to a variable, and a template that holds nothing but such a reference:
what the grammar makes of their texts.

## Main definitions

* `EndsReference`: a text in front of which a reference ends.
* `IsReferenceTo`: an expression that refers to a variable, with no steps into it.
* `IsTemplateOf`: a template that holds nothing but such a reference.

## Main statements

* `readExpr_literal`: the text of a literal is read as a string.
* `readExpr_reference`: the text of a reference is read as that reference.
* `readExpr_interpolation`: so is a template around it.
-/

import HclLint.Hcl.Reader
import HclLint.Proofs.Text.Identifier
import HclLint.Proofs.Hcl.Literal

namespace HclLint.Hcl.Grammar

open HclLint.Text HclLint.Hcl.Parser

variable {level : Level} {setting : Setting} {text middle rest : List Char} {name : String}

/-! ## Identifiers -/

/-- The characters of an identifier, the first one set off. -/
theorem exists_toList_cons (identifier : isIdentifier name = true) :
    ∃ first more, name.toList = first :: more ∧ isIdentifierStart first = true := by
  obtain ⟨first, more, same, start, _⟩ := isIdentifier_iff.mp identifier
  exact ⟨first, more, same, start⟩

theorem startsBlank_of_isIdentifierStart {x : Char} (start : isIdentifierStart x = true) :
    startsBlank x = false := by
  have space := ne_of_isIdentifierStart (x := ' ') start rfl
  have tab := ne_of_isIdentifierStart (x := '\t') start rfl
  have feed := ne_of_isIdentifierStart (x := '\n') start rfl
  have back := ne_of_isIdentifierStart (x := '\r') start rfl
  have hash := ne_of_isIdentifierStart (x := '#') start rfl
  have slash := ne_of_isIdentifierStart (x := '/') start rfl
  simp [startsBlank, isSpace, space, tab, feed, back, hash, slash]

/-- No blank starts with a digit. -/
theorem startsBlank_of_isDigit {x : Char} (digit : x.isDigit = true) : startsBlank x = false := by
  have other : ∀ y : Char, y.isDigit = false → x ≠ y := by
    rintro y none rfl
    rw [none] at digit
    cases digit
  simp [startsBlank, isSpace, other ' ' rfl, other '\t' rfl, other '\n' rfl, other '\r' rfl,
    other '#' rfl, other '/' rfl]

/-- An identifier is read up to a character that belongs to none. -/
theorem reads_identifier (known : isIdentifier name = true)
    (ends : ∀ x ∈ rest.head?, isIdentifierRest x = false) :
    Reads identifier (name.toList ++ rest) (· = name) rest := by
  obtain ⟨first, more, same, start, goesOn⟩ := isIdentifier_iff.mp known
  rw [same, List.cons_append]
  refine (reads_satisfy start _).bind fun _ isFirst => ?_
  refine (reads_many_satisfy goesOn ends).bind fun _ isRest => ?_
  rw [isFirst, isRest, ← same, String.ofList_toList]
  exact reads_pure name rest

/-! ## Steps -/

/-- A text in front of which a reference ends: with no blank, no step, and nothing else that an
expression goes on with. -/
structure EndsReference (text : List Char) : Prop where
  name : ∀ x ∈ text.head?, isIdentifierRest x = false
  solid : ∀ x ∈ text.head?, startsBlank x = false
  dot : ∀ x ∈ text.head?, x ≠ '.'
  bracket : ∀ x ∈ text.head?, x ≠ '['
  sequel : sequelOf text = .nothing

theorem endsReference_nil : EndsReference [] where
  name _ head := by cases head
  solid _ head := by cases head
  dot _ head := by cases head
  bracket _ head := by cases head
  sequel := rfl

/-- A closing brace ends a reference, as the end of the text does. -/
theorem endsReference_brace (rest : List Char) : EndsReference ('\x7d' :: rest) where
  name := forall_mem_head?_cons (by decide) rest
  solid := forall_mem_head?_cons (by decide) rest
  dot := forall_mem_head?_cons (by decide) rest
  bracket := forall_mem_head?_cons (by decide) rest
  sequel := by cases rest <;> rfl

theorem solid_dot (rest : List Char) : ∀ x ∈ ('.' :: rest).head?, startsBlank x = false :=
  forall_mem_head?_cons (by decide) rest

/-- A reference to a variable as it is written, and the text behind it. -/
def referenceText (name : String) (rest : List Char) : List Char :=
  'v' :: 'a' :: 'r' :: '.' :: (name.toList ++ rest)

/-- A reference to a variable as it is written in a template, and the text behind it. -/
def interpolationText (name : String) (rest : List Char) : List Char :=
  '$' :: '\x7b' :: referenceText name ('\x7d' :: rest)

/-- A name behind a dot is a step. -/
theorem reads_dotStep (known : isIdentifier name = true)
    (ends : ∀ x ∈ rest.head?, isIdentifierRest x = false) :
    Reads dotStep ('.' :: (name.toList ++ rest)) (· = .attribute name) rest := by
  obtain ⟨first, more, same, start⟩ := exists_toList_cons known
  have solid : ∀ x ∈ (name.toList ++ rest).head?, startsBlank x = false := by
    rw [same]
    rintro _ ⟨⟩
    exact startsBlank_of_isIdentifierStart start
  have named : Reads (do return .attribute (← identifier) : Parser Step)
      (name.toList ++ rest) (· = .attribute name) rest :=
    (reads_identifier known ends).map fun _ => congrArg _
  refine (reads_char '.' _).bind fun _ _ => (reads_skip true solid).bind fun _ _ offset => ?_
  have star := ne_of_isIdentifierStart (x := '*') start rfl
  have digit := isDigit_of_isIdentifierStart start
  obtain ⟨step, next, read, property⟩ := named offset
  rw [same] at read ⊢
  refine ⟨step, next, ?_, property⟩
  simpa [star, digit, start] using read

theorem startsDots_reference (known : isIdentifier name = true) (rest : List Char) :
    startsDots ('.' :: (name.toList ++ rest)) = false := by
  obtain ⟨first, more, same, start⟩ := exists_toList_cons known
  have dot := ne_of_isIdentifierStart (x := '.') start rfl
  rw [same, List.cons_append]
  unfold startsDots
  split
  · next twice => exact absurd (List.cons.inj (List.cons.inj twice).2).1 dot
  · rfl

/-- It is one with or without line breaks, since no blank stands in front of it. -/
theorem reads_step (level : Level) (breaks : Bool) (known : isIdentifier name = true)
    (ends : ∀ x ∈ rest.head?, isIdentifierRest x = false) :
    Reads (step level breaks) ('.' :: (name.toList ++ rest)) (· = .attribute name) rest := by
  -- One dot opens a step, two of them would end the path.
  refine (reads_skip breaks (solid_dot _)).bind fun _ _ offset => ?_
  have reads := (reads_dotStep known ends).choice (bracketStep level)
  rw [startsDots_reference known rest]
  exact reads offset

/-- No step follows where a reference ends. -/
theorem isUndone_step (level : Level) (breaks : Bool) (ends : EndsReference text) :
    IsUndone (step level breaks) text := by
  refine (reads_skip breaks ends.solid).bind_isUndone fun _ _ offset => ?_
  have noDot : IsUndone dotStep text := (isUndone_char ends.dot).bind _
  have noBracket : IsUndone (bracketStep level) text := (isUndone_char ends.bracket).bind _
  have undone := noDot.choice noBracket
  split
  · exact ⟨_, rfl⟩
  · exact undone offset

/-- So the steps of a reference are its one name. -/
theorem reads_steps (level : Level) (breaks : Bool) (known : isIdentifier name = true)
    (ends : EndsReference rest) :
    Reads (many1 (step level breaks)) ('.' :: (name.toList ++ rest)) (· = [.attribute name])
      rest := by
  refine (reads_step level breaks known ends.name).bind fun _ first => ?_
  refine (reads_many_nil (isUndone_step level breaks ends)).bind fun _ others => ?_
  rw [first, others]
  exact reads_pure _ rest

/-! ## Terms -/

/-- Keeping the extent of a form keeps the form. -/
theorem reads_markedWith {p : Parser (Form × Setting)} {holds : Form × Setting → Prop}
    (reads : Reads p text holds rest) :
    Reads (markedWith p) text (fun a => holds (a.1.form, a.2)) rest := by
  intro offset
  obtain ⟨⟨form, after⟩, next, read, property⟩ := reads offset
  exact ⟨(.mk _ form, after), next, by rw [markedWith, read], property⟩

/-- A form that keeps the setting for what follows it. -/
theorem reads_plain {p : Parser Form} {holds : Form → Prop} (reads : Reads p text holds rest)
    (setting : Setting) :
    Reads (do return (← p, setting) : Parser (Form × Setting)) text
      (fun a => holds a.1 ∧ a.2 = setting) rest :=
  reads.map fun _ property => ⟨property, rfl⟩

/-- The word in front of the dot is a variable, as no parentheses follow. -/
theorem reads_nameOrCall_var (level : Level) (setting : Setting) (more : List Char) :
    Reads (nameOrCall level setting) ('v' :: 'a' :: 'r' :: '.' :: more)
      (fun a => a.1 = .variable "var" ∧ a.2 = setting) ('.' :: more) := by
  have known : isIdentifier "var" = true := by decide
  have ends : ∀ x ∈ ('.' :: more).head?, isIdentifierRest x = false :=
    forall_mem_head?_cons (by decide) more
  refine (reads_identifier known ends).bind fun _ same offset => ?_
  refine ⟨(.variable "var", setting), offset, ?_, rfl, rfl⟩
  simp only [rest_afterBlanks setting.breaks (solid_dot more), same]
  rfl

theorem reads_termAt_var (level : Level) (setting : Setting) (more : List Char) :
    Reads (termAt level setting) ('v' :: 'a' :: 'r' :: '.' :: more)
      (fun a => a.1.form = .variable "var" ∧ a.2 = setting) ('.' :: more) := by
  exact fun offset => reads_markedWith (reads_nameOrCall_var level setting more) offset

theorem reads_termAt_quote (setting : Setting) (holds : Form → Prop)
    (reads : Reads (quotedForm level) ('"' :: text) holds rest) :
    Reads (termAt level setting) ('"' :: text) (fun a => holds a.1.form ∧ a.2 = setting) rest :=
  fun offset => reads_markedWith (reads_plain reads setting) offset

/-! ## Expressions -/

/-- An expression is read by reading its term and then what it grows by. -/
theorem reads_exprAt (level : Level) {holds : Expr → Prop} {made : Expr × Setting → Prop}
    (term : Reads (level.term setting) text made middle)
    (grows : ∀ first a, made a →
      Reads (extend level first setting.conditionals (' ' :: middle) a.2 a.1) middle holds rest) :
    Reads (exprAt level setting) text holds rest := by
  intro offset
  obtain ⟨a, next, read, property⟩ := term offset
  obtain ⟨e, last, extended, property⟩ := grows ⟨text, offset⟩ a property next
  refine ⟨e, last, ?_, property⟩
  rw [exprAt, bind_apply, read]
  exact extended

/-- Nothing is added to an expression where a reference ends. -/
theorem reads_extend_of_ends (level : Level) (first : Cursor) (conditionals : Bool) (x : Char)
    (limit : List Char) (setting : Setting) (e : Expr) (ends : EndsReference text) :
    Reads (extend level first conditionals (x :: limit) setting e) text (· = e) text := by
  intro offset
  refine ⟨e, offset, ?_, rfl⟩
  rw [extend]
  simp only [rest_afterBlanks setting.breaks ends.solid, ends.sequel]

/-- A term that nothing follows is the whole expression. -/
theorem reads_expr_of_termAt {depth : Nat} (form : Form → Prop)
    (term : Reads (termAt (levelOf depth) setting) text
      (fun a => form a.1.form ∧ a.2 = setting) rest)
    (ends : EndsReference rest) :
    Reads ((levelOf (depth + 2)).expr setting) text (fun e => form e.form) rest := by
  refine reads_exprAt (levelOf (depth + 1)) term fun first a same => ?_
  refine (reads_extend_of_ends _ first _ ' ' rest a.2 a.1 ends).imp ?_
  rintro _ rfl
  exact same.1

theorem sequelOf_reference (known : isIdentifier name = true) (rest : List Char) :
    sequelOf ('.' :: (name.toList ++ rest)) = .steps := by
  obtain ⟨first, more, same, start⟩ := exists_toList_cons known
  have dot := ne_of_isIdentifierStart (x := '.') start rfl
  rw [same, List.cons_append]
  simp [sequelOf, dot]

/-- Steps that begin with a name extend an expression to a traversal. -/
theorem reads_extend_steps (level : Level) (first : Cursor) (conditionals : Bool) (x y : Char)
    (limit : List Char) (setting : Setting) (e : Expr) {path : List Step → Prop}
    (known : isIdentifier name = true)
    (steps : Reads (many1 (step level setting.breaks)) ('.' :: (name.toList ++ middle)) path rest)
    (ends : EndsReference rest) :
    Reads (extend level first conditionals (x :: y :: limit) setting e)
      ('.' :: (name.toList ++ middle)) (fun e' => ∃ taken, e'.form = .traversal e taken ∧ path taken)
      rest := by
  intro offset
  rw [extend]
  simp only [rest_afterBlanks setting.breaks (solid_dot _), sequelOf_reference known middle]
  refine steps.bind (fun taken led => ?_) offset
  have grows : Reads (grown first (.traversal e taken)) rest (·.form = .traversal e taken) rest :=
    fun offset => ⟨_, offset, rfl, rfl⟩
  refine grows.bind fun e' form => ?_
  refine (reads_extend_of_ends level first conditionals y limit setting e' ends).imp ?_
  rintro _ rfl
  exact ⟨taken, form, led⟩

/-- An expression that refers to a variable, with no steps into its value. -/
def IsReferenceTo (name : String) (e : Expr) : Prop :=
  ∃ root, e.form = .traversal root [.attribute name] ∧ root.form = .variable "var"

/-- A reference is read as one in every setting. -/
theorem reads_expr_reference (depth : Nat) (setting : Setting) (known : isIdentifier name = true)
    (ends : EndsReference rest) :
    Reads ((levelOf (depth + 2)).expr setting)
      (referenceText name rest) (IsReferenceTo name) rest := by
  have term := reads_termAt_var (levelOf depth) setting (name.toList ++ rest)
  refine reads_exprAt (levelOf (depth + 1)) term ?_
  rintro first ⟨e, after⟩ ⟨form, same⟩
  obtain rfl : setting = after := same.symm
  have steps := reads_steps (levelOf (depth + 1)) setting.breaks known ends
  refine (reads_extend_steps _ first _ ' ' '.' _ setting e known steps ends).imp ?_
  rintro _ ⟨_, traversal, rfl⟩
  exact ⟨e, traversal, form⟩

theorem reads_expr_literal (depth : Nat) (setting : Setting) (value : List Char)
    (ends : EndsReference rest) :
    Reads ((levelOf (depth + 2)).expr setting) ('"' :: (literalText value ++ '"' :: rest))
      (·.form = .string (String.ofList value)) rest := by
  have form := (reads_stringForm value rest).choice (quotedTemplateForm (levelOf depth))
  exact reads_expr_of_termAt (· = .string (String.ofList value))
    (reads_termAt_quote setting _ form) ends

/-! ## Templates around a reference -/

theorem isUndone_quotedText_of_marker (starts : startsMarker text = true) :
    IsUndone quotedText text := by
  intro offset
  obtain ⟨more, rfl | rfl⟩ := startsMarker_eq_true_iff.mp starts
  · exact ⟨_, rfl⟩
  · exact ⟨_, rfl⟩

theorem reads_trimMark_of_ne (other : ∀ x ∈ text.head?, x ≠ '~') :
    Reads trimMark text (· = false) text := by
  refine (isUndone_char other).optional.map fun _ same => ?_
  rw [same]
  rfl

/-- A tag without a mark ends with its brace. -/
theorem reads_tagEnd (rest : List Char) : Reads tagEnd ('\x7d' :: rest) (· = false) rest := by
  have solid := (endsReference_brace rest).solid
  have brace : ∀ x ∈ ('\x7d' :: rest).head?, x ≠ '~' := forall_mem_head?_cons (by decide) rest
  refine (reads_skip true solid).bind fun _ _ => ?_
  refine (reads_trimMark_of_ne brace).bind fun _ same => ?_
  refine (reads_demandWord "\x7d" rest).bind fun _ _ => ?_
  exact same ▸ reads_pure _ rest

/-- An expression in a template, untrimmed. -/
theorem reads_interpolation {holds : Expr → Prop}
    (first : ∀ x ∈ text.head?, startsBlank x = false ∧ x ≠ '~')
    (inner : Reads (level.expr .bracket) text holds ('\x7d' :: rest)) :
    Reads (interpolation level) ('$' :: '\x7b' :: text)
      (fun part => ∃ e, part = .interpolation ⟨false, false⟩ e ∧ holds e) rest := by
  refine (reads_word ['$', '\x7b'] _).bind fun _ _ => ?_
  refine (reads_trimMark_of_ne fun x head => (first x head).2).bind fun _ left => ?_
  refine (reads_skip true fun x head => (first x head).1).bind fun _ _ => ?_
  refine inner.bind fun e property => ?_
  refine (reads_tagEnd rest).bind fun _ right => ?_
  rw [left, right]
  exact (reads_pure _ rest).imp fun _ same => ⟨e, same, property⟩

/-- An interpolation without blanks and marks is read as the expression in it. -/
theorem reads_templatePart {holds : Expr → Prop}
    (first : ∀ x ∈ text.head?, startsBlank x = false ∧ x ≠ '~')
    (inner : Reads (level.expr .bracket) text holds ('\x7d' :: rest)) :
    Reads (templatePart level .quoted) ('$' :: '\x7b' :: text)
      (fun part => ∃ e, part = .interpolation ⟨false, false⟩ e ∧ holds e) rest := by
  have noText : IsUndone (templateText .quoted) ('$' :: '\x7b' :: text) :=
    isUndone_quotedText_of_marker rfl
  apply Reads.choice_right (noText.bind _)
  exact (reads_interpolation first inner).choice _

theorem isUndone_templatePart_quote (level : Level) (rest : List Char) :
    IsUndone (templatePart level .quoted) ('"' :: rest) := by
  have noText : IsUndone (templateText .quoted) ('"' :: rest) := isUndone_quotedText_quote rest
  have noInterpolation : IsUndone (interpolation level) ('"' :: rest) :=
    (isUndone_word rfl).bind _
  have noTag : IsUndone tagStart ('"' :: rest) := (isUndone_word rfl).bind _
  exact (noText.bind _).choice (noInterpolation.choice (noTag.bind _))

/-- A template between quotes that holds nothing but one expression. -/
theorem reads_quotedForm_interpolation {depth : Nat} {holds : Expr → Prop}
    (first : ∀ x ∈ text.head?, startsBlank x = false ∧ x ≠ '~')
    (inner : Reads ((levelOf depth).expr .bracket) text holds ('\x7d' :: '"' :: rest)) :
    Reads (quotedForm (levelOf (depth + 1))) ('"' :: '$' :: '\x7b' :: text)
      (fun form => ∃ part, form = .template [part] ∧
        ∃ e, part = .interpolation ⟨false, false⟩ e ∧ holds e) rest := by
  -- A string ends where a marker starts, and there no quote closes it.
  have noString : IsUndone stringForm ('"' :: '$' :: '\x7b' :: text) := by
    refine (reads_char '"' _).bind_isUndone fun _ _ => ?_
    refine (isUndone_quotedText_of_marker rfl).optional.bind_isUndone fun _ _ => ?_
    exact IsUndone.bind (isUndone_char (forall_mem_head?_cons (by decide) _)) _
  apply Reads.choice_right noString
  refine (reads_char '"' _).bind fun _ _ => ?_
  refine (reads_many_one (reads_templatePart first inner) (List.cons_ne_nil _ _)
    (isUndone_templatePart_quote _ rest)).bind fun _ parts => ?_
  obtain ⟨part, rfl, property⟩ := parts
  refine (reads_char '"' rest).bind fun _ _ => ?_
  exact (reads_pure _ rest).imp fun _ same => ⟨part, same, property⟩

/-- A part of a template that is a reference to a variable, untrimmed. -/
def IsInterpolationOf (name : String) (part : Part) : Prop :=
  ∃ inner, part = .interpolation ⟨false, false⟩ inner ∧ IsReferenceTo name inner

/-- A template that holds nothing but a reference to a variable. -/
def IsTemplateOf (name : String) (form : Form) : Prop :=
  ∃ part, form = .template [part] ∧ IsInterpolationOf name part

/-- A reference between markers and quotes is a template with one part. -/
theorem reads_quotedForm_reference (depth : Nat) (known : isIdentifier name = true)
    (rest : List Char) :
    Reads (quotedForm (levelOf (depth + 3))) ('"' :: interpolationText name ('"' :: rest))
      (IsTemplateOf name) rest := by
  have inner := reads_expr_reference depth .bracket known (endsReference_brace ('"' :: rest))
  exact reads_quotedForm_interpolation (forall_mem_head?_cons (by decide) _) inner

/-- It is one in every setting. -/
theorem reads_expr_template (depth : Nat) (setting : Setting) (known : isIdentifier name = true)
    (ends : EndsReference rest) :
    Reads ((levelOf (depth + 5)).expr setting) ('"' :: interpolationText name ('"' :: rest))
      (fun e => IsTemplateOf name e.form) rest := by
  exact reads_expr_of_termAt (IsTemplateOf name)
    (reads_termAt_quote setting _ (reads_quotedForm_reference depth known rest)) ends

/-! ## Whole texts -/

/-- What every level from the fifth on reads to the end of a text is read from the whole text. -/
theorem readExpr_of_reads {text : String} {holds : Expr → Prop} (some : text.toList ≠ [])
    (reads : ∀ depth, Reads ((levelOf (depth + 5)).expr .line) text.toList holds []) :
    ∃ e, readExpr text = .ok e ∧ holds e := by
  obtain ⟨x, more, same⟩ := List.exists_cons_of_ne_nil some
  -- The depth of a text is three for each character and three more.
  have deep : depthOf text.toList = (3 * more.length + 1) + 5 := by
    rw [depthOf, same, List.length_cons]
    omega
  obtain ⟨e, next, read, property⟩ := reads (3 * more.length + 1) 0
  refine ⟨e, ?_, property⟩
  rw [readExpr, deep, readAll, Cursor.ofText, read]
  rfl

/-- The token text of a text is read as the string of that text. -/
theorem readExpr_literal (value : String) :
    ∃ e, readExpr (Model.Token.ofText value).text = .ok e ∧ e.form = .string value := by
  have text : (Model.Token.ofText value).text.toList =
      '"' :: (literalText value.toList ++ ['"']) := by
    simp [Model.Token.ofText, quote, literalText]
  refine readExpr_of_reads (by simp [text]) fun depth => ?_
  rw [text]
  have reads := reads_expr_literal (depth + 3) .line value.toList endsReference_nil
  rwa [String.ofList_toList] at reads

/-- A reference is an expression by itself. -/
theorem readExpr_reference (known : isIdentifier name = true) :
    ∃ e, readExpr ("var." ++ name) = .ok e ∧ IsReferenceTo name e := by
  have text : ("var." ++ name).toList = referenceText name [] := by simp [referenceText]
  refine readExpr_of_reads (by simp) fun depth => ?_
  rw [text]
  exact reads_expr_reference (depth + 3) .line known endsReference_nil

theorem readExpr_interpolation (known : isIdentifier name = true) :
    ∃ e, readExpr ("\"$\x7bvar." ++ name ++ "\x7d\"") = .ok e ∧ IsTemplateOf name e.form := by
  have text : ("\"$\x7bvar." ++ name ++ "\x7d\"").toList =
      '"' :: interpolationText name ['"'] := by
    simp [interpolationText, referenceText]
  refine readExpr_of_reads (by simp) fun depth => ?_
  rw [text]
  exact reads_expr_template depth .line known endsReference_nil

end HclLint.Hcl.Grammar
