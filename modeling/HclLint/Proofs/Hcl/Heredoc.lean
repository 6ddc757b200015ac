/-
# Where a heredoc ends

An expression that is a heredoc was read as one from its first character on, and nothing was added
to it. Its text ends in the line of its delimiter, and the line break before that line is the last
thing that was put into its parts. A heredoc whose body could not be read has no parts.

## Main definitions

* `Answers`: a parser reads only values with a property.
* `Form.opener?`: the sign that opens a form, for those that nothing else opens.
* `Form.isGrown`: the forms that a term is not read as by itself.
* `EndsHeredoc`: how the text of a heredoc ends, and how its parts do.

## Main statements

* `answers_opener`: only its own sign opens such a form.
* `endsHeredoc_of_readExpr`: a text that is a heredoc ends with the line of its delimiter.
-/

import HclLint.Proofs.Hcl.Cutting
import HclLint.Proofs.Hcl.Rereading
import HclLint.Proofs.Hcl.Structure

namespace HclLint.Hcl

open HclLint.Text

namespace Parser

variable {α β : Type} {p q : Parser α} {f : α → Parser β} {holds : α → Prop} {after : β → Prop}
  {c next : Cursor}

/-- Whatever the parser reads has the property. -/
def Answers (p : Parser α) (holds : α → Prop) : Prop :=
  ∀ ⦃c a next⦄, p c = .read a next → holds a

theorem answers_pure {a : α} (property : holds a) : Answers (pure a) holds := by
  rintro c _ _ ⟨⟩
  exact property

/-- A sequence answers what its second parser does, given what the first one answers. -/
theorem Answers.bind (first : Answers p holds) (second : ∀ a, holds a → Answers (f a) after) :
    Answers (p >>= f) after := by
  intro c b next read
  obtain ⟨a, middle, readFirst, readSecond⟩ := bind_eq_read_iff.mp read
  exact second a (first readFirst) readSecond

/-- What is answered last is the answer. -/
theorem Answers.last (second : ∀ a, Answers (f a) after) : Answers (p >>= f) after :=
  Answers.bind (fun _ _ _ _ => trivial) fun a _ => second a

/-- A choice answers what both alternatives do. -/
theorem Answers.choice (first : Answers p holds) (second : Answers q holds) :
    Answers (choice p q) holds := by
  intro c a next read
  rcases choice_eq_read_iff.mp read with read | ⟨_, read⟩
  · exact first read
  · exact second read

theorem Answers.either (first : Answers p holds) (second : Answers q holds)
    (test : Cursor → Bool) : Answers (fun c => if test c then p c else q c) holds := by
  intro c a next read
  dsimp only at read
  split at read
  · exact first read
  · exact second read

end Parser

/-- The sign that opens the form, if it is a template, a list, an object, a comprehension, a heredoc
or in parentheses. -/
def Form.opener? : Form → Option Char
  | .template _ => some '"'
  | .list _ | .listFor .. => some '['
  | .object _ | .objectFor .. => some '\x7b'
  | .heredoc _ _ => some '<'
  | .parens _ => some '('
  | _ => none

/-- Whether the form was made of a term and what stands behind it. -/
def Form.isGrown : Form → Bool
  | .traversal .. | .conditional .. | .binary .. => true
  | _ => false

namespace Grammar

open HclLint.Hcl.Parser

variable {level : Level} {setting : Setting} {c next : Cursor}

/-! ## What opens a term -/

section Openers

variable (level : Level) (setting : Setting)

/-- Only quotes open templates. -/
theorem answers_quotedForm : Answers (quotedForm level) (∀ x ∈ ·.opener?, x = '"') := by
  have string : Answers stringForm (∀ x ∈ ·.opener?, x = '"') :=
    .last fun _ => .last fun _ => .last fun _ => answers_pure nofun
  have template : Answers (quotedTemplateForm level) (∀ x ∈ ·.opener?, x = '"') :=
    .last fun _ => .last fun _ => .last fun _ => answers_pure fun _ => Eq.symm ∘ Option.some.inj
  exact string.choice template

/-- Only square brackets open lists and comprehensions of lists. -/
theorem answers_listForm : Answers (listForm level setting) (∀ x ∈ ·.opener?, x = '[') := by
  have comprehension : Answers (listForForm level setting) (∀ x ∈ ·.opener?, x = '[') :=
    .last fun (_, _) => .last fun _ => .last fun _ => .last fun _ => .last fun _ =>
      answers_pure fun _ => Eq.symm ∘ Option.some.inj
  have items : Answers (listItemsForm level setting) (∀ x ∈ ·.opener?, x = '[') :=
    .last fun _ => .last fun _ => .last fun _ => answers_pure fun _ => Eq.symm ∘ Option.some.inj
  exact .last fun _ => (comprehension.either items startsFor).bind fun _ opens =>
    .last fun _ => answers_pure opens

/-- Only braces open objects and comprehensions of objects. -/
theorem answers_objectForm :
    Answers (objectForm level setting) (∀ x ∈ ·.1.opener?, x = '\x7b') := by
  have comprehension :
      Answers (objectForForm level setting.withBreaks) (∀ x ∈ ·.opener?, x = '\x7b') :=
    .last fun (_, _) => .last fun _ => .last fun _ => .last fun _ => .last fun _ => .last fun _ =>
      .last fun _ => .last fun _ => .last fun _ => .last fun _ =>
        answers_pure fun _ => Eq.symm ∘ Option.some.inj
  have items : Answers (objectItemsForm level) (∀ x ∈ ·.opener?, x = '\x7b') := by
    intro c form next read
    obtain ⟨entries, middle, _, made⟩ := bind_eq_read_iff.mp read
    obtain ⟨rfl, rfl⟩ := Outcome.read.inj made
    exact fun _ => Eq.symm ∘ Option.some.inj
  exact .last fun _ => (Answers.either (comprehension.bind fun _ opens => answers_pure opens)
    (items.bind fun _ opens => answers_pure opens) startsFor).bind fun _ opens =>
      .last fun _ => answers_pure opens

/-- Only a doubled sign opens heredocs. -/
theorem answers_heredocForm : Answers (heredocForm level) (∀ x ∈ ·.opener?, x = '<') :=
  .last fun _ => .last fun _ => .last fun _ => .last fun _ => .last fun _ => .last fun _ =>
    .last fun _ => answers_pure fun _ => Eq.symm ∘ Option.some.inj

theorem answers_parensForm : Answers (parensForm level) (∀ x ∈ ·.opener?, x = '(') :=
  .last fun _ => .last fun _ => .last fun _ => .last fun _ => .last fun _ =>
    answers_pure fun _ => Eq.symm ∘ Option.some.inj

theorem answers_signed (sign : Char) (op : UnaryOp) :
    Answers (signed level setting sign op) (·.1.opener? = none) :=
  .last fun _ => .last fun _ => .last fun (_, _) => answers_pure rfl

theorem answers_number (q : Parser Numeral) :
    Answers (do return (← (do return Form.number (← q)), setting) : Parser (Form × Setting))
      (·.1.opener? = none) := by
  have form : Answers (do return Form.number (← q) : Parser Form) (·.opener? = none) :=
    .last fun _ => answers_pure rfl
  exact form.bind fun _ other => answers_pure other

theorem opener?_nameForm (name : String) : (nameForm name).opener? = none := by
  unfold nameForm
  split <;> rfl

theorem answers_call (names : List String) : Answers (do
    skip setting.breaks
    let (arguments, spread) ← arguments level setting.withBreaks
    return (Form.call names arguments spread, setting.withBreaks) : Parser (Form × Setting))
    (·.1.opener? = none) :=
  .last fun _ => .last fun (_, _) => answers_pure rfl

/-- Neither names nor calls open anything. -/
theorem answers_nameOrCall : Answers (nameOrCall level setting) (·.1.opener? = none) := by
  refine .last fun name c a next read => ?_
  dsimp only at read
  split at read
  · exact Answers.last (fun more => answers_call level setting (name :: more)) read
  · exact answers_call level setting [name] read
  · obtain ⟨rfl, rfl⟩ := Outcome.read.inj read
    exact opener?_nameForm name

end Openers

/-- Only its own sign opens a form that has one. -/
theorem answers_opener {x : Char} {p : Parser (Form × Setting)}
    (reads : ReadsTerm level setting x p) : Answers p (∀ y ∈ ·.1.opener?, y = x) := by
  have other (answers : Answers p (·.1.opener? = none)) : Answers p (∀ y ∈ ·.1.opener?, y = x) := by
    intro c a next read
    rw [answers read]
    exact nofun
  cases reads with
  | quoted => exact (answers_quotedForm level).bind fun _ opens => answers_pure opens
  | list => exact (answers_listForm level _).bind fun _ opens => answers_pure opens
  | object => exact answers_objectForm level setting
  | heredoc => exact (answers_heredocForm level).bind fun _ opens => answers_pure opens
  | parens => exact (answers_parensForm level).bind fun _ opens => answers_pure opens
  | negative => exact other ((answers_number setting _).choice (answers_signed level setting _ _))
  | negation => exact other (answers_signed level setting _ _)
  | number => exact other (answers_number setting _)
  | name => exact other (answers_nameOrCall level setting)

/-- A term with a sign of its own is read behind that sign. -/
theorem exists_rest_of_opener {x : Char} {a : Expr × Setting}
    (read : termAt level setting c = .read a next) (opens : a.1.form.opener? = some x) :
    ∃ rest, c.rest = x :: rest := by
  obtain ⟨y, p, first, reads, marked⟩ := exists_readsTerm read
  obtain rfl := answers_opener reads (read_of_markedWith marked) x opens
  exact List.head?_eq_some_iff.mp first

/-- A term with a sign of its own is read with what that sign opens. -/
theorem read_of_opener {x : Char} {p : Parser (Form × Setting)} {a : Expr × Setting}
    (reads : ReadsTerm level setting x p) (read : termAt level setting c = .read a next)
    (opens : a.1.form.opener? = some x) : p c = .read (a.1.form, a.2) next := by
  obtain ⟨rest, same⟩ := exists_rest_of_opener read opens
  obtain ⟨_, offset⟩ := c
  obtain rfl : _ = x :: rest := same
  exact read_of_markedWith ((termAt_of_readsTerm reads rest offset).symm.trans read)

/-- What grows behind a term is made with an operator or with steps. -/
theorem Grows.isGrown {first : Cursor} {conditionals : Bool} {setting : Setting} {e a : Expr}
    (grows : Grows level first conditionals setting e c a next) :
    (a = e ∧ next = c) ∨ a.form.isGrown = true := by
  induction grows with
  | stop => exact .inl ⟨rfl, rfl⟩
  | steps _ _ ih =>
    obtain ⟨rfl, _⟩ | again := ih
    · exact .inr rfl
    · exact .inr again
  | @conditional setting e _ _ _ taken =>
    have made : Answers (conditionalRest level setting e) (·.isGrown = true) :=
      .last fun _ => .last fun _ => .last fun _ => .last fun _ => .last fun _ =>
        .last fun _ => .last fun _ => .last fun _ => answers_pure rfl
    exact .inr (made taken)
  | @operator setting e _ _ _ _ _ taken _ ih =>
    have made : Answers (operatorRest level setting e) (·.isGrown = true) :=
      .last fun _ => .last fun _ => .last fun _ => .last fun _ => answers_pure rfl
    obtain ⟨rfl, _⟩ | again := ih
    · exact .inr (made taken)
    · exact .inr again

/-! ## The last line -/

/-- The text of a heredoc with parts ends with a line break, spaces and tabs, and the delimiter,
and its parts end with that line break, before their indentation is removed. -/
inductive EndsHeredoc (text : List Char) (delimiter : String) : List Part → Prop where
  | empty : EndsHeredoc text delimiter []
  | line {front ending spaces : List Char} {before : List Part} (indented : Bool)
      (same : text = front ++ ending ++ spaces ++ delimiter.toList)
      (breaks : ending = ['\n'] ∨ ending = ['\r', '\n'])
      (blank : ∀ x ∈ spaces, isSpace x = true) :
      EndsHeredoc text delimiter
        (if indented then dedent (appendText ending before) else appendText ending before)

/-- The text of a heredoc ends with the line of its delimiter. -/
theorem endsHeredoc_of_heredocForm {text : List Char} {holds : Expr → Prop}
    (sound : level.IsSound text holds) {delimiter : String} {parts : List Part}
    (here : c.IsIn text) (read : heredocForm level c = .read (.heredoc delimiter parts) next) :
    ∃ between, c.Passes between next ∧ EndsHeredoc between delimiter parts := by
  obtain ⟨_, opened, opening, more⟩ := bind_eq_read_iff.mp read
  obtain ⟨dash, marked, dashed, more⟩ := bind_eq_read_iff.mp more
  obtain ⟨name, named, naming, more⟩ := bind_eq_read_iff.mp more
  obtain ⟨_, begun, beginning, more⟩ := bind_eq_read_iff.mp more
  obtain ⟨body, filled, filling, more⟩ := bind_eq_read_iff.mp more
  obtain ⟨spaces, passed, blanks, more⟩ := bind_eq_read_iff.mp more
  obtain ⟨_, closed, closing, made⟩ := bind_eq_read_iff.mp more
  obtain ⟨same, rfl⟩ := Outcome.read.inj made
  obtain ⟨rfl, rfl⟩ := Form.heredoc.inj same
  have forward := (advances_word ['<', '<'] here opening).1
  have forward := forward.trans ((advances_char '-').optional (here.onward forward) dashed).1
  have forward := forward.trans (advances_demandIdentifier (here.onward forward) naming).1
  have forward := forward.trans
    ((advances_lineBreak.demand _) (here.onward forward) beginning).1
  have line := (passes_many_satisfy blanks).trans (passes_word (demand_eq_read_iff.mp closing))
  have blank := (run_of_many_satisfy blanks).1
  rcases choice_eq_read_iff.mp filling with filling | ⟨_, filling⟩
  · obtain ⟨before, texted, texts, more⟩ := bind_eq_read_iff.mp filling
    obtain ⟨ending, _, breaking, made⟩ := bind_eq_read_iff.mp more
    obtain ⟨rfl, rfl⟩ := Outcome.read.inj made
    have forward := forward.trans ((sound.part _).many (here.onward forward) texts).1
    obtain ⟨passes, breaks⟩ := passes_lineBreak breaking
    refine ⟨_, (forward.passes_upTo.trans passes).trans line, ?_⟩
    exact .line dash.isSome (List.append_assoc ..).symm breaks blank
  · obtain ⟨rfl, rfl⟩ := Outcome.read.inj filling
    have none : (if dash.isSome then dedent [] else []) = [] := by
      cases dash <;> rfl
    rw [none]
    exact ⟨_, forward.passes_upTo.trans line, .empty⟩

/-- A text that is a heredoc ends with the line of its delimiter. -/
theorem endsHeredoc_of_readExpr {text : String} {extent : Extent} {delimiter : String}
    {parts : List Part} (read : readExpr text = .ok (.mk extent (.heredoc delimiter parts))) :
    EndsHeredoc text.toList delimiter parts := by
  obtain ⟨last, taken, ends⟩ := read_of_readAll read
  obtain ⟨⟨e, after⟩, next, term, extended⟩ := bind_eq_read_iff.mp taken
  obtain ⟨rfl, rfl⟩ | grown := (grows_of_extend extended).isGrown
  · obtain ⟨form, _, heredoc, made⟩ := bind_eq_read_iff.mp (read_of_opener .heredoc term rfl)
    obtain ⟨same, rfl⟩ := Outcome.read.inj made
    obtain ⟨rfl, rfl⟩ := Prod.mk.inj same
    have sound := isSound_levelOf (isAcquired_isIn text.toList) (3 * text.toList.length + 1)
    obtain ⟨between, passes, line⟩ :=
      endsHeredoc_of_heredocForm sound (Cursor.isIn_ofText _) heredoc
    -- Nothing is left behind the heredoc, so that it is the whole text.
    have whole : text.toList = between := by
      have passed := passes.1
      rwa [ends, List.append_nil] at passed
    rwa [whole]
  · cases grown

end Grammar

end HclLint.Hcl
