/-
# Readers that agree on some texts

The readers of terms, expressions and templates are put together from readers of smaller ones. So
two levels of smaller readers that agree on some texts make larger readers that agree on them as
well, if what is left of such a text is again one of them. In this way a reader that refuses some
terms is compared with one that refuses none: on texts where none of those terms is read they agree.

## Main definitions

* `AgreesOn`: two parsers that come to the same outcome on some texts.
* `Level.AgreesOn`: levels whose readers do.
* `LacksMark`: a text in which no heredoc starts.

## Main statements

* `agreesOn_exprAt`, `agreesOn_termAt`, `agreesOn_templatePart`: so do the readers of the next
  level.
* `readWithout_isEmptyHeredoc`: a text in which no heredoc starts is read in the same way when
  heredocs without parts are refused.
-/

import HclLint.Proofs.Hcl.Refusing
import HclLint.Proofs.Hcl.Heredoc
import HclLint.Proofs.Hcl.Window.Expression

namespace HclLint.Hcl

open HclLint.Text

namespace Parser

variable {α β : Type} {holds : List Char → Prop} {p p' q q' : Parser α} {f f' : α → Parser β}

/-- Both parsers come to the same outcome on the texts with a property, which what they leave has
as well. -/
def AgreesOn (holds : List Char → Prop) (p p' : Parser α) : Prop :=
  ∀ ⦃c⦄, holds c.rest → p' c = p c ∧ ∀ ⦃a next⦄, p c = .read a next → holds next.rest

/-- Giving a value leaves the text as it is, with its property. -/
theorem agreesOn_pure (a : α) : AgreesOn holds (pure a) (pure a) := by
  refine fun c here => ⟨rfl, ?_⟩
  rintro _ _ ⟨⟩
  exact here

theorem agreesOn_fail : AgreesOn holds (fail : Parser α) fail :=
  fun _ _ => ⟨rfl, by rintro _ _ ⟨⟩⟩

/-- A parser that stops agrees with itself whatever the property. -/
theorem agreesOn_final (complaint : Complaint) :
    AgreesOn holds (fun c => (.final complaint c.offset : Outcome α))
      (fun c => .final complaint c.offset) :=
  fun _ _ => ⟨rfl, by rintro _ _ ⟨⟩⟩

/-- Two sequences agree if their parsers do, one after the other. -/
theorem AgreesOn.bind (first : AgreesOn holds p p') (second : ∀ a, AgreesOn holds (f a) (f' a)) :
    AgreesOn holds (p >>= f) (p' >>= f') := by
  intro c here
  obtain ⟨same, left⟩ := first here
  rw [bind_apply, bind_apply, same]
  cases read : p c with
  | read a next => exact second a (left read)
  | undone complaint => exact ⟨rfl, by rintro _ _ ⟨⟩⟩
  | final complaint place => exact ⟨rfl, by rintro _ _ ⟨⟩⟩

/-- Two choices agree if their alternatives do: a first one that is undone leaves the text as it
was. -/
theorem AgreesOn.choice (first : AgreesOn holds p p') (second : AgreesOn holds q q') :
    AgreesOn holds (choice p q) (choice p' q') := by
  intro c here
  obtain ⟨same, left⟩ := first here
  rw [Parser.choice, Parser.choice, same]
  cases read : p c with
  | read a next => exact ⟨rfl, fun _ _ taken => left (read.trans taken)⟩
  | undone complaint => exact second here
  | final complaint place => exact ⟨rfl, by rintro _ _ ⟨⟩⟩

/-- The same test takes the same branch in both. -/
theorem AgreesOn.either (first : AgreesOn holds p p') (second : AgreesOn holds q q')
    (test : Cursor → Bool) : AgreesOn holds (fun c => if test c then p c else q c)
      (fun c => if test c then p' c else q' c) := by
  intro c here
  dsimp only
  cases test c with
  | false => exact second here
  | true => exact first here

theorem AgreesOn.ite {condition : Prop} [Decidable condition] (yes : AgreesOn holds p p')
    (no : AgreesOn holds q q') : AgreesOn holds (fun c => if condition then p c else q c)
      (fun c => if condition then p' c else q' c) := by
  intro c here
  dsimp only
  split
  · exact yes here
  · exact no here

/-- Two options agree if their parsers do. -/
theorem AgreesOn.optional (agrees : AgreesOn holds p p') :
    AgreesOn holds (optional p) (optional p') := by
  intro c here
  obtain ⟨same, left⟩ := agrees here
  rw [Parser.optional, Parser.optional, same]
  cases read : p c with
  | read a next =>
    refine ⟨rfl, ?_⟩
    rintro _ _ ⟨⟩
    exact left read
  | undone complaint =>
    refine ⟨rfl, ?_⟩
    rintro _ _ ⟨⟩
    exact here
  | final complaint place => exact ⟨rfl, by rintro _ _ ⟨⟩⟩

/-- Two repetitions agree reading by reading, as each reading leaves a text with the property. -/
theorem AgreesOn.many (agrees : AgreesOn holds p p') : AgreesOn holds (many p) (many p') := by
  have upTo (limit : List Char) : AgreesOn holds (manyUpTo p limit) (manyUpTo p' limit) := by
    induction limit with
    | nil => exact agreesOn_pure []
    | cons x limit ih =>
      intro c here
      obtain ⟨same, left⟩ := agrees here
      rw [manyUpTo, manyUpTo, same]
      cases read : p c with
      | read a next =>
        obtain ⟨again, behind⟩ := ih (left read)
        dsimp only
        rw [again]
        cases more : manyUpTo p limit next with
        | read others last =>
          refine ⟨rfl, ?_⟩
          rintro _ _ ⟨⟩
          exact behind more
        | undone complaint => exact ⟨rfl, by rintro _ _ ⟨⟩⟩
        | final complaint place => exact ⟨rfl, by rintro _ _ ⟨⟩⟩
      | undone complaint =>
        refine ⟨rfl, ?_⟩
        rintro _ _ ⟨⟩
        exact here
      | final complaint place => exact ⟨rfl, by rintro _ _ ⟨⟩⟩
  exact fun c here => upTo c.rest here

theorem AgreesOn.many1 (agrees : AgreesOn holds p p') : AgreesOn holds (many1 p) (many1 p') :=
  agrees.bind fun _ => agrees.many.bind fun _ => agreesOn_pure _

section Inherits

variable (inherits : ∀ front rest, holds (front ++ rest) → holds rest)
include inherits

/-- A parser that goes forward agrees with itself. -/
theorem AgreesOn.refl (advances : ∀ text, Advances text p) : AgreesOn holds p p := by
  refine fun c here => ⟨rfl, fun a next read => ?_⟩
  obtain ⟨front, passes⟩ := leadsTo_of_advances advances read
  exact inherits front next.rest (passes.1 ▸ here)

/-- Two sequences agree if they start with the same parser, which goes forward. -/
theorem AgreesOn.after (advances : ∀ text, Advances text p)
    (second : ∀ a, AgreesOn holds (f a) (f' a)) : AgreesOn holds (p >>= f) (p >>= f') :=
  (AgreesOn.refl inherits advances).bind second

/-- Two sequences of items with commas between them agree if their items do. -/
theorem AgreesOn.separated1 (agrees : AgreesOn holds p p') :
    AgreesOn holds (separated1 p) (separated1 p') :=
  agrees.bind fun _ => (AgreesOn.many (.after inherits (fun _ => advances_char ',')
    fun _ => agrees)).bind fun _ => agreesOn_pure _

theorem AgreesOn.separated (agrees : AgreesOn holds p p') :
    AgreesOn holds (separated p) (separated p') :=
  (agrees.separated1 inherits).choice (agreesOn_pure [])

end Inherits

end Parser

namespace Grammar

open HclLint.Hcl.Parser

variable {holds : List Char → Prop} {level level' : Level} {setting : Setting} {quoting : Quoting}

/-- The readers of both levels agree on the texts with a property. -/
structure Level.AgreesOn (holds : List Char → Prop) (level level' : Level) : Prop where
  expr : ∀ setting, Parser.AgreesOn holds (level.expr setting) (level'.expr setting)
  term : ∀ setting, Parser.AgreesOn holds (level.term setting) (level'.term setting)
  part : ∀ quoting, Parser.AgreesOn holds (level.part quoting) (level'.part quoting)

section Levels

variable (inherits : ∀ front rest, holds (front ++ rest) → holds rest)
  (agrees : level.AgreesOn holds level')
include inherits agrees

/-! ## Templates -/

/-- Interpolations differ by their expressions only. -/
theorem agreesOn_interpolation :
    Parser.AgreesOn holds (interpolation level) (interpolation level') :=
  .after inherits (fun _ => advances_word _) fun _ =>
    .after inherits (fun _ => advances_trimMark) fun _ =>
      .after inherits (fun _ => advances_skip true) fun _ => (agrees.expr .bracket).bind fun _ =>
        .after inherits (fun _ => advances_tagEnd) fun _ => agreesOn_pure _

/-- The second branch of a directive differs by its parts only. -/
theorem agreesOn_elseParts :
    Parser.AgreesOn holds (elseParts level quoting) (elseParts level' quoting) :=
  .after inherits (fun _ => advances_tagStart) fun _ =>
    .after inherits (fun _ => advances_word _) fun _ =>
      .after inherits (fun _ => advances_tagEnd) fun _ =>
        (agrees.part quoting).many.bind fun _ => agreesOn_pure _

/-- A conditional directive differs by its test and its parts. -/
theorem agreesOn_branchPart (left : Bool) :
    Parser.AgreesOn holds (branchPart level quoting left) (branchPart level' quoting left) :=
  .after inherits (fun _ => advances_word _) fun _ =>
    .after inherits (fun _ => advances_skip true) fun _ => (agrees.expr .bracket).bind fun _ =>
      .after inherits (fun _ => advances_tagEnd) fun _ => (agrees.part quoting).many.bind fun _ =>
        (agreesOn_elseParts inherits agrees).optional.bind fun _ =>
          .after inherits (fun _ => advances_closingTag _) fun _ => agreesOn_pure _

/-- A repeating directive differs by its collection and its parts. -/
theorem agreesOn_loopPart (left : Bool) :
    Parser.AgreesOn holds (loopPart level quoting left) (loopPart level' quoting left) :=
  .after inherits (fun _ => advances_word _) fun _ =>
    .after inherits (fun _ => advances_skip true) fun _ =>
      .after inherits (fun _ => advances_boundNames) fun _ =>
        .after inherits (fun _ => advances_demandWord _) fun _ =>
          .after inherits (fun _ => advances_skip true) fun _ =>
            (agrees.expr .bracket).bind fun _ =>
              .after inherits (fun _ => advances_tagEnd) fun _ =>
                (agrees.part quoting).many.bind fun _ =>
                  .after inherits (fun _ => advances_closingTag _) fun _ => agreesOn_pure _

/-- The text of a template is read by both levels in the same way, and so are tags with parts on
which they agree. -/
theorem agreesOn_templatePart (quoting : Quoting) :
    Parser.AgreesOn holds (templatePart level quoting) (templatePart level' quoting) := by
  have text : Parser.AgreesOn holds (do return .literal (← templateText quoting) : Parser Part)
      (do return .literal (← templateText quoting)) :=
    .after inherits (fun _ => advances_templateText quoting) fun _ => agreesOn_pure _
  have tag : Parser.AgreesOn holds (directive level quoting) (directive level' quoting) :=
    .after inherits (fun _ => advances_tagStart) fun left =>
      (agreesOn_branchPart inherits agrees left).choice (agreesOn_loopPart inherits agrees left)
  exact text.choice ((agreesOn_interpolation inherits agrees).choice tag)

/-- Strings hold no expressions, and templates hold parts. -/
theorem agreesOn_quotedForm : Parser.AgreesOn holds (quotedForm level) (quotedForm level') := by
  have template : Parser.AgreesOn holds (quotedTemplateForm level) (quotedTemplateForm level') :=
    .after inherits (fun _ => advances_char '"') fun _ => (agrees.part .quoted).many.bind fun _ =>
      .after inherits (fun _ => advances_char '"') fun _ => agreesOn_pure _
  exact (AgreesOn.refl inherits fun _ => yields_stringForm.advances).choice template

/-- The lines of a heredoc are parts of a template up to the delimiter. -/
theorem agreesOn_heredocForm : Parser.AgreesOn holds (heredocForm level) (heredocForm level') := by
  have parts (delimiter : String) :
      Parser.AgreesOn holds (heredocParts level delimiter) (heredocParts level' delimiter) :=
    (agrees.part _).many.bind fun _ =>
      .after inherits (fun _ => advances_lineBreak) fun _ => agreesOn_pure _
  exact .after inherits (fun _ => advances_word _) fun _ =>
    .after inherits (fun _ => (advances_char '-').optional.advances) fun _ =>
      .after inherits (fun _ => advances_demandIdentifier) fun delimiter =>
        .after inherits (fun _ => advances_lineBreak.demand _) fun _ =>
          ((parts delimiter).choice (agreesOn_pure [])).bind fun _ =>
            .after inherits (fun _ => (advances_satisfy _).many.advances) fun _ =>
              .after inherits (fun _ => (advances_word _).demand _) fun _ => agreesOn_pure _

/-! ## Lists, objects and calls -/

theorem agreesOn_parensForm : Parser.AgreesOn holds (parensForm level) (parensForm level') :=
  .after inherits (fun _ => advances_char '(') fun _ =>
    .after inherits (fun _ => advances_skip true) fun _ => (agrees.expr .bracket).bind fun _ =>
      .after inherits (fun _ => advances_skip true) fun _ =>
        .after inherits (fun _ => advances_demandWord _) fun _ => agreesOn_pure _

theorem agreesOn_forHead : Parser.AgreesOn holds (forHead level) (forHead level') :=
  .after inherits (fun _ => advances_skip true) fun _ =>
    .after inherits (fun _ => advances_word _) fun _ =>
      .after inherits (fun _ => advances_skip true) fun _ =>
        .after inherits (fun _ => advances_boundNames) fun _ =>
          .after inherits (fun _ => advances_demandWord _) fun _ =>
            .after inherits (fun _ => advances_skip true) fun _ => (agrees.expr .line).bind fun _ =>
              .after inherits (fun _ => advances_skip true) fun _ =>
                .after inherits (fun _ => advances_demandWord _) fun _ => agreesOn_pure _

theorem agreesOn_forFilter (setting : Setting) :
    Parser.AgreesOn holds (forFilter level setting) (forFilter level' setting) :=
  .after inherits (fun _ => advances_skip true) fun _ =>
    .after inherits (fun _ => advances_word _) fun _ =>
      .after inherits (fun _ => advances_skip true) fun _ => (agrees.expr setting).bind fun _ =>
        .after inherits (fun _ => advances_skip true) fun _ => agreesOn_pure _

/-- Whether a list is a comprehension is told by its text, and so both levels read the same kind of
list. -/
theorem agreesOn_listForm (setting : Setting) :
    Parser.AgreesOn holds (listForm level setting) (listForm level' setting) := by
  have comprehension :
      Parser.AgreesOn holds (listForForm level setting) (listForForm level' setting) :=
    (agreesOn_forHead inherits agrees).bind fun (_, _) =>
      .after inherits (fun _ => advances_skip true) fun _ => (agrees.expr setting).bind fun _ =>
        .after inherits (fun _ => advances_skip true) fun _ =>
          (agreesOn_forFilter inherits agrees setting).optional.bind fun _ => agreesOn_pure _
  have item : Parser.AgreesOn holds (spacedItem level setting (· == ']'))
      (spacedItem level' setting (· == ']')) :=
    .after inherits (fun _ => advances_skip true) fun _ =>
      .after inherits (fun _ => advances_notAhead _) fun _ => (agrees.expr setting).bind fun _ =>
        .after inherits (fun _ => advances_skip true) fun _ => agreesOn_pure _
  have items :
      Parser.AgreesOn holds (listItemsForm level setting) (listItemsForm level' setting) :=
    (item.separated inherits).bind fun _ =>
      .after inherits (fun _ => (advances_char ',').optional.advances) fun _ =>
        .after inherits (fun _ => advances_skip true) fun _ => agreesOn_pure _
  exact .after inherits (fun _ => advances_char '[') fun _ =>
    (comprehension.either items startsFor).bind fun _ =>
      .after inherits (fun _ => advances_demandWord _) fun _ => agreesOn_pure _

/-- The entries of an object agree entry by entry, with the same limit on their number. -/
theorem agreesOn_objectItems (limit : List Char) :
    Parser.AgreesOn holds (objectItems level limit) (objectItems level' limit) := by
  have item : Parser.AgreesOn holds (objectItem level) (objectItem level') :=
    (agrees.expr .line).bind fun _ => .after inherits (fun _ => advances_skip false) fun _ =>
      .after inherits (fun _ => advances_objectSign) fun _ =>
        .after inherits (fun _ => advances_skip false) fun _ => (agrees.expr .line).bind fun _ =>
          .after inherits (fun _ => advances_skip false) fun _ =>
            .after inherits (fun _ => advances_objectSeparator) fun _ => agreesOn_pure _
  induction limit with
  | nil => exact agreesOn_fail
  | cons x limit ih =>
    refine .after inherits (fun _ => advances_skip true) fun _ =>
      .after inherits (fun _ => (advances_notAhead _).optional.advances) fun more => ?_
    cases more with
    | none => exact agreesOn_pure []
    | some _ => exact item.bind fun _ => ih.bind fun _ => agreesOn_pure _

theorem agreesOn_objectForm (setting : Setting) :
    Parser.AgreesOn holds (objectForm level setting) (objectForm level' setting) := by
  have comprehension (setting : Setting) :
      Parser.AgreesOn holds (objectForForm level setting) (objectForForm level' setting) :=
    (agreesOn_forHead inherits agrees).bind fun (_, _) =>
      .after inherits (fun _ => advances_skip true) fun _ => (agrees.expr .line).bind fun _ =>
        .after inherits (fun _ => advances_skip true) fun _ =>
          .after inherits (fun _ => advances_demandWord _) fun _ =>
            .after inherits (fun _ => advances_skip true) fun _ => (agrees.expr .line).bind fun _ =>
              .after inherits (fun _ => advances_skip true) fun _ =>
                .after inherits (fun _ => ((advances_word _).bind fun _ _ =>
                  advances_skip true).optional.advances) fun _ =>
                    (agreesOn_forFilter inherits agrees setting).optional.bind fun _ =>
                      agreesOn_pure _
  have items : Parser.AgreesOn holds (objectItemsForm level) (objectItemsForm level') :=
    fun c => ((agreesOn_objectItems inherits agrees (' ' :: c.rest)).bind fun _ =>
      agreesOn_pure _) (c := c)
  exact .after inherits (fun _ => advances_char '\x7b') fun _ =>
    (AgreesOn.either ((comprehension _).bind fun _ => agreesOn_pure _)
      (items.bind fun _ => agreesOn_pure _) startsFor).bind fun _ =>
        .after inherits (fun _ => advances_demandWord _) fun _ => agreesOn_pure _

/-- The arguments of a call agree, and so does the sign that ends them. -/
theorem agreesOn_arguments (setting : Setting) :
    Parser.AgreesOn holds (arguments level setting) (arguments level' setting) := by
  have argument : Parser.AgreesOn holds
      (spacedItem level setting fun x => x == ',' || x == '.' || x == ')')
      (spacedItem level' setting fun x => x == ',' || x == '.' || x == ')') :=
    .after inherits (fun _ => advances_skip true) fun _ =>
      .after inherits (fun _ => advances_notAhead _) fun _ => (agrees.expr setting).bind fun _ =>
        .after inherits (fun _ => advances_skip true) fun _ => agreesOn_pure _
  exact .after inherits (fun _ => advances_demandWord _) fun _ =>
    (((argument.separated1 inherits).bind fun _ =>
      .after inherits (fun _ => advances_argumentsEnd.optional.advances) fun _ =>
        agreesOn_pure _).optional).bind fun _ =>
          .after inherits (fun _ => advances_skip true) fun _ =>
            .after inherits (fun _ => (advances_word _).demand _) fun _ => agreesOn_pure _

/-- Behind a name the text tells whether it is called. -/
theorem agreesOn_nameOrCall (setting : Setting) :
    Parser.AgreesOn holds (nameOrCall level setting) (nameOrCall level' setting) := by
  have call (names : List String) :
      Parser.AgreesOn holds (callBehind level setting names) (callBehind level' setting names) :=
    .after inherits (fun _ => advances_skip _) fun _ =>
      (agreesOn_arguments inherits agrees _).bind fun (_, _) => agreesOn_pure _
  rw [nameOrCall_eq, nameOrCall_eq]
  refine .after inherits (fun _ => advances_identifier) fun name c here => ?_
  cases nameSequel (afterBlanks setting.breaks c).rest with
  | names =>
    exact AgreesOn.after inherits (fun _ => (advances_namespacePart _).many1.advances)
      (fun more => call (name :: more)) here
  | call => exact call [name] here
  | nothing => exact agreesOn_pure _ here

theorem agreesOn_signed (setting : Setting) (sign : Char) (op : UnaryOp) :
    Parser.AgreesOn holds (signed level setting sign op) (signed level' setting sign op) :=
  .after inherits (fun _ => advances_char sign) fun _ =>
    .after inherits (fun _ => advances_skip false) fun _ => (agrees.term setting).bind fun (_, _) =>
      agreesOn_pure _

/-! ## Terms -/

omit agrees inherits in
/-- Two parsers that agree keep the same extent. -/
theorem agreesOn_markedWith {p p' : Parser (Form × Setting)} (same : Parser.AgreesOn holds p p') :
    Parser.AgreesOn holds (markedWith p) (markedWith p') := by
  intro c here
  obtain ⟨same, left⟩ := same here
  rw [markedWith, markedWith, same]
  cases read : p c with
  | read a next =>
    refine ⟨rfl, ?_⟩
    rintro _ _ ⟨⟩
    exact left read
  | undone complaint => exact ⟨rfl, by rintro _ _ ⟨⟩⟩
  | final complaint place => exact ⟨rfl, by rintro _ _ ⟨⟩⟩

/-- Terms that start with the same character are read by parsers that agree. -/
theorem agreesOn_termAt (setting : Setting) :
    Parser.AgreesOn holds (termAt level setting) (termAt level' setting) := by
  have paired {p p' : Parser Form} (same : Parser.AgreesOn holds p p') (setting : Setting) :
      Parser.AgreesOn holds (markedWith (do return (← p, setting)))
        (markedWith (do return (← p', setting))) :=
    agreesOn_markedWith (same.bind fun _ => agreesOn_pure _)
  have value {p : Parser Numeral} (advances : ∀ text, Advances text p) :
      Parser.AgreesOn holds
        (do return (← (do return .number (← p)), setting) : Parser (Form × Setting))
        (do return (← (do return .number (← p)), setting)) :=
    .refl inherits fun text => ((advances text).bind fun _ _ => advances_pure _).bind fun _ _ =>
      advances_pure _
  intro c here
  obtain ⟨rest, offset⟩ := c
  cases rest with
  | nil => exact ⟨rfl, by rintro _ _ ⟨⟩⟩
  | cons x rest =>
    -- The first character is the same for both, and so is what it opens.
    unfold termAt
    exact (AgreesOn.ite (paired (agreesOn_quotedForm inherits agrees) setting) <|
      .ite (paired (agreesOn_listForm inherits agrees _) _) <|
      .ite (agreesOn_markedWith (agreesOn_objectForm inherits agrees setting)) <|
      .ite (paired (agreesOn_heredocForm inherits agrees) setting) <|
      .ite (paired (agreesOn_parensForm inherits agrees) setting) <|
      .ite (agreesOn_markedWith ((value fun _ => advances_negativeNumber).choice
        (agreesOn_signed inherits agrees setting _ _))) <|
      .ite (agreesOn_markedWith (agreesOn_signed inherits agrees setting _ _)) <|
      .ite (agreesOn_markedWith (value fun _ => advances_number)) <|
      .ite (agreesOn_markedWith (agreesOn_nameOrCall inherits agrees setting)) <|
      agreesOn_final .expression) here

/-! ## Expressions -/

/-- Steps differ by the expressions in their brackets. -/
theorem agreesOn_step (breaks : Bool) :
    Parser.AgreesOn holds (step level breaks) (step level' breaks) := by
  have star : Parser.AgreesOn holds (do let _ ← char '*'; return .fullSplat : Parser Step)
      (do let _ ← char '*'; return .fullSplat) :=
    .after inherits (fun _ => advances_char '*') fun _ => agreesOn_pure _
  have bracket : Parser.AgreesOn holds (bracketStep level) (bracketStep level') :=
    .after inherits (fun _ => advances_char '[') fun _ =>
      .after inherits (fun _ => advances_skip true) fun _ =>
        (star.choice ((agrees.expr .bracket).bind fun _ => agreesOn_pure _)).bind fun _ =>
          .after inherits (fun _ => advances_skip true) fun _ =>
            .after inherits (fun _ => advances_demandWord _) fun _ => agreesOn_pure _
  have behind : Parser.AgreesOn holds (choice dotStep (bracketStep level))
      (choice dotStep (bracketStep level')) :=
    (AgreesOn.refl inherits fun _ => advances_dotStep).choice bracket
  exact .after inherits (fun _ => advances_skip breaks) fun _ =>
    agreesOn_fail.either behind fun c => startsDots c.rest

/-- Expressions that grow by the same things agree, as far as they grow. -/
theorem agreesOn_extend (first : Cursor) (conditionals : Bool) (limit : List Char)
    (setting : Setting) (e : Expr) :
    Parser.AgreesOn holds (extend level first conditionals limit setting e)
      (extend level' first conditionals limit setting e) := by
  have form (form : Form) : Parser.AgreesOn holds (grown first form) (grown first form) :=
    .refl inherits fun _ => advances_grown first form
  induction limit generalizing setting e with
  | nil => exact agreesOn_pure e
  | cons x limit ih =>
    intro c here
    rw [extend, extend]
    dsimp only
    split
    · exact agreesOn_pure e here
    · exact ((agreesOn_step inherits agrees _).many1.bind fun path => (form _).bind fun e =>
        ih setting e) here
    · split
      · have rest : Parser.AgreesOn holds (conditionalRest level setting e)
            (conditionalRest level' setting e) :=
          .after inherits (fun _ => advances_skip _) fun _ =>
            .after inherits (fun _ => advances_char '?') fun _ =>
              .after inherits (fun _ => advances_skip _) fun _ => (agrees.expr setting).bind fun _ =>
                .after inherits (fun _ => advances_skip _) fun _ =>
                  .after inherits (fun _ => advances_demandWord _) fun _ =>
                    .after inherits (fun _ => advances_skip _) fun _ =>
                      (agrees.expr setting).bind fun _ => agreesOn_pure _
        exact (rest.bind form) here
      · exact agreesOn_pure e here
    · have rest : Parser.AgreesOn holds (operatorRest level setting e)
          (operatorRest level' setting e) :=
        .after inherits (fun _ => advances_skip _) fun _ =>
          .after inherits (fun _ => advances_binaryOp) fun _ =>
            .after inherits (fun _ => advances_skip _) fun _ =>
              (agrees.expr setting.withoutConditionals).bind fun _ => agreesOn_pure _
      exact (rest.bind fun _ => (form _).bind fun e => ih setting.withoutConditionals e) here

/-- An expression is a term that grows, and so both levels read the same one. -/
theorem agreesOn_exprAt (setting : Setting) :
    Parser.AgreesOn holds (exprAt level setting) (exprAt level' setting) := by
  intro c
  have grows (e : Expr) (after : Setting) : Parser.AgreesOn holds
      (fun next => extend level c setting.conditionals (' ' :: next.rest) after e next)
      (fun next => extend level' c setting.conditionals (' ' :: next.rest) after e next) :=
    fun next => agreesOn_extend inherits agrees c _ (' ' :: next.rest) after e (c := next)
  exact ((agrees.term setting).bind fun (e, after) => grows e after) (c := c)

end Levels

/-! ## Texts without heredocs -/

/-- No two `<` stand next to each other, as they do where a heredoc starts. -/
def LacksMark (text : List Char) : Prop := ¬ ['<', '<'] <:+: text

/-- What is left of a text without heredocs has none. -/
theorem LacksMark.of_append (front rest : List Char) (lacks : LacksMark (front ++ rest)) :
    LacksMark rest :=
  fun mark => lacks (mark.trans (List.suffix_append front rest).isInfix)

theorem LacksMark.of_leadsTo {c next : Cursor} (lacks : LacksMark c.rest)
    (forward : c.LeadsTo next) : LacksMark next.rest := by
  obtain ⟨front, passes⟩ := forward
  exact .of_append front _ (passes.1 ▸ lacks)

/-- Where no heredoc starts, a term is no heredoc. -/
theorem opener?_ne_of_lacksMark {a : Expr × Setting} {c next : Cursor}
    (lacks : LacksMark c.rest) (read : termAt level setting c = .read a next) :
    a.1.form.opener? ≠ some '<' := by
  intro opens
  obtain ⟨_, _, taken, _⟩ := bind_eq_read_iff.mp (read_of_opener .heredoc read opens)
  obtain ⟨_, _, opening, _⟩ := bind_eq_read_iff.mp taken
  exact lacks ⟨[], _, (passes_word opening).1.symm⟩

theorem opener?_of_isEmptyHeredoc {form : Form} (empty : form.isEmptyHeredoc = true) :
    form.opener? = some '<' := by
  cases form with
  | heredoc => rfl
  | _ => cases empty

/-- Refusing heredocs without parts makes no difference where no heredoc starts. -/
theorem agreesOn_levelWithout (depth : Nat) :
    (levelOf depth).AgreesOn LacksMark (levelWithout Form.isEmptyHeredoc depth) := by
  induction depth with
  | zero => exact ⟨fun _ => agreesOn_fail, fun _ => agreesOn_fail, fun _ => agreesOn_fail⟩
  | succ depth ih =>
    -- The levels differ in their terms only, by what one of them refuses.
    refine ⟨agreesOn_exprAt LacksMark.of_append ih, fun setting c here => ?_,
      agreesOn_templatePart LacksMark.of_append ih⟩
    obtain ⟨same, left⟩ := agreesOn_termAt LacksMark.of_append ih setting here
    refine ⟨?_, left⟩
    change refusing _ (termAt _ setting) c = termAt _ setting c
    rw [refusing, same]
    cases read : termAt (levelOf depth) setting c with
    | read a next =>
      have filled : a.1.form.isEmptyHeredoc = false := Bool.eq_false_iff.mpr fun empty =>
        opener?_ne_of_lacksMark here read (opener?_of_isEmptyHeredoc empty)
      simp [filled]
    | undone complaint => rfl
    | final complaint place => rfl

end Grammar

/-- A text without a doubled `<` holds no heredocs, and so nothing is refused in it. -/
theorem readWithout_isEmptyHeredoc {text : String} (lacks : Grammar.LacksMark text.toList) :
    readWithout Form.isEmptyHeredoc text = readExpr text := by
  have same := ((Grammar.agreesOn_levelWithout (Grammar.depthOf text.toList)).expr .line
    (c := .ofText text.toList) lacks).1
  rw [readWithout, readExpr, readAll, readAll, same]

end HclLint.Hcl
