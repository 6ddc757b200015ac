/-
# How expressions end

An expression ends with a character that is no blank: a bracket, a quote, a digit, an identifier.
So nothing is lost where blanks are removed from the ends of its text, and what is kept of an
expression is its text.

## Main definitions

* `Cursor.EndsSolid`: what is passed on the way ends with no blank.
* `Parser.EndsSolid`: so does everything that a parser reads.
* `IsKept`: what is kept of an expression is its text.

## Main statements

* `endsSolid_levelWithout`: expressions end with no blank.
* `passes_text_of_expr`: the text of an expression is what was passed to read it.
* `isSound_isKept`: nothing of it is lost.
-/

import HclLint.Model.Value
import HclLint.Proofs.Hcl.Window.Expression

namespace HclLint.Hcl

open HclLint.Text Grammar

/-- What is passed on the way ends with a character that is no blank. -/
def Cursor.EndsSolid (c next : Cursor) : Prop :=
  ∃ front x, c.Passes (front ++ [x]) next ∧ isBlank x = false

/-- What ends with no blank still does so with something in front of it. -/
theorem Cursor.LeadsTo.endsSolid {c middle next : Cursor} (forward : c.LeadsTo middle)
    (solid : middle.EndsSolid next) : c.EndsSolid next := by
  obtain ⟨before, passed⟩ := forward
  obtain ⟨front, x, later, ends⟩ := solid
  refine ⟨before ++ front, x, ?_, ends⟩
  rw [List.append_assoc]
  exact passed.trans later

/-- What ends with no blank may go on with what does. -/
theorem Cursor.EndsSolid.onward {c middle next : Cursor} (solid : c.EndsSolid middle)
    (later : next = middle ∨ middle.EndsSolid next) : c.EndsSolid next := by
  rcases later with rfl | later
  · exact solid
  · obtain ⟨front, x, passes, _⟩ := solid
    exact Cursor.LeadsTo.endsSolid ⟨_, passes⟩ later

/-- A text that is passed ends with no blank if its last character is none. -/
theorem Cursor.Passes.endsSolid {c next : Cursor} {between : List Char} (some : between ≠ [])
    (passes : c.Passes between next) (solid : ∀ x ∈ between.getLast?, isBlank x = false) :
    c.EndsSolid next := by
  rw [← List.dropLast_concat_getLast some] at passes
  exact ⟨_, _, passes, solid _ (List.getLast?_eq_some_getLast some)⟩

namespace Parser

variable {α β : Type} {p q : Parser α} {f : α → Parser β} {c next : Cursor} {x : Char}

/-- Every reading ends with a character that is no blank. -/
def EndsSolid (p : Parser α) : Prop := ∀ ⦃c a next⦄, p c = .read a next → c.EndsSolid next

theorem EndsSolid.takesSome (solid : EndsSolid p) : TakesSome p := by
  intro c a next read
  obtain ⟨front, x, passes, _⟩ := solid read
  rw [passes.1, List.length_append, List.length_append, List.length_singleton]
  omega

/-- Every reading takes nothing at all, or it ends with a character that is no blank. -/
def KeepsSolid (p : Parser α) : Prop :=
  ∀ ⦃c a next⦄, p c = .read a next → next = c ∨ c.EndsSolid next

/-- A parser whose readings end with no blank keeps what ended with no blank before it. -/
theorem EndsSolid.keeps (solid : EndsSolid p) : KeepsSolid p :=
  fun _ _ _ read => .inr (solid read)

theorem keepsSolid_pure (a : α) : KeepsSolid (pure a) := by
  intro c b next read
  exact .inl (Outcome.read.inj read).2.symm

/-- A sequence ends as its first parser, if what comes behind it keeps that end. -/
theorem EndsSolid.bind (solid : EndsSolid p) (keeps : ∀ a, KeepsSolid (f a)) :
    EndsSolid (p >>= f) := by
  intro c b next read
  obtain ⟨a, middle, first, second⟩ := bind_eq_read_iff.mp read
  exact (solid first).onward (keeps a second)

/-- A sequence ends as its second parser, whatever is passed before. -/
theorem EndsSolid.bind_right (advances : ∀ text, Advances text p)
    (solid : ∀ a, (∃ c next, p c = .read a next) → EndsSolid (f a)) : EndsSolid (p >>= f) := by
  intro c b next read
  obtain ⟨a, middle, first, second⟩ := bind_eq_read_iff.mp read
  exact (leadsTo_of_advances advances first).endsSolid (solid a ⟨c, middle, first⟩ second)

/-- A choice ends with no blank if both alternatives do. -/
theorem EndsSolid.choice (first : EndsSolid p) (second : EndsSolid q) : EndsSolid (choice p q) := by
  intro c a next read
  rcases choice_eq_read_iff.mp read with read | ⟨_, read⟩
  · exact first read
  · exact second read

theorem EndsSolid.demand (solid : EndsSolid p) (complaint : Complaint) :
    EndsSolid (demand complaint p) :=
  fun _ _ _ read => solid (demand_eq_read_iff.mp read)

theorem endsSolid_undone (complaint : Complaint) :
    EndsSolid fun _ => (.undone complaint : Outcome α) := nofun

/-- What takes something, and no blanks, ends with no blank. -/
theorem Takes.endsSolid (takes : Takes (isBlank · = false) p) (some : TakesSome p) :
    EndsSolid p := by
  intro c a next read
  obtain ⟨between, passes, solid⟩ := takes read
  refine passes.endsSolid ?_ fun x last => solid x (List.mem_of_getLast? last)
  rintro rfl
  have less := some read
  rw [passes.1] at less
  exact Nat.lt_irrefl _ less

/-- A character that is no blank is such an end. -/
theorem endsSolid_char {x : Char} (solid : isBlank x = false) : EndsSolid (char x) := by
  intro c a next read
  exact ⟨[], x, passes_char read, solid⟩

/-- A word ends with no blank if its last character is none. -/
theorem endsSolid_word {w : List Char} (some : w ≠ [])
    (solid : ∀ x ∈ w.getLast?, isBlank x = false) : EndsSolid (word w) :=
  fun _ _ _ read => (passes_word read).endsSolid some solid

/-- A repetition that reads nothing adds nothing, and any other ends as its last reading. -/
theorem EndsSolid.many (solid : EndsSolid p) : KeepsSolid (many p) := by
  have upTo (limit : List Char) : KeepsSolid (manyUpTo p limit) := by
    induction limit with
    | nil => exact fun c as next read => .inl (Outcome.read.inj read).2.symm
    | cons x limit ih =>
      intro c as next read
      rcases manyUpTo_cons_eq_read_iff.mp read with
        ⟨a, middle, others, first, more, _⟩ | ⟨_, _, same⟩
      · exact .inr ((solid first).onward (ih more))
      · exact .inl same
  exact fun c _ _ read => upTo c.rest read

theorem EndsSolid.many1 (solid : EndsSolid p) : EndsSolid (many1 p) := by
  refine solid.bind fun a c as next read => ?_
  obtain ⟨others, last, repeated, made⟩ := bind_eq_read_iff.mp read
  obtain ⟨_, rfl⟩ := Outcome.read.inj made
  exact solid.many repeated

end Parser

namespace Grammar

open HclLint.Hcl.Parser

variable {text : List Char} {level : Level} {setting : Setting} {c next : Cursor} {x : Char}

/-! ## Words -/

/-- No character of an identifier is a blank. -/
theorem solid_of_isIdentifier {name : String} (known : isIdentifier name = true) :
    name.toList ≠ [] ∧ ∀ x ∈ name.toList.getLast?, isBlank x = false := by
  obtain ⟨first, more, same, _⟩ := exists_toList_cons known
  refine ⟨same ▸ List.cons_ne_nil first more, fun x last => ?_⟩
  exact forall_mem_of_isIdentifier known (fun _ => isBlank_of_isIdentifierStart)
    (fun _ => isBlank_of_isIdentifierRest) x (List.mem_of_getLast? last)

theorem endsSolid_identifier : EndsSolid identifier := by
  intro c name next read
  obtain ⟨some, solid⟩ := solid_of_isIdentifier (isIdentifier_of_read read)
  exact (passes_identifier read).endsSolid some solid

theorem takes_digits : Takes (isBlank · = false) digits :=
  (takes_satisfy fun _ => isBlank_of_isDigit).bind fun _ =>
    (takes_many_satisfy fun _ => isBlank_of_isDigit).bind fun _ => takes_pure _

/-- An index behind a dot ends with a digit. -/
theorem endsSolid_legacyIndex : EndsSolid legacyIndex := by
  have zero : Takes (isBlank · = false) (char '0') :=
    takes_satisfy fun x same => by rw [beq_iff_eq.mp same]; decide
  have takes : Takes (isBlank · = false) legacyIndex := by
    rw [legacyIndex_eq_choice]
    exact (zero.bind fun _ => takes_pure _).choice
      (takes_digits.bind fun _ => .ite (takes_pure _) (takes_undone _))
  exact takes.endsSolid takesSome_legacyIndex

/-! ## Terms -/

/-- The smaller expressions and terms end with no blank. -/
structure Level.EndsSolid (level : Level) : Prop where
  expr : ∀ setting, Parser.EndsSolid (level.expr setting)
  term : ∀ setting, Parser.EndsSolid (level.term setting)

theorem endsSolid_demandWord {w : String} (some : w.toList ≠ [])
    (solid : ∀ x ∈ w.toList.getLast?, isBlank x = false) : Parser.EndsSolid (demandWord w) :=
  (endsSolid_word some solid).demand _

section Terms

variable (sound : ∀ text, level.IsSound text (·.IsIn text))
include sound

/-- Strings and templates end with a quote. -/
theorem endsSolid_quotedForm : Parser.EndsSolid (quotedForm level) := by
  have quote : Parser.EndsSolid (char '"') := endsSolid_char (by decide)
  have string : Parser.EndsSolid stringForm :=
    .bind_right (fun _ => advances_char '"') fun _ _ =>
      .bind_right (fun _ => advances_quotedText.optional.advances) fun _ _ =>
        quote.bind fun _ => keepsSolid_pure _
  have template : Parser.EndsSolid (quotedTemplateForm level) :=
    .bind_right (fun _ => advances_char '"') fun _ _ =>
      .bind_right (fun text => ((sound text).part .quoted).many.advances) fun _ _ =>
        quote.bind fun _ => keepsSolid_pure _
  exact string.choice template

/-- A heredoc ends with its delimiter. -/
theorem endsSolid_heredocForm : Parser.EndsSolid (heredocForm level) := by
  refine .bind_right (fun _ => advances_word _) fun _ _ =>
    .bind_right (fun _ => (advances_char '-').optional.advances) fun _ _ =>
      .bind_right (fun _ => advances_demandIdentifier) fun delimiter named =>
        .bind_right (fun _ => advances_lineBreak.demand _) fun _ _ =>
          .bind_right (fun text => (advances_heredocParts (sound text) delimiter).choice
            (advances_pure [])) fun _ _ =>
              .bind_right (fun _ => (advances_satisfy _).many.advances) fun _ _ => ?_
  -- The closing delimiter is the word that was read as an identifier behind the opening sign.
  obtain ⟨_, _, read⟩ := named
  obtain ⟨some, solid⟩ := solid_of_isIdentifier (isIdentifier_of_read (demand_eq_read_iff.mp read))
  exact ((endsSolid_word some solid).demand _).bind fun _ => keepsSolid_pure _

/-- Parentheses, lists and objects end with a closing bracket. -/
theorem endsSolid_parensForm : Parser.EndsSolid (parensForm level) :=
  .bind_right (fun _ => advances_char '(') fun _ _ => .bind_right (fun _ => advances_skip true)
    fun _ _ => .bind_right (fun text => ((sound text).expr .bracket).advances) fun _ _ =>
      .bind_right (fun _ => advances_skip true) fun _ _ =>
        (endsSolid_demandWord (by decide) (by decide)).bind fun _ => keepsSolid_pure _

theorem endsSolid_listForm (setting : Setting) : Parser.EndsSolid (listForm level setting) :=
  .bind_right (fun _ => advances_char '[') fun _ _ =>
    .bind_right (fun text => ((yields_listForForm (sound text) setting).either startsFor
      (yields_listItemsForm (sound text) setting)).advances) fun _ _ =>
        (endsSolid_demandWord (by decide) (by decide)).bind fun _ => keepsSolid_pure _

theorem endsSolid_objectForm (setting : Setting) : Parser.EndsSolid (objectForm level setting) := by
  have inside (text : List Char) : Advances text (fun c => if startsFor c then
      (do return (← objectForForm level setting.withBreaks, setting.withBreaks) :
        Parser (Form × Setting)) c
      else (do return (← objectItemsForm level, setting) : Parser (Form × Setting)) c) :=
    ((Yields.paired (yields_objectForForm (sound text) _) setting.withBreaks).either startsFor
      (Yields.paired (yields_objectItemsForm (sound text)) setting)).advances
  exact .bind_right (fun _ => advances_char '\x7b') fun _ _ => .bind_right inside fun _ _ =>
    (endsSolid_demandWord (by decide) (by decide)).bind fun _ => keepsSolid_pure _

/-- A name ends with itself and a call with its closing parenthesis. -/
theorem endsSolid_nameOrCall (setting : Setting) :
    Parser.EndsSolid (nameOrCall level setting) := by
  have close : Parser.EndsSolid (demand .callEnd (word [')'])) :=
    (endsSolid_word (by decide) (by decide)).demand _
  have given (text : List Char) := by
    have argument := (advances_skip true : Advances text _).bind fun _ _ =>
      (advances_notAhead fun x => x == ',' || x == '.' || x == ')').bind fun _ _ =>
        ((sound text).expr setting.withBreaks).bind fun a _ => (advances_skip true).bind fun _ _ =>
          advances_pure a
    exact argument.separated1.bind fun all _ =>
      advances_argumentsEnd.optional.bind fun spread _ => advances_pure (all, spread.getD false)
  have arguments : Parser.EndsSolid (arguments level setting.withBreaks) :=
    .bind_right (fun _ => advances_demandWord _) fun _ _ =>
      .bind_right (fun text => (given text).optional.advances) fun _ _ =>
        .bind_right (fun _ => advances_skip true) fun _ _ => close.bind fun _ => keepsSolid_pure _
  have call (names : List String) : Parser.EndsSolid (callBehind level setting names) :=
    .bind_right (fun _ => advances_skip _) fun _ _ => arguments.bind fun _ => keepsSolid_pure _
  rw [nameOrCall_eq]
  refine endsSolid_identifier.bind fun name c a next read => ?_
  cases sequel : nameSequel (afterBlanks setting.breaks c).rest with
  | names =>
    rw [sequel] at read
    exact (EndsSolid.bind_right (fun _ => (advances_namespacePart _).many1.advances)
      fun more _ => call (name :: more)).keeps read
  | call =>
    rw [sequel] at read
    exact (call [name]).keeps read
  | nothing =>
    rw [sequel] at read
    exact keepsSolid_pure _ read

/-- So every term ends with no blank, if the terms and expressions below do. -/
theorem endsSolid_termAt (closes : level.EndsSolid) (setting : Setting) :
    Parser.EndsSolid (termAt level setting) := by
  intro c a next read
  have signed (sign : Char) (op : UnaryOp) : Parser.EndsSolid (signed level setting sign op) :=
    .bind_right (fun _ => advances_char sign) fun _ _ => .bind_right (fun _ => advances_skip false)
      fun _ _ => (closes.term setting).bind fun _ => keepsSolid_pure _
  have paired {p : Parser Form} (solid : Parser.EndsSolid p) (setting : Setting) :
      Parser.EndsSolid (do return (← p, setting)) := solid.bind fun _ => keepsSolid_pure _
  obtain ⟨x, p, _, reads, marked⟩ := exists_readsTerm read
  have solid : Parser.EndsSolid p := by
    cases reads with
    | quoted => exact paired (endsSolid_quotedForm sound) _
    | list => exact paired (endsSolid_listForm sound _) _
    | object => exact endsSolid_objectForm sound setting
    | heredoc => exact paired (endsSolid_heredocForm sound) _
    | parens => exact paired (endsSolid_parensForm sound) _
    | negative =>
      have negative : Parser.EndsSolid negativeNumber := by
        intro c value next read
        obtain ⟨more, passes, last, _⟩ := passes_negativeNumber read
        exact passes.endsSolid (List.cons_ne_nil _ _) last
      exact (paired (negative.bind fun _ => keepsSolid_pure _) setting).choice (signed '-' .minus)
    | negation => exact signed '!' .not
    | number digit =>
      have number : Parser.EndsSolid number := by
        intro c value next read
        obtain ⟨x, more, passes, _, solid, _⟩ := passes_number read
        exact passes.endsSolid (List.cons_ne_nil _ _)
          fun x last => solid x (List.mem_of_getLast? last)
      exact paired (number.bind fun _ => keepsSolid_pure _) setting
    | name start => exact endsSolid_nameOrCall sound setting
  exact solid (read_of_markedWith marked)

end Terms

/-! ## Expressions -/

/-- A step ends with a name, a digit, a star or a bracket. -/
theorem endsSolid_step (sound : ∀ text, level.IsSound text (·.IsIn text)) (breaks : Bool) :
    Parser.EndsSolid (step level breaks) := by
  have behind (first : Char) : Parser.EndsSolid (dottedStep first) := by
    unfold dottedStep
    split
    · exact (endsSolid_char (by decide)).bind fun _ => keepsSolid_pure _
    · split
      · exact endsSolid_legacyIndex.bind fun _ => keepsSolid_pure _
      · split
        · exact endsSolid_identifier.bind fun _ => keepsSolid_pure _
        · exact fun _ _ _ => nofun
  have dot : Parser.EndsSolid dotStep := by
    rw [dotStep_eq]
    refine .bind_right (fun _ => advances_char '.') fun _ _ =>
      .bind_right (fun _ => advances_skip true) fun _ _ c a next read => ?_
    unfold dottedRest at read
    split at read
    · cases read
    · exact behind _ read
  have bracket : Parser.EndsSolid (bracketStep level) := by
    have key (text : List Char) := by
      have star := (advances_char '*' : Advances text _).bind fun _ _ => advances_pure Step.fullSplat
      have index := ((sound text).expr .bracket).bind fun key _ => advances_pure (Step.index key)
      exact star.choice index
    exact .bind_right (fun _ => advances_char '[') fun _ _ =>
      .bind_right (fun _ => advances_skip true) fun _ _ => .bind_right key fun _ _ =>
        .bind_right (fun _ => advances_skip true) fun _ _ =>
          (endsSolid_demandWord (by decide) (by decide)).bind fun _ => keepsSolid_pure _
  refine .bind_right (fun _ => advances_skip breaks) fun _ _ c a next read => ?_
  split at read
  · cases read
  · exact (dot.choice bracket) read

section Expressions

variable (sound : ∀ text, level.IsSound text (·.IsIn text)) (closes : level.EndsSolid)
include sound closes

/-- A conditional ends as its second branch. -/
theorem endsSolid_conditionalRest (setting : Setting) (test : Expr) :
    Parser.EndsSolid (conditionalRest level setting test) :=
  .bind_right (fun _ => advances_skip _) fun _ _ => .bind_right (fun _ => advances_char '?')
    fun _ _ => .bind_right (fun _ => advances_skip _) fun _ _ =>
      .bind_right (fun text => ((sound text).expr setting).advances) fun _ _ =>
        .bind_right (fun _ => advances_skip _) fun _ _ =>
          .bind_right (fun _ => advances_demandWord _) fun _ _ =>
            .bind_right (fun _ => advances_skip _) fun _ _ =>
              (closes.expr setting).bind fun _ => keepsSolid_pure _

omit sound in
/-- An operation ends as its second operand. -/
theorem endsSolid_operatorRest (setting : Setting) (left : Expr) :
    Parser.EndsSolid (operatorRest level setting left) :=
  .bind_right (fun _ => advances_skip _) fun _ _ => .bind_right (fun _ => advances_binaryOp)
    fun _ _ => .bind_right (fun _ => advances_skip _) fun _ _ =>
      (closes.expr setting.withoutConditionals).bind fun _ => keepsSolid_pure _

/-- Where an expression grows, what it takes ends with no blank. -/
theorem Grows.keepsSolid {first : Cursor} {conditionals : Bool} {e a : Expr}
    (grows : Grows level first conditionals setting e c a next) :
    next = c ∨ c.EndsSolid next := by
  induction grows with
  | stop => exact .inl rfl
  | steps taken _ ih => exact .inr (((endsSolid_step sound _).many1 taken).onward ih)
  | conditional taken => exact .inr (endsSolid_conditionalRest sound closes _ _ taken)
  | operator taken _ ih => exact .inr ((endsSolid_operatorRest closes _ _ taken).onward ih)

/-- An expression ends as its term or as what it last grew by. -/
theorem endsSolid_exprAt (setting : Setting) : Parser.EndsSolid (exprAt level setting) := by
  intro c a next read
  refine (EndsSolid.bind (closes.term setting) fun (e, after) middle a next grows => ?_) read
  exact (grows_of_extend grows).keepsSolid sound closes

end Expressions

/-- On every level expressions and terms end with no blank, whatever is refused. -/
theorem endsSolid_levelWithout (refused : Form → Bool) (depth : Nat) :
    (levelWithout refused depth).EndsSolid := by
  have sound (depth : Nat) (text : List Char) :
      (levelWithout refused depth).IsSound text (·.IsIn text) :=
    isSound_levelWithout (isAcquired_isIn text) refused depth
  induction depth with
  | zero => exact ⟨fun _ => endsSolid_undone _, fun _ => endsSolid_undone _⟩
  | succ depth ih =>
    exact ⟨endsSolid_exprAt (sound depth) ih, fun setting _ _ _ read =>
      endsSolid_termAt (sound depth) ih setting (refusing_eq_read_iff.mp read).1⟩

theorem endsSolid_levelOf (depth : Nat) : (levelOf depth).EndsSolid :=
  levelWithout_false depth ▸ endsSolid_levelWithout _ depth

/-! ## The text of an expression -/

/-- The text of a term is what was passed to read it. -/
theorem text_of_termAt {a : Expr × Setting} (read : termAt level setting c = .read a next) :
    a.1.text = String.ofList (c.upTo next) := by
  obtain ⟨x, p, _, _, marked⟩ := exists_readsTerm read
  obtain ⟨form, after, _, rfl⟩ := markedWith_eq_read_iff.mp marked
  rfl

/-- An expression stays as it is, or it takes some characters and is told by those that it has taken
since its start. -/
theorem Grows.text_eq (sound : ∀ text, level.IsSound text (·.IsIn text)) {first : Cursor}
    {conditionals : Bool} {e a : Expr}
    (grows : Grows level first conditionals setting e c a next) :
    (a = e ∧ next = c) ∨
      next.rest.length < c.rest.length ∧ a.text = String.ofList (first.upTo next) := by
  -- What has grown may go on growing.
  have onward {form : Form} {a : Expr} {c middle next : Cursor}
      (less : middle.rest.length < c.rest.length)
      (more : (a = exprUpTo first middle form ∧ next = middle) ∨
        next.rest.length < middle.rest.length ∧ a.text = String.ofList (first.upTo next)) :
      next.rest.length < c.rest.length ∧ a.text = String.ofList (first.upTo next) := by
    obtain ⟨rfl, rfl⟩ | ⟨further, text⟩ := more
    · exact ⟨less, rfl⟩
    · exact ⟨Nat.lt_trans further less, text⟩
  induction grows with
  | stop => exact .inl ⟨rfl, rfl⟩
  | steps taken _ ih =>
    exact .inr (onward ((takesSome_step sound _).many1
      (fun text => advances_step (sound text) _) taken) ih)
  | conditional taken => exact .inr ⟨takesSome_conditionalRest sound _ _ taken, rfl⟩
  | operator taken _ ih => exact .inr (onward (takesSome_operatorRest sound _ _ taken) ih)

theorem text_of_expr {depth : Nat} {e : Expr}
    (read : (levelOf depth).expr setting c = .read e next) :
    e.text = String.ofList (c.upTo next) := by
  have sound (depth : Nat) (text : List Char) : (levelOf depth).IsSound text (·.IsIn text) :=
    isSound_levelOf (isAcquired_isIn text) depth
  match depth with
  | 0 => cases read
  | 1 => cases (bind_eq_read_iff.mp read).choose_spec.choose_spec.1
  | depth + 2 =>
    obtain ⟨⟨first, after⟩, middle, term, grows⟩ := bind_eq_read_iff.mp read
    rcases (grows_of_extend grows).text_eq (sound (depth + 1)) with ⟨rfl, rfl⟩ | ⟨_, text⟩
    · exact text_of_termAt (show termAt (levelOf depth) setting c = _ from term)
    · exact text

/-- The text of an expression is what was passed to read it. -/
theorem passes_text_of_expr {depth : Nat} {e : Expr}
    (read : (levelOf depth).expr setting c = .read e next) : c.Passes e.text.toList next := by
  have sound (text : List Char) : (levelOf depth).IsSound text (·.IsIn text) :=
    isSound_levelOf (isAcquired_isIn text) depth
  obtain ⟨front, passes⟩ :=
    leadsTo_of_advances (fun text => ((sound text).expr setting).advances) read
  rwa [text_of_expr read, upTo_of_passes passes, String.toList_ofList]

/-- No expression is longer than the text that it is read from. -/
theorem length_text_le {depth : Nat} {e : Expr}
    (read : (levelOf depth).expr setting c = .read e next) :
    e.text.toList.length ≤ c.rest.length := by
  rw [(passes_text_of_expr read).1, List.length_append]
  exact Nat.le_add_right _ _

/-- What is kept of an expression is its text. -/
def IsKept (e : Expr) : Prop := Model.keptText e = e.text

/-- Nothing is lost of a text that starts and ends with no blank. -/
theorem isKept_of_passes {e : Expr} (text : e.text = String.ofList (c.upTo next))
    (solid : c.IsSolid) (ends : c.EndsSolid next) : IsKept e := by
  obtain ⟨front, x, passes, last⟩ := ends
  rw [upTo_of_passes passes] at text
  rw [IsKept, Model.keptText, text, String.toList_ofList, trim_of_ends]
  · intro y first
    refine solid y ?_
    rw [passes.1]
    cases front with
    | nil => exact first
    | cons z front => exact first
  · rw [List.getLast?_concat]
    rintro _ ⟨⟩
    exact last

/-- Readers go forward, and nothing of the expressions that they read is lost. -/
theorem isSound_isKept (text : List Char) (depth : Nat) : (levelOf depth).IsSound text IsKept := by
  have sound (depth : Nat) : (levelOf depth).IsSound text (·.IsIn text) :=
    isSound_levelOf (isAcquired_isIn text) depth
  cases depth with
  | zero => exact isSound_bottom
  | succ depth =>
    refine ⟨?_, ?_, (sound (depth + 1)).solid, (sound (depth + 1)).part⟩
    · intro setting c e next here read
      -- The first term tells that the expression starts with no blank.
      obtain ⟨_, _, term, _⟩ := bind_eq_read_iff.mp read
      exact ⟨((sound (depth + 1)).expr setting here read).1, isKept_of_passes (text_of_expr read)
        ((sound depth).solid here term) ((endsSolid_levelOf (depth + 1)).expr setting read)⟩
    · intro setting c a next here read
      exact ⟨((sound (depth + 1)).term setting here read).1,
        isKept_of_passes (text_of_termAt (show termAt (levelOf depth) setting c = _ from read))
          ((sound (depth + 1)).solid here read)
          ((endsSolid_levelOf (depth + 1)).term setting read)⟩

end Grammar

end HclLint.Hcl
