/-
# Literals and names are read again from their own text

A literal keeps its meaning when its text is cut out of a file: read by itself, with line breaks
that are no blanks, the text is the same literal again. This holds wherever the literal stood, as
an item of a list, between brackets or in a block. It also holds of names that stand alone, but not
of expressions in general: their blanks may hold line breaks only where brackets allow them.

## Main definitions

* `IsTermOf`: a text that is a term by itself.

## Main statements

* `termAt_of_readsTerm`: the first character of a term decides what it is read with.
* `isTermOf_of_readsPlain`: the text of a literal or a name is that term wherever it stands.
* `readExpr_of_readsPlain`: read by itself it is that expression.
-/

import HclLint.Proofs.Hcl.Extent
import HclLint.Proofs.Hcl.Quoted
import HclLint.Proofs.Hcl.Reference

namespace HclLint.Hcl.Grammar

open HclLint.Text HclLint.Hcl.Parser

variable {level : Level} {setting : Setting} {x : Char} {p : Parser (Form × Setting)} {form : Form}
  {text rest : List Char} {c next : Cursor}

/-! ## The first character of a term -/

/-- The signs that a term may start with. -/
def termSigns : List Char := ['"', '[', '\x7b', '<', '(', '-', '!']

theorem termSigns_solid : ∀ x ∈ termSigns, x.isDigit = false ∧ isIdentifierStart x = false := by
  intro x sign
  simp only [termSigns, List.mem_cons, List.not_mem_nil, or_false] at sign
  rcases sign with rfl | rfl | rfl | rfl | rfl | rfl | rfl
  all_goals exact ⟨rfl, rfl⟩

/-- The first character of a term decides what it is read with. -/
theorem termAt_of_readsTerm (reads : ReadsTerm level setting x p) (rest : List Char)
    (offset : Nat) :
    termAt level setting ⟨x :: rest, offset⟩ = markedWith p ⟨x :: rest, offset⟩ := by
  cases reads with
  | number digit =>
    have noSign : x ∉ termSigns := by
      intro sign
      rw [(termSigns_solid x sign).1] at digit
      cases digit
    simp only [termSigns, List.mem_cons, List.not_mem_nil, or_false, not_or] at noSign
    simp [termAt, noSign, digit]
  | name start =>
    have noSign : x ∉ termSigns := by
      intro sign
      rw [(termSigns_solid x sign).2] at start
      cases start
    simp only [termSigns, List.mem_cons, List.not_mem_nil, or_false, not_or] at noSign
    simp [termAt, noSign, start, isDigit_of_isIdentifierStart start]
  | _ => rfl

/-- A reader of a term reads it as a term of an expression. -/
theorem reads_termAt_of_readsTerm {holds : Form × Setting → Prop}
    (reads : ReadsTerm level setting x p) (alone : Reads p (x :: text) holds rest) :
    Reads (termAt level setting) (x :: text) (fun a => holds (a.1.form, a.2)) rest := by
  intro offset
  rw [termAt_of_readsTerm reads]
  exact reads_markedWith alone offset

/-! ## Literals and names as terms -/

/-- Wherever the text stands by itself, it is a term with the form. -/
def IsTermOf (form : Form) (text : List Char) : Prop :=
  ∀ level setting, Reads (termAt level setting) text (fun a => a.1.form = form ∧ a.2 = setting) []

/-- A number starts with a digit. -/
theorem exists_cons_of_reads_number {holds : Numeral → Prop}
    (reads : Reads number text holds rest) :
    ∃ x more, text = x :: more ∧ x.isDigit = true := by
  have starts (other : ∀ x ∈ text.head?, x.isDigit = false) : False := by
    have noDigits : IsUndone digits text := (isUndone_satisfy other).bind _
    have noNumber : IsUndone number text := (noDigits.bind _).choice (noDigits.bind _)
    obtain ⟨_, failed⟩ := noNumber 0
    obtain ⟨_, _, read, _⟩ := reads 0
    rw [read] at failed
    cases failed
  cases text with
  | nil => exact (starts (by simp)).elim
  | cons x more =>
    cases digit : x.isDigit with
    | true => exact ⟨x, more, rfl, digit⟩
    | false => exact (starts (forall_mem_head?_cons digit more)).elim

/-- A number passes a digit first and no blank at all. -/
theorem passes_number {value : Numeral} (read : number c = .read value next) :
    ∃ x more, c.Passes (x :: more) next ∧ x.isDigit = true ∧
      (∀ y ∈ x :: more, isBlank y = false) ∧ Reads number (x :: more) (· = value) [] := by
  obtain ⟨between, passes, alone⟩ := readsAlone_number read
  obtain ⟨_, passes', solid⟩ := takes_number read
  obtain rfl := passes.eq passes'
  obtain ⟨x, more, rfl, digit⟩ := exists_cons_of_reads_number alone
  exact ⟨x, more, passes, digit, solid, alone⟩

/-- A negative number passes its sign first, and no blank at its end. -/
theorem passes_negativeNumber {value : Numeral} (read : negativeNumber c = .read value next) :
    ∃ more, c.Passes ('-' :: more) next ∧ (∀ y ∈ ('-' :: more).getLast?, isBlank y = false) ∧
      Reads negativeNumber ('-' :: more) (· = value) [] := by
  obtain ⟨between, passes, alone⟩ := readsAlone_negativeNumber read
  obtain ⟨_, start, sign, more⟩ := bind_eq_read_iff.mp read
  obtain ⟨_, middle, blanks, more⟩ := bind_eq_read_iff.mp more
  obtain ⟨_, last, unsigned, made⟩ := bind_eq_read_iff.mp more
  obtain ⟨rfl, rfl⟩ := Outcome.read.inj made
  obtain ⟨front, passed, _⟩ := isLocal_skip_false blanks
  obtain ⟨x, more, onward, _, solid, _⟩ := passes_number unsigned
  obtain rfl := passes.eq ((passes_char sign).trans (passed.trans onward))
  refine ⟨_, passes, fun y last => ?_, alone⟩
  have last : y ∈ (['-'] ++ (front ++ x :: more)).getLast? := last
  rw [List.getLast?_append, List.getLast?_append, List.getLast?_cons] at last
  exact solid y (List.mem_of_getLast? (List.getLast?_cons.trans last))

/-- A number is a term. -/
theorem isTermOf_number {value : Numeral} (digit : x.isDigit = true)
    (alone : Reads number (x :: text) (· = value) []) : IsTermOf (.number value) (x :: text) := by
  intro level setting
  have form : Reads (do return Form.number (← number)) (x :: text)
      (· = .number value) [] := alone.map fun _ => congrArg _
  exact reads_termAt_of_readsTerm (.number digit) (reads_plain form setting)

theorem isTermOf_negativeNumber {value : Numeral}
    (alone : Reads negativeNumber ('-' :: text) (· = value) []) :
    IsTermOf (.number value) ('-' :: text) := by
  intro level setting
  have form : Reads (do return Form.number (← negativeNumber)) ('-' :: text)
      (· = .number value) [] := alone.map fun _ => congrArg _
  exact reads_termAt_of_readsTerm .negative ((reads_plain form setting).choice _)

theorem isTermOf_string {body value : List Char} (reads : ReadsQuoted body value)
    (empty : value = [] → body = []) :
    IsTermOf (.string (String.ofList value)) ('"' :: (body ++ ['"'])) := by
  intro level setting
  have form := (reads.reads_stringForm empty []).choice (quotedTemplateForm level)
  exact reads_termAt_of_readsTerm .quoted (reads_plain form setting)

/-- What is read as an identifier is one. -/
theorem isIdentifier_of_read {name : String} (read : identifier c = .read name next) :
    isIdentifier name = true := by
  obtain ⟨first, middle, start, more⟩ := bind_eq_read_iff.mp read
  obtain ⟨run, last, goesOn, made⟩ := bind_eq_read_iff.mp more
  obtain ⟨rfl, rfl⟩ := Outcome.read.inj made
  refine isIdentifier_iff.mpr ⟨first, run, String.toList_ofList, passing_of_satisfy start, ?_⟩
  exact (run_of_many_satisfy goesOn).1

theorem isTermOf_name {name : String} (known : isIdentifier name = true) :
    IsTermOf (nameForm name) name.toList := by
  intro level setting
  obtain ⟨first, more, same, start⟩ := exists_toList_cons known
  have named : Reads (nameOrCall level setting) (name.toList ++ [])
      (fun a => a.1 = nameForm name ∧ a.2 = setting) [] := by
    refine (reads_identifier known (by simp)).bind fun _ same offset => ?_
    refine ⟨(nameForm name, setting), offset, ?_, rfl, rfl⟩
    simp only [rest_afterBlanks setting.breaks endsReference_nil.solid, same]
  rw [List.append_nil, same] at named
  rw [same]
  exact reads_termAt_of_readsTerm (.name start) named

/-- The text of a literal or a name is that term wherever it stands by itself, and no blanks
surround it. -/
theorem isTermOf_of_readsPlain (reads : ReadsPlain c form next) :
    ∃ between, c.Passes between next ∧ between ≠ [] ∧ trim between = between ∧
      IsTermOf form between := by
  cases reads with
  | string read =>
    obtain ⟨body, value, passes, same, reads, empty⟩ := readsQuoted_of_stringForm read
    refine ⟨_, passes, List.cons_ne_nil _ _, trim_of_ends ?_ ?_, same ▸ isTermOf_string reads empty⟩
    · exact forall_mem_head?_cons (by decide) _
    · rw [← List.cons_append, List.getLast?_concat]
      rintro _ ⟨⟩
      decide
  | number read =>
    obtain ⟨x, more, passes, digit, solid, alone⟩ := passes_number read
    exact ⟨_, passes, List.cons_ne_nil _ _, trim_of_solid solid, isTermOf_number digit alone⟩
  | negative read =>
    obtain ⟨more, passes, last, alone⟩ := passes_negativeNumber read
    refine ⟨_, passes, List.cons_ne_nil _ _, trim_of_ends ?_ last, isTermOf_negativeNumber alone⟩
    exact forall_mem_head?_cons (by decide) more
  | name read =>
    have known := isIdentifier_of_read read
    refine ⟨_, passes_identifier read, ?_, trim_of_isIdentifier known, isTermOf_name known⟩
    obtain ⟨first, more, same, _⟩ := exists_toList_cons known
    rw [same]
    exact List.cons_ne_nil first more

/-! ## Whole texts -/

/-- The text of a literal or a name, trimmed and read by itself, is that expression. -/
theorem readExpr_of_readsPlain (reads : ReadsPlain c form next) :
    ∃ e, readExpr (String.ofList (trim (c.upTo next))) = .ok e ∧ e.form = form := by
  obtain ⟨between, passes, some, trimmed, term⟩ := isTermOf_of_readsPlain reads
  obtain rfl : c.upTo next = between := Cursor.LeadsTo.passes_upTo ⟨between, passes⟩ |>.eq passes
  rw [trimmed]
  refine readExpr_of_reads (by rwa [String.toList_ofList]) fun depth => ?_
  rw [String.toList_ofList]
  exact reads_expr_of_termAt (· = form) (term (levelOf (depth + 3)) .line) endsReference_nil

end HclLint.Hcl.Grammar
