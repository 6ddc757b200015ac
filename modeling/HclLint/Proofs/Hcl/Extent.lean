/-
# Expressions stand where they say

Every expression that is read from a text keeps the characters it was read from and the byte
offset where they start, and no blank is among the characters it starts with. The same holds for
what a list or an object is made of, at any depth. Other expressions are kept whole, so nothing
is asked of what lies inside of them. It is one of the properties that expressions acquire where
they are read: literals and names by how they are read, and all others from their members. One
induction over the levels serves all of them.

## Main definitions

* `Extent.IsIn`: characters that stand in a text where they are said to start.
* `Expr.IsIn`: an expression that does, with all members of lists and objects in it.
* `Form.IsBuilt`: a form that is no literal and no name, told from its members.
* `Level.IsSound`: readers of expressions with a property.
* `ReadsTerm`: what a term is read with, by its first character.
* `ReadsPlain`: how literals and names are read.
* `Makes`: parsers of forms that are built, or of literals and names.
* `IsAcquired`: a property that expressions acquire where they are read.
* `Grows`: the ways in which an expression goes on behind its first term.

## Main statements

* `exists_readsTerm`: the first character of a term decides what it is read with.
* `Grows.keeps_acquired`: an expression keeps an acquired property when it grows.
* `isSound_levelOf`: every level reads expressions with an acquired property.
* `isAcquired_isIn`: to stand in the text is such a property.
-/

import HclLint.Hcl.Grammar.Expression
import HclLint.Proofs.Hcl.Advance
import HclLint.Proofs.Text.Identifier

namespace HclLint.Hcl

open HclLint.Text

/-! ## Extents in a text -/

/-- The characters stand in the text, from the byte offset on where they are said to start. -/
def Extent.IsIn (text : List Char) (extent : Extent) : Prop :=
  ∃ before after, text = before ++ extent.text.toList ++ after ∧
    extent.start = byteLength before

/-- The expressions that a list or an object is made of. -/
def Form.members : Form → List Expr
  | .list items => items
  | .object entries => entries.flatMap fun (key, value) => [key, value]
  | _ => []

/-- The expression stands in the text where it says and starts with no blank, and the same
holds for the members of lists and objects in it. -/
inductive Expr.IsIn (text : List Char) : Expr → Prop where
  | mk {extent : Extent} {form : Form} (here : extent.IsIn text)
      (solid : ∀ x ∈ extent.text.toList.head?, isBlank x = false)
      (inside : ∀ e ∈ form.members, Expr.IsIn text e) : Expr.IsIn text (.mk extent form)

/-- Whether the form is neither a literal nor a name. -/
def Form.isCompound : Form → Bool
  | .null | .bool _ | .number _ | .string _ | .variable _ => false
  | _ => true

/-- The form is neither a literal nor a name, and its members have a property. -/
def Form.IsBuilt (holds : Expr → Prop) (form : Form) : Prop :=
  form.isCompound = true ∧ ∀ e ∈ form.members, holds e

/-- An expression that stands in a text does so with its extent. -/
theorem Expr.IsIn.extent {text : List Char} {e : Expr} (here : e.IsIn text) :
    e.extent.IsIn text := by
  obtain ⟨here, _, _⟩ := here
  exact here

theorem Expr.IsIn.solid {text : List Char} {e : Expr} (here : e.IsIn text) :
    ∀ x ∈ e.text.toList.head?, isBlank x = false := by
  obtain ⟨_, solid, _⟩ := here
  exact solid

/-- What is passed stands where the cursor stood in front of it. -/
theorem Cursor.IsIn.extent {text between : List Char} {c next : Cursor} (here : c.IsIn text)
    (passes : c.Passes between next) : Extent.IsIn text ⟨c.offset, String.ofList between⟩ := by
  obtain ⟨before, same, offset⟩ := here
  obtain ⟨passed, _⟩ := passes
  refine ⟨before, next.rest, ?_, ?_⟩
  · rw [String.toList_ofList, List.append_assoc, ← passed]
    exact same
  · exact offset.trans (Nat.zero_add _)

/-- No blank stands at the cursor. -/
def Cursor.IsSolid (c : Cursor) : Prop := ∀ x ∈ c.rest.head?, isBlank x = false

/-- An expression that is made of what is passed stands where the cursor stood. -/
theorem Cursor.IsIn.expr {text : List Char} {c next : Cursor} {form : Form} (here : c.IsIn text)
    (solid : c.IsSolid) (forward : c.LeadsTo next) (inside : ∀ e ∈ form.members, e.IsIn text) :
    Expr.IsIn text (.mk ⟨c.offset, String.ofList (c.upTo next)⟩ form) := by
  refine .mk (here.extent forward.passes_upTo) (fun x head => solid x ?_) inside
  rw [String.toList_ofList] at head
  rw [forward.passes_upTo.1]
  cases passed : c.upTo next with
  | nil =>
    rw [passed] at head
    cases head
  | cons y more => rwa [passed] at head

namespace Grammar

open HclLint.Hcl.Parser

variable {text : List Char} {holds : Expr → Prop} {level : Level}

/-- The readers of a level go forward in a text, and the expressions they read have a property. -/
structure Level.IsSound (text : List Char) (holds : Expr → Prop) (level : Level) : Prop where
  expr : ∀ setting, Yields text (level.expr setting) holds
  term : ∀ setting, Yields text (level.term setting) (holds ·.1)
  solid : ∀ {setting c a next}, c.IsIn text → level.term setting c = .read a next → c.IsSolid
  part : ∀ quoting, Advances text (level.part quoting)

/-- The readers below all levels read nothing. -/
theorem isSound_bottom : Level.IsSound text holds .bottom where
  expr _ := yields_fail
  term _ := yields_fail
  solid _ read := by cases read
  part _ := yields_fail

/-- A compound form without members is built of what has any property. -/
theorem yields_compound {form : Form} (compound : form.isCompound = true)
    (plain : form.members = []) : Yields text (pure form) (·.IsBuilt holds) :=
  yields_pure ⟨compound, by simp [plain]⟩

/-- A form keeps its property with the setting for what follows it. -/
theorem Yields.paired {p : Parser Form} {holds : Form → Prop} (yields : Yields text p holds)
    (setting : Setting) :
    Yields text (do return (← p, setting) : Parser (Form × Setting)) (holds ·.1) :=
  yields.bind fun _ inside => yields_pure inside

/-! ## Templates -/

theorem advances_trimMark : Advances text trimMark :=
  (advances_char '~').optional.bind fun _ _ => advances_pure _

theorem advances_tagEnd : Advances text tagEnd :=
  (advances_skip true).bind fun _ _ => advances_trimMark.bind fun _ _ =>
    (advances_demandWord _).bind fun _ _ => advances_pure _

theorem advances_tagStart : Advances text tagStart :=
  (advances_word _).bind fun _ _ => advances_trimMark.bind fun _ _ =>
    (advances_skip true).bind fun _ _ => advances_pure _

theorem advances_boundNames : Advances text boundNames := by
  have another := (advances_char ',' : Advances text _).bind fun _ _ =>
    (advances_skip true).bind fun _ _ => advances_demandIdentifier.bind fun name _ =>
      (advances_skip true).bind fun _ _ => advances_pure name
  exact advances_demandIdentifier.bind fun _ _ => (advances_skip true).bind fun _ _ =>
    another.optional.bind fun _ _ => advances_pure _

/-- The tags of directives are read forward, as are the words in them. -/
theorem advances_closingTag (keyword : String) : Advances text (closingTag keyword) :=
  advances_tagStart.bind fun _ _ => (advances_demandWord keyword).bind fun _ _ =>
    advances_tagEnd.bind fun _ _ => advances_pure _

section Templates

variable (sound : level.IsSound text holds) (quoting : Quoting)
include sound

/-- An interpolation goes forward by an expression of the level below. -/
theorem advances_interpolation : Advances text (interpolation level) :=
  (advances_word _).bind fun _ _ => advances_trimMark.bind fun _ _ =>
    (advances_skip true).bind fun _ _ => (sound.expr .bracket).bind fun _ _ =>
      advances_tagEnd.bind fun _ _ => advances_pure _

theorem advances_elseParts : Advances text (elseParts level quoting) :=
  advances_tagStart.bind fun _ _ => (advances_word _).bind fun _ _ =>
    advances_tagEnd.bind fun _ _ => (sound.part quoting).many.bind fun _ _ => advances_pure _

theorem advances_branchPart (left : Bool) : Advances text (branchPart level quoting left) :=
  (advances_word _).bind fun _ _ => (advances_skip true).bind fun _ _ =>
    (sound.expr .bracket).bind fun _ _ => advances_tagEnd.bind fun _ _ =>
      (sound.part quoting).many.bind fun _ _ =>
        (advances_elseParts sound quoting).optional.bind fun _ _ =>
          (advances_closingTag _).bind fun _ _ => advances_pure _

theorem advances_loopPart (left : Bool) : Advances text (loopPart level quoting left) :=
  (advances_word _).bind fun _ _ => (advances_skip true).bind fun _ _ =>
    advances_boundNames.bind fun _ _ => (advances_demandWord _).bind fun _ _ =>
      (advances_skip true).bind fun _ _ => (sound.expr .bracket).bind fun _ _ =>
        advances_tagEnd.bind fun _ _ => (sound.part quoting).many.bind fun _ _ =>
          (advances_closingTag _).bind fun _ _ => advances_pure _

theorem advances_directive : Advances text (directive level quoting) :=
  advances_tagStart.bind fun left _ =>
    (advances_branchPart sound quoting left).choice (advances_loopPart sound quoting left)

theorem advances_templatePart : Advances text (templatePart level quoting) := by
  have literal := (advances_templateText quoting : Advances text _).bind fun run _ =>
    advances_pure (Part.literal run)
  exact literal.choice ((advances_interpolation sound).choice (advances_directive sound quoting))

omit sound in
/-- A string has no members. -/
theorem yields_stringForm : Yields text stringForm fun form => ∃ value, form = .string value :=
  (advances_char '"').bind fun _ _ => advances_quotedText.optional.bind fun _ _ =>
    (advances_char '"').bind fun _ _ => yields_pure ⟨_, rfl⟩

/-- The members of a template are those of its parts, which the level below has read. -/
theorem yields_quotedTemplateForm : Yields text (quotedTemplateForm level) (·.IsBuilt holds) :=
  (advances_char '"').bind fun _ _ => (sound.part .quoted).many.bind fun _ _ =>
    (advances_char '"').bind fun _ _ => yields_compound rfl rfl

theorem advances_heredocParts (delimiter : String) :
    Advances text (heredocParts level delimiter) :=
  (sound.part _).many.bind fun _ _ => advances_lineBreak.bind fun _ _ => advances_pure _

/-- Removing the indentation of a heredoc does not touch its members. -/
theorem yields_heredocForm : Yields text (heredocForm level) (·.IsBuilt holds) :=
  (advances_word _).bind fun _ _ => (advances_char '-').optional.bind fun _ _ =>
    advances_demandIdentifier.bind fun delimiter _ =>
      (advances_lineBreak.demand _).bind fun _ _ =>
        ((advances_heredocParts sound delimiter).choice (advances_pure [])).bind fun _ _ =>
          (advances_satisfy _).many.bind fun _ _ =>
            ((advances_word _).demand _).bind fun _ _ => yields_compound rfl rfl

end Templates

/-! ## Lists and objects -/

theorem advances_objectSign : Advances text objectSign := by
  refine advances_of_drop fun c a next read => ?_
  unfold objectSign at read
  split at read
  · cases read
  · split at read
    · exact ⟨1, (Outcome.read.inj read).2.symm⟩
    · cases read

/-- What separates the items of an object is a brace, which is left, a comma, or the end of a line
with or without a comment. -/
theorem objectSeparator_cases {c next : Cursor} {a : Unit}
    (read : objectSeparator c = .read a next) :
    (∃ rest, c.rest = '\x7d' :: rest ∧ next = c) ∨
      (∃ rest, c.rest = ',' :: rest ∧ next = c.drop 1) ∨
        (do let _ ← lineBreak : Parser Unit) c = .read () next ∨
          (do lineComment; let _ ← lineBreak : Parser Unit) c = .read () next := by
  unfold objectSeparator at read
  split at read
  · cases read
  · next rest same => exact .inl ⟨rest, same, (Outcome.read.inj read).2.symm⟩
  · next rest same => exact .inr (.inl ⟨rest, same, (Outcome.read.inj read).2.symm⟩)
  · split at read
    · exact .inr (.inr (.inl read))
    · split at read
      · exact .inr (.inr (.inr read))
      · cases read

theorem advances_objectSeparator : Advances text objectSeparator := by
  have ending := (advances_lineBreak : Advances text _).bind fun _ _ => advances_pure ()
  intro c a next here read
  rcases objectSeparator_cases read with ⟨_, _, rfl⟩ | ⟨_, _, rfl⟩ | broken | comment
  · exact ⟨.refl _, trivial⟩
  · exact ⟨c.leadsTo_drop 1, trivial⟩
  · exact ending here broken
  · exact (advances_lineComment.bind fun _ _ => ending) here comment

/-- The entry that is put in is one of the entries, and all others were there before. -/
theorem mem_putEntry {entry other : Expr × Expr} {entries : List (Expr × Expr)}
    (member : other ∈ putEntry entry entries) : other = entry ∨ other ∈ entries := by
  induction entries with
  | nil => exact .inl (List.mem_singleton.mp member)
  | cons first rest ih =>
    rw [putEntry] at member
    split at member
    · rcases List.mem_cons.mp member with same | member
      · exact .inl same
      · exact .inr (.tail first member)
    · rcases List.mem_cons.mp member with same | member
      · exact .inr (same ▸ List.mem_cons_self)
      · exact (ih member).imp_right (.tail first)

/-- Putting entries one after the other invents none. -/
theorem mem_foldl_putEntry {entry : Expr × Expr} {items entries : List (Expr × Expr)}
    (member : entry ∈ items.foldl (fun entries item => putEntry item entries) entries) :
    entry ∈ items ∨ entry ∈ entries := by
  induction items generalizing entries with
  | nil => exact .inr member
  | cons item items ih =>
    rcases ih member with later | before
    · exact .inl (.tail item later)
    · rcases mem_putEntry before with rfl | before
      · exact .inl List.mem_cons_self
      · exact .inr before

/-- So the entries of an object are among those that were read. -/
theorem mem_of_mem_entriesOf {entry : Expr × Expr} {items : List (Expr × Expr)}
    (member : entry ∈ entriesOf items) : entry ∈ items :=
  (mem_foldl_putEntry member).resolve_right (List.not_mem_nil)

section Operands

variable (sound : level.IsSound text holds) (setting : Setting)
include sound

theorem yields_parensForm : Yields text (parensForm level) (·.IsBuilt holds) :=
  (advances_char '(').bind fun _ _ => (advances_skip true).bind fun _ _ =>
    (sound.expr .bracket).bind fun _ _ => (advances_skip true).bind fun _ _ =>
      (advances_demandWord _).bind fun _ _ => yields_compound rfl rfl

theorem advances_forHead : Advances text (forHead level) :=
  (advances_skip true).bind fun _ _ => (advances_word _).bind fun _ _ =>
    (advances_skip true).bind fun _ _ => advances_boundNames.bind fun _ _ =>
      (advances_demandWord _).bind fun _ _ => (advances_skip true).bind fun _ _ =>
        (sound.expr .line).bind fun _ _ => (advances_skip true).bind fun _ _ =>
          (advances_demandWord _).bind fun _ _ => advances_pure _

theorem advances_forFilter : Advances text (forFilter level setting) :=
  (advances_skip true).bind fun _ _ => (advances_word _).bind fun _ _ =>
    (advances_skip true).bind fun _ _ => (sound.expr setting).bind fun _ _ =>
      (advances_skip true).bind fun _ _ => advances_pure _

/-- The members of a comprehension are its collection, its value and its test. -/
theorem yields_listForForm : Yields text (listForForm level setting) (·.IsBuilt holds) :=
  (advances_forHead sound).bind fun (_, _) _ => (advances_skip true).bind fun _ _ =>
    (sound.expr setting).bind fun _ _ => (advances_skip true).bind fun _ _ =>
      (advances_forFilter sound setting).optional.bind fun _ _ => yields_compound rfl rfl

theorem yields_objectForForm : Yields text (objectForForm level setting) (·.IsBuilt holds) := by
  have dots := (advances_word "...".toList : Advances text _).bind fun _ _ => advances_skip true
  exact (advances_forHead sound).bind fun (_, _) _ => (advances_skip true).bind fun _ _ =>
    (sound.expr .line).bind fun _ _ => (advances_skip true).bind fun _ _ =>
      (advances_demandWord _).bind fun _ _ => (advances_skip true).bind fun _ _ =>
        (sound.expr .line).bind fun _ _ => (advances_skip true).bind fun _ _ =>
          dots.optional.bind fun _ _ =>
            (advances_forFilter sound setting).optional.bind fun _ _ => yields_compound rfl rfl

/-- The members of a list are its items. -/
theorem yields_listItemsForm : Yields text (listItemsForm level setting) (·.IsBuilt holds) := by
  have item := (advances_skip true : Advances text _).bind fun _ _ =>
    (advances_notAhead (· == ']')).bind fun _ _ => (sound.expr setting).bind fun _ inside =>
      (advances_skip true).bind fun _ _ => yields_pure inside
  exact item.separated.bind fun _ inside => (advances_char ',').optional.bind fun _ _ =>
    (advances_skip true).bind fun _ _ => yields_pure ⟨rfl, inside⟩

/-- Either way a list is built of members that the level below has read. -/
theorem yields_listForm : Yields text (listForm level setting) (·.IsBuilt holds) :=
  (advances_char '[').bind fun _ _ =>
    ((yields_listForForm sound setting).either startsFor (yields_listItemsForm sound setting)).bind
      fun _ inside => (advances_demandWord _).bind fun _ _ => yields_pure inside

/-- Key and value of an entry are read by the level below. -/
theorem yields_objectItem :
    Yields text (objectItem level) fun entry => holds entry.1 ∧ holds entry.2 :=
  (sound.expr .line).bind fun _ key => (advances_skip false).bind fun _ _ =>
    advances_objectSign.bind fun _ _ => (advances_skip false).bind fun _ _ =>
      (sound.expr .line).bind fun _ value => (advances_skip false).bind fun _ _ =>
        advances_objectSeparator.bind fun _ _ => yields_pure ⟨key, value⟩

theorem yields_objectItems (limit : List Char) :
    Yields text (objectItems level limit) fun items =>
      ∀ entry ∈ items, holds entry.1 ∧ holds entry.2 := by
  induction limit with
  | nil => exact yields_fail
  | cons x limit ih =>
    refine (advances_skip true).bind fun _ _ => ?_
    refine (advances_notAhead _).optional.bind fun more _ => .ite (fun _ => ?_) fun _ => ?_
    · exact (yields_objectItem sound).bind fun _ entry => ih.bind fun _ others =>
        yields_pure (List.forall_mem_cons.mpr ⟨entry, others⟩)
    · exact yields_pure (List.forall_mem_nil _)

theorem yields_objectItemsForm : Yields text (objectItemsForm level) (·.IsBuilt holds) := by
  intro c form next here read
  refine ((yields_objectItems sound (' ' :: c.rest)).bind fun items inside => ?_) here read
  refine yields_pure ⟨rfl, fun e member => ?_⟩
  obtain ⟨⟨key, value⟩, entry, part⟩ := List.mem_flatMap.mp member
  obtain ⟨keyHolds, valueHolds⟩ := inside _ (mem_of_mem_entriesOf entry)
  rcases List.mem_cons.mp part with rfl | part
  · exact keyHolds
  · exact List.mem_singleton.mp part ▸ valueHolds

/-- So are the members of an object, be it written out or a comprehension. -/
theorem yields_objectForm : Yields text (objectForm level setting) (·.1.IsBuilt holds) := by
  have comprehension : Yields text _ fun a : Form × Setting => a.1.IsBuilt holds :=
    Yields.paired (yields_objectForForm sound setting.withBreaks) setting.withBreaks
  have entries := Yields.paired (yields_objectItemsForm sound) setting
  exact (advances_char '\x7b').bind fun _ _ => (comprehension.either startsFor entries).bind
    fun _ inside => (advances_demandWord _).bind fun _ _ => yields_pure inside

/-! ## Calls and signs -/

omit sound in
theorem advances_argumentsEnd : Advances text argumentsEnd := by
  intro c a next here read
  unfold argumentsEnd at read
  have first := c.leadsTo_drop 1
  split at read
  · obtain ⟨_, rfl⟩ := Outcome.read.inj read
    exact ⟨first, trivial⟩
  · have dots := (advances_demandWord ".." : Advances text _).bind fun _ _ => advances_pure true
    obtain ⟨forward, _⟩ := dots (here.onward first) read
    exact ⟨first.trans forward, trivial⟩
  · cases read

theorem advances_arguments : Advances text (arguments level setting) := by
  have argument := (advances_skip true : Advances text _).bind fun _ _ =>
    (advances_notAhead fun x => x == ',' || x == '.' || x == ')').bind fun _ _ =>
      (sound.expr setting).bind fun a _ => (advances_skip true).bind fun _ _ => advances_pure a
  have given := argument.separated1.bind fun all _ =>
    advances_argumentsEnd.optional.bind fun spread _ => advances_pure (all, spread.getD false)
  exact (advances_demandWord _).bind fun _ _ => given.optional.bind fun _ _ =>
    (advances_skip true).bind fun _ _ => ((advances_word _).demand _).bind fun _ _ =>
      advances_pure _

omit sound in
theorem advances_namespacePart (breaks : Bool) : Advances text (namespacePart breaks) :=
  (advances_skip breaks).bind fun _ _ => (advances_word _).bind fun _ _ =>
    (advances_skip breaks).bind fun _ _ => advances_demandIdentifier

/-- The member of a signed term is the term. -/
theorem yields_signed (sign : Char) (op : UnaryOp) :
    Yields text (signed level setting sign op) (·.1.IsBuilt holds) :=
  (advances_char sign).bind fun _ _ => (advances_skip false).bind fun _ _ =>
    (sound.term setting).bind fun (_, _) _ => yields_pure ⟨rfl, List.forall_mem_nil _⟩

end Operands

/-! ## Terms -/

section Terms

variable {setting : Setting} {x : Char} {p : Parser (Form × Setting)} {c next : Cursor}

/-- What a term is read with, by its first character. -/
inductive ReadsTerm (level : Level) (setting : Setting) : Char → Parser (Form × Setting) → Prop
  | quoted : ReadsTerm level setting '"' (do return (← quotedForm level, setting))
  | list : ReadsTerm level setting '['
      (do return (← listForm level setting.withBreaks, setting.withBreaks))
  | object : ReadsTerm level setting '\x7b' (objectForm level setting)
  | heredoc : ReadsTerm level setting '<' (do return (← heredocForm level, setting))
  | parens : ReadsTerm level setting '(' (do return (← parensForm level, setting))
  | negative : ReadsTerm level setting '-'
      (choice (do return (← (do return .number (← negativeNumber)), setting))
        (signed level setting '-' .minus))
  | negation : ReadsTerm level setting '!' (signed level setting '!' .not)
  | number {x : Char} (digit : x.isDigit = true) :
      ReadsTerm level setting x (do return (← (do return .number (← number)), setting))
  | name {x : Char} (start : isIdentifierStart x = true) :
      ReadsTerm level setting x (nameOrCall level setting)

/-- No term starts with a blank. -/
theorem isBlank_of_readsTerm (reads : ReadsTerm level setting x p) : isBlank x = false := by
  cases reads with
  | number digit => exact isBlank_of_isDigit digit
  | name start => exact isBlank_of_isIdentifierStart start
  | _ => decide

theorem isSolid_of_readsTerm (reads : ReadsTerm level setting x p)
    (first : x ∈ c.rest.head?) : c.IsSolid := by
  intro y head
  obtain rfl := Option.some.inj (first.symm.trans head)
  exact isBlank_of_readsTerm reads

/-- A form is read with the extent of what was read. -/
theorem markedWith_eq_read_iff {a : Expr × Setting} :
    markedWith p c = .read a next ↔ ∃ form after, p c = .read (form, after) next ∧
      a = (.mk ⟨c.offset, String.ofList (c.upTo next)⟩ form, after) := by
  rw [markedWith]
  cases read : p c with
  | read b last =>
    constructor
    · intro marked
      obtain ⟨rfl, rfl⟩ := Outcome.read.inj marked
      exact ⟨b.1, b.2, rfl, rfl⟩
    · rintro ⟨form, after, taken, rfl⟩
      obtain ⟨rfl, rfl⟩ := Outcome.read.inj taken
      rfl
  | undone complaint => exact ⟨nofun, nofun⟩
  | final complaint place => exact ⟨nofun, nofun⟩

/-- The form was read where the extent ends. -/
theorem read_of_markedWith {a : Expr × Setting} (marked : markedWith p c = .read a next) :
    p c = .read (a.1.form, a.2) next := by
  obtain ⟨form, after, read, rfl⟩ := markedWith_eq_read_iff.mp marked
  exact read

/-- A term is read by what its first character opens. -/
theorem exists_readsTerm {a : Expr × Setting}
    (read : termAt level setting c = .read a next) : ∃ x p, x ∈ c.rest.head? ∧
      ReadsTerm level setting x p ∧ markedWith p c = .read a next := by
  obtain ⟨rest, offset⟩ := c
  cases rest with
  | nil => cases read
  | cons x rest =>
    have first {y : Char} {p : Parser (Form × Setting)} (same : (x == y) = true)
        (reads : ReadsTerm level setting y p) : ReadsTerm level setting x p := by
      rwa [beq_iff_eq.mp same]
    suffices chosen : ∃ p, ReadsTerm level setting x p ∧
        markedWith p ⟨x :: rest, offset⟩ = .read a next by
      obtain ⟨p, reads, marked⟩ := chosen
      exact ⟨x, p, rfl, reads, marked⟩
    unfold termAt at read
    dsimp only at read
    split at read
    · next same => exact ⟨_, first same .quoted, read⟩
    · split at read
      · next same => exact ⟨_, first same .list, read⟩
      · split at read
        · next same => exact ⟨_, first same .object, read⟩
        · split at read
          · next same => exact ⟨_, first same .heredoc, read⟩
          · split at read
            · next same => exact ⟨_, first same .parens, read⟩
            · split at read
              · next same => exact ⟨_, first same .negative, read⟩
              · split at read
                · next same => exact ⟨_, first same .negation, read⟩
                · split at read
                  · next digit => exact ⟨_, .number digit, read⟩
                  · split at read
                    · next start => exact ⟨_, .name start, read⟩
                    · cases read

/-- How literals and names are read. -/
inductive ReadsPlain (c : Cursor) : Form → Cursor → Prop
  | string {value : String} {next : Cursor} (read : stringForm c = .read (.string value) next) :
      ReadsPlain c (.string value) next
  | number {value : Numeral} {next : Cursor} (read : number c = .read value next) :
      ReadsPlain c (.number value) next
  | negative {value : Numeral} {next : Cursor} (read : negativeNumber c = .read value next) :
      ReadsPlain c (.number value) next
  | name {name : String} {next : Cursor} (read : identifier c = .read name next) :
      ReadsPlain c (nameForm name) next

/-- Literals and names have no members. -/
theorem members_of_readsPlain {form : Form} (reads : ReadsPlain c form next) :
    form.members = [] := by
  cases reads with
  | name read =>
    unfold nameForm
    split <;> rfl
  | _ => rfl

/-- A property that expressions acquire where they are read: literals and names by how they are
read, and all others from their members. -/
structure IsAcquired (text : List Char) (holds : Expr → Prop) : Prop where
  plain : ∀ {form} {c next : Cursor}, c.IsIn text → c.IsSolid → c.LeadsTo next →
    ReadsPlain c form next → holds (.mk ⟨c.offset, String.ofList (c.upTo next)⟩ form)
  built : ∀ {form} {c next : Cursor}, c.IsIn text → c.IsSolid → c.LeadsTo next →
    form.IsBuilt holds → holds (.mk ⟨c.offset, String.ofList (c.upTo next)⟩ form)

/-- Standing in the text is a property that expressions acquire where they are read. -/
theorem isAcquired_isIn (text : List Char) : IsAcquired text (·.IsIn text) where
  plain here solid forward reads :=
    here.expr solid forward (by simp [members_of_readsPlain reads])
  built here solid forward built := here.expr solid forward built.2

/-- The parser goes forward, and it reads a form that is built, or a literal or a name. -/
def Makes (text : List Char) (holds : Expr → Prop) (p : Parser (Form × Setting)) : Prop :=
  ∀ ⦃c a next⦄, c.IsIn text → p c = .read a next →
    c.LeadsTo next ∧ (a.1.IsBuilt holds ∨ ReadsPlain c a.1 next)

/-- What is built of good members is one of the two things that a term may be. -/
theorem makes_of_yields (yields : Yields text p (·.1.IsBuilt holds)) : Makes text holds p :=
  fun _ _ _ here read => (yields here read).imp_right .inl

theorem Makes.choice {q : Parser (Form × Setting)} (first : Makes text holds p)
    (second : Makes text holds q) : Makes text holds (choice p q) := by
  intro c a next here read
  rcases choice_eq_read_iff.mp read with read | ⟨_, read⟩
  · exact first here read
  · exact second here read

theorem makes_quotedForm (sound : level.IsSound text holds) (setting : Setting) :
    Makes text holds (do return (← quotedForm level, setting)) := by
  intro c a next here read
  obtain ⟨form, middle, taken, made⟩ := bind_eq_read_iff.mp read
  obtain ⟨rfl, rfl⟩ := Outcome.read.inj made
  rcases choice_eq_read_iff.mp taken with taken | ⟨_, taken⟩
  · obtain ⟨forward, value, rfl⟩ := yields_stringForm here taken
    exact ⟨forward, .inr (.string taken)⟩
  · exact (yields_quotedTemplateForm sound here taken).imp_right .inl

theorem makes_number {q : Parser Numeral} (advances : Advances text q)
    (plain : ∀ {c value next}, q c = .read value next → ReadsPlain c (.number value) next) :
    Makes text holds (do return (← (do return .number (← q)), setting)) := by
  intro c a next here read
  obtain ⟨form, middle, taken, made⟩ := bind_eq_read_iff.mp read
  obtain ⟨rfl, rfl⟩ := Outcome.read.inj made
  obtain ⟨value, last, found, made⟩ := bind_eq_read_iff.mp taken
  obtain ⟨rfl, rfl⟩ := Outcome.read.inj made
  exact ⟨(advances here found).1, .inr (plain found)⟩

/-- A name is read up to its end, or a call through its closing parenthesis. -/
theorem makes_nameOrCall (sound : level.IsSound text holds) (setting : Setting) :
    Makes text holds (nameOrCall level setting) := by
  intro c a next here read
  have made (names : List String) (given : List Expr × Bool) :
      Yields text (pure (Form.call names given.1 given.2, setting.withBreaks))
        (·.1.IsBuilt holds) := yields_pure ⟨rfl, List.forall_mem_nil _⟩
  have call (names : List String) := (advances_skip setting.breaks).bind fun _ _ =>
    (advances_arguments sound setting.withBreaks).bind fun given _ => made names given
  obtain ⟨name, middle, named, more⟩ := bind_eq_read_iff.mp read
  obtain ⟨forward, _⟩ := advances_identifier here named
  have onward {q : Parser (Form × Setting)} (yields : Yields text q (·.1.IsBuilt holds))
      (read : q middle = .read a next) :
      c.LeadsTo next ∧ (a.1.IsBuilt holds ∨ ReadsPlain c a.1 next) := by
    obtain ⟨further, built⟩ := yields (here.onward forward) read
    exact ⟨forward.trans further, .inl built⟩
  dsimp only at more
  split at more
  · exact onward ((advances_namespacePart _).many1.bind fun more _ => call (name :: more)) more
  · exact onward (call [name]) more
  · obtain ⟨rfl, rfl⟩ := Outcome.read.inj more
    exact ⟨forward, .inr (.name named)⟩

/-- Every term is plain or built of members that the level below has read. -/
theorem makes_of_readsTerm (sound : level.IsSound text holds)
    (reads : ReadsTerm level setting x p) : Makes text holds p := by
  cases reads with
  | quoted => exact makes_quotedForm sound setting
  | list => exact makes_of_yields (Yields.paired (yields_listForm sound _) _)
  | object => exact makes_of_yields (yields_objectForm sound _)
  | heredoc => exact makes_of_yields (Yields.paired (yields_heredocForm sound) _)
  | parens => exact makes_of_yields (Yields.paired (yields_parensForm sound) _)
  | negative =>
    exact (makes_number advances_negativeNumber .negative).choice
      (makes_of_yields (yields_signed sound setting '-' .minus))
  | negation => exact makes_of_yields (yields_signed sound setting '!' .not)
  | number digit => exact makes_number advances_number .number
  | name start => exact makes_nameOrCall sound setting

/-- A term starts where no blank stands, and it has every property that is acquired. -/
theorem holds_termAt (acquired : IsAcquired text holds) (sound : level.IsSound text holds)
    {a : Expr × Setting} (here : c.IsIn text) (read : termAt level setting c = .read a next) :
    c.IsSolid ∧ c.LeadsTo next ∧ holds a.1 := by
  obtain ⟨x, p, first, reads, marked⟩ := exists_readsTerm read
  have solid := isSolid_of_readsTerm reads first
  obtain ⟨form, after, taken, rfl⟩ := markedWith_eq_read_iff.mp marked
  obtain ⟨forward, built | plain⟩ := makes_of_readsTerm sound reads here taken
  · exact ⟨solid, forward, acquired.built here solid forward built⟩
  · exact ⟨solid, forward, acquired.plain here solid forward plain⟩

theorem advances_termAt (sound : level.IsSound text (·.IsIn text)) :
    Advances text (termAt level setting) :=
  fun _ _ _ here read => ⟨(holds_termAt (isAcquired_isIn text) sound here read).2.1, trivial⟩

end Terms

/-! ## Steps and operators -/

theorem advances_dotStep : Advances text dotStep := by
  refine (advances_char '.').bind fun _ _ => (advances_skip true).bind fun _ _ => ?_
  intro c a next here read
  dsimp only at read
  split at read
  · cases read
  · split at read
    · obtain ⟨_, rfl⟩ := Outcome.read.inj read
      exact ⟨c.leadsTo_drop 1, trivial⟩
    · split at read
      · exact (advances_legacyIndex.bind fun _ _ => advances_pure _) here read
      · split at read
        · exact (advances_identifier.bind fun _ _ => advances_pure _) here read
        · cases read

theorem advances_binaryOp : Advances text binaryOp := by
  refine advances_of_drop fun c a next read => ?_
  unfold binaryOp at read
  -- Every case but the last one reads an operator of one or two characters.
  split at read
  all_goals first
    | exact ⟨_, (Outcome.read.inj read).2.symm⟩
    | cases read

/-! ## Growing -/

/-- The expression that was read from `first` up to here, with a form. -/
abbrev exprUpTo (first here : Cursor) (form : Form) : Expr :=
  .mk ⟨first.offset, String.ofList (first.upTo here)⟩ form

/-- How an expression that started at `first` goes on: from where it is one expression to where it
is another, by steps and operators, and at most once by a conditional. What is announced behind the
expression decides between them, and is left open here. -/
inductive Grows (level : Level) (first : Cursor) (conditionals : Bool) :
    Setting → Expr → Cursor → Expr → Cursor → Prop where
  | stop {setting : Setting} {e : Expr} {c : Cursor} :
      Grows level first conditionals setting e c e c
  | steps {setting : Setting} {e a : Expr} {c middle next : Cursor} {path : List Step}
      (taken : many1 (step level setting.breaks) c = .read path middle)
      (more : Grows level first conditionals setting
        (exprUpTo first middle (.traversal e path)) middle a next) :
      Grows level first conditionals setting e c a next
  | conditional {setting : Setting} {e : Expr} {c next : Cursor} {form : Form}
      (taken : conditionalRest level setting e c = .read form next) :
      Grows level first conditionals setting e c (exprUpTo first next form) next
  | operator {setting : Setting} {e a : Expr} {c middle next : Cursor} {form : Form}
      (taken : operatorRest level setting e c = .read form middle)
      (more : Grows level first conditionals setting.withoutConditionals
        (exprUpTo first middle form) middle a next) :
      Grows level first conditionals setting e c a next

/-- Reading how an expression goes on is growing step by step, whatever the limit. -/
theorem grows_of_extend {first : Cursor} {conditionals : Bool} {limit : List Char}
    {setting : Setting} {e a : Expr} {c next : Cursor}
    (read : extend level first conditionals limit setting e c = .read a next) :
    Grows level first conditionals setting e c a next := by
  induction limit generalizing setting e c with
  | nil =>
    obtain ⟨rfl, rfl⟩ := Outcome.read.inj read
    exact .stop
  | cons x limit ih =>
    rw [extend] at read
    dsimp only at read
    split at read
    · obtain ⟨rfl, rfl⟩ := Outcome.read.inj read
      exact .stop
    · obtain ⟨path, middle, taken, more⟩ := bind_eq_read_iff.mp read
      obtain ⟨_, _, made, more⟩ := bind_eq_read_iff.mp more
      obtain ⟨rfl, rfl⟩ := Outcome.read.inj made
      exact .steps taken (ih more)
    · split at read
      · obtain ⟨form, middle, taken, made⟩ := bind_eq_read_iff.mp read
        obtain ⟨rfl, rfl⟩ := Outcome.read.inj made
        exact .conditional taken
      · obtain ⟨rfl, rfl⟩ := Outcome.read.inj read
        exact .stop
    · obtain ⟨form, middle, taken, more⟩ := bind_eq_read_iff.mp read
      obtain ⟨_, _, made, more⟩ := bind_eq_read_iff.mp more
      obtain ⟨rfl, rfl⟩ := Outcome.read.inj made
      exact .operator taken (ih more)

section Expressions

variable (sound : level.IsSound text holds) (setting : Setting)
include sound

theorem advances_bracketStep : Advances text (bracketStep level) := by
  have star := (advances_char '*' : Advances text _).bind fun _ _ => advances_pure Step.fullSplat
  have index := (sound.expr .bracket).bind fun key _ => advances_pure (Step.index key)
  exact (advances_char '[').bind fun _ _ => (advances_skip true).bind fun _ _ =>
    (star.choice index).bind fun _ _ => (advances_skip true).bind fun _ _ =>
      (advances_demandWord _).bind fun _ _ => advances_pure _

theorem advances_step (breaks : Bool) : Advances text (step level breaks) := by
  refine (advances_skip breaks).bind fun _ _ => ?_
  intro c a next here read
  dsimp only at read
  split at read
  · cases read
  · exact (advances_dotStep.choice (advances_bracketStep sound)) here read

/-- A conditional is built of its test and its branches. -/
theorem yields_conditionalRest (test : Expr) :
    Yields text (conditionalRest level setting test) (·.IsBuilt holds) :=
  (advances_skip _).bind fun _ _ => (advances_char '?').bind fun _ _ =>
    (advances_skip _).bind fun _ _ => (sound.expr setting).bind fun _ _ =>
      (advances_skip _).bind fun _ _ => (advances_demandWord _).bind fun _ _ =>
        (advances_skip _).bind fun _ _ => (sound.expr setting).bind fun _ _ =>
          yields_compound rfl rfl

theorem yields_operatorRest (left : Expr) :
    Yields text (operatorRest level setting left) (·.IsBuilt holds) :=
  (advances_skip _).bind fun _ _ => advances_binaryOp.bind fun _ _ =>
    (advances_skip _).bind fun _ _ => (sound.expr setting.withoutConditionals).bind fun _ _ =>
      yields_compound rfl rfl

/-- An expression goes on from where it was read up to, and keeps the property when it grows. -/
theorem Grows.keeps_acquired (acquired : IsAcquired text holds) {first : Cursor}
    (start : first.IsIn text) (solid : first.IsSolid) {conditionals : Bool} {setting : Setting}
    {e a : Expr} {c next : Cursor} (grows : Grows level first conditionals setting e c a next)
    (forward : first.LeadsTo c) (before : holds e) : c.LeadsTo next ∧ holds a := by
  -- What is passed on the way makes a larger expression that starts at the same place.
  have built {form : Form} {last : Cursor} (passed : first.LeadsTo last)
      (built : form.IsBuilt holds) : holds (exprUpTo first last form) :=
    acquired.built start solid passed built
  induction grows with
  | stop => exact ⟨.refl _, before⟩
  | steps taken _ ih =>
    obtain ⟨passed, _⟩ := (advances_step sound _).many1 (start.onward forward) taken
    have after := forward.trans passed
    obtain ⟨onward, result⟩ := ih after (built after ⟨rfl, List.forall_mem_nil _⟩)
    exact ⟨passed.trans onward, result⟩
  | conditional taken =>
    obtain ⟨passed, form⟩ := yields_conditionalRest sound _ _ (start.onward forward) taken
    exact ⟨passed, built (forward.trans passed) form⟩
  | operator taken _ ih =>
    obtain ⟨passed, form⟩ := yields_operatorRest sound _ _ (start.onward forward) taken
    have after := forward.trans passed
    obtain ⟨onward, result⟩ := ih after (built after form)
    exact ⟨passed.trans onward, result⟩

/-- An expression has the property because its term has it, and growing keeps it. -/
theorem yields_exprAt (acquired : IsAcquired text holds) :
    Yields text (exprAt level setting) holds := by
  intro c a next here read
  obtain ⟨⟨e, after⟩, middle, term, read⟩ := bind_eq_read_iff.mp read
  obtain ⟨forward, before⟩ := sound.term setting here term
  have solid := sound.solid here term
  obtain ⟨onward, result⟩ :=
    (grows_of_extend read).keeps_acquired sound acquired here solid forward before
  exact ⟨forward.trans onward, result⟩

end Expressions

/-- On every level, readers go forward and read expressions with every property that is
acquired. -/
theorem isSound_levelOf (acquired : IsAcquired text holds) (depth : Nat) :
    (levelOf depth).IsSound text holds := by
  induction depth with
  | zero => exact isSound_bottom
  | succ depth ih =>
    exact ⟨fun setting => yields_exprAt ih setting acquired,
      fun _ _ _ _ here read => (holds_termAt acquired ih here read).2,
      fun here read => (holds_termAt acquired ih here read).1, advances_templatePart ih⟩

end Grammar

end HclLint.Hcl
