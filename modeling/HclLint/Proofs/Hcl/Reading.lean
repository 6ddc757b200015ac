/-
# What a parser reads off a text

The places where a text stands matter for extents and complaints only. So what a parser reads
is told for a text wherever it stands: the value up to a property, and the text that is left.

## Main definitions

* `Reads`: a parser reads a value with a property off a text.
* `IsUndone`: a parser fails on a text, but not for good.

## Main statements

* `Reads.bind`, `Reads.choice`, `Reads.choice_right`, `reads_many_one`: how a combination of
  parsers reads.
* `reads_many_satisfy`: the longest run of characters that satisfy a test.
* `reads_skip`: nothing is skipped where no blank starts.
-/

import HclLint.Hcl.Grammar.Blank

namespace HclLint.Hcl.Parser

open HclLint.Text HclLint.Hcl.Grammar

variable {α β : Type} {p q : Parser α} {f : α → Parser β} {holds : α → Prop} {after : β → Prop}
  {text middle rest : List Char}

/-- Wherever the text stands, the parser reads a value with the property off its front. -/
def Reads (p : Parser α) (text : List Char) (holds : α → Prop) (rest : List Char) : Prop :=
  ∀ offset, ∃ a next, p ⟨text, offset⟩ = .read a ⟨rest, next⟩ ∧ holds a

/-- Wherever the text stands, the parser fails so that an alternative may be tried. -/
def IsUndone (p : Parser α) (text : List Char) : Prop :=
  ∀ offset, ∃ complaint, p ⟨text, offset⟩ = .undone complaint

/-- What is known of the value may be weakened. -/
theorem Reads.imp {holds' : α → Prop} (reads : Reads p text holds rest)
    (imp : ∀ a, holds a → holds' a) : Reads p text holds' rest := by
  intro offset
  obtain ⟨a, next, read, property⟩ := reads offset
  exact ⟨a, next, read, imp a property⟩

theorem forall_mem_head?_cons {x : Char} {passes : Char → Prop} (first : passes x)
    (text : List Char) : ∀ y ∈ (x :: text).head?, passes y := by
  rintro _ ⟨⟩
  exact first

/-! ## Sequences -/

/-- Nothing is passed to give a value. -/
theorem reads_pure (a : α) (text : List Char) : Reads (pure a) text (· = a) text :=
  fun offset => ⟨a, offset, rfl, rfl⟩

/-- A sequence reads the second value off the text that the first one leaves. -/
theorem Reads.bind (first : Reads p text holds middle)
    (second : ∀ a, holds a → Reads (f a) middle after rest) :
    Reads (p >>= f) text after rest := by
  intro offset
  obtain ⟨a, next, read, property⟩ := first offset
  rw [bind_apply, read]
  exact second a property next

/-- A parser that makes something of what another one reads. -/
theorem Reads.map {g : α → β} (reads : Reads p text holds rest)
    (imp : ∀ a, holds a → after (g a)) : Reads (do return g (← p)) text after rest := by
  refine reads.bind fun a property => (reads_pure (g a) rest).imp ?_
  rintro _ rfl
  exact imp a property

/-- A sequence is undone where its first parser is. -/
theorem IsUndone.bind (undone : IsUndone p text) (f : α → Parser β) :
    IsUndone (p >>= f) text := by
  intro offset
  obtain ⟨complaint, failed⟩ := undone offset
  exact ⟨complaint, by rw [bind_apply, failed]⟩

/-- A sequence is undone where its second parser is, whatever the first one has read. -/
theorem Reads.bind_isUndone (first : Reads p text holds middle)
    (second : ∀ a, holds a → IsUndone (f a) middle) : IsUndone (p >>= f) text := by
  intro offset
  obtain ⟨a, next, read, property⟩ := first offset
  rw [bind_apply, read]
  exact second a property next

/-! ## Alternatives -/

/-- A choice reads with its first parser where that one reads. -/
theorem Reads.choice (reads : Reads p text holds rest) (q : Parser α) :
    Reads (choice p q) text holds rest := by
  intro offset
  obtain ⟨a, next, read, property⟩ := reads offset
  exact ⟨a, next, by rw [Parser.choice, read], property⟩

/-- A choice reads with its second parser only where the first one is undone. -/
theorem Reads.choice_right (undone : IsUndone p text) (reads : Reads q text holds rest) :
    Reads (Parser.choice p q) text holds rest := by
  intro offset
  obtain ⟨complaint, failed⟩ := undone offset
  obtain ⟨a, next, read, property⟩ := reads offset
  exact ⟨a, next, by rw [Parser.choice, failed]; exact read, property⟩

/-- A choice is undone where both parsers are. -/
theorem IsUndone.choice (undone : IsUndone p text) (undone' : IsUndone q text) :
    IsUndone (Parser.choice p q) text := by
  intro offset
  obtain ⟨complaint, failed⟩ := undone offset
  obtain ⟨complaint', failed'⟩ := undone' offset
  exact ⟨complaint', by rw [Parser.choice, failed]; exact failed'⟩

/-- An option reads what its parser reads. -/
theorem Reads.optional (reads : Reads p text holds rest) :
    Reads (optional p) text (fun a => ∃ b, a = some b ∧ holds b) rest := by
  intro offset
  obtain ⟨a, next, read, property⟩ := reads offset
  exact ⟨some a, next, by rw [Parser.optional, read], a, rfl, property⟩

/-- Where its parser is undone, an option passes nothing and gives no value. -/
theorem IsUndone.optional (undone : IsUndone p text) :
    Reads (Parser.optional p) text (· = none) text := by
  intro offset
  obtain ⟨complaint, failed⟩ := undone offset
  exact ⟨none, offset, by rw [Parser.optional, failed], rfl⟩

/-- A demand makes no difference where the parser reads. -/
theorem Reads.demand (reads : Reads p text holds rest) (complaint : Complaint) :
    Reads (demand complaint p) text holds rest := by
  intro offset
  obtain ⟨a, next, read, property⟩ := reads offset
  exact ⟨a, next, by rw [Parser.demand, read], property⟩

/-! ## Characters and words -/

section Characters

variable {test : Char → Bool} {x : Char}

/-- A character is read where it satisfies the test. -/
theorem reads_satisfy (passes : test x = true) (rest : List Char) :
    Reads (satisfy test) (x :: rest) (· = x) rest := by
  intro offset
  exact ⟨x, offset + x.utf8Size, by simp [satisfy, passes], rfl⟩

/-- The end of the text is no character, and so it satisfies no test. -/
theorem isUndone_satisfy (fails : ∀ x ∈ text.head?, test x = false) :
    IsUndone (satisfy test) text := by
  intro offset
  cases text with
  | nil => exact ⟨_, rfl⟩
  | cons x text => exact ⟨.unexpected, by simp [satisfy, fails x rfl]⟩

/-- A given character is read where it comes next. -/
theorem reads_char (x : Char) (rest : List Char) : Reads (char x) (x :: rest) (· = x) rest :=
  reads_satisfy (beq_self_eq_true x) rest

/-- No other character is taken for the given one. -/
theorem isUndone_char (other : ∀ y ∈ text.head?, y ≠ x) : IsUndone (char x) text :=
  isUndone_satisfy fun y first => beq_false_of_ne (other y first)

/-- Behind a text stands what was appended to it, as many bytes further. -/
theorem drop_append (front rest : List Char) (offset : Nat) :
    Cursor.drop ⟨front ++ rest, offset⟩ front.length = ⟨rest, offset + byteLength front⟩ := by
  induction front generalizing offset with
  | nil => rfl
  | cons x front ih =>
    rw [byteLength_cons, ← Nat.add_assoc]
    exact ih (offset + x.utf8Size)

/-- A word is read where its characters come next. -/
theorem reads_word (w rest : List Char) : Reads (word w) (w ++ rest) (fun _ => True) rest := by
  intro offset
  have front : w.isPrefixOf (w ++ rest) = true := by simp
  exact ⟨(), offset + byteLength w, by rw [word, if_pos front, drop_append], trivial⟩

/-- A word is undone where some of its characters are missing. -/
theorem isUndone_word {w : List Char} (other : w.isPrefixOf text = false) :
    IsUndone (word w) text :=
  fun offset => ⟨.unexpected, by simp [word, other]⟩

/-- A demanded word is read like any other. -/
theorem reads_demandWord (w : String) (rest : List Char) :
    Reads (demandWord w) (w.toList ++ rest) (fun _ => True) rest :=
  (reads_word w.toList rest).demand _

end Characters

/-! ## Repetition -/

/-- A repetition is empty where its parser is undone at once. -/
theorem reads_many_nil (undone : IsUndone p text) : Reads (many p) text (· = []) text := by
  intro offset
  obtain ⟨complaint, failed⟩ := undone offset
  cases text with
  | nil => exact ⟨[], offset, rfl, rfl⟩
  | cons x text => exact ⟨[], offset, by simp [many, manyUpTo, failed], rfl⟩

theorem manyUpTo_of_isUndone (undone : IsUndone p text) (limit : List Char) (offset : Nat) :
    manyUpTo p limit ⟨text, offset⟩ = .read [] ⟨text, offset⟩ := by
  obtain ⟨complaint, failed⟩ := undone offset
  cases limit with
  | nil => rfl
  | cons x limit => rw [manyUpTo, failed]

/-- One value is read, and the parser fails on what is left. -/
theorem reads_many_one (reads : Reads p text holds rest) (some : text ≠ [])
    (undone : IsUndone p rest) :
    Reads (many p) text (fun as => ∃ a, as = [a] ∧ holds a) rest := by
  intro offset
  obtain ⟨a, next, read, property⟩ := reads offset
  obtain ⟨x, limit, rfl⟩ := List.exists_cons_of_ne_nil some
  refine ⟨[a], next, ?_, a, rfl, property⟩
  rw [many, manyUpTo, read]
  simp only [manyUpTo_of_isUndone undone]

/-- A repetition takes the longest run of characters that satisfy the test. -/
theorem reads_many_satisfy {test : Char → Bool} {front : List Char}
    (passes : ∀ x ∈ front, test x = true) (fails : ∀ x ∈ rest.head?, test x = false) :
    Reads (many (satisfy test)) (front ++ rest) (· = front) rest := by
  -- The text itself is the limit of `many`, and the run is no longer than the text.
  have upTo : ∀ limit : List Char, front.length ≤ limit.length →
      ∀ offset, ∃ next, manyUpTo (satisfy test) limit ⟨front ++ rest, offset⟩ =
        .read front ⟨rest, next⟩ := by
    induction front with
    | nil => exact fun limit _ offset => ⟨offset, manyUpTo_of_isUndone (isUndone_satisfy fails) _ _⟩
    | cons x front ih =>
      intro limit enough offset
      obtain ⟨y, limit, rfl⟩ := List.exists_cons_of_length_pos
        (Nat.lt_of_lt_of_le (Nat.zero_lt_succ _) enough)
      have later := ih (fun z member => passes z (.tail x member)) limit
        (Nat.le_of_succ_le_succ enough) (offset + x.utf8Size)
      obtain ⟨next, read⟩ := later
      refine ⟨next, ?_⟩
      simp [manyUpTo, satisfy, passes x List.mem_cons_self, read]
  intro offset
  obtain ⟨next, read⟩ := upTo (front ++ rest) (by simp) offset
  exact ⟨front, next, read, rfl⟩

/-! ## Blanks -/

/-- Whether a blank may start with a character: it is one, or it opens a comment. -/
def startsBlank (x : Char) : Bool :=
  isSpace x || x == '\r' || x == '\n' || x == '#' || x == '/'

/-- No blank starts with a solid character or with the end of the text. -/
theorem isUndone_blank (breaks : Bool) (solid : ∀ x ∈ text.head?, startsBlank x = false) :
    IsUndone (blank breaks) text := by
  have noSpace : ∀ x ∈ text.head?,
      (isSpace x || (breaks && (x == '\r' || x == '\n'))) = false := by
    intro x first
    have plain := solid x first
    simp only [startsBlank, Bool.or_eq_false_iff] at plain
    simp [plain]
  have noComment : ∀ more, text ≠ '/' :: more ∧ text ≠ '#' :: more := by
    intro more
    constructor
    · rintro rfl
      exact absurd (solid '/' rfl) (by decide)
    · rintro rfl
      exact absurd (solid '#' rfl) (by decide)
  have inline : IsUndone inlineComment text := by
    intro offset
    unfold inlineComment
    split
    · next more same => exact absurd same (noComment _).1
    · exact ⟨_, rfl⟩
  have toEnd : IsUndone lineComment text := by
    intro offset
    unfold lineComment
    split
    · next more same => exact absurd same (noComment _).2
    · next more same => exact absurd same (noComment _).1
    · exact ⟨_, rfl⟩
  -- Line comments are blank only together with line breaks.
  refine ((isUndone_satisfy noSpace).bind _).choice (inline.choice ?_)
  cases breaks with
  | false => exact fun offset => ⟨.unexpected, rfl⟩
  | true => exact toEnd

/-- Nothing is skipped in front of a solid character. -/
theorem reads_skip (breaks : Bool) (solid : ∀ x ∈ text.head?, startsBlank x = false) :
    Reads (skip breaks) text (fun _ => True) text :=
  (reads_many_nil (isUndone_blank breaks solid)).bind fun _ _ =>
    (reads_pure () text).imp fun _ _ => trivial

/-- What holds of every character that a blank starts with, and of the first one behind the blanks,
holds of the first one. -/
theorem forall_mem_head?_of_skip {breaks : Bool} {a : Unit} {c next : Cursor} {good : Char → Prop}
    (blank : ∀ x, startsBlank x = true → good x) (skipped : skip breaks c = .read a next)
    (behind : ∀ x ∈ next.rest.head?, good x) : ∀ x ∈ c.rest.head?, good x := by
  intro x head
  cases first : startsBlank x with
  | true => exact blank x first
  | false =>
    have solid : ∀ y ∈ c.rest.head?, startsBlank y = false := by
      intro y head'
      obtain rfl := Option.some.inj (head.symm.trans head')
      exact first
    obtain ⟨_, _, again, _⟩ := reads_skip breaks solid c.offset
    obtain ⟨_, rfl⟩ := Outcome.read.inj (skipped.symm.trans again)
    exact behind x head

theorem rest_afterBlanks (breaks : Bool) (solid : ∀ x ∈ text.head?, startsBlank x = false)
    (offset : Nat) : (afterBlanks breaks ⟨text, offset⟩).rest = text := by
  obtain ⟨_, next, read, _⟩ := reads_skip breaks solid offset
  rw [afterBlanks, read]

end HclLint.Hcl.Parser
