/-
# Parsers go forward

What a parser leaves is the end of the text that it was given, and the offset of the cursor
grows by the bytes in between. So a cursor always says where in the text it stands, whatever
was read before.

## Main definitions

* `Cursor.Passes`, `Cursor.LeadsTo`: a cursor further on in the same text.
* `Cursor.IsIn`: a cursor that stands where it says in a text.
* `Yields`: a parser goes forward in a text, and what it reads has a property.
* `Advances`: a parser goes forward in a text.
* `QuotedRun`: the pieces that quoted text is read by.

## Main statements

* `Cursor.LeadsTo.passes_upTo`: the characters between two cursors are those that were passed.
* `bind_eq_read_iff`, `choice_eq_read_iff`, `optional_eq_read_iff`, `manyUpTo_cons_eq_read_iff`:
  what combinations of parsers read.
* `Yields.bind`, `Yields.choice`, `Yields.many`: combinations of parsers go forward with their
  parts.
* `advances_skip`, `advances_identifier`, `advances_number`, `advances_templateText`: so do the
  words and texts of the grammar.
-/

import HclLint.Hcl.Grammar.Text

namespace HclLint.Hcl

open HclLint.Text

/-! ## Cursors in a text -/

namespace Cursor

variable {c next last : Cursor} {text : List Char}

/-- The next cursor stands behind some characters that the first one stands in front of. -/
def Passes (c : Cursor) (between : List Char) (next : Cursor) : Prop :=
  c.rest = between ++ next.rest ∧ next.offset = c.offset + byteLength between

/-- The next cursor stands further on in the text that the first one stands in. -/
def LeadsTo (c next : Cursor) : Prop := ∃ between, c.Passes between next

/-- The cursor stands in the text, as many bytes from its start as it says. -/
def IsIn (text : List Char) (c : Cursor) : Prop := (ofText text).LeadsTo c

theorem Passes.refl (c : Cursor) : c.Passes [] c := ⟨rfl, rfl⟩

/-- What is passed on two ways is passed on the way of both. -/
theorem Passes.trans {front back : List Char} (first : c.Passes front next)
    (second : next.Passes back last) : c.Passes (front ++ back) last := by
  obtain ⟨rest, offset⟩ := first
  obtain ⟨rest', offset'⟩ := second
  constructor
  · rw [rest, rest', List.append_assoc]
  · rw [offset', offset, byteLength_append, Nat.add_assoc]

theorem LeadsTo.refl (c : Cursor) : c.LeadsTo c := ⟨[], .refl c⟩

theorem LeadsTo.trans (first : c.LeadsTo next) (second : next.LeadsTo last) : c.LeadsTo last := by
  obtain ⟨front, first⟩ := first
  obtain ⟨back, second⟩ := second
  exact ⟨front ++ back, first.trans second⟩

theorem isIn_ofText (text : List Char) : (ofText text).IsIn text := .refl _

/-- Going forward stays in the text. -/
theorem IsIn.onward (here : c.IsIn text) (forward : c.LeadsTo next) : next.IsIn text :=
  LeadsTo.trans here forward

theorem passes_tail (x : Char) (rest : List Char) (offset : Nat) :
    Passes ⟨x :: rest, offset⟩ [x] ⟨rest, offset + x.utf8Size⟩ := ⟨rfl, rfl⟩

/-- Dropping characters goes forward. -/
theorem leadsTo_drop (c : Cursor) (n : Nat) : c.LeadsTo (c.drop n) := by
  induction n generalizing c with
  | zero => exact .refl c
  | succ n ih =>
    obtain ⟨rest, offset⟩ := c
    cases rest with
    | nil => exact .refl _
    | cons x rest => exact LeadsTo.trans ⟨[x], passes_tail x rest offset⟩ (ih _)

/-- The characters up to a later cursor are those that were passed on the way. -/
theorem LeadsTo.passes_upTo (forward : c.LeadsTo next) : c.Passes (c.upTo next) next := by
  obtain ⟨between, rest, offset⟩ := forward
  have passed : c.upTo next = between := by
    rw [upTo, offset, Nat.add_sub_cancel_left, rest, splitAtByte_append]
  rw [passed]
  exact ⟨rest, offset⟩

end Cursor

namespace Parser

variable {α β : Type} {text : List Char} {p q : Parser α} {f : α → Parser β}
  {holds : α → Prop} {after : β → Prop} {c next : Cursor}

/-- Wherever in a text the parser starts, reading goes on further down the text, and the value
has a property. -/
def Yields (text : List Char) (p : Parser α) (holds : α → Prop) : Prop :=
  ∀ ⦃c a next⦄, c.IsIn text → p c = .read a next → c.LeadsTo next ∧ holds a

/-- Wherever in a text the parser starts, reading goes on further down the text. -/
abbrev Advances (text : List Char) (p : Parser α) : Prop := Yields text p fun _ => True

/-- What is known of the values may be weakened. -/
theorem Yields.imp {holds' : α → Prop} (yields : Yields text p holds)
    (imp : ∀ a, holds a → holds' a) : Yields text p holds' := by
  intro c a next here read
  obtain ⟨forward, property⟩ := yields here read
  exact ⟨forward, imp a property⟩

/-- A parser that yields something goes forward. -/
theorem Yields.advances (yields : Yields text p holds) : Advances text p :=
  yields.imp fun _ _ => trivial

/-! ## Sequences -/

/-- A sequence reads where its first parser reads and the second one goes on from there. -/
theorem bind_eq_read_iff {b : β} :
    (p >>= f) c = .read b next ↔ ∃ a middle, p c = .read a middle ∧ f a middle = .read b next := by
  rw [bind_apply]
  cases p c with
  | read a middle =>
    constructor
    · exact fun read => ⟨a, middle, rfl, read⟩
    · rintro ⟨_, _, ⟨⟩, read⟩
      exact read
  | undone complaint => simp
  | final complaint place => simp

/-- How three parsers in a row are put together does not matter. -/
theorem bind_bind {γ : Type} (p : Parser α) (f : α → Parser β) (g : β → Parser γ) :
    p >>= f >>= g = p >>= fun a => f a >>= g := by
  funext c
  simp only [bind_apply]
  cases p c <;> rfl

/-- A sequence is undone where its first parser is, or the second one behind it. -/
theorem bind_eq_undone_iff {complaint : Complaint} :
    (p >>= f) c = .undone complaint ↔ p c = .undone complaint ∨
      ∃ a middle, p c = .read a middle ∧ f a middle = .undone complaint := by
  rw [bind_apply]
  cases p c with
  | read a middle =>
    constructor
    · exact fun undone => .inr ⟨a, middle, rfl, undone⟩
    · rintro (⟨⟨⟩⟩ | ⟨_, _, ⟨⟩, undone⟩)
      exact undone
  | undone other => simp
  | final other place => simp

theorem yields_pure {a : α} (property : holds a) : Yields text (pure a) holds := by
  rintro c _ _ _ ⟨⟩
  exact ⟨.refl c, property⟩

theorem advances_pure (a : α) : Advances text (pure a) := yields_pure trivial

/-- A sequence yields what its second parser does, given what the first one yields. -/
theorem Yields.bind (first : Yields text p holds)
    (second : ∀ a, holds a → Yields text (f a) after) : Yields text (p >>= f) after := by
  intro c b next here read
  obtain ⟨a, middle, readFirst, readSecond⟩ := bind_eq_read_iff.mp read
  obtain ⟨forward, property⟩ := first here readFirst
  obtain ⟨onward, result⟩ := second a property (here.onward forward) readSecond
  exact ⟨forward.trans onward, result⟩

theorem yields_fail : Yields text fail holds := by
  rintro c a next _ ⟨⟩

theorem yields_undone (complaint : Complaint) :
    Yields text (fun _ => .undone complaint) holds := by
  rintro c a next _ ⟨⟩

theorem Yields.ite {test : Prop} [Decidable test] (yes : test → Yields text p holds)
    (no : ¬ test → Yields text q holds) : Yields text (if test then p else q) holds := by
  split
  · next passes => exact yes passes
  · next fails => exact no fails

/-! ## Alternatives -/

/-- An alternative reads what its first parser reads, or where that one is undone what its second
parser reads. -/
theorem choice_eq_read_iff {a : α} : choice p q c = .read a next ↔
    p c = .read a next ∨ (∃ complaint, p c = .undone complaint) ∧ q c = .read a next := by
  rw [Parser.choice]
  cases p c with
  | read b middle => simp
  | undone complaint => simp
  | final complaint place => simp

/-- What may be missing is read, or nothing is where the parser is undone. -/
theorem optional_eq_read_iff {o : Option α} : optional p c = .read o next ↔
    (∃ a, p c = .read a next ∧ o = some a) ∨
      (∃ complaint, p c = .undone complaint) ∧ o = none ∧ next = c := by
  rw [Parser.optional]
  cases p c with
  | read b middle =>
    constructor
    · rintro ⟨⟩
      exact .inl ⟨b, rfl, rfl⟩
    · rintro (⟨_, ⟨⟩, rfl⟩ | ⟨⟨_, ⟨⟩⟩, _⟩)
      rfl
  | undone complaint =>
    constructor
    · rintro ⟨⟩
      exact .inr ⟨⟨complaint, rfl⟩, rfl, rfl⟩
    · rintro (⟨_, ⟨⟩, _⟩ | ⟨_, rfl, rfl⟩)
      rfl
  | final complaint place => simp

/-- What is demanded is read as it is. -/
theorem demand_eq_read_iff {complaint : Complaint} {a : α} :
    demand complaint p c = .read a next ↔ p c = .read a next := by
  rw [Parser.demand]
  cases p c with
  | read b middle => rfl
  | undone complaint => simp
  | final complaint place => rfl

/-- A choice yields what both alternatives do. -/
theorem Yields.choice (first : Yields text p holds) (second : Yields text q holds) :
    Yields text (choice p q) holds := by
  intro c a next here read
  rcases choice_eq_read_iff.mp read with read | ⟨_, read⟩
  · exact first here read
  · exact second here read

/-- What stands at the cursor decides which of two parsers reads. -/
theorem Yields.either (first : Yields text p holds) (test : Cursor → Bool)
    (second : Yields text q holds) :
    Yields text (fun c => if test c then p c else q c) holds := by
  intro c a next here read
  dsimp only at read
  split at read
  · exact first here read
  · exact second here read

/-- An option yields what its parser does, if anything. -/
theorem Yields.optional (yields : Yields text p holds) :
    Yields text (optional p) fun a => ∀ b ∈ a, holds b := by
  intro c a next here read
  rcases optional_eq_read_iff.mp read with ⟨b, taken, rfl⟩ | ⟨_, rfl, rfl⟩
  · obtain ⟨forward, property⟩ := yields here taken
    exact ⟨forward, fun _ same => Option.some.inj same ▸ property⟩
  · exact ⟨.refl _, fun _ none => by cases none⟩

/-- A demand changes failures only. -/
theorem Yields.demand (yields : Yields text p holds) (complaint : Complaint) :
    Yields text (demand complaint p) holds :=
  fun _ _ _ here read => yields here (demand_eq_read_iff.mp read)

/-! ## Repetition -/

/-- A repetition makes one more reading, or ends where none can be made. -/
theorem manyUpTo_cons_eq_read_iff {x : Char} {limit : List Char} {as : List α} :
    manyUpTo p (x :: limit) c = .read as next ↔
      (∃ a middle others, p c = .read a middle ∧ manyUpTo p limit middle = .read others next ∧
        as = a :: others) ∨
      (∃ complaint, p c = .undone complaint) ∧ as = [] ∧ next = c := by
  rw [Parser.manyUpTo]
  cases p c with
  | read a middle =>
    constructor
    · intro read
      dsimp only at read
      split at read
      · next others last more =>
        obtain ⟨rfl, rfl⟩ := Outcome.read.inj read
        exact .inl ⟨a, middle, others, rfl, more, rfl⟩
      · cases read
      · cases read
    · rintro (⟨_, _, _, ⟨⟩, more, rfl⟩ | ⟨⟨_, ⟨⟩⟩, _⟩)
      simp only [more]
  | undone complaint =>
    constructor
    · rintro ⟨⟩
      exact .inr ⟨⟨complaint, rfl⟩, rfl, rfl⟩
    · rintro (⟨_, _, _, ⟨⟩, _⟩ | ⟨_, rfl, rfl⟩)
      rfl
  | final complaint place => simp

/-- A repetition yields the property of each reading, whatever its limit. -/
theorem Yields.manyUpTo (yields : Yields text p holds) (limit : List Char) :
    Yields text (manyUpTo p limit) fun as => ∀ a ∈ as, holds a := by
  induction limit with
  | nil =>
    rintro c _ _ _ ⟨⟩
    exact ⟨.refl c, List.forall_mem_nil _⟩
  | cons x limit ih =>
    intro c as next here read
    rcases manyUpTo_cons_eq_read_iff.mp read with
      ⟨a, middle, others, first, more, rfl⟩ | ⟨_, rfl, rfl⟩
    · obtain ⟨forward, property⟩ := yields here first
      obtain ⟨onward, properties⟩ := ih (here.onward forward) more
      exact ⟨forward.trans onward, List.forall_mem_cons.mpr ⟨property, properties⟩⟩
    · exact ⟨.refl _, List.forall_mem_nil _⟩

theorem Yields.many (yields : Yields text p holds) :
    Yields text (many p) fun as => ∀ a ∈ as, holds a :=
  fun c _ _ here read => yields.manyUpTo c.rest here read

theorem Yields.many1 (yields : Yields text p holds) :
    Yields text (many1 p) fun as => ∀ a ∈ as, holds a :=
  yields.bind fun _ first => yields.many.bind fun _ others =>
    yields_pure (List.forall_mem_cons.mpr ⟨first, others⟩)

/-! ## Characters and words -/

/-- A character that is read is passed. -/
theorem passes_satisfy {test : Char → Bool} {x : Char} (read : satisfy test c = .read x next) :
    c.Passes [x] next := by
  obtain ⟨rest, offset⟩ := c
  rw [satisfy] at read
  split at read
  · next y more same =>
    obtain rfl : rest = y :: more := same
    split at read
    · obtain ⟨rfl, rfl⟩ := Outcome.read.inj read
      exact Cursor.passes_tail y more offset
    · cases read
  · cases read

/-- A character is passed by one step. -/
theorem advances_satisfy (test : Char → Bool) : Advances text (satisfy test) :=
  fun _ x _ _ read => ⟨⟨[x], passes_satisfy read⟩, trivial⟩

/-- A run of characters that is read is passed. -/
theorem passes_many_satisfy {test : Char → Bool} {run : List Char}
    (read : many (satisfy test) c = .read run next) : c.Passes run next := by
  have upTo (limit : List Char) (c : Cursor) (run : List Char)
      (read : manyUpTo (satisfy test) limit c = .read run next) : c.Passes run next := by
    induction limit generalizing c run with
    | nil =>
      obtain ⟨rfl, rfl⟩ := Outcome.read.inj read
      exact .refl c
    | cons y limit ih =>
      rcases manyUpTo_cons_eq_read_iff.mp read with
        ⟨x, middle, others, first, more, rfl⟩ | ⟨_, rfl, rfl⟩
      · exact (passes_satisfy first).trans (ih middle others more)
      · exact .refl _
  exact upTo c.rest c run read

theorem advances_char (x : Char) : Advances text (char x) := advances_satisfy _

/-- A word is passed character by character. -/
theorem advances_word (w : List Char) : Advances text (word w) := by
  intro c a next _ read
  rw [word] at read
  split at read
  · obtain ⟨_, rfl⟩ := Outcome.read.inj read
    exact ⟨c.leadsTo_drop w.length, trivial⟩
  · cases read

theorem advances_demandWord (w : String) : Advances text (demandWord w) :=
  (advances_word w.toList).demand _

/-- A look ahead passes nothing. -/
theorem advances_notAhead (test : Char → Bool) : Advances text (notAhead test) := by
  intro c a next _ read
  rw [notAhead] at read
  split at read
  · split at read
    · cases read
    · obtain ⟨_, rfl⟩ := Outcome.read.inj read
      exact ⟨.refl c, trivial⟩
  · obtain ⟨_, rfl⟩ := Outcome.read.inj read
    exact ⟨.refl c, trivial⟩

theorem Yields.separated1 (yields : Yields text p holds) :
    Yields text (separated1 p) fun as => ∀ a ∈ as, holds a :=
  yields.bind fun _ first =>
    (Yields.many ((advances_char ',').bind fun _ _ => yields)).bind fun _ others =>
      yields_pure (List.forall_mem_cons.mpr ⟨first, others⟩)

/-- Commas between the values do not change what they yield. -/
theorem Yields.separated (yields : Yields text p holds) :
    Yields text (separated p) fun as => ∀ a ∈ as, holds a :=
  yields.separated1.choice (yields_pure (List.forall_mem_nil _))

end Parser

namespace Grammar

open HclLint.Hcl.Parser

variable {text : List Char}

/-- A parser that passes a number of characters which depends on the text before it. -/
theorem advances_of_drop {α : Type} {p : Parser α}
    (drops : ∀ c a next, p c = .read a next → ∃ n, next = c.drop n) : Advances text p := by
  intro c a next _ read
  obtain ⟨n, rfl⟩ := drops c a next read
  exact ⟨c.leadsTo_drop n, trivial⟩

/-! ## Blanks -/

theorem advances_lineBreak : Advances text lineBreak := by
  refine advances_of_drop fun c a next read => ?_
  unfold lineBreak at read
  split at read
  · exact ⟨1, (Outcome.read.inj read).2.symm⟩
  · exact ⟨2, (Outcome.read.inj read).2.symm⟩
  · cases read

/-- A line comment is its sign and the line behind it. -/
theorem lineComment_eq_read_iff {c next : Cursor} {a : Unit} :
    lineComment c = .read a next ↔ ∃ sign line, (sign = ['#'] ∨ sign = ['/', '/']) ∧
      c.rest = sign ++ line ∧ next = c.drop (sign.length + lineLength line) := by
  constructor
  · intro read
    unfold lineComment at read
    split at read
    · next line same => exact ⟨_, line, .inl rfl, same, (Outcome.read.inj read).2.symm⟩
    · next line same => exact ⟨_, line, .inr rfl, same, (Outcome.read.inj read).2.symm⟩
    · cases read
  · rintro ⟨_, line, kind, same, rfl⟩
    obtain ⟨_, offset⟩ := c
    obtain rfl := same
    rcases kind with rfl | rfl
    · rfl
    · rfl

/-- A comment goes up to the line break, which it leaves. -/
theorem advances_lineComment : Advances text lineComment := by
  refine advances_of_drop fun c a next read => ?_
  obtain ⟨_, _, _, _, same⟩ := lineComment_eq_read_iff.mp read
  exact ⟨_, same⟩

theorem advances_inlineComment : Advances text inlineComment := by
  refine advances_of_drop fun c a next read => ?_
  unfold inlineComment at read
  split at read
  · split at read
    · exact ⟨_, (Outcome.read.inj read).2.symm⟩
    · cases read
  · cases read

/-- Every blank goes forward. -/
theorem advances_blank (breaks : Bool) : Advances text (blank breaks) := by
  refine ((advances_satisfy _).bind fun _ _ => advances_pure _).choice
    (advances_inlineComment.choice ?_)
  cases breaks with
  | false => exact yields_fail
  | true => exact advances_lineComment

theorem advances_skip (breaks : Bool) : Advances text (skip breaks) :=
  (advances_blank breaks).many.bind fun _ _ => advances_pure _

/-! ## Identifiers and numbers -/

/-- An identifier that is read is passed. -/
theorem passes_identifier {c next : Cursor} {name : String}
    (read : identifier c = .read name next) : c.Passes name.toList next := by
  obtain ⟨first, middle, start, more⟩ := bind_eq_read_iff.mp read
  obtain ⟨rest, last, run, made⟩ := bind_eq_read_iff.mp more
  obtain ⟨rfl, rfl⟩ := Outcome.read.inj made
  rw [String.toList_ofList]
  exact (passes_satisfy start).trans (passes_many_satisfy run)

/-- Identifiers and numbers go forward, since they are put together of runs of characters. -/
theorem advances_identifier : Advances text identifier :=
  fun _ name _ _ read => ⟨⟨name.toList, passes_identifier read⟩, trivial⟩

theorem advances_demandIdentifier : Advances text demandIdentifier :=
  advances_identifier.demand _

theorem advances_digits : Advances text digits := (advances_satisfy _).many1.advances

theorem advances_exponent : Advances text exponent :=
  (advances_satisfy _).bind fun _ _ => (advances_satisfy _).optional.bind fun _ _ =>
    (advances_digits.demand _).bind fun _ _ => advances_pure _

theorem advances_fraction : Advances text fraction :=
  (advances_char '.').bind fun _ _ => advances_digits

theorem advances_decimal : Advances text decimal := by
  have scaled := (advances_fraction : Advances text fraction).bind fun behind _ =>
    advances_exponent.optional.bind fun scale _ => advances_pure (behind, scale.getD 0)
  have whole := (advances_exponent : Advances text exponent).bind fun scale _ =>
    advances_pure (([] : List Char), scale)
  refine advances_digits.bind fun ds _ => (scaled.choice whole).bind fun ⟨behind, scale⟩ _ => ?_
  dsimp only
  cases Numeral.ofDecimal (digitsValue (ds ++ behind)) (scale - behind.length) with
  | some value => exact advances_pure value
  | none => exact yields_fail

theorem advances_wholeNumber : Advances text wholeNumber := by
  refine advances_digits.bind fun ds _ => ?_
  exact .ite (fun _ => advances_pure _) fun _ => yields_undone _

theorem advances_number : Advances text number := advances_decimal.choice advances_wholeNumber

theorem advances_negativeNumber : Advances text negativeNumber :=
  (advances_char '-').bind fun _ _ => (advances_skip false).bind fun _ _ =>
    advances_number.bind fun _ _ => advances_pure _

theorem advances_legacyIndex : Advances text legacyIndex := by
  intro c a next here read
  unfold legacyIndex at read
  split at read
  · obtain ⟨_, rfl⟩ := Outcome.read.inj read
    exact ⟨c.leadsTo_drop 1, trivial⟩
  · split at read
    · next ds middle taken =>
      split at read
      · obtain ⟨_, rfl⟩ := Outcome.read.inj read
        exact advances_digits here taken
      · cases read
    · cases read
    · cases read

/-! ## Text between markers -/

/-- Behind an escape, well formed or not, reading goes on further down. -/
theorem leadsTo_escapeAt (c : Cursor) :
    (∀ x next, escapeAt c = .decoded x next → c.LeadsTo next) ∧
      ∀ complaint place past, escapeAt c = .malformed complaint place past → c.LeadsTo past := by
  have digits (count : Nat) (c' : Cursor) :
      (∀ x next, codePointEscape count c' = .decoded x next → c'.LeadsTo next) ∧
        ∀ complaint place past, codePointEscape count c' = .malformed complaint place past →
          c'.LeadsTo past := by
    unfold codePointEscape
    split
    · constructor
      · rintro _ _ ⟨⟩
        exact c'.leadsTo_drop count
      · rintro _ _ _ ⟨⟩
    · constructor
      · rintro _ _ ⟨⟩
      · rintro _ _ _ ⟨⟩
        exact .refl c'
  have first := c.leadsTo_drop 1
  unfold escapeAt
  split
  · constructor
    · rintro _ _ ⟨⟩
    · rintro _ _ _ ⟨⟩
  · obtain ⟨decoded, malformed⟩ := digits 4 (c.drop 1)
    exact ⟨fun x next same => first.trans (decoded x next same),
      fun _ _ past same => first.trans (malformed _ _ past same)⟩
  · obtain ⟨decoded, malformed⟩ := digits 8 (c.drop 1)
    exact ⟨fun x next same => first.trans (decoded x next same),
      fun _ _ past same => first.trans (malformed _ _ past same)⟩
  · split
    · constructor
      · rintro _ _ ⟨⟩
        exact first
      · rintro _ _ _ ⟨⟩
    · constructor
      · rintro _ _ ⟨⟩
      · rintro _ _ _ ⟨⟩
        exact first

/-- How quoted text is read from a cursor up to another: marker by marker, escape by escape and
character by character, until nothing more is taken for it. -/
inductive QuotedRun : Cursor → List Char → Cursor → Prop where
  | stop {c : Cursor} : QuotedRun c [] c
  | malformed {c past : Cursor} {text : List Char} {complaint : Complaint} {place : Nat}
      (backslash : c.rest = '\\' :: text)
      (malformed : escapeAt (c.drop 1) = .malformed complaint place past) : QuotedRun c [] past
  | doubled {c last : Cursor} {marker value : List Char}
      (doubled : doubledMarker? c.rest = some marker) (more : QuotedRun (c.drop 3) value last) :
      QuotedRun c (marker ++ value) last
  | escape {c next last : Cursor} {text value : List Char} {x : Char}
      (backslash : c.rest = '\\' :: text) (decoded : escapeAt (c.drop 1) = .decoded x next)
      (more : QuotedRun next value last) : QuotedRun c (x :: value) last
  | plain {c last : Cursor} {text value : List Char} {x : Char} (first : c.rest = x :: text)
      (notQuote : x ≠ '"') (notBackslash : x ≠ '\\') (noMarker : startsMarker c.rest = false)
      (noDouble : doubledMarker? c.rest = none) (more : QuotedRun (c.drop 1) value last) :
      QuotedRun c (x :: value) last

/-- What the reader with a limit comes to is a run without one. -/
theorem quotedRun_of_quotedRest {limit value : List Char} {c last : Cursor}
    (read : quotedRest limit c = (value, last)) : QuotedRun c value last := by
  induction limit generalizing c value with
  | nil =>
    obtain ⟨rfl, rfl⟩ := Prod.mk.inj read
    exact .stop
  | cons x limit ih =>
    rw [quotedRest] at read
    split at read
    · next marker doubled =>
      obtain ⟨rfl, rfl⟩ := Prod.mk.inj read
      exact .doubled doubled (ih rfl)
    · next noDouble =>
      split at read
      · obtain ⟨rfl, rfl⟩ := Prod.mk.inj read
        exact .stop
      · next y more same =>
        split at read
        · obtain ⟨rfl, rfl⟩ := Prod.mk.inj read
          exact .stop
        · next goesOn =>
          simp only [Bool.or_eq_true, beq_iff_eq, not_or, Bool.not_eq_true] at goesOn
          split at read
          -- Behind a backslash the escape decides where reading goes on.
          · next backslash =>
            obtain rfl := beq_iff_eq.mp backslash
            split at read
            · next z next decoded =>
              obtain ⟨rfl, rfl⟩ := Prod.mk.inj read
              exact .escape same decoded (ih rfl)
            · next past malformed =>
              obtain ⟨rfl, rfl⟩ := Prod.mk.inj read
              exact .malformed same malformed
            · obtain ⟨rfl, rfl⟩ := Prod.mk.inj read
              exact .stop
          · next other =>
            obtain ⟨rfl, rfl⟩ := Prod.mk.inj read
            exact .plain same goesOn.1 (by simpa using other) goesOn.2 noDouble (ih rfl)

theorem QuotedRun.leadsTo {c last : Cursor} {value : List Char} (run : QuotedRun c value last) :
    c.LeadsTo last := by
  induction run with
  | stop => exact .refl _
  | malformed _ malformed =>
    exact (Cursor.leadsTo_drop _ 1).trans ((leadsTo_escapeAt _).2 _ _ _ malformed)
  | doubled _ _ ih => exact (Cursor.leadsTo_drop _ 3).trans ih
  | escape _ decoded _ ih =>
    exact ((Cursor.leadsTo_drop _ 1).trans ((leadsTo_escapeAt _).1 _ _ decoded)).trans ih
  | plain _ _ _ _ _ _ ih => exact (Cursor.leadsTo_drop _ 1).trans ih

/-- Quoted text goes forward, also where it skips what it knows of an escape. -/
theorem leadsTo_quotedRest (limit : List Char) (c : Cursor) :
    c.LeadsTo (quotedRest limit c).2 :=
  (quotedRun_of_quotedRest rfl).leadsTo

theorem advances_quotedText : Advances text quotedText := by
  intro c a next _ read
  unfold quotedText at read
  split at read
  · cases read
  · split at read
    · cases read
    · split at read
      · cases read
      · have forward := leadsTo_quotedRest c.rest c
        dsimp only at read
        split at read
        · cases read
        · obtain ⟨_, rfl⟩ := Outcome.read.inj read
          exact ⟨forward, trivial⟩

/-- So does the text of a heredoc, up to the line that ends it. -/
theorem leadsTo_heredocRest {delimiter limit read : List Char} {c last : Cursor}
    (taken : heredocRest delimiter limit c = some (read, last)) : c.LeadsTo last := by
  induction limit generalizing c read with
  | nil => cases taken
  | cons x limit ih =>
    unfold heredocRest at taken
    split at taken
    · obtain ⟨⟨more, _⟩, rest, same⟩ := Option.map_eq_some_iff.mp taken
      obtain ⟨_, rfl⟩ := Prod.mk.inj same
      exact (c.leadsTo_drop 3).trans (ih rest)
    · split at taken
      · cases taken
      · split at taken
        · obtain ⟨_, rfl⟩ := Prod.mk.inj (Option.some.inj taken)
          exact .refl c
        · obtain ⟨⟨more, _⟩, rest, same⟩ := Option.map_eq_some_iff.mp taken
          obtain ⟨_, rfl⟩ := Prod.mk.inj same
          exact (c.leadsTo_drop 1).trans (ih rest)

theorem advances_heredocText (delimiter : String) : Advances text (heredocText delimiter) := by
  intro c a next _ read
  unfold heredocText at read
  split at read
  · next taken =>
    obtain ⟨_, rfl⟩ := Outcome.read.inj read
    exact ⟨leadsTo_heredocRest taken, trivial⟩
  · cases read

/-- Either kind of text goes forward. -/
theorem advances_templateText (quoting : Quoting) : Advances text (templateText quoting) := by
  cases quoting with
  | quoted => exact advances_quotedText
  | heredoc delimiter => exact advances_heredocText delimiter

end Grammar

end HclLint.Hcl
