/-
# Strings, templates and heredocs in a window

Between quotes stands a string, or where that fails a template. Which of the two it is is told by
the first marker, and this is found in the window. A heredoc is empty where its lines cannot be
read, and that may be told only far behind the window. The lines of any other heredoc are read in
the window, and so nothing behind it matters.

## Main definitions

* `filledHeredocForm`: a heredoc that is not empty.

## Main statements

* `tracks_quotedForm`: what stands between quotes is read alike.
* `tracks_filledHeredocForm`: so is a heredoc that is not empty.
-/

import HclLint.Proofs.Hcl.Window.Template

namespace HclLint.Hcl.Grammar

open HclLint.Text HclLint.Hcl.Parser HclLint.Model

variable {front window text : List Char} {k : Frame} {bound : Nat} {level level' : Level}
  {ends : List Char → Prop} {c next : Cursor}

/-! ## Between quotes -/

/-- A string is read alike, whatever follows its closing quote. -/
theorem tracks_stringForm : Tracks k bound Form.unplaced ends (StartsWith ['"'])
    stringForm stringForm := by
  refine tracks_of_reads (fun _ => yields_stringForm.advances)
    (fun _ => yields_stringForm.advances) ?_
  intro front window c form next passes views _ read
  obtain ⟨body, value, passes', rfl, reads, empty⟩ := readsQuoted_of_stringForm read
  obtain rfl := passes.eq passes'
  have again := reads.reads_stringForm empty (window ++ k.right)
  simp only [List.cons_append, List.append_assoc, List.nil_append]
  exact ⟨⟨_, rfl⟩, again.imp fun _ same => by rw [same]⟩

/-- What stands between quotes takes its quotes at least. -/
theorem takesSome_quotedForm (sound : ∀ text, level.IsSound text (·.IsIn text)) :
    TakesSome (quotedForm level) := by
  have string : TakesSome stringForm := (takesSome_satisfy _).bind fun _ _ =>
    advances_quotedText.optional.bind fun _ _ => (advances_char '"').bind fun _ _ =>
      advances_pure _
  have template : TakesSome (quotedTemplateForm level) :=
    (takesSome_satisfy _).bind fun _ text => ((sound text).part .quoted).many.bind fun _ _ =>
      (advances_char '"').bind fun _ _ => advances_pure _
  exact string.choice template

section Strings

variable (agrees : level.Agrees k bound level')
include agrees

/-- The parts of a template are read alike up to the closing quote. -/
theorem tracks_quotedParts : Tracks k bound (List.map Part.unplaced) (Meets k '"')
    (TextGoesOn k) (many (level.part .quoted)) (many (level'.part .quoted)) := by
  refine tracks_parts agrees trivial (fun w meets => ?_) fun w meets => ?_
  · obtain ⟨rest, same⟩ := meets.exists_cons .left
    rw [TextGoesOn, same]
    exact ⟨List.cons_ne_nil _ _, by rintro ⟨⟩⟩
  · obtain ⟨rest, same⟩ := meets.exists_cons .right
    rw [same]
    exact .quote rest

/-- So is the whole template, whatever follows its quote. -/
theorem tracks_quotedTemplateForm : Tracks k (bound + 1) Form.unplaced ends
    (StartsWith ['"']) (quotedTemplateForm level) (quotedTemplateForm level') :=
  (tracks_char fun w _ => ⟨w, rfl⟩).bind_less (takesSome_satisfy _) fun _ _ _ =>
    (tracks_quotedParts agrees).bind fun _ _ same =>
      (tracks_char fun w _ => meets_cons '"' w).bind fun _ _ _ =>
        tracks_pure (by simp only [Form.unplaced, partsUnplaced_eq_map, same])

omit agrees in
theorem goesOn_of_quote_mem (member : '"' ∈ text) : GoesOn text := by
  refine ⟨?_, ?_⟩
  · rintro rfl
    cases member
  · rintro rfl
    exact absurd member (by decide)

omit agrees in
/-- In front of the last place no string is read up to a quote: a marker comes first, or text that
no quote follows. -/
def StartsTemplate (start last : Cursor) : Prop :=
  startsMarker start.rest = true ∨ ∃ run middle, quotedText start = .read run middle ∧
    middle.LeadsTo last ∧ GoesOn middle.rest ∧ ∀ x ∈ middle.rest.head?, x ≠ '"'

omit agrees in
/-- A template that is no string is made of the parts between its quotes, and they start with a
marker, or with text that the quote does not follow. -/
theorem exists_parts_of_template {form : Form} {complaint : Complaint}
    (sound : ∀ text, level.IsSound text (·.IsIn text)) (takes : TakesSome (level.part .quoted))
    (empty : IsUndone (level.part .quoted) [])
    (startsPart : ∀ {c a next}, level.part .quoted c = .read a next →
      (∃ run, quotedText c = .read run next) ∨ startsMarker c.rest = true)
    (undone : stringForm c = .undone complaint)
    (read : quotedTemplateForm level c = .read form next) :
    ∃ start last parts, c.Passes ['"'] start ∧ last.Passes ['"'] next ∧
      many (level.part .quoted) start = .read parts last ∧ form = .template parts ∧
        StartsTemplate start last := by
  obtain ⟨_, start, opening, more⟩ := bind_eq_read_iff.mp read
  obtain ⟨parts, last, taken, more⟩ := bind_eq_read_iff.mp more
  obtain ⟨_, behind, closing, made⟩ := bind_eq_read_iff.mp more
  obtain ⟨rfl, rfl⟩ := Outcome.read.inj made
  have closed := passes_char closing
  refine ⟨start, last, parts, passes_char opening, closed, taken, rfl, ?_⟩
  have noString {text : Option String} {middle behind : Cursor} {x : Char}
      (taken : Parser.optional quotedText start = .read text middle)
      (closing : char '"' middle = .read x behind) : False := by
    have string : stringForm c = .read (.string (text.getD "")) behind :=
      bind_eq_read_iff.mpr ⟨_, start, opening, bind_eq_read_iff.mpr ⟨text, middle, taken,
        bind_eq_read_iff.mpr ⟨x, behind, closing, rfl⟩⟩⟩
    rw [string] at undone
    cases undone
  cases repeats_of_many takes empty taken with
  | nil =>
    -- Without parts this is the empty string.
    have quote : IsUndone quotedText start.rest := by
      rw [closed.1]
      exact isUndone_quotedText_quote _
    obtain ⟨_, noText⟩ : ∃ complaint, quotedText start = .undone complaint := quote start.offset
    exact (noString (by rw [Parser.optional, noText]) closing).elim
  | @cons _ between _ part parts first less more =>
    rcases startsPart first with ⟨run, text⟩ | marker
    · have onward := more.leadsTo fun text => (sound text).part .quoted
      refine .inr ⟨run, between, text, onward, ?_, ?_⟩
      · obtain ⟨others, passed⟩ := onward
        refine goesOn_of_quote_mem ?_
        rw [passed.1, closed.1]
        simp
      · rintro _ head rfl
        obtain ⟨rest, same⟩ := List.head?_eq_some_iff.mp head
        have quote : Reads (char '"') between.rest (fun _ => True) rest := by
          rw [same]
          exact (reads_char '"' rest).imp fun _ _ => trivial
        obtain ⟨_, _, closing, _⟩ := quote between.offset
        exact noString (by rw [Parser.optional, text]) closing
    · exact .inl marker

omit agrees in
/-- What starts a template in a window is no string in another text with that window, as the first
marker tells. -/
theorem StartsTemplate.isUndone_stringForm {start last : Cursor} (starts : StartsTemplate start last)
    (here : start.Views window k.left) (inside : k.left.length ≤ last.rest.length) :
    IsUndone stringForm ('"' :: (window ++ k.right)) := by
  refine (reads_char '"' _).bind_isUndone fun _ _ => ?_
  rcases starts with marker | ⟨run, middle, text, onward, goesOn, other⟩
  · have again : startsMarker (window ++ k.right) = true := by
      rw [here] at marker
      rwa [startsMarker_window window k.closesRight k.closesLeft]
    refine (isUndone_quotedText_of_marker again).optional.bind_isUndone fun _ _ => ?_
    refine (isUndone_char fun y head => ?_).bind _
    obtain ⟨more, same | same⟩ := startsMarker_eq_true_iff.mp again
    · rw [same] at head
      cases head
      decide
    · rw [same] at head
      cases head
      decide
  · obtain ⟨between, passed⟩ := leadsTo_of_advances (fun _ => advances_quotedText) text
    obtain ⟨rest, below, rfl⟩ :=
      here.exists_rest passed (Nat.le_trans inside onward.length_le)
    rw [below] at goesOn other
    have noQuote : ∀ x ∈ (rest ++ k.right).head?, x ≠ '"' := by
      cases rest with
      | nil => exact k.sameSign goesOn.some ▸ other
      | cons y rest => exact other
    have again : Tracks k (between ++ rest).length.succ id
        (fun w => TextGoesOn k w ∧ ∀ x ∈ (w ++ k.right).head?, x ≠ '"') _ quotedText quotedText :=
      (tracks_quotedText.imp (fun _ both => both.1) fun _ goesOn => goesOn).reads
    obtain ⟨⟨rest', ⟨_, noQuote⟩, reads⟩, _⟩ :=
      again.follows passed below (Nat.lt_succ_self _) ⟨goesOn, noQuote⟩ text
    exact reads.optional.bind_isUndone fun _ _ => (isUndone_char noQuote).bind _

/-- The parts of the template between quotes. -/
theorem Level.Agrees.exists_parts {form : Form} {complaint : Complaint}
    (undone : stringForm c = .undone complaint)
    (read : quotedTemplateForm level c = .read form next) :
    ∃ start last parts, c.Passes ['"'] start ∧ last.Passes ['"'] next ∧
      many (level.part .quoted) start = .read parts last ∧ form = .template parts ∧
        StartsTemplate start last :=
  exists_parts_of_template agrees.sound (agrees.takesPart .quoted) (agrees.noPart .quoted)
    agrees.startsPart undone read

/-- What is no string in one text is none in the other, as the first marker tells. -/
theorem tracks_quotedForm : Tracks k (bound + 1) Form.unplaced ends
    (StartsWith ['"']) (quotedForm level) (quotedForm level') := by
  refine tracks_stringForm.choice_of_undone (tracks_quotedTemplateForm agrees) ?_
    fun _ starts => starts
  intro front window c complaint form next passes views _ _ undone read _
  obtain ⟨start, last, parts, opening, closing, taken, _, starts⟩ :=
    agrees.exists_parts undone read
  have inside : k.left.length ≤ last.rest.length := by
    rw [closing.1, views, List.length_append, List.length_append]
    omega
  have forward := leadsTo_of_advances
    (fun text => ((agrees.sound text).part .quoted).many.advances) taken
  obtain ⟨rest, here, whole⟩ := (passes.views_append views).exists_rest opening
    (Nat.le_trans inside forward.length_le)
  rw [whole]
  exact starts.isUndone_stringForm here inside

end Strings

/-! ## Heredocs -/

/-- A heredoc whose parts stand in front of its delimiter: one that is not empty. -/
def filledHeredocForm (level : Level) : Parser Form := do
  word ['<', '<']
  let indented ← optional (char '-')
  let delimiter ← demandIdentifier
  let _ ← demand .newline lineBreak
  let parts ← heredocParts level delimiter
  let _ ← many (satisfy isSpace)
  demand .heredocEnd (word delimiter.toList)
  return .heredoc delimiter (if indented.isSome then dedent parts else parts)

/-- The window starts with the delimiter, behind spaces and tabs. -/
def StartsDelimiter (delimiter : String) (window : List Char) : Prop :=
  ∃ spaces rest, (∀ x ∈ spaces, isSpace x = true) ∧ window = spaces ++ (delimiter.toList ++ rest)

/-- A heredoc that is not empty is filled. -/
theorem filledHeredocForm_of_heredocForm {form : Form}
    (filled : ∀ delimiter, form ≠ .heredoc delimiter [])
    (read : heredocForm level c = .read form next) :
    filledHeredocForm level c = .read form next := by
  obtain ⟨_, start, opening, more⟩ := bind_eq_read_iff.mp read
  obtain ⟨indented, start₁, dash, more⟩ := bind_eq_read_iff.mp more
  obtain ⟨delimiter, start₂, name, more⟩ := bind_eq_read_iff.mp more
  obtain ⟨ending, start₃, line, more⟩ := bind_eq_read_iff.mp more
  obtain ⟨parts, start₄, inner, more⟩ := bind_eq_read_iff.mp more
  refine bind_eq_read_iff.mpr ⟨_, start, opening, bind_eq_read_iff.mpr ⟨indented, start₁, dash,
    bind_eq_read_iff.mpr ⟨delimiter, start₂, name, bind_eq_read_iff.mpr ⟨ending, start₃, line,
      bind_eq_read_iff.mpr ⟨parts, start₄, ?_, more⟩⟩⟩⟩⟩
  rcases choice_eq_read_iff.mp inner with inner | ⟨_, inner⟩
  · exact inner
  · obtain ⟨rfl, rfl⟩ := Outcome.read.inj inner
    obtain ⟨_, _, _, more⟩ := bind_eq_read_iff.mp more
    obtain ⟨_, _, _, made⟩ := bind_eq_read_iff.mp more
    obtain ⟨rfl, _⟩ := Outcome.read.inj made
    refine absurd ?_ (filled delimiter)
    split
    · rfl
    · rfl

/-- A heredoc with lines is a heredoc. -/
theorem heredocForm_of_filledHeredocForm {form : Form}
    (read : filledHeredocForm level c = .read form next) :
    heredocForm level c = .read form next := by
  obtain ⟨_, start, opening, more⟩ := bind_eq_read_iff.mp read
  obtain ⟨indented, start₁, dash, more⟩ := bind_eq_read_iff.mp more
  obtain ⟨delimiter, start₂, name, more⟩ := bind_eq_read_iff.mp more
  obtain ⟨ending, start₃, line, more⟩ := bind_eq_read_iff.mp more
  obtain ⟨parts, start₄, inner, more⟩ := bind_eq_read_iff.mp more
  exact bind_eq_read_iff.mpr ⟨_, start, opening, bind_eq_read_iff.mpr ⟨indented, start₁, dash,
    bind_eq_read_iff.mpr ⟨delimiter, start₂, name, bind_eq_read_iff.mpr ⟨ending, start₃, line,
      bind_eq_read_iff.mpr ⟨parts, start₄, choice_eq_read_iff.mpr (.inl inner), more⟩⟩⟩⟩⟩

section Heredocs

variable (agrees : level.Agrees k bound level')
include agrees

/-- The parts of a heredoc and the line that ends it. -/
theorem tracks_heredocParts {delimiter : String} (known : isIdentifier delimiter = true) :
    Tracks k bound (List.map Part.unplaced) (StartsDelimiter delimiter) (fun _ => True)
      (heredocParts level delimiter) (heredocParts level' delimiter) := by
  have named : (Quoting.heredoc delimiter).IsNamed := known
  have apart := apart_of_isIdentifier known
  have line : Tracks k bound id (StartsDelimiter delimiter)
      (fun w => startsHeredocEnd delimiter.toList (w ++ k.right) = true) lineBreak lineBreak := by
    refine isDecided_lineBreak.tracks (fun _ => advances_lineBreak) ?_
    rintro front _ c ending next read passes ⟨spaces, rest, blank, rfl⟩
    obtain ⟨passed, breaks⟩ := passes_lineBreak read
    obtain rfl := passes.eq passed
    refine (startsHeredocEnd_iff apart k.closesRight).mpr ⟨front, _, rest, breaks, rfl, ?_⟩
    obtain ⟨first, more, same, start⟩ := exists_toList_cons known
    have solid : isSpace first = false := by
      have := startsBlank_of_isIdentifierStart start
      simp only [startsBlank, Bool.or_eq_false_iff] at this
      exact this.1.1.1.1
    rw [List.dropWhile_append_of_pos blank, same, List.cons_append, List.dropWhile_cons, solid]
    rfl
  have goesOn (w : List Char) (ends : startsHeredocEnd delimiter.toList (w ++ k.right) = true) :
      TextGoesOn k w := by
    obtain ⟨ending, rest, _, rfl | rfl, rfl, _⟩ :=
      (startsHeredocEnd_iff apart k.closesRight).mp ends
    · exact ⟨List.cons_ne_nil _ _, by rintro ⟨⟩⟩
    · exact ⟨List.cons_ne_nil _ _, by rintro ⟨⟩⟩
  have parts := (tracks_parts agrees named goesOn fun _ => EndsParts.heredoc).imp
    (fun _ ends => ends) fun _ _ => trivial
  refine parts.bind fun _ _ same => line.bind fun ending ending' same' => tracks_pure ?_
  obtain rfl : ending' = ending := same'
  rw [appendText_unplaced, appendText_unplaced, same]

/-- A heredoc with lines is read alike, whatever follows its delimiter. -/
theorem tracks_filledHeredocForm : Tracks k (bound + 1) Form.unplaced ends
    (StartsWith ['<']) (filledHeredocForm level) (filledHeredocForm level') := by
  have dash : Tracks k bound (Option.map id) (fun _ => True) (fun _ => True)
      (Parser.optional (char '-')) (Parser.optional (char '-')) :=
    (tracks_char fun _ _ => trivial).optional (isDecided_char (by decide)).fails
      fun _ _ => trivial
  have name : Tracks k bound id (fun _ => True) (fun _ => True) demandIdentifier
      demandIdentifier := tracks_demandIdentifier.imp (fun _ h => h) fun _ _ => trivial
  have line : Tracks k bound id (fun _ => True) (fun _ => True) (demand .newline lineBreak)
      (demand .newline lineBreak) :=
    (isDecided_lineBreak.tracks (fun _ => advances_lineBreak)
      fun _ _ _ _ _ _ _ _ => trivial).demand _
  refine (tracks_word fun rest _ => ⟨'<' :: rest, rfl⟩).bind_less
    (takesSome_word (List.cons_ne_nil _ _)) fun _ _ _ => dash.bind fun indented indented' mark =>
      name.bind_of_read fun delimiter delimiter' taken same => ?_
  obtain rfl : indented' = indented := by simpa using mark
  obtain rfl : delimiter' = delimiter := same
  obtain ⟨_, _, taken⟩ := taken
  have known := isIdentifier_of_read (demand_eq_read_iff.mp taken)
  have spaces : Tracks k bound id (StartsWith delimiter'.toList)
      (StartsDelimiter delimiter') (many (satisfy isSpace)) (many (satisfy isSpace)) := by
    refine (isDecided_many_satisfy (by decide)).tracks
      (fun _ => (advances_satisfy _).many.advances) ?_
    rintro front _ c run next read passes ⟨rest, rfl⟩
    obtain rfl := passes.eq (passes_many_satisfy read)
    exact ⟨front, rest, (run_of_many_satisfy read).1, rfl⟩
  have closing : Tracks k bound id ends (StartsWith delimiter'.toList)
      (demand .heredocEnd (word delimiter'.toList)) (demand .heredocEnd (word delimiter'.toList)) :=
    (tracks_word fun rest _ => ⟨rest, rfl⟩).demand _
  refine line.bind fun _ _ _ => (tracks_heredocParts agrees known).bind fun parts parts' sames =>
    spaces.bind fun _ _ _ => closing.bind fun _ _ _ => tracks_pure ?_
  rw [Form.unplaced, Form.unplaced, partsUnplaced_eq_map, partsUnplaced_eq_map]
  split
  · rw [dedent_unplaced, dedent_unplaced, sames]
  · rw [sames]

end Heredocs

end HclLint.Hcl.Grammar
