/-
# Templates in a window

The parts of a template are read one after the other until a quote, the tag of an enclosing
directive or the end of a heredoc stops them. Each of these is a place where no part starts, so the
parts in front of it are the same whatever closes the window.

## Main definitions

* `StartsTerm`: a window that a term starts.
* `EndsParts`: a text in front of which the parts of a template end.
* `Level.Agrees`: readers of smaller expressions that track each other.

## Main statements

* `tracks_templatePart`: the parts of templates are read alike.
-/

import HclLint.Proofs.Hcl.Rereading
import HclLint.Proofs.Hcl.Unplaced
import HclLint.Proofs.Hcl.Window.Text

namespace HclLint.Hcl

open HclLint.Text

/-- A form tracks together with a setting. -/
theorem Parser.Tracks.paired {k : Frame} {bound : Nat} {ends starts : List Char → Prop}
    {p p' : Parser Form} (tracks : Tracks k bound Form.unplaced ends starts p p')
    (setting : Grammar.Setting) :
    Tracks k bound (fun a : Form × Grammar.Setting => (a.1.unplaced, a.2)) ends starts
      (do return (← p, setting)) (do return (← p', setting)) :=
  tracks.bind fun _ _ same => tracks_pure (Prod.ext same rfl)

namespace Grammar

open HclLint.Hcl.Parser

variable {front window text : List Char} {k : Frame} {bound : Nat} {level level' : Level}
  {ends : List Char → Prop} {quoting : Quoting} {c c' next : Cursor} {x : Char}

/-- The window starts with a character that a term may start with. -/
def StartsTerm (window : List Char) : Prop :=
  ∃ x rest, window = x :: rest ∧ (x ∈ termSigns ∨ x.isDigit = true ∨ isIdentifierStart x = true)

/-- The quoting is that of a quoted template, or of a heredoc with an identifier at its end. -/
def Quoting.IsNamed : Quoting → Prop
  | .quoted => True
  | .heredoc delimiter => isIdentifier delimiter = true

/-- In front of the text the parts of a template end: at a quote, at the tag that goes on with a
directive or closes it, or at the line that ends a heredoc. -/
inductive EndsParts : Quoting → List Char → Prop where
  | quote (rest : List Char) : EndsParts .quoted ('"' :: rest)
  | tag (quoting : Quoting) {text rest : List Char} {keyword : String}
      (known : keyword ∈ ["else", "endif", "endfor"])
      (reads : Reads tagStart text (fun _ => True) (keyword.toList ++ rest)) :
      EndsParts quoting text
  | heredoc {delimiter : String} {text : List Char}
      (ends : startsHeredocEnd delimiter.toList text = true) : EndsParts (.heredoc delimiter) text

/-- Quoted text goes on in front of the window. -/
abbrev TextGoesOn (k : Frame) (window : List Char) : Prop := GoesOn (window ++ k.left)

/-- The readers of two levels track each other in windows shorter than the bound. -/
structure Level.Agrees (k : Frame) (bound : Nat) (level level' : Level) : Prop where
  sound : ∀ text, level.IsSound text (·.IsIn text)
  expr : ∀ setting, Tracks k bound Expr.unplaced (Halts k) StartsTerm (level.expr setting)
    (level'.expr setting)
  term : ∀ setting, Tracks k bound (fun a => (a.1.unplaced, a.2)) (Halts k) StartsTerm
    (level.term setting) (level'.term setting)
  part : ∀ quoting : Quoting, quoting.IsNamed → Tracks k bound Part.unplaced (TextGoesOn k)
    (TextGoesOn k) (level.part quoting) (level'.part quoting)
  /-- A comma starts no expression, and it is refused for good. -/
  comma : 0 < bound → ∀ setting c, c.rest.head? = some ',' →
    ∀ complaint, level.expr setting c ≠ .undone complaint
  noExpr : ∀ setting, IsUndone (level'.expr setting) []
  takesPart : ∀ quoting, TakesSome (level.part quoting)
  noPart : ∀ quoting, IsUndone (level.part quoting) []
  /-- A part of a quoted template is text, or a marker starts it. -/
  startsPart : ∀ {c a next}, level.part .quoted c = .read a next →
    (∃ run, quotedText c = .read run next) ∨ startsMarker c.rest = true
  endsParts : ∀ {quoting text}, EndsParts quoting text → IsUndone (level'.part quoting) text

theorem startsBlank_of_startsTerm
    (start : x ∈ termSigns ∨ x.isDigit = true ∨ isIdentifierStart x = true) :
    startsBlank x = false := by
  rcases start with sign | digit | start
  · have solid : ∀ x ∈ termSigns, startsBlank x = false := by decide
    exact solid x sign
  · exact startsBlank_of_isDigit digit
  · exact startsBlank_of_isIdentifierStart start

/-- In front of a term there are no blanks to skip. -/
theorem skips_of_startsTerm (starts : StartsTerm window) : Skips k window := by
  obtain ⟨x, rest, rfl, start⟩ := starts
  exact skips_cons (startsBlank_of_startsTerm start) rest

/-! ## Words -/

/-- Identifiers are decided, and their first character tells what the window starts with. -/
theorem tracks_identifier {starts : List Char → Prop}
    (opens : ∀ x w, isIdentifierStart x = true → starts (x :: w)) :
    Tracks k bound id ends starts identifier identifier := by
  refine isDecided_identifier.tracks (fun _ => advances_identifier) ?_
  intro front window c name next read passes _
  obtain rfl := passes.eq (passes_identifier read)
  obtain ⟨first, more, same, start⟩ := exists_toList_cons (isIdentifier_of_read read)
  rw [same]
  exact opens first _ start

theorem tracks_demandIdentifier :
    Tracks k bound id ends (Skips k) demandIdentifier demandIdentifier :=
  (tracks_identifier fun _ w start =>
    skips_cons (startsBlank_of_isIdentifierStart start) w).demand _

/-- Blanks may be missing. -/
theorem isNeverUndone_skip (breaks : Bool) : IsNeverUndone (skip breaks) :=
  (isNeverUndone_many _).bind fun _ => isNeverUndone_pure _

/-- A trimming mark, where the window may start with one. -/
theorem tracks_trimMark (sign : ∀ w, ends ('~' :: w)) :
    Tracks k bound id ends ends trimMark trimMark :=
  ((tracks_char fun w _ => sign w).optional (isDecided_char (by decide)).fails
    fun _ ending => ending).bind fun a a' same => by
      obtain rfl : a' = a := by simpa using same
      exact tracks_pure rfl

/-- The end of a tag is told by its mark and its brace, behind the blanks. -/
theorem tracks_tagEnd : Tracks k bound id ends (Stops k) tagEnd tagEnd :=
  (tracks_skip true).bind fun _ _ _ =>
    (tracks_trimMark (stops_quiet (by decide) (by decide))).bind fun _ _ same =>
      (tracks_demandWord fun w _ => stops_quiet (by decide) (by decide) w).bind fun _ _ _ =>
        tracks_pure same

/-- A trimming mark at the start of a tag, and the blanks behind it. -/
theorem tracks_trimmed : Tracks k bound id (Skips k) (Skips k)
    (do let trim ← trimMark; skip true; return trim)
    (do let trim ← trimMark; skip true; return trim) :=
  (tracks_trimMark (skips_cons (by decide))).bind fun _ _ same =>
    (tracks_skip_early true).bind fun _ _ _ => tracks_pure same

theorem tracks_tagStart :
    Tracks k bound id (Skips k) (StartsWith ['%', '\x7b']) tagStart tagStart :=
  (tracks_word fun rest _ => ⟨rest, rfl⟩).bind fun _ _ _ => tracks_trimmed

theorem takesSome_tagStart : TakesSome tagStart :=
  (takesSome_word (List.cons_ne_nil _ _)).bind fun _ _ => advances_trimMark.bind fun _ _ =>
    (advances_skip true).bind fun _ _ => advances_pure _

theorem tracks_boundNames : Tracks k bound id (Skips k) (Skips k) boundNames boundNames := by
  have another : Tracks k bound id (Skips k) (Skips k)
      (do let _ ← char ','; skip true; let name ← demandIdentifier; skip true; return name)
      (do let _ ← char ','; skip true; let name ← demandIdentifier; skip true; return name) :=
    (tracks_char fun w _ => skips_cons (by decide) w).bind fun _ _ _ =>
      (tracks_skip_early true).bind fun _ _ _ => tracks_demandIdentifier.bind fun _ _ same =>
        (tracks_skip_early true).bind fun _ _ _ => tracks_pure same
  have fails : Fails k (Skips k)
      (do let _ ← char ','; skip true; let name ← demandIdentifier; skip true; return name)
      (do let _ ← char ','; skip true; let name ← demandIdentifier; skip true; return name) :=
    (isDecided_char (by decide)).fails.bind fun _ => (isNeverUndone_skip true).bind fun _ =>
      (isNeverUndone_demand _ _).bind fun _ => (isNeverUndone_skip true).bind fun _ =>
        isNeverUndone_pure _
  refine tracks_demandIdentifier.bind fun first first' same => (tracks_skip_early true).bind
    fun _ _ _ => (another.optional fails fun _ skips => skips).bind fun second second' same' => ?_
  obtain rfl : first' = first := same
  obtain rfl : second' = second := by simpa using same'
  exact tracks_pure rfl

/-! ## Text -/

/-- No text starts with a marker. -/
theorem isUndone_templateText_of_marker (quoting : Quoting) (starts : startsMarker text = true) :
    IsUndone (templateText quoting) text := by
  cases quoting with
  | quoted => exact isUndone_quotedText_of_marker starts
  | heredoc delimiter => exact isUndone_heredocText (by rw [starts]; rfl)

/-- No closing sign is part of an identifier. -/
theorem apart_of_isIdentifier {name : String} (known : isIdentifier name = true) :
    ∀ x ∈ name.toList, x ∉ closers := by
  have apart : ∀ x ∈ closers, isIdentifierStart x = false ∧ isIdentifierRest x = false := by decide
  refine forall_mem_of_isIdentifier known (fun x start closer => ?_) fun x rest closer => ?_
  · rw [(apart x closer).1] at start
    cases start
  · rw [(apart x closer).2] at rest
    cases rest

/-- Text is read alike as long as more of the template follows. -/
theorem tracks_templateText (named : quoting.IsNamed) : Tracks k bound id (TextGoesOn k)
    (TextGoesOn k) (templateText quoting) (templateText quoting) := by
  cases quoting with
  | quoted => exact tracks_quotedText
  | heredoc delimiter => exact tracks_heredocText (apart_of_isIdentifier named)

/-! ## Ends of parts -/

/-- The window starts with the tag of a keyword. -/
def OpensTag (k : Frame) (keyword : String) (window : List Char) : Prop :=
  StartsWith ['%', '\x7b'] window ∧ ∃ rest, StartsWith keyword.toList rest ∧
    Reads tagStart (window ++ k.right) (fun _ => True) (rest ++ k.right)

theorem tracks_tagStart_of_keyword (keyword : String)
    (solid : keyword.toList.head?.map startsBlank = some false) :
    Tracks k bound id (StartsWith keyword.toList) (OpensTag k keyword) tagStart tagStart := by
  have tag : Tracks k bound id (StartsWith keyword.toList) (StartsWith ['%', '\x7b']) tagStart
      tagStart := by
    refine tracks_tagStart.imp ?_ fun _ starts => starts
    rintro _ ⟨rest, rfl⟩
    obtain ⟨x, more, same⟩ : ∃ x more, keyword.toList = x :: more := by
      cases letters : keyword.toList with
      | nil =>
        rw [letters] at solid
        cases solid
      | cons x more => exact ⟨x, more, rfl⟩
    rw [same] at solid ⊢
    exact skips_cons (Option.some.inj solid) _
  exact (tag.and tag.reads).imp (fun _ starts => starts) fun _ starts => starts

/-- The tag that closes a directive is read alike, whatever follows it. -/
theorem tracks_closingTag (keyword : String)
    (solid : keyword.toList.head?.map startsBlank = some false) :
    Tracks k bound id ends (OpensTag k keyword) (closingTag keyword) (closingTag keyword) :=
  (tracks_tagStart_of_keyword keyword solid).bind fun left left' same =>
    (tracks_demandWord fun rest _ => ⟨rest, rfl⟩).bind fun _ _ _ =>
      tracks_tagEnd.bind fun right right' same' => by
        obtain rfl : left' = left := same
        obtain rfl : right' = right := same'
        exact tracks_pure rfl

/-- The tags of an enclosing directive end the parts in front of them. -/
theorem endsParts_of_opensTag {keyword : String} (known : keyword ∈ ["else", "endif", "endfor"])
    (opens : OpensTag k keyword window) : EndsParts quoting (window ++ k.right) := by
  obtain ⟨_, _, ⟨rest, rfl⟩, reads⟩ := opens
  rw [List.append_assoc] at reads
  exact .tag quoting known reads

theorem textGoesOn_of_startsWith {w : List Char} (long : 2 ≤ w.length)
    (starts : StartsWith w window) : TextGoesOn k window := by
  obtain ⟨rest, rfl⟩ := starts
  refine ⟨fun none => ?_, fun single => ?_⟩
  · have lengths := congrArg List.length none
    simp only [List.length_append, List.length_nil] at lengths
    omega
  · have lengths := congrArg List.length single
    simp only [List.length_append, List.length_cons, List.length_nil] at lengths
    omega

/-- Such a tag is long enough for the text in front of it to end there. -/
theorem textGoesOn_of_opensTag {keyword : String} (opens : OpensTag k keyword window) :
    TextGoesOn k window := textGoesOn_of_startsWith (by decide) opens.1

theorem startsMarker_of_reads_tagStart {holds : Bool → Prop} {rest : List Char}
    (reads : Reads tagStart text holds rest) : ∃ more, text = ['%', '\x7b'] ++ more := by
  obtain ⟨_, _, read, _⟩ := reads 0
  obtain ⟨_, between, opened, _⟩ := bind_eq_read_iff.mp read
  exact ⟨_, (passes_word opened).1⟩

/-- No part of a template starts where the parts end. -/
theorem isUndone_templatePart (level : Level) (ended : EndsParts quoting text) :
    IsUndone (templatePart level quoting) text := by
  -- Text, interpolations and directives are tried in turn, and none of them starts there.
  cases ended with
  | quote rest => exact isUndone_templatePart_quote level rest
  | @tag _ _ rest keyword known reads =>
    obtain ⟨more, rfl⟩ := startsMarker_of_reads_tagStart reads
    have noText := isUndone_templateText_of_marker quoting
      (show startsMarker (['%', '\x7b'] ++ more) = true from rfl)
    have noInterpolation : IsUndone (interpolation level) (['%', '\x7b'] ++ more) :=
      (isUndone_word rfl).bind _
    have noKeyword : ∀ left, IsUndone (Parser.choice (branchPart level quoting left)
        (loopPart level quoting left)) (keyword.toList ++ rest) := by
      intro left
      simp only [List.mem_cons, List.not_mem_nil, or_false] at known
      rcases known with rfl | rfl | rfl
      all_goals exact ((isUndone_word rfl).bind _).choice ((isUndone_word rfl).bind _)
    have noDirective : IsUndone (directive level quoting) (['%', '\x7b'] ++ more) :=
      reads.bind_isUndone fun left _ => noKeyword left
    exact (noText.bind _).choice (noInterpolation.choice noDirective)
  | @heredoc delimiter _ ends =>
    have noText : IsUndone (templateText (.heredoc delimiter)) text :=
      isUndone_heredocText (by rw [ends, Bool.or_true])
    have noSign (w : List Char) (sign : Char) (other : sign ≠ '\n' ∧ sign ≠ '\r') :
        (sign :: w).isPrefixOf text = false := by
      unfold startsHeredocEnd at ends
      dsimp only at ends
      split at ends
      · simp [List.isPrefixOf, other.1]
      · simp [List.isPrefixOf, other.2]
      · cases ends
    have noInterpolation : IsUndone (interpolation level) text :=
      (isUndone_word (noSign _ _ (by decide))).bind _
    have noDirective : IsUndone (directive level (.heredoc delimiter)) text :=
      ((isUndone_word (noSign _ _ (by decide))).bind _).bind _
    exact (noText.bind _).choice (noInterpolation.choice noDirective)

/-! ## Parts -/

section Parts

variable (agrees : level.Agrees k bound level')
include agrees

/-- An expression may end where the blanks behind it do. -/
theorem Level.Agrees.exprHalts (setting : Setting) : Tracks k bound Expr.unplaced (Halts k)
    (Skips k) (level.expr setting) (level'.expr setting) :=
  (agrees.expr setting).imp (fun _ halts => halts) fun _ => skips_of_startsTerm

/-- The expression in a template or between brackets. -/
theorem Level.Agrees.exprStops (setting : Setting) : Tracks k bound Expr.unplaced (Stops k)
    (Skips k) (level.expr setting) (level'.expr setting) :=
  (agrees.exprHalts setting).imp (fun _ stops => stops.ends) fun _ skips => skips

/-- An interpolation is read alike, whatever follows its brace. -/
theorem tracks_interpolation : Tracks k (bound + 1) Part.unplaced ends
    (StartsWith ['$', '\x7b']) (interpolation level) (interpolation level') := by
  refine (tracks_word fun rest _ => ⟨rest, rfl⟩).bind_less
    (takesSome_word (List.cons_ne_nil _ _)) fun _ _ _ =>
      (tracks_trimMark (skips_cons (by decide))).bind fun left left' same =>
        (tracks_skip_early true).bind fun _ _ _ => (agrees.exprStops .bracket).bind
          fun inner inner' same' => tracks_tagEnd.bind fun right right' same'' => tracks_pure ?_
  obtain rfl : left' = left := same
  obtain rfl : right' = right := same''
  rw [Part.unplaced, Part.unplaced, same']

/-- The parts of a template up to their end. -/
theorem tracks_parts (named : quoting.IsNamed) (goesOn : ∀ w, ends w → TextGoesOn k w)
    (ended : ∀ w, ends w → EndsParts quoting (w ++ k.right)) :
    Tracks k bound (List.map Part.unplaced) ends (TextGoesOn k) (many (level.part quoting))
      (many (level'.part quoting)) :=
  (agrees.part quoting named).many (agrees.takesPart quoting) (agrees.noPart quoting)
    (fun w _ _ _ ending _ => agrees.endsParts (ended w ending)) goesOn

/-- The parts in front of the tag of a keyword. -/
theorem tracks_keywordParts (named : quoting.IsNamed) (keyword : String)
    (known : keyword ∈ ["else", "endif", "endfor"]) :
    Tracks k bound (List.map Part.unplaced) (OpensTag k keyword) (TextGoesOn k)
      (many (level.part quoting)) (many (level'.part quoting)) :=
  tracks_parts agrees named (fun _ => textGoesOn_of_opensTag) fun _ => endsParts_of_opensTag known

/-- The second branch of a directive ends in front of the closing tag. -/
theorem tracks_elseParts (named : quoting.IsNamed) :
    Tracks k bound (fun a => (a.1.map Part.unplaced, a.2)) (OpensTag k "endif")
      (OpensTag k "else") (elseParts level quoting) (elseParts level' quoting) :=
  (tracks_tagStart_of_keyword "else" (by decide)).bind fun left left' same =>
    (tracks_word fun rest _ => ⟨rest, rfl⟩).bind fun _ _ _ =>
      tracks_tagEnd.bind fun right right' same' =>
        (tracks_keywordParts agrees named "endif" (by decide)).bind fun parts parts' sames => by
          obtain rfl : left' = left := same
          obtain rfl : right' = right := same'
          exact tracks_pure (Prod.ext sames rfl)

/-- The first branch ends in front of the second one, if there is one, or in front of the closing
tag. -/
theorem tracks_branchPart (named : quoting.IsNamed) (left : Bool) :
    Tracks k bound Part.unplaced ends (StartsWith "if".toList) (branchPart level quoting left)
      (branchPart level' quoting left) := by
  have ended (w : List Char) (opens : OpensTag k "else" w ∨ OpensTag k "endif" w) :
      EndsParts quoting (w ++ k.right) :=
    opens.elim (endsParts_of_opensTag (by decide)) (endsParts_of_opensTag (by decide))
  have goesOn (w : List Char) (opens : OpensTag k "else" w ∨ OpensTag k "endif" w) :
      TextGoesOn k w := opens.elim textGoesOn_of_opensTag textGoesOn_of_opensTag
  have noElse : Fails k (OpensTag k "endif") (elseParts level quoting)
      (elseParts level' quoting) := by
    rintro w c complaint _ ⟨_, _, ⟨rest, rfl⟩, reads⟩ _
    exact reads.bind_isUndone fun _ _ => (isUndone_word rfl).bind _
  have another := ((tracks_elseParts agrees named).imp (fun _ opens => opens)
    fun _ => Or.inl).optional noElse fun _ => Or.inr
  refine (tracks_word fun rest _ => ⟨rest, rfl⟩).bind fun _ _ _ =>
    (tracks_skip_early true).bind fun _ _ _ => (agrees.exprStops .bracket).bind
      fun test test' same => tracks_tagEnd.bind fun right right' same' =>
        (tracks_parts agrees named goesOn ended).bind fun yes yes' sames =>
          another.bind fun no no' others =>
            (tracks_closingTag "endif" (by decide)).bind fun closing closing' same'' =>
              tracks_pure ?_
  obtain rfl : right' = right := same'
  obtain rfl : closing' = closing := same''
  cases no with
  | none =>
    cases no' with
    | none => simp [Part.unplaced, same, sames]
    | some _ => cases others
  | some parts =>
    cases no' with
    | none => cases others
    | some parts' =>
      obtain ⟨same, sames'⟩ := Prod.mk.inj (Option.some.inj others)
      simp [Part.unplaced, *]

/-- The parts of a loop end in front of the tag that closes it. -/
theorem tracks_loopPart (named : quoting.IsNamed) (left : Bool) :
    Tracks k bound Part.unplaced ends (StartsWith "for".toList) (loopPart level quoting left)
      (loopPart level' quoting left) := by
  refine (tracks_word fun rest _ => ⟨rest, rfl⟩).bind fun _ _ _ =>
    (tracks_skip_early true).bind fun _ _ _ => tracks_boundNames.bind fun names names' same =>
      (tracks_demandWord fun w _ => skips_cons (by decide) _).bind fun _ _ _ =>
        (tracks_skip_early true).bind fun _ _ _ => (agrees.exprStops .bracket).bind
          fun collection collection' same' => tracks_tagEnd.bind fun right right' same'' =>
            (tracks_keywordParts agrees named "endfor" (by decide)).bind fun body body' sames =>
              (tracks_closingTag "endfor" (by decide)).bind fun closing closing' others =>
                tracks_pure ?_
  obtain rfl : names' = names := same
  obtain rfl : right' = right := same''
  obtain rfl : closing' = closing := others
  simp [Part.unplaced, same', sames]

/-- Directives are told apart by their keywords. -/
theorem tracks_directive (named : quoting.IsNamed) : Tracks k (bound + 1) Part.unplaced
    ends (StartsWith ['%', '\x7b']) (directive level quoting) (directive level' quoting) := by
  refine tracks_tagStart.bind_less takesSome_tagStart fun left left' same => ?_
  obtain rfl : left' = left := same
  have branch : Tracks k bound Part.unplaced ends (Skips k) (branchPart level quoting left')
      (branchPart level' quoting left') := by
    refine (tracks_branchPart agrees named left').imp (fun _ ending => ending) ?_
    rintro _ ⟨rest, rfl⟩
    exact skips_cons (by decide) _
  refine branch.choice (tracks_loopPart agrees named left') ?_ ?_
  · rintro _ ⟨rest, rfl⟩
    exact (isUndone_word rfl).bind _
  · rintro _ ⟨rest, rfl⟩
    exact skips_cons (by decide) _

/-- Text, interpolations and directives are told apart by what the window starts with. -/
theorem tracks_templatePart (named : quoting.IsNamed) : Tracks k (bound + 1) Part.unplaced
    (TextGoesOn k) (TextGoesOn k) (templatePart level quoting) (templatePart level' quoting) := by
  have run : Tracks k (bound + 1) Part.unplaced (TextGoesOn k) (TextGoesOn k)
      (do return .literal (← templateText quoting)) (do return .literal (← templateText quoting)) :=
    (tracks_templateText named).bind fun _ _ same => tracks_pure (congrArg Part.literal same)
  have marker : Tracks k (bound + 1) Part.unplaced (TextGoesOn k)
      (fun w => StartsWith ['$', '\x7b'] w ∨ StartsWith ['%', '\x7b'] w)
      (choice (interpolation level) (directive level quoting))
      (choice (interpolation level') (directive level' quoting)) := by
    refine ((tracks_interpolation agrees).imp (fun _ ending => ending) fun _ => Or.inl).choice
      (tracks_directive agrees named) ?_ fun _ => Or.inr
    rintro _ ⟨rest, rfl⟩
    exact (isUndone_word rfl).bind _
  refine run.choice marker ?_ ?_
  · rintro _ (⟨rest, rfl⟩ | ⟨rest, rfl⟩)
    · exact (isUndone_templateText_of_marker quoting rfl).bind _
    · exact (isUndone_templateText_of_marker quoting rfl).bind _
  · rintro w (starts | starts)
    · exact textGoesOn_of_startsWith (by decide) starts
    · exact textGoesOn_of_startsWith (by decide) starts

end Parts

end Grammar

end HclLint.Hcl
