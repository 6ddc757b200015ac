/-
# Templates put together

An expression that is read alone is read in the same way in front of a closing sign, and the
text of a literal is read in the same runs in front of a marker as in front of the quote. So a
template that is put together of literals and expressions, each of which can be read alone, is read
as these, one after the other.

One thing is lost where pieces are put together: a dollar sign at the end of a literal would double
the marker behind it.

## Main definitions

* `ReadsRuns`: the runs of text that stand in front of a quote.
* `Spells`: what stands between the quotes of a template, and the parts that are read from it.

## Main statements

* `reads_expr_of_alone`: an expression is read in front of a closing sign as it is read alone.
* `ReadsRuns.reads_marker`: the runs of a literal are read in front of a marker.
* `Spells.exists_readWithout`: a template is read as the parts that it is put together of.
* `exists_readWithout_parens`: so is an expression in parentheses.
-/

import HclLint.Proofs.Hcl.Heredoc
import HclLint.Proofs.Hcl.Rereading
import HclLint.Proofs.Hcl.Breaks

namespace HclLint.Hcl

open HclLint.Text

namespace Grammar

open HclLint.Hcl.Parser

variable {body close close' rest text window : List Char} {refused : Form → Bool} {depth : Nat}
  {setting : Setting} {c c' next : Cursor} {level : Level} {runs : List String} {e : Expr}
  {parts : List Part} {inner : String}

/-! ## Expressions that are read alone -/

theorem isEmptyHeredoc_unplaced (form : Form) :
    form.unplaced.isEmptyHeredoc = form.isEmptyHeredoc := by
  cases form with
  | heredoc delimiter parts => cases parts <;> rfl
  | _ => rfl

/-- Levels that are deep enough track each other if no more is refused than empty heredocs. -/
theorem agrees_of_weaker (k : Frame) {bound depth' : Nat}
    (weaker : ∀ form, refused form = true → form.isEmptyHeredoc = true) (deep : 2 * bound ≤ depth)
    (deep' : 2 * bound ≤ depth') :
    (levelWithout Form.isEmptyHeredoc depth).Agrees k bound (levelWithout refused depth') := by
  refine agrees_levelWithout k (fun _ empty => empty) (fun form form' same taken => ?_) deep deep'
  rw [← isEmptyHeredoc_unplaced, ← same, isEmptyHeredoc_unplaced]
  exact weaker form' taken

/-- An expression at the end of a text is read in the same way in front of a closing sign, if it
holds no empty heredoc. -/
theorem reads_expr_of_alone (weaker : ∀ form, refused form = true → form.isEmptyHeredoc = true)
    {depth' : Nat} (deep : 2 * (c.rest.length + 1) ≤ depth)
    (deep' : 2 * (c.rest.length + 1) ≤ depth')
    (read : (levelWithout Form.isEmptyHeredoc depth).expr setting c = .read e next)
    (whole : next.rest = []) (closes : Closes close) :
    StartsTerm c.rest ∧ Reads ((levelWithout refused depth').expr setting) (c.rest ++ close)
      (·.unplaced = e.unplaced) close := by
  let k : Frame := ⟨[], close, closes_nil, closes, fun none => absurd rfl none⟩
  have agrees := agrees_of_weaker k weaker deep deep'
  obtain ⟨front, passes⟩ := leadsTo_of_advances (agrees.expr setting).advances read
  obtain rfl : c.rest = front := by
    rw [passes.1, whole, List.append_nil]
  have short : (c.rest ++ []).length < c.rest.length + 1 := by simp
  obtain ⟨starts, again⟩ :=
    (agrees.expr setting).follows passes (show next.Views [] [] from whole) short halts_nil read
  rw [List.append_nil] at starts again
  refine ⟨starts, fun offset => ?_⟩
  have here : Cursor.Views (c.rest ++ []) close ⟨c.rest ++ close, offset⟩ := by
    rw [List.append_nil]
    rfl
  obtain ⟨e', ⟨_, place⟩, read', passes', same⟩ := again (List.append_nil c.rest ▸ here)
  obtain rfl : _ = close := passes'.views here
  exact ⟨e', place, read', same⟩

/-- What a whole text consists of is read at its start, and between brackets as well. -/
theorem read_of_readWithout {text : String} (read : readWithout refused text = .ok e) :
    ∃ next, (levelWithout refused (depthOf text.toList)).expr .line (.ofText text.toList) =
        .read e next ∧
      (levelWithout refused (depthOf text.toList)).expr .bracket (.ofText text.toList) =
        .read e next ∧ next.rest = [] := by
  obtain ⟨⟨_, offset⟩, taken, rfl⟩ := read_of_readAll read
  exact ⟨_, taken, (widens_levelWithout _ _).expr taken (sameBlanks_nil offset), rfl⟩

/-- A text is read as what the levels read from it, wherever it stands. -/
theorem readWithout_of_reads {text : String} {holds : Expr → Prop}
    (reads : Reads ((levelWithout refused (depthOf text.toList)).expr .line) text.toList holds []) :
    ∃ e, readWithout refused text = .ok e ∧ holds e := by
  obtain ⟨e, next, read, property⟩ := reads 0
  refine ⟨e, ?_, property⟩
  rw [readWithout, readAll, Cursor.ofText, read]
  rfl

section Alone

variable (weaker : ∀ form, refused form = true → form.isEmptyHeredoc = true)
include weaker

/-- An expression that is read alone is read in front of a closing sign. -/
theorem reads_bracket_of_readWithout (read : readWithout Form.isEmptyHeredoc inner = .ok e)
    (deep : 2 * (inner.toList.length + 1) ≤ depth) (closes : Closes close) :
    StartsTerm inner.toList ∧ Reads ((levelWithout refused depth).expr .bracket)
      (inner.toList ++ close) (·.unplaced = e.unplaced) close := by
  obtain ⟨next, _, taken, whole⟩ := read_of_readWithout read
  refine reads_expr_of_alone weaker ?_ deep taken whole closes
  change 2 * (inner.toList.length + 1) ≤ 3 * inner.toList.length + 3
  omega

/-- What is read without empty heredocs is read when fewer terms are refused. -/
theorem readWithout_of_weaker (read : readWithout Form.isEmptyHeredoc inner = .ok e) :
    ∃ e', readWithout refused inner = .ok e' ∧ e'.unplaced = e.unplaced := by
  obtain ⟨next, taken, _, whole⟩ := read_of_readWithout read
  have deep : 2 * (inner.toList.length + 1) ≤ depthOf inner.toList := by
    rw [depthOf]
    omega
  have reads := (reads_expr_of_alone weaker deep deep taken whole closes_nil).2
  refine readWithout_of_reads ?_
  rwa [show (Cursor.ofText inner.toList).rest ++ [] = inner.toList from List.append_nil _] at reads

end Alone

/-- What is read without empty heredocs is what the text consists of. -/
theorem readExpr_of_readWithout (read : readWithout Form.isEmptyHeredoc inner = .ok e) :
    ∃ e', readExpr inner = .ok e' ∧ e'.unplaced = e.unplaced := by
  rw [← readWithout_false]
  exact readWithout_of_weaker nofun read

/-! ## Runs of text -/

/-- The runs of text are read where the text stands in front of another end. -/
theorem exists_repeats_quotedText (repeats : Repeats quotedText c runs next)
    (views : c.Views window close) (ended : next.rest = close) (goesOn : '"' ∈ close)
    (apart : IsApart window close) (apart' : IsApart window close') (ends : EndsText close)
    (ends' : EndsText close') (undone : IsUndone quotedText close')
    (views' : c'.Views window close') :
    ∃ next', Repeats quotedText c' runs next' ∧ next'.rest = close' := by
  -- The induction is on the runs: each takes a front of the window in both texts.
  induction repeats generalizing window c' with
  | nil =>
    obtain rfl : window = [] := by
      have same : window ++ close = [] ++ close := views.symm.trans ended
      exact List.append_cancel_right same
    obtain ⟨complaint, failed⟩ := undone.at views'
    exact ⟨c', .nil failed, views'⟩
  | @cons c between next run runs read less more ih =>
    obtain ⟨value, rfl, some, whole⟩ := quotedRest_of_quotedText read
    have inside : close.length ≤ between.rest.length :=
      ended ▸ (more.leadsTo fun _ => advances_quotedText).length_le
    have quote : '"' ∈ between.rest := by
      obtain ⟨others, passes⟩ := more.leadsTo fun _ => advances_quotedText
      rw [passes.1, ended]
      exact List.mem_append_right _ goesOn
    obtain ⟨same, front, passes, passes'⟩ := quotedRest_window (Nat.le_refl _)
      (Nat.le_refl c'.rest.length) views views' apart apart' (fun _ _ _ _ _ => ⟨ends, ends'⟩)
      (by rw [whole]; exact inside) (by rw [whole]; exact goesOn_of_quote_mem quote)
    rw [whole] at same passes
    obtain ⟨rest, below, rfl⟩ := views.exists_rest passes inside
    have again : quotedText c' = .read (String.ofList value) (quotedRest c'.rest c').2 :=
      quotedText_of_quotedRest some (Prod.ext same rfl)
    obtain ⟨last, repeats, ended'⟩ :=
      ih below ended apart.of_append apart'.of_append (passes'.views views')
    exact ⟨last, .cons again (takesSome_quotedText again) repeats, ended'⟩

/-- In front of a quote the text is read as the runs, wherever it stands and whatever stands behind
the quote. -/
def ReadsRuns (body : List Char) (runs : List String) : Prop :=
  ∀ rest offset, ∃ next, Repeats quotedText ⟨body ++ '"' :: rest, offset⟩ runs ⟨'"' :: rest, next⟩

theorem isApart_quote (body rest : List Char) : IsApart body ('"' :: rest) :=
  isApart_of_head (forall_mem_head?_cons (by decide) _) (fun x _ => by
    rw [doubledMarker?_cons_eq_none rfl]) (forall_mem_head?_cons (by decide) _)

/-- A dollar sign would double the marker behind it, and nothing else would. -/
theorem isApart_marker (plain : body.getLast? ≠ some '$') (rest : List Char) :
    IsApart body ('$' :: '\x7b' :: rest) := by
  refine isApart_of_head (forall_mem_head?_cons (by decide) _) (fun x last => ?_)
    (forall_mem_head?_cons (by decide) _)
  rw [Option.eq_none_iff_forall_ne_some]
  intro marker doubled
  obtain ⟨sign, more, same, _⟩ := doubledMarker?_eq_some doubled
  obtain ⟨rfl, rest⟩ := List.cons.inj same
  obtain ⟨rfl, _⟩ := List.cons.inj rest
  exact plain last

/-- What is read in front of one quote is read in front of every other. -/
theorem readsRuns_of_repeats (repeats : Repeats quotedText c runs next)
    (views : c.Views body ('"' :: rest)) (ended : next.rest = '"' :: rest) :
    ReadsRuns body runs := by
  intro rest' offset
  obtain ⟨⟨_, place⟩, again, rfl⟩ := exists_repeats_quotedText repeats views ended
    List.mem_cons_self (isApart_quote _ _) (isApart_quote _ rest') (endsText_quote _)
    (endsText_quote _) (isUndone_quotedText_quote _)
    (show Cursor.Views body ('"' :: rest') ⟨body ++ _, offset⟩ from rfl)
  exact ⟨place, again⟩

/-- The runs of a literal are read in front of a marker. -/
theorem ReadsRuns.reads_marker (reads : ReadsRuns body runs) (plain : body.getLast? ≠ some '$')
    (rest : List Char) (offset : Nat) :
    ∃ next, Repeats quotedText ⟨body ++ '$' :: '\x7b' :: rest, offset⟩ runs
      ⟨'$' :: '\x7b' :: rest, next⟩ := by
  obtain ⟨_, repeats⟩ := reads [] 0
  obtain ⟨⟨_, place⟩, again, rfl⟩ := exists_repeats_quotedText repeats rfl rfl List.mem_cons_self
    (isApart_quote _ _) (isApart_marker plain rest) (endsText_quote _)
    (endsText_of_startsMarker rfl) (isUndone_quotedText_of_marker rfl)
    (show Cursor.Views body ('$' :: '\x7b' :: rest) ⟨body ++ _, offset⟩ from rfl)
  exact ⟨place, again⟩

/-! ## Parts of templates -/

theorem templatePart_of_quotedText {run : String} (read : quotedText c = .read run next) :
    templatePart level .quoted c = .read (.literal run) next := by
  have text : (do return .literal (← templateText .quoted) : Parser Part) c =
      .read (.literal run) next := bind_eq_read_iff.mpr ⟨run, next, read, rfl⟩
  rw [templatePart, Parser.choice, text]

/-- Runs of text are parts of a template, in front of other parts. -/
theorem repeats_templatePart (repeats : Repeats quotedText c runs c')
    (more : Repeats (templatePart level .quoted) c' parts next) :
    Repeats (templatePart level .quoted) c (runs.map .literal ++ parts) next := by
  induction repeats with
  | nil => exact more
  | cons read less _ ih => exact .cons (templatePart_of_quotedText read) less (ih more)

theorem repeats_templatePart_of_isUndone (repeats : Repeats quotedText c runs next)
    (undone : IsUndone (templatePart level .quoted) next.rest) :
    Repeats (templatePart level .quoted) c (runs.map .literal) next := by
  obtain ⟨complaint, failed⟩ := undone.at rfl
  rw [← List.append_nil (runs.map Part.literal)]
  exact repeats_templatePart repeats (.nil failed)

/-- A part that is text is read as text. -/
theorem quotedText_of_templatePart {run : String}
    (read : templatePart level .quoted c = .read (.literal run) next) :
    quotedText c = .read run next := by
  have marker : Answers (interpolation level) (· ≠ .literal run) :=
    .last fun _ => .last fun _ => .last fun _ => .last fun _ => .last fun _ => answers_pure nofun
  have branch (left : Bool) : Answers (branchPart level .quoted left) (· ≠ .literal run) :=
    .last fun _ => .last fun _ => .last fun _ => .last fun _ => .last fun _ => .last fun _ =>
      .last fun _ => answers_pure nofun
  have loop (left : Bool) : Answers (loopPart level .quoted left) (· ≠ .literal run) :=
    .last fun _ => .last fun _ => .last fun _ => .last fun _ => .last fun _ => .last fun _ =>
      .last fun _ => .last fun _ => .last fun _ => answers_pure nofun
  rcases choice_eq_read_iff.mp read with read | ⟨_, read⟩
  · obtain ⟨_, _, taken, made⟩ := bind_eq_read_iff.mp read
    obtain ⟨same, rfl⟩ := Outcome.read.inj made
    obtain rfl := Part.literal.inj same
    exact taken
  · exact absurd rfl (marker.choice (.last fun left => (branch left).choice (loop left)) read)

/-- Parts that are text up to a quote are runs of text. -/
theorem repeats_quotedText (repeats : Repeats (templatePart level .quoted) c parts next)
    (same : parts = runs.map .literal) (ended : next.rest = '"' :: rest) :
    Repeats quotedText c runs next := by
  induction repeats generalizing runs with
  | nil =>
    obtain rfl := List.map_eq_nil_iff.mp same.symm
    obtain ⟨complaint, failed⟩ := (isUndone_quotedText_quote rest).at ended
    exact .nil failed
  | cons read less _ ih =>
    obtain ⟨run, more, rfl, rfl, rfl⟩ := List.map_eq_cons_iff.mp same.symm
    exact .cons (quotedText_of_templatePart read) less (ih rfl ended)

/-! ## Templates -/

/-- What stands between the quotes of a template, and the parts that it is read as: runs of text,
and between markers expressions that can be read alone. -/
inductive Spells : List Char → List Part → Prop
  | text {body : List Char} {runs : List String} (reads : ReadsRuns body runs) :
      Spells body (runs.map .literal)
  | interpolation {body more : List Char} {runs : List String} {inner : String} {e : Expr}
      {parts : List Part} (reads : ReadsRuns body runs) (plain : body.getLast? ≠ some '$')
      (alone : readWithout Form.isEmptyHeredoc inner = .ok e) (onward : Spells more parts) :
      Spells (body ++ '$' :: '\x7b' :: (inner.toList ++ '\x7d' :: more))
        (runs.map .literal ++ .interpolation ⟨false, false⟩ e :: parts)

section Spells

variable (weaker : ∀ form, refused form = true → form.isEmptyHeredoc = true)
include weaker

/-- The parts of a template are read one after the other, up to its closing quote. -/
theorem Spells.repeats (spells : Spells body parts) (deep : 2 * body.length ≤ depth)
    (rest : List Char) (offset : Nat) :
    ∃ parts' next, Repeats (templatePart (levelWithout refused depth) .quoted)
      ⟨body ++ '"' :: rest, offset⟩ parts' ⟨'"' :: rest, next⟩ ∧
        parts'.map Part.unplaced = parts.map Part.unplaced := by
  induction spells generalizing offset with
  | text reads =>
    obtain ⟨next, repeats⟩ := reads rest offset
    exact ⟨_, next, repeats_templatePart_of_isUndone repeats (isUndone_templatePart_quote _ _), rfl⟩
  | @interpolation body more runs inner e parts reads plain alone _ ih =>
    simp only [List.length_append, List.length_cons] at deep
    obtain ⟨start, before⟩ :=
      reads.reads_marker plain (inner.toList ++ '\x7d' :: (more ++ '"' :: rest)) offset
    have enough : 2 * (inner.toList.length + 1) ≤ depth := by omega
    obtain ⟨starts, bracket⟩ := reads_bracket_of_readWithout weaker alone enough
      (closes_cons (x := '\x7d') (by decide) (more ++ '"' :: rest))
    -- The marker would take a blank or a tilde behind it, but a term starts with neither.
    have solid : ∀ x ∈ (inner.toList ++ '\x7d' :: (more ++ '"' :: rest)).head?,
        startsBlank x = false ∧ x ≠ '~' := by
      obtain ⟨x, others, same, kind⟩ := starts
      rw [same]
      refine forall_mem_head?_cons ⟨startsBlank_of_startsTerm kind, ?_⟩ _
      rintro rfl
      exact absurd kind (by decide)
    obtain ⟨_, middle, read, e', rfl, same⟩ := reads_templatePart solid bracket start
    obtain ⟨parts', next, after, sames⟩ := ih (by omega) middle
    refine ⟨runs.map .literal ++ .interpolation ⟨false, false⟩ e' :: parts', next, ?_, ?_⟩
    · simp only [List.append_assoc, List.cons_append]
      refine repeats_templatePart before (.cons read ?_ after)
      simp only [List.length_append, List.length_cons]
      omega
    · simp only [List.map_append, List.map_cons, Part.unplaced, same, sames]

omit weaker in
/-- Behind the first run of text comes another one, or the marker, but no quote. -/
theorem exists_optional_quotedText (repeats : Repeats quotedText c runs next)
    (ended : next.rest = '$' :: '\x7b' :: rest) :
    ∃ text middle, Parser.optional quotedText c = .read text middle ∧
      ∀ x ∈ middle.rest.head?, x ≠ '"' := by
  have noQuote {c : Cursor} {runs : List String} (repeats : Repeats quotedText c runs next) :
      ∀ x ∈ c.rest.head?, x ≠ '"' := by
    cases repeats with
    | nil =>
      rw [ended]
      exact forall_mem_head?_cons (by decide) _
    | cons read _ _ =>
      rintro _ head rfl
      obtain ⟨more, same⟩ := List.head?_eq_some_iff.mp head
      obtain ⟨_, undone⟩ := (isUndone_quotedText_quote more).at same
      rw [undone] at read
      cases read
  cases repeats with
  | nil undone => exact ⟨none, c, by rw [Parser.optional, undone], noQuote (.nil undone)⟩
  | cons read _ more => exact ⟨_, _, by rw [Parser.optional, read], noQuote more⟩

omit weaker in
/-- In front of a marker no string ends. -/
theorem isUndone_stringForm (reads : ReadsRuns body runs) (plain : body.getLast? ≠ some '$')
    (rest : List Char) : IsUndone stringForm ('"' :: (body ++ '$' :: '\x7b' :: rest)) := by
  refine (reads_char '"' _).bind_isUndone fun _ _ offset => ?_
  obtain ⟨_, repeats⟩ := reads.reads_marker plain rest offset
  obtain ⟨text, middle, taken, other⟩ := exists_optional_quotedText repeats rfl
  rw [bind_apply, taken]
  exact ((isUndone_char other).bind _).at rfl

/-- A template with an expression in it is read as its parts. -/
theorem Spells.reads_quotedForm (spells : Spells body parts)
    (inserted : ∃ trim e, .interpolation trim e ∈ parts) (deep : 2 * body.length ≤ depth)
    (rest : List Char) :
    Reads (quotedForm (levelWithout refused (depth + 1))) ('"' :: (body ++ '"' :: rest))
      (·.unplaced = (Form.template parts).unplaced) rest := by
  -- A string is tried first, and it fails at the first marker.
  have noString : IsUndone stringForm ('"' :: (body ++ '"' :: rest)) := by
    cases spells with
    | text =>
      obtain ⟨trim, e, member⟩ := inserted
      obtain ⟨_, _, same⟩ := List.mem_map.mp member
      cases same
    | interpolation reads plain =>
      simp only [List.append_assoc, List.cons_append]
      exact isUndone_stringForm reads plain _
  refine Reads.choice_right noString ((reads_char '"' _).bind fun _ _ => ?_)
  have inside : Reads (many (templatePart (levelWithout refused depth) .quoted))
      (body ++ '"' :: rest) (fun parts' => parts'.map Part.unplaced = parts.map Part.unplaced)
      ('"' :: rest) := by
    intro offset
    obtain ⟨parts', next, repeats, same⟩ := spells.repeats weaker deep rest offset
    exact ⟨parts', next, repeats.many, same⟩
  refine inside.bind fun parts' same => (reads_char '"' rest).bind fun _ _ => ?_
  refine (reads_pure _ rest).imp ?_
  rintro _ rfl
  simp only [Form.unplaced, partsUnplaced_eq_map, same]

end Spells

/-! ## Whole texts -/

theorem reads_refusing {α : Type} {p : Parser α} {refused : α → Bool} {holds : α → Prop}
    (reads : Reads p text holds rest) (allowed : ∀ a, holds a → refused a = false) :
    Reads (refusing refused p) text holds rest := by
  intro offset
  obtain ⟨a, next, read, property⟩ := reads offset
  exact ⟨a, next, refusing_eq_read_iff.mpr ⟨read, allowed a property⟩, property⟩

/-- The text as it stands between quotes. -/
def quoted (body : String) : String := "\"" ++ body ++ "\""

theorem toList_quoted (body : String) : (quoted body).toList = '"' :: (body.toList ++ ['"']) := by
  simp [quoted]

section Alone

variable (weaker : ∀ form, refused form = true → form.isEmptyHeredoc = true)
include weaker

/-- A term that nothing follows is the whole text, if it is no empty heredoc. -/
theorem readWithout_of_termAt {text : String} {form : Form} (filled : form.isEmptyHeredoc = false)
    (term : Reads (termAt (levelWithout refused (3 * text.toList.length + 1)) .line) text.toList
      (·.1.form.unplaced = form.unplaced) []) :
    ∃ e, readWithout refused text = .ok e ∧ e.form.unplaced = form.unplaced := by
  have allowed (other : Form) (same : other.unplaced = form.unplaced) : refused other = false := by
    refine Bool.eq_false_iff.mpr fun taken => ?_
    have empty := weaker other taken
    rw [← isEmptyHeredoc_unplaced, same, isEmptyHeredoc_unplaced, filled] at empty
    cases empty
  refine readWithout_of_reads (reads_exprAt (levelWithout refused (3 * text.toList.length + 2))
    (reads_refusing term fun a property => allowed _ property) fun first a same => ?_)
  refine (reads_extend_of_ends _ first _ ' ' [] a.2 a.1 endsReference_nil).imp ?_
  rintro _ rfl
  exact same

/-- A template with an expression in it is read as its parts. -/
theorem Spells.exists_readWithout {body : String} (spells : Spells body.toList parts)
    (inserted : ∃ trim e, .interpolation trim e ∈ parts) :
    ∃ e, readWithout refused (quoted body) = .ok e ∧
      e.form.unplaced = (Form.template parts).unplaced := by
  have enough : 2 * body.toList.length ≤ 3 * (quoted body).toList.length := by
    rw [toList_quoted]
    simp only [List.length_cons, List.length_append]
    omega
  have form := spells.reads_quotedForm weaker inserted enough []
  have term := reads_termAt_quote .line _ form
  rw [← toList_quoted] at term
  exact readWithout_of_termAt weaker rfl (term.imp fun _ => And.left)

/-- An expression in parentheses is read as it is read alone. -/
theorem exists_readWithout_parens (read : readWithout Form.isEmptyHeredoc inner = .ok e) :
    ∃ e', readWithout refused ("(" ++ inner ++ ")") = .ok e' ∧
      e'.form.unplaced = (Form.parens e).unplaced := by
  have text : ("(" ++ inner ++ ")").toList = '(' :: (inner.toList ++ [')']) := by simp
  obtain ⟨depth, whole⟩ : ∃ depth, 3 * ("(" ++ inner ++ ")").toList.length + 1 = depth := ⟨_, rfl⟩
  have enough : 2 * (inner.toList.length + 1) ≤ depth := by
    rw [text, List.length_cons, List.length_append] at whole
    omega
  obtain ⟨starts, bracket⟩ := reads_bracket_of_readWithout weaker read enough
    (closes_cons (x := ')') (by decide) [])
  have solid : ∀ x ∈ (inner.toList ++ [')']).head?, startsBlank x = false := by
    obtain ⟨x, others, same, kind⟩ := starts
    rw [same]
    exact forall_mem_head?_cons (startsBlank_of_startsTerm kind) _
  have form : Reads (parensForm (levelWithout refused depth)) ('(' :: (inner.toList ++ [')']))
      (·.unplaced = (Form.parens e).unplaced) [] := by
    refine (reads_char '(' _).bind fun _ _ => (reads_skip true solid).bind fun _ _ =>
      bracket.bind fun inside same =>
        (reads_skip true (forall_mem_head?_cons (by decide) _)).bind fun _ _ =>
          (reads_demandWord ")" []).bind fun _ _ => (reads_pure _ []).imp ?_
    rintro _ rfl
    rw [Form.unplaced, Form.unplaced, same]
  have term : Reads (termAt (levelWithout refused depth) .line) ('(' :: (inner.toList ++ [')']))
      (fun a => a.1.form.unplaced = (Form.parens e).unplaced ∧ a.2 = .line) [] :=
    fun offset => reads_markedWith (reads_plain form .line) offset
  rw [← text, ← whole] at term
  exact readWithout_of_termAt weaker rfl (term.imp fun _ => And.left)

end Alone

/-! ## Literals -/

/-- Text between quotes that nothing is inserted into. -/
inductive IsText : Form → List String → Prop
  | string (runs : List String) : IsText (.string (String.join runs)) runs
  | template (runs : List String) : IsText (.template (runs.map .literal)) runs

theorem ReadsQuoted.readsRuns {value : List Char} (reads : ReadsQuoted body value)
    (empty : value = [] → body = []) :
    ∃ runs, ReadsRuns body runs ∧ String.ofList value = String.join runs := by
  cases value with
  | nil =>
    refine ⟨[], fun rest offset => ⟨offset, ?_⟩, rfl⟩
    rw [empty rfl]
    exact .nil (isUndone_quotedText_quote rest offset).choose_spec
  | cons x value =>
    refine ⟨[String.ofList (x :: value)], fun rest offset => ?_, by simp [String.join]⟩
    obtain ⟨_, next, read, rfl⟩ := reads.reads_quotedText (List.cons_ne_nil x value) rest offset
    exact ⟨next, .cons read (takesSome_quotedText read)
      (.nil (isUndone_quotedText_quote rest next).choose_spec)⟩

/-- What is read between quotes is read in runs of text, if nothing is inserted into it. -/
theorem exists_readsRuns_of_quotedForm {form : Form} {runs : List String}
    (read : quotedForm (levelOf (depth + 1)) c = .read form next)
    (whole : c.rest = '"' :: (body ++ ['"'])) (ended : next.rest = []) (text : IsText form runs) :
    ∃ runs, ReadsRuns body runs ∧ IsText form runs := by
  rcases choice_eq_read_iff.mp read with read | ⟨_, read⟩
  · obtain ⟨body', value, passes, rfl, reads, empty⟩ := readsQuoted_of_stringForm read
    obtain rfl : body = body' := by
      have same := whole.symm.trans passes.1
      simpa [ended] using same
    obtain ⟨runs, reads, same⟩ := reads.readsRuns empty
    exact ⟨runs, reads, same ▸ .string runs⟩
  · obtain ⟨_, start, opening, more⟩ := bind_eq_read_iff.mp read
    obtain ⟨parts, last, taken, more⟩ := bind_eq_read_iff.mp more
    obtain ⟨_, _, closing, made⟩ := bind_eq_read_iff.mp more
    obtain ⟨rfl, rfl⟩ := Outcome.read.inj made
    cases text with
    | template =>
      have repeats := repeats_of_many (takesSome_templatePart (fun text =>
        isSound_levelOf (isAcquired_isIn text) depth) .quoted) (isUndone_templatePart_nil _ _) taken
      have behind : last.rest = ['"'] := by rw [(passes_char closing).1, ended]; rfl
      refine ⟨runs, readsRuns_of_repeats (repeats_quotedText repeats rfl behind) ?_ behind,
        .template runs⟩
      exact List.cons.inj ((passes_char opening).1.symm.trans whole) |>.2

/-- Behind a quote a term is what stands between quotes. -/
theorem quotedForm_of_termAt {a : Expr × Setting} {offset : Nat}
    (read : termAt level setting ⟨'"' :: rest, offset⟩ = .read a next) :
    quotedForm level ⟨'"' :: rest, offset⟩ = .read a.1.form next := by
  rw [termAt_of_readsTerm .quoted] at read
  obtain ⟨form, _, taken, made⟩ := bind_eq_read_iff.mp (read_of_markedWith read)
  obtain ⟨same, rfl⟩ := Outcome.read.inj made
  rw [taken, ← (Prod.mk.inj same).1]

/-- A text between quotes that nothing is inserted into is read in runs of text. -/
theorem exists_readsRuns {body : String} {runs : List String}
    (read : readExpr (quoted body) = .ok e) (text : IsText e.form runs) :
    ∃ runs, ReadsRuns body.toList runs ∧ IsText e.form runs := by
  obtain ⟨last, taken, ended⟩ := read_of_readAll read
  obtain ⟨⟨_, after⟩, next, term, extended⟩ := bind_eq_read_iff.mp taken
  obtain ⟨rfl, rfl⟩ | grown := (grows_of_extend extended).isGrown
  · rw [Cursor.ofText, toList_quoted] at term
    exact exists_readsRuns_of_quotedForm (quotedForm_of_termAt term) rfl ended text
  · generalize e.form = form at text grown
    cases text with
    | string => cases grown
    | template => cases grown

end Grammar

end HclLint.Hcl
