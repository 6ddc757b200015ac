/-
# Terms between signs of their own

Lists, objects, templates and expressions in parentheses stand between an opening and a closing
sign, and line breaks between the signs are blanks wherever the term stands. What stands there is
read up to the closing sign, whatever follows it. So such a term is read again in every text where
it is written, in the same way but for places. An empty heredoc in it is an exception: that it is
empty may be told only behind the term.

## Main definitions

* `Frame.before`: two texts behind a window that go on with the same closing sign.

## Main statements

* `reads_enclosed`: what is read between two signs is read between them in every other text.
* `reads_termAt_of_opener`: so is a term between signs of its own.
* `exists_readWithout_of_opener`: so an expression between such signs is read alone.
* `exists_readExpr_of_opener`: in a text without heredocs, whatever the expression holds.
-/

import HclLint.Proofs.Hcl.Composition
import HclLint.Proofs.Hcl.Congruence
import HclLint.Proofs.Hcl.Ends

namespace HclLint.Hcl

open HclLint.Text

/-- Two texts behind a window that go on with the same closing sign. -/
def Frame.before {sign : Char} (closer : sign ∈ closers) (rest rest' : List Char) : Frame where
  left := sign :: rest
  right := sign :: rest'
  closesLeft := closes_cons closer rest
  closesRight := closes_cons closer rest'
  sameSign _ := rfl

/-- The sign that closes what the given one opens. -/
def closerOf : Char → Char
  | '[' => ']'
  | '\x7b' => '\x7d'
  | '(' => ')'
  | sign => sign

/-- The signs that open something, apart from the one of heredocs. -/
theorem sign_of_opener {form : Form} {x : Char} (opens : form.opener? = some x) (other : x ≠ '<') :
    x = '"' ∨ x = '[' ∨ x = '\x7b' ∨ x = '(' := by
  cases form with
  | heredoc => exact absurd (Option.some.inj opens).symm other
  | template | list | listFor | object | objectFor | parens =>
    obtain rfl := Option.some.inj opens
    simp
  | _ => cases opens

/-- What stands between signs of its own is no operation. -/
theorem isGrown_of_opener {form : Form} {x : Char} (opens : form.opener? = some x) :
    form.isGrown = false := by
  cases form <;> first | rfl | cases opens

namespace Grammar

open HclLint.Hcl.Parser

variable {α β σ : Type} {p p' : Parser α} {a : α} {gist : α → β} {starts : List Char → Prop}
  {x y : Char} {opening : Parser σ} {closing : Parser Unit} {bound depth depth' : Nat}
  {level level' : Level} {refused : Form → Bool} {setting setting' : Setting}
  {text rest' : List Char} {c start last next : Cursor} {e : Expr} {form : Form}

/-! ## Between two signs -/

theorem meets_before (closer : y ∈ closers) (rest rest' : List Char) :
    Meets (.before closer rest rest') y [] := by
  rintro _ (_ | _)
  · rfl
  · rfl

/-- What is read up to a closing sign is read up to it in every other text. -/
theorem reads_before (closer : y ∈ closers)
    (tracks : Tracks (.before closer next.rest rest') bound gist
      (Meets (.before closer next.rest rest') y) starts p p')
    (read : p start = .read a last) (passes : start.Passes text last)
    (closing : last.Passes [y] next) (short : text.length < bound) :
    Reads p' (text ++ y :: rest') (gist · = gist a) (y :: rest') := by
  have views : last.Views [] (y :: next.rest) := closing.1
  have fewer : (text ++ []).length < bound := by rwa [List.append_nil]
  obtain ⟨_, again⟩ := tracks.follows passes views fewer (meets_before closer _ _) read
  intro offset
  have here : Cursor.Views (text ++ []) (y :: rest') ⟨text ++ y :: rest', offset⟩ := by
    rw [List.append_nil]
    rfl
  obtain ⟨a', ⟨_, place⟩, read', passes', same⟩ := again here
  obtain rfl : _ = y :: rest' := passes'.views here
  exact ⟨a', place, read', same⟩

/-- What is read between two signs is read between them in every other text. -/
theorem reads_enclosed (closer : y ∈ closers) (opens : IsSign x opening) (closes : IsSign y closing)
    (tracks : ∀ k, Tracks k bound gist (Meets k y) (Skips k) p p')
    (read : enclosed opening p closing c = .read a next) (passes : c.Passes text next)
    (short : text.length ≤ bound + 1) (rest' : List Char) :
    ∃ body, text = x :: (body ++ [y]) ∧
      Reads (enclosed opening p' closing) (text ++ rest') (gist · = gist a) rest' := by
  obtain ⟨_, start, opened, more⟩ := bind_eq_read_iff.mp read
  obtain ⟨_, last, inside, more⟩ := bind_eq_read_iff.mp more
  obtain ⟨_, next, closed, made⟩ := bind_eq_read_iff.mp more
  obtain ⟨rfl, rfl⟩ := Outcome.read.inj made
  have closed := closes.passes closed
  have tracks := tracks (.before closer next.rest rest')
  obtain ⟨body, forward⟩ := leadsTo_of_advances tracks.advances inside
  obtain rfl : text = x :: (body ++ [y]) :=
    passes.eq ((opens.passes opened).trans (forward.trans closed))
  have fewer : body.length < bound := by
    rw [List.length_cons, List.length_append, List.length_singleton] at short
    omega
  have again := reads_before closer tracks inside forward closed fewer
  refine ⟨body, rfl, ?_⟩
  rw [List.cons_append, List.append_assoc]
  refine (opens.reads _).bind fun _ _ => again.bind fun a' same =>
    (closes.reads rest').bind fun _ _ => (reads_pure a' rest').imp ?_
  rintro _ rfl
  exact same

/-! ## Terms -/

/-- Settings that agree on conditionals differ only in line breaks. -/
theorem withBreaks_eq (alike : setting'.conditionals = setting.conditionals) :
    setting'.withBreaks = setting.withBreaks := by
  rw [Setting.withBreaks, Setting.withBreaks, alike]

section Terms

variable (agrees : ∀ k, level.Agrees k bound level')
include agrees

/-- A template is read again as its parts, and by its first marker it is no string. -/
theorem reads_quotedForm_of_template (read : quotedForm level c = .read form next)
    (opens : form.opener? = some '"') (passes : c.Passes text next)
    (short : text.length ≤ bound + 1) (rest' : List Char) :
    ∃ body, text = '"' :: (body ++ ['"']) ∧
      Reads (quotedForm level') (text ++ rest') (·.unplaced = form.unplaced) rest' := by
  have string : Answers stringForm (·.opener? = none) :=
    .last fun _ => .last fun _ => .last fun _ => answers_pure rfl
  rcases choice_eq_read_iff.mp read with taken | ⟨⟨_, undone⟩, template⟩
  · rw [string taken] at opens
    cases opens
  have closer : '"' ∈ closers := by decide
  have agrees := agrees (.before closer next.rest rest')
  obtain ⟨start, last, parts, opening, closing, inside, rfl, starts⟩ :=
    agrees.exists_parts undone template
  obtain ⟨body, forward⟩ := leadsTo_of_advances (tracks_quotedParts agrees).advances inside
  obtain rfl : text = '"' :: (body ++ ['"']) :=
    passes.eq (opening.trans (forward.trans closing))
  have fewer : body.length < bound := by
    rw [List.length_cons, List.length_append, List.length_singleton] at short
    omega
  have again := reads_before closer (tracks_quotedParts agrees) inside forward closing fewer
  have here : start.Views body (Frame.before closer next.rest rest').left :=
    forward.1.trans (congrArg (body ++ ·) closing.1)
  have noString := starts.isUndone_stringForm here
    (Nat.le_of_eq (congrArg List.length closing.1).symm)
  refine ⟨body, rfl, ?_⟩
  rw [List.cons_append, List.append_assoc]
  refine Reads.choice_right noString ((reads_char '"' _).bind fun _ _ =>
    again.bind fun parts' same => (reads_char '"' rest').bind fun _ _ =>
      (reads_pure _ rest').imp ?_)
  rintro _ rfl
  simp only [Form.unplaced, partsUnplaced_eq_map, same]

/-- What stands between braces is read alike, be line breaks blanks around it or not. -/
theorem tracks_objectInside_alike (alike : setting'.conditionals = setting.conditionals)
    (k : Frame) : Tracks k bound (fun a => (a.1.unplaced, a.2.conditionals)) (Meets k '\x7d')
      (Skips k) (objectInside level setting) (objectInside level' setting') := by
  have paired {p p' : Parser Form} {before after : Setting}
      (alike : after.conditionals = before.conditionals)
      (tracks : Tracks k bound Form.unplaced (Meets k '\x7d') (Skips k) p p') :
      Tracks k bound (fun a => (a.1.unplaced, a.2.conditionals)) (Meets k '\x7d') (Skips k)
        (do return (← p, before)) (do return (← p', after)) :=
    tracks.bind fun _ _ same => tracks_pure (Prod.ext same alike)
  unfold objectInside
  rw [withBreaks_eq alike]
  exact (paired rfl (tracks_objectForForm (agrees k) setting.withBreaks)).either
    (paired alike (tracks_objectItemsForm (agrees k))) startsFor
      fun _ _ _ views views' skips => startsFor_window views views' skips.ends

/-- A term with signs of its own is read with what its first sign opens, in every other text. -/
theorem exists_reads_of_opener {a : Expr × Setting} (wide : setting.withBreaks = .bracket)
    (read : termAt level setting c = .read a next) (opens : a.1.form.opener? = some x)
    (other : x ≠ '<') (passes : c.Passes text next) (short : text.length ≤ bound + 1)
    (rest' : List Char) :
    ∃ body p', text = x :: (body ++ [closerOf x]) ∧ ReadsTerm level' .line x p' ∧
      Reads p' (text ++ rest') (·.1.unplaced = a.1.form.unplaced) rest' := by
  obtain rfl | rfl | rfl | rfl := sign_of_opener opens other
  · obtain ⟨form, _, taken, made⟩ := bind_eq_read_iff.mp (read_of_opener .quoted read opens)
    obtain ⟨same, rfl⟩ := Outcome.read.inj made
    obtain rfl := (Prod.mk.inj same).1
    obtain ⟨body, whole, again⟩ :=
      reads_quotedForm_of_template agrees taken opens passes short rest'
    exact ⟨body, _, whole, .quoted, again.map fun _ same => same⟩
  · obtain ⟨form, _, taken, made⟩ := bind_eq_read_iff.mp (read_of_opener .list read opens)
    obtain ⟨same, rfl⟩ := Outcome.read.inj made
    obtain rfl := (Prod.mk.inj same).1
    rw [wide] at taken
    obtain ⟨body, whole, again⟩ := reads_enclosed (by decide) (isSign_char _)
      (isSign_demandWord rfl) (fun k => tracks_listInside (agrees k) .bracket) taken passes short
      rest'
    exact ⟨body, _, whole, .list, Reads.map again fun _ same => same⟩
  · have wider := congrArg Setting.conditionals wide
    have alike : Setting.line.conditionals = setting.conditionals := wider.symm
    obtain ⟨body, whole, again⟩ := reads_enclosed (by decide) (isSign_char _)
      (isSign_demandWord rfl) (tracks_objectInside_alike agrees alike)
      (read_of_opener .object read opens) passes short rest'
    exact ⟨body, _, whole, .object, again.imp fun _ same => congrArg Prod.fst same⟩
  · obtain ⟨form, _, taken, made⟩ := bind_eq_read_iff.mp (read_of_opener .parens read opens)
    obtain ⟨same, rfl⟩ := Outcome.read.inj made
    rw [parensForm_eq] at taken
    obtain ⟨inner, _, inside, made⟩ := bind_eq_read_iff.mp taken
    obtain ⟨rfl, rfl⟩ := Outcome.read.inj made
    obtain ⟨body, whole, again⟩ := reads_enclosed (by decide) (isSign_char _)
      (isSign_demandWord rfl) (fun k => tracks_parensInside (agrees k)) inside passes short rest'
    refine ⟨body, _, whole, .parens, ?_⟩
    rw [parensForm_eq, ← (Prod.mk.inj same).1]
    refine (again.map fun inner' same => ?_).map fun _ same => same
    rw [Form.unplaced, Form.unplaced, same]

/-- A term with signs of its own is read again in every text where it is written. -/
theorem reads_termAt_of_opener {a : Expr × Setting} (wide : setting.withBreaks = .bracket)
    (read : termAt level setting c = .read a next) (opens : a.1.form.opener? = some x)
    (other : x ≠ '<') (passes : c.Passes text next) (short : text.length ≤ bound + 1)
    (rest' : List Char) :
    ∃ body, text = x :: (body ++ [closerOf x]) ∧
      Reads (termAt level' .line) (text ++ rest') (·.1.form.unplaced = a.1.form.unplaced)
        rest' := by
  obtain ⟨body, p', rfl, reads, again⟩ :=
    exists_reads_of_opener agrees wide read opens other passes short rest'
  exact ⟨body, rfl, reads_termAt_of_readsTerm reads again⟩

end Terms

/-! ## Expressions -/

/-- A term that nothing was added to is read up to where the expression ends. -/
theorem term_of_expr
    (read : (levelWithout refused (depth + 2)).expr setting c = .read e next)
    (plain : e.form.isGrown = false) :
    ∃ after, termAt (levelWithout refused depth) setting c = .read (e, after) next := by
  obtain ⟨⟨first, after⟩, middle, term, grows⟩ := bind_eq_read_iff.mp read
  obtain ⟨rfl, rfl⟩ | grown := (grows_of_extend grows).isGrown
  · exact ⟨after, (refusing_eq_read_iff.mp term).1⟩
  · cases plain.symm.trans grown

/-- The text of a term is what was passed to read it. -/
theorem passes_text_of_termAt {a : Expr × Setting}
    (sound : ∀ text, level.IsSound text (·.IsIn text))
    (read : termAt level setting c = .read a next) : c.Passes a.1.text.toList next := by
  obtain ⟨front, passes⟩ := leadsTo_of_advances (fun text => advances_termAt (sound text)) read
  rwa [text_of_termAt read, upTo_of_passes passes, String.toList_ofList]

/-- An expression with signs of its own that is read somewhere is read alone, if it holds no empty
heredoc. -/
theorem exists_readWithout_of_opener
    (weaker : ∀ form, refused form = true → form.isEmptyHeredoc = true)
    (wide : setting.withBreaks = .bracket) (deep : 2 * e.text.toList.length ≤ depth)
    (read : (levelWithout Form.isEmptyHeredoc (depth + 2)).expr setting c = .read e next)
    (opens : e.form.opener? = some x) (other : x ≠ '<') :
    ∃ body e', e.text.toList = x :: (body ++ [closerOf x]) ∧
      readWithout refused e.text = .ok e' ∧ e'.form.unplaced = e.form.unplaced := by
  obtain ⟨after, term⟩ := term_of_expr read (isGrown_of_opener opens)
  have passes := passes_text_of_termAt
    (fun text => isSound_levelWithout (isAcquired_isIn text) Form.isEmptyHeredoc depth) term
  have agrees (k : Frame) := agrees_of_weaker k weaker deep
    (show 2 * e.text.toList.length ≤ 3 * e.text.toList.length + 1 by omega)
  obtain ⟨body, whole, again⟩ :=
    reads_termAt_of_opener agrees wide term opens other passes (Nat.le_succ _) []
  rw [List.append_nil] at again
  have filled : e.form.isEmptyHeredoc = false := Bool.eq_false_iff.mpr fun empty =>
    other (Option.some.inj (opens.symm.trans (opener?_of_isEmptyHeredoc empty)))
  exact ⟨body, (readWithout_of_termAt weaker filled again).imp fun _ read => ⟨whole, read⟩⟩

/-- In a text without a doubled `<`, and so without heredocs, every expression with signs of its own
is what its text alone is read as. -/
theorem exists_readExpr_of_opener (lacks : LacksMark c.rest)
    (wide : setting.withBreaks = .bracket) (deep : 2 * (c.rest.length + 1) ≤ depth + 2)
    (read : (levelOf (depth + 2)).expr setting c = .read e next)
    (opens : e.form.opener? = some x) :
    ∃ e', readExpr e.text = .ok e' ∧ e'.form.unplaced = e.form.unplaced := by
  have length := length_text_le read
  -- Where no heredoc starts none is refused.
  rw [← (((agreesOn_levelWithout (depth + 2)).expr setting) lacks).1] at read
  obtain ⟨_, term⟩ := term_of_expr read (isGrown_of_opener opens)
  have other : x ≠ '<' := by
    rintro rfl
    exact opener?_ne_of_lacksMark lacks term opens
  have weaker (form : Form) (taken : false = true) : form.isEmptyHeredoc = true := by cases taken
  obtain ⟨_, e', _, again⟩ := exists_readWithout_of_opener weaker wide (by omega) read opens other
  rw [readWithout_false] at again
  exact ⟨e', again⟩

end Grammar

end HclLint.Hcl
