/-
# Blanks in a window

Whether a blank is skipped may depend on the rest of the text: a comment goes on to its end, and
where there is none it is no comment. Where the blanks in front of a window end in it, or at what
closes it, the same blanks are skipped in both texts of the frame. A window in which they end is one
that reading may go on from, and this is what the readers of expressions ask of what follows them.

They also ask what is announced there. Two characters tell, and so it is the same in both texts
unless the first one ends behind a single character. In the same way a comment that goes to the end
of its line may end with the whole text, and a sign behind the text would be part of the comment.
So where blanks are skipped, something has to follow.

## Main definitions

* `IsSettled`: a window in front of which both texts announce the same.
* `Halts`: a window in which skipping blanks ends, in front of one that is settled.
* `Stops`, `Skips`: what may stand behind blanks that are skipped.

## Main statements

* `blank_cases`: a blank in front of a window is read whatever closes it.
* `tracks_skip`: blanks are skipped alike where they end in the window.
-/

import HclLint.Proofs.Hcl.Window.Tracks

namespace HclLint.Hcl

open HclLint.Text Grammar

namespace Grammar

open HclLint.Hcl.Parser

variable {front window rest text close close' : List Char} {k : Frame} {bound : Nat} {breaks : Bool}
  {c c' next : Cursor} {x : Char} {holds : List Char → Prop}

/-! ## What is announced -/

/-- What is announced behind a name: more names of a call, a call, or nothing. -/
inductive NameSequel where
  | names | call | nothing
  deriving DecidableEq

def nameSequel : List Char → NameSequel
  | ':' :: ':' :: _ => .names
  | '(' :: _ :: _ => .call
  | _ => .nothing

/-- Both texts of the frame announce the same in front of the window. -/
structure IsSettled (k : Frame) (window : List Char) : Prop where
  sequel : sequelOf (window ++ k.right) = sequelOf (window ++ k.left)
  name : nameSequel (window ++ k.right) = nameSequel (window ++ k.left)

/-- Two characters tell what is announced. -/
theorem sequelOf_cons_cons (a b : Char) (rest rest' : List Char) :
    sequelOf (a :: b :: rest') = sequelOf (a :: b :: rest) := by
  rw [sequelOf.eq_def (a :: b :: rest)]
  split
  case h_5 x y more none none' dots eq same =>
    obtain ⟨rfl, rest⟩ := List.cons.inj same
    obtain ⟨rfl, rfl⟩ := List.cons.inj rest
    rw [sequelOf.eq_5 _ _ _ none none' dots eq]
  case h_6 other => exact absurd rfl (other a b rest)
  all_goals
    next same =>
      cases same
      rfl

theorem nameSequel_cons_cons (a b : Char) (rest rest' : List Char) :
    nameSequel (a :: b :: rest') = nameSequel (a :: b :: rest) := by
  simp only [nameSequel]
  split <;> simp_all

/-- Which closing sign stands behind a character does not matter. -/
theorem sequelOf_cons_closer {b b' : Char} (a : Char) (closer : b ∈ closers)
    (closer' : b' ∈ closers) (rest rest' : List Char) :
    sequelOf (a :: b' :: rest') = sequelOf (a :: b :: rest) := by
  have other {b : Char} (closer : b ∈ closers) : b ≠ '/' ∧ b ≠ '*' ∧ b ≠ '.' ∧ b ≠ '=' := by
    have all : ∀ b ∈ closers, b ≠ '/' ∧ b ≠ '*' ∧ b ≠ '.' ∧ b ≠ '=' := by decide
    exact all b closer
  have plain {b : Char} (closer : b ∈ closers) (rest : List Char) := sequelOf.eq_5 a b rest
    (fun _ same => (other closer).1 same) (fun _ same => (other closer).2.1 same)
    (fun _ same => (other closer).2.2.1 same) (fun _ same => (other closer).2.2.2 same)
  rw [plain closer, plain closer']

theorem nameSequel_cons_closer {b b' : Char} (a : Char) (closer : b ∈ closers)
    (closer' : b' ∈ closers) (rest rest' : List Char) :
    nameSequel (a :: b' :: rest') = nameSequel (a :: b :: rest) := by
  have other {b : Char} (closer : b ∈ closers) : b ≠ ':' := by
    have all : ∀ b ∈ closers, b ≠ ':' := by decide
    exact all b closer
  simp only [nameSequel]
  split <;> split <;> simp_all

/-- The character announces nothing, whatever follows it. -/
def announcesNothing (x : Char) : Bool := !".[?!<>+-*/%&|(:=".toList.contains x

/-- A quiet character ends every expression. -/
theorem sequelOf_eq_nothing (quiet : announcesNothing x = true) (rest : List Char) :
    sequelOf (x :: rest) = .nothing := by
  have other : ∀ y ∈ ".[?!<>+-*/%&|(:=".toList, x ≠ y := by
    rintro y member rfl
    simp only [announcesNothing, Bool.not_eq_true', List.contains_eq_mem,
      decide_eq_false_iff_not] at quiet
    exact quiet member
  simp only [String.reduceToList, List.forall_mem_cons] at other
  cases rest with
  | nil =>
    unfold sequelOf
    split <;> simp_all
  | cons y rest =>
    rw [sequelOf.eq_5 x y rest (by simp [other]) (by simp [other]) (by simp [other])
      (by simp [other])]
    simp [other]

theorem nameSequel_eq_nothing (quiet : announcesNothing x = true) (rest : List Char) :
    nameSequel (x :: rest) = .nothing := by
  have colon : x ≠ ':' := by
    rintro rfl
    cases quiet
  have paren : x ≠ '(' := by
    rintro rfl
    cases quiet
  unfold nameSequel
  split <;> simp_all

/-- Where nothing is announced whatever follows, that is settled. -/
theorem isSettled_of_nothing (sequel : ∀ close, sequelOf (window ++ close) = .nothing)
    (name : ∀ close, nameSequel (window ++ close) = .nothing) : IsSettled k window :=
  ⟨(sequel _).trans (sequel _).symm, (name _).trans (name _).symm⟩

theorem isSettled_of_quiet (quiet : announcesNothing x = true) (window : List Char) :
    IsSettled k (x :: window) :=
  isSettled_of_nothing (fun _ => sequelOf_eq_nothing quiet _)
    fun _ => nameSequel_eq_nothing quiet _

/-- Closing signs announce nothing, and neither does the end of the text. -/
theorem isSettled_nil : IsSettled k [] := by
  have nothing {close : List Char} (closes : Closes close) :
      sequelOf ([] ++ close) = .nothing ∧ nameSequel ([] ++ close) = .nothing := by
    cases close with
    | nil => exact ⟨rfl, rfl⟩
    | cons x close =>
      have quiet : announcesNothing x = true :=
        closes.head (by decide : ∀ y ∈ closers, announcesNothing y = true) x rfl
      exact ⟨sequelOf_eq_nothing quiet close, nameSequel_eq_nothing quiet close⟩
  have left := nothing k.closesLeft
  have right := nothing k.closesRight
  exact ⟨right.1.trans left.1.symm, right.2.trans left.2.symm⟩

/-- Where the text goes on behind a character, what is announced is settled. -/
theorem isSettled_cons (x : Char) (goesOn : window ++ k.left ≠ []) :
    IsSettled k (x :: window) := by
  cases window with
  | cons y window => exact ⟨sequelOf_cons_cons x y _ _, nameSequel_cons_cons x y _ _⟩
  | nil =>
    obtain ⟨b, left, here⟩ := List.exists_cons_of_ne_nil goesOn
    obtain ⟨b', right, there⟩ := List.exists_cons_of_ne_nil (k.goesOn goesOn)
    have here : k.left = b :: left := here
    have closer : b ∈ closers := k.closesLeft b (by rw [here]; rfl)
    have closer' : b' ∈ closers := k.closesRight b' (by rw [there]; rfl)
    rw [← List.nil_append (x :: [])]
    refine ⟨?_, ?_⟩
    · simp only [List.nil_append, List.cons_append, here, there]
      exact sequelOf_cons_closer x closer closer' left right
    · simp only [List.nil_append, List.cons_append, here, there]
      exact nameSequel_cons_closer x closer closer' left right

/-! ## Where blanks end -/

/-- Blanks in front of the window end in it, or where it is closed, and a window with the property
is left: they are skipped in both texts of the frame. -/
def EndsBlanks (k : Frame) (holds : List Char → Prop) (window : List Char) : Prop :=
  ∀ breaks, ∃ rest, holds rest ∧ ∀ ⦃close⦄, k.Holds close →
    Reads (skip breaks) (window ++ close) (fun _ => True) (rest ++ close)

/-- Blanks in front of the window end where it is settled what is announced. -/
abbrev Halts (k : Frame) : List Char → Prop := EndsBlanks k (IsSettled k)

/-- Blanks in front of the window come to their end before the text does. -/
structure EndsEarly (k : Frame) (holds : List Char → Prop) (window : List Char) : Prop where
  ends : EndsBlanks k holds window
  goesOn : window ++ k.left ≠ []

/-- Blanks in front of the window may be skipped. -/
abbrev Skips (k : Frame) : List Char → Prop := EndsEarly k fun _ => True

/-- Blanks in front of the window may be skipped behind an expression. -/
abbrev Stops (k : Frame) : List Char → Prop := EndsEarly k (IsSettled k)

theorem EndsEarly.skips (ends : EndsEarly k holds window) : Skips k window := by
  refine ⟨fun breaks => ?_, ends.goesOn⟩
  obtain ⟨rest, _, skips⟩ := ends.ends breaks
  exact ⟨rest, trivial, skips⟩

theorem rest_drop (c : Cursor) (n : Nat) : (c.drop n).rest = c.rest.drop n := by
  induction n generalizing c with
  | zero => rfl
  | succ n ih =>
    obtain ⟨rest, offset⟩ := c
    cases rest with
    | nil => rfl
    | cons x rest => exact ih ⟨rest, offset + x.utf8Size⟩

/-- What goes on behind some characters of the text takes something. -/
theorem length_lt_of_drop {n : Nat} {x : Char} {more : List Char} {last : Cursor}
    (text : c.rest = x :: more) (forward : (c.drop (n + 1)).LeadsTo last) :
    last.rest.length < c.rest.length := by
  have fewer := forward.length_le
  rw [rest_drop, List.length_drop] at fewer
  have positive : 0 < c.rest.length := by rw [text]; exact Nat.zero_lt_succ _
  omega

theorem takesSome_lineComment : TakesSome lineComment := by
  intro c a next read
  obtain ⟨_, line, rfl | rfl, same, rfl⟩ := lineComment_eq_read_iff.mp read
  · rw [Nat.add_comm]
    exact length_lt_of_drop same (.refl _)
  · rw [Nat.add_comm]
    exact length_lt_of_drop same (.refl _)

theorem takesSome_inlineComment : TakesSome inlineComment := by
  intro c a next read
  obtain ⟨front, passes, _⟩ := inlineComment_eq_read read
  rw [passes.1, List.length_append, List.length_cons]
  omega

theorem takesSome_blank (breaks : Bool) : TakesSome (blank breaks) := by
  refine ((takesSome_satisfy _).bind fun _ _ => advances_pure _).choice
    (takesSome_inlineComment.choice ?_)
  cases breaks with
  | false => rintro c a next ⟨⟩
  | true => exact takesSome_lineComment

/-- Where no blank starts, none is skipped. -/
theorem reads_skip_of_isUndone (undone : IsUndone (blank breaks) text) :
    Reads (skip breaks) text (fun _ => True) text :=
  (reads_many_nil undone).bind fun _ _ => (reads_pure () text).imp fun _ _ => trivial

/-- A window that no blank starts. -/
theorem endsBlanks_of_isUndone (property : holds window)
    (undone : ∀ breaks ⦃close⦄, k.Holds close → IsUndone (blank breaks) (window ++ close)) :
    EndsBlanks k holds window :=
  fun breaks => ⟨window, property, fun _ held => reads_skip_of_isUndone (undone breaks held)⟩

theorem endsEarly_cons (solid : startsBlank x = false) (property : holds (x :: window)) :
    EndsEarly k holds (x :: window) :=
  ⟨endsBlanks_of_isUndone property fun breaks _ _ =>
    isUndone_blank breaks (forall_mem_head?_cons solid _), List.cons_ne_nil _ _⟩

/-- In front of a solid character there is nothing to skip. -/
theorem skips_cons (solid : startsBlank x = false) (window : List Char) : Skips k (x :: window) :=
  endsEarly_cons solid trivial

/-- A character that announces nothing. -/
theorem stops_quiet (solid : startsBlank x = false) (quiet : announcesNothing x = true)
    (window : List Char) : Stops k (x :: window) :=
  endsEarly_cons solid (isSettled_of_quiet quiet window)

/-- A character that something follows. -/
theorem stops_cons (solid : startsBlank x = false) (goesOn : window ++ k.left ≠ []) :
    Stops k (x :: window) :=
  endsEarly_cons solid (isSettled_cons x goesOn)

/-- A word whose first character is no blank and announces nothing. -/
theorem stops_word {w : List Char}
    (solid : w.head?.map (fun x => !startsBlank x && announcesNothing x) = some true)
    (rest : List Char) : Stops k (w ++ rest) := by
  cases w with
  | nil => cases solid
  | cons x w =>
    have known := Option.some.inj solid
    simp only [Bool.and_eq_true, Bool.not_eq_true'] at known
    exact stops_quiet known.1 known.2 _

/-- Blanks end where the window does. -/
theorem halts_nil : Halts k [] :=
  endsBlanks_of_isUndone isSettled_nil fun breaks _ held =>
    isUndone_blank breaks (held.closes.head (by decide))

theorem isUndone_blank_nil (breaks : Bool) : IsUndone (blank breaks) [] :=
  isUndone_blank breaks (by simp)

/-- Blanks that are skipped are read one by one. -/
theorem skip_eq_read_iff {a : Unit} :
    skip breaks c = .read a next ↔ ∃ blanks, Repeats (blank breaks) c blanks next := by
  constructor
  · intro read
    obtain ⟨blanks, last, taken, made⟩ := bind_eq_read_iff.mp read
    obtain ⟨_, rfl⟩ := Outcome.read.inj made
    exact ⟨blanks, repeats_of_many (takesSome_blank breaks) (isUndone_blank_nil breaks) taken⟩
  · rintro ⟨blanks, repeats⟩
    exact bind_eq_read_iff.mpr ⟨blanks, next, repeats.many, rfl⟩

/-- Behind a blank, what is skipped goes on. -/
theorem reads_skip_of_blank (first : Reads (blank breaks) text (fun _ => True) window)
    (more : Reads (skip breaks) window (fun _ => True) rest) :
    Reads (skip breaks) text (fun _ => True) rest := by
  intro offset
  obtain ⟨_, middle, read, _⟩ := first offset
  obtain ⟨_, last, skipped, _⟩ := more middle
  obtain ⟨blanks, repeats⟩ := skip_eq_read_iff.mp skipped
  exact ⟨(), last, skip_eq_read_iff.mpr ⟨_, .cons read (takesSome_blank breaks read) repeats⟩,
    trivial⟩

/-- A line break lies in the window or does not start there. -/
theorem startsLineBreak_iff (closes : Closes close) : startsLineBreak (window ++ close) = true ↔
    (∃ rest, window = ['\n'] ++ rest) ∨ ∃ rest, window = ['\r', '\n'] ++ rest := by
  have starts {w more : List Char} (same : window ++ close = w ++ more) :
      w.isPrefixOf (window ++ close) = true :=
    List.isPrefixOf_iff_prefix.mpr ⟨more, same.symm⟩
  constructor
  · intro breaks
    unfold startsLineBreak at breaks
    split at breaks
    · next same =>
      exact .inl (exists_of_isPrefixOf (by decide) closes (starts (w := ['\n']) same))
    · next same =>
      exact .inr (exists_of_isPrefixOf (by decide) closes (starts (w := ['\r', '\n']) same))
    · cases breaks
  · rintro (⟨rest, rfl⟩ | ⟨rest, rfl⟩)
    · rfl
    · rfl

theorem startsLineBreak_window (window : List Char) (closes : Closes close)
    (closes' : Closes close') :
    startsLineBreak (window ++ close) = startsLineBreak (window ++ close') :=
  Bool.eq_iff_iff.mpr ((startsLineBreak_iff closes).trans (startsLineBreak_iff closes').symm)

/-- A line ends in front of the window whatever closes it, unless the whole text ends there. -/
theorem lineLength_window {line : List Char}
    (length : lineLength (line ++ (window ++ close)) = line.length) (goesOn : window ++ close ≠ [])
    (closes : Closes close) (closes' : Closes close') :
    lineLength (line ++ (window ++ close')) = line.length := by
  induction line with
  | nil =>
    have same := startsLineBreak_window window closes closes'
    obtain ⟨y, more, first⟩ := List.exists_cons_of_ne_nil goesOn
    simp only [List.nil_append, List.length_nil] at length ⊢
    rw [first, lineLength] at length
    split at length
    · next breaks =>
      rw [← first, same] at breaks
      cases left : window ++ close' with
      | nil => rfl
      | cons z rest => rw [lineLength, if_pos (left ▸ breaks)]
    · cases length
  | cons x line ih =>
    have same := startsLineBreak_window (x :: line ++ window) closes closes'
    simp only [List.cons_append, List.append_assoc, lineLength, List.length_cons] at length same ⊢
    rw [← same]
    split at length
    · cases length
    · next noBreak => rw [if_neg noBreak, ih (Nat.succ.inj length)]

/-- A line is no longer than the text. -/
theorem lineLength_le (xs : List Char) : lineLength xs ≤ xs.length := by
  induction xs with
  | nil => exact Nat.le_refl _
  | cons x xs ih =>
    rw [lineLength]
    split
    · exact Nat.zero_le _
    · exact Nat.succ_le_succ ih

/-- A comment passes its sign and the line behind it. -/
theorem exists_line {sign xs : List Char} (same : c.rest = sign ++ xs)
    (passes : c.Passes front (c.drop (sign.length + lineLength xs)))
    (views : (c.drop (sign.length + lineLength xs)).Views window close) :
    ∃ line, front = sign ++ line ∧ lineLength (line ++ (window ++ close)) = line.length := by
  have left : window ++ close = xs.drop (lineLength xs) := by
    rw [← views, rest_drop, same, List.drop_length_add_append]
  refine ⟨xs.take (lineLength xs), ?_, ?_⟩
  · refine (List.append_left_inj (xs.drop (lineLength xs))).mp ?_
    rw [← left, List.append_assoc, left, List.take_append_drop, ← same, ← left]
    exact (passes.1.trans (congrArg _ views)).symm
  · rw [left, List.take_append_drop, List.length_take, Nat.min_eq_left (lineLength_le xs)]

theorem reads_lineComment {a : Unit} (passes : c.Passes front next)
    (views : next.Views window close) (goesOn : window ++ close ≠ [])
    (read : lineComment c = .read a next) (closes : Closes close) (closes' : Closes close') :
    Reads lineComment (front ++ (window ++ close')) (fun _ => True) (window ++ close') ∧
      ∃ more, front = '#' :: more ∨ front = '/' :: '/' :: more := by
  obtain ⟨sign, xs, kind, same, rfl⟩ := lineComment_eq_read_iff.mp read
  obtain ⟨line, rfl, length⟩ := exists_line same passes views
  refine ⟨fun offset => ⟨(), offset + byteLength (sign ++ line), ?_, trivial⟩, ?_⟩
  · rw [← drop_append (sign ++ line) _ offset]
    refine lineComment_eq_read_iff.mpr ⟨sign, _, kind, List.append_assoc sign line _, ?_⟩
    rw [lineLength_window length goesOn closes closes', List.length_append]
  · rcases kind with rfl | rfl
    · exact ⟨line, .inl rfl⟩
    · exact ⟨line, .inr rfl⟩

/-- A comment inside a line starts with its two signs. -/
theorem isUndone_inlineComment (other : ∀ more, text ≠ '/' :: '*' :: more) :
    IsUndone inlineComment text := by
  intro offset
  unfold inlineComment
  split
  · next more same => exact absurd same (other more)
  · exact ⟨_, rfl⟩

/-- Inside a line only spaces, tabs and such comments are blanks. -/
theorem isUndone_blank_false (space : ∀ x ∈ text.head?, isSpace x = false)
    (other : ∀ more, text ≠ '/' :: '*' :: more) : IsUndone (blank false) text := by
  refine ((isUndone_satisfy fun x head => ?_).bind _).choice
    ((isUndone_inlineComment other).choice fun _ => ⟨_, rfl⟩)
  simp [space x head]

theorem reads_blank_of_comment (slash : ∃ more, text = '/' :: more)
    (reads : Reads inlineComment text (fun _ => True) rest) (breaks : Bool) :
    Reads (blank breaks) text (fun _ => True) rest := by
  obtain ⟨more, rfl⟩ := slash
  have noSpace : IsUndone (satisfy fun x => isSpace x || (breaks && (x == '\r' || x == '\n')))
      ('/' :: more) :=
    isUndone_satisfy (forall_mem_head?_cons (by cases breaks <;> rfl) _)
  exact (reads.choice _).choice_right (noSpace.bind _)

/-- The text starts with what is a blank only where line breaks are. -/
def StartsLineEnd (text : List Char) : Prop :=
  ∃ x rest, text = x :: rest ∧
    (x = '\r' ∨ x = '\n' ∨ x = '#' ∨ x = '/' ∧ rest.head? = some '/')

theorem isSettled_of_startsLineEnd (starts : StartsLineEnd window) : IsSettled k window := by
  obtain ⟨x, rest, rfl, rfl | rfl | rfl | ⟨rfl, slash⟩⟩ := starts
  · exact isSettled_of_quiet (by decide) rest
  · exact isSettled_of_quiet (by decide) rest
  · exact isSettled_of_quiet (by decide) rest
  · obtain ⟨more, rfl⟩ := List.head?_eq_some_iff.mp slash
    exact isSettled_of_nothing (fun _ => rfl) fun _ => rfl

/-- A line comment is a blank where line breaks are, and none where they are not. -/
theorem reads_blank_of_lineComment {comment rest : List Char}
    (sign : ∃ more, comment = '#' :: more ∨ comment = '/' :: '/' :: more)
    (reads : Reads lineComment (comment ++ rest) (fun _ => True) rest) :
    Reads (blank true) (comment ++ rest) (fun _ => True) rest ∧
      IsUndone (blank false) (comment ++ rest) := by
  have solid : ∀ x ∈ (comment ++ rest).head?,
      isSpace x = false ∧ (x == '\r' || x == '\n') = false := by
    obtain ⟨more, rfl | rfl⟩ := sign
    · exact forall_mem_head?_cons (by decide) _
    · exact forall_mem_head?_cons (by decide) _
  have other : ∀ more, comment ++ rest ≠ '/' :: '*' :: more := by
    obtain ⟨more, rfl | rfl⟩ := sign
    · rintro _ ⟨⟩
    · rintro _ ⟨⟩
  refine ⟨?_, isUndone_blank_false (fun x head => (solid x head).1) other⟩
  refine (reads.choice_right (isUndone_inlineComment other)).choice_right (.bind ?_ _)
  exact isUndone_satisfy fun x head => by rw [(solid x head).1, (solid x head).2]; rfl

/-- A blank in front of a window is read whatever closes it, and whether line breaks are blanks or
not. If it belongs to the end of a line, it is no blank where they are not. -/
theorem blank_cases {a : Unit} (passes : c.Passes front next) (views : next.Views window k.left)
    (goesOn : window ++ k.left ≠ []) (read : blank breaks c = .read a next) :
    (∀ breaks ⦃close⦄, k.Holds close →
        Reads (blank breaks) (front ++ (window ++ close)) (fun _ => True) (window ++ close)) ∨
      breaks = true ∧ StartsLineEnd front ∧ ∀ ⦃close⦄, k.Holds close →
        Reads (blank true) (front ++ (window ++ close)) (fun _ => True) (window ++ close) ∧
          IsUndone (blank false) (front ++ (window ++ close)) := by
  rcases choice_eq_read_iff.mp read with read | ⟨_, read⟩
  · -- A space is a blank anyhow, and a line break only where they count.
    obtain ⟨x, middle, taken, made⟩ := bind_eq_read_iff.mp read
    obtain ⟨_, rfl⟩ := Outcome.read.inj made
    obtain rfl := passes.eq (passes_satisfy taken)
    have passing := passing_of_satisfy taken
    have one {test : Char → Bool} (passing : test x = true) (rest : List Char) :
        Reads (do let _ ← satisfy test) (x :: rest) (fun _ => True) rest :=
      (reads_satisfy passing rest).bind fun _ _ => (reads_pure () rest).imp fun _ _ => trivial
    cases space : isSpace x with
    | true => exact .inl fun breaks _ _ => (one (by simp [space]) _).choice _
    | false =>
      simp only [space, Bool.false_or, Bool.and_eq_true, Bool.or_eq_true, beq_iff_eq] at passing
      obtain ⟨rfl, line⟩ := passing
      refine .inr ⟨rfl, ⟨x, [], rfl, line.imp_right .inl⟩, fun _ _ => ⟨?_, ?_⟩⟩
      · exact (one (by simp [line]) _).choice _
      refine isUndone_blank_false (forall_mem_head?_cons space _) fun more same => ?_
      obtain ⟨rfl, _⟩ := List.cons.inj same
      simp at line
  rcases choice_eq_read_iff.mp read with read | ⟨_, read⟩
  · obtain ⟨inside, passed, again⟩ := inlineComment_eq_read read
    obtain rfl := passes.eq passed
    exact .inl fun breaks _ _ =>
      reads_blank_of_comment ⟨_, rfl⟩ ((again _).imp fun _ _ => trivial) breaks
  cases breaks with
  | false => cases read
  | true =>
    have sign := (reads_lineComment passes views goesOn read k.closesLeft k.closesLeft).2
    refine .inr ⟨rfl, ?_, fun close held => reads_blank_of_lineComment sign
      (reads_lineComment passes views goesOn read k.closesLeft held.closes).1⟩
    obtain ⟨_, rfl | rfl⟩ := sign
    · exact ⟨'#', _, rfl, .inr (.inr (.inl rfl))⟩
    · exact ⟨'/', _, rfl, .inr (.inr (.inr ⟨rfl, rfl⟩))⟩

theorem StartsLineEnd.append (starts : StartsLineEnd front) (window : List Char) :
    StartsLineEnd (front ++ window) := by
  obtain ⟨x, rest, rfl, kind⟩ := starts
  refine ⟨x, rest ++ window, rfl, kind.imp_right (.imp_right (.imp_right (.imp_right ?_)))⟩
  intro slash
  rw [List.head?_append, slash]
  rfl

/-- What may stand behind blanks may stand behind a line end, where it is skipped and where it is
not. -/
def BearsLineEnds (holds : List Char → Prop) : Prop := ∀ ⦃w⦄, StartsLineEnd w → holds w

/-- Blanks end behind a blank, and so they end in front of it. -/
theorem endsEarly_of_blank {a : Unit} (bears : BearsLineEnds holds) (passes : c.Passes front next)
    (views : next.Views window k.left) (stops : EndsEarly k holds window)
    (read : blank breaks c = .read a next) : EndsEarly k holds (front ++ window) := by
  refine ⟨fun kind => ?_, fun none => ?_⟩
  · obtain ⟨rest, property, skips⟩ := stops.ends kind
    rcases blank_cases passes views stops.goesOn read with reads | ⟨_, line, reads⟩
    · refine ⟨rest, property, fun close held => ?_⟩
      rw [List.append_assoc]
      exact reads_skip_of_blank (reads kind held) (skips held)
    · cases kind with
      | true =>
        refine ⟨rest, property, fun close held => ?_⟩
        rw [List.append_assoc]
        exact reads_skip_of_blank (reads held).1 (skips held)
      | false =>
        refine ⟨front ++ window, bears (line.append window), fun close held => ?_⟩
        rw [List.append_assoc]
        exact reads_skip_of_isUndone (reads held).2
  · rw [List.append_assoc] at none
    exact stops.goesOn (List.append_eq_nil_iff.mp none).2

/-- A blank is read alike if blanks end behind it. -/
theorem tracks_blank_of (bears : BearsLineEnds holds) (breaks : Bool) : Tracks k bound id
    (EndsEarly k holds) (EndsEarly k holds) (blank breaks) (blank breaks) := by
  refine tracks_of_reads (fun _ => advances_blank breaks) (fun _ => advances_blank breaks) ?_
  intro front window c a next passes views stops read
  refine ⟨endsEarly_of_blank bears passes views stops read, ?_⟩
  rcases blank_cases passes views stops.goesOn read with reads | ⟨rfl, _, reads⟩
  · exact (reads breaks .right).imp fun _ _ => rfl
  · exact (reads .right).1.imp fun _ _ => rfl

/-- Where blanks end in front of a window, none starts it, whatever closes it. -/
theorem isUndone_blank_of_endsBlanks {complaint : Complaint} (views : c.Views window k.left)
    (ends : EndsBlanks k holds window) (undone : blank breaks c = .undone complaint)
    (held : k.Holds close) : IsUndone (blank breaks) (window ++ close) := by
  obtain ⟨rest, _, skips⟩ := ends breaks
  have here : skip breaks c = .read () c := skip_eq_read_iff.mpr ⟨[], .nil undone⟩
  obtain rfl : rest = window := by
    obtain ⟨_, next, read, _⟩ := skips .left c.offset
    rw [← views] at read
    obtain ⟨_, same⟩ := Outcome.read.inj (here.symm.trans read)
    refine (List.append_left_inj k.left).mp ?_
    rw [← views]
    exact (congrArg Cursor.rest same).symm
  intro offset
  obtain ⟨_, next, read, _⟩ := skips held offset
  obtain ⟨blanks, repeats⟩ := skip_eq_read_iff.mp read
  cases repeats with
  | nil undone => exact ⟨_, undone⟩
  -- A blank would have taken something of the text.
  | cons read less more =>
    have fewer := (more.leadsTo fun _ => advances_blank breaks).length_le
    exact absurd less (Nat.not_lt_of_le fewer)

theorem tracks_skip_of (bears : BearsLineEnds holds) (breaks : Bool) : Tracks k bound id
    (EndsEarly k holds) (EndsEarly k holds) (skip breaks) (skip breaks) := by
  refine ((tracks_blank_of bears breaks).many (takesSome_blank breaks) (isUndone_blank_nil breaks)
    ?_ fun _ stops => stops).bind fun _ _ _ => tracks_pure rfl
  intro window c complaint views stops undone
  exact isUndone_blank_of_endsBlanks views stops.ends undone .right

/-- Blanks that end in the window are skipped whatever closes it. -/
theorem tracks_skip (breaks : Bool) :
    Tracks k bound id (Stops k) (Stops k) (skip breaks) (skip breaks) :=
  tracks_skip_of (fun _ => isSettled_of_startsLineEnd) breaks

/-- So they are where it is not settled yet what is announced. -/
theorem tracks_skip_early (breaks : Bool) :
    Tracks k bound id (Skips k) (Skips k) (skip breaks) (skip breaks) :=
  tracks_skip_of (fun _ _ => trivial) breaks

/-- The text behind the blanks is settled by the window. -/
theorem exists_afterBlanks (ends : EndsBlanks k holds window) (breaks : Bool) :
    ∃ rest, holds rest ∧ ∀ ⦃close c⦄, k.Holds close → Cursor.Views window close c →
      (afterBlanks breaks c).rest = rest ++ close := by
  obtain ⟨rest, property, skips⟩ := ends breaks
  refine ⟨rest, property, ?_⟩
  rintro close ⟨_, offset⟩ held rfl
  obtain ⟨_, _, read, _⟩ := skips held offset
  rw [afterBlanks, read]

/-- Behind the blanks in front of the window stands another one, whatever closes it. -/
structure SkipsTo (k : Frame) (breaks : Bool) (after holds : List Char → Prop)
    (window : List Char) : Prop where
  ends : EndsEarly k holds window
  leads : ∃ rest, after rest ∧ ∀ ⦃close⦄, k.Holds close →
    Reads (skip breaks) (window ++ close) (fun _ => True) (rest ++ close)

/-- What stands behind the blanks is told where they start. -/
theorem tracks_skip_to_of {after : List Char → Prop} (bears : BearsLineEnds holds)
    (ends : ∀ w, after w → EndsEarly k holds w) :
    Tracks k bound id after (SkipsTo k breaks after holds) (skip breaks) (skip breaks) := by
  have tracked : Tracks k bound id (EndsEarly k holds) (EndsEarly k holds) (skip breaks)
    (skip breaks) := tracks_skip_of bears breaks
  refine ⟨fun _ => advances_skip breaks, ?_⟩
  intro front window c a next passes views short ending read
  obtain ⟨start, again⟩ := tracked.follows passes views short (ends _ ending) read
  refine ⟨⟨start, window, ending, fun close held => ?_⟩, again⟩
  obtain ⟨rest, _, skips⟩ := start.ends breaks
  -- Where skipping ends in the text that was read, it ends in both texts.
  obtain rfl : rest = window := by
    obtain ⟨_, last, read', _⟩ := skips .left c.offset
    rw [← passes.views_append views] at read'
    obtain ⟨_, rfl⟩ := Outcome.read.inj (read.symm.trans read')
    exact List.append_cancel_right views
  exact skips held

/-- Where blanks were skipped is told from what stands behind them. -/
theorem tracks_skip_to {after : List Char → Prop} (stops : ∀ w, after w → Stops k w) :
    Tracks k bound id after (SkipsTo k breaks after (IsSettled k)) (skip breaks) (skip breaks) :=
  tracks_skip_to_of (fun _ => isSettled_of_startsLineEnd) stops

/-- The sign is the first character of the window, or of what closes an empty one. -/
def Meets (k : Frame) (x : Char) (window : List Char) : Prop :=
  ∀ ⦃close⦄, k.Holds close → (window ++ close).head? = some x

theorem Meets.exists_cons (meets : Meets k x window) (held : k.Holds close) :
    ∃ rest, window ++ close = x :: rest :=
  List.head?_eq_some_iff.mp (meets held)

/-- What holds of the sign holds of the first character. -/
theorem Meets.head (meets : Meets k x window) {property : Char → Prop} (here : property x)
    (held : k.Holds close) : ∀ y ∈ (window ++ close).head?, property y := by
  obtain ⟨rest, same⟩ := meets.exists_cons held
  rw [same]
  exact forall_mem_head?_cons here rest

/-- An expression may end in front of a quiet sign. -/
theorem stops_of_meets (solid : startsBlank x = false) (quiet : announcesNothing x = true)
    (meets : Meets k x window) : Stops k window := by
  refine ⟨endsBlanks_of_isUndone ?_ fun breaks _ held =>
    isUndone_blank breaks (meets.head solid held), ?_⟩
  · obtain ⟨left, here⟩ := meets.exists_cons .left
    obtain ⟨right, there⟩ := meets.exists_cons .right
    refine ⟨?_, ?_⟩
    · rw [here, there, sequelOf_eq_nothing quiet, sequelOf_eq_nothing quiet]
    · rw [here, there, nameSequel_eq_nothing quiet, nameSequel_eq_nothing quiet]
  · obtain ⟨rest, same⟩ := meets.exists_cons .left
    rw [same]
    exact List.cons_ne_nil _ _

theorem meets_cons (x : Char) (rest : List Char) : Meets k x (x :: rest) := fun _ _ => rfl

/-- Where blanks are skipped is settled by their first character. -/
theorem SkipsTo.of_solid {after : List Char → Prop} (skips : SkipsTo k breaks after holds window)
    (solid : ∀ y ∈ (window ++ k.left).head?, startsBlank y = false) : after window := by
  obtain ⟨_, rest, ending, reads⟩ := skips
  obtain ⟨_, offset, read, _⟩ := reads .left 0
  obtain ⟨_, offset', read', _⟩ := reads_skip breaks solid 0
  have same : rest ++ k.left = window ++ k.left := by
    have outcomes := read.symm.trans read'
    exact congrArg Cursor.rest (Outcome.read.inj outcomes).2
  exact List.append_cancel_right same ▸ ending

end Grammar

end HclLint.Hcl
