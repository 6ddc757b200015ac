/-
# Terms in a window

Lists, objects, calls and the other terms read smaller expressions up to a sign that closes them,
with blanks on the way. Wherever such a sign is met, nothing else can go on: no item starts at a
closing bracket, no argument at a closing parenthesis, no entry at a closing brace. So the smaller
expressions end where they ended before.

## Main definitions

* `EndsItems`: a window in front of which a sequence of items ends.
* `EndsEntries`: a window in front of which the entries of an object go on or end.

## Main statements

* `tracks_listForm`: lists are read alike, item by item.
* `tracks_termAt`: so are all terms but heredocs without parts.
-/

import HclLint.Proofs.Hcl.Refusing
import HclLint.Proofs.Hcl.Window.Quoted

namespace HclLint.Hcl.Grammar

open HclLint.Text HclLint.Hcl.Parser

variable {front window close close' text : List Char} {k : Frame} {bound : Nat}
  {level level' : Level} {ends holds : List Char → Prop} {setting : Setting} {c c' next : Cursor}
  {x : Char}

/-! ## Signs -/

/-- A sign of several characters, which something follows. -/
theorem stops_sign {y : Char} (solid : startsBlank x = false) (rest : List Char) :
    Stops k (x :: y :: rest) := stops_cons solid (List.cons_ne_nil _ _)

/-- The window starts with the sign, and something follows it. -/
def Opens (k : Frame) (sign : Char) (window : List Char) : Prop :=
  ∃ rest, window = sign :: rest ∧ rest ++ k.left ≠ []

/-- An expression may end in front of an opening sign that is no blank. -/
theorem stops_of_opens (solid : startsBlank x = false) (opens : Opens k x window) :
    Stops k window := by
  obtain ⟨rest, rfl, goesOn⟩ := opens
  exact stops_cons solid goesOn

theorem tracks_sign : Tracks k bound id (Skips k) (Opens k x) (char x) (char x) :=
  tracks_char fun w skips => ⟨w, rfl, skips.goesOn⟩

theorem stops_comma (w : List Char) : Stops k (',' :: w) := stops_quiet (by decide) (by decide) w

theorem isUndone_notAhead {test : Char → Bool} {rest : List Char} (stops : test x = true) :
    IsUndone (notAhead test) (x :: rest) :=
  fun _ => ⟨.unexpected, by simp [notAhead, stops]⟩

/-- A look ahead succeeds where the character is another one, and passes nothing. -/
theorem notAhead_eq_read_iff {test : Char → Bool} {a : Unit} :
    notAhead test c = .read a next ↔ (∀ x ∈ c.rest.head?, test x = false) ∧ next = c := by
  obtain ⟨rest, offset⟩ := c
  unfold notAhead
  cases rest with
  | nil =>
    refine ⟨fun read => ⟨nofun, (Outcome.read.inj read).2.symm⟩, ?_⟩
    rintro ⟨_, rfl⟩
    rfl
  | cons x rest =>
    cases stops : test x with
    | true => simp [stops]
    | false =>
      refine ⟨fun read => ⟨forall_mem_head?_cons stops rest, ?_⟩, fun both => ?_⟩
      · simp only [stops] at read
        exact (Outcome.read.inj read).2.symm
      · simp [stops, both.2]

/-- Whether a sign comes next is seen in a window that is not empty. -/
theorem tracks_notAhead (test : Char → Bool) :
    Tracks k bound id StartsTerm StartsTerm (notAhead test) (notAhead test) := by
  refine tracks_of_reads (fun _ => advances_notAhead test) (fun _ => advances_notAhead test) ?_
  rintro front window c a next passes views ⟨x, rest, rfl, start⟩ read
  obtain ⟨other, rfl⟩ := notAhead_eq_read_iff.mp read
  obtain rfl := passes.eq (.refl _)
  refine ⟨⟨x, rest, rfl, start⟩, fun offset => ⟨(), offset, ?_, rfl⟩⟩
  refine notAhead_eq_read_iff.mpr ⟨forall_mem_head?_cons (other x ?_) _, rfl⟩
  rw [views]
  rfl

/-- A comprehension is announced by its keyword and the blank behind it. -/
theorem startsFor_eq_true_iff : startsFor c = true ↔ ∃ x more,
    (afterBlanks true c).rest = ['f', 'o', 'r', x] ++ more ∧
      (isSpace x || x == '#' || x == '/' || x == '\n') = true := by
  unfold startsFor
  constructor
  · intro starts
    split at starts
    · next x more same => exact ⟨x, more, same, starts⟩
    · cases starts
  · rintro ⟨x, more, same, starts⟩
    rw [same]
    exact starts

/-- Where a comprehension starts is settled by the window. -/
theorem startsFor_window (views : c.Views window k.left) (views' : c'.Views window k.right)
    (ends : EndsBlanks k holds window) : startsFor c' = startsFor c := by
  obtain ⟨rest, _, behind⟩ := exists_afterBlanks ends true
  have iff {c : Cursor} {close : List Char} (held : k.Holds close) (views : c.Views window close) :
      startsFor c = true ↔ ∃ x more, rest = ['f', 'o', 'r', x] ++ more ∧
        (isSpace x || x == '#' || x == '/' || x == '\n') = true := by
    rw [startsFor_eq_true_iff, behind held views]
    constructor
    · rintro ⟨x, more, same, opens⟩
      -- The keyword and the blank behind it hold no closer, and so they lie in the window.
      have apart : ∀ y ∈ ['f', 'o', 'r', x], y ∉ closers := by
        have letters : ∀ y ∈ ['f', 'o', 'r'], y ∉ closers := by decide
        simp only [List.mem_cons, List.not_mem_nil, or_false] at letters ⊢
        have none : ∀ y ∈ closers, (isSpace y || y == '#' || y == '/' || y == '\n') = false := by
          decide
        rintro y (rfl | rfl | rfl | rfl) closer
        · exact letters 'f' (.inl rfl) closer
        · exact letters 'o' (.inr (.inl rfl)) closer
        · exact letters 'r' (.inr (.inr rfl)) closer
        · exact Bool.false_ne_true ((none _ closer).symm.trans opens)
      have starts := List.isPrefixOf_iff_prefix.mpr ⟨more, same.symm⟩
      obtain ⟨more, rfl⟩ := exists_of_isPrefixOf apart held.closes starts
      exact ⟨x, more, rfl, opens⟩
    · rintro ⟨x, more, rfl, opens⟩
      exact ⟨x, more ++ close, List.append_assoc _ _ _, opens⟩
  exact Bool.eq_iff_iff.mpr ((iff .right views').trans (iff .left views).symm)

/-! ## Between two signs -/

section Enclosed

variable {α β σ : Type} {p p' : Parser α} {gist : α → β} {opening : Parser σ}
  {closing : Parser Unit} {starts : List Char → Prop} {y : Char}

/-- The parser reads the sign and nothing else. -/
structure IsSign (x : Char) (p : Parser σ) : Prop where
  passes : ∀ ⦃c a next⦄, p c = .read a next → c.Passes [x] next
  reads : ∀ rest, Reads p (x :: rest) (fun _ => True) rest

theorem isSign_char (x : Char) : IsSign x (char x) :=
  ⟨fun _ _ _ => passes_char, fun rest => (reads_char x rest).imp fun _ _ => trivial⟩

theorem isSign_demand (x : Char) (complaint : Complaint) :
    IsSign x (demand complaint (word [x])) :=
  ⟨fun _ _ _ read => passes_word (demand_eq_read_iff.mp read),
    fun rest => (reads_word [x] rest).demand complaint⟩

theorem isSign_demandWord {w : String} (sign : w.toList = [x]) : IsSign x (demandWord w) := by
  rw [demandWord, sign]
  exact isSign_demand x _

theorem IsSign.advances (sign : IsSign x opening) : Advances text opening :=
  fun _ _ _ _ read => ⟨⟨_, sign.passes read⟩, trivial⟩

theorem IsSign.takesSome (sign : IsSign x opening) : TakesSome opening := by
  intro c a next read
  rw [(sign.passes read).1]
  exact Nat.lt_succ_self _

/-- A sign is read alike, and the window starts with it. -/
theorem IsSign.tracks (sign : IsSign x opening) (opens : ∀ w, ends w → starts (x :: w)) :
    Tracks k bound (fun _ => ()) ends starts opening opening := by
  refine tracks_of_reads (fun _ => sign.advances) (fun _ => sign.advances) ?_
  intro front window c a next passes _ ending read
  obtain rfl := passes.eq (sign.passes read)
  exact ⟨opens window ending, (sign.reads _).imp fun _ _ => rfl⟩

/-- What a parser reads between two others. -/
def enclosed (opening : Parser σ) (p : Parser α) (closing : Parser Unit) : Parser α := do
  let _ ← opening
  let a ← p
  closing
  return a

/-- What is read alike in front of the closing sign is read alike with both signs, whatever follows
them. -/
theorem tracks_enclosed (opens : IsSign x opening) (closes : IsSign y closing)
    (inside : Tracks k bound gist (Meets k y) (Skips k) p p') :
    Tracks k (bound + 1) gist ends (Opens k x) (enclosed opening p closing)
      (enclosed opening p' closing) :=
  (opens.tracks fun w skips => ⟨w, rfl, skips.goesOn⟩).bind_less opens.takesSome fun _ _ _ =>
    inside.bind fun _ _ same => (closes.tracks fun w _ => meets_cons y w).bind fun _ _ _ =>
      tracks_pure same

end Enclosed

/-! ## Parentheses and comprehensions -/

/-- What stands in parentheses, read behind the opening one. -/
def parensInside (level : Level) : Parser Expr := do
  skip true
  let inner ← level.expr .bracket
  skip true
  return inner

theorem parensForm_eq (level : Level) : parensForm level =
    (do return .parens (← enclosed (char '(') (parensInside level) (demandWord ")"))) := by
  simp only [parensForm, enclosed, parensInside, bind_bind]
  rfl

section Forms

variable (agrees : level.Agrees k bound level')
include agrees

/-- What stands in parentheses is read alike in front of the closing one. -/
theorem tracks_parensInside : Tracks k bound Expr.unplaced (Meets k ')') (Skips k)
    (parensInside level) (parensInside level') :=
  (tracks_skip_early true).bind fun _ _ _ => (agrees.exprStops .bracket).bind fun _ _ same =>
    ((tracks_skip true).imp (fun _ => stops_of_meets (by decide) (by decide))
      fun _ stops => stops).bind fun _ _ _ => tracks_pure same

/-- So is the whole expression, whatever follows its parentheses. -/
theorem tracks_parensForm : Tracks k (bound + 1) Form.unplaced ends (fun _ => True)
    (parensForm level) (parensForm level') := by
  rw [parensForm_eq, parensForm_eq]
  exact ((tracks_enclosed (isSign_char '(') (isSign_demandWord rfl)
    (tracks_parensInside agrees)).imp (fun _ ending => ending) fun _ _ => trivial).bind
      fun _ _ same => tracks_pure (by rw [Form.unplaced, Form.unplaced, same])

/-- The head of a comprehension is read up to its colon. -/
theorem tracks_forHead : Tracks k bound (fun a => (a.1, a.2.unplaced)) (Skips k) (Skips k)
    (forHead level) (forHead level') := by
  have colon : Tracks k bound id (Skips k) (Stops k) (demandWord ":") (demandWord ":") :=
    tracks_demandWord fun w skips => stops_cons (by decide) skips.goesOn
  exact (tracks_skip_early true).bind fun _ _ _ =>
    (tracks_word fun w _ => skips_cons (by decide) _).bind fun _ _ _ =>
      (tracks_skip_early true).bind fun _ _ _ => tracks_boundNames.bind fun names names' same =>
        (tracks_demandWord fun w _ => skips_cons (by decide) _).bind fun _ _ _ =>
          (tracks_skip_early true).bind fun _ _ _ => (agrees.exprStops .line).bind
            fun collection collection' same' => (tracks_skip true).bind fun _ _ _ =>
              colon.bind fun _ _ _ => tracks_pure (Prod.ext same same')

/-- No test ends a comprehension where a sign closes it. -/
theorem tracks_filter (closes : ∀ w, ends w → Meets k x w) (solid : startsBlank x = false)
    (quiet : announcesNothing x = true) (other : x ≠ 'i') :
    Tracks k bound (Option.map Expr.unplaced) ends (Stops k)
      (Parser.optional (forFilter level setting)) (Parser.optional (forFilter level' setting)) := by
  have stops (w : List Char) (ending : ends w) : Stops k w :=
    stops_of_meets solid quiet (closes w ending)
  have filter : Tracks k bound Expr.unplaced ends (Stops k) (forFilter level setting)
      (forFilter level' setting) :=
    (tracks_skip true).bind fun _ _ _ => (tracks_word fun w _ => stops_word (by decide) w).bind
      fun _ _ _ => (tracks_skip_early true).bind fun _ _ _ => (agrees.exprStops setting).bind
        fun _ _ same => ((tracks_skip true).imp stops fun _ h => h).bind fun _ _ _ =>
          tracks_pure same
  refine filter.optional (fun w c complaint _ ending _ => ?_) stops
  refine (reads_skip true ((closes w ending).head solid .right)).bind_isUndone fun _ _ => ?_
  obtain ⟨rest, same⟩ := (closes w ending).exists_cons .right
  rw [same]
  exact (isUndone_word (by simp [List.isPrefixOf, other.symm])).bind _

/-- A comprehension ends in front of the bracket that closes the list. -/
theorem tracks_listForForm (setting : Setting) : Tracks k bound Form.unplaced (Meets k ']')
    (Skips k) (listForForm level setting) (listForForm level' setting) := by
  refine (tracks_forHead agrees).bind fun (names, collection) (names', collection') same =>
    (tracks_skip_early true).bind fun _ _ _ => (agrees.exprStops setting).bind fun _ _ same' =>
      (tracks_skip true).bind fun _ _ _ =>
        (tracks_filter agrees (fun _ meets => meets) (by decide) (by decide) (by decide)).bind
          fun _ _ same'' => tracks_pure ?_
  obtain ⟨rfl, others⟩ := Prod.mk.inj same
  simp only [Form.unplaced, others, same', filterUnplaced_eq_map, same'']

/-- So it does in front of the brace that closes an object. -/
theorem tracks_objectForForm (setting : Setting) : Tracks k bound Form.unplaced (Meets k '\x7d')
    (Skips k) (objectForForm level setting) (objectForForm level' setting) := by
  have arrow : Tracks k bound id (Skips k) (Stops k) (demandWord "=>") (demandWord "=>") :=
    tracks_demandWord fun w _ => stops_sign (by decide) w
  have dots : Tracks k bound (Option.map id) (Stops k) (Stops k)
      (Parser.optional (do word "...".toList; skip true))
      (Parser.optional (do word "...".toList; skip true)) :=
    ((tracks_word fun w _ => stops_sign (by decide) ('.' :: w)).bind fun _ _ _ =>
      tracks_skip true).optional ((isDecided_word (by decide)).fails.bind fun _ =>
        isNeverUndone_skip true) fun _ stops => stops
  refine (tracks_forHead agrees).bind fun (names, collection) (names', collection') same =>
    (tracks_skip_early true).bind fun _ _ _ => (agrees.exprStops .line).bind fun _ _ key =>
      (tracks_skip true).bind fun _ _ _ => arrow.bind fun _ _ _ =>
        (tracks_skip_early true).bind fun _ _ _ => (agrees.exprStops .line).bind fun _ _ value =>
          (tracks_skip true).bind fun _ _ _ => dots.bind fun grouped grouped' mark =>
            (tracks_filter agrees (fun _ meets => meets) (by decide) (by decide) (by decide)).bind
              fun _ _ same' => tracks_pure ?_
  obtain ⟨rfl, others⟩ := Prod.mk.inj same
  obtain rfl : grouped' = grouped := by simpa using mark
  simp only [Form.unplaced, others, key, value, filterUnplaced_eq_map, same']

end Forms

/-! ## Items -/

/-- Blanks and the closing sign come next, or before them one of the signs that may follow the last
item. -/
def EndsItems (k : Frame) (signs : List (List Char)) (x : Char) (window : List Char) : Prop :=
  SkipsTo k true (Meets k x) (IsSettled k) window ∨ ∃ sign rest, sign ∈ signs ∧
    window = sign ++ rest ∧ SkipsTo k true (Meets k x) (IsSettled k) rest

/-- An item of a sequence, with the blanks around it. None starts at a sign that passes the
test. -/
def spacedItem (level : Level) (setting : Setting) (test : Char → Bool) : Parser Expr := do
  skip true
  notAhead test
  let item ← level.expr setting
  skip true
  return item

section Items

variable {test : Char → Bool} {signs : List (List Char)}

/-- No item starts at the sign that ends a sequence. -/
theorem isUndone_spacedItem (closes : test x = true)
    (skips : SkipsTo k true (Meets k x) (IsSettled k) window) (held : k.Holds close) :
    IsUndone (spacedItem level setting test) (window ++ close) := by
  obtain ⟨_, rest, meets, reads⟩ := skips
  refine (reads held).bind_isUndone fun _ _ => ?_
  obtain ⟨more, same⟩ := meets.exists_cons held
  rw [same]
  exact (isUndone_notAhead closes).bind _

/-- Where the items end no other one follows. -/
theorem isUndone_another (known : signs ⊆ [[','], ['.', '.', '.']]) (closes : test x = true)
    (other : x ≠ ',') (ending : EndsItems k signs x window) :
    IsUndone (do let _ ← char ','; spacedItem level setting test) (window ++ k.right) := by
  rcases ending with skips | ⟨sign, rest, sign_mem, rfl, skips⟩
  · -- No blank starts with a comma, so the closing sign would be one.
    refine (isUndone_char ?_).bind _
    rintro _ head rfl
    cases window with
    | nil => exact absurd (k.closesRight _ head) (by decide)
    | cons y window =>
      obtain rfl := Option.some.inj head
      have meets := skips.of_solid (forall_mem_head?_cons (by decide) _)
      exact other (Option.some.inj (meets .right)).symm
  · have cases := known sign_mem
    simp only [List.mem_cons, List.not_mem_nil, or_false] at cases
    rcases cases with rfl | rfl
    · exact (reads_char ',' _).bind_isUndone fun _ _ => isUndone_spacedItem closes skips .right
    · exact (isUndone_char (forall_mem_head?_cons (by decide) _)).bind _

/-- The last item may end where the sequence does. -/
theorem stops_of_endsItems (known : signs ⊆ [[','], ['.', '.', '.']])
    (ending : EndsItems k signs x window) : Stops k window := by
  rcases ending with skips | ⟨sign, rest, sign_mem, rfl, _⟩
  · exact skips.ends
  · have cases := known sign_mem
    simp only [List.mem_cons, List.not_mem_nil, or_false] at cases
    rcases cases with rfl | rfl
    · exact stops_comma rest
    · exact stops_sign (by decide) _

variable (agrees : level.Agrees k bound level')
include agrees

theorem tracks_spacedItem : Tracks k bound Expr.unplaced (Stops k) (Skips k)
    (spacedItem level setting test) (spacedItem level' setting test) := by
  have item := (agrees.expr setting).imp (fun _ (stops : Stops k _) => stops.ends)
    fun _ starts => starts
  exact ((tracks_skip_early true).imp (fun _ => skips_of_startsTerm) fun _ skips => skips).bind
    fun _ _ _ => (tracks_notAhead test).bind fun _ _ _ => item.bind fun _ _ same =>
      (tracks_skip true).bind fun _ _ _ => tracks_pure same

/-- A comma that no item precedes is refused for good. -/
theorem spacedItem_of_comma (positive : 0 < bound) (opens : test ',' = false)
    (comma : c.rest.head? = some ',') (complaint : Complaint) :
    spacedItem level setting test c ≠ .undone complaint := by
  intro undone
  obtain ⟨_, offset⟩ := c
  obtain ⟨more, rfl⟩ := List.head?_eq_some_iff.mp comma
  obtain ⟨_, next, skipped, _⟩ := reads_skip true
    (forall_mem_head?_cons (show startsBlank ',' = false by decide) more) offset
  have passed : notAhead test ⟨',' :: more, next⟩ = .read () ⟨',' :: more, next⟩ := by
    simp [notAhead, opens]
  rw [spacedItem, bind_apply, skipped] at undone
  dsimp only at undone
  rw [bind_apply, passed] at undone
  dsimp only at undone
  rcases bind_eq_undone_iff.mp undone with failed | ⟨_, _, _, failed⟩
  · exact agrees.comma positive setting _ rfl _ failed
  · exact ((isNeverUndone_skip true).bind (fun _ => isNeverUndone_pure _) failed).elim

/-- The items of a list are read alike up to the closing bracket. -/
theorem tracks_listItemsForm (setting : Setting) : Tracks k bound Form.unplaced (Meets k ']')
    (Skips k) (listItemsForm level setting) (listItemsForm level' setting) := by
  have known : [[',']] ⊆ [[','], ['.', '.', '.']] := by decide
  have items : Tracks k bound (List.map Expr.unplaced) (EndsItems k [[',']] ']') (Skips k)
      (separated (spacedItem level setting (· == ']')))
      (separated (spacedItem level' setting (· == ']'))) := by
    refine (tracks_spacedItem agrees).separated (fun w _ => stops_comma w) ?_ ?_
      (fun _ => stops_of_endsItems known) fun _ ending => (stops_of_endsItems known ending).skips
    · intro w c complaint _ ending _
      exact isUndone_another known (by decide) (by decide) ending
    · rintro w c complaint views short undone (skips | ⟨sign, rest, member, rfl, skips⟩)
      · exact isUndone_spacedItem (by decide) skips .right
      · obtain rfl := List.mem_singleton.mp member
        refine absurd undone (spacedItem_of_comma agrees (Nat.zero_lt_of_lt short) (by decide) ?_ _)
        rw [views]
        rfl
  have comma : Tracks k bound (Option.map id) (SkipsTo k true (Meets k ']') (IsSettled k))
      (EndsItems k [[',']] ']') (Parser.optional (char ',')) (Parser.optional (char ',')) :=
    (tracks_char fun w skips => .inr ⟨[','], w, List.mem_singleton_self _, rfl, skips⟩).optional
      (isDecided_char (by decide)).fails fun _ => .inl
  exact items.bind fun _ _ same => comma.bind fun _ _ _ =>
    (tracks_skip_to fun _ => stops_of_meets (by decide) (by decide)).bind fun _ _ _ =>
      tracks_pure (by simp only [Form.unplaced, itemsUnplaced_eq_map, same])

omit agrees in
/-- What stands between the brackets of a list, read behind the opening one. -/
def listInside (level : Level) (setting : Setting) : Parser Form := fun c =>
  if startsFor c then listForForm level setting c else listItemsForm level setting c

/-- What stands between the brackets of a list is read alike in front of the closing one. -/
theorem tracks_listInside (setting : Setting) : Tracks k bound Form.unplaced (Meets k ']') (Skips k)
    (listInside level setting) (listInside level' setting) :=
  (tracks_listForForm agrees setting).either (tracks_listItemsForm agrees setting) startsFor
    fun _ _ _ views views' skips => startsFor_window views views' skips.ends

/-- So is the whole list, whatever follows its bracket. -/
theorem tracks_listForm (setting : Setting) : Tracks k (bound + 1) Form.unplaced ends
    (fun _ => True) (listForm level setting) (listForm level' setting) :=
  (tracks_enclosed (isSign_char '[') (isSign_demandWord rfl)
    (tracks_listInside agrees setting)).imp (fun _ ending => ending) fun _ _ => trivial

end Items

/-! ## Objects -/

/-- In front of the window the entries of an object go on, or its brace comes next. -/
structure EndsEntries (k : Frame) (window : List Char) : Prop where
  stops : Stops k window
  brace : window = [] → Meets k '\x7d' []

theorem tracks_objectSign : Tracks k bound id (Skips k) (Stops k) objectSign objectSign := by
  refine tracks_of_reads (fun _ => advances_objectSign) (fun _ => advances_objectSign) ?_
  intro front window c _ next passes _ skips read
  obtain ⟨_, offset⟩ := c
  unfold objectSign at read
  split at read
  · cases read
  · next x rest same =>
    obtain rfl : _ = x :: rest := same
    split at read
    · next sign =>
      obtain ⟨_, rfl⟩ := Outcome.read.inj read
      obtain rfl := passes.eq (Cursor.passes_tail x rest offset)
      simp only [Bool.or_eq_true, beq_iff_eq] at sign
      rcases sign with rfl | rfl
      · exact ⟨stops_cons (by decide) skips.goesOn, fun _ => ⟨(), _, rfl, rfl⟩⟩
      · exact ⟨stops_cons (by decide) skips.goesOn, fun _ => ⟨(), _, rfl, rfl⟩⟩
    · cases read

theorem takesSome_objectSign : TakesSome objectSign := by
  intro c _ next read
  unfold objectSign at read
  split at read
  · cases read
  · next x rest same =>
    split at read
    · obtain ⟨_, rfl⟩ := Outcome.read.inj read
      exact length_lt_of_drop same (.refl _)
    · cases read

theorem blank_of_lineComment {a : Unit} (read : lineComment c = .read a next) :
    blank true c = .read a next := by
  obtain ⟨_, offset⟩ := c
  obtain ⟨_, line, rfl | rfl, same, rfl⟩ := lineComment_eq_read_iff.mp read
  · obtain rfl : _ = '#' :: line := same
    exact read
  · obtain rfl : _ = '/' :: '/' :: line := same
    exact read

/-- What ends a line is a blank between brackets. -/
theorem stops_of_lineBreak {ending : List Char} (breaks : ending = ['\n'] ∨ ending = ['\r', '\n'])
    (stops : Stops k window) : Stops k (ending ++ window) := by
  have onward (x : Char) {rest : List Char} (stops : Stops k rest)
      (read : blank true ⟨x :: (rest ++ k.left), 0⟩ = .read () ⟨rest ++ k.left, 0 + x.utf8Size⟩) :
      Stops k (x :: rest) := by
    have passes := Cursor.passes_tail x (rest ++ k.left) 0
    exact endsEarly_of_blank (fun _ => isSettled_of_startsLineEnd) passes rfl stops read
  have feed : Stops k ('\n' :: window) := onward '\n' stops rfl
  rcases breaks with rfl | rfl
  · exact feed
  · exact onward '\r' feed rfl

theorem reads_lineBreak {ending : List Char} (breaks : ending = ['\n'] ∨ ending = ['\r', '\n'])
    (rest : List Char) : Reads (do let _ ← lineBreak) (ending ++ rest) (fun _ => True) rest := by
  rcases breaks with rfl | rfl
  · exact fun offset => ⟨(), _, rfl, trivial⟩
  · exact fun offset => ⟨(), _, rfl, trivial⟩

/-- A line break separates entries, as a comment does that goes up to one. -/
theorem objectSeparator_of_break {ending : List Char}
    (breaks : ending = ['\n'] ∨ ending = ['\r', '\n']) (rest : List Char) (offset : Nat) :
    objectSeparator ⟨ending ++ rest, offset⟩ = (do let _ ← lineBreak) ⟨ending ++ rest, offset⟩ := by
  rcases breaks with rfl | rfl
  · rfl
  · rfl

theorem objectSeparator_of_comment {comment : List Char}
    (sign : ∃ more, comment = '#' :: more ∨ comment = '/' :: '/' :: more) (rest : List Char)
    (offset : Nat) : objectSeparator ⟨comment ++ rest, offset⟩ =
      (do lineComment; let _ ← lineBreak) ⟨comment ++ rest, offset⟩ := by
  obtain ⟨more, rfl | rfl⟩ := sign
  · rfl
  · rfl

theorem passes_of_lineBreak (read : (do let _ ← lineBreak) c = .read () next) :
    ∃ ending, (ending = ['\n'] ∨ ending = ['\r', '\n']) ∧ c.Passes ending next := by
  obtain ⟨ending, last, taken, made⟩ := bind_eq_read_iff.mp read
  obtain ⟨_, rfl⟩ := Outcome.read.inj made
  obtain ⟨passed, breaks⟩ := passes_lineBreak taken
  exact ⟨ending, breaks, passed⟩

/-- Entries are separated in the same way if more entries follow or the closing brace. -/
theorem tracks_objectSeparator :
    Tracks k bound id (EndsEntries k) (Stops k) objectSeparator objectSeparator := by
  refine tracks_of_reads (fun _ => advances_objectSeparator) (fun _ => advances_objectSeparator) ?_
  intro front window c _ next passes views ending read
  have stops := ending.stops
  rcases objectSeparator_cases read with
    ⟨rest, same, rfl⟩ | ⟨rest, same, rfl⟩ | broken | commented
  · -- The closing brace separates as well, but it is left for the object, be it in the window or
    -- behind it.
    obtain rfl := passes.eq (.refl _)
    have whole : '\x7d' :: rest = window ++ k.left := same.symm.trans views
    obtain ⟨more, again⟩ : ∃ more, window ++ k.right = '\x7d' :: more := by
      cases window with
      | nil => exact (ending.brace rfl).exists_cons .right
      | cons y window => exact ⟨_, congrArg (· :: _) (List.cons.inj whole).1.symm⟩
    exact ⟨stops, fun offset => ⟨(), offset, by rw [List.nil_append, again]; rfl, rfl⟩⟩
  · obtain ⟨_, offset⟩ := c
    obtain rfl : _ = ',' :: rest := same
    obtain rfl := passes.eq (Cursor.passes_tail ',' rest offset)
    exact ⟨stops_comma window, fun offset => ⟨(), offset + ','.utf8Size, rfl, rfl⟩⟩
  · obtain ⟨ending, breaks, passed⟩ := passes_of_lineBreak broken
    obtain rfl := passes.eq passed
    refine ⟨stops_of_lineBreak breaks stops, fun offset => ?_⟩
    rw [objectSeparator_of_break breaks]
    exact (reads_lineBreak breaks _).imp (fun _ _ => rfl) offset
  · obtain ⟨_, middle, comment, more⟩ := bind_eq_read_iff.mp commented
    obtain ⟨ending, breaks, passed⟩ := passes_of_lineBreak more
    obtain ⟨before, first⟩ := leadsTo_of_advances (fun _ => advances_lineComment) comment
    obtain rfl := passes.eq (first.trans passed)
    have below := stops_of_lineBreak breaks stops
    have here := passed.views_append views
    obtain ⟨reads, sign⟩ :=
      reads_lineComment first here below.goesOn comment k.closesLeft k.closesRight
    refine ⟨?_, fun offset => ?_⟩
    · rw [List.append_assoc]
      exact endsEarly_of_blank (fun _ => isSettled_of_startsLineEnd) first here below
        (blank_of_lineComment comment)
    · rw [List.append_assoc] at reads
      simp only [List.append_assoc]
      rw [objectSeparator_of_comment sign]
      exact (reads.bind fun _ _ => reads_lineBreak breaks _) offset

/-- Another entry starts in front of the window, and something follows its first character. -/
def StartsEntry (k : Frame) (window : List Char) : Prop :=
  StartsTerm window ∧ 2 ≤ (window ++ k.left).length

/-- A value may end where the separator stands. -/
theorem stops_of_startsEntry (starts : StartsEntry k window) : Stops k window := by
  obtain ⟨⟨x, rest, rfl, start⟩, long⟩ := starts
  refine stops_cons (startsBlank_of_startsTerm start) fun none => ?_
  rw [List.cons_append, none] at long
  exact absurd long (Nat.not_succ_le_self 1)

/-- Whether another entry starts. -/
theorem tracks_objectMore : Tracks k bound (Option.map id)
    (fun w => StartsEntry k w ∨ Meets k '\x7d' w) (fun w => StartsEntry k w ∨ Meets k '\x7d' w)
    (Parser.optional (notAhead (· == '\x7d'))) (Parser.optional (notAhead (· == '\x7d'))) := by
  have ahead : Tracks k bound id (fun w => StartsEntry k w ∨ Meets k '\x7d' w)
      (fun w => StartsEntry k w ∨ Meets k '\x7d' w) (notAhead (· == '\x7d'))
      (notAhead (· == '\x7d')) := by
    refine ⟨fun _ => advances_notAhead _, ?_⟩
    intro front window c a next passes views short ending read
    rcases ending with starts | meets
    · obtain ⟨_, again⟩ :=
        (tracks_notAhead (· == '\x7d')).follows passes views short starts.1 read
      obtain ⟨_, rfl⟩ := notAhead_eq_read_iff.mp read
      obtain rfl := passes.eq (.refl _)
      exact ⟨.inl starts, again⟩
    · obtain ⟨other, rfl⟩ := notAhead_eq_read_iff.mp read
      rw [views] at other
      exact absurd (other _ (meets .left)) (by decide)
  refine ahead.optional ?_ fun _ ending => ending
  rintro window c complaint views (starts | meets) undone
  · obtain ⟨⟨x, rest, rfl, start⟩, _⟩ := starts
    have here : notAhead (· == '\x7d') c = .read () c := by
      refine notAhead_eq_read_iff.mpr ⟨?_, rfl⟩
      rw [views]
      refine forall_mem_head?_cons (beq_false_of_ne ?_) _
      rintro rfl
      exact absurd start (by decide)
    rw [here] at undone
    cases undone
  · obtain ⟨rest, same⟩ := meets.exists_cons .right
    rw [same]
    exact isUndone_notAhead (by decide)

section Objects

variable (agrees : level.Agrees k bound level')
include agrees

/-- An entry is read alike with the separator behind it. -/
theorem tracks_objectItem : Tracks k bound entryUnplaced (EndsEntries k) StartsTerm
    (objectItem level) (objectItem level') := by
  have key := (agrees.expr .line).imp (fun _ (stops : Stops k _) => stops.ends)
    fun _ starts => starts
  exact key.bind fun _ _ same => (tracks_skip false).bind fun _ _ _ =>
    tracks_objectSign.bind fun _ _ _ => (tracks_skip_early false).bind fun _ _ _ =>
      (agrees.exprStops .line).bind fun _ _ same' => (tracks_skip false).bind fun _ _ _ =>
        tracks_objectSeparator.bind fun _ _ _ => tracks_pure (Prod.ext same same')

theorem takesSome_objectItem : TakesSome (objectItem level) :=
  .bind_right (agrees.expr .line).advances fun _ => .bind_right (fun _ => advances_skip false)
    fun _ => takesSome_objectSign.bind fun _ _ => (advances_skip false).bind fun _ _ =>
      ((agrees.expr .line).advances _).bind fun _ _ => (advances_skip false).bind fun _ _ =>
        advances_objectSeparator.bind fun _ _ => advances_pure _

/-- The entries of an object up to its brace, if the second limit is no shorter than the window. -/
theorem tracks_objectItems (limit limit' : List Char) {less : Nat} (within : less ≤ bound)
    (enough : less ≤ limit'.length) : Tracks k less (List.map entryUnplaced) (Meets k '\x7d')
      (EndsEntries k) (objectItems level limit) (objectItems level' limit') := by
  have advances (limit : List Char) : ∀ text, Advances text (objectItems level limit) :=
    fun text => (yields_objectItems (agrees.sound text) limit).advances
  -- The first limit was long enough for what was read; the second one need only be as long as the
  -- windows, since every entry takes a character.
  induction limit generalizing limit' less with
  | nil => exact tracks_of_not_read fun _ _ _ => nofun
  | cons x limit ih =>
    cases less with
    | zero => exact tracks_zero (advances _)
    | succ less =>
      obtain ⟨x', limit', rfl⟩ := List.exists_cons_of_length_pos
        (Nat.lt_of_lt_of_le (Nat.zero_lt_succ less) enough)
      have others := ih limit' (Nat.le_of_succ_le within) (Nat.le_of_succ_le_succ enough)
      have takes : TakesSome (do let entry ← objectItem level
                                 let rest ← objectItems level limit
                                 return entry :: rest) :=
        (takesSome_objectItem agrees).bind fun _ text => (advances limit text).bind fun _ _ =>
          advances_pure _
      have item : Tracks k (less + 1) (List.map entryUnplaced) (Meets k '\x7d') StartsTerm
          (do let entry ← objectItem level
              let rest ← objectItems level limit
              return entry :: rest)
          (do let entry ← objectItem level'
              let rest ← objectItems level' limit'
              return entry :: rest) :=
        ((tracks_objectItem agrees).mono within).bind_less (takesSome_objectItem agrees)
          fun _ _ same => others.bind fun _ _ sames =>
            tracks_pure (by rw [List.map_cons, List.map_cons, same, sames])
      have long := item.and (item.starts_long takes fun w meets => by
        obtain ⟨rest, same⟩ := meets.exists_cons .left
        rw [same]
        exact Nat.zero_lt_succ _)
      have entries : Tracks k (less + 1) (List.map entryUnplaced) (Meets k '\x7d') (Stops k)
          (objectItems level (x :: limit)) (objectItems level' (x' :: limit')) := by
        have stops (w : List Char) (ending : StartsEntry k w ∨ Meets k '\x7d' w) : Stops k w :=
          ending.elim stops_of_startsEntry (stops_of_meets (by decide) (by decide))
        refine ((tracks_skip true).imp stops fun _ stops => stops).bind fun _ _ _ =>
          tracks_objectMore.bind fun ahead ahead' same => ?_
        obtain rfl : ahead' = ahead := by simpa using same
        cases ahead' with
        | some _ => exact long.imp (fun _ meets => meets) fun _ => .inl
        | none => exact (tracks_pure rfl).imp (fun _ meets => meets) fun _ => .inr
      exact (entries.and entries.starts_nil).imp (fun _ meets => meets)
        fun _ both => ⟨both.1, both.2⟩

/-- The entries of an object are read alike up to the closing brace. -/
theorem tracks_objectItemsForm : Tracks k bound Form.unplaced (Meets k '\x7d') (Skips k)
    (objectItemsForm level) (objectItemsForm level') := by
  refine ⟨fun text => (yields_objectItemsForm (agrees.sound text)).advances, ?_⟩
  intro front window c form next passes views short ending read
  have items (limit' : List Char) (enough : (front ++ window).length < limit'.length) :
      Tracks k ((front ++ window).length + 1) Form.unplaced (Meets k '\x7d') (EndsEntries k)
        (do return .object (entriesOf (← objectItems level (' ' :: c.rest))))
        (do return .object (entriesOf (← objectItems level' limit'))) :=
    (tracks_objectItems agrees _ limit' short enough).bind fun _ _ same => tracks_pure (by
      simp only [Form.unplaced, entriesUnplaced_eq_map, entriesOf_unplaced, same])
  have follows (limit' : List Char) (enough : (front ++ window).length < limit'.length) :=
    (items limit' enough).follows passes views (Nat.lt_succ_self _) ending read
  refine ⟨(follows (' ' :: (front ++ window)) (Nat.lt_succ_self _)).1.stops.skips,
    fun c' here => ?_⟩
  refine (follows (' ' :: c'.rest) ?_).2 here
  have lengths := congrArg List.length here
  simp only [List.length_append, List.length_cons] at lengths ⊢
  omega

omit agrees in
/-- What stands between the braces of an object, read behind the opening one, and the setting for
what follows the object. -/
def objectInside (level : Level) (setting : Setting) : Parser (Form × Setting) := fun c =>
  if startsFor c then
    (do return (← objectForForm level setting.withBreaks, setting.withBreaks) :
      Parser (Form × Setting)) c
  else (do return (← objectItemsForm level, setting) : Parser (Form × Setting)) c

/-- What stands between the braces of an object is read alike in front of the closing one. -/
theorem tracks_objectInside (setting : Setting) : Tracks k bound (fun a => (a.1.unplaced, a.2))
    (Meets k '\x7d') (Skips k) (objectInside level setting) (objectInside level' setting) :=
  ((tracks_objectForForm agrees setting.withBreaks).paired setting.withBreaks).either
    ((tracks_objectItemsForm agrees).paired setting) startsFor
      fun _ _ _ views views' skips => startsFor_window views views' skips.ends

/-- So is the whole object, whatever follows its brace. -/
theorem tracks_objectForm (setting : Setting) : Tracks k (bound + 1)
    (fun a => (a.1.unplaced, a.2)) ends (fun _ => True) (objectForm level setting)
    (objectForm level' setting) :=
  (tracks_enclosed (isSign_char '\x7b') (isSign_demandWord rfl)
    (tracks_objectInside agrees setting)).imp (fun _ ending => ending) fun _ _ => trivial

end Objects

/-! ## Names and calls -/

theorem takesSome_identifier : TakesSome identifier :=
  (takesSome_satisfy _).bind fun _ _ => (advances_satisfy _).many.bind fun _ _ => advances_pure _

/-- Behind the last argument stands one of two signs. -/
theorem passes_argumentsEnd {spread : Bool} (read : argumentsEnd c = .read spread next) :
    ∃ sign ∈ [[','], ['.', '.', '.']], c.Passes sign next := by
  rw [argumentsEnd_eq_choice] at read
  rcases choice_eq_read_iff.mp read with read | ⟨_, read⟩
  · obtain ⟨_, last, comma, made⟩ := bind_eq_read_iff.mp read
    obtain ⟨_, rfl⟩ := Outcome.read.inj made
    exact ⟨_, List.mem_cons_self, passes_char comma⟩
  · obtain ⟨_, between, dot, more⟩ := bind_eq_read_iff.mp read
    obtain ⟨_, last, dots, made⟩ := bind_eq_read_iff.mp more
    obtain ⟨_, rfl⟩ := Outcome.read.inj made
    exact ⟨_, .tail _ (List.mem_singleton_self _),
      (passes_char dot).trans (passes_word (demand_eq_read_iff.mp dots))⟩

/-- A call, behind the first of its names. -/
def callBehind (level : Level) (setting : Setting) (names : List String) :
    Parser (Form × Setting) := do
  skip setting.breaks
  let (arguments, spread) ← arguments level setting.withBreaks
  return (.call names arguments spread, setting.withBreaks)

/-- What a name is read as, by what is announced behind it. -/
def nameBehind (level : Level) (setting : Setting) (name : String) :
    NameSequel → Parser (Form × Setting)
  | .names => do
    let more ← many1 (namespacePart setting.breaks)
    callBehind level setting (name :: more)
  | .call => callBehind level setting [name]
  | .nothing => pure (nameForm name, setting)

/-- What stands behind a name announces how it goes on. -/
theorem nameBehind_nameSequel (level : Level) (setting : Setting) (name : String) (c : Cursor) :
    (match (afterBlanks setting.breaks c).rest with
      | ':' :: ':' :: _ => nameBehind level setting name .names c
      | '(' :: _ :: _ => nameBehind level setting name .call c
      | _ => nameBehind level setting name .nothing c) =
      nameBehind level setting name (nameSequel (afterBlanks setting.breaks c).rest) c := by
  split
  · next same =>
    rw [same]
    rfl
  · next same =>
    rw [same]
    rfl
  · next noNames noCall => rw [nameSequel.eq_3 _ noNames noCall]

/-- What is announced behind a name tells whether it is called. -/
theorem nameOrCall_eq (level : Level) (setting : Setting) : nameOrCall level setting = (do
    let name ← identifier
    fun c => nameBehind level setting name
      (nameSequel (afterBlanks setting.breaks c).rest) c) :=
  congrArg (identifier >>= ·) (funext fun name => funext fun c =>
    nameBehind_nameSequel level setting name c)

theorem nameSequel_stable (breaks : Bool) (views : c.Views window k.left)
    (views' : c'.Views window k.right) (halts : Halts k window) :
    nameSequel (afterBlanks breaks c').rest = nameSequel (afterBlanks breaks c).rest := by
  obtain ⟨rest, settled, behind⟩ := exists_afterBlanks halts breaks
  rw [behind .left views, behind .right views']
  exact settled.name

section Calls

/-- What stands between the parentheses of a call, read behind the opening one. -/
def argumentsInside (level : Level) (setting : Setting) : Parser (List Expr × Bool) := do
  let result ← optional do
    let arguments ←
      separated1 (spacedItem level setting fun x => x == ',' || x == '.' || x == ')')
    let spread ← optional argumentsEnd
    return (arguments, spread.getD false)
  skip true
  return result.getD ([], false)

theorem arguments_eq (level : Level) (setting : Setting) : arguments level setting =
    enclosed (demandWord "(") (argumentsInside level setting) (demand .callEnd (word [')'])) := by
  simp only [enclosed, argumentsInside, bind_bind]
  rfl

variable (agrees : level.Agrees k bound level')
include agrees

/-- The arguments of a call are read alike in front of the closing parenthesis. -/
theorem tracks_argumentsInside (setting : Setting) : Tracks k bound
    (fun a => (a.1.map Expr.unplaced, a.2)) (Meets k ')') (Skips k)
    (argumentsInside level setting) (argumentsInside level' setting) := by
  have known : [[','], ['.', '.', '.']] ⊆ [[','], ['.', '.', '.']] := List.Subset.refl _
  have stops (w : List Char) (ending : EndsItems k [[','], ['.', '.', '.']] ')' w) : Stops k w :=
    stops_of_endsItems known ending
  have items : Tracks k bound (List.map Expr.unplaced)
      (EndsItems k [[','], ['.', '.', '.']] ')') (Skips k)
      (separated1 (spacedItem level setting fun x => x == ',' || x == '.' || x == ')'))
      (separated1 (spacedItem level' setting fun x => x == ',' || x == '.' || x == ')')) :=
    (tracks_spacedItem agrees).separated1 (fun w _ => stops_comma w)
      (fun _ _ _ _ ending _ => isUndone_another known (by decide) (by decide) ending) stops
  have spread : Tracks k bound (Option.map id) (SkipsTo k true (Meets k ')') (IsSettled k))
      (EndsItems k [[','], ['.', '.', '.']] ')') (Parser.optional argumentsEnd)
      (Parser.optional argumentsEnd) := by
    refine Tracks.optional (isDecided_argumentsEnd.tracks (fun _ => advances_argumentsEnd) ?_)
      isDecided_argumentsEnd.fails fun _ => .inl
    intro front window c _ next read passes skips
    obtain ⟨sign, member, passed⟩ := passes_argumentsEnd read
    obtain rfl := passes.eq passed
    exact .inr ⟨front, window, member, rfl, skips⟩
  have given : Tracks k bound (fun a => (a.1.map Expr.unplaced, a.2))
      (SkipsTo k true (Meets k ')') (IsSettled k)) (Skips k)
      (do let arguments ←
            separated1 (spacedItem level setting fun x => x == ',' || x == '.' || x == ')')
          let spread ← Parser.optional argumentsEnd
          return (arguments, spread.getD false))
      (do let arguments ←
            separated1 (spacedItem level' setting fun x => x == ',' || x == '.' || x == ')')
          let spread ← Parser.optional argumentsEnd
          return (arguments, spread.getD false)) :=
    items.bind fun _ _ sames => spread.bind fun dots dots' same => by
      obtain rfl : dots' = dots := by simpa using same
      exact tracks_pure (Prod.ext sames rfl)
  have all := given.optional (fun w _ _ _ skips _ =>
    ((isUndone_spacedItem (by decide) skips .right).bind _).bind _) fun w skips => skips.ends.skips
  refine all.bind fun given given' same =>
    (tracks_skip_to fun _ => stops_of_meets (by decide) (by decide)).bind fun _ _ _ => tracks_pure ?_
  cases given with
  | none =>
    cases given' with
    | none => rfl
    | some _ => cases same
  | some _ =>
    cases given' with
    | none => cases same
    | some _ => exact Option.some.inj same

/-- So are they with both parentheses, whatever follows them. -/
theorem tracks_arguments (setting : Setting) : Tracks k bound
    (fun a => (a.1.map Expr.unplaced, a.2)) ends (Opens k '(') (arguments level setting)
    (arguments level' setting) := by
  rw [arguments_eq, arguments_eq]
  exact (tracks_enclosed (isSign_demandWord rfl) (isSign_demand ')' _)
    (tracks_argumentsInside agrees setting)).mono (Nat.le_succ bound)

theorem tracks_callBehind (setting : Setting) (names : List String) :
    Tracks k bound (fun a => (a.1.unplaced, a.2)) ends
      (SkipsTo k setting.breaks (Opens k '(') (IsSettled k))
      (callBehind level setting names) (callBehind level' setting names) := by
  refine (tracks_skip_to fun _ => stops_of_opens (by decide)).bind fun _ _ _ =>
    (tracks_arguments agrees setting.withBreaks).bind fun (_, _) (_, _) same => tracks_pure ?_
  obtain ⟨sames, rfl⟩ := Prod.mk.inj same
  simp only [Form.unplaced, itemsUnplaced_eq_map, sames]

omit agrees in
theorem takesSome_namespacePart (breaks : Bool) : TakesSome (namespacePart breaks) :=
  .bind_right (fun _ => advances_skip _) fun _ => (takesSome_word (List.cons_ne_nil _ _)).bind
    fun _ _ => (advances_skip _).bind fun _ _ => advances_demandIdentifier

omit agrees in
theorem isUndone_namespacePart_nil (breaks : Bool) : IsUndone (namespacePart breaks) [] :=
  (reads_skip_of_isUndone (isUndone_blank_nil _)).bind_isUndone fun _ _ => (isUndone_word rfl).bind _

omit agrees in
/-- A further name of a call is read alike, since parentheses have to follow. -/
theorem tracks_namespacePart (breaks : Bool) : Tracks k bound id ends (Stops k)
    (namespacePart breaks) (namespacePart breaks) :=
  (tracks_skip breaks).bind fun _ _ _ =>
    (tracks_word fun w _ => stops_sign (by decide) w).bind fun _ _ _ =>
      (tracks_skip_early breaks).bind fun _ _ _ => tracks_demandIdentifier

/-- A name is a variable where nothing is announced, and that is settled where it ends. -/
theorem tracks_nameBehind (setting : Setting) (name : String) (sequel : NameSequel) :
    Tracks k bound (fun a => (a.1.unplaced, a.2)) (Halts k) (Halts k)
      (nameBehind level setting name sequel) (nameBehind level' setting name sequel) := by
  cases sequel with
  | names =>
    have more : Tracks k bound (List.map id)
        (SkipsTo k setting.breaks (Opens k '(') (IsSettled k)) (Stops k)
        (many1 (namespacePart setting.breaks)) (many1 (namespacePart setting.breaks)) := by
      refine (tracks_namespacePart _).many1 (takesSome_namespacePart _)
        (isUndone_namespacePart_nil _) ?_ fun _ skips => skips.ends
      rintro w c complaint _ ⟨_, _, ⟨rest, rfl, _⟩, reads⟩ _
      exact (reads .right).bind_isUndone fun _ _ => (isUndone_word rfl).bind _
    refine (more.imp (fun _ skips => skips) fun _ stops => stops.ends).bind
      fun names names' same => ?_
    obtain rfl : names' = names := by simpa using same
    exact tracks_callBehind agrees setting _
  | call =>
    exact (tracks_callBehind agrees setting _).imp (fun _ halts => halts)
      fun _ skips => skips.ends.ends
  | nothing => exact tracks_pure rfl

/-- So names and calls are read alike. -/
theorem tracks_nameOrCall (setting : Setting) : Tracks k (bound + 1)
    (fun a => (a.1.unplaced, a.2)) (Halts k) (fun _ => True) (nameOrCall level setting)
    (nameOrCall level' setting) := by
  have name : Tracks k (bound + 1) id (Halts k) (fun _ => True) identifier identifier :=
    tracks_identifier fun _ _ _ => trivial
  rw [nameOrCall_eq, nameOrCall_eq]
  refine name.bind_less takesSome_identifier fun name name' same => ?_
  obtain rfl : name' = name := same
  exact .select (fun c => nameSequel (afterBlanks setting.breaks c).rest)
    (fun _ _ _ => nameSequel_stable setting.breaks) (tracks_nameBehind agrees setting name')

end Calls

/-! ## Terms -/

/-- The window starts with the sign, and behind blanks in the line with a term. -/
def StartsSigned (k : Frame) (sign : Char) (window : List Char) : Prop :=
  ∃ rest, window = sign :: rest ∧ SkipsTo k false StartsTerm (fun _ => True) rest

theorem upTo_of_passes (passes : c.Passes front next) : c.upTo next = front :=
  (Cursor.LeadsTo.passes_upTo ⟨front, passes⟩).eq passes

/-- Where a sign is followed by no number, the same window shows this again. -/
theorem isUndone_negativeNumber {complaint : Complaint} (views : c.Views window k.left)
    (undone : negativeNumber c = .undone complaint) (starts : StartsSigned k '-' window) :
    IsUndone negativeNumber (window ++ k.right) := by
  obtain ⟨_, offset⟩ := c
  obtain rfl : _ = window ++ k.left := views
  obtain ⟨rest, rfl, _, behind, _, reads⟩ := starts
  obtain ⟨_, start, sign, _⟩ := reads_char '-' (rest ++ k.left) offset
  obtain ⟨_, middle, skipped, _⟩ := reads .left start
  rw [negativeNumber, bind_apply, List.cons_append, sign] at undone
  dsimp only at undone
  rw [bind_apply, skipped] at undone
  dsimp only at undone
  rcases bind_eq_undone_iff.mp undone with failed | ⟨_, _, _, ⟨⟩⟩
  have fails : Fails k (fun _ => True) number number := isDecided_number.fails
  have noNumber := fails (show Cursor.Views behind k.left ⟨_, middle⟩ from rfl) trivial failed
  exact (reads_char '-' _).bind_isUndone fun _ _ =>
    (reads .right).bind_isUndone fun _ _ => noNumber.bind _

/-- A number ends in front of what closes the window. -/
theorem tracks_number : Tracks k bound id ends (Skips k) number number := by
  refine isDecided_number.tracks (fun _ => advances_number) ?_
  intro front window c value next read passes _
  obtain ⟨x, more, passed, digit, _⟩ := passes_number read
  obtain rfl := passes.eq passed
  exact skips_cons (startsBlank_of_isDigit digit) _

/-- The first character of a term is one of the signs that start terms. -/
theorem startsTerm_of_readsTerm {p : Parser (Form × Setting)}
    (reads : ReadsTerm level setting x p) :
    x ∈ termSigns ∨ x.isDigit = true ∨ isIdentifierStart x = true := by
  cases reads with
  | number digit => exact .inr (.inl digit)
  | name start => exact .inr (.inr start)
  | _ => exact .inl (by decide)

/-- A term that ends in a window starts there: brackets start none, and a quote is passed. -/
theorem exists_window_cons {p : Parser (Form × Setting)} {a : Form × Setting}
    (sound : ∀ text, level.IsSound text (·.IsIn text)) (reads : ReadsTerm level setting x p)
    (closes : Closes close) (views : c.Views window close) (first : x ∈ c.rest.head?)
    (read : p c = .read a next) (inside : close.length ≤ next.rest.length) :
    ∃ rest, window = x :: rest := by
  rw [views] at first
  cases window with
  | nil =>
    have closer := closes x first
    have start := startsTerm_of_readsTerm reads
    simp only [closers, List.mem_cons, List.not_mem_nil, or_false] at closer
    rcases closer with rfl | rfl | rfl | rfl
    case inr.inr.inr =>
      obtain _ | _ | _ | _ | _ | _ | _ | ⟨⟨⟩⟩ | ⟨⟨⟩⟩ := reads
      have takes := (takesSome_quotedForm sound).bind fun form _ => advances_pure (form, setting)
      have less := takes read
      rw [views] at less
      exact absurd inside (Nat.not_le_of_lt less)
    all_goals exact absurd start (by decide)
  | cons y rest =>
    obtain rfl : y = x := Option.some.inj first
    exact ⟨rest, rfl⟩

section Terms

variable (agrees : level.Agrees k bound level')
include agrees

/-- A sign is read alike with the term behind it. -/
theorem tracks_signed (setting : Setting) (sign : Char) (op : UnaryOp) :
    Tracks k (bound + 1) (fun a => (a.1.unplaced, a.2)) (Halts k) (StartsSigned k sign)
      (signed level setting sign op) (signed level' setting sign op) := by
  refine (tracks_char fun w skips => ⟨w, rfl, skips⟩).bind_less (takesSome_satisfy _) fun _ _ _ =>
    (tracks_skip_to_of (fun _ _ => trivial) fun _ => skips_of_startsTerm).bind fun _ _ _ =>
      (agrees.term setting).bind fun (_, _) (_, _) same => tracks_pure ?_
  obtain ⟨same, rfl⟩ := Prod.mk.inj same
  simp only [Form.unplaced, same]

/-- A minus sign starts a number in both texts, or a term in both. -/
theorem tracks_negative (setting : Setting) : Tracks k (bound + 1)
    (fun a : Form × Setting => (a.1.unplaced, a.2)) (Halts k) (fun _ => True)
    (choice (do return (← (do return .number (← negativeNumber)), setting))
      (signed level setting '-' .minus))
    (choice (do return (← (do return .number (← negativeNumber)), setting))
      (signed level' setting '-' .minus)) := by
  have number : Tracks k (bound + 1) id (Halts k) (fun _ => True) negativeNumber
      negativeNumber :=
    (tracks_char fun _ _ => trivial).bind fun _ _ _ => (tracks_skip_early false).bind fun _ _ _ =>
      tracks_number.bind fun _ _ same => tracks_pure (congrArg Numeral.neg same)
  have form : Tracks k (bound + 1) Form.unplaced (Halts k) (fun _ => True)
      (do return .number (← negativeNumber)) (do return .number (← negativeNumber)) :=
    number.bind fun _ _ same =>
      tracks_pure (congrArg (fun value => (Form.number value).unplaced) same)
  refine (form.paired setting).choice_of_undone (tracks_signed agrees setting '-' .minus) ?_
    fun _ _ => trivial
  intro front window c complaint a next passes views _ _ undone _ starts
  refine IsUndone.bind (IsUndone.bind ?_ _) _
  rcases bind_eq_undone_iff.mp undone with failed | ⟨_, _, _, ⟨⟩⟩
  rcases bind_eq_undone_iff.mp failed with noNumber | ⟨_, _, _, ⟨⟩⟩
  exact isUndone_negativeNumber (passes.views_append views) noNumber starts

/-- What a term is read with tracks, by its first character, where the term is no heredoc without
parts. -/
theorem tracks_of_readsTerm {p : Parser (Form × Setting)} (reads : ReadsTerm level setting x p) :
    ∃ p' q, ReadsTerm level' setting x p' ∧ Tracks k (bound + 1) (fun a => (a.1.unplaced, a.2))
      (Halts k) (fun _ => True) q p' ∧ ∀ c a next, p c = .read a next →
        a.1.isEmptyHeredoc = false → q c = .read a next := by
  have whole {starts : List Char → Prop} {p p' : Parser (Form × Setting)}
      (reads' : ReadsTerm level' setting x p') (tracks : Tracks k (bound + 1)
        (fun a => (a.1.unplaced, a.2)) (Halts k) starts p p') :
      ∃ p' q, ReadsTerm level' setting x p' ∧ Tracks k (bound + 1) (fun a => (a.1.unplaced, a.2))
        (Halts k) (fun _ => True) q p' ∧ ∀ c a next, p c = .read a next →
          a.1.isEmptyHeredoc = false → q c = .read a next :=
    ⟨p', p, reads', tracks.imp (fun _ halts => halts) fun _ _ => trivial, fun _ _ _ read _ => read⟩
  -- Only a heredoc is replaced: with no parts it may end differently in another text.
  cases reads with
  | quoted => exact whole .quoted ((tracks_quotedForm agrees).paired setting)
  | list => exact whole .list ((tracks_listForm agrees _).paired _)
  | object => exact whole .object (tracks_objectForm agrees setting)
  | heredoc =>
    have tracks : Tracks k (bound + 1) Form.unplaced (Halts k) (fun _ => True)
        (filledHeredocForm level) (filledHeredocForm level') :=
      (tracks_filledHeredocForm agrees).imp (fun _ halts => halts) fun _ _ => trivial
    have filled : Tracks k (bound + 1) Form.unplaced (Halts k) (fun _ => True)
        (filledHeredocForm level) (heredocForm level') :=
      tracks.of_reads tracks.advances (fun _ _ _ read => read)
        fun _ _ _ => heredocForm_of_filledHeredocForm
    refine ⟨_, _, .heredoc, filled.paired setting, fun c a next read some => ?_⟩
    obtain ⟨form, middle, taken, made⟩ := bind_eq_read_iff.mp read
    obtain ⟨rfl, rfl⟩ := Outcome.read.inj made
    refine bind_eq_read_iff.mpr ⟨form, _, filledHeredocForm_of_heredocForm ?_ taken, rfl⟩
    rintro delimiter rfl
    cases some
  | parens => exact whole .parens ((tracks_parensForm agrees).paired setting)
  | negative => exact whole .negative (tracks_negative agrees setting)
  | negation => exact whole .negation (tracks_signed agrees setting '!' .not)
  | number digit =>
    have form : Tracks k (bound + 1) Form.unplaced (Halts k) (Skips k)
        (do return .number (← number)) (do return .number (← number)) :=
      tracks_number.bind fun _ _ same =>
        tracks_pure (congrArg (fun value => (Form.number value).unplaced) same)
    exact whole (.number digit) (form.paired setting)
  | name start => exact whole (.name start) (tracks_nameOrCall agrees setting)

/-- A term is read alike if it is no heredoc without parts, and if it is refused only where it is
refused in the first text. -/
theorem tracks_termAt {refused refused' : Form → Bool}
    (empty : ∀ form, form.isEmptyHeredoc = true → refused form = true)
    (weaker : ∀ form form', form'.unplaced = form.unplaced → refused' form' = true →
      refused form = true) (setting : Setting) :
    Tracks k (bound + 1) (fun a => (a.1.unplaced, a.2)) (Halts k) StartsTerm
      (refusing (fun a => refused a.1.form) (termAt level setting))
      (refusing (fun a => refused' a.1.form) (termAt level' setting)) := by
  refine ⟨fun text c a next here read => ?_, ?_⟩
  · have read := (refusing_eq_read_iff.mp read).1
    exact ⟨(holds_termAt (isAcquired_isIn text) (agrees.sound text) here read).2.1, trivial⟩
  intro front window c a next passes views short ending read
  obtain ⟨read, allowed⟩ := refusing_eq_read_iff.mp read
  obtain ⟨x, p, first, reads, marked⟩ := exists_readsTerm read
  obtain ⟨p', q, reads', tracks, onto⟩ := tracks_of_readsTerm agrees reads
  obtain ⟨form, after, taken, rfl⟩ := markedWith_eq_read_iff.mp marked
  have inside : k.left.length ≤ next.rest.length := by
    rw [views, List.length_append]
    exact Nat.le_add_left _ _
  obtain ⟨rest, whole⟩ := exists_window_cons agrees.sound reads k.closesLeft
    (passes.views_append views) first taken inside
  refine ⟨⟨x, rest, whole, startsTerm_of_readsTerm reads⟩, fun c' here => ?_⟩
  have some : form.isEmptyHeredoc = false :=
    Bool.eq_false_iff.mpr fun none => Bool.false_ne_true (allowed.symm.trans (empty form none))
  obtain ⟨_, again⟩ := tracks.follows passes views short ending (onto _ _ _ taken some)
  obtain ⟨⟨form', after'⟩, next', taken', passes', same⟩ := again here
  obtain ⟨sameForm, rfl⟩ := Prod.mk.inj same
  obtain ⟨_, offset⟩ := c'
  obtain rfl : _ = front ++ window ++ k.right := here
  rw [whole] at taken' passes' ⊢
  have marked' : markedWith p' ⟨x :: rest ++ k.right, offset⟩ = .read
      (.mk ⟨offset, String.ofList (Cursor.upTo ⟨x :: rest ++ k.right, offset⟩ next')⟩ form',
        after') next' := markedWith_eq_read_iff.mpr ⟨form', after', taken', rfl⟩
  have read' := (termAt_of_readsTerm reads' _ offset).trans marked'
  have allowed' : refused' form' = false := Bool.eq_false_iff.mpr fun stopped =>
    Bool.false_ne_true (allowed.symm.trans (weaker form form' sameForm stopped))
  refine ⟨_, next', refusing_eq_read_iff.mpr ⟨read', allowed'⟩, passes', ?_⟩
  rw [upTo_of_passes passes, upTo_of_passes passes']
  exact Prod.ext (Expr.unplaced_eq rfl sameForm) rfl

end Terms

end HclLint.Hcl.Grammar
