/-
# Steps and operators in a window

Behind a term the next characters announce how the expression goes on: with a step, an operator or
a conditional. Two characters tell which, and the second one may stand behind the window, so that
what is announced is settled where the text goes on. The operands and keys are read alike on the
levels below.

## Main definitions

* `announcedOp`, `announcedRest`: an operator where one is announced, and the operand behind it.
* `StartsOperator`: a window in which an operator is announced.
* `EndsSteps`: a window in which no further step is announced.

## Main statements

* `tracks_step`, `tracks_announcedRest`, `tracks_conditionalRest`: they are read alike.
* `isUndone_step_of_endsSteps`: steps end where none is announced.
* `sequel_stable`: the window settles what is announced.
-/

import HclLint.Proofs.Hcl.Window.Operand

namespace HclLint.Hcl.Grammar

open HclLint.Text HclLint.Hcl.Parser

variable {front window close close' text : List Char} {k : Frame} {bound : Nat}
  {level level' : Level} {ends : List Char → Prop} {setting : Setting} {breaks : Bool}
  {c c' next : Cursor} {x : Char}

/-! ## Steps -/

/-- No closing sign is a dot. -/
theorem startsDots_window (window : List Char) (closes : Closes close) (closes' : Closes close') :
    startsDots (window ++ close) = startsDots (window ++ close') := by
  have starts {close : List Char} (closes : Closes close) :
      startsDots (window ++ close) = true ↔ ∃ rest, window = ['.', '.'] ++ rest := by
    constructor
    · intro dots
      unfold startsDots at dots
      split at dots
      · next rest same =>
        refine exists_of_isPrefixOf (by decide) closes ?_
        exact List.isPrefixOf_iff_prefix.mpr ⟨rest, same.symm⟩
      · cases dots
    · rintro ⟨rest, rfl⟩
      rfl
  exact Bool.eq_iff_iff.mpr ((starts closes).trans (starts closes').symm)

/-- A step behind its dot and the blanks there, by its first character. -/
def dottedStep (first : Char) : Parser Step :=
  if first == '*' then do
    let _ ← char '*'
    return .attributeSplat
  else if first.isDigit then do return .legacyIndex (← legacyIndex)
  else if isIdentifierStart first then do return .attribute (← identifier)
  else stop .step

/-- A step behind its dot and the blanks there. -/
def dottedRest : Parser Step := fun c =>
  match c.rest with
  | [] => .undone .unexpected
  | x :: _ => dottedStep x c

/-- The character behind the dot tells which step it is. -/
theorem dotStep_eq : dotStep = (do let _ ← char '.'; skip true; dottedRest) := by
  have same (c : Cursor) : (match c.rest with
      | [] => .undone .unexpected
      | x :: _ =>
        if x == '*' then .read .attributeSplat (c.drop 1)
        else if x.isDigit then (do return .legacyIndex (← legacyIndex) : Parser Step) c
        else if isIdentifierStart x then (do return .attribute (← identifier) : Parser Step) c
        else .final .step c.offset) = (match c.rest with
      | [] => .undone .unexpected
      | x :: _ => dottedStep x c : Outcome Step) := by
    obtain ⟨rest, offset⟩ := c
    cases rest with
    | nil => rfl
    | cons x rest =>
      unfold dottedStep
      dsimp only
      split
      · next star =>
        obtain rfl := beq_iff_eq.mp star
        rfl
      · split
        · rfl
        · split
          · rfl
          · rfl
  exact congrArg (fun p : Parser Step => do let _ ← char '.'; skip true; p) (funext same)

/-- The window decides where a name or an index behind a dot ends. -/
theorem isDecided_dottedStep (first : Char) : IsDecided (dottedStep first) := by
  unfold dottedStep
  refine .ite ?_ (.ite ?_ (.ite ?_ ?_))
  · exact (isDecided_char (by decide)).bind fun _ => isDecided_pure _
  · exact isDecided_legacyIndex.bind fun index => isDecided_pure _
  · exact isDecided_identifier.bind fun name => isDecided_pure _
  · exact fun _ _ _ _ _ _ _ _ _ => .final _ _ _ _

theorem takesSome_digits : TakesSome digits :=
  (takesSome_satisfy _).bind fun _ _ => (advances_satisfy _).many.bind fun _ _ => advances_pure _

theorem takesSome_legacyIndex : TakesSome legacyIndex := by
  rw [legacyIndex_eq_choice]
  refine ((takesSome_satisfy _).bind fun _ _ => advances_pure _).choice
    (takesSome_digits.bind fun _ _ => .ite (fun _ => advances_pure _) fun _ => yields_undone _)

theorem takesSome_dottedStep (first : Char) : TakesSome (dottedStep first) := by
  unfold dottedStep
  split
  · exact (takesSome_satisfy _).bind fun _ _ => advances_pure _
  · split
    · exact takesSome_legacyIndex.bind fun _ _ => advances_pure _
    · split
      · exact takesSome_identifier.bind fun _ _ => advances_pure _
      · exact fun _ _ _ => nofun

theorem advances_dottedStep (first : Char) (text : List Char) :
    Advances text (dottedStep first) := by
  unfold dottedStep
  exact .ite (fun _ => (advances_char '*').bind fun _ _ => advances_pure _)
    fun _ => .ite (fun _ => advances_legacyIndex.bind fun _ _ => advances_pure _)
      fun _ => .ite (fun _ => advances_identifier.bind fun _ _ => advances_pure _)
        fun _ => fun _ _ _ _ => nofun

/-- The characters that a step starts with behind its dot. -/
theorem startsBlank_of_dottedStep {a : Step} (read : dottedStep x c = .read a next) :
    startsBlank x = false := by
  unfold dottedStep at read
  split at read
  · next star =>
    obtain rfl := beq_iff_eq.mp star
    decide
  · split at read
    · next digit => exact startsBlank_of_isDigit digit
    · split at read
      · next start => exact startsBlank_of_isIdentifierStart start
      · cases read

theorem advances_dottedRest (text : List Char) : Advances text dottedRest := by
  intro c a next here read
  unfold dottedRest at read
  split at read
  · cases read
  · exact advances_dottedStep _ text here read

/-- A step behind a dot is read alike. -/
theorem tracks_dotStep : Tracks k bound Step.unplaced ends (Opens k '.') dotStep dotStep := by
  have behind : Tracks k bound Step.unplaced ends (Skips k) dottedRest dottedRest := by
    refine ⟨advances_dottedRest, ?_⟩
    intro front window c a next passes views short ending read
    unfold dottedRest at read
    split at read
    · cases read
    · next x rest same =>
      have tracks : Tracks k bound id ends (fun w => w ≠ []) (dottedStep x) (dottedStep x) := by
        refine (isDecided_dottedStep x).tracks (advances_dottedStep x) ?_
        intro front window c a next read passes _ none
        have fewer := takesSome_dottedStep x read
        rw [passes.1, (List.append_eq_nil_iff.mp none).1] at fewer
        exact absurd fewer (Nat.lt_irrefl _)
      obtain ⟨some, again⟩ := tracks.follows passes views short ending read
      obtain ⟨y, more, whole⟩ := List.exists_cons_of_ne_nil some
      rw [passes.views_append views, whole] at same
      obtain rfl : y = x := (List.cons.inj same).1
      refine ⟨whole ▸ skips_cons (startsBlank_of_dottedStep read) more, fun c' here => ?_⟩
      obtain ⟨a', next', read', passes', rfl⟩ := again here
      refine ⟨a', next', ?_, passes', rfl⟩
      rw [dottedRest, here, whole]
      exact read'
  rw [dotStep_eq]
  exact tracks_sign.bind fun _ _ _ => (tracks_skip_early true).bind fun _ _ _ => behind

section Steps

/-- The key between the brackets of a step, read behind the opening one. -/
def bracketInside (level : Level) : Parser Step := do
  skip true
  let step ← choice (do let _ ← char '*'; return .fullSplat)
    (do return .index (← level.expr .bracket))
  skip true
  return step

theorem bracketStep_eq (level : Level) :
    bracketStep level = enclosed (char '[') (bracketInside level) (demandWord "]") := by
  simp only [enclosed, bracketInside, bind_bind]
  rfl

variable (agrees : level.Agrees k bound level')
include agrees

/-- A key is read alike in front of the closing bracket. -/
theorem tracks_bracketInside : Tracks k bound Step.unplaced (Meets k ']') (Skips k)
    (bracketInside level) (bracketInside level') := by
  have star : Tracks k bound Step.unplaced (Stops k) (Skips k)
      (do let _ ← char '*'; return Step.fullSplat) (do let _ ← char '*'; return Step.fullSplat) :=
    (tracks_char fun w _ => skips_cons (by decide) w).bind fun _ _ _ => tracks_pure rfl
  have index : Tracks k bound Step.unplaced (Stops k) StartsTerm
      (do return Step.index (← level.expr .bracket))
      (do return Step.index (← level'.expr .bracket)) :=
    ((agrees.expr .bracket).imp (fun _ (stops : Stops k _) => stops.ends) fun _ start => start).bind
      fun _ _ same => tracks_pure (congrArg Step.index same)
  have key := star.choice index (by
    rintro _ ⟨x, rest, rfl, start⟩
    refine (isUndone_char (forall_mem_head?_cons ?_ _)).bind _
    rintro rfl
    exact absurd start (by decide)) fun _ => skips_of_startsTerm
  exact (tracks_skip_early true).bind fun _ _ _ => key.bind fun _ _ same =>
    ((tracks_skip true).imp (fun _ => stops_of_meets (by decide) (by decide)) fun _ stops =>
      stops).bind fun _ _ _ => tracks_pure same

/-- So is the step with its brackets, whatever follows them. -/
theorem tracks_bracketStep : Tracks k (bound + 1) Step.unplaced ends (Opens k '[')
    (bracketStep level) (bracketStep level') := by
  rw [bracketStep_eq, bracketStep_eq]
  exact tracks_enclosed (isSign_char '[') (isSign_demandWord rfl) (tracks_bracketInside agrees)

/-- A step into a value is read alike. -/
theorem tracks_step (breaks : Bool) : Tracks k (bound + 1) Step.unplaced ends (Stops k)
    (step level breaks) (step level' breaks) := by
  have some : Tracks k (bound + 1) Step.unplaced ends (Stops k)
      (choice dotStep (bracketStep level)) (choice dotStep (bracketStep level')) := by
    have dot : Tracks k (bound + 1) Step.unplaced ends (Stops k) dotStep dotStep :=
      tracks_dotStep.imp (fun _ ending => ending) fun _ => stops_of_opens (by decide)
    refine dot.choice (tracks_bracketStep agrees) ?_ fun _ => stops_of_opens (by decide)
    rintro _ ⟨rest, rfl, _⟩
    exact (isUndone_char (forall_mem_head?_cons (by decide) _)).bind _
  have none : Tracks k (bound + 1) Step.unplaced ends (Stops k)
      (fun _ => .undone .unexpected) (fun _ => .undone .unexpected) :=
    tracks_of_not_read fun _ _ _ => nofun
  have step := none.either some (fun c => startsDots c.rest) fun w c c' views views' _ => by
    rw [views, views']
    exact startsDots_window w k.closesRight k.closesLeft
  exact (tracks_skip breaks).bind fun _ _ _ => step

end Steps

/-- Every step takes its dot or its brackets. -/
theorem takesSome_step (sound : ∀ text, level.IsSound text (·.IsIn text)) (breaks : Bool) :
    TakesSome (step level breaks) := by
  have dot : TakesSome dotStep := by
    rw [dotStep_eq]
    exact (takesSome_satisfy _).bind fun _ text => (advances_skip true).bind fun _ _ =>
      advances_dottedRest text
  have bracket : TakesSome (bracketStep level) := (takesSome_satisfy _).bind fun _ text => by
    have star := (advances_char '*' : Advances text _).bind fun _ _ => advances_pure Step.fullSplat
    have index := ((sound text).expr .bracket).bind fun key _ => advances_pure (Step.index key)
    exact (advances_skip true).bind fun _ _ => (star.choice index).bind fun _ _ =>
      (advances_skip true).bind fun _ _ => (advances_demandWord _).bind fun _ _ => advances_pure _
  refine .bind_right (fun _ => advances_skip breaks) fun _ c a next read => ?_
  split at read
  · cases read
  · exact (dot.choice bracket) read

/-! ## Operators -/

/-- An operator that is announced. -/
def announcedOp : Parser BinaryOp := fun c =>
  if sequelOf c.rest = .operator then binaryOp c else .undone .unexpected

/-- An operator is announced in front of the window. -/
structure StartsOperator (k : Frame) (window : List Char) : Prop where
  settled : IsSettled k window
  announced : sequelOf (window ++ k.left) = .operator

theorem isUndone_lineComment (hash : ∀ more, text ≠ '#' :: more)
    (slashes : ∀ more, text ≠ '/' :: '/' :: more) : IsUndone lineComment text := by
  intro offset
  unfold lineComment
  split
  · next more same => exact absurd same (hash more)
  · next more same => exact absurd same (slashes more)
  · exact ⟨_, rfl⟩

/-- What is announced starts with no blank, but it may start with the first character of a
comment. -/
theorem exists_cons_of_sequel (announced : sequelOf text ≠ .nothing) :
    ∃ x more, text = x :: more ∧ x ∉ closers ∧
      (startsBlank x = false ∨ x = '/' ∧ ∀ y ∈ more.head?, y ≠ '/' ∧ y ≠ '*') := by
  unfold sequelOf at announced
  split at announced
  · exact absurd rfl announced
  · exact absurd rfl announced
  · exact absurd rfl announced
  · exact ⟨_, _, rfl, by decide, .inl (by decide)⟩
  · next x y more none none' _ _ =>
    have apart : ∀ x ∈ ".[?!<>+-*/%&|".toList, x ∉ closers ∧ (x ≠ '/' → startsBlank x = false) := by
      decide
    have known : x ∈ ".[?!<>+-*/%&|".toList := by
      refine Decidable.byContradiction fun other => ?_
      simp only [String.reduceToList, List.mem_cons, List.not_mem_nil, or_false, not_or] at other
      simp [other] at announced
    obtain ⟨closer, solid⟩ := apart x known
    refine ⟨x, y :: more, rfl, closer, ?_⟩
    by_cases slash : x = '/'
    · subst slash
      refine .inr ⟨rfl, ?_⟩
      rintro _ ⟨⟩
      exact ⟨none rfl, none' rfl⟩
    · exact .inl (solid slash)
  · exact absurd rfl announced

/-- No blank comes next where something is announced. -/
theorem isUndone_blank_of_sequel (announced : sequelOf text ≠ .nothing) (breaks : Bool) :
    IsUndone (blank breaks) text := by
  obtain ⟨x, more, rfl, _, solid | ⟨rfl, single⟩⟩ := exists_cons_of_sequel announced
  · exact isUndone_blank breaks (forall_mem_head?_cons solid more)
  · have apart {y : Char} (rest : List Char) (sign : y = '/' ∨ y = '*') :
        '/' :: more ≠ '/' :: y :: rest := by
      intro same
      have other := single y (by rw [(List.cons.inj same).2]; rfl)
      exact sign.elim other.1 other.2
    have space : IsUndone (satisfy fun x => isSpace x || (breaks && (x == '\r' || x == '\n')))
        ('/' :: more) :=
      isUndone_satisfy (forall_mem_head?_cons (by cases breaks <;> rfl) _)
    refine (space.bind _).choice ((isUndone_inlineComment fun rest => ?_).choice ?_)
    · exact apart rest (.inr rfl)
    · cases breaks with
      | false => exact fun _ => ⟨_, rfl⟩
      | true => exact isUndone_lineComment nofun fun rest => apart rest (.inl rfl)

/-- A comparison without an equals sign behind it. -/
theorem reads_comparison {sign : Char} {op : BinaryOp} {rest : List Char}
    (known : sign = '<' ∧ op = .lt ∨ sign = '>' ∧ op = .gt) (other : ∀ x ∈ rest.head?, x ≠ '=') :
    Reads binaryOp (sign :: rest) (· = op) rest := by
  intro offset
  refine ⟨op, offset + sign.utf8Size, ?_, rfl⟩
  cases rest with
  | nil =>
    rcases known with ⟨rfl, rfl⟩ | ⟨rfl, rfl⟩
    · rfl
    · rfl
  | cons y rest =>
    have other : y ≠ '=' := other y rfl
    rcases known with ⟨rfl, rfl⟩ | ⟨rfl, rfl⟩
    · simp [binaryOp, other, Cursor.drop]
    · simp [binaryOp, other, Cursor.drop]

/-- An operator is told by its own characters, but a comparison is one only where no equals sign
follows. -/
theorem exists_sign_of_binaryOp {op : BinaryOp} (read : binaryOp c = .read op next) :
    ∃ sign, c.Passes sign next ∧ ∀ rest,
      ((∀ x ∈ next.rest.head?, x ≠ '=') → ∀ x ∈ rest.head?, x ≠ '=') →
        Reads binaryOp (sign ++ rest) (· = op) rest := by
  obtain ⟨text, offset⟩ := c
  have comparison {sign : Char} {more : List Char}
      (known : sign = '<' ∧ op = .lt ∨ sign = '>' ∧ op = .gt) (same : text = sign :: more)
      (other : ∀ rest, more ≠ '=' :: rest) (made : next = Cursor.drop ⟨text, offset⟩ 1) :
      ∃ sign, Cursor.Passes ⟨text, offset⟩ sign next ∧ ∀ rest,
        ((∀ x ∈ next.rest.head?, x ≠ '=') → ∀ x ∈ rest.head?, x ≠ '=') →
          Reads binaryOp (sign ++ rest) (· = op) rest := by
    subst same made
    refine ⟨[sign], Cursor.passes_tail sign more offset, fun rest alike =>
      reads_comparison known (alike ?_)⟩
    rintro _ head rfl
    obtain ⟨rest, same⟩ := List.head?_eq_some_iff.mp head
    exact other rest same
  have operator {sign more : List Char} (same : text = sign ++ more)
      (made : next = Cursor.drop ⟨text, offset⟩ sign.length)
      (always : ∀ rest offset, binaryOp ⟨sign ++ rest, offset⟩ =
        .read op (Cursor.drop ⟨sign ++ rest, offset⟩ sign.length)) :
      ∃ sign, Cursor.Passes ⟨text, offset⟩ sign next ∧ ∀ rest,
        ((∀ x ∈ next.rest.head?, x ≠ '=') → ∀ x ∈ rest.head?, x ≠ '=') →
          Reads binaryOp (sign ++ rest) (· = op) rest := by
    subst same made
    rw [drop_append]
    exact ⟨sign, ⟨rfl, rfl⟩, fun rest _ offset => ⟨op, _, by rw [always, drop_append], rfl⟩⟩
  unfold binaryOp at read
  split at read
  case h_4 rest other same =>
    obtain ⟨rfl, rfl⟩ := Outcome.read.inj read
    exact comparison (.inl ⟨rfl, rfl⟩) same other rfl
  case h_6 rest other same =>
    obtain ⟨rfl, rfl⟩ := Outcome.read.inj read
    exact comparison (.inr ⟨rfl, rfl⟩) same other rfl
  case h_14 => cases read
  all_goals
    next rest same =>
      obtain ⟨rfl, rfl⟩ := Outcome.read.inj read
      first
        | exact operator (show text = [_, _] ++ rest from same) rfl fun _ _ => rfl
        | exact operator (show text = [_] ++ rest from same) rfl fun _ _ => rfl

/-- An operator is read off the same characters, whatever closes the window. -/
theorem reads_binaryOp {op : BinaryOp} (passes : c.Passes front next)
    (views : next.Views window close) (read : binaryOp c = .read op next)
    (closes' : Closes close') :
    Reads binaryOp (front ++ (window ++ close')) (· = op) (window ++ close') := by
  obtain ⟨sign, passes', again⟩ := exists_sign_of_binaryOp read
  obtain rfl := passes.eq passes'
  refine again _ fun other => ?_
  cases window with
  | nil => exact closes'.head (by decide)
  | cons y window =>
    rw [views] at other
    exact other

/-- The left operand may end where an operator is announced. -/
theorem stops_of_startsOperator (starts : StartsOperator k window) : Stops k window := by
  obtain ⟨settled, announced⟩ := starts
  have some {close : List Char} (held : k.Holds close) : sequelOf (window ++ close) ≠ .nothing := by
    cases held with
    | left => rw [announced]; nofun
    | right => rw [settled.sequel, announced]; nofun
  refine ⟨endsBlanks_of_isUndone settled fun breaks close held =>
    isUndone_blank_of_sequel (some held) breaks, ?_⟩
  obtain ⟨x, more, same, _⟩ := exists_cons_of_sequel (some .left)
  rw [same]
  exact List.cons_ne_nil x more

theorem takesSome_binaryOp : TakesSome binaryOp := by
  intro c op next read
  unfold binaryOp at read
  split at read
  case h_14 => cases read
  all_goals
    next rest same =>
      obtain ⟨_, rfl⟩ := Outcome.read.inj read
      exact length_lt_of_drop same (.refl _)

theorem advances_announcedOp : Advances text announcedOp := by
  intro c op next here read
  unfold announcedOp at read
  split at read
  · exact advances_binaryOp here read
  · cases read

/-- An operator that is announced is read alike. -/
theorem tracks_announcedOp :
    Tracks k bound id (Skips k) (StartsOperator k) announcedOp announcedOp := by
  refine tracks_of_reads (fun _ => advances_announcedOp) (fun _ => advances_announcedOp) ?_
  intro front window c op next passes views skips read
  unfold announcedOp at read
  split at read
  · next operator =>
    rw [passes.views_append views] at operator
    have settled : IsSettled k (front ++ window) := by
      cases front with
      | nil =>
        have fewer := takesSome_binaryOp read
        rw [passes.1] at fewer
        exact absurd fewer (Nat.lt_irrefl _)
      | cons x front =>
        refine isSettled_cons x fun none => skips.goesOn ?_
        have none : front ++ window ++ k.left = [] := none
        rw [List.append_assoc] at none
        exact (List.append_eq_nil_iff.mp none).2
    refine ⟨⟨settled, operator⟩, fun offset => ?_⟩
    have again := settled.sequel.trans operator
    rw [List.append_assoc] at again
    rw [announcedOp, if_pos again]
    exact reads_binaryOp passes views read k.closesRight offset
  · cases read

theorem takesSome_announcedOp : TakesSome announcedOp := by
  intro c op next read
  unfold announcedOp at read
  split at read
  · exact takesSome_binaryOp read
  · cases read

/-- Whatever an expression grows by takes at least one character. -/
theorem takesSome_operatorRest (sound : ∀ text, level.IsSound text (·.IsIn text))
    (setting : Setting) (left : Expr) : TakesSome (operatorRest level setting left) :=
  .bind_right (fun _ => advances_skip _) fun _ => takesSome_binaryOp.bind fun _ text =>
    (advances_skip _).bind fun _ _ => ((sound text).expr _).bind fun _ _ => advances_pure _

/-! ## What is announced -/

/-- An operator and its operand, where the operator is announced. -/
def announcedRest (level : Level) (setting : Setting) (left : Expr) : Parser Form := do
  skip setting.breaks
  let op ← announcedOp
  skip setting.breaks
  let right ← level.expr setting.withoutConditionals
  return .binary op left right

/-- Where an operator is announced, the operator and its operand are read without asking. -/
theorem announcedRest_eq_read_iff {left : Expr} {form : Form}
    (announced : sequelOf (afterBlanks setting.breaks c).rest = .operator) :
    announcedRest level setting left c = .read form next ↔
      operatorRest level setting left c = .read form next := by
  rw [announcedRest, operatorRest, bind_eq_read_iff, bind_eq_read_iff]
  refine exists_congr fun _ => exists_congr fun middle => and_congr_right fun skipped => ?_
  rw [afterBlanks, skipped] at announced
  rw [bind_apply, bind_apply, announcedOp, if_pos announced]

theorem advances_announcedRest (sound : level.IsSound text (·.IsIn text)) (setting : Setting)
    (left : Expr) : Advances text (announcedRest level setting left) :=
  (advances_skip _).bind fun _ _ => advances_announcedOp.bind fun _ _ =>
    (advances_skip _).bind fun _ _ => (sound.expr _).bind fun _ _ => advances_pure _

theorem takesSome_announcedRest (sound : ∀ text, level.IsSound text (·.IsIn text))
    (setting : Setting) (left : Expr) : TakesSome (announcedRest level setting left) :=
  .bind_right (fun _ => advances_skip _) fun _ => takesSome_announcedOp.bind fun _ text =>
    (advances_skip _).bind fun _ _ => ((sound text).expr _).bind fun _ _ => advances_pure _

section Rests

variable (agrees : level.Agrees k bound level') {e e' : Expr} (same : e'.unplaced = e.unplaced)
include agrees same

/-- An operator is read alike with its operand. -/
theorem tracks_announcedRest (setting : Setting) :
    Tracks k (bound + 1) Form.unplaced (Halts k) (Stops k) (announcedRest level setting e)
      (announcedRest level' setting e') :=
  ((tracks_skip setting.breaks).imp (fun _ => stops_of_startsOperator) fun _ stops => stops).bind
    fun _ _ _ => tracks_announcedOp.bind_less takesSome_announcedOp fun op op' known =>
      (tracks_skip_early setting.breaks).bind fun _ _ _ =>
        (agrees.exprHalts setting.withoutConditionals).bind fun _ _ same' => by
          obtain rfl : op' = op := known
          exact tracks_pure (by rw [Form.unplaced, Form.unplaced, same, same'])

theorem tracks_conditionalRest (setting : Setting) :
    Tracks k (bound + 1) Form.unplaced (Halts k) (Stops k) (conditionalRest level setting e)
      (conditionalRest level' setting e') := by
  have mark : Tracks k (bound + 1) id (Skips k) (Stops k) (char '?') (char '?') :=
    tracks_sign.imp (fun _ skips => skips) fun _ => stops_of_opens (by decide)
  have colon : Tracks k bound id (Skips k) (Stops k) (demandWord ":") (demandWord ":") :=
    tracks_demandWord fun w skips => stops_cons (by decide) skips.goesOn
  exact (tracks_skip setting.breaks).bind fun _ _ _ =>
    mark.bind_less (takesSome_satisfy _) fun _ _ _ =>
      (tracks_skip_early setting.breaks).bind fun _ _ _ => (agrees.exprStops setting).bind
        fun _ _ same' => (tracks_skip setting.breaks).bind fun _ _ _ => colon.bind fun _ _ _ =>
          (tracks_skip_early setting.breaks).bind fun _ _ _ => (agrees.exprHalts setting).bind
            fun _ _ same'' =>
              tracks_pure (by rw [Form.unplaced, Form.unplaced, same, same', same''])

end Rests

theorem takesSome_conditionalRest (sound : ∀ text, level.IsSound text (·.IsIn text))
    (setting : Setting) (test : Expr) : TakesSome (conditionalRest level setting test) :=
  .bind_right (fun _ => advances_skip _) fun _ => (takesSome_satisfy _).bind fun _ text =>
    (advances_skip _).bind fun _ _ => ((sound text).expr setting).bind fun _ _ =>
      (advances_skip _).bind fun _ _ => (advances_demandWord _).bind fun _ _ =>
        (advances_skip _).bind fun _ _ => ((sound text).expr setting).bind fun _ _ =>
          advances_pure _

/-! ## What is announced -/

/-- Where blanks end in a settled window, both texts announce the same. -/
theorem sequel_stable (breaks : Bool) (views : c.Views window k.left)
    (views' : c'.Views window k.right) (halts : Halts k window) :
    sequelOf (afterBlanks breaks c').rest = sequelOf (afterBlanks breaks c).rest := by
  obtain ⟨rest, settled, behind⟩ := exists_afterBlanks halts breaks
  rw [behind .left views, behind .right views']
  exact settled.sequel

/-- In front of the window no step is announced, in neither text. -/
structure EndsSteps (k : Frame) (breaks : Bool) (window : List Char) : Prop where
  halts : Halts k window
  other : ∀ ⦃close c⦄, k.Holds close → Cursor.Views window close c →
    sequelOf (afterBlanks breaks c).rest ≠ .steps

theorem sequelOf_bracket (y : Char) (rest : List Char) : sequelOf ('[' :: y :: rest) = .steps := rfl

theorem sequelOf_dot {y : Char} (single : y ≠ '.') (rest : List Char) :
    sequelOf ('.' :: y :: rest) = .steps := by
  simp [sequelOf, single]

/-- A dot at the end of the whole text is no step. -/
theorem isUndone_dotStep_single (x : Char) : IsUndone dotStep [x] := by
  rw [dotStep_eq]
  by_cases dot : x = '.'
  · subst dot
    exact (reads_char '.' []).bind_isUndone fun _ _ =>
      (reads_skip_of_isUndone (isUndone_blank_nil true)).bind_isUndone fun _ _ _ => ⟨_, rfl⟩
  · exact (isUndone_char (forall_mem_head?_cons dot [])).bind _

/-- Neither is a bracket. -/
theorem isUndone_bracketStep_single (noExpr : IsUndone (level.expr .bracket) []) (x : Char) :
    IsUndone (bracketStep level) [x] := by
  by_cases bracket : x = '['
  · subst bracket
    have noKey : IsUndone (Parser.choice (do let _ ← char '*'; return Step.fullSplat)
        (do return Step.index (← level.expr .bracket))) [] :=
      ((isUndone_char (by simp)).bind _).choice (noExpr.bind _)
    exact (reads_char '[' []).bind_isUndone fun _ _ =>
      (reads_skip_of_isUndone (isUndone_blank_nil true)).bind_isUndone fun _ _ => noKey.bind _
  · exact (isUndone_char (forall_mem_head?_cons bracket [])).bind _

/-- Where no step is announced behind the blanks, none is read. -/
theorem exists_undone_step {a : Unit} (noExpr : IsUndone (level.expr .bracket) [])
    (skipped : skip breaks c = .read a next) (none : sequelOf next.rest ≠ .steps) :
    ∃ complaint, step level breaks c = .undone complaint := by
  suffices behind : ∃ complaint, (fun c : Cursor => if startsDots c.rest then .undone .unexpected
      else choice dotStep (bracketStep level) c) next = .undone complaint by
    obtain ⟨complaint, failed⟩ := behind
    exact ⟨complaint, bind_eq_undone_iff.mpr (.inr ⟨a, next, skipped, failed⟩)⟩
  obtain ⟨rest, offset⟩ := next
  dsimp only at none ⊢
  split
  · exact ⟨_, rfl⟩
  · next single =>
    rcases rest with _ | ⟨x, _ | ⟨y, more⟩⟩
    · exact ⟨_, rfl⟩
    · exact (isUndone_dotStep_single x).choice (isUndone_bracketStep_single noExpr x) offset
    · refine IsUndone.choice ((isUndone_char ?_).bind _) ((isUndone_char ?_).bind _) offset
      · refine forall_mem_head?_cons ?_ _
        rintro rfl
        refine none (sequelOf_dot ?_ more)
        rintro rfl
        exact single rfl
      · refine forall_mem_head?_cons ?_ _
        rintro rfl
        exact none (sequelOf_bracket y more)

/-- Where no step is announced in front of the window, none is read. -/
theorem isUndone_step_of_endsSteps (noExpr : IsUndone (level.expr .bracket) [])
    (ending : EndsSteps k breaks window) (held : k.Holds close) :
    IsUndone (step level breaks) (window ++ close) := by
  intro offset
  obtain ⟨rest, _, skips⟩ := ending.halts breaks
  obtain ⟨_, _, skipped, _⟩ := skips held offset
  have noSteps := ending.other held (show Cursor.Views window close ⟨_, offset⟩ from rfl)
  rw [afterBlanks, skipped] at noSteps
  exact exists_undone_step noExpr skipped noSteps

end HclLint.Hcl.Grammar
