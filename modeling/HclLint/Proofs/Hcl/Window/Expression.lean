/-
# Expressions in a window

An expression grows from its first term by what is announced behind it, until nothing is. How often
it may grow is bounded by the text in front of it, which is not part of a window: so first of all,
a bound that is large enough does not matter. Then an expression grows alike from two texts with
the same window, step by step. What it has grown to is told by the characters from its start on,
and so two expressions are compared that started in front of the same characters.

On every level of nesting, then, an expression that ends in front of what closes the window is read
alike from both texts of the frame, if the level is deep enough for the window.

## Main definitions

* `extended`: how an expression goes on, as far as it goes.
* `growth`: what an expression grows by, for each thing that may be announced.
* `GrowsAlike`: two ways to grow that take the same characters of a window.

## Main statements

* `growsAlike_extended`: an expression grows alike.
* `tracks_exprAt`: it is read alike.
* `agrees_levelWithout`: levels that are deep enough for the window track each other.
-/

import HclLint.Proofs.Hcl.Window.Step

namespace HclLint.Hcl

open HclLint.Text

namespace Parser

variable {α β : Type} {p : Parser α}

theorem Repeats.isUndone {c next : Cursor} {as : List α} (repeats : Repeats p c as next) :
    ∃ complaint, p next = .undone complaint := by
  induction repeats with
  | nil undone => exact ⟨_, undone⟩
  | cons _ _ _ ih => exact ih

/-- A repetition takes as much as its first reading. -/
theorem TakesSome.many1 (takes : TakesSome p) (advances : ∀ text, Advances text p) :
    TakesSome (many1 p) :=
  takes.bind fun _ text => (advances text).many.bind fun _ _ => advances_pure _

/-- A sequence is settled by what its second parser makes of each value where that is read. -/
theorem bind_congr {f g : α → Parser β} {c : Cursor}
    (same : ∀ a next, p c = .read a next → f a next = g a next) : (p >>= f) c = (p >>= g) c := by
  rw [bind_apply, bind_apply]
  split
  · next a next read => exact same a next read
  · rfl
  · rfl

end Parser

namespace Grammar

open HclLint.Hcl.Parser

variable {front window text limit limit' : List Char} {k : Frame} {bound : Nat}
  {level level' : Level} {setting : Setting} {conditionals : Bool} {e e' a : Expr}
  {c c' first first' next : Cursor} {starts : List Char → Prop}

/-! ## How far an expression grows -/

theorem advances_grown (first : Cursor) (form : Form) : Advances text (grown first form) := by
  intro c a next _ read
  obtain ⟨_, rfl⟩ := Outcome.read.inj read
  exact ⟨.refl c, trivial⟩

/-- An expression grows forward. -/
theorem Grows.leadsTo (sound : level.IsSound text (·.IsIn text)) (here : c.IsIn text)
    (grows : Grows level first conditionals setting e c a next) : c.LeadsTo next := by
  induction grows with
  | stop => exact .refl _
  | steps taken _ ih =>
    have passed := ((advances_step sound _).many1 here taken).1
    exact passed.trans (ih (here.onward passed))
  | conditional taken => exact (yields_conditionalRest sound _ _ here taken).1
  | operator taken _ ih =>
    have passed := (yields_operatorRest sound _ _ here taken).1
    exact passed.trans (ih (here.onward passed))

section Limits

variable (sound : ∀ text, level.IsSound text (·.IsIn text))
include sound

/-- How often an expression may grow does not matter if it is once for every character. -/
theorem extend_of_limits (enough : c.rest.length < limit.length)
    (enough' : c.rest.length < limit'.length) :
    extend level first conditionals limit setting e c =
      extend level first conditionals limit' setting e c := by
  induction limit generalizing limit' setting e c with
  | nil => exact absurd enough (Nat.not_lt_zero _)
  | cons x limit ih =>
    obtain ⟨x', limit', rfl⟩ := List.exists_cons_of_length_pos (Nat.zero_lt_of_lt enough')
    rw [List.length_cons] at enough enough'
    rw [extend, extend]
    dsimp only
    split
    · rfl
    · refine bind_congr fun path middle taken => ih ?_ ?_
      all_goals
        have less := (takesSome_step sound _).many1 (fun text => advances_step (sound text) _) taken
        omega
    · rfl
    · refine bind_congr fun form middle taken => ih ?_ ?_
      all_goals
        have less := takesSome_operatorRest sound setting e taken
        omega

end Limits

/-- How an expression goes on, as far as it goes. -/
def extended (level : Level) (first : Cursor) (conditionals : Bool) (setting : Setting) (e : Expr) :
    Parser Expr :=
  fun c => extend level first conditionals (' ' :: c.rest) setting e c

/-- A parser that reads nothing where a step is announced. -/
def unlessSteps {α : Type} (breaks : Bool) (p : Parser α) : Parser α := fun c =>
  if sequelOf (afterBlanks breaks c).rest = .steps then .undone .unexpected else p c

theorem advances_unlessSteps {α : Type} {breaks : Bool} {p : Parser α}
    (advances : Advances text p) : Advances text (unlessSteps breaks p) := by
  intro c a next here read
  unfold unlessSteps at read
  split at read
  · cases read
  · exact advances here read

/-- What an expression grows by for each thing that may be announced, and how it goes on. Behind
steps no other step is announced. -/
def growth (level : Level) (first : Cursor) (conditionals : Bool)
    (more : Setting → Expr → Parser Expr) (setting : Setting) (e : Expr) : Sequel → Parser Expr
  | .nothing => pure e
  | .steps => do
    let path ← many1 (step level setting.breaks)
    let e ← grown first (.traversal e path)
    unlessSteps setting.breaks (more setting e)
  | .conditional =>
    if conditionals then do
      let form ← conditionalRest level setting e
      grown first form
    else pure e
  | .operator => do
    let form ← announcedRest level setting e
    let e ← grown first form
    more setting.withoutConditionals e

section Growth

variable (sound : ∀ text, level.IsSound text (·.IsIn text))
include sound

theorem advances_extended (first : Cursor) (conditionals : Bool) (setting : Setting) (e : Expr) :
    Advances text (extended level first conditionals setting e) :=
  fun _ _ _ here read => ⟨(grows_of_extend read).leadsTo (sound text) here, trivial⟩

/-- Behind steps an expression goes on only where no other step is announced. -/
theorem extended_behind_steps {path : List Step} {middle : Cursor}
    (taken : many1 (step level setting.breaks) c = .read path middle) :
    unlessSteps setting.breaks (extended level first conditionals setting e) middle = .read a next ↔
      extended level first conditionals setting e middle = .read a next := by
  unfold unlessSteps
  split
  · next announced =>
    refine ⟨nofun, fun read => ?_⟩
    -- The steps ended at the place, so that no step can be read there.
    have empty := isUndone_step level setting.breaks endsReference_nil
    obtain ⟨_, between, _, others⟩ := bind_eq_read_iff.mp taken
    obtain ⟨_, _, repeated, made⟩ := bind_eq_read_iff.mp others
    obtain ⟨_, rfl⟩ := Outcome.read.inj made
    obtain ⟨_, undone⟩ := (repeats_of_many (takesSome_step sound _) empty repeated).isUndone
    rw [extended, extend] at read
    simp only [announced] at read
    obtain ⟨_, _, steps, _⟩ := bind_eq_read_iff.mp read
    obtain ⟨_, _, again, _⟩ := bind_eq_read_iff.mp steps
    rw [undone] at again
    cases again
  · rfl

/-- An expression goes on by what is announced, and then in the same way. -/
theorem extended_eq_read_iff : extended level first conditionals setting e c = .read a next ↔
    growth level first conditionals (extended level first conditionals) setting e
      (sequelOf (afterBlanks setting.breaks c).rest) c = .read a next := by
  have onward {setting : Setting} {e : Expr} {middle : Cursor}
      (less : middle.rest.length < c.rest.length) :
      extend level first conditionals c.rest setting e middle =
        extended level first conditionals setting e middle :=
    extend_of_limits sound less (Nat.lt_succ_self _)
  rw [extended, extend]
  dsimp only
  split
  · next none =>
    rw [none]
    rfl
  · next some =>
    rw [some, growth, bind_eq_read_iff, bind_eq_read_iff]
    refine exists_congr fun path => exists_congr fun middle => and_congr_right fun taken => ?_
    have less := (takesSome_step sound _).many1 (fun text => advances_step (sound text) _) taken
    refine Iff.trans (Eq.to_iff (congrArg (· = _) (onward less))) ?_
    exact (extended_behind_steps sound taken).symm
  · next some =>
    rw [some, growth]
    split
    · rfl
    · rfl
  · next some =>
    rw [some, growth, bind_eq_read_iff, bind_eq_read_iff]
    refine exists_congr fun form => exists_congr fun middle => ?_
    rw [announcedRest_eq_read_iff some]
    refine and_congr_right fun taken => ?_
    have less := takesSome_operatorRest sound setting e taken
    exact Eq.to_iff (congrArg (· = _) (onward less))

end Growth

/-! ## Growing alike -/

/-- Two ways to grow an expression take the same characters of a window, from cursors that the same
characters lead to. What the expressions are then is the same but for its place, if it was
before. -/
def GrowsAlike (k : Frame) (bound : Nat) (starts : List Char → Prop) (first first' : Cursor)
    (p p' : Expr → Parser Expr) : Prop :=
  ∀ ⦃before front window c next e a⦄, first.Passes before c → Cursor.Passes c front next →
    next.Views window k.left → (front ++ window).length < bound → Halts k window →
    p e c = .read a next → starts (front ++ window) ∧
      ∀ ⦃c' e'⦄, Cursor.Views (front ++ window) k.right c' → first'.Passes before c' →
        e'.unplaced = e.unplaced → ∃ a' next', p' e' c' = .read a' next' ∧
          c'.Passes front next' ∧ a'.unplaced = a.unplaced

/-- Two expressions that grow no further have grown alike. -/
theorem growsAlike_pure (first first' : Cursor) :
    GrowsAlike k bound (Halts k) first first' pure pure := by
  intro before front window c next e a _ passes _ _ halts read
  obtain ⟨rfl, rfl⟩ := Outcome.read.inj read
  obtain rfl := passes.eq (.refl _)
  exact ⟨halts, fun c' e' _ _ same => ⟨e', c', rfl, .refl c', same⟩⟩

/-- In windows shorter than nothing everything grows alike. -/
theorem growsAlike_zero {p p' : Expr → Parser Expr} :
    GrowsAlike k 0 starts first first' p p' :=
  fun _ _ _ _ _ _ _ _ _ _ short => absurd short (Nat.not_lt_zero _)

/-- What is announced may tell how to grow. -/
theorem growsAlike_select (breaks : Bool) {choices choices' : Sequel → Expr → Parser Expr}
    (each : ∀ sequel, GrowsAlike k bound (Halts k) first first' (choices sequel)
      (choices' sequel)) :
    GrowsAlike k bound (Halts k) first first'
      (fun e c => choices (sequelOf (afterBlanks breaks c).rest) e c)
      (fun e c => choices' (sequelOf (afterBlanks breaks c).rest) e c) := by
  intro before front window c next e a start passes views short halts read
  obtain ⟨halts', again⟩ := each _ start passes views short halts read
  refine ⟨halts', fun c' e' here start' same => ?_⟩
  obtain ⟨a', next', read', rest⟩ := again here start' same
  rw [← sequel_stable breaks (passes.views_append views) here halts'] at read'
  exact ⟨a', next', read', rest⟩

section Pieces

variable {α γ : Type} {gist : α → γ} {middle : List Char → Prop} {p p' : Expr → Parser α}
  {more more' : Expr → Parser Expr}

/-- An expression grows by a piece that is read alike, and then goes on alike. -/
theorem GrowsAlike.behind (form : Expr → α → Form)
    (onward : GrowsAlike k bound middle first first' more more')
    (piece : ∀ e e', e'.unplaced = e.unplaced →
      Tracks k (bound + 1) gist middle starts (p e) (p' e'))
    (takes : ∀ e, TakesSome (p e)) (advances : ∀ e text, Advances text (more e))
    (builds : ∀ e e' b b', e'.unplaced = e.unplaced → gist b' = gist b →
      (form e' b').unplaced = (form e b).unplaced) :
    GrowsAlike k (bound + 1) starts first first'
      (fun e => do let b ← p e; let e ← grown first (form e b); more e)
      (fun e => do let b ← p' e; let e ← grown first' (form e b); more' e) := by
  intro before front window c next e a start passes views short halts read
  obtain ⟨b, between, taken, read⟩ := bind_eq_read_iff.mp read
  obtain ⟨e₁, last, made, read⟩ := bind_eq_read_iff.mp read
  obtain ⟨rfl, rfl⟩ := Outcome.read.inj made
  have tracks := piece e e rfl
  obtain ⟨passed, beyond⟩ := leadsTo_of_advances tracks.advances taken
  obtain ⟨rest, later⟩ := leadsTo_of_advances (advances _) read
  obtain rfl := passes.eq (beyond.trans later)
  rw [List.append_assoc] at short ⊢
  have fewer : (rest ++ window).length < bound := by
    have less := takes e taken
    have lengths := congrArg List.length beyond.1
    simp only [List.length_append] at lengths short ⊢
    omega
  obtain ⟨middles, again⟩ := onward (start.trans beyond) later views fewer halts read
  have views' := later.views_append views
  refine ⟨(tracks.follows beyond views' short middles taken).1, fun c' e' here start' same => ?_⟩
  obtain ⟨_, once⟩ := (piece e e' same).follows beyond views' short middles taken
  obtain ⟨b', between', taken', beyond', sameGist⟩ := once here
  have whole := start'.trans beyond'
  -- Both expressions are made of the same characters.
  have sameExpr : (Expr.mk ⟨first'.offset, String.ofList (first'.upTo between')⟩
      (form e' b')).unplaced = (Expr.mk ⟨first.offset, String.ofList (first.upTo between)⟩
        (form e b)).unplaced := by
    refine Expr.unplaced_eq ?_ (builds e e' b b' same sameGist)
    change String.ofList _ = String.ofList _
    rw [upTo_of_passes whole, upTo_of_passes (start.trans beyond)]
  obtain ⟨a', next', read', later', result⟩ := again (beyond'.views here) whole sameExpr
  refine ⟨a', next', ?_, beyond'.trans later', result⟩
  exact bind_eq_read_iff.mpr ⟨b', between', taken',
    bind_eq_read_iff.mpr ⟨_, between', rfl, read'⟩⟩

end Pieces

/-- Where no step is announced, none is announced in the same window. -/
theorem GrowsAlike.unlessSteps {p p' : Expr → Parser Expr} (breaks : Bool)
    (alike : GrowsAlike k bound (Halts k) first first' p p') :
    GrowsAlike k bound (EndsSteps k breaks) first first' (fun e => unlessSteps breaks (p e))
      (fun e => unlessSteps breaks (p' e)) := by
  intro before front window c next e a start passes views short halts read
  have read : Grammar.unlessSteps breaks (p e) c = .read a next := read
  rw [Grammar.unlessSteps] at read
  split at read
  · cases read
  · next other =>
    obtain ⟨halts', again⟩ := alike start passes views short halts read
    obtain ⟨rest, settled, behind⟩ := exists_afterBlanks halts' breaks
    have here := passes.views_append views
    rw [behind .left here] at other
    have otherwise {close : List Char} {c : Cursor} (held : k.Holds close)
        (views : Cursor.Views (front ++ window) close c) :
        sequelOf (afterBlanks breaks c).rest ≠ .steps := by
      rw [behind held views]
      cases held with
      | left => exact other
      | right => rwa [settled.sequel]
    refine ⟨⟨halts', fun _ _ => otherwise⟩, fun c' e' here start' same => ?_⟩
    obtain ⟨a', next', read', rest⟩ := again here start' same
    refine ⟨a', next', ?_, rest⟩
    change Grammar.unlessSteps breaks (p' e') c' = _
    rw [Grammar.unlessSteps, if_neg (otherwise .right here)]
    exact read'

section Alike

variable (agrees : level.Agrees k bound level')
include agrees

/-- Steps are read alike as long as they are announced. -/
theorem tracks_steps (breaks : Bool) : Tracks k (bound + 1) (List.map Step.unplaced)
    (EndsSteps k breaks) (Halts k) (many1 (step level breaks)) (many1 (step level' breaks)) := by
  have fails : Fails k (EndsSteps k breaks) (step level breaks) (step level' breaks) :=
    fun _ _ _ _ ending _ => isUndone_step_of_endsSteps (agrees.noExpr .bracket) ending .right
  have empty := isUndone_step level breaks endsReference_nil
  exact ((tracks_step agrees breaks).imp (fun _ (halts : Halts k _) => halts) fun _ stops =>
    stops.ends).many1 (takesSome_step agrees.sound breaks) empty fails fun _ ending => ending.halts

variable (sound' : ∀ text, level'.IsSound text (·.IsIn text))
include sound'

/-- An expression grows alike, by the same characters. -/
theorem growsAlike_extended (conditionals : Bool) (setting : Setting) (first first' : Cursor)
    {less : Nat} (fewer : less ≤ bound + 1) :
    GrowsAlike k less (Halts k) first first' (extended level first conditionals setting)
      (extended level' first' conditionals setting) := by
  induction less generalizing setting with
  | zero => exact growsAlike_zero
  | succ less ih =>
    have fewer' := Nat.le_of_succ_le fewer
    have each (sequel : Sequel) : GrowsAlike k (less + 1) (Halts k) first first'
        (fun e => growth level first conditionals (extended level first conditionals) setting e
          sequel)
        (fun e => growth level' first' conditionals (extended level' first' conditionals) setting e
          sequel) := by
      cases sequel with
      | nothing => exact growsAlike_pure first first'
      | steps =>
        refine ((ih setting fewer').unlessSteps setting.breaks).behind .traversal
          (fun _ _ _ => (tracks_steps agrees setting.breaks).mono fewer)
          (fun _ => (takesSome_step agrees.sound _).many1 fun text =>
            advances_step (agrees.sound text) _)
          (fun e text => ?_) fun e e' path path' same sames => ?_
        · exact advances_unlessSteps (advances_extended agrees.sound first conditionals setting e)
        · simp only [Form.unplaced, pathUnplaced_eq_map, same, sames]
      | conditional =>
        cases conditionals with
        | false => exact growsAlike_pure first first'
        | true =>
          have pure : GrowsAlike k less (Halts k) first first' pure pure :=
            growsAlike_pure first first'
          have grows := pure.behind (fun _ form => form)
            (fun _ _ same => ((tracks_conditionalRest agrees same setting).imp
              (fun _ halts => halts) fun _ stops => stops.ends).mono fewer)
            (fun e => takesSome_conditionalRest agrees.sound setting e)
            (fun e _ => advances_pure e) fun _ _ _ _ _ same => same
          exact grows
      | operator =>
        exact (ih setting.withoutConditionals fewer').behind (fun _ form => form)
          (fun _ _ same => ((tracks_announcedRest agrees same setting).imp
            (fun _ halts => halts) fun _ stops => stops.ends).mono fewer)
          (fun e => takesSome_announcedRest agrees.sound setting e)
          (fun e _ => advances_extended agrees.sound first conditionals _ e)
          fun _ _ _ _ _ same => same
    intro before front window c next e a start passes views short halts read
    have read := (extended_eq_read_iff agrees.sound).mp read
    obtain ⟨halts', again⟩ :=
      growsAlike_select setting.breaks (fun sequel => each sequel) start passes views short halts
        read
    refine ⟨halts', fun c' e' here start' same => ?_⟩
    obtain ⟨a', next', read', rest⟩ := again here start' same
    exact ⟨a', next', (extended_eq_read_iff sound').mpr read', rest⟩

/-- An expression is read alike. -/
theorem tracks_exprAt (term : ∀ setting, Tracks k (bound + 1) (fun a => (a.1.unplaced, a.2))
      (Halts k) StartsTerm (level.term setting) (level'.term setting)) (setting : Setting) :
    Tracks k (bound + 1) Expr.unplaced (Halts k) StartsTerm (exprAt level setting)
      (exprAt level' setting) := by
  refine ⟨fun text =>
    (yields_exprAt (agrees.sound text) setting (isAcquired_isIn text)).advances, ?_⟩
  intro front window c a next passes views short halts read
  obtain ⟨⟨e, after⟩, middle, taken, grows⟩ := bind_eq_read_iff.mp read
  obtain ⟨before, passed⟩ := leadsTo_of_advances (term setting).advances taken
  obtain ⟨behind, later⟩ := leadsTo_of_advances
    (fun _ => advances_extended agrees.sound c setting.conditionals after e) grows
  obtain rfl := passes.eq (passed.trans later)
  rw [List.append_assoc] at short ⊢
  have fewer : (behind ++ window).length < bound + 1 := by
    rw [List.length_append] at short
    omega
  have alike (c' : Cursor) := growsAlike_extended agrees sound' setting.conditionals after c c'
    (Nat.le_refl _) passed later views fewer halts grows
  obtain ⟨start, again⟩ := (term setting).follows passed (later.views_append views) short
    (alike c).1 taken
  refine ⟨start, fun c' here => ?_⟩
  obtain ⟨⟨e', after'⟩, middle', taken', passed', same⟩ := again here
  obtain ⟨same, rfl⟩ := Prod.mk.inj same
  obtain ⟨a', next', grows', later', result⟩ :=
    (alike c').2 (passed'.views here) passed' same
  exact ⟨a', next', bind_eq_read_iff.mpr ⟨_, middle', taken', grows'⟩, passed'.trans later', result⟩

end Alike

/-! ## Levels -/

theorem takesSome_templatePart (sound : ∀ text, level.IsSound text (·.IsIn text))
    (quoting : Quoting) : TakesSome (templatePart level quoting) := by
  have marker : TakesSome (interpolation level) :=
    (takesSome_word (List.cons_ne_nil _ _)).bind fun _ text => advances_trimMark.bind fun _ _ =>
      (advances_skip true).bind fun _ _ => ((sound text).expr .bracket).bind fun _ _ =>
        advances_tagEnd.bind fun _ _ => advances_pure _
  have tag : TakesSome (directive level quoting) :=
    takesSome_tagStart.bind fun left text => (advances_branchPart (sound text) quoting left).choice
      (advances_loopPart (sound text) quoting left)
  exact ((takesSome_templateText quoting).bind fun _ _ => advances_pure _).choice
    (marker.choice tag)

theorem isUndone_templatePart_nil (level : Level) (quoting : Quoting) :
    IsUndone (templatePart level quoting) [] := by
  have noText : IsUndone (templateText quoting) [] := by
    cases quoting with
    | quoted => exact fun _ => ⟨_, rfl⟩
    | heredoc delimiter => exact fun _ => ⟨_, rfl⟩
  exact (noText.bind _).choice
    (((isUndone_word rfl).bind _).choice (((isUndone_word rfl).bind _).bind _))

/-- A part of a quoted template is text, or a marker starts it. -/
theorem run_or_marker_of_templatePart {part : Part}
    (read : templatePart level .quoted c = .read part next) :
    (∃ run, quotedText c = .read run next) ∨ startsMarker c.rest = true := by
  rcases choice_eq_read_iff.mp read with read | ⟨_, read⟩
  · left
    obtain ⟨run, _, taken, made⟩ := bind_eq_read_iff.mp read
    obtain ⟨_, rfl⟩ := Outcome.read.inj made
    exact ⟨run, taken⟩
  right
  rcases choice_eq_read_iff.mp read with read | ⟨_, read⟩
  · obtain ⟨_, _, taken, _⟩ := bind_eq_read_iff.mp read
    rw [(passes_word taken).1]
    rfl
  · obtain ⟨_, _, tag, _⟩ := bind_eq_read_iff.mp read
    obtain ⟨_, _, taken, _⟩ := bind_eq_read_iff.mp tag
    rw [(passes_word taken).1]
    rfl

section Levels

variable {refused refused' : Form → Bool}

/-- No expression starts with a comma, and that is final. -/
theorem final_of_comma (depth : Nat) (setting : Setting) (comma : c.rest.head? = some ',') :
    (levelWithout refused (depth + 2)).expr setting c = .final .expression c.offset := by
  have term : (levelWithout refused (depth + 1)).term setting c = .final .expression c.offset := by
    obtain ⟨_ | ⟨x, rest⟩, offset⟩ := c
    · cases comma
    · obtain rfl := Option.some.inj comma
      rfl
  change exprAt (levelWithout refused (depth + 1)) setting c = _
  rw [exprAt, bind_apply, term]

/-- No expression is read where nothing is left, and that is not final. -/
theorem isUndone_expr_nil (depth : Nat) (setting : Setting) :
    IsUndone ((levelWithout refused depth).expr setting) [] := by
  intro offset
  match depth with
  | 0 => exact ⟨_, rfl⟩
  | 1 => exact ⟨_, rfl⟩
  | _ + 2 => exact ⟨_, rfl⟩

/-! No part of a template is read at the lowest level, and at every other one parts are those of the
level below it. -/

/-- Every part of a template takes something of the text. -/
theorem takesSome_part (depth : Nat) (quoting : Quoting) :
    TakesSome ((levelWithout refused depth).part quoting) := by
  cases depth with
  | zero => exact fun _ _ _ => nofun
  | succ depth =>
    exact takesSome_templatePart
      (fun text => isSound_levelWithout (isAcquired_isIn text) refused depth) quoting

theorem isUndone_part_nil (depth : Nat) (quoting : Quoting) :
    IsUndone ((levelWithout refused depth).part quoting) [] := by
  cases depth with
  | zero => exact fun _ => ⟨_, rfl⟩
  | succ depth => exact isUndone_templatePart_nil _ quoting

/-- A part starts with a run of text or with a marker. -/
theorem run_or_marker_of_part {depth : Nat} {part : Part}
    (read : (levelWithout refused depth).part .quoted c = .read part next) :
    (∃ run, quotedText c = .read run next) ∨ startsMarker c.rest = true := by
  cases depth with
  | zero => cases read
  | succ depth => exact run_or_marker_of_templatePart read

/-- No part starts where the parts end, on any level. -/
theorem isUndone_part (depth : Nat) {quoting : Quoting} {text : List Char}
    (ended : EndsParts quoting text) :
    IsUndone ((levelWithout refused depth).part quoting) text := by
  cases depth with
  | zero => exact fun _ => ⟨_, rfl⟩
  | succ depth => exact isUndone_templatePart (levelWithout refused depth) ended

/-- Levels that are deep enough for the windows track each other if they refuse heredocs without
parts: every nested expression takes a character, and two levels. -/
theorem agrees_levelWithout (k : Frame)
    (empty : ∀ form, form.isEmptyHeredoc = true → refused form = true)
    (weaker : ∀ form form', form'.unplaced = form.unplaced → refused' form' = true →
      refused form = true) {depth depth' : Nat} (deep : 2 * bound ≤ depth)
    (deep' : 2 * bound ≤ depth') :
    (levelWithout refused depth).Agrees k bound (levelWithout refused' depth') := by
  have sound (refused : Form → Bool) (depth : Nat) (text : List Char) :
      (levelWithout refused depth).IsSound text (·.IsIn text) :=
    isSound_levelWithout (isAcquired_isIn text) refused depth
  induction bound generalizing depth depth' with
  | zero =>
    exact {
      sound := sound refused depth
      expr := fun setting => tracks_zero fun text => ((sound _ depth text).expr setting).advances
      term := fun setting => tracks_zero fun text => ((sound _ depth text).term setting).advances
      part := fun quoting _ => tracks_zero fun text => (sound _ depth text).part quoting
      comma := fun none => absurd none (Nat.lt_irrefl 0)
      noExpr := isUndone_expr_nil depth'
      takesPart := takesSome_part depth
      noPart := isUndone_part_nil depth
      startsPart := run_or_marker_of_part
      endsParts := isUndone_part depth' }
  | succ bound ih =>
    obtain ⟨depth, rfl⟩ : ∃ less, depth = less + 2 := ⟨depth - 2, by omega⟩
    obtain ⟨depth', rfl⟩ : ∃ less, depth' = less + 2 := ⟨depth' - 2, by omega⟩
    -- An expression is made of terms of the level below it, and those of parts two levels down.
    have below : (levelWithout refused depth).Agrees k bound (levelWithout refused' depth') :=
      ih (by omega) (by omega)
    have next : (levelWithout refused (depth + 1)).Agrees k bound
        (levelWithout refused' (depth' + 1)) := ih (by omega) (by omega)
    exact {
      sound := sound refused _
      expr := tracks_exprAt next (sound refused' _) (tracks_termAt below empty weaker)
      term := tracks_termAt next empty weaker
      part := fun quoting named => tracks_templatePart next named
      comma := fun _ setting c comma complaint => by
        rw [final_of_comma depth setting comma]
        nofun
      noExpr := isUndone_expr_nil _
      takesPart := takesSome_part _
      noPart := isUndone_part_nil _
      startsPart := run_or_marker_of_part
      endsParts := isUndone_part _ }

end Levels

end Grammar

end HclLint.Hcl
