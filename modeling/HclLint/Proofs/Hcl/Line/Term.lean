/-
# Terms within a line

What stands between signs of its own is read again wherever it stands. Strings, names and numbers
are read again within their line, and so are calls and signed terms, if the smaller expressions in
them are. A heredoc takes a line break.

## Main definitions

* `Level.AgreesInLine`: readers that read within a line what others read there.

## Main statements

* `readsInLine_enclosed`: what stands between two signs is read within its line.
* `readsInLine_nameOrCall`: so are names and calls.
* `readsInLine_termAt`: so are all terms.
-/

import HclLint.Proofs.Hcl.Enclosed
import HclLint.Proofs.Hcl.Line.Number

namespace HclLint.Hcl

open HclLint.Text

/-- A form is read with a setting of as many conditionals. -/
theorem Parser.ReadsInLine.paired {bound : Nat} {ends : List Char → Prop} {p p' : Parser Form}
    {after after' : Grammar.Setting} (reads : ReadsInLine bound ends Form.unplaced p p')
    (alike : after'.conditionals = after.conditionals) :
    ReadsInLine bound ends (fun a : Form × Grammar.Setting => (a.1.unplaced, a.2.conditionals))
      (do return (← p, after)) (do return (← p', after')) :=
  reads.map _ _ fun _ _ same => Prod.ext same alike

namespace Grammar

open HclLint.Hcl.Parser

variable {α β σ : Type} {p p' : Parser α} {gist : α → β} {x y : Char} {opening : Parser σ}
  {closing : Parser Unit} {bound : Nat}
  {level level' : Level} {ends : List Char → Prop} {setting setting' : Setting}
  {breaks breaks' : Bool} {c next : Cursor} {form : Form} {front kept cut text : List Char}

/-! ## Words -/

theorem isLocal_word (w : List Char) : IsLocal (word w) :=
  fun _ _ _ read => ⟨w, passes_word read, fun kept _ _ => (reads_word w kept).imp fun _ _ => rfl⟩

/-- An identifier ends where a character belongs to none, and so it does in front of a cut. -/
theorem isLocal_identifier : IsLocal identifier :=
  (isLocal_satisfy _).bind fun _ => (isLocal_many_satisfy _).bind fun _ => isLocal_pure _

/-- No identifier starts with a blank. -/
theorem startsSolid_identifier : StartsSolid identifier :=
  startsSolid_of_head takesSome_identifier fun c name next read => by
    obtain ⟨first, _, start, _⟩ := bind_eq_read_iff.mp read
    rw [(passes_satisfy start).1]
    exact forall_mem_head?_cons (startsBlank_of_isIdentifierStart (passing_of_satisfy start)) _

theorem startsSolid_word {w : List Char} (some : w ≠ [])
    (solid : ∀ x ∈ w.head?, startsBlank x = false) : StartsSolid (word w) :=
  startsSolid_of_head (takesSome_word some) fun c a next read => by
    rw [(passes_word read).1]
    cases w with
    | nil => exact absurd rfl some
    | cons x w => exact solid

/-! ## Terms between signs -/

/-- What stands between two signs is read within its line. -/
theorem readsInLine_enclosed (closer : y ∈ closers) (opens : IsSign x opening)
    (closes : IsSign y closing)
    (tracks : ∀ k, Tracks k bound gist (Meets k y) (Skips k) p p') :
    ReadsInLine (bound + 1) ends gist (enclosed opening p closing)
      (enclosed opening p' closing) := by
  refine ⟨fun text => ?_, fun c a next front kept cut read passes short _ _ _ => ?_⟩
  · exact opens.advances.bind fun _ _ =>
      ((tracks (.before closer [] [])).advances text).bind fun _ _ =>
        closes.advances.bind fun _ _ => advances_pure _
  · obtain ⟨_, _, again⟩ :=
      reads_enclosed closer opens closes tracks read passes (Nat.le_of_lt short) kept
    exact again

/-- Both signs are passed, so that two characters are taken at least. -/
theorem exists_passes_of_enclosed (opens : IsSign x opening) (closes : IsSign y closing)
    (advances : ∀ text, Advances text p) {a : α}
    (read : enclosed opening p closing c = .read a next) :
    ∃ body, c.Passes (x :: (body ++ [y])) next := by
  obtain ⟨_, start, opened, more⟩ := bind_eq_read_iff.mp read
  obtain ⟨_, last, inside, more⟩ := bind_eq_read_iff.mp more
  obtain ⟨_, _, closed, made⟩ := bind_eq_read_iff.mp more
  obtain ⟨_, rfl⟩ := Outcome.read.inj made
  obtain ⟨body, forward⟩ := leadsTo_of_advances advances inside
  exact ⟨body, (opens.passes opened).trans (forward.trans (closes.passes closed))⟩

section Enclosed

variable (agrees : ∀ k, level.Agrees k bound level')
include agrees

/-- An expression in parentheses is read within its line. -/
theorem readsInLine_parensForm :
    ReadsInLine (bound + 1) ends Form.unplaced (parensForm level) (parensForm level') := by
  rw [parensForm_eq, parensForm_eq]
  exact (readsInLine_enclosed (by decide) (isSign_char '(') (isSign_demandWord rfl)
    fun k => tracks_parensInside (agrees k)).map _ _
    fun _ _ same => by rw [Form.unplaced, Form.unplaced, same]

/-- So is a list, under the setting for its items. -/
theorem readsInLine_listForm (setting : Setting) : ReadsInLine (bound + 1) ends Form.unplaced
    (listForm level setting) (listForm level' setting) :=
  readsInLine_enclosed (by decide) (isSign_char '[') (isSign_demandWord rfl)
    fun k => tracks_listInside (agrees k) setting

/-- So is an object, be line breaks blanks around it or not. -/
theorem readsInLine_objectForm (alike : setting'.conditionals = setting.conditionals) :
    ReadsInLine (bound + 1) ends (fun a => (a.1.unplaced, a.2.conditionals))
      (objectForm level setting) (objectForm level' setting') :=
  readsInLine_enclosed (by decide) (isSign_char '\x7b') (isSign_demandWord rfl)
    (tracks_objectInside_alike agrees alike)

/-- A string is read again in front of its quote, and a template as well. -/
theorem readsInLine_quotedForm :
    ReadsInLine (bound + 1) ends Form.unplaced (quotedForm level) (quotedForm level') := by
  -- That both readers advance is known in every frame, and one frame is enough for it.
  let k : Frame := .before (show '"' ∈ closers by decide) [] []
  have tracks : Tracks k (bound + 1) Form.unplaced (fun _ => True) (StartsWith ['"'])
      (quotedForm level) (quotedForm level') := tracks_quotedForm (agrees k)
  refine ⟨tracks.advances, fun c form next front kept cut read passes short _ _ _ => ?_⟩
  have template : Answers (quotedTemplateForm level) (·.opener? = some '"') :=
    .last fun _ => .last fun _ => .last fun _ => answers_pure rfl
  rcases choice_eq_read_iff.mp read with taken | ⟨_, taken⟩
  · obtain ⟨body, value, passes', rfl, reads, empty⟩ := readsQuoted_of_stringForm taken
    obtain rfl := passes.eq passes'
    have again := reads.reads_stringForm empty kept
    rw [List.cons_append, List.append_assoc]
    exact (again.choice _).imp fun _ same => congrArg Form.unplaced same
  · obtain ⟨_, _, again⟩ := reads_quotedForm_of_template agrees read (template taken) passes
      (Nat.le_of_lt short) kept
    exact again

end Enclosed

/-- A heredoc takes the line break behind its delimiter. -/
theorem not_inLine_of_heredocForm (sound : ∀ text, level.IsSound text (·.IsIn text))
    (read : heredocForm level c = .read form next) (passes : c.Passes front next) :
    ¬ InLine front := by
  obtain ⟨_, c₁, sign, more⟩ := bind_eq_read_iff.mp read
  obtain ⟨_, c₂, indented, more⟩ := bind_eq_read_iff.mp more
  obtain ⟨delimiter, c₃, named, more⟩ := bind_eq_read_iff.mp more
  obtain ⟨ending, c₄, broken, more⟩ := bind_eq_read_iff.mp more
  have before : c.LeadsTo c₃ := (leadsTo_of_advances (fun _ => advances_word _) sign).trans
    ((leadsTo_of_advances (fun _ => (advances_char '-').optional.advances) indented).trans
      (leadsTo_of_advances (fun _ => advances_demandIdentifier) named))
  have behind : c₄.LeadsTo next := by
    refine leadsTo_of_advances (fun text => ?_) more
    exact ((advances_heredocParts (sound text) delimiter).choice (advances_pure [])).bind fun _ _ =>
      (advances_satisfy _).many.bind fun _ _ => ((advances_word _).demand _).bind fun _ _ =>
        advances_pure _
  obtain ⟨_, first⟩ := before
  obtain ⟨_, last⟩ := behind
  obtain ⟨passed, breaks⟩ := passes_lineBreak (demand_eq_read_iff.mp broken)
  obtain rfl := passes.eq (first.trans (passed.trans last))
  intro line
  have inside := (inLine_append.mp (inLine_append.mp line).2).1
  rcases breaks with rfl | rfl
  · exact (inside '\n' List.mem_cons_self).1 rfl
  · exact (inside '\r' List.mem_cons_self).2 rfl

/-- In one line there is no heredoc, and so nothing to be read again. -/
theorem readsInLine_heredocForm (sound : ∀ text, level.IsSound text (·.IsIn text)) :
    ReadsInLine bound ends Form.unplaced (heredocForm level) (heredocForm level') :=
  ⟨fun text => (yields_heredocForm (sound text)).advances, fun _ _ _ _ _ _ read passes _ _ line _ =>
    absurd (inLine_append.mp line).1 (not_inLine_of_heredocForm sound read passes)⟩

/-! ## Names and calls -/

section Calls

variable {names : List String} {name : String}

/-- Behind the text and its blanks a call is announced. -/
def AnnouncesCall (breaks : Bool) (text : List Char) : Prop :=
  ∃ c : Cursor, c.rest = text ∧ nameSequel (afterBlanks breaks c).rest = .call

theorem startsSolid_namespaceName (breaks : Bool) :
    StartsSolid (do word [':', ':']; skip breaks; demandIdentifier) :=
  (startsSolid_word (List.cons_ne_nil _ _) (by decide)).bind (fun _ => advances_word _) fun _ _ =>
    (advances_skip _).bind fun _ _ => advances_demandIdentifier

/-- The double colon takes two characters. -/
theorem takesTwo_namespaceName (breaks : Bool) :
    TakesTwo (do word [':', ':']; skip breaks; demandIdentifier) := by
  refine TakesTwo.bind (fun c _ next read => ?_) fun _ _ =>
    (advances_skip _).bind fun _ _ => advances_demandIdentifier
  rw [(passes_word read).1]
  exact Nat.le_of_eq rfl

/-- A further name is read within its line, with the blanks in front of it and behind its colons. -/
theorem readsInLine_namespacePart (breaks breaks' : Bool) :
    ReadsInLine bound ends id (namespacePart breaks) (namespacePart breaks') := by
  have name : ReadsInLine bound ends id (do skip breaks; demandIdentifier)
      (do skip breaks'; demandIdentifier) :=
    (isLocal_identifier.demand _).readsInLine.skip_bind
      (startsSolid_identifier.demand _) breaks breaks'
  have colons : ReadsInLine bound (fun _ => True) id (word [':', ':']) (word [':', ':']) :=
    (isLocal_word _).readsInLine
  have part : ReadsInLine bound ends id (do word [':', ':']; skip breaks; demandIdentifier)
      (do word [':', ':']; skip breaks'; demandIdentifier) :=
    colons.bind (fun _ _ _ => name) fun _ _ _ _ _ _ => trivial
  exact part.skip_bind (startsSolid_namespaceName breaks) breaks breaks'

/-- No further name stands where the line announces a call. -/
theorem isUndone_namespacePart_of_call (line : InLine kept)
    (call : AnnouncesCall breaks (kept ++ cut)) : IsUndone (namespacePart breaks') kept := by
  obtain ⟨c, here, call⟩ := call
  intro offset
  have skipped := skip_eq_read_afterBlanks breaks' ⟨kept, offset⟩
  have none : [':', ':'].isPrefixOf (afterBlanks breaks' ⟨kept, offset⟩).rest = false := by
    refine Bool.eq_false_iff.mpr fun colons => ?_
    obtain ⟨more, same⟩ := List.isPrefixOf_iff_prefix.mp colons
    have names : nameSequel (afterBlanks breaks' ⟨kept, offset⟩).rest = .names := by
      rw [← same]
      rfl
    have whole : nameSequel (afterBlanks breaks c).rest =
        nameSequel (afterBlanks breaks' ⟨kept, offset⟩).rest :=
      announces_nameSequel.of_cut line here rfl (by rw [names]; nofun)
    rw [call, names] at whole
    cases whole
  obtain ⟨complaint, failed⟩ := isUndone_word none (afterBlanks breaks' ⟨kept, offset⟩).offset
  exact ⟨complaint, bind_eq_undone_iff.mpr
    (.inr ⟨(), _, skipped, bind_eq_undone_iff.mpr (.inl failed)⟩)⟩

variable (agrees : ∀ k, level.Agrees k bound level')
include agrees

/-- The arguments of a call are read within their line. -/
theorem readsInLine_arguments (setting : Setting) :
    ReadsInLine (bound + 1) ends (fun a => (a.1.map Expr.unplaced, a.2)) (arguments level setting)
      (arguments level' setting) := by
  rw [arguments_eq, arguments_eq]
  exact readsInLine_enclosed (by decide) (isSign_demandWord rfl) (isSign_demand ')' _)
    fun k => tracks_argumentsInside (agrees k) setting

/-- They take both parentheses. -/
theorem exists_passes_of_arguments {given : List Expr × Bool}
    (read : arguments level setting c = .read given next) :
    ∃ body, c.Passes ('(' :: (body ++ [')'])) next := by
  rw [arguments_eq] at read
  have anywhere := agrees (.before (show ')' ∈ closers by decide) [] [])
  exact exists_passes_of_enclosed (isSign_demandWord rfl) (isSign_demand ')' _)
    (tracks_argumentsInside anywhere setting).advances read

/-- The arguments of a call and what is made of them. -/
theorem takesTwo_arguments {f : List Expr × Bool → Parser α}
    (second : ∀ given text, Advances text (f given)) :
    TakesTwo (arguments level setting >>= f) := by
  refine TakesTwo.bind (fun c given next read => ?_) second
  obtain ⟨body, passes⟩ := exists_passes_of_arguments agrees read
  rw [passes.1]
  simp only [List.length_cons, List.length_append]
  omega

/-- A call is read within its line from behind its name on. -/
theorem readsInLine_callBehind (alike : setting'.conditionals = setting.conditionals)
    (names : List String) : ReadsInLine (bound + 1) ends
      (fun a => (a.1.unplaced, a.2.conditionals)) (callBehind level setting names)
      (callBehind level' setting' names) := by
  have call : ReadsInLine (bound + 1) ends (fun a => (a.1.unplaced, a.2.conditionals))
      (do let given ← arguments level setting.withBreaks
          return (Form.call names given.1 given.2, setting.withBreaks))
      (do let given ← arguments level' setting.withBreaks
          return (Form.call names given.1 given.2, setting.withBreaks)) :=
    (readsInLine_arguments agrees setting.withBreaks).map _ _ fun given given' same => by
      obtain ⟨sames, same⟩ := Prod.mk.inj same
      simp only [Form.unplaced, itemsUnplaced_eq_map, sames, same]
  unfold callBehind
  rw [withBreaks_eq alike]
  refine call.skip_bind (startsSolid_of_head ?_ fun c a next read => ?_) _ _
  · exact (takesTwo_arguments agrees fun _ _ => advances_pure _).takesSome
  · obtain ⟨given, _, taken, _⟩ := bind_eq_read_iff.mp read
    obtain ⟨body, passes⟩ := exists_passes_of_arguments agrees taken
    rw [passes.1]
    exact forall_mem_head?_cons (by decide) _

/-- A name is read with what is announced behind it. -/
theorem readsInLine_nameBehind (alike : setting'.conditionals = setting.conditionals)
    (name : String) (sequel : NameSequel) : ReadsInLine (bound + 1) ends
      (fun a => (a.1.unplaced, a.2.conditionals)) (nameBehind level setting name sequel)
      (nameBehind level' setting' name sequel) := by
  cases sequel with
  | names =>
    have more : ReadsInLine (bound + 1) (AnnouncesCall setting.breaks) (List.map id)
        (many1 (namespacePart setting.breaks)) (many1 (namespacePart setting'.breaks)) :=
      (readsInLine_namespacePart _ _).many1 (takesSome_namespacePart _)
        (isUndone_namespacePart_nil _) fun _ _ => isUndone_namespacePart_of_call
    refine more.bind (fun names names' same => ?_) fun names middle a next read _ => ?_
    · obtain rfl : names' = names := by simpa using same
      exact readsInLine_callBehind agrees alike _
    -- The names end at the parenthesis, and this is what announces a call behind them.
    · obtain ⟨_, _, skipped, read⟩ := bind_eq_read_iff.mp read
      obtain ⟨given, _, taken, _⟩ := bind_eq_read_iff.mp read
      obtain ⟨body, passes⟩ := exists_passes_of_arguments agrees taken
      refine ⟨middle, rfl, ?_⟩
      rw [afterBlanks_of_skip skipped, passes.1]
      cases body <;> rfl
  | call => exact readsInLine_callBehind agrees alike _
  | nothing => exact readsInLine_pure (Prod.ext rfl alike)

/-- A name or a call is read within its line: what stands behind the name announces a call in both
texts or in none. -/
theorem readsInLine_nameOrCall (alike : setting'.conditionals = setting.conditionals) :
    ReadsInLine (bound + 1) ends (fun a => (a.1.unplaced, a.2.conditionals))
      (nameOrCall level setting) (nameOrCall level' setting') := by
  have name : ReadsInLine (bound + 1) (fun _ => True) id identifier identifier :=
    isLocal_identifier.readsInLine
  rw [nameOrCall_eq, nameOrCall_eq]
  refine name.bind (fun name name' same => ?_) fun _ _ _ _ _ _ => trivial
  obtain rfl : name' = name := same
  refine readsInLine_announced announces_nameSequel (readsInLine_nameBehind agrees alike name')
    (fun sequel announced => ?_) setting'.breaks
  have each (names : List String) : ReadsInLine (bound + 1) ends
      (fun a => (a.1.unplaced, a.2.conditionals)) (callBehind level setting names)
      (callBehind level' setting' names) := readsInLine_callBehind agrees alike names
  have call (names : List String) :
      TakesTwoBehind setting.breaks (callBehind level setting names) :=
    (takesTwo_arguments agrees fun _ _ => advances_pure _).behind _
  cases sequel with
  | names =>
    have part : TakesTwoBehind setting.breaks (namespacePart setting.breaks) :=
      (takesTwo_namespaceName _).behind _
    have parts : TakesTwoBehind setting.breaks (many1 (namespacePart setting.breaks)) :=
      part.bind fun _ _ => (advances_namespacePart _).many.bind fun _ _ => advances_pure _
    exact parts.bind fun _ => (each _).advances
  | call => exact call _
  | nothing => exact absurd rfl announced

end Calls

/-! ## Signs and terms -/

/-- In lines shorter than the bound the readers of the first level read what those of the second
one read there, if both settings agree on conditionals. -/
structure Level.AgreesInLine (bound : Nat) (level level' : Level) : Prop where
  sound : ∀ text, level.IsSound text (·.IsIn text)
  sound' : ∀ text, level'.IsSound text (·.IsIn text)
  agrees : ∀ k, level.Agrees k bound level'
  expr : ∀ {setting setting'}, setting'.conditionals = setting.conditionals →
    ReadsInLine bound EndsNumber Expr.unplaced (level.expr setting) (level'.expr setting')
  term : ∀ {setting setting'}, setting'.conditionals = setting.conditionals →
    ReadsInLine bound LacksScale (fun a => (a.1.unplaced, a.2.conditionals)) (level.term setting)
      (level'.term setting')
  solidExpr : ∀ setting, StartsSolid (level.expr setting)
  solidTerm : ∀ setting, StartsSolid (level.term setting)
  /-- A term that starts with a digit is a number. -/
  number : ∀ {setting c a next}, level.term setting c = .read a next →
    (∃ x ∈ c.rest.head?, x.isDigit = true) → ∃ value last, number c = .read value last

theorem startsSolid_number : StartsSolid number :=
  startsSolid_of_head (fun c value next read => by
    obtain ⟨x, more, passes, _⟩ := passes_number read
    rw [passes.1, List.length_append]
    exact Nat.lt_add_of_pos_left (Nat.succ_pos _)) fun c value next read => by
    obtain ⟨x, more, passes, digit, _⟩ := passes_number read
    rw [passes.1]
    exact forall_mem_head?_cons (startsBlank_of_isDigit digit) _

/-- A number behind its sign is read within its line, if the number is. -/
theorem readsInLine_negativeNumber :
    ReadsInLine bound LacksScale id negativeNumber negativeNumber := by
  have sign : ReadsInLine bound (fun _ => True) id (char '-') (char '-') :=
    (isLocal_satisfy _).readsInLine
  have value : ReadsInLine bound LacksScale id (do return (← number).neg)
      (do return (← number).neg) :=
    readsInLine_number.map _ _ fun _ _ => congrArg Numeral.neg
  have solid : StartsSolid (do return (← number).neg) :=
    startsSolid_number.bind (fun _ => advances_number) fun _ _ => advances_pure _
  exact sign.bind (fun _ _ _ => value.skip_bind solid false false) fun _ _ _ _ _ _ => trivial

/-- A number starts with a digit. -/
theorem isUndone_number (other : ∀ x ∈ text.head?, x.isDigit = false) : IsUndone number text := by
  have none : IsUndone digits text := (isUndone_satisfy other).bind _
  exact (none.bind _).choice (none.bind _)

section Terms

variable (agrees : level.AgreesInLine bound level')
include agrees

/-- A sign is read within its line with the term behind it. -/
theorem readsInLine_signed (alike : setting'.conditionals = setting.conditionals) (sign : Char)
    (op : UnaryOp) : ReadsInLine (bound + 1) LacksScale (fun a => (a.1.unplaced, a.2.conditionals))
      (signed level setting sign op) (signed level' setting' sign op) := by
  have first : ReadsInLine (bound + 1) (fun _ => True) id (char sign) (char sign) :=
    (isLocal_satisfy _).readsInLine
  have operand : ReadsInLine bound LacksScale (fun a => (a.1.unplaced, a.2.conditionals))
      (do let a ← level.term setting; return (Form.unary op a.1, a.2))
      (do let a ← level'.term setting'; return (Form.unary op a.1, a.2)) :=
    (agrees.term alike).map _ _ fun _ _ same => by
      obtain ⟨same, alike⟩ := Prod.mk.inj same
      simp only [Form.unplaced, same, alike]
  have solid : StartsSolid (do let a ← level.term setting; return (Form.unary op a.1, a.2)) :=
    (agrees.solidTerm setting).bind (agrees.term rfl).advances fun _ _ => advances_pure _
  exact first.bind_less (takesSome_satisfy _) (fun _ _ _ => operand.skip_bind solid false false)
    fun _ _ _ _ _ _ => trivial

/-- Behind a minus sign a number is undone again, since the term that is read there starts with no
digit. -/
theorem isUndone_negativeNumber_of_signed {complaint : Complaint} {a : Form × Setting}
    (undone : negativeNumber c = .undone complaint)
    (read : signed level setting '-' .minus c = .read a next) (passes : c.Passes front next)
    (line : InLine front) (kept : List Char) : IsUndone negativeNumber (front ++ kept) := by
  obtain ⟨_, start, sign, more⟩ := bind_eq_read_iff.mp read
  obtain ⟨_, middle, skipped, more⟩ := bind_eq_read_iff.mp more
  obtain ⟨_, last, term, made⟩ := bind_eq_read_iff.mp more
  obtain ⟨_, rfl⟩ := Outcome.read.inj made
  obtain ⟨blanks, passed⟩ := leadsTo_of_advances (fun _ => advances_skip false) skipped
  obtain ⟨others, later⟩ := leadsTo_of_advances (agrees.term rfl).advances term
  obtain rfl := passes.eq ((passes_char sign).trans (passed.trans later))
  obtain ⟨some, solid⟩ := agrees.solidTerm setting term later
  obtain ⟨x, more, rfl⟩ := List.exists_cons_of_ne_nil some
  -- The sign and the blanks were read, so it was the number that failed.
  have noNumber : ∃ complaint, number middle = .undone complaint := by
    rw [negativeNumber, bind_apply, sign] at undone
    dsimp only at undone
    rw [bind_apply, skipped] at undone
    dsimp only at undone
    rcases bind_eq_undone_iff.mp undone with failed | ⟨_, _, _, ⟨⟩⟩
    exact ⟨_, failed⟩
  have noDigit : x.isDigit = false := by
    refine Bool.eq_false_iff.mpr fun digit => ?_
    obtain ⟨_, _, value⟩ := agrees.number term ⟨x, by rw [later.1]; rfl, digit⟩
    obtain ⟨_, failed⟩ := noNumber
    cases value.symm.trans failed
  have inBlanks := (inLine_append.mp (inLine_append.mp line).2).1
  have goesOn : middle.rest ≠ [] := by
    rw [later.1]
    exact List.cons_ne_nil _ _
  have are := areBlanks_of_skip skipped passed inBlanks goesOn
  rw [List.cons_append, List.nil_append, List.cons_append, List.append_assoc]
  exact (reads_char '-' _).bind_isUndone fun _ _ => (are (solid kept)).bind_isUndone fun _ _ =>
    (isUndone_number (forall_mem_head?_cons noDigit _)).bind _

/-- Behind a minus sign there is a number in both texts, or another term in both of them. -/
theorem readsInLine_negative (alike : setting'.conditionals = setting.conditionals) :
    ReadsInLine (bound + 1) LacksScale (fun a : Form × Setting => (a.1.unplaced, a.2.conditionals))
      (choice (do return (← (do return .number (← negativeNumber)), setting))
        (signed level setting '-' .minus))
      (choice (do return (← (do return .number (← negativeNumber)), setting'))
        (signed level' setting' '-' .minus)) := by
  have form : ReadsInLine (bound + 1) LacksScale Form.unplaced
      (do return Form.number (← negativeNumber)) (do return Form.number (← negativeNumber)) :=
    readsInLine_negativeNumber.map _ _ fun _ _ same =>
      congrArg (fun v => (Form.number v).unplaced) same
  have number := form.paired alike
  have other := readsInLine_signed agrees alike '-' .minus
  refine ⟨fun text => (number.advances text).choice (other.advances text), ?_⟩
  intro c a next front kept cut read passes short left line ending
  rcases choice_eq_read_iff.mp read with read | ⟨⟨_, undone⟩, read⟩
  · exact (number.again read passes short left line ending).choice _
  · refine (other.again read passes short left line ending).choice_right ?_
    rcases bind_eq_undone_iff.mp undone with failed | ⟨_, _, _, ⟨⟩⟩
    rcases bind_eq_undone_iff.mp failed with failed | ⟨_, _, _, ⟨⟩⟩
    have none := isUndone_negativeNumber_of_signed agrees failed read passes
      (inLine_append.mp line).1 kept
    exact (none.bind _).bind _

/-- What a term is read with reads within its line. -/
theorem exists_readsInLine_of_readsTerm {p : Parser (Form × Setting)}
    (reads : ReadsTerm level setting x p) (alike : setting'.conditionals = setting.conditionals) :
    ∃ p', ReadsTerm level' setting' x p' ∧ ReadsInLine (bound + 1) LacksScale
      (fun a => (a.1.unplaced, a.2.conditionals)) p p' := by
  cases reads with
  | quoted => exact ⟨_, .quoted, (readsInLine_quotedForm agrees.agrees).paired alike⟩
  | list =>
    refine ⟨_, .list, ?_⟩
    rw [withBreaks_eq alike]
    exact (readsInLine_listForm agrees.agrees _).paired rfl
  | object => exact ⟨_, .object, readsInLine_objectForm agrees.agrees alike⟩
  | heredoc => exact ⟨_, .heredoc, (readsInLine_heredocForm agrees.sound).paired alike⟩
  | parens => exact ⟨_, .parens, (readsInLine_parensForm agrees.agrees).paired alike⟩
  | negative => exact ⟨_, .negative, readsInLine_negative agrees alike⟩
  | negation => exact ⟨_, .negation, readsInLine_signed agrees alike '!' .not⟩
  | number digit =>
    have form : ReadsInLine (bound + 1) LacksScale Form.unplaced
        (do return Form.number (← number)) (do return Form.number (← number)) :=
      readsInLine_number.map _ _ fun _ _ same => congrArg (fun v => (Form.number v).unplaced) same
    exact ⟨_, .number digit, form.paired alike⟩
  | name start => exact ⟨_, .name start, readsInLine_nameOrCall agrees.agrees alike⟩

end Terms

/-- The extent of a form is what was passed to read it. -/
theorem reads_markedWith_text {p : Parser (Form × Setting)} {holds : Form × Setting → Prop}
    (advances : ∀ text, Advances text p) (reads : Reads p (front ++ kept) holds kept) :
    Reads (markedWith p) (front ++ kept)
      (fun a => a.1.text = String.ofList front ∧ holds (a.1.form, a.2)) kept := by
  intro offset
  obtain ⟨⟨form, after⟩, place, read, property⟩ := reads offset
  obtain ⟨between, passes⟩ := leadsTo_of_advances advances read
  obtain rfl : front = between := List.append_cancel_right passes.1
  refine ⟨_, place, markedWith_eq_read_iff.mpr ⟨form, after, read, rfl⟩, ?_, property⟩
  exact congrArg String.ofList (upTo_of_passes passes)

/-- A term is read within its line if it is refused only where it was refused. -/
theorem readsInLine_termAt (agrees : level.AgreesInLine bound level') (closes : level.EndsSolid)
    {refused refused' : Form → Bool}
    (weaker : ∀ form form', form'.unplaced = form.unplaced → refused' form' = true →
      refused form = true) (alike : setting'.conditionals = setting.conditionals) :
    ReadsInLine (bound + 1) LacksScale (fun a => (a.1.unplaced, a.2.conditionals))
      (refusing (fun a => refused a.1.form) (termAt level setting))
      (refusing (fun a => refused' a.1.form) (termAt level' setting')) := by
  refine ⟨fun text => advances_refusing (advances_termAt (agrees.sound text)), ?_⟩
  intro c a next front kept cut read passes short left line ending
  obtain ⟨read, allowed⟩ := refusing_eq_read_iff.mp read
  have less := (endsSolid_termAt agrees.sound closes setting).takesSome read
  obtain ⟨x, p, first, reads, marked⟩ := exists_readsTerm read
  obtain ⟨p', reads', inLine⟩ := exists_readsInLine_of_readsTerm agrees reads alike
  obtain ⟨form, after, taken, rfl⟩ := markedWith_eq_read_iff.mp marked
  have advances' (text : List Char) : Advances text p' := fun _ _ _ here read =>
    ⟨(makes_of_readsTerm (agrees.sound' text) reads' here read).1, trivial⟩
  have again := reads_markedWith_text advances' (inLine.again taken passes short left line ending)
  -- The term takes its first character, which chooses the same reader in the line.
  rw [passes.1] at less first
  cases front with
  | nil => exact absurd less (Nat.lt_irrefl _)
  | cons y front =>
    obtain rfl : y = x := Option.some.inj first
    intro offset
    obtain ⟨⟨⟨extent, form'⟩, after'⟩, place, read', text, same⟩ := again offset
    obtain ⟨same, others⟩ := Prod.mk.inj same
    have allowed' : refused' form' = false := Bool.eq_false_iff.mpr fun stopped =>
      Bool.false_ne_true (allowed.symm.trans (weaker form form' same stopped))
    refine ⟨_, place, refusing_eq_read_iff.mpr
      ⟨(termAt_of_readsTerm reads' _ offset).trans read', allowed'⟩, ?_⟩
    refine Prod.ext (Expr.unplaced_eq ?_ same) others
    rw [upTo_of_passes passes]
    exact text

end Grammar

end HclLint.Hcl
