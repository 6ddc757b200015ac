/-
# Members of lists and objects

The members of a list or an object are read further on in the text, by readers two levels down. So
what is known of an expression that is read deep enough for the text behind it is known of its
members as well, at any depth. In a text without heredocs this holds of being read again: wherever
an expression has signs of its own or is written in one line, its text alone is read as that
expression. What follows a member or a value ends every number, and so the text that was cut out
does not end with another one.

## Main definitions

* `Parser.ReadsBehind`: a value that a parser reads at a cursor or further on, and what follows it.
* `Parser.Gathers`: a parser of lists whose members another parser reads.
* `Expr.IsReread`: what an expression is made of is read again, wherever it has signs of its own or
  is written in one line.

## Main statements

* `gathers_many`, `gathers_separated`: repetitions gather what they repeat.
* `exists_read_of_mem_members`: the members of an expression are read further on.
* `each_isReread_of_readBody`: the values of a file without heredocs are read again.
-/

import HclLint.Proofs.Hcl.Line.Expression

namespace HclLint.Hcl

open HclLint.Text

/-- What is kept of the expression is its text, and if it has signs of its own or is written in one
line then its text alone is read as the expression, but for places. The same holds of its
members. -/
inductive Expr.IsReread : Expr → Prop where
  | mk {e : Expr} (kept : Grammar.IsKept e)
      (own : e.form.opener?.isSome = true ∨ InLine e.text.toList →
        ∃ e', readExpr e.text = .ok e' ∧ e'.form.unplaced = e.form.unplaced)
      (inside : ∀ member ∈ e.form.members, Expr.IsReread member) : Expr.IsReread e

namespace Parser

variable {α : Type} {ends : List Char → Prop} {p : Parser α} {c start : Cursor} {a : α}

/-- The parser reads the value at the cursor or further on, in front of such a text. -/
def ReadsBehind (ends : List Char → Prop) (p : Parser α) (c : Cursor) (a : α) : Prop :=
  ∃ start next, c.LeadsTo start ∧ p start = .read a next ∧ ends next.rest

/-- What is read further on from a later cursor is read further on. -/
theorem ReadsBehind.of_leadsTo (forward : c.LeadsTo start) (behind : ReadsBehind ends p start a) :
    ReadsBehind ends p c a := by
  obtain ⟨later, next, further, read⟩ := behind
  exact ⟨later, next, forward.trans further, read⟩

/-- Every member of what the first parser reads is read by the second one, in front of such a text
if the first one stops in front of one. -/
def Gathers (ends : List Char → Prop) (q : Parser (List α)) (p : Parser α) : Prop :=
  ∀ ⦃c as next⦄, q c = .read as next → ends next.rest → ∀ a ∈ as, ReadsBehind ends p c a

/-- A repetition starts in front of such a text, if it ends there and each reading starts there. -/
theorem ends_of_manyUpTo {limit : List Char} {as : List α} {next : Cursor}
    (starts : ∀ ⦃c a next⦄, p c = .read a next → ends c.rest)
    (read : manyUpTo p limit c = .read as next) (ending : ends next.rest) : ends c.rest := by
  cases limit with
  | nil =>
    obtain ⟨_, rfl⟩ := Outcome.read.inj read
    exact ending
  | cons x limit =>
    rcases manyUpTo_cons_eq_read_iff.mp read with ⟨_, _, _, taken, _⟩ | ⟨_, _, rfl⟩
    · exact starts taken
    · exact ending

/-- A repetition gathers what it repeats, if it may go on behind each reading. -/
theorem gathers_many (advances : ∀ text, Advances text p)
    (starts : ∀ ⦃c a next⦄, p c = .read a next → ends c.rest) : Gathers ends (many p) p := by
  have upTo (limit : List Char) : Gathers ends (manyUpTo p limit) p := by
    induction limit with
    | nil =>
      intro c as next read _ a member
      obtain ⟨rfl, _⟩ := Outcome.read.inj read
      cases member
    | cons x limit ih =>
      intro c as next read ending a member
      rcases manyUpTo_cons_eq_read_iff.mp read with
        ⟨first, middle, others, taken, more, rfl⟩ | ⟨_, rfl, _⟩
      · rcases List.mem_cons.mp member with rfl | member
        · exact ⟨c, middle, .refl c, taken, ends_of_manyUpTo starts more ending⟩
        · exact (ih more ending a member).of_leadsTo (leadsTo_of_advances advances taken)
      · cases member
  exact fun c _ _ read => upTo c.rest read

/-- So does a sequence with commas between its members. -/
theorem gathers_separated (advances : ∀ text, Advances text p)
    (comma : ∀ rest, ends (',' :: rest)) : Gathers ends (separated p) p := by
  intro c as next read ending a member
  rcases choice_eq_read_iff.mp read with read | ⟨_, read⟩
  · obtain ⟨first, middle, taken, more⟩ := bind_eq_read_iff.mp read
    obtain ⟨others, _, repeated, made⟩ := bind_eq_read_iff.mp more
    obtain ⟨rfl, rfl⟩ := Outcome.read.inj made
    -- Every other member stands behind a comma.
    have further (text : List Char) : Advances text (do let _ ← char ','; p) :=
      (advances_char ',').bind fun _ _ => advances text
    have starts ⦃c : Cursor⦄ ⦃a : α⦄ ⦃next : Cursor⦄
        (read : (do let _ ← char ','; p) c = .read a next) : ends c.rest := by
      obtain ⟨_, _, sign, _⟩ := bind_eq_read_iff.mp read
      rw [(passes_char sign).1]
      exact comma _
    rcases List.mem_cons.mp member with rfl | member
    · exact ⟨c, middle, .refl c, taken, ends_of_manyUpTo starts repeated ending⟩
    · obtain ⟨start, last, forward, another, ended⟩ :=
        gathers_many further starts repeated ending a member
      obtain ⟨_, begun, comma, read⟩ := bind_eq_read_iff.mp another
      refine ⟨begun, last, ?_, read, ended⟩
      exact (leadsTo_of_advances advances taken).trans (forward.trans ⟨_, passes_char comma⟩)
  · obtain ⟨rfl, _⟩ := Outcome.read.inj read
    cases member

end Parser

namespace Grammar

open HclLint.Hcl.Parser

variable {level : Level} {setting : Setting} {c start next : Cursor} {e : Expr} {form : Form}
  {depth : Nat}

section Members

variable (sound : ∀ text, level.IsSound text (·.IsIn text))
include sound

theorem advances_spacedItem (test : Char → Bool) (text : List Char) :
    Advances text (spacedItem level setting test) :=
  (advances_skip true).bind fun _ _ => (advances_notAhead test).bind fun _ _ =>
    ((sound text).expr setting).bind fun _ _ => (advances_skip true).bind fun _ _ =>
      advances_pure _

/-- The members of a list are read behind its bracket. -/
theorem readsBehind_of_listInside (read : listInside level setting c = .read form next)
    (ending : EndsNumber next.rest) :
    ∀ member ∈ form.members, ReadsBehind EndsNumber (level.expr setting) c member := by
  intro member inside
  unfold listInside at read
  split at read
  · have none : Answers (listForForm level setting) (·.members = []) :=
      .last fun (_, _) => .last fun _ => .last fun _ => .last fun _ => .last fun _ =>
        answers_pure rfl
    rw [none read] at inside
    cases inside
  · obtain ⟨items, middle, taken, more⟩ := bind_eq_read_iff.mp read
    obtain ⟨_, _, trailing, more⟩ := bind_eq_read_iff.mp more
    obtain ⟨_, _, skipped, made⟩ := bind_eq_read_iff.mp more
    obtain ⟨rfl, rfl⟩ := Outcome.read.inj made
    have comma (rest : List Char) : EndsNumber (',' :: rest) := endsNumber_cons rfl rest
    have behind : EndsNumber middle.rest := by
      rcases optional_eq_read_iff.mp trailing with ⟨_, sign, _⟩ | ⟨_, _, rfl⟩
      · rw [(passes_char sign).1]
        exact comma _
      · exact endsNumber_of_skip skipped ending
    obtain ⟨start, _, forward, item, ended⟩ :=
      gathers_separated (advances_spacedItem sound _) comma taken behind member inside
    obtain ⟨_, _, skipped, more⟩ := bind_eq_read_iff.mp item
    obtain ⟨_, begun, ahead, more⟩ := bind_eq_read_iff.mp more
    obtain ⟨_, last, read, more⟩ := bind_eq_read_iff.mp more
    obtain ⟨_, _, blanks, made⟩ := bind_eq_read_iff.mp more
    obtain ⟨rfl, rfl⟩ := Outcome.read.inj made
    refine ⟨begun, last, forward.trans ?_, read, endsNumber_of_skip blanks ended⟩
    exact (leadsTo_of_advances (fun _ => advances_skip true) skipped).trans
      (leadsTo_of_advances (fun _ => advances_notAhead _) ahead)

omit sound in
/-- No number goes on with the sign behind a key. -/
theorem endsNumber_of_objectSign {a : Unit} (read : objectSign c = .read a next) :
    EndsNumber c.rest := by
  unfold objectSign at read
  split at read
  · cases read
  · next x rest same =>
    split at read
    · next sign =>
      rw [same]
      refine endsNumber_cons ?_ rest
      simp only [Bool.or_eq_true, beq_iff_eq] at sign
      rcases sign with rfl | rfl
      · rfl
      · rfl
    · cases read

omit sound in
/-- Nor with what separates a value from the next key. -/
theorem endsNumber_of_objectSeparator {a : Unit} (read : objectSeparator c = .read a next) :
    EndsNumber c.rest := by
  unfold objectSeparator at read
  split at read
  · cases read
  · next same =>
    rw [same]
    exact endsNumber_cons rfl _
  · next same =>
    rw [same]
    exact endsNumber_cons rfl _
  · next x rest _ _ same =>
    rw [same]
    refine endsNumber_cons ?_ rest
    split at read
    · next broken =>
      simp only [Bool.or_eq_true, beq_iff_eq] at broken
      rcases broken with rfl | rfl
      · rfl
      · rfl
    · split at read
      · next comment =>
        simp only [Bool.or_eq_true, beq_iff_eq] at comment
        rcases comment with rfl | rfl
        · rfl
        · rfl
      · cases read

/-- Both parts of an entry are read behind its start. -/
theorem readsBehind_of_objectItem {entry : Expr × Expr}
    (read : objectItem level c = .read entry next) :
    ReadsBehind EndsNumber (level.expr .line) c entry.1 ∧
      ReadsBehind EndsNumber (level.expr .line) c entry.2 := by
  obtain ⟨key, _, first, more⟩ := bind_eq_read_iff.mp read
  obtain ⟨_, _, blanks, more⟩ := bind_eq_read_iff.mp more
  obtain ⟨_, _, sign, more⟩ := bind_eq_read_iff.mp more
  obtain ⟨_, start, blanks', more⟩ := bind_eq_read_iff.mp more
  obtain ⟨value, last, second, more⟩ := bind_eq_read_iff.mp more
  obtain ⟨_, _, behind, more⟩ := bind_eq_read_iff.mp more
  obtain ⟨_, _, separator, made⟩ := bind_eq_read_iff.mp more
  obtain ⟨rfl, rfl⟩ := Outcome.read.inj made
  refine ⟨⟨c, _, .refl c, first, endsNumber_of_skip blanks (endsNumber_of_objectSign sign)⟩,
    start, last, ?_, second, endsNumber_of_skip behind (endsNumber_of_objectSeparator separator)⟩
  have forward := leadsTo_of_advances (fun text => ((sound text).expr .line).advances) first
  have forward := forward.trans (leadsTo_of_advances (fun _ => advances_skip false) blanks)
  have forward := forward.trans (leadsTo_of_advances (fun _ => advances_objectSign) sign)
  exact forward.trans (leadsTo_of_advances (fun _ => advances_skip false) blanks')

/-- The items of an object are read one after the other. -/
theorem gathers_objectItems (limit : List Char) :
    Gathers (fun _ => True) (objectItems level limit) (objectItem level) := by
  induction limit with
  | nil => exact fun _ _ _ => nofun
  | cons x limit ih =>
    intro c items next read _ entry member
    obtain ⟨_, _, skipped, more⟩ := bind_eq_read_iff.mp read
    obtain ⟨more?, start, ahead, more⟩ := bind_eq_read_iff.mp more
    have forward := leadsTo_of_advances (fun _ => advances_skip true) skipped
    have forward := forward.trans
      (leadsTo_of_advances (fun _ => (advances_notAhead _).optional.advances) ahead)
    refine ReadsBehind.of_leadsTo forward ?_
    split at more
    · obtain ⟨first, middle, taken, more⟩ := bind_eq_read_iff.mp more
      obtain ⟨others, _, repeated, made⟩ := bind_eq_read_iff.mp more
      obtain ⟨rfl, rfl⟩ := Outcome.read.inj made
      rcases List.mem_cons.mp member with rfl | member
      · exact ⟨start, middle, .refl start, taken, trivial⟩
      · exact (ih repeated trivial entry member).of_leadsTo
          (leadsTo_of_advances (fun text => (yields_objectItem (sound text)).advances) taken)
    · obtain ⟨rfl, _⟩ := Outcome.read.inj more
      cases member

/-- The members of an object are read behind its brace. -/
theorem readsBehind_of_objectInside {a : Form × Setting}
    (read : objectInside level setting c = .read a next) :
    ∀ member ∈ a.1.members, ReadsBehind EndsNumber (level.expr .line) c member := by
  intro member inside
  unfold objectInside at read
  split at read
  · have none : Answers (objectForForm level setting.withBreaks) (·.members = []) :=
      .last fun (_, _) => .last fun _ => .last fun _ => .last fun _ => .last fun _ =>
        .last fun _ => .last fun _ => .last fun _ => .last fun _ => .last fun _ => answers_pure rfl
    obtain ⟨form, _, taken, made⟩ := bind_eq_read_iff.mp read
    obtain ⟨rfl, rfl⟩ := Outcome.read.inj made
    rw [none taken] at inside
    cases inside
  · obtain ⟨form, _, taken, made⟩ := bind_eq_read_iff.mp read
    obtain ⟨rfl, rfl⟩ := Outcome.read.inj made
    obtain ⟨items, _, gathered, made⟩ := bind_eq_read_iff.mp taken
    obtain ⟨rfl, rfl⟩ := Outcome.read.inj made
    obtain ⟨entry, kept, part⟩ := List.mem_flatMap.mp inside
    obtain ⟨start, _, forward, item, _⟩ :=
      gathers_objectItems sound _ gathered trivial entry (mem_of_mem_entriesOf kept)
    obtain ⟨key, value⟩ := readsBehind_of_objectItem sound item
    rcases List.mem_cons.mp part with rfl | part
    · exact key.of_leadsTo forward
    · exact List.mem_singleton.mp part ▸ value.of_leadsTo forward

/-- The members of a term are read further on in the text, by the same readers. No number goes on
behind them. -/
theorem exists_read_of_mem_members {a : Expr × Setting} (wide : setting.withBreaks = .bracket)
    (read : termAt level setting c = .read a next) {member : Expr}
    (inside : member ∈ a.1.form.members) :
    ∃ within start last, within.withBreaks = .bracket ∧ c.LeadsTo start ∧
      start.rest.length < c.rest.length ∧ level.expr within start = .read member last ∧
      EndsNumber last.rest := by
  -- The opening sign stands in front of all members.
  have further {x : Char} {begun : Cursor} {within : Setting}
      (allowed : within.withBreaks = .bracket) (opening : c.Passes [x] begun)
      (behind : ReadsBehind EndsNumber (level.expr within) begun member) :
      ∃ within start last, within.withBreaks = .bracket ∧ c.LeadsTo start ∧
        start.rest.length < c.rest.length ∧ level.expr within start = .read member last ∧
        EndsNumber last.rest := by
    obtain ⟨start, last, forward, read, ended⟩ := behind
    refine ⟨within, start, last, allowed, .trans ⟨_, opening⟩ forward, ?_, read, ended⟩
    rw [opening.1]
    exact Nat.lt_succ_of_le forward.length_le
  cases form : a.1.form with
  | list =>
    have matched := read_of_opener .list read (by rw [form]; rfl)
    obtain ⟨_, _, taken, made⟩ := bind_eq_read_iff.mp matched
    obtain ⟨same, rfl⟩ := Outcome.read.inj made
    obtain rfl := (Prod.mk.inj same).1
    obtain ⟨_, begun, opening, more⟩ := bind_eq_read_iff.mp taken
    obtain ⟨_, _, listed, more⟩ := bind_eq_read_iff.mp more
    obtain ⟨_, _, closing, made⟩ := bind_eq_read_iff.mp more
    obtain ⟨rfl, rfl⟩ := Outcome.read.inj made
    rw [wide] at listed
    have closed := ((isSign_demandWord rfl : IsSign ']' (demandWord "]")).passes closing).1
    refine further rfl (passes_char opening)
      (readsBehind_of_listInside sound listed ?_ member inside)
    rw [closed]
    exact endsNumber_cons rfl _
  | object =>
    have taken := read_of_opener .object read (by rw [form]; rfl)
    obtain ⟨_, begun, opening, more⟩ := bind_eq_read_iff.mp taken
    obtain ⟨_, _, entries, more⟩ := bind_eq_read_iff.mp more
    obtain ⟨_, _, _, made⟩ := bind_eq_read_iff.mp more
    obtain ⟨rfl, rfl⟩ := Outcome.read.inj made
    exact further rfl (passes_char opening)
      (readsBehind_of_objectInside sound entries member inside)
  | _ =>
    rw [form] at inside
    cases inside

end Members

/-! ## Reading again -/

/-- Only a term has members. -/
theorem isGrown_of_mem_members {member : Expr} (inside : member ∈ form.members) :
    form.isGrown = false := by
  cases form <;> first | rfl | cases inside

/-- What is read from a text without a doubled `<`, deep enough for all of that text, is read again
from its own text wherever it has signs of its own or is written in one line, if no number goes on
behind it. -/
theorem isReread_of_read {text : List Char} {depth : Nat} {setting : Setting} {c next : Cursor}
    {e : Expr} (here : c.IsIn text) (lacks : LacksMark c.rest)
    (wide : setting.withBreaks = .bracket) (deep : 2 * (c.rest.length + 1) ≤ depth + 2)
    (read : (levelOf (depth + 2)).expr setting c = .read e next) (ending : EndsNumber next.rest) :
    e.IsReread := by
  have sound (text : List Char) : (levelOf depth).IsSound text (·.IsIn text) :=
    isSound_levelOf (isAcquired_isIn text) depth
  refine .mk ((isSound_isKept text _).expr setting here read).2 (fun own => ?_)
    fun member inside => ?_
  · rcases own with signs | line
    · obtain ⟨x, opens⟩ := Option.isSome_iff_exists.mp signs
      exact exists_readExpr_of_opener lacks wide deep read opens
    · have alike : Setting.bracket.conditionals = setting.conditionals :=
        (congrArg Setting.conditionals wide).symm
      exact exists_readExpr_of_inLine lacks alike deep read line ending
  -- The recursion is on the text that is left: a member is read two levels down, behind a sign.
  · rw [← levelWithout_false] at read
    obtain ⟨after, term⟩ := term_of_expr read (isGrown_of_mem_members inside)
    rw [levelWithout_false] at term
    obtain ⟨within, start, last, allowed, forward, less, again, ended⟩ :=
      exists_read_of_mem_members sound wide term inside
    obtain ⟨lower, rfl⟩ : ∃ lower, depth = lower + 2 := ⟨depth - 2, by omega⟩
    exact isReread_of_read (here.onward forward) (lacks.of_leadsTo forward) allowed (by omega) again
      ended
termination_by c.rest.length

/-- No number goes on where a line or a block ends. -/
theorem endsNumber_of_endsItem {text : List Char} (ends : EndsItem text) : EndsNumber text := by
  intro x head
  rcases ends x head with blank | rfl
  · refine Bool.eq_false_iff.mpr fun goesOn => ?_
    exact Bool.false_ne_true ((startsBlank_of_goesOnNumber goesOn).symm.trans blank)
  · rfl

/-- All values of a file without a doubled `<` are read again, wherever they have signs of their
own or are written in one line. -/
theorem each_isReread_of_readBody {text : String} {body : Body} (lacks : LacksMark text.toList)
    (read : readBody text = .ok body) : ∀ item ∈ body, item.Each Expr.IsReread := by
  refine forall_of_readBody_before (isInherited_each _ _) (fun c e next here taken => ?_) read
  refine ⟨((isSound_levelOf (isAcquired_isIn _) _).expr .line here taken).1, fun ends => ?_⟩
  have deep : c.rest.length ≤ text.toList.length := here.length_le
  have taken : (levelOf (3 * text.toList.length + 1 + 2)).expr .line c = .read e next := taken
  exact isReread_of_read here (lacks.of_leadsTo here) rfl (by omega) taken
    (endsNumber_of_endsItem ends)

end Grammar

end HclLint.Hcl
