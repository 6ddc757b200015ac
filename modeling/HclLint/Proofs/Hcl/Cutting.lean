/-
# Literals read off a cut text

A number or a string is read off the front of a text up to where it ends, and what comes behind it
plays no part: where the text is cut behind the literal, the same literal is read again, and nothing
is left. The readers of words stop at the first character that does not belong to them, so they
bear any cut behind what they read. The choice between the two kinds of numbers does not (the whole
number in front of an exponent that is too large is one), but it bears the cut right behind.

## Main definitions

* `IsLocal`: a parser whose readings do not change when the text is cut behind them.
* `IsLocallyUndone`: a parser that stays undone when the text is cut.
* `ReadsAlone`: a parser whose readings do not change when the text is cut right behind them.

## Main statements

* `IsLocal.bind`, `IsLocal.choice`, `IsLocal.many`: combinations of local parsers are local.
* `readsAlone_number`, `readsAlone_negativeNumber`, `readsAlone_stringForm`: the readers of
  literals.
-/

import HclLint.Hcl.Grammar.Word
import HclLint.Proofs.Hcl.Advance
import HclLint.Proofs.Hcl.Reading
import HclLint.Proofs.Text.Identifier

namespace HclLint.Hcl

open HclLint.Text

/-- Two cursors of a text settle what is passed between them. -/
theorem Cursor.Passes.eq {c next : Cursor} {between between' : List Char}
    (passes : c.Passes between next) (passes' : c.Passes between' next) : between = between' :=
  List.append_cancel_right (passes.1.symm.trans passes'.1)

namespace Parser

variable {α β : Type} {p q : Parser α} {f : α → Parser β} {c next : Cursor}

/-- Whatever is read is passed, and is read again from any text that is cut behind it. -/
def IsLocal (p : Parser α) : Prop :=
  ∀ ⦃c a next⦄, p c = .read a next → ∃ between, c.Passes between next ∧
    ∀ kept cut, next.rest = kept ++ cut → Reads p (between ++ kept) (· = a) kept

/-- Wherever the parser is undone, it is undone as well when the text is cut. -/
def IsLocallyUndone (p : Parser α) : Prop :=
  ∀ ⦃c complaint⦄, p c = .undone complaint → ∀ kept cut, c.rest = kept ++ cut → IsUndone p kept

/-- Whatever is read is passed, and is read again from its own characters. -/
def ReadsAlone (p : Parser α) : Prop :=
  ∀ ⦃c a next⦄, p c = .read a next → ∃ between, c.Passes between next ∧ Reads p between (· = a) []

/-- The parser is never undone. -/
def IsNeverUndone (p : Parser α) : Prop := ∀ ⦃c complaint⦄, p c ≠ .undone complaint

/-- All characters that are passed are of a kind. -/
def Takes (kind : Char → Prop) (p : Parser α) : Prop :=
  ∀ ⦃c a next⦄, p c = .read a next → ∃ between, c.Passes between next ∧ ∀ x ∈ between, kind x

/-- A cut right behind the value is one of many. -/
theorem IsLocal.readsAlone (isLocal : IsLocal p) : ReadsAlone p := by
  intro c a next read
  obtain ⟨between, passes, again⟩ := isLocal read
  have alone := again [] next.rest rfl
  rw [List.append_nil] at alone
  exact ⟨between, passes, alone⟩

/-! ## Sequences -/

/-- Giving a value asks nothing of the text. -/
theorem isLocal_pure (a : α) : IsLocal (pure a) := by
  intro c b next read
  obtain ⟨rfl, rfl⟩ := Outcome.read.inj read
  exact ⟨[], .refl c, fun kept _ _ => reads_pure a kept⟩

theorem isLocallyUndone_fail : IsLocallyUndone (fail : Parser α) :=
  fun _ _ _ _ _ _ _ => ⟨_, rfl⟩

theorem isLocal_fail : IsLocal (fail : Parser α) := by
  rintro c a next ⟨⟩

/-- What a conditional reads, one of its branches reads. -/
theorem read_of_ite {test : Prop} [Decidable test] {a : α}
    (read : (if test then p else q) c = .read a next) :
    p c = .read a next ∨ q c = .read a next := by
  split at read
  · exact .inl read
  · exact .inr read

theorem IsLocal.ite {test : Prop} [Decidable test] (yes : IsLocal p) (no : IsLocal q) :
    IsLocal (if test then p else q) := by
  split
  · exact yes
  · exact no

/-- A sequence is local, as for its first parser the text is cut behind what the second one reads.
-/
theorem IsLocal.bind (first : IsLocal p) (second : ∀ a, IsLocal (f a)) : IsLocal (p >>= f) := by
  intro c b next read
  obtain ⟨a, middle, readFirst, readSecond⟩ := bind_eq_read_iff.mp read
  obtain ⟨front, passed, again⟩ := first readFirst
  obtain ⟨back, onward, after⟩ := second a readSecond
  refine ⟨front ++ back, passed.trans onward, fun kept cut left => ?_⟩
  -- For the first parser the text is cut behind what the second one reads.
  have behind : middle.rest = (back ++ kept) ++ cut := by rw [onward.1, left, List.append_assoc]
  rw [List.append_assoc]
  refine (again _ _ behind).bind ?_
  rintro _ rfl
  exact after kept cut left

/-- The last parser of a sequence need only bear the cut right behind. -/
theorem IsLocal.bind_alone (first : IsLocal p) (second : ∀ a, ReadsAlone (f a)) :
    ReadsAlone (p >>= f) := by
  intro c b next read
  obtain ⟨a, middle, readFirst, readSecond⟩ := bind_eq_read_iff.mp read
  obtain ⟨front, passed, again⟩ := first readFirst
  obtain ⟨back, onward, after⟩ := second a readSecond
  refine ⟨front ++ back, passed.trans onward, (again back next.rest onward.1).bind ?_⟩
  rintro _ rfl
  exact after

/-- What is made of a value does not matter. -/
theorem ReadsAlone.map (alone : ReadsAlone p) (g : α → β) :
    ReadsAlone (do return g (← p)) := by
  intro c b next read
  obtain ⟨a, middle, readFirst, made⟩ := bind_eq_read_iff.mp read
  obtain ⟨rfl, rfl⟩ := Outcome.read.inj made
  obtain ⟨between, passes, again⟩ := alone readFirst
  exact ⟨between, passes, again.map fun _ same => congrArg g same⟩

/-- A sequence of parsers that are never undone is never undone. -/
theorem IsNeverUndone.bind (first : IsNeverUndone p) (second : ∀ a, IsNeverUndone (f a)) :
    IsNeverUndone (p >>= f) := by
  intro c complaint undone
  rcases bind_eq_undone_iff.mp undone with failed | ⟨_, _, _, failed⟩
  · exact first failed
  · exact second _ failed

theorem isNeverUndone_pure (a : α) : IsNeverUndone (pure a) := by
  rintro c complaint ⟨⟩

/-- A sequence that only its first parser can undo stays undone as that one does. -/
theorem IsLocallyUndone.bind_of_never (first : IsLocallyUndone p)
    (second : ∀ a, IsNeverUndone (f a)) : IsLocallyUndone (p >>= f) := by
  intro c complaint undone kept cut left
  rcases bind_eq_undone_iff.mp undone with failed | ⟨_, _, _, failed⟩
  · exact (first failed kept cut left).bind f
  · exact (second _ failed).elim

/-! ## Alternatives -/

/-- A choice is local if its first alternative stays undone where it was. -/
theorem IsLocal.choice (first : IsLocal p) (undone : IsLocallyUndone p) (second : IsLocal q) :
    IsLocal (choice p q) := by
  intro c a next read
  rcases choice_eq_read_iff.mp read with read | ⟨⟨_, failed⟩, read⟩
  · obtain ⟨between, passes, again⟩ := first read
    exact ⟨between, passes, fun kept cut left => (again kept cut left).choice q⟩
  · obtain ⟨between, passes, again⟩ := second read
    refine ⟨between, passes, fun kept cut left => ?_⟩
    have whole : c.rest = (between ++ kept) ++ cut := by rw [passes.1, left, List.append_assoc]
    exact (again kept cut left).choice_right (undone failed _ _ whole)

/-- A choice stays undone if both alternatives do. -/
theorem IsLocallyUndone.choice (first : IsLocallyUndone p) (second : IsLocallyUndone q) :
    IsLocallyUndone (choice p q) := by
  intro c complaint undone kept cut left
  rw [Parser.choice] at undone
  split at undone
  · next failed => exact (first failed kept cut left).choice (second undone kept cut left)
  · next other => exact absurd undone (other complaint)

/-- An option that was not taken is not taken in the shorter text either. -/
theorem IsLocal.optional (isLocal : IsLocal p) (undone : IsLocallyUndone p) :
    IsLocal (optional p) := by
  intro c a next read
  rcases optional_eq_read_iff.mp read with ⟨b, taken, rfl⟩ | ⟨⟨_, failed⟩, rfl, rfl⟩
  · obtain ⟨between, passes, again⟩ := isLocal taken
    refine ⟨between, passes, fun kept cut left => (again kept cut left).optional.imp ?_⟩
    rintro _ ⟨_, rfl, rfl⟩
    rfl
  · exact ⟨[], .refl _, fun kept cut left => (undone failed kept cut left).optional⟩

/-- An option makes every undone failure good. -/
theorem isNeverUndone_optional (p : Parser α) : IsNeverUndone (optional p) := by
  intro c complaint undone
  rw [Parser.optional] at undone
  split at undone
  · cases undone
  · cases undone
  · cases undone

theorem IsLocal.demand (isLocal : IsLocal p) (complaint : Complaint) :
    IsLocal (demand complaint p) := by
  intro c a next read
  obtain ⟨between, passes, again⟩ := isLocal (demand_eq_read_iff.mp read)
  exact ⟨between, passes, fun kept cut left => (again kept cut left).demand complaint⟩

/-- A demand makes every undone failure final. -/
theorem isNeverUndone_demand (complaint : Complaint) (p : Parser α) :
    IsNeverUndone (demand complaint p) := by
  intro c complaint' undone
  rw [Parser.demand] at undone
  split at undone
  · cases undone
  · next other => exact other _ undone

/-! ## Characters -/

section Characters

variable {test : Char → Bool}

/-- A character that is read satisfies the test. -/
theorem passing_of_satisfy {x : Char} (read : satisfy test c = .read x next) : test x = true := by
  have passes := passes_satisfy read
  obtain ⟨rest, offset⟩ := c
  obtain rfl : rest = x :: next.rest := passes.1
  cases passing : test x with
  | true => rfl
  | false => simp [satisfy, passing] at read

theorem passes_char {x y : Char} (read : char x c = .read y next) : c.Passes [x] next := by
  have same := passing_of_satisfy (read : satisfy (· == x) c = .read y next)
  rw [← beq_iff_eq.mp same]
  exact passes_satisfy read

/-- A word that is read is passed character by character. -/
theorem passes_word {w : List Char} {a : Unit} (read : word w c = .read a next) :
    c.Passes w next := by
  rw [word] at read
  split at read
  · next front =>
    obtain ⟨_, rfl⟩ := Outcome.read.inj read
    obtain ⟨rest, same⟩ := List.isPrefixOf_iff_prefix.mp front
    obtain ⟨_, offset⟩ := c
    obtain rfl : w ++ rest = _ := same
    rw [drop_append]
    exact ⟨rfl, rfl⟩
  · cases read

theorem isLocal_satisfy (test : Char → Bool) : IsLocal (satisfy test) := by
  intro c x next read
  exact ⟨[x], passes_satisfy read, fun kept _ _ => reads_satisfy (passing_of_satisfy read) kept⟩

theorem head_of_isUndone_satisfy {complaint : Complaint}
    (undone : satisfy test c = .undone complaint) : ∀ x ∈ c.rest.head?, test x = false := by
  obtain ⟨rest, offset⟩ := c
  cases rest with
  | nil => simp
  | cons x rest =>
    rintro _ ⟨⟩
    cases passing : test x with
    | true => simp [satisfy, passing] at undone
    | false => rfl

/-- The shorter text starts with the same character, or it is at its end. -/
theorem isLocallyUndone_satisfy (test : Char → Bool) : IsLocallyUndone (satisfy test) := by
  intro c complaint undone kept cut left
  have fails := head_of_isUndone_satisfy undone
  refine isUndone_satisfy fun x head => fails x ?_
  rw [left, List.head?_append, Option.mem_def.mp head]
  rfl

/-- What is undone behind one character stays so. -/
theorem IsLocallyUndone.bind_satisfy {f : Char → Parser β} (second : ∀ x, IsLocallyUndone (f x)) :
    IsLocallyUndone (satisfy test >>= f) := by
  intro c complaint undone kept cut left
  rcases bind_eq_undone_iff.mp undone with failed | ⟨x, middle, taken, failed⟩
  · exact ((isLocallyUndone_satisfy test) failed kept cut left).bind f
  · cases kept with
    | nil => exact (isUndone_satisfy (by simp)).bind f
    | cons y kept =>
      have first := (passes_satisfy taken).1.symm.trans left
      obtain ⟨rfl, behind⟩ := List.cons.inj first
      refine (reads_satisfy (passing_of_satisfy taken) kept).bind_isUndone ?_
      rintro z rfl
      exact second z failed kept cut behind

/-- A run of characters is as long as they satisfy the test. -/
theorem run_of_many_satisfy {run : List Char} (read : many (satisfy test) c = .read run next) :
    (∀ x ∈ run, test x = true) ∧ ∀ x ∈ next.rest.head?, test x = false := by
  obtain ⟨rest, offset⟩ := c
  have stops : ∀ x ∈ (rest.dropWhile test).head?, test x = false := by
    intro x head
    have fails := List.head?_dropWhile_not test rest
    rw [Option.mem_def.mp head] at fails
    simpa using fails
  have passes : ∀ x ∈ rest.takeWhile test, test x = true := List.all_eq_true.mp List.all_takeWhile
  have reads := reads_many_satisfy passes stops
  rw [List.takeWhile_append_dropWhile] at reads
  obtain ⟨_, _, taken, rfl⟩ := reads offset
  obtain ⟨rfl, rfl⟩ := Outcome.read.inj (read.symm.trans taken)
  exact ⟨passes, stops⟩

/-- A run of characters ends where the test fails. -/
theorem isLocal_many_satisfy (test : Char → Bool) : IsLocal (many (satisfy test)) := by
  intro c run next read
  obtain ⟨passes, stops⟩ := run_of_many_satisfy read
  refine ⟨run, passes_many_satisfy read, fun kept cut left => ?_⟩
  refine reads_many_satisfy passes fun x head => stops x ?_
  rw [left, List.head?_append, Option.mem_def.mp head]
  rfl

end Characters

/-! ## Repetition -/

/-- A repetition may be empty. -/
theorem isNeverUndone_many (p : Parser α) : IsNeverUndone (many p) := by
  have upTo : ∀ limit : List Char, IsNeverUndone (manyUpTo p limit) := by
    intro limit
    induction limit with
    | nil => rintro c complaint ⟨⟩
    | cons x limit ih =>
      intro c complaint undone
      rw [manyUpTo] at undone
      split at undone
      · split at undone
        · cases undone
        · next failed => exact ih failed
        · cases undone
      · cases undone
      · cases undone
  exact fun c complaint undone => upTo c.rest undone

section Repetition

variable (isLocal : IsLocal p) (undone : IsLocallyUndone p) (ends : IsUndone p [])
  (takes : ∀ ⦃c a next⦄, p c = .read a next → next.rest.length < c.rest.length)
include isLocal undone ends takes

/-- A repetition is made again with any limit that is long enough. -/
theorem IsLocal.manyUpTo {limit : List Char} {as : List α} (enough : c.rest.length ≤ limit.length)
    (read : manyUpTo p limit c = .read as next) : ∃ between, c.Passes between next ∧
      ∀ kept cut, next.rest = kept ++ cut → ∀ limit : List Char,
        (between ++ kept).length ≤ limit.length →
          Reads (Parser.manyUpTo p limit) (between ++ kept) (· = as) kept := by
  induction limit generalizing c as with
  | nil =>
    obtain ⟨rfl, rfl⟩ := Outcome.read.inj read
    have empty : c.rest = [] := List.eq_nil_of_length_eq_zero (Nat.le_zero.mp enough)
    refine ⟨[], .refl c, fun kept cut left limit _ offset => ?_⟩
    obtain ⟨rfl, _⟩ := List.append_eq_nil_iff.mp (left.symm.trans empty)
    exact ⟨[], offset, manyUpTo_of_isUndone ends limit offset, rfl⟩
  | cons x limit ih =>
    rcases manyUpTo_cons_eq_read_iff.mp read with
      ⟨a, middle, others, taken, rest, rfl⟩ | ⟨⟨_, failed⟩, rfl, rfl⟩
    · have fewer := takes taken
      rw [List.length_cons] at enough
      obtain ⟨front, passed, again⟩ := isLocal taken
      obtain ⟨back, onward, after⟩ := ih (by omega) rest
      refine ⟨front ++ back, passed.trans onward, fun kept cut left limit room offset => ?_⟩
      have behind : middle.rest = (back ++ kept) ++ cut := by
        rw [onward.1, left, List.append_assoc]
      rw [List.append_assoc] at room ⊢
      obtain ⟨_, next, first, rfl⟩ := again _ _ behind offset
      -- What was taken leaves room in the limit for the others.
      have less := takes first
      obtain ⟨y, limit, rfl⟩ := List.exists_cons_of_length_pos (Nat.lt_of_lt_of_le
        (Nat.zero_lt_of_lt less) room)
      simp only [List.length_cons] at room less
      obtain ⟨_, last, more, rfl⟩ := after kept cut left limit (by omega) next
      exact ⟨_, last, manyUpTo_cons_eq_read_iff.mpr (.inl ⟨_, _, _, first, more, rfl⟩), rfl⟩
    · refine ⟨[], .refl _, fun kept cut left limit _ offset => ?_⟩
      exact ⟨[], offset, manyUpTo_of_isUndone (undone failed kept cut left) limit offset, rfl⟩

/-- A repetition stops where one more reading is undone, if every reading takes a character. -/
theorem IsLocal.many : IsLocal (many p) := by
  intro c as next read
  obtain ⟨between, passes, again⟩ := isLocal.manyUpTo undone ends takes (Nat.le_refl _) read
  exact ⟨between, passes, fun kept cut left => again kept cut left _ (Nat.le_refl _)⟩

end Repetition

/-! ## Kinds of characters -/

section Kinds

variable {kind : Char → Prop} {test : Char → Bool}

theorem takes_pure (a : α) : Takes kind (pure a) := by
  rintro c _ _ ⟨⟩
  exact ⟨[], .refl c, List.forall_mem_nil _⟩

theorem takes_undone (complaint : Complaint) :
    Takes kind fun _ => (.undone complaint : Outcome α) := by
  rintro c a next ⟨⟩

theorem takes_satisfy (all : ∀ x, test x = true → kind x) : Takes kind (satisfy test) := by
  intro c x next read
  exact ⟨[x], passes_satisfy read, List.forall_mem_singleton.mpr (all x (passing_of_satisfy read))⟩

/-- A run holds nothing but characters of the kind. -/
theorem takes_many_satisfy (all : ∀ x, test x = true → kind x) :
    Takes kind (many (satisfy test)) := by
  intro c run next read
  obtain ⟨passing, _⟩ := run_of_many_satisfy read
  exact ⟨run, passes_many_satisfy read, fun x member => all x (passing x member)⟩

/-- A sequence takes characters of a kind if both its parsers do. -/
theorem Takes.bind (first : Takes kind p) (second : ∀ a, Takes kind (f a)) :
    Takes kind (p >>= f) := by
  intro c b next read
  obtain ⟨a, middle, readFirst, readSecond⟩ := bind_eq_read_iff.mp read
  obtain ⟨front, passed, ofFront⟩ := first readFirst
  obtain ⟨back, onward, ofBack⟩ := second a readSecond
  exact ⟨front ++ back, passed.trans onward, List.forall_mem_append.mpr ⟨ofFront, ofBack⟩⟩

theorem Takes.ite {test : Prop} [Decidable test] (yes : Takes kind p) (no : Takes kind q) :
    Takes kind (if test then p else q) := by
  split
  · exact yes
  · exact no

theorem Takes.choice (first : Takes kind p) (second : Takes kind q) :
    Takes kind (choice p q) := by
  intro c a next read
  rcases choice_eq_read_iff.mp read with read | ⟨_, read⟩
  · exact first read
  · exact second read

theorem Takes.optional (takes : Takes kind p) : Takes kind (optional p) := by
  intro c a next read
  rcases optional_eq_read_iff.mp read with ⟨b, taken, _⟩ | ⟨_, _, rfl⟩
  · exact takes taken
  · exact ⟨[], .refl _, List.forall_mem_nil _⟩

theorem Takes.demand (takes : Takes kind p) (complaint : Complaint) :
    Takes kind (demand complaint p) :=
  fun _ _ _ read => takes (demand_eq_read_iff.mp read)

end Kinds

end Parser

namespace Grammar

open HclLint.Hcl.Parser

/-! ## Blanks -/

/-- The end of a comment is found in as many characters as it says, whatever follows them. -/
theorem closingLength_eq_some {xs : List Char} {n : Nat} (found : closingLength xs = some n) :
    ∃ front back, xs = front ++ back ∧ front.length = n ∧ front ≠ [] ∧
      ∀ rest, closingLength (front ++ rest) = some n := by
  induction xs using closingLength.induct generalizing n with
  | case1 => cases found
  | case2 xs =>
    obtain rfl := Option.some.inj found
    exact ⟨['*', '/'], xs, rfl, rfl, List.cons_ne_nil _ _, fun rest => rfl⟩
  | case3 x xs other ih =>
    rw [closingLength.eq_3 _ _ other] at found
    obtain ⟨m, later, rfl⟩ := Option.map_eq_some_iff.mp found
    obtain ⟨front, back, rfl, length, some, again⟩ := ih later
    obtain ⟨y, front, rfl⟩ := List.exists_cons_of_ne_nil some
    refine ⟨x :: y :: front, back, rfl, by rw [List.length_cons, length], List.cons_ne_nil _ _,
      fun rest => ?_⟩
    have other' : ∀ more, x = '*' → y :: (front ++ rest) = '/' :: more → False := by
      intro more star slash
      obtain ⟨rfl, _⟩ := List.cons.inj slash
      exact other _ star rfl
    rw [List.cons_append, List.cons_append, closingLength.eq_3 _ _ other', ← List.cons_append,
      again rest]
    rfl

/-- A comment passes its signs and what stands between them, whatever follows. -/
theorem inlineComment_eq_read {c next : Cursor} {a : Unit} (read : inlineComment c = .read a next) :
    ∃ front, c.Passes ('/' :: '*' :: front) next ∧
      ∀ rest, Reads inlineComment ('/' :: '*' :: front ++ rest) (· = a) rest := by
  unfold inlineComment at read
  split at read
  · next xs starts =>
    split at read
    · next n found =>
      obtain ⟨front, back, rfl, length, _, again⟩ := closingLength_eq_some found
      obtain ⟨_, rfl⟩ := Outcome.read.inj read
      have past (rest : List Char) (offset : Nat) :
          Cursor.drop ⟨'/' :: '*' :: front ++ rest, offset⟩ (2 + n) =
            ⟨rest, offset + byteLength ('/' :: '*' :: front)⟩ := by
        rw [← drop_append, ← length, List.length_cons, List.length_cons, Nat.add_comm 2]
      refine ⟨front, ?_, fun rest offset => ?_⟩
      · obtain ⟨_, offset⟩ := c
        obtain rfl : _ = '/' :: '*' :: front ++ back := starts
        rw [past]
        exact ⟨rfl, rfl⟩
      · refine ⟨(), offset + byteLength ('/' :: '*' :: front), ?_, rfl⟩
        rw [← past rest offset]
        simp [inlineComment, again]
    · cases read
  · cases read

/-- A comment inside a line is told by its own two signs. -/
theorem isLocal_inlineComment : IsLocal inlineComment := by
  intro c a next read
  obtain ⟨front, passes, again⟩ := inlineComment_eq_read read
  exact ⟨'/' :: '*' :: front, passes, fun kept _ _ => again kept⟩

/-- Where a text has no comment, nor does one that is cut. -/
theorem isLocallyUndone_inlineComment : IsLocallyUndone inlineComment := by
  intro c complaint undone kept cut left offset
  unfold inlineComment
  split
  · next xs same =>
    split
    · next n found =>
      -- The end of the comment would have been found in the whole text.
      obtain ⟨front, back, rfl, _, _, again⟩ := closingLength_eq_some found
      have whole : c.rest = '/' :: '*' :: (front ++ (back ++ cut)) := by
        rw [left, show kept = _ from same, List.cons_append, List.cons_append, List.append_assoc]
      simp [inlineComment, whole, again] at undone
    · exact ⟨_, rfl⟩
  · exact ⟨_, rfl⟩

/-- Every blank takes a character. -/
theorem length_of_blank_false {c next : Cursor} {a : Unit} (read : blank false c = .read a next) :
    next.rest.length < c.rest.length := by
  have less {x : Char} {between : List Char} {middle : Cursor}
      (passes : c.Passes (x :: between) middle) : middle.rest.length < c.rest.length := by
    rw [passes.1, List.length_append, List.length_cons]
    omega
  rcases choice_eq_read_iff.mp read with read | ⟨_, read⟩
  · obtain ⟨x, middle, taken, made⟩ := bind_eq_read_iff.mp read
    obtain ⟨_, rfl⟩ := Outcome.read.inj made
    exact less (passes_satisfy taken)
  rcases choice_eq_read_iff.mp read with read | ⟨_, read⟩
  · obtain ⟨front, passes, _⟩ := inlineComment_eq_read read
    exact less passes
  · cases read

/-- So blanks inside a line are skipped up to the same place. -/
theorem isLocal_skip_false : IsLocal (skip false) := by
  have one := isLocal_satisfy fun x => isSpace x || (false && (x == '\r' || x == '\n'))
  have none := (isLocallyUndone_satisfy fun x =>
    isSpace x || (false && (x == '\r' || x == '\n'))).bind_of_never fun _ => isNeverUndone_pure ()
  have comment := isLocal_inlineComment.choice isLocallyUndone_inlineComment isLocal_fail
  have noComment := isLocallyUndone_inlineComment.choice isLocallyUndone_fail
  have isLocal : IsLocal (blank false) := (one.bind fun _ => isLocal_pure ()).choice none comment
  have undone : IsLocallyUndone (blank false) := none.choice noComment
  have ends : IsUndone (blank false) [] := isUndone_blank false (by simp)
  exact (isLocal.many undone ends fun _ _ _ => length_of_blank_false).bind fun _ => isLocal_pure ()

/-! ## Line breaks -/

/-- A line break is one of two words. -/
theorem passes_lineBreak {c next : Cursor} {ending : List Char}
    (read : lineBreak c = .read ending next) :
    c.Passes ending next ∧ (ending = ['\n'] ∨ ending = ['\r', '\n']) := by
  obtain ⟨rest, offset⟩ := c
  unfold lineBreak at read
  split at read
  · next more same =>
    obtain rfl : rest = '\n' :: more := same
    obtain ⟨rfl, rfl⟩ := Outcome.read.inj read
    exact ⟨⟨rfl, rfl⟩, .inl rfl⟩
  · next more same =>
    obtain rfl : rest = '\r' :: '\n' :: more := same
    obtain ⟨rfl, rfl⟩ := Outcome.read.inj read
    exact ⟨⟨rfl, rfl⟩, .inr rfl⟩
  · cases read

/-! ## Numbers -/

/-- A run of digits ends where it ended. -/
theorem isLocal_digits : IsLocal digits :=
  (isLocal_satisfy _).bind fun _ => (isLocal_many_satisfy _).bind fun _ => isLocal_pure _

theorem isLocallyUndone_digits : IsLocallyUndone digits :=
  (isLocallyUndone_satisfy _).bind_of_never fun _ =>
    (isNeverUndone_many _).bind fun _ => isNeverUndone_pure _

/-- The digits of an exponent are demanded, so that an exponent is never given up. -/
theorem isLocal_exponent : IsLocal exponent :=
  (isLocal_satisfy _).bind fun _ =>
    ((isLocal_satisfy _).optional (isLocallyUndone_satisfy _)).bind fun _ =>
      (isLocal_digits.demand _).bind fun _ => isLocal_pure _

theorem isLocallyUndone_exponent : IsLocallyUndone exponent :=
  (isLocallyUndone_satisfy _).bind_of_never fun _ => (isNeverUndone_optional _).bind fun _ =>
    (isNeverUndone_demand _ _).bind fun _ => isNeverUndone_pure _

theorem isLocal_fraction : IsLocal fraction :=
  (isLocal_satisfy _).bind fun _ => isLocal_digits

theorem isLocallyUndone_fraction : IsLocallyUndone fraction :=
  IsLocallyUndone.bind_satisfy fun _ => isLocallyUndone_digits

/-- A decimal is read again wherever the text is cut behind it. -/
theorem isLocal_decimal : IsLocal decimal := by
  have scaled := isLocal_fraction.bind fun behind =>
    (isLocal_exponent.optional isLocallyUndone_exponent).bind fun scale =>
      isLocal_pure (behind, scale.getD 0)
  have noScaled := isLocallyUndone_fraction.bind_of_never fun behind =>
    (isNeverUndone_optional exponent).bind fun scale => isNeverUndone_pure (behind, scale.getD 0)
  have whole := isLocal_exponent.bind fun scale => isLocal_pure (([] : List Char), scale)
  refine isLocal_digits.bind fun ds => (scaled.choice noScaled whole).bind fun ⟨behind, scale⟩ => ?_
  dsimp only
  cases Numeral.ofDecimal (digitsValue (ds ++ behind)) (scale - behind.length) with
  | some value => exact isLocal_pure value
  | none => exact isLocal_fail

theorem isLocal_wholeNumber : IsLocal wholeNumber := by
  have tooLarge : IsLocal fun _ => (.undone .numeralTooLarge : Outcome Numeral) := by
    rintro c a next ⟨⟩
  exact isLocal_digits.bind fun ds => .ite (isLocal_pure _) tooLarge

/-- Digits alone are no number with a fraction or an exponent. -/
theorem isUndone_decimal {ds : List Char} (alone : Reads digits ds (fun _ => True) []) :
    IsUndone decimal ds := by
  refine alone.bind_isUndone fun _ _ => IsUndone.bind ?_ _
  have noFraction : IsUndone fraction [] := (isUndone_char (by simp)).bind _
  have noExponent : IsUndone exponent [] := (isUndone_satisfy (by simp)).bind _
  exact (noFraction.bind _).choice (noExponent.bind _)

/-- Which of the two is read depends on what follows, unless nothing does. -/
theorem readsAlone_number : ReadsAlone number := by
  intro c value next read
  rcases choice_eq_read_iff.mp read with read | ⟨_, read⟩
  · obtain ⟨between, passes, again⟩ := isLocal_decimal.readsAlone read
    exact ⟨between, passes, again.choice wholeNumber⟩
  · -- A whole number passes its digits, and they are one when they stand alone.
    obtain ⟨between, passes, again⟩ := isLocal_wholeNumber.readsAlone read
    obtain ⟨ds, middle, taken, made⟩ := bind_eq_read_iff.mp read
    obtain ⟨_, passed, alone⟩ := isLocal_digits.readsAlone taken
    obtain rfl : middle = next := by
      rcases read_of_ite made with made | made
      · exact (Outcome.read.inj made).2
      · cases made
    obtain rfl := passes.eq passed
    exact ⟨between, passes, again.choice_right (isUndone_decimal (alone.imp fun _ _ => trivial))⟩

/-- The sign and the blanks behind it are read as before. -/
theorem readsAlone_negativeNumber : ReadsAlone negativeNumber :=
  (isLocal_satisfy _).bind_alone fun _ => isLocal_skip_false.bind_alone fun _ =>
    readsAlone_number.map Numeral.neg

/-- No character of a number is blank. -/
theorem takes_number : Takes (isBlank · = false) number := by
  have digit : Takes (isBlank · = false) digits :=
    (takes_satisfy fun _ => isBlank_of_isDigit).bind fun _ =>
      (takes_many_satisfy fun _ => isBlank_of_isDigit).bind fun _ => takes_pure _
  have sign {one other : Char} (first : isBlank one = false) (second : isBlank other = false) :
      Takes (isBlank · = false) (satisfy fun x => x == one || x == other) := by
    refine takes_satisfy fun x same => ?_
    rcases Bool.or_eq_true_iff.mp same with same | same
    · rwa [beq_iff_eq.mp same]
    · rwa [beq_iff_eq.mp same]
  have point : Takes (isBlank · = false) (char '.') :=
    takes_satisfy fun x same => by rw [beq_iff_eq.mp same]; decide
  have exponent : Takes (isBlank · = false) exponent :=
    (sign (by decide) (by decide)).bind fun _ =>
      (sign (by decide) (by decide)).optional.bind fun _ =>
        (digit.demand _).bind fun _ => takes_pure _
  have scaled := (point.bind fun _ => digit).bind fun behind => exponent.optional.bind fun scale =>
    takes_pure (behind, scale.getD 0)
  have whole := exponent.bind fun scale => takes_pure (([] : List Char), scale)
  have decimal : Takes (isBlank · = false) decimal := by
    refine digit.bind fun ds => (scaled.choice whole).bind fun ⟨behind, scale⟩ => ?_
    dsimp only
    cases Numeral.ofDecimal (digitsValue (ds ++ behind)) (scale - behind.length) with
    | some value => exact takes_pure value
    | none => exact takes_undone _
  exact decimal.choice (digit.bind fun ds => .ite (takes_pure _) (takes_undone _))

end Grammar

end HclLint.Hcl
