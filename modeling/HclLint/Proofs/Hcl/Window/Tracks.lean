/-
# Readings that stay in a window

A reader of a longer construct looks ahead, and what it finds behind a closing sign may depend on
the rest of the text. As long as its reading ends in front of the sign, this never matters:
what was read there decides where the reader had to look. So the same characters are read from
every text with that window. Which of several alternatives is taken is settled by what is read
next, and so each reader is told both what may stand where it ends and what then stands where it
starts.

## Main definitions

* `Frame`: the two texts behind a window.
* `Tracks`: a parser that reads in a window what another one reads there.
* `Repeats`: a repetition, reading by reading.

## Main statements

* `Tracks.bind`, `Tracks.choice`, `Tracks.optional`, `Tracks.many`: combinations of such parsers.
-/

import HclLint.Proofs.Hcl.Window.Decided

namespace HclLint.Hcl

open HclLint.Text Grammar

/-- What stands behind a window in the text that is read, and in another one with that window. Both
go on with the same sign, unless the first text ends with the window. -/
structure Frame where
  left : List Char
  right : List Char
  closesLeft : Closes left
  closesRight : Closes right
  sameSign : left ≠ [] → right.head? = left.head?

/-- Only where the first text ends with the window, the other one may. -/
theorem Frame.goesOn (k : Frame) (some : k.left ≠ []) : k.right ≠ [] := by
  intro none
  have same := k.sameSign some
  rw [none, List.head?_nil, eq_comm, List.head?_eq_none_iff] at same
  exact some same

/-- The text is one of the two. -/
inductive Frame.Holds (k : Frame) : List Char → Prop where
  | left : k.Holds k.left
  | right : k.Holds k.right

theorem Frame.Holds.closes {k : Frame} {close : List Char} (held : k.Holds close) :
    Closes close := by
  cases held with
  | left => exact k.closesLeft
  | right => exact k.closesRight

namespace Parser

variable {α β γ δ : Type} {p q p' q' : Parser α} {f f' : α → Parser β} {gist : α → γ}
  {gist' : β → δ} {ends middle starts starts' : List Char → Prop}
  {front window rest : List Char} {k : Frame} {bound : Nat} {c c' next : Cursor} {a : α}
  {as : List α}

/-- A parser that goes forward in every text goes forward from every cursor. -/
theorem leadsTo_of_advances (advances : ∀ text, Advances text p) (read : p c = .read a next) :
    c.LeadsTo next := by
  -- Every cursor stands in some text: one of as many bytes as it says, and what it has in front.
  have here : c.IsIn (List.replicate c.offset 'x' ++ c.rest) := by
    refine ⟨List.replicate c.offset 'x', rfl, ?_⟩
    have bytes (n : Nat) : byteLength (List.replicate n 'x') = n := by
      induction n with
      | zero => rfl
      | succ n ih =>
        rw [List.replicate_succ, byteLength_cons, ih, Nat.add_comm]
        rfl
    rw [bytes]
    exact (Nat.zero_add _).symm
  exact (advances _ here read).1

/-- Every reading takes something of the text. -/
def TakesSome (p : Parser α) : Prop :=
  ∀ ⦃c a next⦄, p c = .read a next → next.rest.length < c.rest.length

theorem takesSome_satisfy (test : Char → Bool) : TakesSome (satisfy test) := by
  intro c x next read
  rw [(passes_satisfy read).1]
  exact Nat.lt_succ_self _

theorem takesSome_word {w : List Char} (some : w ≠ []) : TakesSome (word w) := by
  intro c a next read
  have lengths := congrArg List.length (passes_word read).1
  have positive := List.length_pos_iff.mpr some
  rw [List.length_append] at lengths
  omega

/-- A sequence takes some of the text if its first parser does. -/
theorem TakesSome.bind (first : TakesSome p) (second : ∀ a text, Advances text (f a)) :
    TakesSome (p >>= f) := by
  intro c b next read
  obtain ⟨a, between, readFirst, readSecond⟩ := bind_eq_read_iff.mp read
  exact Nat.lt_of_le_of_lt ((leadsTo_of_advances (second a) readSecond).length_le)
    (first readFirst)

theorem TakesSome.bind_right (first : ∀ text, Advances text p) (second : ∀ a, TakesSome (f a)) :
    TakesSome (p >>= f) := by
  intro c b next read
  obtain ⟨a, between, readFirst, readSecond⟩ := bind_eq_read_iff.mp read
  exact Nat.lt_of_lt_of_le (second a readSecond) (leadsTo_of_advances first readFirst).length_le

/-- A choice does if both alternatives do. -/
theorem TakesSome.choice (first : TakesSome p) (second : TakesSome q) : TakesSome (choice p q) := by
  intro c a next read
  rcases choice_eq_read_iff.mp read with read | ⟨_, read⟩
  · exact first read
  · exact second read

/-! ## Tracking -/

/-- Whatever the first parser reads in a window shorter than the bound, the second one reads from
the same window in the other text of the frame, if the window that is left is as `ends` says. Both
values have the same gist, and the window itself is as `starts` says. -/
structure Tracks (k : Frame) (bound : Nat) (gist : α → γ)
    (ends starts : List Char → Prop) (p p' : Parser α) : Prop where
  advances : ∀ text, Advances text p
  follows : ∀ ⦃front window c a next⦄, Cursor.Passes c front next → next.Views window k.left →
    (front ++ window).length < bound → ends window →
    p c = .read a next → starts (front ++ window) ∧
      ∀ ⦃c'⦄, Cursor.Views (front ++ window) k.right c' →
        ∃ a' next', p' c' = .read a' next' ∧ c'.Passes front next' ∧ gist a' = gist a

/-- Where the first parser is undone and the window is as `ends` says, the second one is undone. -/
def Fails (k : Frame) (ends : List Char → Prop) (p p' : Parser α) : Prop :=
  ∀ ⦃window c complaint⦄, Cursor.Views window k.left c → ends window → p c = .undone complaint →
    IsUndone p' (window ++ k.right)

theorem IsUndone.at {text : List Char} (undone : IsUndone p text) (here : c.rest = text) :
    ∃ complaint, p c = .undone complaint := by
  obtain ⟨complaint, failed⟩ := undone c.offset
  rw [← here] at failed
  exact ⟨complaint, failed⟩

/-- A parser that is decided fails in both texts or in neither. -/
theorem IsDecided.fails (decided : IsDecided p) : Fails k ends p p := by
  intro window c complaint views _ undone offset
  have outcomes := decided k.closesLeft k.closesRight views
    (show Cursor.Views window k.right ⟨_, offset⟩ from rfl)
  rw [undone] at outcomes
  generalize p ⟨window ++ k.right, offset⟩ = outcome at outcomes ⊢
  cases outcomes
  exact ⟨_, rfl⟩

/-- A sequence that is undone only in its first parser. -/
theorem Fails.bind (fails : Fails k ends p p') (never : ∀ a, IsNeverUndone (f a)) :
    Fails k ends (p >>= f) (p' >>= f') := by
  intro window c complaint views ending undone
  rcases bind_eq_undone_iff.mp undone with failed | ⟨_, _, _, failed⟩
  · exact (fails views ending failed).bind f'
  · exact (never _ failed).elim

/-- A parser that is decided reads the same from the same window. -/
theorem IsDecided.tracks (decided : IsDecided p) (advances : ∀ text, Advances text p)
    (opens : ∀ front window c a next, p c = .read a next → c.Passes front next → ends window →
      starts (front ++ window)) : Tracks k bound id ends starts p p := by
  refine ⟨advances, fun front window c a next passes views _ ending read => ?_⟩
  refine ⟨opens front window c a next read passes ending, fun c' views' => ?_⟩
  have outcomes := decided k.closesLeft k.closesRight (passes.views_append views) views'
  rw [read] at outcomes
  generalize p c' = outcome at outcomes ⊢
  cases outcomes with
  | read split passed passed' => exact ⟨_, _, rfl, passed.eq passes ▸ passed', rfl⟩

/-- A parser tracks if the other one reads from the window in the other text. -/
theorem tracks_of_reads (advances : ∀ text, Advances text p) (advances' : ∀ text, Advances text p')
    (again : ∀ ⦃front window c a next⦄, Cursor.Passes c front next → next.Views window k.left →
      ends window → p c = .read a next → starts (front ++ window) ∧
        Reads p' (front ++ (window ++ k.right)) (fun a' => gist a' = gist a)
          (window ++ k.right)) :
    Tracks k bound gist ends starts p p' := by
  refine ⟨advances, fun front window c a next passes views _ ending read => ?_⟩
  obtain ⟨start, reads⟩ := again passes views ending read
  refine ⟨start, fun c' here => ?_⟩
  obtain ⟨_, offset⟩ := c'
  obtain rfl : _ = front ++ window ++ k.right := here
  obtain ⟨a', next', read', same⟩ := reads offset
  rw [← List.append_assoc] at read'
  obtain ⟨between, passes'⟩ := leadsTo_of_advances advances' read'
  have whole : front ++ window ++ k.right = between ++ (window ++ k.right) := passes'.1
  rw [List.append_assoc] at whole
  obtain rfl := List.append_cancel_right whole
  exact ⟨a', _, read', passes', same⟩

/-- More may be asked of the window that is left, and less be told of the one at the start. -/
theorem Tracks.imp {ends₂ starts₂ : List Char → Prop}
    (tracks : Tracks k bound gist ends starts p p') (before : ∀ w, ends₂ w → ends w)
    (after : ∀ w, starts w → starts₂ w) : Tracks k bound gist ends₂ starts₂ p p' := by
  refine ⟨tracks.advances, fun front window c a next passes views short ending read => ?_⟩
  obtain ⟨start, again⟩ := tracks.follows passes views short (before _ ending) read
  exact ⟨after _ start, again⟩

/-- What tracks in long windows tracks in short ones. -/
theorem Tracks.mono {less : Nat} (tracks : Tracks k bound gist ends starts p p')
    (fewer : less ≤ bound) : Tracks k less gist ends starts p p' :=
  ⟨tracks.advances, fun _ _ _ _ _ passes views short ending read =>
    tracks.follows passes views (Nat.lt_of_lt_of_le short fewer) ending read⟩

theorem Tracks.and (first : Tracks k bound gist ends starts p p')
    (second : Tracks k bound gist ends starts' p p') :
    Tracks k bound gist ends (fun w => starts w ∧ starts' w) p p' := by
  refine ⟨first.advances, fun front window c a next passes views short ending read => ?_⟩
  obtain ⟨start, again⟩ := first.follows passes views short ending read
  exact ⟨⟨start, (second.follows passes views short ending read).1⟩, again⟩

/-- Where nothing is passed in an empty window, what is left says how it starts. -/
theorem Tracks.starts_nil (tracks : Tracks k bound gist ends starts p p') :
    Tracks k bound gist ends (fun w => w = [] → ends []) p p' := by
  refine ⟨tracks.advances, fun front window c a next passes views short ending read => ?_⟩
  refine ⟨fun none => ?_, (tracks.follows passes views short ending read).2⟩
  rwa [(List.append_eq_nil_iff.mp none).2] at ending

/-- Where something is passed, and something left, there are two characters at least. -/
theorem Tracks.starts_long (tracks : Tracks k bound gist ends starts p p') (takes : TakesSome p)
    (some : ∀ w, ends w → 0 < (w ++ k.left).length) :
    Tracks k bound gist ends (fun w => 2 ≤ (w ++ k.left).length) p p' := by
  refine ⟨tracks.advances, fun front window c a next passes views short ending read => ?_⟩
  refine ⟨?_, (tracks.follows passes views short ending read).2⟩
  have left := some window ending
  have fewer := takes read
  rw [passes.views_append views, views] at fewer
  omega

/-- A parser tracks another one if what they read is what two parsers read that do. -/
theorem Tracks.of_reads (tracks : Tracks k bound gist ends starts q q')
    (advances : ∀ text, Advances text p)
    (into : ∀ c a next, p c = .read a next → q c = .read a next)
    (back : ∀ c a next, q' c = .read a next → p' c = .read a next) :
    Tracks k bound gist ends starts p p' := by
  refine ⟨advances, fun front window c a next passes views short ending read => ?_⟩
  obtain ⟨start, again⟩ := tracks.follows passes views short ending (into c a next read)
  refine ⟨start, fun c' here => ?_⟩
  obtain ⟨a', next', read', rest⟩ := again here
  exact ⟨a', next', back c' a' next' read', rest⟩

/-- A parser that reads nothing tracks everything. -/
theorem tracks_of_not_read (never : ∀ c a next, p c ≠ .read a next) :
    Tracks k bound gist ends starts p p' :=
  ⟨fun _ _ _ _ _ read => absurd read (never _ _ _),
    fun _ _ _ _ _ _ _ _ _ read => absurd read (never _ _ _)⟩

/-- No window is short enough. -/
theorem tracks_zero (advances : ∀ text, Advances text p) :
    Tracks k 0 gist ends starts p p' :=
  ⟨advances, fun _ _ _ _ _ _ _ short => absurd short (Nat.not_lt_zero _)⟩

/-! ## Sequences -/

/-- Values of one gist are given in front of any window. -/
theorem tracks_pure {a a' : α} (same : gist a' = gist a) :
    Tracks k bound gist ends ends (pure a) (pure a') := by
  refine ⟨fun _ => advances_pure a, ?_⟩
  intro front window c b next passes _ _ ending read
  obtain ⟨rfl, rfl⟩ := Outcome.read.inj read
  obtain rfl : front = [] := passes.eq (.refl c)
  exact ⟨ending, fun c' _ => ⟨a', c', rfl, .refl c', same⟩⟩

/-- A sequence tracks another one if what is left for its second parser is short enough. -/
theorem Tracks.bind_of_le {less : Nat}
    (first : Tracks k bound gist middle starts p p')
    (takes : ∀ ⦃c a next⦄, p c = .read a next → next.rest.length + bound ≤ c.rest.length + less)
    (second : ∀ a a', (∃ c next, p c = .read a next) → gist a' = gist a →
      Tracks k less gist' ends middle (f a) (f' a')) :
    Tracks k bound gist' ends starts (p >>= f) (p' >>= f') := by
  refine ⟨fun text => ?_, ?_⟩
  · have made : Yields text p fun a => ∃ c next, p c = .read a next :=
      fun c a next here read => ⟨(first.advances text here read).1, c, next, read⟩
    exact made.bind fun a taken => (second a a taken rfl).advances text
  intro front window c b next passes views short ending read
  obtain ⟨a, between, readFirst, readSecond⟩ := bind_eq_read_iff.mp read
  have onward := second a a ⟨c, between, readFirst⟩ rfl
  obtain ⟨before, passed⟩ := leadsTo_of_advances first.advances readFirst
  obtain ⟨behind, later⟩ := leadsTo_of_advances onward.advances readSecond
  obtain rfl := passes.eq (passed.trans later)
  rw [List.append_assoc] at short ⊢
  have fewer : (behind ++ window).length < less := by
    have lengths := congrArg List.length passed.1
    have taken := takes readFirst
    simp only [List.length_append] at lengths short ⊢
    omega
  have middles := (onward.follows later views fewer ending readSecond).1
  obtain ⟨start, again⟩ :=
    first.follows passed (later.views_append views) short middles readFirst
  refine ⟨start, fun c' here => ?_⟩
  obtain ⟨a', between', readFirst', passed', same⟩ := again here
  obtain ⟨_, againSecond⟩ := (second a a' ⟨c, between, readFirst⟩ same).follows later views fewer
    ending readSecond
  obtain ⟨b', next', readSecond', later', result⟩ := againSecond (passed'.views here)
  refine ⟨b', next', ?_, passed'.trans later', result⟩
  rw [bind_apply, readFirst']
  exact readSecond'

/-- A sequence tracks if its parts do, the second one behind every value of the first. -/
theorem Tracks.bind_of_read (first : Tracks k bound gist middle starts p p')
    (second : ∀ a a', (∃ c next, p c = .read a next) → gist a' = gist a →
      Tracks k bound gist' ends middle (f a) (f' a')) :
    Tracks k bound gist' ends starts (p >>= f) (p' >>= f') := by
  refine first.bind_of_le (fun c a next read => ?_) second
  exact Nat.add_le_add_right ((leadsTo_of_advances first.advances read).length_le) bound

/-- A sequence tracks if its parts do. -/
theorem Tracks.bind (first : Tracks k bound gist middle starts p p')
    (second : ∀ a a', gist a' = gist a → Tracks k bound gist' ends middle (f a) (f' a')) :
    Tracks k bound gist' ends starts (p >>= f) (p' >>= f') :=
  first.bind_of_read fun a a' _ => second a a'

/-- Behind a parser that takes something, tracking in shorter windows is enough. -/
theorem Tracks.bind_less (first : Tracks k (bound + 1) gist middle starts p p')
    (takes : TakesSome p)
    (second : ∀ a a', gist a' = gist a → Tracks k bound gist' ends middle (f a) (f' a')) :
    Tracks k (bound + 1) gist' ends starts (p >>= f) (p' >>= f') :=
  first.bind_of_le (fun c a next read => by have := takes read; omega) fun a a' _ => second a a'

/-- How a parser starts may be told from what it leaves. -/
theorem Tracks.reads (tracks : Tracks k bound gist ends starts p p') :
    Tracks k bound gist ends
      (fun w => ∃ w', ends w' ∧ Reads p' (w ++ k.right) (fun _ => True) (w' ++ k.right))
      p p' := by
  refine ⟨tracks.advances, fun front window c a next passes views short ending read => ?_⟩
  obtain ⟨_, again⟩ := tracks.follows passes views short ending read
  refine ⟨⟨window, ending, fun offset => ?_⟩, again⟩
  have here : Cursor.Views (front ++ window) k.right ⟨_, offset⟩ := rfl
  obtain ⟨a', ⟨_, offset'⟩, read', passes', _⟩ := again here
  obtain rfl : _ = _ := passes'.views rfl
  exact ⟨a', offset', read', trivial⟩

/-! ## Alternatives -/

/-- The second of two alternatives is taken again if the first one is undone again. -/
theorem Tracks.choice_of_undone (first : Tracks k bound gist ends starts p p')
    (second : Tracks k bound gist ends starts' q q')
    (apart : ∀ ⦃front window c complaint a next⦄, Cursor.Passes c front next →
      next.Views window k.left → (front ++ window).length < bound → ends window →
        p c = .undone complaint → q c = .read a next → starts' (front ++ window) →
          IsUndone p' (front ++ window ++ k.right))
    (weaker : ∀ w, starts' w → starts w) :
    Tracks k bound gist ends starts (choice p q) (choice p' q') := by
  refine ⟨fun text => (first.advances text).choice (second.advances text), ?_⟩
  intro front window c a next passes views short ending read
  rcases choice_eq_read_iff.mp read with read | ⟨⟨_, undone⟩, read⟩
  · obtain ⟨start, again⟩ := first.follows passes views short ending read
    refine ⟨start, fun c' here => ?_⟩
    obtain ⟨a', next', read', rest⟩ := again here
    exact ⟨a', next', choice_eq_read_iff.mpr (.inl read'), rest⟩
  · obtain ⟨start, again⟩ := second.follows passes views short ending read
    refine ⟨weaker _ start, fun c' here => ?_⟩
    obtain ⟨a', next', read', rest⟩ := again here
    have undone' := (apart passes views short ending undone read start).at here
    exact ⟨a', next', choice_eq_read_iff.mpr (.inr ⟨undone', read'⟩), rest⟩

/-- The second of two alternatives is taken again where the window that it starts at leaves the
first one undone. -/
theorem Tracks.choice (first : Tracks k bound gist ends starts p p')
    (second : Tracks k bound gist ends starts' q q')
    (apart : ∀ w, starts' w → IsUndone p' (w ++ k.right)) (weaker : ∀ w, starts' w → starts w) :
    Tracks k bound gist ends starts (choice p q) (choice p' q') :=
  first.choice_of_undone second (fun _ _ _ _ _ _ _ _ _ _ _ _ start => apart _ start) weaker

/-- A parser that is chosen at its cursor, by something that the window settles. -/
theorem Tracks.select {κ : Type} {choices choices' : κ → Parser α} (key : Cursor → κ)
    (stable : ∀ ⦃window c c'⦄, Cursor.Views window k.left c → Cursor.Views window k.right c' →
      starts window → key c' = key c)
    (each : ∀ chosen, Tracks k bound gist ends starts (choices chosen) (choices' chosen)) :
    Tracks k bound gist ends starts (fun c => choices (key c) c)
      (fun c => choices' (key c) c) := by
  refine ⟨fun text c a next here read => (each (key c)).advances text here read, ?_⟩
  intro front window c a next passes views short ending read
  obtain ⟨start, again⟩ := (each (key c)).follows passes views short ending read
  refine ⟨start, fun c' here => ?_⟩
  rw [stable (passes.views_append views) here start]
  exact again here

/-- A test that is stable in the window takes the same branch in both texts. -/
theorem Tracks.either (first : Tracks k bound gist ends starts p p')
    (second : Tracks k bound gist ends starts q q') (test : Cursor → Bool)
    (stable : ∀ ⦃window c c'⦄, Cursor.Views window k.left c → Cursor.Views window k.right c' →
      starts window → test c' = test c) :
    Tracks k bound gist ends starts (fun c => if test c then p c else q c)
      (fun c => if test c then p' c else q' c) := by
  have each : ∀ yes : Bool, Tracks k bound gist ends starts
      (fun c => if yes then p c else q c) (fun c => if yes then p' c else q' c) := by
    intro yes
    cases yes with
    | true => exact first
    | false => exact second
  exact .select test stable each

/-- An option is taken in both texts or in neither. -/
theorem Tracks.optional (tracks : Tracks k bound gist ends starts p p')
    (fails : Fails k ends p p') (weaker : ∀ w, ends w → starts w) :
    Tracks k bound (Option.map gist) ends starts (optional p) (optional p') := by
  refine ⟨fun text => (tracks.advances text).optional.advances, ?_⟩
  intro front window c a next passes views short ending read
  rcases optional_eq_read_iff.mp read with ⟨b, taken, rfl⟩ | ⟨⟨_, failed⟩, rfl, rfl⟩
  · obtain ⟨start, again⟩ := tracks.follows passes views short ending taken
    refine ⟨start, fun c' here => ?_⟩
    obtain ⟨b', next', read', passes', same⟩ := again here
    exact ⟨some b', next', optional_eq_read_iff.mpr (.inl ⟨b', read', rfl⟩), passes',
      congrArg some same⟩
  · obtain rfl : front = [] := passes.eq (.refl _)
    refine ⟨weaker _ ending, fun c' here => ?_⟩
    have undone := (fails views ending failed).at here
    exact ⟨none, c', optional_eq_read_iff.mpr (.inr ⟨undone, rfl, rfl⟩), .refl c', rfl⟩

theorem Tracks.demand (tracks : Tracks k bound gist ends starts p p')
    (complaint : Complaint) :
    Tracks k bound gist ends starts (demand complaint p) (demand complaint p') := by
  refine ⟨fun text => (tracks.advances text).demand complaint, ?_⟩
  intro front window c a next passes views short ending read
  obtain ⟨start, again⟩ :=
    tracks.follows passes views short ending (demand_eq_read_iff.mp read)
  refine ⟨start, fun c' here => ?_⟩
  obtain ⟨a', next', read', rest⟩ := again here
  exact ⟨a', next', demand_eq_read_iff.mpr read', rest⟩

/-! ## Repetition -/

/-- The parser reads the values one after the other, each time something of the text, and then it
is undone. -/
inductive Repeats (p : Parser α) : Cursor → List α → Cursor → Prop where
  | nil {c : Cursor} {complaint : Complaint} (undone : p c = .undone complaint) : Repeats p c [] c
  | cons {c between next : Cursor} {a : α} {as : List α} (read : p c = .read a between)
      (less : between.rest.length < c.rest.length) (more : Repeats p between as next) :
      Repeats p c (a :: as) next

theorem Repeats.manyUpTo {limit : List Char} (repeats : Repeats p c as next)
    (enough : c.rest.length ≤ limit.length) : manyUpTo p limit c = .read as next := by
  induction repeats generalizing limit with
  | nil undone =>
    cases limit with
    | nil => rfl
    | cons x limit => rw [Parser.manyUpTo, undone]
  | cons read less more ih =>
    obtain ⟨x, limit, rfl⟩ := List.exists_cons_of_length_pos
      (Nat.lt_of_lt_of_le (Nat.zero_lt_of_lt less) enough)
    rw [List.length_cons] at enough
    have others := ih (Nat.le_of_lt_succ (Nat.lt_of_lt_of_le less enough))
    exact manyUpTo_cons_eq_read_iff.mpr (.inl ⟨_, _, _, read, others, rfl⟩)

/-- Readings that follow each other until none is possible make up a repetition. -/
theorem Repeats.many (repeats : Repeats p c as next) : many p c = .read as next :=
  repeats.manyUpTo (Nat.le_refl _)

theorem Repeats.leadsTo (repeats : Repeats p c as next) (advances : ∀ text, Advances text p) :
    c.LeadsTo next := by
  induction repeats with
  | nil => exact .refl _
  | cons read _ _ ih => exact (leadsTo_of_advances advances read).trans ih

/-- A repetition is made reading by reading, if every reading takes something. -/
theorem repeats_of_many
    (takes : TakesSome p) (empty : IsUndone p []) (read : many p c = .read as next) :
    Repeats p c as next := by
  have upTo (limit : List Char) (c : Cursor) (as : List α) (enough : c.rest.length ≤ limit.length)
      (read : manyUpTo p limit c = .read as next) : Repeats p c as next := by
    induction limit generalizing c as with
    | nil =>
      obtain ⟨rfl, rfl⟩ := Outcome.read.inj read
      obtain ⟨rest, offset⟩ := c
      obtain rfl : rest = [] := List.eq_nil_of_length_eq_zero (Nat.le_zero.mp enough)
      exact .nil (empty offset).choose_spec
    | cons x limit ih =>
      rcases manyUpTo_cons_eq_read_iff.mp read with
        ⟨a, between, others, first, more, rfl⟩ | ⟨⟨_, undone⟩, rfl, rfl⟩
      · have less := takes first
        rw [List.length_cons] at enough
        exact .cons first less (ih between others (by omega) more)
      · exact .nil undone
  exact upTo c.rest c as (Nat.le_refl _) read

/-- A repetition tracks if its parser does. It ends again where the parser is undone again. -/
theorem Tracks.many (tracks : Tracks k bound gist starts starts p p')
    (takes : TakesSome p) (empty : IsUndone p []) (fails : Fails k ends p p')
    (weaker : ∀ w, ends w → starts w) :
    Tracks k bound (List.map gist) ends starts (many p) (many p') := by
  refine ⟨fun text => (tracks.advances text).many.advances, ?_⟩
  intro front window c as next passes views short ending read
  have repeats := repeats_of_many takes empty read
  suffices again : starts (front ++ window) ∧ ∀ ⦃c'⦄, c'.Views (front ++ window) k.right →
      ∃ as' next', Repeats p' c' as' next' ∧ c'.Passes front next' ∧ as'.map gist = as.map gist by
    refine ⟨again.1, fun c' here => ?_⟩
    obtain ⟨as', next', repeats', rest⟩ := again.2 here
    exact ⟨as', next', repeats'.many, rest⟩
  clear read
  induction repeats generalizing front with
  | @nil c complaint undone =>
    obtain rfl : front = [] := passes.eq (.refl c)
    refine ⟨weaker _ ending, fun c' here => ?_⟩
    obtain ⟨complaint', undone'⟩ := (fails views ending undone).at here
    exact ⟨[], c', .nil undone', .refl c', rfl⟩
  | @cons c between next a as first less more ih =>
    obtain ⟨before, passed⟩ := leadsTo_of_advances tracks.advances first
    obtain ⟨behind, later⟩ := more.leadsTo tracks.advances
    obtain rfl := passes.eq (passed.trans later)
    rw [List.append_assoc] at short ⊢
    have views' := later.views_append views
    have fewer : (behind ++ window).length < bound := by
      simp only [List.length_append] at short ⊢
      omega
    obtain ⟨middles, againMore⟩ := ih later views fewer
    obtain ⟨start, againFirst⟩ := tracks.follows passed views' short middles first
    refine ⟨start, fun c' here => ?_⟩
    obtain ⟨a', between', read', passed', same⟩ := againFirst here
    obtain ⟨as', next', repeats', later', sames⟩ := againMore (passed'.views here)
    -- The second parser takes the same characters, and so something of its text.
    have less' : between'.rest.length < c'.rest.length := by
      have lengths := congrArg List.length passed.1
      have lengths' := congrArg List.length passed'.1
      simp only [List.length_append] at lengths lengths'
      omega
    exact ⟨a' :: as', next', .cons read' less' repeats', passed'.trans later',
      by rw [List.map_cons, List.map_cons, same, sames]⟩

/-! ## Words -/

/-- A character of the window is the same in both texts. -/
theorem tracks_satisfy {test : Char → Bool}
    (opens : ∀ x w, test x = true → ends w → starts (x :: w)) :
    Tracks k bound id ends starts (satisfy test) (satisfy test) := by
  refine tracks_of_reads (fun _ => advances_satisfy test) (fun _ => advances_satisfy test) ?_
  intro front window c x next passes _ ending read
  obtain rfl := passes.eq (passes_satisfy read)
  have passing := passing_of_satisfy read
  exact ⟨opens x window passing ending, reads_satisfy passing _⟩

theorem tracks_char {x : Char} (opens : ∀ w, ends w → starts (x :: w)) :
    Tracks k bound id ends starts (char x) (char x) := by
  refine tracks_satisfy fun y w same ending => ?_
  obtain rfl := beq_iff_eq.mp same
  exact opens w ending

/-- The window starts with the characters. -/
def StartsWith (w window : List Char) : Prop := ∃ rest, window = w ++ rest

theorem tracks_word {w : List Char} (opens : ∀ rest, ends rest → starts (w ++ rest)) :
    Tracks k bound id ends starts (word w) (word w) := by
  refine tracks_of_reads (fun _ => advances_word w) (fun _ => advances_word w) ?_
  intro front window c _ next passes _ ending read
  obtain rfl := passes.eq (passes_word read)
  exact ⟨opens window ending, (reads_word _ _).imp fun _ _ => rfl⟩

theorem tracks_demandWord {w : String} (opens : ∀ rest, ends rest → starts (w.toList ++ rest)) :
    Tracks k bound id ends starts (demandWord w) (demandWord w) :=
  (tracks_word opens).demand _

/-! ## Separated values -/

/-- The first reading of a repetition is not different from the others. -/
theorem Tracks.many1 (tracks : Tracks k bound gist starts starts p p')
    (takes : TakesSome p) (empty : IsUndone p []) (fails : Fails k ends p p')
    (weaker : ∀ w, ends w → starts w) :
    Tracks k bound (List.map gist) ends starts (many1 p) (many1 p') :=
  tracks.bind fun _ _ same => (tracks.many takes empty fails weaker).bind fun _ _ sames =>
    tracks_pure (by rw [List.map_cons, List.map_cons, same, sames])

/-- Items are told from what follows the sequence by the commas in front of them. -/
theorem Tracks.separated1 (item : Tracks k bound gist middle starts p p')
    (comma : ∀ w, starts w → middle (',' :: w))
    (fails : Fails k ends (do let _ ← char ','; p) (do let _ ← char ','; p'))
    (weaker : ∀ w, ends w → middle w) :
    Tracks k bound (List.map gist) ends starts (separated1 p) (separated1 p') := by
  have sign : Tracks k bound id starts middle (char ',') (char ',') :=
    tracks_char comma
  have another := sign.bind fun _ _ _ => item
  have takes : TakesSome (do let _ ← char ','; p) :=
    (takesSome_satisfy _).bind fun _ => item.advances
  have empty : IsUndone (do let _ ← char ','; p) [] := (isUndone_char (by simp)).bind _
  exact item.bind fun _ _ same => (another.many takes empty fails weaker).bind fun _ _ sames =>
    tracks_pure (by rw [List.map_cons, List.map_cons, same, sames])

theorem Tracks.separated (item : Tracks k bound gist middle starts p p')
    (comma : ∀ w, starts w → middle (',' :: w))
    (fails : Fails k ends (do let _ ← char ','; p) (do let _ ← char ','; p'))
    (apart : ∀ ⦃window c complaint⦄, Cursor.Views window k.left c → window.length < bound →
      p c = .undone complaint → ends window → IsUndone p' (window ++ k.right))
    (weaker : ∀ w, ends w → middle w) (weaker' : ∀ w, ends w → starts w) :
    Tracks k bound (List.map gist) ends starts (separated p) (separated p') := by
  refine (item.separated1 comma fails weaker).choice_of_undone (tracks_pure rfl) ?_ weaker'
  intro front window c complaint as next passes views short ending undone read _
  obtain ⟨_, rfl⟩ := Outcome.read.inj read
  obtain rfl : front = [] := passes.eq (.refl c)
  rcases bind_eq_undone_iff.mp undone with failed | ⟨_, _, _, failed⟩
  · exact (apart views short failed ending).bind _
  · exact ((isNeverUndone_many _).bind (fun _ => isNeverUndone_pure _) failed).elim

end Parser

end HclLint.Hcl
