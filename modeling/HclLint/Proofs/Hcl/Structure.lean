/-
# The structures of a file stand where they say

An attribute's expression and a block's identifier stand in the text of the file, from the byte
offset on that they keep, and so does all that a block holds. In each body the attributes have
different keys, since a key that was read before is refused. Behind each value its line or its block
ends, and what follows from this is known of every value that is kept.

## Main definitions

* `OccursIn`: a structure that stands in a body, at any depth.
* `Item.lead`: what stands where a structure's value starts.
* `Item.IsIn`: a structure that stands in a text, with all that it holds.
* `Item.Each`: a structure all of whose values have a property.
* `Item.IsDistinct`: a structure in whose bodies no two attributes have the same key.
* `IsInherited`: a property that structures get from their values and from what they hold.
* `EndsItem`: a text in front of which a value may end, as its line or its block does.
* `YieldsBefore`: a parser whose values have a property if they end in front of such a text.

## Main statements

* `yields_bodyOf`: the structures of a body have such a property if their values do.
* `forall_of_readBody_before`: so do those of a file, and it is known what follows the values.
* `isIn_of_readBody`: the structures of a file stand in its text.
* `isDistinct_of_readBody`: no attribute key comes twice in a body of a file.
-/

import HclLint.Hcl.Reader
import HclLint.Proofs.Hcl.Cutting
import HclLint.Proofs.Hcl.Extent

namespace HclLint.Hcl

open HclLint.Text

/-- Whether the structure is a block. -/
def Item.isBlock : Item → Bool
  | .attribute .. => false
  | .block .. => true

@[simp]
theorem Item.isBlock_attribute (key : String) (value : Expr) :
    (Item.attribute key value).isBlock = false := rfl

@[simp]
theorem Item.isBlock_block (start : Nat) (kind : String) (labels : List String) (body : Body) :
    (Item.block start kind labels body).isBlock = true := rfl

/-- The structure stands in the body, or in a block of it at any depth. -/
inductive OccursIn (item : Item) : Body → Prop where
  | here {body : Body} (member : item ∈ body) : OccursIn item body
  | inside {start : Nat} {kind : String} {labels : List String} {inner body : Body}
      (member : .block start kind labels inner ∈ body) (deeper : OccursIn item inner) :
      OccursIn item body

/-- Whether a block in a block of the body has a body that passes a test. -/
def anyNested (test : Body → Bool) (body : Body) : Bool :=
  body.any fun
    | .attribute .. => false
    | .block _ _ _ outer => outer.any fun
      | .attribute .. => false
      | .block _ _ _ inner => test inner

/-- A nested body that passes a test belongs to a block of the body. -/
theorem exists_occursIn_of_anyNested {test : Body → Bool} {body : Body}
    (found : anyNested test body) :
    ∃ start kind labels inner, OccursIn (.block start kind labels inner) body ∧ test inner := by
  obtain ⟨block, member, found⟩ := List.any_eq_true.mp found
  match block, found with
  | .block _ _ _ outer, found =>
    obtain ⟨nested, deeper, found⟩ := List.any_eq_true.mp found
    match nested, found with
    | .block start kind labels inner, passes =>
      exact ⟨start, kind, labels, inner, .inside member (.here deeper), passes⟩

/-- What stands where a structure's value starts: the expression of an attribute, and the
identifier of a block. -/
def Item.lead : Item → Extent
  | .attribute _ value => value.extent
  | .block start kind _ _ => ⟨start, kind⟩

/-- The structure stands in the text where it says, and so does all that a block holds. -/
inductive Item.IsIn (text : List Char) : Item → Prop where
  | attribute (key : String) {value : Expr} (here : value.IsIn text) :
      Item.IsIn text (.attribute key value)
  | block {start : Nat} {kind : String} (labels : List String) {body : Body}
      (here : Extent.IsIn text ⟨start, kind⟩) (inside : ∀ item ∈ body, Item.IsIn text item) :
      Item.IsIn text (.block start kind labels body)

/-- All structures of the body stand in the text. -/
def Body.IsIn (text : List Char) (body : Body) : Prop := ∀ item ∈ body, item.IsIn text

/-- The place of a structure is that of what it starts with. -/
theorem Item.lead_start (item : Item) : item.lead.start = item.start := by
  cases item <;> rfl

theorem Item.IsIn.lead {text : List Char} {item : Item} (here : item.IsIn text) :
    item.lead.IsIn text := by
  obtain ⟨_, here⟩ | ⟨_, here, _⟩ := here
  · exact here.extent
  · exact here

/-- The values of the structure, also those in nested blocks, have a property. -/
inductive Item.Each (good : Expr → Prop) : Item → Prop where
  | attribute (key : String) {value : Expr} (given : good value) :
      Item.Each good (.attribute key value)
  | block (start : Nat) (kind : String) (labels : List String) {body : Body}
      (inside : ∀ item ∈ body, Item.Each good item) : Item.Each good (.block start kind labels body)

/-- What follows from a property of the values holds of them, too. -/
theorem Item.Each.imp {good good' : Expr → Prop} (weaker : ∀ e, good e → good' e) {item : Item}
    (each : item.Each good) : item.Each good' := by
  induction each with
  | «attribute» key given => exact .attribute key (weaker _ given)
  | block start kind labels _ ih => exact .block start kind labels ih

/-- Two properties of the values hold together. -/
theorem Item.Each.and {good good' : Expr → Prop} {item : Item} (each : item.Each good)
    (each' : item.Each good') : item.Each fun e => good e ∧ good' e := by
  induction each with
  | «attribute» key given =>
    cases each' with
    | «attribute» _ given' => exact .attribute key ⟨given, given'⟩
  | block start kind labels _ ih =>
    cases each' with
    | block _ _ _ inside' =>
      exact .block start kind labels fun item member => ih item member (inside' item member)

/-- The keys of the body's attributes, in order. -/
def Body.attributeKeys (body : Body) : List String := body.flatMap Grammar.keysOf

/-- No two attributes have the same key in a body of the structure, at any depth. -/
inductive Item.IsDistinct : Item → Prop where
  | attribute (key : String) (value : Expr) : Item.IsDistinct (.attribute key value)
  | block (start : Nat) (kind : String) (labels : List String) {body : Body}
      (distinct : body.attributeKeys.Nodup) (inside : ∀ item ∈ body, Item.IsDistinct item) :
      Item.IsDistinct (.block start kind labels body)

/-- A property that an attribute gets from its value, and a block that stands in the text from
the structures in it, whose attributes have different keys. -/
structure IsInherited (text : List Char) (good : Expr → Prop) (holds : Item → Prop) : Prop where
  fromValue : ∀ key value, good value → holds (.attribute key value)
  fromBody : ∀ start kind labels body, Extent.IsIn text ⟨start, kind⟩ →
    (Body.attributeKeys body).Nodup → (∀ item ∈ body, holds item) →
    holds (.block start kind labels body)

/-- A structure stands in the text because what it starts with does. -/
theorem isInherited_isIn (text : List Char) :
    IsInherited text (·.IsIn text) (·.IsIn text) where
  fromValue := fun key _ here => .attribute key here
  fromBody := fun _ _ labels _ here _ inside => .block labels here inside

/-- What holds of the values of a structure is inherited from its body. -/
theorem isInherited_each (text : List Char) (good : Expr → Prop) :
    IsInherited text good (·.Each good) where
  fromValue := fun key _ given => .attribute key given
  fromBody := fun start kind labels _ _ _ inside => .block start kind labels inside

/-- So is that no body of a block repeats the key of an attribute. -/
theorem isInherited_isDistinct (text : List Char) (good : Expr → Prop) :
    IsInherited text good Item.IsDistinct where
  fromValue := fun key value _ => .attribute key value
  fromBody := fun start kind labels _ _ distinct inside =>
    .block start kind labels distinct inside

namespace Parser

open HclLint.Hcl.Grammar

variable {α β : Type} {text : List Char} {p q : Parser α} {f : α → Parser β} {given : α → Prop}
  {after : β → Prop} {c next : Cursor}

/-! ## What follows a value -/

/-- A blank or a comment comes next, or a line break, or the end of the block or of the text. -/
def EndsItem (text : List Char) : Prop := ∀ x ∈ text.head?, startsBlank x = true ∨ x = '\x7d'

/-- Blanks may stand in front of the end of a line or of a block. -/
theorem endsItem_of_skip {a : Unit} (skipped : skip false c = .read a next)
    (ends : EndsItem next.rest) : EndsItem c.rest :=
  forall_mem_head?_of_skip (fun _ => .inl) skipped ends

/-- The end of a line ends what stands in it. -/
theorem endsItem_of_lineEnd {a : Unit} (read : lineEnd c = .read a next) :
    EndsItem c.rest := by
  unfold lineEnd at read
  split at read
  · next none =>
    rw [List.isEmpty_iff.mp none]
    exact fun _ => nofun
  · obtain ⟨_, _, broken, _⟩ := bind_eq_read_iff.mp read
    obtain ⟨passes, rfl | rfl⟩ := passes_lineBreak broken
    · rw [passes.1]
      exact forall_mem_head?_cons (.inl (by decide)) _
    · rw [passes.1]
      exact forall_mem_head?_cons (.inl (by decide)) _

/-- So do the blanks and the comment in front of it. -/
theorem endsItem_of_lineRest {a : α}
    (read : (do skip false; let _ ← optional lineComment; demand .lineEnd lineEnd; p : Parser α) c =
      .read a next) : EndsItem c.rest := by
  obtain ⟨_, middle, skipped, more⟩ := bind_eq_read_iff.mp read
  obtain ⟨_, _, comment, more⟩ := bind_eq_read_iff.mp more
  obtain ⟨_, _, ended, _⟩ := bind_eq_read_iff.mp more
  have ended := endsItem_of_lineEnd (demand_eq_read_iff.mp ended)
  refine endsItem_of_skip skipped ?_
  rcases optional_eq_read_iff.mp comment with ⟨_, comment, _⟩ | ⟨_, _, rfl⟩
  · obtain ⟨_, line, rfl | rfl, same, _⟩ := lineComment_eq_read_iff.mp comment
    · rw [same]
      exact forall_mem_head?_cons (.inl (by decide)) _
    · rw [same]
      exact forall_mem_head?_cons (.inl (by decide)) _
  · exact ended

/-- Wherever in a text the parser starts, reading goes on further down the text, and the value has a
property if its line or its block ends behind it. -/
def YieldsBefore (text : List Char) (p : Parser α) (holds : α → Prop) : Prop :=
  ∀ ⦃c a next⦄, c.IsIn text → p c = .read a next →
    c.LeadsTo next ∧ (EndsItem next.rest → holds a)

theorem Yields.before (yields : Yields text p given) : YieldsBefore text p given := by
  intro c a next here read
  obtain ⟨forward, property⟩ := yields here read
  exact ⟨forward, fun _ => property⟩

theorem YieldsBefore.choice (first : YieldsBefore text p given)
    (second : YieldsBefore text q given) : YieldsBefore text (choice p q) given := by
  intro c a next here read
  rcases choice_eq_read_iff.mp read with read | ⟨_, read⟩
  · exact first here read
  · exact second here read

/-- Where nothing is read, nothing is asked of what follows. -/
theorem YieldsBefore.optional (yields : YieldsBefore text p given) :
    YieldsBefore text (optional p) fun a => ∀ b ∈ a, given b := by
  intro c a next here read
  rcases optional_eq_read_iff.mp read with ⟨b, taken, rfl⟩ | ⟨_, rfl, rfl⟩
  · obtain ⟨forward, property⟩ := yields here taken
    exact ⟨forward, fun ends _ same => Option.some.inj same ▸ property ends⟩
  · exact ⟨.refl _, fun _ _ none => by cases none⟩

/-- What is read first does not change what follows a value. -/
theorem Yields.bind_before (first : Yields text p given)
    (second : ∀ a, given a → YieldsBefore text (f a) after) :
    YieldsBefore text (p >>= f) after := by
  intro c b next here read
  obtain ⟨a, middle, taken, more⟩ := bind_eq_read_iff.mp read
  obtain ⟨forward, property⟩ := first here taken
  obtain ⟨onward, result⟩ := second a property (here.onward forward) more
  exact ⟨forward.trans onward, result⟩

/-- Nor do the blanks behind it. -/
theorem YieldsBefore.skip (yields : YieldsBefore text p given) {g : α → β}
    (holds : ∀ a, given a → after (g a)) :
    YieldsBefore text (do let a ← p; skip false; return g a) after := by
  intro c b next here read
  obtain ⟨a, middle, taken, more⟩ := bind_eq_read_iff.mp read
  obtain ⟨_, _, skipped, made⟩ := bind_eq_read_iff.mp more
  obtain ⟨rfl, rfl⟩ := Outcome.read.inj made
  obtain ⟨forward, property⟩ := yields here taken
  exact ⟨forward.trans (advances_skip false (here.onward forward) skipped).1,
    fun ends => holds a (property (endsItem_of_skip skipped ends))⟩

theorem YieldsBefore.map (yields : YieldsBefore text p given) {g : α → β}
    (holds : ∀ a, given a → after (g a)) : YieldsBefore text (do return g (← p)) after := by
  intro c b next here read
  obtain ⟨a, _, taken, made⟩ := bind_eq_read_iff.mp read
  obtain ⟨rfl, rfl⟩ := Outcome.read.inj made
  obtain ⟨forward, property⟩ := yields here taken
  exact ⟨forward, fun ends => holds a (property ends)⟩

/-- What is read behind a value may tell that its line or its block ends there. -/
theorem YieldsBefore.bind (first : YieldsBefore text p given)
    (settled : ∀ ⦃a c b next⦄, f a c = .read b next → EndsItem c.rest ∨ given a)
    (second : ∀ a, given a → Yields text (f a) after) : Yields text (p >>= f) after := by
  intro c b next here read
  obtain ⟨a, middle, taken, more⟩ := bind_eq_read_iff.mp read
  obtain ⟨forward, property⟩ := first here taken
  have known : given a := (settled more).elim property id
  obtain ⟨onward, result⟩ := second a known (here.onward forward) more
  exact ⟨forward.trans onward, result⟩

end Parser

namespace Grammar

open HclLint.Hcl.Parser

variable {text : List Char} {level : BodyLevel} {good : Expr → Prop} {holds : Item → Prop}
  {seen : List String} {body : Body}

/-- What is read behind the attributes with some keys: attributes with different keys, none of
which was seen before, and structures that have a property. -/
structure IsRead (holds : Item → Prop) (seen : List String) (body : Body) : Prop where
  distinct : body.attributeKeys.Nodup
  fresh : ∀ key ∈ body.attributeKeys, key ∉ seen
  each : ∀ item ∈ body, holds item

theorem IsRead.nil : IsRead holds seen [] :=
  ⟨List.nodup_nil, List.forall_mem_nil _, List.forall_mem_nil _⟩

/-- A structure has at most one key. -/
theorem nodup_keysOf (item : Item) : (keysOf item).Nodup := by
  cases item <;> simp [keysOf]

/-- A structure may be put in front of a body whose keys are other ones. -/
theorem IsRead.cons {item : Item} (new : ∀ key ∈ keysOf item, key ∉ seen) (held : holds item)
    (others : IsRead holds (keysOf item ++ seen) body) : IsRead holds seen (item :: body) := by
  -- What comes later was read when the key of this structure had been seen as well.
  have later (key : String) (member : key ∈ body.attributeKeys) :
      key ∉ keysOf item ∧ key ∉ seen := by
    simpa using others.fresh key member
  refine ⟨?_, ?_, List.forall_mem_cons.mpr ⟨held, others.each⟩⟩
  · rw [Body.attributeKeys, List.flatMap_cons, List.nodup_append]
    refine ⟨nodup_keysOf item, others.distinct, ?_⟩
    rintro key first _ member rfl
    exact (later key member).1 first
  · rw [Body.attributeKeys, List.flatMap_cons, List.forall_mem_append]
    exact ⟨new, fun key member => (later key member).2⟩

/-- The readers that a block's body is read with go forward, and what they read has a property. -/
structure BodyLevel.IsSound (text : List Char) (good : Expr → Prop) (holds : Item → Prop)
    (level : BodyLevel) : Prop where
  expr : YieldsBefore text level.expr good
  body : Yields text level.body (IsRead holds [])

/-- An identifier stands where it was read. -/
theorem yields_identifier {c next : Cursor} {name : String} (here : c.IsIn text)
    (read : identifier c = .read name next) :
    c.LeadsTo next ∧ Extent.IsIn text ⟨c.offset, name⟩ := by
  have passes := passes_identifier read
  have stands := here.extent passes
  rw [String.ofList_toList] at stands
  exact ⟨⟨_, passes⟩, stands⟩

theorem advances_label : Advances text label := by
  refine (Yields.choice ?_ advances_identifier).bind fun _ _ =>
    (advances_skip false).bind fun _ _ => advances_pure _
  refine yields_stringForm.bind fun form _ => ?_
  split
  · exact advances_pure _
  · exact yields_fail

theorem advances_lineEnd : Advances text lineEnd := by
  intro c a next here read
  unfold lineEnd at read
  split at read
  · obtain ⟨_, rfl⟩ := Outcome.read.inj read
    exact ⟨.refl c, trivial⟩
  · exact (advances_lineBreak.bind fun _ _ => advances_pure _) here read

section Bodies

variable (inherited : IsInherited text good holds) (sound : level.IsSound text good holds)

include sound in
/-- The body of a block starts without keys, whichever way the block is written. -/
theorem yields_openBody : Yields text (openBody level) (IsRead holds []) :=
  (advances_skip false).bind fun _ _ => advances_lineComment.optional.bind fun _ _ =>
    advances_lineBreak.bind fun _ _ => sound.body

include inherited sound

/-- A body on one line has its attribute if the block ends behind it. -/
theorem yieldsBefore_lineBody : YieldsBefore text (lineBody level) (IsRead holds []) := by
  have sign := (advances_char '=' : Advances text _).bind fun _ _ => advances_pure ()
  have value (key : String) : YieldsBefore text
      (do let value ← level.expr; skip false; return Item.attribute key value) holds :=
    sound.expr.skip (inherited.fromValue key)
  have single := (advances_skip false : Advances text _).bind_before fun _ _ =>
    advances_identifier.bind_before fun key _ => (advances_skip false).bind_before fun _ _ =>
      (sign.demand .attribute).bind_before fun _ _ => (advances_skip false).bind_before fun _ _ =>
        value key
  refine single.optional.skip fun item inside => ?_
  cases item with
  | none => exact .nil
  | some item => exact .cons (fun _ _ => List.not_mem_nil) (inside item rfl) .nil

/-- A block has its closing brace behind its body, and so the body has all of its structures. -/
theorem yields_blockBody : Yields text (blockBody level) (IsRead holds []) := by
  have body := (yields_openBody sound).before.choice (yieldsBefore_lineBody inherited sound)
  refine (advances_demandWord _).bind fun _ _ => body.bind (fun a c b next read => .inl ?_)
    fun _ inside => ((advances_word _).demand _).bind fun _ _ => yields_pure inside
  obtain ⟨_, _, closing, _⟩ := bind_eq_read_iff.mp read
  rw [(passes_word (demand_eq_read_iff.mp closing)).1]
  exact forall_mem_head?_cons (.inr rfl) _

/-- A structure is read with a key that was not seen before, if it has one. -/
theorem yieldsBefore_item (seen : List String) :
    YieldsBefore text (item level seen)
      fun item => (∀ key ∈ keysOf item, key ∉ seen) ∧ holds item := by
  intro c a last here read
  obtain ⟨name, middle, named, more⟩ := bind_eq_read_iff.mp read
  obtain ⟨_, next, blanks, goesOn⟩ := bind_eq_read_iff.mp more
  obtain ⟨first, lead⟩ := yields_identifier here named
  obtain ⟨second, _⟩ := advances_skip false (here.onward first) blanks
  have forward := first.trans second
  -- From the sign behind the name on, the rest of the structure is read.
  suffices rest : next.LeadsTo last ∧
      (EndsItem last.rest → (∀ key ∈ keysOf a, key ∉ seen) ∧ holds a) from
    ⟨forward.trans rest.1, rest.2⟩
  have behind := here.onward forward
  have value (new : name ∉ seen) : YieldsBefore text
      (do skip false; let value ← level.expr; return Item.attribute name value)
      fun item => (∀ key ∈ keysOf item, key ∉ seen) ∧ holds item :=
    (advances_skip false).bind_before fun _ _ => sound.expr.map fun value given =>
      ⟨List.forall_mem_singleton.mpr new, inherited.fromValue name value given⟩
  have block (labels : List String) := (yields_blockBody inherited sound).bind fun body read =>
    (yields_pure ⟨List.forall_mem_nil _,
        inherited.fromBody c.offset name labels body lead read.distinct read.each⟩ :
      Yields text (pure (Item.block c.offset name labels body))
        fun item => (∀ key ∈ keysOf item, key ∉ seen) ∧ holds item)
  split at goesOn
  · cases goesOn
  · split at goesOn
    · split at goesOn
      · cases goesOn
      · next new =>
        have sign := next.leadsTo_drop 1
        have new : name ∉ seen := by simpa using new
        obtain ⟨onward, inside⟩ := value new (behind.onward sign) goesOn
        exact ⟨sign.trans onward, inside⟩
    · split at goesOn
      · exact (block []).before behind goesOn
      · split at goesOn
        · exact (advances_label.many.bind fun labels _ => block labels).before behind goesOn
        · cases goesOn

/-- So a body is read with keys that differ from each other and from those seen before. -/
theorem yields_items (limit : List Char) (seen : List String) :
    Yields text (items level limit seen) (IsRead holds seen) := by
  induction limit generalizing seen with
  | nil => exact (advances_skip true).bind fun _ _ => yields_pure .nil
  | cons x limit ih =>
    have one := (advances_skip true).bind_before fun _ _ => yieldsBefore_item inherited sound seen
    refine one.optional.bind (fun first c b next read => ?_) fun first inside => ?_
    · cases first with
      | none => exact .inr nofun
      | some first =>
        exact .inl (endsItem_of_lineRest read)
    · cases first with
      | none => exact (advances_skip true).bind fun _ _ => yields_pure .nil
      | some first =>
        -- The others are read behind the first structure, and so they do not repeat its key.
        obtain ⟨new, held⟩ := inside first rfl
        exact (advances_skip false).bind fun _ _ => advances_lineComment.optional.bind fun _ _ =>
          (advances_lineEnd.demand _).bind fun _ _ => (ih _).bind fun _ others =>
            yields_pure (others.cons new held)

end Bodies

theorem yields_bodyOf (inherited : IsInherited text good holds) {expr : Parser Expr}
    (values : YieldsBefore text expr good) (depth : Nat) :
    Yields text (bodyOf expr depth) (IsRead holds []) := by
  induction depth with
  | zero => exact yields_fail
  | succ depth ih =>
    intro c body next here read
    have level : BodyLevel.IsSound text good holds ⟨expr, fun c => bodyOf expr depth c⟩ :=
      ⟨values, ih⟩
    exact yields_items inherited level (' ' :: c.rest) [] here read

end Grammar

/-- What a whole text consists of is read from its start, and nothing is left. -/
theorem read_of_readAll {α : Type} {p : Parser α} {text : List Char} {a : α}
    (read : readAll p text = .ok a) :
    ∃ next, p (.ofText text) = .read a next ∧ next.rest = [] := by
  unfold readAll at read
  split at read
  · next value next taken =>
    split at read
    · next ends =>
      obtain rfl := Except.ok.inj read
      exact ⟨next, taken, List.isEmpty_iff.mp ends⟩
    · cases read
  · cases read
  · cases read

/-- What is read from a whole text has the property of what its parser reads. -/
theorem holds_of_readAll {α : Type} {p : Parser α} {text : List Char} {holds : α → Prop} {a : α}
    (yields : Parser.Yields text p holds) (read : readAll p text = .ok a) : holds a := by
  obtain ⟨next, taken, _⟩ := read_of_readAll read
  exact (yields (Cursor.isIn_ofText text) taken).2

/-- The structures of a file have a property that they get from their values, if the values that
are read have theirs where a line or a block ends behind them. -/
theorem forall_of_readBody_before {text : String} {good : Expr → Prop} {holds : Item → Prop}
    (inherited : IsInherited text.toList good holds)
    (values : Parser.YieldsBefore text.toList
      ((Grammar.levelOf (Grammar.depthOf text.toList)).expr .line) good)
    {body : Body} (read : readBody text = .ok body) : ∀ item ∈ body, holds item :=
  (holds_of_readAll (Grammar.yields_bodyOf inherited values _) read).each

/-- So they do if all values that are read have the property. -/
theorem forall_of_readBody {text : String} {good : Expr → Prop} {holds : Item → Prop}
    (inherited : IsInherited text.toList good holds)
    (values : Parser.Yields text.toList
      ((Grammar.levelOf (Grammar.depthOf text.toList)).expr .line) good)
    {body : Body} (read : readBody text = .ok body) : ∀ item ∈ body, holds item :=
  forall_of_readBody_before inherited values.before read

/-- The structures of a file stand in its text. -/
theorem isIn_of_readBody {text : String} {body : Body} (read : readBody text = .ok body) :
    body.IsIn text.toList :=
  forall_of_readBody (isInherited_isIn text.toList)
    ((Grammar.isSound_levelOf (Grammar.isAcquired_isIn _) _).expr .line) read

/-- Keys are distinct at every depth. -/
theorem OccursIn.isDistinct {item : Item} {body : Body} (occurs : OccursIn item body)
    (distinct : ∀ item ∈ body, item.IsDistinct) : item.IsDistinct := by
  induction occurs with
  | here member => exact distinct item member
  | inside member _ ih =>
    obtain _ | ⟨_, _, _, _, inside⟩ := distinct _ member
    exact ih inside

/-- No key comes twice in a body of a structure that is read, at any depth. -/
theorem isDistinct_of_readBody {text : String} {item : Item} {body : Body}
    (read : readBody text = .ok body) (occurs : OccursIn item body) : item.IsDistinct :=
  occurs.isDistinct (forall_of_readBody
    (isInherited_isDistinct text.toList fun e => e.IsIn text.toList)
    ((Grammar.isSound_levelOf (Grammar.isAcquired_isIn _) _).expr .line) read)

end HclLint.Hcl
