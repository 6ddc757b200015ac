/-
# Where the tokens of a value stand

A value is made of the expressions of one file. Each token in it, at any depth of lists and
maps, stands at its position in that file with its own text: taking lists, objects and nested
blocks apart, trimming texts and regrouping blocks under one name moves no token.

## Main definitions

* `Value.Holds`: the tokens that a value is made of.
* `Value.Each`: a value all of whose tokens have a property.
* `Value.StandsIn`: a value all of whose tokens stand in a file.

## Main statements

* `shows_tokenOf`: the token of an expression stands where the expression does.
* `standsIn_ofExpr`, `standsIn_ofItem`: so do the tokens of the values of expressions and of
  structures.
-/

import HclLint.Model.SourceError
import HclLint.Model.Value
import HclLint.Proofs.Entries
import HclLint.Proofs.Hcl.Structure
import HclLint.Proofs.Text.Position

namespace HclLint.Model

open HclLint.Text HclLint.Hcl

/-- The value holds the token: it is the token itself, or an item or an entry holds it. -/
inductive Value.Holds (token : Token) : Value → Prop where
  | scalar : Value.Holds token (.scalar token)
  | item {items : List Value} {value : Value} (member : value ∈ items)
      (held : Value.Holds token value) : Value.Holds token (.list items)
  | entry {entries : List (String × Value)} {name : String} {value : Value}
      (member : (name, value) ∈ entries) (held : Value.Holds token value) :
      Value.Holds token (.map entries)

/-- Every token of the value has a property. -/
def Value.Each (good : Token → Prop) (value : Value) : Prop :=
  ∀ token, value.Holds token → good token

/-- Every token of the entries has a property. -/
def Entries.Each (good : Token → Prop) (entries : Entries Value) : Prop :=
  ∀ name value, (name, value) ∈ entries → value.Each good

/-- Every token of the value stands in the source at its position, with its text. -/
def Value.StandsIn (source : Source) (value : Value) : Prop :=
  ∀ token, value.Holds token → source.Shows token.position token.text

variable {source : Source} {good : Token → Prop}

theorem each_scalar {token : Token} (given : good token) : (Value.scalar token).Each good := by
  rintro _ ⟨⟩
  exact given

/-- What holds of each token of a list holds in each of its items. -/
theorem each_list {items : List Value} :
    (Value.list items).Each good ↔ ∀ value ∈ items, value.Each good := by
  constructor
  · intro each value member token held
    exact each token (.item member held)
  · intro each token held
    cases held with
    | item member held => exact each _ member token held

theorem each_map {entries : Entries Value} :
    (Value.map entries).Each good ↔ Entries.Each good entries := by
  constructor
  · intro each name value member token held
    exact each token (.entry member held)
  · intro each token held
    cases held with
    | entry member held => exact each _ _ member token held

theorem each_nil : Entries.Each good [] := by
  rintro name value ⟨⟩

/-- An entry that is put brings the tokens of its value. -/
theorem each_put {entries : Entries Value} {name : String} {value : Value}
    (before : Entries.Each good entries) (new : value.Each good) :
    Entries.Each good (entries.put name value) := by
  intro other value' member
  rcases Entries.mem_put member with same | member
  · obtain ⟨rfl, rfl⟩ := Prod.mk.inj same
    exact new
  · exact before other value' member

/-- A block that joins others under its name leaves all tokens as they are. -/
theorem each_addBlock {entries : Entries Value} {name : String} {value : Value}
    (each : Entries.Each good entries) (new : value.Each good) :
    Entries.Each good (addBlock name value entries) := by
  unfold addBlock
  split
  · exact each_put each new
  · next items found =>
    have before := each name _ (Entries.mem_of_get?_eq_some found)
    -- A list of maps grows, and any other list goes into a new one.
    split
    · have items := each_list.mp before
      refine each_put each (each_list.mpr fun other member => ?_)
      rcases List.mem_append.mp member with member | member
      · exact items other member
      · exact List.mem_singleton.mp member ▸ new
    · refine each_put each (each_list.mpr ?_)
      exact List.forall_mem_cons.mpr ⟨before, List.forall_mem_singleton.mpr new⟩
  · next found =>
    have before := each name _ (Entries.mem_of_get?_eq_some found)
    refine each_put each (each_list.mpr ?_)
    exact List.forall_mem_cons.mpr ⟨before, List.forall_mem_singleton.mpr new⟩

/-- An item of a body brings the tokens of its value, whether it is merged with another one or not.
-/
theorem each_addItem {entries : Entries Value} {value : Value} (item : Item)
    (each : Entries.Each good entries) (new : value.Each good) :
    Entries.Each good (addItem item value entries) := by
  match item with
  | .attribute _ _ => exact each_put each new
  | .block _ _ _ _ => exact each_addBlock each new

/-! ## Expressions -/

/-- Characters that stand where they are said to start are shown at the position of that
offset. -/
theorem shows_of_isIn {extent : Extent} (here : extent.IsIn source.text.toList) :
    source.Shows (source.positionAt extent.start) extent.text := by
  obtain ⟨before, after, same, passed⟩ := here
  have shows := shows_positionAt same passed
  rwa [String.ofList_toList] at shows

/-- Trimming a text that starts with no blank takes characters off its end only. -/
theorem trim_append_of_solid {cs : List Char} (solid : ∀ x ∈ cs.head?, isBlank x = false) :
    ∃ blanks, cs = trim cs ++ blanks := by
  have front : cs.dropWhile isBlank = cs := by
    cases cs with
    | nil => rfl
    | cons x cs => exact List.dropWhile_cons_of_neg (by simp [solid x rfl])
  refine ⟨(cs.reverse.takeWhile isBlank).reverse, ?_⟩
  rw [trim, front, ← List.reverse_append, List.takeWhile_append_dropWhile, List.reverse_reverse]

/-- The token of an expression stands where the expression does. -/
theorem shows_tokenOf {e : Expr} (here : e.IsIn source.text.toList) :
    source.Shows (tokenOf source e).position (tokenOf source e).text := by
  obtain ⟨before, after, same, passed⟩ := here.extent
  obtain ⟨blanks, whole⟩ := trim_append_of_solid here.solid
  have split : source.text.toList = before ++ trim e.text.toList ++ (blanks ++ after) := by
    rw [List.append_assoc, ← List.append_assoc (trim e.text.toList), ← whole,
      ← List.append_assoc]
    exact same
  exact shows_positionAt split passed

theorem ofItems_eq_map (source : Source) (items : List Expr) :
    Value.ofItems source items = items.map (Value.ofExpr source) := by
  induction items with
  | nil => rfl
  | cons item items ih => rw [Value.ofItems, ih, List.map_cons]

/-- The tokens of an object are those of its values. -/
theorem each_ofEntries {entries : List (Expr × Expr)} {before : Entries Value}
    (each : Entries.Each good before)
    (values : ∀ entry ∈ entries, (Value.ofExpr source entry.2).Each good) :
    Entries.Each good (Value.ofEntries source before entries) := by
  induction entries generalizing before with
  | nil => exact each
  | cons entry entries ih =>
    obtain ⟨first, others⟩ := List.forall_mem_cons.mp values
    exact ih (each_put each first) others

/-- The tokens of an expression's value are its own, or those of the members that it is made
of. -/
theorem each_ofExpr {extent : Extent} {form : Form}
    (here : good (tokenOf source (.mk extent form)))
    (inside : ∀ e ∈ form.members, (Value.ofExpr source e).Each good) :
    (Value.ofExpr source (.mk extent form)).Each good := by
  rw [Value.ofExpr]
  unfold Value.ofForm
  split
  · next items =>
    rw [each_list, ofItems_eq_map, List.forall_mem_map]
    exact inside
  · next entries =>
    refine each_map.mpr (each_ofEntries each_nil fun entry member => inside _ ?_)
    exact List.mem_flatMap.mpr ⟨entry, member, .tail _ List.mem_cons_self⟩
  · exact each_scalar here

/-- The value of an expression stands where the expression does. The proof goes along the syntax
tree. -/
theorem standsIn_ofExpr {e : Expr} (here : e.IsIn source.text.toList) :
    (Value.ofExpr source e).StandsIn source := by
  induction here with
  | mk here solid inside ih => exact each_ofExpr (shows_tokenOf (.mk here solid inside)) ih

/-- A value that is one token is that of its expression, which is no list. -/
theorem ofExpr_eq_scalar {e : Expr} {token : Token} (same : Value.ofExpr source e = .scalar token) :
    token = tokenOf source e ∧ ∀ items, e.form ≠ .list items := by
  obtain ⟨extent, form⟩ := e
  rw [Value.ofExpr] at same
  unfold Value.ofForm at same
  split at same
  · cases same
  · cases same
  · next other _ =>
    exact ⟨(Value.scalar.inj same).symm, other⟩

/-- A value that is a list is that of a list that is written out, item by item. -/
theorem ofExpr_eq_list {e : Expr} {values : List Value}
    (same : Value.ofExpr source e = .list values) :
    ∃ items, e.form = .list items ∧ values = items.map (Value.ofExpr source) := by
  obtain ⟨extent, form⟩ := e
  rw [Value.ofExpr] at same
  unfold Value.ofForm at same
  split at same
  · next items =>
    exact ⟨items, rfl, (Value.list.inj same).symm.trans (ofItems_eq_map source items)⟩
  · cases same
  · cases same

/-! ## Structures -/

/-- The tokens of a body are those of its items. -/
theorem each_bodyEntries {body : Body} {before : Entries Value}
    (each : Entries.Each good before)
    (values : ∀ item ∈ body, (Value.ofItem source item).Each good) :
    Entries.Each good (bodyEntries source before body) := by
  induction body generalizing before with
  | nil => exact each
  | cons item body ih =>
    obtain ⟨first, others⟩ := List.forall_mem_cons.mp values
    exact ih (each_addItem item each first) others

/-- The value of an item stands where the item does. -/
theorem standsIn_ofItem {item : Item} (here : item.IsIn source.text.toList) :
    (Value.ofItem source item).StandsIn source := by
  induction here with
  | «attribute» key here => exact standsIn_ofExpr here
  | block labels here inside ih => exact each_map.mpr (each_bodyEntries each_nil ih)

theorem readBody_of_bodyOf {body : Body} (read : bodyOf source = .ok body) :
    readBody source.text = .ok body := by
  unfold bodyOf at read
  cases taken : readBody source.text with
  | error refusal =>
    rw [taken] at read
    cases read
  | ok other =>
    rw [taken] at read
    rw [Except.ok.inj read]

/-- A file's body stands in its text. -/
theorem isIn_of_bodyOf {body : Body} (read : bodyOf source = .ok body) :
    body.IsIn source.text.toList :=
  isIn_of_readBody (readBody_of_bodyOf read)

end HclLint.Model
