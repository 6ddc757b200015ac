/-
# The entries that a nested block's structures make

A nested block becomes a map. Its structures join what is held under their names one after the
other: an attribute takes the place of what is there, and a block joins it. So what a name holds in
the end is made of the structures of that name alone, and several blocks of one name are a list.

## Main definitions

* `joinedBlock`, `joined`: what a block, or any structure, makes of what its name holds.

## Main statements

* `bodyEntries_eq_gather`: the entries of a body are gathered from its structures.
* `keys_bodyEntries`, `get?_bodyEntries`: their names, and what is held under each of them.
* `joinAll_blocks`: several blocks are held as the list of their values.
-/

import HclLint.Model.Value
import HclLint.Proofs.Gathering
import HclLint.Proofs.Hcl.Structure

namespace HclLint.Model

open HclLint.Text HclLint.Hcl

/-- What a block's value makes of what is held under its name: a list of maps grows by it, and any
other value is put into a list with it. -/
def joinedBlock (held : Option Value) (value : Value) : Value :=
  match held with
  | none => value
  | some (.list items) =>
    if items.all Value.isMap then .list (items ++ [value]) else .list [.list items, value]
  | some before => .list [before, value]

/-- What a structure makes of what is held under its name. -/
def joined (source : Source) (held : Option Value) : Item → Value
  | .attribute _ e => Value.ofExpr source e
  | .block _ _ _ body => joinedBlock held (.map (bodyEntries source [] body))

variable {source : Source} {body : Body} {item : Item}

theorem addBlock_eq_put (name : String) (value : Value) (entries : Entries Value) :
    addBlock name value entries = entries.put name (joinedBlock (entries.get? name) value) := by
  unfold addBlock
  cases entries.get? name with
  | none => rfl
  | some before =>
    cases before with
    | list items =>
      simp only [joinedBlock]
      split <;> rfl
    | scalar | map => rfl

theorem addItem_eq_put (source : Source) (item : Item) (entries : Entries Value) :
    addItem item (Value.ofItem source item) entries =
      entries.put item.name (joined source (entries.get? item.name) item) := by
  cases item with
  | «attribute» key e => rfl
  | block start kind labels body => exact addBlock_eq_put kind _ entries

/-- The entries of a body are gathered from its structures. -/
theorem bodyEntries_eq_gather (source : Source) (before : Entries Value) (body : Body) :
    bodyEntries source before body = Entries.gather Item.name (joined source) before body := by
  induction body generalizing before with
  | nil => rfl
  | cons item body ih =>
    rw [bodyEntries, addItem_eq_put, ih]
    rfl

/-- The names stand in the order in which the structures first have them. -/
theorem keys_bodyEntries (source : Source) (body : Body) :
    (bodyEntries source [] body).keys = (body.map Item.name).eraseDups := by
  rw [bodyEntries_eq_gather, Entries.keys_gather]

theorem nodup_keys_bodyEntries (source : Source) (body : Body) :
    (bodyEntries source [] body).keys.Nodup := by
  rw [bodyEntries_eq_gather]
  exact Entries.nodup_keys_gather _ _ Entries.nodup_keys_nil body

/-- What is held under a name is made of the structures of that name. -/
theorem get?_bodyEntries (source : Source) (body : Body) (name : String) :
    Entries.get? name (bodyEntries source [] body) =
      Entries.joinAll (joined source) none (body.filter (·.name == name)) := by
  rw [bodyEntries_eq_gather, Entries.get?_gather]
  rfl

/-! ## Blocks of one name -/

/-- A structure whose name holds nothing is held as its own value. -/
theorem joined_none (source : Source) (item : Item) :
    joined source none item = Value.ofItem source item := by
  cases item <;> rfl

theorem joined_of_isBlock (block : item.isBlock) (held : Option Value) :
    joined source held item = joinedBlock held (Value.ofItem source item) := by
  cases item with
  | «attribute» => cases block
  | block => rfl

theorem isMap_ofItem (block : item.isBlock) : (Value.ofItem source item).isMap := by
  cases item with
  | «attribute» => cases block
  | block => rfl

/-- A list of maps grows by each block. -/
theorem joinAll_of_all_isMap {values : List Value} {items : List Item}
    (maps : values.all Value.isMap) (blocks : ∀ item ∈ items, item.isBlock) :
    Entries.joinAll (joined source) (some (.list values)) items =
      some (.list (values ++ items.map (Value.ofItem source))) := by
  induction items generalizing values with
  | nil => simp
  | cons item items ih =>
    obtain ⟨block, blocks⟩ := List.forall_mem_cons.mp blocks
    have grown : (values ++ [Value.ofItem source item]).all Value.isMap := by
      simp [maps, isMap_ofItem block]
    rw [Entries.joinAll_cons, joined_of_isBlock block, joinedBlock, if_pos maps, ih grown blocks,
      List.append_assoc, List.map_cons, List.singleton_append]

/-- Several blocks are held as the list of their values. -/
theorem joinAll_blocks {first second : Item} {more : List Item}
    (blocks : ∀ item ∈ first :: second :: more, item.isBlock) :
    Entries.joinAll (joined source) none (first :: second :: more) =
      some (.list ((first :: second :: more).map (Value.ofItem source))) := by
  obtain ⟨firstBlock, secondBlock, blocks⟩ := by simpa only [List.forall_mem_cons] using blocks
  have maps : [Value.ofItem source first, Value.ofItem source second].all Value.isMap := by
    simp [isMap_ofItem firstBlock, isMap_ofItem secondBlock]
  -- The first block is a map, and so the second one makes a list of both.
  have two : joinedBlock (some (Value.ofItem source first)) (Value.ofItem source second) =
      .list [Value.ofItem source first, Value.ofItem source second] := by
    cases first with
    | «attribute» => cases firstBlock
    | block => rfl
  rw [Entries.joinAll_cons, Entries.joinAll_cons, joined_none, joined_of_isBlock secondBlock, two,
    joinAll_of_all_isMap maps blocks]
  rfl

end HclLint.Model
