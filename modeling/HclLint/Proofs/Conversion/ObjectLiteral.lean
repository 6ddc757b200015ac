/-
# Nested blocks mean their object literals

A nested block holds what an object literal holds that is written in its place: an entry for every
attribute, an entry with an object for a block, and an entry with a list of objects for several
blocks of one name. Where no name is used both for an attribute and for a block there is such a
literal, and its value is that of the block but for the positions of the tokens.

## Main definitions

* `Spells`, `SpellsAll`: an expression that spells a structure, or all structures of one name.
* `Item.isUnmixed`: a structure in whose bodies no name is used for attributes and for blocks.

## Main statements

* `unplaced_of_spells`: the value of an expression is that of the structure that it spells.
* `exists_spells`: a structure can be spelled if it is unmixed.
* `nested_block_means_object_literal`: both, for the nested blocks of a file.
-/

import HclLint.Proofs.Conversion.Body
import HclLint.Proofs.Conversion.Unplaced
import Mathlib.Data.List.Flatten
import Mathlib.Tactic.Choose

namespace HclLint.Hcl

instance : Nonempty Expr := ⟨.mk ⟨0, "null"⟩ .null⟩

/-- Whether no name in the body is used both for an attribute and for a block. -/
def areApart (body : Body) : Bool :=
  body.all fun item => body.all fun other =>
    item.name != other.name || item.isBlock == other.isBlock

mutual

/-- Whether no name is used both for an attribute and for a block in a body of the structure, at
any depth. -/
def Item.isUnmixed : Item → Bool
  | .attribute .. => true
  | .block _ _ _ body => areApart body && areUnmixed body

def areUnmixed : List Item → Bool
  | [] => true
  | item :: rest => item.isUnmixed && areUnmixed rest

end

variable {item other : Item} {body : Body}

theorem isBlock_eq_of_areApart (apart : areApart body) (member : item ∈ body)
    (otherMember : other ∈ body) (same : item.name = other.name) :
    item.isBlock = other.isBlock := by
  have kinds := List.all_eq_true.mp (List.all_eq_true.mp apart item member) other otherMember
  simpa [same] using kinds

theorem areUnmixed_eq_all (items : List Item) : areUnmixed items = items.all Item.isUnmixed := by
  induction items with
  | nil => rfl
  | cons item rest ih => rw [areUnmixed, ih, List.all_cons]

end HclLint.Hcl

namespace HclLint.Model

open HclLint.Text HclLint.Hcl

/-! ## Spelling -/

mutual

/-- The expression spells the structure: it is an attribute's expression, or for a block an object
whose entries stand in the order in which the body's names first come, each of them spelling the
structures of its name. -/
inductive Spells : Item → Expr → Prop where
  | attribute (key : String) {value e : Expr} (same : e.unplaced = value.unplaced) :
      Spells (.attribute key value) e
  | block (start : Nat) (kind : String) (labels : List String) {body : Body} {extent : Extent}
      {entries : List (Expr × Expr)}
      (names : entries.map (objectKey ·.1) = (body.map Item.name).eraseDups)
      (values : ∀ entry ∈ entries,
        SpellsAll (body.filter (·.name == objectKey entry.1)) entry.2) :
      Spells (.block start kind labels body) (.mk extent (.object entries))

/-- The expression spells the structures, which have one name: it spells a single one, or it is a
list whose items spell several blocks in their order. -/
inductive SpellsAll : List Item → Expr → Prop where
  | single {item : Item} {e : Expr} (spells : Spells item e) : SpellsAll [item] e
  | several {first second : Item} {more : List Item} {extent : Extent} {values : List Expr}
      (blocks : ∀ item ∈ first :: second :: more, item.isBlock)
      (count : values.length = (first :: second :: more).length)
      (each : ∀ item e, (item, e) ∈ (first :: second :: more).zip values → Spells item e) :
      SpellsAll (first :: second :: more) (.mk extent (.list values))

end

variable {source source' : Source} {body : Body} {extent : Extent}

/-- A list has the value of structures that its items have the values of. -/
theorem unplaced_list {items : List Item} {values : List Expr}
    (count : values.length = items.length)
    (each : ∀ item e, (item, e) ∈ items.zip values →
      (Value.ofExpr source' e).unplaced = (Value.ofItem source item).unplaced) :
    (Value.ofExpr source' (.mk extent (.list values))).unplaced =
      (Value.list (items.map (Value.ofItem source))).unplaced := by
  have pairs : List.Forall₂ (fun item e =>
      (Value.ofItem source item).unplaced = (Value.ofExpr source' e).unplaced) items values :=
    List.forall₂_iff_zip.mpr ⟨count.symm, fun {_ _} member => (each _ _ member).symm⟩
  have same : (items.map fun item => (Value.ofItem source item).unplaced) =
      values.map fun e => (Value.ofExpr source' e).unplaced := by
    rw [← List.forall₂_eq_eq_eq, List.forall₂_map_left_iff, List.forall₂_map_right_iff]
    exact pairs
  simpa [Value.ofExpr, Value.ofForm, Value.unplaced, ofItems_eq_map, Function.comp_def] using
    same.symm

/-- An object whose entries have the values of the structures of a body has the body's value. -/
theorem unplaced_object {entries : List (Expr × Expr)}
    (names : entries.map (objectKey ·.1) = (body.map Item.name).eraseDups)
    (values : ∀ entry ∈ entries,
      (Entries.joinAll (joined source) none
          (body.filter (·.name == objectKey entry.1))).map Value.unplaced =
        some (Value.ofExpr source' entry.2).unplaced) :
    (Value.ofExpr source' (.mk extent (.object entries))).unplaced =
      (Value.map (bodyEntries source [] body)).unplaced := by
  have distinct := nodup_keys_bodyEntries source body
  have written : (entries.map (objectKey ·.1)).Nodup := by
    rwa [names, ← keys_bodyEntries source body]
  have keys : Entries.keys
      (entries.map fun entry => (objectKey entry.1, Value.ofExpr source' entry.2)) =
        (bodyEntries source [] body).keys := by
    rw [keys_bodyEntries, ← names, Entries.keys, List.map_map]
    rfl
  rw [Value.ofExpr, Value.ofForm, ofEntries_of_nodup written, Value.unplaced, Value.unplaced,
    heldUnplaced_eq_mapValues, heldUnplaced_eq_mapValues]
  congr 1
  -- Both have the same names in the same order, so it is enough to compare what each name holds.
  refine Entries.ext_get? (by rwa [Entries.keys_mapValues]) (by simpa using keys) ?_
  intro key known
  rw [Entries.keys_mapValues, ← keys] at known
  obtain ⟨_, member, rfl⟩ := List.mem_map.mp known
  obtain ⟨entry, isEntry, rfl⟩ := List.mem_map.mp member
  have held := (Entries.get?_eq_some_iff (keys ▸ distinct)).mpr member
  rw [Entries.get?_mapValues, Entries.get?_mapValues, held, get?_bodyEntries,
    values entry isEntry]
  rfl

mutual

/-- The value of an expression is that of the structure that it spells. -/
theorem unplaced_of_spells (source source' : Source) : ∀ {item : Item} {e : Expr},
    Spells item e → (Value.ofExpr source' e).unplaced = (Value.ofItem source item).unplaced
  | _, _, .attribute _ same => unplaced_ofExpr_eq source source' same
  | _, _, .block _ _ _ names values =>
    unplaced_object names fun entry member =>
      joinAll_of_spellsAll source source' (values entry member)

theorem joinAll_of_spellsAll (source source' : Source) : ∀ {items : List Item} {e : Expr},
    SpellsAll items e →
      (Entries.joinAll (joined source) none items).map Value.unplaced =
        some (Value.ofExpr source' e).unplaced
  | _, _, .single spells => by
    rw [Entries.joinAll_cons, Entries.joinAll_nil, joined_none, Option.map_some,
      unplaced_of_spells source source' spells]
  | _, _, .several blocks count each => by
    rw [joinAll_blocks blocks, Option.map_some]
    exact congrArg some (unplaced_list count fun item e member =>
      unplaced_of_spells source source' (each item e member)).symm

end

/-! ## Structures that can be spelled -/

/-- Structures of one name can be spelled if each of them can, since there are several only if they
are blocks. -/
theorem exists_spellsAll {name : String} {items : List Item} (nonempty : items ≠ [])
    (named : ∀ item ∈ items, item.name = name)
    (alike : ∀ item ∈ items, ∀ other ∈ items, item.isBlock = other.isBlock)
    (distinct : (Body.attributeKeys items).Nodup) (each : ∀ item ∈ items, ∃ e, Spells item e) :
    ∃ e, SpellsAll items e := by
  match items with
  | [] => exact absurd rfl nonempty
  | [item] =>
    obtain ⟨e, spells⟩ := each item List.mem_cons_self
    exact ⟨e, .single spells⟩
  | first :: second :: more =>
    have blocks : first.isBlock := by
      have same := alike first List.mem_cons_self second (.tail _ List.mem_cons_self)
      match first, second with
      | .block .., _ => rfl
      | .attribute .., .block .. => cases same
      -- Two attributes of one name would have the same key.
      | .attribute key _, .attribute other _ =>
        obtain rfl : key = name := named _ List.mem_cons_self
        obtain rfl : other = key := named _ (.tail _ List.mem_cons_self)
        simp [Body.attributeKeys, Grammar.keysOf] at distinct
    -- Being blocks, they are spelled by the list of what spells each of them.
    choose! write writes using each
    refine ⟨.mk ⟨0, ""⟩ (.list ((first :: second :: more).map write)), .several ?_ ?_ ?_⟩
    · exact fun item member => (alike item member first List.mem_cons_self).trans blocks
    · exact List.length_map _
    · intro item e member
      rw [← List.map_prod_left_eq_zip] at member
      obtain ⟨_, known, same⟩ := List.mem_map.mp member
      obtain ⟨rfl, rfl⟩ := Prod.mk.inj same
      exact writes _ known

/-- An unmixed structure can be spelled, if no attribute key comes twice in its bodies. -/
theorem exists_spells {item : Item} (distinct : item.IsDistinct) (unmixed : item.isUnmixed) :
    ∃ e, Spells item e := by
  induction distinct with
  | «attribute» key value => exact ⟨value, .attribute key rfl⟩
  | @block start kind labels body distinct inside ih =>
    obtain ⟨apart, unmixed⟩ := Bool.and_eq_true_iff.mp unmixed
    rw [areUnmixed_eq_all, List.all_eq_true] at unmixed
    have each (name : String) (known : name ∈ (body.map Item.name).eraseDups) :
        ∃ e, SpellsAll (body.filter (·.name == name)) e := by
      obtain ⟨item, member, rfl⟩ := List.mem_map.mp (List.mem_eraseDups.mp known)
      have named (other : Item) (member : other ∈ body.filter (·.name == item.name)) :
          other.name = item.name := by simpa using (List.mem_filter.mp member).2
      have inBody (other : Item) (member : other ∈ body.filter (·.name == item.name)) :
          other ∈ body := (List.mem_filter.mp member).1
      refine exists_spellsAll ?_ named ?_ ?_ fun other found =>
        ih other (inBody other found) (unmixed other (inBody other found))
      · exact List.ne_nil_of_mem (List.mem_filter.mpr ⟨member, beq_self_eq_true _⟩)
      · exact fun other found another alsoFound => isBlock_eq_of_areApart apart
          (inBody other found) (inBody another alsoFound)
          ((named other found).trans (named another alsoFound).symm)
      · exact distinct.sublist (List.filter_sublist.flatMap _)
    -- The object has an entry for each name, with what spells the structures of that name.
    choose! write writes using each
    let entries : List (Expr × Expr) := (body.map Item.name).eraseDups.map fun name =>
      (.mk ⟨0, name⟩ (.variable name), write name)
    refine ⟨.mk ⟨0, ""⟩ (.object entries), .block start kind labels ?_ ?_⟩
    · rw [List.map_map]
      exact List.map_id _
    · exact List.forall_mem_map.mpr writes

/-- **Nested blocks mean their object literals.** Take a block of an accepted file, at any depth,
such that no name is used both for an attribute and for a block in it or in a block inside it.
There is an object that spells it: with an entry for each attribute and for each name of blocks, in
the order in which they first come, where a single block is an object and several blocks are the
list of their objects. Every such object, in whatever file it stands, has the value of the block,
but for the positions of the tokens. -/
theorem nested_block_means_object_literal {file inner : Body} {start : Nat} {kind : String}
    {labels : List String} (read : bodyOf source = .ok file)
    (nested : OccursIn (.block start kind labels inner) file)
    (unmixed : (Item.block start kind labels inner).isUnmixed) :
    (∃ e, Spells (.block start kind labels inner) e) ∧
    ∀ e source', Spells (.block start kind labels inner) e →
      (Value.ofExpr source' e).unplaced = (Value.map (bodyEntries source [] inner)).unplaced := by
  have distinct := isDistinct_of_readBody (readBody_of_bodyOf read) nested
  exact ⟨exists_spells distinct unmixed,
    fun e source' spells => unplaced_of_spells source source' spells⟩

/-- A nested block with blocks of one name around an attribute. -/
def nestedFile : Source :=
  ⟨"a.tf", "resource \"x\" \"id\" \x7b\n  nested \x7b\n    disk \x7b\n      size = 2\n" ++
    "    \x7d\n    zone = 1\n    disk \x7b\n    \x7d\n  \x7d\n\x7d\n"⟩

/-- The nested block is spelled by an object, whose first entry is the list of both disks. -/
theorem nested_block_means_object_literal_disks :
    ∃ file start kind labels inner, bodyOf nestedFile = .ok file ∧
      OccursIn (.block start kind labels inner) file ∧
      inner.map Item.name = ["disk", "zone", "disk"] ∧
      ∃ e, Spells (.block start kind labels inner) e ∧ ∀ source',
        (Value.ofExpr source' e).unplaced =
          (Value.map (bodyEntries nestedFile [] inner)).unplaced := by
  obtain ⟨file, read, found⟩ := exists_eq_ok_of_any (x := bodyOf nestedFile)
    (p := anyNested fun inner => inner.map Item.name == ["disk", "zone", "disk"] &&
      (areApart inner && areUnmixed inner)) (by decide +kernel)
  obtain ⟨start, kind, labels, inner, nested, found⟩ := exists_occursIn_of_anyNested found
  obtain ⟨names, unmixed⟩ := Bool.and_eq_true_iff.mp found
  obtain ⟨⟨e, spells⟩, means⟩ := nested_block_means_object_literal read nested unmixed
  exact ⟨file, start, kind, labels, inner, read, nested, eq_of_beq names, e, spells,
    fun source' => means e source' spells⟩

end HclLint.Model
