/-
# What nested blocks keep

The tokens of a nested block are those of its structures. A block joins what is held under its name
and an attribute takes its place. So the tokens of blocks are lost where an attribute of their name
comes behind them, and nothing else is: what is written in any other order is kept completely.

## Main definitions

* `Value.tokens`, `tokensUnder`: the tokens of a value, and of what is held under a name.
* `retained`: the structures of a body that no attribute takes the place of.
* `Item.isOrderly`: a structure in whose bodies no attribute takes the place of anything.
* `tokensWritten`: all tokens that a structure is written with.

## Main statements

* `tokensUnder_bodyEntries`, `perm_tokens_bodyEntries`: a body keeps the tokens of what is retained.
* `perm_tokens_ofItem`: an orderly structure keeps all tokens that it is written with.
* `nested_body_keeps_retained`: what the nested blocks of a file keep.
-/

import HclLint.Proofs.Conversion.Body
import HclLint.Proofs.Provenance.Value
import HclLint.Proofs.Sequencing
import Mathlib.Algebra.Order.Group.Multiset

namespace HclLint.Hcl

/-- Whether the structure takes the place of another one in front of it: whether it is an attribute
with the same name. -/
def Item.replaces (item other : Item) : Bool := !item.isBlock && item.name == other.name

/-- The structures of the body that no structure behind them takes the place of. -/
def retained : Body → Body
  | [] => []
  | item :: rest => if rest.any (·.replaces item) then retained rest else item :: retained rest

mutual

/-- Whether no structure takes the place of another one in a body of the structure, at any depth. -/
def Item.isOrderly : Item → Bool
  | .attribute .. => true
  | .block _ _ _ body => areOrderly body

def areOrderly : List Item → Bool
  | [] => true
  | item :: rest => item.isOrderly && !rest.any (·.replaces item) && areOrderly rest

end

variable {body : Body}

/-- The last structure of a body is retained, and what it takes the place of is not. -/
theorem retained_append_singleton (body : Body) (last : Item) :
    retained (body ++ [last]) = (retained body).filter (!last.replaces ·) ++ [last] := by
  induction body with
  | nil => rfl
  | cons item body ih =>
    rw [List.cons_append, retained, retained, ih, List.any_append]
    by_cases before : body.any (·.replaces item)
    · simp [before]
    · by_cases now : last.replaces item <;> simp [before, now]

/-- An orderly body is retained completely. -/
theorem retained_of_areOrderly (orderly : areOrderly body) : retained body = body := by
  induction body with
  | nil => rfl
  | cons item body ih =>
    simp only [areOrderly, Bool.and_eq_true, Bool.not_eq_true'] at orderly
    rw [retained, orderly.1.2, ih orderly.2]
    rfl

/-- Attributes with different keys are all retained. -/
theorem attributes_retained (distinct : body.attributeKeys.Nodup) :
    (retained body).filter (!·.isBlock) = body.filter (!·.isBlock) := by
  induction body with
  | nil => rfl
  | cons item body ih =>
    rw [Body.attributeKeys, List.flatMap_cons, List.nodup_append] at distinct
    obtain ⟨-, later, apart⟩ := distinct
    rw [retained]
    cases item with
    | block start kind labels inner =>
      split <;> simp [ih later]
    | «attribute» key e =>
      have kept : ¬ body.any (·.replaces (.attribute key e)) := by
        intro replaced
        obtain ⟨other, member, replaces⟩ := List.any_eq_true.mp replaced
        cases other with
        | block => cases replaces
        | «attribute» other value =>
          have same : other = key := by simpa [Item.replaces, Item.name] using replaces
          refine apart key List.mem_cons_self key ?_ rfl
          exact List.mem_flatMap.mpr ⟨_, member, same ▸ List.mem_cons_self⟩
      rw [if_neg kept, List.filter_cons, List.filter_cons, ih later]

end HclLint.Hcl

namespace HclLint.Model

open HclLint.Text HclLint.Hcl

/-! ## Tokens -/

mutual

/-- The tokens of the value, in order. -/
def Value.tokens : Value → List Token
  | .scalar token => [token]
  | .list items => valuesTokens items
  | .map entries => heldTokens entries

def valuesTokens : List Value → List Token
  | [] => []
  | value :: rest => value.tokens ++ valuesTokens rest

def heldTokens : List (String × Value) → List Token
  | [] => []
  | (_, value) :: rest => value.tokens ++ heldTokens rest

end

/-- The tokens of what is held under a name. -/
def tokensUnder (name : String) (entries : Entries Value) : List Token :=
  (entries.get? name).elim [] Value.tokens

mutual

/-- The tokens that the structure is written with: those of an attribute's value, or all that the
body of a block is written with. -/
def tokensWritten (source : Source) : Item → List Token
  | .attribute _ e => (Value.ofExpr source e).tokens
  | .block _ _ _ body => tokensWrittenIn source body

def tokensWrittenIn (source : Source) : List Item → List Token
  | [] => []
  | item :: rest => tokensWritten source item ++ tokensWrittenIn source rest

end

/-- The tokens of the structures' values. -/
def tokensOf (source : Source) (items : List Item) : List Token :=
  items.flatMap fun item => (Value.ofItem source item).tokens

variable {source : Source}

@[simp]
theorem valuesTokens_eq_flatMap (values : List Value) :
    valuesTokens values = values.flatMap Value.tokens := by
  induction values with
  | nil => rfl
  | cons value rest ih => rw [valuesTokens, ih, List.flatMap_cons]

@[simp]
theorem heldTokens_eq_flatMap (entries : Entries Value) :
    heldTokens entries = entries.flatMap (·.2.tokens) := by
  induction entries with
  | nil => rfl
  | cons entry rest ih =>
    obtain ⟨name, value⟩ := entry
    rw [heldTokens, ih, List.flatMap_cons]

/-- A block that joins what its name holds adds its tokens behind. -/
theorem tokens_joinedBlock (held : Option Value) (value : Value) :
    (joinedBlock held value).tokens = held.elim [] Value.tokens ++ value.tokens := by
  match held with
  | none => rfl
  | some (.scalar _) => simp [joinedBlock, Value.tokens]
  | some (.map _) => simp [joinedBlock, Value.tokens]
  | some (.list items) =>
    rw [joinedBlock]
    split <;> simp [Value.tokens]

theorem coe_tokens_map (entries : Entries Value) :
    ((Value.map entries).tokens : Multiset Token) =
      (entries.map fun entry => (entry.2.tokens : Multiset Token)).sum := by
  rw [Value.tokens, heldTokens_eq_flatMap]
  induction entries with
  | nil => rfl
  | cons entry rest ih =>
    rw [List.flatMap_cons, ← Multiset.coe_add, ih, List.map_cons, List.sum_cons]

@[simp]
theorem tokensOf_nil (source : Source) : tokensOf source [] = [] := rfl

@[simp]
theorem tokensOf_singleton (source : Source) (item : Item) :
    tokensOf source [item] = (Value.ofItem source item).tokens :=
  List.append_nil _

@[simp]
theorem tokensOf_append (source : Source) (front back : List Item) :
    tokensOf source (front ++ back) = tokensOf source front ++ tokensOf source back :=
  List.flatMap_append

theorem coe_tokensOf_filter (source : Source) (test : Item → Bool) (body : Body) :
    (tokensOf source (body.filter test) : Multiset Token) +
      tokensOf source (body.filter (!test ·)) = tokensOf source body := by
  rw [Multiset.coe_add, ← tokensOf_append]
  exact Multiset.coe_eq_coe.mpr ((List.filter_append_perm test body).flatMap_right _)

/-! ## One structure -/

/-- What an attribute leaves under its name are its own tokens, and a block leaves its tokens behind
those that are there. Under other names nothing changes. -/
theorem tokensUnder_addItem (source : Source) (name : String) (item : Item)
    (entries : Entries Value) :
    tokensUnder name (addItem item (Value.ofItem source item) entries) =
      if item.name = name then
        (if item.isBlock then tokensUnder item.name entries else []) ++
          (Value.ofItem source item).tokens
      else tokensUnder name entries := by
  rw [addItem_eq_put, tokensUnder, Entries.get?_put]
  split
  · cases item with
    | «attribute» key e => rfl
    | block start kind labels body => exact tokens_joinedBlock _ _
  · rfl

/-- A structure adds its tokens to those of a map. If it is an attribute, those under its name are
lost. -/
theorem coe_tokens_addItem (source : Source) (item : Item) (entries : Entries Value) :
    ((Value.map (addItem item (Value.ofItem source item) entries)).tokens : Multiset Token) +
        (if item.isBlock then [] else tokensUnder item.name entries : List Token) =
      (Value.map entries).tokens + (Value.ofItem source item).tokens := by
  have total := Entries.sum_put (fun value => (value.tokens : Multiset Token)) item.name
    (joined source (entries.get? item.name) item) entries
  have held : (entries.get? item.name).elim 0 (fun value => (value.tokens : Multiset Token)) =
      tokensUnder item.name entries := by
    rw [tokensUnder]
    cases entries.get? item.name <;> rfl
  rw [← addItem_eq_put, ← coe_tokens_map, ← coe_tokens_map, held] at total
  cases item with
  | «attribute» key e => exact total
  | block start kind labels body =>
    -- What a block finds under its name is counted on both sides.
    rw [joined, tokens_joinedBlock, ← tokensUnder, ← Multiset.coe_add, add_left_comm,
      add_comm] at total
    exact (add_zero _).trans (add_left_cancel total)

theorem bodyEntries_append_singleton (source : Source) (body : Body) (last : Item) :
    bodyEntries source [] (body ++ [last]) =
      addItem last (Value.ofItem source last) (bodyEntries source [] body) := by
  rw [bodyEntries_eq_gather, bodyEntries_eq_gather, Entries.gather, List.foldl_append,
    ← Entries.gather, addItem_eq_put]
  rfl

/-! ## A whole body -/

/-- Under each name, a body keeps the tokens of the structures that are retained, in order. -/
theorem tokensUnder_bodyEntries (source : Source) (body : Body) (name : String) :
    tokensUnder name (bodyEntries source [] body) =
      tokensOf source ((retained body).filter (·.name == name)) := by
  induction body using List.reverseRecOn with
  | nil => rfl
  | append_singleton body last ih =>
    rw [bodyEntries_append_singleton, tokensUnder_addItem, retained_append_singleton,
      List.filter_append, List.filter_filter, tokensOf_append]
    by_cases own : last.name = name
    · subst own
      -- What stands under the name of an attribute gives way to it, and stays for a block.
      have stays (item : Item) : (item.name == last.name && !last.replaces item) =
          (last.isBlock && item.name == last.name) := by
        by_cases same : item.name = last.name
        · simp [Item.replaces, same]
        · simp [beq_false_of_ne same]
      simp only [stays]
      cases last.isBlock <;> simp [ih]
    · have other (item : Item) : (item.name == name && !last.replaces item) =
          (item.name == name) := by
        by_cases named : item.name = name
        · simp [Item.replaces, named, own]
        · simp [beq_false_of_ne named]
      simp [own, other, ih]

/-- What a structure behind a body loses are the tokens of what it takes the place of. -/
theorem tokens_replaced (source : Source) (body : Body) (last : Item) :
    (if last.isBlock then [] else tokensUnder last.name (bodyEntries source [] body)) =
      tokensOf source ((retained body).filter last.replaces) := by
  rw [tokensUnder_bodyEntries]
  cases kind : last.isBlock with
  | true =>
    have none : (retained body).filter last.replaces = [] := by simp [Item.replaces, kind]
    rw [none]
    rfl
  | false =>
    have named : last.replaces = (·.name == last.name) := by
      funext item
      rw [Item.replaces, kind, Bool.not_false, Bool.true_and, BEq.comm]
    rw [named]
    rfl

/-- Altogether, a body keeps the tokens of the structures that are retained, each as often as it
comes in them. -/
theorem perm_tokens_bodyEntries (source : Source) (body : Body) :
    (Value.map (bodyEntries source [] body)).tokens.Perm (tokensOf source (retained body)) := by
  rw [← Multiset.coe_eq_coe]
  induction body using List.reverseRecOn with
  | nil => rfl
  | append_singleton body last ih =>
    have step := coe_tokens_addItem source last (bodyEntries source [] body)
    rw [← bodyEntries_append_singleton, tokens_replaced, ih] at step
    -- What the last structure takes the place of was there before, and is lost with it.
    refine add_left_cancel (a := (tokensOf source ((retained body).filter last.replaces) :
      Multiset Token)) ?_
    calc
      _ = (tokensOf source (retained body) : Multiset Token) +
          (Value.ofItem source last).tokens := (add_comm _ _).trans step
      _ = tokensOf source ((retained body).filter last.replaces) +
          (tokensOf source ((retained body).filter (!last.replaces ·)) +
            tokensOf source [last]) := by
        rw [← coe_tokensOf_filter source last.replaces, add_assoc, tokensOf_singleton]
      _ = _ := by
        rw [retained_append_singleton, tokensOf_append, Multiset.coe_add]

mutual

/-- An orderly structure keeps all tokens that it is written with. -/
theorem perm_tokens_ofItem (source : Source) : ∀ item : Item, item.isOrderly →
    (Value.ofItem source item).tokens.Perm (tokensWritten source item)
  | .attribute .., _ => .refl _
  | .block _ _ _ body, orderly => by
    have kept := perm_tokens_bodyEntries source body
    rw [retained_of_areOrderly orderly] at kept
    exact kept.trans (perm_tokensOf source body orderly)

theorem perm_tokensOf (source : Source) : ∀ body : List Item, areOrderly body →
    (tokensOf source body).Perm (tokensWrittenIn source body)
  | [], _ => .refl _
  | item :: rest, orderly => by
    simp only [areOrderly, Bool.and_eq_true] at orderly
    exact (perm_tokens_ofItem source item orderly.1.1).append (perm_tokensOf source rest orderly.2)

end

/-- **Nested bodies keep what no attribute takes the place of.** Take a nested block of an accepted
file, at any depth. Under each name its map holds exactly the tokens of the structures of that name
that no attribute of the name comes behind, in their order. So an attribute always keeps its tokens,
and a block loses them only to an attribute of its name behind it. Where there is none, nothing is
lost at any depth and each token comes as often as it is written, and the order in which attributes
and blocks are written shows in the order of the tokens only. -/
theorem nested_body_keeps_retained {file inner : Body} {start : Nat} {kind : String}
    {labels : List String} (read : bodyOf source = .ok file)
    (nested : OccursIn (.block start kind labels inner) file) :
    (∀ name, tokensUnder name (bodyEntries source [] inner) =
      tokensOf source ((retained inner).filter (·.name == name))) ∧
    (retained inner).filter (!·.isBlock) = inner.filter (!·.isBlock) ∧
    (areOrderly inner →
      (Value.map (bodyEntries source [] inner)).tokens.Perm (tokensWrittenIn source inner)) ∧
    ∀ others, others.Perm inner → retained others = others → retained inner = inner → ∀ name,
      (tokensUnder name (bodyEntries source [] others)).Perm
        (tokensUnder name (bodyEntries source [] inner)) := by
  obtain _ | ⟨_, _, _, distinct, _⟩ :=
    isDistinct_of_readBody (readBody_of_bodyOf read) nested
  refine ⟨tokensUnder_bodyEntries source inner, attributes_retained distinct,
    fun orderly => perm_tokens_ofItem source (.block start kind labels inner) orderly,
    fun others same keepsOthers keeps name => ?_⟩
  rw [tokensUnder_bodyEntries, tokensUnder_bodyEntries, keepsOthers, keeps]
  exact (same.filter _).flatMap_right _

/-- A nested block with an attribute in front of a block of the same name. -/
def mixedFile : Source :=
  ⟨"a.tf", "resource \"x\" \"id\" \x7b\n  nested \x7b\n    a = 2\n    b \x7b\n      k = 3\n" ++
    "    \x7d\n    a \x7b\n      k = 1\n    \x7d\n  \x7d\n\x7d\n"⟩

/-- The same with the attribute behind the block. -/
def overwrittenFile : Source :=
  ⟨"a.tf", "resource \"x\" \"id\" \x7b\n  nested \x7b\n    a \x7b\n      k = 1\n    \x7d\n" ++
    "    a = 2\n  \x7d\n\x7d\n"⟩

/-- The texts of the tokens that the body keeps under a name. -/
def textsUnder (name : String) (source : Source) (body : Body) : List String :=
  (tokensUnder name (bodyEntries source [] body)).map (·.text)

/-- The block behind the attribute joins it, and all tokens are kept. -/
theorem nested_body_keeps_retained_mixed :
    ∃ file start kind labels inner, bodyOf mixedFile = .ok file ∧
      OccursIn (.block start kind labels inner) file ∧
      inner.map Item.name = ["a", "b", "a"] ∧ textsUnder "a" mixedFile inner = ["2", "1"] ∧
      (Value.map (bodyEntries mixedFile [] inner)).tokens.Perm
        (tokensWrittenIn mixedFile inner) := by
  obtain ⟨file, read, found⟩ := exists_eq_ok_of_any (x := bodyOf mixedFile)
    (p := anyNested fun inner => inner.map Item.name == ["a", "b", "a"] &&
      (textsUnder "a" mixedFile inner == ["2", "1"] && areOrderly inner)) (by decide +kernel)
  obtain ⟨start, kind, labels, inner, nested, found⟩ := exists_occursIn_of_anyNested found
  simp only [Bool.and_eq_true, beq_iff_eq] at found
  obtain ⟨names, texts, orderly⟩ := found
  obtain ⟨-, -, complete, -⟩ := nested_body_keeps_retained read nested
  exact ⟨file, start, kind, labels, inner, read, nested, names, texts, complete orderly⟩

/-- Whether a block of the body has a token that the body does not keep under the block's name. -/
def losesToken (source : Source) (body : Body) : Bool :=
  body.any fun item => item.isBlock && (Value.ofItem source item).tokens.any fun token =>
    !(tokensUnder item.name (bodyEntries source [] body)).contains token

/-- The block in front of the attribute loses its token, which it would keep behind it. -/
theorem block_lost_to_attribute :
    ∃ file start kind labels inner, bodyOf overwrittenFile = .ok file ∧
      OccursIn (.block start kind labels inner) file ∧
      (∃ item ∈ inner, item.isBlock ∧ ∃ token ∈ (Value.ofItem overwrittenFile item).tokens,
        token ∉ tokensUnder item.name (bodyEntries overwrittenFile [] inner)) ∧
      textsUnder "a" overwrittenFile inner = ["2"] ∧
      textsUnder "a" overwrittenFile inner.reverse = ["2", "1"] := by
  obtain ⟨file, read, found⟩ := exists_eq_ok_of_any (x := bodyOf overwrittenFile)
    (p := anyNested fun inner => losesToken overwrittenFile inner &&
      (textsUnder "a" overwrittenFile inner == ["2"] &&
        textsUnder "a" overwrittenFile inner.reverse == ["2", "1"])) (by decide +kernel)
  obtain ⟨start, kind, labels, inner, nested, found⟩ := exists_occursIn_of_anyNested found
  simp only [Bool.and_eq_true, beq_iff_eq] at found
  obtain ⟨loses, texts⟩ := found
  exact ⟨file, start, kind, labels, inner, read, nested, by simpa [losesToken] using loses, texts⟩

end HclLint.Model
