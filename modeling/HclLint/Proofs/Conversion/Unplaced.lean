/-
# Values wherever they stand

A value keeps for each of its tokens where it was written. But for that, the value of an expression
is the same in whatever file and at whatever place the expression stands.

## Main definitions

* `Value.unplaced`: a value none of whose tokens stands anywhere.

## Main statements

* `unplaced_ofExpr_eq`: expressions that are the same but for their places have the same value.
-/

import HclLint.Proofs.Eval.Unplaced
import HclLint.Proofs.Gathering
import HclLint.Proofs.Provenance.Value

namespace HclLint.Model

open HclLint.Text HclLint.Hcl

mutual

/-- The value without the positions of its tokens. -/
def Value.unplaced : Value → Value
  | .scalar token => .scalar (token.movedTo .unknown)
  | .list items => .list (valuesUnplaced items)
  | .map entries => .map (heldUnplaced entries)

def valuesUnplaced : List Value → List Value
  | [] => []
  | value :: rest => value.unplaced :: valuesUnplaced rest

def heldUnplaced : List (String × Value) → List (String × Value)
  | [] => []
  | (key, value) :: rest => (key, value.unplaced) :: heldUnplaced rest

end

/-- The places of several values are forgotten one by one. -/
@[simp]
theorem valuesUnplaced_eq_map (values : List Value) :
    valuesUnplaced values = values.map Value.unplaced := by
  induction values with
  | nil => rfl
  | cons value rest ih => rw [valuesUnplaced, ih, List.map_cons]

@[simp]
theorem heldUnplaced_eq_mapValues (entries : Entries Value) :
    heldUnplaced entries = Entries.mapValues Value.unplaced entries := by
  induction entries with
  | nil => rfl
  | cons entry rest ih =>
    obtain ⟨key, value⟩ := entry
    rw [heldUnplaced, ih, Entries.mapValues_cons]

variable {source source' : Source} {e e' : Expr}

/-- The key of an entry does not depend on where it stands. -/
theorem objectKey_unplaced (key : Expr) : objectKey key.unplaced = objectKey key := by
  obtain ⟨extent, form⟩ := key
  cases form <;> rfl

/-- The token of an expression depends on its place in the position only. -/
theorem movedTo_tokenOf_unplaced (source source' : Source) (e : Expr) (position : Position) :
    (tokenOf source' e.unplaced).movedTo position = (tokenOf source e).movedTo position := by
  simp only [tokenOf, Token.movedTo, Eval.ofExpr_unplaced, keptText, Expr.text_unplaced]

mutual

/-- Up to positions, the value of an expression is that of the expression without its places. The
four functions of the conversion are treated together, along the syntax tree. -/
theorem unplaced_ofExpr_unplaced (source source' : Source) : ∀ e : Expr,
    (Value.ofExpr source' e.unplaced).unplaced = (Value.ofExpr source e).unplaced
  | .mk extent form =>
    unplaced_ofForm_unplaced source source' (movedTo_tokenOf_unplaced _ _ (.mk extent form) _) form

theorem unplaced_ofForm_unplaced (source source' : Source) {token token' : Token}
    (same : token'.movedTo .unknown = token.movedTo .unknown) : ∀ form : Form,
    (Value.ofForm source' token' form.unplaced).unplaced =
      (Value.ofForm source token form).unplaced
  | .list items => by
    rw [Form.unplaced, itemsUnplaced_eq_map, Value.ofForm, Value.ofForm, Value.unplaced,
      Value.unplaced, valuesUnplaced_eq_map, valuesUnplaced_eq_map,
      unplaced_ofItems_unplaced source source' items]
  | .object entries => by
    rw [Form.unplaced, entriesUnplaced_eq_map, Value.ofForm, Value.ofForm, Value.unplaced,
      Value.unplaced, heldUnplaced_eq_mapValues, heldUnplaced_eq_mapValues,
      unplaced_ofEntries_unplaced source source' rfl entries]
  | .null | .bool _ | .number _ | .string _ | .template _ | .heredoc .. | .parens _ | .variable _
  | .conditional .. | .call .. | .traversal .. | .unary .. | .binary .. | .listFor ..
  | .objectFor .. => congrArg Value.scalar same

theorem unplaced_ofItems_unplaced (source source' : Source) : ∀ items : List Expr,
    (Value.ofItems source' (items.map Expr.unplaced)).map Value.unplaced =
      (Value.ofItems source items).map Value.unplaced
  | [] => rfl
  | item :: rest => by
    rw [List.map_cons, Value.ofItems, Value.ofItems, List.map_cons, List.map_cons,
      unplaced_ofExpr_unplaced source source' item, unplaced_ofItems_unplaced source source' rest]

theorem unplaced_ofEntries_unplaced (source source' : Source) {before before' : Entries Value}
    (same : Entries.mapValues Value.unplaced before' = Entries.mapValues Value.unplaced before) :
    ∀ entries : List (Expr × Expr),
      Entries.mapValues Value.unplaced
          (Value.ofEntries source' before' (entries.map entryUnplaced)) =
        Entries.mapValues Value.unplaced (Value.ofEntries source before entries)
  | [] => same
  | (key, value) :: rest => by
    refine unplaced_ofEntries_unplaced source source' ?_ rest
    rw [Entries.mapValues_put, Entries.mapValues_put, same, objectKey_unplaced,
      unplaced_ofExpr_unplaced source source' value]

end

/-- Expressions that are the same but for their places have the same value, but for the positions
of its tokens. -/
theorem unplaced_ofExpr_eq (source source' : Source) (same : e'.unplaced = e.unplaced) :
    (Value.ofExpr source' e').unplaced = (Value.ofExpr source e).unplaced := by
  rw [← unplaced_ofExpr_unplaced source' source e', same]
  exact unplaced_ofExpr_unplaced source source e

/-! ## Objects -/

/-- The entries of an object are put one after the other. -/
theorem ofEntries_eq_putAll (source : Source) (before : Entries Value)
    (entries : List (Expr × Expr)) :
    Value.ofEntries source before entries =
      before.putAll
        (entries.map fun entry => (objectKey entry.1, Value.ofExpr source entry.2)) := by
  induction entries generalizing before with
  | nil => rfl
  | cons entry entries ih =>
    obtain ⟨key, value⟩ := entry
    rw [Value.ofEntries, ih]
    rfl

/-- An object whose keys are distinct holds its entries as they are written. -/
theorem ofEntries_of_nodup {entries : List (Expr × Expr)}
    (distinct : (entries.map (objectKey ·.1)).Nodup) :
    Value.ofEntries source [] entries =
      entries.map fun entry => (objectKey entry.1, Value.ofExpr source entry.2) := by
  rw [ofEntries_eq_putAll]
  refine Entries.putAll_of_nodup ?_
  rwa [Entries.keys, List.map_map]

end HclLint.Model
