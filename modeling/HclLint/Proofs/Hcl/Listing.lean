/-
# Lists wherever they are written

What stands between the brackets of a list is read up to the closing one, whatever stands behind
it. So a list that is read alone is read in every text where it is written, with the same elements:
in a file, where lines go on behind it, in parentheses, and in a template. And a list that is read
in a text without heredocs is read alone.

## Main definitions

* `IsListOf`: a text that is a list between square brackets.
* `Form.isTakenApart`: the forms whose members are kept one by one.

## Main statements

* `reads_termAt_of_isListOf`: such a list is read in front of everything.
* `exists_isListOf_of_read`: a list of a text without heredocs is read alone.
* `form_of_isListOf`: an expression that is written like the list is the list.
* `isKept_of_isListOf`: the texts of its elements are kept as they are written.
* `isTakenApart_of_read`: only brackets and braces open what is taken apart.
-/

import HclLint.Proofs.Hcl.Enclosed

namespace HclLint.Hcl

open HclLint.Text

/-- The text as it stands between square brackets. -/
def bracketed (body : String) : String := "[" ++ body ++ "]"

theorem toList_bracketed (body : String) :
    (bracketed body).toList = '[' :: (body.toList ++ [']']) := by
  simp [bracketed]

/-- Between square brackets the text is a list of the elements, and it holds no empty heredoc. -/
def IsListOf (body : String) (elements : List Expr) : Prop :=
  ∃ e, readWithout Form.isEmptyHeredoc (bracketed body) = .ok e ∧ e.form = .list elements

/-- Whether the form is a list or an object, whose members are kept one by one. -/
def Form.isTakenApart : Form → Bool
  | .list _ | .object _ => true
  | _ => false

theorem isTakenApart_unplaced (form : Form) : form.unplaced.isTakenApart = form.isTakenApart := by
  cases form <;> rfl

/-- What is a list but for places is a list. -/
theorem exists_items_of_unplaced {form : Form} {elements : List Expr}
    (same : form.unplaced = (Form.list elements).unplaced) :
    ∃ items, form = .list items ∧ items.map Expr.unplaced = elements.map Expr.unplaced := by
  cases form with
  | list items =>
    have items_eq := Form.list.inj same
    rw [itemsUnplaced_eq_map, itemsUnplaced_eq_map] at items_eq
    exact ⟨items, rfl, items_eq⟩
  | _ => cases same

namespace Grammar

open HclLint.Hcl.Parser

variable {body : String} {elements : List Expr} {c next : Cursor} {depth : Nat} {e : Expr}

/-- An expression that starts with neither bracket nor brace is not taken apart. -/
theorem isTakenApart_of_read {setting : Setting} {x : Char}
    (read : (levelOf (depth + 2)).expr setting c = .read e next)
    (first : c.rest.head? = some x) (other : x ≠ '[' ∧ x ≠ '\x7b') :
    e.form.isTakenApart = false := by
  rw [Bool.eq_false_iff]
  intro apart
  obtain ⟨y, opens, sign⟩ : ∃ y, e.form.opener? = some y ∧ (y = '[' ∨ y = '\x7b') := by
    cases form : e.form with
    | list => exact ⟨_, rfl, .inl rfl⟩
    | object => exact ⟨_, rfl, .inr rfl⟩
    | _ =>
      rw [form] at apart
      cases apart
  have plain : e.form.isGrown = false := by
    cases form : e.form with
    | traversal | conditional | binary =>
      rw [form] at apart
      cases apart
    | _ => rfl
  rw [← levelWithout_false] at read
  obtain ⟨after, term⟩ := term_of_expr read plain
  obtain ⟨rest, same⟩ := exists_rest_of_opener term opens
  rw [same] at first
  obtain rfl := Option.some.inj first
  exact sign.elim other.1 other.2

/-! ## Lists -/

/-- A list that is read alone is read in front of everything. -/
theorem reads_termAt_of_isListOf (list : IsListOf body elements)
    (deep : 2 * (body.toList.length + 1) ≤ depth) (rest : List Char) :
    Reads (termAt (levelOf depth) .line) ('[' :: (body.toList ++ ']' :: rest))
      (·.1.form.unplaced = (Form.list elements).unplaced) rest := by
  obtain ⟨e, alone, form⟩ := list
  obtain ⟨last, read, _, whole⟩ := read_of_readWithout alone
  have length : (bracketed body).toList.length = body.toList.length + 1 + 1 := by
    rw [toList_bracketed, List.length_cons, List.length_append, List.length_singleton]
  -- Two levels lie between the expression and its term.
  have enough : depthOf (bracketed body).toList = 3 * (bracketed body).toList.length + 1 + 2 := rfl
  rw [enough] at read
  obtain ⟨after, term⟩ := term_of_expr read (by rw [form]; rfl)
  have passes : (Cursor.ofText (bracketed body).toList).Passes (bracketed body).toList last := by
    have passes :=
      passes_text_of_termAt (fun text => isSound_levelWithout (isAcquired_isIn text) _ _) term
    have same := passes.1
    rw [whole, List.append_nil] at same
    rwa [← show (bracketed body).toList = e.text.toList from same] at passes
  have agrees (k : Frame) := agrees_of_weaker k
    (fun form (refused : false = true) => by cases refused)
    (show 2 * (body.toList.length + 1) ≤ 3 * (bracketed body).toList.length + 1 by omega) deep
  obtain ⟨_, _, again⟩ := reads_termAt_of_opener agrees rfl term (by rw [form]; rfl) (by decide)
    passes (Nat.le_of_eq length) rest
  rw [levelWithout_false, toList_bracketed, form] at again
  simpa using again

/-- A list that is read in a text without a doubled `<` is read alone. -/
theorem exists_isListOf_of_read (lacks : LacksMark c.rest)
    (deep : 2 * (c.rest.length + 1) ≤ depth + 2)
    (read : (levelOf (depth + 2)).expr .line c = .read e next) (form : e.form = .list elements) :
    ∃ body items, e.text = bracketed body ∧ IsListOf body items ∧
      items.map Expr.unplaced = elements.map Expr.unplaced := by
  have length := length_text_le read
  -- Where no heredoc starts none is refused, and so the list may be read in another text.
  rw [← (((agreesOn_levelWithout (depth + 2)).expr .line) lacks).1] at read
  obtain ⟨body, e', whole, alone, same⟩ := exists_readWithout_of_opener (fun _ => id) rfl (by omega)
    read (by rw [form]; rfl) (show '[' ≠ '<' by decide)
  rw [form] at same
  obtain ⟨items, form', items_eq⟩ := exists_items_of_unplaced same
  obtain written : e.text = bracketed (String.ofList body) := by
    rw [← String.toList_inj, whole, toList_bracketed, String.toList_ofList]
    rfl
  exact ⟨_, items, written, ⟨e', written ▸ alone, form'⟩, items_eq⟩

/-- An expression of a text that is written like a list that is read alone is the list. -/
theorem form_of_isListOf (list : IsListOf body elements)
    (deep : 2 * (c.rest.length + 1) ≤ depth + 2)
    (read : (levelOf (depth + 2)).expr .line c = .read e next)
    (written : e.text = bracketed body) : e.form.unplaced = (Form.list elements).unplaced := by
  have sound (text : List Char) : (levelOf (depth + 1)).IsSound text (·.IsIn text) :=
    isSound_levelOf (isAcquired_isIn text) (depth + 1)
  have passes := passes_text_of_expr read
  rw [written, toList_bracketed] at passes
  obtain ⟨⟨first, after⟩, middle, term, grows⟩ := bind_eq_read_iff.mp read
  obtain ⟨text, offset⟩ := c
  obtain rfl : text = '[' :: (body.toList ++ ']' :: next.rest) := by simpa using passes.1
  rw [List.length_cons, List.length_append, List.length_cons] at deep
  have enough : 2 * (body.toList.length + 1) ≤ depth := by omega
  obtain ⟨a, place, again, same⟩ := reads_termAt_of_isListOf list enough next.rest offset
  obtain ⟨rfl, rfl⟩ := Outcome.read.inj (again.symm.trans term)
  -- The list is all of the text of the expression, so that nothing was added behind it.
  obtain ⟨rfl, _⟩ | ⟨less, _⟩ := (grows_of_extend grows).text_eq sound
  · exact same
  · exact absurd less (Nat.lt_irrefl _)

/-! ## Members -/

/-- Nothing is lost of the members of a term. -/
theorem isKept_of_mem_members {text : List Char} {setting : Setting} (here : c.IsIn text)
    (read : (levelOf (depth + 2)).expr setting c = .read e next) (plain : e.form.isGrown = false) :
    ∀ member ∈ e.form.members, IsKept member := by
  rw [← levelWithout_false] at read
  obtain ⟨after, term⟩ := term_of_expr read plain
  rw [levelWithout_false] at term
  obtain ⟨x, p, _, reads, marked⟩ := exists_readsTerm term
  have made := makes_of_readsTerm (isSound_isKept text depth) reads here (read_of_markedWith marked)
  obtain ⟨_, built | simple⟩ := made
  · exact built.2
  · simp [members_of_readsPlain simple]

/-- Nothing is lost of the elements of a list. -/
theorem isKept_of_isListOf (list : IsListOf body elements) :
    ∀ element ∈ elements, IsKept element := by
  obtain ⟨e, alone, form⟩ := list
  -- What is kept is known of the levels that refuse nothing.
  obtain ⟨e', again, same⟩ := readExpr_of_readWithout alone
  obtain ⟨next, read, _⟩ := read_of_readAll again
  have unplaced : e'.form.unplaced = (Form.list elements).unplaced := by
    rw [← form, ← Expr.form_unplaced, same, Expr.form_unplaced]
  obtain ⟨items, form', items_eq⟩ := exists_items_of_unplaced unplaced
  have read : (levelOf (3 * (bracketed body).toList.length + 1 + 2)).expr .line
      (.ofText (bracketed body).toList) = .read e' next := read
  have kept := isKept_of_mem_members (Cursor.isIn_ofText _) read (by rw [form']; rfl)
  rw [form'] at kept
  intro element member
  obtain ⟨item, inItems, same⟩ : ∃ item ∈ items, item.unplaced = element.unplaced := by
    rw [← List.mem_map, items_eq]
    exact List.mem_map_of_mem member
  have text : item.text = element.text := by
    rw [← Expr.text_unplaced, same, Expr.text_unplaced]
  have here := kept item inItems
  rw [IsKept, Model.keptText, text] at here
  exact here

end Grammar

end HclLint.Hcl
