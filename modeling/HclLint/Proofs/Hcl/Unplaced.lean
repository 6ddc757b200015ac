/-
# Expressions wherever they stand

Reading keeps for every expression the place where it starts. Two texts that hold one expression
at different places are read as the same expression but for these places, and so everything about
an expression that does not ask where it stands is the same for both.

## Main definitions

* `Expr.unplaced`: an expression with all its parts put at the start of a text.

## Main statements

* `Expr.marks_unplaced`: the outline of an expression does not depend on its place.
* `entriesOf_unplaced`: nor do the entries of an object.
-/

import HclLint.Hcl.Grammar.Operand

namespace HclLint.Hcl

mutual

/-- The expression with all its parts put at the start of a text. -/
def Expr.unplaced : Expr → Expr
  | .mk extent form => .mk ⟨0, extent.text⟩ form.unplaced

def Form.unplaced : Form → Form
  | .null => .null
  | .bool value => .bool value
  | .number value => .number value
  | .string value => .string value
  | .template parts => .template (partsUnplaced parts)
  | .heredoc delimiter parts => .heredoc delimiter (partsUnplaced parts)
  | .list items => .list (itemsUnplaced items)
  | .object entries => .object (entriesUnplaced entries)
  | .parens inner => .parens inner.unplaced
  | .variable name => .variable name
  | .conditional test yes no => .conditional test.unplaced yes.unplaced no.unplaced
  | .call name arguments spread => .call name (itemsUnplaced arguments) spread
  | .traversal root path => .traversal root.unplaced (pathUnplaced path)
  | .unary op operand => .unary op operand.unplaced
  | .binary op left right => .binary op left.unplaced right.unplaced
  | .listFor names collection item filter =>
    .listFor names collection.unplaced item.unplaced (filterUnplaced filter)
  | .objectFor names collection key value grouped filter =>
    .objectFor names collection.unplaced key.unplaced value.unplaced grouped
      (filterUnplaced filter)

def Part.unplaced : Part → Part
  | .literal text => .literal text
  | .interpolation trim inner => .interpolation trim inner.unplaced
  | .branch test yes no trims =>
    .branch test.unplaced (partsUnplaced yes) (elseUnplaced no) trims
  | .loop names collection body trims =>
    .loop names collection.unplaced (partsUnplaced body) trims

def Step.unplaced : Step → Step
  | .attribute name => .attribute name
  | .legacyIndex index => .legacyIndex index
  | .index key => .index key.unplaced
  | .attributeSplat => .attributeSplat
  | .fullSplat => .fullSplat

def partsUnplaced : List Part → List Part
  | [] => []
  | part :: rest => part.unplaced :: partsUnplaced rest

def itemsUnplaced : List Expr → List Expr
  | [] => []
  | item :: rest => item.unplaced :: itemsUnplaced rest

def entriesUnplaced : List (Expr × Expr) → List (Expr × Expr)
  | [] => []
  | (key, value) :: rest => (key.unplaced, value.unplaced) :: entriesUnplaced rest

def pathUnplaced : List Step → List Step
  | [] => []
  | step :: rest => step.unplaced :: pathUnplaced rest

def filterUnplaced : Option Expr → Option Expr
  | none => none
  | some test => some test.unplaced

def elseUnplaced : Option (List Part) → Option (List Part)
  | none => none
  | some parts => some (partsUnplaced parts)

end

/-- An entry of an object with its key and its value put at the start of a text. -/
def entryUnplaced (entry : Expr × Expr) : Expr × Expr := (entry.1.unplaced, entry.2.unplaced)

/-- The parts of a template are put at the start one by one, and so are the other members of a form.
-/
@[simp]
theorem partsUnplaced_eq_map (parts : List Part) :
    partsUnplaced parts = parts.map Part.unplaced := by
  induction parts with
  | nil => rfl
  | cons part rest ih => rw [partsUnplaced, ih, List.map_cons]

/-- The places of several items are forgotten one by one, as are those of entries, paths, filters
and branches below. -/
@[simp]
theorem itemsUnplaced_eq_map (items : List Expr) :
    itemsUnplaced items = items.map Expr.unplaced := by
  induction items with
  | nil => rfl
  | cons item rest ih => rw [itemsUnplaced, ih, List.map_cons]

@[simp]
theorem entriesUnplaced_eq_map (entries : List (Expr × Expr)) :
    entriesUnplaced entries = entries.map entryUnplaced := by
  induction entries with
  | nil => rfl
  | cons entry rest ih => rw [entriesUnplaced, ih, List.map_cons, entryUnplaced]

@[simp]
theorem pathUnplaced_eq_map (path : List Step) : pathUnplaced path = path.map Step.unplaced := by
  induction path with
  | nil => rfl
  | cons step rest ih => rw [pathUnplaced, ih, List.map_cons]

@[simp]
theorem filterUnplaced_eq_map (filter : Option Expr) :
    filterUnplaced filter = filter.map Expr.unplaced := by
  cases filter <;> rfl

@[simp]
theorem elseUnplaced_eq_map (no : Option (List Part)) :
    elseUnplaced no = no.map (List.map Part.unplaced) := by
  cases no <;> simp [elseUnplaced]

/-- An expression keeps its text wherever it is put. -/
@[simp]
theorem Expr.text_unplaced (e : Expr) : e.unplaced.text = e.text := by
  cases e with
  | mk extent form => rfl

/-- Forgetting the places of an expression forgets those of its form. -/
@[simp]
theorem Expr.form_unplaced (e : Expr) : e.unplaced.form = e.form.unplaced := by
  cases e with
  | mk extent form => rfl

/-- Expressions are the same but for their places if their texts are, and their forms. -/
theorem Expr.unplaced_eq {e e' : Expr} (text : e'.text = e.text)
    (form : e'.form.unplaced = e.form.unplaced) : e'.unplaced = e.unplaced := by
  cases e with
  | mk extent f =>
    cases e' with
    | mk extent' f' =>
      have text : extent'.text = extent.text := text
      have form : f'.unplaced = f.unplaced := form
      rw [Expr.unplaced, Expr.unplaced, text, form]

/-! ## Outlines -/

mutual

/-- The outline of an expression has no places. The kinds of syntax are treated together, along the
tree. -/
theorem Expr.marks_unplaced : ∀ e : Expr, e.unplaced.marks = e.marks
  | .mk _ form => form.marks_unplaced

/-- The outline of a form is told by its members, none of which asks for its place. -/
theorem Form.marks_unplaced : ∀ form : Form, form.unplaced.marks = form.marks
  | .null | .bool _ | .number _ | .string _ | .variable _ => rfl
  | .template parts => by
    simp only [Form.unplaced, Form.marks, partsMarks_unplaced parts, partsUnplaced_eq_map,
      List.length_map]
  | .heredoc delimiter parts => by
    simp only [Form.unplaced, Form.marks, partsMarks_unplaced parts, partsUnplaced_eq_map,
      List.length_map]
  | .list items => by
    simp only [Form.unplaced, Form.marks, itemsMarks_unplaced items, itemsUnplaced_eq_map,
      List.length_map]
  | .object entries => by
    simp only [Form.unplaced, Form.marks, entriesMarks_unplaced entries, entriesUnplaced_eq_map,
      List.length_map]
  | .parens inner => by simp only [Form.unplaced, Form.marks, inner.marks_unplaced]
  | .conditional test yes no => by
    simp only [Form.unplaced, Form.marks, test.marks_unplaced, yes.marks_unplaced,
      no.marks_unplaced]
  | .call name arguments spread => by
    simp only [Form.unplaced, Form.marks, itemsMarks_unplaced arguments, itemsUnplaced_eq_map,
      List.length_map]
  | .traversal root path => by
    simp only [Form.unplaced, Form.marks, root.marks_unplaced, pathMarks_unplaced path,
      pathUnplaced_eq_map, List.length_map]
  | .unary op operand => by simp only [Form.unplaced, Form.marks, operand.marks_unplaced]
  | .binary op left right => by
    simp only [Form.unplaced, Form.marks, left.marks_unplaced, right.marks_unplaced]
  | .listFor names collection item filter => by
    simp only [Form.unplaced, Form.marks, collection.marks_unplaced, item.marks_unplaced,
      filterUnplaced_eq_map,
      filterMarks_unplaced filter]
  | .objectFor names collection key value grouped filter => by
    simp only [Form.unplaced, Form.marks, collection.marks_unplaced, key.marks_unplaced,
      value.marks_unplaced, filterUnplaced_eq_map,
      filterMarks_unplaced filter]

theorem Part.marks_unplaced : ∀ part : Part, part.unplaced.marks = part.marks
  | .literal _ => rfl
  | .interpolation trim inner => by simp only [Part.unplaced, Part.marks, inner.marks_unplaced]
  | .branch test yes no trims => by
    simp only [Part.unplaced, Part.marks, test.marks_unplaced, partsMarks_unplaced yes,
      elseMarks_unplaced no, elseUnplaced_eq_map, partsUnplaced_eq_map, List.length_map]
  | .loop names collection body trims => by
    simp only [Part.unplaced, Part.marks, collection.marks_unplaced, partsMarks_unplaced body,
      partsUnplaced_eq_map, List.length_map]

theorem Step.marks_unplaced : ∀ step : Step, step.unplaced.marks = step.marks
  | .attribute _ | .legacyIndex _ | .attributeSplat | .fullSplat => rfl
  | .index key => by simp only [Step.unplaced, Step.marks, key.marks_unplaced]

theorem partsMarks_unplaced : ∀ parts : List Part,
    partsMarks (parts.map Part.unplaced) = partsMarks parts
  | [] => rfl
  | part :: rest => by
    simp only [List.map_cons, partsMarks, part.marks_unplaced, partsMarks_unplaced rest]

theorem itemsMarks_unplaced : ∀ items : List Expr,
    itemsMarks (items.map Expr.unplaced) = itemsMarks items
  | [] => rfl
  | item :: rest => by
    simp only [List.map_cons, itemsMarks, item.marks_unplaced, itemsMarks_unplaced rest]

theorem entriesMarks_unplaced : ∀ entries : List (Expr × Expr),
    entriesMarks (entries.map entryUnplaced) = entriesMarks entries
  | [] => rfl
  | (key, value) :: rest => by
    simp only [List.map_cons, entryUnplaced, entriesMarks, key.marks_unplaced,
      value.marks_unplaced, entriesMarks_unplaced rest]

theorem pathMarks_unplaced : ∀ path : List Step,
    pathMarks (path.map Step.unplaced) = pathMarks path
  | [] => rfl
  | step :: rest => by
    simp only [List.map_cons, pathMarks, step.marks_unplaced, pathMarks_unplaced rest]

theorem filterMarks_unplaced : ∀ filter : Option Expr,
    filterMarks (filter.map Expr.unplaced) = filterMarks filter
  | none => rfl
  | some test => by simp only [Option.map_some, filterMarks, test.marks_unplaced]

theorem elseMarks_unplaced : ∀ no : Option (List Part),
    elseMarks (no.map (List.map Part.unplaced)) = elseMarks no
  | none => rfl
  | some parts => by
    simp only [Option.map_some, elseMarks, partsMarks_unplaced parts, List.length_map]

end

namespace Grammar

/-! ## Heredocs -/

/-- Appending text touches literals only. -/
theorem appendText_unplaced (text : List Char) (parts : List Part) :
    (appendText text parts).map Part.unplaced = appendText text (parts.map Part.unplaced) := by
  induction parts using appendText.induct with
  | case1 => rfl
  | case2 before => rfl
  | case3 part rest other ih =>
    cases part with
    | literal before =>
      cases rest with
      | nil => exact absurd rfl (other before rfl)
      | cons next rest =>
        simp only [appendText, List.map_cons] at ih ⊢
        rw [ih]
        rfl
    | _ =>
      simp only [appendText, List.map_cons] at ih ⊢
      rw [ih]
      simp [Part.unplaced, appendText]

/-- The indentation of a heredoc is that of its literals. -/
theorem indentations_unplaced (startsLine : Bool) (parts : List Part) :
    indentations startsLine (parts.map Part.unplaced) = indentations startsLine parts := by
  induction parts generalizing startsLine with
  | nil => rfl
  | cons part rest ih => cases part <;> simp [Part.unplaced, indentations, ih]

/-- So removing it does not ask where its parts stand. -/
theorem dedentBy_unplaced (width : Nat) (startsLine : Bool) (parts : List Part) :
    (dedentBy width startsLine parts).map Part.unplaced =
      dedentBy width startsLine (parts.map Part.unplaced) := by
  induction parts generalizing startsLine with
  | nil => rfl
  | cons part rest ih => cases part <;> simp [Part.unplaced, dedentBy, ih]

/-- Which indentation a heredoc has does not depend on where its parts stand. -/
theorem dedent_unplaced (parts : List Part) :
    (dedent parts).map Part.unplaced = dedent (parts.map Part.unplaced) := by
  rw [dedent, dedent, indentations_unplaced]
  split
  · exact dedentBy_unplaced _ _ _
  · rfl

/-! ## Objects -/

/-- Whether two keys are the same is told by their outlines, wherever they stand. -/
theorem putEntry_unplaced (entry : Expr × Expr) (entries : List (Expr × Expr)) :
    (putEntry entry entries).map entryUnplaced =
      putEntry (entryUnplaced entry) (entries.map entryUnplaced) := by
  induction entries with
  | nil => rfl
  | cons other rest ih =>
    simp only [putEntry, List.map_cons, entryUnplaced, Expr.marks_unplaced]
    split
    · rfl
    · rw [List.map_cons, ih]
      rfl

/-- Which entries an object keeps does not depend on where they stand. -/
theorem entriesOf_unplaced (items : List (Expr × Expr)) :
    (entriesOf items).map entryUnplaced = entriesOf (items.map entryUnplaced) := by
  have onto (before : List (Expr × Expr)) :
      (items.foldl (fun entries item => putEntry item entries) before).map entryUnplaced =
        (items.map entryUnplaced).foldl (fun entries item => putEntry item entries)
          (before.map entryUnplaced) := by
    induction items generalizing before with
    | nil => rfl
    | cons item items ih =>
      rw [List.foldl_cons, List.map_cons, List.foldl_cons, ih, putEntry_unplaced]
  exact onto []

end Grammar

end HclLint.Hcl
