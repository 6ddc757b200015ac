/-
# One list, however it is spelled

A list may be written out as the value of an attribute, in parentheses, as the only thing in a
template, or as the default of a variable that the attribute refers to. The elements are cut out of
three different texts for it: the file, the text of the attribute's token, and the file with the
variable. They have the same kinds and the same texts all the same, and so they denote the same.
They differ in where they stand: those of a list that is written out stand where they are written,
and all others at the attribute.

A heredoc whose delimiter follows at once is an exception. That it is empty may be told only at the
end of the whole text, and so by what stands behind the list.

## Main definitions

* `givenExprs`: the expressions that a file gives to the attributes of its blocks.
* `IsGivenAs`: an attribute that a file gives, with what is written for it.
* `HoldsWritten`: a variable that holds what is written for it in a file.
* `Respells`: the other spellings of a list.
* `AreElements`: tokens that are the elements of a list, but for their places.

## Main statements

* `exists_isGivenAs`: what a block declares is given by an expression.
* `exists_isListOf_of_given`: a list that a file without heredocs gives can be read by itself.
* `list_however_spelled`: all spellings denote the same elements.
* `list_spellings_differ`: two spellings of a list with an empty heredoc do not.
* `list_of_block_however_spelled`: all spellings of a list that a file without heredocs gives do.
-/

import HclLint.Proofs.Eval.Composition
import HclLint.Proofs.Eval.Element
import HclLint.Proofs.Eval.ListChain
import HclLint.Proofs.Hcl.Listing
import HclLint.Proofs.Provenance.Configuration

namespace HclLint.Eval

open HclLint.Text HclLint.Hcl HclLint.Hcl.Grammar HclLint.Model

variable {table : VariableTable} {source : Source} {body text name : String}
  {elements : List Expr} {e : Expr} {a : Attribute}

/-! ## What files give -/

/-- The expressions that the attributes of a structure are given as, if it is a block. -/
def blockExprs : Item → List Expr
  | .attribute _ _ => []
  | .block _ _ _ inner => inner.filterMap fun
    | .attribute _ e => some e
    | .block .. => none

/-- The expressions that the attributes of the file's blocks are given as. -/
def givenExprs (source : Source) : List Expr :=
  ((bodyOf source).toOption.getD []).flatMap blockExprs

theorem mem_blockExprs_iff {item : Item} : e ∈ blockExprs item ↔ ∃ start kind labels inner key,
    item = .block start kind labels inner ∧ Item.attribute key e ∈ inner := by
  constructor
  · intro given
    cases item with
    | «attribute» => cases given
    | block start kind labels inner =>
      obtain ⟨item, member, same⟩ := List.mem_filterMap.mp given
      cases item with
      | «attribute» key e' =>
        obtain rfl := Option.some.inj same
        exact ⟨start, kind, labels, inner, key, rfl, member⟩
      | block => cases same
  · rintro ⟨_, _, _, _, _, rfl, member⟩
    exact List.mem_filterMap.mpr ⟨_, member, rfl⟩

theorem mem_givenExprs_iff : e ∈ givenExprs source ↔ ∃ file start kind labels inner key,
    bodyOf source = .ok file ∧ Item.block start kind labels inner ∈ file ∧
      Item.attribute key e ∈ inner := by
  rw [givenExprs, List.mem_flatMap]
  constructor
  · rintro ⟨item, member, given⟩
    obtain ⟨start, kind, labels, inner, key, rfl, inBlock⟩ := mem_blockExprs_iff.mp given
    cases read : bodyOf source with
    | error refusal =>
      rw [read] at member
      cases member
    | ok file =>
      rw [read] at member
      exact ⟨file, start, kind, labels, inner, key, rfl, member, inBlock⟩
  · rintro ⟨file, start, kind, labels, inner, key, read, member, inBlock⟩
    rw [read]
    exact ⟨_, member, mem_blockExprs_iff.mpr ⟨_, _, _, _, _, rfl, inBlock⟩⟩

/-- The file gives the attribute first, by an expression that is written as the text. -/
structure IsGivenAs (source : Source) (a : Attribute) (e : Expr) (text : String) : Prop where
  given : e ∈ givenExprs source
  written : e.text = text
  first : a.first = ⟨source.positionAt e.start, Value.ofExpr source e⟩

/-- The variable holds what some file gives by an expression that is written as the text, as it
holds its default. -/
def HoldsWritten (table : VariableTable) (name text : String) : Prop :=
  ∃ source e, e ∈ givenExprs source ∧ e.text = text ∧
    table.get name = .ok (Value.ofExpr source e)

/-- An attribute that a block declares is given by an expression, unless its first value is a
map. -/
theorem exists_isGivenAs {file inner : Body} {start : Nat} {kind : String} {labels : List String}
    (read : bodyOf source = .ok file) (block : Item.block start kind labels inner ∈ file)
    (declared : (name, a) ∈ attributesOf source inner)
    (noMap : ∀ entries, a.first.value ≠ .map entries) : ∃ e, IsGivenAs source a e e.text := by
  obtain ⟨item, member, _, first⟩ := mem_attributesOf declared List.mem_cons_self
  cases item with
  | «attribute» key e =>
    exact ⟨e, mem_givenExprs_iff.mpr ⟨file, start, kind, labels, inner, key, read, block, member⟩,
      rfl, first⟩
  | block => exact absurd (congrArg Occurrence.value first) (noMap _)

/-- The expression was read somewhere in the file. -/
def WasRead (source : Source) (e : Expr) : Prop :=
  ∃ c next, c.IsIn source.text.toList ∧
    (levelOf (Grammar.depthOf source.text.toList)).expr .line c = .read e next

theorem wasRead_of_mem_givenExprs (given : e ∈ givenExprs source) : WasRead source e := by
  obtain ⟨file, start, kind, labels, inner, key, read, block, member⟩ :=
    mem_givenExprs_iff.mp given
  -- Whatever the structure of the file, each value in it was read as an expression on a line.
  have values : Parser.Yields source.text.toList
      ((levelOf (Grammar.depthOf source.text.toList)).expr .line) (WasRead source) :=
    fun c e next here taken =>
      ⟨((isSound_levelOf (isAcquired_isIn _) _).expr .line here taken).1, c, next, here, taken⟩
  have each := forall_of_readBody (isInherited_each _ (WasRead source)) values
    (readBody_of_bodyOf read)
  obtain _ | ⟨_, _, _, inside⟩ := each _ block
  obtain ⟨_, was⟩ | _ := inside _ member
  exact was

theorem length_le_of_isIn {whole : List Char} {c : Cursor} (here : c.IsIn whole) :
    c.rest.length ≤ whole.length := by
  obtain ⟨before, same, _⟩ := here
  have lengths := congrArg List.length same
  rw [List.length_append] at lengths
  exact lengths ▸ Nat.le_add_left _ _

/-- What a file gives was read deep enough for all that is behind it. -/
theorem exists_read_of_mem_givenExprs (given : e ∈ givenExprs source) :
    ∃ depth c next, c.IsIn source.text.toList ∧ 2 * (c.rest.length + 1) ≤ depth + 2 ∧
      (levelOf (depth + 2)).expr .line c = .read e next := by
  obtain ⟨c, next, here, read⟩ := wasRead_of_mem_givenExprs given
  have inside := length_le_of_isIn here
  exact ⟨3 * source.text.toList.length + 1, c, next, here, by omega, read⟩

/-- A list that a file without a doubled `<` gives, and so without heredocs, can be read by
itself. -/
theorem exists_isListOf_of_given (lacks : LacksMark source.text.toList)
    (given : e ∈ givenExprs source) (form : e.form = .list elements) :
    ∃ body items, e.text = bracketed body ∧ IsListOf body items ∧
      items.map Expr.unplaced = elements.map Expr.unplaced := by
  obtain ⟨depth, c, next, ⟨before, same, _⟩, deep, read⟩ := exists_read_of_mem_givenExprs given
  obtain same : source.text.toList = before ++ c.rest := same
  rw [same] at lacks
  exact exists_isListOf_of_read (LacksMark.of_append _ _ lacks) deep read form

/-! ## Elements -/

/-- The tokens are the elements, but for their places: they have their kinds and their texts, and
denote what they denote. -/
structure AreElements (table : VariableTable) (elements : List Expr) (tokens : List Token) :
    Prop where
  contents : tokens.map contentOf = elements.map itemContent
  denoted : tokens.map (resolveScalar table) =
    elements.map fun element => resolveScalar table (itemToken .unknown element)

/-- What an element denotes does not depend on where it stands. -/
theorem areElements_of_contents {tokens : List Token}
    (contents : tokens.map contentOf = elements.map itemContent) :
    AreElements table elements tokens := by
  refine ⟨contents, ?_⟩
  -- A token denotes what it does by its text alone.
  have own (token : Token) :
      resolveScalar table token = resolveScalar table (elementAt .unknown (contentOf token)) :=
    resolveScalar_congr rfl
  have denoted := congrArg (List.map fun content => resolveScalar table (elementAt .unknown content))
    contents
  rw [List.map_map, List.map_map] at denoted
  refine (List.map_congr_left fun token _ => own token).trans (denoted.trans ?_)
  rfl

/-- An item that is an element but for its place has the element's kind and text. -/
theorem contentOf_tokenOf {item element : Expr} (same : item.unplaced = element.unplaced)
    (kept : IsKept element) : contentOf (tokenOf source item) = itemContent element := by
  have text : item.text = element.text := by
    rw [← Expr.text_unplaced, same, Expr.text_unplaced]
  have kind : Token.Kind.ofExpr item = .ofExpr element := by
    rw [← ofExpr_unplaced, same, ofExpr_unplaced]
  rw [IsKept, keptText, ← text] at kept
  rw [contentOf, tokenOf, itemContent, kind, keptText, kept, text]

theorem map_contentOf_tokenOf {items : List Expr}
    (same : items.map Expr.unplaced = elements.map Expr.unplaced)
    (kept : ∀ element ∈ elements, IsKept element) :
    (items.map (tokenOf source)).map contentOf = elements.map itemContent := by
  induction elements generalizing items with
  | nil =>
    rw [List.map_eq_nil_iff.mp same]
    rfl
  | cons element elements ih =>
    obtain ⟨item, more, rfl, here, others⟩ := List.map_eq_cons_iff.mp same
    obtain ⟨first, rest⟩ := List.forall_mem_cons.mp kept
    rw [List.map_cons, List.map_cons, List.map_cons, contentOf_tokenOf here first, ih others rest]

/-- What is not taken apart is kept as a token. -/
theorem ofExpr_of_single (single : e.form.isTakenApart = false) :
    Value.ofExpr source e = .scalar (tokenOf source e) := by
  obtain ⟨extent, form⟩ := e
  cases form <;> first | rfl | cases single

/-- What is kept as a token is not taken apart. -/
theorem isTakenApart_of_ofExpr {token : Token} (kept : Value.ofExpr source e = .scalar token) :
    e.form.isTakenApart = false := by
  obtain ⟨extent, form⟩ := e
  cases form <;> first | rfl | cases kept

/-- Whether the elements of a list are taken apart does not depend on their places. -/
theorem forall_isTakenApart_of_unplaced {items : List Expr}
    (same : items.map Expr.unplaced = elements.map Expr.unplaced)
    (single : ∀ element ∈ elements, element.form.isTakenApart = false) :
    ∀ item ∈ items, item.form.isTakenApart = false := by
  intro item member
  obtain ⟨element, inElements, same⟩ : ∃ element ∈ elements, element.unplaced = item.unplaced := by
    rw [← List.mem_map, ← same]
    exact List.mem_map_of_mem member
  rw [← isTakenApart_unplaced, ← Expr.form_unplaced, ← same, Expr.form_unplaced,
    isTakenApart_unplaced]
  exact single element inElements

/-- What is written like a list in a file is a list of tokens, with the contents of its elements. -/
theorem exists_items_of_isListOf (table : VariableTable) (list : IsListOf body elements)
    (single : ∀ element ∈ elements, element.form.isTakenApart = false)
    (given : e ∈ givenExprs source) (written : e.text = bracketed body) :
    ∃ items, e.form = .list items ∧
      Value.ofExpr source e = .list ((items.map (tokenOf source)).map .scalar) ∧
      AreElements table elements (items.map (tokenOf source)) := by
  obtain ⟨depth, c, next, _, deep, read⟩ := exists_read_of_mem_givenExprs given
  obtain ⟨items, form, same⟩ :=
    exists_items_of_unplaced (form_of_isListOf list deep read written)
  refine ⟨items, form, ?_,
    areElements_of_contents (map_contentOf_tokenOf same (isKept_of_isListOf list))⟩
  have values (item : Expr) (member : item ∈ items) :
      Value.ofExpr source item = .scalar (tokenOf source item) :=
    ofExpr_of_single (forall_isTakenApart_of_unplaced same single item member)
  obtain ⟨extent, _⟩ := e
  obtain rfl : _ = Form.list items := form
  change Value.list (Value.ofItems source items) = _
  rw [ofItems_eq_map, List.map_map, List.map_congr_left values]
  rfl

/-! ## Spellings -/

/-- A list that is written out gives its items, where they are written. -/
theorem resolveListAttribute_of_tokens {tokens : List Token}
    (value : a.first.value = .list (tokens.map .scalar)) :
    resolveListAttribute table a = .ok tokens := by
  rw [resolveListAttribute, value]
  change (tokens.map Value.scalar).mapM (itemOfList a.first.position) = _
  rw [mapM_eq_ok_iff, List.forall₂_map_left_iff]
  exact List.forall₂_same.mpr fun token _ => rfl

/-- What starts with neither bracket nor brace is resolved as a token with its text. -/
theorem resolveListAttribute_of_token {x : Char} (table : VariableTable)
    (given : IsGivenAs source a e text) (first : text.toList.head? = some x)
    (other : x ≠ '[' ∧ x ≠ '\x7b') :
    ∃ token, token.text = text ∧ token.position = a.first.position ∧
      resolveListAttribute table a = resolveList table token := by
  obtain ⟨depth, c, next, here, _, read⟩ := exists_read_of_mem_givenExprs given.given
  have kept : IsKept e := ((isSound_isKept _ _).expr .line here read).2
  have head : c.rest.head? = some x := by
    rw [(passes_text_of_expr read).1, given.written, List.head?_append, first]
    rfl
  have value : Value.ofExpr source e = .scalar (tokenOf source e) :=
    ofExpr_of_single (isTakenApart_of_read read head other)
  refine ⟨tokenOf source e, kept.trans given.written, ?_, ?_⟩
  · rw [given.first]
    rfl
  · rw [resolveListAttribute, given.first, value]

/-- The elements of a token stand where the token stands. -/
theorem areElements_of_contents_resolveList {token : Token}
    (contents : contents (resolveList table token) = some (elements.map itemContent)) :
    ∃ tokens, resolveList table token = .ok tokens ∧ AreElements table elements tokens ∧
      ∀ element ∈ tokens, element.position = token.position := by
  obtain ⟨tokens, found, same⟩ := Option.map_eq_some_iff.mp contents
  have resolved := eq_ok_of_toOption_eq_some found
  refine ⟨tokens, resolved, areElements_of_contents same, fun element member => ?_⟩
  obtain ⟨items, _, moved⟩ := except_bind_eq_ok.mp resolved
  obtain rfl := Except.ok.inj moved
  obtain ⟨item, _, rfl⟩ := List.mem_map.mp member
  rfl

/-- The other spellings of a list: in parentheses, in a template that holds nothing else, and as a
variable that holds it. -/
inductive Respells (table : VariableTable) (body : String) : String → Prop
  | parens : Respells table body ("(" ++ bracketed body ++ ")")
  | template : Respells table body (quoted ("$\x7b" ++ bracketed body ++ "\x7d"))
  | reference {name : String} (known : isIdentifier name = true)
      (holds : HoldsWritten table name (bracketed body)) : Respells table body ("var." ++ name)

theorem contentsOf_of_list (form : e.form = .list elements) :
    contentsOf table e = some (elements.map itemContent) := by
  obtain ⟨extent, _⟩ := e
  obtain rfl : _ = Form.list elements := form
  change some ((elements.map (itemToken _)).map contentOf) = _
  rw [List.map_map]
  rfl

/-- Parentheses and templates around a list denote its elements. -/
theorem contents_resolveList_of_wraps {wrapped : String} {token : Token}
    (list : IsListOf body elements) (wraps : Wraps (bracketed body) wrapped)
    (spelled : token.text = wrapped) :
    contents (resolveList table token) = some (elements.map itemContent) := by
  obtain ⟨e, read, form⟩ := list
  obtain ⟨e', read', same⟩ := wraps.exists_read read
  obtain ⟨e'', again, unplaced⟩ := readExpr_of_readWithout read'
  rw [contents_resolveList (parse_eq_ok (spelled ▸ again)), contentsOf_congr unplaced,
    (same table).2, contentsOf_of_list form]

/-- A reference denotes the elements of the list that its variable holds. -/
theorem contents_resolveList_of_reference {tokens : List Token} {token : Token}
    (known : isIdentifier name = true) (spelled : token.text = "var." ++ name)
    (current : table.get name = .ok (.list (tokens.map .scalar))) :
    contents (resolveList table token) = some (tokens.map contentOf) := by
  obtain ⟨⟨extent, _⟩, read, ⟨rootExtent, _⟩, rfl, rfl⟩ := readExpr_reference known
  rw [contents_resolveList (parse_eq_ok (spelled ▸ read))]
  -- The name is all there is of the reference, so that nothing is looked up inside the value.
  have found : lookup table extent.text (.mk rootExtent (.variable "var")) [.attribute name] =
      .ok (name, .list (tokens.map .scalar)) := by
    rw [lookup]
    simp only [variableReference?, Expr.form, current]
    rfl
  rw [contentsOf, listExpr, listForm, found]
  change contents ((tokens.map Value.scalar).mapM (itemOfVariable name)) = _
  rw [mapM_itemOfVariable_eq_ok_iff.mpr rfl]
  rfl

/-- Every other spelling of a list denotes its elements. -/
theorem Respells.contents_resolveList {token : Token} (list : IsListOf body elements)
    (single : ∀ element ∈ elements, element.form.isTakenApart = false)
    (respells : Respells table body token.text) :
    contents (resolveList table token) = some (elements.map itemContent) := by
  generalize spelled : token.text = text at respells
  cases respells with
  | parens => exact contents_resolveList_of_wraps list (.parens .self) spelled
  | template =>
    refine contents_resolveList_of_wraps list (.template .self) (spelled.trans ?_)
    simp [templateContent, String.append_assoc]
  | reference known holds =>
    obtain ⟨source, e, given, written, current⟩ := holds
    obtain ⟨items, _, value, are⟩ := exists_items_of_isListOf table list single given written
    rw [contents_resolveList_of_reference known spelled (current.trans (congrArg _ value)),
      are.contents]

/-- Another spelling of a list starts with neither bracket nor brace. -/
theorem Respells.exists_head (respells : Respells table body text) :
    ∃ x, text.toList.head? = some x ∧ x ≠ '[' ∧ x ≠ '\x7b' := by
  cases respells with
  | parens => exact ⟨'(', by simp, by decide, by decide⟩
  | template => exact ⟨'"', by simp [quoted], by decide, by decide⟩
  | reference => exact ⟨'v', by simp, by decide, by decide⟩

section Spelled

variable (list : IsListOf body elements)
  (single : ∀ element ∈ elements, element.form.isTakenApart = false)
include list single

/-- An attribute that is written like the list denotes its elements, where they are written. -/
theorem exists_items_of_written (table : VariableTable)
    (given : IsGivenAs source a e (bracketed body)) : ∃ items, e.form = .list items ∧
      resolveListAttribute table a = .ok (items.map (tokenOf source)) ∧
      AreElements table elements (items.map (tokenOf source)) := by
  obtain ⟨items, form, value, are⟩ :=
    exists_items_of_isListOf table list single given.given given.written
  refine ⟨items, form, resolveListAttribute_of_tokens ?_, are⟩
  rw [given.first, value]

/-- An attribute with another spelling of the list denotes the same elements, where the attribute
stands. -/
theorem Respells.exists_tokens (respells : Respells table body text)
    (given : IsGivenAs source a e text) : ∃ tokens, resolveListAttribute table a = .ok tokens ∧
      AreElements table elements tokens ∧ ∀ token ∈ tokens, token.position = a.first.position := by
  obtain ⟨x, first, other⟩ := respells.exists_head
  obtain ⟨token, spelled, place, same⟩ := resolveListAttribute_of_token table given first other
  rw [same, ← place]
  subst spelled
  exact areElements_of_contents_resolveList (respells.contents_resolveList list single)

end Spelled

/-- **A list denotes the same elements, however it is spelled.** Take a list that can be read by
itself, that holds no empty heredoc, and none of whose elements is a list or an object. An attribute
that is written like this denotes the elements, each where it is written. In parentheses, in a
template that holds nothing else, and as a variable that holds what is written like this in whatever
file, the attribute denotes the same elements, all of them at the attribute. -/
theorem list_however_spelled (list : IsListOf body elements)
    (single : ∀ element ∈ elements, element.form.isTakenApart = false) (table : VariableTable) :
    (∀ source a e, IsGivenAs source a e (bracketed body) → ∃ items, e.form = .list items ∧
      resolveListAttribute table a = .ok (items.map (tokenOf source)) ∧
      AreElements table elements (items.map (tokenOf source))) ∧
    ∀ text, Respells table body text → ∀ source a e, IsGivenAs source a e text →
      ∃ tokens, resolveListAttribute table a = .ok tokens ∧ AreElements table elements tokens ∧
        ∀ token ∈ tokens, token.position = a.first.position :=
  ⟨fun _ _ _ given => exists_items_of_written list single table given,
    fun _ respells _ _ _ given => respells.exists_tokens list single given⟩

/-- What stands between the brackets of a list with a string and a reference. -/
def namesBody : String := " \"a\", var.x # y\n  "

/-- A variable that holds the list, and an attribute for each of its spellings. -/
def namesFile : Source := ⟨"main.tf", "variable \"v\" \x7b\n  default = [" ++ namesBody ++
  "]\n\x7d\nresource \"x\" \"y\" \x7b\n  plain = [" ++ namesBody ++
  "]\n  parens = ([" ++ namesBody ++ "])\n  template = \"$\x7b[" ++ namesBody ++
  "]\x7d\"\n  reference = var.v\n\x7d\n"⟩

/-- The attribute that is given by an expression of a file. -/
def attributeOf (source : Source) (e : Expr) : Attribute :=
  ⟨⟨source.positionAt e.start, Value.ofExpr source e⟩, []⟩

/-- A table in which the variable holds the value of an expression of a file. -/
def tableHolding (source : Source) (name : String) (e : Expr) : VariableTable :=
  .declare .empty ⟨name, .unknown, some (Value.ofExpr source e)⟩

theorem get_tableHolding : (tableHolding source name e).get name = .ok (Value.ofExpr source e) := by
  rw [tableHolding, VariableTable.get_declare, if_pos rfl]
  rfl

/-- Whether the expression is a list with these contents, none of which is taken apart. -/
def listsContents (contents : List (Token.Kind × String)) (e : Expr) : Bool :=
  match e.form with
  | .list items => items.map itemContent = contents ∧ items.all (!·.form.isTakenApart)
  | _ => false

theorem exists_of_listsContents {contents : List (Token.Kind × String)}
    (lists : listsContents contents e) :
    ∃ elements, e.form = .list elements ∧ elements.map itemContent = contents ∧
      ∀ element ∈ elements, element.form.isTakenApart = false := by
  unfold listsContents at lists
  split at lists
  next items form => exact ⟨items, form, by simpa using lists⟩
  next => cases lists

/-- Whether the expression is given by one token with this content. -/
def holdsContent (source : Source) (content : Token.Kind × String) (e : Expr) : Bool :=
  match Value.ofExpr source e with
  | .list [.scalar token] => contentOf token = content
  | _ => false

theorem exists_of_holdsContent {content : Token.Kind × String}
    (holds : holdsContent source content e) :
    ∃ token, Value.ofExpr source e = .list [.scalar token] ∧ contentOf token = content := by
  unfold holdsContent at holds
  split at holds
  next token value => exact ⟨token, value, of_decide_eq_true holds⟩
  next => cases holds

/-- The string and the reference are the elements in all four spellings. -/
theorem list_however_spelled_names : ∃ elements, IsListOf namesBody elements ∧
    elements.map itemContent = [(.string, "\"a\""), (.expression, "var.x")] ∧
    ∃ held plain parens template reference,
      givenExprs namesFile = [held, plain, parens, template, reference] ∧
      ∀ e ∈ [plain, parens, template, reference], ∃ tokens,
        resolveListAttribute (tableHolding namesFile "v" held) (attributeOf namesFile e) =
            .ok tokens ∧
          AreElements (tableHolding namesFile "v" held) elements tokens := by
  have alone : (readWithout Form.isEmptyHeredoc (bracketed namesBody)).toOption.any
      (listsContents [(.string, "\"a\""), (.expression, "var.x")]) = true := by decide +kernel
  have texts : (givenExprs namesFile).map (·.text) = [bracketed namesBody, bracketed namesBody,
      "(" ++ bracketed namesBody ++ ")", quoted ("$\x7b" ++ bracketed namesBody ++ "\x7d"),
      "var.v"] := by decide +kernel
  obtain ⟨e, read, elements, form, contents, single⟩ :
      ∃ e, readWithout Form.isEmptyHeredoc (bracketed namesBody) = .ok e ∧
        ∃ elements, e.form = .list elements ∧
          elements.map itemContent = [(.string, "\"a\""), (.expression, "var.x")] ∧
          ∀ element ∈ elements, element.form.isTakenApart = false := by
    obtain ⟨e, read, lists⟩ := exists_eq_ok_of_any alone
    exact ⟨e, read, exists_of_listsContents lists⟩
  obtain ⟨held, _, file, heldText, texts⟩ := List.map_eq_cons_iff.mp texts
  obtain ⟨plain, _, rfl, plainText, texts⟩ := List.map_eq_cons_iff.mp texts
  obtain ⟨parens, _, rfl, parensText, texts⟩ := List.map_eq_cons_iff.mp texts
  obtain ⟨template, _, rfl, templateText, texts⟩ := List.map_eq_cons_iff.mp texts
  obtain ⟨reference, _, rfl, referenceText, texts⟩ := List.map_eq_cons_iff.mp texts
  obtain rfl := List.map_eq_nil_iff.mp texts
  have list : IsListOf namesBody elements := ⟨e, read, form⟩
  have given {e : Expr} {text : String} (member : e ∈ givenExprs namesFile)
      (written : e.text = text) : IsGivenAs namesFile (attributeOf namesFile e) e text :=
    ⟨member, written, rfl⟩
  obtain ⟨written, spelled⟩ :=
    list_however_spelled list single (tableHolding namesFile "v" held)
  have holds : HoldsWritten (tableHolding namesFile "v" held) "v" (bracketed namesBody) :=
    ⟨namesFile, held, by simp [file], heldText, get_tableHolding⟩
  refine ⟨elements, list, contents, held, plain, parens, template, reference, file, ?_⟩
  simp only [List.forall_mem_cons]
  refine ⟨?_, ?_, ?_, ?_, List.forall_mem_nil _⟩
  · obtain ⟨items, _, found, are⟩ := written _ _ _ (given (by simp [file]) plainText)
    exact ⟨_, found, are⟩
  · obtain ⟨tokens, found, are, _⟩ :=
      spelled _ .parens _ _ _ (given (by simp [file]) parensText)
    exact ⟨tokens, found, are⟩
  · obtain ⟨tokens, found, are, _⟩ :=
      spelled _ .template _ _ _ (given (by simp [file]) templateText)
    exact ⟨tokens, found, are⟩
  · obtain ⟨tokens, found, are, _⟩ :=
      spelled _ (.reference (by decide +kernel) holds) _ _ _ (given (by simp [file]) referenceText)
    exact ⟨tokens, found, are⟩

/-- An empty heredoc in parentheses. Behind its delimiter stands what opens a template there, unless
the text ends behind it. -/
def voidElement : String := "(<<E\nE # $\x7b\"\n)"

/-- The list of the element as it is written out. -/
def voidPlainFile : Source :=
  ⟨"main.tf", "resource \"x\" \"y\" \x7b\n  list = [" ++ voidElement ++ "]\n\x7d"⟩

/-- The list of the element in a template that holds nothing else. -/
def voidTemplateFile : Source :=
  ⟨"main.tf", "resource \"x\" \"y\" \x7b\n  list = \"$\x7b[" ++ voidElement ++
    "]\x7d\"\n\x7d"⟩

/-- Without the condition on empty heredocs the spellings differ: the one element is an expression
by itself, in parentheses, and a list of it that is written out denotes it, whatever the table. But
the text of the template with that list is refused, though the file with the template is not. -/
theorem list_spellings_differ :
    (∃ element, readExpr voidElement = .ok element ∧ Token.Kind.ofExpr element = .expression) ∧
    ∃ plain template,
      IsGivenAs voidPlainFile (attributeOf voidPlainFile plain) plain (bracketed voidElement) ∧
      IsGivenAs voidTemplateFile (attributeOf voidTemplateFile template) template
        (quoted ("$\x7b" ++ bracketed voidElement ++ "\x7d")) ∧
      ∀ table,
        contents (resolveListAttribute table (attributeOf voidPlainFile plain)) =
          some [(.expression, voidElement)] ∧
        ∃ refusal, resolveListAttribute table (attributeOf voidTemplateFile template) =
          .error refusal := by
  have alone : (readExpr voidElement).toOption.any (Token.Kind.ofExpr · = .expression) = true := by
    decide +kernel
  have plain : (givenExprs voidPlainFile).any (fun e => e.text = bracketed voidElement &&
      holdsContent voidPlainFile (.expression, voidElement) e) = true := by decide +kernel
  have template : (givenExprs voidTemplateFile).any (fun e =>
      e.text = quoted ("$\x7b" ++ bracketed voidElement ++ "\x7d")) = true := by decide +kernel
  have refused : (readExpr (quoted ("$\x7b" ++ bracketed voidElement ++ "\x7d"))).toOption.isNone =
      true := by decide +kernel
  obtain ⟨plain, inPlain, holds⟩ := List.any_eq_true.mp plain
  obtain ⟨template, inTemplate, templateText⟩ := List.any_eq_true.mp template
  obtain ⟨plainText, holds⟩ := Bool.and_eq_true_iff.mp holds
  have element := exists_eq_ok_of_any alone
  simp only [decide_eq_true_eq] at element plainText templateText
  have given : IsGivenAs voidTemplateFile (attributeOf voidTemplateFile template) template
    (quoted ("$\x7b" ++ bracketed voidElement ++ "\x7d")) := ⟨inTemplate, templateText, rfl⟩
  refine ⟨element, plain, template, ⟨inPlain, plainText, rfl⟩, given, fun table => ⟨?_, ?_⟩⟩
  · obtain ⟨token, value, content⟩ := exists_of_holdsContent holds
    have written : (attributeOf voidPlainFile plain).first.value = .list ([token].map .scalar) :=
      value
    rw [resolveListAttribute_of_tokens written]
    exact congrArg (some [·]) content
  · obtain ⟨x, first, other⟩ := (.template : Respells table voidElement _).exists_head
    obtain ⟨token, spelled, _, same⟩ := resolveListAttribute_of_token table given first other
    cases read : readExpr token.text with
    | ok e =>
      rw [← spelled, read] at refused
      cases refused
    | error refusal =>
      refine ⟨.malformed token.text refusal.complaint, ?_⟩
      rw [same, resolveList, Eval.depthOf, listToken, parse, read]
      rfl

/-! ## Lists of blocks -/

/-- **A list of a block denotes the same elements, however it is spelled.** Take a file without a
doubled `<`, and so without heredocs. Where one of its blocks declares an attribute that is a list
of tokens, the attribute denotes the tokens. Whatever attribute spells the same list in parentheses,
in a template that holds nothing else or as a variable that holds it, denotes tokens with the same
kinds and texts, which denote the same, all of them at that attribute. -/
theorem list_of_block_however_spelled {file inner : Body} {start : Nat} {kind : String}
    {labels : List String} {tokens : List Token} (lacks : LacksMark source.text.toList)
    (read : bodyOf source = .ok file) (block : Item.block start kind labels inner ∈ file)
    (declared : (name, a) ∈ attributesOf source inner)
    (value : a.first.value = .list (tokens.map .scalar)) (table : VariableTable) :
    resolveListAttribute table a = .ok tokens ∧
    ∃ e body elements, IsGivenAs source a e (bracketed body) ∧ AreElements table elements tokens ∧
      ∀ text, Respells table body text → ∀ source' a' e', IsGivenAs source' a' e' text →
        ∃ tokens', resolveListAttribute table a' = .ok tokens' ∧
          AreElements table elements tokens' ∧
          ∀ token ∈ tokens', token.position = a'.first.position := by
  refine ⟨resolveListAttribute_of_tokens value, ?_⟩
  obtain ⟨e, given⟩ := exists_isGivenAs read block declared fun entries same => by
    cases value.symm.trans same
  rw [given.first] at value
  obtain ⟨items, form, values⟩ := ofExpr_eq_list value
  -- Each item is kept as a token, and so none of them is a list or an object.
  have kept (item : Expr) (member : item ∈ items) :
      ∃ token, Value.ofExpr source item = .scalar token := by
    obtain ⟨token, _, same⟩ := List.mem_map.mp (values ▸ List.mem_map_of_mem member)
    exact ⟨token, same.symm⟩
  have single (item : Expr) (member : item ∈ items) : item.form.isTakenApart = false :=
    isTakenApart_of_ofExpr (kept item member).choose_spec
  obtain ⟨body, elements, written, list, same⟩ := exists_isListOf_of_given lacks given.given form
  have single := forall_isTakenApart_of_unplaced same single
  have given : IsGivenAs source a e (bracketed body) := ⟨given.given, written, given.first⟩
  obtain ⟨items, _, found, are⟩ := exists_items_of_written list single table given
  obtain rfl : tokens = items.map (tokenOf source) :=
    Except.ok.inj ((resolveListAttribute_of_tokens (given.first ▸ value)).symm.trans found)
  exact ⟨e, body, elements, given, are,
    fun _ respells _ _ _ given => respells.exists_tokens list single given⟩

end HclLint.Eval
