/-
# Elements of lists, by index and on their own

A variable that holds a list of tokens can be resolved as a list, which gives its tokens, or an
element of it can be referred to by its index. The token that is reached is the same. What differs
is that behind the index the variable is being followed, and it is not while the token is resolved
on its own: a list that is found in a variable ends the evaluation, and nothing of it is entered.

So whatever the index gives, the token gives as well. The token of an element may refer to other
elements of its list, though. On its own, it may do so. Behind the index the variable would be
entered once more, which is refused by its name, whatever element is asked for.

## Main definitions

* `TextIsElement`: a text that is nothing but a reference to an element of a variable.

## Main statements

* `Evaluator.token_behind`: what following a variable does to an evaluation that succeeds.
* `resolveScalar_element`: an element is resolved behind its variable.
* `element_by_index`: how elements by index and elements of the list compare.
* `element_by_index_differs`: they do not agree where elements refer to each other.
-/

import HclLint.Proofs.Eval.Cycle
import HclLint.Proofs.Eval.ListDerivation
import HclLint.Proofs.Eval.Transparency
import HclLint.Proofs.Hcl.Index

namespace HclLint.Eval

open HclLint.Text HclLint.Hcl HclLint.Hcl.Grammar HclLint.Model

variable {α : Type} {table : VariableTable} {evaluate : Evaluator α} {name : String} {index : Nat}
  {own token : Token} {tokens : List Token}

/-! ## Following one more variable -/

/-- The failure is the report of a cycle that starts and ends with the variable. -/
def ReportsReturn (name : String) (failure : EvalError) : Prop :=
  ∃ between, failure = .circular (name :: between ++ [name])

/-- An evaluation that succeeds has the same success when one more variable is being followed,
unless it comes to that variable, which is then reported. -/
theorem Evaluator.token_behind (hinges : evaluate.Hinges table) {depth : Nat}
    {followed : List String} {a : α} (success : evaluate.token depth followed token = .ok a) :
    evaluate.token depth (name :: followed) token = .ok a ∨
      ∃ failure, ReportsReturn name failure ∧
        evaluate.token depth (name :: followed) token = .error failure := by
  induction depth generalizing followed token a with
  | zero => cases success
  | succ depth ih =>
    obtain ⟨e, parsed, success⟩ := except_bind_eq_ok.mp success
    -- Following fewer variables does no harm to what is entered.
    have back : KeepsSuccess (AsksFor table e) (enter (evaluate.token depth) (name :: followed))
        (enter (evaluate.token depth) followed) := by
      intro other inner _ b entered
      obtain ⟨fresh, below⟩ := enter_eq_ok entered
      rw [enter_of_fresh fun member => fresh (.tail name member)]
      exact Evaluator.token_mono hinges (Nat.le_refl _) (List.subset_cons_self _ _) below
    have same : evaluate.token (depth + 1) (name :: followed) token =
        evaluate (enter (evaluate.token depth) (name :: followed)) token e := by
      rw [Evaluator.token, parsed]
      rfl
    rw [same]
    rcases (hinges _ token e).lost (hinges _ token e) success back with
      kept | ⟨other, inner, b, failure, asked, entered, refused, lost⟩
    · exact .inl kept
    · refine .inr ⟨failure, ?_, lost⟩
      obtain ⟨fresh, below⟩ := enter_eq_ok entered
      by_cases here : other = name
      -- The variable itself is refused, and reported behind those that led to it.
      · subst here
        rw [enter_of_followed List.mem_cons_self] at refused
        exact ⟨followed, (Except.error.inj refused).symm⟩
      -- Any other variable fails for the same reason, one level further in.
      · have unfollowed : other ∉ name :: followed := by
          rw [List.mem_cons]
          exact not_or_intro here fresh
        rw [enter_of_fresh unfollowed] at refused
        rcases ih below with kept | ⟨failure', returns, lost'⟩
        · cases refused.symm.trans kept
        · rwa [Except.error.inj (refused.symm.trans lost')]

/-! ## References to an element -/

/-- The text is nothing but a reference to the element of the variable with that index. -/
def TextIsElement (name : String) (index : Nat) (text : String) : Prop :=
  ∃ e, parse text = .ok e ∧ IsElementOf name index e

theorem textIsElement_of_isIdentifier (known : isIdentifier name = true)
    (small : index < Numeral.wordLimit) :
    TextIsElement name index ("var." ++ name ++ "[" ++ toString index ++ "]") := by
  obtain ⟨e, read, refers⟩ := readExpr_element known small
  exact ⟨e, parse_eq_ok read, refers⟩

theorem reaches_of_selects {step : Step} (selects : Selects index step)
    (found : tokens[index]? = some own) :
    Reaches (.list (tokens.map .scalar)) [step] (.scalar own) := by
  have item : (tokens.map Value.scalar)[index]? = some (.scalar own) := by simp [found]
  cases selects with
  | number extent whole => exact .step (.numberIndex whole item) (.here _)
  | legacy => exact .step (.legacyIndex item) (.here _)

/-- An element that is referred to by its index is evaluated behind the variable. -/
theorem resolveScalar_element (current : table.get name = .ok (.list (tokens.map .scalar)))
    (found : tokens[index]? = some own) (refers : TextIsElement name index token.text) :
    resolveScalar table token = (scalarEvaluator table).token (depthOf table) [name] own := by
  obtain ⟨⟨extent, form⟩, parsed, ⟨rootExtent, rootForm⟩, step, traversal, isVar, selects⟩ := refers
  obtain rfl : form = .traversal _ [.attribute name, step] := traversal
  obtain rfl : rootForm = .variable "var" := isVar
  have looked := lookup_of_reaches extent.text rootExtent current (reaches_of_selects selects found)
  rw [resolveScalar_eq_token]
  refine Evaluator.token_of_enters hinges_scalarEvaluator (mem_keys_of_get current) parsed
    fun entering => ?_
  rw [scalarEvaluator, scalarExpr, scalarForm, looked]
  rfl

/-- Behind a variable, what a token denotes is derived without coming to the variable. -/
theorem token_singleton_eq_ok_iff {text : String} :
    (scalarEvaluator table).token (depthOf table) [name] own = .ok text ↔
      ∃ e, parse own.text = .ok e ∧ DerivesBehind table [name] e text := by
  rw [← scalarToken_eq]
  constructor
  · exact scalarToken_sound (List.nodup_singleton name)
  · rintro ⟨e, parsed, d, distinct⟩
    have enough : ∀ branch ∈ d.branches, branch.length ≤ table.declared.length :=
      fun branch member => d.length_le_of_nodup member (distinct branch member).of_cons
    exact except_bind_eq_ok.mpr ⟨e, parsed, d.scalarExpr_eq own.text distinct enough⟩

/-- A cycle that is reported behind a variable, and ends with it, is a chain of references from the
token back to the variable. -/
theorem exists_reflTransGen_of_return {failure : EvalError} (declared : name ∈ table.names)
    (failed : (scalarEvaluator table).token (depthOf table) [name] own = .error failure)
    (returns : ReportsReturn name failure) :
    ∃ first, TextRefersTo own.text first ∧ Relation.ReflTransGen table.RefersTo first name := by
  obtain ⟨between, rfl⟩ := returns
  have followable : IsFollowable table [name] :=
    isFollowable_nil.entered declared List.not_mem_nil
  have enough : table.names.length < [name].length + depthOf table := by
    rw [VariableTable.length_names, List.length_singleton, depthOf]
    omega
  have evaluation : Evaluation table _ (IsFollowable table) [name] own _ :=
    (scalarEvaluator table).evaluation_token followable enough
  obtain ⟨behind, last, names, _, _, starts, linked⟩ :=
    evaluation.exists_chain hinges_scalarEvaluator failed
  have same : between ++ [name] = behind ++ [last] := (List.cons.inj names).2
  rw [← same] at starts linked
  have ordered : (between ++ [name]).Pairwise (Relation.TransGen table.RefersTo) :=
    List.isChain_iff_pairwise.mp (linked.imp fun _ _ => .single)
  cases between with
  | nil => exact ⟨name, starts name rfl, .refl⟩
  | cons first more =>
    refine ⟨first, starts first rfl, Relation.TransGen.to_reflTransGen ?_⟩
    exact (List.pairwise_append.mp ordered).2.2 first List.mem_cons_self name List.mem_cons_self

/-! ## Elements by index -/

/-- How a reference to an element by its index compares with the element's token. -/
structure ComparesWith (table : VariableTable) (name : String) (indexed element : Token) :
    Prop where
  /-- What the reference denotes is what is derived for the element without coming to the list. -/
  derived : ∀ text, resolveScalar table indexed = .ok text ↔
    ∃ e, parse element.text = .ok e ∧ DerivesBehind table [name] e text
  /-- What the reference denotes, the element denotes. -/
  kept : ∀ text, resolveScalar table indexed = .ok text → resolveScalar table element = .ok text
  /-- What the element denotes is lost to the reference only by a reported cycle through the
  list. -/
  lost : ∀ text, resolveScalar table element = .ok text → resolveScalar table indexed = .ok text ∨
    ∃ failure, ReportsReturn name failure ∧ resolveScalar table indexed = .error failure
  /-- They denote the same if no references lead from the element back to the list. -/
  agree : (∀ first, TextRefersTo element.text first →
    ¬ Relation.ReflTransGen table.RefersTo first name) →
      ∀ text, resolveScalar table indexed = .ok text ↔ resolveScalar table element = .ok text

/-- Only the text of a token counts for the text that it denotes. -/
theorem resolveScalar_congr {element : Token} (same : element.text = own.text) :
    resolveScalar table element = resolveScalar table own := by
  rw [resolveScalar, resolveScalar, depthOf, scalarToken, scalarToken, same]

theorem comparesWith_element (current : table.get name = .ok (.list (tokens.map .scalar)))
    (found : tokens[index]? = some own) {indexed element : Token}
    (refers : TextIsElement name index indexed.text) (same : element.text = own.text) :
    ComparesWith table name indexed element := by
  have behind := resolveScalar_element current found refers
  have alone : resolveScalar table element = (scalarEvaluator table).token (depthOf table) [] own :=
    (resolveScalar_congr same).trans (resolveScalar_eq_token table own)
  have kept : ∀ text, resolveScalar table indexed = .ok text →
      resolveScalar table element = .ok text := by
    rw [behind, alone]
    exact fun text =>
      Evaluator.token_mono hinges_scalarEvaluator (Nat.le_refl _) (List.nil_subset _)
  have lost : ∀ text, resolveScalar table element = .ok text →
      resolveScalar table indexed = .ok text ∨
        ∃ failure, ReportsReturn name failure ∧ resolveScalar table indexed = .error failure := by
    rw [behind, alone]
    exact fun text => Evaluator.token_behind hinges_scalarEvaluator
  refine ⟨fun text => ?_, kept, lost, fun apart text => ⟨kept text, fun resolved => ?_⟩⟩
  · rw [behind, same]
    exact token_singleton_eq_ok_iff
  · rcases lost text resolved with resolved | ⟨failure, returns, failed⟩
    · exact resolved
    -- A cycle through the list would lead back to it from the element.
    · rw [behind] at failed
      obtain ⟨first, starts, leads⟩ :=
        exists_reflTransGen_of_return (mem_keys_of_get current) failed returns
      exact absurd leads (apart first (same ▸ starts))

/-- A reference to a variable that holds a list of tokens denotes these, at its own position. -/
theorem resolveList_reference (current : table.get name = .ok (.list (tokens.map .scalar)))
    {reference : Token} (refers : TextIsReference name reference.text) :
    resolveList table reference = .ok (tokens.map (·.movedTo reference.position)) := by
  obtain ⟨⟨extent, form⟩, parsed, ⟨rootExtent, rootForm⟩, traversal, isVar⟩ := refers
  obtain rfl : form = .traversal _ [.attribute name] := traversal
  obtain rfl : rootForm = .variable "var" := isVar
  refine (resolveList_eq_ok_iff table reference _).mpr
    ⟨_, parsed, _, .variable extent rootExtent name current (.here _), List.nodup_nil, ?_⟩
  exact (map_elementAt_contentOf reference.position tokens).symm

/-- **An element by its index is the element of the list, unless it leads back to the list.** Take a
variable that holds a list of tokens. A reference to it denotes these tokens, at its own position.
Whatever a reference to one of them by its index denotes, the token denotes as well. What the token
denotes, the reference denotes too, or else reports as a cycle that the token came back to the list.
So they denote the same where no references lead from the token to the list, and in general the
reference denotes what is derived for the token without coming to the list. What is written `var.`
and an identifier is a reference, and with an index in brackets one to that element. -/
theorem element_by_index (table : VariableTable) {name : String} {tokens : List Token}
    (current : table.get name = .ok (.list (tokens.map .scalar))) :
    (∀ reference : Token, TextIsReference name reference.text →
      resolveList table reference = .ok (tokens.map (·.movedTo reference.position)) ∧
      ∀ index element, (tokens.map (·.movedTo reference.position))[index]? = some element →
        ∀ indexed : Token, TextIsElement name index indexed.text →
          ComparesWith table name indexed element) ∧
    (isIdentifier name = true → TextIsReference name ("var." ++ name) ∧
      ∀ index < Numeral.wordLimit,
        TextIsElement name index ("var." ++ name ++ "[" ++ toString index ++ "]")) := by
  refine ⟨fun reference refers => ⟨resolveList_reference current refers, ?_⟩, fun known => ?_⟩
  · intro index element taken indexed selects
    rw [List.getElem?_map] at taken
    obtain ⟨own, found, rfl⟩ := Option.map_eq_some_iff.mp taken
    exact comparesWith_element current found selects rfl
  · exact ⟨textIsReference_of_isIdentifier known,
      fun index small => textIsElement_of_isIdentifier known small⟩

/-- A variable that holds a list, the first element of which refers to the second. -/
def echoTable : VariableTable :=
  VariableTable.empty.declare ⟨"echo", .unknown,
    some (.list [.scalar ⟨.template, "\"$\x7bvar.echo[1]\x7d\"", .unknown⟩, .scalar (.ofText "b")])⟩

/-- The first element denotes the second on its own, but not by its index. -/
theorem element_by_index_differs :
    resolveList echoTable ⟨.expression, "var.echo", .unknown⟩ =
        .ok [⟨.template, "\"$\x7bvar.echo[1]\x7d\"", .unknown⟩, .ofText "b"] ∧
      resolveScalar echoTable ⟨.template, "\"$\x7bvar.echo[1]\x7d\"", .unknown⟩ = .ok "b" ∧
      resolveScalar echoTable ⟨.expression, "var.echo[0]", .unknown⟩ =
        .error (.circular ["echo", "echo"]) := by
  refine ⟨?_, ?_, ?_⟩ <;> decide +kernel

/-- The second element refers to nothing, and so it is the same by its index and on its own. -/
theorem element_by_index_echo :
    resolveList echoTable ⟨.expression, "var.echo", .unknown⟩ =
        .ok [⟨.template, "\"$\x7bvar.echo[1]\x7d\"", .unknown⟩, .ofText "b"] ∧
      resolveScalar echoTable ⟨.expression, "var.echo[1]", .unknown⟩ = .ok "b" := by
  have current : echoTable.get "echo" = .ok (.list
      ([⟨.template, "\"$\x7bvar.echo[1]\x7d\"", .unknown⟩, .ofText "b"].map .scalar)) := rfl
  obtain ⟨compared, written⟩ := element_by_index echoTable current
  obtain ⟨refers, selects⟩ := written (by decide)
  obtain ⟨listed, elements⟩ := compared ⟨.expression, "var.echo", .unknown⟩ refers
  have second := elements 1 (.ofText "b") rfl ⟨.expression, "var.echo[1]", .unknown⟩
    (selects 1 (by decide))
  have apart : ∀ first, TextRefersTo (Token.ofText "b").text first →
      ¬ Relation.ReflTransGen echoTable.RefersTo first "echo" :=
    fun first starts => absurd starts (not_textRefersTo_ofText "b" first)
  exact ⟨listed, (second.agree apart "b").mpr (resolveScalar_ofText echoTable "b")⟩

end HclLint.Eval
