/-
# Lists checked value by value

A rule on the elements of a list asks two questions of each value in it: is the value a token, and
what text does the token denote? A token that denotes nothing is passed over by itself. So the
findings in a list of tokens are those in its values, each put into a list of its own. The first
question is asked of the whole list, though, where it is written out as an attribute's value or
held by a variable. There a list or a map among the values hides all that would be found in the
others. In a list that is written inside a token it hides nothing, since it becomes a token there.

## Main definitions

* `ExistenceRule.issues`, `ExistenceRule.issuesAt`: what a rule finds in a resource, and what it
  finds at one token.
* `GivesValues`, `GivesItems`: a resource gives an attribute as a list of values, or as a list that
  is written inside a token.

## Main statements

* `ExistenceRule.issues_eq_flatMap`: what is found in a list is found at its elements.
* `list_checked_unless_nested`: when a list is checked value by value.
-/

import HclLint.Proofs.Eval.ListChain
import HclLint.Proofs.Lint.Builtin

namespace HclLint.Lint

open HclLint.Text HclLint.Hcl HclLint.Model HclLint.Eval

variable {table : VariableTable} {name : String}

/-! ## What is found at an element -/

namespace ExistenceRule

variable (rule : ExistenceRule) (context : Context) (known : KnownIds)

/-- The issues that a rule finds in a resource. -/
def issues (r : Resource) : List Issue := rule.detector.issuesOf (rule.inspect context known r)

/-- The issues that a rule finds at one token. -/
def issuesAt (token : Token) : List Issue :=
  rule.detector.issuesOf
    (judge (.builtin rule.builtin) (fun text => !known.contains text) rule.message
      context.table token)

/-- What is found in a list is found at its elements, in order. -/
theorem issues_eq_flatMap (r : Resource) :
    rule.issues context known r =
      (elementsOf context.table rule.attributeName r).flatMap (rule.issuesAt context known) := by
  rw [issues, issuesOf_inspect, elementTexts]
  rw [← issuesOf_judge rule.detector (.builtin rule.builtin) (fun text => !known.contains text)]
  exact List.filterMap_flatMap ..

theorem issuesAt_of_unresolved {token : Token}
    (unresolved : ∀ text, resolveScalar context.table token ≠ .ok text) :
    rule.issuesAt context known token = [] := by
  rw [issuesAt, judge]
  cases resolved : resolveScalar context.table token with
  | ok text => exact absurd resolved (unresolved text)
  | error e => rfl

end ExistenceRule

/-! ## Ways to give a list -/

/-- Where what is found in a list is put: each at its own place, or all at that of a token. -/
def placed : Option Position → Token → Token
  | none, token => token
  | some position, token => token.movedTo position

/-- A resource gives an attribute as a list of values. It is written out as the attribute's value,
or the attribute's token leads to a list that a variable holds. -/
inductive GivesValues (table : VariableTable) (name : String) (r : Resource) :
    Option Position → List Value → Prop where
  | literal {a : Attribute} {values : List Value} (given : r.attribute? name = some a)
      (value : a.first.value = .list values) : GivesValues table name r none values
  | held {a : Attribute} {token : Token} {holder : String} {values : List Value}
      (given : r.attribute? name = some a) (value : a.first.value = .scalar token)
      (denotes : TokenDenotes table token (.held holder values)) :
      GivesValues table name r (some token.position) values

/-- A resource gives an attribute as a token that leads to a list written inside a token. What is
written there is told by the kinds and texts of the items. -/
inductive GivesItems (table : VariableTable) (name : String) (r : Resource) :
    Position → List Content → Prop where
  | written {a : Attribute} {token : Token} {items : List Expr}
      (given : r.attribute? name = some a) (value : a.first.value = .scalar token)
      (denotes : TokenDenotes table token (.written items)) :
      GivesItems table name r token.position (items.map itemContent)

theorem toOption_itemOfVariable (holder : String) (item : Value) :
    (itemOfVariable holder item).toOption = item.scalar? := by
  cases item <;> rfl

/-- Values that are tokens are taken apart one by one, and any other spoils the list. -/
theorem mapM_scalar?_eq (values : List Value) :
    values.mapM Value.scalar? =
      if values.all (·.scalar?.isSome) then some (values.filterMap Value.scalar?) else none := by
  induction values with
  | nil => rfl
  | cons value values ih =>
    rw [List.mapM_cons, ih, List.all_cons, List.filterMap_cons]
    cases value with
    | scalar token =>
      change (if values.all (·.scalar?.isSome) then some _ else none).bind (some <| token :: ·) = _
      rw [Value.scalar?, Option.isSome_some, Bool.true_and]
      split <;> rfl
    | list | map => rfl

/-- The elements that an attribute has when it is given as a list of values. -/
theorem GivesValues.elementsOf_eq {r : Resource} {place : Option Position} {values : List Value}
    (gives : GivesValues table name r place values) :
    elementsOf table name r =
      if values.all (·.scalar?.isSome) then (values.filterMap Value.scalar?).map (placed place)
      else [] := by
  have taken : elementsOf table name r =
      ((values.mapM Value.scalar?).map (·.map (placed place))).getD [] := by
    cases gives with
    | literal given value =>
      rw [Lint.elementsOf_eq given, resolveListAttribute, value]
      change ((List.mapM (itemOfList _) values).toOption).getD [] = _
      rw [toOption_mapM (toOption_itemOfList _)]
      have own : (fun tokens : List Token => tokens.map (placed none)) = id :=
        funext List.map_id
      rw [own, Option.map_id_apply]
    | @held a token holder _ given value denotes =>
      rw [Lint.elementsOf_eq given, resolveListAttribute, value]
      change (resolveList table token).toOption.getD [] = _
      rw [denotes.resolveList_eq, ListEnd.elements,
        ← toOption_mapM (toOption_itemOfVariable holder)]
      cases values.mapM (itemOfVariable holder) with
      | error e => rfl
      | ok tokens => exact map_elementAt_contentOf token.position tokens
  rw [taken, mapM_scalar?_eq]
  split <;> rfl

theorem GivesItems.elementsOf_eq {r : Resource} {position : Position} {items : List Content}
    (gives : GivesItems table name r position items) :
    elementsOf table name r = items.map (elementAt position) := by
  obtain ⟨given, value, denotes⟩ := gives
  rw [Lint.elementsOf_eq given, resolveListAttribute, value]
  change (resolveList table _).toOption.getD [] = _
  rw [denotes.resolveList_eq]
  rfl

/-! ## Lists and their values -/

section

variable (rule : ExistenceRule) (context : Context) (known : KnownIds)

/-- What a rule finds at a value of a list, if the value is alone in it. -/
def ExistenceRule.issuesAtValue (place : Option Position) (value : Value) : List Issue :=
  value.scalar?.toList.flatMap fun token => rule.issuesAt context known (placed place token)

variable {rule context known}

/-- What is found in a list of values is found at each of them, unless one of them is no token. -/
theorem GivesValues.issues_eq {r : Resource} {place : Option Position} {values : List Value}
    (gives : GivesValues context.table rule.attributeName r place values) :
    rule.issues context known r =
      if values.all (·.scalar?.isSome) then
        values.flatMap (rule.issuesAtValue context known place)
      else [] := by
  rw [rule.issues_eq_flatMap, gives.elementsOf_eq]
  split
  · rw [List.flatMap_map, List.filterMap_eq_flatMap_toList, List.flatMap_assoc]
    rfl
  · rfl

theorem GivesValues.issues_alone {r : Resource} {place : Option Position} {value : Value}
    (gives : GivesValues context.table rule.attributeName r place [value]) :
    rule.issues context known r = rule.issuesAtValue context known place value := by
  rw [gives.issues_eq, List.flatMap_singleton]
  cases value <;> rfl

theorem GivesItems.issues_eq {r : Resource} {position : Position} {items : List Content}
    (gives : GivesItems context.table rule.attributeName r position items) :
    rule.issues context known r =
      items.flatMap fun item => rule.issuesAt context known (elementAt position item) := by
  rw [rule.issues_eq_flatMap, gives.elementsOf_eq, List.flatMap_map]

end

/-- **A list of tokens is checked value by value.** Let a resource give an attribute as a list of
values, written out or held by a variable, and let there be resources that give each of the values
in a list of its own, in the same way and at the same place. If all values are tokens, the issues
in the list are those in the lists of one value, in order. If one of them is a list or a map, there
are none. A token that denotes no text is passed over by itself. When the list is written inside a
token, the issues are always those in the lists of one element. -/
theorem list_checked_unless_nested (rule : ExistenceRule) (context : Context) (known : KnownIds)
    (r : Resource) :
    (∀ place values, GivesValues context.table rule.attributeName r place values →
      ∀ alone : Value → Resource,
        (∀ value ∈ values,
          GivesValues context.table rule.attributeName (alone value) place [value]) →
        rule.issues context known r =
          if values.all (·.scalar?.isSome) then
            values.flatMap fun value => rule.issues context known (alone value)
          else []) ∧
    (∀ place token, GivesValues context.table rule.attributeName r place [.scalar token] →
      (∀ text, resolveScalar context.table token ≠ .ok text) →
        rule.issues context known r = []) ∧
    ∀ position items, GivesItems context.table rule.attributeName r position items →
      ∀ alone : Content → Resource,
        (∀ item ∈ items,
          GivesItems context.table rule.attributeName (alone item) position [item]) →
        rule.issues context known r =
          items.flatMap fun item => rule.issues context known (alone item) := by
  refine ⟨fun place values gives alone single => ?_, fun place token gives unresolved => ?_,
    fun position items gives alone single => ?_⟩
  · rw [gives.issues_eq]
    split
    · exact List.flatMap_congr fun value member => (single value member).issues_alone.symm
    · rfl
  · rw [gives.issues_alone]
    -- Where a token is put does not bear on what it denotes.
    have moved : ∀ text, resolveScalar context.table (placed place token) ≠ .ok text := by
      cases place <;> exact unresolved
    exact (List.flatMap_singleton ..).trans (rule.issuesAt_of_unresolved context known moved)
  · rw [gives.issues_eq]
    refine List.flatMap_congr fun item member => ?_
    rw [(single item member).issues_eq, List.flatMap_singleton]

/-- A load balancer that is given a value for its security groups. -/
def balancerWith (groups : Value) : Resource where
  file := "main.tf"
  key := ⟨"aws_alb", "b"⟩
  position := ⟨"main.tf", 0, 1, 1⟩
  attributes := [("security_groups", ⟨⟨⟨"main.tf", 45, 2, 21⟩, groups⟩, []⟩)]

/-- A token in the second line of the file. -/
def tokenAt (column : Nat) (kind : Token.Kind) (text : String) : Token :=
  ⟨kind, text, ⟨"main.tf", 24 + column, 2, column⟩⟩

/-- What is found when no security group is known. -/
def unknownGroups (r : Resource) : List Issue :=
  albInvalidSecurityGroup.issues ⟨.empty, none⟩ [] r

/-- The issue about a security group that is found in the second line. -/
def unknownGroup (column : Nat) (id : String) : Issue where
  severity := .error
  message := about id "invalid security group."
  file := "main.tf"
  line := 2
  column
  detector := .builtin .albInvalidSecurityGroup

theorem givesValues_balancerWith (values : List Value) :
    GivesValues .empty "security_groups" (balancerWith (.list values)) none values :=
  .literal rfl rfl

/-- The items of a list between parentheses. -/
def parenthesizedItems? : Expr → Option (List Expr)
  | .mk _ (.parens (.mk _ (.list items))) => some items
  | _ => none

theorem givesItems_balancerWith {token : Token} {items : List Content}
    (read : ((parse token.text).toOption.bind parenthesizedItems?).map (·.map itemContent) =
      some items) :
    GivesItems .empty "security_groups" (balancerWith (.scalar token)) token.position items := by
  obtain ⟨written, found, rfl⟩ := Option.map_eq_some_iff.mp read
  obtain ⟨e, parsed, found⟩ := Option.bind_eq_some_iff.mp found
  have parsed := eq_ok_of_toOption_eq_some parsed
  unfold parenthesizedItems? at found
  split at found
  · next outer inner items _ =>
    obtain rfl := Option.some.inj found
    exact .written rfl rfl ⟨_, [], parsed, .parens outer (.written inner items), List.nodup_nil⟩
  · cases found

/-- Three tokens, of which the second one refers to no variable. -/
def danglingGroups : List Value :=
  [.scalar (tokenAt 22 .string "\"sg-0\""), .scalar (tokenAt 30 .expression "local.sg"),
    .scalar (tokenAt 40 .string "\"sg-1\"")]

/-- A token and a list beside it. -/
def nestedGroups : List Value :=
  [.scalar (tokenAt 22 .string "\"sg-0\""), .list [.scalar (tokenAt 31 .string "\"x\"")]]

/-- The second of three tokens refers to no variable, and all that is found is found at the other
two. In a list between parentheses another list may stand and hides nothing. -/
theorem list_checked_unless_nested_groups :
    unknownGroups (balancerWith (.list danglingGroups)) =
      [unknownGroup 22 "sg-0", unknownGroup 40 "sg-1"] ∧
    unknownGroups (balancerWith (.list [.scalar (tokenAt 30 .expression "local.sg")])) = [] ∧
    unknownGroups (balancerWith (.scalar (tokenAt 21 .expression "([[\"x\"], \"sg-0\"])"))) =
      [unknownGroup 21 "sg-0"] := by
  refine ⟨?_, ?_, ?_⟩
  · have checked := (list_checked_unless_nested albInvalidSecurityGroup ⟨.empty, none⟩ []
      (balancerWith (.list danglingGroups))).1
    rw [unknownGroups, checked none _ (givesValues_balancerWith _)
      (fun value => balancerWith (.list [value])) fun value _ => givesValues_balancerWith _]
    decide +kernel
  · refine (list_checked_unless_nested albInvalidSecurityGroup ⟨.empty, none⟩ [] _).2.1 none _
      (givesValues_balancerWith _) fun text resolved => ?_
    have refused : (resolveScalar .empty (tokenAt 30 .expression "local.sg")).isOk = false := by
      decide +kernel
    rw [resolved] at refused
    cases refused
  · have checked := (list_checked_unless_nested albInvalidSecurityGroup ⟨.empty, none⟩ []
      (balancerWith (.scalar (tokenAt 21 .expression "([[\"x\"], \"sg-0\"])")))).2.2
    rw [unknownGroups, checked _ [(.expression, "[\"x\"]"), (.string, "\"sg-0\"")]
      (givesItems_balancerWith (by decide +kernel))
      (fun item => balancerWith (.scalar (tokenAt 21 .expression ("([" ++ item.2 ++ "])"))))]
    · decide +kernel
    · intro item member
      rcases List.mem_pair.mp member with rfl | rfl
      all_goals exact givesItems_balancerWith (by decide +kernel)

/-- A list beside the id of a security group hides that the group does not exist, which is found
when the id is alone in the list. -/
theorem nested_list_hides_group :
    GivesValues .empty "security_groups" (balancerWith (.list nestedGroups)) none nestedGroups ∧
      (∀ value ∈ nestedGroups,
        GivesValues .empty "security_groups" (balancerWith (.list [value])) none [value]) ∧
      unknownGroups (balancerWith (.list nestedGroups)) = [] ∧
      (nestedGroups.flatMap fun value => unknownGroups (balancerWith (.list [value]))) =
        [unknownGroup 22 "sg-0"] :=
  ⟨givesValues_balancerWith _, fun _ _ => givesValues_balancerWith _, by decide +kernel,
    by decide +kernel⟩

end HclLint.Lint
