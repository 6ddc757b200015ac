/-
# Where issues stand

An issue stands where the attribute that it is about is given, in a file of the set. Values of
variables may come from other files or from none, but what a value refers to is judged at the
place of the reference. Only the elements of a list that is written out have places of their own.

## Main definitions

* `IsGivenBy`: the expression of a file that gives an attribute of a resource first.
* `IsJudgedAt`: the part of this expression that a text of the attribute is judged at.

## Main statements

* `isLocatedIn_of_mem_texts`: where the texts are judged that a detector reads of a resource.
* `issues_located`: where all issues of a run stand.
-/

import HclLint.Proofs.Lint.Builtin
import HclLint.Proofs.Provenance.Configuration

namespace HclLint.Lint

open HclLint.Text HclLint.Hcl HclLint.Model HclLint.Eval HclLint.Cloud

/-- The file gives the attribute of the resource by the expression, in a block that declares the
resource, and this is what the attribute is first given as. -/
structure IsGivenBy (source : Source) (r : Resource) (name : String) (value : Expr) : Prop where
  written : ∃ body start inner, bodyOf source = .ok body ∧
    Item.block start "resource" [r.key.type, r.key.id] inner ∈ body ∧
    Item.attribute name value ∈ inner
  first : ∃ a, r.attribute? name = some a ∧ a.first.value = Value.ofExpr source value

/-- The place at which a token is judged that belongs to the value of an attribute. -/
inductive IsJudgedAt (source : Source) (value : Expr) (token : Token) : Expr → Prop where
  /-- What the value denotes or refers to is judged at its start, wherever it comes from. -/
  | value (single : ∀ items, value.form ≠ .list items)
      (here : token.position = source.positionAt value.start) :
      IsJudgedAt source value token value
  /-- An element of a list that is written out is judged where it is written. -/
  | element {items : List Expr} {item : Expr} (literal : value.form = .list items)
      (member : item ∈ items) (here : token = tokenOf source item) :
      IsJudgedAt source value token item

/-- The token is judged where a file gives the attribute of the resource. -/
def IsLocatedIn (files : List Source) (r : Resource) (name : String) (token : Token) : Prop :=
  ∃ source ∈ files, ∃ value place, IsGivenBy source r name value ∧
    IsJudgedAt source value token place ∧ source.Shows token.position (keptText place)

section Texts

variable {files : List Source} {r : Resource} {name : String} {token : Token}

/-- An attribute that is no map is first given by an expression. -/
theorem exists_isGivenBy {a : Attribute} (read : r.IsReadFrom files)
    (found : r.attribute? name = some a) (noMap : ∀ entries, a.first.value ≠ .map entries) :
    ∃ source ∈ files, ∃ value, IsGivenBy source r name value ∧
      a.first.value = Value.ofExpr source value ∧ a.first.value.StandsIn source := by
  obtain ⟨source, known, ⟨body, start, inner, item, taken, block, member, named, same, _⟩, stands⟩ :=
    read name a (Entries.mem_of_get?_eq_some found) a.first List.mem_cons_self
  -- A nested block would give a map.
  cases item with
  | «attribute» key value =>
    obtain rfl : key = name := named
    exact ⟨source, known, value, ⟨⟨body, start, inner, taken, block, member⟩, a, found, same⟩,
      same, stands⟩
  | block => exact absurd same (noMap _)

/-- Where the token of a value stands, and what it is judged at. -/
theorem isLocatedIn_of_scalar {a : Attribute} {given : Token} (read : r.IsReadFrom files)
    (found : r.attribute? name = some a) (scalar : a.first.value = .scalar given)
    (here : token.position = given.position) :
    IsLocatedIn files r name token := by
  obtain ⟨source, known, value, isGiven, same, stands⟩ :=
    exists_isGivenBy read found (by rw [scalar]; exact fun _ => Value.noConfusion)
  -- The token is that of the expression, and it is all that the value holds.
  obtain ⟨rfl, single⟩ := ofExpr_eq_scalar (same.symm.trans scalar)
  have shows := stands (tokenOf source value) (scalar ▸ .scalar)
  exact ⟨source, known, value, value, isGiven, .value single here, here ▸ shows⟩

/-- An attribute that is one token is judged where it is given. -/
theorem isLocatedIn_of_token? (read : r.IsReadFrom files) (found : r.token? name = some token) :
    IsLocatedIn files r name token := by
  obtain ⟨a, there, single⟩ := Option.bind_eq_some_iff.mp found
  cases first : a.first.value with
  | scalar given =>
    rw [first] at single
    obtain rfl := Option.some.inj single
    exact isLocatedIn_of_scalar read there first rfl
  | list | map =>
    rw [first] at single
    cases single

theorem exists_of_mem_elementsOf {table : VariableTable}
    (member : token ∈ elementsOf table name r) :
    ∃ a tokens, r.attribute? name = some a ∧ resolveListAttribute table a = .ok tokens ∧
      token ∈ tokens := by
  cases found : r.attribute? name with
  | none =>
    rw [elementsOf_of_none found] at member
    cases member
  | some a =>
    rw [elementsOf_eq found] at member
    cases listed : resolveListAttribute table a with
    | error e =>
      rw [listed] at member
      cases member
    | ok tokens =>
      rw [listed] at member
      exact ⟨a, tokens, rfl, listed, member⟩

/-- The items that a token refers to are all moved to its position. -/
theorem position_of_mem_resolveList {table : VariableTable} {given : Token} {tokens : List Token}
    (resolved : resolveList table given = .ok tokens) (member : token ∈ tokens) :
    token.position = given.position := by
  obtain ⟨items, _, moved⟩ := except_bind_eq_ok.mp resolved
  obtain rfl := Except.ok.inj moved
  obtain ⟨item, _, rfl⟩ := List.mem_map.mp member
  rfl

/-- Elements are judged where the list is given, or where they are written in it. -/
theorem isLocatedIn_of_mem_elementsOf {table : VariableTable} (read : r.IsReadFrom files)
    (member : token ∈ elementsOf table name r) :
    IsLocatedIn files r name token := by
  obtain ⟨a, tokens, found, resolved, member⟩ := exists_of_mem_elementsOf member
  unfold resolveListAttribute at resolved
  split at resolved
  · next given scalar =>
    exact isLocatedIn_of_scalar read found scalar (position_of_mem_resolveList resolved member)
  · next values list =>
    obtain ⟨source, known, value, isGiven, same, stands⟩ :=
      exists_isGivenBy read found (by rw [list]; exact fun _ => Value.noConfusion)
    obtain ⟨items, literal, rfl⟩ := ofExpr_eq_list (same.symm.trans list)
    obtain ⟨element, inValues, single⟩ := exists_of_mapM resolved member
    obtain ⟨item, inItems, rfl⟩ := List.mem_map.mp inValues
    -- An element that is taken as a token is the token of its expression.
    cases scalar : Value.ofExpr source item with
    | scalar other =>
      rw [scalar] at single
      obtain rfl := Except.ok.inj single
      obtain ⟨rfl, _⟩ := ofExpr_eq_scalar scalar
      have shows := stands (tokenOf source item) (list ▸ .item inValues (scalar ▸ .scalar))
      exact ⟨source, known, value, item, isGiven, .element literal inItems rfl, shows⟩
    | list | map =>
      rw [scalar] at single
      cases single
  · cases resolved

/-- The texts that a detector reads of a resource are judged where its attribute is given. -/
theorem isLocatedIn_of_mem_texts {b : BuiltinDetector} {table : VariableTable} {text : String}
    (read : r.IsReadFrom files) (member : (token, text) ∈ b.texts table r) :
    IsLocatedIn files r b.attributeName token := by
  cases b with
  | instancePreviousType | metricAlarmInvalidUnit =>
    have found := Option.mem_toList.mp (mem_denotedTexts.mp member).1
    exact isLocatedIn_of_token? read found
  | elbInvalidSubnet | albInvalidSecurityGroup =>
    exact isLocatedIn_of_mem_elementsOf read (mem_denotedTexts.mp member).1

end Texts

theorem isReadFrom_of_load {precedence : Precedence} {set : SourceSet} {c : Configuration}
    (loaded : Configuration.load precedence set = .ok c) :
    ∀ t ∈ c.templates, ∀ r ∈ t.resources, r.IsReadFrom set.files := by
  obtain ⟨all, read, rfl⟩ := load_eq_ok loaded
  exact isReadFrom_templates_ofDeclared fun d member => (isReadFrom_of_mapM read d member).1

theorem isKnown_of_shows {source : Source} {p : Position} {text : String}
    (shows : source.Shows p text) (named : source.name ≠ "") : p.isKnown = true := by
  obtain ⟨_, _, _, _, line, _⟩ := shows.stands
  simp [Position.isKnown, shows.file, named, line]

/-- **Every issue stands where a source file gives an attribute.** Take the configuration of a
set of files with names, any values of variables, any account and any options. Each issue that
the built-in detectors find is about a text of a resource, and stands in a file of the set where
the attribute of the resource is given first: at an element of a list that is written out there,
if the text is that of the element, and else at the start of the value. So its position is always
known, whatever the tokens came through that the value refers to. -/
theorem issues_located {precedence : Precedence} {set : SourceSet} {c : Configuration}
    (loaded : Configuration.load precedence set = .ok c)
    (named : ∀ source ∈ set.files, source.name ≠ "") (table : VariableTable)
    (cloud? : Option CloudClient) (options : RunOptions) :
    ∀ issue ∈ (builtinRegistry.run c.templates ⟨table, cloud?⟩ options).report.issues,
      ∃ t ∈ c.templates, ∃ r ∈ t.resources, ∃ source ∈ set.files, ∃ b value place token text,
        r.key.type = (BuiltinDetector.detector b).target ∧
        IsGivenBy source r b.attributeName value ∧
        IsJudgedAt source value token place ∧
        source.Shows token.position (keptText place) ∧ token.position.isKnown = true ∧
        (token, text) ∈ b.texts table r ∧ issue = b.issue token text := by
  intro issue member
  rw [Registry.report_eq_builtinReport detectors_builtinRegistry] at member
  obtain ⟨b, _, found⟩ := List.mem_flatMap.mp member
  obtain ⟨r, wanted, token, text, known, same⟩ := BuiltinDetector.exists_of_mem_issues found
  obtain ⟨t, inTemplates, ofType⟩ := List.mem_flatMap.mp wanted
  obtain ⟨inTemplate, type⟩ := List.mem_filter.mp ofType
  obtain ⟨source, inSet, value, place, isGiven, judged, shows⟩ :=
    isLocatedIn_of_mem_texts (isReadFrom_of_load loaded t inTemplates r inTemplate) known
  exact ⟨t, inTemplates, r, inTemplate, source, inSet, b, value, place, token, text,
    beq_iff_eq.mp type, isGiven, judged, shows, isKnown_of_shows shows (named source inSet), known,
    same⟩

/-- A list that is written out, and one that a variable holds. -/
def placedFiles : SourceSet := .ofList [
  ⟨"main.tf", "variable \"groups\" \x7b\n\x7d\n" ++
    "resource \"aws_elb\" \"web\" \x7b\n  subnets = [\"subnet-1\", \"subnet-2\"]\n\x7d\n" ++
    "resource \"aws_alb\" \"api\" \x7b\n  security_groups = var.groups\n\x7d\n"⟩]

/-- A file that assigns the variable. -/
def placedAssignments : Source := ⟨"groups.tfvars", "groups = [\"sg-9\"]\n"⟩

/-- The configuration of the files, and its table after the assignment. -/
def loadPlaced : Except SourceError (Configuration × VariableTable) := do
  let c ← Configuration.load .lexical placedFiles
  return (c, ← c.table.assignFile placedAssignments)

/-- The issues of a deep run on the files. -/
def placedIssues (c : Configuration) (table : VariableTable) : List Issue :=
  (builtinRegistry.run c.templates ⟨table, some (Snapshot.client ⟨["sg-1"], ["subnet-1"]⟩)⟩
    ⟨true, []⟩).report.issues

/-- One issue stands at the second element of the list, the other at the reference. -/
theorem issues_located_placedFiles :
    ∃ c table, Configuration.load .lexical placedFiles = .ok c ∧
      c.table.assignFile placedAssignments = .ok table ∧
      (placedIssues c table).map (fun issue => (issue.file, issue.line, issue.column)) =
        [("main.tf", 4, 26), ("main.tf", 7, 21)] ∧
      ∀ issue ∈ placedIssues c table,
        ∃ source ∈ placedFiles.files, ∃ b value place token text,
          IsJudgedAt source value token place ∧ source.Shows token.position (keptText place) ∧
          token.position.isKnown = true ∧ issue = BuiltinDetector.issue b token text := by
  have places : loadPlaced.toOption.any (fun (c, table) =>
      (placedIssues c table).map (fun issue => (issue.file, issue.line, issue.column)) ==
        [("main.tf", 4, 26), ("main.tf", 7, 21)]) = true := by decide +kernel
  obtain ⟨⟨c, table⟩, made, places⟩ := exists_eq_ok_of_any places
  obtain ⟨c', loaded, assigning⟩ := except_bind_eq_ok.mp made
  obtain ⟨table', assigned, same⟩ := except_bind_eq_ok.mp assigning
  obtain ⟨rfl, rfl⟩ := Prod.mk.inj (Except.ok.inj same)
  refine ⟨c', table', loaded, assigned, beq_iff_eq.mp places, fun issue member => ?_⟩
  obtain ⟨_, _, r, _, source, known, b, value, place, token, text, _, _, judged, shows, isKnown,
    _, said⟩ := issues_located loaded (by decide +kernel) table' _ _ issue member
  exact ⟨source, known, b, value, place, token, text, judged, shows, isKnown, said⟩

end HclLint.Lint
