/-
# The history of a variable table

Declarations, files of assignments and assigned texts may come in any order. The current value
of a variable does not depend on this order across the three: the last text goes before all
files, the last file that assigns the variable before all defaults, and the last declaration
has the default that counts. A file that cannot be read to its end assigns nothing.

## Main definitions

* `Change`, `VariableTable.change`: what can happen to a table.
* `lastOf`: what the last of some changes that has a say supplies.
* `currentValue`: the value of a variable that is declared, from the values that it is given.

## Main statements

* `get_foldl_change`: the current value of a variable after any changes.
* `get_foldl_of_unconcerned`: changes that do not concern a variable leave it as it is.
* `assignFile_eq_error_iff`: which files are refused.
-/

import HclLint.Eval.Variables
import HclLint.Proofs.Entries
import HclLint.Proofs.Sequencing

namespace HclLint.Eval

open HclLint.Text HclLint.Hcl HclLint.Model

/-- What can happen to a table. -/
inductive Change where
  | declare (v : Variable)
  /-- A file of assignments is read, with success or without. -/
  | assignFile (source : Source)
  | assignText (name value : String)

/-- The table after a change. A file that is refused leaves it as it is. -/
def VariableTable.change (table : VariableTable) : Change → VariableTable
  | .declare v => table.declare v
  | .assignFile source =>
    match table.assignFile source with
    | .ok after => after
    | .error _ => table
  | .assignText name value => table.assignText name value

/-- What a file that is not refused assigns to a variable, at last. -/
def assignedIn? (name : String) (source : Source) : Option Value :=
  match assignmentsOf source with
  | .ok values => Entries.get? name values.reverse
  | .error _ => none

namespace Change

variable (name : String)

/-- How a change declares a variable. -/
def declaration? : Change → Option Variable
  | .declare v => if v.name = name then some v else none
  | .assignFile _ | .assignText .. => none

/-- What a change assigns to a variable by a file. -/
def fileValue? : Change → Option Value
  | .assignFile source => assignedIn? name source
  | .declare _ | .assignText .. => none

/-- What a change assigns to a variable as a text. -/
def textValue? : Change → Option Value
  | .assignText other value => if other = name then some (.scalar (.ofText value)) else none
  | .declare _ | .assignFile _ => none

end Change

/-- What the last member that supplies anything supplies. -/
def lastOf {α β : Type} (supplied? : α → Option β) (as : List α) : Option β :=
  as.reverse.findSome? supplied?

/-- The value of a variable, if it is declared: the one it is given, or else its default. -/
def currentValue (name : String) (declared? : Option Variable) (given? : Option Value) :
    Except EvalError Value :=
  match declared? with
  | none => .error (.undeclared name)
  | some v =>
    match given? <|> v.default? with
    | some value => .ok value
    | none => .error (.noValue name)

/-- The last supplier is looked for in the second half first. -/
theorem lastOf_append {α β : Type} (supplied? : α → Option β) (first second : List α) :
    lastOf supplied? (first ++ second) =
      (lastOf supplied? second).or (lastOf supplied? first) := by
  rw [lastOf, List.reverse_append, List.findSome?_append]
  rfl

theorem lastOf_map {α β γ : Type} (supplied? : β → Option γ) (f : α → β) (as : List α) :
    lastOf supplied? (as.map f) = lastOf (fun a => supplied? (f a)) as := by
  rw [lastOf, ← List.map_reverse, List.findSome?_map]
  rfl

/-- There is none exactly if nobody supplies. -/
theorem lastOf_eq_none_iff {α β : Type} {supplied? : α → Option β} {as : List α} :
    lastOf supplied? as = none ↔ ∀ a ∈ as, supplied? a = none := by
  simp [lastOf]

/-- What each change replaces, where it supplies anything, holds at the end what the last such
change supplied. -/
theorem observe_foldl {α β σ : Type} (observe : σ → Option β) {supplied? : α → Option β}
    {change : σ → α → σ}
    (step : ∀ s a, observe (change s a) = (supplied? a).or (observe s)) (as : List α) (s : σ) :
    observe (as.foldl change s) = (lastOf supplied? as).or (observe s) := by
  induction as generalizing s with
  | nil => rfl
  | cons a as ih =>
    -- The first change counts only where none of the others supplies anything.
    have first : lastOf supplied? [a] = supplied? a := by simp [lastOf]
    rw [List.foldl_cons, ih, step, ← List.singleton_append, lastOf_append, first, Option.or_assoc]

theorem lastOf_declaration?_eq_none_iff {name : String} {changes : List Change} :
    lastOf (·.declaration? name) changes = none ↔
      ∀ v, Change.declare v ∈ changes → v.name ≠ name := by
  rw [lastOf_eq_none_iff]
  constructor
  · intro absent v member same
    have declared := absent _ member
    rw [Change.declaration?, if_pos same] at declared
    cases declared
  · intro absent change member
    cases change with
    | declare v => exact if_neg (absent v member)
    | assignFile | assignText => rfl

/-! ## The parts of a table -/

namespace VariableTable

variable (table : VariableTable) (name : String)

/-- A variable has the value given on the command line, or else the one from the files, or else its
default. -/
theorem get_eq_currentValue :
    table.get name =
      currentValue name (table.declared.get? name)
        ((table.fromCommand.get? name).or (table.fromFiles.get? name)) := by
  unfold get currentValue
  cases table.declared.get? name with
  | none => rfl
  | some v =>
    have chain : (table.fromCommand.get? name <|> table.fromFiles.get? name <|> v.default?) =
        ((table.fromCommand.get? name).or (table.fromFiles.get? name) <|> v.default?) := by
      simp [Option.or_assoc]
    exact congrArg (fun given? : Option Value =>
      match given? with
      | some value => Except.ok value
      | none => Except.error (EvalError.noValue name)) chain

/-- A file puts its assignments in, all or none. -/
theorem change_assignFile (source : Source) :
    table.change (.assignFile source) =
      { table with
        fromFiles := table.fromFiles.putAll ((assignmentsOf source).toOption.getD []) } := by
  cases read : assignmentsOf source with
  | error e =>
    simp only [change, assignFile, read]
    rfl
  | ok values =>
    simp only [change, assignFile, read]
    rfl

/-- A change declares what it says and keeps the other declarations. -/
theorem declared_change (change : Change) :
    (table.change change).declared.get? name =
      (change.declaration? name).or (table.declared.get? name) := by
  cases change with
  | declare v =>
    by_cases same : v.name = name
    · simp [VariableTable.change, declare, Change.declaration?, same]
    · simp [VariableTable.change, declare, Change.declaration?, Entries.get?_put, same]
  | assignFile source =>
    rw [change_assignFile]
    rfl
  | assignText other value => rfl

/-- It takes from a file the values that are assigned there. -/
theorem fromFiles_change (change : Change) :
    (table.change change).fromFiles.get? name =
      (change.fileValue? name).or (table.fromFiles.get? name) := by
  cases change with
  | declare v => rfl
  | assignFile source =>
    rw [change_assignFile, Entries.get?_putAll, Change.fileValue?, assignedIn?]
    cases assignmentsOf source <;> rfl
  | assignText other value => rfl

/-- It takes from the command line the text that is assigned there. -/
theorem fromCommand_change (change : Change) :
    (table.change change).fromCommand.get? name =
      (change.textValue? name).or (table.fromCommand.get? name) := by
  cases change with
  | declare v => rfl
  | assignFile source =>
    rw [change_assignFile]
    rfl
  | assignText other value =>
    by_cases same : other = name
    · simp [VariableTable.change, assignText, Change.textValue?, same]
    · simp [VariableTable.change, assignText, Change.textValue?, Entries.get?_put, same]

/-- The current value of a variable after any changes of the empty table. -/
theorem get_foldl_change (changes : List Change) :
    (changes.foldl change empty).get name =
      currentValue name (lastOf (·.declaration? name) changes)
        ((lastOf (·.textValue? name) changes).or (lastOf (·.fileValue? name) changes)) := by
  rw [get_eq_currentValue,
    observe_foldl (fun t : VariableTable => t.declared.get? name)
      fun t => t.declared_change name,
    observe_foldl (fun t : VariableTable => t.fromCommand.get? name)
      fun t => t.fromCommand_change name,
    observe_foldl (fun t : VariableTable => t.fromFiles.get? name)
      fun t => t.fromFiles_change name]
  simp [empty, Entries.get?_nil]

end VariableTable

/-- The changes that declare some variables, then assign some files, and then some texts. -/
def changesOf (vars : List Variable) (sources : List Source) (texts : List (String × String)) :
    List Change :=
  vars.map .declare ++ sources.map .assignFile ++ texts.map fun (name, text) => .assignText name text

/-- Files that are all accepted are assigned one after the other. -/
theorem foldl_change_of_foldlM {sources : List Source} {table after : VariableTable}
    (assigned : sources.foldlM VariableTable.assignFile table = .ok after) :
    (sources.map .assignFile).foldl VariableTable.change table = after := by
  induction sources generalizing table with
  | nil => exact Except.ok.inj assigned
  | cons source sources ih =>
    rw [List.foldlM_cons] at assigned
    obtain ⟨next, first, rest⟩ := except_bind_eq_ok.mp assigned
    have step : table.change (.assignFile source) = next := by
      rw [VariableTable.change, first]
    rw [List.map_cons, List.foldl_cons, step, ih rest]

/-- The current value of a variable where declarations, files and texts come in this order. -/
theorem get_foldl_changesOf (vars : List Variable) (sources : List Source)
    (texts : List (String × String)) (name : String) :
    ((changesOf vars sources texts).foldl VariableTable.change .empty).get name =
      currentValue name
        (lastOf (fun v => if v.name = name then some v else none) vars)
        ((lastOf (fun given => if given.1 = name then some (.scalar (.ofText given.2)) else none)
          texts).or (lastOf (assignedIn? name) sources)) := by
  have silent {α β : Type} (as : List α) : lastOf (fun _ => (none : Option β)) as = none :=
    lastOf_eq_none_iff.mpr fun _ _ => rfl
  rw [VariableTable.get_foldl_change]
  simp only [changesOf, lastOf_append, lastOf_map, Change.declaration?, Change.textValue?,
    Change.fileValue?, silent, Option.none_or, Option.or_none]

/-! ## Variables that are not concerned -/

/-- The change declares the variable, redeclares it, or assigns to it. A file concerns all variables
that it assigns to, unless it is refused. -/
def Change.Concerns (name : String) : Change → Prop
  | .declare v => v.name = name
  | .assignFile source =>
    ∃ values value, assignmentsOf source = .ok values ∧ (name, value) ∈ values
  | .assignText other _ => other = name

/-- A file that does not concern a variable assigns nothing to it. -/
theorem assignedIn?_eq_none {name : String} {source : Source}
    (unconcerned : ¬ (Change.assignFile source).Concerns name) : assignedIn? name source = none := by
  unfold assignedIn?
  cases read : assignmentsOf source with
  | error failure => rfl
  | ok values =>
    refine Entries.get?_eq_none_iff.mpr fun member => unconcerned ?_
    obtain ⟨⟨_, value⟩, assigned, rfl⟩ := List.mem_map.mp member
    exact ⟨values, value, read, List.mem_reverse.mp assigned⟩

/-- A change leaves every variable that it does not concern as it is. -/
theorem VariableTable.get_change_of_unconcerned {table : VariableTable} {name : String}
    {change : Change} (unconcerned : ¬ change.Concerns name) :
    (table.change change).get name = table.get name := by
  rw [get_eq_currentValue, get_eq_currentValue, declared_change, fromFiles_change,
    fromCommand_change]
  -- It supplies nothing for the variable, neither a declaration nor a value.
  cases change with
  | declare v =>
    have silent : (Change.declare v).declaration? name = none := if_neg unconcerned
    rw [silent]
    rfl
  | assignFile source =>
    have silent : (Change.assignFile source).fileValue? name = none :=
      assignedIn?_eq_none unconcerned
    rw [silent]
    rfl
  | assignText other value =>
    have silent : (Change.assignText other value).textValue? name = none := if_neg unconcerned
    rw [silent]
    rfl

/-- Changes that do not concern a variable leave it alone. -/
theorem VariableTable.get_foldl_of_unconcerned {name : String} {changes : List Change}
    (unconcerned : ∀ change ∈ changes, ¬ change.Concerns name) (table : VariableTable) :
    (changes.foldl change table).get name = table.get name := by
  induction changes generalizing table with
  | nil => rfl
  | cons first rest ih =>
    rw [List.foldl_cons, ih fun change member => unconcerned change (.tail first member)]
    exact get_change_of_unconcerned (unconcerned first List.mem_cons_self)

/-- A variable without a declaration has no value, whatever it was given. -/
theorem currentValue_eq_undeclared_iff {name : String} {declared? : Option Variable}
    {given? : Option Value} :
    currentValue name declared? given? = .error (.undeclared name) ↔ declared? = none := by
  unfold currentValue
  cases declared? with
  | none => simp
  | some v =>
    simp only [reduceCtorEq, iff_false]
    cases (given? <|> v.default?) with
    | none => simp
    | some value => simp

/-! ## Files that are refused -/

/-- A file is refused exactly if it is no body, or if a block is among its assignments. -/
theorem assignFile_eq_error_iff {table : VariableTable} {source : Source} :
    (∃ e, table.assignFile source = .error e) ↔
      (∃ e, bodyOf source = .error e) ∨
        ∃ body start kind labels inner, bodyOf source = .ok body ∧
          Item.block start kind labels inner ∈ body := by
  have refused : (∃ e, table.assignFile source = .error e) ↔
      ∃ e, assignmentsOf source = .error e := by
    simp [VariableTable.assignFile, except_bind_eq_error, pure, Except.pure]
  have block (item : Item) : (∃ e, assignmentOf source item = .error e) ↔
      ∃ start kind labels inner, item = .block start kind labels inner := by
    cases item with
    | «attribute» => simp [assignmentOf]
    | block => simp [assignmentOf]
  rw [refused, assignmentsOf, except_bind_eq_error]
  simp only [mapM_eq_error_iff, block]
  constructor
  · rintro (refusal | ⟨body, read, _, member, start, kind, labels, inner, rfl⟩)
    · exact .inl refusal
    · exact .inr ⟨body, start, kind, labels, inner, read, member⟩
  · rintro (refusal | ⟨body, start, kind, labels, inner, read, member⟩)
    · exact .inl refusal
    · exact .inr ⟨body, read, _, member, start, kind, labels, inner, rfl⟩

end HclLint.Eval
