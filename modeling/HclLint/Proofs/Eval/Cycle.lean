/-
# Reported cycles

An evaluation fails with a cycle where it comes to a variable that is being followed. The names
that it reports are then a chain of references in the table: the token refers to the first variable,
the current value of each holds a token that refers to the next, and the last one closes the chain.
So where no variable leads back to itself, no cycle is reported, however many ways lead to it.

## Main definitions

* `TextRefersTo`, `VariableTable.RefersTo`: the references of a text, and those of a variable's
  current value.
* `IsReferenceCycle`: a chain of references that comes back to one of its variables.

## Main statements

* `Evaluation.exists_chain`: what an evaluation reports as a cycle.
* `cycles_are_references`: what resolving a token reports as a cycle, and when it reports none.
-/

import Mathlib.Data.List.Chain
import HclLint.Proofs.Eval.Termination
import HclLint.Proofs.Eval.Verbatim
import HclLint.Proofs.Provenance.Value

namespace HclLint.Eval

open HclLint.Text HclLint.Hcl HclLint.Model

variable {α : Type} {table : VariableTable} {evaluate : Evaluator α} {followed names : List String}

/-- The text is an expression that looks the variable up. -/
def TextRefersTo (text name : String) : Prop :=
  ∃ e steps, parse text = .ok e ∧ LooksUp name steps e

/-- The current value of a variable holds a token, at any depth of lists and maps, whose text
refers to the other variable. -/
def VariableTable.RefersTo (table : VariableTable) (name other : String) : Prop :=
  ∃ value token, table.get name = .ok value ∧ value.Holds token ∧ TextRefersTo token.text other

/-- The names are a chain of references from a text on, through distinct declared variables, and
the last one is the first to come again. -/
structure IsReferenceCycle (table : VariableTable) (text : String) (names : List String) :
    Prop where
  length : 2 ≤ names.length
  distinct : names.dropLast.Nodup
  declared : names.dropLast ⊆ table.names
  closed : ∃ last ∈ names.getLast?, last ∈ names.dropLast
  starts : ∃ first ∈ names.head?, TextRefersTo text first
  linked : names.IsChain table.RefersTo

/-! ## Chains of references -/

/-- What steps into a value reach is held by it. -/
theorem Reaches.holds {value target : Value} {path : List Step} {token : Token}
    (reached : Reaches value path target) (held : target.Holds token) : value.Holds token := by
  induction reached with
  | here value => exact held
  | step taken _ ih =>
    cases taken with
    | attributeKey found => exact .entry (Entries.mem_of_get?_eq_some found) (ih held)
    | stringKey found => exact .entry (Entries.mem_of_get?_eq_some found) (ih held)
    | legacyIndex found => exact .item (List.mem_of_getElem? found) (ih held)
    | numberIndex _ found => exact .item (List.mem_of_getElem? found) (ih held)

theorem AsksFor.textRefersTo {e : Expr} {name text : String} {token : Token}
    (asked : AsksFor table e name token) (parsed : parse text = .ok e) :
    TextRefersTo text name := by
  obtain ⟨steps, _, looksUp, _⟩ := asked
  exact ⟨e, steps, parsed, looksUp⟩

theorem AsksFor.refersTo {e : Expr} {name other : String} {token : Token}
    (asked : AsksFor table e name token) (refers : TextRefersTo token.text other) :
    table.RefersTo name other := by
  obtain ⟨_, value, _, current, reached⟩ := asked
  exact ⟨value, token, current, reached.holds .scalar, refers⟩

theorem reportsNoCycle_parse (text : String) : ReportsNoCycle (parse text) := by
  unfold parse
  cases readExpr text with
  | error => exact reportsNoCycle_error nofun
  | ok e => exact reportsNoCycle_ok e

/-- The names of a reported cycle begin with the variables that are being followed. A chain of
references comes behind them, from the token on, and comes back to one of them all. -/
theorem Evaluation.exists_chain {admits : List String → Prop} {token : Token}
    {outcome : Except EvalError α} (hinges : evaluate.Hinges table)
    (evaluation : Evaluation table evaluate admits followed token outcome)
    (reported : outcome = .error (.circular names)) :
    ∃ behind last, names = followed ++ behind ++ [last] ∧
      admits (followed ++ behind) ∧ last ∈ followed ++ behind ∧
      (∀ first ∈ (behind ++ [last]).head?, TextRefersTo token.text first) ∧
      (behind ++ [last]).IsChain table.RefersTo := by
  induction evaluation with
  | @malformed _ token failure _ refused =>
    obtain rfl := Except.error.inj reported
    exact absurd refused (reportsNoCycle_parse token.text names)
  | @evaluated followed token e here parsed entering _ refused ih =>
    obtain ⟨name, inner, asked, failed⟩ := (hinges entering token e).circular reported
    have refers := asked.textRefersTo parsed
    by_cases member : name ∈ followed
    -- The variable is being followed, and the chain ends with it.
    · rw [refused name inner asked member] at failed
      obtain rfl := EvalError.circular.inj (Except.error.inj failed)
      refine ⟨[], name, by simp, by simpa using here, by simpa using member, ?_, .singleton name⟩
      rintro _ ⟨⟩
      exact refers
    -- The chain goes on behind the variable, from the token that is entered.
    · obtain ⟨behind, last, rfl, admitted, closed, onward, linked⟩ :=
        ih name inner asked member failed
      refine ⟨name :: behind, last, by simp, by simpa using admitted, by simpa using closed, ?_, ?_⟩
      · rintro _ ⟨⟩
        exact refers
      · exact List.isChain_cons.mpr ⟨fun other next => asked.refersTo (onward other next), linked⟩

/-- Whatever a token ends with by some rules, a cycle that it reports is one of references. -/
theorem EndsWith.isReferenceCycle {token : Token} {outcome : Except EvalError α}
    (hinges : evaluate.Hinges table) (ends : EndsWith table evaluate token outcome)
    (reported : outcome = .error (.circular names)) :
    IsReferenceCycle table token.text names := by
  obtain ⟨behind, last, rfl, followable, closed, refers, linked⟩ :=
    ends.evaluation.exists_chain hinges reported
  rw [List.nil_append] at followable closed ⊢
  obtain ⟨first, more, rfl⟩ := List.exists_cons_of_ne_nil (List.ne_nil_of_mem closed)
  exact {
    length := by simp
    distinct := by rw [List.dropLast_concat]; exact followable.distinct
    declared := by rw [List.dropLast_concat]; exact followable.declared
    closed := ⟨last, List.getLast?_concat, by rwa [List.dropLast_concat]⟩
    starts := ⟨first, rfl, refers first rfl⟩
    linked }

/-- A cycle of references leads from the text to a variable that leads back to itself. -/
theorem IsReferenceCycle.exists_transGen {text : String}
    (cycle : IsReferenceCycle table text names) :
    ∃ first name, TextRefersTo text first ∧ Relation.ReflTransGen table.RefersTo first name ∧
      Relation.TransGen table.RefersTo name name := by
  obtain ⟨first, head, refers⟩ := cycle.starts
  obtain ⟨last, closing, member⟩ := cycle.closed
  -- Along a chain, each variable leads to all that come behind it.
  have ordered : names.Pairwise (Relation.TransGen table.RefersTo) :=
    List.isChain_iff_pairwise.mp (cycle.linked.imp fun _ _ => .single)
  obtain ⟨front, rfl⟩ := List.getLast?_eq_some_iff.mp closing
  rw [List.dropLast_concat] at member
  have leads : ∀ name ∈ front, Relation.TransGen table.RefersTo name last := by
    intro name earlier
    exact (List.pairwise_append.mp ordered).2.2 name earlier last List.mem_cons_self
  obtain ⟨start, more, rfl⟩ := List.exists_cons_of_ne_nil (List.ne_nil_of_mem member)
  obtain rfl : start = first := Option.some.inj head
  exact ⟨start, last, refers, (leads start List.mem_cons_self).to_reflTransGen, leads last member⟩

/-- What resolving a token reports as a cycle is one of references. -/
theorem isReferenceCycle_of_circular {token : Token}
    (reported : resolveScalar table token = .error (.circular names) ∨
      resolveList table token = .error (.circular names)) :
    IsReferenceCycle table token.text names := by
  rcases reported with reported | reported
  · exact (endsWith_resolveScalar table token).isReferenceCycle hinges_scalarEvaluator reported
  · obtain ⟨outcome, ends, moved⟩ := endsWith_resolveList table token
    refine ends.isReferenceCycle hinges_listEvaluator ?_
    rw [moved] at reported
    cases outcome with
    | ok items => cases reported
    | error failure => exact congrArg Except.error (Except.error.inj reported)

/-- **A reported cycle is a chain of references, and where there is none no cycle is reported.**
If resolving a token as a text or as a list fails with a cycle, the names are at least two, all but
the last are distinct declared variables, and the last is one of them. The token's text refers to
the first, and a token in the current value of each refers to the next. If no variable to which
references lead from the token leads back to itself, neither fails with a cycle. -/
theorem cycles_are_references (table : VariableTable) (token : Token) :
    (∀ names, resolveScalar table token = .error (.circular names) ∨
      resolveList table token = .error (.circular names) →
        IsReferenceCycle table token.text names) ∧
    ((∀ first name, TextRefersTo token.text first →
      Relation.ReflTransGen table.RefersTo first name →
        ¬ Relation.TransGen table.RefersTo name name) →
      ∀ names, resolveScalar table token ≠ .error (.circular names) ∧
        resolveList table token ≠ .error (.circular names)) := by
  refine ⟨fun _ => isReferenceCycle_of_circular, fun acyclic names => ?_⟩
  have none : ¬ IsReferenceCycle table token.text names := fun cycle => by
    obtain ⟨first, name, refers, leads, back⟩ := cycle.exists_transGen
    exact acyclic first name refers leads back
  exact ⟨fun reported => none (isReferenceCycle_of_circular (.inl reported)),
    fun reported => none (isReferenceCycle_of_circular (.inr reported))⟩

/-- Two variables that refer to each other, one of them from within a list. -/
def mutualTable : VariableTable :=
  (VariableTable.empty.declare
      ⟨"ping", .unknown, some (.list [.scalar ⟨.expression, "var.pong", .unknown⟩])⟩).declare
    ⟨"pong", .unknown, some (.scalar ⟨.template, "\"$\x7bvar.ping[0]\x7d!\"", .unknown⟩)⟩

/-- One variable, which holds a text. -/
def textTable : VariableTable :=
  VariableTable.empty.declare ⟨"base", .unknown, some (.scalar (.ofText "b"))⟩

/-- A text refers to no variable. -/
theorem not_textRefersTo_ofText (value name : String) :
    ¬ TextRefersTo (Token.ofText value).text name := by
  rintro ⟨e, steps, parsed, looksUp⟩
  obtain ⟨extent, plain⟩ := exists_parse_ofText value
  obtain rfl := Except.ok.inj (plain.symm.trans parsed)
  cases looksUp

theorem not_refersTo_textTable (name other : String) : ¬ textTable.RefersTo name other := by
  rintro ⟨value, token, current, held, refers⟩
  have found : textTable.get name =
      if "base" = name then .ok (.scalar (.ofText "b")) else .error (.undeclared name) := by
    rw [textTable, VariableTable.get_declare]
    rfl
  rw [found] at current
  split at current
  · obtain rfl := Except.ok.inj current
    obtain _ | _ := held
    exact not_textRefersTo_ofText "b" other refers
  · cases current

/-- Following the two variables that refer to each other reports a cycle. Using the other one twice
does not. -/
theorem cycles_are_references_mutual :
    (resolveScalar mutualTable ⟨.expression, "var.pong", .unknown⟩ =
        .error (.circular ["pong", "ping", "pong"]) ∧
      IsReferenceCycle mutualTable "var.pong" ["pong", "ping", "pong"]) ∧
    (∀ name, ¬ Relation.TransGen textTable.RefersTo name name) ∧
      resolveScalar textTable ⟨.template, "\"$\x7bvar.base\x7d$\x7bvar.base\x7d\"", .unknown⟩ ≠
        .error (.circular ["base", "base"]) := by
  have reported : resolveScalar mutualTable ⟨.expression, "var.pong", .unknown⟩ =
      .error (.circular ["pong", "ping", "pong"]) := by decide +kernel
  have acyclic : ∀ name, ¬ Relation.TransGen textTable.RefersTo name name := by
    intro name back
    obtain ⟨next, refers, _⟩ := Relation.TransGen.head'_iff.mp back
    exact not_refersTo_textTable name next refers
  have shared := (cycles_are_references textTable
    ⟨.template, "\"$\x7bvar.base\x7d$\x7bvar.base\x7d\"", .unknown⟩).2
      (fun _ name _ _ => acyclic name) ["base", "base"]
  exact ⟨⟨reported, (cycles_are_references mutualTable _).1 _ (.inl reported)⟩, acyclic, shared.1⟩

end HclLint.Eval
