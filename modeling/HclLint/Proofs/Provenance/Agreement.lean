/-
# Where the model and the evaluator agree

An expression is read twice: in its file when the configuration is built, and alone, off the text
of its token, when the token is resolved. On literals both readings agree, wherever a literal was
cut out. On other expressions they need not. Between brackets line breaks are blanks, so a list may
hold an expression that goes on in another line, and its text alone is refused.

## Main definitions

* `Token.IsAgreed`: the token's text is read as an expression of the token's kind.
* `GivesEach`: a file all of whose tokens have a property.

## Main statements

* `givesEach_isSettled`: the literals in a file's values are agreed, and resolve.
* `each_of_load`: what holds of the tokens in all files holds of those in a configuration.
* `load_literals_agreed`: so are the literals in a configuration and in its assignments.
* `load_brokenReference_refused`: a retained token that the evaluator refuses.
-/

import HclLint.Proofs.Eval.Verbatim
import HclLint.Proofs.Hcl.Rereading
import HclLint.Proofs.Provenance.Configuration

namespace HclLint.Model

open HclLint.Text HclLint.Hcl HclLint.Eval

/-- The evaluator reads the token's text as an expression of the token's kind. -/
def Token.IsAgreed (token : Token) : Prop :=
  ∃ e, parse token.text = .ok e ∧ Token.Kind.ofExpr e = token.kind

/-- Whatever the table, the token denotes a text, unless it is null. -/
def Token.Resolves (token : Token) : Prop :=
  ∀ table, (∃ text, resolveScalar table token = .ok text) ∨
    token.kind = .null ∧ resolveScalar table token = .error (.unsupported token.text .null)

/-- If the token is a literal, then the evaluator agrees on it and resolves it. -/
def Token.IsSettled (token : Token) : Prop :=
  token.kind.isLiteral = true → token.IsAgreed ∧ token.Resolves

/-! ## Tokens of expressions -/

/-- A token is resolved by the form that its text was read as. -/
theorem resolveScalar_eq_of_parse {token : Token} {extent : Extent} {form : Form}
    (table : VariableTable) (parsed : parse token.text = .ok (.mk extent form)) :
    ∃ entering, resolveScalar table token =
      scalarForm table entering token.text extent.text form := by
  refine ⟨enter (scalarToken table table.declared.length) [], ?_⟩
  rw [resolveScalar, Eval.depthOf, scalarToken, parsed]
  rfl

/-- A literal that is agreed resolves without any table. -/
theorem resolves_of_isAgreed {token : Token} (literal : token.kind.isLiteral = true)
    (agreed : token.IsAgreed) : token.Resolves := by
  intro table
  obtain ⟨⟨extent, form⟩, parsed, same⟩ := agreed
  obtain ⟨entering, resolved⟩ := resolveScalar_eq_of_parse table parsed
  rw [← same] at literal
  cases form with
  | string value => exact .inl ⟨value, resolved⟩
  | number value => exact .inl ⟨extent.text, resolved⟩
  | bool value => exact .inl ⟨_, resolved⟩
  | null => exact .inr ⟨same.symm, resolved⟩
  | _ => cases literal

/-- Compound forms give no literals. -/
theorem isLiteral_ofForm_of_isCompound {form : Form} (compound : form.isCompound = true) :
    (Token.Kind.ofForm form).isLiteral = false := by
  cases form <;> first | rfl | cases compound

/-- That all literals in its value are settled is a property that an expression acquires where it
is read. -/
theorem isAcquired_isSettled (source : Source) :
    Grammar.IsAcquired source.text.toList fun e =>
      (Value.ofExpr source e).Each Token.IsSettled where
  plain {form c next} _ _ _ reads := by
    refine each_ofExpr (fun literal => ?_) (by simp [Grammar.members_of_readsPlain reads])
    obtain ⟨e, read, same⟩ := Grammar.readExpr_of_readsPlain reads
    have text : (tokenOf source (.mk ⟨c.offset, String.ofList (c.upTo next)⟩ form)).text =
        String.ofList (trim (c.upTo next)) := by
      simp [tokenOf, keptText, Expr.text, Expr.extent]
    have agreed : (tokenOf source (.mk ⟨c.offset, String.ofList (c.upTo next)⟩ form)).IsAgreed :=
      ⟨e, parse_eq_ok (text ▸ read), congrArg Token.Kind.ofForm same⟩
    exact ⟨agreed, resolves_of_isAgreed literal agreed⟩
  built {form c next} _ _ _ built := by
    refine each_ofExpr (fun literal => ?_) built.2
    cases (isLiteral_ofForm_of_isCompound built.1).symm.trans literal

/-! ## Files -/

/-- Every token in the values of the file has a property. -/
def GivesEach (good : Token → Prop) (source : Source) : Prop :=
  ∀ body, bodyOf source = .ok body →
    ∀ item ∈ body, item.Each fun e => (Value.ofExpr source e).Each good

section Files

variable {source : Source} {good : Token → Prop}

theorem each_ofItem {item : Item}
    (each : item.Each fun e => (Value.ofExpr source e).Each good) :
    (Value.ofItem source item).Each good := by
  induction each with
  | «attribute» key given => exact given
  | block start kind labels inside ih => exact each_map.mpr (each_bodyEntries each_nil ih)

/-- The tokens of an occurrence that was read from a file are tokens of that file. -/
theorem each_of_isReadFrom {key : ResourceKey} {name : String} {o : Occurrence}
    (gives : GivesEach good source) (given : o.IsReadFrom source key name) : o.value.Each good := by
  obtain ⟨body, start, inner, item, read, block, member, _, same, _⟩ := given
  obtain _ | ⟨_, _, _, inside⟩ := gives body read _ block
  rw [same]
  exact each_ofItem (inside item member)

/-- So are those of a default. -/
theorem each_of_isDefaultIn {name : String} {value : Value} (gives : GivesEach good source)
    (given : value.IsDefaultIn source name) : value.Each good := by
  obtain ⟨body, start, inner, e, read, block, member, rfl⟩ := given
  obtain _ | ⟨_, _, _, inside⟩ := gives body read _ block
  exact each_ofItem (inside _ member)

/-- And so are those of an assigned value. -/
theorem each_of_isAssignedIn {name : String} {value : Value} (gives : GivesEach good source)
    (given : value.IsAssignedIn source name) : value.Each good := by
  obtain ⟨body, e, read, member, rfl⟩ := given
  exact each_ofItem (gives body read _ member)

/-- All literals in the values of a file are settled. -/
theorem givesEach_isSettled (source : Source) : GivesEach Token.IsSettled source :=
  fun _ read => forall_of_readBody (isInherited_each _ _)
    ((Grammar.isSound_levelOf (isAcquired_isSettled source) _).expr .line)
    (readBody_of_bodyOf read)

end Files

/-- What holds of all tokens in the files of a set, and in some files of assignments, holds of those
that the configuration keeps. -/
theorem each_of_load {good : Token → Prop} {precedence : Precedence} {set : SourceSet}
    {c : Configuration} {varFiles : List Source} {table : VariableTable}
    (gives : ∀ source ∈ set.files, GivesEach good source)
    (gives' : ∀ source ∈ varFiles, GivesEach good source)
    (loaded : Configuration.load precedence set = .ok c)
    (assigned : varFiles.foldlM VariableTable.assignFile c.table = .ok table) :
    (∀ t ∈ c.templates, ∀ r ∈ t.resources, ∀ name a, (name, a) ∈ r.attributes →
      ∀ o ∈ a.occurrences, o.value.Each good) ∧
    (∀ name v, (name, v) ∈ table.declared → ∀ value, v.default? = some value → value.Each good) ∧
    ∀ name value, (name, value) ∈ table.fromFiles → value.Each good := by
  obtain ⟨all, read, rfl⟩ := load_eq_ok loaded
  have sound := isReadFrom_of_mapM read
  refine ⟨?_, ?_, ?_⟩
  · intro t inTemplates r member name a attributed o given
    obtain ⟨source, known, readFrom, _⟩ :=
      isReadFrom_templates_ofDeclared (fun d known => (sound d known).1) t inTemplates r member
        name a attributed o given
    exact each_of_isReadFrom (gives source known) readFrom
  · intro name v member value default
    rw [declared_of_foldlM_assignFile assigned] at member
    obtain ⟨_, readFrom⟩ := isReadFrom_table_ofDeclared (fun d known => (sound d known).2) member
    obtain ⟨source, known, given, _⟩ := readFrom value default
    exact each_of_isDefaultIn (gives source known) given
  · intro name value member
    obtain ⟨source, known, given, _⟩ | before := isAssignedIn_of_foldlM assigned member
    · exact each_of_isAssignedIn (gives' source known) given
    · have start : (Configuration.ofDeclared precedence (.ofDeclarations all)).table.fromFiles =
          [] := fromFiles_foldl_declare _ _
      rw [start] at before
      cases before

/-- **Every literal that is kept is read again, with the same kind, and resolves.** Take the
configuration of a set of files and then some files of assignments that are all accepted. Wherever
in an attribute, in a default or in an assigned value a token stands for a literal, in an item of a
list, an entry of an object or a nested block, its own text is read as an expression of the token's
kind. So it resolves to a text, and only null does not. -/
theorem load_literals_agreed {precedence : Precedence} {set : SourceSet} {c : Configuration}
    {varFiles : List Source} {table : VariableTable}
    (loaded : Configuration.load precedence set = .ok c)
    (assigned : varFiles.foldlM VariableTable.assignFile c.table = .ok table) :
    (∀ t ∈ c.templates, ∀ r ∈ t.resources, ∀ name a, (name, a) ∈ r.attributes →
      ∀ o ∈ a.occurrences, o.value.Each Token.IsSettled) ∧
    (∀ name v, (name, v) ∈ table.declared → ∀ value, v.default? = some value →
      value.Each Token.IsSettled) ∧
    ∀ name value, (name, value) ∈ table.fromFiles → value.Each Token.IsSettled :=
  each_of_load (fun source _ => givesEach_isSettled source)
    (fun source _ => givesEach_isSettled source) loaded assigned

/-- A variable whose default holds a literal, and a list with a reference that goes on in another
line. -/
def brokenReference : SourceSet := .ofList [
  ⟨"main.tf", "variable \"names\" \x7b\n  default = \x7b web = \"w\" \x7d\n\x7d\n" ++
    "resource \"x\" \"y\" \x7b\n  list = [\n    var.names\n      .web,\n  ]\n\x7d\n"⟩]

theorem eq_scalar_of_scalar? {value : Value} {token : Token} (found : value.scalar? = some token) :
    value = .scalar token := by
  cases value <;> cases found
  rfl

theorem holds_of_mem_list? {value item : Value} {token : Token}
    (member : item ∈ value.list?.getD []) (held : item.Holds token) : value.Holds token := by
  cases value with
  | list items => exact .item member held
  | _ => cases member

theorem holds_of_mem_map? {value : Value} {entry : String × Value} {token : Token}
    (member : entry ∈ value.map?.getD []) (held : entry.2.Holds token) : value.Holds token := by
  cases value with
  | map entries => exact .entry member held
  | _ => cases member

/-- The literal in the default is settled. -/
theorem load_literals_agreed_brokenReference :
    ∃ c, Configuration.load .lexical brokenReference = .ok c ∧
      ∃ v value token, ("names", v) ∈ c.table.declared ∧ v.default? = some value ∧
        value.Holds token ∧ token.kind = .string ∧ token.IsAgreed ∧ token.Resolves := by
  have kept : (Configuration.load .lexical brokenReference).toOption.any (fun c =>
      ((c.table.declared.get? "names").bind (·.default?)).any fun value =>
        (value.map?.getD []).any fun entry =>
          entry.2.scalar?.any (·.kind == .string)) = true := by decide +kernel
  obtain ⟨c, loaded, kept⟩ := exists_eq_ok_of_any kept
  simp only [List.any_eq_true, Option.any_eq_true, beq_iff_eq] at kept
  obtain ⟨value, default, entry, member, token, found, literal⟩ := kept
  obtain ⟨v, declared, default⟩ := Option.bind_eq_some_iff.mp default
  have listed := Entries.mem_of_get?_eq_some declared
  have held : value.Holds token :=
    holds_of_mem_map? member (eq_scalar_of_scalar? found ▸ .scalar)
  have assigned : [].foldlM VariableTable.assignFile c.table = .ok c.table := rfl
  obtain ⟨_, settled, _⟩ := load_literals_agreed loaded assigned
  obtain ⟨agreed, resolves⟩ :=
    settled "names" v listed value default token held (by rw [literal]; rfl)
  exact ⟨c, loaded, v, value, token, listed, default, held, literal, agreed, resolves⟩

/-- The list holds a token that the evaluator refuses, because its text is read without the
brackets around it. -/
theorem load_brokenReference_refused :
    ∃ c, Configuration.load .lexical brokenReference = .ok c ∧
      ∃ t ∈ c.templates, ∃ r ∈ t.resources, ∃ name a, (name, a) ∈ r.attributes ∧
        ∃ o ∈ a.occurrences, ∃ token, o.value.Holds token ∧
          ∃ complaint, parse token.text = .error (.malformed token.text complaint) ∧
            resolveScalar c.table token = .error (.malformed token.text complaint) := by
  have kept : (Configuration.load .lexical brokenReference).toOption.any (fun c =>
      c.templates.any fun t => t.resources.any fun r => r.attributes.any fun entry =>
        entry.2.occurrences.any fun o => (o.value.list?.getD []).any fun item =>
          item.scalar?.any fun token => token.text == "var.names\n      .web") = true := by
    decide +kernel
  obtain ⟨c, loaded, kept⟩ := exists_eq_ok_of_any kept
  simp only [List.any_eq_true, Option.any_eq_true, beq_iff_eq] at kept
  obtain ⟨t, inTemplates, r, inResources, ⟨name, a⟩, given, o, occurs, item, member, token, found,
    text⟩ := kept
  have held : o.value.Holds token :=
    holds_of_mem_list? member (eq_scalar_of_scalar? found ▸ .scalar)
  have refused : (readExpr "var.names\n      .web").toOption.isNone = true := by decide +kernel
  obtain ⟨complaint, refused⟩ : ∃ complaint, parse token.text =
      .error (.malformed token.text complaint) := by
    rw [text, parse]
    cases read : readExpr "var.names\n      .web" with
    | error refusal => exact ⟨refusal.complaint, rfl⟩
    | ok e =>
      rw [read] at refused
      cases refused
  refine ⟨c, loaded, t, inTemplates, r, inResources, name, a, given, o, occurs, token, held,
    complaint, refused, ?_⟩
  rw [resolveScalar, Eval.depthOf, scalarToken, refused]
  rfl

end HclLint.Model
