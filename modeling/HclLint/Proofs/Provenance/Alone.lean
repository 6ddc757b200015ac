/-
# Values where they were written and alone

What stands between signs of its own may be cut out of its file: in parentheses, brackets, braces
and markers line breaks are blanks there and in the text that was cut out. So in files without
heredocs both readings of a template agree, in how many lines it may be written. An expression may
go on in another line only because of the brackets around it. One that is written in one line is
read alike there and alone, whatever it is made of. With the literals, which agree in every file,
both readings agree on all tokens but those of expressions with line breaks.

Files with heredocs are left out, since that a heredoc has no lines may be told only by what stands
behind it.

## Main statements

* `givesEach_agreed_of_lacksMark`: in a file without heredocs both readings agree on all templates,
  and on all expressions in one line.
* `load_tokens_agreed`: so they do in a configuration and in its assignments.
-/

import HclLint.Proofs.Eval.Unplaced
import HclLint.Proofs.Hcl.Members
import HclLint.Proofs.Provenance.Agreement

namespace HclLint.Model

open HclLint.Text HclLint.Hcl HclLint.Hcl.Grammar HclLint.Eval

section Files

variable {source : Source}

/-- Both readings agree on a template and on what is written in one line, if that is what its text
is read as. -/
theorem each_agreed_of_isReread {e : Expr} (reread : e.IsReread) :
    (Value.ofExpr source e).Each fun token =>
      token.kind = .template ∨ InLine token.text.toList → token.IsAgreed := by
  induction reread with
  | @mk e kept own inside ih =>
    obtain ⟨extent, form⟩ := e
    have text : (tokenOf source (.mk extent form)).text = (Expr.mk extent form).text := kept
    refine each_ofExpr (fun known => ?_) ih
    have signs : form.opener?.isSome = true ∨ InLine (Expr.mk extent form).text.toList := by
      rcases known with template | line
      -- Only quotes and heredocs give templates, and these have signs of their own.
      · refine .inl ?_
        cases form <;> first | rfl | cases template
      · exact .inr (text ▸ line)
    obtain ⟨e', read, same⟩ := own signs
    refine ⟨e', parse_eq_ok (text ▸ read), ?_⟩
    calc Token.Kind.ofForm e'.form
        _ = .ofForm e'.form.unplaced := (ofForm_unplaced _).symm
        _ = .ofForm form.unplaced := congrArg _ same
        _ = .ofForm form := ofForm_unplaced form

/-- In a file without a doubled `<`, and so without heredocs, both readings agree on all tokens but
those of expressions with line breaks. -/
theorem givesEach_agreed_of_lacksMark (lacks : Grammar.LacksMark source.text.toList) :
    GivesEach (fun token => token.kind ≠ .expression ∨ InLine token.text.toList → token.IsAgreed)
      source := by
  intro body read item member
  have reread := Grammar.each_isReread_of_readBody lacks (readBody_of_bodyOf read) item member
  have settled := givesEach_isSettled source body read item member
  refine (reread.and settled).imp fun e ⟨again, literals⟩ token held plain => ?_
  have alone := each_agreed_of_isReread again token held
  cases kind : token.kind with
  | expression => exact alone (.inr (plain.resolve_left (not_not_intro kind)))
  | template => exact alone (.inl kind)
  | _ => exact (literals token held (by rw [kind]; rfl)).1

end Files

/-- **In files without heredocs every template that is kept is read again as a template, every
expression in one line as such an expression, and every literal with its kind.** Take the
configuration of a set of files and then some files of assignments that are all accepted, where no
file has a doubled `<`. Wherever in an attribute, in a default or in an assigned value a token
stands for a template or a literal, in however many lines it is written, or for any expression in
one line, its own text is read as an expression of the token's kind. -/
theorem load_tokens_agreed {precedence : Precedence} {set : SourceSet} {c : Configuration}
    {varFiles : List Source} {table : VariableTable}
    (lacks : ∀ source ∈ set.files, Grammar.LacksMark source.text.toList)
    (lacks' : ∀ source ∈ varFiles, Grammar.LacksMark source.text.toList)
    (loaded : Configuration.load precedence set = .ok c)
    (assigned : varFiles.foldlM VariableTable.assignFile c.table = .ok table) :
    (∀ t ∈ c.templates, ∀ r ∈ t.resources, ∀ name a, (name, a) ∈ r.attributes →
      ∀ o ∈ a.occurrences, o.value.Each fun token =>
        token.kind ≠ .expression ∨ InLine token.text.toList → token.IsAgreed) ∧
    (∀ name v, (name, v) ∈ table.declared → ∀ value, v.default? = some value →
      value.Each fun token =>
        token.kind ≠ .expression ∨ InLine token.text.toList → token.IsAgreed) ∧
    ∀ name value, (name, value) ∈ table.fromFiles → value.Each fun token =>
      token.kind ≠ .expression ∨ InLine token.text.toList → token.IsAgreed :=
  each_of_load (fun source known => givesEach_agreed_of_lacksMark (lacks source known))
    (fun source known => givesEach_agreed_of_lacksMark (lacks' source known)) loaded assigned

end HclLint.Model
