/-
# Texts from the command line are read back verbatim

An assignment on the command line is split at its first equals sign. The text behind the sign
becomes the token of a string literal, which no reference and no template can be read into, and
every reference to the variable then gives the same text again.

## Main statements

* `readAssignment?_append`: an assignment is taken apart where it was put together.
* `resolveScalar_ofText`: the token of a text denotes it.
* `assignText_read_back`: an assigned text is what references to the variable denote.
-/

import HclLint.Command.Arguments
import HclLint.Proofs.Eval.Adequacy
import HclLint.Proofs.Hcl.Reference

namespace HclLint.Eval

open HclLint.Text HclLint.Hcl HclLint.Hcl.Grammar HclLint.Model HclLint.Command

variable {table : VariableTable} {name value : String} {token : Token}

theorem readAssignment?_append (known : isIdentifier name = true) (value : String) :
    readAssignment? (name ++ "=" ++ value) = some (name, value) := by
  have noSign : ∀ x ∈ name.toList, (x != '=') = true := by
    refine forall_mem_of_isIdentifier known (fun x start => ?_) fun x goesOn => ?_
    · simpa using ne_of_isIdentifierStart (x := '=') start rfl
    · rw [bne_iff_ne]
      rintro rfl
      cases goesOn
  have text : (name ++ "=" ++ value).toList = name.toList ++ '=' :: value.toList := by simp
  have some : name.toList.isEmpty = false := by
    obtain ⟨first, more, same, _⟩ := exists_toList_cons known
    rw [same]
    rfl
  rw [readAssignment?, text, List.dropWhile_append_of_pos noSign,
    List.takeWhile_append_of_pos noSign]
  simp [trim_of_isIdentifier known, some]

theorem parse_eq_ok {text : String} {e : Expr} (read : readExpr text = .ok e) :
    parse text = .ok e := by
  rw [parse, read]
  rfl

/-- The token of a text is parsed as the plain string of that text. -/
theorem exists_parse_ofText (value : String) :
    ∃ extent, parse (Token.ofText value).text = .ok (.mk extent (.string value)) := by
  obtain ⟨⟨extent, form⟩, read, plain⟩ := readExpr_literal value
  obtain rfl : form = .string value := plain
  exact ⟨extent, parse_eq_ok read⟩

/-- The token of a text denotes it, in any table. -/
theorem resolveScalar_ofText (table : VariableTable) (value : String) :
    resolveScalar table (.ofText value) = .ok value := by
  obtain ⟨extent, parsed⟩ := exists_parse_ofText value
  refine Derivation.resolveScalar_eq parsed (.string extent value) ?_
  exact List.forall_mem_singleton.mpr List.nodup_nil

/-! ## References to an assigned variable -/

/-- A reference to a variable whose current value is the token of a text has a derivation of that
text, which enters the variable and no other. -/
theorem exists_derivation_of_isReferenceTo {e : Expr} (refers : IsReferenceTo name e)
    (current : table.get name = .ok (.scalar (.ofText value))) :
    ∃ d : Derivation table e value, d.branches = [[name]] := by
  obtain ⟨extent, form⟩ := e
  obtain ⟨⟨rootExtent, rootForm⟩, traversal, isVar⟩ := refers
  obtain rfl : form = .traversal _ [.attribute name] := traversal
  obtain rfl : rootForm = .variable "var" := isVar
  obtain ⟨below, parsed⟩ := exists_parse_ofText value
  exact ⟨.reference extent rootExtent name current (.here _) parsed (.string below value), rfl⟩

theorem resolveScalar_reference (known : isIdentifier name = true)
    (current : table.get name = .ok (.scalar (.ofText value)))
    (reference : token.text = "var." ++ name) : resolveScalar table token = .ok value := by
  obtain ⟨e, read, refers⟩ := readExpr_reference known
  obtain ⟨d, once⟩ := exists_derivation_of_isReferenceTo refers current
  rw [← reference] at read
  refine d.resolveScalar_eq (parse_eq_ok read) ?_
  rw [once]
  exact List.forall_mem_singleton.mpr (List.nodup_singleton name)

theorem resolveScalar_interpolation (known : isIdentifier name = true)
    (current : table.get name = .ok (.scalar (.ofText value)))
    (reference : token.text = "\"$\x7bvar." ++ name ++ "\x7d\"") :
    resolveScalar table token = .ok value := by
  obtain ⟨⟨extent, form⟩, read, template⟩ := readExpr_interpolation known
  obtain ⟨part, isTemplate, inner, rfl, refers⟩ := template
  obtain rfl : form = .template [.interpolation ⟨false, false⟩ inner] := isTemplate
  obtain ⟨d, once⟩ := exists_derivation_of_isReferenceTo refers current
  rw [← reference] at read
  have resolved := Derivation.resolveScalar_eq (parse_eq_ok read)
    (.template extent (.interpolation ⟨false, false⟩ d .nil)) ?_
  · rwa [String.append_empty] at resolved
  · -- One branch enters the variable, and one ends where the template does.
    change ∀ branch ∈ d.branches ++ [[]], branch.Nodup
    rw [once]
    exact List.forall_mem_cons.mpr
      ⟨List.nodup_singleton name, List.forall_mem_singleton.mpr List.nodup_nil⟩

/-- **Texts from the command line are read back verbatim.** An assignment to a declared variable
is taken apart at its first equals sign. The variable's value is then a token that is parsed as
the plain string of the assigned text, and a reference to the variable denotes that text, alone
or in a template. So does the token itself, in any table. -/
theorem assignText_read_back (table : VariableTable) {name : String} (value : String)
    (known : isIdentifier name = true) (declared : name ∈ table.names) :
    readAssignment? (name ++ "=" ++ value) = some (name, value) ∧
      (∃ token extent, (table.assignText name value).get name = .ok (.scalar token) ∧
        parse token.text = .ok (.mk extent (.string value))) ∧
      (∀ token : Token,
        token.text = "var." ++ name ∨ token.text = "\"$\x7bvar." ++ name ++ "\x7d\"" →
          resolveScalar (table.assignText name value) token = .ok value) ∧
      ∀ other text, resolveScalar other (.ofText text) = .ok text := by
  have current : (table.assignText name value).get name = .ok (.scalar (.ofText value)) := by
    obtain ⟨v, found⟩ := Option.ne_none_iff_exists'.mp fun none =>
      Entries.get?_eq_none_iff.mp none declared
    rw [VariableTable.get_assignText, found]
    exact if_pos rfl
  obtain ⟨extent, parsed⟩ := exists_parse_ofText value
  refine ⟨readAssignment?_append known value, ⟨_, extent, current, parsed⟩, ?_,
    resolveScalar_ofText⟩
  rintro token (reference | reference)
  · exact resolveScalar_reference known current reference
  · exact resolveScalar_interpolation known current reference

/-- A text with quotes, markers and an equals sign is assigned over a default. -/
theorem assignText_read_back_markers :
    isIdentifier "region" = true ∧ resolveScalar
      ((VariableTable.empty.declare ⟨"region", .unknown, some (.scalar (.ofText "x"))⟩).assignText
        "region" "\"$$\x7b=%\x7b\n\\") ⟨.expression, "var.region", .unknown⟩ =
      .ok "\"$$\x7b=%\x7b\n\\" := by
  have known : isIdentifier "region" = true := by decide
  have readBack := assignText_read_back
    (VariableTable.empty.declare ⟨"region", .unknown, some (.scalar (.ofText "x"))⟩)
    "\"$$\x7b=%\x7b\n\\" known (List.mem_singleton.mpr rfl)
  exact ⟨known, readBack.2.2.1 _ (.inl rfl)⟩

end HclLint.Eval
