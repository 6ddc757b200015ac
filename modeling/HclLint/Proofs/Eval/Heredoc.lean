/-
# What a heredoc loses

The line break before its delimiter belongs to the parts of a heredoc, at the end of the last text.
Evaluation takes a line break from the end of the string that all parts make together, and not from
that text. The two are the same unless the break is a single line feed and a carriage return stands
before it, be it the last character of a value. Then the carriage return is lost as well.

## Main definitions

* `EndsWithBreak`: parts whose last text ends with a line break.

## Main statements

* `EndsHeredoc.endsWithBreak`: the parts of a heredoc end with the break in front of its delimiter,
  or with a line feed if its indentation was removed.
* `dropFinalBreak_append_eq_iff`: what is taken from the end of a string.
* `heredoc_loses_final_break`: what a heredoc denotes.
-/

import HclLint.Proofs.Eval.Strip
import HclLint.Proofs.Hcl.Heredoc

namespace HclLint.Eval

open HclLint.Text HclLint.Hcl HclLint.Hcl.Grammar HclLint.Model

variable {table : VariableTable}

/-! ## The last text of a heredoc -/

/-- The last part is a text, which ends with what was kept of a line break. -/
def EndsWithBreak (parts before : List Part) (last kept : String) : Prop :=
  parts = before ++ [.literal (last ++ kept)]

theorem exists_appendText_eq (text : List Char) (parts : List Part) :
    ∃ before last, EndsWithBreak (appendText text parts) before last (String.ofList text) := by
  induction parts with
  | nil => exact ⟨[], "", by simp [EndsWithBreak, appendText]⟩
  | cons part rest ih =>
    cases rest with
    | nil =>
      cases part with
      | literal content => exact ⟨[], content, rfl⟩
      | interpolation trim inner =>
        exact ⟨[.interpolation trim inner], "", by simp [EndsWithBreak, appendText]⟩
      | branch test yes no trims =>
        exact ⟨[.branch test yes no trims], "", by simp [EndsWithBreak, appendText]⟩
      | loop names collection body trims =>
        exact ⟨[.loop names collection body trims], "", by simp [EndsWithBreak, appendText]⟩
    | cons next rest =>
      obtain ⟨before, last, same⟩ := ih
      refine ⟨part :: before, last, ?_⟩
      rw [EndsWithBreak, List.cons_append, ← same]
      cases part <;> rfl

/-- Removing indentation changes the parts of a template one by one. -/
theorem exists_dedentBy_cons (width : Nat) (startsLine : Bool) (part : Part) (rest : List Part) :
    ∃ part' startsLine', dedentBy width startsLine (part :: rest) =
      part' :: dedentBy width startsLine' rest := by
  cases part with
  | literal content => exact ⟨_, _, rfl⟩
  | interpolation | branch | loop => exact ⟨_, false, rfl⟩

theorem exists_dedentText_eq (width : Nat) (startsLine : Bool) {text : List Char}
    (ends : text.getLast? = some '\n') :
    ∃ front, dedentText width startsLine text = front ++ ['\n'] :=
  ⟨_, by rw [dedentText, ends]; rfl⟩

/-- A text that ends with a line feed still does when its indentation is removed. -/
theorem EndsWithBreak.dedentBy {parts before : List Part} {last kept : String}
    (ends : EndsWithBreak parts before last kept) (feeds : kept.toList.getLast? = some '\n')
    (width : Nat) (startsLine : Bool) :
    ∃ before' last', EndsWithBreak (dedentBy width startsLine parts) before' last' "\n" := by
  obtain rfl := ends
  induction before generalizing startsLine with
  | nil =>
    have ending : (last ++ kept).toList.getLast? = some '\n' := by
      rw [String.toList_append, List.getLast?_append, feeds, Option.some_or]
    obtain ⟨front, same⟩ := exists_dedentText_eq width startsLine ending
    refine ⟨[], String.ofList front, ?_⟩
    rw [EndsWithBreak, List.nil_append, Grammar.dedentBy, same, String.ofList_append]
    rfl
  | cons part rest ih =>
    obtain ⟨part', startsLine', same⟩ :=
      exists_dedentBy_cons width startsLine part (rest ++ [.literal (last ++ kept)])
    obtain ⟨before', last', ends⟩ := ih startsLine'
    refine ⟨part' :: before', last', ?_⟩
    rw [List.cons_append, same, ends]
    rfl

/-- The text of a heredoc ends with a line break, spaces and tabs, and the delimiter. Its parts end
with that line break, or with a line feed if its indentation was removed. -/
structure BreaksBefore (text delimiter : String) (parts before : List Part) (last kept : String) :
    Prop where
  line : ∃ front ending spaces, text = front ++ ending ++ spaces ++ delimiter ∧
    (ending = "\n" ∨ ending = "\r\n") ∧ (∀ x ∈ spaces.toList, isSpace x = true) ∧
    (kept = ending ∨ kept = "\n")
  parts : EndsWithBreak parts before last kept

theorem BreaksBefore.kept_eq {text delimiter last kept : String} {parts before : List Part}
    (breaks : BreaksBefore text delimiter parts before last kept) :
    kept = "\n" ∨ kept = "\r\n" := by
  obtain ⟨_, ending, _, _, ends, _, same⟩ := breaks.line
  rcases same with rfl | rfl
  · exact ends
  · exact .inl rfl

theorem breaksBefore_of_endsHeredoc {text delimiter : String} {parts : List Part}
    (ends : EndsHeredoc text.toList delimiter parts) :
    parts = [] ∨ ∃ before last kept, BreaksBefore text delimiter parts before last kept := by
  cases ends with
  | empty => exact .inl rfl
  | @line front ending spaces raw indented same breaks blank =>
    refine .inr ?_
    obtain ⟨before, last, appended⟩ := exists_appendText_eq ending raw
    have feeds : (String.ofList ending).toList.getLast? = some '\n' := by
      rcases breaks with rfl | rfl <;> rfl
    -- The line of the delimiter is the same whatever becomes of the parts.
    have line {kept : String} (same' : kept = String.ofList ending ∨ kept = "\n") :
        ∃ front ending spaces, text = front ++ ending ++ spaces ++ delimiter ∧
          (ending = "\n" ∨ ending = "\r\n") ∧ (∀ x ∈ spaces.toList, isSpace x = true) ∧
          (kept = ending ∨ kept = "\n") := by
      refine ⟨String.ofList front, String.ofList ending, String.ofList spaces, ?_, ?_, ?_, same'⟩
      · rw [← String.toList_inj, same]
        simp only [String.toList_append, String.toList_ofList]
      · rcases breaks with rfl | rfl
        · exact .inl rfl
        · exact .inr rfl
      · rwa [String.toList_ofList]
    cases indented with
    | false => exact ⟨before, last, _, line (.inl rfl), appended⟩
    | true =>
      simp only [if_true, dedent]
      split
      · next width _ =>
        obtain ⟨before', last', dedented⟩ := appended.dedentBy feeds width true
        exact ⟨before', last', _, line (.inr rfl), dedented⟩
      · exact ⟨before, last, _, line (.inl rfl), appended⟩

/-! ## What is taken from the end -/

/-- From the end of a string that ends with a line break, the break is taken, and a carriage return
in front of a line feed with it. -/
theorem dropFinalBreak_append_eq_iff {kept : String} (breaks : kept = "\n" ∨ kept = "\r\n")
    (body text : String) :
    dropFinalBreak (body ++ kept) = text ↔
      (text = body ∧ (kept = "\n" → ∀ front, body ≠ front ++ "\r")) ∨
        kept = "\n" ∧ body = text ++ "\r" := by
  rcases breaks with rfl | rfl
  · by_cases bare : ∀ front, body ≠ front ++ "\r"
    · rw [(LosesBreak.lf body bare).dropFinalBreak_eq]
      constructor
      · rintro rfl
        exact .inl ⟨rfl, fun _ => bare⟩
      · rintro (⟨rfl, _⟩ | ⟨_, same⟩)
        · rfl
        · exact absurd same (bare _)
    · obtain ⟨front, rfl⟩ : ∃ front, body = front ++ "\r" := by simpa using bare
      have together : front ++ "\r" ++ "\n" = front ++ "\r\n" := by
        rw [String.append_assoc]
        rfl
      rw [together, (LosesBreak.crlf front).dropFinalBreak_eq]
      constructor
      · rintro rfl
        exact .inr ⟨rfl, rfl⟩
      · rintro (⟨_, bare⟩ | ⟨_, same⟩)
        · exact absurd rfl (bare rfl front)
        · exact (String.append_left_inj _).mp same
  · rw [(LosesBreak.crlf body).dropFinalBreak_eq]
    simp [eq_comm]

/-! ## Heredocs -/

theorem forall₂_concat_literal_iff {before : List Part} {content : String} {pieces : List Piece} :
    List.Forall₂ (IsPieceOf table) (before ++ [.literal content]) pieces ↔
      ∃ front, List.Forall₂ (IsPieceOf table) before front ∧ pieces = front ++ [.text content] := by
  induction before generalizing pieces with
  | nil =>
    constructor
    · rintro (_ | ⟨⟨⟩, ⟨⟩⟩)
      exact ⟨[], .nil, rfl⟩
    · rintro ⟨_, ⟨⟩, rfl⟩
      exact .cons (.text content) .nil
  | cons part before ih =>
    constructor
    · rintro (_ | ⟨piece, each⟩)
      obtain ⟨front, others, rfl⟩ := ih.mp each
      exact ⟨_, .cons piece others, rfl⟩
    · rintro ⟨_, _ | ⟨piece, each⟩, rfl⟩
      exact .cons piece (ih.mpr ⟨_, each, rfl⟩)

/-- What the parts contribute ends with the last text. -/
theorem EndsWithBreak.forall₂_front {parts before : List Part} {last kept content : String}
    (ends : EndsWithBreak parts before last kept) (front : List Piece)
    (each : List.Forall₂ (IsPieceOf table) parts (front ++ [.text content])) :
    List.Forall₂ (IsPieceOf table) before front ∧ content = last ++ kept := by
  rw [ends] at each
  obtain ⟨front', others, same⟩ := forall₂_concat_literal_iff.mp each
  obtain ⟨rfl, final⟩ := List.append_inj' same rfl
  exact ⟨others, Piece.text.inj (List.singleton_inj.mp final)⟩

/-- **A heredoc loses the line break before its delimiter, and a carriage return with a line feed.**
A heredoc without parts is empty. The parts of any other end with the line break of the source, or
with a line feed where their indentation was removed. What it denotes is all that its parts
contribute but for that line break, and nothing else is lost, with one exception: if the break is a
line feed and the string in front of it ends with a carriage return, then this is lost too, even
when it is the last character of a value. -/
theorem heredoc_loses_final_break (table : VariableTable) (token : Token) {extent : Extent}
    {delimiter : String} {parts : List Part}
    (parsed : parse token.text = .ok (.mk extent (.heredoc delimiter parts))) :
    (parts = [] ∧ ∀ text, resolveScalar table token = .ok text ↔ text = "") ∨
      ∃ before last kept, BreaksBefore token.text delimiter parts before last kept ∧
        ∀ text, resolveScalar table token = .ok text ↔
          ∃ pieces, List.Forall₂ (IsPieceOf table) before pieces ∧
            ((text = joined pieces ++ last ∧
                (kept = "\n" → ∀ front, joined pieces ++ last ≠ front ++ "\r")) ∨
              kept = "\n" ∧ joined pieces ++ last = text ++ "\r") := by
  have read : readExpr token.text = .ok _ := mapError_eq_ok_iff.mp parsed
  rcases breaksBefore_of_endsHeredoc (endsHeredoc_of_readExpr read) with rfl | ⟨before, last, kept,
    breaks⟩
  · refine .inl ⟨rfl, fun text => ?_⟩
    rw [resolveScalar_heredoc_iff parsed]
    constructor
    · rintro ⟨_, ⟨⟩, rfl⟩
      rfl
    · rintro rfl
      exact ⟨[], .nil, rfl⟩
  · refine .inr ⟨before, last, kept, breaks, fun text => ?_⟩
    rw [resolveScalar_heredoc_iff parsed, breaks.parts]
    simp only [forall₂_concat_literal_iff]
    have strings (pieces : List Piece) : joined (pieces ++ [.text (last ++ kept)]) =
        joined pieces ++ last ++ kept := by
      simp [joined_append, joined, Piece.content, String.append_assoc]
    constructor
    · rintro ⟨_, ⟨pieces, each, rfl⟩, dropped⟩
      rw [strings, dropFinalBreak_append_eq_iff breaks.kept_eq] at dropped
      exact ⟨pieces, each, dropped⟩
    · rintro ⟨pieces, each, lost⟩
      refine ⟨_, ⟨pieces, each, rfl⟩, ?_⟩
      rwa [strings, dropFinalBreak_append_eq_iff breaks.kept_eq]

/-- The delimiter and the pieces of a heredoc whose parts are plain. -/
def heredocPieces? : Expr → Option (String × List Piece)
  | .mk _ (.heredoc delimiter parts) => (parts.mapM plainPiece?).map (delimiter, ·)
  | _ => none

theorem exists_heredoc_of_heredocPieces? {text delimiter : String} {pieces : List Piece}
    (read : (parse text).toOption.bind heredocPieces? = some (delimiter, pieces)) :
    ∃ extent parts, parse text = .ok (.mk extent (.heredoc delimiter parts)) ∧
      List.Forall₂ (IsPieceOf table) parts pieces := by
  obtain ⟨e, parsed, plain⟩ := Option.bind_eq_some_iff.mp read
  unfold heredocPieces? at plain
  split at plain
  · next extent name parts =>
    obtain ⟨others, each, same⟩ := Option.map_eq_some_iff.mp plain
    obtain ⟨rfl, rfl⟩ := Prod.mk.inj same
    exact ⟨extent, parts, eq_ok_of_toOption_eq_some parsed, forall₂_of_plainPieces? each⟩
  · cases plain

/-- A value in front of the break ends with a line feed, which stays. -/
theorem heredoc_loses_final_break_fed :
    ∃ extent parts, parse "<<E\nx $\x7b\"b\\n\"\x7d\nE" = .ok (.mk extent (.heredoc "E" parts)) ∧
      resolveScalar .empty ⟨.template, "<<E\nx $\x7b\"b\\n\"\x7d\nE", .unknown⟩ = .ok "x b\n" := by
  obtain ⟨extent, parts, parsed, each⟩ :
      ∃ extent parts, parse "<<E\nx $\x7b\"b\\n\"\x7d\nE" = .ok (.mk extent (.heredoc "E" parts)) ∧
        List.Forall₂ (IsPieceOf .empty) parts
          [.text "x ", .value ⟨false, false⟩ "b\n", .text "\n"] :=
    exists_heredoc_of_heredocPieces? (by decide +kernel)
  refine ⟨extent, parts, parsed, ?_⟩
  obtain ⟨rfl, _⟩ | ⟨before, last, kept, breaks, denotes⟩ := heredoc_loses_final_break .empty
    ⟨.template, "<<E\nx $\x7b\"b\\n\"\x7d\nE", .unknown⟩ parsed
  · cases each
  · obtain ⟨each, ending⟩ :=
      breaks.parts.forall₂_front [.text "x ", .value ⟨false, false⟩ "b\n"] each
    -- The last text is the break alone.
    obtain ⟨rfl, rfl⟩ : last = "" ∧ kept = "\n" := by
      rcases breaks.kept_eq with rfl | rfl
      · have nothing : "" ++ "\n" = last ++ "\n" := ending
        exact ⟨((String.append_left_inj _).mp nothing).symm, rfl⟩
      · have sizes := congrArg (·.toList.length) ending
        simp at sizes
    refine (denotes "x b\n").mpr ⟨_, each, .inl ⟨by decide +kernel, fun _ front same => ?_⟩⟩
    have lasts := congrArg (·.toList.getLast?) same
    simp [joined, Piece.content] at lasts

/-- A value in front of the break ends with a carriage return, which is lost. -/
theorem heredoc_loses_carriage_return :
    ∃ extent parts, parse "<<E\n$\x7b\"a\\r\"\x7d\nE" = .ok (.mk extent (.heredoc "E" parts)) ∧
      List.Forall₂ (IsPieceOf .empty) parts [.value ⟨false, false⟩ "a\r", .text "\n"] ∧
        resolveScalar .empty ⟨.template, "<<E\n$\x7b\"a\\r\"\x7d\nE", .unknown⟩ = .ok "a" := by
  obtain ⟨extent, parts, parsed, each⟩ :
      ∃ extent parts, parse "<<E\n$\x7b\"a\\r\"\x7d\nE" = .ok (.mk extent (.heredoc "E" parts)) ∧
        List.Forall₂ (IsPieceOf .empty) parts [.value ⟨false, false⟩ "a\r", .text "\n"] :=
    exists_heredoc_of_heredocPieces? (by decide +kernel)
  exact ⟨extent, parts, parsed, each, by decide +kernel⟩

end HclLint.Eval
