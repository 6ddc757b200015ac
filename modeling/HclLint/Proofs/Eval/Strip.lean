/-
# Templates and strip markers

A tag of a template may carry markers that ask for blanks to be taken from the text beside it: `${~`
from the end of the text on its left, `~}` from the start of the text on its right. The markers are
read and kept in the tree, but evaluation does not look at them. A template denotes the texts in it
as they are written, with the values of its interpolations between them. This is the string that the
markers ask for just if they have no blank to take away.

## Main definitions

* `Piece`: what a part of a template contributes, and `joined` for all pieces together.
* `stripped`: the pieces without the blanks that the markers point at.
* `IsPieceOf`: a part of a template contributes a piece.

## Main statements

* `joined_stripped_eq_iff`: stripping takes nothing away just if no marker points at a blank.
* `template_ignores_strip_markers`: what templates and heredocs with markers denote.
-/

import Mathlib.Data.List.DropRight
import HclLint.Proofs.Eval.Adequacy

namespace HclLint.Eval

open HclLint.Text HclLint.Hcl HclLint.Model
open scoped List

variable {table : VariableTable}

/-! ## Pieces -/

/-- What a part of a template contributes: a text, or the value of an interpolation, of which it is
kept whether its tag has markers. -/
inductive Piece where
  | text (content : String)
  | value (trim : Trim) (content : String)
  deriving DecidableEq, Repr

/-- The string of a piece. -/
def Piece.content : Piece → String
  | .text content => content
  | .value _ content => content

/-- The strings of some pieces, one after the other. -/
def joined : List Piece → String
  | [] => ""
  | piece :: rest => piece.content ++ joined rest

/-- The string of two runs of pieces is made of the strings of both. -/
theorem joined_append (front back : List Piece) :
    joined (front ++ back) = joined front ++ joined back := by
  induction front with
  | nil => simp [joined]
  | cons piece front ih => rw [List.cons_append, joined, joined, ih, String.append_assoc]

/-- Texts that follow each other are one text. -/
def merged : List Piece → List Piece
  | [] => []
  | .value trim content :: rest => .value trim content :: merged rest
  | .text content :: rest =>
    match merged rest with
    | .text more :: others => .text (content ++ more) :: others
    | others => .text content :: others

/-- Merging texts does not change the string. -/
theorem joined_merged (pieces : List Piece) : joined (merged pieces) = joined pieces := by
  induction pieces with
  | nil => rfl
  | cons piece rest ih =>
    cases piece with
    | value trim content => exact congrArg (content ++ ·) ih
    | text content =>
      rw [joined, ← ih, merged]
      split
      · next more others same =>
        rw [same]
        exact String.append_assoc
      · rfl

/-! ## Stripping -/

/-- A text without the blanks at its start. -/
def withoutLeadingBlanks (content : String) : String :=
  String.ofList (content.toList.dropWhile isBlank)

/-- A text without the blanks at its end. -/
def withoutTrailingBlanks (content : String) : String :=
  String.ofList (content.toList.rdropWhile isBlank)

/-- Whether the next piece is the value of a tag with a marker on its left. -/
def marksLeft : List Piece → Bool
  | .value trim _ :: _ => trim.left
  | _ => false

/-- The text beside tags, without the blanks that their markers ask to take away. -/
def strippedText (behindMark beforeMark : Bool) (content : String) : String :=
  let rest := if behindMark then withoutLeadingBlanks content else content
  if beforeMark then withoutTrailingBlanks rest else rest

/-- Pieces without the blanks that markers ask to take away, behind a marker or not. -/
def strippedBehind : Bool → List Piece → List Piece
  | _, [] => []
  | behindMark, .text content :: rest =>
    .text (strippedText behindMark (marksLeft rest) content) :: strippedBehind false rest
  | _, .value trim content :: rest => .value trim content :: strippedBehind trim.right rest

/-- The pieces of a template without the blanks that its markers ask to take away. -/
def stripped (pieces : List Piece) : List Piece := strippedBehind false (merged pieces)

/-- A text starts with a blank. -/
def StartsBlank (content : String) : Prop := ∃ x ∈ content.toList.head?, isBlank x = true

/-- A text ends with a blank. -/
def EndsBlank (content : String) : Prop := ∃ x ∈ content.toList.getLast?, isBlank x = true

/-- Of two pieces in a row, neither marks a blank at the near end of the other. -/
def LeavesBlanks : Piece → Piece → Prop
  | .text content, .value trim _ => trim.left = true → ¬ EndsBlank content
  | .value trim _, .text content => trim.right = true → ¬ StartsBlank content
  | _, _ => True

/-- There is nothing to take from the start exactly if no blank stands there. -/
theorem withoutLeadingBlanks_eq_iff {content : String} :
    withoutLeadingBlanks content = content ↔ ¬ StartsBlank content := by
  unfold withoutLeadingBlanks StartsBlank
  rw [← String.toList_inj, String.toList_ofList]
  cases content.toList with
  | nil => simp
  | cons x xs => simp

/-- The same holds at the end. -/
theorem withoutTrailingBlanks_eq_iff {content : String} :
    withoutTrailingBlanks content = content ↔ ¬ EndsBlank content := by
  unfold withoutTrailingBlanks EndsBlank
  rw [← String.toList_inj, String.toList_ofList, List.rdropWhile_eq_self_iff]
  cases last : content.toList.getLast? with
  | none => simp [List.getLast?_eq_none_iff.mp last]
  | some x =>
    obtain ⟨front, same⟩ := List.getLast?_eq_some_iff.mp last
    simp [same]

theorem withoutLeadingBlanks_sublist (content : String) :
    (withoutLeadingBlanks content).toList <+ content.toList := by
  rw [withoutLeadingBlanks, String.toList_ofList]
  exact List.dropWhile_sublist _

theorem withoutTrailingBlanks_sublist (content : String) :
    (withoutTrailingBlanks content).toList <+ content.toList := by
  rw [withoutTrailingBlanks, String.toList_ofList]
  exact (List.rdropWhile_prefix _ _).sublist

section

variable (behindMark beforeMark : Bool) (content : String)

/-- Stripping only takes characters away. -/
theorem strippedText_sublist :
    (strippedText behindMark beforeMark content).toList <+ content.toList := by
  have leading : (strippedText behindMark false content).toList <+ content.toList := by
    cases behindMark with
    | false => exact List.Sublist.refl _
    | true => exact withoutLeadingBlanks_sublist content
  cases beforeMark with
  | false => exact leading
  | true => exact (withoutTrailingBlanks_sublist _).trans leading

variable {behindMark beforeMark content}

/-- A text is left as it is just if no marker points at a blank in it. -/
theorem strippedText_eq_iff :
    strippedText behindMark beforeMark content = content ↔
      (behindMark = true → ¬ StartsBlank content) ∧ (beforeMark = true → ¬ EndsBlank content) := by
  cases behindMark with
  | false => cases beforeMark <;> simp [strippedText, withoutTrailingBlanks_eq_iff]
  | true =>
    cases beforeMark with
    | false => simp [strippedText, withoutLeadingBlanks_eq_iff]
    | true =>
      simp only [strippedText, if_true, forall_const]
      constructor
      · intro same
        -- What is taken away at the end does not come back at the start.
        have less := withoutTrailingBlanks_sublist (withoutLeadingBlanks content)
        rw [same] at less
        have leading : withoutLeadingBlanks content = content :=
          String.toList_inj.mp ((withoutLeadingBlanks_sublist content).antisymm less)
        rw [leading] at same
        exact ⟨withoutLeadingBlanks_eq_iff.mp leading, withoutTrailingBlanks_eq_iff.mp same⟩
      · rintro ⟨start, ending⟩
        rw [withoutLeadingBlanks_eq_iff.mpr start, withoutTrailingBlanks_eq_iff.mpr ending]

end

/-- The same holds for pieces one after the other, so that their string is unchanged only if each of
them is. -/
theorem joined_strippedBehind_sublist (behindMark : Bool) (pieces : List Piece) :
    (joined (strippedBehind behindMark pieces)).toList <+ (joined pieces).toList := by
  induction pieces generalizing behindMark with
  | nil => exact .refl _
  | cons piece rest ih =>
    cases piece with
    | text content =>
      simp only [strippedBehind, joined, String.toList_append]
      exact (strippedText_sublist _ _ content).append (ih false)
    | value trim content =>
      simp only [strippedBehind, joined, String.toList_append]
      exact (List.Sublist.refl _).append (ih trim.right)

/-- Of two texts in a row, parts are the whole just if each of them is. -/
theorem append_eq_append_iff_of_sublist {front back front' back' : String}
    (first : front'.toList <+ front.toList) (second : back'.toList <+ back.toList) :
    front' ++ back' = front ++ back ↔ front' = front ∧ back' = back := by
  constructor
  · intro same
    have chars := congrArg String.toList same
    rw [String.toList_append, String.toList_append] at chars
    have lengths := congrArg List.length chars
    rw [List.length_append, List.length_append] at lengths
    have shorter := first.length_le
    have shorter' := second.length_le
    obtain ⟨front, back⟩ := List.append_inj chars (by omega)
    exact ⟨String.toList_inj.mp front, String.toList_inj.mp back⟩
  · rintro ⟨rfl, rfl⟩
    rfl

/-- The piece in front leaves the blanks of what follows. -/
def LeavesBlanksBehind (behindMark : Bool) : List Piece → Prop
  | .text content :: _ => behindMark = true → ¬ StartsBlank content
  | _ => True

/-- A text leaves blanks alone if no marker behind it points at its end. -/
theorem isChain_text_iff {content : String} {rest : List Piece} :
    (Piece.text content :: rest).IsChain LeavesBlanks ↔
      (marksLeft rest = true → ¬ EndsBlank content) ∧ rest.IsChain LeavesBlanks := by
  rcases rest with _ | ⟨_ | _, _⟩ <;> simp [marksLeft, LeavesBlanks]

/-- A value does if its marker on the right points at no blank. -/
theorem isChain_value_iff {trim : Trim} {content : String} {rest : List Piece} :
    (Piece.value trim content :: rest).IsChain LeavesBlanks ↔
      LeavesBlanksBehind trim.right rest ∧ rest.IsChain LeavesBlanks := by
  rcases rest with _ | ⟨_ | _, _⟩ <;> simp [LeavesBlanksBehind, LeavesBlanks]

theorem leavesBlanksBehind_false (pieces : List Piece) : LeavesBlanksBehind false pieces := by
  rcases pieces with _ | ⟨_ | _, _⟩ <;> simp [LeavesBlanksBehind]

/-- Stripping leaves the string as it is exactly if no marker points at a blank. -/
theorem joined_strippedBehind_eq_iff (behindMark : Bool) (pieces : List Piece) :
    joined (strippedBehind behindMark pieces) = joined pieces ↔
      LeavesBlanksBehind behindMark pieces ∧ pieces.IsChain LeavesBlanks := by
  induction pieces generalizing behindMark with
  | nil => simp [strippedBehind, LeavesBlanksBehind]
  | cons piece rest ih =>
    cases piece with
    | text content =>
      rw [strippedBehind, joined, joined, isChain_text_iff, Piece.content, Piece.content,
        append_eq_append_iff_of_sublist (strippedText_sublist _ _ content)
          (joined_strippedBehind_sublist false rest), ih, strippedText_eq_iff,
        LeavesBlanksBehind, and_iff_right (leavesBlanksBehind_false rest), and_assoc]
    | value trim content =>
      have nothing : LeavesBlanksBehind behindMark (.value trim content :: rest) := trivial
      rw [strippedBehind, joined, joined, isChain_value_iff, Piece.content,
        append_eq_append_iff_of_sublist (.refl _)
          (joined_strippedBehind_sublist trim.right rest), ih, and_iff_right nothing,
        and_iff_right rfl]

/-- Stripping takes nothing away just if no marker points at a blank of the text beside it. -/
theorem joined_stripped_eq_iff (pieces : List Piece) :
    joined (stripped pieces) = joined pieces ↔ (merged pieces).IsChain LeavesBlanks := by
  rw [stripped, ← joined_merged pieces, joined_strippedBehind_eq_iff,
    and_iff_right (leavesBlanksBehind_false _)]

/-! ## Templates -/

/-- A part of a template contributes a piece: its text, or what its expression denotes. A directive
contributes none. -/
inductive IsPieceOf (table : VariableTable) : Part → Piece → Prop where
  | text (content : String) : IsPieceOf table (.literal content) (.text content)
  | value (trim : Trim) {inner : Expr} {content : String}
      (denotes : DerivesBehind table [] inner content) :
      IsPieceOf table (.interpolation trim inner) (.value trim content)

/-- The parts of a template have a derivation of what their pieces are together. -/
theorem partsDeriveBehind_iff {parts : List Part} {whole : String} :
    PartsDeriveBehind table [] parts whole ↔
      ∃ pieces, List.Forall₂ (IsPieceOf table) parts pieces ∧ whole = joined pieces := by
  induction parts generalizing whole with
  | nil =>
    constructor
    · rintro ⟨⟨⟩, _⟩
      exact ⟨[], .nil, rfl⟩
    · rintro ⟨_, ⟨⟩, rfl⟩
      exact ⟨.nil, nodup_behind_leaf List.nodup_nil⟩
  | cons part rest ih =>
    constructor
    · rintro ⟨_ | ⟨content, behind⟩ | ⟨trim, below, behind⟩, distinct⟩
      · obtain ⟨pieces, each, rfl⟩ := ih.mp ⟨behind, distinct⟩
        exact ⟨_, .cons (.text content) each, rfl⟩
      · obtain ⟨first, others⟩ := List.forall_mem_append.mp distinct
        obtain ⟨pieces, each, rfl⟩ := ih.mp ⟨behind, others⟩
        exact ⟨_, .cons (.value trim ⟨below, first⟩) each, rfl⟩
    · rintro ⟨_, _ | ⟨piece, each⟩, rfl⟩
      obtain ⟨behind, others⟩ := ih.mpr ⟨_, each, rfl⟩
      cases piece with
      | text content => exact ⟨.literal content behind, others⟩
      | value trim denotes =>
        obtain ⟨below, first⟩ := denotes
        exact ⟨.interpolation trim below behind, List.forall_mem_append.mpr ⟨first, others⟩⟩

/-- A heredoc resolves to its pieces, without the last line break. -/
theorem resolveScalar_heredoc_iff {token : Token} {extent : Extent} {delimiter : String}
    {parts : List Part} (parsed : parse token.text = .ok (.mk extent (.heredoc delimiter parts)))
    (text : String) :
    resolveScalar table token = .ok text ↔
      ∃ pieces, List.Forall₂ (IsPieceOf table) parts pieces ∧
        dropFinalBreak (joined pieces) = text := by
  rw [resolveScalar_eq_ok_iff_derivesBehind parsed, derivesBehind_heredoc_iff]
  simp only [partsDeriveBehind_iff]
  constructor
  · rintro ⟨_, ⟨pieces, each, rfl⟩, rfl⟩
    exact ⟨pieces, each, rfl⟩
  · rintro ⟨pieces, each, rfl⟩
    exact ⟨_, ⟨pieces, each, rfl⟩, rfl⟩

/-- **Strip markers do nothing.** A template between quotes denotes a text just if each of its parts
contributes a piece, and then the text is these pieces as they are, one after the other. So does a
heredoc, but for a line break at the end of the text. Whether the tags have markers does not enter.
The text is the one that the markers ask for just if no marker points at a blank of the text beside
it. -/
theorem template_ignores_strip_markers (table : VariableTable) (token : Token) {extent : Extent}
    {form : Form} (parsed : parse token.text = .ok (.mk extent form)) (text : String) :
    (∀ parts, form = .template parts →
      (resolveScalar table token = .ok text ↔
        ∃ pieces, List.Forall₂ (IsPieceOf table) parts pieces ∧ text = joined pieces)) ∧
    (∀ delimiter parts, form = .heredoc delimiter parts →
      (resolveScalar table token = .ok text ↔
        ∃ pieces, List.Forall₂ (IsPieceOf table) parts pieces ∧
          text = dropFinalBreak (joined pieces))) ∧
    ∀ pieces, joined (stripped pieces) = joined pieces ↔
      (merged pieces).IsChain LeavesBlanks := by
  refine ⟨?_, ?_, joined_stripped_eq_iff⟩
  · rintro parts rfl
    rw [resolveScalar_eq_ok_iff_derivesBehind parsed, derivesBehind_template_iff,
      partsDeriveBehind_iff]
  · rintro delimiter parts rfl
    rw [resolveScalar_heredoc_iff parsed]
    simp only [eq_comm]

/-- The piece of a part that is a text or holds a plain string. -/
def plainPiece? : Part → Option Piece
  | .literal content => some (.text content)
  | .interpolation trim (.mk _ (.string content)) => some (.value trim content)
  | _ => none

/-- A part that is plain contributes its piece by every table. -/
theorem isPieceOf_of_plainPiece? {part : Part} {piece : Piece}
    (plain : plainPiece? part = some piece) :
    IsPieceOf table part piece := by
  unfold plainPiece? at plain
  split at plain
  · obtain rfl := Option.some.inj plain
    exact .text _
  · next trim extent content =>
    obtain rfl := Option.some.inj plain
    exact .value trim ⟨.string extent content, nodup_behind_leaf List.nodup_nil⟩
  · cases plain

theorem forall₂_of_plainPieces? {parts : List Part} {pieces : List Piece}
    (plain : parts.mapM plainPiece? = some pieces) :
    List.Forall₂ (IsPieceOf table) parts pieces := by
  induction parts generalizing pieces with
  | nil =>
    obtain rfl := Option.some.inj plain
    exact .nil
  | cons part rest ih =>
    rw [List.mapM_cons] at plain
    obtain ⟨piece, first, plain⟩ := Option.bind_eq_some_iff.mp plain
    obtain ⟨others, behind, same⟩ := Option.bind_eq_some_iff.mp plain
    obtain rfl := Option.some.inj same
    exact .cons (isPieceOf_of_plainPiece? first) (ih behind)

/-- The pieces of a template between quotes whose parts are plain. -/
def plainPieces? : Expr → Option (List Piece)
  | .mk _ (.template parts) => parts.mapM plainPiece?
  | _ => none

/-- A text that was read as a template of plain parts has the pieces that were computed. -/
theorem exists_pieces_of_plainPieces? {text : String} {pieces : List Piece}
    (read : (parse text).toOption.bind plainPieces? = some pieces) :
    ∃ extent parts, parse text = .ok (.mk extent (.template parts)) ∧
      List.Forall₂ (IsPieceOf table) parts pieces := by
  obtain ⟨e, parsed, plain⟩ := Option.bind_eq_some_iff.mp read
  unfold plainPieces? at plain
  split at plain
  · next extent parts =>
    exact ⟨extent, parts, eq_ok_of_toOption_eq_some parsed, forall₂_of_plainPieces? plain⟩
  · cases plain

/-- No blank stands where the marker points, and the text is what it asks for. -/
theorem template_ignores_strip_markers_unstripped :
    resolveScalar .empty ⟨.template, "\"a $\x7b\"b\" ~\x7dc\"", .unknown⟩ = .ok "a bc" ∧
      joined (stripped [.text "a ", .value ⟨false, true⟩ "b", .text "c"]) = "a bc" := by
  obtain ⟨extent, parts, parsed, each⟩ :
      ∃ extent parts, parse "\"a $\x7b\"b\" ~\x7dc\"" = .ok (.mk extent (.template parts)) ∧
        List.Forall₂ (IsPieceOf .empty) parts [.text "a ", .value ⟨false, true⟩ "b", .text "c"] :=
    exists_pieces_of_plainPieces? (by decide +kernel)
  obtain ⟨denotes, _, unstripped⟩ := template_ignores_strip_markers .empty
    ⟨.template, "\"a $\x7b\"b\" ~\x7dc\"", .unknown⟩ parsed "a bc"
  refine ⟨(denotes parts rfl).mpr ⟨_, each, by decide +kernel⟩, (unstripped _).mpr ?_ |>.trans ?_⟩
  · simp [merged, LeavesBlanks, StartsBlank, isBlank]
  · decide +kernel

/-- The marker asks for the blank before the value to be taken away, but it stays. -/
theorem template_keeps_marked_blank :
    ∃ extent parts pieces,
      parse "\"a $\x7b~ \"b\"\x7d\"" = .ok (.mk extent (.template parts)) ∧
        List.Forall₂ (IsPieceOf .empty) parts pieces ∧ joined (stripped pieces) = "ab" ∧
          resolveScalar .empty ⟨.template, "\"a $\x7b~ \"b\"\x7d\"", .unknown⟩ = .ok "a b" := by
  obtain ⟨extent, parts, parsed, each⟩ :
      ∃ extent parts, parse "\"a $\x7b~ \"b\"\x7d\"" = .ok (.mk extent (.template parts)) ∧
        List.Forall₂ (IsPieceOf .empty) parts [.text "a ", .value ⟨true, false⟩ "b"] :=
    exists_pieces_of_plainPieces? (by decide +kernel)
  exact ⟨extent, parts, _, parsed, each, by decide +kernel, by decide +kernel⟩

end HclLint.Eval
