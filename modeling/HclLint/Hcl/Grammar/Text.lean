/-
# The text of strings and heredocs

Text between quotes knows the escapes of a backslash; the text of a heredoc does not. In
both a doubled marker, `$${` or `%%{`, stands for the marker itself, and a single one ends
the text. A heredoc's text also ends before the line that holds its delimiter.

An escape that is malformed is refused where a run of quoted text starts with it. Later in
a run it ends the run, and the characters recognised as part of the escape are skipped.
-/

import HclLint.Hcl.Grammar.Word
import HclLint.Text.Hex

namespace HclLint.Hcl.Grammar

open HclLint.Text HclLint.Hcl.Parser

/-- How the text of a template is written. -/
inductive Quoting where
  | quoted
  | heredoc (delimiter : String)
  deriving DecidableEq, Repr

/-- Whether an interpolation or a directive starts here. -/
def startsMarker : List Char → Bool
  | '$' :: '\x7b' :: _ => true
  | '%' :: '\x7b' :: _ => true
  | _ => false

/-- The marker that a doubled one stands for. -/
def doubledMarker? : List Char → Option (List Char)
  | '$' :: '$' :: '\x7b' :: _ => some ['$', '\x7b']
  | '%' :: '%' :: '\x7b' :: _ => some ['%', '\x7b']
  | _ => none

/-- The character that a letter after a backslash stands for. -/
def simpleEscape? : Char → Option Char
  | 'n' => some '\n'
  | 'r' => some '\r'
  | 't' => some '\t'
  | 'b' => some '\x08'
  | 'f' => some '\x0c'
  | '\\' => some '\\'
  | '"' => some '"'
  | '/' => some '/'
  | _ => none

/-- What stands behind a backslash. -/
inductive Escape where
  /-- An escape and its character. -/
  | decoded (x : Char) (next : Cursor)
  /-- No escape, the place to blame, and where reading may go on. -/
  | malformed (complaint : Complaint) (place : Nat) (past : Cursor)
  /-- The text ends behind the backslash. -/
  | cutOff

/-- The escape of a code point in `count` digits, at the first digit. -/
def codePointEscape (count : Nat) (c : Cursor) : Escape :=
  match (hexNumber? 0 count c.rest).bind charOfCodePoint? with
  | some x => .decoded x (c.drop count)
  | none => .malformed (.codePoint count) c.offset c

/-- The escape at the character behind a backslash. -/
def escapeAt (c : Cursor) : Escape :=
  match c.rest with
  | [] => .cutOff
  | 'u' :: _ => codePointEscape 4 (c.drop 1)
  | 'U' :: _ => codePointEscape 8 (c.drop 1)
  | x :: _ =>
    match simpleEscape? x with
    | some y => .decoded y (c.drop 1)
    | none => .malformed .escape (c.offset + 1) (c.drop 1)

/-- Quoted text up to its end, at most one piece for every character of `limit`. A
malformed escape ends it. -/
def quotedRest : List Char → Cursor → List Char × Cursor
  | [], c => ([], c)
  | _ :: limit, c =>
    match doubledMarker? c.rest with
    | some marker =>
      let (more, last) := quotedRest limit (c.drop 3)
      (marker ++ more, last)
    | none =>
      match c.rest with
      | [] => ([], c)
      | x :: _ =>
        if x == '"' || startsMarker c.rest then ([], c)
        else if x == '\\' then
          match escapeAt (c.drop 1) with
          | .decoded y next =>
            let (more, last) := quotedRest limit next
            (y :: more, last)
          -- What was recognised of the escape stays skipped.
          | .malformed _ _ past => ([], past)
          | .cutOff => ([], c)
        else
          let (more, last) := quotedRest limit (c.drop 1)
          (x :: more, last)

/-- A run of quoted text, undone where there is none. -/
def quotedText : Parser String := fun c =>
  match c.rest with
  | [] => .undone .unexpected
  | x :: _ =>
    if x == '"' || startsMarker c.rest then .undone .unexpected
    else
      match if x == '\\' then escapeAt (c.drop 1) else .cutOff with
      | .malformed complaint place _ => .final complaint place
      | _ =>
        let (text, last) := quotedRest c.rest c
        if text.isEmpty then .undone .unexpected else .read (String.ofList text) last

/-- Whether the line that ends a heredoc comes next: a line break, spaces and tabs, and the
delimiter. -/
def startsHeredocEnd (delimiter : List Char) (text : List Char) : Bool :=
  let blankThenDelimiter (rest : List Char) :=
    delimiter.isPrefixOf (rest.dropWhile isSpace)
  match text with
  | '\n' :: rest => blankThenDelimiter rest
  | '\r' :: '\n' :: rest => blankThenDelimiter rest
  | _ => false

/-- The text of a heredoc up to a marker or the line that ends it, none where the text runs
out before. -/
def heredocRest (delimiter : List Char) : List Char → Cursor → Option (List Char × Cursor)
  | [], _ => none
  | _ :: limit, c =>
    match doubledMarker? c.rest with
    | some marker =>
      (heredocRest delimiter limit (c.drop 3)).map fun (more, last) => (marker ++ more, last)
    | none =>
      match c.rest with
      | [] => none
      | x :: _ =>
        if startsMarker c.rest || startsHeredocEnd delimiter c.rest then some ([], c)
        else
          (heredocRest delimiter limit (c.drop 1)).map fun (more, last) => (x :: more, last)

/-- A run of a heredoc's text, undone where there is none. -/
def heredocText (delimiter : String) : Parser String := fun c =>
  match heredocRest delimiter.toList c.rest c with
  | some (x :: xs, last) => .read (String.ofList (x :: xs)) last
  | _ => .undone .unexpected

/-- A run of a template's text. -/
def templateText : Quoting → Parser String
  | .quoted => quotedText
  | .heredoc delimiter => heredocText delimiter

end HclLint.Hcl.Grammar
