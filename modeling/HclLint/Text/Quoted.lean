/-
# Quoted text

Text between double quotes. Quotes, backslashes and control characters are escaped, the
common ones by a letter and the others by their code point; all other characters stand for
themselves.
-/

import HclLint.Text.Hex

namespace HclLint.Text

/-- A character as it is written between quotes. -/
def escapeChar (c : Char) : List Char :=
  if c = '"' then ['\\', '"']
  else if c = '\\' then ['\\', '\\']
  else if c = '\x08' then ['\\', 'b']
  else if c = '\x0c' then ['\\', 'f']
  else if c = '\n' then ['\\', 'n']
  else if c = '\r' then ['\\', 'r']
  else if c = '\t' then ['\\', 't']
  else if c.toNat < 0x20 then
    ['\\', 'u', '0', '0', hexDigit (c.toNat / 16), hexDigit (c.toNat % 16)]
  else [c]

/-- The escapes of a text, without quotes around them. -/
def escapeText (cs : List Char) : List Char := cs.flatMap escapeChar

/-- A text between quotes. -/
def quote (text : String) : String := String.ofList ('"' :: escapeText text.toList ++ ['"'])

@[simp]
theorem escapeText_nil : escapeText [] = [] := rfl

@[simp]
theorem escapeText_cons (c : Char) (cs : List Char) :
    escapeText (c :: cs) = escapeChar c ++ escapeText cs := rfl

end HclLint.Text
