import Reckon.Text.Blank
import Reckon.Text.Unprintable

/-!
# Quoted text

A text between double quotes, in one line and with nothing hidden in it: the double quote and the
backslash are escaped, four controls have a letter, and a character that would not show by itself
is written by its code point.
-/

namespace Reckon.Text

/-- Whether a character is written by its code point inside quotes. -/
def isHidden (c : Char) : Bool :=
  inRanges extendingMarks c || inRanges ignorable c || inRanges unprintable c

/-- How one character is written inside quotes. -/
def escape (c : Char) : List Char :=
  if c = '"' ∨ c = '\\' then ['\\', c]
  else if c = '\t' then ['\\', 't']
  else if c = '\r' then ['\\', 'r']
  else if c = '\n' then ['\\', 'n']
  else if c = '\x00' then ['\\', '0']
  else if isHidden c then "\\u\x7b".toList ++ Nat.toDigits 16 c.toNat ++ ['\x7d']
  else [c]

/-- A text in quotes. -/
def quoted (s : String) : String :=
  String.ofList ('"' :: s.toList.flatMap escape ++ ['"'])

end Reckon.Text
