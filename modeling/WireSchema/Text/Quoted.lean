import WireSchema.Text.CharClass
import WireSchema.Text.Digits

/-!
# Quoted text

A text between double quotes, in the form that source code and messages share: quotes and
backslashes are escaped, line ends, tabs and NUL have short escapes, and a character that would not
show is written by its code point.
-/

namespace WireSchema.Text

/-- One character of a quoted text. -/
def quotedChar (c : Char) : List Char :=
  if c = '"' then ['\\', '"']
  else if c = '\\' then ['\\', '\\']
  else if c = '\n' then ['\\', 'n']
  else if c = '\r' then ['\\', 'r']
  else if c = '\t' then ['\\', 't']
  else if c.toNat = 0 then ['\\', '0']
  else if isHidden c then ['\\', 'u', '\x7b'] ++ hexDigits c.toNat ++ ['\x7d']
  else [c]

/-- `text` between quotes. -/
def quoted (text : String) : String :=
  String.ofList ('"' :: text.toList.flatMap quotedChar ++ ['"'])

end WireSchema.Text
