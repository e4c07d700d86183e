import GateTrace.Text.Shown

/-! # Quoted text

    A text between double quotes on one line. Quotes and backslashes are escaped, line breaks and
    the other controls are spelled out, and a character that would not show by itself is given by
    its code point.
-/

namespace GateTrace.Text

/-- A character by its code point, in lower-case hexadecimal. -/
def codePoint (c : Char) : List Char :=
  "\\u\x7b".toList ++ Nat.toDigits 16 c.toNat ++ ['}']

/-- A character as it stands inside quotes. -/
def quotedChar (c : Char) : List Char :=
  if c = '"' then ['\\', '"']
  else if c = '\\' then ['\\', '\\']
  else if c = '\n' then ['\\', 'n']
  else if c = '\t' then ['\\', 't']
  else if c = '\r' then ['\\', 'r']
  else if c = '\x00' then ['\\', '0']
  else if showsItself c then [c]
  else codePoint c

def quoted (s : String) : String :=
  "\"" ++ String.ofList (s.toList.flatMap quotedChar) ++ "\""

end GateTrace.Text
