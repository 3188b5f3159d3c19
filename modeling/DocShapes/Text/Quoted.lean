import DocShapes.Text.Hex
import DocShapes.Text.Hidden

/-! # Quoted text in messages

A message quotes a name between double quotes. The quote, the backslash and five control characters
have escapes of their own; every other hidden character is written by its code point.
-/

namespace DocShapes.Text

def quotedChar (c : Char) : List Char :=
  if c = '"' then ['\\', '"']
  else if c = '\\' then ['\\', '\\']
  else if c = '\n' then ['\\', 'n']
  else if c = '\t' then ['\\', 't']
  else if c = '\r' then ['\\', 'r']
  else if c.toNat = 0 then ['\\', '0']
  else if isHidden c then ['\\', 'u', '\x7b'] ++ hexDigits 6 c.toNat ++ ['\x7d']
  else [c]

/-- The text between double quotes. -/
def quoted (text : String) : String :=
  String.ofList ('"' :: text.toList.flatMap quotedChar ++ ['"'])

example : quoted "a\n\"b\"" = "\"a\\n\\\"b\\\"\"" := by decide
example : quoted "\u00a0" = "\"\\u\x7ba0\x7d\"" := by decide
example : quoted "\u3164" = "\"\\u\x7b3164\x7d\"" := by decide +kernel
example : quoted "\uff9e" = "\"\uff9e\"" := by decide +kernel

end DocShapes.Text
