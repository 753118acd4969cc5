import Bytescript.Text.Columns
import Bytescript.Text.Unprinted

/-!
# Quoted text

Text between double quotes on one line: the quote, the backslash and the usual control
characters behind a backslash, every other unprinted character by its code point.
-/
namespace Bytescript.Text

def quotedChar (c : Char) : String :=
  if c.toNat = 0 then "\\0"
  else if c = '\t' then "\\t"
  else if c = '\n' then "\\n"
  else if c = '\r' then "\\r"
  else if c = '"' then "\\\""
  else if c = '\\' then "\\\\"
  else if isUnprinted c then
    let code := hex 1 c.toNat
    "\\u\x7b" ++ code ++ "\x7d"
  else c.toString

def quoted (text : String) : String :=
  "\"" ++ String.join (text.toList.map quotedChar) ++ "\""

end Bytescript.Text
