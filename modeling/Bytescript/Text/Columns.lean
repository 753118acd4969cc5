import Bytescript.Bytes

/-!
# Columns and digits

Numbers and words in columns: padding with blanks or zeros, and hexadecimal digits.
-/
namespace Bytescript.Text

def padRight (n : Nat) (text : String) : String :=
  text ++ String.ofList (List.replicate (n - text.length) ' ')

def padLeft (fill : Char) (n : Nat) (text : String) : String :=
  String.ofList (List.replicate (n - text.length) fill) ++ text

def decimal (least n : Nat) : String :=
  padLeft '0' least (toString n)

def hex (least n : Nat) : String :=
  padLeft '0' least (String.ofList (Nat.toDigits 16 n))

def hexMarked (least n : Nat) : String :=
  "0x" ++ hex least n

def hexBytes (bs : Bytes) : List String :=
  bs.map fun b => hex 2 b.toNat

end Bytescript.Text
