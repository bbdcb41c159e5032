import ExactCompare.Digits
import ExactCompare.Text.Hidden

/-!
# Quoted text

Text between quotes, for messages. What cannot be seen is written as its code.
-/

namespace ExactCompare.Text

def hex (n : Nat) : List Char := (Digits.ofNat 16 n).map Nat.digitChar

def quotedChar (c : Char) : List Char :=
  match c with
  | '"' => ['\\', '"']
  | '\\' => ['\\', '\\']
  | '\n' => ['\\', 'n']
  | '\r' => ['\\', 'r']
  | '\t' => ['\\', 't']
  | '\x00' => ['\\', '0']
  | c => if isHidden c then '\\' :: 'u' :: '\x7b' :: hex c.toNat ++ ['\x7d'] else [c]

def quoted (s : String) : String :=
  String.ofList ('"' :: s.toList.flatMap quotedChar ++ ['"'])

end ExactCompare.Text
