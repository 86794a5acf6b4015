import TokenGrammar.Text.Hidden

/-!
# Quoted text

Text between double quotes, with the quote, the backslash, tab, line feed,
carriage return and the zero character as short escapes, and every other hidden
character as its code point in braces.
-/

namespace TokenGrammar.Text

def hex (n : Nat) : String := String.ofList (Nat.toDigits 16 n)

namespace Quoted

def escape (c : Char) : String :=
  match c with
  | '\x00' => "\\0"
  | '\t' => "\\t"
  | '\n' => "\\n"
  | '\r' => "\\r"
  | '"' => "\\\""
  | '\\' => "\\\\"
  | c => if isHidden c then "\\u\x7b" ++ hex c.toNat ++ "\x7d" else c.toString

end Quoted

def quote (text : String) : String :=
  "\"" ++ String.join (text.toList.map Quoted.escape) ++ "\""

end TokenGrammar.Text
