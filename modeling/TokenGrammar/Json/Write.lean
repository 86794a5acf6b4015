import TokenGrammar.Json.Schema

/-!
# Writing JSON

`Schema.write` writes a value without blanks, the fields of a record in order. Strings
escape the quote, the backslash and the controls below the space, and nothing else.
-/

namespace TokenGrammar.Json

/-- A control character by its code, in four digits of base sixteen. -/
def codeEscape (c : Char) : String :=
  let digits := Nat.toDigits 16 c.toNat
  "\\u" ++ String.ofList (List.replicate (4 - digits.length) '0' ++ digits)

def escape (c : Char) : String :=
  match c with
  | '"' => "\\\""
  | '\\' => "\\\\"
  | '\x08' => "\\b"
  | '\x0c' => "\\f"
  | '\n' => "\\n"
  | '\r' => "\\r"
  | '\t' => "\\t"
  | c => if c.toNat < 0x20 then codeEscape c else c.toString

def writeText (text : String) : String :=
  "\"" ++ String.join (text.toList.map escape) ++ "\""

def writeObject (entries : List String) : String :=
  "\x7b" ++ ",".intercalate entries ++ "\x7d"

def writeEntry (name value : String) : String := writeText name ++ ":" ++ value

mutual

def Schema.write : {α : Type} → Schema α → α → String
  | _, .natural, n => toString n
  | _, .integer, n => toString n.toInt
  | _, .boolean, b => if b then "true" else "false"
  | _, .text, s => writeText s
  | _, .optional _, none => "null"
  | _, .optional inner, some a => inner.write a
  | _, .record _ fields, a => writeObject (fields.write a)
  | _, .variants cases, a => cases.write a
  | _, .via _ back _ inner, b => inner.write (back b)

def Fields.write : {α : Type} → Fields α → α → List String
  | _, .nil, () => []
  | _, .cons name _ schema rest, (a, b) => writeEntry name (schema.write a) :: rest.write b

def Cases.write : {α : Type} → Cases α → α → String
  | _, .unit name _, .inl () => writeText name
  | _, .unit _ rest, .inr b => rest.write b
  | _, .record name _ fields _, .inl a =>
    writeObject [writeEntry name (writeObject (fields.write a))]
  | _, .record _ _ _ rest, .inr b => rest.write b

end

end TokenGrammar.Json
