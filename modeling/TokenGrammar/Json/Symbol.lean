/-!
# Texts that may be damaged

A text that is read is a list of symbols: characters, and bytes of a file that belong
to no character.
-/

namespace TokenGrammar.Json

inductive Symbol
  | char (c : Char)
  | stray
  deriving DecidableEq, Repr

namespace Symbol

def ofText (text : String) : List Symbol := text.toList.map .char

def text? (symbols : List Symbol) : Option String :=
  String.ofList <$> symbols.mapM fun
    | char c => some c
    | stray => none

def size : Symbol → Nat
  | char c => c.utf8Size
  | stray => 1

/-! ## Reading bytes -/

/-- The low six bits of a byte that continues a character. -/
def continuation? (b : UInt8) : Option Nat :=
  if 0x80 ≤ b ∧ b < 0xc0 then some (b.toNat - 0x80) else none

def continuations? : (count acc : Nat) → List UInt8 → Option Nat
  | 0, acc, _ => some acc
  | _ + 1, _, [] => none
  | count + 1, acc, b :: rest => do
    let bits ← continuation? b
    continuations? count (64 * acc + bits) rest

/-- The character that starts with byte `b`, with the number of bytes that follow.
A code that has a shorter form, or is no character, is refused. -/
def character? (b : UInt8) (rest : List UInt8) : Option (Char × Nat) := do
  let (count, least, bits) ←
    if b < 0x80 then some (0, 0, b.toNat)
    else if 0xc0 ≤ b ∧ b < 0xe0 then some (1, 0x80, b.toNat - 0xc0)
    else if 0xe0 ≤ b ∧ b < 0xf0 then some (2, 0x800, b.toNat - 0xe0)
    else if 0xf0 ≤ b ∧ b < 0xf8 then some (3, 0x10000, b.toNat - 0xf0)
    else none
  let code ← continuations? count bits rest
  if h : code.isValidChar then
    if least ≤ code then some (Char.ofNatAux code h, count) else none
  else none

def ofBytes : List UInt8 → List Symbol
  | [] => []
  | b :: rest =>
    match character? b rest with
    | some (c, count) => char c :: ofBytes (rest.drop count)
    | none => stray :: ofBytes rest
termination_by bytes => bytes.length
decreasing_by
  · simp only [List.length_drop, List.length_cons]; omega
  · simp

end Symbol

end TokenGrammar.Json
