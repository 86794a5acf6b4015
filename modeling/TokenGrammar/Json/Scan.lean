import TokenGrammar.Json.Problem
import TokenGrammar.Text.Integer

/-!
# The smallest parts of a JSON text

Blanks, words, digits, and the characters of a string between its quotes.
-/

namespace TokenGrammar.Json

def Symbol.isBlank : Symbol → Bool
  | .char c => c == ' ' || c == '\n' || c == '\t' || c == '\r'
  | .stray => false

def skipBlanks : List Symbol → List Symbol := List.dropWhile Symbol.isBlank

def readWord : (word : List Char) → Skipper
  | [], input => .ok input
  | _ :: _, [] => .error .endsEarly
  | c :: word, s :: input => if s = .char c then readWord word input else .error .malformed

/-- The rest after a mark that must come next, blanks aside. -/
def readMark (mark : Char) : Skipper := fun input => readWord [mark] (skipBlanks input)

def Symbol.digit? : Symbol → Option Nat
  | .char c => Text.digit? c
  | .stray => none

def readDigits : List Symbol → List Nat × List Symbol
  | [] => ([], [])
  | s :: rest =>
    match s.digit? with
    | some d => let (digits, rest) := readDigits rest; (d :: digits, rest)
    | none => ([], s :: rest)

/-! ## Strings -/

def Symbol.hexDigit? : Symbol → Option Nat
  | .char c =>
    if '0' ≤ c ∧ c ≤ '9' then some (c.toNat - '0'.toNat)
    else if 'a' ≤ c ∧ c ≤ 'f' then some (c.toNat - 'a'.toNat + 10)
    else if 'A' ≤ c ∧ c ≤ 'F' then some (c.toNat - 'A'.toNat + 10)
    else none
  | .stray => none

/-- A number of `count` digits of base sixteen. Where another symbol stands, the text
ends early if fewer than `count` bytes are left. -/
def readHex : (count acc : Nat) → Reader Nat
  | 0, acc, input => .ok (acc, input)
  | _ + 1, _, [] => .error .endsEarly
  | count + 1, acc, s :: rest =>
    match s.hexDigit? with
    | some d => readHex count (16 * acc + d) rest
    | none =>
      if ((s :: rest).map Symbol.size).sum ≤ count then .error .endsEarly else .error .malformed

/-- The first half of a pair that stands for one character. -/
def isHighHalf (n : Nat) : Bool := 0xd800 ≤ n && n < 0xdc00

def isLowHalf (n : Nat) : Bool := 0xdc00 ≤ n && n < 0xe000

def joinHalves (high low : Nat) : Char :=
  Char.ofNat (0x10000 + (high - 0xd800) * 0x400 + (low - 0xdc00))

def shortEscape? : Char → Option Char
  | '"' => some '"'
  | '\\' => some '\\'
  | '/' => some '/'
  | 'b' => some '\x08'
  | 'f' => some '\x0c'
  | 'n' => some '\n'
  | 'r' => some '\r'
  | 't' => some '\t'
  | _ => none

/-- The character given by its code, after the mark of such an escape. A code that is
half of a pair needs the other half after it. -/
def readCode : Reader Char := fun input => do
  let (first, rest) ← readHex 4 0 input
  if isLowHalf first then throw .malformed
  else if isHighHalf first then
    let rest ← readWord ['\\', 'u'] rest
    let (second, rest) ← readHex 4 0 rest
    if isLowHalf second then return (joinHalves first second, rest) else throw .malformed
  else return (Char.ofNat first, rest)

def readEscape : Reader Char
  | [] => .error .endsEarly
  | .char 'u' :: rest => readCode rest
  | .char c :: rest =>
    match shortEscape? c with
    | some c => .ok (c, rest)
    | none => .error .malformed
  | .stray :: _ => .error .malformed

/-- The next symbol that a string holds, or nothing at its closing quote. `escape`
reads what follows a backslash. -/
def readUnit (escape : Reader Char) : Reader (Option Symbol)
  | [] => .error .endsEarly
  | .char '"' :: rest => .ok (none, rest)
  | .char '\\' :: rest => do
    let (c, rest) ← escape rest
    return (some (.char c), rest)
  | .char c :: rest => if c.toNat < 0x20 then .error .malformed else .ok (some (.char c), rest)
  | .stray :: rest => .ok (some .stray, rest)

/-- What a string holds up to its closing quote. A unit takes at least one symbol, so
`budget` symbols hold at most `budget` units. -/
def readUnits (escape : Reader Char) : (budget : Nat) → Reader (List Symbol)
  | 0, _ => .error .endsEarly
  | budget + 1, input => do
    match ← readUnit escape input with
    | (none, rest) => return ([], rest)
    | (some s, rest) =>
      let (units, rest) ← readUnits escape budget rest
      return (s :: units, rest)

def readString : Reader String := fun input => do
  let (units, rest) ← readUnits readEscape input.length input
  match Symbol.text? units with
  | some text => return (text, rest)
  | none => throw .malformed

/-! ## Strings that are passed over -/

/-- Passes over an escape after its backslash. Whether a code is a character is not
looked at. -/
def skipEscape : Reader Char
  | [] => .error .endsEarly
  | .char 'u' :: rest => do
    let (_, rest) ← readHex 4 0 rest
    return ('u', rest)
  | .char c :: rest => if (shortEscape? c).isSome then .ok (c, rest) else .error .malformed
  | .stray :: _ => .error .malformed

def skipString : Skipper := fun input => do
  let (_, rest) ← readUnits skipEscape input.length input
  return rest

end TokenGrammar.Json
