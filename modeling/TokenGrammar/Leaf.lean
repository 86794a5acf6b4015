import TokenGrammar.Parser.Basic
import TokenGrammar.Search
import TokenGrammar.Value

/-!
# Leaf parsers

Leaves for grammars of arithmetic and statements, and leaves that do one thing to the
context. Most look at the first token: raw text is read, and a token that is of the
wanted kind already is taken over.
-/

namespace TokenGrammar.Leaf

variable {V : Type}

open TokenGrammar.Action (succeed failWith traced)

/-! ## Leaves on the first token -/

def one (t : Token V) : Outcome V := .ok ⟨1, [t]⟩

def dropOne : Outcome V := .ok ⟨1, []⟩

def mismatch (expected actual : String) (t : Token V) : Outcome V :=
  .error (.notMatch expected actual t.pos)

def quoted (t : Token V) : String := "'" ++ t.raw ++ "'"

/-- The outcome on the first token. Without one, `expected` is missing at no place. -/
def onFirst (expected missing : String) (read : Token V → Outcome V) :
    List (Token V) → Outcome V
  | [] => .error (.notMatch expected missing none)
  | token :: _ => read token

def plain (expected missing : String) (read : Token V → Outcome V) : Parser V :=
  .leaf fun input => .done (onFirst expected missing read input)

def tracedPlain (label expected : String) (read : Token V → Outcome V) : Parser V :=
  .leaf fun input => traced label input (.done (onFirst expected "EOF" read input))

/-- Reads a raw token, takes over one of kind `kind`, and refuses any other. -/
def rawOr (kind expected : String) (readRaw : Token V → Outcome V) (t : Token V) : Outcome V :=
  if t.kind = Token.rawKind then readRaw t
  else if t.kind = kind then one t
  else mismatch expected t.kind t

section Calculable

variable [Calculable V]

def digit : Parser V :=
  tracedPlain "digit" "digit" <| rawOr "digit" "raw or digit type" fun t =>
    match Text.readInt64? t.raw with
    | some n => one { Token.ofKind "digit" (Calculable.ofInteger n) with pos := t.pos }
    | none => mismatch "integer" (quoted t) t

def string : Parser V :=
  tracedPlain "string" "string" <| rawOr "string" "string" fun t =>
    one { t with kind := "string", val := TokenValue.blank }

def operator : Parser V :=
  tracedPlain "operator" "operator" <| rawOr "operator" "operator" fun t =>
    if (Operator.ofSymbol? t.raw).isSome then
      one { t with kind := "operator", val := TokenValue.blank }
    else mismatch "operator" (quoted t) t

end Calculable

def statementEnd : Parser V :=
  tracedPlain "eol" "EOL(;)" fun t =>
    if t.kind = Token.rawKind ∧ t.raw = ";" then dropOne else mismatch "EOL(;)" (quoted t) t

def any : Parser V := tracedPlain "any" "any" one

def literal (text : String) : Parser V :=
  tracedPlain text text fun t =>
    if t.raw = text then one { t with kind := "lit" } else mismatch text t.raw t

/-- A token with the text `text`, which is left out of what is produced. A mismatch
names no place. -/
def punctuation (text : String) : Parser V :=
  plain text "" fun t => if t.raw = text then dropOne else .error (.notMatch text "" none)

def ofKind (kind : String) : Parser V :=
  plain kind "" fun t => if t.kind = kind then one t else mismatch kind t.kind t

/-! ## Leaves with an outcome of their own -/

/-- Reports `consumed` tokens whatever the input, and produces the first `produced`. -/
def take (consumed produced : Nat) : Parser V :=
  .leaf fun input => succeed ⟨consumed, input.take produced⟩

def emit (tokens : List (Token V)) : Parser V := .leaf fun _ => succeed ⟨0, tokens⟩

def failing (failure : List (Token V) → Failure) : Parser V :=
  .leaf fun input => failWith (failure input)

/-! ## Leaves that change the context -/

def logging (failure : List (Token V) → Failure) : Parser V :=
  .leaf fun input => .logFailure (failure input) (firstPos input) <| succeed .nothing

def configuring (change : Config → Config) : Parser V :=
  .leaf fun _ => .configure change <| succeed .nothing

/-! ## Leaves that search -/

def finding (item : Parser V) : Parser V :=
  .leaf fun input => (Search.find item input).bind fun
    | some found => succeed ⟨found.skipped.length + found.consumed, found.matched⟩
    | none => failWith (.notMatch "find" "" (firstPos input))

def parseEach (item : Parser V) (input : List (Token V)) :
    List (Segment V) → (produced : List (Token V)) → Action (Parser V) V (Outcome V)
  | [], produced => succeed ⟨input.length, produced⟩
  | segment :: segments, produced => .call item segment.skipped fun
    | .ok m => parseEach item input segments (produced ++ m.produced)
    | .error failure => failWith failure

/-- Cuts the input at every match of `separator` and parses each segment. -/
def splitting (separator item : Parser V) : Parser V :=
  .leaf fun input => (Search.split separator input).bind fun segments =>
    parseEach item input segments []

end TokenGrammar.Leaf
