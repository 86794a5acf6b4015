import TokenGrammar.Parser.Basic
import TokenGrammar.Value

/-!
# Conversions of produced tokens

What `Parser.transform` may do with the tokens that a parser produced: rearrange and
mark them, calculate with their values, or act on the context.
-/

namespace TokenGrammar

/-- An action from produced tokens to the tokens that replace them. -/
abbrev Conversion (V : Type) :=
  List (Token V) → Action (Parser V) V (Except Failure (List (Token V)))

namespace Conversion

variable {V : Type}

def ofTokens (f : List (Token V) → Except Failure (List (Token V))) : Conversion V :=
  fun tokens => .done (f tokens)

def total (f : List (Token V) → List (Token V)) : Conversion V := ofTokens (.ok <| f ·)

/-! ## Order and marks -/

def identity : Conversion V := total id

def drop : Conversion V := total fun _ => []

def reverse : Conversion V := total List.reverse

def duplicate : Conversion V := total (·.flatMap fun t => [t, t])

def retag (kind : String) : Conversion V := total (·.map fun t => { t with kind })

def place (pos : Option Position) : Conversion V := total (·.map fun t => { t with pos })

/-! ## Values -/

section Calculable

variable [Calculable V]

def merged (kind : String) (tokens : List (Token V)) (val : V) : List (Token V) :=
  [{ Token.ofKind kind val with pos := firstPos tokens }]

def refuse {α : Type} (message : String) (tokens : List (Token V)) : Except Failure α :=
  .error (.critical message (firstPos tokens))

def increment : Conversion V :=
  total (·.map fun t => { t with val := Calculable.successor t.val })

def count (kind : String) : Conversion V :=
  total fun tokens => merged kind tokens (Calculable.ofCount tokens.length)

def sum (kind : String) : Conversion V :=
  ofTokens fun tokens =>
    match Calculable.sum? (tokens.map (·.val)) with
    | some val => .ok (merged kind tokens val)
    | none => refuse "arithmetic error" tokens

def concat (kind : String) : Conversion V :=
  total fun tokens =>
    (merged kind tokens TokenValue.blank).map fun t =>
      { t with raw := String.join (tokens.map (·.raw)) }

/-- The operation that a token's text stands for. `tokens` is where a refusal is
placed. -/
def apply (tokens : List (Token V)) (op : Token V) (a b : V) : Except Failure V :=
  match Operator.ofSymbol? op.raw with
  | none => refuse ("unsupported operator " ++ op.raw) tokens
  | some operator =>
    match Calculable.calculate? operator a b with
    | some val => .ok val
    | none => refuse "arithmetic error" tokens

/-- Operators and operands in turn, from left to right. An operator without an
operand after it is left out. -/
def foldFrom (tokens : List (Token V)) : List (Token V) → (acc : V) → Except Failure V
  | op :: operand :: rest, acc => do foldFrom tokens rest (← apply tokens op acc operand.val)
  | _, acc => .ok acc

def fold : Conversion V :=
  ofTokens fun tokens =>
    match tokens with
    | [] => .ok []
    | first :: rest => merged "digit" tokens <$> foldFrom tokens rest first.val

def operatorFirst : Conversion V :=
  ofTokens fun tokens =>
    match tokens with
    | op :: a :: b :: _ => merged "digit" tokens <$> apply tokens op a.val b.val
    | _ => refuse "prefix arity" tokens

end Calculable

/-! ## Effects -/

def failing (failure : List (Token V) → Failure) : Conversion V :=
  ofTokens fun tokens => .error (failure tokens)

/-- Logs a failure, at the first token if it has no place. -/
def logging (failure : List (Token V) → Failure) : Conversion V :=
  fun tokens => .logFailure (failure tokens) (firstPos tokens) <| .done (.ok tokens)

def configuring (change : Config → Config) : Conversion V :=
  fun tokens => .configure change <| .done (.ok tokens)

def reparsed (parser : Parser V) : Conversion V :=
  fun tokens => .call parser tokens fun outcome => .done (outcome.map (·.produced))

end Conversion

end TokenGrammar
