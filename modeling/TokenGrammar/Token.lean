import TokenGrammar.Position

/-!
# Tokens

Parsers read tokens and produce tokens. A token carries a kind that leaf parsers
look at, the text it was read from, and a value of the grammar's own type.
-/

namespace TokenGrammar

/-- What a grammar's value type supplies: the value of a token not yet read, a
test for equality, and the text shown for a value in a trace. -/
class TokenValue (V : Type) where
  blank : V
  decEq : DecidableEq V
  render : V → String

attribute [reducible, instance] TokenValue.decEq

structure Token (V : Type) where
  kind : String
  pos : Option Position
  raw : String
  val : V
  deriving DecidableEq

namespace Token

variable {V : Type}

def rawKind : String := "raw"

def ofKind (kind : String) (val : V) : Token V := ⟨kind, none, "", val⟩

def ofRaw [TokenValue V] (text : String) (index : Nat) : Token V :=
  ⟨rawKind, some (.atIndex index), text, TokenValue.blank⟩

def isKind (t : Token V) (kind : String) : Bool := t.kind == kind

def render [TokenValue V] (t : Token V) : String :=
  let text := if t.raw.isEmpty then "" else " raw='" ++ t.raw ++ "'"
  "\x7b" ++ t.kind ++ " at " ++ Position.renderOpt t.pos ++ text ++
    " val: " ++ TokenValue.render t.val ++ "\x7d"

def ofTexts [TokenValue V] (texts : List String) : List (Token V) :=
  texts.zipIdx.map fun (text, i) => ofRaw text i

def renderValues [TokenValue V] (tokens : List (Token V)) : String :=
  "[" ++ ", ".intercalate (tokens.map fun t => TokenValue.render t.val) ++ "]"

end Token

def firstPos {V : Type} (tokens : List (Token V)) : Option Position :=
  tokens.head?.bind (·.pos)

def endPos {V : Type} (tokens : List (Token V)) : Option Position :=
  tokens.getLast?.bind (·.pos) |>.map Position.past

end TokenGrammar
