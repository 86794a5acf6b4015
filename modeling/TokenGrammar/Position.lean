/-!
# Places in a source text

A place holds a line, a column, an absolute index and a length. Line and column
both zero mean that only the index is known, and the place is then written as
that index. An absent place is written as the start of a text.
-/

namespace TokenGrammar

structure Position where
  line : Nat
  col : Nat
  index : Nat
  length : Nat
  deriving DecidableEq, Repr, Inhabited

namespace Position

def origin : Position := ⟨0, 0, 0, 0⟩

def ofLineCol (line col : Nat) : Position := ⟨line, col, 0, 0⟩

def atIndex (index : Nat) : Position := ⟨0, 0, index, 0⟩

def withLength (pos : Position) (length : Nat) : Position := { pos with length }

def indexOnly (pos : Position) : Bool := pos.line == 0 && pos.col == 0

def render (pos : Position) : String :=
  if pos.indexOnly then toString pos.index else toString pos.line ++ ":" ++ toString pos.col

def renderOpt : Option Position → String
  | some pos => pos.render
  | none => "1:1"

/-- The place just past a text that starts here; a text is at least one wide. -/
def past (pos : Position) : Position :=
  let width := max pos.length 1
  if pos.indexOnly then atIndex (pos.index + width)
  else ⟨pos.line, pos.col + width, pos.index + width, 0⟩

end Position

end TokenGrammar
