/-!
# Options of a parse
-/

namespace TokenGrammar

inductive ChoiceMode
  /-- The longest match, of equal ones the first. -/
  | safe
  | fast
  /-- The first match, with a report where the longest match is another. -/
  | tryFast
  deriving DecidableEq, Repr

namespace ChoiceMode

def render : ChoiceMode → String
  | safe => "Safe"
  | fast => "Fast"
  | tryFast => "TryFast"

def all : List ChoiceMode := [safe, fast, tryFast]

def ofText? (text : String) : Option ChoiceMode := all.find? (·.render == text)

instance : Inhabited ChoiceMode := ⟨safe⟩

theorem ofText?_render (mode : ChoiceMode) : ofText? mode.render = some mode := by
  cases mode <;> decide

end ChoiceMode

structure Config where
  /-- How many traced parsers may be in progress at once; zero sets no limit. -/
  maxDepth : Nat
  tracing : Bool
  choiceMode : ChoiceMode
  checkTransforms : Bool
  deriving DecidableEq, Repr

namespace Config

def initial : Config := ⟨1000, false, .safe, false⟩

instance : Inhabited Config := ⟨initial⟩

end Config

end TokenGrammar
