import TokenGrammar.FileTree
import TokenGrammar.Schemas

/-!
# Options from a text or a file
-/

namespace TokenGrammar

inductive LoadError
  | unopened (fault : PathFault)
  /-- The path leads to a directory, which opens but holds no bytes to read. -/
  | isDirectory
  | unreadable (problem : Json.Problem)
  deriving DecidableEq, Repr

namespace LoadError

def parseFailed (message : String) : String := "Failed to parse config: " ++ message

def message? : LoadError → Option String
  | unopened fault => some ("Failed to read config file: " ++ fault.message)
  | isDirectory => some (parseFailed "Is a directory (os error 21)")
  | unreadable (.mismatch m) => some (parseFailed m.message)
  | unreadable _ => none

/-- The class of an error in what a file holds, if it could be opened. -/
def category? : LoadError → Option String
  | unopened _ => none
  | isDirectory => some "io"
  | unreadable problem => some problem.category

end LoadError

namespace Config

def ofText? (text : String) : Except LoadError Config :=
  (schema.ofText? text).mapError .unreadable

def ofFile? : FileTree → Except LoadError Config
  | .directory _ => .error .isDirectory
  | .file bytes => (schema.decode (Json.Symbol.ofBytes bytes)).mapError .unreadable

def ofPath? (root : FileTree) (working : List String) (path : String) :
    Except LoadError Config :=
  match root.find working path with
  | .ok tree => ofFile? tree
  | .error fault => .error (.unopened fault)

end Config

end TokenGrammar
