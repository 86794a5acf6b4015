import TokenGrammar.Position

/-!
# Failures of a parse

A failure is a single fault at a place, or several failures joined. Two kinds of
fault are recoverable: an alternation goes on to its next option and an optional
part is left out. The other two abort what encloses them.

A join is recoverable when *some* member is. Its kind is told by the first
member whose kind is not recoverable, else by the first member.
-/

namespace TokenGrammar

inductive FaultKind
  | notMatch
  | repeatCount
  | critical
  | stackOverflow
  deriving DecidableEq, Repr

namespace FaultKind

def isRecoverable : FaultKind → Bool
  | notMatch | repeatCount => true
  | critical | stackOverflow => false

def render : FaultKind → String
  | notMatch => "not match"
  | repeatCount => "repeat count"
  | critical => "critical error"
  | stackOverflow => "stack overflow"

def all : List FaultKind := [notMatch, repeatCount, critical, stackOverflow]

end FaultKind

inductive Fault
  | notMatch (expected : String) (actual : Option String)
  | repeatCount (label : String) (expected actual : Nat)
  | critical (message : String)
  | stackOverflow (depth maxDepth : Nat)
  deriving DecidableEq, Repr

namespace Fault

def kind : Fault → FaultKind
  | notMatch .. => .notMatch
  | repeatCount .. => .repeatCount
  | critical _ => .critical
  | stackOverflow .. => .stackOverflow

def render : Fault → String
  | notMatch expected actual =>
    let found := match actual with
      | some text => "actual: " ++ text
      | none => "but not"
    "not match expected: " ++ expected ++ ", " ++ found
  | repeatCount label expected actual =>
    "repeat count (" ++ label ++ ") expected count: " ++ toString expected ++
      ", actual count: " ++ toString actual
  | critical message => "critical error: " ++ message
  | stackOverflow depth maxDepth =>
    "stack overflow: recursion depth " ++ toString depth ++ " exceeded maximum " ++
      toString maxDepth

end Fault

inductive Failure
  | single (fault : Fault) (pos : Option Position)
  | joined (members : List Failure) (pos : Option Position)
  deriving Inhabited, Repr

namespace Failure

mutual
private def decEqOne : (a b : Failure) → Decidable (a = b)
  | .single f p, .single g q =>
    decidable_of_iff (f = g ∧ p = q) (by simp)
  | .joined fs p, .joined gs q =>
    match decEqAll fs gs with
    | .isTrue h => decidable_of_iff (p = q) (by simp [h])
    | .isFalse h => .isFalse (by simp [h])
  | .single .., .joined .. | .joined .., .single .. => .isFalse nofun
private def decEqAll : (as bs : List Failure) → Decidable (as = bs)
  | [], [] => .isTrue rfl
  | a :: as, b :: bs =>
    match decEqOne a b with
    | .isTrue h => match decEqAll as bs with
      | .isTrue hs => .isTrue (by rw [h, hs])
      | .isFalse hs => .isFalse (by simp [hs])
    | .isFalse h => .isFalse (by simp [h])
  | [], _ :: _ | _ :: _, [] => .isFalse nofun
end

instance : DecidableEq Failure := decEqOne

/-- An empty text for what was found means that there was nothing to name. -/
def notMatch (expected actual : String) (pos : Option Position) : Failure :=
  .single (.notMatch expected (if actual.isEmpty then none else some actual)) pos

def repeatCount (label : String) (expected actual : Nat) (pos : Option Position) : Failure :=
  .single (.repeatCount label expected actual) pos

def critical (message : String) (pos : Option Position) : Failure :=
  .single (.critical message) pos

def stackOverflow (depth maxDepth : Nat) (pos : Option Position) : Failure :=
  .single (.stackOverflow depth maxDepth) pos

/-- Several failures as one. A single failure is kept as it is, unless the join
has a place of its own. -/
def join (failures : List Failure) (pos : Option Position) : Failure :=
  match failures, pos with
  | [f], none => f
  | fs, p => .joined fs p

def pos : Failure → Option Position
  | .single _ p => p
  | .joined _ p => p

def orAt : Failure → Option Position → Failure
  | .single fault none, fallback => .single fault fallback
  | .joined members none, fallback => .joined members fallback
  | f, _ => f

mutual
/-- The kind of a fault; of a join, that of its first member of an unrecoverable
kind, else of its first member, else `notMatch`. -/
def kind : Failure → FaultKind
  | .single fault _ => fault.kind
  | .joined members _ => (kinds members).find? (!·.isRecoverable) |>.getD
      ((kinds members).head?.getD .notMatch)
def kinds : List Failure → List FaultKind
  | [] => []
  | f :: fs => f.kind :: kinds fs
end

mutual
/-- Whether this failure, or one joined into it at any depth, is of kind `k`. -/
def is (k : FaultKind) : Failure → Bool
  | .single fault _ => fault.kind == k
  | .joined members _ => anyIs k members
def anyIs (k : FaultKind) : List Failure → Bool
  | [] => false
  | f :: fs => f.is k || anyIs k fs
end

def isRecoverable (f : Failure) : Bool := f.is .notMatch || f.is .repeatCount

def members : Failure → List Failure
  | .joined members _ => members
  | f => [f]

mutual
def renderCause : Failure → String
  | .single fault _ => fault.render
  | .joined members _ => "\n".intercalate (renderAll members)
/-- A cause and its place; a join that has no place shows its cause alone. -/
def render : Failure → String
  | .single fault pos => fault.render ++ " at " ++ Position.renderOpt pos
  | .joined members none => "\n".intercalate (renderAll members)
  | .joined members (some pos) =>
    "\n".intercalate (renderAll members) ++ " at " ++ pos.render
def renderAll : List Failure → List String
  | [] => []
  | f :: fs => f.render :: renderAll fs
end

end Failure

end TokenGrammar
