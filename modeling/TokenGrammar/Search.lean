import TokenGrammar.Action

/-!
# Searching a token stream

`find` is the leftmost match of a parser. `Splitter.next` cuts a stream at the next
match of a separator, and `split` cuts it at every match. A match that consumes
nothing at the very start of a stream is no place to cut, so each cut shortens what
is left.
-/

namespace TokenGrammar

structure Found (V : Type) where
  skipped : List (Token V)
  matched : List (Token V)
  consumed : Nat
  remained : List (Token V)
  deriving DecidableEq

structure Segment (V : Type) where
  skipped : List (Token V)
  /-- What the separator at the end produced; the last segment has none. -/
  separator : Option (List (Token V))
  last : Bool
  deriving DecidableEq

namespace Search

variable {P : Type 1} {V : Type}

/-- The first match at an index from `i` on, where `suffix` is what follows `i` in
`input`. With `progress`, a match must end past the start of `input`. -/
def findFrom (parser : P) (progress : Bool) (input : List (Token V)) :
    (suffix : List (Token V)) → (i : Nat) → Action P V (Option (Found V))
  | [], _ => .done none
  | token :: rest, i =>
    .call parser (token :: rest) fun
      | .ok m =>
        if progress && i + m.consumed == 0 then findFrom parser progress input rest (i + 1)
        else .done (some ⟨input.take i, m.produced, m.consumed, input.drop (i + m.consumed)⟩)
      | .error _ => findFrom parser progress input rest (i + 1)

def find (parser : P) (input : List (Token V)) : Action P V (Option (Found V)) :=
  findFrom parser false input input 0

end Search

structure Splitter (V : Type) where
  rest : List (Token V)
  /-- How many segments are still allowed; nothing sets no limit. -/
  limit : Option Nat
  started : Bool
  finished : Bool
  deriving DecidableEq

namespace Splitter

variable {P : Type 1} {V : Type}

def ofTokens (tokens : List (Token V)) : Splitter V := ⟨tokens, none, false, false⟩

/-- At most `n` segments; zero sets no limit. -/
def limited (s : Splitter V) (n : Nat) : Splitter V :=
  { s with limit := if n = 0 then none else some n }

def render (s : Splitter V) : String :=
  "FindIter \x7b remaining: " ++ toString s.rest.length ++ ", done: " ++
    (if s.finished then "true" else "false") ++ " \x7d"

/-- Whether there is no further segment: an empty stream has none at all. -/
def exhausted (s : Splitter V) : Bool := s.finished || (!s.started && s.rest.isEmpty)

def remainder (s : Splitter V) : Segment V × Splitter V :=
  (⟨s.rest, none, true⟩, { s with started := true, finished := true })

def cut (s : Splitter V) (found : Found V) : Segment V × Splitter V :=
  (⟨found.skipped, some found.matched, false⟩,
    { s with rest := found.remained, limit := s.limit.map (· - 1), started := true })

/-- The next segment. The last one that the limit allows takes all that is left, and
so does the one after a separator at the very end. -/
def next (separator : P) (s : Splitter V) : Action P V (Option (Segment V) × Splitter V) :=
  if s.exhausted then .done (none, { s with finished := true })
  else if s.limit == some 1 || s.rest.isEmpty then
    let (segment, s) := s.remainder
    .done (some segment, s)
  else do
    let found ← Search.findFrom separator true s.rest s.rest 0
    let (segment, s) := match found with
      | some found => s.cut found
      | none => s.remainder
    return (some segment, s)

def collectUpTo (separator : P) : (budget : Nat) → Splitter V → Action P V (List (Segment V))
  | 0, _ => .done []
  | budget + 1, s => do
    match ← s.next separator with
    | (none, _) => return []
    | (some segment, s) => return segment :: (← collectUpTo separator budget s)

/-- The segments that are left. Each but the last takes a token of the stream. -/
def collect (separator : P) (s : Splitter V) : Action P V (List (Segment V)) :=
  s.collectUpTo separator (s.rest.length + 1)

end Splitter

namespace Search

variable {P : Type 1} {V : Type}

def split (separator : P) (input : List (Token V)) : Action P V (List (Segment V)) :=
  (Splitter.ofTokens input).collect separator

def splitUpTo (n : Nat) (separator : P) (input : List (Token V)) :
    Action P V (List (Segment V)) :=
  ((Splitter.ofTokens input).limited n).collect separator

end Search

end TokenGrammar
