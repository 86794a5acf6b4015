import TokenGrammar.Trace

/-!
# Repeated starts in a trace

A parser that starts again and again at one place is the usual sign of a rule that
calls itself before it has consumed anything. The search goes by the written form
of the place, and stays silent until four parsers have started there.
-/

namespace TokenGrammar.Trace

/-- The names of the parsers that have started at each place, latest first. -/
abbrev Starts := List (String × List String)

namespace Starts

def namesAt (starts : Starts) (place : String) : List String :=
  (starts.lookup place).getD []

def record (starts : Starts) (place name : String) : Starts :=
  match starts with
  | [] => [(place, [name])]
  | (p, names) :: rest =>
    if p == place then (p, name :: names) :: rest else (p, names) :: record rest place name

end Starts

/-- The warning for the latest of the starts at a place: a fourth or later start
whose name is also that of the two starts before it. -/
def warning? (place : String) : List String → Option String
  | a :: b :: c :: _ :: _ =>
    if a = b ∧ b = c then
      some ("Potential left recursion detected: '" ++ a ++ "' called repeatedly at " ++ place)
    else none
  | _ => none

def warningsFrom (starts : Starts) : List TraceRecord → List String
  | [] => []
  | r :: rest =>
    if r.kind = .enter then
      let place := Position.renderOpt r.pos
      let starts := starts.record place r.name
      (warning? place (starts.namesAt place)).toList ++ warningsFrom starts rest
    else warningsFrom starts rest

def leftRecursionWarnings (records : List TraceRecord) : List String :=
  warningsFrom [] records

end TokenGrammar.Trace
