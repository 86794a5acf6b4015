import TokenGrammar.Position
import TokenGrammar.Text.Quoted

/-!
# Trace records

A traced parser leaves a record when it starts and one when it ends. Where nothing
was recorded in between, one record stands for both. A trace is written as one line
a record, indented by depth.
-/

namespace TokenGrammar

inductive TraceKind
  | enter
  | matched
  | enterMatched
  | notMatched
  | enterNotMatched
  deriving DecidableEq, Repr

namespace TraceKind

def symbol : TraceKind → String
  | enter => ">"
  | matched => "<"
  | enterMatched => "="
  | notMatched | enterNotMatched => "!"

/-- The kind of a record that ends a parser, or stands for all of it. -/
def ending (alone success : Bool) : TraceKind :=
  match alone, success with
  | true, true => enterMatched
  | true, false => enterNotMatched
  | false, true => matched
  | false, false => notMatched

end TraceKind

structure TraceRecord where
  kind : TraceKind
  depth : Nat
  name : String
  pos : Option Position
  /-- The produced values of a match, the text of a failure, empty at the start. -/
  result : String
  deriving DecidableEq, Repr

namespace TraceRecord

def indent (depth : Nat) : String := String.ofList (List.replicate (2 * depth) ' ')

def render (r : TraceRecord) : String :=
  let head := indent r.depth ++ r.kind.symbol ++ " " ++ r.name
  match r.kind with
  | .enter => head ++ " at " ++ Position.renderOpt r.pos
  | .enterMatched | .enterNotMatched =>
    head ++ " at " ++ Position.renderOpt r.pos ++ " -> " ++ r.result
  | .matched | .notMatched => head ++ " => " ++ Text.quote r.result

end TraceRecord

namespace Trace

def line (r : TraceRecord) : String := r.render ++ "\n"

def render (records : List TraceRecord) : String := String.join (records.map line)

def writeTo (output : String) (records : List TraceRecord) : String :=
  records.foldl (fun output r => output ++ line r) output

end Trace

end TokenGrammar
