import TokenGrammar.Config
import TokenGrammar.Diagnostic
import TokenGrammar.Json.Read
import TokenGrammar.Json.Write
import TokenGrammar.Token
import TokenGrammar.Trace

/-!
# The JSON form of this library's types

Positions, tokens, trace records, findings and options, each with its field names in
order and with what may be left out.
-/

namespace TokenGrammar

open Json

namespace Position

def fields : Fields (Nat × Nat × Nat × Nat × Unit) :=
  .cons "line" .required .natural <| .cons "col" .required .natural <|
  .cons "index" .required .natural <| .cons "length" .required .natural .nil

def schema : Schema Position :=
  .via (fun (line, col, index, length, ()) => ⟨line, col, index, length⟩)
    (fun p => (p.line, p.col, p.index, p.length, ())) (fun _ => rfl)
    (.record "struct Position" fields)

end Position

namespace Token

def fields {V : Type} (val : Schema V) :
    Fields (String × Option Position × String × V × Unit) :=
  .cons "kind" .required .text <| .cons "pos" .nothing (.optional Position.schema) <|
  .cons "raw" .required .text <| .cons "val" .required val .nil

def schema {V : Type} (val : Schema V) : Schema (Token V) :=
  .via (fun (kind, pos, raw, val, ()) => ⟨kind, pos, raw, val⟩)
    (fun t => (t.kind, t.pos, t.raw, t.val, ())) (fun _ => rfl)
    (.record "struct Token" (fields val))

end Token

namespace TraceKind

def cases : Cases (Unit ⊕ Unit ⊕ Unit ⊕ Unit ⊕ Unit ⊕ Empty) :=
  .unit "Enter" <| .unit "Match" <| .unit "EnterMatch" <| .unit "NotMatch" <|
  .unit "EnterNotMatch" .nil

def schema : Schema TraceKind :=
  .via
    (fun
      | .inl _ => enter
      | .inr (.inl _) => matched
      | .inr (.inr (.inl _)) => enterMatched
      | .inr (.inr (.inr (.inl _))) => notMatched
      | .inr (.inr (.inr (.inr (.inl _)))) => enterNotMatched)
    (fun
      | enter => .inl ()
      | matched => .inr (.inl ())
      | enterMatched => .inr (.inr (.inl ()))
      | notMatched => .inr (.inr (.inr (.inl ())))
      | enterNotMatched => .inr (.inr (.inr (.inr (.inl ())))))
    (fun kind => by cases kind <;> rfl)
    (.variants cases)

end TraceKind

namespace TraceRecord

def fields : Fields (TraceKind × Nat × String × Option Position × String × Unit) :=
  .cons "trace_type" .required TraceKind.schema <| .cons "depth" .required .natural <|
  .cons "name" .required .text <| .cons "pos" .nothing (.optional Position.schema) <|
  .cons "result" .required .text .nil

def schema : Schema TraceRecord :=
  .via (fun (kind, depth, name, pos, result, ()) => ⟨kind, depth, name, pos, result⟩)
    (fun r => (r.kind, r.depth, r.name, r.pos, r.result, ())) (fun _ => rfl)
    (.record "struct TraceInfo" fields)

end TraceRecord

namespace Diagnostic

def reorderFields : Fields (String × Option Position × Nat × Nat × Nat × Nat × Unit) :=
  .cons "location" .required .text <| .cons "pos" .nothing (.optional Position.schema) <|
  .cons "chosen" .required .natural <| .cons "chosen_consumed" .required .natural <|
  .cons "longest" .required .natural <| .cons "longest_consumed" .required .natural .nil

def transformLoopFields : Fields (Option Position × String × Unit) :=
  .cons "pos" .nothing (.optional Position.schema) <| .cons "message" .required .text .nil

def cases : Cases ((String × Option Position × Nat × Nat × Nat × Nat × Unit) ⊕
    (Option Position × String × Unit) ⊕ Empty) :=
  .record "OrReorder" "struct variant Diagnostic::OrReorder" reorderFields <|
  .record "TransformLoop" "struct variant Diagnostic::TransformLoop" transformLoopFields .nil

def schema : Schema Diagnostic :=
  .via
    (fun
      | .inl (location, pos, chosen, chosenConsumed, longest, longestConsumed, ()) =>
        reorder location pos chosen chosenConsumed longest longestConsumed
      | .inr (.inl (pos, message, ())) => transformLoop pos message)
    (fun
      | reorder location pos chosen chosenConsumed longest longestConsumed =>
        .inl (location, pos, chosen, chosenConsumed, longest, longestConsumed, ())
      | transformLoop pos message => .inr (.inl (pos, message, ())))
    (fun diagnostic => by cases diagnostic <;> rfl)
    (.variants cases)

end Diagnostic

namespace ChoiceMode

def cases : Cases (Unit ⊕ Unit ⊕ Unit ⊕ Empty) :=
  .unit safe.render <| .unit fast.render <| .unit tryFast.render .nil

def schema : Schema ChoiceMode :=
  .via
    (fun
      | .inl _ => safe
      | .inr (.inl _) => fast
      | .inr (.inr (.inl _)) => tryFast)
    (fun
      | safe => .inl ()
      | fast => .inr (.inl ())
      | tryFast => .inr (.inr (.inl ())))
    (fun mode => by cases mode <;> rfl)
    (.variants cases)

end ChoiceMode

namespace Config

def fields : Fields (Nat × Bool × ChoiceMode × Bool × Unit) :=
  .cons "max_depth" (.default initial.maxDepth) .natural <|
  .cons "trace_enable" (.default initial.tracing) .boolean <|
  .cons "or_mode" (.default initial.choiceMode) ChoiceMode.schema <|
  .cons "check_transform_safety" (.default initial.checkTransforms) .boolean .nil

def schema : Schema Config :=
  .via (fun (maxDepth, tracing, choiceMode, check, ()) => ⟨maxDepth, tracing, choiceMode, check⟩)
    (fun c => (c.maxDepth, c.tracing, c.choiceMode, c.checkTransforms, ())) (fun _ => rfl)
    (.record "struct ParseConfig" fields)

end Config

end TokenGrammar
