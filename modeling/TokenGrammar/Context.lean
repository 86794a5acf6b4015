import TokenGrammar.Config
import TokenGrammar.Diagnostic
import TokenGrammar.Outcome
import TokenGrammar.Trace

/-!
# The context of a parse

What the parsers of one evaluation share: the options, what the last evaluation
left, three logs that only grow while a parse runs, the number of traced parsers
in progress, and what a sequence had produced when it failed.

A traced parser goes through a gate. `enter?` refuses when the limit on depth is
reached and leaves the context as it was; otherwise `leave` follows and gives the
level back, whatever the outcome.
-/

namespace TokenGrammar

structure Context (V : Type) where
  config : Config
  /-- The input of the last evaluation. -/
  tokens : List (Token V)
  /-- How many tokens of the input the last evaluation consumed. -/
  pos : Nat
  remained : List (Token V)
  results : List (Token V)
  traces : Array TraceRecord
  failures : Array Failure
  diagnostics : Array Diagnostic
  depth : Nat
  /-- What a sequence had produced before it failed. -/
  partials : List (Token V)

namespace Context

variable {V : Type}

def ofConfig (config : Config) : Context V :=
  ⟨config, [], 0, [], [], #[], #[], #[], 0, []⟩

instance : Inhabited (Context V) := ⟨ofConfig .initial⟩

/-- Nothing of an earlier evaluation is left; the options stay. -/
def reset (ctx : Context V) : Context V := ofConfig ctx.config

def configure (ctx : Context V) (change : Config → Config) : Context V :=
  { ctx with config := change ctx.config }

/-- Logs a failure without ending the parse, at `fallback` if it has no place. -/
def logFailure (ctx : Context V) (failure : Failure) (fallback : Option Position) : Context V :=
  { ctx with failures := ctx.failures.push (failure.orAt fallback) }

def failure? (ctx : Context V) : Option Failure :=
  if ctx.failures.isEmpty then none else some (.join ctx.failures.toList none)

def report (ctx : Context V) (diagnostic : Diagnostic) : Context V :=
  { ctx with diagnostics := ctx.diagnostics.push diagnostic }

/-- One level deeper, unless that would pass the limit on depth. -/
def deepen? (ctx : Context V) (pos : Option Position) : Except Failure (Context V) :=
  if 0 < ctx.config.maxDepth ∧ ctx.config.maxDepth ≤ ctx.depth then
    .error (.stackOverflow ctx.depth ctx.config.maxDepth pos)
  else .ok { ctx with depth := ctx.depth + 1 }

def rise (ctx : Context V) : Context V := { ctx with depth := ctx.depth - 1 }

def record (ctx : Context V) (r : TraceRecord) : Context V :=
  { ctx with traces := ctx.traces.push r }

def enter? (ctx : Context V) (name : String) (pos : Option Position) :
    Except Failure (Context V) := do
  let inner ← ctx.deepen? pos
  return if inner.config.tracing then inner.record ⟨.enter, ctx.depth, name, pos, ""⟩
    else inner

/-- Records the outcome of a traced parser that began when the trace had `mark`
records. If none followed, the latest record is turned into one that stands for all
of the parser. -/
def recordOutcome [TokenValue V] (ctx : Context V) (name : String) (pos : Option Position)
    (mark : Nat) (outcome : Outcome V) : Context V :=
  if ctx.config.tracing then
    let alone := ctx.traces.size == mark
    match alone, ctx.traces.back? with
    | true, some last =>
      let ending := { last with
        kind := .ending true outcome.isMatch, result := outcome.render }
      { ctx with traces := ctx.traces.pop.push ending }
    | _, _ =>
      ctx.record ⟨.ending false outcome.isMatch, ctx.depth - 1, name, pos, outcome.render⟩
  else ctx

def leave [TokenValue V] (ctx : Context V) (name : String) (pos : Option Position) (mark : Nat)
    (outcome : Outcome V) : Context V :=
  (ctx.recordOutcome name pos mark outcome).rise

/-- A context of its own for a parse whose outcome alone counts: it starts at depth
zero, without a trace and without further checks of conversions. -/
def scratch (ctx : Context V) : Context V :=
  ofConfig { ctx.config with tracing := false, checkTransforms := false }

def checksTransforms (ctx : Context V) : Bool :=
  ctx.config.choiceMode = .safe && ctx.config.checkTransforms

def traceText (ctx : Context V) : String := Trace.render ctx.traces.toList

end Context

end TokenGrammar
