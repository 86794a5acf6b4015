import TokenGrammar.Parser.Basic

/-!
# What a parser does

`Parser.body` is the action of a parser on its input. It calls the parsers it is
built from and is itself without recursion through the tree: a call is given its
meaning where actions run.
-/

namespace TokenGrammar.Parser

variable {V : Type}

open TokenGrammar.Action (succeed failWith traced)

abbrev Step (V : Type) := Action (Parser V) V (Outcome V)

/-- The rest of a sequence, where `sofar` is what the parts before it matched.
A failure at the end of the input that has no place is put just past the input. -/
def seqFrom (input : List (Token V)) : List (Parser V) → (sofar : Match V) → Step V
  | [], sofar => succeed sofar
  | part :: parts, sofar =>
    let rest := input.drop sofar.consumed
    .clearPartials <| .call part rest fun
      | .ok m => seqFrom input parts (sofar ++ m)
      | .error failure =>
        let failure := if rest.isEmpty then failure.orAt (endPos input) else failure
        .keepPartials sofar.produced <| failWith failure

/-- The longer of the best match so far and a later one; of equal ones the earlier. -/
def longer (best : Option (Match V)) (m : Match V) : Match V :=
  match best with
  | some b => if b.consumed < m.consumed then m else b
  | none => m

def longestFrom (input : List (Token V)) : List (Parser V) → (best : Option (Match V)) →
    (failures : List Failure) → Step V
  | [], some best, _ => succeed best
  | [], none, failures => failWith (.join failures (firstPos input))
  | option :: options, best, failures => .call option input fun
    | .ok m => longestFrom input options (some (longer best m)) failures
    | .error failure =>
      if failure.isRecoverable then longestFrom input options best (failures ++ [failure])
      else failWith failure

def firstFrom (input : List (Token V)) : List (Parser V) → (failures : List Failure) → Step V
  | [], failures => failWith (.join failures (firstPos input))
  | option :: options, failures => .call option input fun
    | .ok m => succeed m
    | .error failure =>
      if failure.isRecoverable then firstFrom input options (failures ++ [failure])
      else failWith failure

/-- The match of an option with the option's number, counted from one. -/
structure Choice (V : Type) where
  number : Nat
  matched : Match V

structure Comparison (V : Type) where
  first : Choice V
  longest : Choice V

def Comparison.extend (comparison : Option (Comparison V)) (choice : Choice V) :
    Comparison V :=
  match comparison with
  | none => ⟨choice, choice⟩
  | some c =>
    if c.longest.matched.consumed < choice.matched.consumed then { c with longest := choice }
    else c

def Comparison.finding? (c : Comparison V) (location : String) (pos : Option Position) :
    Option Diagnostic :=
  if c.longest.number = c.first.number then none
  else some (.reorder location pos c.first.number c.first.matched.consumed
    c.longest.number c.longest.matched.consumed)

/-- The first match of several options, after trying them all. -/
def comparedFrom (location : String) (input : List (Token V)) : List (Parser V) →
    (number : Nat) → (comparison : Option (Comparison V)) → (failures : List Failure) → Step V
  | [], _, some c, _ =>
    match c.finding? location (firstPos input) with
    | some finding => .report finding <| succeed c.first.matched
    | none => succeed c.first.matched
  | [], _, none, failures => failWith (.join failures (firstPos input))
  | option :: options, number, comparison, failures => .call option input fun
    | .ok m =>
      comparedFrom location input options (number + 1)
        (some (Comparison.extend comparison ⟨number, m⟩)) failures
    | .error failure =>
      if failure.isRecoverable then
        comparedFrom location input options (number + 1) comparison (failures ++ [failure])
      else failWith failure

def choose (location : String) (options : List (Parser V)) (input : List (Token V)) :
    ChoiceMode → Step V
  | .safe => longestFrom input options none []
  | .fast => firstFrom input options []
  | .tryFast => comparedFrom location input options 1 none []

def endRepetition (label : String) (min : Nat) (input : List (Token V)) (count : Nat)
    (sofar : Match V) : Step V :=
  if count < min then failWith (.repeatCount label min count (firstPos input)) else succeed sofar

/-- Further matches of `item`, where `sofar` is what the first `count` of them
matched. Each match but the last consumes a token, so `budget` tokens allow for
`budget` matches. -/
def repeatFrom (label : String) (min : Nat) (max : Option Nat) (item : Parser V)
    (input : List (Token V)) : (budget count : Nat) → (sofar : Match V) → Step V
  | 0, count, sofar => endRepetition label min input count sofar
  | budget + 1, count, sofar =>
    if max.any (· ≤ count) || input.length ≤ sofar.consumed then
      endRepetition label min input count sofar
    else .call item (input.drop sofar.consumed) fun
      | .ok m =>
        if m.consumed = 0 then endRepetition label min input (count + 1) (sofar ++ m)
        else repeatFrom label min max item input budget (count + 1) (sofar ++ m)
      | .error failure =>
        if failure.is .notMatch then endRepetition label min input count sofar
        else failWith failure

/-- Goes past the first match of `skipUntil`, or to the end of the input. `i` tokens
are behind. -/
def resync (skipUntil : Parser V) : List (Token V) → (i : Nat) → Step V
  | [], i => succeed ⟨i, []⟩
  | token :: rest, i => .call skipUntil (token :: rest) fun
    | .ok m => succeed ⟨i + m.consumed, []⟩
    | .error _ => resync skipUntil rest (i + 1)

def onMatch (outcome : Outcome V) (next : Match V → Step V) : Step V :=
  match outcome with
  | .ok m => next m
  | .error failure => failWith failure

def body (rules : Rules V) (parser : Parser V) (input : List (Token V)) : Step V :=
  match parser with
  | .leaf program => .client (program input) .done
  | .seq label parts => traced label input <| seqFrom input parts .nothing
  | .choice location mode options => traced "or" input <|
    match mode with
    | some mode => choose location options input mode
    | none => .askMode (choose location options input)
  | .repetition label min max item => traced label input <|
    repeatFrom label min max item input input.length 0 .nothing
  | .optional item => traced "optional" input <| .call item input fun
    | .ok m => succeed m
    | .error failure => if failure.isRecoverable then succeed .nothing else failWith failure
  | .transform location item convert => .call item input fun outcome =>
    onMatch outcome fun m => .client (convert m.produced) fun
      | .ok converted =>
        .checkReproduction item location converted <| succeed ⟨m.consumed, converted⟩
      | .error failure => failWith failure
  | .before test => traced "before" input <|
    let produced := input.takeWhile (!test ·)
    succeed ⟨produced.length, produced⟩
  | .empty none => succeed .nothing
  | .empty (some label) => traced label input <| succeed .nothing
  | .atEnd => traced "eos" input <|
    match input with
    | [] => succeed .nothing
    | token :: _ => failWith (.notMatch "end of stream" ("'" ++ token.raw ++ "'") token.pos)
  | .recover search body skipUntil => traced "recover" input <|
    .guarded "precondition-check" input (.parse search input) fun checked =>
      onMatch checked fun _ =>
        .guarded "process" input (.parse body input) fun
          | .ok m => succeed m
          | .error failure =>
            .logFailure failure (firstPos input) <|
              traced "healing" input <| resync skipUntil input 0
  | .lookahead item => traced "lookahead" input <| .call item input fun outcome =>
    onMatch outcome fun _ => succeed .nothing
  | .notFollowedBy item => traced "not-followed-by" input <| .call item input fun
    | .ok _ => failWith (.notMatch "not followed by" "matched" (firstPos input))
    | .error _ => succeed .nothing
  | .peek item => traced "peek" input <| .call item input fun outcome =>
    onMatch outcome fun m => succeed { m with consumed := 0 }
  | .labelled label item => .call item input fun
    | .ok m => succeed m
    | .error _ => failWith (.notMatch label "not matched" (firstPos input))
  | .expected message => failWith (.notMatch message "found something else" (firstPos input))
  | .fail message => failWith (.critical message (firstPos input))
  | .trace label item => traced label input <| .parse item input
  | .ref name rule => traced (name ++ "-alias") input <|
    match rules rule with
    | some body => .parse body input
    | none => failWith
        (.critical ("alias '" ++ name ++ "' used before its body was bound") (firstPos input))
  | .deferred rule => traced "lazy" input <|
    match rules rule with
    | some body => .parse body input
    | none => failWith (.critical "rule without a body" (firstPos input))

end TokenGrammar.Parser
