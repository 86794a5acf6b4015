import TokenGrammar.Action

/-!
# Parsers

A parser is a tree of combinators over leaves. A leaf, and the conversion of what a
parser produced, is an action of the grammar's author. Rules are referred to by
number, so that a tree is finite while the grammar may be recursive.
-/

namespace TokenGrammar

abbrev RuleId := Nat

inductive Parser (V : Type) : Type 1
  /-- An action of the grammar's author. -/
  | leaf (program : List (Token V) → Action (Parser V) V (Outcome V))
  /-- One part after another, each on what the parts before it left. -/
  | seq (label : String) (parts : List (Parser V))
  /-- One of several options; `location` tells where the grammar writes it. -/
  | choice (location : String) (mode : Option ChoiceMode) (options : List (Parser V))
  /-- The same parser from `min` to `max` times. -/
  | repetition (label : String) (min : Nat) (max : Option Nat) (item : Parser V)
  | optional (item : Parser V)
  /-- Replaces what `item` produced; `location` tells where the grammar writes it. -/
  | transform (location : String) (item : Parser V)
      (convert : List (Token V) → Action (Parser V) V (Except Failure (List (Token V))))
  /-- Every token up to the first that satisfies a test. -/
  | before (test : Token V → Bool)
  /-- Matches nothing; traced only under a label. -/
  | empty (label : Option String)
  | atEnd
  /-- Where `search` matches, tries `body`; if that fails, logs why and goes past the
  next match of `skipUntil`. -/
  | recover (search body skipUntil : Parser V)
  /-- Succeeds where `item` does, and matches nothing. -/
  | lookahead (item : Parser V)
  /-- Succeeds where `item` fails, and matches nothing. -/
  | notFollowedBy (item : Parser V)
  /-- What `item` produces, without consuming it. -/
  | peek (item : Parser V)
  /-- Reports any failure of `item` as a mismatch of `label`. -/
  | labelled (label : String) (item : Parser V)
  | expected (message : String)
  | fail (message : String)
  /-- Guards and traces a parser under a label of its own. -/
  | trace (label : String) (item : Parser V)
  /-- A rule by its name, which may have no body yet. -/
  | ref (name : String) (rule : RuleId)
  /-- A rule whose body is only looked up when the parser runs. -/
  | deferred (rule : RuleId)

abbrev Rules (V : Type) := RuleId → Option (Parser V)

namespace Parser

variable {V : Type}

def oneOf (location : String) (options : List (Parser V)) : Parser V :=
  .choice location none options

def longestOf (location : String) (options : List (Parser V)) : Parser V :=
  .choice location (some .safe) options

def firstOf (location : String) (options : List (Parser V)) : Parser V :=
  .choice location (some .fast) options

def checkedFirstOf (location : String) (options : List (Parser V)) : Parser V :=
  .choice location (some .tryFast) options

def zeroOrMore (label : String) (item : Parser V) : Parser V := .repetition label 0 none item

def oneOrMore (label : String) (item : Parser V) : Parser V := .repetition label 1 none item

def ruleBody (name : String) (body : Parser V) : Parser V := .trace (name ++ "-instance") body

end Parser

end TokenGrammar
