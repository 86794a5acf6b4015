import TokenGrammar.Json.Number

/-!
# Values that are passed over

Any JSON value may stand under a key that is not known. It has to be well formed, but
its numbers may be of any size and its strings need not be text.
-/

namespace TokenGrammar.Json

def readKeyMark : Skipper := fun input =>
  match skipBlanks input with
  | [] => .error .endsEarly
  | .char '"' :: rest => .ok rest
  | _ :: _ => .error .malformed

mutual

def skipValueUpTo : (budget : Nat) → Skipper
  | 0, _ => .error .malformed
  | budget + 1, input =>
    match skipBlanks input with
    | [] => .error .endsEarly
    | .char 'n' :: rest => readWord "ull".toList rest
    | .char 't' :: rest => readWord "rue".toList rest
    | .char 'f' :: rest => readWord "alse".toList rest
    | .char '"' :: rest => skipString rest
    | .char '[' :: rest =>
      match skipBlanks rest with
      | [] => .error .endsEarly
      | .char ']' :: rest => .ok rest
      | rest => do skipItemsUpTo budget (← skipValueUpTo budget rest)
    | .char '{' :: rest =>
      match skipBlanks rest with
      | [] => .error .endsEarly
      | .char '}' :: rest => .ok rest
      | rest => do skipEntriesUpTo budget (← skipEntryUpTo budget rest)
    | s :: rest => if Number.starts s then Number.skip (s :: rest) else .error .malformed

def skipItemsUpTo : (budget : Nat) → Skipper
  | 0, _ => .error .malformed
  | budget + 1, input =>
    match skipBlanks input with
    | [] => .error .endsEarly
    | .char ']' :: rest => .ok rest
    | .char ',' :: rest => do skipItemsUpTo budget (← skipValueUpTo budget rest)
    | _ :: _ => .error .malformed

def skipEntryUpTo : (budget : Nat) → Skipper
  | 0, _ => .error .malformed
  | budget + 1, input => do
    let rest ← skipString (← readKeyMark input)
    skipValueUpTo budget (← readMark ':' rest)

def skipEntriesUpTo : (budget : Nat) → Skipper
  | 0, _ => .error .malformed
  | budget + 1, input =>
    match skipBlanks input with
    | [] => .error .endsEarly
    | .char '}' :: rest => .ok rest
    | .char ',' :: rest => do skipEntriesUpTo budget (← skipEntryUpTo budget rest)
    | _ :: _ => .error .malformed

end

/-- Passes over a value. Of two nested steps at least one takes a symbol. -/
def skipValue : Skipper := fun input => skipValueUpTo (2 * input.length + 2) input

end TokenGrammar.Json
