import TokenGrammar.Json.Schema
import TokenGrammar.Json.Skip

/-!
# Reading JSON

`Schema.read` takes a value of a schema from the front of a text. The first thing that
is not as it should be ends the reading and tells why. A record given as an object may
have its keys in any order, and other keys besides.
-/

namespace TokenGrammar.Json

/-! ## Values of another type -/

def readFound : Reader Found := fun input =>
  match input with
  | .char 'n' :: rest => do return (.null, ← readWord "ull".toList rest)
  | .char 't' :: rest => do return (.boolean true, ← readWord "rue".toList rest)
  | .char 'f' :: rest => do return (.boolean false, ← readWord "alse".toList rest)
  | .char '"' :: rest => do
    let (s, rest) ← readString rest
    return (.text s, rest)
  | .char '[' :: rest => .ok (.sequence, rest)
  | .char '{' :: rest => .ok (.map, rest)
  | s :: _ =>
    if Number.starts s then do
      match ← Number.read input with
      | (.integer n, rest) => return (.integer n, rest)
      | (.float x, rest) => return (.float (Number.floatLayout.renderFloat x), rest)
    else .error .malformed
  | [] => .error .endsEarly

def refuse {α : Type} (expected : String) (input : List Symbol) : Except Problem α := do
  let (found, _) ← readFound input
  throw (.mismatch (.wrongType found expected))

/-! ## Single values -/

def readInteger {α : Type} (expected : String) (accept : Int → Option α) : Reader α :=
  fun input =>
    match skipBlanks input with
    | [] => .error .endsEarly
    | s :: rest =>
      if Number.starts s then do
        match ← Number.read (s :: rest) with
        | (.integer n, rest) =>
          match accept n with
          | some a => return (a, rest)
          | none => throw (.mismatch (.outOfRange n expected))
        | (.float _, _) => refuse expected (s :: rest)
      else refuse expected (s :: rest)

def readNatural : Reader Nat := readInteger "usize" Int.toNat?

def readInt64 : Reader Int64 := readInteger "i64" Text.int64?

def readBoolean : Reader Bool := fun input =>
  match skipBlanks input with
  | [] => .error .endsEarly
  | .char 't' :: rest => do return (true, ← readWord "rue".toList rest)
  | .char 'f' :: rest => do return (false, ← readWord "alse".toList rest)
  | rest => refuse "a boolean" rest

def readText : Reader String := fun input =>
  match skipBlanks input with
  | [] => .error .endsEarly
  | .char '"' :: rest => readString rest
  | rest => refuse "a string" rest

def readNull (expected : String) : Skipper := fun input =>
  match skipBlanks input with
  | [] => .error .endsEarly
  | .char 'n' :: rest => readWord "ull".toList rest
  | rest => refuse expected rest

/-! ## The frame of records -/

/-- Whether an array goes on with another element, and the rest at that element. The
first has no comma before it. -/
def readNextItem (first : Bool) : Reader Bool := fun input =>
  match skipBlanks input with
  | [] => .error .endsEarly
  | .char ']' :: rest => .ok (false, .char ']' :: rest)
  | .char ',' :: rest =>
    if first then .ok (true, .char ',' :: rest)
    else
      match skipBlanks rest with
      | [] => .error .endsEarly
      | .char ']' :: _ => .error .malformed
      | rest => .ok (true, rest)
  | rest => if first then .ok (true, rest) else .error .malformed

/-- The next key of an object, or nothing at its end. The first has no comma before
it. -/
def readNextKey (first : Bool) : Reader (Option String) := fun input => do
  let key (rest : List Symbol) : Except Problem (Option String × List Symbol) := do
    let (name, rest) ← readString (← readKeyMark rest)
    return (some name, rest)
  match skipBlanks input with
  | [] => throw .endsEarly
  | .char '}' :: rest => return (none, .char '}' :: rest)
  | .char ',' :: rest => if first then throw .malformed else key rest
  | rest => if first then key rest else throw .malformed

/-- The entries of an object up to its end, each taken in by `entry`. An entry takes
at least one symbol, so `budget` symbols hold at most `budget` entries. -/
def readEntries {σ : Type} (entry : String → σ → Reader σ) :
    (budget : Nat) → (first : Bool) → σ → Reader σ
  | 0, _, _, _ => .error .malformed
  | budget + 1, first, slots, input => do
    match ← readNextKey first input with
    | (none, rest) => return (slots, rest)
    | (some name, rest) =>
      let (slots, rest) ← entry name slots rest
      readEntries entry budget false slots rest

/-- A record as an array or as an object, whose parts are read by `items` and
`entries`. -/
def readFrame {α : Type} (expected : String) (items entries : Reader α) : Reader α :=
  fun input =>
    match skipBlanks input with
    | [] => .error .endsEarly
    | .char '[' :: rest => do
      let (a, rest) ← items rest
      return (a, ← readMark ']' rest)
    | .char '{' :: rest => do
      let (a, rest) ← entries rest
      return (a, ← readMark '}' rest)
    | rest => refuse expected rest

def lengthExpected (expected : String) (length : Nat) : String :=
  expected ++ " with " ++ toString length ++ (if length = 1 then " element" else " elements")

/-- The record that the slots of an object make up. The first required field that is
left out is the one that is missing. -/
def Fields.finish : {α : Type} → (fields : Fields α) → fields.Slots → Except Problem α
  | _, .nil, () => .ok ()
  | _, .cons name absent _ rest, slots => do
    match slots.1 <|> absent.inObject with
    | some a => return (a, ← rest.finish slots.2)
    | none => throw (.mismatch (.missingField name))

def Cases.ofName? (known : List String) (name : String) :
    {α : Type} → (cases : Cases α) → Except Problem α
  | _, .nil => .error (.mismatch (.unknownVariant name known))
  | _, .unit n rest => if n = name then .ok (.inl ()) else .inr <$> rest.ofName? known name
  | _, .record n _ _ rest =>
    if n = name then .error (.mismatch (.wrongType .unitVariant "struct variant"))
    else .inr <$> rest.ofName? known name

/-! ## All schemas -/

mutual

def Schema.read : {α : Type} → Schema α → Reader α
  | _, .natural => readNatural
  | _, .integer => readInt64
  | _, .boolean => readBoolean
  | _, .text => readText
  | _, .optional inner => fun input =>
    match skipBlanks input with
    | .char 'n' :: rest => do return (none, ← readWord "ull".toList rest)
    | rest => do
      let (a, rest) ← inner.read rest
      return (some a, rest)
  | _, .record expected fields =>
    readFrame expected (fields.readItems expected fields.length 0) fun input => do
      let (slots, rest) ←
        readEntries fields.readEntry (input.length + 1) true fields.emptySlots input
      return (← fields.finish slots, rest)
  | _, .variants cases => fun input =>
    match skipBlanks input with
    | [] => .error .endsEarly
    | .char '"' :: rest => do
      let (name, rest) ← readString rest
      return (← cases.ofName? cases.names name, rest)
    | .char '{' :: rest => do
      let (name, rest) ← readString (← readKeyMark rest)
      let (a, rest) ← cases.readContent cases.names name rest
      return (a, ← readMark '}' rest)
    | _ :: _ => .error .malformed
  | _, .via forth _ _ inner => fun input => do
    let (a, rest) ← inner.read input
    return (forth a, rest)

/-- The fields of an array in order, where `before` of all `length` fields are read. -/
def Fields.readItems : {α : Type} → Fields α → (expected : String) → (length before : Nat) →
    Reader α
  | _, .nil, _, _, _ => fun input => .ok ((), input)
  | _, .cons _ absent schema rest, expected, length, before => fun input => do
    match ← readNextItem (before == 0) input with
    | (true, input) =>
      let (a, input) ← schema.read input
      let (b, input) ← rest.readItems expected length (before + 1) input
      return ((a, b), input)
    | (false, input) =>
      match absent.inArray with
      | some a =>
        let (b, input) ← rest.readItems expected length (before + 1) input
        return ((a, b), input)
      | none => throw (.mismatch (.tooShort before (lengthExpected expected length)))

/-- The value of an object's entry, put into the slot of its name. A name that is no
field's is passed over with its value. -/
def Fields.readEntry : {α : Type} → (fields : Fields α) → (name : String) → fields.Slots →
    Reader fields.Slots
  | _, .nil, _, () => fun input => do
    let rest ← skipValue (← readMark ':' input)
    return ((), rest)
  | _, .cons field _ schema rest, name, slots => fun input => do
    if field = name then
      if slots.1.isSome then throw (.mismatch (.duplicateField field))
      else
        let (a, input) ← schema.read (← readMark ':' input)
        return ((some a, slots.2), input)
    else
      let (others, input) ← rest.readEntry name slots.2 input
      return ((slots.1, others), input)

def Cases.readContent : {α : Type} → Cases α → (known : List String) → (name : String) →
    Reader α
  | _, .nil, known, name => fun _ => .error (.mismatch (.unknownVariant name known))
  | _, .unit n rest, known, name => fun input =>
    if n = name then do
      let input ← readNull "unit" (← readMark ':' input)
      return (.inl (), input)
    else do
      let (a, input) ← rest.readContent known name input
      return (.inr a, input)
  | _, .record n expected fields rest, known, name => fun input =>
    if n = name then do
      let input ← readMark ':' input
      let entries : Reader _ := fun input => do
        let (slots, rest) ←
          readEntries fields.readEntry (input.length + 1) true fields.emptySlots input
        return (← fields.finish slots, rest)
      let (a, input) ← readFrame expected (fields.readItems expected fields.length 0) entries input
      return (.inl a, input)
    else do
      let (a, input) ← rest.readContent known name input
      return (.inr a, input)

end

def Schema.decode {α : Type} (schema : Schema α) (input : List Symbol) : Except Problem α := do
  let (a, rest) ← schema.read input
  if (skipBlanks rest).isEmpty then return a else throw .malformed

def Schema.ofText? {α : Type} (schema : Schema α) (text : String) : Except Problem α :=
  schema.decode (Symbol.ofText text)

end TokenGrammar.Json
