/-!
# Shapes of JSON texts

A schema tells which JSON texts stand for the values of a type. It is read and written
by one definition each, for all types. A record is an object, or an array of its fields
in order. A variant that carries nothing is its name; one with fields is an object with
the name as its only key.
-/

namespace TokenGrammar.Json

/-- What a field is where it is left out: of an object, and of an array that ends
early. Without a value the field is required. -/
structure Absent (α : Type) where
  inObject : Option α
  inArray : Option α

namespace Absent

def required {α : Type} : Absent α := ⟨none, none⟩

def nothing {α : Type} : Absent (Option α) := ⟨some none, none⟩

def default {α : Type} (a : α) : Absent α := ⟨some a, some a⟩

end Absent

mutual

inductive Schema : Type → Type 1
  | natural : Schema Nat
  | integer : Schema Int64
  | boolean : Schema Bool
  | text : Schema String
  | optional {α : Type} (inner : Schema α) : Schema (Option α)
  /-- `expected` is what a text of another type is told to be. -/
  | record {α : Type} (expected : String) (fields : Fields α) : Schema α
  | variants {α : Type} (cases : Cases α) : Schema α
  /-- The values of another type under a correspondence. -/
  | via {α β : Type} (forth : α → β) (back : β → α) (forth_back : ∀ b, forth (back b) = b)
      (inner : Schema α) : Schema β

inductive Fields : Type → Type 1
  | nil : Fields Unit
  | cons {α β : Type} (name : String) (absent : Absent α) (schema : Schema α)
      (rest : Fields β) : Fields (α × β)

inductive Cases : Type → Type 1
  | nil : Cases Empty
  | unit {β : Type} (name : String) (rest : Cases β) : Cases (Unit ⊕ β)
  | record {α β : Type} (name expected : String) (fields : Fields α) (rest : Cases β) :
      Cases (α ⊕ β)

end

namespace Fields

def length {α : Type} : Fields α → Nat
  | nil => 0
  | cons _ _ _ rest => rest.length + 1

/-- The fields of a record in the course of being read. -/
def Slots : {α : Type} → Fields α → Type
  | _, nil => Unit
  | _, cons (α := α) _ _ _ rest => Option α × rest.Slots

def emptySlots : {α : Type} → (fields : Fields α) → fields.Slots
  | _, nil => ()
  | _, cons _ _ _ rest => (none, rest.emptySlots)

end Fields

namespace Cases

def names {α : Type} : Cases α → List String
  | nil => []
  | unit name rest => name :: rest.names
  | record name _ _ rest => name :: rest.names

end Cases

end TokenGrammar.Json
