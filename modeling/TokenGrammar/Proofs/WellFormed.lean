import TokenGrammar.Json.Schema

/-!
# Well-formed schemas

A schema is well formed if no two fields of a record and no two cases share a name, and no value
but the absent one is written as `null`. A value fits if its natural numbers fit 64 bits.
-/

namespace TokenGrammar.Json

def Schema.nullable : {α : Type} → Schema α → Bool
  | _, .optional _ => true
  | _, .via _ _ _ inner => inner.nullable
  | _, _ => false

def Fields.names : {α : Type} → Fields α → List String
  | _, .nil => []
  | _, .cons name _ _ rest => name :: rest.names

mutual

def Schema.wellFormed : {α : Type} → Schema α → Bool
  | _, .natural | _, .integer | _, .boolean | _, .text => true
  | _, .optional inner => !inner.nullable && inner.wellFormed
  | _, .record _ fields => fields.wellFormed
  | _, .variants cases => cases.wellFormed
  | _, .via _ _ _ inner => inner.wellFormed

def Fields.wellFormed : {α : Type} → Fields α → Bool
  | _, .nil => true
  | _, .cons name _ schema rest =>
    !rest.names.contains name && schema.wellFormed && rest.wellFormed

def Cases.wellFormed : {α : Type} → Cases α → Bool
  | _, .nil => true
  | _, .unit name rest => !rest.names.contains name && rest.wellFormed
  | _, .record name _ fields rest =>
    !rest.names.contains name && fields.wellFormed && rest.wellFormed

end

mutual

/-- Whether every natural number in a value fits 64 bits. -/
def Schema.fits : {α : Type} → Schema α → α → Bool
  | _, .natural, n => n < UInt64.size
  | _, .integer, _ | _, .boolean, _ | _, .text, _ => true
  | _, .optional _, none => true
  | _, .optional inner, some a => inner.fits a
  | _, .record _ fields, a => fields.fits a
  | _, .variants cases, a => cases.fits a
  | _, .via _ back _ inner, b => inner.fits (back b)

def Fields.fits : {α : Type} → Fields α → α → Bool
  | _, .nil, () => true
  | _, .cons _ _ schema rest, (a, b) => schema.fits a && rest.fits b

def Cases.fits : {α : Type} → Cases α → α → Bool
  | _, .unit _ _, .inl () => true
  | _, .unit _ rest, .inr b => rest.fits b
  | _, .record _ _ fields _, .inl a => fields.fits a
  | _, .record _ _ _ rest, .inr b => rest.fits b

end

end TokenGrammar.Json
