import TokenGrammar.Config.File
import TokenGrammar.Proofs.WrittenForms
import TokenGrammar.Schemas

/-!
# What is written is read back

A value whose natural numbers fit 64 bits is read back from the text it is written as, if
its schema is well formed (`Schema.roundTrips`): no two fields of a record and no two cases
share a name, and no value but the absent one is written as `null`.
-/

namespace TokenGrammar.Json

def Schema.RoundTrips (schema : Schema α) (a : α) : Prop :=
  schema.ofText? (schema.write a) = .ok a

theorem Schema.roundTrips (schema : Schema α) (hschema : schema.wellFormed = true) (a : α)
    (hfits : schema.fits a) : schema.RoundTrips a :=
  schema.decodes hschema (schema.standsFor_write hschema a hfits)
    ⟨.tight _, rfl, (Spaced.text_tight _).symm⟩

end TokenGrammar.Json

namespace TokenGrammar

open Json

theorem TraceKind.schema_fits (kind : TraceKind) : schema.fits kind = true := by
  cases kind <;> rfl

theorem ChoiceMode.schema_fits (mode : ChoiceMode) : schema.fits mode = true := by
  cases mode <;> rfl

/-- Every value of this library's types whose natural numbers fit 64 bits is read back from
the text it is written as. -/
theorem types_round_trip :
    (∀ pos, Position.schema.fits pos → Position.schema.RoundTrips pos) ∧
    (∀ t, (Token.schema .integer).fits t → (Token.schema .integer).RoundTrips t) ∧
    (∀ t, (Token.schema .text).fits t → (Token.schema .text).RoundTrips t) ∧
    (∀ r, TraceRecord.schema.fits r → TraceRecord.schema.RoundTrips r) ∧
    (∀ kind, TraceKind.schema.RoundTrips kind) ∧
    (∀ d, Diagnostic.schema.fits d → Diagnostic.schema.RoundTrips d) ∧
    (∀ mode, ChoiceMode.schema.RoundTrips mode) ∧
    ∀ c, Config.schema.fits c → Config.ofText? (Config.schema.write c) = .ok c := by
  refine ⟨Position.schema.roundTrips rfl, (Token.schema .integer).roundTrips rfl,
    (Token.schema .text).roundTrips rfl, TraceRecord.schema.roundTrips rfl, fun kind => ?_,
    Diagnostic.schema.roundTrips rfl, fun mode => ?_, fun c hfits => ?_⟩
  · exact TraceKind.schema.roundTrips rfl kind kind.schema_fits
  · exact ChoiceMode.schema.roundTrips rfl mode mode.schema_fits
  · have hconfig : Config.schema.ofText? (Config.schema.write c) = .ok c :=
      Config.schema.roundTrips rfl c hfits
    rw [Config.ofText?, hconfig]
    rfl

def lastPos : Position := ⟨0, 1, 18446744073709551615, 18446744073709551615⟩

def awkward : String := "\"\\/\n\r\t\x00\x08\x0c\x1f\x7fé"

theorem extremes_round_trip :
    (Token.schema .integer).write ⟨awkward, some lastPos, "", Int64.minValue⟩ =
      "\x7b\"kind\":\"\\\"\\\\/\\n\\r\\t\\u0000\\b\\f\\u001f\x7fé\",\"pos\":" ++
        Position.schema.write lastPos ++ ",\"raw\":\"\",\"val\":-9223372036854775808\x7d" ∧
    Position.schema.write lastPos = "\x7b\"line\":0,\"col\":1," ++
      "\"index\":18446744073709551615,\"length\":18446744073709551615\x7d" ∧
    Position.schema.RoundTrips lastPos ∧
    (Token.schema .integer).RoundTrips ⟨awkward, some lastPos, "", Int64.minValue⟩ ∧
    (Token.schema .text).RoundTrips ⟨"", none, awkward, awkward⟩ ∧
    TraceRecord.schema.RoundTrips ⟨.enterNotMatched, 18446744073709551615, awkward, none, ""⟩ ∧
    Diagnostic.schema.RoundTrips (.reorder awkward (some lastPos) 1 0 2 18446744073709551615) ∧
    Config.ofText? (Config.schema.write ⟨18446744073709551615, true, .tryFast, true⟩) =
      .ok ⟨18446744073709551615, true, .tryFast, true⟩ := by
  obtain ⟨hpos, hinteger, htext, hrecord, -, hdiagnostic, -, hconfig⟩ := types_round_trip
  refine ⟨by decide +kernel, by decide +kernel, ?_, ?_, ?_, ?_, ?_, ?_⟩
  · exact hpos _ (by decide)
  · exact hinteger _ (by decide)
  · exact htext _ (by decide)
  · exact hrecord _ (by decide)
  · exact hdiagnostic _ (by decide)
  · exact hconfig _ (by decide)

end TokenGrammar
