import TokenGrammar.Config.File
import TokenGrammar.Proofs.Decoding

/-!
# The forms of this library's records

What the arrays and the objects hold that options, positions, tokens and trace records are
decoded from, key by key, and that all of them are (`records_decode_leniently`).
-/

namespace TokenGrammar

open Json

namespace Config

def Listed : List Spaced → Config → Prop
  | [maxDepth, tracing, choiceMode, check], c =>
    Schema.natural.StandsFor maxDepth.core c.maxDepth ∧
    Schema.boolean.StandsFor tracing.core c.tracing ∧
    ChoiceMode.schema.StandsFor choiceMode.core c.choiceMode ∧
    Schema.boolean.StandsFor check.core c.checkTransforms
  | _, _ => False

def Given (members : List Member) (c : Config) : Prop :=
  Holds Schema.natural.StandsFor (some 1000) "max_depth" members c.maxDepth ∧
  Holds Schema.boolean.StandsFor (some false) "trace_enable" members c.tracing ∧
  Holds ChoiceMode.schema.StandsFor (some .safe) "or_mode" members c.choiceMode ∧
  Holds Schema.boolean.StandsFor (some false) "check_transform_safety" members c.checkTransforms

end Config

namespace Position

def Listed : List Spaced → Position → Prop
  | [line, col, index, length], pos =>
    Schema.natural.StandsFor line.core pos.line ∧ Schema.natural.StandsFor col.core pos.col ∧
    Schema.natural.StandsFor index.core pos.index ∧
    Schema.natural.StandsFor length.core pos.length
  | _, _ => False

def Given (members : List Member) (pos : Position) : Prop :=
  Holds Schema.natural.StandsFor none "line" members pos.line ∧
  Holds Schema.natural.StandsFor none "col" members pos.col ∧
  Holds Schema.natural.StandsFor none "index" members pos.index ∧
  Holds Schema.natural.StandsFor none "length" members pos.length

end Position

namespace Token

variable {V : Type}

def Listed (schema : Schema V) : List Spaced → Token V → Prop
  | [kind, pos, raw, val], t =>
    Schema.text.StandsFor kind.core t.kind ∧
    (Schema.optional Position.schema).StandsFor pos.core t.pos ∧
    Schema.text.StandsFor raw.core t.raw ∧ schema.StandsFor val.core t.val
  | _, _ => False

def Given (schema : Schema V) (members : List Member) (t : Token V) : Prop :=
  Holds Schema.text.StandsFor none "kind" members t.kind ∧
  Holds (Schema.optional Position.schema).StandsFor (some none) "pos" members t.pos ∧
  Holds Schema.text.StandsFor none "raw" members t.raw ∧
  Holds schema.StandsFor none "val" members t.val

theorem lenient (val : Schema V) (hval : val.wellFormed = true) :
    Lenient (schema val).ofText? ["kind", "pos", "raw", "val"] (schema val).fits (Listed val)
      (Given val) := by
  have hfields : (fields val).wellFormed = true := by
    simp only [fields, Fields.wellFormed, hval]
    rfl
  refine (Schema.via_lenient (fun _ => rfl) "struct Token" (fields val) hfields).congr ?_ ?_
  · intro items t
    rcases items with _ | ⟨kind, _ | ⟨pos, _ | ⟨raw, _ | ⟨v, _ | ⟨more, items⟩⟩⟩⟩⟩ <;>
      simp [Listed, fields, Fields.Listed]
  · intro members t
    simp [Given, fields, Fields.Given, Absent.required, Absent.nothing]

end Token

namespace TraceRecord

def Listed : List Spaced → TraceRecord → Prop
  | [kind, depth, name, pos, result], r =>
    TraceKind.schema.StandsFor kind.core r.kind ∧ Schema.natural.StandsFor depth.core r.depth ∧
    Schema.text.StandsFor name.core r.name ∧
    (Schema.optional Position.schema).StandsFor pos.core r.pos ∧
    Schema.text.StandsFor result.core r.result
  | _, _ => False

def Given (members : List Member) (r : TraceRecord) : Prop :=
  Holds TraceKind.schema.StandsFor none "trace_type" members r.kind ∧
  Holds Schema.natural.StandsFor none "depth" members r.depth ∧
  Holds Schema.text.StandsFor none "name" members r.name ∧
  Holds (Schema.optional Position.schema).StandsFor (some none) "pos" members r.pos ∧
  Holds Schema.text.StandsFor none "result" members r.result

theorem lenient :
    Lenient schema.ofText? ["trace_type", "depth", "name", "pos", "result"] schema.fits Listed
      Given := by
  refine (Schema.via_lenient (fun _ => rfl) "struct TraceInfo" fields rfl).congr ?_ ?_
  · intro items r
    rcases items with
      _ | ⟨kind, _ | ⟨depth, _ | ⟨name, _ | ⟨pos, _ | ⟨result, _ | ⟨more, items⟩⟩⟩⟩⟩⟩ <;>
      simp [Listed, fields, Fields.Listed]
  · intro members r
    simp [Given, fields, Fields.Given, Absent.required, Absent.nothing]

end TraceRecord

theorem Position.lenient :
    Lenient schema.ofText? ["line", "col", "index", "length"] schema.fits Listed Given := by
  refine (Schema.via_lenient (fun _ => rfl) "struct Position" fields rfl).congr ?_ ?_
  · intro items pos
    rcases items with _ | ⟨line, _ | ⟨col, _ | ⟨index, _ | ⟨length, _ | ⟨more, items⟩⟩⟩⟩⟩ <;>
      simp [Listed, fields, Fields.Listed]
  · intro members pos
    simp [Given, fields, Fields.Given, Absent.required]

theorem Config.lenient :
    Lenient ofText? ["max_depth", "trace_enable", "or_mode", "check_transform_safety"]
      schema.fits Listed Given := by
  refine ((Schema.via_lenient (fun _ => rfl) "struct ParseConfig" fields rfl).congr ?_
    ?_).mapError LoadError.unreadable
  · intro items c
    rcases items with _ | ⟨depth, _ | ⟨tracing, _ | ⟨mode, _ | ⟨check, _ | ⟨more, items⟩⟩⟩⟩⟩ <;>
      simp [Listed, fields, Fields.Listed]
  · intro members c
    simp [Given, fields, Fields.Given, Absent.default, initial]

/-- Options, positions, tokens of integers or of texts, and trace records are decoded from the
array of their fields and from every object that has them, with unknown keys and blanks anywhere
and with what may be left out left out. An object that repeats a known key is refused. -/
theorem records_decode_leniently :
    Lenient Config.ofText? ["max_depth", "trace_enable", "or_mode", "check_transform_safety"]
      Config.schema.fits Config.Listed Config.Given ∧
    Lenient Position.schema.ofText? ["line", "col", "index", "length"]
      Position.schema.fits Position.Listed Position.Given ∧
    Lenient (Token.schema .integer).ofText? ["kind", "pos", "raw", "val"]
      (Token.schema .integer).fits (Token.Listed .integer) (Token.Given .integer) ∧
    Lenient (Token.schema .text).ofText? ["kind", "pos", "raw", "val"]
      (Token.schema .text).fits (Token.Listed .text) (Token.Given .text) ∧
    Lenient TraceRecord.schema.ofText? ["trace_type", "depth", "name", "pos", "result"]
      TraceRecord.schema.fits TraceRecord.Listed TraceRecord.Given :=
  ⟨Config.lenient, Position.lenient, Token.lenient .integer rfl, Token.lenient .text rfl,
    TraceRecord.lenient⟩

def oneBlank : Blanks := ⟨[.char ' '], by decide⟩

theorem isNumber_scaled : IsNumber (Symbol.ofText "-0.5e+9") := by
  have hminus : [Symbol.char '-'] ∈ [[], [Symbol.char '-']] := by decide
  have hzero : IsWhole (Symbol.ofText "0") := ⟨⟨by decide, by decide⟩, by decide⟩
  have hhalf : IsFraction (Symbol.ofText ".5") := .present ⟨by decide, by decide⟩
  have hplus : [Symbol.char '+'] ∈ [[], [Symbol.char '+'], [Symbol.char '-']] := by decide
  have hnine : IsDigits (Symbol.ofText "9") := ⟨by decide, by decide⟩
  exact .mk hminus hzero hhalf (.present rfl hplus hnine)

/-- An unknown key whose value holds a known one, and half a character. -/
def nestedZoom : Member where
  key := .tight (Symbol.ofText (writeText "zoom"))
  value := .tight (arrayText .none
    [.tight (objectText .none
      [⟨.tight (Symbol.ofText (writeText "max_depth")), .tight (Symbol.ofText "-0.5e+9")⟩]),
    ⟨oneBlank, quoted (Symbol.ofText "\\ud800"), oneBlank⟩])
  name := "zoom"
  spelled := standsForText_writeText "zoom"
  valid := by
    have hhalf : IsCode [.char 'd', .char '8', .char '0', .char '0'] 0xd800 :=
      .mk (a := 13) (b := 8) (c := 0) (d := 0) rfl rfl rfl rfl
    obtain ⟨units, hkey, hunits⟩ := standsForText_writeText "max_depth"
    refine .array .none (List.forall_mem_cons.2 ⟨.object .none ?_ ?_, ?_⟩)
    · exact List.forall_mem_singleton.2 ⟨units, hunits.isUnits, hkey⟩
    · exact List.forall_mem_singleton.2 (.number isNumber_scaled)
    · exact List.forall_mem_singleton.2 (.string (.code hhalf .nil))

def escapedDepth : Member where
  key := ⟨.none, Symbol.ofText "\"\\u006dax_depth\"", oneBlank⟩
  value := ⟨oneBlank, Symbol.ofText "7", oneBlank⟩
  name := "max_depth"
  spelled := by
    have hm : IsCode [.char '0', .char '0', .char '6', .char 'd'] 0x6d :=
      .mk (a := 0) (b := 0) (c := 6) (d := 13) rfl rfl rfl rfl
    have hletters : Spells (Symbol.ofText "ax_depth") "ax_depth".toList :=
      .plain rfl <| .plain rfl <| .plain rfl <| .plain rfl <| .plain rfl <| .plain rfl <|
      .plain rfl <| .plain rfl .nil
    exact ⟨_, rfl, .code hm rfl rfl hletters⟩
  valid := valid_number [] (by decide) 7

theorem zoomed_options_decode :
    Config.ofText? (" \x7b\"zoom\":[\x7b\"max_depth\":-0.5e+9\x7d, \"\\ud800\" ]," ++
      "\"or_mode\":\"Fast\",\"\\u006dax_depth\" : 7 \x7d ") = .ok ⟨7, false, .fast, false⟩ ∧
    Position.schema.ofText? "[1,2 ,3,4]" = .ok ⟨1, 2, 3, 4⟩ ∧
    (Token.schema .integer).ofText? "\x7b\"val\":-5,\"raw\":\"\",\"kind\":\"n\"\x7d" =
      .ok ⟨"n", none, "", -5⟩ ∧
    (Token.schema .text).ofText? "[\"k\",null,\"r\",\"v\"]" = .ok ⟨"k", none, "r", "v"⟩ ∧
    ∃ problem, TraceRecord.schema.ofText? "\x7b\"depth\":1,\"depth\":\"x\"\x7d" =
      .error problem := by
  obtain ⟨hconfig, hposition, hinteger, htext, hrecord⟩ := records_decode_leniently
  refine ⟨?_, ?_, ?_, ?_, ?_⟩
  · have hgiven : Config.Given [nestedZoom,
        .written "or_mode" "\"Fast\"" (standsForText_writeText "Fast").valid, escapedDepth]
        ⟨7, false, .fast, false⟩ :=
      ⟨.inl ⟨escapedDepth, rfl, by decide, rfl⟩, .inr ⟨rfl, rfl⟩,
        .inl ⟨_, rfl, .inl (standsForText_writeText "Fast")⟩, .inr ⟨rfl, rfl⟩⟩
    exact hconfig.object .none _ _ hgiven ⟨⟨oneBlank, _, oneBlank⟩, rfl, by decide +kernel⟩
  · have hlisted : Position.Listed [.tight (Symbol.ofText "1"),
        ⟨.none, Symbol.ofText "2", oneBlank⟩, .tight (Symbol.ofText "3"),
        .tight (Symbol.ofText "4")] ⟨1, 2, 3, 4⟩ :=
      ⟨⟨by decide, rfl⟩, ⟨by decide, rfl⟩, ⟨by decide, rfl⟩, by decide, rfl⟩
    exact hposition.array .none _ _ hlisted ⟨.tight _, rfl, by decide +kernel⟩
  · have hval : Schema.integer.StandsFor (Symbol.ofText "-5") (-5) := by
      change Symbol.ofText "-5" = Symbol.ofText (toString (-5 : Int64).toInt)
      decide +kernel
    have hgiven : Token.Given .integer
        [.written "val" "-5" (valid_number [.char '-'] (by decide) 5),
          .written "raw" "\"\"" (standsForText_writeText "").valid,
          .written "kind" "\"n\"" (standsForText_writeText "n").valid] ⟨"n", none, "", -5⟩ :=
      ⟨.inl ⟨_, rfl, standsForText_writeText "n"⟩, .inr ⟨rfl, rfl⟩,
        .inl ⟨_, rfl, standsForText_writeText ""⟩, .inl ⟨_, rfl, hval⟩⟩
    exact hinteger.object .none _ _ hgiven ⟨.tight _, rfl, by decide +kernel⟩
  · have hlisted : Token.Listed .text [.tight (Symbol.ofText (writeText "k")),
        .tight (Symbol.ofText "null"), .tight (Symbol.ofText (writeText "r")),
        .tight (Symbol.ofText (writeText "v"))] ⟨"k", none, "r", "v"⟩ :=
      ⟨standsForText_writeText "k", rfl, standsForText_writeText "r", standsForText_writeText "v"⟩
    exact htext.array .none _ _ hlisted ⟨.tight _, rfl, by decide +kernel⟩
  · exact hrecord.repeated .none [.written "depth" "1" (valid_number [] (by decide) 1),
      .written "depth" "\"x\"" (standsForText_writeText "x").valid] "depth" (by decide)
      (Nat.le_refl 2) ⟨.tight _, rfl, by decide +kernel⟩

end TokenGrammar
