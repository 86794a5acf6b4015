import TokenGrammar.Leaf
import TokenGrammar.Proofs.Shape

/-!
# Rules by name and rules looked up late

A rule can be referred to by its name, which is bound to a body, or have its body looked up
when the parser runs. Each kind of reference goes through the depth guard once and parses
the body of the rule inside, so either can stand for the other, also where the guard refuses
(`Parser.parse_deferring`). Only the trace shows which it was.
-/

namespace TokenGrammar

def Likeness.deferring (late : String → Prop) : Likeness where
  level := true
  names name name' :=
    name = name' ∨ ∃ rule, late rule ∧ name = rule ++ "-alias" ∧ name' = "lazy"
  places := (· = ·)
  options := (· = ·)
  names_refl _ := .inl rfl
  places_refl _ := rfl
  maxDepth := congrArg Config.maxDepth
  unlimited := nofun
  tracing := congrArg Config.tracing
  checkTransforms := congrArg Config.checkTransforms
  checked := by rintro c _ rfl -; exact ⟨rfl, rfl⟩

variable {V : Type}

namespace Parser

/-- Whether the right parser is the left one with some references to bound rules looked up
when they run, all of them by names that are `late`. -/
inductive Deferring (rules : Rules V) (late : String → Prop) : Parser V → Parser V → Prop
  | reference (hname : late name) (hbound : (rules rule).isSome) :
    Deferring rules late (.ref name rule) (.deferred rule)
  | other (h : SameShape (.deferring late) (Deferring rules late) p p') :
    Deferring rules late p p'

theorem Deferring.body {rules rules' : Rules V} {p p' : Parser V}
    (h : Deferring rules late p p')
    (hrules : ∀ rule, Option.Rel (Deferring rules late) (rules rule) (rules' rule))
    (input : List (Token V)) : (p.body rules input).Parallel (.deferring late)
      (Deferring rules late) (p'.body rules' input) := by
  cases h with
  | @reference name rule hname hbound =>
    refine traced_parallel (.inr ⟨name, hname, rfl, rfl⟩) ?_
    have hrule := hrules rule
    obtain ⟨body, hbody⟩ := Option.isSome_iff_exists.1 hbound
    generalize rules' rule = body' at hrule ⊢
    rw [hbody] at hrule ⊢
    cases hrule with
    | some hbodies => exact .call hbodies fun _ => .done
  | other h => exact h.body hrules (fun _ c c' hc => congrArg Config.choiceMode hc) input

variable [TokenValue V] {rules rules' : Rules V}

/-- With references to bound rules looked up when they run, anywhere in the rules and in the
parser, a parse ends as before, in the same context but for the names in the trace of those
references. -/
theorem parse_deferring
    (hrules : ∀ rule, Option.Rel (Deferring rules late) (rules rule) (rules' rule))
    {p p' : Parser V} (hp : Deferring rules late p p') (ctx : Context V)
    (input : List (Token V)) :
    EndsAlike
      (fun c c' => c' = { c with traces := c'.traces } ∧
        List.Forall₂ (fun r r' => r = r' ∨ ∃ rule, late rule ∧ r.name = rule ++ "-alias" ∧
          r' = { r with name := "lazy" }) c.traces.toList c'.traces.toList)
      rules p ctx rules' p' ctx input := by
  have hctx : ctx.Resembles (.deferring late) ctx := .of_options rfl
  have hends := endsAlike_of_parallel (fun p p' hp => Deferring.body hp hrules) hp hctx input
  refine hends.mono fun c c' h =>
    ⟨h.eq_withTraces rfl h.config.symm (h.depth rfl), (h.traces rfl).imp ?_⟩
  rintro r _ ⟨name, rfl | ⟨rule, hrule, hname, rfl⟩, rfl⟩
  · exact .inl rfl
  · exact .inr ⟨rule, hrule, hname, rfl⟩

end Parser

def brackets (rule : Parser Int64) : Parser Int64 :=
  .seq "brackets" [Leaf.punctuation "(", .optional rule, Leaf.punctuation ")"]

/-- Under a limit of five the guard refuses inside the second brackets, whichever way the
rule is referred to there. -/
theorem brackets_parse_deferring : ∃ n o ctx ctx',
    Parser.run (fun _ => some (brackets (.ref "brackets" 0))) n (.ref "brackets" 0)
      (Token.ofTexts ["(", "(", ")", ")"]) (.ofConfig ⟨5, true, .safe, false⟩) = some (o, ctx) ∧
    Parser.run (fun _ => some (brackets (.deferred 0))) n (.ref "brackets" 0)
      (Token.ofTexts ["(", "(", ")", ")"]) (.ofConfig ⟨5, true, .safe, false⟩) =
        some (o, ctx') ∧
    o = .error (.stackOverflow 5 5 (some (.atIndex 2))) ∧
    (ctx.traces.toList.map (·.name)).take 4 =
      ["brackets-alias", "brackets", "optional", "brackets-alias"] ∧
    (ctx'.traces.toList.map (·.name)).take 4 =
      ["brackets-alias", "brackets", "optional", "lazy"] ∧
    ctx' = { ctx with traces := ctx'.traces } := by
  have hleaf : ∀ text, Parser.Deferring (fun _ => some (brackets (.ref "brackets" 0)))
      (· = "brackets") (Leaf.punctuation text) (Leaf.punctuation text) :=
    fun text => .other (.leaf fun _ => .done)
  have hbody : Parser.Deferring (fun _ => some (brackets (.ref "brackets" 0))) (· = "brackets")
      (brackets (.ref "brackets" 0)) (brackets (.deferred 0)) :=
    .other <| .seq <| .cons (hleaf "(") <|
      .cons (.other (.optional (.reference rfl rfl))) <| .cons (hleaf ")") .nil
  have hends := Parser.parse_deferring (fun _ => .some hbody)
    (.other .ref : Parser.Deferring _ _ (.ref "brackets" 0) (.ref "brackets" 0))
    (.ofConfig ⟨5, true, .safe, false⟩) (Token.ofTexts ["(", "(", ")", ")"])
  have hnames : ∀ rule names, (Parser.run (fun _ => some (brackets rule)) 12
      (.ref "brackets" 0) (Token.ofTexts ["(", "(", ")", ")"])
      (.ofConfig ⟨5, true, .safe, false⟩)).map (fun (o, ctx) =>
        (Event.failure? o, (ctx.traces.toList.map (·.name)).take 4)) =
          some (some (.stackOverflow 5 5 (some (.atIndex 2))), names) →
      ∃ ctx, Parser.run (fun _ => some (brackets rule)) 12 (.ref "brackets" 0)
          (Token.ofTexts ["(", "(", ")", ")"]) (.ofConfig ⟨5, true, .safe, false⟩) =
            some (.error (.stackOverflow 5 5 (some (.atIndex 2))), ctx) ∧
        (ctx.traces.toList.map (·.name)).take 4 = names := by
    intro rule names h
    obtain ⟨⟨o, ctx⟩, hrun, heq⟩ := Option.map_eq_some_iff.1 h
    obtain ⟨ho, hnames⟩ := Prod.mk.inj heq
    rw [Event.failure?_eq_some] at ho
    exact ⟨ctx, ho ▸ hrun, hnames⟩
  obtain ⟨ctx, hrun, hctx⟩ := hnames (.ref "brackets" 0)
    ["brackets-alias", "brackets", "optional", "brackets-alias"] (by decide +kernel)
  obtain ⟨ctx', hrun', hctx'⟩ := hnames (.deferred 0)
    ["brackets-alias", "brackets", "optional", "lazy"] (by decide +kernel)
  obtain ⟨-, hsame, -⟩ := hends.2 _ _ _ _ _ _ hrun hrun'
  exact ⟨12, _, ctx, ctx', hrun, hrun', rfl, hctx, hctx', hsame⟩

end TokenGrammar
