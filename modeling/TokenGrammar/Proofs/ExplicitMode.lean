import TokenGrammar.Leaf
import TokenGrammar.Proofs.Shape

/-!
# The mode of choice written out

A choice that has no mode of its own follows the mode of the context. Where that mode is
written into every such choice instead, a parse is the same under whichever mode the context
has (`Parser.parse_explicit`): nothing else in a parse asks for it, as long as
conversions are not checked.
-/

namespace TokenGrammar

def Likeness.choosing (mode : ChoiceMode) : Likeness where
  level := true
  names := (· = ·)
  places _ _ := True
  options c c' := c.choiceMode = mode ∧ c.checkTransforms = false ∧
    ∃ other, c' = { c with choiceMode := other }
  names_refl _ := rfl
  places_refl _ := trivial
  maxDepth := by rintro c _ ⟨-, -, _, rfl⟩; rfl
  unlimited := nofun
  tracing := by rintro c _ ⟨-, -, _, rfl⟩; rfl
  checkTransforms := by rintro c _ ⟨-, -, _, rfl⟩; rfl
  checked := by
    rintro c _ ⟨-, hunchecked, -⟩ hchecked
    rw [hunchecked] at hchecked
    contradiction

variable {V : Type}

namespace Parser

/-- Whether the right parser is the left one with `mode` written into every choice that has
none, wherever it then stands. Code of their author may neither go by the mode of the
context nor change it, and does not have conversions checked. -/
inductive Explicit (mode : ChoiceMode) : Parser V → Parser V → Prop
  | choice (h : List.Forall₂ (Explicit mode) options options') :
    Explicit mode (.choice location none options) (.choice location' (some mode) options')
  | other (hmode : p.asksMode = false) (h : SameShape (.choosing mode) (Explicit mode) p p') :
    Explicit mode p p'

theorem Explicit.body {rules rules' : Rules V} {p p' : Parser V} (h : Explicit mode p p')
    (hrules : ∀ rule, Option.Rel (Explicit mode) (rules rule) (rules' rule))
    (input : List (Token V)) :
    (p.body rules input).Parallel (.choosing mode) (Explicit mode) (p'.body rules' input) := by
  cases h with
  | choice h =>
    refine traced_parallel rfl (.asks fun c c' hc => ?_)
    rw [hc.1]
    exact choose_parallel trivial h input mode
  | other hmode h =>
    have hasks : p.asksMode = true → ∀ c c' : Config,
        (Likeness.choosing mode).options c c' → c.choiceMode = c'.choiceMode := by
      rw [hmode]
      exact nofun
    exact h.body hrules hasks input

variable [TokenValue V] {rules rules' : Rules V}

/-- With its mode written into every choice that has none, a grammar parses as it does where
the context has that mode, under whichever mode: both parses end or neither does, with one
outcome, one trace and one log of failures, and with the same findings but for the places of
choices. -/
theorem parse_explicit (hrules : ∀ rule, Option.Rel (Explicit mode) (rules rule) (rules' rule))
    {p p' : Parser V} (hp : Explicit mode p p') {ctx : Context V}
    (hmode : ctx.config.choiceMode = mode) (hunchecked : ctx.config.checkTransforms = false)
    (other : ChoiceMode) (input : List (Token V)) :
    EndsAlike
      (fun c c' => c'.traces = c.traces ∧ c'.failures = c.failures ∧
        List.Forall₂ (Diagnostic.Resembles fun _ _ => True) c.diagnostics.toList
          c'.diagnostics.toList ∧
        c'.partials = c.partials ∧ c'.depth = c.depth)
      rules p ctx rules' p' (ctx.configure ({ · with choiceMode := other })) input := by
  have hctx : ctx.Resembles (.choosing mode) (ctx.configure ({ · with choiceMode := other })) :=
    .of_options ⟨hmode, hunchecked, other, rfl⟩
  have hends := endsAlike_of_parallel (fun p p' hp => Explicit.body hp hrules) hp hctx input
  exact hends.mono fun c c' h =>
    ⟨h.traces_eq rfl rfl, h.failures, h.diagnostics, h.partials, h.depth rfl⟩

end Parser

def oneOrAll (choice : List (Parser Int64) → Parser Int64) : Parser Int64 :=
  choice [Leaf.any, .seq "all" [Leaf.any, .ref "one or all" 0]]

/-- Asked for or written out, `tryFast` takes one token, and reports at two levels of the
rule that more could be had. -/
theorem oneOrAll_parse_explicit : ∃ o ctx ctx' n n',
    Parser.run (fun _ => some (oneOrAll (.oneOf "here"))) n (.ref "one or all" 0)
      (Token.ofTexts ["a", "b", "c"]) (.ofConfig ⟨0, true, .tryFast, false⟩) = some (o, ctx) ∧
    Parser.run (fun _ => some (oneOrAll (.checkedFirstOf "there"))) n' (.ref "one or all" 0)
      (Token.ofTexts ["a", "b", "c"]) (.ofConfig ⟨0, true, .safe, false⟩) = some (o, ctx') ∧
    ctx.diagnostics.size = 2 ∧ ctx'.traces = ctx.traces ∧
    List.Forall₂ (Diagnostic.Resembles fun _ _ => True) ctx.diagnostics.toList
      ctx'.diagnostics.toList := by
  have hany : Parser.Explicit .tryFast (Leaf.any : Parser Int64) Leaf.any :=
    .other rfl (.leaf fun _ => Parser.traced_parallel rfl .done)
  have hrule : Parser.Explicit .tryFast (.ref "one or all" 0 : Parser Int64)
      (.ref "one or all" 0) := .other rfl .ref
  have hbody : Parser.Explicit .tryFast (oneOrAll (.oneOf "here"))
      (oneOrAll (.checkedFirstOf "there")) :=
    .choice (.cons hany (.cons (.other rfl (.seq (.cons hany (.cons hrule .nil)))) .nil))
  have hends : Parser.EndsAlike _ (fun _ => some (oneOrAll (.oneOf "here")))
      (.ref "one or all" 0) (.ofConfig ⟨0, true, .tryFast, false⟩)
      (fun _ => some (oneOrAll (.checkedFirstOf "there"))) (.ref "one or all" 0)
      (.ofConfig ⟨0, true, .safe, false⟩) (Token.ofTexts ["a", "b", "c"]) :=
    Parser.parse_explicit (fun _ => .some hbody) hrule rfl rfl .safe _
  have hrun : (Parser.run (fun _ => some (oneOrAll (.oneOf "here"))) 14 (.ref "one or all" 0)
      (Token.ofTexts ["a", "b", "c"]) (.ofConfig ⟨0, true, .tryFast, false⟩)).map
        (·.2.diagnostics.size) = some 2 := by decide +kernel
  obtain ⟨⟨o, ctx⟩, hrun, hsize⟩ := Option.map_eq_some_iff.1 hrun
  obtain ⟨n', hn'⟩ := hends.1.1 ⟨14, Option.isSome_of_eq_some hrun⟩
  obtain ⟨⟨o', ctx'⟩, hrun'⟩ := Option.isSome_iff_exists.1 hn'
  obtain ⟨rfl, htraces, -, hfindings, -⟩ := hends.2 _ _ _ _ _ _ hrun hrun'
  exact ⟨o, ctx, ctx', 14, n', hrun, hrun', hsize, htraces, hfindings⟩

def setting (choice : List (Parser Int64) → Parser Int64) : Parser Int64 :=
  .seq "setting" [Leaf.configuring ({ · with choiceMode := .fast }),
    choice [Leaf.take 1 1, Leaf.take 2 2]]

def asking : Parser Int64 :=
  .leaf fun input => .askMode fun mode =>
    if mode = .safe then Action.succeed ⟨2, input⟩ else Action.succeed ⟨1, input.take 1⟩

def checking : Parser Int64 :=
  .seq "checking" [Leaf.configuring ({ · with checkTransforms := true }),
    .transform "here" (Leaf.take 1 1) (fun tokens => .done (.ok tokens))]

/-- Where code of a grammar's author sets the mode of the context, or goes by it, or has
conversions checked, the mode written out into every choice is not the mode of the
context. -/
theorem setting_not_explicit :
    (Parser.run (fun _ => none) 4 (setting (.oneOf "here")) (Token.ofTexts ["a", "b"])
      (.ofConfig ⟨0, false, .safe, false⟩)).map (·.1.toOption.map (·.consumed)) = some (some 1) ∧
    (∀ other, (Parser.run (fun _ => none) 4 (setting (.longestOf "here"))
      (Token.ofTexts ["a", "b"]) (.ofConfig ⟨0, false, other, false⟩)).map
        (·.1.toOption.map (·.consumed)) = some (some 2)) ∧
    (∀ other, (Parser.run (fun _ => none) 4 asking (Token.ofTexts ["a", "b"])
      (.ofConfig ⟨0, false, other, false⟩)).map (·.1.toOption.map (·.consumed)) =
        some (some (if other = .safe then 2 else 1))) ∧
    ∀ other, (Parser.run (fun _ => none) 4 checking (Token.ofTexts ["a", "b"])
      (.ofConfig ⟨0, false, other, false⟩)).map (·.2.diagnostics.size) =
        some (if other = .safe then 1 else 0) := by
  refine ⟨by decide +kernel, fun other => ?_, fun other => ?_, fun other => ?_⟩
  all_goals cases other <;> decide +kernel

end TokenGrammar
