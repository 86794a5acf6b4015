import TokenGrammar.Leaf
import TokenGrammar.Proofs.Classification
import TokenGrammar.Proofs.Combinators

/-!
# Failures in flight are never mixed

`isRecoverable` and `kind` agree on unmixed failures alone, and parsers ask now for
the one and now for the other. That no run builds a mixed failure is a contract that
every parser keeps: only choices join failures, they join recoverable ones, and where
there are options there is one to join. It is kept by what the author's code runs as well,
so all that this code does not log itself is unmixed (`Grammar.entries_unmixed`).
-/

namespace TokenGrammar

variable {V : Type}

def UnmixedResult {γ : Type} : Except Failure γ → Prop
  | .ok _ => True
  | .error failure => failure.Unmixed

def unmixed (own : Failure → Prop) : Contract V :=
  ⟨fun _ _ o => UnmixedResult o, Failure.Unmixed, own⟩

variable [TokenValue V] {rules : Rules V} {own : Failure → Prop}

namespace Parser

omit [TokenValue V] in
theorem unmixed_join {options : List (Parser V)} (hne : options ≠ []) {input : List (Token V)}
    (hlength : failures.length = options.length)
    (hfailed : Failed (unmixed own) options input failures) (pos : Option Position) :
    (Failure.join failures pos).Unmixed := by
  refine Failure.Unmixed.join ?_ (fun failure hfailure => ?_) pos
  · rintro rfl
    exact hne (List.length_eq_zero_iff.1 hlength.symm)
  · obtain ⟨hrec, _, _, hunmixed⟩ := hfailed failure hfailure
    exact Failure.Unmixed.of_isRecoverable hunmixed hrec

theorem body_meets {p : Parser V} (hchoice : ∀ location mode, p ≠ .choice location mode [])
    (hclients : p.Clients fun a => ∀ ctx r ctx' es, Runs rules a ctx r ctx' es → UnmixedResult r)
    (hlogs : p.Clients (·.Logs own)) (input : List (Token V)) :
    (p.body rules input).Meets (unmixed own) rules UnmixedResult := by
  have hfails : FailsInto (unmixed own) rules Failure.Unmixed p input := {
    own := fun _ => Failure.Unmixed.single ..
    passed := fun _ _ _ _ _ _ hf => hf
    placed := fun _ _ _ hf => Failure.Unmixed.orAt hf _
    joined := by
      rintro location mode options rfl failures hlength hfailed
      refine unmixed_join ?_ hlength hfailed _
      rintro rfl
      exact hchoice location mode rfl
    leaf := by
      rintro program rfl ctx f
      exact hclients input ctx (.error f)
    converted := by
      rintro location item convert rfl tokens ctx f
      exact hclients tokens ctx (.error f)
    logged := fun _ hf => hf.orAt _
    code := hlogs.meets }
  refine (body_failsInto hfails).mono fun o ho => ?_
  cases o with
  | ok m => trivial
  | error f => exact ho f rfl

end Parser

section
variable {G : Grammar V} (hchoice : ∀ location mode, .choice location mode [] ∉ G)
  (hclients : ∀ p ∈ G, p.Clients fun a => ∀ ctx f ctx' es,
    Runs G.rules a ctx (.error f) ctx' es → ∃ fault pos, f = .single fault pos)
include hchoice hclients

theorem Grammar.keeps_unmixed (hlogs : ∀ p ∈ G, p.Clients (·.Logs own)) :
    G.Keeps (unmixed own) := by
  intro p hp input
  refine Parser.body_meets ?_ ((hclients p hp).mono ?_) (hlogs p hp) input
  · rintro location mode rfl
    exact hchoice location mode hp
  · intro γ a hsingle ctx r ctx' es hrun
    cases r with
    | ok _ => trivial
    | error f =>
      obtain ⟨fault, pos, rfl⟩ := hsingle ctx f ctx' es hrun
      exact .single fault pos

/-- Every entry of the log is unmixed that the author's code does not log itself, also one of a
recovery that this code runs. -/
theorem Grammar.entries_unmixed (hlogs : ∀ p ∈ G, p.Clients (·.Logs own)) (hp : p ∈ G)
    (h : Begins G.rules (Action.parse p input) ctx es) (he : e ∈ es)
    (hf : e.logged? = some f) : own f ∨ f.Unmixed :=
  (h.parse_keeps (Grammar.keeps_unmixed hchoice hclients hlogs) hp e he).of_logged? hf

end

/-- Where a choice has options, and the author's code fails with single faults alone,
no failure that a parser returns is mixed, and none that a recovery logs, whether or
not the parse ends. So the two ways to ask whether one of them is recoverable agree. -/
theorem Grammar.failures_unmixed {G : Grammar V}
    (hchoice : ∀ location mode, .choice location mode [] ∉ G)
    (hclients : ∀ p ∈ G, p.Clients fun a => ∀ ctx f ctx' es,
      Runs G.rules a ctx (.error f) ctx' es → ∃ fault pos, f = .single fault pos)
    (hp : p ∈ G) (h : Begins G.rules (Action.parse p input) ctx es)
    (hf : (∃ e ∈ es, e.failed? = some f) ∨ .logged f ∈ es) :
    f.Unmixed ∧ f.isRecoverable = f.kind.isRecoverable := by
  have hG : G.Keeps (unmixed fun _ => True) := Grammar.keeps_unmixed hchoice hclients
    fun p _ => Parser.clients_of_forall (Action.logs_of_forall fun _ => trivial) p
  have hevents := h.parse_keeps hG hp
  have hunmixed : f.Unmixed := by
    rcases hf with ⟨e, he, hfailed⟩ | hlogged
    · obtain ⟨_, _, hreturned⟩ := (hevents e he).of_failed? hfailed
      exact hreturned
    · exact hevents _ hlogged
  exact ⟨hunmixed, hunmixed.isRecoverable_eq⟩

def recovering : Grammar Int64 :=
  .ofList (fun _ => none)
    [.recover (Leaf.take 0 0) (.oneOf "here" [.expected "a", .expected "b"]) (Leaf.take 1 0),
      .oneOf "here" [.expected "a", .expected "b"], .expected "a", .expected "b",
      Leaf.take 0 0, Leaf.take 1 0]
    (by simp [Parser.parts, Parser.oneOf, Leaf.take])
    (by simp [Parser.Clients, Parser.oneOf, Leaf.take, Action.succeed, Action.Only])

/-- The failure that is logged joins the two mismatches. -/
theorem recovering_failures_unmixed : ∃ p ∈ recovering, ∃ o ctx es f,
    Parses recovering.rules p (Token.ofTexts ["x"]) (.ofConfig .initial) o ctx es ∧
      .logged f ∈ es ∧ f.members.length = 2 ∧ f.isRecoverable = f.kind.isRecoverable := by
  have hchoice : ∀ location mode, .choice location mode [] ∉ recovering := by
    simp [recovering, Parser.oneOf, Leaf.take]
  have hclients : ∀ p ∈ recovering, p.Clients fun a => ∀ ctx f ctx' es,
      Runs recovering.rules a ctx (.error f) ctx' es → ∃ fault pos, f = .single fault pos := by
    simp [recovering, Parser.Clients, Parser.oneOf, Leaf.take, Action.succeed]
  let p : Parser Int64 :=
    .recover (Leaf.take 0 0) (.oneOf "here" [.expected "a", .expected "b"]) (Leaf.take 1 0)
  have hp : p ∈ recovering := List.mem_cons_self
  obtain ⟨o, ctx, es, hparse, f, hlogged, hlength⟩ : ∃ o ctx es,
      Parses recovering.rules p (Token.ofTexts ["x"]) (.ofConfig .initial) o ctx es ∧
        ∃ f, .logged f ∈ es ∧ f.members.length = 2 :=
    ⟨_, _, _, ⟨_, .guarded rfl (.guarded rfl (.call (.client .done .done) .done) <|
      .guarded rfl
        (.call (.guarded rfl (.askMode (.call .done (.call .done .done))) .done) .done) <|
      .logFailure (.guarded rfl (.call (.client .done .done) .done) .done)) .done, rfl⟩,
      by simp [Event.span, Failure.join, Failure.orAt, Failure.members, firstPos, Token.ofTexts,
        Token.ofRaw]⟩
  exact ⟨p, hp, o, ctx, es, f, hparse, hlogged, hlength,
    (Grammar.failures_unmixed hchoice hclients hp (hparse.begins (List.prefix_refl es))
      (.inr hlogged)).2⟩

end TokenGrammar
