import TokenGrammar.Leaf
import TokenGrammar.Proofs.Frame

/-!
# A limit on depth that suffices

Where the depth guard refuses nothing, not even within the check of a conversion, the
limit on depth cannot be told from a higher one, or from none at all. What counts are
the events of the run and not its outcome, as a refusal may be absorbed on the way.
-/

namespace TokenGrammar

variable {V : Type}

namespace Event

def Refuses : Event V → Prop
  | refused _ => True
  | within event | scratch event => event.Refuses
  | _ => False

end Event

-- ---------------------------------------------------------------------------
-- Another limit
-- ---------------------------------------------------------------------------

namespace Context

def withLimit (ctx : Context V) (limit : Nat) : Context V :=
  ctx.configure ({ · with maxDepth := limit })

variable {ctx entered : Context V}

theorem enter?_withLimit (gate : ctx.enter? name place = .ok entered)
    (hlimit : limit = 0 ∨ 0 < ctx.config.maxDepth ∧ ctx.config.maxDepth ≤ limit) :
    (ctx.withLimit limit).enter? name place = .ok (entered.withLimit limit) := by
  have hopen : ¬ (0 < ctx.config.maxDepth ∧ ctx.config.maxDepth ≤ ctx.depth) :=
    (enter?_ok gate).1
  have hopen' : ¬ (0 < limit ∧ limit ≤ ctx.depth) := by omega
  have hopen'' : ¬ (0 < (ctx.withLimit limit).config.maxDepth ∧
      (ctx.withLimit limit).config.maxDepth ≤ (ctx.withLimit limit).depth) := hopen'
  unfold enter? deepen? at gate ⊢
  rw [if_neg hopen] at gate
  rw [if_neg hopen'', ← Except.ok.inj gate, apply_ite (Context.withLimit · limit)]
  rfl

theorem recordOutcome_withLimit [TokenValue V] (ctx : Context V) :
    (ctx.withLimit limit).recordOutcome name place mark o =
      (ctx.recordOutcome name place mark o).withLimit limit := by
  unfold recordOutcome
  cases htracing : ctx.config.tracing <;> cases hsize : ctx.traces.size == mark <;>
    cases hlast : ctx.traces.back? <;>
    simp [withLimit, configure, record, htracing, hsize, hlast]

theorem leave_withLimit [TokenValue V] (ctx : Context V) :
    (ctx.withLimit limit).leave name place mark o =
      (ctx.leave name place mark o).withLimit limit := by
  rw [leave, recordOutcome_withLimit]
  rfl

theorem afterCheck_withLimit [TokenValue V] (ctx : Context V) :
    (ctx.withLimit limit).afterCheck location converted o =
      (ctx.afterCheck location converted o).withLimit limit := by
  unfold afterCheck
  split <;> rfl

end Context

-- ---------------------------------------------------------------------------
-- Runs
-- ---------------------------------------------------------------------------

variable [TokenValue V] {G : Grammar V}

/-- A run that is refused nothing is the same run, event by event, under another limit. -/
theorem Runs.withLimit (hclients : ∀ p ∈ G, p.Clients Action.KeepsOptions)
    (h : Runs G.rules a ctx x ctx' es) (ha : a.Only (· ≠ .options) (· ∈ G))
    (hopen : ∀ e ∈ es, ¬ e.Refuses)
    (hlimit : limit = 0 ∨ 0 < ctx.config.maxDepth ∧ ctx.config.maxDepth ≤ limit) :
    Runs G.rules a (ctx.withLimit limit) x (ctx'.withLimit limit) es := by
  induction h with
  | done => exact .done
  | call parse _ ihParse ih =>
    obtain ⟨hspan, hrest⟩ := List.forall_mem_append.1 hopen
    have hbody := Grammar.body_only ha.1 (hclients _ ha.1)
    refine .call (ihParse (hbody _) (Event.forall_mem_span.1 hspan).2.1 hlimit)
      (ih (ha.2 _) hrest ?_)
    rwa [parse.config hclients (hbody _)]
  | refused _ _ _ => exact absurd trivial (hopen _ List.mem_cons_self)
  | guarded gate inside _ ihInside ih =>
    obtain ⟨-, hrest⟩ := List.forall_mem_cons.1 hopen
    obtain ⟨hnested, hrest⟩ := List.forall_mem_append.1 hrest
    have hinside := ihInside ha.1 hnested (by rwa [Context.enter?_config gate])
    have hrest := ih (ha.2 _) hrest (by
      rwa [Context.leave_config, inside.config hclients ha.1, Context.enter?_config gate])
    rw [← Context.leave_withLimit] at hrest
    have hsame := Runs.guarded (Context.enter?_withLimit gate hlimit) hinside hrest
    exact hsame
  | client inside _ ihInside ih =>
    obtain ⟨-, hrest⟩ := List.forall_mem_cons.1 hopen
    obtain ⟨hnested, hrest⟩ := List.forall_mem_append.1 hrest
    rw [List.forall_mem_map] at hnested
    have hinside := ihInside ha.1 hnested hlimit
    rw [← inside.config hclients ha.1] at hlimit
    exact .client hinside (ih (ha.2 _) (List.forall_mem_cons.1 hrest).2 hlimit)
  | askMode _ ih => exact .askMode (ih (ha.2 _) hopen hlimit)
  | logFailure _ ih =>
    exact .logFailure (ih ha.2 (List.forall_mem_cons.1 hopen).2 hlimit)
  | report _ ih => exact .report (ih ha.2 (List.forall_mem_cons.1 hopen).2 hlimit)
  | clearPartials _ ih => exact .clearPartials (ih ha.2 hopen hlimit)
  | keepPartials _ ih => exact .keepPartials (ih ha.2 hopen hlimit)
  | unchecked off _ ih => exact .unchecked off (ih ha.2.2 hopen hlimit)
  | checked on parse _ ihParse ih =>
    obtain ⟨hcheck, hrest⟩ := List.forall_mem_append.1 hopen
    obtain ⟨hscratch, -⟩ := List.forall_mem_append.1 hcheck
    rw [List.forall_mem_map] at hscratch
    have hparse := ihParse (Grammar.body_only ha.2.1 (hclients _ ha.2.1) _)
      (Event.forall_mem_span.1 hscratch).2.1 hlimit
    have hrest := ih ha.2.2 hrest (by rwa [Context.afterCheck_config])
    rw [← Context.afterCheck_withLimit] at hrest
    exact .checked on hparse hrest
  | configure _ _ => exact absurd rfl ha.1

/-- A parse in which the depth guard refuses nothing is the same without a limit on depth,
and under a limit also with any higher one. -/
theorem Grammar.parse_withLimit (hclients : ∀ p ∈ G, p.Clients Action.KeepsOptions)
    (hp : p ∈ G) (h : Parses G.rules p input ctx o ctx' es) (hopen : ∀ e ∈ es, ¬ e.Refuses)
    (hlimit : limit = 0 ∨ 0 < ctx.config.maxDepth ∧ ctx.config.maxDepth ≤ limit) :
    ∃ n, Parser.run G.rules n p input (ctx.withLimit limit) = some (o, ctx'.withLimit limit) := by
  obtain ⟨nested, hrun, rfl⟩ := h
  have hsame := hrun.withLimit hclients (Grammar.body_only hp (hclients p hp) input)
    (Event.forall_mem_span.1 hopen).2.1 hlimit
  exact parses_iff_run.1 ⟨_, nested, hsame, rfl⟩

/-- Under a limit of one the refusal would be absorbed, and the parser would match. -/
def probing : Grammar Int64 :=
  .ofList (fun _ => none)
    [.notFollowedBy (.seq "one" [Leaf.take 1 1]), .seq "one" [Leaf.take 1 1], Leaf.take 1 1]
    (by simp [Parser.parts, Leaf.take])
    (by simp [Parser.Clients, Leaf.take, Action.succeed, Action.Only])

theorem probing_parse_withLimit : ∃ p ∈ probing, ∃ o ctx es,
    Parses probing.rules p (Token.ofTexts ["a"]) (.ofConfig ⟨2, true, .safe, false⟩) o ctx es ∧
      ∀ limit, limit = 0 ∨ 2 ≤ limit → ∃ n,
        Parser.run probing.rules n p (Token.ofTexts ["a"])
          ((Context.ofConfig ⟨2, true, .safe, false⟩).withLimit limit) =
            some (o, ctx.withLimit limit) := by
  have hclients : ∀ p ∈ probing, p.Clients Action.KeepsOptions := by
    simp [probing, Parser.Clients, Leaf.take, Action.succeed, Action.KeepsOptions, Action.Only]
  have hp : .notFollowedBy (.seq "one" [Leaf.take 1 1]) ∈ probing := List.mem_cons_self
  obtain ⟨o, ctx, es, hparse, hopen⟩ : ∃ o ctx es,
      Parses probing.rules (.notFollowedBy (.seq "one" [Leaf.take 1 1])) (Token.ofTexts ["a"])
        (.ofConfig ⟨2, true, .safe, false⟩) o ctx es ∧ ∀ e ∈ es, ¬ e.Refuses :=
    ⟨_, _, _, ⟨_, .guarded rfl (.call (.guarded rfl (.clearPartials
      (.call (.client .done .done) .done)) .done) .done) .done, rfl⟩,
      by simp [Event.span, Event.Refuses]⟩
  refine ⟨_, hp, o, ctx, es, hparse, fun limit hlimit => ?_⟩
  exact Grammar.parse_withLimit hclients hp hparse hopen
    (hlimit.imp_right fun hle => ⟨Nat.zero_lt_two, hle⟩)

/-- Zero is no limit, so a parse in which nothing is refused under it may be refused under
one. -/
theorem unlimited_not_withLimit : ∃ o ctx es,
    Parses (fun _ => none) (.seq "seq" [.seq "seq" []] : Parser Int64) []
        ((Context.ofConfig .initial).withLimit 0) o ctx es ∧
      (∀ e ∈ es, ¬ e.Refuses) ∧ 0 ≤ 1 ∧
      ¬ ∃ n ctx', Parser.run (fun _ => none) n (.seq "seq" [.seq "seq" []] : Parser Int64) []
        ((Context.ofConfig .initial).withLimit 1) = some (o, ctx') := by
  refine ⟨.ok .nothing, _, _, ⟨_, .guarded rfl (.clearPartials (.call
    (.guarded rfl .done .done) .done)) .done, rfl⟩, by simp [Event.span, Event.Refuses],
    Nat.zero_le 1, ?_⟩
  rintro ⟨n, ctx', hrun⟩
  have hrefused : (Parser.run (fun _ => none) 2 (.seq "seq" [.seq "seq" []] : Parser Int64) []
      ((Context.ofConfig .initial).withLimit 1)).map (·.1.toOption) = some none := by
    decide +kernel
  obtain ⟨r, hrun', hr⟩ := Option.map_eq_some_iff.1 hrefused
  rw [← Parser.run_unique hrun hrun'] at hr
  cases hr

end TokenGrammar
