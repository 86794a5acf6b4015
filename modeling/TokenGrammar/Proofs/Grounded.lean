import TokenGrammar.Proofs.Termination

/-!
# Actions that rest on calls which end

An action ends where all that it calls on its way does (`Action.Grounded.ends`), under
options that what it calls keeps. So a proof that a parser ends only follows its calls:
a parser ends where its parts do on all that may be left of its input
(`Parser.body_grounded`).
-/

namespace TokenGrammar

variable {V : Type} [TokenValue V] {rules : Rules V} {J : Config → Prop}

/-- Whether an action comes to an end under options `J`, and leaves such options. -/
def Action.EndsUnder (rules : Rules V) (J : Config → Prop) (a : Action (Parser V) V α) : Prop :=
  ∀ ctx, J ctx.config → ∃ x ctx' es, Runs rules a ctx x ctx' es ∧ J ctx'.config

def Parser.MayReturn (rules : Rules V) (J : Config → Prop) (p : Parser V)
    (input : List (Token V)) (o : Outcome V) : Prop :=
  ∃ ctx ctx' es, J ctx.config ∧ Runs rules (p.body rules input) ctx o ctx' es

def Parser.ChecksEnd (rules : Rules V) (J : Config → Prop) (p : Parser V)
    (converted : List (Token V)) : Prop :=
  ∀ ctx : Context V, J ctx.config → ctx.Checks converted →
    (p.body rules converted).Ends rules ctx.scratch

namespace Action

/-- Whether all that an action calls on its way comes to an end. -/
def Grounded (rules : Rules V) (J : Config → Prop) : {α : Type} → Action (Parser V) V α → Prop
  | _, .done _ => True
  | _, .call p input next => (p.body rules input).EndsUnder rules J ∧
    ∀ o, p.MayReturn rules J input o → (next o).Grounded rules J
  | _, .guarded _ _ region next => region.Grounded rules J ∧ ∀ o, (next o).Grounded rules J
  | _, .client code next => code.EndsUnder rules J ∧ ∀ r, (next r).Grounded rules J
  | _, .askMode next => ∀ mode, (next mode).Grounded rules J
  | _, .logFailure _ _ next | _, .report _ next | _, .clearPartials next
  | _, .keepPartials _ next => next.Grounded rules J
  | _, .checkReproduction p _ converted next =>
    p.ChecksEnd rules J converted ∧ next.Grounded rules J
  | _, .configure _ _ => False

theorem Grounded.ends {a : Action (Parser V) V α} (h : a.Grounded rules J) :
    a.EndsUnder rules J := by
  induction a with
  | done x => exact fun ctx hctx => ⟨_, _, _, .done, hctx⟩
  | call p input next ih =>
    intro ctx hctx
    obtain ⟨o, ctx₁, es, hparse, hctx₁⟩ := h.1 ctx hctx
    obtain ⟨_, _, _, hrest, hend⟩ := ih o (h.2 o ⟨ctx, ctx₁, es, hctx, hparse⟩) ctx₁ hctx₁
    exact ⟨_, _, _, .call hparse hrest, hend⟩
  | guarded name input region next ihRegion ih =>
    intro ctx hctx
    cases hgate : ctx.enter? name (firstPos input) with
    | error refusal =>
      obtain ⟨_, _, _, hrest, hend⟩ := ih _ (h.2 _) ctx hctx
      exact ⟨_, _, _, .refused hgate hrest, hend⟩
    | ok entered =>
      obtain ⟨o, ctx₁, _, hinside, hctx₁⟩ :=
        ihRegion h.1 entered (by rwa [Context.enter?_config hgate])
      obtain ⟨_, _, _, hrest, hend⟩ := ih o (h.2 o)
        (ctx₁.leave name (firstPos input) entered.traces.size o) (by rwa [Context.leave_config])
      exact ⟨_, _, _, .guarded hgate hinside hrest, hend⟩
  | client code next _ ih =>
    intro ctx hctx
    obtain ⟨r, ctx₁, _, hinside, hctx₁⟩ := h.1 ctx hctx
    obtain ⟨_, _, _, hrest, hend⟩ := ih r (h.2 r) ctx₁ hctx₁
    exact ⟨_, _, _, .client hinside hrest, hend⟩
  | askMode next ih =>
    intro ctx hctx
    obtain ⟨_, _, _, hrest, hend⟩ := ih _ (h _) ctx hctx
    exact ⟨_, _, _, .askMode hrest, hend⟩
  | logFailure failure fallback next ih =>
    intro ctx hctx
    obtain ⟨_, _, _, hrest, hend⟩ := ih h (ctx.logFailure failure fallback) hctx
    exact ⟨_, _, _, .logFailure hrest, hend⟩
  | report diagnostic next ih =>
    intro ctx hctx
    obtain ⟨_, _, _, hrest, hend⟩ := ih h (ctx.report diagnostic) hctx
    exact ⟨_, _, _, .report hrest, hend⟩
  | clearPartials next ih =>
    intro ctx hctx
    obtain ⟨_, _, _, hrest, hend⟩ := ih h { ctx with partials := [] } hctx
    exact ⟨_, _, _, .clearPartials hrest, hend⟩
  | keepPartials produced next ih =>
    intro ctx hctx
    obtain ⟨_, _, _, hrest, hend⟩ := ih h { ctx with partials := produced ++ ctx.partials } hctx
    exact ⟨_, _, _, .keepPartials hrest, hend⟩
  | checkReproduction p location converted next ih =>
    intro ctx hctx
    by_cases hchecks : ctx.Checks converted
    · obtain ⟨o, _, _, hparse⟩ := h.1 ctx hctx hchecks
      obtain ⟨_, _, _, hrest, hend⟩ := ih h.2 (ctx.afterCheck location converted o)
        (by rwa [Context.afterCheck_config])
      exact ⟨_, _, _, .checked hchecks hparse hrest, hend⟩
    · obtain ⟨_, _, _, hrest, hend⟩ := ih h.2 ctx hctx
      exact ⟨_, _, _, .unchecked hchecks hrest, hend⟩
  | configure change next _ => exact h.elim

theorem CallsOn.grounded {a : Action (Parser V) V α}
    (h : a.CallsOn fun p rest => (p.body rules rest).EndsUnder rules J) : a.Grounded rules J := by
  induction a with
  | done => trivial
  | call p input next ih => exact ⟨h.1, fun o _ => ih o (h.2 o)⟩
  | report _ next ih | clearPartials next ih | keepPartials _ next ih => exact ih h
  | _ => exact h.elim

end Action

-- ---------------------------------------------------------------------------
-- The combinators
-- ---------------------------------------------------------------------------

namespace Parser

section
variable {input : List (Token V)}

/-- The parts of a sequence end in turn, if what is done so far satisfies `inv`. -/
theorem seqFrom_grounded {whole front parts : List (Parser V)}
    (inv : List (Parser V) → Match V → Prop)
    (hcall : ∀ front part back sofar, whole = front ++ part :: back → inv front sofar →
      (part.body rules (input.drop sofar.consumed)).EndsUnder rules J)
    (hmatch : ∀ front part back sofar m, whole = front ++ part :: back → inv front sofar →
      part.MayReturn rules J (input.drop sofar.consumed) (.ok m) →
      inv (front ++ [part]) (sofar ++ m))
    (hwhole : whole = front ++ parts) {sofar : Match V} (hsofar : inv front sofar) :
    (seqFrom input parts sofar).Grounded rules J := by
  induction parts generalizing front sofar with
  | nil => trivial
  | cons part parts ih =>
    refine ⟨hcall front part parts sofar hwhole hsofar, fun o ho => ?_⟩
    cases o with
    | ok m => exact ih (by simp [hwhole]) (hmatch front part parts sofar m hwhole hsofar ho)
    | error failure => trivial

theorem body_grounded {p : Parser V}
    (hparts : ∀ q ∈ p.parts rules, ∀ rest, rest <:+ input →
      (q.body rules rest).EndsUnder rules J)
    (hchecks : ∀ q ∈ p.parts rules, ∀ converted, q.ChecksEnd rules J converted)
    (hclients : p.Clients (·.EndsUnder rules J)) : (p.body rules input).Grounded rules J := by
  have hend : ∀ o : Outcome V, (Action.done o : Step V).Grounded rules J := fun _ => trivial
  have hself : ∀ q ∈ p.parts rules, (q.body rules input).EndsUnder rules J :=
    fun q hq => hparts q hq input (List.suffix_refl _)
  cases p with
  | leaf program => exact ⟨hclients input, hend⟩
  | seq label parts =>
    exact ⟨(seqFrom_callsOn hparts _).grounded, hend⟩
  | choice location mode options =>
    have hchoose : ∀ mode, (choose location options input mode).Grounded rules J :=
      fun mode => (choose_callsOn hself location mode).grounded
    cases mode with
    | some mode => exact ⟨hchoose mode, hend⟩
    | none => exact ⟨hchoose, hend⟩
  | repetition label min max item =>
    exact ⟨(repeatFrom_callsOn (hparts _ List.mem_cons_self) ..).grounded, hend⟩
  | optional item =>
    refine ⟨⟨hself _ List.mem_cons_self, fun o _ => ?_⟩, hend⟩
    cases o with
    | ok m => trivial
    | error failure => simp only; split <;> trivial
  | transform location item convert =>
    refine ⟨hself _ List.mem_cons_self, fun o _ => ?_⟩
    cases o with
    | error failure => trivial
    | ok m =>
      refine ⟨hclients m.produced, fun r => ?_⟩
      cases r with
      | ok converted => exact ⟨hchecks _ List.mem_cons_self converted, trivial⟩
      | error failure => trivial
  | before test => exact ⟨trivial, hend⟩
  | empty label =>
    cases label with
    | none => trivial
    | some label => exact ⟨trivial, hend⟩
  | atEnd => cases input <;> exact ⟨trivial, hend⟩
  | recover search body skipUntil =>
    have hskip : (resync skipUntil input 0).Grounded rules J :=
      (resync_callsOn (hparts skipUntil (by simp [Parser.parts])) 0).grounded
    refine ⟨⟨⟨hself search (by simp [Parser.parts]), fun _ _ => trivial⟩, fun checked => ?_⟩, hend⟩
    cases checked with
    | error failure => trivial
    | ok _ =>
      refine ⟨⟨hself body (by simp [Parser.parts]), fun _ _ => trivial⟩, fun o => ?_⟩
      cases o with
      | ok m => trivial
      | error failure => exact ⟨hskip, hend⟩
  | lookahead item | notFollowedBy item | peek item =>
    refine ⟨⟨hself _ List.mem_cons_self, fun o _ => ?_⟩, hend⟩
    cases o <;> trivial
  | labelled label item =>
    refine ⟨hself _ List.mem_cons_self, fun o _ => ?_⟩
    cases o <;> trivial
  | expected message | fail message => trivial
  | trace label item => exact ⟨⟨hself _ List.mem_cons_self, fun _ _ => trivial⟩, hend⟩
  | ref name rule | deferred rule =>
    refine ⟨?_, hend⟩
    cases hrule : rules rule with
    | none => trivial
    | some body => exact ⟨hself body (by simp [Parser.parts, hrule]), fun _ _ => trivial⟩

end

end Parser

end TokenGrammar
