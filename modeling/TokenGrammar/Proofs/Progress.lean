import TokenGrammar.Proofs.Runs

/-!
# Runs in progress

`Begins` relates an action and a context to the events so far of a run, which need
not come to an end. It stops short at any point: inside a call, a guarded region, code
of the grammar's author or the check of a conversion, or between two steps. A run
that ends has begun with each part of its events (`Runs.begins`).
-/

namespace TokenGrammar

variable {V : Type} [TokenValue V]

inductive Begins (rules : Rules V) : {α : Type} → Action (Parser V) V α → Context V →
    List (Event V) → Prop
  | stopped : Begins rules a ctx []
  | calling (parse : Begins rules (p.body rules input) ctx nested) :
      Begins rules (.call p input next) ctx (.started p input :: nested)
  | called (parse : Runs rules (p.body rules input) ctx o ctx₁ nested)
      (rest : Begins rules (next o) ctx₁ es) :
      Begins rules (.call p input next) ctx (Event.span p input o nested ++ es)
  | refused (gate : ctx.enter? name (firstPos input) = .error refusal)
      (rest : Begins rules (next (.error refusal)) ctx es) :
      Begins rules (.guarded name input region next) ctx (.refused refusal :: es)
  | entering (gate : ctx.enter? name (firstPos input) = .ok entered)
      (inside : Begins rules region entered nested) :
      Begins rules (.guarded name input region next) ctx (.entered entered.depth :: nested)
  | guarded (gate : ctx.enter? name (firstPos input) = .ok entered)
      (inside : Runs rules region entered o ctx₁ nested)
      (rest : Begins rules (next o)
        (ctx₁.leave name (firstPos input) entered.traces.size o) es) :
      Begins rules (.guarded name input region next) ctx
        (.entered entered.depth :: (nested ++ es))
  | invoking (inside : Begins rules code ctx nested) :
      Begins rules (.client code next) ctx (.invoked :: nested.map .within)
  | client (inside : Runs rules code ctx result ctx₁ nested)
      (rest : Begins rules (next result) ctx₁ es) :
      Begins rules (.client code next) ctx
        (.invoked :: (nested.map .within ++ .answered (Event.failure? result) :: es))
  | askMode (rest : Begins rules (next ctx.config.choiceMode) ctx es) :
      Begins rules (.askMode next) ctx es
  | logFailure {failure : Failure}
      (rest : Begins rules next (ctx.logFailure failure fallback) es) :
      Begins rules (.logFailure failure fallback next) ctx (.logged (failure.orAt fallback) :: es)
  | report (rest : Begins rules next (ctx.report diagnostic) es) :
      Begins rules (.report diagnostic next) ctx (.reported diagnostic :: es)
  | clearPartials (rest : Begins rules next { ctx with partials := [] } es) :
      Begins rules (.clearPartials next) ctx es
  | keepPartials (rest : Begins rules next { ctx with partials := produced ++ ctx.partials } es) :
      Begins rules (.keepPartials produced next) ctx es
  | unchecked (off : ¬ ctx.Checks converted) (rest : Begins rules next ctx es) :
      Begins rules (.checkReproduction p location converted next) ctx es
  | checking (on : ctx.Checks converted)
      (parse : Begins rules (Action.parse p converted) ctx.scratch nested) :
      Begins rules (.checkReproduction p location converted next) ctx (nested.map .scratch)
  | checked (on : ctx.Checks converted)
      (parse : Runs rules (p.body rules converted) ctx.scratch o scratch nested)
      (rest : Begins rules next (ctx.afterCheck location converted o) es) :
      Begins rules (.checkReproduction p location converted next) ctx
        ((Event.span p converted o nested).map .scratch ++ Event.ofCheck location converted o ++ es)
  | configure (rest : Begins rules next (ctx.configure change) es) :
      Begins rules (.configure change next) ctx es

variable {rules : Rules V}

theorem prefix_append_iff {as bs cs : List α} :
    as <+: bs ++ cs ↔ as <+: bs ∨ ∃ ds, as = bs ++ ds ∧ ds <+: cs := by
  constructor
  · intro h
    rcases List.prefix_or_prefix_of_prefix h (List.prefix_append bs cs) with has | ⟨ds, rfl⟩
    · exact .inl has
    · exact .inr ⟨ds, rfl, (List.prefix_append_right_inj bs).1 h⟩
  · rintro (h | ⟨ds, rfl, h⟩)
    · exact h.trans (List.prefix_append bs cs)
    · exact (List.prefix_append_right_inj bs).2 h

theorem Event.eq_of_prefix_ofCheck {before : List (Event V)}
    (h : before <+: ofCheck location converted o) :
    before = [] ∨ before = ofCheck location converted o := by
  have hcheck : ofCheck location converted o = [] ∨ ∃ e, ofCheck location converted o = [e] := by
    unfold ofCheck
    split
    · exact .inr ⟨_, rfl⟩
    · exact .inl rfl
  rcases hcheck with hnone | ⟨e, hone⟩
  · rw [hnone] at h
    exact .inl (List.prefix_nil.1 h)
  · rw [hone] at h ⊢
    rcases List.prefix_cons_iff.1 h with hnil | ⟨tail, rfl, htail⟩
    · exact .inl hnil
    · exact .inr (by rw [List.prefix_nil.1 htail])

theorem Begins.of_span {before es : List (Event V)} {next : Outcome V → Action (Parser V) V α}
    (parse : Runs rules (p.body rules input) ctx o ctx₁ nested)
    (hparse : ∀ before, before <+: nested → Begins rules (p.body rules input) ctx before)
    (hrest : ∀ before, before <+: es → Begins rules (next o) ctx₁ before)
    (h : before <+: Event.span p input o nested ++ es) :
    Begins rules (.call p input next) ctx before := by
  rcases prefix_append_iff.1 h with hspan | ⟨tail, rfl, htail⟩
  · rcases List.prefix_cons_iff.1 hspan with rfl | ⟨first, rfl, hfirst⟩
    · exact .stopped
    · rcases List.prefix_concat_iff.1 hfirst with rfl | hnested
      · simpa [Event.span] using Begins.called parse (hrest [] List.nil_prefix)
      · exact .calling (hparse first hnested)
  · exact .called parse (hrest tail htail)

theorem Runs.begins (h : Runs rules a ctx x ctx' es) (hbefore : before <+: es) :
    Begins rules a ctx before := by
  induction h generalizing before with
  | done =>
    obtain rfl := List.prefix_nil.1 hbefore
    exact .stopped
  | call parse _ ihParse ih =>
    exact .of_span parse (fun _ => ihParse) (fun _ => ih) hbefore
  | refused gate _ ih =>
    rcases List.prefix_cons_iff.1 hbefore with rfl | ⟨tail, rfl, htail⟩
    · exact .stopped
    · exact .refused gate (ih htail)
  | guarded gate inside _ ihInside ih =>
    rcases List.prefix_cons_iff.1 hbefore with rfl | ⟨tail, rfl, htail⟩
    · exact .stopped
    · rcases prefix_append_iff.1 htail with hnested | ⟨last, rfl, hlast⟩
      · exact .entering gate (ihInside hnested)
      · exact .guarded gate inside (ih hlast)
  | client inside _ ihInside ih =>
    rcases List.prefix_cons_iff.1 hbefore with rfl | ⟨tail, rfl, htail⟩
    · exact .stopped
    · rcases prefix_append_iff.1 htail with hnested | ⟨answer, rfl, hanswer⟩
      · obtain ⟨first, hfirst, rfl⟩ := List.prefix_map_iff.1 hnested
        exact .invoking (ihInside hfirst)
      · rcases List.prefix_cons_iff.1 hanswer with rfl | ⟨last, rfl, hlast⟩
        · rw [List.append_nil]
          exact .invoking (ihInside (List.prefix_refl _))
        · exact .client inside (ih hlast)
  | askMode _ ih => exact .askMode (ih hbefore)
  | logFailure _ ih =>
    rcases List.prefix_cons_iff.1 hbefore with rfl | ⟨tail, rfl, htail⟩
    · exact .stopped
    · exact .logFailure (ih htail)
  | report _ ih =>
    rcases List.prefix_cons_iff.1 hbefore with rfl | ⟨tail, rfl, htail⟩
    · exact .stopped
    · exact .report (ih htail)
  | clearPartials _ ih => exact .clearPartials (ih hbefore)
  | keepPartials _ ih => exact .keepPartials (ih hbefore)
  | unchecked off _ ih => exact .unchecked off (ih hbefore)
  | configure _ ih => exact .configure (ih hbefore)
  | @checked o _ nested _ next _ _ _ p location converted ctx on parse _ ihParse ih =>
    have hchecking : ∀ {first}, first <+: Event.span p converted o nested →
        Begins rules (.checkReproduction p location converted next) ctx (first.map .scratch) := by
      intro first hfirst
      rw [← List.append_nil (Event.span ..)] at hfirst
      exact .checking on (.of_span parse (fun _ => ihParse)
        (fun _ hnil => List.prefix_nil.1 hnil ▸ .stopped) hfirst)
    rcases prefix_append_iff.1 (List.append_assoc .. ▸ hbefore) with hscratch | ⟨tail, rfl, htail⟩
    · obtain ⟨first, hfirst, rfl⟩ := List.prefix_map_iff.1 hscratch
      exact hchecking hfirst
    · rcases prefix_append_iff.1 htail with hreport | ⟨last, rfl, hlast⟩
      · rcases Event.eq_of_prefix_ofCheck hreport with rfl | rfl
        · rw [List.append_nil]
          exact hchecking (List.prefix_refl _)
        · rw [← List.append_nil (Event.ofCheck ..), ← List.append_assoc]
          exact .checked on parse (ih List.nil_prefix)
      · rw [← List.append_assoc]
        exact .checked on parse (ih hlast)

theorem Parses.begins (h : Parses rules p input ctx o ctx' es) (hbefore : before <+: es) :
    Begins rules (Action.parse p input) ctx before :=
  (parses_iff.2 h).begins hbefore

end TokenGrammar
