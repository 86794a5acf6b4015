import Mathlib.Data.List.Forall2
import TokenGrammar.Proofs.Growth

/-!
# Two grammars side by side

Two grammars of one build do the same, up to what a `Likeness` leaves open: the names that
regions are traced under, the places where choices are written, and the options. Where
actions are `Parallel`, step by step, what the first comes to the second comes to as well,
in a context that `Resembles` the first one's (`Action.Parallel.runs`). For that the calls
of the two need only come to the same, so the induction over nested calls is left to the
grammars at hand.
-/

namespace TokenGrammar

structure Likeness where
  /-- Whether they go on at one depth and leave traces of one form. If not, they must have
  no limit on depth. -/
  level : Bool
  names : String → String → Prop
  places : String → String → Prop
  options : Config → Config → Prop
  names_refl : ∀ name, names name name
  places_refl : ∀ place, places place place
  maxDepth : options c c' → c.maxDepth = c'.maxDepth
  unlimited : level = false → options c c' → c.maxDepth = 0
  tracing : options c c' → c.tracing = c'.tracing
  checkTransforms : options c c' → c.checkTransforms = c'.checkTransforms
  /-- Where conversions are checked, the modes are the same, also within the check. -/
  checked : options c c' → c.checkTransforms = true → c.choiceMode = c'.choiceMode ∧
    options { c with tracing := false, checkTransforms := false }
      { c' with tracing := false, checkTransforms := false }

def Likeness.flip (L : Likeness) : Likeness where
  level := L.level
  names name name' := L.names name' name
  places place place' := L.places place' place
  options c c' := L.options c' c
  names_refl := L.names_refl
  places_refl := L.places_refl
  maxDepth h := (L.maxDepth h).symm
  unlimited hlevel h := (L.maxDepth h).symm.trans (L.unlimited hlevel h)
  tracing h := (L.tracing h).symm
  checkTransforms h := (L.checkTransforms h).symm
  checked h hcheck := by
    obtain ⟨hmode, hscratch⟩ := L.checked h ((L.checkTransforms h).trans hcheck)
    exact ⟨hmode.symm, hscratch⟩

variable {P : Type 1} {V : Type} {L : Likeness}

-- ---------------------------------------------------------------------------
-- Contexts
-- ---------------------------------------------------------------------------

inductive Diagnostic.Resembles (places : String → String → Prop) : Diagnostic → Diagnostic → Prop
  | reorder (h : places location location') :
    Resembles places (.reorder location pos chosen chosenConsumed longest longestConsumed)
      (.reorder location' pos chosen chosenConsumed longest longestConsumed)
  | transformLoop : Resembles places (.transformLoop pos message) (.transformLoop pos message)

theorem Diagnostic.Resembles.flip {d d' : Diagnostic} (h : d.Resembles places d') :
    d'.Resembles (fun place place' => places place' place) d := by
  cases h with
  | reorder h => exact .reorder h
  | transformLoop => exact .transformLoop

theorem Diagnostic.Resembles.of_refl (hrefl : ∀ place, places place place) (d : Diagnostic) :
    d.Resembles places d := by
  cases d with
  | reorder location => exact .reorder (hrefl location)
  | transformLoop => exact .transformLoop

theorem Diagnostic.Resembles.eq {d d' : Diagnostic} (h : d.Resembles (· = ·) d') : d = d' := by
  cases h with
  | reorder h => rw [h]
  | transformLoop => rfl

def TraceRecord.Resembles (names : String → String → Prop) (r r' : TraceRecord) : Prop :=
  ∃ name, names r.name name ∧ r' = { r with name }

theorem TraceRecord.Resembles.flip {r r' : TraceRecord} (h : r.Resembles names r') :
    r'.Resembles (fun name name' => names name' name) r := by
  obtain ⟨name, hname, rfl⟩ := h
  exact ⟨r.name, hname, rfl⟩

theorem TraceRecord.Resembles.eq {r r' : TraceRecord} (h : r.Resembles (· = ·) r') : r = r' := by
  obtain ⟨_, rfl, rfl⟩ := h
  rfl

section
variable {α β : Type} {R : α → β → Prop} {xs : List α} {x : α} {y : β}

theorem forall₂_concat {ys : List β} (h : List.Forall₂ R xs ys) (hlast : R x y) :
    List.Forall₂ R (xs ++ [x]) (ys ++ [y]) :=
  List.rel_append h (.cons hlast .nil)

theorem forall₂_of_concat {zs : List β} (h : List.Forall₂ R (xs ++ [x]) zs) :
    ∃ ys y, zs = ys ++ [y] ∧ List.Forall₂ R xs ys ∧ R x y := by
  rw [← List.forall₂_reverse_iff, List.reverse_concat, List.forall₂_cons_left_iff] at h
  obtain ⟨y, ys, hlast, hxs, hzs⟩ := h
  refine ⟨ys.reverse, y, ?_, ?_, hlast⟩
  · rw [← List.reverse_reverse zs, hzs, List.reverse_cons]
  · rwa [← List.forall₂_reverse_iff, List.reverse_reverse]

end

/-- Whether two contexts differ in no more than `L` leaves open. -/
structure Context.Resembles (L : Likeness) (ctx ctx' : Context V) : Prop where
  config : L.options ctx.config ctx'.config
  evaluated : ctx'.evaluated = ctx.evaluated
  failures : ctx'.failures = ctx.failures
  partials : ctx'.partials = ctx.partials
  diagnostics : List.Forall₂ (Diagnostic.Resembles L.places) ctx.diagnostics.toList
    ctx'.diagnostics.toList
  depth : L.level = true → ctx'.depth = ctx.depth
  traces : L.level = true → List.Forall₂ (TraceRecord.Resembles L.names) ctx.traces.toList
    ctx'.traces.toList

namespace Context.Resembles

variable {ctx ctx' : Context V}

theorem flip (h : ctx.Resembles L ctx') : ctx'.Resembles L.flip ctx where
  config := h.config
  evaluated := h.evaluated.symm
  failures := h.failures.symm
  partials := h.partials.symm
  diagnostics := .flip (h.diagnostics.imp fun _ _ => Diagnostic.Resembles.flip)
  depth hlevel := (h.depth hlevel).symm
  traces hlevel := .flip ((h.traces hlevel).imp fun _ _ => TraceRecord.Resembles.flip)

theorem of_options {config : Config} (h : L.options ctx.config config) :
    ctx.Resembles L { ctx with config } where
  config := h
  evaluated := rfl
  failures := rfl
  partials := rfl
  diagnostics := List.forall₂_same.2 fun d _ => .of_refl L.places_refl d
  depth _ := rfl
  traces _ := List.forall₂_same.2 fun r _ => ⟨r.name, L.names_refl _, rfl⟩

theorem traces_eq (h : ctx.Resembles L ctx') (hlevel : L.level = true)
    (hnames : L.names = (· = ·)) : ctx'.traces = ctx.traces := by
  have hsame := (h.traces hlevel).imp fun r r' hr => (hnames ▸ hr).eq
  rw [List.forall₂_eq_eq_eq] at hsame
  exact Array.toList_inj.1 hsame.symm

theorem diagnostics_eq (h : ctx.Resembles L ctx') (hplaces : L.places = (· = ·)) :
    ctx'.diagnostics = ctx.diagnostics := by
  have hsame := h.diagnostics.imp fun d d' hd => (hplaces ▸ hd).eq
  rw [List.forall₂_eq_eq_eq] at hsame
  exact Array.toList_inj.1 hsame.symm

/-- What resembles a context, with its options and depth and with choices at their places,
is that context but for the trace. -/
theorem eq_withTraces (h : ctx.Resembles L ctx') (hplaces : L.places = (· = ·))
    (hconfig : ctx'.config = ctx.config) (hdepth : ctx'.depth = ctx.depth) :
    ctx' = { ctx with traces := ctx'.traces } := by
  have hdiagnostics := h.diagnostics_eq hplaces
  have hevaluated := h.evaluated
  simp only [Context.evaluated, Prod.mk.injEq] at hevaluated
  obtain ⟨htokens, hpos, hremained, hresults⟩ := hevaluated
  have hfailures := h.failures
  have hpartials := h.partials
  cases ctx'
  simp only at hconfig htokens hpos hremained hresults hfailures hdiagnostics hdepth hpartials
  subst hconfig htokens hpos hremained hresults hfailures hdiagnostics hdepth hpartials
  rfl

theorem depth_of_atLimit (h : ctx.Resembles L ctx') (hlimit : ctx.AtLimit) :
    ctx'.depth = ctx.depth := by
  cases hlevel : L.level with
  | true => exact h.depth hlevel
  | false => exact absurd (L.unlimited hlevel h.config) (Nat.ne_of_gt hlimit.1)

theorem atLimit (h : ctx.Resembles L ctx') (hlimit : ctx.AtLimit) : ctx'.AtLimit := by
  have hdepth := h.depth_of_atLimit hlimit
  unfold AtLimit at hlimit ⊢
  rwa [hdepth, ← L.maxDepth h.config]

theorem entered {entered entered' : Context V} (h : ctx.Resembles L ctx')
    (hname : L.names name name') (gate : ctx.enter? name place = .ok entered)
    (gate' : ctx'.enter? name' place = .ok entered') :
    entered.Resembles L entered' := by
  have htraces := enter?_traces gate
  have htraces' := enter?_traces gate'
  obtain ⟨-, traces, rfl⟩ := enter?_ok gate
  obtain ⟨-, traces', rfl⟩ := enter?_ok gate'
  simp only at htraces htraces'
  subst htraces htraces'
  refine ⟨h.config, h.evaluated, h.failures, h.partials, h.diagnostics,
    fun hlevel => congrArg (· + 1) (h.depth hlevel), fun hlevel => ?_⟩
  simp only [← L.tracing h.config]
  split
  · simp only [Array.toList_push, h.depth hlevel]
    exact forall₂_concat (h.traces hlevel) ⟨name', hname, rfl⟩
  · exact h.traces hlevel

theorem enter (h : ctx.Resembles L ctx') (hname : L.names name name') (place : Option Position) :
    (∃ refusal, ctx.enter? name place = .error refusal ∧
      ctx'.enter? name' place = .error refusal) ∨
    ∃ entered entered', ctx.enter? name place = .ok entered ∧
      ctx'.enter? name' place = .ok entered' ∧ entered.Resembles L entered' := by
  by_cases hlimit : ctx.AtLimit
  · have hrefused' := enter?_of_atLimit (h.atLimit hlimit) name' place
    rw [h.depth_of_atLimit hlimit, ← L.maxDepth h.config] at hrefused'
    exact .inl ⟨_, enter?_of_atLimit hlimit name place, hrefused'⟩
  · obtain ⟨entered, gate⟩ := exists_enter? hlimit name place
    obtain ⟨entered', gate'⟩ :=
      exists_enter? (fun hlimit' => hlimit (h.flip.atLimit hlimit')) name' place
    exact .inr ⟨entered, entered', gate, gate', h.entered hname gate gate'⟩

theorem logFailure (h : ctx.Resembles L ctx') (failure : Failure) (fallback : Option Position) :
    (ctx.logFailure failure fallback).Resembles L (ctx'.logFailure failure fallback) :=
  { h with failures := congrArg (Array.push · (failure.orAt fallback)) h.failures }

theorem report (h : ctx.Resembles L ctx') (hfinding : finding.Resembles L.places finding') :
    (ctx.report finding).Resembles L (ctx'.report finding') := by
  refine { h with diagnostics := ?_ }
  simp only [Context.report, Array.toList_push]
  exact forall₂_concat h.diagnostics hfinding

theorem clearPartials (h : ctx.Resembles L ctx') :
    { ctx with partials := [] }.Resembles L { ctx' with partials := [] } :=
  { h with partials := rfl }

theorem keepPartials (h : ctx.Resembles L ctx') (produced : List (Token V)) :
    { ctx with partials := produced ++ ctx.partials }.Resembles L
      { ctx' with partials := produced ++ ctx'.partials } :=
  { h with partials := congrArg (produced ++ ·) h.partials }

theorem configure (h : ctx.Resembles L ctx')
    (hchange : ∀ c c', L.options c c' → L.options (change c) (change' c')) :
    (ctx.configure change).Resembles L (ctx'.configure change') :=
  { h with config := hchange _ _ h.config }

theorem scratch (h : ctx.Resembles L ctx') (hchecks : ctx.config.checkTransforms = true) :
    ctx.scratch.Resembles L ctx'.scratch where
  config := (L.checked h.config hchecks).2
  evaluated := rfl
  failures := rfl
  partials := rfl
  diagnostics := .nil
  depth _ := rfl
  traces _ := .nil

theorem checks (h : ctx.Resembles L ctx') (hchecks : ctx.Checks converted) :
    ctx'.Checks converted := by
  simp only [Checks, checksTransforms, Bool.and_eq_true, decide_eq_true_eq] at hchecks ⊢
  obtain ⟨⟨hmode, hon⟩, hne⟩ := hchecks
  exact ⟨⟨(L.checked h.config hon).1 ▸ hmode, L.checkTransforms h.config ▸ hon⟩, hne⟩

variable [TokenValue V]

theorem afterCheck (h : ctx.Resembles L ctx') :
    (ctx.afterCheck location converted o).Resembles L (ctx'.afterCheck location converted o) := by
  unfold Context.afterCheck
  split
  · exact h.report .transformLoop
  · exact h

omit [TokenValue V] in
theorem latest (h : ctx.Resembles L ctx') (hlevel : L.level = true) :
    ctx.traces.back? = none ∧ ctx'.traces.back? = none ∨
    ∃ (records records' : Array TraceRecord) (last last' : TraceRecord),
      ctx.traces = records.push last ∧
      ctx'.traces = records'.push last' ∧ last.Resembles L.names last' ∧
      List.Forall₂ (TraceRecord.Resembles L.names) records.toList records'.toList := by
  have htraces := h.traces hlevel
  rcases List.eq_nil_or_concat ctx.traces.toList with hnil | ⟨records, last, hlast⟩
  · have hnil' : ctx'.traces.toList = [] := by
      rwa [hnil, List.forall₂_nil_left_iff] at htraces
    exact .inl ⟨by simpa using hnil, by simpa using hnil'⟩
  · rw [hlast, List.concat_eq_append] at htraces
    obtain ⟨records', last', hlast', hrecords, hboth⟩ := forall₂_of_concat htraces
    refine .inr ⟨records.toArray, records'.toArray, last, last', ?_, ?_, hboth, hrecords⟩
    · exact Array.toList_inj.1 (by simp [hlast])
    · exact Array.toList_inj.1 (by simp [hlast'])

theorem recordOutcome (h : ctx.Resembles L ctx') (hname : L.names name name')
    (hlevel : L.level = true) : List.Forall₂ (TraceRecord.Resembles L.names)
      (ctx.recordOutcome name place mark o).traces.toList
      (ctx'.recordOutcome name' place mark o).traces.toList := by
  have htraces := h.traces hlevel
  have hsize : ctx'.traces.size = ctx.traces.size := htraces.length_eq.symm
  have hown : List.Forall₂ (TraceRecord.Resembles L.names)
      (ctx.record ⟨.ending false o.isMatch, ctx.depth - 1, name, place, o.render⟩).traces.toList
      (ctx'.record
        ⟨.ending false o.isMatch, ctx'.depth - 1, name', place, o.render⟩).traces.toList := by
    simp only [Context.record, Array.toList_push, h.depth hlevel]
    exact forall₂_concat htraces ⟨name', hname, rfl⟩
  unfold Context.recordOutcome
  rw [← L.tracing h.config, hsize]
  split
  · cases ctx.traces.size == mark with
    | false => exact hown
    | true =>
      rcases h.latest hlevel with ⟨hnone, hnone'⟩ |
        ⟨records, records', last, _, hlast, hlast', ⟨n, hn, rfl⟩, hrecords⟩
      · simp only [hnone, hnone']
        exact hown
      · simp only [hlast, hlast', Array.back?_push, Array.pop_push, Array.toList_push]
        exact forall₂_concat hrecords ⟨n, hn, rfl⟩
  · exact htraces

theorem leave (h : ctx.Resembles L ctx') (hname : L.names name name')
    (hmark : L.level = true → mark' = mark) :
    (ctx.leave name place mark o).Resembles L (ctx'.leave name' place mark' o) := by
  have hrecord : L.level = true → List.Forall₂ (TraceRecord.Resembles L.names)
      (ctx.leave name place mark o).traces.toList
      (ctx'.leave name' place mark' o).traces.toList := by
    intro hlevel
    rw [hmark hlevel]
    exact h.recordOutcome hname hlevel
  obtain ⟨traces, heq⟩ := leave_eq ctx name place mark o
  obtain ⟨traces', heq'⟩ := leave_eq ctx' name' place mark' o
  rw [heq, heq'] at hrecord ⊢
  exact { h with
    depth := fun hlevel => congrArg (· - 1) (h.depth hlevel)
    traces := hrecord }

end Context.Resembles

-- ---------------------------------------------------------------------------
-- Actions
-- ---------------------------------------------------------------------------

/-- Whether two actions take the same steps, up to what `L` leaves open, where `R` relates
the parsers that they call. Changes of the options must keep them alike. An action may ask
for the mode where the other does not, if it then goes on like the other. -/
inductive Action.Parallel (L : Likeness) (R : P → P → Prop) :
    {α : Type} → Action P V α → Action P V α → Prop
  | done : Parallel L R (.done x) (.done x)
  | call (hp : R p p') (hnext : ∀ o, Parallel L R (next o) (next' o)) :
    Parallel L R (.call p input next) (.call p' input next')
  | guarded (hname : L.names name name') (hregion : Parallel L R region region')
      (hnext : ∀ o, Parallel L R (next o) (next' o)) :
    Parallel L R (.guarded name input region next) (.guarded name' input region' next')
  | client (hcode : Parallel L R code code') (hnext : ∀ r, Parallel L R (next r) (next' r)) :
    Parallel L R (.client code next) (.client code' next')
  | askMode (hnext : ∀ c c', L.options c c' →
      Parallel L R (next c.choiceMode) (next' c'.choiceMode)) :
    Parallel L R (.askMode next) (.askMode next')
  | asks (hnext : ∀ c c', L.options c c' → Parallel L R (next c.choiceMode) a') :
    Parallel L R (.askMode next) a'
  | asked (hnext : ∀ c c', L.options c c' → Parallel L R a (next' c'.choiceMode)) :
    Parallel L R a (.askMode next')
  | logFailure {failure : Failure} (hnext : Parallel L R next next') :
    Parallel L R (.logFailure failure fallback next) (.logFailure failure fallback next')
  | report (hfinding : finding.Resembles L.places finding') (hnext : Parallel L R next next') :
    Parallel L R (.report finding next) (.report finding' next')
  | clearPartials (hnext : Parallel L R next next') :
    Parallel L R (.clearPartials next) (.clearPartials next')
  | keepPartials (hnext : Parallel L R next next') :
    Parallel L R (.keepPartials produced next) (.keepPartials produced next')
  | checkReproduction (hp : R p p') (hnext : Parallel L R next next') :
    Parallel L R (.checkReproduction p location converted next)
      (.checkReproduction p' location converted next')
  | configure (hchange : ∀ c c', L.options c c' → L.options (change c) (change' c'))
      (hnext : Parallel L R next next') :
    Parallel L R (.configure change next) (.configure change' next')

/-- Whether what a call of `callee` comes to, the body of any parser that corresponds to the
one called comes to as well. -/
def Action.Callee.FollowedBy [TokenValue V] (callee : Callee (Parser V) V) (L : Likeness)
    (R : Parser V → Parser V → Prop) (rules' : Rules V) : Prop :=
  ∀ ⦃p p' input ctx ctx' o ctx₁⦄, R p p' → ctx.Resembles L ctx' →
    callee p input ctx = some (o, ctx₁) →
    ∃ ctx₁' es, Runs rules' (p'.body rules' input) ctx' o ctx₁' es ∧ ctx₁.Resembles L ctx₁'

namespace Action.Parallel

theorem flip {R : P → P → Prop} {a a' : Action P V α} (h : a.Parallel L R a') :
    a'.Parallel L.flip (fun p p' => R p' p) a := by
  induction h with
  | done => exact .done
  | call hp _ ih => exact .call hp ih
  | guarded hname _ _ ihRegion ih => exact .guarded hname ihRegion ih
  | client _ _ ihCode ih => exact .client ihCode ih
  | askMode _ ih => exact .askMode fun c c' hc => ih c' c hc
  | asks _ ih => exact .asked fun c c' hc => ih c' c hc
  | asked _ ih => exact .asks fun c c' hc => ih c' c hc
  | logFailure _ ih => exact .logFailure ih
  | report hfinding _ ih => exact .report hfinding.flip ih
  | clearPartials _ ih => exact .clearPartials ih
  | keepPartials _ ih => exact .keepPartials ih
  | checkReproduction hp _ ih => exact .checkReproduction hp ih
  | configure hchange _ ih => exact .configure (fun c c' hc => hchange c' c hc) ih

variable [TokenValue V] {rules' : Rules V} {R : Parser V → Parser V → Prop}

/-- What the first of two actions comes to, the second comes to as well, if that holds of
their calls. -/
theorem runs {callee : Action.Callee (Parser V) V} (hcallee : callee.FollowedBy L R rules')
    {a a' : Action (Parser V) V α} (h : a.Parallel L R a') (hctx : ctx.Resembles L ctx')
    (hexec : a.exec callee ctx = some (x, ctx₁)) :
    ∃ ctx₁' es, Runs rules' a' ctx' x ctx₁' es ∧ ctx₁.Resembles L ctx₁' := by
  induction h generalizing ctx ctx' ctx₁ with
  | done =>
    obtain ⟨rfl, rfl⟩ := Prod.mk.inj (Option.some.inj hexec)
    exact ⟨ctx', [], .done, hctx⟩
  | call hp _ ih =>
    simp only [Action.exec] at hexec
    split at hexec
    · contradiction
    · next hcall =>
      obtain ⟨_, _, hparse, hctx₁⟩ := hcallee hp hctx hcall
      obtain ⟨_, _, hrest, hctx₂⟩ := ih _ hctx₁ hexec
      exact ⟨_, _, .call hparse hrest, hctx₂⟩
  | guarded hname _ _ ihRegion ih =>
    simp only [Action.exec] at hexec
    rcases hctx.enter hname (firstPos _) with
      ⟨refusal, gate, gate'⟩ | ⟨entered, entered', gate, gate', hentered⟩
    · rw [gate] at hexec
      obtain ⟨_, _, hrest, hctx₁⟩ := ih _ hctx hexec
      exact ⟨_, _, .refused gate' hrest, hctx₁⟩
    · rw [gate] at hexec
      simp only at hexec
      split at hexec
      · contradiction
      · next hregion =>
        obtain ⟨_, _, hinside, hctx₁⟩ := ihRegion hentered hregion
        have hmark : L.level = true → entered'.traces.size = entered.traces.size :=
          fun hlevel => (hentered.traces hlevel).length_eq.symm
        obtain ⟨_, _, hrest, hctx₂⟩ := ih _ (hctx₁.leave hname hmark) hexec
        exact ⟨_, _, .guarded gate' hinside hrest, hctx₂⟩
  | client _ _ ihCode ih =>
    simp only [Action.exec] at hexec
    split at hexec
    · contradiction
    · next hcode =>
      obtain ⟨_, _, hinside, hctx₁⟩ := ihCode hctx hcode
      obtain ⟨_, _, hrest, hctx₂⟩ := ih _ hctx₁ hexec
      exact ⟨_, _, .client hinside hrest, hctx₂⟩
  | askMode _ ih =>
    obtain ⟨_, _, hrest, hctx₁⟩ := ih _ _ hctx.config hctx hexec
    exact ⟨_, _, .askMode hrest, hctx₁⟩
  | asks _ ih => exact ih _ _ hctx.config hctx hexec
  | asked _ ih =>
    obtain ⟨_, _, hrest, hctx₁⟩ := ih _ _ hctx.config hctx hexec
    exact ⟨_, _, .askMode hrest, hctx₁⟩
  | logFailure _ ih =>
    obtain ⟨_, _, hrest, hctx₁⟩ := ih (hctx.logFailure _ _) hexec
    exact ⟨_, _, .logFailure hrest, hctx₁⟩
  | report hfinding _ ih =>
    obtain ⟨_, _, hrest, hctx₁⟩ := ih (hctx.report hfinding) hexec
    exact ⟨_, _, .report hrest, hctx₁⟩
  | clearPartials _ ih =>
    obtain ⟨_, _, hrest, hctx₁⟩ := ih hctx.clearPartials hexec
    exact ⟨_, _, .clearPartials hrest, hctx₁⟩
  | keepPartials _ ih =>
    obtain ⟨_, _, hrest, hctx₁⟩ := ih (hctx.keepPartials _) hexec
    exact ⟨_, _, .keepPartials hrest, hctx₁⟩
  | checkReproduction hp _ ih =>
    simp only [Action.exec, exec_afterCheck] at hexec
    split at hexec
    · next hon =>
      split at hexec
      · contradiction
      · next hcall =>
        have hchecks : ctx.config.checkTransforms = true := by
          simp only [Context.checksTransforms, Bool.and_eq_true] at hon
          exact hon.1.2
        obtain ⟨_, _, hparse, -⟩ := hcallee hp (hctx.scratch hchecks) hcall
        obtain ⟨_, _, hrest, hctx₁⟩ := ih hctx.afterCheck hexec
        exact ⟨_, _, .checked (hctx.checks hon) hparse hrest, hctx₁⟩
    · next hoff =>
      obtain ⟨_, _, hrest, hctx₁⟩ := ih hctx hexec
      exact ⟨_, _, .unchecked (fun hon => hoff (hctx.flip.checks hon)) hrest, hctx₁⟩
  | configure hchange _ ih =>
    obtain ⟨_, _, hrest, hctx₁⟩ := ih (hctx.configure hchange) hexec
    exact ⟨_, _, .configure hrest, hctx₁⟩

end Action.Parallel

end TokenGrammar
