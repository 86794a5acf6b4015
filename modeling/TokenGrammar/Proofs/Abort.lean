import TokenGrammar.Proofs.Passing
import TokenGrammar.Proofs.Progress
import TokenGrammar.Proofs.Segments

/-!
# An unrecoverable failure ends the parse

Without the parsers that turn a failure into something else, a fatal failure goes
through every parser in progress, each of which gives up at once. So a run that has
just raised one comes to its end (`Begins.ends_of_raise`), and what it ends with is
this failure (`Grammar.fatal_failure_wins`).
-/

namespace TokenGrammar

variable {V : Type}

namespace Event

/-- Whether an event raises a failure. What code of the grammar's author meets counts
if `inside`; what happens in the check of a conversion does not. -/
def Raises (inside : Bool) : Event V → Failure → Prop
  | refused failure, f => failure = f
  | answered failure?, f => failure? = some f
  | ended _ _ outcome, f => outcome = .error f
  | within e, f => inside = true ∧ e.Raises inside f
  | _, _ => False

def Closing : Event V → Prop
  | ended .. | answered _ | logged _ | reported _ => True
  | within e => e.Closing
  | _ => False

def sequence? : Event V → Option (List (Token V))
  | ended (.seq _ _) input _ => some input
  | within e => e.sequence?
  | _ => none

def AfterRaise (inside : Bool) (A : Failure → List (Event V) → Prop) : List (Event V) → Prop
  | [] => True
  | e :: es => (∀ f, f.Fatal → e.Raises inside f → A f es) ∧ AfterRaise inside A es

variable {A B : Failure → List (Event V) → Prop} {es es' : List (Event V)}

theorem AfterRaise.mono (h : AfterRaise inside A es) (himp : ∀ f after, A f after → B f after) :
    AfterRaise inside B es := by
  induction es with
  | nil => trivial
  | cons e es ih => exact ⟨fun f hf hraise => himp _ _ (h.1 f hf hraise), ih h.2⟩

theorem AfterRaise.append (h : AfterRaise inside (fun f after => B f (after ++ es')) es)
    (h' : AfterRaise inside B es') : AfterRaise inside B (es ++ es') := by
  induction es with
  | nil => exact h'
  | cons e es ih => exact ⟨h.1, ih h.2⟩

theorem AfterRaise.of_none (h : ∀ e ∈ es, ∀ f, ¬ Raises inside e f) :
    AfterRaise inside A es := by
  induction es with
  | nil => trivial
  | cons e es ih =>
    obtain ⟨he, hes⟩ := List.forall_mem_cons.1 h
    exact ⟨fun f _ hraise => absurd hraise (he f), ih hes⟩

theorem AfterRaise.map_within
    (h : inside = true → AfterRaise inside (fun f after => A f (after.map within)) es) :
    AfterRaise inside A (es.map within) := by
  induction es with
  | nil => trivial
  | cons e es ih =>
    exact ⟨fun f hf hraise => (h hraise.1).1 f hf hraise.2, ih fun hinside => (h hinside).2⟩

theorem AfterRaise.split (h : AfterRaise inside A (before ++ e :: after)) (hf : Failure.Fatal f)
    (hraise : Raises inside e f) : A f after := by
  induction before with
  | nil => exact h.1 f hf hraise
  | cons e before ih => exact ih h.2

def LastRaises (inside : Bool) (es : List (Event V)) (f : Failure) : Prop :=
  ∃ e ∈ es.getLast?, e.Raises inside f

@[simp] theorem lastRaises_nil : ¬ LastRaises (V := V) inside [] f := by
  simp [LastRaises]

@[simp] theorem lastRaises_append : LastRaises inside (es ++ es') f ↔
    LastRaises inside es' f ∨ es' = [] ∧ LastRaises inside es f := by
  rcases es'.eq_nil_or_concat with rfl | ⟨init, last, rfl⟩
  · simp [LastRaises]
  · simp [LastRaises]

@[simp] theorem lastRaises_cons : LastRaises inside (e :: es) f ↔
    LastRaises inside es f ∨ es = [] ∧ e.Raises inside f := by
  rw [← List.singleton_append, lastRaises_append]
  simp [LastRaises]

theorem lastRaises_map_within :
    LastRaises inside (es.map within) f ↔ inside = true ∧ LastRaises inside es f := by
  simp only [LastRaises, List.getLast?_map, Option.mem_def, Option.map_eq_some_iff]
  constructor
  · rintro ⟨_, ⟨e, he, rfl⟩, hinside, hraise⟩
    exact ⟨hinside, e, he, hraise⟩
  · rintro ⟨hinside, e, he, hraise⟩
    exact ⟨_, ⟨e, he, rfl⟩, hinside, hraise⟩

theorem not_lastRaises_map_scratch : ¬ LastRaises inside (es.map scratch) f := by
  simp only [LastRaises, List.getLast?_map, Option.mem_def, Option.map_eq_some_iff]
  rintro ⟨_, ⟨e, -, rfl⟩, hraise⟩
  exact hraise

theorem not_lastRaises_ofCheck [TokenValue V] {o : Outcome V} :
    ¬ LastRaises inside (ofCheck location converted o) f := by
  unfold ofCheck
  split
  · simp [Raises]
  · simp

theorem AfterRaise.of_last (h : AfterRaise inside A (es ++ after)) (hf : Failure.Fatal f)
    (hlast : LastRaises inside es f) : A f after := by
  obtain ⟨e, he, hraise⟩ := hlast
  obtain ⟨before, rfl⟩ := List.getLast?_eq_some_iff.1 he
  rw [List.append_assoc] at h
  exact h.split hf hraise

theorem AfterRaise.at_last (h : AfterRaise inside A es) (hf : Failure.Fatal f)
    (hlast : LastRaises inside es f) : A f [] := by
  rw [← List.append_nil es] at h
  exact h.of_last hf hlast

end Event

-- ---------------------------------------------------------------------------
-- Runs
-- ---------------------------------------------------------------------------

theorem Failure.orAt_orAt (f : Failure) (first second : Option Position) :
    (f.orAt first).orAt second = f.orAt first ∨ (f.orAt first).orAt second = f.orAt second := by
  cases f with
  | single fault pos => cases pos <;> cases first <;> simp [orAt]
  | joined members pos => cases pos <;> cases first <;> simp [orAt]

/-- Whether `g` is `f`, or `f` at the place that a sequence which returned gave it. -/
def Event.Filled (after : List (Event V)) (f g : Failure) : Prop :=
  g = f ∨ ∃ e ∈ after, ∃ whole, e.sequence? = some whole ∧ g = f.orAt (endPos whole)

theorem Event.Filled.ended {p : Parser V} {after : List (Event V)} (h : Event.Filled after f g)
    (hplaces : p.Places input g g') (es : List (Event V)) :
    Event.Filled (after ++ .ended p input o :: es) f g' := by
  have hmem : .ended p input o ∈ after ++ .ended p input o :: es :=
    List.mem_append_right _ List.mem_cons_self
  rcases hplaces with rfl | ⟨⟨label, parts, rfl⟩, rfl⟩
  · rcases h with rfl | ⟨e, he, whole, hsequence, hg⟩
    · exact .inl rfl
    · exact .inr ⟨e, List.mem_append_left _ he, whole, hsequence, hg⟩
  · rcases h with rfl | ⟨e, he, whole, hsequence, rfl⟩
    · exact .inr ⟨_, hmem, input, rfl, rfl⟩
    · rcases f.orAt_orAt (endPos whole) (endPos input) with hfirst | hsecond
      · exact .inr ⟨e, List.mem_append_left _ he, whole, hsequence, hfirst⟩
      · exact .inr ⟨_, hmem, input, rfl, hsecond⟩

theorem Event.Filled.append {after : List (Event V)} (h : Event.Filled after f g)
    (es : List (Event V)) : Event.Filled (after ++ es) f g :=
  h.imp id fun ⟨e, he, hwhole⟩ => ⟨e, List.mem_append_left _ he, hwhole⟩

theorem Event.Filled.within {after : List (Event V)} (h : Event.Filled after f g)
    (es : List (Event V)) : Event.Filled (after.map within ++ es) f g :=
  h.imp id fun ⟨e, he, hwhole⟩ =>
    ⟨.within e, List.mem_append_left _ (List.mem_map_of_mem he), hwhole⟩

/-- What follows where a fatal failure `f` was raised: the answer is the one for `f` or
for `f` at a place, and everything comes to its end. -/
def Event.Aborts (rel : Failure → α → Prop) (x : α) (f : Failure) (after : List (Event V)) :
    Prop :=
  ∃ g, g.Fatal ∧ Event.Filled after f g ∧ rel g x ∧ ∀ e ∈ after, e.Closing

variable [TokenValue V] {rules : Rules V}

theorem Runs.givesUp (h : Runs rules a ctx x ctx' es) (ha : a.GivesUp ends) :
    ends x ∧ ∀ e ∈ es, e.Closing := by
  induction h with
  | done => exact ⟨ha, nofun⟩
  | logFailure _ ih | report _ ih =>
    obtain ⟨hends, hes⟩ := ih ha
    exact ⟨hends, List.forall_mem_cons.2 ⟨trivial, hes⟩⟩
  | clearPartials _ ih | keepPartials _ ih => exact ih ha
  | _ => exact ha.elim

/-- A fatal failure that a run raises decides its answer, and nothing new begins. -/
theorem Runs.afterRaise {G : Grammar V}
    (hG : ∀ p ∈ G, ∀ input, (p.body G.rules input).PassesOn inside
      fun f o => ∃ g, o = .error g ∧ p.Places input f g)
    (h : Runs G.rules a ctx x ctx' es) (ha : a.Only (fun _ => True) (· ∈ G))
    (hpass : a.PassesOn inside rel) : Event.AfterRaise inside (Event.Aborts rel x) es := by
  induction h with
  | done => trivial
  | call _ rest ihParse ih =>
    obtain ⟨hfail, hnext⟩ := hpass
    have hinner := ihParse (Grammar.calls_only ha.1 _) (hG _ ha.1 _)
    refine Event.AfterRaise.append ⟨nofun, Event.AfterRaise.append ?_ ⟨?_, trivial⟩⟩
      (ih (ha.2 _) (hnext _))
    · refine hinner.mono ?_
      rintro f after ⟨g, hg, hfilled, ⟨g', rfl, hplaces⟩, hclosing⟩
      obtain ⟨hx, hes⟩ := rest.givesUp (hfail g' (hplaces.fatal hg))
      rw [List.append_assoc]
      exact ⟨g', hplaces.fatal hg, hfilled.ended hplaces _, hx,
        List.forall_mem_append.2 ⟨hclosing, List.forall_mem_cons.2 ⟨trivial, hes⟩⟩⟩
    · rintro f hf rfl
      obtain ⟨hx, hes⟩ := rest.givesUp (hfail f hf)
      exact ⟨f, hf, .inl rfl, hx, hes⟩
  | refused _ rest ih =>
    obtain ⟨-, hfail, hnext⟩ := hpass
    refine ⟨?_, ih (ha.2 _) (hnext _)⟩
    rintro f hf rfl
    obtain ⟨hx, hes⟩ := rest.givesUp (hfail _ hf)
    exact ⟨_, hf, .inl rfl, hx, hes⟩
  | guarded _ _ rest ihInside ih =>
    obtain ⟨hregion, -, hnext⟩ := hpass
    refine ⟨nofun, Event.AfterRaise.append ?_ (ih (ha.2 _) (hnext _))⟩
    refine (ihInside ha.1 hregion).mono ?_
    rintro f after ⟨g, hg, hfilled, hgive, hclosing⟩
    obtain ⟨hx, hes⟩ := rest.givesUp hgive
    exact ⟨g, hg, hfilled.append _, hx, List.forall_mem_append.2 ⟨hclosing, hes⟩⟩
  | client _ rest ihInside ih =>
    obtain ⟨hcode, hfail, hnext⟩ := hpass
    refine ⟨nofun, Event.AfterRaise.append (Event.AfterRaise.map_within fun hinside => ?_)
      ⟨?_, ih (ha.2 _) (hnext _)⟩⟩
    · refine (ihInside ha.1 (hcode hinside)).mono ?_
      rintro f after ⟨g, hg, hfilled, hgive, hclosing⟩
      obtain ⟨hx, hes⟩ := rest.givesUp hgive
      exact ⟨g, hg, hfilled.within _, hx, List.forall_mem_append.2
        ⟨List.forall_mem_map.2 hclosing, List.forall_mem_cons.2 ⟨trivial, hes⟩⟩⟩
    · intro f hf hanswer
      obtain rfl := Event.failure?_eq_some.1 hanswer
      obtain ⟨hx, hes⟩ := rest.givesUp (hfail f hf)
      exact ⟨f, hf, .inl rfl, hx, hes⟩
  | askMode _ ih => exact ih (ha.2 _) (hpass _)
  | logFailure _ ih | report _ ih => exact ⟨nofun, ih ha.2 hpass⟩
  | clearPartials _ ih | keepPartials _ ih | configure _ ih => exact ih ha.2 hpass
  | unchecked _ _ ih => exact ih ha.2.2 hpass
  | checked _ _ _ _ ih =>
    refine Event.AfterRaise.append (Event.AfterRaise.of_none ?_) (ih ha.2.2 hpass)
    intro e he f hraise
    rcases List.mem_append.1 he with hscratch | hcheck
    · obtain ⟨_, -, rfl⟩ := List.mem_map.1 hscratch
      exact hraise
    · unfold Event.ofCheck at hcheck
      split at hcheck
      · obtain rfl := List.mem_singleton.1 hcheck
        exact hraise
      · contradiction

theorem Action.GivesUp.runs {a : Action (Parser V) V α} (h : a.GivesUp ends) (ctx : Context V) :
    ∃ x ctx' es, Runs rules a ctx x ctx' es := by
  induction a generalizing ctx with
  | done x => exact ⟨_, _, _, .done⟩
  | logFailure _ _ next ih =>
    obtain ⟨_, _, _, hrun⟩ := ih h _
    exact ⟨_, _, _, .logFailure hrun⟩
  | report _ next ih =>
    obtain ⟨_, _, _, hrun⟩ := ih h _
    exact ⟨_, _, _, .report hrun⟩
  | clearPartials next ih =>
    obtain ⟨_, _, _, hrun⟩ := ih h _
    exact ⟨_, _, _, .clearPartials hrun⟩
  | keepPartials _ next ih =>
    obtain ⟨_, _, _, hrun⟩ := ih h _
    exact ⟨_, _, _, .keepPartials hrun⟩
  | _ => exact h.elim

theorem Begins.ends_of_raise {G : Grammar V}
    (hG : ∀ p ∈ G, ∀ input, (p.body G.rules input).PassesOn inside
      fun f o => ∃ g, o = .error g ∧ p.Places input f g)
    (h : Begins G.rules a ctx es) (ha : a.Only (fun _ => True) (· ∈ G))
    (hpass : a.PassesOn inside rel) (hf : Failure.Fatal f)
    (hlast : Event.LastRaises inside es f) :
    ∃ x ctx' after, Runs G.rules a ctx x ctx' (es ++ after) := by
  induction h with
  | stopped => exact absurd hlast Event.lastRaises_nil
  | calling _ ih =>
    obtain ⟨hfail, -⟩ := hpass
    have hlast := (Event.lastRaises_cons.1 hlast).resolve_right fun h => h.2
    obtain ⟨o, ctx₁, after, hrun⟩ := ih (Grammar.calls_only ha.1 _) (hG _ ha.1 _) hlast
    obtain ⟨g, hg, -, ⟨g', rfl, hplaces⟩, -⟩ :=
      (hrun.afterRaise hG (Grammar.calls_only ha.1 _) (hG _ ha.1 _)).of_last hf hlast
    obtain ⟨x, ctx', es', hrest⟩ := (hfail g' (hplaces.fatal hg)).runs ctx₁
    exact ⟨x, ctx', _, by simpa [Event.span] using Runs.call hrun hrest⟩
  | called parse _ ih =>
    obtain ⟨hfail, hnext⟩ := hpass
    rcases Event.lastRaises_append.1 hlast with hlast | ⟨rfl, hlast⟩
    · obtain ⟨x, ctx', after, hrest⟩ := ih (ha.2 _) (hnext _) hlast
      exact ⟨x, ctx', after, by simpa using Runs.call parse hrest⟩
    · obtain rfl : _ = Except.error f := by simpa [Event.span, Event.Raises] using hlast
      obtain ⟨x, ctx', es', hrest⟩ := (hfail f hf).runs _
      exact ⟨x, ctx', es', by simpa using Runs.call parse hrest⟩
  | refused gate _ ih =>
    obtain ⟨-, hfail, hnext⟩ := hpass
    rcases Event.lastRaises_cons.1 hlast with hlast | ⟨rfl, hraise⟩
    · obtain ⟨x, ctx', after, hrest⟩ := ih (ha.2 _) (hnext _) hlast
      exact ⟨x, ctx', after, .refused gate hrest⟩
    · obtain rfl := hraise
      obtain ⟨x, ctx', es', hrest⟩ := (hfail _ hf).runs _
      exact ⟨x, ctx', es', .refused gate hrest⟩
  | entering gate _ ih =>
    obtain ⟨hregion, -⟩ := hpass
    have hlast := (Event.lastRaises_cons.1 hlast).resolve_right fun h => h.2
    obtain ⟨o, ctx₁, after, hrun⟩ := ih ha.1 hregion hlast
    obtain ⟨g, -, -, hgive, -⟩ := (hrun.afterRaise hG ha.1 hregion).of_last hf hlast
    obtain ⟨x, ctx', es', hrest⟩ := hgive.runs _
    exact ⟨x, ctx', _, by simpa using Runs.guarded gate hrun hrest⟩
  | guarded gate inside _ ih =>
    obtain ⟨hregion, -, hnext⟩ := hpass
    have hlast := (Event.lastRaises_cons.1 hlast).resolve_right fun h => h.2
    rcases Event.lastRaises_append.1 hlast with hlast | ⟨rfl, hlast⟩
    · obtain ⟨x, ctx', after, hrest⟩ := ih (ha.2 _) (hnext _) hlast
      exact ⟨x, ctx', after, by simpa using Runs.guarded gate inside hrest⟩
    · rw [List.append_nil] at hlast
      obtain ⟨g, -, -, hgive, -⟩ := (inside.afterRaise hG ha.1 hregion).at_last hf hlast
      obtain ⟨x, ctx', es', hrest⟩ := hgive.runs _
      exact ⟨x, ctx', es', by simpa using Runs.guarded gate inside hrest⟩
  | invoking _ ih =>
    obtain ⟨hcode, -⟩ := hpass
    have hlast := (Event.lastRaises_cons.1 hlast).resolve_right fun h => h.2
    obtain ⟨hinside, hlast⟩ := Event.lastRaises_map_within.1 hlast
    obtain ⟨r, ctx₁, after, hrun⟩ := ih ha.1 (hcode hinside) hlast
    obtain ⟨g, -, -, hgive, -⟩ := (hrun.afterRaise hG ha.1 (hcode hinside)).of_last hf hlast
    obtain ⟨x, ctx', es', hrest⟩ := hgive.runs ctx₁
    exact ⟨x, ctx', _, by simpa using Runs.client hrun hrest⟩
  | client inside _ ih =>
    obtain ⟨-, hfail, hnext⟩ := hpass
    have hlast := (Event.lastRaises_cons.1 hlast).resolve_right fun h => h.2
    have hlast := (Event.lastRaises_append.1 hlast).resolve_right fun h => List.cons_ne_nil _ _ h.1
    rcases Event.lastRaises_cons.1 hlast with hlast | ⟨rfl, hanswer⟩
    · obtain ⟨x, ctx', after, hrest⟩ := ih (ha.2 _) (hnext _) hlast
      exact ⟨x, ctx', after, by simpa using Runs.client inside hrest⟩
    · obtain rfl := Event.failure?_eq_some.1 hanswer
      obtain ⟨x, ctx', es', hrest⟩ := (hfail f hf).runs _
      exact ⟨x, ctx', es', by simpa using Runs.client inside hrest⟩
  | askMode _ ih =>
    obtain ⟨x, ctx', after, hrest⟩ := ih (ha.2 _) (hpass _) hlast
    exact ⟨x, ctx', after, .askMode hrest⟩
  | logFailure _ ih =>
    have hlast := (Event.lastRaises_cons.1 hlast).resolve_right fun h => h.2
    obtain ⟨x, ctx', after, hrest⟩ := ih ha.2 hpass hlast
    exact ⟨x, ctx', after, .logFailure hrest⟩
  | report _ ih =>
    have hlast := (Event.lastRaises_cons.1 hlast).resolve_right fun h => h.2
    obtain ⟨x, ctx', after, hrest⟩ := ih ha.2 hpass hlast
    exact ⟨x, ctx', after, .report hrest⟩
  | clearPartials _ ih =>
    obtain ⟨x, ctx', after, hrest⟩ := ih ha.2 hpass hlast
    exact ⟨x, ctx', after, .clearPartials hrest⟩
  | keepPartials _ ih =>
    obtain ⟨x, ctx', after, hrest⟩ := ih ha.2 hpass hlast
    exact ⟨x, ctx', after, .keepPartials hrest⟩
  | configure _ ih =>
    obtain ⟨x, ctx', after, hrest⟩ := ih ha.2 hpass hlast
    exact ⟨x, ctx', after, .configure hrest⟩
  | unchecked off _ ih =>
    obtain ⟨x, ctx', after, hrest⟩ := ih ha.2.2 hpass hlast
    exact ⟨x, ctx', after, .unchecked off hrest⟩
  | checking _ _ _ => exact absurd hlast Event.not_lastRaises_map_scratch
  | checked on parse _ ih =>
    rcases Event.lastRaises_append.1 hlast with hlast | ⟨-, hlast⟩
    · obtain ⟨x, ctx', after, hrest⟩ := ih ha.2.2 hpass hlast
      exact ⟨x, ctx', after, by simpa using Runs.checked on parse hrest⟩
    · rcases Event.lastRaises_append.1 hlast with hlast | ⟨-, hlast⟩
      · exact absurd hlast Event.not_lastRaises_ofCheck
      · exact absurd hlast Event.not_lastRaises_map_scratch

/-- Where no parser goes on after failures of any kind, a parse in progress that raises
an unrecoverable fault comes to its end. The fault is what it fails with, and nothing
begins any more. Its place stays too, but a sequence may give it one. If `inside`, this
is said also of faults raised while code of the grammar's author runs, provided that
this code passes them on. -/
theorem Grammar.fatal_failure_wins {G : Grammar V} (hkeeps : ∀ p ∈ G, p.hidesFailures = false)
    (hclients : inside = true → ∀ p ∈ G, p.Clients (·.PassesOn inside fun f r => r = .error f))
    (hp : p ∈ G) (h : Begins G.rules (Action.parse p input) ctx (before ++ [e]))
    (hraise : e.Raises inside (.single fault pos)) (hfatal : fault.kind.isRecoverable = false) :
    (∃ o ctx' after, Parses G.rules p input ctx o ctx' (before ++ e :: after)) ∧
      ∀ o ctx' after, Parses G.rules p input ctx o ctx' (before ++ e :: after) →
        ∃ pos', o = .error (.single fault pos') ∧
          (pos' = pos ∨ pos = none ∧ ∃ e ∈ after, ∃ whole, e.sequence? = some whole ∧
            pos' = endPos whole) ∧
          ∀ e ∈ after, e.Closing := by
  have hG : ∀ p ∈ G, ∀ input, (p.body G.rules input).PassesOn inside
      fun f o => ∃ g, o = .error g ∧ p.Places input f g :=
    fun p hp input =>
      Parser.body_passesOn (hkeeps p hp) (fun hinside => hclients hinside p hp) input
  have hcalls : (Action.parse p input).Only (fun _ => True) (· ∈ G) := ⟨hp, fun _ => trivial⟩
  have hf : (Failure.single fault pos).Fatal := ⟨fault, pos, rfl, hfatal⟩
  constructor
  · have hlast : Event.LastRaises inside (before ++ [e]) (.single fault pos) :=
      ⟨e, by simp, hraise⟩
    obtain ⟨o, ctx', after, hrun⟩ :=
      h.ends_of_raise hG hcalls (Parser.call_passesOn p input) hf hlast
    refine ⟨o, ctx', after, ?_⟩
    rw [List.append_assoc] at hrun
    exact parses_iff.1 hrun
  · intro o ctx' after hparse
    have hafter := (parses_iff.2 hparse).afterRaise hG hcalls (Parser.call_passesOn p input)
    obtain ⟨g, -, hfilled, rfl, hclosing⟩ := hafter.split hf hraise
    rcases hfilled with rfl | ⟨e', he', whole, hsequence, rfl⟩
    · exact ⟨pos, rfl, .inl rfl, hclosing⟩
    · cases pos with
      | none => exact ⟨endPos whole, rfl, .inr ⟨rfl, e', he', whole, hsequence, rfl⟩, hclosing⟩
      | some pos => exact ⟨some pos, rfl, .inl rfl, hclosing⟩

def stopping : Grammar Int64 :=
  let stop : Parser Int64 := Leaf.failing fun _ => .critical "stop" none
  .ofList (fun _ => none)
    [.optional (.oneOf "here" [.seq "pair" [Leaf.take 1 1, stop], Leaf.take 1 1]),
      .oneOf "here" [.seq "pair" [Leaf.take 1 1, stop], Leaf.take 1 1],
      .seq "pair" [Leaf.take 1 1, stop], Leaf.take 1 1, stop]
    (by simp [Parser.parts, Parser.oneOf, Leaf.take, Leaf.failing, stop])
    (by simp [Parser.Clients, Parser.oneOf, Leaf.take, Leaf.failing, Action.succeed,
      Action.failWith, Action.Only, stop])

/-- The fault goes through the sequence, the choice and the optional part. -/
theorem stopping_fatal_failure_wins : ∃ p ∈ stopping, ∃ n pos ctx,
    Parser.run stopping.rules n p (Token.ofTexts ["a"]) (.ofConfig .initial) =
      some (.error (.critical "stop" pos), ctx) := by
  have hkeeps : ∀ p ∈ stopping, p.hidesFailures = false := by
    simp [stopping, Parser.hidesFailures, Parser.oneOf, Leaf.take, Leaf.failing]
  let p : Parser Int64 := .optional (.oneOf "here" [.seq "pair" [Leaf.take 1 1,
    Leaf.failing fun _ => .critical "stop" none], Leaf.take 1 1])
  obtain ⟨o, ctx, es, hparse, hmem⟩ : ∃ o ctx es,
      Parses stopping.rules p (Token.ofTexts ["a"]) (.ofConfig .initial) o ctx es ∧
        .answered (some (.critical "stop" none)) ∈ es :=
    ⟨_, _, _, ⟨_, .guarded rfl (.call (.guarded rfl (.askMode (.call (.guarded rfl
      (.clearPartials (.call (.client .done .done) (.clearPartials (.call (.client .done .done)
        (.keepPartials .done))))) .done) .done)) .done) .done) .done, rfl⟩,
      by simp [Event.span, Event.failure?]⟩
  obtain ⟨before, after, rfl⟩ := List.append_of_mem hmem
  have hclients : false = true → ∀ p ∈ stopping, p.Clients
    (·.PassesOn false fun f r => r = .error f) :=
    fun h => absurd h Bool.false_ne_true
  have hbegins : Begins stopping.rules (Action.parse p (Token.ofTexts ["a"])) (.ofConfig .initial)
      (before ++ [.answered (some (.critical "stop" none))]) := hparse.begins (by simp)
  obtain ⟨-, hends⟩ :=
    Grammar.fatal_failure_wins hkeeps hclients List.mem_cons_self hbegins rfl rfl
  obtain ⟨pos, rfl, -⟩ := hends _ _ _ hparse
  obtain ⟨n, hn⟩ := parses_iff_run.1 ⟨_, hparse⟩
  exact ⟨p, List.mem_cons_self, n, pos, ctx, hn⟩

def seeking : Grammar Int64 :=
  .ofList (fun _ => none)
    [.optional (Leaf.finding (.fail "stop")), Leaf.finding (.fail "stop"), .fail "stop"]
    (by simp [Parser.parts, Leaf.finding])
    (List.forall_mem_cons.2 ⟨trivial, List.forall_mem_cons.2
      ⟨Search.finding_only (by simp), List.forall_mem_singleton.2 trivial⟩⟩)

/-- Code that does not pass a fault on may lose it: a search goes past what it takes for no
match, and fails recoverably at the end. -/
theorem seeking_fault_lost : (∀ p ∈ seeking, p.hidesFailures = false) ∧
    ∃ p ∈ seeking, ∃ fault pos ctx es, fault.kind.isRecoverable = false ∧
      Parses seeking.rules p (Token.ofTexts ["a"]) (.ofConfig .initial) (.ok .nothing) ctx es ∧
      ∃ e ∈ es, e.Raises true (.single fault pos) := by
  let place := firstPos [Token.ofRaw (V := Int64) "a" 0]
  refine ⟨by simp [seeking, Parser.hidesFailures, Leaf.finding], _, List.mem_cons_self,
    .critical "stop", place, _, _, rfl,
    ⟨_, .guarded rfl (.call (.client (.call .done .done) .done) .done) .done, rfl⟩, ?_⟩
  exact ⟨.within (.ended (.fail "stop") [Token.ofRaw "a" 0] (.error (.critical "stop" place))),
    by simp [Event.span, place], rfl, rfl⟩

end TokenGrammar
