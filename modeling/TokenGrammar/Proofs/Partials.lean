import TokenGrammar.Proofs.Conservation
import TokenGrammar.Proofs.Evaluations

/-!
# What is kept of a failed sequence

A sequence that fails keeps what it produced, before what its failed part kept. Other
parsers leave there whatever the last sequence kept that they tried: a choice and an
optional part also of what they gave up, and a repetition without the matches before. So
an evaluation that fails is left with tokens of its input in their order, but some may be
missing before them (`Gathering.evaluate_results`). None are if no choice and no
repetition fails after an attempt of its own that matched (`Event.Straight`).
-/

namespace TokenGrammar

variable {V : Type}

-- ---------------------------------------------------------------------------
-- Attempts
-- ---------------------------------------------------------------------------

def Parser.retries : Parser V → Bool
  | .choice .. | .repetition .. => true
  | _ => false

namespace Event

def bounds : Event V → Bool
  | started .. | ended .. => true
  | _ => false

/-- The outcomes of the calls in a run, without those inside of these calls. -/
inductive Attempts : List (Event V) → List (Outcome V) → Prop
  | nil : Attempts [] []
  | other (he : e.bounds = false) (rest : Attempts es os) : Attempts (e :: es) os
  | call (inside : Attempts nested attempts) (rest : Attempts es os) :
      Attempts (span p input o nested ++ es) (o :: os)

theorem Attempts.append {es es' : List (Event V)} (h : Attempts es os) (h' : Attempts es' os') :
    Attempts (es ++ es') (os ++ os') := by
  induction h with
  | nil => exact h'
  | other he _ ih => exact .other he ih
  | call inside _ _ ih =>
    rw [List.append_assoc]
    exact .call inside ih

theorem Attempts.skip {es es' : List (Event V)} (hes : ∀ e ∈ es, e.bounds = false)
    (h : Attempts es' os) : Attempts (es ++ es') os := by
  induction es with
  | nil => exact h
  | cons e es ih =>
    obtain ⟨he, hes⟩ := List.forall_mem_cons.1 hes
    exact .other he (ih hes)

theorem bounds_map_within (es : List (Event V)) : ∀ e ∈ es.map within, e.bounds = false :=
  List.forall_mem_map.2 fun _ _ => rfl

theorem bounds_map_scratch (es : List (Event V)) : ∀ e ∈ es.map scratch, e.bounds = false :=
  List.forall_mem_map.2 fun _ _ => rfl

/-- Whether no choice and no repetition fails after one of its own attempts matched. -/
def Straight (es : List (Event V)) : Prop :=
  ∀ p input f nested os, span p input (.error f) nested <:+: es → p.retries = true →
    Attempts nested os → ∀ o ∈ os, o.isMatch = false

theorem Straight.mono {es es' : List (Event V)} (h : Straight es') (hes : es <:+: es') :
    Straight es :=
  fun p input f nested os hspan => h p input f nested os (hspan.trans hes)

theorem Straight.of_cons {es : List (Event V)} (h : Straight (e :: es)) : Straight es :=
  h.mono (List.suffix_cons ..).isInfix

theorem Straight.of_append {es es' : List (Event V)} (h : Straight (es ++ es')) :
    Straight es ∧ Straight es' :=
  ⟨h.mono (List.prefix_append ..).isInfix, h.mono (List.suffix_append ..).isInfix⟩

theorem Straight.of_span {es : List (Event V)} (h : Straight (span p input o es)) :
    Straight es ∧ ∀ os, Attempts es os → p.retries = true → o.isMatch = false →
      ∀ t ∈ os, t.isMatch = false := by
  refine ⟨h.mono ⟨[started p input], [ended p input o], rfl⟩, fun os hos hretries hfail => ?_⟩
  cases o with
  | ok m => cases hfail
  | error f => exact h p input f es os (List.infix_refl _) hretries hos

def startsRetrying : Event V → Bool
  | started p _ => p.retries
  | _ => false

theorem straight_of_forall {es : List (Event V)} (h : ∀ e ∈ es, e.startsRetrying = false) :
    Straight es := by
  intro p input f nested os hspan hretries
  have hstarted := h (started p input) (hspan.subset List.mem_cons_self)
  rw [startsRetrying, hretries] at hstarted
  cases hstarted

end Event

-- ---------------------------------------------------------------------------
-- What an action leaves
-- ---------------------------------------------------------------------------

/-- What a parser leaves kept, where `kept` was before. If it goes `straight` and fails,
that is from the beginning of its input. -/
structure Leavings (straight : Prop) (input kept : List (Token V)) (o : Outcome V)
    (kept' : List (Token V)) : Prop where
  sublist : kept' = kept ∨ kept'.Sublist input
  first : straight → o.isMatch = false → kept' = kept ∨ kept' <+: input

theorem Leavings.refl (straight : Prop) (input kept : List (Token V)) (o : Outcome V) :
    Leavings straight input kept o kept := ⟨.inl rfl, fun _ _ => .inl rfl⟩

/-- What a parser leaves after the attempts `tried`, if it goes straight itself. -/
def Parser.Leaves (straight : Prop) (p : Parser V) (input kept : List (Token V)) (o : Outcome V)
    (kept' : List (Token V)) (tried : List (Outcome V)) : Prop :=
  (straight → p.retries = true → o.isMatch = false → ∀ t ∈ tried, t.isMatch = false) →
    Leavings straight input kept o kept'

variable [TokenValue V]

/-- Whether an action, where `kept` is kept and attempts came out as `tried`, can only end
so that `post` holds of its answer, of what is then kept and of all attempts. It calls
parsers of `K`, and these leave what they may. -/
def Action.Leaves (rules : Rules V) (K : Parser V → Prop) (straight : Prop) :
    {α : Type} → (post : α → List (Token V) → List (Outcome V) → Prop) →
    Action (Parser V) V α → (kept : List (Token V)) → (tried : List (Outcome V)) → Prop
  | _, post, .done x, kept, tried => post x kept tried
  | _, post, .call p input next, kept, tried => K p ∧ ∀ o kept', o.Conserves input →
      Leavings straight input kept o kept' →
        (next o).Leaves rules K straight post kept' (tried ++ [o])
  | _, post, .guarded _ input region next, kept, tried =>
    (∀ depth maxDepth, (next (.error (.stackOverflow depth maxDepth (firstPos input)))).Leaves
      rules K straight post kept tried) ∧
    region.Leaves rules K straight (fun o => (next o).Leaves rules K straight post) kept tried
  | _, post, .client code next, kept, tried => ∀ r kept',
    (∃ ctx ctx' es, Runs rules code ctx r ctx' es ∧ ctx.partials = kept ∧
      ctx'.partials = kept') → (next r).Leaves rules K straight post kept' tried
  | _, post, .askMode next, kept, tried =>
    ∀ mode, (next mode).Leaves rules K straight post kept tried
  | _, post, .clearPartials next, _, tried => next.Leaves rules K straight post [] tried
  | _, post, .keepPartials produced next, kept, tried =>
    next.Leaves rules K straight post (produced ++ kept) tried
  | _, post, .logFailure _ _ next, kept, tried | _, post, .report _ next, kept, tried
  | _, post, .checkReproduction _ _ _ next, kept, tried | _, post, .configure _ next, kept, tried =>
    next.Leaves rules K straight post kept tried

/-- Whether a parser only puts together, under names or not, what other parsers do. -/
def Parser.gathers : Parser V → Bool
  | .leaf _ | .seq .. | .choice .. | .repetition .. | .optional _ | .trace .. | .ref ..
  | .deferred _ => true
  | _ => false

/-- A set of such parsers over leaves that keep the tokens they read. Of a failed sequence
these leave what was kept, or tokens of their own input. -/
structure Gathering (rules : Rules V) (K : Parser V → Prop) : Prop extends
    Conserving rules K where
  gathers : ∀ p, K p → p.gathers = true
  partials : ∀ program, K (.leaf program) → ∀ input ctx o ctx' es,
    Runs rules (program input) ctx o ctx' es →
      Leavings True input ctx.partials o ctx'.partials

variable {rules : Rules V} {K : Parser V → Prop} {straight : Prop}

omit [TokenValue V] in
theorem Context.enter?_partials {ctx entered : Context V}
    (h : ctx.enter? name place = .ok entered) : entered.partials = ctx.partials := by
  obtain ⟨-, _, rfl⟩ := Context.enter?_ok h
  rfl

@[simp] theorem Context.leave_partials (ctx : Context V) :
    (ctx.leave name place mark o).partials = ctx.partials := by
  obtain ⟨_, h⟩ := Context.leave_eq ctx name place mark o
  rw [h]

@[simp] theorem Context.afterCheck_partials (ctx : Context V) :
    (ctx.afterCheck location converted o).partials = ctx.partials := by
  obtain ⟨_, h⟩ := Context.afterCheck_eq ctx location converted o
  rw [h]

theorem Event.bounds_ofCheck {o : Outcome V} :
    ∀ e ∈ ofCheck location converted o, e.bounds = false := by
  unfold ofCheck
  split
  · exact List.forall_mem_singleton.2 rfl
  · exact List.forall_mem_nil _

/-- What a run leaves is what its action may leave, if each parser leaves what it may. -/
theorem Runs.leaves
    (hbody : ∀ p, K p → ∀ input kept,
      (p.body rules input).Leaves rules K straight (p.Leaves straight input kept) kept [])
    (h : Runs rules a ctx x ctx' es) (hkeeps : ∀ e ∈ es, e.Keeps (conserving K))
    (hstraight : straight → Event.Straight es) :
    ∀ post tried, a.Leaves rules K straight post ctx.partials tried →
      ∃ os, Event.Attempts es os ∧ post x ctx'.partials (tried ++ os) := by
  induction h with
  | done => exact fun post tried hpost => ⟨[], .nil, by rwa [List.append_nil]⟩
  | call _ _ ihParse ih =>
    rintro post tried ⟨hp, hnext⟩
    obtain ⟨hspan, hrest⟩ := List.forall_mem_append.1 hkeeps
    obtain ⟨-, hnested, hconserves⟩ := Event.forall_mem_span.1 hspan
    obtain ⟨inner, hinner, hleft⟩ := ihParse hnested
      (fun hs => (hstraight hs).of_append.1.of_span.1) _ _ (hbody _ hp _ _)
    have hleavings := hleft fun hs => (hstraight hs).of_append.1.of_span.2 inner hinner
    obtain ⟨os, hos, hpost⟩ := ih hrest (fun hs => (hstraight hs).of_append.2) _ _
      (hnext _ _ (hconserves hp) hleavings)
    exact ⟨_ :: os, .call hinner hos, by rwa [List.append_cons]⟩
  | refused gate _ ih =>
    rintro post tried ⟨hrefused, -⟩
    obtain ⟨-, rfl⟩ := Context.enter?_error gate
    obtain ⟨os, hos, hpost⟩ := ih (List.forall_mem_cons.1 hkeeps).2
      (fun hs => (hstraight hs).of_cons) _ _ (hrefused _ _)
    exact ⟨os, .other rfl hos, hpost⟩
  | guarded gate _ _ ihInside ih =>
    rintro post tried ⟨-, hregion⟩
    rw [← Context.enter?_partials gate] at hregion
    obtain ⟨hnested, hrest⟩ := List.forall_mem_append.1 (List.forall_mem_cons.1 hkeeps).2
    obtain ⟨inner, hinner, hleft⟩ := ihInside hnested
      (fun hs => (hstraight hs).of_cons.of_append.1) _ _ hregion
    obtain ⟨os, hos, hpost⟩ := ih hrest (fun hs => (hstraight hs).of_cons.of_append.2) _ _
      (by rwa [Context.leave_partials])
    exact ⟨inner ++ os, .other rfl (hinner.append hos), by rwa [← List.append_assoc]⟩
  | client inside _ _ ih =>
    intro post tried hnext
    obtain ⟨os, hos, hpost⟩ := ih
      (List.forall_mem_cons.1 (List.forall_mem_append.1 (List.forall_mem_cons.1 hkeeps).2).2).2
      (fun hs => (hstraight hs).of_cons.of_append.2.of_cons) _ _
      (hnext _ _ ⟨_, _, _, inside, rfl, rfl⟩)
    exact ⟨os, .other rfl (.skip (Event.bounds_map_within _) (.other rfl hos)), hpost⟩
  | askMode _ ih => exact fun post tried hnext => ih hkeeps hstraight _ _ (hnext _)
  | logFailure _ ih | report _ ih =>
    intro post tried hnext
    obtain ⟨os, hos, hpost⟩ := ih (List.forall_mem_cons.1 hkeeps).2
      (fun hs => (hstraight hs).of_cons) _ _ hnext
    exact ⟨os, .other rfl hos, hpost⟩
  | clearPartials _ ih | keepPartials _ ih | unchecked _ _ ih | configure _ ih =>
    exact fun post tried hnext => ih hkeeps hstraight _ _ hnext
  | checked on parse _ _ ih =>
    intro post tried hnext
    rw [← Context.afterCheck_partials] at hnext
    obtain ⟨os, hos, hpost⟩ := ih (List.forall_mem_append.1 hkeeps).2
      (fun hs => (hstraight hs).of_append.2) _ _ hnext
    refine ⟨os, ?_, hpost⟩
    rw [List.append_assoc]
    exact .skip (Event.bounds_map_scratch _) (.skip Event.bounds_ofCheck hos)

-- ---------------------------------------------------------------------------
-- The loops of the parsers
-- ---------------------------------------------------------------------------

structure Trying (straight : Prop) (input kept₀ kept : List (Token V))
    (tried : List (Outcome V)) : Prop where
  sublist : kept = kept₀ ∨ kept.Sublist input
  first : straight → (∀ t ∈ tried, t.isMatch = false) → kept = kept₀ ∨ kept <+: input

namespace Trying

variable {input kept₀ kept : List (Token V)} {tried : List (Outcome V)}

omit [TokenValue V] in
theorem start : Trying straight input kept kept [] := ⟨.inl rfl, fun _ _ => .inl rfl⟩

omit [TokenValue V] in
theorem attempt (h : Trying straight input kept₀ kept tried)
    (hn : (∀ t ∈ tried, t.isMatch = false) → n = 0)
    (hleft : Leavings straight (input.drop n) kept o kept') :
    Trying straight input kept₀ kept' (tried ++ [o]) where
  sublist := by
    rcases hleft.sublist with rfl | hsub
    · exact h.sublist
    · exact .inr (hsub.trans (List.drop_sublist n input))
  first := by
    intro hs hfail
    obtain ⟨htried, ho⟩ := List.forall_mem_append.1 hfail
    rw [hn htried, List.drop_zero] at hleft
    rcases hleft.first hs (ho o List.mem_cons_self) with rfl | hfirst
    · exact h.first hs htried
    · exact .inr hfirst

omit [TokenValue V] in
theorem ends {p : Parser V} (h : Trying straight input kept₀ kept tried)
    (hp : p.retries = true) (o : Outcome V) : p.Leaves straight input kept₀ o kept tried :=
  fun hdirect => ⟨h.sublist, fun hs ho => h.first hs (hdirect hs hp ho)⟩

end Trying

namespace Parser

section
variable {p : Parser V} (hp : p.retries = true) {input kept₀ kept : List (Token V)}
  {tried : List (Outcome V)}
include hp

section
variable {options : List (Parser V)} (hoptions : ∀ q ∈ options, K q)
include hoptions

theorem longestFrom_leaves (h : Trying straight input kept₀ kept tried)
    (best : Option (Match V)) (failures : List Failure) :
    (longestFrom input options best failures).Leaves rules K straight
      (p.Leaves straight input kept₀) kept tried := by
  induction options generalizing kept tried best failures with
  | nil => cases best <;> exact h.ends hp _
  | cons option options ih =>
    obtain ⟨hoption, hrest⟩ := List.forall_mem_cons.1 hoptions
    refine ⟨hoption, fun o kept' _ hleft => ?_⟩
    have htried := h.attempt (fun _ => rfl) hleft
    cases o with
    | ok m => exact ih hrest htried _ _
    | error failure =>
      simp only
      split
      · exact ih hrest htried _ _
      · exact htried.ends hp _

theorem firstFrom_leaves (h : Trying straight input kept₀ kept tried) (failures : List Failure) :
    (firstFrom input options failures).Leaves rules K straight
      (p.Leaves straight input kept₀) kept tried := by
  induction options generalizing kept tried failures with
  | nil => exact h.ends hp _
  | cons option options ih =>
    obtain ⟨hoption, hrest⟩ := List.forall_mem_cons.1 hoptions
    refine ⟨hoption, fun o kept' _ hleft => ?_⟩
    have htried := h.attempt (fun _ => rfl) hleft
    cases o with
    | ok m => exact htried.ends hp _
    | error failure =>
      simp only
      split
      · exact ih hrest htried _
      · exact htried.ends hp _

theorem comparedFrom_leaves (h : Trying straight input kept₀ kept tried) (location : String)
    (number : Nat) (comparison : Option (Comparison V)) (failures : List Failure) :
    (comparedFrom location input options number comparison failures).Leaves rules K straight
      (p.Leaves straight input kept₀) kept tried := by
  induction options generalizing kept tried number comparison failures with
  | nil =>
    cases comparison with
    | none => exact h.ends hp _
    | some c =>
      rw [comparedFrom]
      split <;> exact h.ends hp _
  | cons option options ih =>
    obtain ⟨hoption, hrest⟩ := List.forall_mem_cons.1 hoptions
    refine ⟨hoption, fun o kept' _ hleft => ?_⟩
    have htried := h.attempt (fun _ => rfl) hleft
    cases o with
    | ok m => exact ih hrest htried _ _ _
    | error failure =>
      simp only
      split
      · exact ih hrest htried _ _ _
      · exact htried.ends hp _

theorem choose_leaves (h : Trying straight input kept₀ kept tried) (location : String)
    (mode : ChoiceMode) :
    (choose location options input mode).Leaves rules K straight
      (p.Leaves straight input kept₀) kept tried := by
  cases mode with
  | safe => exact longestFrom_leaves hp hoptions h none []
  | fast => exact firstFrom_leaves hp hoptions h []
  | tryFast => exact comparedFrom_leaves hp hoptions h location 1 none []

end

theorem endRepetition_leaves (h : Trying straight input kept₀ kept tried) (label : String)
    (min count : Nat) (sofar : Match V) :
    (endRepetition label min input count sofar).Leaves rules K straight
      (p.Leaves straight input kept₀) kept tried := by
  unfold endRepetition
  split <;> exact h.ends hp _

theorem repeatFrom_leaves {item : Parser V} (hitem : K item)
    (h : Trying straight input kept₀ kept tried) {sofar : Match V}
    (hsofar : (∀ t ∈ tried, t.isMatch = false) → sofar.consumed = 0) (label : String)
    (min : Nat) (max : Option Nat) (budget count : Nat) :
    (repeatFrom label min max item input budget count sofar).Leaves rules K straight
      (p.Leaves straight input kept₀) kept tried := by
  induction budget generalizing kept tried sofar count with
  | zero => exact endRepetition_leaves hp h ..
  | succ budget ih =>
    rw [repeatFrom]
    split
    · exact endRepetition_leaves hp h ..
    · refine ⟨hitem, fun o kept' _ hleft => ?_⟩
      have htried := h.attempt hsofar hleft
      cases o with
      | ok m =>
        simp only
        split
        · exact endRepetition_leaves hp htried ..
        · refine ih htried (fun hfail => ?_) _
          have hmatch := hfail (.ok m) (by simp)
          cases hmatch
      | error failure =>
        simp only
        split
        · exact endRepetition_leaves hp htried ..
        · exact htried.ends hp _

end

theorem seqFrom_leaves {p : Parser V} {parts : List (Parser V)} (hparts : ∀ q ∈ parts, K q)
    {input kept₀ kept : List (Token V)} {sofar : Match V} (hsofar : sofar.Conserves input)
    (h : kept = kept₀ ∨ kept.Sublist input) :
    (seqFrom input parts sofar).Leaves rules K straight (p.Leaves straight input kept₀)
      kept tried := by
  induction parts generalizing kept tried sofar with
  | nil => exact fun _ => ⟨h, fun _ ho => by cases ho⟩
  | cons part parts ih =>
    obtain ⟨hpart, hrest⟩ := List.forall_mem_cons.1 hparts
    refine ⟨hpart, fun o kept' hconserves hleft => ?_⟩
    cases o with
    | ok m =>
      refine ih hrest (hsofar.append hconserves) (.inr ?_)
      rcases hleft.sublist with rfl | hsub
      · exact List.nil_sublist input
      · exact hsub.trans (List.drop_sublist ..)
    | error failure =>
      -- With what is left the produced tokens are the input again.
      have hinput := hsofar.append_drop
      refine fun _ => ⟨.inr ?_, fun hs hfail => .inr ?_⟩
      · rcases hleft.sublist with rfl | hsub
        · rw [List.append_nil, hsofar.produced_eq]
          exact List.take_sublist ..
        · rw [← hinput]
          exact (List.Sublist.refl _).append hsub
      · rcases hleft.first hs hfail with rfl | hfirst
        · rw [List.append_nil, hsofar.produced_eq]
          exact List.take_prefix ..
        · rw [← hinput]
          exact (List.prefix_append_right_inj _).2 hfirst

theorem body_leaves (hK : Gathering rules K) {p : Parser V} (hp : K p)
    (input kept : List (Token V)) :
    (p.body rules input).Leaves rules K straight (p.Leaves straight input kept) kept [] := by
  have hgathers := hK.gathers p hp
  have hparts := hK.parts p hp
  have hrefused : ∀ o : Outcome V, p.Leaves straight input kept o kept [] :=
    fun o _ => .refl straight input kept o
  cases p with
  | leaf program =>
    rintro o kept' ⟨ctx, ctx', es, hrun, rfl, rfl⟩
    have hleft := hK.partials program hp _ _ _ _ _ hrun
    exact fun _ => ⟨hleft.sublist, fun _ => hleft.first trivial⟩
  | seq label parts =>
    exact ⟨fun _ _ => hrefused _, seqFrom_leaves hparts .nothing (.inl rfl)⟩
  | choice location mode options =>
    have hchoose : ∀ mode, (choose location options input mode).Leaves rules K straight
        ((choice location mode options).Leaves straight input kept) kept [] :=
      fun mode => choose_leaves rfl hparts .start location mode
    refine ⟨fun _ _ => hrefused _, ?_⟩
    cases mode with
    | some mode => exact hchoose mode
    | none => exact hchoose
  | repetition label min max item =>
    exact ⟨fun _ _ => hrefused _,
      repeatFrom_leaves rfl (hparts item List.mem_cons_self) .start (fun _ => rfl) ..⟩
  | optional item =>
    refine ⟨fun _ _ => hrefused _, hparts item List.mem_cons_self, fun o kept' _ hleft => ?_⟩
    cases o with
    | ok m => exact fun _ => hleft
    | error failure =>
      simp only
      split
      · exact fun _ => ⟨hleft.sublist, fun _ ho => by cases ho⟩
      · exact fun _ => hleft
  | trace label item =>
    exact ⟨fun _ _ => hrefused _, hparts item List.mem_cons_self,
      fun o kept' _ hleft _ => hleft⟩
  | ref name rule | deferred rule =>
    refine ⟨fun _ _ => hrefused _, ?_⟩
    cases hrule : rules rule with
    | none => exact hrefused _
    | some body =>
      exact ⟨hparts body (by simp [parts, hrule]), fun o kept' _ hleft _ => hleft⟩
  | _ => cases hgathers

end Parser

-- ---------------------------------------------------------------------------
-- Leaves that only read
-- ---------------------------------------------------------------------------

def Leaf.Reads (program : List (Token V) → Action (Parser V) V (Outcome V)) : Prop :=
  ∃ read : List (Token V) → Outcome V, program = (fun input => .done (read input)) ∧
    ∀ input, (read input).Conserves input

theorem Gathering.of_reads (hgathers : ∀ p, K p → p.gathers = true)
    (hparts : ∀ p, K p → ∀ q ∈ p.parts rules, K q)
    (hleaf : ∀ program, K (.leaf program) → Leaf.Reads program) : Gathering rules K where
  keeps p hp := by
    have h := hgathers p hp
    cases p <;> first | rfl | cases h
  parts := hparts
  gathers := hgathers
  leaves program hprogram input ctx m ctx' es hrun := by
    obtain ⟨read, rfl, hread⟩ := hleaf program hprogram
    obtain ⟨hm, -, -⟩ := runs_done.1 hrun
    exact (hm ▸ hread input : Outcome.Conserves input (.ok m))
  partials program hprogram input ctx o ctx' es hrun := by
    obtain ⟨read, rfl, -⟩ := hleaf program hprogram
    obtain ⟨-, rfl, -⟩ := runs_done.1 hrun
    exact .refl ..

theorem Leaf.reads_ofKind (h : Leaf.ofKind kind = .leaf program) : Leaf.Reads program := by
  cases h
  refine ⟨_, rfl, fun input => ?_⟩
  cases input with
  | nil => trivial
  | cons t rest =>
    show Outcome.Conserves _ (if t.kind = kind then Leaf.one t else Leaf.mismatch kind t.kind t)
    split
    · exact ⟨Nat.le_add_left .., rfl⟩
    · trivial

omit [TokenValue V] in
theorem Leaf.reads_failing {fails : List (Token V) → Failure}
    (h : Leaf.failing fails = .leaf program) : Leaf.Reads program := by
  cases h
  exact ⟨_, rfl, fun _ => trivial⟩

-- ---------------------------------------------------------------------------
-- Evaluations
-- ---------------------------------------------------------------------------

/-- An evaluation is left with tokens of its input in their order, also if it fails. If no
choice and no repetition fails after one of its attempts matched, they are the first ones. -/
theorem Gathering.evaluate_results (hK : Gathering rules K) {p : Parser V} (hp : K p)
    {ctx ended : Context V} (hparse : Parses rules p tokens ctx.reset o ctx' es)
    (hended : p.evaluate rules n tokens ctx = some (answer, ended)) :
    ended.results.Sublist tokens ∧ (Event.Straight es → ended.results <+: tokens) := by
  obtain ⟨o₁, ctx₁, hrun₁, rfl, -⟩ := Parser.evaluate_eq_some_iff.1 hended
  obtain ⟨_, hrun⟩ := parses_iff_run.1 ⟨es, hparse⟩
  obtain ⟨rfl, rfl⟩ := Prod.mk.inj (Parser.run_unique hrun₁ hrun)
  obtain ⟨nested, h, rfl⟩ := hparse
  obtain ⟨hconserves, hkeeps⟩ := h.keeps (G := .whole rules) hK.whole_keeps
    (Grammar.calls_only trivial tokens) (Parser.body_conserves hK.toConserving hp tokens)
  obtain ⟨os, hos, hleft⟩ := h.leaves (fun p hp => Parser.body_leaves hK hp) hkeeps
    (fun hs : Event.Straight (Event.span p tokens o₁ nested) => hs.of_span.1) _ _
    (Parser.body_leaves hK hp tokens [])
  have hleavings := hleft fun hs => hs.of_span.2 os hos
  cases o₁ with
  | ok m =>
    have hproduced : m.produced <+: tokens := hconserves.produced_eq ▸ List.take_prefix ..
    exact ⟨hproduced.sublist, fun _ => hproduced⟩
  | error f =>
    show ctx₁.partials.Sublist tokens ∧ (Event.Straight _ → ctx₁.partials <+: tokens)
    constructor
    · rcases hleavings.sublist with hnone | hsub
      · rw [hnone]
        exact List.nil_sublist tokens
      · exact hsub
    · intro hs
      rcases hleavings.first hs rfl with hnone | hfirst
      · rw [hnone]
        exact List.nil_prefix
      · exact hfirst

def spelled (texts : List String) : List (Token Int64) :=
  (Token.ofTexts texts).map fun t => { t with kind := t.raw }

def mustStop : Parser Int64 := Leaf.failing fun input => .critical "stop" (firstPos input)

def nestedLetters : Parser Int64 :=
  .seq "letters" [Leaf.ofKind "a", .seq "more" [Leaf.ofKind "b", Leaf.ofKind "c"]]

def strictPairs : Parser Int64 :=
  .zeroOrMore "pairs" (.seq "pair" [Leaf.ofKind "a", .firstOf "here" [Leaf.ofKind "b", mustStop]])

def threePairs : Parser Int64 :=
  .repetition "three" 3 none (.seq "two" [Leaf.ofKind "a", Leaf.ofKind "b"])

def halfOrStop : Parser Int64 :=
  .longestOf "there" [.seq "half" [Leaf.ofKind "a", .optional
    (.seq "more" [Leaf.ofKind "b", Leaf.ofKind "c"])], mustStop]

def gathered : List (Parser Int64) :=
  [nestedLetters, strictPairs, threePairs, halfOrStop, mustStop, Leaf.ofKind "a", Leaf.ofKind "b",
    Leaf.ofKind "c", .seq "more" [Leaf.ofKind "b", Leaf.ofKind "c"],
    .seq "pair" [Leaf.ofKind "a", .firstOf "here" [Leaf.ofKind "b", mustStop]],
    .firstOf "here" [Leaf.ofKind "b", mustStop], .seq "two" [Leaf.ofKind "a", Leaf.ofKind "b"],
    .seq "half" [Leaf.ofKind "a", .optional (.seq "more" [Leaf.ofKind "b", Leaf.ofKind "c"])],
    .optional (.seq "more" [Leaf.ofKind "b", Leaf.ofKind "c"])]

theorem gathered_gathering : Gathering (fun _ => none) (· ∈ gathered) := by
  refine .of_reads ?_ ?_ fun program hprogram => ?_
  · simp [gathered, nestedLetters, strictPairs, threePairs, halfOrStop, mustStop,
      Parser.zeroOrMore, Parser.firstOf, Parser.longestOf, Parser.gathers, Leaf.ofKind,
      Leaf.plain, Leaf.failing]
  · simp [gathered, nestedLetters, strictPairs, threePairs, halfOrStop, mustStop,
      Parser.zeroOrMore, Parser.firstOf, Parser.longestOf, Parser.parts, Leaf.ofKind,
      Leaf.plain, Leaf.failing]
  · simp only [gathered, nestedLetters, strictPairs, threePairs, halfOrStop, Parser.zeroOrMore,
      Parser.firstOf, Parser.longestOf, List.mem_cons, reduceCtorEq, false_or, or_false,
      List.not_mem_nil] at hprogram
    rcases hprogram with h | h | h | h
    · exact Leaf.reads_failing h.symm
    · exact Leaf.reads_ofKind h.symm
    · exact Leaf.reads_ofKind h.symm
    · exact Leaf.reads_ofKind h.symm

omit [TokenValue V] in
theorem exists_failed {r : Option (Except Failure (List V) × Context V)}
    (h : r.map (fun r => (r.1.toOption, r.2.results)) = some (none, results)) :
    ∃ f ended, r = some (.error f, ended) ∧ ended.results = results := by
  obtain ⟨⟨answer, ended⟩, rfl, hr⟩ := Option.map_eq_some_iff.1 h
  obtain ⟨hanswer, hresults⟩ := Prod.mk.inj hr
  cases answer with
  | error f => exact ⟨f, ended, rfl, hresults⟩
  | ok values => cases hanswer

theorem nestedLetters_evaluate_results : ∃ f ended, nestedLetters.evaluate (fun _ => none) 10
    (spelled ["a", "b", "x"]) (.ofConfig .initial) = some (.error f, ended) ∧
    ended.results = (spelled ["a", "b", "x"]).take 2 ∧
    ended.results.Sublist (spelled ["a", "b", "x"]) ∧
    ended.results <+: spelled ["a", "b", "x"] := by
  obtain ⟨f, ended, hended, hresults⟩ := exists_failed
    (r := nestedLetters.evaluate (fun _ => none) 10 (spelled ["a", "b", "x"]) (.ofConfig .initial))
    (show _ = some (none, (spelled ["a", "b", "x"]).take 2) by decide +kernel)
  obtain ⟨o, ctx', es, hparse, hes⟩ : ∃ o ctx' es, Parses (fun _ => none) nestedLetters
      (spelled ["a", "b", "x"]) (Context.ofConfig .initial).reset o ctx' es ∧
        ∀ e ∈ es, e.startsRetrying = false :=
    ⟨_, _, _, ⟨_, .guarded rfl (.clearPartials <| .call (.client .done .done) <|
      .clearPartials <| .call (.guarded rfl (.clearPartials <| .call (.client .done .done) <|
        .clearPartials <| .call (.client .done .done) <| .keepPartials .done) .done) <|
      .keepPartials .done) .done, rfl⟩, by
        simp [Event.span, Event.startsRetrying, nestedLetters, Leaf.ofKind, Leaf.plain,
          Parser.retries]⟩
  obtain ⟨hsublist, hfirst⟩ := gathered_gathering.evaluate_results List.mem_cons_self hparse hended
  exact ⟨f, ended, hended, hresults, hsublist, hfirst (Event.straight_of_forall hes)⟩

/-- A repetition that fails loses the matches before, and a part that an option has given up
is left where the next option aborts. -/
theorem evaluate_results_gap :
    Gathering (fun _ => none) (· ∈ gathered) ∧
    (strictPairs ∈ gathered ∧ ∃ f ended, strictPairs.evaluate (fun _ => none) 10
      (spelled ["a", "b", "a", "c"]) (.ofConfig .initial) = some (.error f, ended) ∧
      ended.results = ((spelled ["a", "b", "a", "c"]).drop 2).take 1) ∧
    (threePairs ∈ gathered ∧ ∃ f ended, threePairs.evaluate (fun _ => none) 10
      (spelled ["a", "b", "a", "b", "a", "c"]) (.ofConfig .initial) = some (.error f, ended) ∧
      ended.results = ((spelled ["a", "b", "a", "b", "a", "c"]).drop 4).take 1) ∧
    (halfOrStop ∈ gathered ∧ ∃ f ended, halfOrStop.evaluate (fun _ => none) 10
      (spelled ["a", "b", "x"]) (.ofConfig .initial) = some (.error f, ended) ∧
      ended.results = ((spelled ["a", "b", "x"]).drop 1).take 1) := by
  refine ⟨gathered_gathering, ⟨by simp [gathered], exists_failed ?_⟩,
    ⟨by simp [gathered], exists_failed ?_⟩, by simp [gathered], exists_failed ?_⟩
  all_goals decide +kernel

end TokenGrammar
