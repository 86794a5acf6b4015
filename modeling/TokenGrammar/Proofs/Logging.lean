import TokenGrammar.Proofs.Placement

/-!
# What a parse logs

Apart from the code of a grammar's author only a recovery logs: where its search has matched, the
failure of its body, or that the guard refused the body, put at the first token of its input if it
has no place. Every parser hands ends of its input to its parts. So on tokens that have places, if
the author's code gives its failures one, a recovery logs a failure without a place only where
nothing is left of the input (`Grammar.entries_placed`).
-/

namespace TokenGrammar

variable {V : Type}

-- ---------------------------------------------------------------------------
-- What an action does itself
-- ---------------------------------------------------------------------------

/-- What the calls of an action may take, and what it may log, given how calls end and what the
guard refuses with. -/
structure Conduct (V : Type) where
  takes : List (Token V) → Prop
  returns : Parser V → List (Token V) → Outcome V → Prop
  refuses : Failure → Prop
  logs : Failure → Prop

variable {S : Conduct V} {post : α → Prop}

/-- Whether an action keeps to its conduct itself, and ends with an answer that satisfies `post`.
Nothing is asked of the author's code. -/
def Action.Behaves (S : Conduct V) : {α : Type} → (post : α → Prop) → Action (Parser V) V α → Prop
  | _, post, .done x => post x
  | _, post, .call p input next =>
    S.takes input ∧ ∀ o, S.returns p input o → (next o).Behaves S post
  | _, post, .guarded _ input region next =>
    (∀ depth limit, S.refuses (.stackOverflow depth limit (firstPos input)) →
      (next (.error (.stackOverflow depth limit (firstPos input)))).Behaves S post) ∧
    region.Behaves S fun o => (next o).Behaves S post
  | _, post, .client _ next => ∀ r, (next r).Behaves S post
  | _, post, .askMode next => ∀ mode, (next mode).Behaves S post
  | _, post, .logFailure failure fallback next =>
    S.logs (failure.orAt fallback) ∧ next.Behaves S post
  | _, post, .report _ next | _, post, .clearPartials next | _, post, .keepPartials _ next
  | _, post, .checkReproduction _ _ _ next | _, post, .configure _ next => next.Behaves S post

theorem Action.CallsOn.behaves {a : Action (Parser V) V α}
    (h : a.CallsOn fun _ rest => S.takes rest) : a.Behaves S fun _ => True := by
  induction a with
  | done => trivial
  | call p input next ih => exact ⟨h.1, fun o _ => ih o (h.2 o)⟩
  | report _ next ih | clearPartials next ih | keepPartials _ next ih => exact ih h
  | _ => exact h.elim

namespace Parser

/-- A parser takes ends of its input and logs nothing, but that a recovery logs what its body
fails with, once its search has matched, or that the body was refused. -/
theorem body_behaves {rules : Rules V} {p : Parser V} {input : List (Token V)}
    (hinput : ∀ rest, rest <:+ input → S.takes rest)
    (hlogs : ∀ search body skipUntil, p = .recover search body skipUntil →
      ∀ m, S.returns search input (.ok m) →
        ∀ f, S.returns body input (.error f) ∨
          S.refuses f ∧ (∃ depth limit, f = .stackOverflow depth limit (firstPos input)) →
        S.logs (f.orAt (firstPos input))) :
    (p.body rules input).Behaves S fun _ => True := by
  have htraced : ∀ {name} {region : Step V}, region.Behaves S (fun _ => True) →
      (Action.traced name input region).Behaves S fun _ => True :=
    fun h => ⟨fun _ _ _ => trivial, h⟩
  have hself : S.takes input := hinput _ (List.suffix_refl _)
  cases p with
  | leaf program => exact fun _ => trivial
  | seq label parts => exact htraced (seqFrom_callsOn (fun _ _ => hinput) _).behaves
  | choice location mode options =>
    have hchoose : ∀ mode, (choose location options input mode).Behaves S fun _ => True :=
      fun mode => (choose_callsOn (fun _ _ => hself) location mode).behaves
    cases mode with
    | some mode => exact htraced (hchoose mode)
    | none => exact htraced hchoose
  | repetition label min max item => exact htraced (repeatFrom_callsOn hinput ..).behaves
  | optional item =>
    refine htraced ⟨hself, fun o _ => ?_⟩
    cases o with
    | ok m => trivial
    | error f => simp only; split <;> trivial
  | transform location item convert =>
    refine ⟨hself, fun o _ => ?_⟩
    cases o with
    | ok m => exact fun r => by cases r <;> trivial
    | error f => trivial
  | before test => exact htraced trivial
  | empty label =>
    cases label with
    | none => trivial
    | some label => exact htraced trivial
  | atEnd => cases input <;> exact htraced trivial
  | recover search body skipUntil =>
    have hheal : (Action.traced "healing" input (resync skipUntil input 0)).Behaves S
        fun _ => True :=
      htraced (resync_callsOn hinput 0).behaves
    refine htraced ⟨fun _ _ _ => trivial, hself, fun checked hchecked => ?_⟩
    cases checked with
    | error f => trivial
    | ok m =>
      have hlogs := hlogs search body skipUntil rfl m hchecked
      refine ⟨fun depth limit hrefuses => ⟨hlogs _ (.inr ⟨hrefuses, depth, limit, rfl⟩), hheal⟩,
        hself, fun o ho => ?_⟩
      cases o with
      | ok m => trivial
      | error f => exact ⟨hlogs f (.inl ho), hheal⟩
  | lookahead item | peek item =>
    exact htraced ⟨hself, fun o _ => by cases o <;> trivial⟩
  | notFollowedBy item => exact htraced ⟨hself, fun o _ => by cases o <;> trivial⟩
  | labelled label item => exact ⟨hself, fun o _ => by cases o <;> trivial⟩
  | expected message | fail message => trivial
  | trace label item => exact htraced ⟨hself, fun _ _ => trivial⟩
  | ref name rule | deferred rule =>
    refine htraced ?_
    cases rules rule with
    | none => trivial
    | some body => exact ⟨hself, fun _ _ => trivial⟩

end Parser

-- ---------------------------------------------------------------------------
-- What a run logs
-- ---------------------------------------------------------------------------

variable [TokenValue V] {rules : Rules V}

def Event.HasCall (rules : Rules V) (es : List (Event V)) (p : Parser V) (input : List (Token V))
    (o : Outcome V) (call : List (Event V)) : Prop :=
  call <:+: es ∧ ∃ ctx ctx', Parses rules p input ctx o ctx' call

theorem Event.HasCall.mono {es es' : List (Event V)} (h : HasCall rules es p input o call)
    (hes : es <:+: es') :
    Event.HasCall rules es' p input o call :=
  ⟨h.1.trans hes, h.2⟩

theorem Event.logged_not_mem_ofCheck {o : Outcome V} :
    .logged f ∉ ofCheck location converted o := by
  unfold ofCheck
  split <;> simp

theorem Event.started_not_mem_ofCheck {o : Outcome V} :
    .started p input ∉ ofCheck location converted o := by
  unfold ofCheck
  split <;> simp

theorem Event.HasCall.ended_mem {es : List (Event V)} (h : HasCall rules es p input o call) :
    .ended p input o ∈ es := by
  obtain ⟨hes, _, _, nested, -, rfl⟩ := h
  exact hes.subset (by simp [span])

/-- If the parsers called in a run keep to their conduct, given how its calls end, so does the
run: calls take what they may, and apart from the author's code it logs what it may. -/
theorem Runs.behaves {G : Grammar V} {all : List (Event V)}
    (hreturns : ∀ p input o call, Event.HasCall G.rules all p input o call →
      S.returns p input o)
    (hrefuses : ∀ f, .refused f ∈ all → S.refuses f)
    (hbodies : ∀ p ∈ G, ∀ input, .started p input ∈ all → S.takes input →
      (p.body G.rules input).Behaves S fun _ => True)
    (h : Runs G.rules a ctx x ctx' es) (ha : a.Only (fun _ => True) (· ∈ G)) (hes : es <:+: all)
    (hbehaves : a.Behaves S post) :
    post x ∧ (∀ q rest, .started q rest ∈ es → q ∈ G ∧ S.takes rest) ∧
      ∀ f, .logged f ∈ es → S.logs f := by
  induction h with
  | done => exact ⟨hbehaves, nofun, nofun⟩
  | call parse _ ihParse ih =>
    obtain ⟨htakes, hnext⟩ := hbehaves
    have hspan := (List.prefix_append _ _).isInfix.trans hes
    have hinner := (List.infix_append [_] _ [_]).trans hspan
    have hstarted := hspan.subset List.mem_cons_self
    obtain ⟨-, hcalls, hlogs⟩ := ihParse (Grammar.calls_only ha.1 _) hinner
      (hbodies _ ha.1 _ hstarted htakes)
    obtain ⟨hx, hcalls', hlogs'⟩ := ih (ha.2 _) ((List.suffix_append _ _).isInfix.trans hes)
      (hnext _ (hreturns _ _ _ _ ⟨hspan, _, _, _, parse, rfl⟩))
    refine ⟨hx, fun q rest hq => ?_, fun f hf => ?_⟩
    · rcases List.mem_append.1 hq with hq | hq
      · simp only [Event.span, List.mem_cons, List.mem_append, List.not_mem_nil, or_false,
          reduceCtorEq, Event.started.injEq] at hq
        rcases hq with ⟨rfl, rfl⟩ | hq
        · exact ⟨ha.1, htakes⟩
        · exact hcalls q rest hq
      · exact hcalls' q rest hq
    · rcases List.mem_append.1 hf with hf | hf
      · exact hlogs f (by simpa [Event.span] using hf)
      · exact hlogs' f hf
  | refused gate _ ih =>
    obtain ⟨-, rfl⟩ := Context.enter?_error gate
    obtain ⟨hx, hcalls, hlogs⟩ := ih (ha.2 _) ((List.suffix_cons _ _).isInfix.trans hes)
      (hbehaves.1 _ _ (hrefuses _ (hes.subset List.mem_cons_self)))
    exact ⟨hx, fun q rest hq => hcalls q rest (by simpa using hq),
      fun f hf => hlogs f (by simpa using hf)⟩
  | guarded _ _ _ ihInside ih =>
    have hboth := (List.suffix_cons _ _).isInfix.trans hes
    obtain ⟨hnext, hcalls, hlogs⟩ := ihInside ha.1
      ((List.prefix_append _ _).isInfix.trans hboth) hbehaves.2
    obtain ⟨hx, hcalls', hlogs'⟩ := ih (ha.2 _) ((List.suffix_append _ _).isInfix.trans hboth) hnext
    refine ⟨hx, fun q rest hq => ?_, fun f hf => ?_⟩
    · simp only [List.mem_cons, reduceCtorEq, false_or, List.mem_append] at hq
      exact hq.elim (hcalls q rest) (hcalls' q rest)
    · simp only [List.mem_cons, reduceCtorEq, false_or, List.mem_append] at hf
      exact hf.elim (hlogs f) (hlogs' f)
  | client _ _ _ ih =>
    have hrest := (List.suffix_cons _ _).isInfix.trans
      ((List.suffix_append _ _).isInfix.trans ((List.suffix_cons _ _).isInfix.trans hes))
    obtain ⟨hx, hcalls, hlogs⟩ := ih (ha.2 _) hrest (hbehaves _)
    exact ⟨hx, fun q rest hq => hcalls q rest (by simpa using hq),
      fun f hf => hlogs f (by simpa using hf)⟩
  | askMode _ ih => exact ih (ha.2 _) hes (hbehaves _)
  | logFailure _ ih =>
    obtain ⟨hx, hcalls, hlogs⟩ := ih ha.2 ((List.suffix_cons _ _).isInfix.trans hes) hbehaves.2
    refine ⟨hx, fun q rest hq => hcalls q rest (by simpa using hq), fun f hf => ?_⟩
    rcases List.mem_cons.1 hf with hf | hf
    · cases hf
      exact hbehaves.1
    · exact hlogs f hf
  | report _ ih =>
    obtain ⟨hx, hcalls, hlogs⟩ := ih ha.2 ((List.suffix_cons _ _).isInfix.trans hes) hbehaves
    exact ⟨hx, fun q rest hq => hcalls q rest (by simpa using hq),
      fun f hf => hlogs f (by simpa using hf)⟩
  | clearPartials _ ih | keepPartials _ ih | configure _ ih => exact ih ha.2 hes hbehaves
  | unchecked _ _ ih => exact ih ha.2.2 hes hbehaves
  | checked _ _ _ _ ih =>
    obtain ⟨hx, hcalls, hlogs⟩ := ih ha.2.2 ((List.suffix_append _ _).isInfix.trans hes) hbehaves
    exact ⟨hx, fun q rest hq => hcalls q rest (by simpa [Event.started_not_mem_ofCheck] using hq),
      fun f hf => hlogs f (by simpa [Event.logged_not_mem_ofCheck] using hf)⟩

-- ---------------------------------------------------------------------------
-- Recoveries
-- ---------------------------------------------------------------------------

def Event.Fails (rules : Rules V) (es : List (Event V)) (body : Parser V)
    (input : List (Token V)) (f : Failure) : Prop :=
  (∃ call, HasCall rules es body input (.error f) call) ∨
    .refused f ∈ es ∧ ∃ depth limit, f = .stackOverflow depth limit (firstPos input)

theorem Event.Fails.mono {es es' : List (Event V)} (h : Fails rules es body input f)
    (hes : es <:+: es') : Fails rules es' body input f :=
  h.imp (fun ⟨call, hcall⟩ => ⟨call, hcall.mono hes⟩)
    fun ⟨hrefused, hf⟩ => ⟨hes.subset hrefused, hf⟩

/-- Whether a recovery that began on `input`, and whose search matched there, has its body fail
with `f`. -/
structure Event.Recovers (rules : Rules V) (es : List (Event V)) (body : Parser V)
    (input : List (Token V)) (f : Failure) : Prop where
  searched : ∃ search skipUntil m call, .started (.recover search body skipUntil) input ∈ es ∧
    HasCall rules es search input (.ok m) call
  fails : Fails rules es body input f

theorem Grammar.parse_behaves {G : Grammar V} (hp : p ∈ G)
    (h : Parses G.rules p tokens ctx o ctx' es) :
    (∀ q rest, .started q rest ∈ es → q ∈ G ∧ rest <:+ tokens) ∧
    ∀ f, .logged f ∈ es → ∃ body input g, input <:+ tokens ∧
      Event.Recovers G.rules es body input g ∧ f = g.orAt (firstPos input) := by
  let S : Conduct V := {
    takes := (· <:+ tokens)
    returns := fun p input o => ∃ call, Event.HasCall G.rules es p input o call
    refuses := fun f => .refused f ∈ es
    logs := fun f => ∃ body input g, input <:+ tokens ∧ Event.Recovers G.rules es body input g ∧
      f = g.orAt (firstPos input) }
  have hbodies : ∀ p ∈ G, ∀ input, .started p input ∈ es → S.takes input →
      (p.body G.rules input).Behaves S fun _ => True := by
    intro p _ input hstarted hinput
    refine Parser.body_behaves (fun rest hrest => hrest.trans hinput) ?_
    rintro search body skipUntil rfl m ⟨call, hsearch⟩ f hfails
    refine ⟨body, input, f, hinput, ⟨⟨search, skipUntil, m, call, hstarted, hsearch⟩, ?_⟩, rfl⟩
    exact hfails
  have hcall : (Action.parse p tokens).Behaves S fun _ => True :=
    ⟨List.suffix_refl _, fun _ _ => trivial⟩
  exact ((parses_iff.2 h).behaves (S := S) (fun _ _ _ call hcall => ⟨call, hcall⟩)
    (fun _ h => h) hbodies ⟨hp, fun _ => trivial⟩ (List.infix_refl _) hcall).2

theorem Runs.of_guarded {region : Action (Parser V) V (Outcome V)}
    (h : Runs rules (.guarded name input region next) ctx x ctx' es) :
    (∃ depth limit later,
      .refused (.stackOverflow depth limit (firstPos input)) ∈ es ∧
      Runs rules (next (.error (.stackOverflow depth limit (firstPos input)))) ctx x ctx' later ∧
      later <:+: es) ∨
    ∃ entered o ctx₁ ctx₂ nested later, Runs rules region entered o ctx₁ nested ∧
      Runs rules (next o) ctx₂ x ctx' later ∧ nested <:+: es ∧ later <:+: es := by
  cases h with
  | refused gate rest =>
    obtain ⟨-, rfl⟩ := Context.enter?_error gate
    exact .inl ⟨_, _, _, List.mem_cons_self, rest, (List.suffix_cons _ _).isInfix⟩
  | guarded gate inside rest =>
    exact .inr ⟨_, _, _, _, _, _, inside, rest,
      (List.prefix_append _ _).isInfix.trans (List.suffix_cons _ _).isInfix,
      (List.suffix_append _ _).isInfix.trans (List.suffix_cons _ _).isInfix⟩

theorem Runs.of_recover {search body skipUntil : Parser V} {input : List (Token V)}
    (h : Runs rules ((Parser.recover search body skipUntil).body rules input) ctx (.ok m) ctx' es) :
    (∃ call, Event.HasCall rules es body input (.ok m) call) ∨
      ∃ f, Event.Fails rules es body input f ∧ .logged (f.orAt (firstPos input)) ∈ es := by
  obtain ⟨_, _, _, -, hrefused, -⟩ | ⟨_, o, _, _, inside, _, hinside, hdone, hin, -⟩ := h.of_guarded
  · cases hrefused
  obtain ⟨rfl, -, -⟩ := runs_done.1 hdone
  obtain ⟨_, _, _, -, hrefused, -⟩ | ⟨_, checked, _, _, _, process, -, hprocess, -, hproc⟩ :=
    hinside.of_guarded
  · cases hrefused
  cases checked with
  | error f => cases hprocess
  | ok _ =>
    obtain ⟨depth, limit, _, hrefused, hlog, hlater⟩ |
      ⟨_, o, _, _, call, _, hbody, hnext, hcall, hlater⟩ := hprocess.of_guarded
    · cases hlog
      exact .inr ⟨_, .inr ⟨hin.subset (hproc.subset hrefused), depth, limit, rfl⟩,
        hin.subset (hproc.subset (hlater.subset List.mem_cons_self))⟩
    · have hcall : Event.HasCall rules es body input o call :=
        ⟨hcall.trans (hproc.trans hin), _, _, parses_iff.1 hbody⟩
      cases o with
      | ok m' =>
        obtain ⟨⟨⟩, -, -⟩ := runs_done.1 hnext
        exact .inl ⟨call, hcall⟩
      | error f =>
        cases hnext
        exact .inr ⟨f, .inl ⟨call, hcall⟩, hin.subset (hproc.subset (hlater.subset
          List.mem_cons_self))⟩

-- ---------------------------------------------------------------------------
-- The log of an evaluation
-- ---------------------------------------------------------------------------

theorem Parser.evaluate_entries {p : Parser V} {ctx : Context V}
    (h : Parses rules p tokens ctx.reset o ctx' es) :
    ∃ n answer ended, evaluate rules n p tokens ctx = some (answer, ended) ∧
      ∀ f, f ∈ ended.failures.toList ↔ f ∈ es.filterMap Event.logged? ∨ o = .error f := by
  obtain ⟨n, hrun⟩ := parses_iff_run.1 ⟨es, h⟩
  obtain ⟨nested, hruns, rfl⟩ := h
  refine ⟨n, _, _, evaluate_eq_some_iff.2 ⟨o, ctx', hrun, rfl, rfl⟩, fun f => ?_⟩
  have hlogged : ctx'.failures.toList = nested.filterMap Event.logged? := by
    simpa [Context.reset, Context.ofConfig] using hruns.failures
  rw [Event.logged?_span, ← hlogged, Context.finish_failures]
  cases o with
  | ok m => simp [Context.settle]
  | error g => simp [Context.settle, Context.logFailure, Failure.orAt_none, eq_comm]

theorem Failure.orAt_of_isSome {f : Failure} (h : f.pos.isSome) (place : Option Position) :
    f.orAt place = f := by
  cases f with
  | single fault pos => cases pos with
    | none => cases h
    | some pos => rfl
  | joined members pos => cases pos with
    | none => cases h
    | some pos => rfl

section
variable {G : Grammar V} (hG : G.PlacesFailures) {tokens : List (Token V)}
  (htokens : Token.Placed tokens)
include hG htokens

/-- A failure that is raised where nothing is left and passed up comes out of a parser on other
tokens just past the last one. -/
theorem Grammar.PlacesFailures.raised_at_end (hp : p ∈ G) (hrest : rest <:+ tokens)
    (hne : rest ≠ []) (h : Parses G.rules p rest ctx (.error g) ctx'
      (before ++ .ended q [] (.error f) :: after))
    (hf : f.pos = none) (hafter : ∀ e ∈ after, e.PassesUp f place) :
    g = f.orAt (endPos tokens) ∧ g.pos = endPos tokens := by
  obtain ⟨nested, hrun, hes⟩ := h
  obtain ⟨_, ⟨⟩, hg, hpos⟩ := hG.pos_of_raised hp htokens hrest hf hrun hes.symm hafter
  rw [endPos_suffix hrest hne] at hpos
  refine ⟨?_, hpos⟩
  rcases hg with rfl | rfl
  · have hend := htokens.endPos
    rw [← hpos, hf] at hend
    cases hend
  · rw [Failure.pos_orAt hf] at hpos
    rw [hpos]

/-- What a parse logs or ends with has a place, but for what a recovery logs that began with
nothing left. -/
theorem Grammar.PlacesFailures.unplaced (hp : p ∈ G)
    (hparse : Parses G.rules p tokens ctx o ctx' es)
    (hcode : ∀ e f, .within e ∈ es → e.logged? = some f → f.pos.isSome)
    (hf : f ∈ es.filterMap Event.logged? ∨ o = .error f) (hpos : f.pos = none) :
    ∃ body, Event.Recovers G.rules es body [] f := by
  have hnot : ¬ f.pos.isSome := by simp [hpos]
  rcases hf with hlog | rfl
  · obtain ⟨e, he, hef⟩ := List.mem_filterMap.1 hlog
    cases e with
    | logged f' =>
      obtain rfl := Option.some.inj hef
      obtain ⟨body, input, g, hinput, hrecovers, rfl⟩ := (parse_behaves hp hparse).2 _ he
      by_cases hnil : input = []
      · subst hnil
        have hsame : g.orAt (firstPos ([] : List (Token V))) = g := Failure.orAt_none g
        rw [hsame]
        exact ⟨body, hrecovers⟩
      · exact absurd (Failure.pos_orAt_isSome (htokens.suffix hinput hnil).firstPos) hnot
    | within e => exact absurd (hcode e f he hef) hnot
    | _ => cases hef
  · obtain ⟨nested, hrun, -⟩ := hparse
    exact absurd (hG.placed hp htokens hrun f rfl) hnot

/-- If the author's code gives its failures and its entries a place, every entry that an
evaluation of placed tokens leaves in the log has one, but where a recovery began with nothing
left, its search matched there, and its body was refused or failed without a place. A recovery on
other tokens logs at a place what its body fails with. If that is a failure without a place that
was raised where nothing is left and passed up, it is logged just past the last token, as the body
reports it. -/
theorem Grammar.entries_placed (hp : p ∈ G)
    (hparse : Parses G.rules p tokens ctx.reset o ctx' es)
    (hcode : ∀ e f, .within e ∈ es → e.logged? = some f → f.pos.isSome) :
    ∃ n answer ended, Parser.evaluate G.rules n p tokens ctx = some (answer, ended) ∧
      (∀ f ∈ ended.failures.toList, f.pos = none →
        ∃ body, Event.Recovers G.rules es body [] f) ∧
      ((∀ search body skipUntil m call, .started (.recover search body skipUntil) [] ∈ es →
          ¬ Event.HasCall G.rules es search [] (.ok m) call) →
        ∀ f ∈ ended.failures.toList, f.pos.isSome) ∧
      ∀ search body skipUntil rest m recovery, rest ≠ [] →
        Event.HasCall G.rules es (.recover search body skipUntil) rest (.ok m) recovery →
        (∃ call, Event.HasCall G.rules recovery body rest (.ok m) call) ∨
        ∃ f g, f ∈ ended.failures.toList ∧ f.pos.isSome ∧ f = g.orAt (firstPos rest) ∧
          Event.Fails G.rules recovery body rest g ∧
          ∀ before q raised after place,
            Event.HasCall G.rules recovery body rest (.error g)
              (before ++ .ended q [] (.error raised) :: after) →
            raised.pos = none → (∀ e ∈ after, e.PassesUp raised place) →
            f = g ∧ f = raised.orAt (endPos tokens) := by
  obtain ⟨n, answer, ended, hevaluate, hentries⟩ := Parser.evaluate_entries hparse
  have hunplaced : ∀ f ∈ ended.failures.toList, f.pos = none →
      ∃ body, Event.Recovers G.rules es body [] f :=
    fun f hf => hG.unplaced htokens hp hparse hcode ((hentries f).1 hf)
  refine ⟨n, answer, ended, hevaluate, hunplaced, fun hnone f hf => ?_, ?_⟩
  · by_contra hpos
    obtain ⟨body, ⟨search, skipUntil, m, call, hstarted, hcall⟩, -⟩ :=
      hunplaced f hf (by simpa using hpos)
    exact hnone search body skipUntil m call hstarted hcall
  · rintro search body skipUntil rest m recovery hne ⟨hin, c, c', nested, hrun, rfl⟩
    obtain ⟨hrecover, hrest⟩ := (parse_behaves hp hparse).1 _ _ (hin.subset List.mem_cons_self)
    have hnested : nested <:+: Event.span (.recover search body skipUntil) rest (.ok m) nested :=
      List.infix_append [_] _ [_]
    rcases hrun.of_recover with ⟨call, hcall⟩ | ⟨g, hfails, hlog⟩
    · exact .inl ⟨call, hcall.mono hnested⟩
    have hentry : g.orAt (firstPos rest) ∈ es.filterMap Event.logged? :=
      List.mem_filterMap.2 ⟨_, (hnested.trans hin).subset hlog, rfl⟩
    refine .inr ⟨_, g, (hentries _).2 (.inl hentry),
      Failure.pos_orAt_isSome (htokens.suffix hrest hne).firstPos, rfl,
      hfails.mono hnested, ?_⟩
    rintro before q raised after place ⟨-, _, _, hbody⟩ hraised hafter
    have hmem : body ∈ G := G.parts _ hrecover body (by simp [Parser.parts])
    obtain ⟨hg, hpos⟩ := hG.raised_at_end htokens hmem hrest hne hbody hraised hafter
    have hkept : g.orAt (firstPos rest) = g := by
      have hplaced := htokens.endPos
      rw [← hpos] at hplaced
      exact Failure.orAt_of_isSome hplaced _
    exact ⟨hkept, hkept.trans hg⟩

end

theorem Grammar.placesFailures_of_anyToken {G : Grammar Int64}
    (hleaf : ∀ program, .leaf program ∈ G → .leaf program = anyToken)
    (hconvert : ∀ location item convert, .transform location item convert ∉ G) :
    G.PlacesFailures where
  leaf := by
    intro program hprogram input ctx f ctx' es hinput hrun
    cases hleaf program hprogram
    cases input with
    | nil => exact absurd rfl hinput.ne_nil
    | cons first rest => cases (runs_done.1 hrun).1
  convert := fun location item convert hmem => absurd hmem (hconvert location item convert)

def twoTokens : Parser Int64 := .seq "pair" [anyToken, anyToken]

def recoveredPair : Grammar Int64 :=
  .ofList (fun _ => none)
    [.recover (.empty none) twoTokens anyToken, .empty none, twoTokens, anyToken]
    (by simp [Parser.parts, twoTokens, anyToken, Leaf.plain])
    (by simp [Parser.Clients, twoTokens, anyToken, Leaf.plain, Action.Only])

/-- The sequence has read the only token when its second part fails. What the recovery logs is
just past it. -/
theorem recoveredPair_entries_placed : ∃ p ∈ recoveredPair, ∃ n answer ended,
    Parser.evaluate recoveredPair.rules n p (Token.ofTexts ["a"]) (.ofConfig .initial) =
      some (answer, ended) ∧
    .notMatch "token" "" (some (.atIndex 1)) ∈ ended.failures.toList ∧
    ∀ f ∈ ended.failures.toList, f.pos.isSome := by
  have hplaces : recoveredPair.PlacesFailures := Grammar.placesFailures_of_anyToken
    (by simp [recoveredPair, twoTokens, anyToken, Leaf.plain])
    (by simp [recoveredPair, twoTokens, anyToken, Leaf.plain])
  let p : Parser Int64 := .recover (.empty none) twoTokens anyToken
  let a : List (Token Int64) := Token.ofTexts ["a"]
  let mismatch : Failure := .notMatch "token" "" none
  let placed : Failure := .notMatch "token" "" (some (.atIndex 1))
  let one : List (Event Int64) :=
    [.started anyToken a, .invoked, .answered none, .ended anyToken a (Leaf.one (.ofRaw "a" 0))]
  let front := [.started twoTokens a, .entered 3] ++ one ++
    [.started anyToken [], .invoked, .answered (some mismatch)]
  let body := front ++ [.ended anyToken [] (.error mismatch), .ended twoTokens a (.error placed)]
  let whole := [.started p a, .entered 1, .entered 2, .started (.empty none) a,
    .ended (.empty none) a (.ok .nothing), .entered 2] ++ body ++
      (.logged placed :: .entered 2 :: one ++ [.ended p a (.ok ⟨1, []⟩)])
  have hp : p ∈ recoveredPair := List.mem_cons_self
  have hparse : ∃ ctx', Parses recoveredPair.rules p a (Context.ofConfig .initial).reset
      (.ok ⟨1, []⟩) ctx' whole :=
    ⟨_, _, .guarded rfl (.guarded rfl (.call .done .done) <| .guarded rfl
      (.call (.guarded rfl (.clearPartials (.call (.client .done .done) <| .clearPartials <|
        .call (.client .done .done) (.keepPartials .done))) .done) .done) <|
      .logFailure <| .guarded rfl (.call (.client .done .done) .done) .done) .done, rfl⟩
  have hbody : ∃ ctx', Parses recoveredPair.rules twoTokens a
      { Context.ofConfig .initial with depth := 2 } (.error placed) ctx' body :=
    ⟨_, _, .guarded rfl (.clearPartials (.call (.client .done .done) <| .clearPartials <|
        .call (.client .done .done) (.keepPartials .done))) .done, rfl⟩
  obtain ⟨ctx', hparse⟩ := hparse
  obtain ⟨c', hbody⟩ := hbody
  obtain ⟨n, answer, ended, hevaluate, -, hall, hrecovery⟩ := Grammar.entries_placed hplaces
    (Token.placed_ofTexts (List.cons_ne_nil _ _)) hp hparse (by simp [whole, body, front, one])
  refine ⟨p, hp, n, answer, ended, hevaluate, ?_, hall ?_⟩
  · rcases hrecovery _ _ _ a _ whole (List.cons_ne_nil _ _) ⟨List.infix_refl _, _, _, hparse⟩ with
      ⟨call, hcall⟩ | ⟨f, g, hf, -, -, hfails, hend⟩
    · have hended := hcall.ended_mem
      simp [whole, body, front, one, p, twoTokens, anyToken, Leaf.plain] at hended
    · have hg : g = placed := by
        rcases hfails with ⟨call, hcall⟩ | ⟨hrefused, -⟩
        · have hended := hcall.ended_mem
          simpa [whole, body, front, one, p, twoTokens, anyToken, Leaf.plain] using hended
        · simp [whole, body, front, one] at hrefused
      subst hg
      have hin : body <:+: whole := List.infix_append _ _ _
      have hpasses : ∀ e ∈ [Event.ended twoTokens a (.error placed)],
          e.PassesUp mismatch (some (.atIndex 1)) :=
        List.forall_mem_singleton.2 (.inr rfl)
      obtain ⟨rfl, -⟩ := hend front anyToken mismatch _ _ ⟨hin, _, _, hbody⟩ rfl hpasses
      exact hf
  · intro search body' skipUntil m call hstarted
    simp [whole, body, front, one, p, twoTokens, anyToken, Leaf.plain, a, Token.ofTexts] at hstarted

def recoveredEnd : Grammar Int64 :=
  .ofList (fun _ => none)
    [.seq "pair" [anyToken, .recover (.empty none) anyToken anyToken],
      .recover (.empty none) anyToken anyToken, .empty none, twoTokens, anyToken]
    (by simp [Parser.parts, twoTokens, anyToken, Leaf.plain])
    (by simp [Parser.Clients, twoTokens, anyToken, Leaf.plain, Action.Only])

/-- The recovery begins with nothing left and logs its failure at no place, where the sequence
without it reports the same failure just past the token. -/
theorem recoveredEnd_entry_unplaced : recoveredEnd.PlacesFailures ∧
    ∃ p ∈ recoveredEnd, ∃ tokens, Token.Placed tokens ∧
      (Parser.evaluate recoveredEnd.rules 9 p tokens (.ofConfig .initial)).map
        (fun r => r.2.failures.toList) = some [.notMatch "token" "" none] ∧
      (Parser.evaluate recoveredEnd.rules 9 twoTokens tokens (.ofConfig .initial)).map
        (fun r => r.2.failures.toList) = some [.notMatch "token" "" (some (.atIndex 1))] :=
  ⟨Grammar.placesFailures_of_anyToken
      (by simp [recoveredEnd, twoTokens, anyToken, Leaf.plain])
      (by simp [recoveredEnd, twoTokens, anyToken, Leaf.plain]),
    _, List.mem_cons_self, Token.ofTexts ["a"], Token.placed_ofTexts (List.cons_ne_nil _ _),
    by decide +kernel, by decide +kernel⟩

end TokenGrammar
