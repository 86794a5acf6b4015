import TokenGrammar.Leaf
import TokenGrammar.Proofs.Equivalence
import TokenGrammar.Proofs.Placement

/-!
# Sequences within sequences

A sequence within a sequence parses what the parts before it left, puts its failures past the
end of that, and keeps what it has produced itself. Without a limit on depth the outer one
makes of all this what it makes of the parts one by one (`Parser.seqFrom_shift`). So parts of
a sequence may be grouped into sequences, to any depth, and nothing but the trace will tell
(`Parser.evaluate_regrouped`).
-/

namespace TokenGrammar

variable {V : Type}

namespace Match

theorem append_assoc (a b c : Match V) : a ++ b ++ c = a ++ (b ++ c) := by
  show Match.mk _ _ = Match.mk _ _
  rw [Match.mk.injEq]
  exact ⟨Nat.add_assoc .., List.append_assoc ..⟩

theorem append_nothing (m : Match V) : m ++ nothing = m :=
  congrArg (Match.mk m.consumed) (List.append_nil m.produced)

end Match

namespace Parser

-- ---------------------------------------------------------------------------
-- A sequence in parts
-- ---------------------------------------------------------------------------

section
variable (input : List (Token V)) (sofar : Match V)

def filled (failure : Failure) : Failure :=
  if (input.drop sofar.consumed).isEmpty then failure.orAt (endPos input) else failure

def takeUp : Outcome V → Step V
  | .ok m => Action.succeed (sofar ++ m)
  | .error failure =>
    .keepPartials sofar.produced <| Action.failWith (filled input sofar failure)

theorem seqFrom_cons (part : Parser V) (others : List (Parser V)) :
    seqFrom input (part :: others) sofar =
      (Action.clearPartials (.parse part (input.drop sofar.consumed))).bind fun o =>
        (takeUp input sofar o).bind (onMatch · (seqFrom input others)) := by
  simp only [seqFrom, Action.parse, Action.bind]
  congr 2
  funext o
  cases o <;> rfl

theorem seqFrom_append (front back : List (Parser V)) :
    seqFrom input (front ++ back) sofar =
      (seqFrom input front sofar).bind (onMatch · (seqFrom input back)) := by
  induction front generalizing sofar with
  | nil => rfl
  | cons part front ih =>
    rw [List.cons_append, seqFrom_cons, seqFrom_cons, Action.bind_assoc]
    congr 1
    funext o
    cases o with
    | ok m => exact ih (sofar ++ m)
    | error failure => rfl

/-- A failure that a sequence within a sequence has put past the end of its own input is
where the outer one would put it. -/
theorem filled_filled (m : Match V) (failure : Failure) :
    filled input sofar (filled (input.drop sofar.consumed) m failure) =
      filled input (sofar ++ m) failure := by
  have hrest : (input.drop sofar.consumed).drop m.consumed =
      input.drop (sofar ++ m).consumed := List.drop_drop ..
  simp only [filled, hrest]
  by_cases hnil : input.drop sofar.consumed = []
  · -- Nothing is left for the inner sequence, and it knows no place past that.
    have hnone : input.drop (sofar ++ m).consumed = [] := by rw [← hrest, hnil, List.drop_nil]
    simp [hnil, hnone, endPos, Failure.orAt_none]
  · rw [endPos_suffix (List.drop_suffix ..) hnil]
    simp [hnil]

end

variable [TokenValue V] {rules : Rules V}

/-- A sequence goes on as one within it does on what was left, where the outer one takes up
what the inner one comes to. -/
theorem seqFrom_shift (input : List (Token V)) (others : List (Parser V)) (sofar m : Match V)
    (ctx : Context V) (o : Outcome V) (c : Context V) :
    (seqFrom input others (sofar ++ m)).Leads rules ctx o c ↔
      ((seqFrom (input.drop sofar.consumed) others m).bind (takeUp input sofar)).Leads
        rules ctx o c := by
  induction others generalizing m ctx with
  | nil => exact Iff.rfl
  | cons part others ih =>
    have hrest : (input.drop sofar.consumed).drop m.consumed =
        input.drop (sofar ++ m).consumed := List.drop_drop ..
    rw [seqFrom_cons, seqFrom_cons, Action.bind_assoc, hrest, Action.leads_bind_iff,
      Action.leads_bind_iff]
    refine exists_congr fun o₁ => exists_congr fun c₁ => and_congr_right fun _ => ?_
    cases o₁ with
    | ok m₁ =>
      show (seqFrom input others (sofar ++ m ++ m₁)).Leads rules c₁ o c ↔ _
      rw [Match.append_assoc]
      exact ih (m ++ m₁) c₁
    | error failure =>
      simp only [takeUp, onMatch, Action.bind, Action.failWith, Action.leads_keepPartials,
        Action.leads_done, filled_filled]
      rw [show (sofar ++ m).produced = sofar.produced ++ m.produced from rfl, List.append_assoc]

end Parser

-- ---------------------------------------------------------------------------
-- Contexts beside one another
-- ---------------------------------------------------------------------------

def Context.Cleared (ctx ctx' : Context V) : Prop :=
  { ctx with partials := [] }.Beside { ctx' with partials := [] }

def Context.Akin (ctx ctx' : Context V) : Outcome V → Prop
  | .ok _ => ctx.Cleared ctx'
  | .error _ => ctx.Beside ctx'

section
variable {ctx ctx' : Context V}

theorem Context.Beside.cleared (h : ctx.Beside ctx') : ctx.Cleared ctx' := h.clearPartials

theorem Context.Beside.akin (h : ctx.Beside ctx') (o : Outcome V) : ctx.Akin ctx' o := by
  cases o with
  | ok m => exact h.cleared
  | error failure => exact h

theorem Context.Akin.cleared (h : ctx.Akin ctx' o) : ctx.Cleared ctx' := by
  cases o with
  | ok m => exact h
  | error failure => exact Beside.cleared h

theorem Context.Cleared.unlimited (h : ctx.Cleared ctx') : ctx.config.maxDepth = 0 := by
  unfold Cleared at h
  exact h.unlimited

theorem Context.Cleared.unlimited_right (h : ctx.Cleared ctx') : ctx'.config.maxDepth = 0 := by
  unfold Cleared at h
  exact h.unlimited_right

section
variable (depth : Nat) (traces : Array TraceRecord)

theorem Context.Cleared.apart_left (h : ctx.Cleared ctx') :
    Context.Cleared { ctx with depth, traces } ctx' :=
  Resembles.apart_left rfl h depth traces

theorem Context.Cleared.apart_right (h : ctx.Cleared ctx') :
    ctx.Cleared { ctx' with depth, traces } :=
  Resembles.apart_right rfl h depth traces

theorem Context.Akin.apart_left (h : ctx.Akin ctx' o) :
    Context.Akin { ctx with depth, traces } ctx' o := by
  cases o with
  | ok m => exact Cleared.apart_left depth traces h
  | error failure => exact Resembles.apart_left rfl h depth traces

theorem Context.Akin.apart_right (h : ctx.Akin ctx' o) :
    ctx.Akin { ctx' with depth, traces } o := by
  cases o with
  | ok m => exact Cleared.apart_right depth traces h
  | error failure => exact Resembles.apart_right rfl h depth traces

end

end

-- ---------------------------------------------------------------------------
-- Groups
-- ---------------------------------------------------------------------------

namespace Parser

/-- Whether the right list has some consecutive members of the left one grouped into
sequences, to any depth. -/
inductive Grouped : List (Parser V) → List (Parser V) → Prop
  | nil : Grouped [] []
  | part (p : Parser V) {members grouped : List (Parser V)} (h : Grouped members grouped) :
    Grouped (p :: members) (p :: grouped)
  | group (label : String) {front back inner grouped : List (Parser V)}
    (hinner : Grouped front inner) (h : Grouped back grouped) :
    Grouped (front ++ back) (.seq label inner :: grouped)

variable [TokenValue V] {G : Grammar V}

theorem takeUp_endsAlike {input : List (Token V)} {sofar : Match V}
    {others others' : List (Parser V)}
    (h : ∀ sofar, Action.EndsAlike G.rules Context.Cleared (seqFrom input others sofar)
      (seqFrom input others' sofar) fun o o' c c' => o' = o ∧ c.Akin c' o) (o : Outcome V) :
    Action.EndsAlike G.rules (fun c c' => c.Akin c' o)
      ((takeUp input sofar o).bind (onMatch · (seqFrom input others)))
      ((takeUp input sofar o).bind (onMatch · (seqFrom input others')))
      fun o o' c c' => o' = o ∧ c.Akin c' o := by
  cases o with
  | ok m => exact h (sofar ++ m)
  | error failure =>
    have hfails : Action.EndsAlike G.rules Context.Beside
        (Action.failWith (P := Parser V) (V := V) (filled input sofar failure))
        (Action.failWith (filled input sofar failure)) fun o o' c c' => o' = o ∧ c.Akin c' o :=
      .of_done fun c c' hc => ⟨rfl, hc⟩
    exact hfails.step (fun _ _ _ => Action.leads_keepPartials)
      (fun _ _ _ => Action.leads_keepPartials)
      fun c c' hc => Context.Resembles.keepPartials hc sofar.produced

theorem leads_seqFrom_append (input : List (Token V)) (front back : List (Parser V))
    (sofar : Match V) (ctx : Context V) (o : Outcome V) (c : Context V) :
    (seqFrom input (front ++ back) sofar).Leads G.rules ctx o c ↔
      ((seqFrom (input.drop sofar.consumed) front .nothing).bind fun o =>
        (takeUp input sofar o).bind (onMatch · (seqFrom input back))).Leads G.rules ctx o c := by
  rw [seqFrom_append, ← Action.bind_assoc, Action.leads_bind_iff, Action.leads_bind_iff]
  refine exists_congr fun o₁ => exists_congr fun c₁ => and_congr_left fun _ => ?_
  have hshift : (seqFrom input front (sofar ++ .nothing)).Leads G.rules ctx o₁ c₁ ↔ _ :=
    seqFrom_shift input front sofar .nothing ctx o₁ c₁
  rwa [Match.append_nothing] at hshift

/-- Without a limit on depth a sequence may be traced where neither side compares depth or
trace. -/
theorem traced_of_cleared {a region : Action (Parser V) V (Outcome V)}
    (h : Action.EndsAlike G.rules Context.Cleared a region fun o o' c c' => o' = o ∧ c.Akin c' o)
    (name : String) (input : List (Token V)) :
    Action.EndsAlike G.rules Context.Cleared a (.traced name input region)
      fun o o' c c' => o' = o ∧ c.Akin c' o :=
  h.traced_right name input
    (fun _ _ depth traces hc => ⟨hc.unlimited_right, hc.apart_right depth traces⟩)
    fun _ _ _ _ depth traces hc => ⟨hc.1, hc.2.apart_right depth traces⟩

theorem Grouped.endsAlike (hclients : ∀ p ∈ G, p.Clients Action.SetsNoLimit)
    {members grouped : List (Parser V)} (h : Grouped members grouped)
    (hmembers : ∀ p ∈ members, p ∈ G) (input : List (Token V)) (sofar : Match V) :
    Action.EndsAlike G.rules Context.Cleared (seqFrom input members sofar)
      (seqFrom input grouped sofar) fun o o' c c' => o' = o ∧ c.Akin c' o := by
  induction h generalizing input sofar with
  | nil => exact .of_done fun c c' hc => ⟨rfl, hc⟩
  | part p h ih =>
    obtain ⟨hp, hrest⟩ := List.forall_mem_cons.1 hmembers
    rw [seqFrom_cons, seqFrom_cons]
    refine .bind (.step (Grammar.parse_endsAlike hclients hp _)
      (fun _ _ _ => Action.leads_clearPartials) (fun _ _ _ => Action.leads_clearPartials)
      fun c c' hc => hc) fun o o' => .of_fact ?_
    rintro rfl
    exact (takeUp_endsAlike (ih hrest input) o').mono (fun c c' hc => hc.akin o')
      fun _ _ _ _ hc => hc
  | @group label front back inner grouped hinner h ihInner ih =>
    obtain ⟨hfront, hback⟩ := List.forall_mem_append.1 hmembers
    -- The inner sequence comes to what its own members come to on what is left.
    have hgroup : Action.EndsAlike G.rules Context.Cleared
        (seqFrom (input.drop sofar.consumed) front .nothing)
        (.clearPartials (.parse (.seq label inner) (input.drop sofar.consumed)))
        fun o o' c c' => o' = o ∧ c.Akin c' o := by
      have htraced := traced_of_cleared (ihInner hfront (input.drop sofar.consumed) .nothing)
        label (input.drop sofar.consumed)
      exact htraced.step (fun _ _ _ => Iff.rfl)
        (fun _ _ _ => Action.leads_clearPartials.trans Action.leads_parse_iff) fun c c' hc => hc
    rw [seqFrom_cons]
    refine .step (.bind hgroup fun o o' => .of_fact ?_)
      (leads_seqFrom_append input front back sofar) (fun _ _ _ => Iff.rfl) fun c c' hc => hc
    rintro rfl
    exact takeUp_endsAlike (ih hback input) o'

-- ---------------------------------------------------------------------------
-- Evaluations
-- ---------------------------------------------------------------------------

omit [TokenValue V] in
/-- Contexts at one depth that are alike differ in the trace, and in what a failed sequence has
left where none has failed. -/
theorem akin_eq {ctx ctx' : Context V} {o : Outcome V} (h : ctx.Akin ctx' o)
    (hdepth : ctx'.depth = ctx.depth) :
    ctx' = { ctx with traces := ctx'.traces, partials := ctx'.partials } ∧
      (o.isMatch = false → ctx'.partials = ctx.partials) := by
  have hcleared := Context.Beside.eq h.cleared
  refine ⟨?_, fun hfails => ?_⟩
  · have hsame : ctx' = { ctx with
        depth := ctx'.depth, traces := ctx'.traces, partials := ctx'.partials } :=
      congrArg (fun c : Context V => { c with partials := ctx'.partials }) hcleared
    rwa [hdepth] at hsame
  · cases o with
    | ok m => cases hfails
    | error failure => exact Context.Resembles.partials h

/-- Parts of a sequence may be grouped into sequences within it, to any depth: without a limit
on depth an evaluation has the same answer, and leaves the same context but for the trace and
for what a failed sequence has left, which nothing reads. -/
theorem evaluate_regrouped (hclients : ∀ p ∈ G, p.Clients Action.SetsNoLimit)
    {members grouped : List (Parser V)} (h : Grouped members grouped)
    (hmembers : ∀ p ∈ members, p ∈ G) (label label' : String) (tokens : List (Token V))
    {ctx : Context V} (hlimit : ctx.config.maxDepth = 0) :
    ((∃ n, (evaluate G.rules n (.seq label members) tokens ctx).isSome) ↔
      ∃ n, (evaluate G.rules n (.seq label' grouped) tokens ctx).isSome) ∧
    ∀ m n answer answer' ended ended',
      evaluate G.rules m (.seq label members) tokens ctx = some (answer, ended) →
      evaluate G.rules n (.seq label' grouped) tokens ctx = some (answer', ended') →
      answer' = answer ∧
        ended' = { ended with traces := ended'.traces, partials := ended'.partials } := by
  have hends : Action.EndsAlike G.rules Context.Cleared ((seq label members).body G.rules tokens)
      ((seq label' grouped).body G.rules tokens) fun o o' c c' => o' = o ∧ c.Akin c' o :=
    (traced_of_cleared (h.endsAlike hclients hmembers tokens .nothing) label' tokens).traced_left
      label tokens (fun _ _ depth traces hc => ⟨hc.unlimited, hc.apart_left depth traces⟩)
      fun _ _ _ _ depth traces hc => ⟨hc.1, hc.2.apart_left depth traces⟩
  have hctx : ctx.reset.Cleared ctx.reset := Context.Beside.cleared (.refl hlimit)
  refine ⟨?_, ?_⟩
  · simp only [evaluate_isSome, exists_isSome_iff]
    exact hends.ends_iff hctx
  · intro m n answer answer' ended ended' hevaluate hevaluate'
    obtain ⟨o, c, hrun, rfl, rfl⟩ := evaluate_eq_some_iff.1 hevaluate
    obtain ⟨o', c', hrun', rfl, rfl⟩ := evaluate_eq_some_iff.1 hevaluate'
    obtain ⟨rfl, hakin⟩ :=
      hends.related hctx (exists_run_iff.1 ⟨m, hrun⟩) (exists_run_iff.1 ⟨n, hrun'⟩)
    obtain ⟨_, hruns⟩ := runs_of_run hrun
    obtain ⟨_, hruns'⟩ := runs_of_run hrun'
    obtain ⟨heq, hpartials⟩ := akin_eq hakin (hruns'.depth.trans hruns.depth.symm)
    generalize c'.traces = traces, c'.partials = left at heq hpartials
    subst heq
    cases o' with
    | ok m => exact ⟨rfl, rfl⟩
    | error failure =>
      obtain rfl : left = c.partials := hpartials rfl
      exact ⟨rfl, rfl⟩

end Parser

def bracketed : List (Parser Int64) := [Leaf.punctuation "(", Leaf.any, Leaf.punctuation ")"]

def bracketedApart : List (Parser Int64) :=
  [.seq "none" [], .seq "opened" [Leaf.punctuation "(", .seq "inside" [Leaf.any]],
    Leaf.punctuation ")"]

def bracketing : Grammar Int64 :=
  .ofList (fun _ => none) bracketed
    (by simp [bracketed, Parser.parts, Leaf.punctuation, Leaf.plain, Leaf.any, Leaf.tracedPlain])
    (by simp [bracketed, Parser.Clients, Leaf.punctuation, Leaf.plain, Leaf.any, Leaf.tracedPlain,
      Action.Only, Action.traced])

/-- The bracket that is missing is missed past the last token, and the token before it is kept,
whether it is matched in a group or not. -/
theorem bracketed_regrouped : ∃ m n answer ended ended',
    Parser.evaluate bracketing.rules m (.seq "flat" bracketed) (Token.ofTexts ["(", "a"])
      (.ofConfig ⟨0, false, .safe, false⟩) = some (answer, ended) ∧
    Parser.evaluate bracketing.rules n (.seq "deep" bracketedApart) (Token.ofTexts ["(", "a"])
      (.ofConfig ⟨0, false, .safe, false⟩) = some (answer, ended') ∧
    ended.failures = #[.notMatch ")" "" (some (.past (.atIndex 1)))] ∧
    ended.results.map (·.raw) = ["a"] ∧ ended'.results = ended.results := by
  have hclients : ∀ p ∈ bracketing, p.Clients Action.SetsNoLimit := by
    simp [bracketing, bracketed, Parser.Clients, Leaf.punctuation, Leaf.plain, Leaf.any,
      Leaf.tracedPlain, Action.SetsNoLimit, Action.Changes, Action.traced]
  have hgrouped : Parser.Grouped bracketed bracketedApart :=
    .group "none" .nil (.group "opened" (.part _ (.group "inside" (.part _ .nil) .nil))
      (.part _ .nil))
  obtain ⟨-, hsame⟩ := Parser.evaluate_regrouped hclients hgrouped (fun _ hp => hp) "flat" "deep"
    (Token.ofTexts ["(", "a"])
    (rfl : (Context.ofConfig ⟨0, false, .safe, false⟩).config.maxDepth = 0)
  have hflat : (Parser.evaluate bracketing.rules 4 (.seq "flat" bracketed)
      (Token.ofTexts ["(", "a"]) (.ofConfig ⟨0, false, .safe, false⟩)).map
        (fun r => (r.2.failures, r.2.results.map (·.raw))) =
          some (#[.notMatch ")" "" (some (.past (.atIndex 1)))], ["a"]) := by
    decide +kernel
  have hdeep : (Parser.evaluate bracketing.rules 4 (.seq "deep" bracketedApart)
      (Token.ofTexts ["(", "a"]) (.ofConfig ⟨0, false, .safe, false⟩)).isSome = true := by
    decide +kernel
  obtain ⟨⟨answer, ended⟩, hended, heq⟩ := Option.map_eq_some_iff.1 hflat
  obtain ⟨⟨answer', ended'⟩, hended'⟩ := Option.isSome_iff_exists.1 hdeep
  obtain ⟨hfailures, hresults⟩ := Prod.mk.inj heq
  obtain ⟨rfl, hleft⟩ := hsame _ _ _ _ _ _ hended hended'
  exact ⟨4, 4, answer', ended, ended', hended, hended', hfailures, hresults, by rw [hleft]⟩

def limitThenTake : List (Parser Int64) :=
  [Leaf.configuring ({ · with maxDepth := 1 }), Leaf.take 1 1]

def limitThenTakeApart : List (Parser Int64) :=
  [Leaf.configuring ({ · with maxDepth := 1 }), .seq "apart" [Leaf.take 1 1]]

/-- Where code of a grammar's author sets a limit on depth, the guard may refuse a group. -/
theorem limitThenTake_not_regrouped :
    Parser.Grouped limitThenTake limitThenTakeApart ∧
    (Parser.evaluate (fun _ => none) 4 (.seq "flat" limitThenTake) (Token.ofTexts ["a"])
      (.ofConfig ⟨0, false, .safe, false⟩)).map (·.1.toOption) = some (some [0]) ∧
    (Parser.evaluate (fun _ => none) 4 (.seq "deep" limitThenTakeApart) (Token.ofTexts ["a"])
      (.ofConfig ⟨0, false, .safe, false⟩)).map (Event.failure? ·.1) =
        some (some (.stackOverflow 1 1 (some (.atIndex 0)))) := by
  refine ⟨.part _ (.group "apart" (.part _ .nil) .nil), ?_, ?_⟩ <;> decide +kernel

end TokenGrammar
