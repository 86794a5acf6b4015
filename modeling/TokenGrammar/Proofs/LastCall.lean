import TokenGrammar.Proofs.Grammar

/-!
# The last call of a run

If the last event of a run is that a call failed, then the run ends with what it makes of
the failure. `Action.HandsOn` relates the two, given the input of the call. What a parser
makes of a failure has no place if the failure has none and came from the end of the
parser's own input; but a sequence puts it there, where there is any (`Parser.MakesOf`).
-/

namespace TokenGrammar

variable {V : Type}

namespace Action

def EndsSilently (ends : α → Prop) : Action (Parser V) V α → Prop
  | .done x => ends x
  | .askMode next => ∀ mode, (next mode).EndsSilently ends
  | .clearPartials next | .keepPartials _ next | .checkReproduction _ _ _ next
  | .configure _ next => next.EndsSilently ends
  | .call .. | .guarded .. | .client .. | .logFailure .. | .report .. => True

/-- Whether an action that goes on without an event after a call on `rest` fails with `f`
ends with an answer `x` for which `rel rest f x`. -/
def HandsOn : {α : Type} → (rel : List (Token V) → Failure → α → Prop) →
    Action (Parser V) V α → Prop
  | _, _, .done _ => True
  | _, rel, .call _ input next =>
    (∀ f, (next (.error f)).EndsSilently (rel input f)) ∧ ∀ o, (next o).HandsOn rel
  | _, rel, .guarded _ _ region next =>
    region.HandsOn (fun rest f o => (next o).EndsSilently (rel rest f)) ∧
      ∀ o, (next o).HandsOn rel
  | _, rel, .client _ next => ∀ r, (next r).HandsOn rel
  | _, rel, .askMode next => ∀ mode, (next mode).HandsOn rel
  | _, rel, .logFailure _ _ next | _, rel, .report _ next | _, rel, .clearPartials next
  | _, rel, .keepPartials _ next | _, rel, .checkReproduction _ _ _ next
  | _, rel, .configure _ next => next.HandsOn rel

theorem endsSilently_of_forall (a : Action (Parser V) V α) (hends : ∀ x, ends x) :
    a.EndsSilently ends := by
  induction a with
  | done x => exact hends x
  | askMode next ih => exact fun mode => ih mode hends
  | clearPartials next ih | keepPartials _ next ih | checkReproduction _ _ _ next ih
  | configure _ next ih => exact ih hends
  | _ => trivial

end Action

-- ---------------------------------------------------------------------------
-- The combinators
-- ---------------------------------------------------------------------------

theorem Failure.pos_orAt {f : Failure} (hf : f.pos = none) (place : Option Position) :
    (f.orAt place).pos = place := by
  cases f <;> cases hf <;> rfl

theorem Failure.pos_join_concat {f : Failure} (hf : f.pos = none) (failures : List Failure) :
    (join (failures ++ [f]) none).pos = none := by
  cases failures with
  | nil => exact hf
  | cons first failures => cases failures <;> rfl

namespace Parser

/-- What a parser on `input` may end with after a call on `rest` that fails with `f`. A
failure at the end of the input that has no place is put there, if there is any. -/
def MakesOf (input rest : List (Token V)) (f : Failure) (o : Outcome V) : Prop :=
  rest <:+ input ∧ (rest = [] → f.pos = none → ∀ g, o = .error g → g.pos = endPos input)

section
variable {input rest : List (Token V)} {f g : Failure}

theorem makesOf_of_ne_nil (hrest : rest <:+ input) (hne : rest ≠ []) (o : Outcome V) :
    MakesOf input rest f o :=
  ⟨hrest, fun hnil => absurd hnil hne⟩

theorem makesOf_ok (hrest : rest <:+ input) (m : Match V) : MakesOf input rest f (.ok m) :=
  ⟨hrest, fun _ _ _ h => nomatch h⟩

theorem makesOf_error (h : input = [] → f.pos = none → g.pos = none) :
    MakesOf input input f (.error g) := by
  refine ⟨List.suffix_refl _, ?_⟩
  rintro rfl hf _ ⟨⟩
  exact h rfl hf

theorem makesOf_self : MakesOf input input f (.error f) := makesOf_error fun _ hf => hf

theorem makesOf_own (h : g.pos = firstPos input) : MakesOf input input f (.error g) :=
  makesOf_error fun hnil _ => by rw [h, hnil]; rfl

theorem makesOf_joined (failures : List Failure) :
    MakesOf input input f (.error (.join (failures ++ [f]) (firstPos input))) :=
  makesOf_error fun hnil hf => by rw [hnil]; exact Failure.pos_join_concat hf failures

end

variable {input : List (Token V)}

theorem seqFrom_handsOn (parts : List (Parser V)) (sofar : Match V) :
    (seqFrom input parts sofar).HandsOn (MakesOf input) := by
  induction parts generalizing sofar with
  | nil => trivial
  | cons part parts ih =>
    refine ⟨fun f => ⟨List.drop_suffix .., fun hnil hf g hg => ?_⟩, fun o => ?_⟩
    · simp only [hnil, List.isEmpty_nil, ↓reduceIte, Except.error.injEq] at hg
      rw [← hg, Failure.pos_orAt hf]
    · cases o with
      | ok m => exact ih _
      | error failure => trivial

-- A failed option is the last event only if no option is left to try.
theorem longestFrom_handsOn (options : List (Parser V)) (best : Option (Match V))
    (failures : List Failure) :
    (longestFrom input options best failures).HandsOn (MakesOf input) := by
  induction options generalizing best failures with
  | nil => cases best <;> trivial
  | cons option options ih =>
    refine ⟨fun f => ?_, fun o => ?_⟩
    · simp only
      split
      · cases options with
        | nil =>
          cases best with
          | none => exact makesOf_joined failures
          | some b => exact makesOf_ok (List.suffix_refl _) b
        | cons => trivial
      · exact makesOf_self
    · cases o with
      | ok m => exact ih _ _
      | error failure =>
        simp only
        split
        · exact ih _ _
        · trivial

theorem firstFrom_handsOn (options : List (Parser V)) (failures : List Failure) :
    (firstFrom input options failures).HandsOn (MakesOf input) := by
  induction options generalizing failures with
  | nil => trivial
  | cons option options ih =>
    refine ⟨fun f => ?_, fun o => ?_⟩
    · simp only
      split
      · cases options with
        | nil => exact makesOf_joined failures
        | cons => trivial
      · exact makesOf_self
    · cases o with
      | ok m => trivial
      | error failure =>
        simp only
        split
        · exact ih _
        · trivial

theorem comparedFrom_handsOn (location : String) (options : List (Parser V)) (number : Nat)
    (comparison : Option (Comparison V)) (failures : List Failure) :
    (comparedFrom location input options number comparison failures).HandsOn (MakesOf input) := by
  induction options generalizing number comparison failures with
  | nil =>
    cases comparison with
    | none => trivial
    | some c =>
      rw [comparedFrom]
      split <;> trivial
  | cons option options ih =>
    refine ⟨fun f => ?_, fun o => ?_⟩
    · simp only
      split
      · cases options with
        | nil =>
          cases comparison with
          | none => exact makesOf_joined failures
          | some c =>
            rw [comparedFrom]
            split
            · trivial
            · exact makesOf_ok (List.suffix_refl _) _
        | cons => trivial
      · exact makesOf_self
    · cases o with
      | ok m => exact ih _ _ _
      | error failure =>
        simp only
        split
        · exact ih _ _ _
        · trivial

theorem choose_handsOn (location : String) (options : List (Parser V)) (mode : ChoiceMode) :
    (choose location options input mode).HandsOn (MakesOf input) := by
  cases mode with
  | safe => exact longestFrom_handsOn ..
  | fast => exact firstFrom_handsOn ..
  | tryFast => exact comparedFrom_handsOn ..

theorem endRepetition_handsOn (label : String) (min count : Nat) (sofar : Match V) :
    (endRepetition label min input count sofar).HandsOn (MakesOf input) := by
  unfold endRepetition
  split <;> trivial

theorem repeatFrom_handsOn (label : String) (min : Nat) (max : Option Nat) (item : Parser V)
    (budget count : Nat) (sofar : Match V) :
    (repeatFrom label min max item input budget count sofar).HandsOn (MakesOf input) := by
  induction budget generalizing count sofar with
  | zero => exact endRepetition_handsOn ..
  | succ budget ih =>
    rw [repeatFrom]
    split
    · exact endRepetition_handsOn ..
    · next hgo =>
      have hne : input.drop sofar.consumed ≠ [] := by
        simp only [Bool.or_eq_true, decide_eq_true_eq, not_or] at hgo
        simpa using hgo.2
      refine ⟨fun f => Action.endsSilently_of_forall _ fun o =>
        makesOf_of_ne_nil (List.drop_suffix ..) hne o, fun o => ?_⟩
      cases o with
      | ok m =>
        simp only
        split
        · exact endRepetition_handsOn ..
        · exact ih _ _
      | error failure =>
        simp only
        split
        · exact endRepetition_handsOn ..
        · trivial

theorem resync_handsOn {skipUntil : Parser V} (hrest : rest <:+ input) (i : Nat) :
    (resync skipUntil rest i).HandsOn (MakesOf input) := by
  induction rest generalizing i with
  | nil => trivial
  | cons token rest ih =>
    refine ⟨fun f => Action.endsSilently_of_forall _ fun o =>
      makesOf_of_ne_nil hrest (List.cons_ne_nil token rest) o, fun o => ?_⟩
    cases o with
    | ok m => trivial
    | error failure => exact ih ((List.suffix_cons token rest).trans hrest) _

theorem call_handsOn (item : Parser V) :
    (Action.parse item input).HandsOn (MakesOf input) :=
  ⟨fun _ => makesOf_self, fun _ => trivial⟩

theorem body_handsOn (rules : Rules V) (p : Parser V) (input : List (Token V)) :
    (p.body rules input).HandsOn (MakesOf input) := by
  have htraced : ∀ {name} {region : Step V}, region.HandsOn (MakesOf input) →
      (Action.traced name input region).HandsOn (MakesOf input) :=
    fun h => ⟨h, fun _ => trivial⟩
  cases p with
  | leaf program => exact fun _ => trivial
  | seq label parts => exact htraced (seqFrom_handsOn parts .nothing)
  | choice location mode options =>
    cases mode with
    | some mode => exact htraced (choose_handsOn location options mode)
    | none => exact htraced (choose_handsOn location options)
  | repetition label min max item => exact htraced (repeatFrom_handsOn ..)
  | optional item =>
    refine htraced ⟨fun f => ?_, fun o => ?_⟩
    · simp only
      split
      · exact makesOf_ok (List.suffix_refl _) .nothing
      · exact makesOf_self
    · cases o with
      | ok m => trivial
      | error failure => simp only; split <;> trivial
  | transform location item convert =>
    refine ⟨fun _ => makesOf_self, fun o => ?_⟩
    cases o with
    | ok m => exact fun r => by cases r <;> trivial
    | error failure => trivial
  | before test => exact htraced trivial
  | empty label =>
    cases label with
    | none => trivial
    | some label => exact htraced trivial
  | atEnd => cases input <;> exact htraced trivial
  | recover search body skipUntil =>
    refine htraced ⟨⟨fun _ => makesOf_self, fun _ => trivial⟩, fun checked => ?_⟩
    cases checked with
    | error failure => trivial
    | ok _ =>
      refine ⟨⟨fun _ => trivial, fun _ => trivial⟩, fun o => ?_⟩
      cases o with
      | ok m => trivial
      | error failure => exact htraced (resync_handsOn (List.suffix_refl _) 0)
  | lookahead item | peek item =>
    refine htraced ⟨fun _ => makesOf_self, fun o => ?_⟩
    cases o <;> trivial
  | notFollowedBy item =>
    refine htraced ⟨fun _ => makesOf_ok (List.suffix_refl _) .nothing, fun o => ?_⟩
    cases o <;> trivial
  | labelled label item =>
    refine ⟨fun _ => makesOf_own rfl, fun o => ?_⟩
    cases o <;> trivial
  | expected message | fail message => trivial
  | trace label item => exact htraced (call_handsOn item)
  | ref name rule | deferred rule =>
    refine htraced ?_
    cases rules rule with
    | none => trivial
    | some body => exact call_handsOn body

end Parser

-- ---------------------------------------------------------------------------
-- The last event
-- ---------------------------------------------------------------------------

section
variable {xs ys : List α}

theorem getLast?_append_eq_some : (xs ++ ys).getLast? = some x ↔
    ys.getLast? = some x ∨ ys = [] ∧ xs.getLast? = some x := by
  rw [List.getLast?_append, Option.or_eq_some_iff, List.getLast?_eq_none_iff]

theorem getLast?_cons_eq_some : (y :: ys).getLast? = some x ↔
    ys.getLast? = some x ∨ ys = [] ∧ y = x := by
  rw [← List.singleton_append, getLast?_append_eq_some, List.getLast?_singleton, Option.some.injEq]

end

theorem Event.getLast?_span {o : Outcome V} :
    (Event.span p input o nested).getLast? = some (.ended p input o) := by
  rw [span, ← List.cons_append, List.getLast?_concat]

variable [TokenValue V] {rules : Rules V} {G : Grammar V}

theorem Runs.endsSilently (h : Runs rules a ctx x ctx' es) (hes : es = [])
    (ha : a.EndsSilently ends) : ends x := by
  induction h with
  | done => exact ha
  | askMode _ ih => exact ih hes (ha _)
  | clearPartials _ ih | keepPartials _ ih | unchecked _ _ ih | configure _ ih => exact ih hes ha
  | call | checked => simp [Event.span] at hes
  | refused | guarded | client | logFailure | report => cases hes

/-- Whether the last of some events are those of a call on `rest` that fails with `f`. -/
def Grammar.LastCall (G : Grammar V) (es : List (Event V)) (q : Parser V)
    (rest : List (Token V)) (f : Failure) : Prop :=
  q ∈ G ∧ ∃ front ctx ctx' nested, Runs G.rules (q.body G.rules rest) ctx (.error f) ctx' nested ∧
    es = front ++ Event.span q rest (.error f) nested

namespace Grammar.LastCall

theorem append (h : G.LastCall es q rest f) (earlier : List (Event V)) :
    G.LastCall (earlier ++ es) q rest f := by
  obtain ⟨hq, front, ctx, ctx', nested, hrun, rfl⟩ := h
  exact ⟨hq, earlier ++ front, ctx, ctx', nested, hrun, (List.append_assoc ..).symm⟩

theorem cons (h : G.LastCall es q rest f) (e : Event V) : G.LastCall (e :: es) q rest f :=
  h.append [e]

end Grammar.LastCall

/-- A run whose last event is that a call fails ends with what it makes of the failure. -/
theorem Runs.handsOn (h : Runs G.rules a ctx x ctx' es)
    (hcalls : a.Only (fun _ => True) (· ∈ G)) (ha : a.HandsOn rel)
    (hlast : es.getLast? = some (.ended q rest (.error f))) :
    rel rest f x ∧ G.LastCall es q rest f := by
  induction h with
  | done => cases hlast
  | call parse hrest _ ih =>
    rcases getLast?_append_eq_some.1 hlast with hnext | ⟨rfl, hended⟩
    · obtain ⟨hrel, hcall⟩ := ih (hcalls.2 _) (ha.2 _) hnext
      exact ⟨hrel, hcall.append _⟩
    · cases Event.getLast?_span.symm.trans hended
      refine ⟨hrest.endsSilently rfl (ha.1 f), ?_⟩
      rw [List.append_nil]
      exact ⟨hcalls.1, [], _, _, _, parse, rfl⟩
  | refused _ _ ih =>
    rcases getLast?_cons_eq_some.1 hlast with hnext | ⟨-, hrefused⟩
    · obtain ⟨hrel, hcall⟩ := ih (hcalls.2 _) (ha.2 _) hnext
      exact ⟨hrel, hcall.cons _⟩
    · cases hrefused
  | guarded _ _ hrest ihInside ih =>
    rcases getLast?_cons_eq_some.1 hlast with hnext | ⟨-, hentered⟩
    · rcases getLast?_append_eq_some.1 hnext with hnext | ⟨rfl, hinside⟩
      · obtain ⟨hrel, hcall⟩ := ih (hcalls.2 _) (ha.2 _) hnext
        exact ⟨hrel, (hcall.append _).cons _⟩
      · obtain ⟨hrel, hcall⟩ := ihInside hcalls.1 ha.1 hinside
        refine ⟨hrest.endsSilently rfl hrel, ?_⟩
        rw [List.append_nil]
        exact hcall.cons _
    · cases hentered
  | client _ _ _ ih =>
    rcases getLast?_cons_eq_some.1 hlast with hnext | ⟨-, hinvoked⟩
    · rcases getLast?_append_eq_some.1 hnext with hnext | ⟨hnil, -⟩
      · rcases getLast?_cons_eq_some.1 hnext with hnext | ⟨-, hanswered⟩
        · obtain ⟨hrel, hcall⟩ := ih (hcalls.2 _) (ha _) hnext
          exact ⟨hrel, ((hcall.cons _).append _).cons _⟩
        · cases hanswered
      · cases hnil
    · cases hinvoked
  | askMode _ ih => exact ih (hcalls.2 _) (ha _) hlast
  | logFailure _ ih | report _ ih =>
    rcases getLast?_cons_eq_some.1 hlast with hnext | ⟨-, hnoted⟩
    · obtain ⟨hrel, hcall⟩ := ih hcalls.2 ha hnext
      exact ⟨hrel, hcall.cons _⟩
    · cases hnoted
  | clearPartials _ ih | keepPartials _ ih | configure _ ih => exact ih hcalls.2 ha hlast
  | unchecked _ _ ih => exact ih hcalls.2.2 ha hlast
  | checked _ _ _ _ ih =>
    rcases getLast?_append_eq_some.1 hlast with hnext | ⟨-, hcheck⟩
    · obtain ⟨hrel, hcall⟩ := ih hcalls.2.2 ha hnext
      exact ⟨hrel, hcall.append _⟩
    · have hmem := List.mem_of_getLast? hcheck
      rw [Event.ofCheck] at hmem
      split at hmem <;> simp at hmem

end TokenGrammar
