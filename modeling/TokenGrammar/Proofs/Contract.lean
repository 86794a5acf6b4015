import TokenGrammar.Proofs.Frame
import TokenGrammar.Proofs.Progress

/-!
# Contracts of parsers

A contract says what the parsers of a grammar may return, and what they and the code of
the grammar's author may log. If every parser keeps it, given that those it calls do
(`Grammar.Keeps`), then it is kept throughout every run (`Runs.keeps`), and as long as a
run has come that does not end (`Begins.keeps`). While author's code runs, what it may log
itself counts too (`Contract.inside`). `Action.Meets` is what is left to show of an action:
it is its weakest precondition, with calls known by the contract alone.
-/

namespace TokenGrammar

variable {V : Type} [TokenValue V]

structure Contract (V : Type) where
  returns : Parser V → List (Token V) → Outcome V → Prop
  logs : Failure → Prop
  /-- What the code of the grammar's author may log besides. -/
  own : Failure → Prop

def Contract.inside (S : Contract V) : Contract V := { S with logs := fun f => S.own f ∨ S.logs f }

variable {S : Contract V} {rules : Rules V}

/-- Whether an action can only end with an answer that satisfies `post`, if calls
return what they may. -/
def Action.Meets : (S : Contract V) → (rules : Rules V) → {α : Type} → (post : α → Prop) →
    Action (Parser V) V α → Prop
  | _, _, _, post, .done x => post x
  | S, rules, _, post, .call p input next =>
    ∀ o, S.returns p input o → (next o).Meets S rules post
  | S, rules, _, post, .guarded _ input region next =>
    (∀ depth maxDepth,
      (next (.error (.stackOverflow depth maxDepth (firstPos input)))).Meets S rules post) ∧
    region.Meets S rules fun o => (next o).Meets S rules post
  | S, rules, _, post, .client code next =>
    code.Meets S.inside rules (fun _ => True) ∧
    ∀ r, (∃ ctx ctx' es, Runs rules code ctx r ctx' es) → (next r).Meets S rules post
  | S, rules, _, post, .askMode next => ∀ mode, (next mode).Meets S rules post
  | S, rules, _, post, .logFailure failure fallback next =>
    S.logs (failure.orAt fallback) ∧ next.Meets S rules post
  | S, rules, _, post, .report _ next | S, rules, _, post, .clearPartials next
  | S, rules, _, post, .keepPartials _ next | S, rules, _, post, .checkReproduction _ _ _ next
  | S, rules, _, post, .configure _ next => next.Meets S rules post

theorem Action.Meets.mono {a : Action (Parser V) V α} (h : a.Meets S rules post)
    (hpost : ∀ x, post x → post' x) : a.Meets S rules post' := by
  induction a with
  | done x => exact hpost x h
  | call p input next ih => exact fun o ho => ih o (h o ho) hpost
  | guarded name input region next ihRegion ih =>
    exact ⟨fun depth maxDepth => ih _ (h.1 depth maxDepth) hpost,
      ihRegion h.2 fun o ho => ih o ho hpost⟩
  | client code next _ ih => exact ⟨h.1, fun r hr => ih r (h.2 r hr) hpost⟩
  | askMode next ih => exact fun mode => ih mode (h mode) hpost
  | logFailure _ _ next ih => exact ⟨h.1, ih h.2 hpost⟩
  | report _ next ih | clearPartials next ih | keepPartials _ next ih
  | checkReproduction _ _ _ next ih | configure _ next ih => exact ih h hpost

theorem Action.Meets.inside {a : Action (Parser V) V α} (h : a.Meets S rules post) :
    a.Meets S.inside rules post := by
  induction a generalizing S with
  | done x => exact h
  | call p input next ih => exact fun o ho => ih o (h o ho)
  | guarded name input region next ihRegion ih =>
    exact ⟨fun depth maxDepth => ih _ (h.1 depth maxDepth),
      (ihRegion h.2).mono fun o ho => ih o ho⟩
  | client code next ihCode ih => exact ⟨ihCode h.1, fun r hr => ih r (h.2 r hr)⟩
  | askMode next ih => exact fun mode => ih mode (h mode)
  | logFailure _ _ next ih => exact ⟨.inr h.1, ih h.2⟩
  | report _ next ih | clearPartials next ih | keepPartials _ next ih
  | checkReproduction _ _ _ next ih | configure _ next ih => exact ih h

def Action.Logs {P : Type 1} (own : Failure → Prop) : {α : Type} → Action P V α → Prop
  | _, .done _ => True
  | _, .call _ _ next => ∀ o, (next o).Logs own
  | _, .guarded _ _ region next => region.Logs own ∧ ∀ o, (next o).Logs own
  | _, .client code next => code.Logs own ∧ ∀ r, (next r).Logs own
  | _, .askMode next => ∀ mode, (next mode).Logs own
  | _, .logFailure failure fallback next => own (failure.orAt fallback) ∧ next.Logs own
  | _, .report _ next | _, .clearPartials next | _, .keepPartials _ next
  | _, .checkReproduction _ _ _ next | _, .configure _ next => next.Logs own

theorem Action.Logs.meets {a : Action (Parser V) V α} (h : a.Logs own)
    (hown : ∀ f, own f → S.logs f) (hpost : ∀ x, post x) : a.Meets S rules post := by
  induction a generalizing S with
  | done x => exact hpost x
  | call p input next ih => exact fun o _ => ih o (h o) hown hpost
  | guarded name input region next ihRegion ih =>
    exact ⟨fun _ _ => ih _ (h.2 _) hown hpost,
      ihRegion h.1 hown fun o => ih o (h.2 o) hown hpost⟩
  | client code next ihCode ih =>
    exact ⟨ihCode h.1 (fun f hf => .inr (hown f hf)) fun _ => trivial,
      fun r _ => ih r (h.2 r) hown hpost⟩
  | askMode next ih => exact fun mode => ih mode (h mode) hown hpost
  | logFailure _ _ next ih => exact ⟨hown _ h.1, ih h.2 hown hpost⟩
  | report _ next ih | clearPartials next ih | keepPartials _ next ih
  | checkReproduction _ _ _ next ih | configure _ next ih => exact ih h hown hpost

omit [TokenValue V] in
theorem Action.logs_of_forall {P : Type 1} (hown : ∀ f, own f) (a : Action P V α) :
    a.Logs own := by
  induction a with
  | done => trivial
  | call p input next ih => exact ih
  | guarded name input region next ihRegion ih => exact ⟨ihRegion, ih⟩
  | client code next ihCode ih => exact ⟨ihCode, ih⟩
  | askMode next ih => exact ih
  | logFailure _ _ next ih => exact ⟨hown _, ih⟩
  | report _ next ih | clearPartials next ih | keepPartials _ next ih
  | checkReproduction _ _ _ next ih | configure _ next ih => exact ih

theorem Action.meets_of_forall (hlogs : ∀ f, S.logs f) (a : Action (Parser V) V α)
    (hpost : ∀ x, post x) : a.Meets S rules post :=
  (logs_of_forall hlogs a).meets (fun _ hf => hf) hpost

theorem Action.parse_meets : (Action.parse p input).Meets S rules (S.returns p input) :=
  fun _ ho => ho

theorem Parser.Clients.meets {p : Parser V} (h : p.Clients (·.Logs S.own)) :
    p.Clients (·.Meets S.inside rules fun _ => True) :=
  h.mono fun _ hcode => hcode.meets (fun _ hf => .inl hf) fun _ => trivial

theorem Parser.clients_meets (hlogs : ∀ f, S.logs f) (p : Parser V) :
    p.Clients (·.Meets S.inside rules fun _ => True) :=
  clients_of_forall (fun code => (code.meets_of_forall hlogs fun _ => trivial).inside) p

/-- Whether each parser of the grammar keeps the contract, if those that it calls do. -/
def Grammar.Keeps (G : Grammar V) (S : Contract V) : Prop :=
  ∀ p ∈ G, ∀ input, (p.body G.rules input).Meets S G.rules (S.returns p input)

theorem Grammar.Keeps.inside {G : Grammar V} (hG : G.Keeps S) : G.Keeps S.inside :=
  fun p hp input => (hG p hp input).inside

def Event.Keeps : (S : Contract V) → Event V → Prop
  | S, ended p input o => S.returns p input o
  | S, logged f => S.logs f
  | S, within e => e.Keeps S.inside
  | S, scratch e => e.Keeps S
  | _, _ => True

theorem Event.keeps_ofCheck : ∀ e ∈ ofCheck location converted o, e.Keeps S := by
  unfold ofCheck
  split
  · exact List.forall_mem_singleton.2 trivial
  · exact nofun

omit [TokenValue V]

theorem Event.Keeps.of_failed? {e : Event V} (h : e.Keeps S) (hfailed : e.failed? = some f) :
    ∃ p input, S.returns p input (.error f) := by
  induction e generalizing S with
  | ended p input o =>
    cases o with
    | ok m => contradiction
    | error failure =>
      cases hfailed
      exact ⟨p, input, h⟩
  | within e ih => exact ih (S := S.inside) h hfailed
  | scratch e ih => exact ih h hfailed
  | _ => contradiction

theorem Event.Keeps.of_logged? {e : Event V} (h : e.Keeps S) (hlogged : e.logged? = some f) :
    S.own f ∨ S.logs f := by
  induction e generalizing S with
  | logged failure =>
    cases hlogged
    exact .inr h
  | within e ih => exact (ih h hlogged).elim .inl id
  | _ => contradiction

variable [TokenValue V]

/-- A contract that every parser keeps is kept by all events of a run, and what is to be shown
of the answer holds. -/
theorem Runs.keeps {G : Grammar V} (hG : G.Keeps S) (h : Runs G.rules a ctx x ctx' es)
    (ha : a.Only (fun _ => True) (· ∈ G)) (hmeets : a.Meets S G.rules post) :
    post x ∧ ∀ e ∈ es, e.Keeps S := by
  induction h generalizing S with
  | done => exact ⟨hmeets, nofun⟩
  | call _ _ ihParse ih =>
    obtain ⟨hreturns, hinner⟩ := ihParse hG (Grammar.calls_only ha.1 _) (hG _ ha.1 _)
    obtain ⟨hx, hrest⟩ := ih hG (ha.2 _) (hmeets _ hreturns)
    exact ⟨hx, List.forall_mem_append.2
      ⟨Event.forall_mem_span.2 ⟨trivial, hinner, hreturns⟩, hrest⟩⟩
  | refused gate _ ih =>
    obtain ⟨-, rfl⟩ := Context.enter?_error gate
    obtain ⟨hx, hrest⟩ := ih hG (ha.2 _) (hmeets.1 _ _)
    exact ⟨hx, List.forall_mem_cons.2 ⟨trivial, hrest⟩⟩
  | guarded _ _ _ ihInside ih =>
    obtain ⟨houtcome, hinner⟩ := ihInside hG ha.1 hmeets.2
    obtain ⟨hx, hrest⟩ := ih hG (ha.2 _) houtcome
    exact ⟨hx, List.forall_mem_cons.2 ⟨trivial, List.forall_mem_append.2 ⟨hinner, hrest⟩⟩⟩
  | client inside _ ihInside ih =>
    obtain ⟨-, hinner⟩ := ihInside hG.inside ha.1 hmeets.1
    obtain ⟨hx, hrest⟩ := ih hG (ha.2 _) (hmeets.2 _ ⟨_, _, _, inside⟩)
    exact ⟨hx, List.forall_mem_cons.2 ⟨trivial, List.forall_mem_append.2
      ⟨List.forall_mem_map.2 hinner, List.forall_mem_cons.2 ⟨trivial, hrest⟩⟩⟩⟩
  | askMode _ ih => exact ih hG (ha.2 _) (hmeets _)
  | logFailure _ ih =>
    obtain ⟨hx, hrest⟩ := ih hG ha.2 hmeets.2
    exact ⟨hx, List.forall_mem_cons.2 ⟨hmeets.1, hrest⟩⟩
  | report _ ih =>
    obtain ⟨hx, hrest⟩ := ih hG ha.2 hmeets
    exact ⟨hx, List.forall_mem_cons.2 ⟨trivial, hrest⟩⟩
  | clearPartials _ ih | keepPartials _ ih | configure _ ih => exact ih hG ha.2 hmeets
  | unchecked _ _ ih => exact ih hG ha.2.2 hmeets
  | checked _ _ _ ihParse ih =>
    obtain ⟨hreturns, hinner⟩ := ihParse hG (Grammar.calls_only ha.2.1 _) (hG _ ha.2.1 _)
    obtain ⟨hx, hrest⟩ := ih hG ha.2.2 hmeets
    exact ⟨hx, List.forall_mem_append.2 ⟨List.forall_mem_append.2
      ⟨List.forall_mem_map.2 (Event.forall_mem_span.2 ⟨trivial, hinner, hreturns⟩),
        Event.keeps_ofCheck⟩, hrest⟩⟩

theorem Begins.keeps {G : Grammar V} (hG : G.Keeps S) (h : Begins G.rules a ctx es)
    (ha : a.Only (fun _ => True) (· ∈ G)) (hmeets : a.Meets S G.rules post) :
    ∀ e ∈ es, e.Keeps S := by
  induction h generalizing S with
  | stopped => exact nofun
  | calling _ ih =>
    exact List.forall_mem_cons.2 ⟨trivial, ih hG (Grammar.calls_only ha.1 _) (hG _ ha.1 _)⟩
  | called parse _ ih =>
    obtain ⟨hreturns, hinner⟩ := parse.keeps hG (Grammar.calls_only ha.1 _) (hG _ ha.1 _)
    exact List.forall_mem_append.2 ⟨Event.forall_mem_span.2 ⟨trivial, hinner, hreturns⟩,
      ih hG (ha.2 _) (hmeets _ hreturns)⟩
  | refused gate _ ih =>
    obtain ⟨-, rfl⟩ := Context.enter?_error gate
    exact List.forall_mem_cons.2 ⟨trivial, ih hG (ha.2 _) (hmeets.1 _ _)⟩
  | entering _ _ ih => exact List.forall_mem_cons.2 ⟨trivial, ih hG ha.1 hmeets.2⟩
  | guarded _ inside _ ih =>
    obtain ⟨houtcome, hinner⟩ := inside.keeps hG ha.1 hmeets.2
    exact List.forall_mem_cons.2 ⟨trivial, List.forall_mem_append.2
      ⟨hinner, ih hG (ha.2 _) houtcome⟩⟩
  | invoking _ ih =>
    exact List.forall_mem_cons.2 ⟨trivial, List.forall_mem_map.2 (ih hG.inside ha.1 hmeets.1)⟩
  | client inside _ ih =>
    obtain ⟨-, hinner⟩ := inside.keeps hG.inside ha.1 hmeets.1
    exact List.forall_mem_cons.2 ⟨trivial, List.forall_mem_append.2
      ⟨List.forall_mem_map.2 hinner, List.forall_mem_cons.2
        ⟨trivial, ih hG (ha.2 _) (hmeets.2 _ ⟨_, _, _, inside⟩)⟩⟩⟩
  | askMode _ ih => exact ih hG (ha.2 _) (hmeets _)
  | logFailure _ ih => exact List.forall_mem_cons.2 ⟨hmeets.1, ih hG ha.2 hmeets.2⟩
  | report _ ih => exact List.forall_mem_cons.2 ⟨trivial, ih hG ha.2 hmeets⟩
  | clearPartials _ ih | keepPartials _ ih | configure _ ih => exact ih hG ha.2 hmeets
  | unchecked _ _ ih => exact ih hG ha.2.2 hmeets
  | checking _ _ ih =>
    exact List.forall_mem_map.2 (ih hG ⟨ha.2.1, fun _ => trivial⟩ Action.parse_meets)
  | checked _ parse _ ih =>
    obtain ⟨hreturns, hinner⟩ := parse.keeps hG (Grammar.calls_only ha.2.1 _) (hG _ ha.2.1 _)
    exact List.forall_mem_append.2 ⟨List.forall_mem_append.2
      ⟨List.forall_mem_map.2 (Event.forall_mem_span.2 ⟨trivial, hinner, hreturns⟩),
        Event.keeps_ofCheck⟩, ih hG ha.2.2 hmeets⟩

theorem Begins.parse_keeps {G : Grammar V} (hG : G.Keeps S) (hp : p ∈ G)
    (h : Begins G.rules (Action.parse p input) ctx es) : ∀ e ∈ es, e.Keeps S :=
  h.keeps hG ⟨hp, fun _ => trivial⟩ Action.parse_meets

end TokenGrammar
