import TokenGrammar.Proofs.Runs

/-!
# Grammars and what their parsers may do

`Action.Only` bounds the steps of an action, whichever way it goes, and
`Parser.body_only` bounds those of a parser by its parts and its author's code. The
loops of the combinators do little but call parsers (`Action.CallsOn`), so that what is
read off the steps of an action needs one law for all of them. A grammar is a set of
parsers, over given rules, that is closed under both: what a parser of the grammar may
call, on any input and after any outcomes, is a parser of the grammar.
-/

namespace TokenGrammar

/-- What a step may do to a context, or learn from it, other than pass the depth
guard and be traced. -/
inductive Effect
  | mode
  | log
  | report
  | partials
  | check
  | options
  deriving DecidableEq

variable {P : Type 1} {V : Type}

/-- Whether an action, whatever the outcomes it meets, has no other effects than
`E` and calls no other parsers than `C`. -/
def Action.Only (E : Effect → Prop) (C : P → Prop) : {α : Type} → Action P V α → Prop
  | _, .done _ => True
  | _, .call p _ next => C p ∧ ∀ o, (next o).Only E C
  | _, .guarded _ _ region next => region.Only E C ∧ ∀ o, (next o).Only E C
  | _, .client code next => code.Only E C ∧ ∀ r, (next r).Only E C
  | _, .askMode next => E .mode ∧ ∀ mode, (next mode).Only E C
  | _, .logFailure _ _ next => E .log ∧ next.Only E C
  | _, .report _ next => E .report ∧ next.Only E C
  | _, .clearPartials next => E .partials ∧ next.Only E C
  | _, .keepPartials _ next => E .partials ∧ next.Only E C
  | _, .checkReproduction p _ _ next => E .check ∧ C p ∧ next.Only E C
  | _, .configure _ next => E .options ∧ next.Only E C

theorem Action.Only.and {a : Action P V α} (h : a.Only E C) (h' : a.Only E' C')
    (hE : ∀ e, E e → E' e → F e) (hC : ∀ p, C p → C' p → D p) : a.Only F D := by
  induction a with
  | done => trivial
  | call p input next ih => exact ⟨hC _ h.1 h'.1, fun o => ih o (h.2 o) (h'.2 o)⟩
  | guarded name input region next ihRegion ih =>
    exact ⟨ihRegion h.1 h'.1, fun o => ih o (h.2 o) (h'.2 o)⟩
  | client code next ihCode ih => exact ⟨ihCode h.1 h'.1, fun r => ih r (h.2 r) (h'.2 r)⟩
  | askMode next ih => exact ⟨hE _ h.1 h'.1, fun mode => ih mode (h.2 mode) (h'.2 mode)⟩
  | logFailure _ _ next ih | report _ next ih | clearPartials next ih | keepPartials _ next ih
  | configure _ next ih => exact ⟨hE _ h.1 h'.1, ih h.2 h'.2⟩
  | checkReproduction p location converted next ih =>
    exact ⟨hE _ h.1 h'.1, hC _ h.2.1 h'.2.1, ih h.2.2 h'.2.2⟩

theorem Action.Only.mono {a : Action P V α} (h : a.Only E C) (hE : ∀ e, E e → E' e)
    (hC : ∀ p, C p → C' p) : a.Only E' C' :=
  h.and h (fun e he _ => hE e he) (fun p hp _ => hC p hp)

theorem Action.only_of_forall (hE : ∀ e, E e) (hC : ∀ p, C p) (a : Action P V α) :
    a.Only E C := by
  induction a with
  | done => trivial
  | call p input next ih => exact ⟨hC _, ih⟩
  | guarded name input region next ihRegion ih => exact ⟨ihRegion, ih⟩
  | client code next ihCode ih => exact ⟨ihCode, ih⟩
  | askMode next ih => exact ⟨hE _, ih⟩
  | logFailure _ _ next ih | report _ next ih | clearPartials next ih | keepPartials _ next ih
  | configure _ next ih => exact ⟨hE _, ih⟩
  | checkReproduction p location converted next ih => exact ⟨hE _, hC _, ih⟩

theorem Action.Only.bind {a : Action P V α} {f : α → Action P V β} (h : a.Only E C)
    (hf : ∀ x, (f x).Only E C) : (a.bind f).Only E C := by
  induction a with
  | done x => exact hf x
  | call p input next ih => exact ⟨h.1, fun o => ih o (h.2 o) hf⟩
  | guarded name input region next _ ih => exact ⟨h.1, fun o => ih o (h.2 o) hf⟩
  | client code next _ ih => exact ⟨h.1, fun r => ih r (h.2 r) hf⟩
  | askMode next ih => exact ⟨h.1, fun mode => ih mode (h.2 mode) hf⟩
  | logFailure _ _ next ih | report _ next ih | clearPartials next ih | keepPartials _ next ih
  | configure _ next ih => exact ⟨h.1, ih h.2 hf⟩
  | checkReproduction p location converted next ih => exact ⟨h.1, h.2.1, ih h.2.2 hf⟩

/-- Whether an action touches the context only through the depth guard and the
trace. It may call parsers. -/
def Action.Plain (a : Action P V α) : Prop := a.Only (fun _ => False) (fun _ => True)

def Action.KeepsOptions (a : Action P V α) : Prop := a.Only (· ≠ .options) (fun _ => True)

theorem Action.Plain.keepsOptions {a : Action P V α} (h : a.Plain) : a.KeepsOptions :=
  h.mono (fun _ he => he.elim) (fun _ hp => hp)

def Action.ModeFree (a : Action P V α) : Prop :=
  a.Only (fun e => e ≠ .mode ∧ e ≠ .options) (fun _ => True)

theorem Action.ModeFree.keepsOptions {a : Action P V α} (h : a.ModeFree) : a.KeepsOptions :=
  h.mono (fun _ he => he.2) (fun _ hp => hp)

def Action.Changes (ok : (Config → Config) → Prop) : {α : Type} → Action P V α → Prop
  | _, .done _ => True
  | _, .call _ _ next => ∀ o, (next o).Changes ok
  | _, .guarded _ _ region next => region.Changes ok ∧ ∀ o, (next o).Changes ok
  | _, .client code next => code.Changes ok ∧ ∀ r, (next r).Changes ok
  | _, .askMode next => ∀ mode, (next mode).Changes ok
  | _, .logFailure _ _ next | _, .report _ next | _, .clearPartials next
  | _, .keepPartials _ next | _, .checkReproduction _ _ _ next => next.Changes ok
  | _, .configure change next => ok change ∧ next.Changes ok

theorem Action.Changes.mono {a : Action P V α} (h : a.Changes ok)
    (himp : ∀ change, ok change → ok' change) : a.Changes ok' := by
  induction a with
  | done => trivial
  | call p input next ih => exact fun o => ih o (h o)
  | guarded name input region next ihRegion ih => exact ⟨ihRegion h.1, fun o => ih o (h.2 o)⟩
  | client code next ihCode ih => exact ⟨ihCode h.1, fun r => ih r (h.2 r)⟩
  | askMode next ih => exact fun mode => ih mode (h mode)
  | logFailure _ _ next ih | report _ next ih | clearPartials next ih | keepPartials _ next ih
  | checkReproduction _ _ _ next ih => exact ih h
  | configure change next ih => exact ⟨himp change h.1, ih h.2⟩

theorem Action.Only.changes {a : Action P V α} (h : a.Only E C) (hoptions : ¬ E .options) :
    a.Changes ok := by
  induction a with
  | done => trivial
  | call p input next ih => exact fun o => ih o (h.2 o)
  | guarded name input region next ihRegion ih => exact ⟨ihRegion h.1, fun o => ih o (h.2 o)⟩
  | client code next ihCode ih => exact ⟨ihCode h.1, fun r => ih r (h.2 r)⟩
  | askMode next ih => exact fun mode => ih mode (h.2 mode)
  | logFailure _ _ next ih | report _ next ih | clearPartials next ih | keepPartials _ next ih =>
    exact ih h.2
  | checkReproduction p location converted next ih => exact ih h.2.2
  | configure change next ih => exact absurd h.1 hoptions

/-- Whether the code that an author wrote into a parser is all `ok`. -/
def Parser.Clients (ok : {γ : Type} → Action (Parser V) V (Except Failure γ) → Prop) :
    Parser V → Prop
  | .leaf program => ∀ input, ok (program input)
  | .transform _ _ convert => ∀ tokens, ok (convert tokens)
  | _ => True

theorem Parser.Clients.mono {ok ok' : {γ : Type} → Action (Parser V) V (Except Failure γ) → Prop}
    {p : Parser V} (h : p.Clients ok)
    (himp : ∀ {γ : Type} (a : Action (Parser V) V (Except Failure γ)), ok a → ok' a) :
    p.Clients ok' := by
  cases p with
  | leaf program => exact fun input => himp _ (h input)
  | transform location item convert => exact fun tokens => himp _ (h tokens)
  | _ => trivial

theorem Parser.clients_of_forall
    {ok : {γ : Type} → Action (Parser V) V (Except Failure γ) → Prop}
    (hok : ∀ {γ : Type} (a : Action (Parser V) V (Except Failure γ)), ok a) (p : Parser V) :
    p.Clients ok := by
  cases p with
  | leaf program => exact fun input => hok _
  | transform location item convert => exact fun tokens => hok _
  | _ => trivial

/-- Whether an action does no more than call parsers on inputs as `T` has it, report, and forget or
keep what a failed sequence left. This is all that the loops of the combinators do. -/
def Action.CallsOn (T : P → List (Token V) → Prop) : {α : Type} → Action P V α → Prop
  | _, .done _ => True
  | _, .call p input next => T p input ∧ ∀ o, (next o).CallsOn T
  | _, .report _ next | _, .clearPartials next | _, .keepPartials _ next => next.CallsOn T
  | _, _ => False

theorem Action.CallsOn.only {E : Effect → Prop} (hE : ∀ e, e ≠ .mode → e ≠ .options → E e)
    {a : Action P V α} (h : a.CallsOn fun p _ => C p) : a.Only E C := by
  induction a with
  | done => trivial
  | call p input next ih => exact ⟨h.1, fun o => ih o (h.2 o)⟩
  | report _ next ih | clearPartials next ih | keepPartials _ next ih =>
    exact ⟨hE _ nofun nofun, ih h⟩
  | _ => exact h.elim

/-- The parsers that a parser is built from, or stands for. -/
def Parser.parts (rules : Rules V) : Parser V → List (Parser V)
  | .leaf _ | .before _ | .empty _ | .atEnd | .expected _ | .fail _ => []
  | .seq _ parts => parts
  | .choice _ _ options => options
  | .repetition _ _ _ item | .optional item | .transform _ item _ | .lookahead item
  | .notFollowedBy item | .peek item | .labelled _ item | .trace _ item => [item]
  | .recover search body skipUntil => [search, body, skipUntil]
  | .ref _ rule | .deferred rule => (rules rule).toList

def Parser.asksMode : Parser V → Bool
  | .choice _ none _ => true
  | _ => false

-- ---------------------------------------------------------------------------
-- The loops of the combinators
-- ---------------------------------------------------------------------------

namespace Parser

section
variable {T : Parser V → List (Token V) → Prop} {input : List (Token V)}

theorem seqFrom_callsOn {parts : List (Parser V)}
    (h : ∀ part ∈ parts, ∀ rest, rest <:+ input → T part rest) (sofar : Match V) :
    (seqFrom input parts sofar).CallsOn T := by
  induction parts generalizing sofar with
  | nil => trivial
  | cons part parts ih =>
    obtain ⟨hpart, hparts⟩ := List.forall_mem_cons.1 h
    refine ⟨hpart _ (List.drop_suffix ..), fun o => ?_⟩
    cases o with
    | ok m => exact ih hparts _
    | error failure => trivial

section
variable {options : List (Parser V)} (h : ∀ option ∈ options, T option input)
include h

theorem longestFrom_callsOn (best : Option (Match V)) (failures : List Failure) :
    (longestFrom input options best failures).CallsOn T := by
  induction options generalizing best failures with
  | nil => cases best <;> trivial
  | cons option options ih =>
    obtain ⟨hoption, hoptions⟩ := List.forall_mem_cons.1 h
    refine ⟨hoption, fun o => ?_⟩
    cases o with
    | ok m => exact ih hoptions _ _
    | error failure =>
      simp only
      split
      · exact ih hoptions _ _
      · trivial

theorem firstFrom_callsOn (failures : List Failure) :
    (firstFrom input options failures).CallsOn T := by
  induction options generalizing failures with
  | nil => trivial
  | cons option options ih =>
    obtain ⟨hoption, hoptions⟩ := List.forall_mem_cons.1 h
    refine ⟨hoption, fun o => ?_⟩
    cases o with
    | ok m => trivial
    | error failure =>
      simp only
      split
      · exact ih hoptions _
      · trivial

theorem comparedFrom_callsOn (location : String) (number : Nat)
    (comparison : Option (Comparison V)) (failures : List Failure) :
    (comparedFrom location input options number comparison failures).CallsOn T := by
  induction options generalizing number comparison failures with
  | nil =>
    cases comparison with
    | none => trivial
    | some c =>
      rw [comparedFrom]
      split <;> trivial
  | cons option options ih =>
    obtain ⟨hoption, hoptions⟩ := List.forall_mem_cons.1 h
    refine ⟨hoption, fun o => ?_⟩
    cases o with
    | ok m => exact ih hoptions _ _ _
    | error failure =>
      simp only
      split
      · exact ih hoptions _ _ _
      · trivial

theorem choose_callsOn (location : String) (mode : ChoiceMode) :
    (choose location options input mode).CallsOn T := by
  cases mode with
  | safe => exact longestFrom_callsOn h none []
  | fast => exact firstFrom_callsOn h []
  | tryFast => exact comparedFrom_callsOn h location 1 none []

end

theorem endRepetition_callsOn (label : String) (min count : Nat) (sofar : Match V) :
    (endRepetition label min input count sofar).CallsOn T := by
  unfold endRepetition
  split <;> trivial

theorem repeatFrom_callsOn {item : Parser V} (h : ∀ rest, rest <:+ input → T item rest)
    (label : String) (min : Nat) (max : Option Nat) (budget count : Nat) (sofar : Match V) :
    (repeatFrom label min max item input budget count sofar).CallsOn T := by
  induction budget generalizing count sofar with
  | zero => exact endRepetition_callsOn ..
  | succ budget ih =>
    rw [repeatFrom]
    split
    · exact endRepetition_callsOn ..
    · refine ⟨h _ (List.drop_suffix ..), fun o => ?_⟩
      cases o with
      | ok m =>
        simp only
        split
        · exact endRepetition_callsOn ..
        · exact ih _ _
      | error failure =>
        simp only
        split
        · exact endRepetition_callsOn ..
        · trivial

theorem resync_callsOn {skipUntil : Parser V} (h : ∀ rest, rest <:+ input → T skipUntil rest)
    (i : Nat) : (resync skipUntil input i).CallsOn T := by
  induction input generalizing i with
  | nil => trivial
  | cons token rest ih =>
    refine ⟨h _ (List.suffix_refl _), fun o => ?_⟩
    cases o with
    | ok m => trivial
    | error failure => exact ih (fun _ hrest => h _ (hrest.trans (List.suffix_cons token rest))) _

end

-- ---------------------------------------------------------------------------
-- Every parser
-- ---------------------------------------------------------------------------

section
variable {E : Effect → Prop} (hE : ∀ e, e ≠ .mode → e ≠ .options → E e) {C : Parser V → Prop}

theorem onMatch_only {next : Match V → Step V} (h : ∀ m, (next m).Only E C)
    (outcome : Outcome V) : (onMatch outcome next).Only E C := by
  cases outcome with
  | ok m => exact h m
  | error failure => trivial

include hE in
/-- A parser calls its parts and what its author's code calls. Only that code changes
the options, and only it and a choice without a mode of its own ask for the mode. -/
theorem body_only {rules : Rules V} {p : Parser V} (hparts : ∀ q ∈ p.parts rules, C q)
    (hclients : p.Clients (·.Only E C)) (hmode : p.asksMode = true → E .mode)
    (input : List (Token V)) :
    (p.body rules input).Only E C := by
  have hend : ∀ o : Outcome V, (Action.done o : Step V).Only E C := fun _ => trivial
  cases p with
  | leaf program => exact ⟨hclients input, hend⟩
  | seq label parts =>
    exact ⟨(seqFrom_callsOn (fun part hpart _ _ => hparts part hpart) _).only hE, hend⟩
  | choice location mode options =>
    have hchoose : ∀ mode, (choose location options input mode).Only E C :=
      fun mode => (choose_callsOn hparts location mode).only hE
    cases mode with
    | some mode => exact ⟨hchoose mode, hend⟩
    | none => exact ⟨⟨hmode rfl, hchoose⟩, hend⟩
  | repetition label min max item =>
    have hitem : C item := hparts _ List.mem_cons_self
    exact ⟨(repeatFrom_callsOn (fun _ _ => hitem) ..).only hE, hend⟩
  | optional item =>
    refine ⟨⟨hparts _ List.mem_cons_self, fun o => ?_⟩, hend⟩
    cases o with
    | ok m => trivial
    | error failure => simp only; split <;> trivial
  | transform location item convert =>
    have hitem : C item := hparts _ List.mem_cons_self
    refine ⟨hitem, onMatch_only fun m => ⟨hclients _, fun r => ?_⟩⟩
    cases r with
    | ok converted => exact ⟨hE _ nofun nofun, hitem, trivial⟩
    | error failure => trivial
  | before test => exact ⟨trivial, hend⟩
  | empty label =>
    cases label with
    | none => trivial
    | some label => exact ⟨trivial, hend⟩
  | atEnd => cases input <;> exact ⟨trivial, hend⟩
  | recover search body skipUntil =>
    have hsearch : C search := hparts _ (by simp [parts])
    have hbody : C body := hparts _ (by simp [parts])
    have hskip : C skipUntil := hparts _ (by simp [parts])
    refine ⟨⟨⟨hsearch, hend⟩, onMatch_only fun _ => ⟨⟨hbody, hend⟩, fun o => ?_⟩⟩, hend⟩
    cases o with
    | ok m => trivial
    | error failure =>
      exact ⟨hE _ nofun nofun, (resync_callsOn (fun _ _ => hskip) 0).only hE, hend⟩
  | lookahead item =>
    exact ⟨⟨hparts _ List.mem_cons_self, onMatch_only fun _ => trivial⟩, hend⟩
  | notFollowedBy item =>
    exact ⟨⟨hparts _ List.mem_cons_self, fun o => by cases o <;> trivial⟩, hend⟩
  | peek item => exact ⟨⟨hparts _ List.mem_cons_self, onMatch_only fun _ => trivial⟩, hend⟩
  | labelled label item =>
    exact ⟨hparts _ List.mem_cons_self, fun o => by cases o <;> trivial⟩
  | expected message => trivial
  | fail message => trivial
  | trace label item => exact ⟨⟨hparts _ List.mem_cons_self, hend⟩, hend⟩
  | ref name rule | deferred rule =>
    refine ⟨?_, hend⟩
    cases hrule : rules rule with
    | none => trivial
    | some body => exact ⟨hparts body (by simp [parts, hrule]), hend⟩

end

theorem body_changes {rules : Rules V} {p : Parser V} (hclients : p.Clients (·.Changes ok))
    (input : List (Token V)) : (p.body rules input).Changes ok := by
  have hother : p.Clients (·.Only (· ≠ .options) (fun _ => True)) →
      (p.body rules input).Changes ok := fun hnone =>
    (body_only (fun _ _ he => he) (fun _ _ => trivial) hnone nofun input).changes (by simp)
  cases p with
  | leaf program => exact ⟨hclients input, fun _ => trivial⟩
  | transform location item convert =>
    intro o
    cases o with
    | error failure => trivial
    | ok m =>
      refine ⟨hclients m.produced, fun r => ?_⟩
      cases r <;> trivial
  | _ => exact hother trivial

end Parser

-- ---------------------------------------------------------------------------
-- Grammars
-- ---------------------------------------------------------------------------

structure Grammar (V : Type) where
  rules : Rules V
  parsers : Parser V → Prop
  parts : ∀ p, parsers p → ∀ q ∈ p.parts rules, parsers q
  clients : ∀ p, parsers p → p.Clients (·.Only (fun _ => True) parsers)

instance : Membership (Parser V) (Grammar V) := ⟨fun G p => G.parsers p⟩

def Grammar.whole (R : Rules V) : Grammar V where
  rules := R
  parsers _ := True
  parts _ _ _ _ := trivial
  clients p _ :=
    Parser.clients_of_forall (Action.only_of_forall (fun _ => trivial) fun _ => trivial) p

section
variable {R : Rules V} {ps : List (Parser V)} (hparts : ∀ p ∈ ps, ∀ q ∈ p.parts R, q ∈ ps)
  (hclients : ∀ p ∈ ps, p.Clients (·.Only (fun _ => True) (· ∈ ps)))

def Grammar.ofList (R : Rules V) (ps : List (Parser V))
    (hparts : ∀ p ∈ ps, ∀ q ∈ p.parts R, q ∈ ps)
    (hclients : ∀ p ∈ ps, p.Clients (·.Only (fun _ => True) (· ∈ ps))) : Grammar V :=
  ⟨R, (· ∈ ps), hparts, hclients⟩

@[simp] theorem Grammar.mem_ofList : p ∈ Grammar.ofList R ps hparts hclients ↔ p ∈ ps := Iff.rfl

end

theorem Grammar.calls_only {G : Grammar V} {p : Parser V} (hp : p ∈ G)
    (input : List (Token V)) : (p.body G.rules input).Only (fun _ => True) (· ∈ G) :=
  Parser.body_only (fun _ _ _ => trivial) (G.parts p hp) (G.clients p hp) (fun _ => trivial) input

theorem Grammar.body_only {G : Grammar V} {p : Parser V} (hp : p ∈ G)
    (hclients : p.Clients Action.KeepsOptions) (input : List (Token V)) :
    (p.body G.rules input).Only (· ≠ .options) (· ∈ G) := by
  have hkeep : (p.body G.rules input).Only (· ≠ .options) (fun _ => True) :=
    Parser.body_only (fun _ _ he => he) (fun _ _ => trivial) hclients nofun input
  exact hkeep.and (Grammar.calls_only hp input) (fun _ he _ => he) (fun _ _ hq => hq)

end TokenGrammar
