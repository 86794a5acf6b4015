import TokenGrammar.Proofs.Conservation
import TokenGrammar.Proofs.Consumption
import TokenGrammar.Proofs.Evaluations

/-!
# Slices stay in range

Parsers and searches work on slices of their input, and the place where a slice starts
comes from counts of consumed tokens, which a leaf may report as it likes. `Sliced` is an
action that shows the bounds of each slice it takes; `Sliced.erase` forgets them. What
follows gives the parsers and searches in this form, with the bounds that each of their
loops computes, and shows that it is the same program and that no bound is ever out of
range, whatever the calls answer (`Sliced.Within`).
-/

namespace TokenGrammar

-- ---------------------------------------------------------------------------
-- Actions with their slices
-- ---------------------------------------------------------------------------

inductive Sliced (P : Type 1) (V : Type) : Type → Type 1
  | done {α : Type} (answer : α) : Sliced P V α
  /-- Takes the tokens from `start` up to `stop`. -/
  | slice {α : Type} (tokens : List (Token V)) (start stop : Nat)
      (next : List (Token V) → Sliced P V α) : Sliced P V α
  /-- Takes steps in which there are no slices of this action. -/
  | step {α β : Type} (action : Action P V β) (next : β → Sliced P V α) : Sliced P V α
  | guarded {α : Type} (name : String) (input : List (Token V))
      (region : Sliced P V (Outcome V)) (next : Outcome V → Sliced P V α) : Sliced P V α

namespace Sliced

variable {P : Type 1} {V : Type}

protected def bind {α β : Type} : Sliced P V α → (α → Sliced P V β) → Sliced P V β
  | .done answer, f => f answer
  | .slice tokens start stop next, f => .slice tokens start stop fun part => (next part).bind f
  | .step action next, f => .step action fun x => (next x).bind f
  | .guarded name input region next, f =>
    .guarded name input region fun o => (next o).bind f

def erase : {α : Type} → Sliced P V α → Action P V α
  | _, .done answer => .done answer
  | _, .slice tokens start stop next => (next ((tokens.take stop).drop start)).erase
  | _, .step action next => action.bind fun x => (next x).erase
  | _, .guarded name input region next =>
    .guarded name input region.erase fun o => (next o).erase

/-- Whether all slices are in range, whatever the steps answer. -/
def Within : {α : Type} → Sliced P V α → Prop
  | _, .done _ => True
  | _, .slice tokens start stop next =>
    start ≤ stop ∧ stop ≤ tokens.length ∧ (next ((tokens.take stop).drop start)).Within
  | _, .step _ next => ∀ x, (next x).Within
  | _, .guarded _ _ region next => region.Within ∧ ∀ o, (next o).Within

/-- Whether an action with slices is `a`, and all its slices are in range. -/
structure Implements (s : Sliced P V α) (a : Action P V α) : Prop where
  erase_eq : s.erase = a
  within : s.Within

theorem Implements.bind {s : Sliced P V α} {f : α → Sliced P V β} {a : Action P V α}
    {g : α → Action P V β} (h : s.Implements a) (hf : ∀ x, (f x).Implements (g x)) :
    (s.bind f).Implements (a.bind g) := by
  obtain ⟨rfl, hwithin⟩ := h
  induction s with
  | done answer => exact hf answer
  | slice tokens start stop next ih =>
    obtain ⟨hstart, hstop, hnext⟩ := hwithin
    obtain ⟨heq, hrest⟩ := ih _ hf hnext
    exact ⟨heq, hstart, hstop, hrest⟩
  | step action next ih =>
    refine ⟨?_, fun x => (ih x hf (hwithin x)).within⟩
    simp only [Sliced.bind, erase, Action.bind_assoc]
    exact congrArg action.bind (funext fun x => (ih x hf (hwithin x)).erase_eq)
  | guarded name input region next _ ih =>
    obtain ⟨hregion, hnext⟩ := hwithin
    refine ⟨?_, hregion, fun o => (ih o hf (hnext o)).within⟩
    simp only [Sliced.bind, erase, Action.bind]
    exact congrArg _ (funext fun o => (ih o hf (hnext o)).erase_eq)

theorem Implements.done (x : α) : (Sliced.done x : Sliced P V α).Implements (.done x) :=
  ⟨rfl, trivial⟩

theorem Implements.slice {next : List (Token V) → Sliced P V α} {a : Action P V α}
    (hstart : start ≤ stop) (hstop : stop ≤ tokens.length)
    (hnext : (next ((tokens.take stop).drop start)).Implements a) :
    (Sliced.slice tokens start stop next).Implements a :=
  ⟨hnext.erase_eq, hstart, hstop, hnext.within⟩

theorem Implements.tail {next : List (Token V) → Sliced P V α} {a : Action P V α}
    (hnext : (next (tokens.drop start)).Implements a) :
    (Sliced.slice tokens (min start tokens.length) tokens.length next).Implements a := by
  refine .slice (Nat.min_le_right ..) (Nat.le_refl _) ?_
  rw [List.take_length]
  rcases Nat.le_total start tokens.length with hle | hge
  · rwa [Nat.min_eq_left hle]
  · rw [Nat.min_eq_right hge, List.drop_length]
    rwa [List.drop_eq_nil_of_le hge] at hnext

theorem Implements.step {action : Action P V β} {next : β → Sliced P V α}
    {f : β → Action P V α} (hnext : ∀ x, (next x).Implements (f x)) :
    (Sliced.step action next).Implements (action.bind f) :=
  ⟨congrArg action.bind (funext fun x => (hnext x).erase_eq), fun x => (hnext x).within⟩

theorem Implements.guarded {region : Sliced P V (Outcome V)} {next : Outcome V → Sliced P V α}
    {a : Action P V (Outcome V)} {f : Outcome V → Action P V α} (hregion : region.Implements a)
    (hnext : ∀ o, (next o).Implements (f o)) :
    (Sliced.guarded name input region next).Implements (.guarded name input a f) := by
  refine ⟨?_, hregion.within, fun o => (hnext o).within⟩
  simp only [erase, hregion.erase_eq, fun o => (hnext o).erase_eq]

theorem Implements.traced {region : Sliced P V (Outcome V)} {a : Action P V (Outcome V)}
    (hregion : region.Implements a) :
    (Sliced.guarded name input region .done).Implements (Action.traced name input a) :=
  hregion.guarded .done

def call (parser : P) (input : List (Token V)) (next : Outcome V → Sliced P V α) :
    Sliced P V α := .step (.call parser input .done) next

theorem Implements.call {next : Outcome V → Sliced P V α} {f : Outcome V → Action P V α}
    (hnext : ∀ o, (next o).Implements (f o)) :
    (Sliced.call parser input next).Implements (.call parser input f) := .step hnext

end Sliced

-- ---------------------------------------------------------------------------
-- The loops of the parsers
-- ---------------------------------------------------------------------------

namespace Sliced

variable {V : Type}

/-- The rest of a sequence. Its parts may have consumed more than there is, so that the
place is clamped. -/
def seqFrom (input : List (Token V)) : List (Parser V) → (sofar : Match V) →
    Sliced (Parser V) V (Outcome V)
  | [], sofar => .done (.ok sofar)
  | part :: parts, sofar =>
    .slice input (min sofar.consumed input.length) input.length fun rest =>
      .step (.clearPartials (.call part rest .done)) fun
        | .ok m => seqFrom input parts (sofar ++ m)
        | .error failure =>
          let failure := if rest.isEmpty then failure.orAt (endPos input) else failure
          .step (.keepPartials sofar.produced (.done ())) fun _ => .done (.error failure)

theorem seqFrom_implements (input : List (Token V)) (parts : List (Parser V)) (sofar : Match V) :
    (seqFrom input parts sofar).Implements (Parser.seqFrom input parts sofar) := by
  induction parts generalizing sofar with
  | nil => exact .done _
  | cons part parts ih =>
    refine .tail (.step fun o => ?_)
    cases o with
    | ok m => exact ih _
    | error failure => exact .step fun _ => .done _

def repeatFrom (label : String) (min : Nat) (max : Option Nat) (item : Parser V)
    (input : List (Token V)) : (budget count : Nat) → (sofar : Match V) →
    Sliced (Parser V) V (Outcome V)
  | 0, count, sofar => .step (Parser.endRepetition label min input count sofar) .done
  | budget + 1, count, sofar =>
    if max.any (· ≤ count) || input.length ≤ sofar.consumed then
      .step (Parser.endRepetition label min input count sofar) .done
    else .slice input sofar.consumed input.length fun rest => .call item rest fun
      | .ok m =>
        if m.consumed = 0 then
          .step (Parser.endRepetition label min input (count + 1) (sofar ++ m)) .done
        else repeatFrom label min max item input budget (count + 1) (sofar ++ m)
      | .error failure =>
        if failure.is .notMatch then
          .step (Parser.endRepetition label min input count sofar) .done
        else .done (.error failure)

theorem step_done_implements (a : Action (Parser V) V α) :
    (Sliced.step a .done).Implements a :=
  ⟨a.bind_done, fun _ => trivial⟩

theorem repeatFrom_implements (label : String) (min : Nat) (max : Option Nat) (item : Parser V)
    (input : List (Token V)) (budget count : Nat) (sofar : Match V) :
    (repeatFrom label min max item input budget count sofar).Implements
      (Parser.repeatFrom label min max item input budget count sofar) := by
  induction budget generalizing count sofar with
  | zero => exact step_done_implements _
  | succ budget ih =>
    rw [repeatFrom, Parser.repeatFrom]
    split
    · exact step_done_implements _
    · next hon =>
      have hbelow : sofar.consumed ≤ input.length := by
        simp only [Bool.or_eq_true, decide_eq_true_eq, not_or] at hon
        omega
      refine .slice hbelow (Nat.le_refl _) ?_
      rw [List.take_length]
      refine .call fun o => ?_
      cases o with
      | ok m =>
        simp only
        split
        · exact step_done_implements _
        · exact ih _ _
      | error failure =>
        simp only
        split
        · exact step_done_implements _
        · exact .done _

def resync (skipUntil : Parser V) (input : List (Token V)) : (budget i : Nat) →
    Sliced (Parser V) V (Outcome V)
  | 0, i => .done (.ok ⟨i, []⟩)
  | budget + 1, i => .slice input i input.length fun rest => .call skipUntil rest fun
    | .ok m => .done (.ok ⟨i + m.consumed, []⟩)
    | .error _ => resync skipUntil input budget (i + 1)

theorem resync_implements (skipUntil : Parser V) {input : List (Token V)} {budget i : Nat}
    (hi : i + budget = input.length) :
    (resync skipUntil input budget i).Implements (Parser.resync skipUntil (input.drop i) i) := by
  induction budget generalizing i with
  | zero =>
    obtain rfl : i = input.length := hi
    rw [List.drop_length]
    exact .done _
  | succ budget ih =>
    have hlt : i < input.length := by omega
    refine .slice (Nat.le_of_lt hlt) (Nat.le_refl _) ?_
    rw [List.take_length, List.drop_eq_getElem_cons hlt]
    refine .call fun o => ?_
    cases o with
    | ok m => exact .done _
    | error failure => exact ih (by omega)

def body (rules : Rules V) (parser : Parser V) (input : List (Token V)) :
    Sliced (Parser V) V (Outcome V) :=
  match parser with
  | .seq label parts => .guarded label input (seqFrom input parts .nothing) .done
  | .repetition label min max item => .guarded label input
      (repeatFrom label min max item input input.length 0 .nothing) .done
  | .before test =>
    let stop := input.findIdx test
    .guarded "before" input (.slice input 0 stop fun produced => .done (.ok ⟨stop, produced⟩)) .done
  | .recover search body skipUntil => .guarded "recover" input
      (.guarded "precondition-check" input (.call search input .done) fun
        | .error failure => .done (.error failure)
        | .ok _ => .guarded "process" input (.call body input .done) fun
          | .ok m => .done (.ok m)
          | .error failure => .step (.logFailure failure (firstPos input) (.done ())) fun _ =>
            .guarded "healing" input (resync skipUntil input input.length 0) .done)
      .done
  | p => .step (p.body rules input) .done

theorem body_implements (rules : Rules V) (p : Parser V) (input : List (Token V)) :
    (body rules p input).Implements (p.body rules input) := by
  cases p with
  | seq label parts => exact (seqFrom_implements ..).traced
  | repetition label min max item => exact (repeatFrom_implements ..).traced
  | before test =>
    have htake : input.takeWhile (!test ·) = input.take (input.findIdx test) := by
      simp [List.takeWhile_eq_take_findIdx_not]
    have hlength : (input.takeWhile (!test ·)).length = input.findIdx test := by
      rw [htake, List.length_take, Nat.min_eq_left List.findIdx_le_length]
    refine .traced (.slice (Nat.zero_le _) List.findIdx_le_length ?_)
    show Implements _
      (Action.succeed ⟨(input.takeWhile (!test ·)).length, input.takeWhile (!test ·)⟩)
    rw [hlength, htake]
    exact .done _
  | recover search body skipUntil =>
    refine .traced (.guarded (.call .done) fun checked => ?_)
    cases checked with
    | error failure => exact .done _
    | ok _ =>
      refine .guarded (.call .done) fun o => ?_
      cases o with
      | ok m => exact .done _
      | error failure =>
        exact .step fun _ => (resync_implements skipUntil (Nat.zero_add _)).traced
  | _ => exact step_done_implements _

-- ---------------------------------------------------------------------------
-- Searches
-- ---------------------------------------------------------------------------

section
variable {P : Type 1}

/-- The first match at one of the places `i` below the end, with what is before and what is
after it. A match may reach past the end, so that its own end is clamped. -/
def findFrom (parser : P) (progress : Bool) (input : List (Token V)) : (budget i : Nat) →
    Sliced P V (Option (Found V))
  | 0, _ => .done none
  | budget + 1, i => .slice input i input.length fun suffix => .call parser suffix fun
    | .ok m =>
      if progress && i + m.consumed == 0 then findFrom parser progress input budget (i + 1)
      else .slice input 0 i fun skipped =>
        .slice input (min (i + m.consumed) input.length) input.length fun remained =>
          .done (some ⟨skipped, m.produced, m.consumed, remained⟩)
    | .error _ => findFrom parser progress input budget (i + 1)

theorem findFrom_implements (parser : P) (progress : Bool) {input : List (Token V)}
    {budget i : Nat} (hi : i + budget = input.length) :
    (findFrom parser progress input budget i).Implements
      (Search.findFrom parser progress input (input.drop i) i) := by
  induction budget generalizing i with
  | zero =>
    obtain rfl : i = input.length := hi
    rw [List.drop_length]
    exact .done _
  | succ budget ih =>
    have hlt : i < input.length := by omega
    refine .slice (Nat.le_of_lt hlt) (Nat.le_refl _) ?_
    rw [List.take_length, List.drop_eq_getElem_cons hlt]
    refine .call fun o => ?_
    cases o with
    | ok m =>
      simp only
      split
      · exact ih (by omega)
      · exact .slice (Nat.zero_le _) (Nat.le_of_lt hlt) (.tail (.done _))
    | error failure => exact ih (by omega)

def find (parser : P) (input : List (Token V)) : Sliced P V (Option (Found V)) :=
  findFrom parser false input input.length 0

theorem find_implements (parser : P) (input : List (Token V)) :
    (find parser input).Implements (Search.find parser input) :=
  findFrom_implements parser false (Nat.zero_add _)

def next (separator : P) (s : Splitter V) : Sliced P V (Option (Segment V) × Splitter V) :=
  if s.exhausted then .done (none, { s with finished := true })
  else if s.limit == some 1 || s.rest.isEmpty then
    .done (some s.remainder.1, s.remainder.2)
  else (findFrom separator true s.rest s.rest.length 0).bind fun
    | some found => .done (some (s.cut found).1, (s.cut found).2)
    | none => .done (some s.remainder.1, s.remainder.2)

theorem next_implements (separator : P) (s : Splitter V) :
    (next separator s).Implements (s.next separator) := by
  rw [next, Splitter.next]
  split
  · exact .done _
  · split
    · exact .done _
    · refine .bind (findFrom_implements separator true (Nat.zero_add _)) fun found => ?_
      cases found <;> exact .done _

def collectUpTo (separator : P) : (budget : Nat) → Splitter V → Sliced P V (List (Segment V))
  | 0, _ => .done []
  | budget + 1, s => (next separator s).bind fun
    | (none, _) => .done []
    | (some segment, s) =>
      (collectUpTo separator budget s).bind fun segments => .done (segment :: segments)

theorem collectUpTo_implements (separator : P) (budget : Nat) (s : Splitter V) :
    (collectUpTo separator budget s).Implements (s.collectUpTo separator budget) := by
  induction budget generalizing s with
  | zero => exact .done _
  | succ budget ih =>
    refine .bind (next_implements separator s) fun r => ?_
    obtain ⟨segment, s⟩ := r
    cases segment with
    | none => exact .done _
    | some segment => exact .bind (ih s) fun segments => .done _

def split (separator : P) (input : List (Token V)) : Sliced P V (List (Segment V)) :=
  collectUpTo separator (input.length + 1) (.ofTokens input)

def splitUpTo (n : Nat) (separator : P) (input : List (Token V)) : Sliced P V (List (Segment V)) :=
  collectUpTo separator (input.length + 1) ((Splitter.ofTokens input).limited n)

end

end Sliced

-- ---------------------------------------------------------------------------
-- Parsers, searches and evaluations
-- ---------------------------------------------------------------------------

variable {V : Type} [TokenValue V]

/-- No slice of a parser or a search is out of range, whatever its calls report to have
consumed, and an evaluation leaves a place in its input with what is behind it. If no leaf
of a grammar reports more tokens than it is given, then neither does any parser. -/
theorem slices_within :
    (∀ (rules : Rules V) (p : Parser V) (input : List (Token V)),
      (Sliced.body rules p input).Implements (p.body rules input)) ∧
    (∀ (p : Parser V) (input : List (Token V)),
      (Sliced.find p input).Implements (Search.find p input) ∧
      (Sliced.split p input).Implements (Search.split p input) ∧
      ∀ n, (Sliced.splitUpTo n p input).Implements (Search.splitUpTo n p input)) ∧
    (∀ (p : Parser V) (s : Splitter V), (Sliced.next p s).Implements (s.next p)) ∧
    (∀ (rules : Rules V) (p : Parser V) (n : Nat) (tokens : List (Token V)) (ctx : Context V)
      (answer : Except Failure (List V)) (ended : Context V),
      p.evaluate rules n tokens ctx = some (answer, ended) →
        ended.pos ≤ tokens.length ∧ ended.remained = tokens.drop ended.pos) ∧
    ∀ G : Grammar V, (∀ program, .leaf program ∈ G → ∀ input ctx m ctx' es,
        Runs G.rules (program input) ctx (.ok m) ctx' es → m.consumed ≤ input.length) →
      ∀ p ∈ G, ∀ n input ctx m ctx',
        Parser.run G.rules n p input ctx = some (.ok m, ctx') → m.consumed ≤ input.length := by
  refine ⟨Sliced.body_implements, fun p input => ⟨Sliced.find_implements p input, ?_, ?_⟩,
    Sliced.next_implements, ?_, ?_⟩
  · exact Sliced.collectUpTo_implements ..
  · exact fun n => Sliced.collectUpTo_implements ..
  · intro rules p n tokens ctx answer ended hended
    obtain ⟨o, ctx', -, rfl, -⟩ := Parser.evaluate_eq_some_iff.1 hended
    exact ⟨Nat.min_le_right .., rfl⟩
  · intro G hleaf p hp n input ctx m ctx' hrun
    obtain ⟨es, h⟩ := runs_of_run hrun
    exact Grammar.consumed_le hleaf hp h

def overreporting : Parser Int64 := .seq "pair" [Leaf.take 5 1, Leaf.take 2 0]

def doubled : Grammar Int64 :=
  .ofList (fun _ => none) [.seq "pair" [Leaf.any, Leaf.any], Leaf.any]
    (by simp [Parser.parts, Leaf.any, Leaf.tracedPlain])
    (by simp [Parser.Clients, Leaf.any, Leaf.tracedPlain, Action.Only, Action.traced])

theorem overreporting_doubled_within :
    (∃ answer ended, overreporting.evaluate (fun _ => none) 5 (Token.ofTexts ["a"])
      (.ofConfig .initial) = some (answer, ended) ∧
        ended.pos ≤ 1 ∧ ended.remained = (Token.ofTexts ["a"]).drop ended.pos) ∧
    ∃ m ctx, Parser.run doubled.rules 5 (.seq "pair" [Leaf.any, Leaf.any])
      (Token.ofTexts ["a", "b"]) (.ofConfig .initial) = some (.ok m, ctx) ∧ m.consumed ≤ 2 := by
  obtain ⟨-, -, -, hevaluate, hconsumed⟩ := slices_within (V := Int64)
  constructor
  · have hends : (overreporting.evaluate (fun _ => none) 5 (Token.ofTexts ["a"])
        (.ofConfig .initial)).isSome = true := by decide +kernel
    obtain ⟨⟨answer, ended⟩, hended⟩ := Option.isSome_iff_exists.1 hends
    exact ⟨answer, ended, hended, hevaluate _ _ _ _ _ _ _ hended⟩
  · have hleaf : ∀ program, .leaf program ∈ doubled → ∀ input ctx m ctx' es,
        Runs doubled.rules (program input) ctx (.ok m) ctx' es → m.consumed ≤ input.length := by
      intro program hprogram input ctx m ctx' es hrun
      obtain rfl : program = fun input =>
          Action.traced "any" input (.done (Leaf.onFirst "any" "EOF" Leaf.one input)) := by
        simpa [doubled, Leaf.any, Leaf.tracedPlain] using hprogram
      exact (Leaf.any_conserves hrun).consumed_le
    have hmatches : (Parser.run doubled.rules 5 (.seq "pair" [Leaf.any, Leaf.any])
        (Token.ofTexts ["a", "b"]) (.ofConfig .initial)).map (·.1.isMatch) = some true := by
      decide +kernel
    obtain ⟨⟨o, ctx⟩, hrun, ho⟩ := Option.map_eq_some_iff.1 hmatches
    cases o with
    | error failure => cases ho
    | ok m =>
      exact ⟨m, ctx, hrun, hconsumed doubled hleaf _ List.mem_cons_self _ _ _ _ _ hrun⟩

end TokenGrammar
