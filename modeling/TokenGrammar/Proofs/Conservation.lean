import TokenGrammar.Leaf
import TokenGrammar.Proofs.Combinators

/-!
# Tokens are conserved

A match conserves its input if what it produced is what it consumed: nothing is lost,
doubled or out of order. Combinators that put nothing in the place of what was read
build such matches of such matches, whatever else they tried on the way.
-/

namespace TokenGrammar

variable {V : Type}

structure Match.Conserves (m : Match V) (input : List (Token V)) : Prop where
  consumed_le : m.consumed ≤ input.length
  produced_eq : m.produced = input.take m.consumed

namespace Match.Conserves

variable {input : List (Token V)}

theorem nothing : Match.nothing.Conserves input := ⟨Nat.zero_le _, rfl⟩

theorem append {m m' : Match V} (h : m.Conserves input)
    (h' : m'.Conserves (input.drop m.consumed)) : (m ++ m').Conserves input where
  consumed_le := by
    have hleft := h'.consumed_le
    rw [List.length_drop] at hleft
    have hm := h.consumed_le
    show m.consumed + m'.consumed ≤ input.length
    omega
  produced_eq := by
    show m.produced ++ m'.produced = input.take (m.consumed + m'.consumed)
    rw [h.produced_eq, h'.produced_eq, List.take_add]

theorem takeWhile (test : Token V → Bool) :
    Match.Conserves ⟨(input.takeWhile test).length, input.takeWhile test⟩ input :=
  have hbegin : input.takeWhile test <+: input := List.takeWhile_prefix test
  ⟨hbegin.length_le, List.prefix_iff_eq_take.1 hbegin⟩

theorem append_drop {m : Match V} (h : m.Conserves input) :
    m.produced ++ input.drop m.consumed = input := by
  rw [h.produced_eq, List.take_append_drop]

end Match.Conserves

def Outcome.Conserves (input : List (Token V)) : Outcome V → Prop
  | .ok m => m.Conserves input
  | .error _ => True

/-- Whether a parser puts nothing in the place of what its parts produce, and consumes
what it produces. -/
def Parser.keepsTokens : Parser V → Bool
  | .transform .. | .recover .. | .peek _ => false
  | _ => true

variable [TokenValue V]

/-- A set of parsers that keep the tokens they read. Leaves do so by assumption. -/
structure Conserving (rules : Rules V) (K : Parser V → Prop) : Prop where
  keeps : ∀ p, K p → p.keepsTokens
  parts : ∀ p, K p → ∀ q ∈ p.parts rules, K q
  leaves : ∀ program, K (.leaf program) → ∀ input ctx m ctx' es,
    Runs rules (program input) ctx (.ok m) ctx' es → m.Conserves input

def conserving (K : Parser V → Prop) : Contract V :=
  ⟨fun p input o => K p → o.Conserves input, fun _ => True, fun _ => True⟩

variable {rules : Rules V} {K : Parser V → Prop}

namespace Parser

theorem body_conserves (hK : Conserving rules K) {p : Parser V} (hp : K p)
    (input : List (Token V)) :
    (p.body rules input).Meets (conserving K) rules (Outcome.Conserves input) := by
  have hkeeps := hK.keeps p hp
  have hparts := hK.parts p hp
  have hmatches : MatchesInto (conserving K) rules (Match.Conserves · input) p input := {
    nothing := .nothing
    passed := fun q hq m hm => hm (hparts q hq)
    appended := fun q hq sofar m hsofar hm => hsofar.append (hm (hparts q hq))
    skipped := Match.Conserves.takeWhile
    leaf := by
      rintro program rfl ctx m ctx' es
      exact hK.leaves program hp input ctx m ctx' es
    converted := by
      rintro location item convert rfl
      cases hkeeps
    peeked := by
      rintro item rfl
      cases hkeeps
    resynced := by
      rintro search body skipUntil rfl
      cases hkeeps
    logged := fun _ => trivial }
  refine (body_matchesInto hmatches).mono fun o ho => ?_
  cases o with
  | ok m => exact ho m rfl
  | error failure => trivial

end Parser

theorem Conserving.whole_keeps (hK : Conserving rules K) :
    (Grammar.whole rules).Keeps (conserving K) := by
  intro p _ input
  by_cases hp : K p
  · exact (Parser.body_conserves hK hp input).mono fun o ho _ => ho
  · exact Action.meets_of_forall (fun _ => trivial) _ fun o hin => absurd hin hp

/-- A parse by such parsers that succeeds produces the tokens that it consumed, as they
were read, and what it left follows them in the input. -/
theorem Conserving.run_conserves (hK : Conserving rules K) (hp : K p)
    (hrun : Parser.run rules n p input ctx = some (.ok m, ctx')) :
    m.consumed ≤ input.length ∧ m.produced = input.take m.consumed ∧
      m.produced ++ input.drop m.consumed = input := by
  obtain ⟨es, h⟩ := runs_of_run hrun
  have hcalls : (p.body rules input).Only (fun _ => True) (· ∈ Grammar.whole rules) :=
    Grammar.calls_only (G := .whole rules) trivial input
  obtain ⟨hm, -⟩ :=
    h.keeps (G := .whole rules) hK.whole_keeps hcalls (Parser.body_conserves hK hp input)
  exact ⟨hm.consumed_le, hm.produced_eq, hm.append_drop⟩

theorem Leaf.any_conserves {input : List (Token V)}
    (h : Runs rules (Action.traced "any" input (.done (Leaf.onFirst "any" "EOF" Leaf.one input)))
      ctx (.ok m) ctx' es) : m.Conserves input := by
  obtain ⟨entered, ctx₁, nested, -, hregion, -⟩ := h.of_traced_ok
  obtain ⟨hanswer, -, -⟩ := runs_done.1 hregion
  cases input with
  | nil => cases hanswer
  | cons token rest =>
    cases hanswer
    exact ⟨Nat.le_add_left .., rfl⟩

def spelling : Parser Int64 :=
  .oneOf "here" [.empty none,
    .seq "word" [Leaf.any, .notFollowedBy (.expected "end"), .ref "word" 0]]

theorem spelling_run_conserves : ∃ m ctx,
    Parser.run (fun _ => some spelling) 10 spelling (Token.ofTexts ["a", "b"])
      (.ofConfig .initial) = some (.ok m, ctx) ∧ m.consumed = 2 ∧
    m.consumed ≤ 2 ∧ m.produced = (Token.ofTexts ["a", "b"]).take m.consumed ∧
      m.produced ++ (Token.ofTexts ["a", "b"]).drop m.consumed = Token.ofTexts ["a", "b"] := by
  have hK : Conserving (fun _ => some spelling) (· ∈ [spelling, .empty none,
      .seq "word" [Leaf.any, .notFollowedBy (.expected "end"), .ref "word" 0], Leaf.any,
      .notFollowedBy (.expected "end"), .expected "end", .ref "word" 0]) := by
    constructor
    · simp [spelling, Parser.oneOf, Parser.keepsTokens, Leaf.any, Leaf.tracedPlain]
    · simp [spelling, Parser.oneOf, Parser.parts, Leaf.any, Leaf.tracedPlain]
    · intro program hprogram input ctx m ctx' es hrun
      obtain rfl : program = fun input =>
          Action.traced "any" input (.done (Leaf.onFirst "any" "EOF" Leaf.one input)) := by
        simpa [spelling, Parser.oneOf, Leaf.any, Leaf.tracedPlain] using hprogram
      exact Leaf.any_conserves hrun
  have hlength : (Parser.run (fun _ => some spelling) 10 spelling (Token.ofTexts ["a", "b"])
      (.ofConfig .initial)).map (·.1.toOption.map (·.consumed)) = some (some 2) := by
    decide +kernel
  obtain ⟨⟨o, ctx⟩, hrun, ho⟩ := Option.map_eq_some_iff.1 hlength
  cases o with
  | error failure => cases ho
  | ok m => exact ⟨m, ctx, hrun, Option.some.inj ho, hK.run_conserves List.mem_cons_self hrun⟩

end TokenGrammar
