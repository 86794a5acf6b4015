import TokenGrammar.Proofs.Combinators

/-!
# No more is consumed than there is

If no leaf reports more tokens than it is given, then neither does any parser.
-/

namespace TokenGrammar

variable {V : Type}

theorem Match.append_consumed_le {input : List (Token V)} {sofar m : Match V}
    (hsofar : sofar.consumed ≤ input.length)
    (hm : m.consumed ≤ (input.drop sofar.consumed).length) :
    (sofar ++ m).consumed ≤ input.length := by
  rw [List.length_drop] at hm
  show sofar.consumed + m.consumed ≤ input.length
  omega

def consumption : Contract V :=
  ⟨fun _ input => Parser.OnlyMatches (·.consumed ≤ input.length), fun _ => True,
    fun _ => True⟩

variable [TokenValue V] {G : Grammar V}

section
variable (hleaf : ∀ program, .leaf program ∈ G → ∀ input ctx m ctx' es,
  Runs G.rules (program input) ctx (.ok m) ctx' es → m.consumed ≤ input.length)
include hleaf

theorem Grammar.keeps_consumption : G.Keeps consumption := by
  intro p hp input
  have hmatches : Parser.MatchesInto consumption G.rules (·.consumed ≤ input.length) p input := {
    nothing := Nat.zero_le _
    passed := fun _ _ m hm => hm m rfl
    appended := fun _ _ _ m hsofar hm => Match.append_consumed_le hsofar (hm m rfl)
    skipped := fun test => (List.takeWhile_prefix test).length_le
    leaf := by
      rintro program rfl
      exact hleaf program hp input
    converted := fun _ _ _ _ m hm _ => hm m rfl
    peeked := fun _ _ _ _ => Nat.zero_le _
    resynced := fun _ _ _ _ => by
      refine ⟨Nat.le_refl _, ?_⟩
      rintro front rest m rfl hm
      rw [List.length_append]
      exact Nat.add_le_add_left (hm m rfl) _
    logged := fun _ => trivial }
  exact Parser.body_matchesInto hmatches

/-- If no leaf of a grammar reports more tokens than it is given, no parser does. -/
theorem Grammar.consumed_le (hp : p ∈ G)
    (h : Runs G.rules (p.body G.rules input) ctx (.ok m) ctx' es) : m.consumed ≤ input.length := by
  have hG := Grammar.keeps_consumption hleaf
  obtain ⟨hm, -⟩ := h.keeps hG (Grammar.calls_only hp input) (hG p hp input)
  exact hm m rfl

end

end TokenGrammar
