import Mathlib.Data.ENat.Lattice
import Mathlib.Order.CompletePartialOrder
import TokenGrammar.Proofs.Grammar

/-!
# How deep a parser nests

The height of a parser is how many regions behind the depth guard it can have open at once, on
any input and after any outcomes. It is read off the parser alone: a combinator adds its own
regions to those of the tallest of its parts, and code of a grammar's author has the height of
the actions it may take. A rule has no height of its own (it is infinite), since its body may
refer to the rule again. The check of a conversion does not count, as it has a depth of its own.

No action of a parser is taller than the parser (`Parser.body_height_le`).
-/

namespace TokenGrammar

variable {V : Type}

mutual
noncomputable def Parser.height : Parser V → ℕ∞
  | .leaf program => ⨆ input, (program input).height
  | .seq _ parts | .choice _ _ parts => Parser.heights parts + 1
  | .repetition _ _ _ item | .optional item | .lookahead item | .notFollowedBy item
  | .peek item | .trace _ item => item.height + 1
  | .transform _ item convert => max item.height (⨆ tokens, (convert tokens).height)
  | .labelled _ item => item.height
  | .recover search body skipUntil => max (max search.height body.height) skipUntil.height + 2
  | .expected _ | .fail _ | .empty none => 0
  | .before _ | .atEnd | .empty (some _) => 1
  | .ref _ _ | .deferred _ => ⊤
noncomputable def Parser.heights : List (Parser V) → ℕ∞
  | [] => 0
  | p :: ps => max p.height (Parser.heights ps)
noncomputable def Action.height : {α : Type} → Action (Parser V) V α → ℕ∞
  | _, .done _ => 0
  | _, .call p _ next => max p.height (⨆ o, (next o).height)
  | _, .guarded _ _ region next => max (region.height + 1) (⨆ o, (next o).height)
  | _, .client code next => max code.height (⨆ r, (next r).height)
  | _, .askMode next => ⨆ mode, (next mode).height
  | _, .logFailure _ _ next | _, .report _ next | _, .clearPartials next
  | _, .keepPartials _ next | _, .checkReproduction _ _ _ next | _, .configure _ next => next.height
end

attribute [local simp] Parser.height Parser.heights Action.height

variable {bound : ℕ∞}

namespace Action

@[simp] theorem done_height (x : α) : (.done x : Action (Parser V) V α).height = 0 := by
  simp

@[simp] theorem succeed_height (m : Match V) :
    (succeed m : Action (Parser V) V (Outcome V)).height = 0 := done_height _

@[simp] theorem failWith_height (failure : Failure) :
    (failWith failure : Action (Parser V) V (Outcome V)).height = 0 := done_height _

@[simp] theorem traced_height (region : Action (Parser V) V (Outcome V)) :
    (traced name input region).height = region.height + 1 := by
  simp [traced]

@[simp] theorem parse_height (p : Parser V) (input : List (Token V)) :
    (parse p input).height = p.height := by
  simp [parse]

theorem CallsOn.height_le {a : Action (Parser V) V α}
    (h : a.CallsOn fun p _ => p.height ≤ bound) : a.height ≤ bound := by
  induction a with
  | done => simp
  | call p input next ih =>
    rw [Action.height, max_le_iff, iSup_le_iff]
    exact ⟨h.1, fun o => ih o (h.2 o)⟩
  | report _ next ih | clearPartials next ih | keepPartials _ next ih => exact ih h
  | _ => exact h.elim

end Action

-- ---------------------------------------------------------------------------
-- The actions of a parser
-- ---------------------------------------------------------------------------

namespace Parser

variable {input : List (Token V)}

theorem height_le_heights {parts : List (Parser V)} (h : part ∈ parts) :
    part.height ≤ heights parts := by
  induction parts with
  | nil => simp at h
  | cons first parts ih =>
    rw [heights]
    rcases List.mem_cons.1 h with rfl | h
    · exact le_max_left _ _
    · exact le_max_of_le_right (ih h)

theorem body_height_le (rules : Rules V) (p : Parser V) (input : List (Token V)) :
    (p.body rules input).height ≤ p.height := by
  cases p with
  | leaf program =>
    simp only [body, height, Action.height, max_le_iff, iSup_le_iff]
    exact ⟨le_iSup (fun input => (program input).height) input, by simp⟩
  | seq label parts =>
    simp only [body, height, Action.traced_height]
    gcongr
    exact (seqFrom_callsOn (fun _ hpart _ _ => height_le_heights hpart) _).height_le
  | choice location mode options =>
    have hchoose : ∀ mode, (choose location options input mode).height ≤ heights options :=
      fun mode => (choose_callsOn (fun _ => height_le_heights) location mode).height_le
    simp only [body, height, Action.traced_height]
    gcongr
    cases mode with
    | some mode => exact hchoose mode
    | none => simpa using hchoose
  | repetition label min max item =>
    simp only [body, height, Action.traced_height]
    gcongr
    exact (repeatFrom_callsOn (fun _ _ => le_refl _) ..).height_le
  | optional item =>
    simp only [body, height, Action.traced_height]
    gcongr
    simp only [Action.height, max_le_iff, iSup_le_iff]
    refine ⟨le_refl _, fun o => ?_⟩
    cases o with
    | ok m => simp
    | error failure => simp only; split <;> simp
  | transform location item convert =>
    simp only [body, height, Action.height, max_le_iff, iSup_le_iff]
    refine ⟨le_max_left _ _, fun o => ?_⟩
    cases o with
    | error failure => simp [onMatch]
    | ok m =>
      simp only [onMatch, Action.height, max_le_iff, iSup_le_iff]
      refine ⟨le_max_of_le_right (le_iSup (fun tokens => (convert tokens).height) m.produced),
        fun r => ?_⟩
      cases r <;> simp
  | before test => simp [body]
  | empty label => cases label <;> simp [body]
  | atEnd => cases input <;> simp [body]
  | recover search content skipUntil =>
    simp only [body, height, Action.traced_height, ← one_add_one_eq_two, ← add_assoc]
    gcongr
    simp only [Action.height, max_le_iff, iSup_le_iff, Action.parse_height]
    refine ⟨by gcongr; simp, fun checked => ?_⟩
    cases checked with
    | error failure => simp [onMatch]
    | ok found =>
      simp only [onMatch, Action.height, max_le_iff, iSup_le_iff, Action.parse_height]
      refine ⟨by gcongr; simp, fun o => ?_⟩
      cases o with
      | ok m => simp
      | error failure =>
        simp only [Action.height, Action.traced_height]
        gcongr
        exact (resync_callsOn (fun _ _ => le_max_right _ _) 0).height_le
  | lookahead item | notFollowedBy item | peek item =>
    simp only [body, height, Action.traced_height]
    gcongr
    simp only [Action.height, max_le_iff, iSup_le_iff]
    refine ⟨le_refl _, fun o => ?_⟩
    cases o <;> simp [onMatch]
  | labelled label item =>
    simp only [body, height, Action.height, max_le_iff, iSup_le_iff]
    refine ⟨le_refl _, fun o => ?_⟩
    cases o <;> simp
  | expected message | fail message => simp [body]
  | trace label item => simp [body]
  | ref name rule | deferred rule => simp

end Parser

end TokenGrammar
