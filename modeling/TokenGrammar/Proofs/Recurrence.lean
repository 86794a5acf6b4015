import TokenGrammar.Leaf
import TokenGrammar.Proofs.Termination

/-!
# Parses that do not end

A run has finitely many events. So parsers do not end if each run of one of them has a
run of one of them within it (`Parser.Recurs`): that one has fewer events.

A rule recurs in this way where a conversion switches the checks of conversions on
(`rechecking`). A check parses in a context of its own, where conversions are not checked
and the depth starts again at zero, and there it meets the conversion that switches the
checks on.
-/

namespace TokenGrammar

open TokenGrammar.Action (traced)

variable {V : Type} [TokenValue V] {rules : Rules V}

-- ---------------------------------------------------------------------------
-- Runs within runs
-- ---------------------------------------------------------------------------

omit [TokenValue V] in
theorem Event.length_lt_span (nested es : List (Event V)) :
    nested.length < (Event.span p input o nested ++ es).length := by
  simp only [Event.span, List.length_append, List.length_cons]
  omega

theorem Runs.of_traced_open {region : Parser.Step V} {ctx : Context V} (hopen : ¬ ctx.AtLimit)
    (h : Runs rules (traced name input region) ctx o ctx' es) :
    ∃ entered ctx₁ nested, entered.config = ctx.config ∧ entered.depth = ctx.depth + 1 ∧
      Runs rules region entered o ctx₁ nested ∧ ctx'.config = ctx₁.config ∧
      nested.length < es.length := by
  cases h with
  | refused gate rest => exact absurd (Context.enter?_error gate).1 hopen
  | guarded gate inside rest =>
    obtain ⟨rfl, rfl, rfl⟩ := runs_done.1 rest
    exact ⟨_, _, _, Context.enter?_config gate, Context.enter?_depth gate, inside,
      Context.leave_config _, by simp⟩

theorem Runs.of_ref_open {ctx : Context V} (hopen : ¬ ctx.AtLimit) (hrule : rules rule = some p)
    (h : Runs rules ((Parser.ref name rule).body rules input) ctx o ctx' es) :
    ∃ entered ctx₁ nested, entered.config = ctx.config ∧ entered.depth = ctx.depth + 1 ∧
      Runs rules (p.body rules input) entered o ctx₁ nested ∧ nested.length < es.length := by
  obtain ⟨entered, _, _, hconfig, hdepth, hregion, -, hsize⟩ := Runs.of_traced_open hopen h
  rw [hrule] at hregion
  obtain ⟨_, _, _, _, hparse, hdone, rfl⟩ := Runs.of_call hregion
  obtain ⟨rfl, -, -⟩ := runs_done.1 hdone
  exact ⟨_, _, _, hconfig, hdepth, hparse, Nat.lt_trans (Event.length_lt_span ..) hsize⟩

namespace Parser

/-- Whether one of the parsers that `R` tells of is run with fewer than `size` events. -/
def RunsWithin (rules : Rules V) (R : Parser V → List (Token V) → Context V → Prop)
    (size : Nat) : Prop :=
  ∃ p input ctx o ctx' es, R p input ctx ∧ Runs rules (p.body rules input) ctx o ctx' es ∧
    es.length < size

/-- Whether each run of such a parser has a shorter one of such a parser in it. -/
def Recurs (rules : Rules V) (R : Parser V → List (Token V) → Context V → Prop) : Prop :=
  ∀ p input ctx o ctx' es, R p input ctx → Runs rules (p.body rules input) ctx o ctx' es →
    RunsWithin rules R es.length

variable {R : Parser V → List (Token V) → Context V → Prop}

theorem RunsWithin.mono (h : RunsWithin rules R m) (hle : m ≤ n) : RunsWithin rules R n := by
  obtain ⟨p, input, ctx, o, ctx', es, hR, hrun, hsize⟩ := h
  exact ⟨p, input, ctx, o, ctx', es, hR, hrun, Nat.lt_of_lt_of_le hsize hle⟩

theorem Recurs.not_runsWithin (h : Recurs rules R) : ¬ RunsWithin rules R size := by
  induction size using Nat.strongRecOn with
  | ind size ih =>
    rintro ⟨p, input, ctx, o, ctx', es, hR, hrun, hsize⟩
    exact ih es.length hsize (h p input ctx o ctx' es hR hrun)

theorem Recurs.run_eq_none (h : Recurs rules R) (hR : R p input ctx) (n : Nat) :
    run rules n p input ctx = none := by
  rw [Option.eq_none_iff_forall_ne_some]
  rintro ⟨o, ctx'⟩ hrun
  obtain ⟨es, hes⟩ := runs_of_run hrun
  exact h.not_runsWithin ⟨p, input, ctx, o, ctx', es, hR, hes, Nat.lt_succ_self _⟩

end Parser

/-- Whether some parse of the grammar does not end, though all code of its author does. -/
def Grammar.Endless (G : Grammar V) (config : Config) : Prop :=
  (∀ p ∈ G, p.Clients fun a => ∀ ctx, a.Ends G.rules ctx) ∧
    ∃ p ∈ G, ∃ input, ∀ n, Parser.run G.rules n p input (.ofConfig config) = none

-- ---------------------------------------------------------------------------
-- Code that answers at once
-- ---------------------------------------------------------------------------

@[simp] theorem Action.ends_done (x : α) (ctx : Context V) :
    (Action.done x : Action (Parser V) V α).Ends rules ctx := ⟨_, _, _, .done⟩

@[simp] theorem Action.ends_configure {next : Action (Parser V) V α} {ctx : Context V} :
    (Action.configure change next).Ends rules ctx ↔ next.Ends rules (ctx.configure change) := by
  constructor
  · rintro ⟨_, _, _, h⟩
    cases h with
    | configure rest => exact ⟨_, _, _, rest⟩
  · rintro ⟨_, _, _, h⟩
    exact ⟨_, _, _, .configure h⟩

theorem Runs.of_answer {answer x : Outcome V}
    (h : Runs rules (Action.client (.done answer) .done) ctx x ctx' es) :
    x = answer ∧ ctx' = ctx := by
  cases h with
  | client hcode hdone =>
    obtain ⟨rfl, rfl, -⟩ := runs_done.1 hcode
    obtain ⟨rfl, rfl, -⟩ := runs_done.1 hdone
    exact ⟨rfl, rfl⟩

theorem Leaf.runs_configuring {ctx : Context V}
    (h : Runs rules ((Leaf.configuring change).body rules input) ctx o ctx' es) :
    o = .ok .nothing ∧ ctx' = ctx.configure change := by
  cases h with
  | client hcode hdone =>
    cases hcode with
    | configure hcode =>
      obtain ⟨rfl, rfl, -⟩ := runs_done.1 hcode
      obtain ⟨rfl, rfl, -⟩ := runs_done.1 hdone
      exact ⟨rfl, rfl⟩

-- ---------------------------------------------------------------------------
-- Checks within checks
-- ---------------------------------------------------------------------------

def reading : Parser Int64 :=
  .firstOf "there" [.seq "seq" [Leaf.ofKind "raw", .ref "again" 0], Leaf.emit [Token.ofRaw "a" 0]]

/-- A conversion that changes no tokens, but switches the checks of conversions on. -/
def rechecking : Parser Int64 :=
  .transform "here" reading fun tokens =>
    .configure ({ · with checkTransforms := true }) <| .done (.ok tokens)

section
variable {R : Rules Int64} {ctx : Context Int64}

theorem runs_reading_nil (h : Runs R (reading.body R []) ctx o ctx' es)
    (hroom : ctx.config.Allows (ctx.depth + 2)) :
    o = .ok ⟨0, [Token.ofRaw "a" 0]⟩ ∧ ctx'.config = ctx.config := by
  have hopen : ¬ ctx.AtLimit := Context.not_atLimit_iff.2 (hroom.imp id Nat.le_of_lt)
  obtain ⟨entered, _, _, hconfig, hdepth, hregion, hleft, -⟩ := Runs.of_traced_open hopen h
  obtain ⟨_, _, _, _, hseq, hrest, -⟩ := Runs.of_call hregion
  have hopen₁ : ¬ entered.AtLimit := by rwa [Context.not_atLimit_iff, hconfig, hdepth]
  obtain ⟨inner, _, _, hconfig₁, -, hparts, hleft₁, -⟩ := Runs.of_traced_open hopen₁ hseq
  -- The sequence finds nothing to read, and fails recoverably.
  cases hparts with
  | clearPartials hparts =>
    obtain ⟨_, _, _, _, hleaf, hkept, -⟩ := Runs.of_call hparts
    obtain ⟨rfl, rfl⟩ := Runs.of_answer hleaf
    cases hkept with
    | keepPartials hkept =>
      obtain ⟨rfl, rfl, -⟩ := runs_done.1 hkept
      obtain ⟨_, _, _, _, hemit, hdone, -⟩ := Runs.of_call hrest
      obtain ⟨rfl, rfl⟩ := Runs.of_answer hemit
      obtain ⟨rfl, rfl, -⟩ := runs_done.1 hdone
      exact ⟨rfl, by rw [hleft, hleft₁, hconfig₁, hconfig]⟩

def Rechecks (p : Parser Int64) (input : List (Token Int64)) (ctx : Context Int64) : Prop :=
  p = .ref "again" 0 ∧ input = [] ∧ ctx.depth ≤ 2 ∧ ctx.config.Allows 5 ∧
    ctx.config.choiceMode = .safe

theorem reading_runsWithin {t : Token Int64} (ht : t.kind = "raw")
    (h : Runs R (reading.body R [t]) ctx o ctx' es) (hdepth : ctx.depth = 0)
    (hroom : ctx.config.Allows 5) (hmode : ctx.config.choiceMode = .safe) :
    Parser.RunsWithin R Rechecks es.length := by
  have hopen : ¬ ctx.AtLimit := by
    rw [Context.not_atLimit_iff, hdepth]
    exact hroom.imp id (by omega)
  obtain ⟨entered, _, _, hconfig, hdepth₁, hregion, -, hsize⟩ := Runs.of_traced_open hopen h
  obtain ⟨_, _, _, _, hseq, -, rfl⟩ := Runs.of_call hregion
  have hopen₁ : ¬ entered.AtLimit := by
    rw [Context.not_atLimit_iff, hconfig, hdepth₁, hdepth]
    exact hroom.imp id (by omega)
  obtain ⟨inner, _, _, hconfig₁, hdepth₂, hparts, -, hsize₁⟩ := Runs.of_traced_open hopen₁ hseq
  cases hparts with
  | clearPartials hparts =>
    obtain ⟨_, _, _, _, hleaf, hafter, rfl⟩ := Runs.of_call hparts
    obtain ⟨hread, rfl⟩ := Runs.of_answer hleaf
    obtain rfl := hread.trans (if_pos ht)
    -- Behind the token the rule is called, two levels deep and with nothing left to read.
    cases hafter with
    | clearPartials hafter =>
      obtain ⟨_, _, _, _, href, -, rfl⟩ := Runs.of_call hafter
      have hinner : inner.config = ctx.config := hconfig₁.trans hconfig
      refine ⟨_, _, { inner with partials := [] }, _, _, _, ⟨rfl, rfl, ?_, ?_, ?_⟩, href, ?_⟩
      · show inner.depth ≤ 2
        omega
      · exact hinner ▸ hroom
      · exact hinner ▸ hmode
      · simp only [Event.span, List.length_append, List.length_cons] at hsize hsize₁ ⊢
        omega

/-- The rule is run again, in the check of what it made. -/
theorem rechecking_recurs : Parser.Recurs (fun _ => some rechecking) Rechecks := by
  rintro _ _ ctx o ctx' es ⟨rfl, rfl, hdepth, hroom, hmode⟩ h
  have hopen : ¬ ctx.AtLimit := Context.not_atLimit_iff.2 (hroom.imp id (by omega))
  obtain ⟨entered, _, _, hconfig, hdepth₁, hrule, hsize⟩ := Runs.of_ref_open hopen rfl h
  obtain ⟨_, ctx₁, _, _, hitem, hrest, rfl⟩ := Runs.of_call hrule
  have hin : entered.config.Allows (entered.depth + 2) := by
    rw [hconfig, hdepth₁]
    exact hroom.imp id (by omega)
  obtain ⟨rfl, hconfig₁⟩ := runs_reading_nil hitem hin
  have hroom₁ : ctx₁.config.Allows 5 := hconfig₁.trans hconfig ▸ hroom
  have hmode₁ : ctx₁.config.choiceMode = .safe := hconfig₁.trans hconfig ▸ hmode
  cases hrest with
  | client hconvert hcheck =>
    cases hconvert with
    | configure hdone =>
      obtain ⟨rfl, rfl, -⟩ := runs_done.1 hdone
      cases hcheck with
      | unchecked off =>
        refine absurd ?_ off
        simp [Context.Checks, Context.checksTransforms, Context.configure, hmode₁]
      | checked on parse rest =>
        refine (reading_runsWithin rfl parse rfl hroom₁ hmode₁).mono ?_
        simp only [Event.span, List.length_append, List.length_cons, List.length_map] at hsize ⊢
        omega

end

def rechecked : Grammar Int64 :=
  .ofList (fun _ => some rechecking)
    [.ref "again" 0, rechecking, reading, .seq "seq" [Leaf.ofKind "raw", .ref "again" 0],
      Leaf.ofKind "raw", Leaf.emit [Token.ofRaw "a" 0]]
    (by simp [Parser.parts, Parser.firstOf, rechecking, reading, Leaf.ofKind, Leaf.plain,
      Leaf.emit])
    (by simp [Parser.Clients, Parser.firstOf, rechecking, reading, Leaf.ofKind, Leaf.plain,
      Leaf.emit, Action.succeed, Action.Only])

theorem rechecked_endless {config : Config} (hroom : config.Allows 5)
    (hmode : config.choiceMode = .safe) : rechecked.Endless config := by
  refine ⟨?_, .ref "again" 0, List.mem_cons_self, [], fun n => ?_⟩
  · simp [rechecked, Parser.Clients, Parser.firstOf, rechecking, reading, Leaf.ofKind, Leaf.plain,
      Leaf.emit, Action.succeed]
  · exact rechecking_recurs.run_eq_none ⟨rfl, rfl, Nat.zero_le _, hroom, hmode⟩ n

end TokenGrammar
