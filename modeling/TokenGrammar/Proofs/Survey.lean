import TokenGrammar.Proofs.Alternatives

/-!
# Options tried in turn

A choice in the modes `safe` and `tryFast` surveys its options: it tries them all, up to
one that fails unrecoverably (`Parser.Surveyed`). A loop that does so ends as its
attempts alone tell (`Parser.Surveys.returns_iff`).
-/

namespace TokenGrammar

variable {V : Type} [TokenValue V] {rules : Rules V}

-- ---------------------------------------------------------------------------
-- What a parser returns
-- ---------------------------------------------------------------------------

namespace Parser

def Returns (rules : Rules V) (p : Parser V) (input : List (Token V)) (ctx : Context V)
    (o : Outcome V) : Prop :=
  ∃ n ctx', run rules n p input ctx = some (o, ctx')

variable {p : Parser V} {input : List (Token V)} {ctx : Context V}

theorem returns_iff : p.Returns rules input ctx o ↔
    ∃ ctx' es, Runs rules (p.body rules input) ctx o ctx' es := by
  constructor
  · rintro ⟨n, ctx', hrun⟩
    exact ⟨ctx', runs_of_run hrun⟩
  · rintro ⟨ctx', es, h⟩
    obtain ⟨n, hn⟩ := parses_iff_run.1 ⟨_, es, h, rfl⟩
    exact ⟨n, ctx', hn⟩

end Parser

theorem runs_traced_iff {region : Action (Parser V) V (Outcome V)} {ctx : Context V} :
    (∃ ctx' es, Runs rules (Action.traced name input region) ctx o ctx' es) ↔
      (∃ refusal, ctx.enter? name (firstPos input) = .error refusal ∧ o = .error refusal) ∨
      ∃ entered, ctx.enter? name (firstPos input) = .ok entered ∧
        ∃ ctx₁ es, Runs rules region entered o ctx₁ es := by
  constructor
  · rintro ⟨ctx', es, h⟩
    cases h with
    | refused gate rest =>
      cases rest
      exact .inl ⟨_, gate, rfl⟩
    | guarded gate inside rest =>
      cases rest
      exact .inr ⟨_, gate, _, _, inside⟩
  · rintro (⟨refusal, gate, rfl⟩ | ⟨entered, gate, ctx₁, es, inside⟩)
    · exact ⟨_, _, .refused gate .done⟩
    · exact ⟨_, _, .guarded gate inside .done⟩

-- ---------------------------------------------------------------------------
-- Surveys
-- ---------------------------------------------------------------------------

namespace Outcome

omit [TokenValue V]

def GoesOn (o : Outcome V) : Prop := ∀ failure, o = .error failure → failure.isRecoverable = true

theorem goesOn_or_fatal (o : Outcome V) :
    o.GoesOn ∨ ∃ failure, o = .error failure ∧ failure.isRecoverable = false := by
  cases o with
  | ok m => exact .inl nofun
  | error failure =>
    cases hfatal : failure.isRecoverable with
    | true => exact .inl fun f hf => Except.error.inj hf ▸ hfatal
    | false => exact .inr ⟨failure, rfl, hfatal⟩

end Outcome

namespace Parser

variable {p : Parser V} {input : List (Token V)}

theorem Alone.runs {ctx : Context V} (h : p.Alone rules input depth config a config')
    (hconfig : ctx.config = config) (hdepth : ctx.depth = depth) :
    ∃ ctx' es, Runs rules (p.body rules input) ctx a.outcome ctx' es ∧
      ctx'.config = config' ∧ ctx'.depth = depth := by
  obtain ⟨n, ctx', hrun, -, hconfig'⟩ := h ctx hconfig hdepth
  obtain ⟨es, hes⟩ := runs_of_run hrun
  exact ⟨ctx', es, hes, hconfig', hes.depth.trans hdepth⟩

theorem Alone.unique (h : p.Alone rules input depth config a config')
    (h' : p.Alone rules input depth config b config'') : a = b ∧ config' = config'' := by
  let ctx : Context V := { Context.ofConfig config with depth }
  obtain ⟨m, c, hrun, hlogged, hconfig⟩ := h ctx rfl rfl
  obtain ⟨n, c', hrun', hlogged', hconfig'⟩ := h' ctx rfl rfl
  obtain ⟨houtcome, hc⟩ := Prod.mk.inj (run_unique hrun hrun')
  rw [hc, hlogged', List.append_cancel_left_eq] at hlogged
  rw [← hconfig, ← hconfig', hc]
  cases a
  cases b
  simp_all

/-- Whether options are tried as these attempts, each with the options of the parse that
the one before it left, either all of them or up to one that stops the survey by an
unrecoverable failure. -/
inductive Surveyed (rules : Rules V) (input : List (Token V)) (depth : Nat) :
    Config → List (Parser V) → List (Attempt V) → (stop : Option Failure) → Prop
  | nil : Surveyed rules input depth config [] [] none
  | cons (alone : option.Alone rules input depth config attempt config')
      (hgo : attempt.outcome.GoesOn)
      (rest : Surveyed rules input depth config' options attempts stop) :
      Surveyed rules input depth config (option :: options) (attempt :: attempts) stop
  | stopped {failure : Failure}
      (alone : option.Alone rules input depth config ⟨.error failure, logged⟩ config')
      (hfatal : failure.isRecoverable = false) :
      Surveyed rules input depth config (option :: options) [⟨.error failure, logged⟩]
        (some failure)

theorem Surveyed.fatal {options : List (Parser V)} {failure : Failure}
    (h : Surveyed rules input depth config options attempts (some failure)) :
    failure.isRecoverable = false := by
  generalize hstop : some failure = stop at h
  induction h with
  | nil => cases hstop
  | cons _ _ _ ih => exact ih hstop
  | stopped _ hfatal => cases hstop; exact hfatal

/-- Whether a loop over options tries each in turn, goes on after a match and after a
recoverable failure with what `step` keeps of it, and ends after the last option with
the outcome `final`. -/
structure Surveys (rules : Rules V) (input : List (Token V)) (step : σ → Outcome V → σ)
    (final : σ → Outcome V) (loop : List (Parser V) → σ → Step V) : Prop where
  next : ∀ option options s, ∃ next, loop (option :: options) s = .call option input next ∧
    (∀ o : Outcome V, o.GoesOn → next o = loop options (step s o)) ∧
    ∀ failure, failure.isRecoverable = false → next (.error failure) = Action.failWith failure
  last : ∀ s ctx o, (∃ ctx' es, Runs rules (loop [] s) ctx o ctx' es) ↔ o = final s

section
omit [TokenValue V]

def keep (step : σ → Outcome V → σ) (s : σ) (attempts : List (Attempt V)) : σ :=
  attempts.foldl (fun s a => step s a.outcome) s

def ending (stop : Option Failure) (o : Outcome V) : Outcome V :=
  match stop with
  | some failure => .error failure
  | none => o

end

section
variable {step : σ → Outcome V → σ} {final : σ → Outcome V}
  {loop : List (Parser V) → σ → Step V} (hloop : Surveys rules input step final loop)
  {options : List (Parser V)}
include hloop

-- Both by the recursion of the survey, with what the loop keeps generalised.
theorem Surveys.surveyed {s : σ} (h : Runs rules (loop options s) ctx o ctx' es) :
    ∃ attempts stop, Surveyed rules input ctx.depth ctx.config options attempts stop ∧
      o = ending stop (final (keep step s attempts)) := by
  induction options generalizing s ctx es with
  | nil => exact ⟨[], none, .nil, (hloop.last s ctx o).1 ⟨_, _, h⟩⟩
  | cons option options ih =>
    obtain ⟨next, heq, hgo, hstop⟩ := hloop.next option options s
    rw [heq] at h
    obtain ⟨outcome, ctx₁, nested, es₁, parse, rest, -⟩ := h.of_call
    rcases outcome.goesOn_or_fatal with hgoes | ⟨failure, rfl, hfatal⟩
    · rw [hgo outcome hgoes] at rest
      obtain ⟨attempts, stop, hsurvey, hends⟩ := ih rest
      rw [parse.depth] at hsurvey
      exact ⟨_, stop, .cons (alone_of_runs parse) hgoes hsurvey, hends⟩
    · rw [hstop failure hfatal] at rest
      cases rest
      exact ⟨_, _, .stopped (alone_of_runs parse) hfatal, rfl⟩

theorem Surveyed.runs {ctx : Context V}
    (h : Surveyed rules input depth config options attempts stop)
    (hconfig : ctx.config = config) (hdepth : ctx.depth = depth) (s : σ) :
    ∃ ctx' es, Runs rules (loop options s) ctx (ending stop (final (keep step s attempts)))
      ctx' es := by
  induction h generalizing ctx s with
  | nil => exact (hloop.last s ctx _).2 rfl
  | @cons _ options _ _ _ option attempt alone hgoes _ ih =>
    obtain ⟨next, heq, hgo, -⟩ := hloop.next option options s
    obtain ⟨ctx₁, nested, parse, hconfig₁, hdepth₁⟩ := alone.runs hconfig hdepth
    obtain ⟨ctx', es, hrest⟩ := ih hconfig₁ hdepth₁ (step s attempt.outcome)
    rw [← hgo _ hgoes] at hrest
    rw [heq]
    exact ⟨ctx', _, .call parse hrest⟩
  | @stopped _ option options _ _ failure alone hfatal =>
    obtain ⟨next, heq, -, hstop⟩ := hloop.next option options s
    obtain ⟨ctx₁, nested, parse, -, -⟩ := alone.runs hconfig hdepth
    have hends : Runs rules (next (.error failure)) ctx₁ (.error failure) ctx₁ [] := by
      rw [hstop failure hfatal]
      exact .done
    rw [heq]
    exact ⟨ctx₁, _, .call parse hends⟩

theorem Surveys.runs_iff {ctx : Context V} (s : σ) :
    (∃ ctx' es, Runs rules (loop options s) ctx o ctx' es) ↔
      ∃ attempts stop, Surveyed rules input ctx.depth ctx.config options attempts stop ∧
        o = ending stop (final (keep step s attempts)) := by
  constructor
  · rintro ⟨ctx', es, h⟩
    exact hloop.surveyed h
  · rintro ⟨attempts, stop, hsurvey, rfl⟩
    exact hsurvey.runs hloop rfl rfl s

theorem Surveys.returns_iff {ctx : Context V} (s : σ)
    (hbody : p.body rules input = Action.traced name input (loop options s)) :
    p.Returns rules input ctx o ↔
      (ctx.AtLimit ∧
        o = .error (.stackOverflow ctx.depth ctx.config.maxDepth (firstPos input))) ∨
      ¬ ctx.AtLimit ∧ ∃ attempts stop,
        Surveyed rules input (ctx.depth + 1) ctx.config options attempts stop ∧
        o = ending stop (final (keep step s attempts)) := by
  rw [Parser.returns_iff, hbody, runs_traced_iff]
  constructor
  · rintro (⟨refusal, gate, rfl⟩ | ⟨entered, gate, hruns⟩)
    · obtain ⟨hlimit, rfl⟩ := Context.enter?_error gate
      exact .inl ⟨hlimit, rfl⟩
    · have hsurvey := (hloop.runs_iff s).1 hruns
      rw [Context.enter?_depth gate, Context.enter?_config gate] at hsurvey
      exact .inr ⟨(Context.enter?_ok gate).1, hsurvey⟩
  · rintro (⟨hlimit, rfl⟩ | ⟨hbelow, hsurvey⟩)
    · exact .inl ⟨_, Context.enter?_of_atLimit hlimit name (firstPos input), rfl⟩
    · obtain ⟨entered, gate⟩ := Context.exists_enter? hbelow name (firstPos input)
      rw [← Context.enter?_depth gate, ← Context.enter?_config gate] at hsurvey
      exact .inr ⟨entered, gate, (hloop.runs_iff s).2 hsurvey⟩

end

-- ---------------------------------------------------------------------------
-- The two modes that survey their options
-- ---------------------------------------------------------------------------

section
omit [TokenValue V]

def longestStep (s : Option (Match V) × List Failure) :
    Outcome V → Option (Match V) × List Failure
  | .ok m => (some (longer s.1 m), s.2)
  | .error failure => (s.1, s.2 ++ [failure])

def comparisonStep (s : Nat × Option (Comparison V) × List Failure) :
    Outcome V → Nat × Option (Comparison V) × List Failure
  | .ok m => (s.1 + 1, some (Comparison.extend s.2.1 ⟨s.1, m⟩), s.2.2)
  | .error failure => (s.1 + 1, s.2.1, s.2.2 ++ [failure])

def matchOrJoin (place : Option Position) (failures : List Failure) :
    Option (Match V) → Outcome V
  | some m => .ok m
  | none => .error (.join failures place)

end

theorem longestFrom_surveys (input : List (Token V)) :
    Surveys rules input longestStep (fun s => matchOrJoin (firstPos input) s.2 s.1)
      (fun options s => longestFrom input options s.1 s.2) where
  next option options s := by
    refine ⟨_, rfl, fun o ho => ?_, fun failure hfatal => ?_⟩
    · cases o with
      | ok m => rfl
      | error failure => exact if_pos (ho failure rfl)
    · exact if_neg (by simp [hfatal])
  last s ctx o := by
    obtain ⟨best, failures⟩ := s
    cases best <;> simp [longestFrom, matchOrJoin, Action.succeed, Action.failWith]

theorem comparedFrom_surveys (location : String) (input : List (Token V)) :
    Surveys rules input comparisonStep
      (fun s => matchOrJoin (firstPos input) s.2.2 (s.2.1.map (·.first.matched)))
      (fun options s => comparedFrom location input options s.1 s.2.1 s.2.2) where
  next option options s := by
    refine ⟨_, rfl, fun o ho => ?_, fun failure hfatal => ?_⟩
    · cases o with
      | ok m => rfl
      | error failure => exact if_pos (ho failure rfl)
    · exact if_neg (by simp [hfatal])
  last s ctx o := by
    obtain ⟨number, comparison, failures⟩ := s
    cases comparison with
    | none => simp [comparedFrom, matchOrJoin, Action.failWith]
    | some c =>
      simp only [comparedFrom, matchOrJoin, Option.map_some]
      constructor
      · rintro ⟨ctx', es, h⟩
        split at h
        · cases h with
          | report rest => cases rest; rfl
        · cases h; rfl
      · rintro rfl
        split
        · exact ⟨_, _, .report .done⟩
        · exact ⟨_, _, .done⟩

end Parser

end TokenGrammar
