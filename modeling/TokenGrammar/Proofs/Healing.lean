import TokenGrammar.Leaf
import TokenGrammar.Proofs.Equivalence

/-!
# A recovery matches once its check has

A recovery passes the depth guard four times: for itself, and then one after another for the
check, for what is to be recovered from, and for the resynchronization. The guard gives back the
depth each time, so the last is let in where the first was, unless an author's code has meanwhile
set a limit below the depth in progress (`Context.InLimit`, `Parser.KeepsInLimit`). Then a recovery
fails only at its own gate or in its check, and it logs one failure itself, that of what it
recovers from (`Parser.recover_heals`).
-/

namespace TokenGrammar

variable {V : Type} [TokenValue V] {rules : Rules V}

-- ---------------------------------------------------------------------------
-- Within the limit
-- ---------------------------------------------------------------------------

def Context.InLimit {V : Type} (ctx : Context V) : Prop := ctx.config.Allows ctx.depth

def Parser.KeepsInLimit (rules : Rules V) (p : Parser V) : Prop :=
  ∀ input ctx o ctx', ctx.InLimit → (p.body rules input).Leads rules ctx o ctx' → ctx'.InLimit

theorem Grammar.keepsInLimit {G : Grammar V}
    (hclients : ∀ p ∈ G, p.Clients (·.Changes fun change => ∀ depth, Config.KeepsRoom depth change))
    (hp : p ∈ G) :
    p.KeepsInLimit G.rules := by
  rintro input ctx o ctx' hctx ⟨es, h⟩
  have hkeep : ∀ p ∈ G, p.Clients (·.Changes (Config.KeepsRoom ctx.depth)) :=
    fun p hp => (hclients p hp).mono fun _ hcode => hcode.mono fun _ hchange => hchange ctx.depth
  unfold Context.InLimit
  rw [h.depth]
  exact h.options hkeep (Grammar.calls_only hp input) (Parser.body_changes (hkeep p hp) input) hctx

omit [TokenValue V] in
theorem Context.enter?_inLimit {ctx : Context V} (gate : ctx.enter? name place = .ok entered) :
    entered.InLimit := by
  unfold Context.InLimit
  rw [Context.enter?_config gate, Context.enter?_depth gate]
  exact Context.not_atLimit_iff.1 (Context.enter?_ok gate).1

namespace Parser

theorem KeepsInLimit.not_atLimit {p : Parser V} (h : p.KeepsInLimit rules) {ctx : Context V}
    (gate : ctx.enter? name place = .ok entered)
    (hparse : (p.body rules input).Leads rules entered o ended) :
    ¬ (ended.leave name place entered.traces.size o).AtLimit := by
  have hended : ended.InLimit := h _ _ _ _ (Context.enter?_inLimit gate) hparse
  have hdepth : ended.depth = ctx.depth + 1 := hparse.depth.trans (Context.enter?_depth gate)
  rw [Context.not_atLimit_iff, Context.leave_config, Context.leave_depth, hdepth]
  rwa [Context.InLimit, hdepth] at hended

-- ---------------------------------------------------------------------------
-- Resynchronization
-- ---------------------------------------------------------------------------

inductive FailsBefore (rules : Rules V) (p : Parser V) (input : List (Token V)) :
    Nat → Context V → Context V → Prop
  | zero : FailsBefore rules p input 0 ctx ctx
  | succ {failure : Failure} (earlier : FailsBefore rules p input i ctx ctx₁)
      (inside : i < input.length)
      (last : (p.body rules (input.drop i)).Leads rules ctx₁ (.error failure) ctx₂) :
      FailsBefore rules p input (i + 1) ctx ctx₂

/-- How `input` is skipped: past the first match, or all of it where there is none. -/
inductive Skips (rules : Rules V) (skipUntil : Parser V) (input : List (Token V))
    (ctx : Context V) : Match V → Context V → Prop
  | past (earlier : FailsBefore rules skipUntil input i ctx ctx₁) (inside : i < input.length)
      (first : (skipUntil.body rules (input.drop i)).Leads rules ctx₁ (.ok m) ctx₂) :
      Skips rules skipUntil input ctx ⟨i + m.consumed, []⟩ ctx₂
  | all (earlier : FailsBefore rules skipUntil input input.length ctx ctx₁) :
      Skips rules skipUntil input ctx ⟨input.length, []⟩ ctx₁

section
variable {skipUntil : Parser V} {input : List (Token V)} {ctx : Context V}

omit [TokenValue V] in
theorem resync_drop (hi : i < input.length) : resync skipUntil (input.drop i) i =
    .call skipUntil (input.drop i) fun
      | .ok m => Action.succeed ⟨i + m.consumed, []⟩
      | .error _ => resync skipUntil (input.drop (i + 1)) (i + 1) := by
  rw [List.drop_eq_getElem_cons hi]
  rfl

theorem FailsBefore.le (h : FailsBefore rules skipUntil input i ctx ctx₁) : i ≤ input.length := by
  cases h with
  | zero => exact Nat.zero_le _
  | succ _ hi _ => exact hi

theorem FailsBefore.resync (h : FailsBefore rules skipUntil input i ctx ctx₁)
    (hrest : (resync skipUntil (input.drop i) i).Leads rules ctx₁ o ctx') :
    (resync skipUntil input 0).Leads rules ctx o ctx' := by
  induction h with
  | zero => exact hrest
  | succ _ hi hlast ih =>
    apply ih
    rw [resync_drop hi, Action.leads_call_iff]
    exact ⟨_, _, hlast, hrest⟩

theorem FailsBefore.skips (h : FailsBefore rules skipUntil input i ctx ctx₁)
    (hrest : (Parser.resync skipUntil (input.drop i) i).Leads rules ctx₁ o ctx') :
    ∃ m, o = .ok m ∧ Skips rules skipUntil input ctx m ctx' := by
  induction hleft : input.length - i generalizing i ctx₁ with
  | zero =>
    obtain rfl : i = input.length := Nat.le_antisymm h.le (Nat.le_of_sub_eq_zero hleft)
    rw [List.drop_length] at hrest
    obtain ⟨rfl, rfl⟩ := Action.leads_done.1 hrest
    exact ⟨_, rfl, .all h⟩
  | succ left ih =>
    have hi : i < input.length := Nat.lt_of_sub_eq_succ hleft
    rw [resync_drop hi, Action.leads_call_iff] at hrest
    obtain ⟨o₁, ctx₂, hparse, hrest⟩ := hrest
    cases o₁ with
    | ok m =>
      obtain ⟨rfl, rfl⟩ := Action.leads_done.1 hrest
      exact ⟨_, rfl, .past h hi hparse⟩
    | error failure => exact ih (h.succ hi hparse) hrest (by omega)

theorem leads_resync_iff : (resync skipUntil input 0).Leads rules ctx o ctx' ↔
    ∃ m, o = .ok m ∧ Skips rules skipUntil input ctx m ctx' := by
  constructor
  · intro h
    exact FailsBefore.zero.skips h
  · rintro ⟨m, rfl, hskips⟩
    cases hskips with
    | past hearlier hi hfirst =>
      apply hearlier.resync
      rw [resync_drop hi, Action.leads_call_iff]
      exact ⟨_, _, hfirst, Action.leads_done.2 ⟨rfl, rfl⟩⟩
    | all hearlier =>
      apply hearlier.resync
      rw [List.drop_length]
      exact Action.leads_done.2 ⟨rfl, rfl⟩

end

-- ---------------------------------------------------------------------------
-- The recovery
-- ---------------------------------------------------------------------------

def checking (search : Parser V) (input : List (Token V)) : Step V :=
  Action.traced "precondition-check" input (.parse search input)

def processing (content skipUntil : Parser V) (input : List (Token V)) : Step V :=
  (Action.traced "process" input (.parse content input)).bind fun
    | .ok m => .succeed m
    | .error failure => .logFailure failure (firstPos input) <|
      .traced "healing" input <| resync skipUntil input 0

variable {search content skipUntil : Parser V} {input : List (Token V)}
  {ctx checked entered : Context V}

omit [TokenValue V] in
theorem body_recover (rules : Rules V) : body rules (.recover search content skipUntil) input =
    .traced "recover" input ((checking search input).bind fun checked =>
      onMatch checked fun _ => processing content skipUntil input) :=
  rfl

section
variable (started : checked.enter? "process" (firstPos input) = .ok entered)
include started

theorem processing_of_match
    (hparse : (content.body rules input).Leads rules entered (.ok m) ended) :
    (processing content skipUntil input).Leads rules checked (.ok m)
      (ended.leave "process" (firstPos input) entered.traces.size (.ok m)) := by
  rw [processing, Action.leads_bind_iff]
  refine ⟨.ok m, _, (Action.leads_traced_iff started).2 ⟨ended, ?_, rfl⟩,
    Action.leads_done.2 ⟨rfl, rfl⟩⟩
  exact Action.leads_parse_iff.2 hparse

theorem processing_of_failure {failure : Failure}
    (hparse : (content.body rules input).Leads rules entered (.error failure) ended)
    (gate : ((ended.leave "process" (firstPos input) entered.traces.size
      (.error failure)).logFailure failure (firstPos input)).enter? "healing" (firstPos input) =
        .ok healing) (hskips : Skips rules skipUntil input healing m left) :
    (processing content skipUntil input).Leads rules checked (.ok m)
      (left.leave "healing" (firstPos input) healing.traces.size (.ok m)) := by
  rw [processing, Action.leads_bind_iff]
  refine ⟨.error failure, _, (Action.leads_traced_iff started).2 ⟨ended, ?_, rfl⟩, ?_⟩
  · exact Action.leads_parse_iff.2 hparse
  · rw [Action.leads_logFailure, Action.leads_traced_iff gate]
    exact ⟨left, leads_resync_iff.2 ⟨m, rfl, hskips⟩, rfl⟩

end

theorem KeepsInLimit.exists_healing {failure : Failure} (hcontent : content.KeepsInLimit rules)
    (started : checked.enter? "process" (firstPos input) = .ok entered)
    (hparse : (content.body rules input).Leads rules entered (.error failure) ended) :
    ∃ healing, ((ended.leave "process" (firstPos input) entered.traces.size
      (.error failure)).logFailure failure (firstPos input)).enter? "healing" (firstPos input) =
        .ok healing := by
  apply Context.exists_enter?
  exact hcontent.not_atLimit started hparse

theorem processing_matches (hcontent : content.KeepsInLimit rules) (hopen : ¬ checked.AtLimit)
    (h : (processing content skipUntil input).Leads rules checked o ctx') : ∃ m, o = .ok m := by
  obtain ⟨entered, started⟩ := Context.exists_enter? hopen "process" (firstPos input)
  rw [processing, Action.leads_bind_iff] at h
  obtain ⟨o₁, ctx₁, hprocess, hrest⟩ := h
  obtain ⟨ended, hparse, rfl⟩ := (Action.leads_traced_iff started).1 hprocess
  cases o₁ with
  | ok m => exact ⟨m, (Action.leads_done.1 hrest).1⟩
  | error failure =>
    obtain ⟨healing, gate⟩ := hcontent.exists_healing started (Action.leads_parse_iff.1 hparse)
    rw [Action.leads_logFailure, Action.leads_traced_iff gate] at hrest
    obtain ⟨left, hresync, -⟩ := hrest
    obtain ⟨m, hm, -⟩ := leads_resync_iff.1 hresync
    exact ⟨m, hm⟩

theorem checking_not_atLimit (hsearch : search.KeepsInLimit rules)
    (h : (checking search input).Leads rules ctx (.ok found) checked) : ¬ checked.AtLimit := by
  unfold checking at h
  cases gate : ctx.enter? "precondition-check" (firstPos input) with
  | error refusal =>
    obtain ⟨heq, -⟩ := (Action.leads_traced_refused gate).1 h
    cases heq
  | ok entered =>
    obtain ⟨ended, hparse, rfl⟩ := (Action.leads_traced_iff gate).1 h
    exact hsearch.not_atLimit gate (Action.leads_parse_iff.1 hparse)

/-- A recovery whose check and content set no limit below the depth in progress fails only at its
own gate or in its check, and then it logs nothing itself. Else the guard lets in what follows. A
match of the content is what the recovery comes to. A failure of it is logged, at the first token
if it has no place, and the recovery matches as far as the resynchronization skips. -/
theorem recover_heals (hsearch : search.KeepsInLimit rules) (hcontent : content.KeepsInLimit rules)
    (skipUntil : Parser V) (input : List (Token V)) (ctx : Context V) :
    (∀ n failure ctx', run rules n (.recover search content skipUntil) input ctx =
        some (.error failure, ctx') →
      ctx.enter? "recover" (firstPos input) = .error failure ∧ ctx' = ctx ∨
      ∃ entered checked, ctx.enter? "recover" (firstPos input) = .ok entered ∧
        (checking search input).Leads rules entered (.error failure) checked ∧
        ctx'.failures = checked.failures) ∧
    ∀ entered found checked, ctx.enter? "recover" (firstPos input) = .ok entered →
      (checking search input).Leads rules entered (.ok found) checked →
      ∃ started, checked.enter? "process" (firstPos input) = .ok started ∧
        (∀ m ended, (content.body rules input).Leads rules started (.ok m) ended →
          ∃ n ctx', run rules n (.recover search content skipUntil) input ctx =
            some (.ok m, ctx') ∧ ctx'.failures = ended.failures) ∧
        ∀ failure ended, (content.body rules input).Leads rules started (.error failure) ended →
          ∃ healing,
            ((ended.leave "process" (firstPos input) started.traces.size
              (.error failure)).logFailure failure (firstPos input)).enter? "healing"
                (firstPos input) = .ok healing ∧
            healing.failures = ended.failures.push (failure.orAt (firstPos input)) ∧
            ∀ m left, Skips rules skipUntil input healing m left →
              ∃ n ctx', run rules n (.recover search content skipUntil) input ctx =
                some (.ok m, ctx') ∧ ctx'.failures = left.failures := by
  have hrun : ∀ {entered checked found m left},
      ctx.enter? "recover" (firstPos input) = .ok entered →
      (checking search input).Leads rules entered (.ok found) checked →
      (processing content skipUntil input).Leads rules checked (.ok m) left →
      ∃ n ctx', run rules n (.recover search content skipUntil) input ctx = some (.ok m, ctx') ∧
        ctx'.failures = left.failures := by
    intro entered checked found m left gate hcheck hprocess
    have hleads : (body rules (.recover search content skipUntil) input).Leads rules ctx (.ok m)
        (left.leave "recover" (firstPos input) entered.traces.size (.ok m)) := by
      rw [body_recover, Action.leads_traced_iff gate]
      exact ⟨left, Action.leads_bind_iff.2 ⟨_, checked, hcheck, hprocess⟩, rfl⟩
    obtain ⟨n, hn⟩ := exists_run_iff.2 hleads
    exact ⟨n, _, hn, Context.leave_failures left⟩
  constructor
  · intro n failure ctx' hn
    have h := exists_run_iff.1 ⟨n, hn⟩
    rw [body_recover] at h
    cases gate : ctx.enter? "recover" (firstPos input) with
    | error refusal =>
      obtain ⟨heq, rfl⟩ := (Action.leads_traced_refused gate).1 h
      cases heq
      exact .inl ⟨rfl, rfl⟩
    | ok entered =>
      obtain ⟨inside, hregion, rfl⟩ := (Action.leads_traced_iff gate).1 h
      obtain ⟨o, checked, hcheck, hrest⟩ := Action.leads_bind_iff.1 hregion
      cases o with
      | error failure' =>
        obtain ⟨heq, rfl⟩ := Action.leads_done.1 hrest
        cases heq
        exact .inr ⟨entered, inside, rfl, hcheck, Context.leave_failures inside⟩
      | ok found =>
        obtain ⟨m, hm⟩ :=
          processing_matches hcontent (checking_not_atLimit hsearch hcheck) hrest
        cases hm
  · intro entered found checked gate hcheck
    obtain ⟨started, hstarted⟩ := Context.exists_enter? (checking_not_atLimit hsearch hcheck)
      "process" (firstPos input)
    refine ⟨started, hstarted, ?_, ?_⟩
    · intro m ended hparse
      simpa using hrun gate hcheck (processing_of_match hstarted hparse)
    · intro failure ended hparse
      obtain ⟨healing, hhealing⟩ := hcontent.exists_healing hstarted hparse
      refine ⟨healing, hhealing, ?_, ?_⟩
      · rw [Context.enter?_failures hhealing]
        simp [Context.logFailure]
      · intro m left hskips
        simpa using hrun gate hcheck (processing_of_failure hstarted hparse hhealing hskips)

end Parser

def stopNowhere : Parser Int64 := Leaf.failing fun _ => .critical "stop" none

def stopAfterNothing : Grammar Int64 :=
  .ofList (fun _ => none) [.empty none, stopNowhere]
    (by simp [Parser.parts, stopNowhere, Leaf.failing])
    (by simp [Parser.Clients, stopNowhere, Leaf.failing, Action.failWith, Action.Only])

/-- With two levels, which the guard lets in once for each part, the second token is found. -/
theorem stopNowhere_heals : ∃ n ctx,
    Parser.run (fun _ => none) n (.recover (.empty none) stopNowhere (Leaf.punctuation ";"))
      (Token.ofTexts ["a", ";", "b"]) (.ofConfig ⟨2, false, .safe, false⟩) =
        some (.ok ⟨2, []⟩, ctx) ∧
    ctx.failures = #[.critical "stop" (some (.atIndex 0))] := by
  have hclients : ∀ p ∈ stopAfterNothing,
      p.Clients (·.Changes fun change => ∀ depth, Config.KeepsRoom depth change) := by
    simp [stopAfterNothing, Parser.Clients, stopNowhere, Leaf.failing, Action.failWith,
      Action.Changes]
  have hsearch : (Parser.empty none).KeepsInLimit stopAfterNothing.rules :=
    Grammar.keepsInLimit hclients List.mem_cons_self
  have hcontent : stopNowhere.KeepsInLimit stopAfterNothing.rules :=
    Grammar.keepsInLimit hclients (List.mem_cons_of_mem _ List.mem_cons_self)
  obtain ⟨-, hheals⟩ := Parser.recover_heals hsearch hcontent (Leaf.punctuation ";")
    (Token.ofTexts ["a", ";", "b"]) (.ofConfig ⟨2, false, .safe, false⟩)
  obtain ⟨started, hstarted, -, hfails⟩ :=
    hheals _ _ _ rfl ⟨_, .guarded rfl (.call .done .done) .done⟩
  obtain rfl := Except.ok.inj hstarted
  obtain ⟨healing, -, hlogged, hskips⟩ := hfails _ _ ⟨_, .client .done .done⟩
  obtain ⟨n, ctx, hn, hfailures⟩ := hskips _ _ (.past
    (.succ .zero (by decide) ⟨_, .client .done .done⟩) (by decide) ⟨_, .client .done .done⟩)
  exact ⟨n, ctx, hn, hfailures.trans hlogged⟩

def limitThenStop : Parser Int64 :=
  .seq "limit" [Leaf.configuring ({ · with maxDepth := 1 }), .fail "stop"]

/-- Where what is recovered from sets a limit below the depth in progress, the guard refuses the
resynchronization, after the failure has been logged: the check matches, and the recovery fails. -/
theorem limitThenStop_not_healed :
    ((Context.ofConfig ⟨0, false, .safe, false⟩).enter? "recover"
      (some (.atIndex 0))).toOption.bind (fun entered =>
        ((Parser.checking (.empty none) (Token.ofTexts ["a"])).exec
          (Parser.run (fun _ => none) 1) entered).map (·.1.toOption)) =
      some (some (.nothing : Match Int64)) ∧
    (Parser.run (fun _ => none) 3 (.recover (.empty none) limitThenStop (Leaf.take 1 0))
        (Token.ofTexts ["a"]) (.ofConfig ⟨0, false, .safe, false⟩)).map
          (fun result => (Event.failure? result.1, result.2.failures)) =
      some (some (.stackOverflow 1 1 (some (.atIndex 0))),
        #[.critical "stop" (some (.atIndex 0))]) := by
  constructor <;> decide +kernel

end TokenGrammar
