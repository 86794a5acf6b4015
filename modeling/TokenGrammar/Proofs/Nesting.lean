import TokenGrammar.Proofs.Growth

/-!
# A trace is a forest

`Invocation` is a traced parser with those that were traced inside it, and `Invokes` is
a run with its invocations in place of its events. The trace of a run is read off them
(`Invokes.traces`): an invocation that the guard lets in leaves one record if nothing
was recorded inside it, and otherwise two that enclose what was; one that the guard
refuses leaves none. So the records are well nested (`Trace.Nested`).
-/

namespace TokenGrammar

inductive Invocation (V : Type)
  | refused (name : String)
  | admitted (name : String) (place : Option Position) (outcome : Outcome V)
    (inside : List (Invocation V))

namespace Invocation

variable {V : Type} [TokenValue V]

def enclose (depth : Nat) (name : String) (place : Option Position) (o : Outcome V)
    (nested : List TraceRecord) : List TraceRecord :=
  if nested.isEmpty then [⟨.ending true o.isMatch, depth, name, place, o.render⟩]
  else ⟨.enter, depth, name, place, ""⟩ ::
    (nested ++ [⟨.ending false o.isMatch, depth, name, place, o.render⟩])

mutual
def records (depth : Nat) : Invocation V → List TraceRecord
  | .refused _ => []
  | .admitted name place o inside => enclose depth name place o (recordsAll (depth + 1) inside)
def recordsAll (depth : Nat) : List (Invocation V) → List TraceRecord
  | [] => []
  | i :: is => i.records depth ++ recordsAll depth is
end

@[simp] theorem records_refused : (refused name : Invocation V).records depth = [] := by
  rw [records]

@[simp] theorem records_admitted (o : Outcome V) :
    (admitted name place o inside).records depth =
      enclose depth name place o (recordsAll (depth + 1) inside) := by
  rw [records]

@[simp] theorem recordsAll_nil : recordsAll depth ([] : List (Invocation V)) = [] := by
  rw [recordsAll]

@[simp] theorem recordsAll_cons (i : Invocation V) (is : List (Invocation V)) :
    recordsAll depth (i :: is) = i.records depth ++ recordsAll depth is := by
  rw [recordsAll]

@[simp] theorem recordsAll_append (is js : List (Invocation V)) :
    recordsAll depth (is ++ js) = recordsAll depth is ++ recordsAll depth js := by
  induction is with
  | nil => simp
  | cons i is ih => simp [ih]

end Invocation

-- ---------------------------------------------------------------------------
-- Well-nested records
-- ---------------------------------------------------------------------------

/-- Whether records are a sequence of trees at this depth. A tree is one record that
stands for all of a parser, or a start and an end that agree on name, depth and place,
with at least one tree of the next depth between them. -/
inductive Trace.Nested : (depth : Nat) → List TraceRecord → Prop
  | nil : Nested depth []
  | single (hkind : r.kind = .ending true success) (hdepth : r.depth = depth)
      (rest : Nested depth later) : Nested depth (r :: later)
  | tree (hstart : first.kind = .enter ∧ first.depth = depth)
      (hend : last.kind = .ending false success ∧ last.depth = depth)
      (hsame : last.name = first.name ∧ last.pos = first.pos)
      (nested : Nested (depth + 1) between) (hnested : between ≠ [])
      (rest : Nested depth later) : Nested depth (first :: (between ++ last :: later))

theorem Trace.Nested.append (h : Nested depth rs) (h' : Nested depth rs') :
    Nested depth (rs ++ rs') := by
  induction h with
  | nil => exact h'
  | single hkind hdepth _ ih => exact .single hkind hdepth (ih h')
  | tree hstart hend hsame nested hnested _ _ ih =>
    rw [List.cons_append, List.append_assoc, List.cons_append]
    exact .tree hstart hend hsame nested hnested (ih h')

section
variable {V : Type} [TokenValue V]

theorem Invocation.enclose_nested (h : Trace.Nested (depth + 1) nested) (name : String)
    (place : Option Position) (o : Outcome V) :
    Trace.Nested depth (enclose depth name place o nested) := by
  unfold enclose
  split
  · exact .single rfl rfl .nil
  · next hnested =>
    exact .tree ⟨rfl, rfl⟩ ⟨rfl, rfl⟩ ⟨rfl, rfl⟩ h (by simpa using hnested) .nil

mutual
theorem Invocation.records_nested (i : Invocation V) (depth : Nat) :
    Trace.Nested depth (i.records depth) := by
  cases i with
  | refused name => simpa using .nil
  | admitted name place o inside =>
    rw [records_admitted]
    exact enclose_nested (recordsAll_nested inside (depth + 1)) name place o
theorem Invocation.recordsAll_nested (is : List (Invocation V)) (depth : Nat) :
    Trace.Nested depth (recordsAll depth is) := by
  cases is with
  | nil => simpa using .nil
  | cons i is =>
    rw [recordsAll_cons]
    exact (records_nested i depth).append (recordsAll_nested is depth)
end

end

-- ---------------------------------------------------------------------------
-- The invocations of a run
-- ---------------------------------------------------------------------------

variable {V : Type} [TokenValue V]

/-- A run of an action with the traced parsers on the way. A check of a conversion has
a context of its own, and so none that count here. -/
inductive Invokes (rules : Rules V) : {α : Type} → Action (Parser V) V α → Context V → α →
    Context V → List (Invocation V) → Prop
  | done : Invokes rules (.done x) ctx x ctx []
  | call (parse : Invokes rules (p.body rules input) ctx o ctx₁ nested)
      (rest : Invokes rules (next o) ctx₁ x ctx₂ later) :
      Invokes rules (.call p input next) ctx x ctx₂ (nested ++ later)
  | refused (gate : ctx.enter? name (firstPos input) = .error refusal)
      (rest : Invokes rules (next (.error refusal)) ctx x ctx₁ later) :
      Invokes rules (.guarded name input region next) ctx x ctx₁ (.refused name :: later)
  | admitted (gate : ctx.enter? name (firstPos input) = .ok entered)
      (inside : Invokes rules region entered o ctx₁ nested)
      (rest : Invokes rules (next o) (ctx₁.leave name (firstPos input) entered.traces.size o)
        x ctx₂ later) :
      Invokes rules (.guarded name input region next) ctx x ctx₂
        (.admitted name (firstPos input) o nested :: later)
  | client (inside : Invokes rules code ctx result ctx₁ nested)
      (rest : Invokes rules (next result) ctx₁ x ctx₂ later) :
      Invokes rules (.client code next) ctx x ctx₂ (nested ++ later)
  | askMode (rest : Invokes rules (next ctx.config.choiceMode) ctx x ctx₁ later) :
      Invokes rules (.askMode next) ctx x ctx₁ later
  | logFailure {failure : Failure}
      (rest : Invokes rules next (ctx.logFailure failure fallback) x ctx₁ later) :
      Invokes rules (.logFailure failure fallback next) ctx x ctx₁ later
  | report (rest : Invokes rules next (ctx.report diagnostic) x ctx₁ later) :
      Invokes rules (.report diagnostic next) ctx x ctx₁ later
  | clearPartials (rest : Invokes rules next { ctx with partials := [] } x ctx₁ later) :
      Invokes rules (.clearPartials next) ctx x ctx₁ later
  | keepPartials
      (rest : Invokes rules next { ctx with partials := produced ++ ctx.partials } x ctx₁ later) :
      Invokes rules (.keepPartials produced next) ctx x ctx₁ later
  | unchecked (off : ¬ ctx.Checks converted) (rest : Invokes rules next ctx x ctx₁ later) :
      Invokes rules (.checkReproduction p location converted next) ctx x ctx₁ later
  | checked (on : ctx.Checks converted)
      (parse : Runs rules (p.body rules converted) ctx.scratch o scratch es)
      (rest : Invokes rules next (ctx.afterCheck location converted o) x ctx₁ later) :
      Invokes rules (.checkReproduction p location converted next) ctx x ctx₁ later
  | configure (rest : Invokes rules next (ctx.configure change) x ctx₁ later) :
      Invokes rules (.configure change next) ctx x ctx₁ later

variable {rules : Rules V}

theorem Invokes.runs (h : Invokes rules a ctx x ctx' calls) : ∃ es, Runs rules a ctx x ctx' es := by
  induction h with
  | done => exact ⟨_, .done⟩
  | call _ _ ihParse ih =>
    obtain ⟨_, hparse⟩ := ihParse
    obtain ⟨_, hrest⟩ := ih
    exact ⟨_, .call hparse hrest⟩
  | refused gate _ ih => obtain ⟨_, hrest⟩ := ih; exact ⟨_, .refused gate hrest⟩
  | admitted gate _ _ ihInside ih =>
    obtain ⟨_, hinside⟩ := ihInside
    obtain ⟨_, hrest⟩ := ih
    exact ⟨_, .guarded gate hinside hrest⟩
  | client _ _ ihInside ih =>
    obtain ⟨_, hinside⟩ := ihInside
    obtain ⟨_, hrest⟩ := ih
    exact ⟨_, .client hinside hrest⟩
  | askMode _ ih => obtain ⟨_, hrest⟩ := ih; exact ⟨_, .askMode hrest⟩
  | logFailure _ ih => obtain ⟨_, hrest⟩ := ih; exact ⟨_, .logFailure hrest⟩
  | report _ ih => obtain ⟨_, hrest⟩ := ih; exact ⟨_, .report hrest⟩
  | clearPartials _ ih => obtain ⟨_, hrest⟩ := ih; exact ⟨_, .clearPartials hrest⟩
  | keepPartials _ ih => obtain ⟨_, hrest⟩ := ih; exact ⟨_, .keepPartials hrest⟩
  | unchecked off _ ih => obtain ⟨_, hrest⟩ := ih; exact ⟨_, .unchecked off hrest⟩
  | checked on parse _ ih => obtain ⟨_, hrest⟩ := ih; exact ⟨_, .checked on parse hrest⟩
  | configure _ ih => obtain ⟨_, hrest⟩ := ih; exact ⟨_, .configure hrest⟩

theorem Runs.invokes (h : Runs rules a ctx x ctx' es) :
    ∃ calls, Invokes rules a ctx x ctx' calls := by
  induction h with
  | done => exact ⟨_, .done⟩
  | call _ _ ihParse ih =>
    obtain ⟨_, hparse⟩ := ihParse
    obtain ⟨_, hrest⟩ := ih
    exact ⟨_, .call hparse hrest⟩
  | refused gate _ ih => obtain ⟨_, hrest⟩ := ih; exact ⟨_, .refused gate hrest⟩
  | guarded gate _ _ ihInside ih =>
    obtain ⟨_, hinside⟩ := ihInside
    obtain ⟨_, hrest⟩ := ih
    exact ⟨_, .admitted gate hinside hrest⟩
  | client _ _ ihInside ih =>
    obtain ⟨_, hinside⟩ := ihInside
    obtain ⟨_, hrest⟩ := ih
    exact ⟨_, .client hinside hrest⟩
  | askMode _ ih => obtain ⟨_, hrest⟩ := ih; exact ⟨_, .askMode hrest⟩
  | logFailure _ ih => obtain ⟨_, hrest⟩ := ih; exact ⟨_, .logFailure hrest⟩
  | report _ ih => obtain ⟨_, hrest⟩ := ih; exact ⟨_, .report hrest⟩
  | clearPartials _ ih => obtain ⟨_, hrest⟩ := ih; exact ⟨_, .clearPartials hrest⟩
  | keepPartials _ ih => obtain ⟨_, hrest⟩ := ih; exact ⟨_, .keepPartials hrest⟩
  | unchecked off _ ih => obtain ⟨_, hrest⟩ := ih; exact ⟨_, .unchecked off hrest⟩
  | checked on parse _ _ ih => obtain ⟨_, hrest⟩ := ih; exact ⟨_, .checked on parse hrest⟩
  | configure _ ih => obtain ⟨_, hrest⟩ := ih; exact ⟨_, .configure hrest⟩

-- ---------------------------------------------------------------------------
-- The records of a run
-- ---------------------------------------------------------------------------

theorem Context.leave_traces {ctx entered ctx₁ : Context V} (htracing : ctx.config.tracing = true)
    (gate : ctx.enter? name place = .ok entered) (hconfig : ctx₁.config = entered.config)
    (hdepth : ctx₁.depth = entered.depth)
    (hnested : ctx₁.traces.toList = entered.traces.toList ++ nested) (o : Outcome V) :
    (ctx₁.leave name place entered.traces.size o).traces.toList =
      ctx.traces.toList ++ Invocation.enclose ctx.depth name place o nested := by
  have hentered := enter?_traces gate
  rw [enter?_config gate] at hconfig
  rw [enter?_depth gate] at hdepth
  rw [if_pos htracing] at hentered
  have hsize : ctx₁.traces.size = entered.traces.size + nested.length := by
    rw [← Array.length_toList, hnested, List.length_append, Array.length_toList]
  unfold leave rise recordOutcome Invocation.enclose
  rw [hconfig, if_pos htracing]
  cases nested with
  | nil =>
    -- The record of the way in is still the latest one.
    have hsame : ctx₁.traces = entered.traces :=
      Array.toList_inj.1 (by rw [hnested, List.append_nil])
    simp [hsame, hentered]
  | cons r rs =>
    have hnone : (ctx₁.traces.size == entered.traces.size) = false := by
      simp [hsize]
    rw [hnone]
    simp [record, hnested, hentered, hdepth]

section
variable {G : Grammar V} (hclients : ∀ p ∈ G, p.Clients Action.KeepsOptions)
include hclients

theorem Invokes.config (h : Invokes G.rules a ctx x ctx' calls)
    (ha : a.Only (· ≠ .options) (· ∈ G)) : ctx'.config = ctx.config := by
  obtain ⟨_, hrun⟩ := h.runs
  exact hrun.config hclients ha

theorem Invokes.traces (h : Invokes G.rules a ctx x ctx' calls)
    (ha : a.Only (· ≠ .options) (· ∈ G)) (htracing : ctx.config.tracing = true) :
    ctx'.traces.toList = ctx.traces.toList ++ Invocation.recordsAll ctx.depth calls := by
  have hdepths : ∀ {β : Type} {b : Action (Parser V) V β} {c y c' is},
      Invokes G.rules b c y c' is → c'.depth = c.depth := fun hb =>
    let ⟨_, hrun⟩ := hb.runs
    hrun.depth
  induction h with
  | done => simp
  | call parse _ ihParse ih =>
    have hbody := Grammar.body_only ha.1 (hclients _ ha.1)
    have hon := (parse.config hclients (hbody _)).symm ▸ htracing
    rw [ih (ha.2 _) hon, ihParse (hbody _) htracing, hdepths parse]
    simp
  | refused _ _ ih => simpa using ih (ha.2 _) htracing
  | admitted gate inside _ ihInside ih =>
    have hconfig := inside.config hclients ha.1
    have hentered : _ = true := (Context.enter?_config gate).symm ▸ htracing
    have hnested := ihInside ha.1 hentered
    have hleave := Context.leave_traces htracing gate hconfig (hdepths inside) hnested
    rw [ih (ha.2 _) (by rw [Context.leave_config, hconfig]; exact hentered), hleave]
    simp [hdepths inside, Context.enter?_depth gate]
  | client inside _ ihInside ih =>
    have hon := (inside.config hclients ha.1).symm ▸ htracing
    rw [ih (ha.2 _) hon, ihInside ha.1 htracing, hdepths inside]
    simp
  | askMode _ ih => exact ih (ha.2 _) htracing
  | logFailure _ ih | report _ ih | clearPartials _ ih | keepPartials _ ih => exact ih ha.2 htracing
  | unchecked _ _ ih => exact ih ha.2.2 htracing
  | checked _ _ _ ih => simpa using ih ha.2.2 (by simpa using htracing)
  | configure _ _ => exact absurd rfl ha.1

end

/-- Where the code of a grammar's author leaves the options alone, a parse that is
traced adds the records of its traced parsers to the trace: for each one let in, a
single record or two that enclose those made inside it, at its depth. -/
theorem Grammar.parse_nests {G : Grammar V} (hclients : ∀ p ∈ G, p.Clients Action.KeepsOptions)
    (hp : p ∈ G) (htracing : ctx.config.tracing = true)
    (hrun : Parser.run G.rules n p input ctx = some (o, ctx')) :
    ∃ calls, Invokes G.rules (.parse p input) ctx o ctx' calls ∧
      ctx'.traces.toList = ctx.traces.toList ++ Invocation.recordsAll ctx.depth calls ∧
      Trace.Nested ctx.depth (Invocation.recordsAll ctx.depth calls) := by
  obtain ⟨es, h⟩ := parses_iff_run.2 ⟨n, hrun⟩
  obtain ⟨calls, hcalls⟩ := (parses_iff.2 h).invokes
  have honly : (Action.parse p input).Only (· ≠ .options) (· ∈ G) := ⟨hp, fun _ => trivial⟩
  exact ⟨calls, hcalls, hcalls.traces hclients honly htracing,
    Invocation.recordsAll_nested calls ctx.depth⟩

/-- The second level records nothing inside it, since the third one is refused. -/
theorem circling_parse_nests : ∃ p ∈ circling, ∃ ctx : Context Int64, ctx.depth = 1 ∧
    ∃ o ctx', Parser.run circling.rules 3 p [] ctx = some (o, ctx') ∧
      ctx'.traces.toList.map (fun r => (r.kind, r.depth)) =
        [(.enter, 1), (.enterNotMatched, 2), (.notMatched, 1)] ∧
      ∃ calls, Invokes circling.rules (.parse p []) ctx o ctx' calls ∧
        ctx'.traces.toList = Invocation.recordsAll 1 calls ∧
        Trace.Nested 1 (Invocation.recordsAll 1 calls) := by
  have hclients : ∀ p ∈ circling, p.Clients Action.KeepsOptions :=
    List.forall_mem_cons.2 ⟨trivial, List.forall_mem_singleton.2 trivial⟩
  have hp : .ref "sum" 0 ∈ circling := List.mem_cons_self
  let ctx : Context Int64 := { Context.ofConfig ⟨3, true, .safe, false⟩ with depth := 1 }
  have hkinds : (Parser.run circling.rules 3 (.ref "sum" 0) [] ctx).map
      (fun r => r.2.traces.toList.map fun r => (r.kind, r.depth)) =
        some [(.enter, 1), (.enterNotMatched, 2), (.notMatched, 1)] := by
    decide +kernel
  obtain ⟨⟨o, ctx'⟩, hrun, hkinds⟩ := Option.map_eq_some_iff.1 hkinds
  obtain ⟨calls, hcalls, htraces, hnested⟩ := Grammar.parse_nests hclients hp rfl hrun
  exact ⟨_, hp, ctx, rfl, o, ctx', hrun, hkinds, calls, hcalls, htraces, hnested⟩

end TokenGrammar
