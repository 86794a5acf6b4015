import TokenGrammar.Conversion
import TokenGrammar.Leaf
import TokenGrammar.Proofs.Growth
import TokenGrammar.Proofs.Height
import TokenGrammar.Proofs.Progress

/-!
# A limit on depth that no parse reaches

What the height of a parser promises (`Parser.height`): from a context that allows for that many
more levels, and whose limit no author's code sets lower, the depth guard lets in every region of
the parse, at no greater depth, and nothing is recorded from further down. One step needs no more
than is left of the height (`Action.Fits`), and so it is for a run as far as it comes
(`Begins.staysBelow`), be it to its end or not.
-/

namespace TokenGrammar

variable {V : Type}

-- ---------------------------------------------------------------------------
-- Below a bound on depth
-- ---------------------------------------------------------------------------

/-- Whether an event is none where the guard refuses, or lets a region in beyond `bound`. The
check of a conversion has a depth of its own. -/
def Event.Below (bound : Nat) : Event V → Prop
  | entered depth => depth ≤ bound
  | refused _ => False
  | within e => e.Below bound
  | _ => True

theorem Event.below_span {p : Parser V} (h : ∀ e ∈ es, e.Below bound) :
    ∀ e ∈ span p input o es, e.Below bound :=
  Event.forall_mem_span.2 ⟨trivial, h, trivial⟩

theorem Event.below_scratch (es : List (Event V)) : ∀ e ∈ es.map scratch, e.Below bound :=
  List.forall_mem_map.2 fun _ _ => trivial

theorem Event.below_ofCheck [TokenValue V] {o : Outcome V} :
    ∀ e ∈ Event.ofCheck location converted o, e.Below bound := by
  unfold Event.ofCheck
  split <;> simp [Below]

namespace Context

def traceDepths (ctx : Context V) : List Nat := ctx.traces.toList.map (·.depth)

/-- Whether all that is recorded from `ctx` to `ctx'` is recorded at a depth below `bound`. A
record from before may be rewritten, but stays at its depth. -/
def TracesBelow (bound : Nat) (ctx ctx' : Context V) : Prop :=
  ∃ new, ctx'.traceDepths = ctx.traceDepths ++ new ∧ ∀ depth ∈ new, depth < bound

variable {bound : Nat} {ctx ctx₁ ctx₂ entered : Context V}

theorem TracesBelow.of_eq (h : ctx₁.traces = ctx.traces) : ctx.TracesBelow bound ctx₁ :=
  ⟨[], by simp [traceDepths, h], by simp⟩

theorem TracesBelow.trans (h : ctx.TracesBelow bound ctx₁) (h' : ctx₁.TracesBelow bound ctx₂) :
    ctx.TracesBelow bound ctx₂ := by
  obtain ⟨first, hfirst, hbelow⟩ := h
  obtain ⟨second, hsecond, hbelow'⟩ := h'
  exact ⟨first ++ second, by rw [hsecond, hfirst, List.append_assoc],
    List.forall_mem_append.2 ⟨hbelow, hbelow'⟩⟩

theorem TracesBelow.record (h : r.depth < bound) : ctx.TracesBelow bound (ctx.record r) :=
  ⟨[r.depth], by simp [traceDepths, Context.record], by simpa using h⟩

theorem TracesBelow.drop (h : ctx.TracesBelow bound ctx₁) :
    ∀ r ∈ ctx₁.traces.toList.drop ctx.traces.size, r.depth < bound := by
  obtain ⟨new, hnew, hbelow⟩ := h
  intro r hr
  apply hbelow
  have hdepths : (ctx₁.traces.toList.drop ctx.traces.size).map (·.depth) = new := by
    rw [List.map_drop]
    change ctx₁.traceDepths.drop _ = new
    rw [hnew, List.drop_left' (by simp [traceDepths])]
  exact hdepths ▸ List.mem_map_of_mem hr

theorem enter?_tracesBelow (gate : ctx.enter? name place = .ok entered) (h : ctx.depth < bound) :
    ctx.TracesBelow bound entered := by
  have htraces := enter?_traces gate
  split at htraces
  · exact ⟨[ctx.depth], by simp [traceDepths, htraces], by simpa using h⟩
  · exact .of_eq htraces

theorem leave_tracesBelow [TokenValue V] (h : ctx.depth - 1 < bound) :
    ctx.TracesBelow bound (ctx.leave name place mark o) := by
  show ctx.TracesBelow bound (ctx.recordOutcome name place mark o)
  unfold recordOutcome
  split
  · simp only
    split
    · next last _ hlast =>
      obtain ⟨earlier, htraces⟩ := Array.back?_eq_some_iff.1 hlast
      exact ⟨[], by simp [traceDepths, htraces], by simp⟩
    · exact .record h
  · exact .of_eq rfl

end Context

-- ---------------------------------------------------------------------------
-- What is left of the height
-- ---------------------------------------------------------------------------

/-- Whether an action of the grammar is at most `room` high, and its code sets no limit on depth
below `bound`. -/
structure Action.Fits (G : Grammar V) (bound room : Nat) (a : Action (Parser V) V α) : Prop where
  only : a.Only (fun _ => True) (· ∈ G)
  changes : a.Changes (Config.KeepsRoom bound)
  height : a.height ≤ room

section
variable {G : Grammar V} {bound room : Nat}

theorem Grammar.parse_fits (hp : p ∈ G) (hheight : p.height ≤ room) (input : List (Token V)) :
    (Action.parse p input).Fits G bound room :=
  ⟨⟨hp, fun _ => trivial⟩, fun _ => trivial, by simpa using hheight⟩

namespace Action.Fits

theorem of_call (hclients : ∀ p ∈ G, p.Clients (·.Changes (Config.KeepsRoom bound)))
    (h : (Action.call p input next : Action (Parser V) V α).Fits G bound room) :
    (p.body G.rules input).Fits G bound room ∧ ∀ o, (next o).Fits G bound room := by
  obtain ⟨hp, hnext⟩ : p.height ≤ room ∧ ∀ o, (next o).height ≤ room := by
    simpa [Action.height] using h.height
  exact ⟨⟨Grammar.calls_only h.only.1 input, Parser.body_changes (hclients p h.only.1) input,
      (Parser.body_height_le ..).trans hp⟩,
    fun o => ⟨h.only.2 o, h.changes o, hnext o⟩⟩

theorem of_guarded (h : (Action.guarded name input region next : Action (Parser V) V α).Fits G
    bound room) :
    ∃ less, room = less + 1 ∧ region.Fits G bound less ∧ ∀ o, (next o).Fits G bound room := by
  obtain ⟨hregion, hnext⟩ : region.height + 1 ≤ room ∧ ∀ o, (next o).height ≤ room := by
    simpa [Action.height] using h.height
  cases room with
  | zero => simp at hregion
  | succ less =>
    rw [Nat.cast_add_one, ENat.add_le_add_iff_right ENat.one_ne_top] at hregion
    exact ⟨less, rfl, ⟨h.only.1, h.changes.1, hregion⟩,
      fun o => ⟨h.only.2 o, h.changes.2 o, hnext o⟩⟩

theorem of_client {code : Action (Parser V) V (Except Failure γ)}
    (h : (Action.client code next : Action (Parser V) V α).Fits G bound room) :
    code.Fits G bound room ∧ ∀ r, (next r).Fits G bound room := by
  obtain ⟨hcode, hnext⟩ : code.height ≤ room ∧ ∀ r, (next r).height ≤ room := by
    simpa [Action.height] using h.height
  exact ⟨⟨h.only.1, h.changes.1, hcode⟩, fun r => ⟨h.only.2 r, h.changes.2 r, hnext r⟩⟩

theorem of_askMode (h : (Action.askMode next : Action (Parser V) V α).Fits G bound room)
    (mode : ChoiceMode) : (next mode).Fits G bound room := by
  have hnext : ∀ mode, (next mode).height ≤ room := by simpa [Action.height] using h.height
  exact ⟨h.only.2 mode, h.changes mode, hnext mode⟩

end Action.Fits

-- ---------------------------------------------------------------------------
-- Runs for which there is room
-- ---------------------------------------------------------------------------

structure Context.HasRoom (bound room : Nat) (ctx : Context V) : Prop where
  allows : ctx.config.Allows bound
  levels : ctx.depth + room ≤ bound

namespace Context.HasRoom

variable {ctx entered : Context V} (h : ctx.HasRoom bound (room + 1))
include h

theorem not_refused : ctx.enter? name place ≠ .error refusal := by
  intro gate
  apply not_atLimit_iff.2 ?_ (enter?_error gate).1
  exact h.allows.imp_right fun hbound => by have := h.levels; omega

theorem depth_lt : ctx.depth < bound := by
  have := h.levels
  omega

theorem enter (gate : ctx.enter? name place = .ok entered) : entered.HasRoom bound room where
  allows := by
    rw [enter?_config gate]
    exact h.allows
  levels := by
    rw [enter?_depth gate, Nat.add_assoc, Nat.add_comm 1]
    exact h.levels

end Context.HasRoom

variable [TokenValue V]

theorem Context.HasRoom.afterCheck {ctx : Context V} (h : ctx.HasRoom bound room) :
    (ctx.afterCheck location converted o).HasRoom bound room where
  allows := by
    rw [Context.afterCheck_config]
    exact h.allows
  levels := by
    rw [Context.afterCheck_depth]
    exact h.levels

variable (hclients : ∀ p ∈ G, p.Clients (·.Changes (Config.KeepsRoom bound)))
include hclients

theorem Runs.hasRoom (h : Runs G.rules a ctx x ctx' es) (ha : a.Fits G bound level)
    (hctx : ctx.HasRoom bound room) : ctx'.HasRoom bound room where
  allows := h.options hclients ha.only ha.changes hctx.allows
  levels := by
    rw [h.depth]
    exact hctx.levels

theorem Runs.leave_hasRoom {ctx : Context V}
    (hinside : Runs G.rules region entered o ended es) (hregion : region.Fits G bound level)
    (hctx : ctx.HasRoom bound (room + 1))
    (gate : ctx.enter? name place = .ok entered) :
    (ended.leave name place mark o).HasRoom bound (room + 1) where
  allows := by
    rw [Context.leave_config]
    exact (hinside.hasRoom hclients hregion (hctx.enter gate)).allows
  levels := by
    rw [Context.leave_depth, hinside.depth, Context.enter?_depth gate, Nat.add_sub_cancel]
    exact hctx.levels

/-- A run for which there is room under the bound is refused nowhere, and neither runs nor is
recorded beyond the bound. -/
theorem Runs.staysBelow (h : Runs G.rules a ctx x ctx' es) (ha : a.Fits G bound room)
    (hctx : ctx.HasRoom bound room) :
    (∀ e ∈ es, e.Below bound) ∧ ctx.TracesBelow bound ctx' := by
  induction h generalizing room with
  | done => exact ⟨by simp, .of_eq rfl⟩
  | call parse _ ihParse ih =>
    obtain ⟨hbody, hnext⟩ := ha.of_call hclients
    obtain ⟨hinner, htraces⟩ := ihParse hbody hctx
    obtain ⟨hrest, htraces'⟩ := ih (hnext _) (parse.hasRoom hclients hbody hctx)
    exact ⟨List.forall_mem_append.2 ⟨Event.below_span hinner, hrest⟩, htraces.trans htraces'⟩
  | refused gate _ _ =>
    obtain ⟨less, rfl, -, -⟩ := ha.of_guarded
    exact absurd gate hctx.not_refused
  | guarded gate inside _ ihInside ih =>
    obtain ⟨less, rfl, hregion, hnext⟩ := ha.of_guarded
    have hentered := hctx.enter gate
    have hdepth := inside.depth.trans (Context.enter?_depth gate)
    obtain ⟨hinner, htraces⟩ := ihInside hregion hentered
    obtain ⟨hrest, htraces'⟩ := ih (hnext _) (inside.leave_hasRoom hclients hregion hctx gate)
    refine ⟨List.forall_mem_cons.2 ⟨Nat.le_of_add_right_le hentered.levels,
      List.forall_mem_append.2 ⟨hinner, hrest⟩⟩, ?_⟩
    refine .trans (.trans (.trans (Context.enter?_tracesBelow gate hctx.depth_lt) htraces) ?_)
      htraces'
    exact Context.leave_tracesBelow (by rw [hdepth, Nat.add_sub_cancel]; exact hctx.depth_lt)
  | client inside _ ihInside ih =>
    obtain ⟨hcode, hnext⟩ := ha.of_client
    obtain ⟨hinner, htraces⟩ := ihInside hcode hctx
    obtain ⟨hrest, htraces'⟩ := ih (hnext _) (inside.hasRoom hclients hcode hctx)
    exact ⟨List.forall_mem_cons.2 ⟨trivial, List.forall_mem_append.2
      ⟨List.forall_mem_map.2 hinner, List.forall_mem_cons.2 ⟨trivial, hrest⟩⟩⟩,
      htraces.trans htraces'⟩
  | askMode _ ih => exact ih (ha.of_askMode _) hctx
  | logFailure _ ih | report _ ih =>
    obtain ⟨hrest, htraces⟩ :=
      ih ⟨ha.only.2, ha.changes, ha.height⟩ ⟨hctx.allows, hctx.levels⟩
    exact ⟨List.forall_mem_cons.2 ⟨trivial, hrest⟩, htraces⟩
  | clearPartials _ ih | keepPartials _ ih =>
    exact ih ⟨ha.only.2, ha.changes, ha.height⟩ ⟨hctx.allows, hctx.levels⟩
  | unchecked _ _ ih => exact ih ⟨ha.only.2.2, ha.changes, ha.height⟩ hctx
  | checked _ _ _ _ ih =>
    obtain ⟨hrest, htraces⟩ := ih ⟨ha.only.2.2, ha.changes, ha.height⟩ hctx.afterCheck
    refine ⟨List.forall_mem_append.2 ⟨List.forall_mem_append.2
      ⟨Event.below_scratch _, Event.below_ofCheck⟩, hrest⟩, ?_⟩
    exact (Context.TracesBelow.of_eq (Context.afterCheck_traces _)).trans htraces
  | configure _ ih =>
    exact ih ⟨ha.only.2, ha.changes.2, ha.height⟩ ⟨ha.changes.1 _ hctx.allows, hctx.levels⟩

theorem Begins.staysBelow (h : Begins G.rules a ctx es) (ha : a.Fits G bound room)
    (hctx : ctx.HasRoom bound room) : ∀ e ∈ es, e.Below bound := by
  induction h generalizing room with
  | stopped => simp
  | calling _ ih => exact List.forall_mem_cons.2 ⟨trivial, ih (ha.of_call hclients).1 hctx⟩
  | called parse _ ih =>
    obtain ⟨hbody, hnext⟩ := ha.of_call hclients
    obtain ⟨hinner, -⟩ := parse.staysBelow hclients hbody hctx
    exact List.forall_mem_append.2
      ⟨Event.below_span hinner, ih (hnext _) (parse.hasRoom hclients hbody hctx)⟩
  | refused gate _ _ =>
    obtain ⟨less, rfl, -, -⟩ := ha.of_guarded
    exact absurd gate hctx.not_refused
  | entering gate _ ih =>
    obtain ⟨less, rfl, hregion, -⟩ := ha.of_guarded
    have hentered := hctx.enter gate
    exact List.forall_mem_cons.2
      ⟨Nat.le_of_add_right_le hentered.levels, ih hregion hentered⟩
  | guarded gate inside _ ih =>
    obtain ⟨less, rfl, hregion, hnext⟩ := ha.of_guarded
    have hentered := hctx.enter gate
    obtain ⟨hinner, -⟩ := inside.staysBelow hclients hregion hentered
    exact List.forall_mem_cons.2 ⟨Nat.le_of_add_right_le hentered.levels,
      List.forall_mem_append.2 ⟨hinner,
        ih (hnext _) (inside.leave_hasRoom hclients hregion hctx gate)⟩⟩
  | invoking _ ih =>
    exact List.forall_mem_cons.2 ⟨trivial, List.forall_mem_map.2 (ih ha.of_client.1 hctx)⟩
  | client inside _ ih =>
    obtain ⟨hcode, hnext⟩ := ha.of_client
    obtain ⟨hinner, -⟩ := inside.staysBelow hclients hcode hctx
    exact List.forall_mem_cons.2 ⟨trivial, List.forall_mem_append.2
      ⟨List.forall_mem_map.2 hinner, List.forall_mem_cons.2 ⟨trivial,
        ih (hnext _) (inside.hasRoom hclients hcode hctx)⟩⟩⟩
  | askMode _ ih => exact ih (ha.of_askMode _) hctx
  | logFailure _ ih | report _ ih =>
    exact List.forall_mem_cons.2
      ⟨trivial, ih ⟨ha.only.2, ha.changes, ha.height⟩ ⟨hctx.allows, hctx.levels⟩⟩
  | clearPartials _ ih | keepPartials _ ih =>
    exact ih ⟨ha.only.2, ha.changes, ha.height⟩ ⟨hctx.allows, hctx.levels⟩
  | unchecked _ _ ih => exact ih ⟨ha.only.2.2, ha.changes, ha.height⟩ hctx
  | checking _ _ _ => exact Event.below_scratch _
  | checked _ _ _ ih =>
    exact List.forall_mem_append.2 ⟨List.forall_mem_append.2
      ⟨Event.below_scratch _, Event.below_ofCheck⟩,
        ih ⟨ha.only.2.2, ha.changes, ha.height⟩ hctx.afterCheck⟩
  | configure _ ih =>
    exact ih ⟨ha.only.2, ha.changes.2, ha.height⟩ ⟨ha.changes.1 _ hctx.allows, hctx.levels⟩

end

/-- Where a context allows for as many more levels as a parser is high, and no code of the
grammar's author sets a limit that does not, the guard refuses nothing throughout the parse,
whether it ends or not, and lets nothing in at a greater depth. What the parse records is recorded
above that depth. -/
theorem Grammar.parse_staysBelow [TokenValue V] {G : Grammar V} {h : Nat} {ctx : Context V}
    (hclients : ∀ p ∈ G, p.Clients (·.Changes (Config.KeepsRoom (ctx.depth + h))))
    (hp : p ∈ G) (hheight : p.height ≤ h) (hlimit : ctx.config.Allows (ctx.depth + h))
    (input : List (Token V)) :
    (∀ es, Begins G.rules (Action.parse p input) ctx es → ∀ e ∈ es, e.Below (ctx.depth + h)) ∧
    ∀ n o ctx', Parser.run G.rules n p input ctx = some (o, ctx') →
      ∀ r ∈ ctx'.traces.toList.drop ctx.traces.size, r.depth < ctx.depth + h := by
  have hfits : (Action.parse p input).Fits G (ctx.depth + h) h :=
    Grammar.parse_fits hp hheight input
  have hroom : ctx.HasRoom (ctx.depth + h) h := ⟨hlimit, Nat.le_refl _⟩
  constructor
  · intro es hbegins
    exact hbegins.staysBelow hclients hfits hroom
  · intro n o ctx' hrun
    obtain ⟨es, hparses⟩ := parses_iff_run.2 ⟨n, hrun⟩
    obtain ⟨-, htraces⟩ :=
      (parses_iff.2 hparses).staysBelow hclients hfits hroom
    exact htraces.drop

def recoverOne : Parser Int64 := .recover (.empty none) (.seq "one" [Leaf.any]) Leaf.any

def recoveringOne : Grammar Int64 :=
  .ofList (fun _ => none) [recoverOne, .empty none, .seq "one" [Leaf.any], Leaf.any]
    (by simp [Parser.parts, recoverOne, Leaf.any, Leaf.tracedPlain])
    (by simp [Parser.Clients, recoverOne, Leaf.any, Leaf.tracedPlain, Action.traced, Action.Only])

theorem recoverOne_height : recoverOne.height = 4 := by
  simp [recoverOne, Parser.height, Parser.heights, Leaf.any, Leaf.tracedPlain]
  rfl

/-- A limit of four is enough, and the fourth level is recorded. -/
theorem recoverOne_staysBelow : ∃ n o ctx,
    Parser.run recoveringOne.rules n recoverOne (Token.ofTexts ["a"])
      (.ofConfig ⟨4, true, .safe, false⟩) = some (o, ctx) ∧
    (∃ r ∈ ctx.traces.toList, r.depth = 3) ∧ ∀ r ∈ ctx.traces.toList, r.depth < 4 := by
  have hclients : ∀ bound, ∀ p ∈ recoveringOne,
      p.Clients (·.Changes (Config.KeepsRoom bound)) := by
    simp [recoveringOne, Parser.Clients, recoverOne, Leaf.any, Leaf.tracedPlain, Action.traced,
      Action.Changes]
  have hp : recoverOne ∈ recoveringOne := List.mem_cons_self
  have hheight : recoverOne.height ≤ (4 : Nat) := by
    rw [recoverOne_height]
    rfl
  have hlimit : (Context.ofConfig (V := Int64) ⟨4, true, .safe, false⟩).config.Allows (0 + 4) :=
    .inr (by decide)
  obtain ⟨-, hrecords⟩ :=
    Grammar.parse_staysBelow (hclients _) hp hheight hlimit (Token.ofTexts ["a"])
  have hdepths : (Parser.run recoveringOne.rules 4 recoverOne (Token.ofTexts ["a"])
      (.ofConfig ⟨4, true, .safe, false⟩)).map (·.2.traceDepths) =
        some [0, 1, 1, 2, 3, 2, 1, 0] := by
    decide +kernel
  obtain ⟨⟨o, ctx⟩, hrun, hdepths⟩ := Option.map_eq_some_iff.1 hdepths
  refine ⟨4, o, ctx, hrun, ?_, hrecords 4 o ctx hrun⟩
  have hdeepest : 3 ∈ ctx.traceDepths := by simp [hdepths]
  exact List.mem_map.1 hdeepest

def reparsedTake : Parser Int64 :=
  .seq "s" [.transform "here" (Leaf.take 1 1) (Conversion.reparsed (.trace "x" (.empty none)))]

def loweredLimit : Parser Int64 :=
  .seq "s" [Leaf.configuring ({ · with maxDepth := 1 }), .trace "x" (.empty none)]

/-- So the height of a conversion is not that of its parser alone: with one level, as the sequence
around the leaf takes, the guard refuses. And author's code may make a limit of two too low for a
parser of that height. -/
theorem guard_refuses_below_height :
    ((Leaf.take 1 1 : Parser Int64).height = 0 ∧
      (Parser.run (fun _ => none) 4 reparsedTake (Token.ofTexts ["a"])
        (.ofConfig ⟨1, false, .safe, false⟩)).map (Event.failure? ·.1) =
          some (some (.stackOverflow 1 1 (some (.atIndex 0))))) ∧
    loweredLimit.height = 2 ∧
      (Parser.run (fun _ => none) 4 loweredLimit (Token.ofTexts ["a"])
        (.ofConfig ⟨2, false, .safe, false⟩)).map (Event.failure? ·.1) =
          some (some (.stackOverflow 1 1 (some (.atIndex 0)))) := by
  refine ⟨⟨?_, ?_⟩, ?_, ?_⟩
  · simp [Leaf.take, Parser.height]
  · decide +kernel
  · simp [loweredLimit, Leaf.configuring, Parser.height, Parser.heights, Action.height]
    rfl
  · decide +kernel

end TokenGrammar
