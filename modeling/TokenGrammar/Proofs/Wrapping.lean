import TokenGrammar.Leaf
import TokenGrammar.Proofs.Ranking
import TokenGrammar.Proofs.Shape

/-!
# Trace wrappers

A wrapper guards and traces a parser under a label, and the body of a named rule bears one.
Where depth has no limit the guard lets everything in, and a wrapper shows in the trace
alone: with wrappers put around any parts of a grammar, or taken off, a parse ends as before
(`Parser.parse_wrapped`).

Wrappers are the steps that one of two grammars takes without the other. On the left each is
one of the nested calls that a run is bounded by, and on the right there are finitely many
in a row (`Parser.follows_of_wrappers`).
-/

namespace TokenGrammar

def Likeness.wrapping : Likeness where
  level := false
  names := (· = ·)
  places := (· = ·)
  options c c' := c = c' ∧ c.maxDepth = 0
  names_refl _ := rfl
  places_refl _ := rfl
  maxDepth h := congrArg Config.maxDepth h.1
  unlimited _ h := h.2
  tracing h := congrArg Config.tracing h.1
  checkTransforms h := congrArg Config.checkTransforms h.1
  checked := by rintro c _ ⟨rfl, hlimit⟩ -; exact ⟨rfl, rfl, hlimit⟩

variable {V : Type} {L : Likeness}

section
variable {ctx ctx' : Context V} (hlevel : L.level = false) (h : ctx.Resembles L ctx')
  (depth : Nat) (traces : Array TraceRecord)
include hlevel h

theorem Context.Resembles.apart_left : { ctx with depth, traces }.Resembles L ctx' :=
  { h with
    depth := by rw [hlevel]; exact nofun
    traces := by rw [hlevel]; exact nofun }

theorem Context.Resembles.apart_right : ctx.Resembles L { ctx' with depth, traces } :=
  (apart_left (L := L.flip) hlevel h.flip depth traces).flip

end

namespace Parser

inductive Wraps (L : Likeness) (R : Parser V → Parser V → Prop) (rules rules' : Rules V) :
    Parser V → Parser V → Prop
  | removed (h : R p p') : Wraps L R rules rules' (.trace label p) p'
  | added (h : R p p') : Wraps L R rules rules' p (.trace label p')
  | neither (h : ∀ input, (p.body rules input).Parallel L R (p'.body rules' input)) :
    Wraps L R rules rules' p p'

variable {R : Parser V → Parser V → Prop} {rules rules' : Rules V}

theorem Wraps.flip {p p' : Parser V} (h : Wraps L R rules rules' p p') :
    Wraps L.flip (fun p' p => R p p') rules' rules p' p := by
  cases h with
  | removed h => exact .added h
  | added h => exact .removed h
  | neither h => exact .neither fun input => (h input).flip

variable [TokenValue V]

theorem run_trace_inv (hrun : run rules (n + 1) (.trace label p) input ctx = some (o, ctx₁))
    (hlimit : ctx.config.maxDepth = 0) :
    ∃ entered inside, ctx.enter? label (firstPos input) = .ok entered ∧
      run rules n p input entered = some (o, inside) ∧
      ctx₁ = inside.leave label (firstPos input) entered.traces.size o := by
  obtain ⟨entered, gate⟩ := Context.exists_enter? (fun hat => Nat.ne_of_gt hat.1 hlimit) label
    (firstPos input)
  simp only [run_succ, body, Action.traced, Action.parse, Action.exec, gate] at hrun
  split at hrun
  · contradiction
  · next hregion =>
    split at hregion
    · contradiction
    · next hcall =>
      cases hregion
      cases hrun
      exact ⟨entered, _, gate, hcall, rfl⟩

/-- Where the parsers of two grammars that correspond take the same steps but for wrappers,
and depth has no limit, parses by them follow each other. -/
theorem follows_of_wrappers (hlevel : L.level = false)
    (hsteps : ∀ p p', R p p' → Wraps L R rules rules' p p') {p p' : Parser V} (hp : R p p')
    {ctx ctx' : Context V} (hctx : ctx.Resembles L ctx') (input : List (Token V)) :
    Follows (Context.Resembles L) rules p ctx rules' p' ctx' input := by
  refine follows_of_step ?_ hp hctx input
  intro n ih p p'
  -- The wrappers of the right parser run within one call of the left one.
  induction p' using parts_induction generalizing p with
  | step p' ihParts =>
    intro input ctx ctx' o ctx₁ hp hctx hrun
    have hlimit := L.unlimited hlevel hctx.config
    have hlimit' := (L.maxDepth hctx.config).symm.trans hlimit
    cases hsteps p p' hp with
    | removed h =>
      obtain ⟨entered, inside, gate, hinside, rfl⟩ := run_trace_inv hrun hlimit
      obtain ⟨-, traces, rfl⟩ := Context.enter?_ok gate
      obtain ⟨ctx₁', es, hruns', hctx₁⟩ := ih h (hctx.apart_left hlevel _ _) hinside
      obtain ⟨left, hleave⟩ := Context.leave_eq inside _ (firstPos input) traces.size o
      exact ⟨ctx₁', es, hruns', hleave ▸ hctx₁.apart_left hlevel _ _⟩
    | @added _ q' label h =>
      obtain ⟨entered', gate'⟩ := Context.exists_enter?
        (fun hat => Nat.ne_of_gt hat.1 hlimit') label (firstPos input)
      obtain ⟨-, traces, rfl⟩ := Context.enter?_ok gate'
      obtain ⟨inside, es, hruns', hinside⟩ :=
        ihParts q' (List.mem_singleton.2 rfl) h (hctx.apart_right hlevel _ _) hrun
      obtain ⟨left, hleave⟩ := Context.leave_eq inside label (firstPos input) traces.size o
      exact ⟨_, _, .guarded gate' (.call hruns' .done) .done,
        hleave ▸ hinside.apart_right hlevel _ _⟩
    | neither h => exact (h input).runs ih hctx hrun

/-- Whether the right parser is the left one with wrappers put around some of its parts and
taken off others. Code of their author may set no limit on depth. -/
inductive Wrapped : Parser V → Parser V → Prop
  | added (h : Wrapped p p') : Wrapped p (.trace label p')
  | removed (h : Wrapped p p') : Wrapped (.trace label p) p'
  | other (h : SameShape .wrapping Wrapped p p') : Wrapped p p'

omit [TokenValue V] in
theorem Wrapped.wraps (hrules : ∀ rule, Option.Rel Wrapped (rules rule) (rules' rule))
    {p p' : Parser V} (h : Wrapped p p') : Wraps .wrapping Wrapped rules rules' p p' := by
  cases h with
  | added h => exact .added h
  | removed h => exact .removed h
  | other h =>
    exact .neither fun input =>
      h.body hrules (fun _ c c' hc => congrArg Config.choiceMode hc.1) input

/-- With wrappers put around any parts of the rules and of the parser, or taken off, a parse
without a limit on depth ends as before: with one outcome, in the same context but for the
trace. -/
theorem parse_wrapped (hrules : ∀ rule, Option.Rel Wrapped (rules rule) (rules' rule))
    {p p' : Parser V} (hp : Wrapped p p') {ctx : Context V} (hlimit : ctx.config.maxDepth = 0)
    (input : List (Token V)) :
    EndsAlike (fun c c' => c' = { c with traces := c'.traces }) rules p ctx rules' p' ctx
      input := by
  have hctx : ctx.Resembles .wrapping ctx := .of_options ⟨rfl, hlimit⟩
  have hends : EndsAlike (Context.Resembles .wrapping) rules p ctx rules' p' ctx input :=
    .of_follows (follows_of_wrappers rfl (fun _ _ => Wrapped.wraps hrules) hp hctx input)
      (follows_of_wrappers rfl (fun _ _ h => (Wrapped.wraps hrules h).flip) hp hctx.flip input)
  refine ⟨hends.1, fun m n o o' c c' hrun hrun' => ?_⟩
  obtain ⟨houtcome, hc⟩ := hends.2 m n o o' c c' hrun hrun'
  obtain ⟨_, hruns⟩ := runs_of_run hrun
  obtain ⟨_, hruns'⟩ := runs_of_run hrun'
  exact ⟨houtcome,
    hc.eq_withTraces rfl hc.config.1.symm (hruns'.depth.trans hruns.depth.symm)⟩

end Parser

def bundle (wrap : String → Parser Int64 → Parser Int64) : Parser Int64 :=
  wrap "bundle" <| .oneOf "here" [wrap "one" Leaf.any,
    .seq "brackets" [Leaf.punctuation "(", wrap "inside" (.ref "bundle" 0), Leaf.punctuation ")"]]

/-- Wrappers in the rule, and in the alternative that loses, add their records and nothing
else. -/
theorem bundle_parse_wrapped : ∃ n o ctx ctx',
    Parser.run (fun _ => some (bundle fun _ p => p)) n (.ref "bundle" 0)
      (Token.ofTexts ["(", "a", ")"]) (.ofConfig ⟨0, true, .safe, true⟩) = some (o, ctx) ∧
    Parser.run (fun _ => some (bundle .trace)) n (.ref "bundle" 0)
      (Token.ofTexts ["(", "a", ")"]) (.ofConfig ⟨0, true, .safe, true⟩) = some (o, ctx') ∧
    o.toOption.map (·.consumed) = some 3 ∧ ctx.traces.size < ctx'.traces.size ∧
    ctx' = { ctx with traces := ctx'.traces } := by
  have hleaf : ∀ text, Parser.Wrapped (Leaf.punctuation text : Parser Int64)
      (Leaf.punctuation text) := fun text => .other (.leaf fun _ => .done)
  have hany : Parser.Wrapped (Leaf.any : Parser Int64) Leaf.any :=
    .other (.leaf fun _ => Parser.traced_parallel rfl .done)
  have hbody : Parser.Wrapped (bundle fun _ p => p) (bundle .trace) :=
    .added <| .other <| .choice rfl <| .cons (.added hany) <| .cons
      (.other (.seq (.cons (hleaf "(") (.cons (.added (.other .ref)) (.cons (hleaf ")") .nil)))))
      .nil
  have hends := Parser.parse_wrapped (fun _ => .some hbody)
    (.other .ref : Parser.Wrapped (.ref "bundle" 0) (.ref "bundle" 0))
    (rfl : (Context.ofConfig ⟨0, true, .safe, true⟩).config.maxDepth = 0)
    (Token.ofTexts ["(", "a", ")"])
  have hsize : ∀ wrap size, (Parser.run (fun _ => some (bundle wrap)) 12 (.ref "bundle" 0)
      (Token.ofTexts ["(", "a", ")"]) (.ofConfig ⟨0, true, .safe, true⟩)).map (fun (o, ctx) =>
        (o.toOption.map (·.consumed), ctx.traces.size)) = some (some 3, size) →
      ∃ o ctx, Parser.run (fun _ => some (bundle wrap)) 12 (.ref "bundle" 0)
          (Token.ofTexts ["(", "a", ")"]) (.ofConfig ⟨0, true, .safe, true⟩) = some (o, ctx) ∧
        o.toOption.map (·.consumed) = some 3 ∧ ctx.traces.size = size := by
    intro wrap size h
    obtain ⟨⟨o, ctx⟩, hrun, heq⟩ := Option.map_eq_some_iff.1 h
    obtain ⟨ho, hctx⟩ := Prod.mk.inj heq
    exact ⟨o, ctx, hrun, ho, hctx⟩
  obtain ⟨o, ctx, hrun, ho, hctx⟩ := hsize (fun _ p => p) 13 (by decide +kernel)
  obtain ⟨o', ctx', hrun', -, hctx'⟩ := hsize .trace 23 (by decide +kernel)
  obtain ⟨rfl, hsame⟩ := hends.2 _ _ _ _ _ _ hrun hrun'
  exact ⟨12, o, ctx, ctx', hrun, hrun', ho, by omega, hsame⟩

def limited (wrap : Parser Int64 → Parser Int64) : Parser Int64 :=
  .seq "limited" [Leaf.configuring ({ · with maxDepth := 1 }), wrap (Leaf.take 1 1)]

/-- Where code of a grammar's author sets a limit on depth, the guard may refuse a wrapper
where it refuses nothing in the bare grammar. -/
theorem limited_not_wrapped :
    (Parser.run (fun _ => none) 4 (limited fun p => p) (Token.ofTexts ["a"])
      (.ofConfig ⟨0, false, .safe, false⟩)).map (·.1.toOption.map (·.consumed)) = some (some 1) ∧
    (Parser.run (fun _ => none) 4 (limited (.trace "one")) (Token.ofTexts ["a"])
      (.ofConfig ⟨0, false, .safe, false⟩)).map (Event.failure? ·.1) =
        some (some (.stackOverflow 1 1 (some (.atIndex 0)))) := by
  constructor <;> decide +kernel

end TokenGrammar
