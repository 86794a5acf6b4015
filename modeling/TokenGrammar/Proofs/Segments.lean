import TokenGrammar.Evaluation
import TokenGrammar.Proofs.Recurrence

/-!
# Segments of a stream, and searches that end

`Splitter.Yields` relates a stream in the course of being cut to the segments that it
gives one after another, up to the end. Each segment takes a token of the stream or is
the last one, so under a limit on depth there is an end (`Splitter.exists_yields`), and
the segments up to it are those that are collected (`Splitter.Yields.collect`).
-/

namespace TokenGrammar

variable {V : Type}

namespace Search

variable {E : Effect → Prop} {C : Parser V → Prop}

theorem findFrom_only {parser : Parser V} (hparser : C parser) (progress : Bool)
    (input suffix : List (Token V)) (i : Nat) :
    (findFrom parser progress input suffix i).Only E C := by
  induction suffix generalizing i with
  | nil => trivial
  | cons token rest ih =>
    refine ⟨hparser, fun o => ?_⟩
    cases o with
    | error failure => exact ih _
    | ok m =>
      simp only
      split
      · exact ih _
      · trivial

theorem finding_only {item : Parser V} (hitem : C item) :
    (Leaf.finding item).Clients (·.Only E C) := by
  refine fun input => (findFrom_only hitem false input input 0).bind fun found => ?_
  cases found <;> trivial

theorem remained_lt [TokenValue V] {rules : Rules V} {parser : Parser V}
    {input suffix : List (Token V)}
    (h : Runs rules (findFrom parser true input suffix i) ctx (some found) ctx' es)
    (hi : i + suffix.length = input.length) : found.remained.length < input.length := by
  induction suffix generalizing i ctx es with
  | nil => cases h
  | cons token rest ih =>
    obtain ⟨o, _, _, _, -, hrest, -⟩ := h.of_call
    rw [List.length_cons] at hi
    cases o with
    | error failure => exact ih hrest (by omega)
    | ok m =>
      simp only at hrest
      split at hrest
      · exact ih hrest (by omega)
      · next hprogress =>
        obtain ⟨hfound, -, -⟩ := runs_done.1 hrest
        obtain rfl := Option.some.inj hfound
        simp only [Bool.true_and, beq_iff_eq] at hprogress
        simp only [List.length_drop]
        omega

end Search

namespace Splitter

theorem next_only {E : Effect → Prop} {C : Parser V → Prop} (hseparator : C separator)
    (s : Splitter V) :
    (s.next separator).Only E C := by
  unfold next
  split
  · trivial
  · split
    · trivial
    · exact (Search.findFrom_only hseparator ..).bind fun _ => trivial

theorem finished_of_going {s : Splitter V} (h : s.exhausted = false) : s.finished = false := by
  rw [exhausted, Bool.or_eq_false_iff] at h
  exact h.1

theorem cut_going {s : Splitter V} (h : s.exhausted = false) (found : Found V) :
    (s.cut found).2.exhausted = false := by
  simp [cut, exhausted, finished_of_going h]

variable [TokenValue V] {rules : Rules V} {separator : Parser V}

theorem next_cases {s s' : Splitter V} (h : Runs rules (s.next separator) ctx (x, s') ctx' es) :
    (x = none ∧ s.exhausted = true ∧ ctx' = ctx) ∨
    (s.exhausted = false ∧ (x, s') = (some s.remainder.1, s.remainder.2)) ∨
    ∃ found es', s.exhausted = false ∧
      Runs rules (Search.findFrom separator true s.rest s.rest 0) ctx (some found) ctx' es' ∧
      (x, s') = (some (s.cut found).1, (s.cut found).2) := by
  unfold next at h
  split at h
  · next hend =>
    obtain ⟨heq, rfl, -⟩ := runs_done.1 h
    exact .inl ⟨(Prod.mk.inj heq).1, hend, rfl⟩
  · next hend =>
    have hgoing : s.exhausted = false := Bool.eq_false_iff.2 hend
    split at h
    · obtain ⟨heq, -, -⟩ := runs_done.1 h
      exact .inr (.inl ⟨hgoing, heq⟩)
    · obtain ⟨found, ctx₁, es₁, es₂, hfind, hrest, -⟩ := Runs.of_bind h
      cases found with
      | none =>
        obtain ⟨heq, -, -⟩ := runs_done.1 hrest
        exact .inr (.inl ⟨hgoing, heq⟩)
      | some found =>
        obtain ⟨heq, rfl, -⟩ := runs_done.1 hrest
        exact .inr (.inr ⟨found, es₁, hgoing, hfind, heq⟩)

def left (s : Splitter V) : Nat := if s.finished then 0 else s.rest.length + 1

theorem left_lt {s s' : Splitter V} {segment : Segment V}
    (h : Runs rules (s.next separator) ctx (some segment, s') ctx' es) : s'.left < s.left := by
  rcases next_cases h with ⟨hnone, -⟩ | ⟨hexhausted, heq⟩ | ⟨found, _, hexhausted, hfind, heq⟩
  · contradiction
  · obtain ⟨-, rfl⟩ := Prod.mk.inj heq
    simp [left, remainder, finished_of_going hexhausted]
  · obtain ⟨-, rfl⟩ := Prod.mk.inj heq
    have hlt := Search.remained_lt hfind (Nat.zero_add _)
    simp [left, cut, finished_of_going hexhausted, hlt]

/-- Whether `segments` are what repeated calls of `next` give, up to the end. -/
inductive Yields (rules : Rules V) (separator : Parser V) :
    Splitter V → Context V → List (Segment V) → Context V → Prop
  | finish (next : Runs rules (s.next separator) ctx (none, s') ctx' es) :
      Yields rules separator s ctx [] ctx'
  | more {segment : Segment V} (next : Runs rules (s.next separator) ctx (some segment, s') ctx₁ es)
      (rest : Yields rules separator s' ctx₁ segments ctx') :
      Yields rules separator s ctx (segment :: segments) ctx'

theorem Yields.length_le {s : Splitter V} (h : s.Yields rules separator ctx segments ctx') :
    segments.length ≤ s.left := by
  induction h with
  | finish _ => exact Nat.zero_le _
  | more next _ ih => exact Nat.lt_of_le_of_lt ih (left_lt next)

theorem Yields.collectUpTo {s : Splitter V} (h : s.Yields rules separator ctx segments ctx')
    (hbudget : segments.length ≤ budget) :
    ∃ es, Runs rules (s.collectUpTo separator budget) ctx segments ctx' es := by
  induction h generalizing budget with
  | finish next =>
    cases budget with
    | zero =>
      rcases next_cases next with ⟨-, -, rfl⟩ | ⟨-, heq⟩ | ⟨_, _, -, -, heq⟩
      · exact ⟨_, .done⟩
      · cases heq
      · cases heq
    | succ budget => exact ⟨_, next.bind .done⟩
  | more next _ ih =>
    cases budget with
    | zero => contradiction
    | succ budget =>
      obtain ⟨es, hrest⟩ := ih (Nat.le_of_succ_le_succ hbudget)
      exact ⟨_, next.bind (hrest.bind .done)⟩

theorem Yields.collect {s : Splitter V} (h : s.Yields rules separator ctx segments ctx') :
    ∃ es, Runs rules (s.collect separator) ctx segments ctx' es := by
  have hleft : s.left ≤ s.rest.length + 1 := by
    unfold left
    split
    · exact Nat.zero_le _
    · exact Nat.le_refl _
  exact h.collectUpTo (Nat.le_trans h.length_le hleft)

end Splitter

-- ---------------------------------------------------------------------------
-- Under a limit on depth
-- ---------------------------------------------------------------------------

variable [TokenValue V]

section
variable {G : Grammar V} {bound : Nat} {p : Parser V}
  (hclients : ∀ p ∈ G, p.Clients (·.Changes (Config.KeepsLimit bound))) (hp : p ∈ G)
include hclients hp

/-- An iteration comes to its end, as there are fewer and fewer segments left. -/
theorem Splitter.exists_yields (s : Splitter V) {ctx : Context V}
    (hlimit : ctx.config.Limited bound true) :
    ∃ segments ctx', s.Yields G.rules p ctx segments ctx' := by
  induction hleft : s.left using Nat.strongRecOn generalizing s ctx with
  | ind left ih =>
    have honly : (s.next p).Only (fun _ => False) (· ∈ G) := next_only hp s
    have hcalls : (s.next p).Only (fun _ => True) (· ∈ G) :=
      honly.mono (fun _ _ => trivial) fun _ hq => hq
    have hchanges : (s.next p).Changes (Config.KeepsLimit bound) := honly.changes id
    obtain ⟨⟨segment, s'⟩, ctx₁, es, hnext⟩ := Grammar.action_ends hclients hcalls hchanges hlimit
    cases segment with
    | none => exact ⟨[], ctx₁, .finish hnext⟩
    | some segment =>
      have hlimit₁ := hnext.limited hclients hcalls hchanges hlimit
      obtain ⟨segments, ctx', hrest⟩ := ih s'.left (hleft ▸ left_lt hnext) s' hlimit₁ rfl
      exact ⟨segment :: segments, ctx', .more hnext hrest⟩

end

/-- Under a limit on depth everything ends, whatever the rules are: a parse, an
evaluation, a search, and an iteration over the segments of a stream, which are those
that `split` and `splitUpTo` collect. Code of the grammar's author must leave a limit, up
to some bound, and switch no checks of conversions on. -/
theorem Grammar.returns_of_limit {G : Grammar V}
    (hclients : ∀ p ∈ G, p.Clients (·.Changes (Config.KeepsLimit bound))) (hp : p ∈ G)
    (hlimit : 0 < ctx.config.maxDepth) (hbound : ctx.config.maxDepth ≤ bound)
    (input : List (Token V)) :
    (∃ n, (Parser.run G.rules n p input ctx).isSome) ∧
    (∃ n, (Parser.evaluate G.rules n p input ctx).isSome) ∧
    (∃ n, ((Search.find p input).exec (Parser.run G.rules n) ctx).isSome) ∧
    (∃ n segments ctx',
      (Search.split p input).exec (Parser.run G.rules n) ctx = some (segments, ctx') ∧
      (Splitter.ofTokens input).Yields G.rules p ctx segments ctx') ∧
    ∀ most, ∃ n segments ctx',
      (Search.splitUpTo most p input).exec (Parser.run G.rules n) ctx = some (segments, ctx') ∧
      ((Splitter.ofTokens input).limited most).Yields G.rules p ctx segments ctx' := by
  have hlimited : ctx.config.Limited bound true := ⟨hlimit, hbound, fun _ => rfl⟩
  have hparse : ∀ ctx : Context V, ctx.config.Limited bound true →
      ∃ n, (Parser.run G.rules n p input ctx).isSome := by
    intro ctx hlimited
    obtain ⟨o, ctx', es, h⟩ := Grammar.action_ends (a := Action.parse p input) hclients
      ⟨hp, fun _ => trivial⟩ (fun _ => trivial) hlimited
    obtain ⟨n, hn⟩ := parses_iff_run.1 ⟨es, parses_iff.1 h⟩
    exact ⟨n, by rw [hn]; rfl⟩
  have hsegments : ∀ s : Splitter V, ∃ n segments ctx',
      (s.collect p).exec (Parser.run G.rules n) ctx = some (segments, ctx') ∧
      s.Yields G.rules p ctx segments ctx' := by
    intro s
    obtain ⟨segments, ctx', hyields⟩ := Splitter.exists_yields hclients hp s hlimited
    obtain ⟨es, hcollect⟩ := hyields.collect
    obtain ⟨n, hn⟩ := hcollect.exec
    exact ⟨n, segments, ctx', hn, hyields⟩
  refine ⟨hparse ctx hlimited, ?_, ?_, hsegments _, fun most => hsegments _⟩
  · obtain ⟨n, hn⟩ := hparse ctx.reset hlimited
    obtain ⟨⟨o, ctx'⟩, hrun⟩ := Option.isSome_iff_exists.1 hn
    exact ⟨n, by simp [Parser.evaluate, hrun]⟩
  · have honly : (Search.find p input).Only (fun _ => False) (· ∈ G) :=
      Search.findFrom_only hp false input input 0
    obtain ⟨found, ctx', es, h⟩ := Grammar.action_ends hclients
      (honly.mono (fun _ _ => trivial) fun _ hq => hq) (honly.changes id) hlimited
    obtain ⟨n, hn⟩ := h.exec
    exact ⟨n, by rw [hn]; rfl⟩

def halving : Parser Int64 := Leaf.configuring fun config => { config with maxDepth := 2 }

def climb : Parser Int64 :=
  .transform "here" (.seq "sum" [halving, .ref "sum" 0]) fun tokens => .done (.ok tokens)

def climbing : Grammar Int64 :=
  .ofList (fun rule => if rule = 0 then some climb else none)
    [.oneOf "here" [.deferred 1, .ref "sum" 0], .deferred 1, .ref "sum" 0, climb,
      .seq "sum" [halving, .ref "sum" 0], halving]
    (by simp [Parser.parts, Parser.oneOf, climb, halving, Leaf.configuring])
    (by simp [Parser.Clients, Parser.oneOf, climb, halving, Leaf.configuring, Action.succeed,
      Action.Only])

/-- With conversions checked, to cut a stream at what the rule matches comes to an end. -/
theorem climbing_returns : ∃ p ∈ climbing, ∃ n segments ctx,
    (Search.split p (Token.ofTexts ["a", "b"])).exec (Parser.run climbing.rules n)
      (.ofConfig ⟨4, false, .safe, true⟩) = some (segments, ctx) ∧
    (Splitter.ofTokens (Token.ofTexts ["a", "b"])).Yields climbing.rules p
      (.ofConfig ⟨4, false, .safe, true⟩) segments ctx := by
  have hhalving : Config.KeepsLimit 4 fun config => { config with maxDepth := 2 } :=
    fun _ _ h => ⟨by simp, by simp, h.checks⟩
  have hclients : ∀ p ∈ climbing, p.Clients (·.Changes (Config.KeepsLimit 4)) := by
    simp [climbing, Parser.Clients, Parser.oneOf, climb, halving, Leaf.configuring,
      Action.succeed, Action.Changes, hhalving]
  have hp : .oneOf "here" [.deferred 1, .ref "sum" 0] ∈ climbing := List.mem_cons_self
  have hlimit : 0 < (Context.ofConfig (V := Int64) ⟨4, false, .safe, true⟩).config.maxDepth := by
    decide
  obtain ⟨-, -, -, hsplit, -⟩ := Grammar.returns_of_limit hclients hp hlimit (by decide)
    (Token.ofTexts ["a", "b"])
  exact ⟨_, hp, hsplit⟩

def loosening (change : Config → Config) : Grammar Int64 :=
  .ofList (fun _ => some (.seq "sum" [Leaf.configuring change, .ref "sum" 0]))
    [.ref "sum" 0, .seq "sum" [Leaf.configuring change, .ref "sum" 0], Leaf.configuring change]
    (by simp [Parser.parts, Leaf.configuring])
    (by simp [Parser.Clients, Leaf.configuring, Action.succeed, Action.Only])

def CallsWithRoom (p : Parser Int64) (_ : List (Token Int64)) (ctx : Context Int64) : Prop :=
  p = .ref "sum" 0 ∧ ctx.config.Allows (ctx.depth + 2)

section
variable {change : Config → Config}
  (hchange : ∀ config depth, config.Allows (depth + 2) → (change config).Allows (depth + 4))
include hchange

theorem loosening_recurs : Parser.Recurs (loosening change).rules CallsWithRoom := by
  rintro _ input ctx o ctx' es ⟨rfl, hroom⟩ h
  have hopen : ¬ ctx.AtLimit := Context.not_atLimit_iff.2 (hroom.imp id Nat.le_of_lt)
  obtain ⟨entered, _, _, hconfig, hdepth, hrule, hsize⟩ := Runs.of_ref_open hopen rfl h
  have hopen₁ : ¬ entered.AtLimit := by rwa [Context.not_atLimit_iff, hconfig, hdepth]
  obtain ⟨inner, _, _, hconfig₁, hdepth₁, hparts, -, hsize₁⟩ := Runs.of_traced_open hopen₁ hrule
  cases hparts with
  | clearPartials hparts =>
    obtain ⟨_, _, _, _, hleaf, hafter, rfl⟩ := Runs.of_call hparts
    obtain ⟨rfl, rfl⟩ := Leaf.runs_configuring hleaf
    cases hafter with
    | clearPartials hafter =>
      obtain ⟨_, _, _, _, href, -, rfl⟩ := Runs.of_call hafter
      refine ⟨_, _, _, _, _, _, ⟨rfl, ?_⟩, href, ?_⟩
      · show (change inner.config).Allows (inner.depth + 2)
        rw [hconfig₁, hconfig, hdepth₁, hdepth]
        exact hchange _ _ hroom
      · simp only [Event.span, List.length_append, List.length_cons] at hsize hsize₁ ⊢
        omega

theorem loosening_endless {config : Config} (hroom : config.Allows 2) :
    (loosening change).Endless config := by
  refine ⟨?_, .ref "sum" 0, List.mem_cons_self, [],
    (loosening_recurs hchange).run_eq_none ⟨rfl, hroom⟩⟩
  simp [loosening, Parser.Clients, Leaf.configuring, Action.succeed]

end

/-- A limit does not end a parse if author's code lifts it, if it raises it again and again,
or if it switches the checks of conversions on, each of which has the depth to itself. -/
theorem limit_not_kept :
    (loosening fun config => { config with maxDepth := 0 }).Endless ⟨2, false, .safe, false⟩ ∧
    (loosening fun config => { config with maxDepth := 2 * config.maxDepth }).Endless
      ⟨2, false, .safe, false⟩ ∧
    rechecked.Endless ⟨10, false, .safe, false⟩ := by
  refine ⟨loosening_endless (fun _ _ _ => .inl rfl) (.inr (Nat.le_refl _)),
    loosening_endless (fun config depth hroom => ?_) (.inr (Nat.le_refl _)),
    rechecked_endless (.inr (by decide)) rfl⟩
  unfold Config.Allows at hroom ⊢
  simp only
  omega

end TokenGrammar
