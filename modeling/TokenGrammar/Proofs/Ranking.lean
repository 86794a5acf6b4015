import TokenGrammar.Proofs.Consumption
import TokenGrammar.Proofs.Grounded
import TokenGrammar.Proofs.Recurrence

/-!
# Grammars without left recursion need no limit on depth

A rule is referred to on the left (`Parser.LeftRefers`) where a sequence has not
consumed anything for certain before. If the rules can be ranked so that such references
go down, every parse ends (`Grammar.returns_of_ranked`): by induction on whether
conversions are checked, on the tokens left, on the rank and on the parser.
-/

namespace TokenGrammar

variable {V : Type}

-- ---------------------------------------------------------------------------
-- The structure of a parser
-- ---------------------------------------------------------------------------

theorem Parser.sizeOf_lt_of_mem_parts {p q : Parser V} (hq : q ∈ p.parts fun _ => none) :
    sizeOf q < sizeOf p := by
  cases p with
  | seq label parts | choice location mode parts =>
    have hlt := List.sizeOf_lt_of_mem (show q ∈ parts from hq)
    simp only [seq.sizeOf_spec, choice.sizeOf_spec]
    omega
  | recover search body skipUntil =>
    simp only [parts, List.mem_cons, List.not_mem_nil, or_false] at hq
    rcases hq with rfl | rfl | rfl <;> simp only [recover.sizeOf_spec] <;> omega
  | repetition | optional | transform | lookahead | notFollowedBy | peek | labelled | trace =>
    obtain rfl := List.mem_singleton.1 hq
    simp only [repetition.sizeOf_spec, optional.sizeOf_spec, transform.sizeOf_spec,
      lookahead.sizeOf_spec, notFollowedBy.sizeOf_spec, peek.sizeOf_spec, labelled.sizeOf_spec,
      trace.sizeOf_spec]
    omega
  | _ => contradiction

@[elab_as_elim]
theorem Parser.parts_induction {motive : Parser V → Prop}
    (step : ∀ p, (∀ q ∈ p.parts fun _ => none, motive q) → motive p) (p : Parser V) : motive p :=
  step p fun q hq =>
    have := Parser.sizeOf_lt_of_mem_parts hq
    Parser.parts_induction step q
termination_by sizeOf p

-- ---------------------------------------------------------------------------
-- References on the left
-- ---------------------------------------------------------------------------

variable [TokenValue V] {rules : Rules V} {I : Config → Prop}

/-- Whether each match consumes a token, under options `I`. -/
def Parser.Consumes (rules : Rules V) (I : Config → Prop) (p : Parser V) : Prop :=
  ∀ input ctx m ctx' es, I ctx.config → Runs rules (p.body rules input) ctx (.ok m) ctx' es →
    0 < m.consumed

/-- Whether a parser refers to a rule where no sequence around the reference has consumed
a token for certain. -/
inductive Parser.LeftRefers (rules : Rules V) (I : Config → Prop) : Parser V → RuleId → Prop
  | ref : LeftRefers rules I (.ref name rule) rule
  | deferred : LeftRefers rules I (.deferred rule) rule
  | seq (hfront : ∀ q ∈ front, ¬ q.Consumes rules I) (h : LeftRefers rules I part rule) :
      LeftRefers rules I (.seq label (front ++ part :: back)) rule
  | part (hother : ∀ label parts, p ≠ .seq label parts) (hq : q ∈ p.parts fun _ => none)
      (h : LeftRefers rules I q rule) : LeftRefers rules I p rule

namespace Parser

section
variable {p : Parser V} {parts : List (Parser V)}

theorem leftRefers_seq : (seq label parts : Parser V).LeftRefers rules I rule ↔
    ∃ front part back, parts = front ++ part :: back ∧ (∀ q ∈ front, ¬ q.Consumes rules I) ∧
      part.LeftRefers rules I rule := by
  constructor
  · intro h
    generalize hp : seq label parts = p at h
    cases h with
    | ref | deferred => cases hp
    | seq hfront h =>
      cases hp
      exact ⟨_, _, _, rfl, hfront, h⟩
    | part hother => exact absurd hp.symm (hother label parts)
  · rintro ⟨front, part, back, rfl, hfront, h⟩
    exact .seq hfront h

theorem not_leftRefers_seq_nil : ¬ (seq label [] : Parser V).LeftRefers rules I rule := by
  simp [leftRefers_seq]

theorem leftRefers_seq_cons : (seq label (p :: parts)).LeftRefers rules I rule ↔
    p.LeftRefers rules I rule ∨
      ¬ p.Consumes rules I ∧ (seq label parts).LeftRefers rules I rule := by
  simp only [leftRefers_seq]
  constructor
  · rintro ⟨front, part, back, hparts, hfront, h⟩
    cases front with
    | nil =>
      obtain ⟨rfl, -⟩ := List.cons.inj hparts
      exact .inl h
    | cons first front =>
      obtain ⟨rfl, hrest⟩ := List.cons.inj hparts
      obtain ⟨hfirst, hfront⟩ := List.forall_mem_cons.1 hfront
      exact .inr ⟨hfirst, front, part, back, hrest, hfront, h⟩
  · rintro (h | ⟨hp, front, part, back, rfl, hfront, h⟩)
    · exact ⟨[], p, parts, rfl, nofun, h⟩
    · exact ⟨p :: front, part, back, rfl, List.forall_mem_cons.2 ⟨hp, hfront⟩, h⟩

@[simp] theorem leftRefers_ref :
    (ref name left : Parser V).LeftRefers rules I rule ↔ rule = left := by
  constructor
  · intro h
    cases h with
    | ref => rfl
    | part _ hq => contradiction
  · rintro rfl
    exact .ref

@[simp] theorem not_leftRefers_leaf
    (program : List (Token V) → Action (Parser V) V (Outcome V)) :
    ¬ (leaf program).LeftRefers rules I rule := by
  intro h
  cases h with
  | part _ hq => contradiction

end

end Parser

/-- Whether the rules of a grammar refer on the left to rules of a lower rank alone. -/
def Grammar.RankedBy (G : Grammar V) (I : Config → Prop) (rank : RuleId → Nat) : Prop :=
  ∀ rule body, G.rules rule = some body → body ∈ G →
    ∀ left, body.LeftRefers G.rules I left → rank left < rank rule

-- ---------------------------------------------------------------------------
-- Stages
-- ---------------------------------------------------------------------------

def Config.Within (I : Config → Prop) (checks : Bool) (config : Config) : Prop :=
  I config ∧ (config.checkTransforms = true → checks = true)

def Grammar.EndsOn (G : Grammar V) (I : Config → Prop) (checks : Bool) (p : Parser V)
    (input : List (Token V)) : Prop :=
  (p.body G.rules input).EndsUnder G.rules (Config.Within I checks)

/-- A stage of the induction: what is done elsewhere ends, in checks of conversions and on
shorter inputs. -/
structure Grammar.Stage (G : Grammar V) (I : Config → Prop) (checks : Bool) (length : Nat) :
    Prop where
  clients : ∀ p ∈ G, p.Clients (·.EndsUnder G.rules (Config.Within I checks))
  leaves : ∀ program, .leaf program ∈ G → ∀ input ctx m ctx' es,
    Runs G.rules (program input) ctx (.ok m) ctx' es → m.consumed ≤ input.length
  checked : ∀ p ∈ G, ∀ converted, p.ChecksEnd G.rules (Config.Within I checks) converted
  shorter : ∀ p ∈ G, ∀ input, input.length < length → G.EndsOn I checks p input

namespace Parser

variable {G : Grammar V} {checks : Bool} {input : List (Token V)}

/-- A sequence ends: a part that is tried on all of the input comes before any that
consumes. -/
theorem seq_endsOn (h : G.Stage I checks input.length) {parts : List (Parser V)}
    (hp : .seq label parts ∈ G)
    (hleft : ∀ front part back, parts = front ++ part :: back →
      (∀ q ∈ front, ¬ q.Consumes G.rules I) → G.EndsOn I checks part input) :
    G.EndsOn I checks (.seq label parts) input := by
  have hmem : ∀ {front part back}, parts = front ++ part :: back → part ∈ G := by
    intro front part back hparts
    exact G.parts _ hp part (by simp [Parser.parts, hparts])
  have hgrounded : (seqFrom input parts .nothing).Grounded G.rules (Config.Within I checks) := by
    refine seqFrom_grounded (fun front sofar => sofar.consumed ≤ input.length ∧
      ((∀ q ∈ front, ¬ q.Consumes G.rules I) ∨ 0 < sofar.consumed)) ?_ ?_
      (List.nil_append parts).symm ⟨Nat.zero_le _, .inl nofun⟩
    · rintro front part back sofar hparts ⟨hle, hsofar⟩
      rcases Nat.eq_zero_or_pos sofar.consumed with hnone | hsome
      · rw [hnone, List.drop_zero]
        exact hleft front part back hparts (hsofar.resolve_right (by omega))
      · refine h.shorter part (hmem hparts) _ ?_
        rw [List.length_drop]
        omega
    · rintro front part back sofar m hparts ⟨hle, hsofar⟩ ⟨ctx, ctx', es, hctx, hrun⟩
      refine ⟨Match.append_consumed_le hle (Grammar.consumed_le h.leaves (hmem hparts) hrun), ?_⟩
      show _ ∨ 0 < sofar.consumed + m.consumed
      rcases hsofar with hfront | hsome
      · by_cases hpart : part.Consumes G.rules I
        · exact .inr (Nat.add_pos_right _ (hpart _ ctx m ctx' es hctx.1 hrun))
        · exact .inl (List.forall_mem_append.2 ⟨hfront, List.forall_mem_singleton.2 hpart⟩)
      · exact .inr (Nat.add_pos_left hsome _)
  have hbody : (Parser.body G.rules (.seq label parts) input).Grounded G.rules
      (Config.Within I checks) := ⟨hgrounded, fun _ => trivial⟩
  exact hbody.ends

/-- A parser ends on an input if the rules do that it refers to on the left. -/
theorem endsOn_of_left (h : G.Stage I checks input.length) (p : Parser V) (hp : p ∈ G)
    (hleft : ∀ rule body, p.LeftRefers G.rules I rule → G.rules rule = some body → body ∈ G →
      G.EndsOn I checks body input) :
    G.EndsOn I checks p input := by
  induction p using Parser.parts_induction with
  | step p ih =>
    -- On what is left of an input a part ends if it does on all of it.
    have hother : (∀ q ∈ p.parts G.rules, G.EndsOn I checks q input) →
        G.EndsOn I checks p input := by
      intro hparts
      refine Action.Grounded.ends (body_grounded (fun q hq rest hrest => ?_)
        (fun q hq => h.checked q (G.parts p hp q hq)) (h.clients p hp))
      rcases Nat.lt_or_eq_of_le hrest.length_le with hlt | heq
      · exact h.shorter q (G.parts p hp q hq) rest hlt
      · rw [hrest.eq_of_length heq]
        exact hparts q hq
    have hpart : ∀ q ∈ p.parts fun _ => none, q ∈ G → (∀ label parts, p ≠ .seq label parts) →
        G.EndsOn I checks q input := by
      intro q hq hin hseq
      exact ih q hq hin fun rule body hrefers => hleft rule body (.part hseq hq hrefers)
    cases p with
    | seq label parts =>
      refine seq_endsOn h hp fun front part back hparts hfront => ?_
      have hmem : part ∈ parts := by simp [hparts]
      refine ih part hmem (G.parts _ hp part hmem) fun rule body hrefers => hleft rule body ?_
      rw [hparts]
      exact .seq hfront hrefers
    | ref name rule =>
      refine hother fun body hbody => ?_
      have hrule : G.rules rule = some body := by simpa [Parser.parts] using hbody
      exact hleft rule body .ref hrule (G.parts _ hp body hbody)
    | deferred rule =>
      refine hother fun body hbody => ?_
      have hrule : G.rules rule = some body := by simpa [Parser.parts] using hbody
      exact hleft rule body .deferred hrule (G.parts _ hp body hbody)
    | _ => exact hother fun q hq => hpart q hq (G.parts _ hp q hq) nofun

end Parser

-- ---------------------------------------------------------------------------
-- All stages
-- ---------------------------------------------------------------------------

section
variable {G : Grammar V} {rank : RuleId → Nat} (hrank : G.RankedBy I rank)
  (hclients : ∀ p ∈ G, p.Clients fun a =>
    ∀ checks, a.EndsUnder G.rules (Config.Within I checks))
  (hleaves : ∀ program, .leaf program ∈ G → ∀ input ctx m ctx' es,
    Runs G.rules (program input) ctx (.ok m) ctx' es → m.consumed ≤ input.length)
include hrank hclients hleaves

theorem Grammar.endsOn_of_checked
    (hchecked : ∀ p ∈ G, ∀ converted, p.ChecksEnd G.rules (Config.Within I checks) converted)
    (hp : p ∈ G) (input : List (Token V)) : G.EndsOn I checks p input := by
  induction hlength : input.length using Nat.strongRecOn generalizing p input with
  | ind length ih =>
    have hstage : G.Stage I checks input.length := {
      clients := fun p hp => (hclients p hp).mono fun _ hcode => hcode checks
      leaves := hleaves
      checked := hchecked
      shorter := fun p hp input hlt => ih input.length (hlength ▸ hlt) hp input rfl }
    have hrules : ∀ height rule body, rank rule = height → G.rules rule = some body → body ∈ G →
        G.EndsOn I checks body input := by
      intro height
      induction height using Nat.strongRecOn with
      | ind height ihHeight =>
        intro rule body hheight hrule hbody
        refine Parser.endsOn_of_left hstage body hbody fun left body' hrefers => ?_
        have hlower : rank left < height := hheight ▸ hrank rule body hrule hbody left hrefers
        exact ihHeight (rank left) hlower left body' rfl
    exact Parser.endsOn_of_left hstage p hp fun rule body _ => hrules _ rule body rfl

/-- A grammar without left recursion needs no limit on depth: if its author's code ends,
leaves options `I` and switches no check of conversions on, and no leaf reports more
tokens than it is given, then every parse ends. (A conversion that switched the checks on
while it is checked would be checked again in that check, and so on.) -/
theorem Grammar.returns_of_ranked
    (hscratch : ∀ config, I config → I { config with tracing := false, checkTransforms := false })
    (hp : p ∈ G) (hctx : I ctx.config) (input : List (Token V)) :
    ∃ n, (Parser.run G.rules n p input ctx).isSome := by
  have hunchecked : ∀ p ∈ G, ∀ converted,
      p.ChecksEnd G.rules (Config.Within I false) converted := by
    intro p _ converted ctx hctx hchecks
    have hoff : ctx.config.checkTransforms = false := by
      have := hctx.2
      simpa using this
    simp [Context.Checks, Context.checksTransforms, hoff] at hchecks
  have hchecked : ∀ p ∈ G, ∀ converted,
      p.ChecksEnd G.rules (Config.Within I true) converted := by
    intro p hp converted ctx hctx _
    have hin : Config.Within I false ctx.scratch.config :=
      ⟨hscratch _ hctx.1, fun hon => absurd hon Bool.false_ne_true⟩
    obtain ⟨o, ctx', es, hparse, -⟩ :=
      Grammar.endsOn_of_checked hrank hclients hleaves hunchecked hp converted ctx.scratch hin
    exact ⟨o, ctx', es, hparse⟩
  obtain ⟨o, ctx', es, hparse, -⟩ :=
    Grammar.endsOn_of_checked hrank hclients hleaves hchecked hp input ctx ⟨hctx, fun _ => rfl⟩
  obtain ⟨n, hn⟩ := parses_iff_run.1 ⟨_, es, hparse, rfl⟩
  exact ⟨n, by rw [hn]; rfl⟩

end

section
omit [TokenValue V]

theorem Leaf.onFirst_consumed {expected missing : String} {read : Token V → Outcome V}
    (hread : ∀ token m, read token = .ok m → m.consumed = 1)
    (h : .ok m = Leaf.onFirst expected missing read input) :
    m.consumed = 1 ∧ 0 < input.length := by
  cases input with
  | nil => cases h
  | cons token rest => exact ⟨hread token m h.symm, Nat.zero_lt_succ _⟩

theorem Leaf.punctuation_consumed {text : String} {token : Token V}
    (h : (if token.raw = text then Leaf.dropOne else .error (.notMatch text "" none)) = .ok m) :
    m.consumed = 1 := by
  split at h <;> cases h
  rfl

theorem Leaf.ofKind_consumed {kind : String} {token : Token V}
    (h : (if token.kind = kind then Leaf.one token else Leaf.mismatch kind token.kind token) =
      .ok m) : m.consumed = 1 := by
  split at h <;> cases h
  rfl

end

theorem Leaf.plain_consumes {read : Token V → Outcome V}
    (hread : ∀ token m, read token = .ok m → m.consumed = 1) :
    (Leaf.plain expected missing read).Consumes rules I := by
  intro input ctx m ctx' es _ h
  obtain ⟨hm, -⟩ := Runs.of_answer h
  rw [(Leaf.onFirst_consumed hread hm).1]
  exact Nat.zero_lt_one

theorem Leaf.punctuation_consumes (text : String) :
    (Leaf.punctuation text : Parser V).Consumes rules I :=
  plain_consumes fun _ _ => punctuation_consumed

theorem Leaf.ofKind_consumes (kind : String) : (Leaf.ofKind kind : Parser V).Consumes rules I :=
  plain_consumes fun _ _ => ofKind_consumed

def group : Parser Int64 :=
  .transform "here" (.oneOf "here"
    [.seq "group" [Leaf.punctuation "(", .deferred 0, Leaf.punctuation ")"], Leaf.ofKind "raw"])
    fun tokens => .done (.ok (tokens ++ tokens))

def signed : Parser Int64 := .seq "signed" [.optional (Leaf.punctuation "-"), .ref "group" 0]

def grouping : Grammar Int64 :=
  .ofList (fun rule => if rule = 0 then some group else if rule = 1 then some signed else none)
    [.deferred 1, signed, .optional (Leaf.punctuation "-"), .ref "group" 0, group,
      .oneOf "here" [.seq "group" [Leaf.punctuation "(", .deferred 0, Leaf.punctuation ")"],
        Leaf.ofKind "raw"],
      .seq "group" [Leaf.punctuation "(", .deferred 0, Leaf.punctuation ")"], .deferred 0,
      Leaf.punctuation "-", Leaf.punctuation "(", Leaf.punctuation ")", Leaf.ofKind "raw"]
    (by simp [Parser.parts, Parser.oneOf, group, signed, Leaf.punctuation, Leaf.ofKind, Leaf.plain])
    (by simp [Parser.Clients, Parser.oneOf, group, signed, Leaf.punctuation, Leaf.ofKind,
      Leaf.plain, Action.Only])

section
variable {R : Rules Int64}

theorem not_leftRefers_group : ¬ group.LeftRefers R I rule := by
  intro h
  rw [group] at h
  cases h with
  | part _ hitem h =>
    obtain rfl := List.mem_singleton.1 hitem
    cases h with
    | part _ hoption h =>
      simp only [Parser.oneOf, Parser.parts, List.mem_cons, List.not_mem_nil, or_false] at hoption
      rcases hoption with rfl | rfl
      · rcases Parser.leftRefers_seq_cons.1 h with h | ⟨hopen, -⟩
        · exact Parser.not_leftRefers_leaf _ h
        · exact hopen (Leaf.punctuation_consumes "(")
      · exact Parser.not_leftRefers_leaf _ h

theorem eq_zero_of_leftRefers_signed (h : signed.LeftRefers R I rule) : rule = 0 := by
  rw [signed, Parser.leftRefers_seq_cons, Parser.leftRefers_seq_cons] at h
  rcases h with h | ⟨-, h | ⟨-, h⟩⟩
  · cases h with
    | part _ hitem h =>
      obtain rfl := List.mem_singleton.1 hitem
      exact absurd h (Parser.not_leftRefers_leaf _)
  · exact Parser.leftRefers_ref.1 h
  · exact absurd h Parser.not_leftRefers_seq_nil

end

theorem grouping_rankedBy : grouping.RankedBy (·.maxDepth = 0) id := by
  intro rule body hrule _ left hleft
  simp only [grouping, Grammar.ofList] at hrule
  split at hrule
  · obtain rfl := Option.some.inj hrule
    exact absurd hleft not_leftRefers_group
  · split at hrule
    · next hone =>
      obtain rfl := Option.some.inj hrule
      obtain rfl := eq_zero_of_leftRefers_signed hleft
      rw [hone]
      exact Nat.zero_lt_one
    · cases hrule

theorem grouping_leaf_le (hp : .leaf program ∈ grouping)
    (h : Runs R (program input) ctx (.ok m) ctx' es) : m.consumed ≤ input.length := by
  simp only [grouping, group, signed, Parser.oneOf, Leaf.punctuation, Leaf.ofKind, Leaf.plain,
    Grammar.mem_ofList, List.mem_cons, List.not_mem_nil, or_false, reduceCtorEq, false_or,
    Parser.leaf.injEq] at hp
  have hone : m.consumed = 1 ∧ 0 < input.length := by
    rcases hp with rfl | rfl | rfl | rfl
    case inr.inr.inr =>
      exact Leaf.onFirst_consumed (fun _ _ => Leaf.ofKind_consumed) (runs_done.1 h).1
    all_goals exact Leaf.onFirst_consumed (fun _ _ => Leaf.punctuation_consumed) (runs_done.1 h).1
  omega

/-- Without a limit on depth, and with conversions checked on what they made. -/
theorem grouping_returns : ∃ p ∈ grouping, ∀ input,
    ∃ n, (Parser.run grouping.rules n p input (.ofConfig ⟨0, true, .safe, true⟩)).isSome := by
  have hclients : ∀ p ∈ grouping, p.Clients fun a =>
      ∀ checks, a.EndsUnder grouping.rules (Config.Within (·.maxDepth = 0) checks) := by
    generalize grouping.rules = R
    have hdone : ∀ {α : Type} (x : α) checks, (Action.done x).EndsUnder R
        (Config.Within (·.maxDepth = 0) checks) := fun x checks ctx hctx => ⟨_, _, _, .done, hctx⟩
    simp [grouping, Parser.Clients, Parser.oneOf, group, signed, Leaf.punctuation, Leaf.ofKind,
      Leaf.plain, hdone]
  refine ⟨.deferred 1, List.mem_cons_self, fun input => ?_⟩
  exact Grammar.returns_of_ranked grouping_rankedBy hclients
    (fun program hp input ctx m ctx' es => grouping_leaf_le hp) (fun _ h => h)
    List.mem_cons_self rfl input

section
variable {R : Rules Int64}

theorem not_leftRefers_rechecking : ¬ rechecking.LeftRefers R I rule := by
  intro h
  rw [rechecking] at h
  cases h with
  | part _ hitem h =>
    obtain rfl := List.mem_singleton.1 hitem
    rw [reading] at h
    cases h with
    | part _ hoption h =>
      simp only [Parser.firstOf, Parser.parts, List.mem_cons, List.not_mem_nil, or_false] at hoption
      rcases hoption with rfl | rfl
      · rcases Parser.leftRefers_seq_cons.1 h with h | ⟨hopen, -⟩
        · exact Parser.not_leftRefers_leaf _ h
        · exact hopen (Leaf.ofKind_consumes "raw")
      · exact Parser.not_leftRefers_leaf _ h

end

/-- A conversion that switches the checks of conversions on keeps a parse from its end, also
where no rule refers to itself on the left. -/
theorem rechecked_endless_of_ranked : rechecked.RankedBy (fun _ => True) id ∧
    (∀ program, .leaf program ∈ rechecked → ∀ input ctx m ctx' es,
      Runs rechecked.rules (program input) ctx (.ok m) ctx' es → m.consumed ≤ input.length) ∧
    rechecked.Endless ⟨0, false, .safe, false⟩ := by
  refine ⟨?_, ?_, rechecked_endless (.inl rfl) rfl⟩
  · intro rule body hrule _ left hleft
    obtain rfl := Option.some.inj hrule
    exact absurd hleft not_leftRefers_rechecking
  · intro program hp input ctx m ctx' es h
    simp only [rechecked, rechecking, reading, Parser.firstOf, Leaf.ofKind, Leaf.plain, Leaf.emit,
      Grammar.mem_ofList, List.mem_cons, List.not_mem_nil, or_false, reduceCtorEq, false_or,
      Parser.leaf.injEq] at hp
    rcases hp with rfl | rfl
    · have hm := (runs_done.1 h).1
      have := Leaf.onFirst_consumed (fun _ _ => Leaf.ofKind_consumed) hm
      omega
    · obtain ⟨⟨⟩, -, -⟩ := runs_done.1 h
      exact Nat.zero_le _

end TokenGrammar
