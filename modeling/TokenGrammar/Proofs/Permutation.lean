import TokenGrammar.Leaf
import TokenGrammar.Proofs.ModeSwitch
import TokenGrammar.Proofs.Survey

/-!
# The order of options under the longest match

A choice of the longest match tries its options one after another in one context. Where
each leaves the options of the parse as they were, each answers as it does alone, so the
order tells nothing but which of the longest matches is taken (`Parser.longestOf_perm`).
-/

namespace TokenGrammar

variable {V : Type} [TokenValue V] {rules : Rules V}

namespace Parser

def Answers (rules : Rules V) (input : List (Token V)) (depth : Nat) (config : Config)
    (p : Parser V) (o : Outcome V) : Prop :=
  ∃ logged config', p.Alone rules input depth config ⟨o, logged⟩ config'

variable {p : Parser V} {ps : List (Parser V)} {input : List (Token V)}

theorem Answers.unique (h : p.Answers rules input depth config o)
    (h' : p.Answers rules input depth config o') : o = o' := by
  obtain ⟨_, _, halone⟩ := h
  obtain ⟨_, _, halone'⟩ := h'
  exact congrArg Attempt.outcome (halone.unique halone').1

theorem Alone.answers (h : p.Alone rules input depth config a config') :
    p.Answers rules input depth config a.outcome :=
  ⟨a.logged, config', h⟩

theorem Alone.restores (h : p.Alone rules input depth config a config')
    (hrestore : (p.body rules input).RestoresOptions rules) : config' = config := by
  let ctx : Context V := { Context.ofConfig config with depth }
  obtain ⟨ctx', es, hruns, hconfig, -⟩ := h.runs (show ctx.config = config from rfl) rfl
  rw [← hconfig, hrestore _ _ _ _ hruns]
  rfl

-- ---------------------------------------------------------------------------
-- Surveys of options that restore the options of the parse
-- ---------------------------------------------------------------------------

section
variable (hrestore : ∀ p ∈ ps, (p.body rules input).RestoresOptions rules)
include hrestore

theorem surveyed_of_answers (h : ∀ p ∈ ps, ∃ o, p.Answers rules input depth config o) :
    ∃ attempts stop, Surveyed rules input depth config ps attempts stop := by
  induction ps with
  | nil => exact ⟨[], none, .nil⟩
  | cons p ps ih =>
    obtain ⟨⟨o, logged, config', alone⟩, hps⟩ := List.forall_mem_cons.1 h
    obtain ⟨hp, hrestores⟩ := List.forall_mem_cons.1 hrestore
    rcases o.goesOn_or_fatal with hgoes | ⟨failure, rfl, hfatal⟩
    · obtain ⟨attempts, stop, hsurvey⟩ := ih hrestores hps
      rw [← alone.restores hp] at hsurvey
      exact ⟨_, stop, .cons alone hgoes hsurvey⟩
    · exact ⟨_, _, .stopped alone hfatal⟩

theorem Surveyed.stop_answers {failure : Failure}
    (h : Surveyed rules input depth config ps attempts (some failure)) :
    ∃ p ∈ ps, p.Answers rules input depth config (.error failure) := by
  induction ps generalizing attempts with
  | nil => cases h
  | cons p ps ih =>
    obtain ⟨hp, hrestores⟩ := List.forall_mem_cons.1 hrestore
    cases h with
    | cons alone _ rest =>
      rw [alone.restores hp] at rest
      obtain ⟨q, hq, hanswers⟩ := ih hrestores rest
      exact ⟨q, List.mem_cons_of_mem p hq, hanswers⟩
    | stopped alone _ => exact ⟨p, List.mem_cons_self, alone.answers⟩

theorem Surveyed.answers (h : Surveyed rules input depth config ps attempts none) :
    ∀ p ∈ ps, ∃ a ∈ attempts, p.Answers rules input depth config a.outcome ∧
      a.outcome.GoesOn := by
  induction ps generalizing attempts with
  | nil => exact nofun
  | cons p ps ih =>
    obtain ⟨hp, hrestores⟩ := List.forall_mem_cons.1 hrestore
    cases h with
    | cons alone hgoes rest =>
      rw [alone.restores hp] at rest
      refine List.forall_mem_cons.2 ⟨⟨_, List.mem_cons_self, alone.answers, hgoes⟩, ?_⟩
      intro q hq
      obtain ⟨a, ha, hanswers⟩ := ih hrestores rest q hq
      exact ⟨a, List.mem_cons_of_mem _ ha, hanswers⟩

theorem Surveyed.of_cons (h : Surveyed rules input depth config ps (a :: attempts) none) :
    ∃ p later, ps = p :: later ∧ p.Alone rules input depth config a config ∧
      a.outcome.GoesOn ∧ Surveyed rules input depth config later attempts none := by
  cases h with
  | cons alone hgoes rest =>
    have hconfig := alone.restores (hrestore _ List.mem_cons_self)
    rw [hconfig] at alone rest
    exact ⟨_, _, rfl, alone, hgoes, rest⟩

theorem Surveyed.split
    (h : Surveyed rules input depth config ps (front ++ a :: back) none) :
    ∃ earlier p later, ps = earlier ++ p :: later ∧
      Surveyed rules input depth config earlier front none ∧
      p.Answers rules input depth config a.outcome ∧
      Surveyed rules input depth config later back none := by
  induction front generalizing ps with
  | nil =>
    obtain ⟨p, later, rfl, alone, -, rest⟩ := h.of_cons hrestore
    exact ⟨[], p, later, rfl, .nil, alone.answers, rest⟩
  | cons b front ih =>
    obtain ⟨q, qs, rfl, alone, hgoes, rest⟩ := h.of_cons hrestore
    obtain ⟨earlier, p, later, rfl, hfront, hanswers, hback⟩ :=
      ih (List.forall_mem_cons.1 hrestore).2 rest
    exact ⟨q :: earlier, p, later, rfl, .cons alone hgoes hfront, hanswers, hback⟩

end

-- ---------------------------------------------------------------------------
-- The leftmost of the longest matches
-- ---------------------------------------------------------------------------

section
omit [TokenValue V]
variable {attempts : List (Attempt V)}

theorem keep_longestStep_selects (h : (keep longestStep s attempts).1 = some m) :
    Selects s.1 attempts m := by
  induction attempts generalizing s with
  | nil =>
    obtain ⟨best, failures⟩ := s
    obtain rfl : best = some m := h
    exact .kept nofun
  | cons a attempts ih =>
    obtain ⟨outcome, logged⟩ := a
    cases outcome with
    | ok first => exact (ih h).after_match logged
    | error failure => exact (ih h).after_error failure logged

theorem keep_longestStep_isSome (s : Option (Match V) × List Failure) :
    (keep longestStep s attempts).1.isSome ↔
      s.1.isSome ∨ ∃ a ∈ attempts, ∃ m, a.outcome = .ok m := by
  induction attempts generalizing s with
  | nil => simp [keep]
  | cons a attempts ih =>
    rw [keep, List.foldl_cons, ← keep, ih]
    cases ha : a.outcome <;> simp [longestStep, ha]

end

/-- Whether an option answers `m`, which no option before it reaches and no option
behind it exceeds. -/
def LeftmostLongest (rules : Rules V) (input : List (Token V)) (depth : Nat)
    (config : Config) (options : List (Parser V)) (m : Match V) : Prop :=
  ∃ earlier p later, options = earlier ++ p :: later ∧
    p.Answers rules input depth config (.ok m) ∧
    (∀ q ∈ earlier, ∀ m', q.Answers rules input depth config (.ok m') →
      m'.consumed < m.consumed) ∧
    ∀ q ∈ later, ∀ m', q.Answers rules input depth config (.ok m') → m'.consumed ≤ m.consumed

theorem LeftmostLongest.exists_answers
    (h : LeftmostLongest rules input depth config ps m) :
    ∃ p ∈ ps, p.Answers rules input depth config (.ok m) := by
  obtain ⟨earlier, p, later, rfl, hanswers, -⟩ := h
  exact ⟨p, by simp, hanswers⟩

theorem LeftmostLongest.le (h : LeftmostLongest rules input depth config ps m) (hp : p ∈ ps)
    (hanswers : p.Answers rules input depth config (.ok m')) : m'.consumed ≤ m.consumed := by
  obtain ⟨earlier, q, later, rfl, hq, hearlier, hlater⟩ := h
  rcases List.mem_append.1 hp with hp | hp
  · exact Nat.le_of_lt (hearlier p hp m' hanswers)
  · rcases List.mem_cons.1 hp with rfl | hp
    · cases hanswers.unique hq
      exact Nat.le_refl _
    · exact hlater p hp m' hanswers

-- ---------------------------------------------------------------------------
-- The choice
-- ---------------------------------------------------------------------------

variable {ctx : Context V}

theorem longestOf_returns_iff : (longestOf location ps).Returns rules input ctx o ↔
    (ctx.AtLimit ∧
      o = .error (.stackOverflow ctx.depth ctx.config.maxDepth (firstPos input))) ∨
    ¬ ctx.AtLimit ∧ ∃ attempts stop,
      Surveyed rules input (ctx.depth + 1) ctx.config ps attempts stop ∧
      o = ending stop (matchOrJoin (firstPos input) (keep longestStep (none, []) attempts).2
        (keep longestStep (none, []) attempts).1) :=
  (longestFrom_surveys input).returns_iff (none, []) rfl

theorem longestOf_returns_ok (h : (longestOf location ps).Returns rules input ctx (.ok m)) :
    ¬ ctx.AtLimit ∧ ∃ attempts,
      Surveyed rules input (ctx.depth + 1) ctx.config ps attempts none ∧
      Selects none attempts m := by
  rcases longestOf_returns_iff.1 h with ⟨-, hends⟩ | ⟨hbelow, attempts, stop, hsurvey, hends⟩
  · cases hends
  · refine ⟨hbelow, attempts, ?_⟩
    cases stop with
    | some failure => cases hends
    | none =>
      cases hbest : (keep longestStep (none, []) attempts).1 with
      | none => rw [hbest] at hends; cases hends
      | some best =>
        rw [hbest] at hends
        cases hends
        exact ⟨hsurvey, keep_longestStep_selects hbest⟩

section
variable (hrestore : ∀ p ∈ ps, (p.body rules input).RestoresOptions rules)
include hrestore

theorem longestOf_matches_iff :
    (∃ m, (longestOf location ps).Returns rules input ctx (.ok m)) ↔
      ¬ ctx.AtLimit ∧
      (∀ p ∈ ps, ∃ o, p.Answers rules input (ctx.depth + 1) ctx.config o ∧ o.GoesOn) ∧
      ∃ p ∈ ps, ∃ m, p.Answers rules input (ctx.depth + 1) ctx.config (.ok m) := by
  constructor
  · rintro ⟨m, h⟩
    obtain ⟨hbelow, attempts, hsurvey, hselects⟩ := longestOf_returns_ok h
    refine ⟨hbelow, fun p hp => ?_, ?_⟩
    · obtain ⟨a, -, hanswers⟩ := hsurvey.answers hrestore p hp
      exact ⟨a.outcome, hanswers⟩
    · obtain ⟨front, logs, back, rfl, -⟩ := hselects.of_none
      obtain ⟨earlier, p, later, rfl, -, hanswers, -⟩ := hsurvey.split hrestore
      exact ⟨p, by simp, m, hanswers⟩
  · rintro ⟨hbelow, hgo, p, hp, m, hmatch⟩
    obtain ⟨attempts, stop, hsurvey⟩ := surveyed_of_answers hrestore fun q hq => by
      obtain ⟨o, hanswers, -⟩ := hgo q hq
      exact ⟨o, hanswers⟩
    cases stop with
    | some failure =>
      -- What stops a survey is an answer, and no answer here is of that kind.
      obtain ⟨q, hq, hfailed⟩ := hsurvey.stop_answers hrestore
      obtain ⟨o, hanswers, hgoes⟩ := hgo q hq
      have hrecoverable := hgoes failure (hanswers.unique hfailed)
      rw [hsurvey.fatal] at hrecoverable
      contradiction
    | none =>
      obtain ⟨a, ha, hanswers, -⟩ := hsurvey.answers hrestore p hp
      have hsome := (keep_longestStep_isSome (none, [])).2 (.inr ⟨a, ha, m, hanswers.unique hmatch⟩)
      obtain ⟨best, hbest⟩ := Option.isSome_iff_exists.1 hsome
      refine ⟨best, longestOf_returns_iff.2 (.inr ⟨hbelow, attempts, none, hsurvey, ?_⟩)⟩
      rw [hbest]
      rfl

theorem longestOf_leftmostLongest
    (h : (longestOf location ps).Returns rules input ctx (.ok m)) :
    LeftmostLongest rules input (ctx.depth + 1) ctx.config ps m := by
  obtain ⟨-, attempts, hsurvey, hselects⟩ := longestOf_returns_ok h
  obtain ⟨front, logs, back, rfl, hfront, hback⟩ := hselects.of_none
  obtain ⟨earlier, p, later, rfl, hearlier, hanswers, hlater⟩ := hsurvey.split hrestore
  obtain ⟨hrestore₁, hrestore₂⟩ := List.forall_mem_append.1 hrestore
  refine ⟨earlier, p, later, rfl, hanswers, fun q hq m' hm' => ?_, fun q hq m' hm' => ?_⟩
  · obtain ⟨a, ha, hq', -⟩ := hearlier.answers hrestore₁ q hq
    exact hfront a ha m' (hq'.unique hm')
  · obtain ⟨a, ha, hq', -⟩ := hlater.answers (List.forall_mem_cons.1 hrestore₂).2 q hq
    exact hback a ha m' (hq'.unique hm')

theorem longestOf_returns_fatal {failure : Failure} (hp : p ∈ ps)
    (hanswers : p.Answers rules input (ctx.depth + 1) ctx.config (.error failure))
    (hfatal : failure.isRecoverable = false)
    (h : (longestOf location ps).Returns rules input ctx o) :
    ∃ f, o = .error f ∧ f.isRecoverable = false := by
  rcases longestOf_returns_iff.1 h with ⟨-, rfl⟩ | ⟨-, attempts, stop, hsurvey, rfl⟩
  · exact ⟨_, rfl, rfl⟩
  · cases stop with
    | some f => exact ⟨f, rfl, hsurvey.fatal⟩
    | none =>
      obtain ⟨a, -, ha, hgoes⟩ := hsurvey.answers hrestore p hp
      have hrecoverable := hgoes failure (ha.unique hanswers)
      rw [hfatal] at hrecoverable
      contradiction

theorem longestOf_returns (location : String)
    (h : ∀ p ∈ ps, ∃ o, p.Answers rules input (ctx.depth + 1) ctx.config o) :
    ∃ o, (longestOf location ps).Returns rules input ctx o := by
  by_cases hlimit : ctx.AtLimit
  · exact ⟨_, longestOf_returns_iff.2 (.inl ⟨hlimit, rfl⟩)⟩
  · obtain ⟨attempts, stop, hsurvey⟩ := surveyed_of_answers hrestore h
    exact ⟨_, longestOf_returns_iff.2 (.inr ⟨hlimit, attempts, stop, hsurvey, rfl⟩)⟩

/-- A choice of the longest match has a match in one order of its options where it has one
in another. The matches are as long as the longest one, so they are the same if only one
option reaches that length, and of several it is the first option that is taken. An option
that fails unrecoverably fails the choice in every order. A choice whose options all come
to an end does so, too. -/
theorem longestOf_perm (hperm : ps.Perm qs) (location location' : String) (ctx : Context V) :
    ((∃ m, (longestOf location ps).Returns rules input ctx (.ok m)) ↔
      ∃ m, (longestOf location' qs).Returns rules input ctx (.ok m)) ∧
    (∀ m m', (longestOf location ps).Returns rules input ctx (.ok m) →
      (longestOf location' qs).Returns rules input ctx (.ok m') →
      m.consumed = m'.consumed ∧
      LeftmostLongest rules input (ctx.depth + 1) ctx.config ps m ∧
      LeftmostLongest rules input (ctx.depth + 1) ctx.config qs m' ∧
      ((∀ p ∈ ps, ∀ q ∈ ps, ∀ a b, p.Answers rules input (ctx.depth + 1) ctx.config (.ok a) →
        q.Answers rules input (ctx.depth + 1) ctx.config (.ok b) →
        a.consumed = m.consumed → b.consumed = m.consumed → p = q) → m = m')) ∧
    (∀ p ∈ ps, ∀ failure,
      p.Answers rules input (ctx.depth + 1) ctx.config (.error failure) →
      failure.isRecoverable = false → ∀ o, (longestOf location ps).Returns rules input ctx o ∨
        (longestOf location' qs).Returns rules input ctx o →
      ∃ f, o = .error f ∧ f.isRecoverable = false) ∧
    ((∀ p ∈ ps, ∃ o, p.Answers rules input (ctx.depth + 1) ctx.config o) →
      (∃ o, (longestOf location ps).Returns rules input ctx o) ∧
        ∃ o, (longestOf location' qs).Returns rules input ctx o) := by
  have hrestore' : ∀ q ∈ qs, (q.body rules input).RestoresOptions rules :=
    fun q hq => hrestore q (hperm.mem_iff.2 hq)
  refine ⟨?_, ?_, ?_, ?_⟩
  · rw [longestOf_matches_iff hrestore, longestOf_matches_iff hrestore']
    simp only [hperm.mem_iff]
  · intro m m' h h'
    have hps := longestOf_leftmostLongest hrestore h
    have hqs := longestOf_leftmostLongest hrestore' h'
    obtain ⟨p, hp, hm⟩ := hps.exists_answers
    obtain ⟨q, hq, hm'⟩ := hqs.exists_answers
    have hlength : m.consumed = m'.consumed :=
      Nat.le_antisymm (hqs.le (hperm.mem_iff.1 hp) hm) (hps.le (hperm.mem_iff.2 hq) hm')
    refine ⟨hlength, hps, hqs, fun honly => ?_⟩
    obtain rfl := honly p hp q (hperm.mem_iff.2 hq) m m' hm hm' rfl hlength.symm
    exact Except.ok.inj (hm.unique hm')
  · rintro p hp failure hanswers hfatal o (h | h)
    · exact longestOf_returns_fatal hrestore hp hanswers hfatal h
    · exact longestOf_returns_fatal hrestore' (hperm.mem_iff.1 hp) hanswers hfatal h
  · intro hends
    exact ⟨longestOf_returns hrestore location hends,
      longestOf_returns hrestore' location' fun q hq => hends q (hperm.mem_iff.2 hq)⟩

end

end Parser

theorem Grammar.restoresOptions {G : Grammar V} (hclients : ∀ p ∈ G, p.Clients Action.KeepsOptions)
    (hp : p ∈ G) (input : List (Token V)) : (p.body G.rules input).RestoresOptions G.rules :=
  fun _ _ _ _ h => h.config hclients (Grammar.body_only hp (hclients p hp) input)

def takes : List (Parser Int64) := [Leaf.take 1 1, Leaf.take 2 2, Leaf.take 2 1]

def takesGrammar : Grammar Int64 :=
  .ofList (fun _ => none) takes (by simp [takes, Parser.parts, Leaf.take])
    (by simp [takes, Parser.Clients, Leaf.take, Action.succeed, Action.Only])

/-- The last two leaves tie, and each order takes the one that it lists first. -/
theorem takes_perm : ∃ m m',
    Parser.LeftmostLongest (fun _ => none) (Token.ofTexts ["a", "b"]) 1 .initial takes m ∧
    Parser.LeftmostLongest (fun _ => none) (Token.ofTexts ["a", "b"]) 1 .initial
      takes.reverse m' ∧
    m.consumed = m'.consumed ∧ m.produced.length = 2 ∧ m'.produced.length = 1 := by
  have hclients : ∀ p ∈ takesGrammar, p.Clients Action.KeepsOptions := by
    simp [takesGrammar, takes, Parser.Clients, Leaf.take, Action.succeed, Action.KeepsOptions,
      Action.Only]
  have hrestore : ∀ p ∈ takes,
      (p.body (fun _ => none) (Token.ofTexts ["a", "b"])).RestoresOptions (fun _ => none) :=
    fun p hp => Grammar.restoresOptions (G := takesGrammar) hclients hp _
  have hmatch : ∀ (options : List (Parser Int64)) size,
      (Parser.run (fun _ => none) 3 (.longestOf "here" options) (Token.ofTexts ["a", "b"])
        (.ofConfig .initial)).map (·.1.toOption.map (·.produced.length)) = some (some size) →
      ∃ m, (Parser.longestOf "here" options).Returns (fun _ => none) (Token.ofTexts ["a", "b"])
        (.ofConfig .initial) (.ok m) ∧ m.produced.length = size := by
    intro options size h
    obtain ⟨⟨o, ctx⟩, hrun, ho⟩ := Option.map_eq_some_iff.1 h
    cases o with
    | error failure => cases ho
    | ok m => exact ⟨m, ⟨3, ctx, hrun⟩, Option.some.inj ho⟩
  obtain ⟨m, hm, hsize⟩ := hmatch takes 2 (by decide +kernel)
  obtain ⟨m', hm', hsize'⟩ := hmatch takes.reverse 1 (by decide +kernel)
  obtain ⟨-, hboth, -⟩ := Parser.longestOf_perm hrestore (List.reverse_perm takes).symm
    "here" "here" (.ofConfig .initial)
  obtain ⟨hlength, hleft, hright, -⟩ := hboth m m' hm hm'
  exact ⟨m, m', hleft, hright, hlength, hsize, hsize'⟩

def limiting : Parser Int64 := Leaf.configuring fun config => { config with maxDepth := 1 }

/-- Where code of the grammar's author changes the options of the parse, a choice may match
in one order of its options and not in another, even if all that code always answers the
same. -/
theorem limiting_not_perm :
    (∀ p ∈ [limiting, Leaf.take 1 1], p.Clients fun a => ∃ answer, ∀ ctx x ctx' es,
      Runs (fun _ => none) a ctx x ctx' es → x = answer) ∧
    (Parser.run (fun _ => none) 4 (.longestOf "here" [limiting, .seq "one" [Leaf.take 1 1]])
      (Token.ofTexts ["a"]) (.ofConfig .initial)).map (Event.failure? ·.1) =
        some (some (.stackOverflow 1 1 (some (.atIndex 0)))) ∧
    (Parser.run (fun _ => none) 4 (.longestOf "here" [.seq "one" [Leaf.take 1 1], limiting])
      (Token.ofTexts ["a"]) (.ofConfig .initial)).map (·.1.toOption) =
        some (some ⟨1, Token.ofTexts ["a"]⟩) := by
  refine ⟨?_, by decide +kernel⟩
  simp only [List.forall_mem_cons, limiting, Leaf.configuring, Leaf.take, Parser.Clients]
  refine ⟨fun input => ⟨.ok .nothing, fun ctx x ctx' es h => ?_⟩,
    fun input => ⟨.ok ⟨1, input.take 1⟩, fun ctx x ctx' es h => ?_⟩, List.forall_mem_nil _⟩
  · cases h with
    | configure rest => exact (runs_done.1 rest).1
  · exact (runs_done.1 h).1

end TokenGrammar
