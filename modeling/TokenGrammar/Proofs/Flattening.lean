import TokenGrammar.Leaf
import TokenGrammar.Proofs.Trials

/-!
# Choices among choices

A choice among choices of its own mode comes to what the outcomes of all their options tell:
the one that ends a group ends the choice (`Parser.find?_conclude`), the match picked of those
that the groups have picked is the match picked of all (`Parser.pick_flatten`), and a join of
joins has their leaves. So without a limit on depth the groups may be taken apart
(`Parser.choice_flattened`).
-/

namespace TokenGrammar

variable {V : Type}

/-- Whether two outcomes are the same, or else recoverable failures with the same leaves. -/
inductive Outcome.Agrees : Outcome V → Outcome V → Prop
  | matched (m : Match V) : Agrees (.ok m) (.ok m)
  | aborted {failure : Failure} (h : failure.isRecoverable = false) :
    Agrees (.error failure) (.error failure)
  | mismatched {failure failure' : Failure} (h : failure.isRecoverable = true)
    (h' : failure'.isRecoverable = true) (hleaves : failure'.leaves = failure.leaves) :
    Agrees (.error failure) (.error failure')

namespace Parser

variable {mode : ChoiceMode} {place : Option Position}

-- ---------------------------------------------------------------------------
-- The longest match of the longest matches
-- ---------------------------------------------------------------------------

theorem longer_assoc (best : Option (Match V)) (m m' : Match V) :
    longer (some (longer best m)) m' = longer best (longer (some m) m') := by
  cases best with
  | none => rfl
  | some b =>
    simp only [longer]
    split_ifs <;> first | rfl | omega

theorem longestOf?_some (best : Option (Match V)) (m : Match V) (ms : List (Match V)) :
    longestOf? (some (longer best m)) ms = (longestOf? (some m) ms).map (longer best) := by
  induction ms generalizing m with
  | nil => rfl
  | cons m' ms ih =>
    show longestOf? (some (longer (some (longer best m)) m')) ms = _
    rw [longer_assoc, ih]
    rfl

theorem longestOf?_append (best : Option (Match V)) (ms later : List (Match V)) :
    longestOf? best (ms ++ later) = longestOf? (longestOf? best ms) later :=
  List.foldl_append

theorem longestOf?_flatten (best : Option (Match V)) (mss : List (List (Match V))) :
    longestOf? best (mss.filterMap (longestOf? none)) = longestOf? best mss.flatten := by
  induction mss generalizing best with
  | nil => rfl
  | cons ms mss ih =>
    rw [List.flatten_cons, longestOf?_append, ← ih]
    cases ms with
    | nil => rfl
    | cons m ms =>
      obtain ⟨b, hb⟩ := Option.isSome_iff_exists.1 (longestOf?_isSome m ms)
      have hgroup : longestOf? none (m :: ms) = some b := hb
      have hall : longestOf? best (m :: ms) = some (longer best b) := by
        show longestOf? (some (longer best m)) ms = _
        rw [longestOf?_some, hb, Option.map_some]
      rw [List.filterMap_cons_some hgroup, hall]
      rfl

theorem pick_flatten (mode : ChoiceMode) (mss : List (List (Match V))) :
    pick mode (mss.filterMap (pick mode)) = pick mode mss.flatten := by
  cases mode with
  | safe => exact longestOf?_flatten none mss
  | fast | tryFast =>
    simp only [pick, List.head?_filterMap, List.head?_flatten]
    rfl

-- ---------------------------------------------------------------------------
-- What groups come to
-- ---------------------------------------------------------------------------

section
variable {groups : List (List (Outcome V))}

theorem endChoice_of_ne (hmode : mode ≠ .tryFast) (location : String) (place : Option Position)
    (outcomes : List (Outcome V)) :
    endChoice mode location place outcomes = .done (conclude mode place outcomes) := by
  simp [endChoice, finding?, hmode]

theorem isRecoverable_joined {outcomes : List (Outcome V)} (hne : outcomes ≠ [])
    (hgo : outcomes.find? mode.endsOn = none) (hpick : pick mode (matchesOf outcomes) = none)
    (place : Option Position) :
    (Failure.join (failuresOf outcomes) place).isRecoverable = true := by
  have hends := endsOn_conclude mode place hne
  rw [conclude_of_find? hgo, hpick] at hends
  exact endsOn_of_error (hends.trans (by simpa using hgo))

theorem find?_conclude (hne : ∀ outcomes ∈ groups, outcomes ≠ []) :
    (groups.map (conclude mode place)).find? mode.endsOn = groups.flatten.find? mode.endsOn := by
  induction groups with
  | nil => rfl
  | cons outcomes groups ih =>
    obtain ⟨hfirst, hrest⟩ := List.forall_mem_cons.1 hne
    rw [List.map_cons, List.find?_cons, List.flatten_cons, List.find?_append, ih hrest,
      endsOn_conclude mode place hfirst, ← List.isSome_find?]
    cases hfound : outcomes.find? mode.endsOn with
    | some o => simp [conclude, hfound]
    | none => rfl

theorem matchesOf_conclude (hgo : ∀ outcomes ∈ groups, outcomes.find? mode.endsOn = none) :
    matchesOf (groups.map (conclude mode place)) =
      (groups.map matchesOf).filterMap (pick mode) := by
  rw [matchesOf, List.filterMap_map, List.filterMap_map]
  refine List.filterMap_congr fun outcomes houtcomes => ?_
  simp only [Function.comp_apply, conclude_of_find? (hgo outcomes houtcomes)]
  cases pick mode (matchesOf outcomes) <;> rfl

theorem failuresOf_conclude (hgo : ∀ outcomes ∈ groups, outcomes.find? mode.endsOn = none)
    (hfail : ∀ outcomes ∈ groups, matchesOf outcomes = []) :
    failuresOf (groups.map (conclude mode place)) =
      groups.map fun outcomes => .join (failuresOf outcomes) place := by
  rw [failuresOf, List.filterMap_map, ← List.filterMap_eq_map]
  refine List.filterMap_congr fun outcomes houtcomes => ?_
  simp only [Function.comp_apply, conclude_of_find? (hgo outcomes houtcomes),
    pick_eq_none.2 (hfail outcomes houtcomes)]
  rfl

theorem matchesOf_flatten (groups : List (List (Outcome V))) :
    matchesOf groups.flatten = (groups.map matchesOf).flatten := List.filterMap_flatten

theorem failuresOf_flatten (groups : List (List (Outcome V))) :
    failuresOf groups.flatten = (groups.map failuresOf).flatten := List.filterMap_flatten

theorem leaves_joined (hgo : ∀ outcomes ∈ groups, outcomes.find? mode.endsOn = none)
    (hfail : ∀ outcomes ∈ groups, matchesOf outcomes = []) :
    (Failure.join (failuresOf groups.flatten) place).leaves =
      (Failure.join (failuresOf (groups.map (conclude mode place))) place).leaves := by
  simp only [Failure.leaves_join, failuresOf_conclude hgo hfail, failuresOf_flatten,
    List.flatMap_def, List.map_map, List.map_flatten, List.flatten_flatten, Function.comp_def]

/-- A choice among groups, each of which has an outcome, comes to the same as a choice among
all of them. -/
theorem conclude_flatten (hne : ∀ outcomes ∈ groups, outcomes ≠ []) :
    (conclude mode place (groups.map (conclude mode place))).Agrees
      (conclude mode place groups.flatten) := by
  have hsame : (groups.map (conclude mode place)).find? mode.endsOn =
      groups.flatten.find? mode.endsOn := find?_conclude hne
  cases hfound : groups.flatten.find? mode.endsOn with
  | some o =>
    rw [conclude, conclude, hsame, hfound]
    have hends := List.find?_some hfound
    cases o with
    | ok m => exact .matched m
    | error failure => exact .aborted (by simpa [ChoiceMode.endsOn] using hends)
  | none =>
    -- No group has been cut short, so the groups hold an outcome of every option.
    rw [hfound] at hsame
    have hgo : ∀ outcomes ∈ groups, outcomes.find? mode.endsOn = none := by
      simpa [List.find?_eq_none] using hfound
    have hpick : pick mode (matchesOf (groups.map (conclude mode place))) =
        pick mode (matchesOf groups.flatten) := by
      rw [matchesOf_conclude hgo, pick_flatten, matchesOf_flatten]
    rw [conclude_of_find? hsame, conclude_of_find? hfound, hpick]
    cases hpicked : pick mode (matchesOf groups.flatten) with
    | some m => exact .matched m
    | none =>
      have hfail : ∀ outcomes ∈ groups, matchesOf outcomes = [] := by
        simpa [matchesOf_flatten] using pick_eq_none.1 hpicked
      cases groups with
      | nil =>
        have hnone : (Failure.join [] place).isRecoverable = false :=
          Bool.eq_false_iff.2 fun h => by simpa using (Failure.isRecoverable_join [] place).1 h
        exact .aborted hnone
      | cons outcomes groups =>
        have hall : (outcomes :: groups).flatten ≠ [] := by simp [hne outcomes]
        exact .mismatched
          (isRecoverable_joined (List.cons_ne_nil _ _) hsame (hpick.trans hpicked) place)
          (isRecoverable_joined hall hfound hpicked place) (leaves_joined hgo hfail)

end

-- ---------------------------------------------------------------------------
-- Runs
-- ---------------------------------------------------------------------------

variable [TokenValue V] {G : Grammar V}

theorem trial_endsAlike (hclients : ∀ p ∈ G, p.Clients Action.SetsNoLimit)
    {options : List (Parser V)} (hoptions : ∀ p ∈ options, p ∈ G) (input : List (Token V)) :
    Action.EndsAlike G.rules Context.Beside (trial mode input options) (trial mode input options)
      fun outcomes outcomes' c c' =>
        (outcomes' = outcomes ∧ (options ≠ [] → outcomes ≠ [])) ∧ c.Beside c' := by
  induction options with
  | nil => exact .of_done fun c c' hc => ⟨⟨rfl, fun h => absurd rfl h⟩, hc⟩
  | cons option options ih =>
    obtain ⟨hoption, hrest⟩ := List.forall_mem_cons.1 hoptions
    rw [trial_cons]
    refine .bind (Grammar.parse_endsAlike hclients hoption input) fun o o' => .of_fact ?_
    rintro rfl
    split
    · exact .of_done fun c c' hc => ⟨⟨rfl, fun _ => List.cons_ne_nil _ _⟩, hc⟩
    · refine .bind (ih hrest) fun outcomes outcomes' => .of_fact ?_
      rintro ⟨rfl, -⟩
      exact .of_done fun c c' hc => ⟨⟨rfl, fun _ => List.cons_ne_nil _ _⟩, hc⟩

/-- A choice comes to what the outcomes of its options tell, which may be tried elsewhere. -/
theorem choice_endsAlike (hclients : ∀ p ∈ G, p.Clients Action.SetsNoLimit)
    (hmode : mode ≠ .tryFast) (location : String) {options : List (Parser V)} (hne : options ≠ [])
    (hoptions : ∀ p ∈ options, p ∈ G) (input : List (Token V)) :
    Action.EndsAlike G.rules Context.Beside (.parse (.choice location (some mode) options) input)
      (trial mode input options) fun o outcomes c c' =>
        (outcomes ≠ [] ∧ o = conclude mode (firstPos input) outcomes) ∧ c.Beside c' := by
  have hregion : Action.EndsAlike G.rules Context.Beside (choose location options input mode)
      (trial mode input options) fun o outcomes c c' =>
        (outcomes ≠ [] ∧ o = conclude mode (firstPos input) outcomes) ∧ c.Beside c' := by
    rw [choose_eq, ← Action.bind_done (trial mode input options), Action.bind_assoc]
    refine .bind (trial_endsAlike hclients hoptions input) fun outcomes outcomes' => .of_fact ?_
    rintro ⟨rfl, houtcomes⟩
    show Action.EndsAlike _ _ (endChoice mode location (firstPos input) outcomes') _ _
    rw [endChoice_of_ne hmode]
    exact .of_done fun c c' hc => ⟨⟨houtcomes hne, rfl⟩, hc⟩
  exact (hregion.traced_left_of_beside "or" input).step (fun _ _ _ => Action.leads_parse_iff)
    (fun _ _ _ => Iff.rfl) fun c c' hc => hc

def choices (mode : ChoiceMode) (groups : List (String × List (Parser V))) : List (Parser V) :=
  groups.map fun group => .choice group.1 (some mode) group.2

theorem groups_endsAlike (hclients : ∀ p ∈ G, p.Clients Action.SetsNoLimit)
    (hmode : mode ≠ .tryFast) {groups : List (String × List (Parser V))}
    (hne : ∀ group ∈ groups, group.2 ≠ []) (hoptions : ∀ group ∈ groups, ∀ p ∈ group.2, p ∈ G)
    (input : List (Token V)) :
    Action.EndsAlike G.rules Context.Beside (trial mode input (choices mode groups))
      (trial mode input (groups.flatMap (·.2))) fun outcomes all c c' =>
        (∃ tried : List (List (Outcome V)), (∀ outcomes ∈ tried, outcomes ≠ []) ∧
          outcomes = tried.map (conclude mode (firstPos input)) ∧ all = tried.flatten) ∧
        c.Beside c' := by
  induction groups with
  | nil => exact .of_done fun c c' hc => ⟨⟨[], by simp, rfl, rfl⟩, hc⟩
  | cons group groups ih =>
    obtain ⟨hfirst, hrest⟩ := List.forall_mem_cons.1 hne
    obtain ⟨hfirstOptions, hrestOptions⟩ := List.forall_mem_cons.1 hoptions
    rw [choices, List.map_cons, trial_cons, List.flatMap_cons, trial_append]
    refine .bind (choice_endsAlike hclients hmode group.1 hfirst hfirstOptions input)
      fun o outcomes => .of_fact ?_
    rintro ⟨houtcomes, rfl⟩
    rw [endsOn_conclude mode (firstPos input) houtcomes]
    split
    · exact .of_done fun c c' hc => ⟨⟨[outcomes], by simpa using houtcomes, rfl, by simp⟩, hc⟩
    · refine .bind (ih hrest hrestOptions) fun later all => .of_fact ?_
      rintro ⟨tried, htried, rfl, rfl⟩
      exact .of_done fun c c' hc =>
        ⟨⟨outcomes :: tried, List.forall_mem_cons.2 ⟨houtcomes, htried⟩, rfl, rfl⟩, hc⟩

/-- A choice of choices in its own mode may be taken apart into one choice of all their
options: without a limit on depth the two end together, in the same context but for the trace,
with the same match or the same unrecoverable failure, or with recoverable failures that have
the same leaves. -/
theorem choice_flattened (hclients : ∀ p ∈ G, p.Clients Action.SetsNoLimit)
    (hmode : mode ≠ .tryFast) (location location' : String)
    {groups : List (String × List (Parser V))} (hne : ∀ group ∈ groups, group.2 ≠ [])
    (hoptions : ∀ group ∈ groups, ∀ p ∈ group.2, p ∈ G) (input : List (Token V))
    {ctx : Context V} (hlimit : ctx.config.maxDepth = 0) :
    ((∃ n, (run G.rules n (.choice location (some mode) (choices mode groups)) input
        ctx).isSome) ↔
      ∃ n, (run G.rules n (.choice location' (some mode) (groups.flatMap (·.2))) input
        ctx).isSome) ∧
    ∀ m n o o' c c',
      run G.rules m (.choice location (some mode) (choices mode groups)) input ctx =
        some (o, c) →
      run G.rules n (.choice location' (some mode) (groups.flatMap (·.2))) input ctx =
        some (o', c') →
      o.Agrees o' ∧ c' = { c with traces := c'.traces } := by
  have hregion : Action.EndsAlike G.rules Context.Beside
      (choose location (choices mode groups) input mode)
      (choose location' (groups.flatMap (·.2)) input mode)
      fun o o' c c' => o.Agrees o' ∧ c.Beside c' := by
    rw [choose_eq, choose_eq]
    refine .bind (groups_endsAlike hclients hmode hne hoptions input) fun outcomes all =>
      .of_fact ?_
    rintro ⟨tried, htried, rfl, rfl⟩
    rw [endChoice_of_ne hmode, endChoice_of_ne hmode]
    exact .of_done fun c c' hc => ⟨conclude_flatten htried, hc⟩
  have hends := (hregion.traced_left_of_beside "or" input).traced_right "or" input
    (fun _ _ depth traces hc => ⟨hc.unlimited_right, hc.apart_right rfl depth traces⟩)
    fun _ _ _ _ depth traces hc => ⟨hc.1, hc.2.apart_right rfl depth traces⟩
  have hctx : ctx.Beside ctx := .refl hlimit
  refine ⟨?_, fun m n o o' c c' hrun hrun' => ?_⟩
  · simp only [exists_isSome_iff]
    exact hends.ends_iff hctx
  · obtain ⟨hagrees, hc⟩ :=
      hends.related hctx (exists_run_iff.1 ⟨m, hrun⟩) (exists_run_iff.1 ⟨n, hrun'⟩)
    obtain ⟨_, hruns⟩ := runs_of_run hrun
    obtain ⟨_, hruns'⟩ := runs_of_run hrun'
    exact ⟨hagrees, hc.eq_withTraces rfl hc.config.1.symm (hruns'.depth.trans hruns.depth.symm)⟩

end Parser

def shortAndLong : List (String × List (Parser Int64)) :=
  [("short", [.expected "none", Leaf.take 1 1]), ("long", [Leaf.take 2 2, Leaf.take 2 1])]

def shortOrLong : Grammar Int64 :=
  .ofList (fun _ => none) (shortAndLong.flatMap (·.2))
    (by simp [shortAndLong, Parser.parts, Leaf.take])
    (by simp [shortAndLong, Parser.Clients, Leaf.take, Action.succeed, Action.Only])

theorem shortAndLong_flattened : ∃ o o' c c',
    Parser.run shortOrLong.rules 4 (.choice "outer" (some .safe)
      (Parser.choices .safe shortAndLong)) (Token.ofTexts ["a", "b"])
      (.ofConfig ⟨0, false, .safe, false⟩) = some (o, c) ∧
    Parser.run shortOrLong.rules 4 (.choice "all" (some .safe) (shortAndLong.flatMap (·.2)))
      (Token.ofTexts ["a", "b"]) (.ofConfig ⟨0, false, .safe, false⟩) = some (o', c') ∧
    o.toOption.map (fun m => (m.consumed, m.produced.length)) = some (2, 2) ∧ o.Agrees o' := by
  have hclients : ∀ p ∈ shortOrLong, p.Clients Action.SetsNoLimit := by
    simp [shortOrLong, shortAndLong, Parser.Clients, Leaf.take, Action.succeed,
      Action.SetsNoLimit, Action.Changes]
  have hoptions : ∀ group ∈ shortAndLong, ∀ p ∈ group.2, p ∈ shortOrLong :=
    fun group hgroup p hp => List.mem_flatMap.2 ⟨group, hgroup, hp⟩
  obtain ⟨-, hagrees⟩ := Parser.choice_flattened hclients (by decide : ChoiceMode.safe ≠ .tryFast)
    "outer" "all" (by simp [shortAndLong]) hoptions (Token.ofTexts ["a", "b"])
    (rfl : (Context.ofConfig ⟨0, false, .safe, false⟩).config.maxDepth = 0)
  have hnested : (Parser.run shortOrLong.rules 4 (.choice "outer" (some .safe)
      (Parser.choices .safe shortAndLong)) (Token.ofTexts ["a", "b"])
      (.ofConfig ⟨0, false, .safe, false⟩)).map
        (·.1.toOption.map fun m => (m.consumed, m.produced.length)) = some (some (2, 2)) := by
    decide +kernel
  have hflat : (Parser.run shortOrLong.rules 4 (.choice "all" (some .safe)
      (shortAndLong.flatMap (·.2))) (Token.ofTexts ["a", "b"])
      (.ofConfig ⟨0, false, .safe, false⟩)).isSome = true := by
    decide +kernel
  obtain ⟨⟨o, c⟩, hrun, ho⟩ := Option.map_eq_some_iff.1 hnested
  obtain ⟨⟨o', c'⟩, hrun'⟩ := Option.isSome_iff_exists.1 hflat
  exact ⟨o, o', c, c', hrun, hrun', ho, (hagrees _ _ _ _ _ _ hrun hrun').1⟩

def limitThenTwo : List (String × List (Parser Int64)) :=
  [("limit", [Leaf.configuring ({ · with maxDepth := 1 }), Leaf.take 1 1]),
    ("two", [Leaf.take 2 2])]

/-- Where code of a grammar's author sets a limit on depth, the guard may refuse a group. -/
theorem limitThenTwo_not_flattened :
    (Parser.run (fun _ => none) 4
      (.choice "outer" (some .safe) (Parser.choices .safe limitThenTwo)) (Token.ofTexts ["a", "b"])
      (.ofConfig ⟨0, false, .safe, false⟩)).map (Event.failure? ·.1) =
        some (some (.stackOverflow 1 1 (some (.atIndex 0)))) ∧
    (Parser.run (fun _ => none) 4 (.choice "all" (some .safe) (limitThenTwo.flatMap (·.2)))
      (Token.ofTexts ["a", "b"]) (.ofConfig ⟨0, false, .safe, false⟩)).map
        (·.1.toOption.map (·.consumed)) = some (some 2) := by
  constructor <;> decide +kernel

end TokenGrammar
