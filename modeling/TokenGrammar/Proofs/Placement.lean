import Mathlib.Data.List.Induction
import TokenGrammar.Leaf
import TokenGrammar.Proofs.Combinators
import TokenGrammar.Proofs.Evaluations
import TokenGrammar.Proofs.LastCall

/-!
# Failures have places

Only a sequence hands the end of its input to a part of it, and it gives a place to a
failure there that has none. So no parser fails at an unknown place on tokens that have
places, if the leaves and conversions of the grammar do not (`placement`). And a failure
at the end of the input that goes up from parser to parser as it is, but for its place,
is placed by the first sequence around it that has read a token: just past the last one.
-/

namespace TokenGrammar

-- ---------------------------------------------------------------------------
-- Places of tokens
-- ---------------------------------------------------------------------------

/-- Whether there are tokens, each of them with a place. -/
structure Token.Placed (input : List (Token V)) : Prop where
  ne_nil : input ≠ []
  pos : ∀ token ∈ input, token.pos.isSome

section
variable {V : Type} {input rest : List (Token V)}

theorem Token.Placed.suffix (h : Token.Placed input) (hrest : rest <:+ input) (hne : rest ≠ []) :
    Token.Placed rest :=
  ⟨hne, fun token htoken => h.pos token (hrest.subset htoken)⟩

theorem Token.Placed.firstPos (h : Token.Placed input) : (firstPos input).isSome := by
  cases input with
  | nil => exact absurd rfl h.ne_nil
  | cons token rest => exact h.pos token List.mem_cons_self

theorem Token.Placed.endPos (h : Token.Placed input) : (endPos input).isSome := by
  rw [TokenGrammar.endPos, Option.isSome_map, List.getLast?_eq_some_getLast h.ne_nil]
  exact h.pos _ (List.getLast_mem h.ne_nil)

theorem endPos_suffix (hrest : rest <:+ input) (hne : rest ≠ []) : endPos rest = endPos input := by
  obtain ⟨front, rfl⟩ := hrest
  rw [endPos, endPos, List.getLast?_append, List.getLast?_eq_some_getLast hne, Option.some_or]

end

-- ---------------------------------------------------------------------------
-- Every failure on placed tokens
-- ---------------------------------------------------------------------------

variable {V : Type} [TokenValue V] {rules : Rules V} {G : Grammar V}

def placement : Contract V :=
  ⟨fun _ input o => Token.Placed input → Parser.OnlyFails (·.pos.isSome) o, fun _ => True,
    fun _ => True⟩

theorem Failure.pos_orAt_isSome {f : Failure} (hplace : place.isSome) :
    (f.orAt place).pos.isSome := by
  cases hf : f.pos with
  | none => rwa [Failure.pos_orAt hf]
  | some pos => cases f <;> cases hf <;> rfl

theorem Failure.pos_join_isSome (failures : List Failure) (hplace : place.isSome) :
    (join failures place).pos.isSome := by
  cases place with
  | none => cases hplace
  | some place => rcases failures with - | ⟨first, - | ⟨second, failures⟩⟩ <;> rfl

/-- Whether the author's code gives its failures a place: conversions all of them, and
leaves those on placed tokens. -/
structure Grammar.PlacesFailures (G : Grammar V) : Prop where
  leaf : ∀ program, .leaf program ∈ G → ∀ input ctx f ctx' es, Token.Placed input →
    Runs G.rules (program input) ctx (.error f) ctx' es → f.pos.isSome
  convert : ∀ location item convert, .transform location item convert ∈ G →
    ∀ tokens ctx f ctx' es, Runs G.rules (convert tokens) ctx (.error f) ctx' es → f.pos.isSome

theorem Grammar.PlacesFailures.keeps (h : G.PlacesFailures) : G.Keeps placement := by
  intro p hp input
  by_cases hinput : Token.Placed input
  · have hfails : Parser.FailsInto placement G.rules (·.pos.isSome) p input := {
      own := fun _ => hinput.firstPos
      passed := fun q _ rest f hrest hnil hf =>
        hf (hinput.suffix hrest fun h => hinput.ne_nil (hnil h)) f rfl
      placed := fun _ _ _ _ => Failure.pos_orAt_isSome hinput.endPos
      joined := fun _ _ _ _ failures _ _ => Failure.pos_join_isSome failures hinput.firstPos
      leaf := by
        rintro program rfl ctx f ctx' es
        exact h.leaf program hp input ctx f ctx' es hinput
      converted := by
        rintro location item convert rfl
        exact h.convert location item convert hp
      logged := fun _ _ => trivial
      code := p.clients_meets fun _ => trivial }
    exact (Parser.body_failsInto hfails).mono fun o ho _ => ho
  · exact Action.meets_of_forall (fun _ => trivial) _ fun o hplaced => absurd hplaced hinput

theorem Grammar.PlacesFailures.placed (h : G.PlacesFailures) (hp : p ∈ G)
    (hinput : Token.Placed input) (hrun : Runs G.rules (p.body G.rules input) ctx o ctx' es) :
    Parser.OnlyFails (·.pos.isSome) o := by
  obtain ⟨houtcome, -⟩ := hrun.keeps h.keeps (Grammar.calls_only hp input) (h.keeps p hp input)
  exact houtcome hinput

-- ---------------------------------------------------------------------------
-- A failure at the end of the input
-- ---------------------------------------------------------------------------

section
omit [TokenValue V]

def Event.PassesUp (f : Failure) (place : Option Position) : Event V → Prop
  | .ended _ _ (.error g) => g = f ∨ g = f.orAt place
  | _ => False

theorem Event.passesUp_ended {o : Outcome V} :
    (Event.ended p input o).PassesUp f place ↔ ∃ g, o = .error g ∧ (g = f ∨ g = f.orAt place) := by
  cases o <;> simp [PassesUp]

theorem Event.getLast?_of_passesUp {es : List (Event V)} (h : ∀ e ∈ es, e.PassesUp f place)
    (hne : es ≠ []) : ∃ r rest g, es.getLast? = some (.ended r rest (.error g)) := by
  have hlast := List.getLast?_eq_some_getLast hne
  have hpasses := h _ (List.getLast_mem hne)
  cases hended : es.getLast hne with
  | ended r rest o =>
    rw [hended] at hpasses
    obtain ⟨g, rfl, -⟩ := Event.passesUp_ended.1 hpasses
    exact ⟨r, rest, g, by rw [hlast, hended]⟩
  | _ => rw [hended] at hpasses; exact hpasses.elim

theorem Event.span_eq_append {o : Outcome V}
    (h : Event.span p input o nested = before ++ .ended q [] (.error f) :: (after ++ [last])) :
    ∃ before', nested = before' ++ .ended q [] (.error f) :: after ∧ last = .ended p input o := by
  rw [span, ← List.cons_append, ← List.cons_append, ← List.append_assoc] at h
  obtain ⟨hnested, hlast⟩ := List.append_inj' h rfl
  cases before with
  | nil => cases hnested
  | cons e before =>
    obtain ⟨-, hnested⟩ := List.cons.inj hnested
    exact ⟨before, hnested, (List.cons.inj hlast).1.symm⟩

theorem Event.span_of_passesUp {o : Outcome V} (h : ∀ e ∈ es, e.PassesUp f place)
    (hes : before ++ es = front ++ Event.span r rest o nested) :
    ∃ before', Event.span r rest o nested = before' ++ es := by
  rcases List.append_eq_append_iff.1 hes with ⟨front', -, rfl⟩ | ⟨before', -, hspan⟩
  · exact (h (.started r rest) (by simp [span])).elim
  · exact ⟨before', hspan⟩

end

/-- A parser that is passed a failure from the end of the input up to it, and passes it up
itself, puts it at the end of its own input. -/
theorem Grammar.PlacesFailures.pos_of_raised (h : G.PlacesFailures) {q : Parser V} (hp : p ∈ G)
    {whole : List (Token V)} (hwhole : Token.Placed whole) (hinput : input <:+ whole)
    (hf : f.pos = none) (hrun : Runs G.rules (p.body G.rules input) ctx o ctx' nested)
    (hes : Event.span p input o nested = before ++ .ended q [] (.error f) :: after)
    (hafter : ∀ e ∈ after, e.PassesUp f place) :
    ∃ g, o = .error g ∧ (g = f ∨ g = f.orAt place) ∧ g.pos = endPos input := by
  -- The induction is on how many parsers have passed the failure up, the last one first.
  induction after using List.reverseRecOn generalizing p input ctx o ctx' nested before with
  | nil =>
    have hended : (before ++ [Event.ended q [] (.error f)]).getLast? =
        some (.ended p input o) := by
      rw [← hes, Event.getLast?_span]
    rw [List.getLast?_concat] at hended
    cases hended
    exact ⟨f, rfl, .inl rfl, hf⟩
  | append_singleton after last ih =>
    obtain ⟨hearlier, hlast⟩ := List.forall_mem_append.1 hafter
    obtain ⟨before, rfl, rfl⟩ := Event.span_eq_append hes
    -- The call that passed the failure to this parser, with what it makes of it.
    have hpasses : ∀ e ∈ Event.ended q [] (.error f) :: after, e.PassesUp f place :=
      List.forall_mem_cons.2 ⟨.inl rfl, hearlier⟩
    obtain ⟨r, rest, g, hended⟩ := Event.getLast?_of_passesUp hpasses (List.cons_ne_nil _ _)
    obtain ⟨⟨hrest, hmade⟩, hr, front, ctx₁, ctx₂, nested, hcall, hnested⟩ :=
      hrun.handsOn (Grammar.calls_only hp input) (Parser.body_handsOn G.rules p input)
        (getLast?_append_eq_some.2 (.inl hended))
    obtain ⟨before, hspan⟩ := Event.span_of_passesUp hpasses hnested
    obtain ⟨_, ⟨⟩, hg, hpos⟩ := ih hr (hrest.trans hinput) hcall hspan hearlier
    obtain ⟨g', rfl, hg'⟩ := Event.passesUp_ended.1 (hlast _ (List.mem_singleton.2 rfl))
    refine ⟨g', rfl, hg', ?_⟩
    by_cases hnil : rest = []
    · exact hmade hnil (by rw [hpos, hnil]; rfl) g' rfl
    · -- It has its place already, so that it is not passed up without one.
      have hin : Token.Placed input :=
        hwhole.suffix hinput fun hinput => hnil (List.suffix_nil.1 (hinput ▸ hrest))
      have hplaced : g'.pos.isSome := h.placed hp hin hrun g' rfl
      rw [endPos_suffix hrest hnil] at hpos
      rcases hg with rfl | rfl
      · have hend := hin.endPos
        rw [← hpos, hf] at hend
        cases hend
      · rcases hg' with rfl | rfl
        · rw [hf] at hplaced
          cases hplaced
        · exact hpos

theorem Token.placed_ofTexts {texts : List String} (htexts : texts ≠ []) :
    Token.Placed (Token.ofTexts (V := V) texts) := by
  refine ⟨by simpa [ofTexts] using htexts, fun token htoken => ?_⟩
  obtain ⟨⟨text, i⟩, -, rfl⟩ := List.mem_map.1 htoken
  rfl

theorem Token.endPos_ofTexts {texts : List String} (htexts : texts ≠ []) :
    endPos (Token.ofTexts (V := V) texts) = some (.atIndex texts.length) := by
  obtain ⟨front, last, rfl⟩ := (List.eq_nil_or_concat texts).resolve_left htexts
  simp [ofTexts, endPos, List.zipIdx_append, ofRaw, Position.past, Position.indexOnly,
    Position.atIndex]

theorem Parser.evaluate_of_failure {p : Parser V} {ctx ctx' : Context V}
    (hrun : Parser.run rules n p tokens ctx.reset = some (.error f, ctx')) :
    ∃ ended, Parser.evaluate rules n p tokens ctx =
      some (.error (.join (ctx'.failures.toList ++ [f]) none), ended) :=
  ⟨_, evaluate_of_error hrun⟩

/-- If the author's code gives its failures a place, no parser fails at an unknown place on
placed tokens. Where texts are evaluated, a failure without a place that is raised where
all of them are read, by a leaf or any other parser, and goes up to the result as it is
but for its place, is reported at the index of the end. -/
theorem Grammar.failures_placed (hG : G.PlacesFailures) (hp : p ∈ G) :
    (∀ input n ctx f ctx', Token.Placed input →
      Parser.run G.rules n p input ctx = some (.error f, ctx') → f.pos.isSome) ∧
    ∀ texts ctx o ctx' before q f after place, texts ≠ [] →
      Parses G.rules p (Token.ofTexts texts) ctx.reset o ctx'
        (before ++ .ended q [] (.error f) :: after) →
      f.pos = none → (∀ e ∈ after, e.PassesUp f place) →
      o = .error (f.orAt (some (.atIndex texts.length))) ∧
        ∃ n ended, Parser.evaluateTexts G.rules n p texts ctx = some (.error (.join
          (ctx'.failures.toList ++ [f.orAt (some (.atIndex texts.length))]) none), ended) := by
  constructor
  · intro input n ctx f ctx' hinput hrun
    obtain ⟨es, h⟩ := runs_of_run hrun
    exact hG.placed hp hinput h f rfl
  · intro texts ctx o ctx' before q f after place htexts hparse hf hafter
    have ho : o = .error (f.orAt (some (.atIndex texts.length))) := by
      obtain ⟨nested, hrun, hes⟩ := hparse
      obtain ⟨g, rfl, hg, hpos⟩ := hG.pos_of_raised hp
        (Token.placed_ofTexts htexts) (List.suffix_refl _) hf hrun hes.symm hafter
      rw [Token.endPos_ofTexts htexts] at hpos
      rcases hg with rfl | rfl
      · rw [hf] at hpos
        cases hpos
      · rw [Failure.pos_orAt hf] at hpos
        rw [hpos]
    obtain ⟨n, hn⟩ := parses_iff_run.1 ⟨_, hparse⟩
    rw [ho] at hn
    exact ⟨ho, n, Parser.evaluate_of_failure hn⟩

def anyToken : Parser Int64 := Leaf.plain "token" "" Leaf.one

def pairing : Grammar Int64 :=
  .ofList (fun _ => none)
    [.seq "pair" [anyToken, .seq "second" [anyToken]], .seq "second" [anyToken], anyToken]
    (by simp [Parser.parts, anyToken, Leaf.plain])
    (by simp [Parser.Clients, anyToken, Leaf.plain, Action.Only])

/-- The inner sequence begins where the input ends and cannot place the mismatch; the outer
one does. -/
theorem pairing_failures_placed : ∃ p ∈ pairing, ∃ n ended,
    Parser.evaluateTexts pairing.rules n p ["a"] (.ofConfig .initial) =
      some (.error (.notMatch "token" "" (some (.atIndex 1))), ended) := by
  have hleaf : ∀ program, .leaf program ∈ pairing → ∀ input ctx f ctx' es, Token.Placed input →
      Runs pairing.rules (program input) ctx (.error f) ctx' es → f.pos.isSome := by
    intro program hprogram input ctx f ctx' es hinput hrun
    simp only [pairing, anyToken, Leaf.plain, Grammar.mem_ofList, List.mem_cons, List.not_mem_nil,
      or_false, reduceCtorEq, false_or, Parser.leaf.injEq] at hprogram
    subst hprogram
    cases input with
    | nil => exact absurd rfl hinput.ne_nil
    | cons first rest => cases (runs_done.1 hrun).1
  have hconvert : ∀ location item convert, .transform location item convert ∈ pairing →
      ∀ tokens ctx f ctx' es, Runs pairing.rules (convert tokens) ctx (.error f) ctx' es →
        f.pos.isSome := by
    simp [pairing, anyToken, Leaf.plain]
  let second : Parser Int64 := .seq "second" [anyToken]
  let p : Parser Int64 := .seq "pair" [anyToken, second]
  let mismatch : Failure := .notMatch "token" "" none
  have hp : p ∈ pairing := List.mem_cons_self
  obtain ⟨o, ctx', before, hlogs, hparse⟩ : ∃ o ctx' before, ctx'.failures.toList = [] ∧
      Parses pairing.rules p (Token.ofTexts ["a"]) (Context.ofConfig .initial).reset o ctx'
        (before ++ .ended anyToken [] (.error mismatch) :: [.ended second [] (.error mismatch),
          .ended p (Token.ofTexts ["a"]) (.error (mismatch.orAt (some (.atIndex 1))))]) :=
    ⟨_, _, [.started p (Token.ofTexts ["a"]), .entered 1, .started anyToken (Token.ofTexts ["a"]),
        .invoked, .answered none, .ended anyToken (Token.ofTexts ["a"]) (Leaf.one (.ofRaw "a" 0)),
        .started second [], .entered 2, .started anyToken [], .invoked,
        .answered (some mismatch)], rfl,
      _, .guarded rfl (.clearPartials (.call (.client .done .done) <| .clearPartials <|
        .call (.guarded rfl (.clearPartials (.call (.client .done .done) (.keepPartials .done)))
          .done) (.keepPartials .done))) .done, rfl⟩
  obtain ⟨rfl, n, ended, hevaluate⟩ := (Grammar.failures_placed ⟨hleaf, hconvert⟩ hp).2 ["a"]
    (.ofConfig .initial) o ctx' before anyToken mismatch _ (some (.atIndex 1))
    (List.cons_ne_nil _ _) hparse rfl (by simp [Event.PassesUp, mismatch])
  rw [hlogs] at hevaluate
  exact ⟨p, hp, n, ended, hevaluate⟩

end TokenGrammar
