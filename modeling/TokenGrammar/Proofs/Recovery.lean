import TokenGrammar.Proofs.Alternatives
import TokenGrammar.Proofs.Unlimited

/-!
# Recovery statement by statement

An input is cut into statements where each, at its start, is either matched by a body
just to its end or is skipped just to its end after the body has failed
(`Statement.Fits`). A repetition of the body with recovery then reads all of it, keeps
what the good statements produce and logs one failure for each bad one
(`Parser.statements_resync`).
-/

namespace TokenGrammar

variable {V : Type} [TokenValue V] {rules : Rules V}

-- ---------------------------------------------------------------------------
-- A repetition over pieces of its input
-- ---------------------------------------------------------------------------

structure Piece (V : Type) where
  tokens : List (Token V)
  produced : List (Token V)
  logged : List Failure

inductive Parser.ReadsPieces (rules : Rules V) (item : Parser V) : List (Piece V) → Prop
  | nil : ReadsPieces rules item []
  | cons {piece : Piece V} (hne : piece.tokens ≠ [])
      (hitem : (item.body rules (piece.tokens ++ later.flatMap (·.tokens))).ComesTo rules
        (.ok ⟨piece.tokens.length, piece.produced⟩) piece.logged)
      (rest : ReadsPieces rules item later) : ReadsPieces rules item (piece :: later)

namespace Parser

open TokenGrammar.Action (ComesTo)

theorem repeatFrom_comesTo {item : Parser V} {pieces : List (Piece V)}
    (h : item.ReadsPieces rules pieces) {input : List (Token V)} (front : List (Token V))
    (sofar : Match V) (hinput : input = front ++ pieces.flatMap (·.tokens))
    (hsofar : sofar.consumed = front.length)
    (hbudget : (pieces.flatMap (·.tokens)).length ≤ budget) (label : String) (count : Nat) :
    (repeatFrom label 0 none item input budget count sofar).ComesTo rules
      (.ok ⟨input.length, sofar.produced ++ pieces.flatMap (·.produced)⟩)
      (pieces.flatMap (·.logged)) := by
  induction h generalizing front sofar budget count with
  | nil =>
    have hend : endRepetition label 0 input count sofar =
        Action.succeed ⟨input.length, sofar.produced⟩ := by
      have hlength : input.length = sofar.consumed := by simp [hinput, hsofar]
      rw [hlength]
      exact if_neg (Nat.not_lt_zero count)
    have hstop : repeatFrom label 0 none item input budget count sofar =
        endRepetition label 0 input count sofar := by
      cases budget with
      | zero => rfl
      | succ budget => simp [repeatFrom, hinput, hsofar]
    rw [hstop, hend, List.flatMap_nil, List.append_nil]
    exact ComesTo.done
  | @cons later piece hne hitem rest ih =>
    obtain ⟨budget, rfl⟩ : ∃ n, budget = n + 1 := by
      have hpos := List.length_pos_iff.2 hne
      simp only [List.flatMap_cons, List.length_append] at hbudget
      exact Nat.exists_eq_add_one.2 (by omega)
    have hmore : ¬ input.length ≤ sofar.consumed := by
      have hpos := List.length_pos_iff.2 hne
      simp only [hinput, hsofar, List.flatMap_cons, List.length_append]
      omega
    have hdrop : input.drop sofar.consumed = piece.tokens ++ later.flatMap (·.tokens) := by
      simp [hinput, hsofar]
    rw [repeatFrom, if_neg (by simpa using hmore), hdrop]
    refine ComesTo.call hitem ?_
    have hconsumed : piece.tokens.length ≠ 0 := mt List.length_eq_zero_iff.1 hne
    simp only [if_neg hconsumed]
    have hrest : (later.flatMap (·.tokens)).length ≤ budget := by
      have hpos := List.length_pos_iff.2 hne
      simp only [List.flatMap_cons, List.length_append] at hbudget
      omega
    have hnext := ih (front ++ piece.tokens) (sofar ++ ⟨piece.tokens.length, piece.produced⟩)
      (by simpa using hinput) (by simp [← hsofar]; rfl) hrest (count + 1)
    rw [List.flatMap_cons, ← List.append_assoc]
    exact hnext

theorem zeroOrMore_comesTo {item : Parser V} {pieces : List (Piece V)}
    (h : item.ReadsPieces rules pieces) (label : String) :
    ((zeroOrMore label item).body rules (pieces.flatMap (·.tokens))).ComesTo rules
      (.ok ⟨(pieces.flatMap (·.tokens)).length, pieces.flatMap (·.produced)⟩)
      (pieces.flatMap (·.logged)) :=
  ComesTo.traced (repeatFrom_comesTo h [] .nothing rfl rfl (Nat.le_refl _) label 0)

-- ---------------------------------------------------------------------------
-- One recovery
-- ---------------------------------------------------------------------------

/-- Resynchronizing goes on to the end of the leftmost match, or to the end of the input
where the match is nowhere before it. -/
theorem resync_comesTo {skipUntil : Parser V} {input : List (Token V)}
    (hbefore : ∀ j < i, ∃ f, skipUntil.Reads rules (input.drop j) (.error f))
    (hmatch : skipUntil.Reads rules (input.drop i) (.ok m))
    (hend : i + m.consumed ≤ input.length) (behind : Nat) :
    (resync skipUntil input behind).ComesTo rules (.ok ⟨behind + (i + m.consumed), []⟩) [] := by
  induction input generalizing i behind with
  | nil =>
    obtain ⟨hi, hm⟩ : i = 0 ∧ m.consumed = 0 := by simpa using hend
    rw [hi, hm]
    exact ComesTo.done
  | cons token rest ih =>
    cases i with
    | zero =>
      rw [Nat.zero_add]
      exact ComesTo.call hmatch.comesTo ComesTo.done
    | succ i =>
      obtain ⟨f, hfirst⟩ := hbefore 0 (Nat.zero_lt_succ i)
      have hrest := ih (i := i) (fun j hj => hbefore (j + 1) (Nat.succ_lt_succ hj)) hmatch
        (by rw [List.length_cons] at hend; omega) (behind + 1)
      rw [show behind + (i + 1 + m.consumed) = behind + 1 + (i + m.consumed) by omega]
      exact ComesTo.call hfirst.comesTo hrest

section
variable {search body skipUntil : Parser V} {input : List (Token V)} {found : Match V}
  (hsearch : search.Reads rules input (.ok found))
include hsearch

theorem recover_of_match (hbody : body.Reads rules input (.ok m)) :
    ((recover search body skipUntil).body rules input).ComesTo rules (.ok m) [] :=
  ComesTo.traced <| ComesTo.guarded (ComesTo.parse hsearch.comesTo) <|
    ComesTo.guarded (ComesTo.parse hbody.comesTo) ComesTo.done

theorem recover_of_failure {failure : Failure}
    (hbody : body.Reads rules input (.error failure))
    (hresync : (resync skipUntil input 0).ComesTo rules o []) :
    ((recover search body skipUntil).body rules input).ComesTo rules o
      [failure.orAt (firstPos input)] :=
  ComesTo.traced <| ComesTo.guarded (ComesTo.parse hsearch.comesTo) <|
    ComesTo.guarded (ComesTo.parse hbody.comesTo) <|
      ComesTo.logFailure <| ComesTo.traced hresync

end

end Parser

-- ---------------------------------------------------------------------------
-- Statements
-- ---------------------------------------------------------------------------

/-- The tokens of a statement, with what a body produces on them or why it fails. -/
structure Statement (V : Type) where
  tokens : List (Token V)
  result : Except Failure (List (Token V))

namespace Statement

omit [TokenValue V] in
def produced (s : Statement V) : List (Token V) :=
  match s.result with
  | .ok tokens => tokens
  | .error _ => []

def failure? (s : Statement V) : Option Failure :=
  match s.result with
  | .ok _ => none
  | .error failure => some (failure.orAt (firstPos s.tokens))

def piece (s : Statement V) : Piece V := ⟨s.tokens, s.produced, s.failure?.toList⟩

/-- Whether a statement, with `rest` after it, is either matched by `body` just to its
end, or refused by `body` while the leftmost match of `skipUntil` ends where it does. -/
inductive Fits (rules : Rules V) (search body skipUntil : Parser V) (rest : List (Token V)) :
    Statement V → Prop
  | good {text values : List (Token V)} (hsearch : search.Reads rules (text ++ rest) (.ok found))
      (hbody : body.Reads rules (text ++ rest) (.ok ⟨text.length, values⟩)) :
      Fits rules search body skipUntil rest ⟨text, .ok values⟩
  | bad {text : List (Token V)} {failure : Failure}
      (hsearch : search.Reads rules (text ++ rest) (.ok found))
      (hbody : body.Reads rules (text ++ rest) (.error failure))
      (hbefore : ∀ j < i, ∃ f, skipUntil.Reads rules ((text ++ rest).drop j) (.error f))
      (hmatch : skipUntil.Reads rules ((text ++ rest).drop i) (.ok m))
      (hend : i + m.consumed = text.length) :
      Fits rules search body skipUntil rest ⟨text, .error failure⟩

/-- Whether each statement is nonempty and fits where it stands. -/
inductive AllFit (rules : Rules V) (search body skipUntil : Parser V) : List (Statement V) → Prop
  | nil : AllFit rules search body skipUntil []
  | cons {s : Statement V} (hne : s.tokens ≠ [])
      (hfits : s.Fits rules search body skipUntil (later.flatMap (·.tokens)))
      (rest : AllFit rules search body skipUntil later) :
      AllFit rules search body skipUntil (s :: later)

variable {search body skipUntil : Parser V}

theorem Fits.recover_comesTo {s : Statement V} {rest : List (Token V)} (hne : s.tokens ≠ [])
    (h : s.Fits rules search body skipUntil rest) :
    ((Parser.recover search body skipUntil).body rules (s.tokens ++ rest)).ComesTo rules
      (.ok ⟨s.tokens.length, s.produced⟩) s.failure?.toList := by
  cases h with
  | good hsearch hbody => exact Parser.recover_of_match hsearch hbody
  | @bad _ i m text failure hsearch hbody hbefore hmatch hend =>
    have hresync := Parser.resync_comesTo hbefore hmatch
      (by rw [hend, List.length_append]; exact Nat.le_add_right ..) 0
    rw [Nat.zero_add, hend] at hresync
    have hplace : firstPos (text ++ rest) = firstPos text := by
      cases text with
      | nil => contradiction
      | cons token text => rfl
    have hrecover := Parser.recover_of_failure hsearch hbody hresync
    rw [hplace] at hrecover
    exact hrecover

omit [TokenValue V] in
@[simp] theorem flatMap_piece_tokens (statements : List (Statement V)) :
    (statements.map piece).flatMap (·.tokens) = statements.flatMap (·.tokens) :=
  List.flatMap_map ..

theorem AllFit.readsPieces {statements : List (Statement V)}
    (h : AllFit rules search body skipUntil statements) :
    (Parser.recover search body skipUntil).ReadsPieces rules (statements.map piece) := by
  induction h with
  | nil => exact .nil
  | cons hne hfits _ ih =>
    refine .cons hne ?_ ih
    rw [flatMap_piece_tokens]
    exact hfits.recover_comesTo hne

omit [TokenValue V] in
theorem failure?_eq_none_iff {s : Statement V} :
    s.failure? = none ↔ ∃ values, s.result = .ok values := by
  cases h : s.result <;> simp [failure?, h]

omit [TokenValue V] in
theorem filterMap_failure? (statements : List (Statement V)) :
    (statements.map piece).flatMap (·.logged) = statements.filterMap failure? := by
  induction statements with
  | nil => rfl
  | cons s later ih =>
    cases h : s.failure? <;> simp_all [piece]

end Statement

/-- Where depth has no limit and the input is cut into statements that fit, evaluating a
repetition of the body with recovery reads all of it. The results are what the good
statements produce, the log has one failure for each bad one, both in order, and the
evaluation succeeds where no statement is bad. -/
theorem Parser.statements_resync {search body skipUntil : Parser V}
    {statements : List (Statement V)}
    (h : Statement.AllFit rules search body skipUntil statements) (ctx : Context V)
    (hctx : ctx.config.maxDepth = 0) (label : String) :
    ∃ n answer ended,
      evaluate rules n (.zeroOrMore label (.recover search body skipUntil))
        (statements.flatMap (·.tokens)) ctx = some (answer, ended) ∧
      ended.pos = (statements.flatMap (·.tokens)).length ∧ ended.remained = [] ∧
      ended.results = statements.flatMap (·.produced) ∧
      ended.failures.toList = statements.filterMap (·.failure?) ∧
      ((∃ values, answer = .ok values) ↔ ∀ s ∈ statements, ∃ values, s.result = .ok values) := by
  obtain ⟨ctx', es, hruns, -, hlogged⟩ := zeroOrMore_comesTo h.readsPieces label ctx.reset hctx
  obtain ⟨n, hrun⟩ := parses_iff_run.1 ⟨_, es, hruns, rfl⟩
  have hfailures : ctx'.failures.toList = statements.filterMap (·.failure?) := by
    rw [hruns.failures, hlogged, Statement.filterMap_failure?]
    rfl
  rw [Statement.flatMap_piece_tokens] at hrun
  refine ⟨n, _, _, evaluate_of_match hrun, ?_, ?_, ?_, hfailures, ?_⟩
  · simp [Context.finish]
  · simp [Context.finish]
  · exact List.flatMap_map ..
  · simp only [← Statement.failure?_eq_none_iff, ← List.filterMap_eq_nil_iff, hfailures]
    split <;> simp_all

def letter : Parser Int64 :=
  Leaf.plain "a" "" fun t => if t.raw = "a" then Leaf.one t else .error (.notMatch "a" "" none)

def letters : List (Statement Int64) :=
  [⟨[.ofRaw "a" 0], .ok [.ofRaw "a" 0]⟩,
    ⟨[.ofRaw "b" 1, .ofRaw ";" 2], .error (.notMatch "a" "" none)⟩,
    ⟨[.ofRaw "a" 3], .ok [.ofRaw "a" 3]⟩]

/-- The second of three statements is bad, and its failure is logged where it starts. -/
theorem letters_resync : ∃ n answer ended,
    Parser.evaluate (fun _ => none) n
      (.zeroOrMore "all" (.recover (Leaf.ofKind "raw") letter (Leaf.punctuation ";")))
      (letters.flatMap (·.tokens)) (.ofConfig ⟨0, false, .safe, false⟩) =
        some (answer, ended) ∧
    ended.remained = [] ∧ ended.results = [.ofRaw "a" 0, .ofRaw "a" 3] ∧
    ended.failures.toList = [.notMatch "a" "" (some (.atIndex 1))] ∧
    ¬ ∃ values, answer = .ok values := by
  have hsearch : ∀ text i (rest : List (Token Int64)),
      (Leaf.ofKind "raw").Reads (fun _ => none) (.ofRaw text i :: rest)
        (Leaf.one (.ofRaw text i)) :=
    fun text i rest => Leaf.plain_reads _ _ _ _
  have hletter : ∀ text i (rest : List (Token Int64)),
      letter.Reads (fun _ => none) (.ofRaw text i :: rest)
        (if text = "a" then Leaf.one (.ofRaw text i) else .error (.notMatch "a" "" none)) :=
    fun text i rest => Leaf.plain_reads _ _ _ _
  have hskip : ∀ text i (rest : List (Token Int64)),
      (Leaf.punctuation ";").Reads (fun _ => none) (.ofRaw text i :: rest)
        (if text = ";" then Leaf.dropOne else .error (.notMatch ";" "" none)) :=
    fun text i rest => Leaf.plain_reads _ _ _ _
  have hfit : Statement.AllFit (fun _ => none) (Leaf.ofKind "raw") letter (Leaf.punctuation ";")
      letters :=
    .cons (by simp) (.good (hsearch _ _ _) (hletter "a" 0 _)) <|
      .cons (by simp) (.bad (i := 1) (hsearch _ _ _) (hletter "b" 1 _)
        (by simpa using ⟨_, hskip "b" 1 _⟩) (hskip ";" 2 _) rfl) <|
      .cons (by simp) (.good (hsearch _ _ _) (hletter "a" 3 _)) .nil
  obtain ⟨n, answer, ended, heval, -, hremained, hresults, hfailures, hok⟩ :=
    Parser.statements_resync hfit (.ofConfig ⟨0, false, .safe, false⟩) rfl "all"
  refine ⟨n, answer, ended, heval, hremained, hresults, hfailures, ?_⟩
  rw [hok]
  simp [letters]

def limitingCheck : Parser Int64 := Leaf.configuring ({ · with maxDepth := 1 })

/-- Where what is checked before a statement sets a limit on depth, the guard refuses the
statement and the resynchronization: of one good statement nothing is read. That each of the
three parsers answers by its tokens alone and logs nothing does not help. -/
theorem limitingCheck_not_resynced :
    (∀ (input : List (Token Int64)) ctx, ∃ ctx',
      Parser.run (fun _ => none) 1 limitingCheck input ctx = some (.ok .nothing, ctx') ∧
        ctx'.failures = ctx.failures) ∧
    (∀ (input : List (Token Int64)) consumed produced ctx,
      Parser.run (fun _ => none) 1 (Leaf.take consumed produced) input ctx =
        some (.ok ⟨consumed, input.take produced⟩, ctx)) ∧
    (Parser.evaluate (fun _ => none) 4
      (.zeroOrMore "all" (.recover limitingCheck (Leaf.take 1 1) (Leaf.take 1 0)))
      (Token.ofTexts ["a"]) (.ofConfig ⟨0, false, .safe, false⟩)).map
        (fun (answer, ended) => (answer.toOption, ended.pos, ended.failures)) =
      some (none, 0, #[.stackOverflow 2 1 (some (.atIndex 0)),
        .stackOverflow 2 1 (some (.atIndex 0))]) := by
  refine ⟨fun _ _ => ⟨_, rfl, rfl⟩, fun _ _ _ _ => rfl, ?_⟩
  decide +kernel

end TokenGrammar
