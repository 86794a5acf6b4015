import Mathlib.Data.Nat.Find
import TokenGrammar.Proofs.Segments
import TokenGrammar.Proofs.Unlimited

/-!
# A stream is cut at the leftmost matches

What `split` gives is a partition of the stream (`Partition`): each piece is passed over
up to the first place where the separator matches, and ends with what the separator
takes there. That holds of a separator whose outcome is a function of its tokens
(`Parser.Computes`); it may match nothing at all, as a match of nothing at the very
start of a piece is no place to cut.
-/

namespace TokenGrammar

variable {V : Type}

structure Cut (V : Type) where
  skipped : List (Token V)
  /-- What the separator consumed. -/
  taken : List (Token V)
  produced : List (Token V)

namespace Cut

def tokens (c : Cut V) : List (Token V) := c.skipped ++ c.taken

def segment (c : Cut V) : Segment V := ⟨c.skipped, some c.produced, false⟩

end Cut

-- ---------------------------------------------------------------------------
-- Partitions
-- ---------------------------------------------------------------------------

section
variable (answer : List (Token V) → Outcome V)

/-- Whether a stream is not cut at an index: the separator fails there, or it matches
nothing at the very start. -/
def NoCut (input : List (Token V)) (i : Nat) : Prop :=
  (∃ failure, answer (input.drop i) = .error failure) ∨
    i = 0 ∧ ∃ produced, answer input = .ok ⟨0, produced⟩

def PassesOver (skipped rest : List (Token V)) : Prop :=
  ∀ i < skipped.length, NoCut answer (skipped ++ rest) i

structure Cut.Fits (c : Cut V) (rest : List (Token V)) : Prop where
  matched : answer (c.taken ++ rest) = .ok ⟨c.taken.length, c.produced⟩
  /-- The separator is not tried at the end of the stream. -/
  inside : c.taken ++ rest ≠ []
  progress : 1 ≤ c.skipped.length + c.taken.length
  passes : PassesOver answer c.skipped (c.taken ++ rest)

/-- Whether these cuts, with `last` behind them, are `tokens` again and each is made at
the leftmost match in what the cuts before it left. -/
structure Partition (tokens : List (Token V)) (cuts : List (Cut V)) (last : List (Token V)) :
    Prop where
  joined : tokens = cuts.flatMap Cut.tokens ++ last
  fits : ∀ front c back, cuts = front ++ c :: back →
    c.Fits answer (back.flatMap Cut.tokens ++ last)
  passes : PassesOver answer last []

end

variable {answer : List (Token V) → Outcome V}

theorem not_noCut_iff {input : List (Token V)} :
    ¬ NoCut answer input i ↔ ∃ m, answer (input.drop i) = .ok m ∧ 0 < i + m.consumed := by
  unfold NoCut
  cases houtcome : answer (input.drop i) with
  | error failure => simp
  | ok m =>
    constructor
    · intro hcut
      refine ⟨m, rfl, Nat.pos_of_ne_zero fun hzero => hcut (.inr ?_)⟩
      obtain ⟨rfl, hnothing⟩ := Nat.add_eq_zero_iff.1 hzero
      exact ⟨rfl, m.produced, by rw [← hnothing, ← houtcome, List.drop_zero]⟩
    · rintro ⟨_, hm, hprogress⟩ (⟨failure, herror⟩ | ⟨rfl, produced, hempty⟩)
      · cases herror
      · rw [List.drop_zero, hempty] at houtcome
        cases houtcome
        cases hm
        exact absurd hprogress (Nat.lt_irrefl 0)

namespace Partition

theorem uncut {last : List (Token V)} (h : PassesOver answer last []) :
    Partition answer last [] last :=
  ⟨rfl, by simp, h⟩

theorem cut {c : Cut V} {rest last : List (Token V)} (hc : c.Fits answer rest)
    (h : Partition answer rest cuts last) :
    Partition answer (c.tokens ++ rest) (c :: cuts) last where
  joined := by rw [List.flatMap_cons, List.append_assoc, ← h.joined]
  fits front c' back heq := by
    cases front with
    | nil =>
      obtain ⟨rfl, rfl⟩ := List.cons.inj heq
      rw [← h.joined]
      exact hc
    | cons first front =>
      obtain ⟨-, rfl⟩ := List.cons.inj heq
      exact h.fits front c' back rfl
  passes := h.passes

theorem last_eq_nil_iff {tokens last : List (Token V)} (h : Partition answer tokens cuts last)
    (hne : tokens ≠ []) :
    last = [] ↔ ∃ front c, cuts = front ++ [c] ∧ c.taken ≠ [] ∧
      tokens = front.flatMap Cut.tokens ++ c.skipped ++ c.taken := by
  constructor
  · rintro rfl
    rcases List.eq_nil_or_concat cuts with rfl | ⟨front, c, hcuts⟩
    · exact absurd h.joined hne
    · rw [List.concat_eq_append] at hcuts
      subst hcuts
      have hinside := (h.fits front c [] rfl).inside
      refine ⟨front, c, rfl, by simpa using hinside, ?_⟩
      rw [h.joined]
      simp [Cut.tokens]
  · rintro ⟨front, c, rfl, -, htokens⟩
    have hjoined := h.joined
    rw [htokens] at hjoined
    simpa [Cut.tokens] using hjoined

end Partition

-- ---------------------------------------------------------------------------
-- The separator
-- ---------------------------------------------------------------------------

variable [TokenValue V] {rules : Rules V} {separator : Parser V} {I : Context V → Prop}

/-- Whether, in the contexts `I`, which it does not leave, the outcome of a parser is a
function of its tokens. -/
def Parser.DeterminedBy (rules : Rules V) (I : Context V → Prop) (p : Parser V)
    (answer : List (Token V) → Outcome V) : Prop :=
  ∀ ctx, I ctx → ∀ input, ∃ n ctx',
    Parser.run rules n p input ctx = some (answer input, ctx') ∧ I ctx'

/-- Whether, in the contexts `I`, which it does not leave, the outcome of a parser is a
function of its tokens, and no match consumes more than there is. -/
structure Parser.Computes (rules : Rules V) (I : Context V → Prop) (p : Parser V)
    (answer : List (Token V) → Outcome V) : Prop where
  run : ∀ ctx, I ctx → ∀ input, ∃ n ctx',
    Parser.run rules n p input ctx = some (answer input, ctx') ∧ I ctx'
  consumed_le : ∀ input m, answer input = .ok m → m.consumed ≤ input.length

theorem Parser.Computes.determinedBy {p : Parser V} (h : p.Computes rules I answer) :
    p.DeterminedBy rules I answer :=
  h.run

theorem Parser.DeterminedBy.runs {p : Parser V} (h : p.DeterminedBy rules I answer) (hctx : I ctx)
    (input : List (Token V)) :
    ∃ ctx' es, Runs rules (p.body rules input) ctx (answer input) ctx' es ∧ I ctx' := by
  obtain ⟨n, ctx', hrun, hctx'⟩ := h ctx hctx input
  obtain ⟨es, hes⟩ := runs_of_run hrun
  exact ⟨ctx', es, hes, hctx'⟩

/-- What a parser comes to without a limit on depth is a function of its tokens. -/
theorem Parser.computes_of_comesTo {p : Parser V}
    (h : ∀ input, ∃ logged, (p.body rules input).ComesTo rules (answer input) logged)
    (hle : ∀ input m, answer input = .ok m → m.consumed ≤ input.length) :
    p.Computes rules (·.config.maxDepth = 0) answer where
  run ctx hctx input := by
    obtain ⟨logged, hcomes⟩ := h input
    obtain ⟨ctx', es, hes, hctx', -⟩ := hcomes ctx hctx
    obtain ⟨n, hn⟩ := parses_iff_run.1 ⟨_, es, hes, rfl⟩
    exact ⟨n, ctx', hn, hctx'⟩
  consumed_le := hle

/-- Whether `found` is the first match in `input` that ends past its start, if there is
one. -/
def Search.Leftmost (answer : List (Token V) → Outcome V) (input : List (Token V)) :
    Option (Found V) → Prop
  | none => PassesOver answer input []
  | some found => ∃ i m, i < input.length ∧ answer (input.drop i) = .ok m ∧
      0 < i + m.consumed ∧ (∀ j < i, NoCut answer input j) ∧
      found = ⟨input.take i, m.produced, m.consumed, input.drop (i + m.consumed)⟩

namespace Search

section
omit [TokenValue V]
variable {input : List (Token V)}

theorem exists_leftmost (answer : List (Token V) → Outcome V) (input : List (Token V)) :
    ∃ found, Leftmost answer input found := by
  classical
  by_cases hpasses : PassesOver answer input []
  · exact ⟨none, hpasses⟩
  · have hcut : ∃ i < input.length, ¬ NoCut answer input i := by
      simpa [PassesOver] using hpasses
    obtain ⟨hi, hat⟩ := Nat.find_spec hcut
    obtain ⟨m, hanswer, hprogress⟩ := not_noCut_iff.1 hat
    refine ⟨some _, Nat.find hcut, m, hi, hanswer, hprogress, fun j hj => ?_, rfl⟩
    have hbefore := Nat.find_min hcut hj
    simpa [Nat.lt_trans hj hi] using hbefore

theorem Leftmost.unique (h : Leftmost answer input found) (h' : Leftmost answer input found') :
    found = found' := by
  -- A place of a match is neither before the other one nor in a stream that is passed over.
  have hpassed : ∀ {i m}, i < input.length → answer (input.drop i) = .ok m → 0 < i + m.consumed →
      ¬ PassesOver answer input [] := by
    intro i m hi hanswer hprogress hpasses
    have hat := hpasses i hi
    rw [List.append_nil] at hat
    exact not_noCut_iff.2 ⟨m, hanswer, hprogress⟩ hat
  cases found with
  | none =>
    cases found' with
    | none => rfl
    | some _ =>
      obtain ⟨i, m, hi, hanswer, hprogress, -⟩ := h'
      exact absurd h (hpassed hi hanswer hprogress)
  | some _ =>
    obtain ⟨i, m, hi, hanswer, hprogress, hbefore, rfl⟩ := h
    cases found' with
    | none => exact absurd h' (hpassed hi hanswer hprogress)
    | some _ =>
      obtain ⟨j, m', hj, hanswer', hprogress', hbefore', rfl⟩ := h'
      obtain rfl : i = j := by
        rcases Nat.lt_trichotomy i j with hlt | heq | hlt
        · exact absurd (hbefore' i hlt) (not_noCut_iff.2 ⟨m, hanswer, hprogress⟩)
        · exact heq
        · exact absurd (hbefore j hlt) (not_noCut_iff.2 ⟨m', hanswer', hprogress'⟩)
      rw [hanswer] at hanswer'
      cases hanswer'
      rfl

end

-- By the recursion of the search, over the indices behind that it has passed.
theorem findFrom_leftmost (hseparator : separator.DeterminedBy rules I answer)
    {ctx : Context V} (hctx : I ctx) {input suffix : List (Token V)}
    (hsuffix : input.drop i = suffix) (hpassed : ∀ j < i, NoCut answer input j) :
    ∃ found ctx' es, Runs rules (findFrom separator true input suffix i) ctx found ctx' es ∧
      I ctx' ∧ Leftmost answer input found := by
  induction suffix generalizing i ctx with
  | nil =>
    have hend : input.length ≤ i := List.drop_eq_nil_iff.1 hsuffix
    refine ⟨none, ctx, _, .done, hctx, fun j hj => ?_⟩
    rw [List.append_nil]
    exact hpassed j (Nat.lt_of_lt_of_le hj hend)
  | cons token rest ih =>
    obtain ⟨ctx₁, nested, hparse, hctx₁⟩ := hseparator.runs hctx (token :: rest)
    have hrest : input.drop (i + 1) = rest := by
      rw [← List.drop_drop, hsuffix, List.drop_one, List.tail_cons]
    have hgo : NoCut answer input i → ∃ found ctx' es,
        Runs rules (findFrom separator true input rest (i + 1)) ctx₁ found ctx' es ∧ I ctx' ∧
          Leftmost answer input found := by
      intro hi
      refine ih hctx₁ hrest fun j hj => ?_
      rcases Nat.lt_succ_iff_lt_or_eq.1 hj with hj | rfl
      · exact hpassed j hj
      · exact hi
    cases houtcome : answer (token :: rest) with
    | error failure =>
      rw [houtcome] at hparse
      obtain ⟨found, ctx', es, hfind, hctx', hfound⟩ := hgo (.inl ⟨failure, hsuffix ▸ houtcome⟩)
      exact ⟨found, ctx', _, .call hparse hfind, hctx', hfound⟩
    | ok m =>
      rw [houtcome] at hparse
      by_cases hprogress : i + m.consumed = 0
      · obtain ⟨rfl, hnothing⟩ := Nat.add_eq_zero_iff.1 hprogress
        have hempty : answer input = .ok ⟨0, m.produced⟩ := by
          rw [← hnothing, ← houtcome, ← hsuffix, List.drop_zero]
        obtain ⟨found, ctx', es, hfind, hctx', hfound⟩ := hgo (.inr ⟨rfl, m.produced, hempty⟩)
        refine ⟨found, ctx', Event.span .. ++ es, .call hparse ?_, hctx', hfound⟩
        simpa [hnothing] using hfind
      · have hi : i < input.length := by
          have hlength := congrArg List.length hsuffix
          simp only [List.length_drop, List.length_cons] at hlength
          omega
        refine ⟨some ⟨input.take i, m.produced, m.consumed, input.drop (i + m.consumed)⟩, ctx₁,
          Event.span .. ++ [], .call hparse ?_, hctx₁,
          ⟨i, m, hi, hsuffix ▸ houtcome, Nat.pos_of_ne_zero hprogress, hpassed, rfl⟩⟩
        simp only [Bool.true_and, beq_iff_eq, if_neg hprogress]
        exact .done

theorem Leftmost.fits (hseparator : separator.Computes rules I answer)
    {input : List (Token V)} {found : Found V} (h : Leftmost answer input (some found)) :
    ∃ c : Cut V, c.Fits answer found.remained ∧ c.tokens ++ found.remained = input ∧
      c.skipped = found.skipped ∧ c.produced = found.matched := by
  obtain ⟨i, m, hi, hanswer, hprogress, hpassed, rfl⟩ := h
  have hconsumed := hseparator.consumed_le _ _ hanswer
  rw [List.length_drop] at hconsumed
  have hrest : (input.drop i).take m.consumed ++ input.drop (i + m.consumed) = input.drop i := by
    rw [← List.drop_drop, List.take_append_drop]
  refine ⟨⟨input.take i, (input.drop i).take m.consumed, m.produced⟩, ⟨?_, ?_, ?_, ?_⟩, ?_,
    rfl, rfl⟩
  · rw [hrest, hanswer, List.length_take, List.length_drop, Nat.min_eq_left hconsumed]
  · rw [hrest, ne_eq, List.drop_eq_nil_iff]
    omega
  · simp only [List.length_take, List.length_drop]
    omega
  · intro j hj
    rw [hrest, List.take_append_drop]
    exact hpassed j (Nat.lt_of_lt_of_le hj (List.length_take_le ..))
  · rw [Cut.tokens, List.append_assoc, hrest, List.take_append_drop]

end Search

-- ---------------------------------------------------------------------------
-- The iteration
-- ---------------------------------------------------------------------------

namespace Splitter

omit [TokenValue V] in
theorem next_search {s : Splitter V} (hgoing : s.exhausted = false) (hlimit : s.limit ≠ some 1)
    (hrest : s.rest ≠ []) :
    s.next separator = (Search.findFrom separator true s.rest s.rest 0).bind fun
      | some found => .done (some (s.cut found).1, (s.cut found).2)
      | none => .done (some s.remainder.1, s.remainder.2) := by
  rw [next, if_neg (by simp [hgoing]), if_neg (by simp [hlimit, hrest])]
  show Action.bind _ _ = _
  congr 1
  funext found
  cases found <;> rfl

section
variable (hseparator : separator.DeterminedBy rules I answer) {s : Splitter V} {ctx : Context V}
  (hctx : I ctx) (hgoing : s.exhausted = false)
include hseparator hctx hgoing

theorem next_cut (hlimit : s.limit ≠ some 1)
    (hfound : Search.Leftmost answer s.rest (some found)) :
    ∃ ctx' es, Runs rules (s.next separator) ctx (some (s.cut found).1, (s.cut found).2) ctx' es ∧
      I ctx' := by
  have hrest : s.rest ≠ [] := by
    obtain ⟨i, m, hi, -⟩ := hfound
    exact List.ne_nil_of_length_pos (Nat.zero_lt_of_lt hi)
  obtain ⟨found', ctx', es, hfind, hctx', hfound'⟩ :=
    Search.findFrom_leftmost hseparator hctx (List.drop_zero (l := s.rest)) nofun
  obtain rfl := hfound.unique hfound'
  rw [next_search hgoing hlimit hrest]
  exact ⟨ctx', _, hfind.bind .done, hctx'⟩

theorem next_remainder (hend : s.limit = some 1 ∨ Search.Leftmost answer s.rest none) :
    ∃ ctx' es, Runs rules (s.next separator) ctx (some s.remainder.1, s.remainder.2) ctx' es ∧
      I ctx' := by
  by_cases hstop : s.limit = some 1 ∨ s.rest = []
  · have hnext : Runs rules (s.next separator) ctx (some s.remainder.1, s.remainder.2) ctx [] := by
      simp [next, hgoing, hstop]
    exact ⟨ctx, [], hnext, hctx⟩
  · rw [not_or] at hstop
    obtain ⟨found, ctx', es, hfind, hctx', hfound⟩ :=
      Search.findFrom_leftmost hseparator hctx (List.drop_zero (l := s.rest)) nofun
    obtain rfl := hfound.unique (hend.resolve_left hstop.1)
    rw [next_search hgoing hstop.1 hstop.2]
    exact ⟨ctx', _, hfind.bind .done, hctx'⟩

end

theorem yields_exhausted {s : Splitter V} (h : s.exhausted = true) (ctx : Context V) :
    s.Yields rules separator ctx [] ctx := by
  have hnext : Runs rules (s.next separator) ctx (none, { s with finished := true }) ctx [] := by
    simp [next, h]
  exact .finish hnext

theorem yields_remainder {s : Splitter V}
    (h : Runs rules (s.next separator) ctx (some s.remainder.1, s.remainder.2) ctx' es) :
    s.Yields rules separator ctx [⟨s.rest, none, true⟩] ctx' :=
  .more h (yields_exhausted (by simp [exhausted, remainder]) ctx')

theorem yields_partition (hseparator : separator.Computes rules I answer)
    (s : Splitter V) {ctx : Context V} (hctx : I ctx) (hlimit : s.limit = none)
    (hgoing : s.exhausted = false) :
    ∃ cuts last ctx',
      s.Yields rules separator ctx (cuts.map Cut.segment ++ [⟨last, none, true⟩]) ctx' ∧
      Partition answer s.rest cuts last := by
  induction hlength : s.rest.length using Nat.strongRecOn generalizing s ctx with
  | ind length ih =>
    obtain ⟨found, hfound⟩ := Search.exists_leftmost answer s.rest
    cases found with
    | none =>
      obtain ⟨ctx₁, es, hnext, -⟩ :=
        next_remainder hseparator.determinedBy hctx hgoing (.inr hfound)
      exact ⟨[], s.rest, ctx₁, yields_remainder hnext, .uncut hfound⟩
    | some found =>
      obtain ⟨c, hc, htokens, hskipped, hproduced⟩ := Search.Leftmost.fits hseparator hfound
      obtain ⟨ctx₁, es, hnext, hctx₁⟩ :=
        next_cut hseparator.determinedBy hctx hgoing (by simp [hlimit]) hfound
      have hsegment : (s.cut found).1 = c.segment := by
        rw [Cut.segment, hskipped, hproduced]
        rfl
      have hshorter : found.remained.length < length := by
        have htotal := congrArg List.length htokens
        have hprogress := hc.progress
        simp only [Cut.tokens, List.length_append] at htotal
        omega
      obtain ⟨cuts, last, ctx', hyields, hcuts⟩ := ih _ hshorter (s.cut found).2 hctx₁
        (by simp [cut, hlimit]) (cut_going hgoing found) rfl
      refine ⟨c :: cuts, last, ctx', .more (hsegment ▸ hnext) hyields, ?_⟩
      rw [← htokens]
      exact hcuts.cut hc

end Splitter

/-- An empty stream has no segments. Any other is cut at the leftmost matches of the
separator, one segment for each, with a last segment behind them. So an iteration over
the segments comes to its end, and `split` collects them. -/
theorem Parser.Computes.split_partitions (hseparator : separator.Computes rules I answer)
    (hctx : I ctx) (tokens : List (Token V)) :
    ∃ n segments ctx',
      (Search.split separator tokens).exec (Parser.run rules n) ctx = some (segments, ctx') ∧
      (Splitter.ofTokens tokens).Yields rules separator ctx segments ctx' ∧
      (tokens = [] → segments = []) ∧
      (tokens ≠ [] → ∃ cuts last,
        segments = cuts.map Cut.segment ++ [⟨last, none, true⟩] ∧
        Partition answer tokens cuts last ∧
        (last = [] ↔ ∃ front c, cuts = front ++ [c] ∧ c.taken ≠ [] ∧
          tokens = front.flatMap Cut.tokens ++ c.skipped ++ c.taken)) := by
  have hcollected : ∀ {segments ctx'},
      (Splitter.ofTokens tokens).Yields rules separator ctx segments ctx' →
      ∃ n, (Search.split separator tokens).exec (Parser.run rules n) ctx =
        some (segments, ctx') := by
    intro segments ctx' hyields
    obtain ⟨es, hcollect⟩ := hyields.collect
    exact hcollect.exec
  by_cases hempty : tokens = []
  · subst hempty
    have hyields : (Splitter.ofTokens []).Yields rules separator ctx [] ctx :=
      Splitter.yields_exhausted rfl ctx
    obtain ⟨n, hn⟩ := hcollected hyields
    exact ⟨n, [], ctx, hn, hyields, fun _ => rfl, fun hne => absurd rfl hne⟩
  · obtain ⟨cuts, last, ctx', hyields, hcuts⟩ := Splitter.yields_partition hseparator
      (Splitter.ofTokens tokens) hctx rfl (by simp [Splitter.exhausted, Splitter.ofTokens, hempty])
    obtain ⟨n, hn⟩ := hcollected hyields
    exact ⟨n, _, ctx', hn, hyields, fun hnil => absurd hnil hempty,
      fun hne => ⟨cuts, last, rfl, hcuts, hcuts.last_eq_nil_iff hne⟩⟩

def commaOrNone : Parser Int64 := .optional (Leaf.punctuation ",")

def readComma : List (Token Int64) → Outcome Int64
  | [] => .ok .nothing
  | token :: _ => if token.raw = "," then .ok ⟨1, []⟩ else .ok .nothing

theorem commaOrNone_computes :
    commaOrNone.Computes (fun _ => none) (·.config.maxDepth = 0) readComma := by
  refine Parser.computes_of_comesTo (fun input => ⟨[] ++ [], .traced (.call
    (Leaf.plain_reads _ _ _ input).comesTo ?_)⟩) fun input m hm => ?_
  · cases input with
    | nil => exact .done
    | cons token rest =>
      by_cases hcomma : token.raw = ","
      · simp only [Leaf.onFirst, readComma, hcomma, if_true]
        exact .done
      · simp only [Leaf.onFirst, readComma, hcomma, if_false]
        exact .done
  · cases input with
    | nil =>
      cases hm
      exact Nat.le_refl 0
    | cons token rest =>
      rw [readComma] at hm
      split at hm
      · cases hm
        exact Nat.le_add_left 1 _
      · cases hm
        exact Nat.zero_le _

/-- Commas at either end and beside one another, and two tokens with nothing between. -/
theorem commaOrNone_split_partitions : ∃ n segments ctx,
    (Search.split commaOrNone (Token.ofTexts [",", "a", "b", ",", ","])).exec
      (Parser.run (fun _ => none) n) (.ofConfig ⟨0, true, .safe, true⟩) = some (segments, ctx) ∧
    ∃ cuts last, segments = cuts.map Cut.segment ++ [⟨last, none, true⟩] ∧
      Partition readComma (Token.ofTexts [",", "a", "b", ",", ","]) cuts last := by
  have hunlimited : (Context.ofConfig (V := Int64) ⟨0, true, .safe, true⟩).config.maxDepth = 0 :=
    rfl
  obtain ⟨n, segments, ctx, hn, -, -, hcuts⟩ :=
    commaOrNone_computes.split_partitions hunlimited (Token.ofTexts [",", "a", "b", ",", ","])
  obtain ⟨cuts, last, hsegments, hpartition, -⟩ := hcuts (by simp [Token.ofTexts])
  exact ⟨n, segments, ctx, hn, cuts, last, hsegments, hpartition⟩

end TokenGrammar
