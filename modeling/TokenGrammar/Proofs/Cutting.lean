import TokenGrammar.Proofs.Equivalence
import TokenGrammar.Proofs.Partition

/-!
# Three ways to ask for the segments of a stream

A splitter that is asked for one segment after another (`Splitter.nexts`), `split` and
`splitUpTo` cut a stream at the same places, if the separator is a function of its tokens
(`Parser.DeterminedBy`). What a separator cuts off a stream (`CutsOff`) is a function of the
tokens as well. A splitter gives the pieces that it cuts off and then what they leave
(`Splitter.yields_of_cutsOff`), and a limit on segments says only how many pieces these are.
-/

namespace TokenGrammar

variable {V : Type}

-- ---------------------------------------------------------------------------
-- Pieces cut off a stream
-- ---------------------------------------------------------------------------

def Found.segment (found : Found V) : Segment V := ⟨found.skipped, some found.matched, false⟩

/-- Whether `cuts` are the pieces of a stream in front of what is left of it, where each ends
with the leftmost match of the separator behind those before it. -/
inductive CutsOff (answer : List (Token V) → Outcome V) :
    List (Token V) → List (Segment V) → List (Token V) → Prop
  | nil : CutsOff answer tokens [] tokens
  | cons {found : Found V} (first : Search.Leftmost answer tokens (some found))
      (later : CutsOff answer found.remained cuts left) :
      CutsOff answer tokens (found.segment :: cuts) left

variable {answer : List (Token V) → Outcome V}

theorem Search.Leftmost.remained_lt {tokens : List (Token V)} {found : Found V}
    (h : Search.Leftmost answer tokens (some found)) : found.remained.length < tokens.length := by
  obtain ⟨i, m, hi, -, hprogress, -, rfl⟩ := h
  simp only [List.length_drop]
  omega

namespace CutsOff

theorem take {tokens left : List (Token V)} (h : CutsOff answer tokens cuts left) (k : Nat) :
    ∃ left', CutsOff answer tokens (cuts.take k) left' := by
  induction h generalizing k with
  | nil => exact ⟨_, by simpa using nil⟩
  | cons first _ ih =>
    cases k with
    | zero => exact ⟨_, nil⟩
    | succ k =>
      obtain ⟨left', hlater⟩ := ih k
      exact ⟨left', cons first hlater⟩

theorem exists_last (answer : List (Token V) → Outcome V) (tokens : List (Token V)) :
    ∃ cuts last, CutsOff answer tokens cuts last ∧ Search.Leftmost answer last none := by
  induction hlength : tokens.length using Nat.strongRecOn generalizing tokens with
  | ind length ih =>
    obtain ⟨found, hfound⟩ := Search.exists_leftmost answer tokens
    cases found with
    | none => exact ⟨[], tokens, nil, hfound⟩
    | some found =>
      obtain ⟨cuts, last, hcuts, hlast⟩ :=
        ih _ (hlength ▸ hfound.remained_lt) found.remained rfl
      exact ⟨found.segment :: cuts, last, cons hfound hcuts, hlast⟩

end CutsOff

-- ---------------------------------------------------------------------------
-- A splitter asked repeatedly
-- ---------------------------------------------------------------------------

namespace Splitter

def nexts {P : Type 1} (separator : P) :
    (k : Nat) → Splitter V → Action P V (List (Option (Segment V)))
  | 0, _ => .done []
  | k + 1, s => (s.next separator).bind fun (segment?, s) =>
    (nexts separator k s).bind fun later => .done (segment? :: later)

variable [TokenValue V] {rules : Rules V} {separator : Parser V} {I : Context V → Prop}

theorem nexts_exhausted {s : Splitter V} (h : s.exhausted = true) (k : Nat) (ctx : Context V) :
    (s.nexts separator k).Leads rules ctx (List.replicate k none) ctx := by
  induction k generalizing s with
  | zero => exact Action.leads_done.2 ⟨rfl, rfl⟩
  | succ k ih =>
    have hlater := ih (s := { s with finished := true }) (by simp [exhausted])
    rw [nexts, Action.leads_bind_iff]
    refine ⟨(none, { s with finished := true }), ctx, by simp [next, h], ?_⟩
    rw [Action.leads_bind_iff, List.replicate_succ]
    exact ⟨_, ctx, hlater, Action.leads_done.2 ⟨rfl, rfl⟩⟩

theorem Yields.nexts {s : Splitter V} (h : s.Yields rules separator ctx segments ctx') (k : Nat) :
    ∃ left, (s.nexts separator k).Leads rules ctx ((List.range k).map (segments[·]?)) left := by
  induction h generalizing k with
  | finish next =>
    rcases next_cases next with ⟨-, hend, rfl⟩ | ⟨-, heq⟩ | ⟨_, _, -, -, heq⟩
    · have hnone : (List.range k).map (([] : List (Segment V))[·]?) = List.replicate k none := by
        simp [List.map_const']
      exact ⟨_, hnone ▸ nexts_exhausted hend k _⟩
    · cases heq
    · cases heq
  | more next _ ih =>
    cases k with
    | zero => exact ⟨_, Action.leads_done.2 ⟨rfl, rfl⟩⟩
    | succ k =>
      obtain ⟨left, hlater⟩ := ih k
      refine ⟨left, ?_⟩
      rw [List.range_succ_eq_map, List.map_cons, List.map_map, Splitter.nexts,
        Action.leads_bind_iff]
      refine ⟨_, _, ⟨_, next⟩, ?_⟩
      rw [Action.leads_bind_iff]
      exact ⟨_, left, hlater, Action.leads_done.2 ⟨rfl, rfl⟩⟩

/-- A splitter gives the pieces that are cut off, and then what they leave as the last segment:
nothing matches there, or there may be no further segment. -/
theorem yields_of_cutsOff (hseparator : separator.DeterminedBy rules I answer)
    {tokens left : List (Token V)} (hcuts : CutsOff answer tokens cuts left) {s : Splitter V}
    {ctx : Context V} (hctx : I ctx) (hgoing : s.exhausted = false) (hrest : s.rest = tokens)
    (hlimit : ∀ most, s.limit = some most → cuts.length < most)
    (hend : s.limit = some (cuts.length + 1) ∨ Search.Leftmost answer left none) :
    ∃ ctx', s.Yields rules separator ctx (cuts ++ [⟨left, none, true⟩]) ctx' := by
  induction hcuts generalizing s ctx with
  | nil =>
    subst hrest
    obtain ⟨ctx', es, hnext, -⟩ := next_remainder hseparator hctx hgoing (by simpa using hend)
    exact ⟨ctx', yields_remainder hnext⟩
  | @cons tokens cuts left found hfound hlater ih =>
    subst hrest
    have hmore : s.limit ≠ some 1 := fun h => by
      have := hlimit 1 h
      simp at this
    obtain ⟨ctx₁, es, hnext, hctx₁⟩ := next_cut hseparator hctx hgoing hmore hfound
    have hlimit' : ∀ most, (s.cut found).2.limit = some most → cuts.length < most := by
      intro most hmost
      obtain ⟨most', hsome, rfl⟩ := Option.map_eq_some_iff.1 hmost
      have hlt := hlimit most' hsome
      simp only [List.length_cons] at hlt
      omega
    have hend' : (s.cut found).2.limit = some (cuts.length + 1) ∨
        Search.Leftmost answer left none :=
      hend.imp_left fun h => by simp [cut, h]
    obtain ⟨ctx', hyields⟩ := ih hctx₁ (cut_going hgoing found) rfl hlimit' hend'
    exact ⟨ctx', .more hnext hyields⟩

end Splitter

-- ---------------------------------------------------------------------------
-- The segments of a stream
-- ---------------------------------------------------------------------------

section
variable [TokenValue V] {rules : Rules V} {separator : Parser V} {I : Context V → Prop}

theorem Splitter.Yields.collected {s : Splitter V} {ctx : Context V}
    (h : s.Yields rules separator ctx segments ctx') :
    ∃ n, (s.collect separator).exec (Parser.run rules n) ctx = some (segments, ctx') := by
  obtain ⟨es, hcollect⟩ := h.collect
  exact hcollect.exec

/-- Whether `segments` are a stream cut until nothing matches in what is left of it, which is the
last of them. -/
inductive SplitsInto (answer : List (Token V) → Outcome V) :
    List (Token V) → List (Segment V) → Prop
  | nil : SplitsInto answer [] []
  | cut (hne : tokens ≠ []) (hcuts : CutsOff answer tokens cuts last)
      (hlast : Search.Leftmost answer last none) :
      SplitsInto answer tokens (cuts ++ [⟨last, none, true⟩])

/-- Whether `pieces` are `segments` cut into at most `most`, where zero sets no limit: all of
them if that many are allowed, else the first ones and what these leave of `tokens`. -/
structure Folded (answer : List (Token V) → Outcome V) (tokens : List (Token V))
    (segments : List (Segment V)) (most : Nat) (pieces : List (Segment V)) : Prop where
  all : most = 0 ∨ segments.length ≤ most → pieces = segments
  folded : 0 < most → most < segments.length → pieces.length = most ∧
    ∃ left, CutsOff answer tokens (segments.take (most - 1)) left ∧
      pieces = segments.take (most - 1) ++ [⟨left, none, true⟩]

/-- The segments of a stream and what each limit makes of them do not depend on the context. -/
theorem Splitter.exists_yields_limited (hseparator : separator.DeterminedBy rules I answer)
    (tokens : List (Token V)) :
    ∃ segments, SplitsInto answer tokens segments ∧
      ∀ most, ∃ pieces, Folded answer tokens segments most pieces ∧ ∀ ctx, I ctx →
        ∃ ctx', ((ofTokens tokens).limited most).Yields rules separator ctx pieces ctx' := by
  by_cases hempty : tokens = []
  · subst hempty
    refine ⟨[], .nil, fun most => ⟨[], ⟨fun _ => rfl, by simp⟩, fun ctx _ => ⟨ctx, ?_⟩⟩⟩
    exact yields_exhausted rfl ctx
  · obtain ⟨cuts, last, hcuts, hlast⟩ := CutsOff.exists_last answer tokens
    refine ⟨cuts ++ [⟨last, none, true⟩], .cut hempty hcuts hlast, fun most => ?_⟩
    have hgoing : ((ofTokens tokens).limited most).exhausted = false := by
      simp [exhausted, ofTokens, limited, hempty]
    by_cases hall : most = 0 ∨ cuts.length + 1 ≤ most
    · refine ⟨cuts ++ [⟨last, none, true⟩], ⟨fun _ => rfl, ?_⟩, fun ctx hctx => ?_⟩
      · simp only [List.length_append, List.length_singleton]
        omega
      · refine yields_of_cutsOff hseparator hcuts hctx hgoing rfl (fun bound hbound => ?_)
          (.inr hlast)
        obtain ⟨hsome, rfl⟩ : most ≠ 0 ∧ most = bound := by
          simpa [limited, ite_eq_iff] using hbound
        exact hall.resolve_left hsome
    · obtain ⟨left, hfirst⟩ := hcuts.take (most - 1)
      have htake : (cuts ++ [(⟨last, none, true⟩ : Segment V)]).take (most - 1) =
          cuts.take (most - 1) :=
        List.take_append_of_le_length (by omega)
      have hlength : (cuts.take (most - 1)).length + 1 = most := by
        rw [List.length_take]
        omega
      have hlimit : ((ofTokens tokens).limited most).limit = some most := by
        simp [limited, show most ≠ 0 by omega]
      refine ⟨cuts.take (most - 1) ++ [⟨left, none, true⟩], ⟨?_, fun _ _ => ?_⟩,
        fun ctx hctx => ?_⟩
      · simp only [List.length_append, List.length_singleton]
        intro h
        exact absurd h hall
      · rw [htake]
        exact ⟨by simpa using hlength, left, hfirst, rfl⟩
      · refine yields_of_cutsOff hseparator hfirst hctx hgoing rfl (fun bound hbound => ?_)
          (.inl (by rw [hlimit, hlength]))
        rw [hlimit] at hbound
        cases hbound
        omega

/-- The segments that `split` collects are the stream cut at every leftmost match, and in any
context the answers of a splitter that is asked again and again, before it answers that there is
none. `splitUpTo` collects them as well if that many are allowed; else the last one that is
allowed takes what the ones before it leave. -/
theorem Parser.DeterminedBy.segments_agree (hseparator : separator.DeterminedBy rules I answer)
    (tokens : List (Token V)) :
    ∃ segments : List (Segment V), SplitsInto answer tokens segments ∧ ∀ ctx, I ctx →
      (∃ n ctx', (Search.split separator tokens).exec (Parser.run rules n) ctx =
        some (segments, ctx')) ∧
      (∀ k, ∃ n ctx', ((Splitter.ofTokens tokens).nexts separator k).exec (Parser.run rules n) ctx =
        some ((List.range k).map (segments[·]?), ctx')) ∧
      ∀ most, ∃ n pieces ctx',
        (Search.splitUpTo most separator tokens).exec (Parser.run rules n) ctx =
          some (pieces, ctx') ∧
        Folded answer tokens segments most pieces := by
  obtain ⟨segments, hsplits, hlimited⟩ := Splitter.exists_yields_limited hseparator tokens
  refine ⟨segments, hsplits, fun ctx hctx => ?_⟩
  have hyields : ∃ ctx', (Splitter.ofTokens tokens).Yields rules separator ctx segments ctx' := by
    obtain ⟨pieces, hfolded, hyields⟩ := hlimited 0
    obtain rfl := hfolded.all (.inl rfl)
    exact hyields ctx hctx
  obtain ⟨ctx', hyields⟩ := hyields
  refine ⟨?_, fun k => ?_, fun most => ?_⟩
  · obtain ⟨n, hn⟩ := hyields.collected
    exact ⟨n, ctx', hn⟩
  · obtain ⟨left, hnexts⟩ := hyields.nexts k
    obtain ⟨n, hn⟩ := Action.leads_iff_exec.1 hnexts
    exact ⟨n, left, hn⟩
  · obtain ⟨pieces, hfolded, hpieces⟩ := hlimited most
    obtain ⟨ctx', hyields⟩ := hpieces ctx hctx
    obtain ⟨n, hn⟩ := hyields.collected
    exact ⟨n, pieces, ctx', hn, hfolded⟩

end

/-- A stream that ends with a separator, asked for more segments than it has, and cut in two. -/
theorem commaOrNone_segments_agree : ∃ segments : List (Segment Int64),
    SplitsInto readComma (Token.ofTexts ["a", ",", "b", ","]) segments ∧ ∃ n ctx,
    ((Splitter.ofTokens (Token.ofTexts ["a", ",", "b", ","])).nexts commaOrNone 5).exec
      (Parser.run (fun _ => none) n) (.ofConfig ⟨0, true, .safe, true⟩) =
        some ((List.range 5).map (segments[·]?), ctx) ∧
    ∃ n pieces ctx, (Search.splitUpTo 2 commaOrNone (Token.ofTexts ["a", ",", "b", ","])).exec
      (Parser.run (fun _ => none) n) (.ofConfig ⟨0, true, .safe, true⟩) = some (pieces, ctx) ∧
      Folded readComma (Token.ofTexts ["a", ",", "b", ","]) segments 2 pieces := by
  have hunlimited : (Context.ofConfig (V := Int64) ⟨0, true, .safe, true⟩).config.maxDepth = 0 :=
    rfl
  obtain ⟨segments, hsplits, hagree⟩ := commaOrNone_computes.determinedBy.segments_agree
    (Token.ofTexts ["a", ",", "b", ","])
  obtain ⟨-, hnexts, hsplitUpTo⟩ := hagree _ hunlimited
  obtain ⟨n, ctx, hn⟩ := hnexts 5
  exact ⟨segments, hsplits, n, ctx, hn, hsplitUpTo 2⟩

end TokenGrammar
