import Mathlib.Order.Bounds.Defs
import TokenGrammar.Proofs.Classification
import TokenGrammar.Proofs.Equivalence
import TokenGrammar.Proofs.Partition

/-!
# Repetition is bounded greedy iteration

Of a parser that is a function of its tokens (`Parser.DeterminedBy`) the matches in a row are
a function of the tokens too (`Parser.inRow`): each is made where the ones before it end. A
repetition makes the least number of them after which it has to stop (`StopsAt`): there are as
many as it may make, the tokens are used up, the last one consumed nothing, or the next attempt
fails. It comes to what they matched, unless they are too few or the attempt failed otherwise
than by a mismatch (`EndsRepetition`).

All but the last match consume a token, so there are no more matches than tokens.
-/

namespace TokenGrammar.Parser

variable {V : Type}

-- ---------------------------------------------------------------------------
-- Matches in a row
-- ---------------------------------------------------------------------------

section
variable (answer : List (Token V) → Outcome V) (max : Option Nat) (input : List (Token V))

def inRow : (k : Nat) → Match V
  | 0 => .nothing
  | k + 1 => inRow k ++ (answer (input.drop (inRow k).consumed)).toOption.getD .nothing

def attempt (k : Nat) : Outcome V := answer (input.drop (inRow answer input k).consumed)

def ZeroWidthAt (k : Nat) : Prop :=
  ∃ j m, k = j + 1 ∧ attempt answer input j = .ok m ∧ m.consumed = 0

/-- Whether a repetition makes no attempt after `k` matches. -/
def DoneAt (k : Nat) : Prop :=
  max = some k ∨ input.length ≤ (inRow answer input k).consumed ∨ ZeroWidthAt answer input k

def StopsAt (k : Nat) : Prop :=
  DoneAt answer max input k ∨ ∃ failure, attempt answer input k = .error failure

end

def counted (label : String) (min count : Nat) (input : List (Token V)) (sofar : Match V) :
    Outcome V :=
  if count < min then .error (.repeatCount label min count (firstPos input)) else .ok sofar

theorem endRepetition_eq (label : String) (min count : Nat) (input : List (Token V))
    (sofar : Match V) :
    endRepetition label min input count sofar = .done (counted label min count input sofar) := by
  unfold endRepetition counted
  split <;> rfl

section
variable {answer : List (Token V) → Outcome V} {max : Option Nat} {input : List (Token V)}

theorem inRow_succ (h : attempt answer input k = .ok m) :
    inRow answer input (k + 1) = inRow answer input k ++ m := by
  unfold attempt at h
  simp [inRow, h, Except.toOption]

theorem not_zeroWidthAt_zero : ¬ ZeroWidthAt answer input 0 := by
  simp [ZeroWidthAt]

theorem zeroWidthAt_succ (h : attempt answer input k = .ok m) :
    ZeroWidthAt answer input (k + 1) ↔ m.consumed = 0 := by
  simp [ZeroWidthAt, h]

theorem isLeast_stopsAt (hstop : StopsAt answer max input k)
    (h : ∀ j < k, ¬ StopsAt answer max input j) :
    IsLeast {k | StopsAt answer max input k} k := by
  refine ⟨hstop, fun j hj => Nat.le_of_not_lt fun hlt => ?_⟩
  exact h j hlt hj

end

-- ---------------------------------------------------------------------------
-- The loop
-- ---------------------------------------------------------------------------

variable [TokenValue V]

/-- Whether `item` matches `k` times in a row from `ctx` on, which comes to a match and leaves a
context. -/
inductive Iterates (rules : Rules V) (item : Parser V) (input : List (Token V)) :
    Nat → Context V → Match V → Context V → Prop
  | zero : Iterates rules item input 0 ctx .nothing ctx
  | succ (earlier : Iterates rules item input k ctx sofar ctx₁)
      (last : (item.body rules (input.drop sofar.consumed)).Leads rules ctx₁ (.ok m) ctx₂) :
      Iterates rules item input (k + 1) ctx (sofar ++ m) ctx₂

inductive EndsRepetition (rules : Rules V) (label : String) (min : Nat) (max : Option Nat)
    (item : Parser V) (answer : List (Token V) → Outcome V) (input : List (Token V)) (k : Nat)
    (last : Context V) : Outcome V → Context V → Prop
  | full (ends : DoneAt answer max input k) :
      EndsRepetition rules label min max item answer input k last
        (counted label min k input (inRow answer input k)) last
  /-- The next attempt fails, and some leaf of its failure is a mismatch. -/
  | missed {failure : Failure} (goes : ¬ DoneAt answer max input k)
      (fails : attempt answer input k = .error failure)
      (attempted : (item.body rules (input.drop (inRow answer input k).consumed)).Leads rules last
        (.error failure) left)
      (mismatch : ∃ leaf ∈ failure.leaves, leaf.1.kind = .notMatch) :
      EndsRepetition rules label min max item answer input k last
        (counted label min k input (inRow answer input k)) left
  /-- The next attempt fails otherwise. -/
  | broken {failure : Failure} (goes : ¬ DoneAt answer max input k)
      (fails : attempt answer input k = .error failure)
      (attempted : (item.body rules (input.drop (inRow answer input k).consumed)).Leads rules last
        (.error failure) left)
      (otherwise : ∀ leaf ∈ failure.leaves, leaf.1.kind ≠ .notMatch) :
      EndsRepetition rules label min max item answer input k last (.error failure) left

variable {rules : Rules V} {item : Parser V} {answer : List (Token V) → Outcome V}
  {I : Context V → Prop} {max : Option Nat} {input : List (Token V)}

theorem DeterminedBy.leads (h : item.DeterminedBy rules I answer) (hctx : I ctx)
    (input : List (Token V)) :
    ∃ ctx', (item.body rules input).Leads rules ctx (answer input) ctx' ∧ I ctx' := by
  obtain ⟨ctx', es, hes, hctx'⟩ := h.runs hctx input
  exact ⟨ctx', ⟨es, hes⟩, hctx'⟩

/-- What holds of a repetition that has matched `k` times and goes on. -/
structure Repeating (rules : Rules V) (item : Parser V) (answer : List (Token V) → Outcome V)
    (I : Context V → Prop) (max : Option Nat) (input : List (Token V)) (entered : Context V)
    (k : Nat) (ctx : Context V) : Prop where
  inside : I ctx
  matched : Iterates rules item input k entered (inRow answer input k) ctx
  unstopped : ∀ j < k, ¬ StopsAt answer max input j
  nonempty : ¬ ZeroWidthAt answer input k
  progress : k ≤ (inRow answer input k).consumed

namespace Repeating

theorem start (hentered : I entered) :
    Repeating rules item answer I max input entered 0 entered where
  inside := hentered
  matched := .zero
  unstopped := by simp
  nonempty := not_zeroWidthAt_zero
  progress := Nat.zero_le _

variable {entered ctx ctx₁ : Context V} {m : Match V}
  (h : Repeating rules item answer I max input entered k ctx)
include h

theorem doneAt_of_any (hany : max.any (· ≤ k) = true) : DoneAt answer max input k := by
  cases max with
  | none => simp at hany
  | some bound =>
    have hle : bound ≤ k := by simpa using hany
    refine .inl (congrArg some (Nat.le_antisymm hle (Nat.le_of_not_lt fun hlt => ?_)))
    exact h.unstopped bound hlt (.inl (.inl rfl))

section
variable (hgoes : ¬ DoneAt answer max input k) (hattempt : attempt answer input k = .ok m)
  (hleads : (item.body rules (input.drop (inRow answer input k).consumed)).Leads rules ctx
    (.ok m) ctx₁)

include hleads hattempt in
theorem matched_succ :
    Iterates rules item input (k + 1) entered (inRow answer input (k + 1)) ctx₁ := by
  rw [inRow_succ hattempt]
  exact h.matched.succ hleads

include hgoes hattempt in
theorem unstopped_succ : ∀ j < k + 1, ¬ StopsAt answer max input j := by
  intro j hj
  rcases Nat.lt_succ_iff_lt_or_eq.1 hj with hj | rfl
  · exact h.unstopped j hj
  · simpa [StopsAt, hattempt] using hgoes

include hgoes hattempt hleads in
theorem next (hctx₁ : I ctx₁) (hprogress : m.consumed ≠ 0) :
    Repeating rules item answer I max input entered (k + 1) ctx₁ where
  inside := hctx₁
  matched := h.matched_succ hattempt hleads
  unstopped := h.unstopped_succ hgoes hattempt
  nonempty := by
    rw [zeroWidthAt_succ hattempt]
    exact hprogress
  progress := by
    rw [inRow_succ hattempt]
    exact Nat.add_le_add h.progress (Nat.pos_of_ne_zero hprogress)

end

end Repeating

/-- The loop goes on to the least number of matches after which it has to stop. -/
theorem repeatFrom_iterates (hitem : item.DeterminedBy rules I answer) {entered ctx : Context V}
    (label : String) (min : Nat) (hbudget : budget + k = input.length)
    (h : Repeating rules item answer I max input entered k ctx) :
    ∃ count last o left, IsLeast {k | StopsAt answer max input k} count ∧
      count ≤ input.length ∧
      Iterates rules item input count entered (inRow answer input count) last ∧
      EndsRepetition rules label min max item answer input count last o left ∧
      (repeatFrom label min max item input budget k (inRow answer input k)).Leads rules ctx
        o left := by
  -- By the recursion of the loop, whose budget and count together are the number of tokens.
  induction budget generalizing k ctx with
  | zero =>
    have hdone : DoneAt answer max input k := .inr (.inl (by have := h.progress; omega))
    refine ⟨k, ctx, _, ctx, isLeast_stopsAt (.inl hdone) h.unstopped, by omega, h.matched,
      .full hdone, ?_⟩
    simp [repeatFrom, endRepetition_eq]
  | succ budget ih =>
    by_cases hstop : max.any (· ≤ k) = true ∨ input.length ≤ (inRow answer input k).consumed
    · have hdone : DoneAt answer max input k :=
        hstop.elim h.doneAt_of_any fun hused => .inr (.inl hused)
      refine ⟨k, ctx, _, ctx, isLeast_stopsAt (.inl hdone) h.unstopped, by omega, h.matched,
        .full hdone, ?_⟩
      simp [repeatFrom, hstop, endRepetition_eq]
    · have hgoes : ¬ DoneAt answer max input k := by
        rintro (rfl | hused | hempty)
        · simp at hstop
        · exact hstop (.inr hused)
        · exact h.nonempty hempty
      obtain ⟨ctx₁, hleads, hctx₁⟩ :=
        hitem.leads h.inside (input.drop (inRow answer input k).consumed)
      change (item.body rules _).Leads rules ctx (attempt answer input k) ctx₁ at hleads
      simp only [repeatFrom, Bool.or_eq_true, decide_eq_true_eq, if_neg hstop,
        Action.leads_call_iff]
      cases hattempt : attempt answer input k with
      | error failure =>
        rw [hattempt] at hleads
        have hleast := isLeast_stopsAt (.inr ⟨failure, hattempt⟩) h.unstopped
        by_cases hmismatch : failure.is .notMatch = true
        · refine ⟨k, ctx, _, ctx₁, hleast, by omega, h.matched,
            .missed hgoes hattempt hleads ((failure.is_iff _).1 hmismatch), _, _, hleads, ?_⟩
          simp [hmismatch, endRepetition_eq]
        · refine ⟨k, ctx, _, ctx₁, hleast, by omega, h.matched,
            .broken hgoes hattempt hleads ?_, _, _, hleads, ?_⟩
          · intro leaf hleaf hkind
            exact hmismatch ((failure.is_iff _).2 ⟨leaf, hleaf, hkind⟩)
          · simp [hmismatch, Action.failWith]
      | ok m =>
        rw [hattempt] at hleads
        by_cases hempty : m.consumed = 0
        · have hdone : DoneAt answer max input (k + 1) :=
            .inr (.inr ((zeroWidthAt_succ hattempt).2 hempty))
          refine ⟨k + 1, ctx₁, _, ctx₁,
            isLeast_stopsAt (.inl hdone) (h.unstopped_succ hgoes hattempt), by omega,
            h.matched_succ hattempt hleads, .full hdone, _, _, hleads, ?_⟩
          simp [hempty, endRepetition_eq, inRow_succ hattempt]
        · obtain ⟨count, last, o, left, hleast, hle, hmatched, hends, hrest⟩ :=
            ih (by omega) (h.next hgoes hattempt hleads hctx₁ hempty)
          refine ⟨count, last, o, left, hleast, hle, hmatched, hends, _, _, hleads, ?_⟩
          simpa [hempty, inRow_succ hattempt] using hrest

-- ---------------------------------------------------------------------------
-- A repetition
-- ---------------------------------------------------------------------------

/-- A repetition for which the depth is not limited matches its item in a row, as often as it
is the least number after which it has to stop, and then ends. So it always comes to an end,
after no more matches than there are tokens. -/
theorem DeterminedBy.repetition_iterates (hitem : item.DeterminedBy rules I answer)
    {ctx : Context V} (label : String) (min : Nat) (max : Option Nat) (input : List (Token V))
    (hguard : ctx.config.maxDepth = 0)
    (hentered : ∀ entered, ctx.enter? label (firstPos input) = .ok entered → I entered) :
    ∃ entered count last o left n, ctx.enter? label (firstPos input) = .ok entered ∧
      IsLeast {k | StopsAt answer max input k} count ∧ count ≤ input.length ∧
      Iterates rules item input count entered (inRow answer input count) last ∧
      EndsRepetition rules label min max item answer input count last o left ∧
      run rules n (.repetition label min max item) input ctx =
        some (o, left.leave label (firstPos input) entered.traces.size o) := by
  have hopen : ¬ ctx.AtLimit := fun hlimit => Nat.ne_of_gt hlimit.1 hguard
  obtain ⟨entered, gate⟩ := Context.exists_enter? hopen label (firstPos input)
  obtain ⟨count, last, o, left, hleast, hle, hmatched, hends, hleads⟩ :=
    repeatFrom_iterates hitem label min (Nat.add_zero input.length) (.start (hentered entered gate))
  have hrun : (body rules (.repetition label min max item) input).Leads rules ctx o
      (left.leave label (firstPos input) entered.traces.size o) :=
    (Action.leads_traced_iff gate).2 ⟨left, hleads, rfl⟩
  obtain ⟨n, hn⟩ := exists_run_iff.2 hrun
  exact ⟨entered, count, last, o, left, n, gate, hleast, hle, hmatched, hends, hn⟩

/-- Two commas, and then nothing before the last token. -/
theorem commas_iterate : ∃ count o ctx n,
    IsLeast {k | StopsAt readComma none (Token.ofTexts [",", ",", "a"]) k} count ∧
      count ≤ 3 ∧
      run (fun _ => none) n (.repetition "commas" 3 none commaOrNone)
        (Token.ofTexts [",", ",", "a"]) (.ofConfig ⟨0, true, .safe, true⟩) = some (o, ctx) := by
  have hunlimited : (Context.ofConfig (V := Int64) ⟨0, true, .safe, true⟩).config.maxDepth = 0 :=
    rfl
  obtain ⟨entered, count, last, o, left, n, -, hleast, hle, -, -, hn⟩ :=
    commaOrNone_computes.determinedBy.repetition_iterates "commas" 3 none
      (Token.ofTexts [",", ",", "a"]) hunlimited fun entered gate => by
        rw [Context.enter?_config gate]
        exact hunlimited
  exact ⟨count, o, _, n, hleast, hle, hn⟩

end TokenGrammar.Parser
