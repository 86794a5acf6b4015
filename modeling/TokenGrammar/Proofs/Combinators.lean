import TokenGrammar.Proofs.Contract

/-!
# Combinators under a contract

Each loop of the combinators has a rule that says what is left to show of it: that a
call keeps an invariant of what the loop has so far, and that each of its ends
satisfies `post`. For a choice there is nothing to keep but that what it has came from
its options, so that one rule does for all modes (`Parser.choose_meets`).

A contract on failures alone has one rule for all combinators (`Parser.body_failsInto`),
and so has one on matches alone (`Parser.body_matchesInto`): there are a few ways to fail
and to match, and every combinator does so in some of these.
-/

namespace TokenGrammar.Parser

variable {V : Type} [TokenValue V] {S : Contract V} {rules : Rules V} {post : Outcome V → Prop}
  {input : List (Token V)}

theorem traced_meets {region : Step V}
    (hguard : ∀ depth maxDepth, post (.error (.stackOverflow depth maxDepth (firstPos input))))
    (h : region.Meets S rules post) : (Action.traced name input region).Meets S rules post :=
  ⟨hguard, h⟩

theorem seqFrom_meets {parts : List (Parser V)} (inv : Match V → Prop)
    (hmatch : ∀ part ∈ parts, ∀ sofar m, inv sofar →
      S.returns part (input.drop sofar.consumed) (.ok m) → inv (sofar ++ m))
    (hfail : ∀ part ∈ parts, ∀ sofar failure, inv sofar →
      S.returns part (input.drop sofar.consumed) (.error failure) →
      post (.error (if (input.drop sofar.consumed).isEmpty then failure.orAt (endPos input)
        else failure)))
    (hend : ∀ sofar, inv sofar → post (.ok sofar)) (hsofar : inv sofar) :
    (seqFrom input parts sofar).Meets S rules post := by
  induction parts generalizing sofar with
  | nil => exact hend sofar hsofar
  | cons part parts ih =>
    obtain ⟨hpart, hmatch⟩ := List.forall_mem_cons.1 hmatch
    obtain ⟨hpart', hfail⟩ := List.forall_mem_cons.1 hfail
    intro o ho
    cases o with
    | ok m => exact ih hmatch hfail (hpart sofar m hsofar ho)
    | error failure => exact hpart' sofar failure hsofar ho

-- ---------------------------------------------------------------------------
-- Choices
-- ---------------------------------------------------------------------------

def Failed (S : Contract V) (options : List (Parser V)) (input : List (Token V))
    (failures : List Failure) : Prop :=
  ∀ failure ∈ failures, failure.isRecoverable = true ∧
    ∃ option ∈ options, S.returns option input (.error failure)

omit [TokenValue V] in
theorem Failed.snoc {options : List (Parser V)} {failure : Failure}
    (h : Failed S options input failures) (hoption : option ∈ options)
    (hfailure : S.returns option input (.error failure))
    (hrec : failure.isRecoverable = true) : Failed S options input (failures ++ [failure]) :=
  List.forall_mem_append.2 ⟨h, List.forall_mem_singleton.2 ⟨hrec, option, hoption, hfailure⟩⟩

structure ChoosesInto (S : Contract V) (post : Outcome V → Prop) (options : List (Parser V))
    (input : List (Token V)) : Prop where
  matched : ∀ option ∈ options, ∀ m, S.returns option input (.ok m) → post (.ok m)
  fatal : ∀ option ∈ options, ∀ failure, S.returns option input (.error failure) →
    failure.isRecoverable = false → post (.error failure)
  /-- There is one failure for each option. -/
  joined : ∀ failures, failures.length = options.length → Failed S options input failures →
    post (.error (.join failures (firstPos input)))

theorem length_snoc_add {xs : List α} {ys : List β} :
    (xs ++ [x]).length + ys.length = xs.length + (y :: ys).length := by
  simp only [List.length_append, List.length_cons, List.length_nil]
  omega

section
variable {options rest : List (Parser V)} (h : ChoosesInto S post options input)
include h

-- `rest` are the options not tried yet; where nothing has matched, all others have failed.
theorem longestFrom_meets (hrest : ∀ option ∈ rest, option ∈ options)
    {best : Option (Match V)} (hbest : ∀ b ∈ best, post (.ok b))
    (hfailed : Failed S options input failures)
    (hcount : best = none → failures.length + rest.length = options.length) :
    (longestFrom input rest best failures).Meets S rules post := by
  induction rest generalizing best failures with
  | nil =>
    cases best with
    | none => exact h.joined failures (hcount rfl) hfailed
    | some b => exact hbest b rfl
  | cons option rest ih =>
    obtain ⟨hoption, hrest⟩ := List.forall_mem_cons.1 hrest
    intro o ho
    cases o with
    | ok m =>
      have hm := h.matched option hoption m ho
      refine ih hrest (fun b hb => ?_) hfailed fun hnone => absurd hnone (Option.some_ne_none _)
      obtain rfl := Option.some.inj hb
      cases best with
      | none => exact hm
      | some best =>
        simp only [longer]
        split
        · exact hm
        · exact hbest best rfl
    | error failure =>
      simp only
      split
      · next hrec =>
        exact ih hrest hbest (hfailed.snoc hoption ho hrec) fun hnone =>
          length_snoc_add.trans (hcount hnone)
      · next hfatal => exact h.fatal option hoption failure ho (Bool.eq_false_iff.2 hfatal)

theorem firstFrom_meets (hrest : ∀ option ∈ rest, option ∈ options)
    (hfailed : Failed S options input failures)
    (hcount : failures.length + rest.length = options.length) :
    (firstFrom input rest failures).Meets S rules post := by
  induction rest generalizing failures with
  | nil => exact h.joined failures hcount hfailed
  | cons option rest ih =>
    obtain ⟨hoption, hrest⟩ := List.forall_mem_cons.1 hrest
    intro o ho
    cases o with
    | ok m => exact h.matched option hoption m ho
    | error failure =>
      simp only
      split
      · next hrec =>
        exact ih hrest (hfailed.snoc hoption ho hrec) (length_snoc_add.trans hcount)
      · next hfatal => exact h.fatal option hoption failure ho (Bool.eq_false_iff.2 hfatal)

theorem comparedFrom_meets (location : String) (number : Nat)
    (hrest : ∀ option ∈ rest, option ∈ options) {comparison : Option (Comparison V)}
    (hfirst : ∀ c ∈ comparison, post (.ok c.first.matched))
    (hfailed : Failed S options input failures)
    (hcount : comparison = none → failures.length + rest.length = options.length) :
    (comparedFrom location input rest number comparison failures).Meets S rules post := by
  induction rest generalizing number comparison failures with
  | nil =>
    cases comparison with
    | none => exact h.joined failures (hcount rfl) hfailed
    | some c =>
      rw [comparedFrom]
      split <;> exact hfirst c rfl
  | cons option rest ih =>
    obtain ⟨hoption, hrest⟩ := List.forall_mem_cons.1 hrest
    intro o ho
    cases o with
    | ok m =>
      refine ih _ hrest (fun c hc => ?_) hfailed fun hnone => absurd hnone (Option.some_ne_none _)
      obtain rfl := Option.some.inj hc
      -- A later match never takes the place of the first one.
      cases comparison with
      | none => exact h.matched option hoption m ho
      | some c =>
        unfold Comparison.extend
        simp only
        split <;> exact hfirst c rfl
    | error failure =>
      simp only
      split
      · next hrec =>
        exact ih _ hrest hfirst (hfailed.snoc hoption ho hrec) fun hnone =>
          length_snoc_add.trans (hcount hnone)
      · next hfatal => exact h.fatal option hoption failure ho (Bool.eq_false_iff.2 hfatal)

theorem choose_meets (location : String) (mode : ChoiceMode) :
    (choose location options input mode).Meets S rules post := by
  have hcount : ([] : List Failure).length + options.length = options.length := Nat.zero_add _
  cases mode with
  | safe => exact longestFrom_meets h (fun _ ho => ho) nofun nofun fun _ => hcount
  | fast => exact firstFrom_meets h (fun _ ho => ho) nofun hcount
  | tryFast => exact comparedFrom_meets h location 1 (fun _ ho => ho) nofun nofun fun _ => hcount

end

-- ---------------------------------------------------------------------------
-- Repetitions, and the way past a bad statement
-- ---------------------------------------------------------------------------

/-- The item of a repetition is never tried at the end of the input. -/
theorem repeatFrom_meets {item : Parser V} {min : Nat} (inv : Match V → Prop)
    (hmatch : ∀ sofar m, inv sofar → sofar.consumed < input.length →
      S.returns item (input.drop sofar.consumed) (.ok m) → inv (sofar ++ m))
    (hfail : ∀ sofar failure, inv sofar → sofar.consumed < input.length →
      S.returns item (input.drop sofar.consumed) (.error failure) → post (.error failure))
    (hend : ∀ sofar, inv sofar → post (.ok sofar))
    (hfew : ∀ count, post (.error (.repeatCount label min count (firstPos input))))
    (max : Option Nat) (budget count : Nat) (hsofar : inv sofar) :
    (repeatFrom label min max item input budget count sofar).Meets S rules post := by
  have hstop : ∀ count sofar, inv sofar →
      (endRepetition label min input count sofar).Meets S rules post := by
    intro count sofar hsofar
    unfold endRepetition
    split
    · exact hfew count
    · exact hend sofar hsofar
  induction budget generalizing count sofar with
  | zero => exact hstop count sofar hsofar
  | succ budget ih =>
    rw [repeatFrom]
    split
    · exact hstop count sofar hsofar
    · next hgo =>
      have hleft : sofar.consumed < input.length := by
        simp only [Bool.or_eq_true, decide_eq_true_eq, not_or] at hgo
        omega
      intro o ho
      cases o with
      | ok m =>
        have hnext := hmatch sofar m hsofar hleft ho
        simp only
        split
        · exact hstop _ _ hnext
        · exact ih _ hnext
      | error failure =>
        simp only
        split
        · exact hstop count sofar hsofar
        · exact hfail sofar failure hsofar hleft ho

theorem resync_meets {skipUntil : Parser V}
    (hmatch : ∀ (front rest : List (Token V)) m, front ++ rest = input →
      S.returns skipUntil rest (.ok m) → post (.ok ⟨front.length + m.consumed, []⟩))
    (hend : post (.ok ⟨input.length, []⟩)) :
    (resync skipUntil input 0).Meets S rules post := by
  have hfrom : ∀ suffix front : List (Token V), front ++ suffix = input →
      (resync skipUntil suffix front.length).Meets S rules post := by
    intro suffix
    induction suffix with
    | nil =>
      rintro front rfl
      rw [List.append_nil] at hend
      exact hend
    | cons token rest ih =>
      intro front hfront o ho
      cases o with
      | ok m => exact hmatch front (token :: rest) m hfront ho
      | error failure =>
        have hnext := ih (front ++ [token]) (by rw [List.append_assoc, ← hfront]; rfl)
        rw [List.length_append, List.length_singleton] at hnext
        exact hnext
  exact hfrom input [] rfl

/-- A recovery whose `body` fails, or is refused, logs that failure. Then no other failure is
left than that the gate refuses the resynchronization, too. -/
theorem recover_meets {search body skipUntil : Parser V}
    (hguard : ∀ depth maxDepth, post (.error (.stackOverflow depth maxDepth (firstPos input))))
    (hsearch : ∀ failure, S.returns search input (.error failure) → post (.error failure))
    (hbody : ∀ m, S.returns body input (.ok m) → post (.ok m))
    (hlogs : ∀ failure,
      (∃ depth maxDepth, failure = .stackOverflow depth maxDepth (firstPos input)) ∨
        S.returns body input (.error failure) → S.logs (failure.orAt (firstPos input)))
    (hmatch : ∀ (front rest : List (Token V)) m, front ++ rest = input →
      S.returns skipUntil rest (.ok m) → post (.ok ⟨front.length + m.consumed, []⟩))
    (hend : post (.ok ⟨input.length, []⟩)) :
    ((recover search body skipUntil).body rules input).Meets S rules post := by
  have hheal : (Action.traced "healing" input (resync skipUntil input 0)).Meets S rules post :=
    traced_meets hguard (resync_meets hmatch hend)
  refine traced_meets hguard ⟨fun _ _ => hguard _ _, fun checked hchecked => ?_⟩
  cases checked with
  | error failure => exact hsearch failure hchecked
  | ok _ =>
    refine ⟨fun _ _ => ⟨hlogs _ (.inl ⟨_, _, rfl⟩), hheal⟩, fun o ho => ?_⟩
    cases o with
    | ok m => exact hbody m ho
    | error failure => exact ⟨hlogs failure (.inr ho), hheal⟩

-- ---------------------------------------------------------------------------
-- Failures
-- ---------------------------------------------------------------------------

structure FailsInto (S : Contract V) (rules : Rules V) (allowed : Failure → Prop)
    (p : Parser V) (input : List (Token V)) : Prop where
  own : ∀ fault, allowed (.single fault (firstPos input))
  /-- The failure of a part is passed on. -/
  passed : ∀ q ∈ p.parts rules, ∀ rest f, rest <:+ input → (rest = [] → input = []) →
    S.returns q rest (.error f) → allowed f
  /-- A sequence gives the failure of a part at the end of the input a place. -/
  placed : ∀ q ∈ p.parts rules, ∀ f, S.returns q [] (.error f) → allowed (f.orAt (endPos input))
  joined : ∀ location mode options, p = .choice location mode options →
    ∀ failures, failures.length = options.length → Failed S options input failures →
      allowed (.join failures (firstPos input))
  leaf : ∀ program, p = .leaf program → ∀ ctx f ctx' es,
    Runs rules (program input) ctx (.error f) ctx' es → allowed f
  converted : ∀ location item convert, p = .transform location item convert →
    ∀ tokens ctx f ctx' es, Runs rules (convert tokens) ctx (.error f) ctx' es → allowed f
  logged : ∀ f, allowed f → S.logs (f.orAt (firstPos input))
  code : p.Clients (·.Meets S.inside rules fun _ => True)

def OnlyFails (allowed : Failure → Prop) (o : Outcome V) : Prop := ∀ f, o = .error f → allowed f

section
variable {allowed : Failure → Prop}

omit [TokenValue V] in
theorem onlyFails_ok (m : Match V) : OnlyFails allowed (.ok m) := fun _ h => nomatch h

omit [TokenValue V] in
theorem onlyFails_error : OnlyFails (V := V) allowed (.error f) ↔ allowed f :=
  ⟨fun h => h f rfl, fun hf _ h => Except.error.inj h ▸ hf⟩

theorem body_failsInto {p : Parser V} (h : FailsInto S rules allowed p input) :
    (p.body rules input).Meets S rules (OnlyFails allowed) := by
  have htraced : ∀ {name} {region : Step V}, region.Meets S rules (OnlyFails allowed) →
      (Action.traced name input region).Meets S rules (OnlyFails allowed) :=
    traced_meets fun _ _ => onlyFails_error.2 (h.own _)
  have hown : ∀ fault, OnlyFails (V := V) allowed (.error (.single fault (firstPos input))) :=
    fun fault => onlyFails_error.2 (h.own fault)
  have hpassed : ∀ q ∈ p.parts rules, ∀ f, S.returns q input (.error f) →
      OnlyFails (V := V) allowed (.error f) :=
    fun q hq f hf => onlyFails_error.2 (h.passed q hq input f (List.suffix_refl _) id hf)
  cases p with
  | leaf program =>
    refine ⟨h.code input, ?_⟩
    rintro o ⟨ctx, ctx', es, hrun⟩ f rfl
    exact h.leaf program rfl ctx f ctx' es hrun
  | seq label parts =>
    refine htraced (seqFrom_meets (fun _ => True) (fun _ _ _ _ _ _ => trivial)
      (fun part hpart sofar f _ hf => onlyFails_error.2 ?_) (fun _ _ => onlyFails_ok _) trivial)
    split
    · next hrest =>
      rw [List.isEmpty_iff.1 hrest] at hf
      exact h.placed part hpart f hf
    · next hrest =>
      exact h.passed part hpart _ f (List.drop_suffix ..) (fun hnil => by simp [hnil] at hrest) hf
  | choice location mode options =>
    have hoptions : ChoosesInto S (OnlyFails allowed) options input :=
      ⟨fun _ _ m _ => onlyFails_ok m, fun option ho f hf _ => hpassed option ho f hf,
        fun failures hlength hfailed =>
          onlyFails_error.2 (h.joined location mode options rfl failures hlength hfailed)⟩
    cases mode with
    | some mode => exact htraced (choose_meets hoptions location mode)
    | none => exact htraced (choose_meets hoptions location)
  | repetition label min max item =>
    refine htraced (repeatFrom_meets (fun _ => True) (fun _ _ _ _ _ => trivial)
      (fun sofar f _ hleft hf => onlyFails_error.2 ?_) (fun _ _ => onlyFails_ok _)
      (fun _ => hown _) max _ 0 trivial)
    refine h.passed item List.mem_cons_self _ f (List.drop_suffix ..) (fun hnil => ?_) hf
    exact absurd (List.drop_eq_nil_iff.1 hnil) (Nat.not_le.2 hleft)
  | optional item =>
    refine htraced fun o ho => ?_
    cases o with
    | ok m => exact onlyFails_ok m
    | error f =>
      simp only
      split
      · exact onlyFails_ok .nothing
      · exact hpassed item List.mem_cons_self f ho
  | transform location item convert =>
    intro o ho
    cases o with
    | error f => exact hpassed item List.mem_cons_self f ho
    | ok m =>
      refine ⟨h.code m.produced, ?_⟩
      rintro r ⟨ctx, ctx', es, hrun⟩
      cases r with
      | ok converted => exact onlyFails_ok _
      | error f =>
        exact onlyFails_error.2 (h.converted location item convert rfl _ ctx f ctx' es hrun)
  | before test => exact htraced (onlyFails_ok _)
  | empty label =>
    cases label with
    | none => exact onlyFails_ok _
    | some label => exact htraced (onlyFails_ok _)
  | atEnd =>
    cases input with
    | nil => exact htraced (onlyFails_ok _)
    | cons token rest => exact htraced (hown _)
  | recover search body skipUntil =>
    refine recover_meets (fun _ _ => hown _) (hpassed search (by simp [Parser.parts]))
      (fun m _ => onlyFails_ok m) (fun f hf => h.logged f ?_) (fun _ _ _ _ _ => onlyFails_ok _)
      (onlyFails_ok _)
    rcases hf with ⟨depth, maxDepth, rfl⟩ | hf
    · exact h.own _
    · exact onlyFails_error.1 (hpassed body (by simp [Parser.parts]) f hf)
  | lookahead item | peek item =>
    refine htraced fun o ho => ?_
    cases o with
    | ok m => exact onlyFails_ok _
    | error f => exact hpassed item List.mem_cons_self f ho
  | notFollowedBy item =>
    refine htraced fun o _ => ?_
    cases o with
    | ok m => exact hown _
    | error f => exact onlyFails_ok _
  | labelled label item =>
    intro o _
    cases o with
    | ok m => exact onlyFails_ok m
    | error f => exact hown _
  | expected message | fail message => exact hown _
  | trace label item =>
    refine htraced fun o ho => ?_
    cases o with
    | ok m => exact onlyFails_ok m
    | error f => exact hpassed item List.mem_cons_self f ho
  | ref name rule | deferred rule =>
    refine htraced ?_
    cases hrule : rules rule with
    | none => exact hown _
    | some body =>
      intro o ho
      cases o with
      | ok m => exact onlyFails_ok m
      | error f => exact hpassed body (by simp [Parser.parts, hrule]) f ho

end

-- ---------------------------------------------------------------------------
-- Matches
-- ---------------------------------------------------------------------------

structure MatchesInto (S : Contract V) (rules : Rules V) (allowed : Match V → Prop)
    (p : Parser V) (input : List (Token V)) : Prop where
  nothing : allowed .nothing
  /-- The match of a part is passed on. -/
  passed : ∀ q ∈ p.parts rules, ∀ m, S.returns q input (.ok m) → allowed m
  /-- A match follows another one. -/
  appended : ∀ q ∈ p.parts rules, ∀ sofar m, allowed sofar →
    S.returns q (input.drop sofar.consumed) (.ok m) → allowed (sofar ++ m)
  skipped : ∀ test : Token V → Bool,
    allowed ⟨(input.takeWhile test).length, input.takeWhile test⟩
  leaf : ∀ program, p = .leaf program → ∀ ctx m ctx' es,
    Runs rules (program input) ctx (.ok m) ctx' es → allowed m
  converted : ∀ location item convert, p = .transform location item convert →
    ∀ m, S.returns item input (.ok m) → ∀ tokens, allowed ⟨m.consumed, tokens⟩
  peeked : ∀ item, p = .peek item → ∀ m, S.returns item input (.ok m) →
    allowed { m with consumed := 0 }
  resynced : ∀ search body skipUntil, p = .recover search body skipUntil →
    allowed ⟨input.length, []⟩ ∧ ∀ front rest m, front ++ rest = input →
      S.returns skipUntil rest (.ok m) → allowed ⟨front.length + m.consumed, []⟩
  logged : ∀ f, S.logs f

def OnlyMatches (allowed : Match V → Prop) (o : Outcome V) : Prop := ∀ m, o = .ok m → allowed m

section
variable {allowed : Match V → Prop}

omit [TokenValue V] in
theorem onlyMatches_error (f : Failure) : OnlyMatches allowed (.error f : Outcome V) :=
  fun _ h => nomatch h

omit [TokenValue V] in
theorem onlyMatches_ok : OnlyMatches allowed (.ok m) ↔ allowed m :=
  ⟨fun h => h m rfl, fun hm _ h => Except.ok.inj h ▸ hm⟩

theorem body_matchesInto {p : Parser V} (h : MatchesInto S rules allowed p input) :
    (p.body rules input).Meets S rules (OnlyMatches allowed) := by
  have htraced : ∀ {name} {region : Step V}, region.Meets S rules (OnlyMatches allowed) →
      (Action.traced name input region).Meets S rules (OnlyMatches allowed) :=
    traced_meets fun _ _ => onlyMatches_error _
  have hnothing : OnlyMatches allowed (.ok .nothing : Outcome V) := onlyMatches_ok.2 h.nothing
  have hpassed : ∀ q ∈ p.parts rules, ∀ o, S.returns q input o → OnlyMatches allowed o := by
    rintro q hq o ho m rfl
    exact h.passed q hq m ho
  have hcode : p.Clients (·.Meets S.inside rules fun _ => True) := p.clients_meets h.logged
  cases p with
  | leaf program =>
    refine ⟨hcode input, ?_⟩
    rintro o ⟨ctx, ctx', es, hrun⟩ m rfl
    exact h.leaf program rfl ctx m ctx' es hrun
  | seq label parts =>
    exact htraced (seqFrom_meets allowed (fun part hpart sofar m => h.appended part hpart sofar m)
      (fun _ _ _ _ _ _ => onlyMatches_error _) (fun _ => onlyMatches_ok.2) h.nothing)
  | choice location mode options =>
    have hoptions : ChoosesInto S (OnlyMatches allowed) options input :=
      ⟨fun option ho m hm => hpassed option ho _ hm, fun _ _ _ _ _ => onlyMatches_error _,
        fun _ _ _ => onlyMatches_error _⟩
    cases mode with
    | some mode => exact htraced (choose_meets hoptions location mode)
    | none => exact htraced (choose_meets hoptions location)
  | repetition label min max item =>
    exact htraced (repeatFrom_meets allowed
      (fun sofar m hsofar _ => h.appended item List.mem_cons_self sofar m hsofar)
      (fun _ _ _ _ _ => onlyMatches_error _) (fun _ => onlyMatches_ok.2)
      (fun _ => onlyMatches_error _) max _ 0 h.nothing)
  | optional item =>
    refine htraced fun o ho => ?_
    cases o with
    | ok m => exact hpassed item List.mem_cons_self _ ho
    | error f =>
      simp only
      split
      · exact hnothing
      · exact onlyMatches_error f
  | transform location item convert =>
    intro o ho
    cases o with
    | error f => exact onlyMatches_error f
    | ok m =>
      refine ⟨hcode m.produced, ?_⟩
      rintro r -
      cases r with
      | ok converted => exact onlyMatches_ok.2 (h.converted location item convert rfl m ho _)
      | error f => exact onlyMatches_error f
  | before test => exact htraced (onlyMatches_ok.2 (h.skipped _))
  | empty label =>
    cases label with
    | none => exact hnothing
    | some label => exact htraced hnothing
  | atEnd =>
    cases input with
    | nil => exact htraced hnothing
    | cons token rest => exact htraced (onlyMatches_error _)
  | recover search body skipUntil =>
    obtain ⟨hend, hmatch⟩ := h.resynced search body skipUntil rfl
    exact recover_meets (fun _ _ => onlyMatches_error _) (fun f _ => onlyMatches_error f)
      (fun m hm => hpassed body (by simp [Parser.parts]) _ hm) (fun f _ => h.logged _)
      (fun front rest m hinput hm => onlyMatches_ok.2 (hmatch front rest m hinput hm))
      (onlyMatches_ok.2 hend)
  | lookahead item =>
    refine htraced fun o _ => ?_
    cases o with
    | ok m => exact hnothing
    | error f => exact onlyMatches_error f
  | notFollowedBy item =>
    refine htraced fun o _ => ?_
    cases o with
    | ok m => exact onlyMatches_error _
    | error f => exact hnothing
  | peek item =>
    refine htraced fun o ho => ?_
    cases o with
    | ok m => exact onlyMatches_ok.2 (h.peeked item rfl m ho)
    | error f => exact onlyMatches_error f
  | labelled label item =>
    intro o ho
    cases o with
    | ok m => exact hpassed item List.mem_cons_self _ ho
    | error f => exact onlyMatches_error _
  | expected message | fail message => exact onlyMatches_error _
  | trace label item => exact htraced fun o ho => hpassed item List.mem_cons_self o ho
  | ref name rule | deferred rule =>
    refine htraced ?_
    cases hrule : rules rule with
    | none => exact onlyMatches_error _
    | some body => exact fun o ho => hpassed body (by simp [Parser.parts, hrule]) o ho

end

end TokenGrammar.Parser
