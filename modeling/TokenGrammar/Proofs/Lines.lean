import TokenGrammar.Proofs.Nesting

/-!
# The lines of a trace

A trace is written as one line a record where nothing that its records show has a line
break. A failure that several others were joined into always has some: its members stand
one below the other. A record that ends a parser quotes what it shows, but a record that
stands for all of a parser shows it as it is (`Invokes.trace_lines`).
-/

namespace TokenGrammar

-- ---------------------------------------------------------------------------
-- Line breaks
-- ---------------------------------------------------------------------------

namespace Text

def breaks (text : String) : Nat := text.toList.count '\n'

def OneLine (text : String) : Prop := breaks text = 0

instance (text : String) : Decidable (OneLine text) := inferInstanceAs (Decidable (_ = _))

theorem oneLine_iff {text : String} : OneLine text ↔ '\n' ∉ text.toList := List.count_eq_zero

@[simp] theorem breaks_append (first second : String) :
    breaks (first ++ second) = breaks first + breaks second := by
  simp [breaks]

@[simp] theorem oneLine_append {first second : String} :
    OneLine (first ++ second) ↔ OneLine first ∧ OneLine second := by
  simp [OneLine]

theorem oneLine_join {texts : List String} (h : ∀ text ∈ texts, OneLine text) :
    OneLine (String.join texts) := by
  rw [oneLine_iff, String.toList_join, List.mem_flatMap]
  rintro ⟨text, htext, hbreak⟩
  exact oneLine_iff.1 (h text htext) hbreak

theorem oneLine_intercalate (h : OneLine separator) {texts : List String}
    (htexts : ∀ text ∈ texts, OneLine text) : OneLine (separator.intercalate texts) := by
  induction texts with
  | nil => rw [String.intercalate_nil]; decide
  | cons text rest ih =>
    rw [List.forall_mem_cons] at htexts
    by_cases hrest : rest = []
    · rw [hrest, String.intercalate_singleton]
      exact htexts.1
    · rw [String.intercalate_cons_of_ne_nil hrest]
      simp [htexts.1, h, ih htexts.2]

theorem oneLine_digits (h : 1 < base) (n : Nat) :
    OneLine (String.ofList (Nat.toDigits base n)) := by
  rw [oneLine_iff, String.toList_ofList]
  induction n using Nat.strongRecOn with
  | ind n ih =>
    rw [Nat.toDigits_eq_if h]
    split
    · simp
    · next hn =>
      have hless := ih (n / base) (Nat.div_lt_self (by omega) h)
      simp [hless]

@[simp] theorem oneLine_repr (n : Nat) : OneLine n.repr := by
  rw [Nat.repr_eq_ofList_toDigits]
  exact oneLine_digits (by decide) n

theorem Quoted.oneLine_escape (c : Char) : OneLine (escape c) := by
  unfold escape
  split
  any_goals decide
  next hbreak _ _ _ =>
    split
    · have hdigits : OneLine (hex c.toNat) := oneLine_digits (by decide) c.toNat
      simp +decide [hdigits]
    · simpa [oneLine_iff] using Ne.symm hbreak

@[simp] theorem oneLine_quote (text : String) : OneLine (quote text) := by
  have hescaped : OneLine (String.join (text.toList.map Quoted.escape)) := by
    refine oneLine_join fun piece hpiece => ?_
    obtain ⟨c, -, rfl⟩ := List.mem_map.1 hpiece
    exact Quoted.oneLine_escape c
  simp +decide [quote, hescaped]

end Text

open Text (OneLine breaks)

@[simp] theorem Position.oneLine_renderOpt (pos : Option Position) :
    OneLine (Position.renderOpt pos) := by
  cases pos with
  | none => decide
  | some pos =>
    rw [Position.renderOpt, Position.render]
    split
    · simp
    · simp +decide

-- ---------------------------------------------------------------------------
-- Texts of failures
-- ---------------------------------------------------------------------------

def Fault.Plain : Fault → Prop
  | .notMatch expected actual => OneLine expected ∧ ∀ text ∈ actual, OneLine text
  | .repeatCount label _ _ => OneLine label
  | .critical message => OneLine message
  | .stackOverflow .. => True

-- The texts are written out: Lean does not get equations out of `Fault.render` in time.
theorem Fault.oneLine_render {fault : Fault} (h : fault.Plain) : OneLine fault.render := by
  cases fault with
  | notMatch expected actual =>
    have hexpected : OneLine ("not match expected: " ++ expected ++ ", ") := by
      simp [h.1]; decide
    refine Text.oneLine_append.2 ⟨hexpected, ?_⟩
    cases actual with
    | none => decide
    | some text =>
      change OneLine ("actual: " ++ text)
      simp [h.2 text rfl]; decide
  | repeatCount label expected actual =>
    have hlabel : OneLine label := h
    change OneLine ("repeat count (" ++ label ++ ") expected count: " ++ toString expected ++
      ", actual count: " ++ toString actual)
    simp [hlabel]; decide
  | critical message =>
    have hmessage : OneLine message := h
    change OneLine ("critical error: " ++ message)
    simp [hmessage]; decide
  | stackOverflow depth limit =>
    change OneLine ("stack overflow: recursion depth " ++ toString depth ++
      " exceeded maximum " ++ toString limit)
    simp; decide

namespace Failure

mutual
def Plain : Failure → Prop
  | .single fault _ => fault.Plain
  | .joined members _ => AllPlain members
def AllPlain : List Failure → Prop
  | [] => True
  | f :: fs => f.Plain ∧ AllPlain fs
end

mutual
/-- How many line breaks stand between the members of joins in a failure. -/
def gaps : Failure → Nat
  | .single .. => 0
  | .joined members _ => gapsAll members
def gapsAll : List Failure → Nat
  | [] => 0
  | f :: fs => f.gaps + if fs.isEmpty then 0 else 1 + gapsAll fs
end

mutual
theorem breaks_render (f : Failure) (h : f.Plain) : breaks f.render = f.gaps := by
  cases f with
  | single fault pos =>
    rw [Plain] at h
    rw [render, gaps]
    exact Text.oneLine_append.2 ⟨by simp +decide [Fault.oneLine_render h], by simp⟩
  | joined members pos =>
    rw [Plain] at h
    have hmembers := breaks_renderAll members h
    cases pos with
    | none => rw [render, gaps, hmembers]
    | some pos =>
      have hpos : breaks pos.render = 0 := Position.oneLine_renderOpt (some pos)
      rw [render, gaps, Text.breaks_append, Text.breaks_append, hmembers, hpos]
      rfl
theorem breaks_renderAll (fs : List Failure) (h : AllPlain fs) :
    breaks ("\n".intercalate (renderAll fs)) = gapsAll fs := by
  cases fs with
  | nil => rw [renderAll, gapsAll]; rfl
  | cons f fs =>
    rw [AllPlain] at h
    rw [renderAll, gapsAll]
    cases fs with
    | nil => simpa [renderAll] using breaks_render f h.1
    | cons g gs =>
      rw [String.intercalate_cons_of_ne_nil (by simp [renderAll]), Text.breaks_append,
        Text.breaks_append, breaks_render f h.1, breaks_renderAll (g :: gs) h.2]
      exact Nat.add_assoc ..
end

end Failure

section
variable {V : Type} [TokenValue V]

def Outcome.Plain : Outcome V → Prop
  | .ok m => ∀ token ∈ m.produced, OneLine (TokenValue.render token.val)
  | .error failure => failure.Plain

@[simp] theorem Outcome.plain_error {f : Failure} :
    Outcome.Plain (.error f : Outcome V) ↔ f.Plain :=
  Iff.rfl

theorem Token.oneLine_renderValues {tokens : List (Token V)}
    (h : ∀ token ∈ tokens, OneLine (TokenValue.render token.val)) :
    OneLine (Token.renderValues tokens) := by
  have hvalues : OneLine (", ".intercalate (tokens.map fun t => TokenValue.render t.val)) := by
    refine Text.oneLine_intercalate (by decide) fun text htext => ?_
    obtain ⟨token, htoken, rfl⟩ := List.mem_map.1 htext
    exact h token htoken
  simp +decide [Token.renderValues, hvalues]

end

-- ---------------------------------------------------------------------------
-- Records
-- ---------------------------------------------------------------------------

/-- Whether a record has its name on one line and, where it shows its result as it is,
shows values on one line or a plain failure. -/
structure TraceRecord.Plain (r : TraceRecord) : Prop where
  name : OneLine r.name
  values : r.kind = .enterMatched → OneLine r.result
  failure : r.kind = .enterNotMatched → ∃ f : Failure, f.Plain ∧ f.render = r.result

namespace TraceRecord

theorem head_prefix_render (r : TraceRecord) :
    List.replicate (2 * r.depth) ' ' ++ r.kind.symbol.toList <+: r.render.toList := by
  cases r with
  | mk kind depth name pos result =>
    cases kind <;> simp [render, indent, List.prefix_append]

theorem breaks_render {r : TraceRecord} (h : OneLine r.name) :
    breaks r.render =
      if r.kind = .enterMatched ∨ r.kind = .enterNotMatched then breaks r.result else 0 := by
  have hindent : OneLine (indent r.depth) := by
    simp [Text.oneLine_iff, indent]
  have hsymbol : OneLine r.kind.symbol := by
    cases r.kind <;> decide
  have hhead : OneLine (indent r.depth ++ r.kind.symbol ++ " " ++ r.name) := by
    simp [hindent, hsymbol, h]; decide
  have hplace : breaks (Position.renderOpt r.pos) = 0 := Position.oneLine_renderOpt r.pos
  have hquoted : breaks (Text.quote r.result) = 0 := Text.oneLine_quote r.result
  unfold OneLine at hhead
  unfold render
  generalize indent r.depth ++ r.kind.symbol ++ " " ++ r.name = head at hhead ⊢
  have hat : breaks (head ++ " at " ++ Position.renderOpt r.pos) = 0 := by
    simp [hhead, hplace]; decide
  cases r.kind with
  | enter => exact hat
  | enterMatched | enterNotMatched =>
    rw [Text.breaks_append, Text.breaks_append, hat]
    simp
    decide
  | matched | notMatched =>
    rw [Text.breaks_append, Text.breaks_append, hhead, hquoted]
    simp
    decide

end TraceRecord

-- ---------------------------------------------------------------------------
-- The records of a run
-- ---------------------------------------------------------------------------

section
variable {V : Type} [TokenValue V]

theorem Outcome.Plain.ending {o : Outcome V} (h : o.Plain) (hname : OneLine name)
    (alone : Bool) (depth : Nat) (place : Option Position) :
    TraceRecord.Plain ⟨.ending alone o.isMatch, depth, name, place, o.render⟩ := by
  cases o with
  | ok m =>
    refine ⟨hname, fun _ => Token.oneLine_renderValues h, fun hkind => ?_⟩
    cases alone <;> cases hkind
  | error failure =>
    refine ⟨hname, fun hkind => ?_, fun _ => ⟨failure, h, rfl⟩⟩
    cases alone <;> cases hkind

namespace Invocation

mutual
/-- Whether the name and the outcome of each traced parser that was let in have no line
break in a name, value, label or message. -/
def Plain : Invocation V → Prop
  | .refused _ => True
  | .admitted name _ o inside => OneLine name ∧ o.Plain ∧ AllPlain inside
def AllPlain : List (Invocation V) → Prop
  | [] => True
  | i :: is => i.Plain ∧ AllPlain is
end

@[simp] theorem allPlain_cons {i : Invocation V} {is : List (Invocation V)} :
    AllPlain (i :: is) ↔ i.Plain ∧ AllPlain is := by
  rw [AllPlain]

@[simp] theorem allPlain_append {is js : List (Invocation V)} :
    AllPlain (is ++ js) ↔ AllPlain is ∧ AllPlain js := by
  induction is with
  | nil => simp [AllPlain]
  | cons i is ih => simp [ih, and_assoc]

@[simp] theorem plain_admitted {o : Outcome V} {inside : List (Invocation V)} :
    (admitted name place o inside).Plain ↔ OneLine name ∧ o.Plain ∧ AllPlain inside := by
  rw [Plain]

end Invocation

namespace Context

def Plain (ctx : Context V) : Prop := ∀ r ∈ ctx.traces.toList, r.Plain

omit [TokenValue V] in
theorem Plain.push {ctx : Context V} (h : ctx.Plain) (hr : r.Plain) :
    (∀ s ∈ (ctx.traces.push r).toList, s.Plain) ∧
      ∀ s ∈ (ctx.traces.pop.push r).toList, s.Plain := by
  unfold Plain at h
  refine ⟨?_, ?_⟩ <;> rw [Array.toList_push, List.forall_mem_append, List.forall_mem_singleton]
  · exact ⟨h, hr⟩
  · rw [Array.toList_pop]
    exact ⟨fun s hs => h s (List.mem_of_mem_take (List.dropLast_eq_take ▸ hs)), hr⟩

omit [TokenValue V] in
theorem Plain.enter {ctx entered : Context V} (h : ctx.Plain) (hname : OneLine name)
    (gate : ctx.enter? name place = .ok entered) : entered.Plain := by
  have htraces := enter?_traces gate
  unfold Plain
  split at htraces <;> rw [htraces]
  · exact (h.push ⟨hname, by simp, by simp⟩).1
  · exact h

theorem Plain.leave {ctx : Context V} (h : ctx.Plain) (hname : OneLine name) (ho : o.Plain)
    (place : Option Position) (mark : Nat) : (ctx.leave name place mark o).Plain := by
  unfold Plain Context.leave rise recordOutcome
  split
  · simp only
    split
    · next last _ hlast =>
      have hmem : last ∈ ctx.traces.toList := by
        obtain ⟨earlier, htraces⟩ := Array.back?_eq_some_iff.1 hlast
        simp [htraces]
      exact (h.push (ho.ending (h last hmem).name true _ _)).2
    · exact (h.push (ho.ending hname false _ place)).1
  · exact h

end Context

theorem Invokes.plain {rules : Rules V} {ctx ctx' : Context V}
    (h : Invokes rules a ctx x ctx' calls) (hctx : ctx.Plain)
    (hcalls : Invocation.AllPlain calls) : ctx'.Plain := by
  induction h with
  | done => exact hctx
  | call _ _ ihParse ih =>
    rw [Invocation.allPlain_append] at hcalls
    exact ih (ihParse hctx hcalls.1) hcalls.2
  | refused _ _ ih =>
    rw [Invocation.allPlain_cons] at hcalls
    exact ih hctx hcalls.2
  | admitted gate _ _ ihInside ih =>
    rw [Invocation.allPlain_cons, Invocation.plain_admitted] at hcalls
    obtain ⟨⟨hname, ho, hinside⟩, hrest⟩ := hcalls
    exact ih ((ihInside (hctx.enter hname gate) hinside).leave hname ho _ _) hrest
  | client _ _ ihInside ih =>
    rw [Invocation.allPlain_append] at hcalls
    exact ih (ihInside hctx hcalls.1) hcalls.2
  | askMode _ ih | logFailure _ ih | report _ ih | clearPartials _ ih | keepPartials _ ih
  | unchecked _ _ ih | configure _ ih => exact ih hctx hcalls
  | checked _ _ _ ih => exact ih (by simpa [Context.Plain] using hctx) hcalls

end

-- ---------------------------------------------------------------------------
-- Lines
-- ---------------------------------------------------------------------------

namespace Trace

theorem writeTo_eq (output : String) (records : List TraceRecord) :
    writeTo output records = output ++ render records := by
  induction records generalizing output with
  | nil => simp [writeTo, render]
  | cons r rest ih =>
    have hrest := ih (output ++ line r)
    unfold writeTo at hrest ⊢
    rw [List.foldl_cons, hrest]
    simp [render, String.append_assoc]

theorem toList_render (records : List TraceRecord) :
    (render records).toList = ['\n'].intercalate (records.map (·.render.toList) ++ [[]]) := by
  induction records with
  | nil => rfl
  | cons r rest ih =>
    have hcons : ((rest.map (·.render.toList)) ++ [[]]) ≠ [] := by simp
    rw [List.map_cons, List.cons_append, List.intercalate_cons_of_ne_nil hcons, ← ih]
    simp [render, line]

theorem not_mem_of_mem_splitOn {c : Char} {text line : List Char} (h : line ∈ text.splitOn c) :
    c ∉ line := by
  induction text generalizing line with
  | nil => simp_all
  | cons d text ih =>
    rw [List.splitOn_cons_eq_if_modifyHead] at h
    split at h
    · rcases List.mem_cons.1 h with rfl | hrest
      · exact List.not_mem_nil
      · exact ih hrest
    · next hd =>
      cases hlines : text.splitOn c with
      | nil => exact absurd hlines (List.splitOn_ne_nil c text)
      | cons first rest =>
        rw [hlines, List.modifyHead_cons, List.mem_cons] at h
        rw [hlines] at ih
        rcases h with rfl | hrest
        · have hfirst := ih List.mem_cons_self
          have hd : c ≠ d := fun hcd => hd (by simp [hcd])
          simp [hd, hfirst]
        · exact ih (List.mem_cons_of_mem _ hrest)

/-- A trace is one line a record, in order and with nothing after the last one, just if every
record is on one line. -/
theorem splitOn_render_iff {records : List TraceRecord} :
    (render records).toList.splitOn '\n' = records.map (·.render.toList) ++ [[]] ↔
      ∀ r ∈ records, OneLine r.render := by
  simp only [Text.oneLine_iff]
  constructor
  · intro h r hr
    have hline : r.render.toList ∈ (render records).toList.splitOn '\n' := by
      rw [h]
      exact List.mem_append_left _ (List.mem_map_of_mem hr)
    exact not_mem_of_mem_splitOn hline
  · intro h
    rw [toList_render]
    refine List.splitOn_intercalate '\n' (fun line hline => ?_) (by simp)
    rw [List.mem_append, List.mem_map, List.mem_singleton] at hline
    rcases hline with ⟨r, hr, rfl⟩ | rfl
    · exact h r hr
    · exact List.not_mem_nil

end Trace

variable {V : Type} [TokenValue V] {rules : Rules V}

/-- Where the traced parsers of a parse have no line break in their names, values, labels and
messages, its trace reads the same both ways it is written, and each record begins with two
blanks a level and its symbol. A record is on one line, unless it stands for all of a parser
that failed and shows a join, which it does with every line break between the members. So the
trace is one line a record just if no such record shows a line break. -/
theorem Invokes.trace_lines {ctx ctx' : Context V}
    (h : Invokes rules (.parse p input) ctx o ctx' calls)
    (hctx : ctx.Plain) (hcalls : Invocation.AllPlain calls) :
    (∀ output, Trace.writeTo output ctx'.traces.toList = output ++ ctx'.traceText) ∧
    (∀ r ∈ ctx'.traces.toList,
      List.replicate (2 * r.depth) ' ' ++ r.kind.symbol.toList <+: r.render.toList ∧
      (OneLine r.render ∨ r.kind = .enterNotMatched ∧ ∃ f : Failure,
        f.Plain ∧ r.result = f.render ∧ 0 < f.gaps ∧ breaks r.render = f.gaps)) ∧
    (ctx'.traceText.toList.splitOn '\n' = ctx'.traces.toList.map (·.render.toList) ++ [[]] ↔
      ∀ r ∈ ctx'.traces.toList, r.kind = .enterNotMatched → OneLine r.result) := by
  have hplain := h.plain hctx hcalls
  have hbreaks : ∀ r ∈ ctx'.traces.toList,
      breaks r.render = if r.kind = .enterNotMatched then breaks r.result else 0 := by
    intro r hr
    rw [TraceRecord.breaks_render (hplain r hr).name]
    by_cases hmatched : r.kind = .enterMatched
    · rw [if_pos (.inl hmatched), (hplain r hr).values hmatched, hmatched]
      rfl
    · simp only [hmatched, false_or]
  refine ⟨fun output => Trace.writeTo_eq output _, fun r hr => ⟨r.head_prefix_render, ?_⟩, ?_⟩
  · by_cases hjoin : r.kind = .enterNotMatched
    · obtain ⟨f, hf, hresult⟩ := (hplain r hr).failure hjoin
      have hgaps : breaks r.render = f.gaps := by
        rw [hbreaks r hr, if_pos hjoin, ← hresult, f.breaks_render hf]
      rcases Nat.eq_zero_or_pos f.gaps with hnone | hsome
      · exact .inl (hgaps.trans hnone)
      · exact .inr ⟨hjoin, f, hf, hresult.symm, hsome, hgaps⟩
    · exact .inl ((hbreaks r hr).trans (if_neg hjoin))
  · refine Trace.splitOn_render_iff.trans (forall₂_congr fun r hr => ?_)
    unfold OneLine
    rw [hbreaks r hr]
    by_cases hjoin : r.kind = .enterNotMatched <;> simp [hjoin]

def freshTrace : Context Int64 := .ofConfig ⟨0, true, .fast, false⟩

def neitherFound : Failure :=
  .joined [.notMatch "a" "found something else" none, .notMatch "b" "found something else" none]
    none

theorem neitherFound_plain : neitherFound.Plain := by
  simp [neitherFound, Failure.notMatch, Failure.Plain, Failure.AllPlain, Fault.Plain]
  decide

/-- Options that are traced under labels of their own: the choice ends with a record of its own,
which quotes the join of their failures. -/
theorem freshTrace_lines : ∃ ctx' calls,
    Invokes (fun _ => none) (.parse (.choice "here" none
      [.trace "a" (.expected "a"), .trace "b" (.expected "b")]) []) freshTrace
      (.error neitherFound) ctx' calls ∧
    ctx'.traces.toList.map (·.kind) =
      [.enter, .enterNotMatched, .enterNotMatched, .notMatched] ∧
    ctx'.traceText.toList.splitOn '\n' = ctx'.traces.toList.map (·.render.toList) ++ [[]] := by
  obtain ⟨ctx', calls, hrun, hcalls, hkinds, hshown⟩ : ∃ ctx' calls,
      Invokes (fun _ => none) (.parse (.choice "here" none
        [.trace "a" (.expected "a"), .trace "b" (.expected "b")]) []) freshTrace
        (.error neitherFound) ctx' calls ∧
      calls = [.admitted "or" none (.error neitherFound)
        [.admitted "a" none (.error (.notMatch "a" "found something else" none)) [],
          .admitted "b" none (.error (.notMatch "b" "found something else" none)) []]] ∧
      ctx'.traces.toList.map (·.kind) =
        [.enter, .enterNotMatched, .enterNotMatched, .notMatched] ∧
      ∀ r ∈ ctx'.traces.toList, r.kind = .enterNotMatched → OneLine r.result := by
    refine ⟨_, _, .call (.admitted rfl (.askMode (.call (.admitted rfl (.call .done .done) .done)
      (.call (.admitted rfl (.call .done .done) .done) .done))) .done) .done, rfl, ?_, ?_⟩
    · decide +kernel
    · decide +kernel
  refine ⟨ctx', calls, hrun, hkinds, (hrun.trace_lines (fun r hr => ?_) ?_).2.2.2 hshown⟩
  · exact absurd hr List.not_mem_nil
  · rw [hcalls]
    simp [Invocation.AllPlain, neitherFound_plain, Failure.notMatch, Failure.Plain, Fault.Plain]
    decide

/-- Without them the choice is the one record, which shows the join on two lines. -/
theorem join_not_one_line : ∃ ctx' calls,
    Invokes (fun _ => none) (.parse (.choice "here" none [.expected "a", .expected "b"]) [])
      freshTrace (.error neitherFound) ctx' calls ∧
    Invocation.AllPlain calls ∧ ctx'.traces.size = 1 ∧
    ctx'.traceText =
      "! or at 1:1 -> not match expected: a, actual: found something else at 1:1\n" ++
        "not match expected: b, actual: found something else at 1:1\n" ∧
    ctx'.traceText.toList.splitOn '\n' ≠ ctx'.traces.toList.map (·.render.toList) ++ [[]] := by
  refine ⟨_, _, .call (.admitted rfl (.askMode (.call .done (.call .done .done))) .done) .done,
    ?_, ?_, ?_, ?_⟩
  · change Invocation.AllPlain [.admitted "or" none (.error neitherFound) []]
    simp [Invocation.AllPlain, neitherFound_plain]
    decide
  · decide +kernel
  · decide +kernel
  · decide +kernel

end TokenGrammar
