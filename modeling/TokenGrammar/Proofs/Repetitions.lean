import Mathlib.Data.List.Induction
import TokenGrammar.Trace.Repetition

/-!
# Which repeated starts are reported

A start repeats where the two starts before it at its place have its name (`Trace.Repeats`).
The search for left recursion reports the starts that repeat, in the order of the trace, but
not the third start at a place, and it takes places that are written alike for the same
(`Trace.leftRecursionWarnings_eq`).
-/

namespace TokenGrammar.Trace

variable {κ : Type} [DecidableEq κ]

-- ---------------------------------------------------------------------------
-- Repeated starts
-- ---------------------------------------------------------------------------

/-- The names of the starts at `place`, in order. Places are told apart by `key`. -/
def startsAt (key : Option Position → κ) (place : κ) (records : List TraceRecord) :
    List String :=
  (records.filter fun r => r.kind = .enter ∧ key r.pos = place).map (·.name)

/-- Whether `r`, which follows `earlier`, is a start with the name of the two starts before
it at its place. -/
def Repeats (key : Option Position → κ) (earlier : List TraceRecord) (r : TraceRecord) : Prop :=
  r.kind = .enter ∧ [r.name, r.name] <:+ startsAt key (key r.pos) earlier

/-- Whether `r` repeats and is not the third start at its place. -/
def RepeatsLate (key : Option Position → κ) (earlier : List TraceRecord) (r : TraceRecord) :
    Prop :=
  Repeats key earlier r ∧ 2 < (startsAt key (key r.pos) earlier).length

instance (key : Option Position → κ) (earlier : List TraceRecord) (r : TraceRecord) :
    Decidable (Repeats key earlier r) :=
  inferInstanceAs (Decidable (_ ∧ _))

instance (key : Option Position → κ) (earlier : List TraceRecord) (r : TraceRecord) :
    Decidable (RepeatsLate key earlier r) :=
  inferInstanceAs (Decidable (_ ∧ _))

def repetitionText (r : TraceRecord) : String :=
  "Potential left recursion detected: '" ++ r.name ++ "' called repeatedly at " ++
    Position.renderOpt r.pos

def reports (reported : List TraceRecord → TraceRecord → Prop)
    [∀ earlier r, Decidable (reported earlier r)] (records : List TraceRecord) : List String :=
  (records.zipIdx.filter fun (r, i) => reported (records.take i) r).map
    fun (r, _) => repetitionText r

section
variable {reported reported' : List TraceRecord → TraceRecord → Prop}
  [∀ earlier r, Decidable (reported earlier r)] [∀ earlier r, Decidable (reported' earlier r)]

theorem reports_concat (records : List TraceRecord) (r : TraceRecord) :
    reports reported (records ++ [r]) =
      reports reported records ++ if reported records r then [repetitionText r] else [] := by
  have hearlier : ∀ e ∈ records.zipIdx, (records ++ [r]).take e.2 = records.take e.2 := by
    intro e he
    have hlt : e.2 < records.length := by simpa using List.snd_lt_of_mem_zipIdx he
    exact List.take_append_of_le_length (Nat.le_of_lt hlt)
  have hfilter : (records.zipIdx.filter fun (s, i) => reported ((records ++ [r]).take i) s) =
      records.zipIdx.filter fun (s, i) => reported (records.take i) s :=
    List.filter_congr fun e he => by simp only [hearlier e he]
  unfold reports
  rw [List.zipIdx_append, List.filter_append, List.map_append, hfilter]
  by_cases h : reported records r <;> simp [h]

theorem reports_congr {records : List TraceRecord}
    (h : ∀ e ∈ records.zipIdx,
      (reported (records.take e.2) e.1 ↔ reported' (records.take e.2) e.1)) :
    reports reported records = reports reported' records := by
  unfold reports
  congr 1
  exact List.filter_congr fun e he => by simp only [h e he]

end

-- ---------------------------------------------------------------------------
-- What the search has seen
-- ---------------------------------------------------------------------------

namespace Starts

@[simp] theorem namesAt_nil (p : String) : namesAt [] p = [] := rfl

@[simp] theorem namesAt_cons (q : String) (names : List String) (rest : Starts) (p : String) :
    namesAt ((q, names) :: rest) p = if p = q then names else namesAt rest p := by
  by_cases h : p = q
  · rw [namesAt, h, List.lookup_cons_self, if_pos rfl, Option.getD_some]
  · rw [namesAt, List.lookup_cons, beq_eq_false_iff_ne.2 h, if_neg h, namesAt]

theorem namesAt_record (starts : Starts) (place name p : String) :
    (starts.record place name).namesAt p =
      if p = place then name :: starts.namesAt p else starts.namesAt p := by
  induction starts with
  | nil => simp [record]
  | cons entry rest ih =>
    obtain ⟨q, names⟩ := entry
    by_cases hq : q = place
    · subst hq
      by_cases h : p = q <;> simp [record, h]
    · by_cases h : p = q <;> simp [record, h, hq, ih]

def after (starts : Starts) (records : List TraceRecord) : Starts :=
  records.foldl (fun starts r =>
    if r.kind = .enter then starts.record (Position.renderOpt r.pos) r.name else starts) starts

theorem namesAt_after (place : String) (records : List TraceRecord) (starts : Starts) :
    (starts.after records).namesAt place =
      (startsAt Position.renderOpt place records).reverse ++ starts.namesAt place := by
  induction records generalizing starts with
  | nil => rfl
  | cons r rest ih =>
    have hrest := ih (if r.kind = .enter then
      starts.record (Position.renderOpt r.pos) r.name else starts)
    unfold after at hrest ⊢
    rw [List.foldl_cons, hrest]
    by_cases hkind : r.kind = .enter
    · by_cases hplace : Position.renderOpt r.pos = place
      · simp [startsAt, hkind, hplace, namesAt_record]
      · simp [startsAt, hkind, hplace, namesAt_record, Ne.symm hplace]
    · simp [startsAt, hkind]

end Starts

theorem warningsFrom_append (starts : Starts) (records later : List TraceRecord) :
    warningsFrom starts (records ++ later) =
      warningsFrom starts records ++ warningsFrom (starts.after records) later := by
  induction records generalizing starts with
  | nil => rfl
  | cons r rest ih =>
    simp only [List.cons_append, warningsFrom, ih]
    by_cases hkind : r.kind = .enter <;> simp [hkind, Starts.after]

theorem warning?_eq (place name : String) (names : List String) :
    warning? place (name :: names.reverse) =
      if [name, name] <:+ names ∧ 2 < names.length then
        some ("Potential left recursion detected: '" ++ name ++ "' called repeatedly at " ++ place)
      else none := by
  have hlast : [name, name] <:+ names ↔ [name, name] <+: names.reverse :=
    List.reverse_prefix.symm
  have hlength : names.length = names.reverse.length := List.length_reverse.symm
  simp only [hlast, hlength]
  generalize names.reverse = names
  match names with
  | [] | [a] | [a, b] => simp [warning?]
  | a :: b :: c :: names =>
    have hsame : name = a ∧ a = b ↔ name = a ∧ name = b :=
      ⟨fun ⟨ha, hb⟩ => ⟨ha, ha.trans hb⟩, fun ⟨ha, hb⟩ => ⟨ha, ha.symm.trans hb⟩⟩
    simp [warning?, hsame]

theorem leftRecursionWarnings_concat (records : List TraceRecord) (r : TraceRecord) :
    leftRecursionWarnings (records ++ [r]) = leftRecursionWarnings records ++
      if RepeatsLate Position.renderOpt records r then [repetitionText r] else [] := by
  unfold leftRecursionWarnings
  rw [warningsFrom_append]
  by_cases hkind : r.kind = .enter
  · have hnames := Starts.namesAt_after (Position.renderOpt r.pos) records []
    rw [show Starts.namesAt [] (Position.renderOpt r.pos) = [] from rfl, List.append_nil] at hnames
    simp only [warningsFrom, Starts.namesAt_record, hnames, List.append_nil,
      warning?_eq, RepeatsLate, Repeats, hkind, true_and, if_true]
    split <;> rfl
  · simp [warningsFrom, hkind, RepeatsLate, Repeats]

/-- The starts that repeat are reported in the order of the trace, but for the third start at
a place, where places that are written alike are taken for the same. So if written places
tell the places of starts apart, and no start repeats that is the third at its place, those
reported are all starts that repeat. -/
theorem leftRecursionWarnings_eq (records : List TraceRecord) :
    leftRecursionWarnings records = reports (RepeatsLate Position.renderOpt) records ∧
    ((∀ r ∈ records, ∀ s ∈ records, r.kind = .enter → s.kind = .enter →
        Position.renderOpt r.pos = Position.renderOpt s.pos → r.pos = s.pos) →
      (∀ e ∈ records.zipIdx, Repeats id (records.take e.2) e.1 →
        RepeatsLate id (records.take e.2) e.1) →
      leftRecursionWarnings records = reports (Repeats id) records) := by
  have hreported : leftRecursionWarnings records =
      reports (RepeatsLate Position.renderOpt) records := by
    induction records using List.reverseRecOn with
    | nil => rfl
    | append_singleton records r ih => rw [leftRecursionWarnings_concat, reports_concat, ih]
  refine ⟨hreported, fun hwritten hlate => ?_⟩
  rw [hreported]
  refine reports_congr fun ⟨r, i⟩ he => ?_
  have hr : r ∈ records := List.fst_mem_of_mem_zipIdx he
  by_cases hkind : r.kind = .enter
  · have hstarts : startsAt Position.renderOpt (Position.renderOpt r.pos) (records.take i) =
        startsAt id r.pos (records.take i) := by
      refine congrArg _ (List.filter_congr fun s hs => ?_)
      by_cases hstart : s.kind = .enter
      · have hplace : Position.renderOpt s.pos = Position.renderOpt r.pos ↔ s.pos = r.pos :=
          ⟨hwritten s (List.mem_of_mem_take hs) r hr hstart hkind, congrArg _⟩
        simp [hplace]
      · simp [hstart]
    have hlate := hlate (r, i) he
    unfold RepeatsLate Repeats at hlate ⊢
    rw [hstarts]
    exact ⟨And.left, hlate⟩
  · exact ⟨fun h => absurd h.1.1 hkind, fun h => absurd h.1 hkind⟩

def startAt (name : String) (index : Nat) : TraceRecord :=
  ⟨.enter, 0, name, some (.atIndex index), ""⟩

/-- Starts at two indices in turn. The last one is the fourth at index 7 and has the name of
the two before it there. -/
def interleaved : List TraceRecord :=
  [startAt "b" 7, startAt "a" 7, startAt "a" 12, startAt "a" 7, startAt "b" 12, startAt "a" 7]

theorem interleaved_leftRecursionWarnings :
    leftRecursionWarnings interleaved = reports (Repeats id) interleaved ∧
      reports (Repeats id) interleaved =
        ["Potential left recursion detected: 'a' called repeatedly at 7"] :=
  ⟨(leftRecursionWarnings_eq interleaved).2 (by decide +kernel) (by decide +kernel),
    by decide +kernel⟩

/-- The last of three starts at a place repeats and is not reported. And where starts at an
unknown place and at the first place of a text alternate, none repeats and one is reported. -/
theorem repeats_not_as_reported :
    (leftRecursionWarnings [startAt "a" 0, startAt "a" 0, startAt "a" 0] = [] ∧
      reports (Repeats id) [startAt "a" 0, startAt "a" 0, startAt "a" 0] =
        ["Potential left recursion detected: 'a' called repeatedly at 0"]) ∧
    ∃ unknown first : TraceRecord, unknown.pos = none ∧ first.pos = some (.ofLineCol 1 1) ∧
      leftRecursionWarnings [unknown, first, unknown, first] =
        ["Potential left recursion detected: 'a' called repeatedly at 1:1"] ∧
      reports (Repeats id) [unknown, first, unknown, first] = [] :=
  ⟨by decide +kernel, ⟨.enter, 0, "a", none, ""⟩, ⟨.enter, 0, "a", some (.ofLineCol 1 1), ""⟩,
    rfl, rfl, by decide +kernel, by decide +kernel⟩

end TokenGrammar.Trace
