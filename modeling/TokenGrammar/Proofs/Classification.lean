import TokenGrammar.Failure

/-!
# How failures are classified

The leaves of a failure are its single faults. `is` asks for a leaf of a kind, and
`isRecoverable` for a recoverable one, while `kind` looks for the first member that is
not recoverable: on a mixed failure, or one without leaves, they disagree
(`classified_by_leaves`). `Unmixed` failures are those on which they cannot.
-/

namespace TokenGrammar.Failure

mutual
def leaves : Failure → List (Fault × Option Position)
  | .single fault pos => [(fault, pos)]
  | .joined members _ => leavesAll members
def leavesAll : List Failure → List (Fault × Option Position)
  | [] => []
  | f :: fs => f.leaves ++ leavesAll fs
end

theorem leavesAll_eq (fs : List Failure) : leavesAll fs = fs.flatMap leaves := by
  induction fs with
  | nil => rfl
  | cons f fs ih => rw [leavesAll, List.flatMap_cons, ih]

theorem leaves_join (fs : List Failure) (pos : Option Position) :
    (join fs pos).leaves = fs.flatMap leaves := by
  unfold join
  split
  · simp
  · rw [leaves, leavesAll_eq]

def Mild (f : Failure) : Prop := ∀ leaf ∈ f.leaves, leaf.1.kind.isRecoverable = true

def Fatal (f : Failure) : Prop :=
  ∃ fault pos, f = .single fault pos ∧ fault.kind.isRecoverable = false

/-- Whether a failure is a single unrecoverable fault, or has leaves and they are
all recoverable. -/
def Unmixed (f : Failure) : Prop := f.Fatal ∨ f.leaves ≠ [] ∧ f.Mild

-- ---------------------------------------------------------------------------
-- `is` and `kind`, by the leaves
-- ---------------------------------------------------------------------------

mutual
theorem is_iff (k : FaultKind) : (f : Failure) → f.is k = true ↔ ∃ leaf ∈ f.leaves, leaf.1.kind = k
  | .single fault pos => by simp [is, leaves]
  | .joined members pos => by rw [is, leaves, anyIs_iff k members]
theorem anyIs_iff (k : FaultKind) :
    (fs : List Failure) → anyIs k fs = true ↔ ∃ leaf ∈ leavesAll fs, leaf.1.kind = k
  | [] => by simp [anyIs, leavesAll]
  | f :: fs => by
    simp only [anyIs, leavesAll, Bool.or_eq_true, List.mem_append, or_and_right, exists_or,
      is_iff k f, anyIs_iff k fs]
end

theorem isRecoverable_iff (f : Failure) :
    f.isRecoverable = true ↔ ∃ leaf ∈ f.leaves, leaf.1.kind.isRecoverable = true := by
  have hkind : ∀ k : FaultKind, k.isRecoverable = true ↔ k = .notMatch ∨ k = .repeatCount := by
    intro k
    cases k <;> decide
  simp only [isRecoverable, Bool.or_eq_true, is_iff, hkind, and_or_left, exists_or]

theorem isRecoverable_join (fs : List Failure) (pos : Option Position) :
    (join fs pos).isRecoverable = true ↔ ∃ f ∈ fs, f.isRecoverable = true := by
  simp only [isRecoverable_iff, leaves_join, List.mem_flatMap]
  constructor
  · rintro ⟨leaf, ⟨f, hf, hleaf⟩, hkind⟩
    exact ⟨f, hf, leaf, hleaf, hkind⟩
  · rintro ⟨f, hf, leaf, hleaf, hkind⟩
    exact ⟨leaf, ⟨f, hf, hleaf⟩, hkind⟩

-- ---------------------------------------------------------------------------
-- What `kind` looks for
-- ---------------------------------------------------------------------------

def firstFatal (leaves : List (Fault × Option Position)) : Option (Fault × Option Position) :=
  leaves.find? (!·.1.kind.isRecoverable)

theorem firstFatal_append (front rest : List (Fault × Option Position)) :
    firstFatal (front ++ rest) = (firstFatal front).or (firstFatal rest) :=
  List.find?_append

theorem isRecoverable_of_firstFatal (h : firstFatal front = some leaf) :
    leaf.1.kind.isRecoverable = false := by
  simpa using List.find?_some h

theorem firstFatal_eq_none {f : Failure} : firstFatal f.leaves = none ↔ f.Mild := by
  simp [firstFatal, Mild]

mutual
/-- The fault that the first member leads to, taken again and again; none where that ends
at an empty join. -/
def foremost : Failure → Option Fault
  | .single fault _ => some fault
  | .joined members _ => foremostOf members
def foremostOf : List Failure → Option Fault
  | [] => none
  | f :: _ => f.foremost
end

mutual
theorem foremost_mem : (f : Failure) → f.foremost = some fault → ∃ pos, (fault, pos) ∈ f.leaves
  | .single _ pos, h => ⟨pos, by simpa [leaves, foremost] using h.symm⟩
  | .joined members _, h => by
    rw [foremost] at h
    rw [leaves]
    exact foremostOf_mem members h
theorem foremostOf_mem :
    (fs : List Failure) → foremostOf fs = some fault → ∃ pos, (fault, pos) ∈ leavesAll fs
  | [], h => by simp [foremostOf] at h
  | f :: fs, h => by
    rw [foremostOf] at h
    obtain ⟨pos, hmem⟩ := foremost_mem f h
    exact ⟨pos, by simp [leavesAll, hmem]⟩
end

/-- What `kind` falls back on where every leaf is recoverable. -/
def foremostKind (f : Failure) : FaultKind := (f.foremost.map (·.kind)).getD .notMatch

theorem Mild.foremostKind {f : Failure} (h : f.Mild) : f.foremostKind.isRecoverable = true := by
  rw [Failure.foremostKind]
  cases hfault : f.foremost with
  | none => rfl
  | some fault =>
    obtain ⟨pos, hmem⟩ := foremost_mem f hfault
    exact h (fault, pos) hmem

-- `kind` searches the kinds of the members. A member with a leaf that is not recoverable is
-- of its first such leaf's kind, and the search stops at it; one without is passed over.
mutual
theorem kind_eq : (f : Failure) →
    f.kind = ((firstFatal f.leaves).map (·.1.kind)).getD f.foremostKind
  | .single fault pos => by
    cases hfault : fault.kind.isRecoverable <;>
      simp [kind, leaves, firstFatal, foremostKind, foremost, hfault]
  | .joined members pos => by
    rw [kind, find?_kinds members, leaves]
    cases hfatal : firstFatal (leavesAll members) with
    | some leaf => rfl
    | none =>
      cases members with
      | nil => rfl
      | cons f fs =>
        rw [leavesAll, firstFatal_append, Option.or_eq_none_iff] at hfatal
        have hfirst := kind_eq f
        rw [hfatal.1] at hfirst
        simpa [kinds, foremostKind, foremost, foremostOf] using hfirst
theorem find?_kinds : (fs : List Failure) →
    (kinds fs).find? (!·.isRecoverable) = (firstFatal (leavesAll fs)).map (·.1.kind)
  | [] => rfl
  | f :: fs => by
    have hfirst := kind_eq f
    rw [kinds, leavesAll, firstFatal_append]
    cases hfatal : firstFatal f.leaves with
    | some leaf =>
      rw [hfatal] at hfirst
      have hstop : f.kind.isRecoverable = false :=
        hfirst ▸ isRecoverable_of_firstFatal hfatal
      rw [List.find?_cons_of_pos (by simp [hstop]), hfirst]
      rfl
    | none =>
      rw [hfatal] at hfirst
      have hpass : f.kind.isRecoverable = true :=
        hfirst ▸ (firstFatal_eq_none.1 hfatal).foremostKind
      rw [List.find?_cons_of_neg (by simp [hpass]), find?_kinds fs]
      rfl
end

theorem kind_isRecoverable_iff {f : Failure} : f.kind.isRecoverable = true ↔ f.Mild := by
  rw [kind_eq, ← firstFatal_eq_none]
  cases hfatal : firstFatal f.leaves with
  | none => simpa using (firstFatal_eq_none.1 hfatal).foremostKind
  | some leaf => simpa using isRecoverable_of_firstFatal hfatal

/-- The two ways to ask for recoverability differ on the failures that have leaves of both
sorts, and on those that have none. -/
theorem isRecoverable_ne_iff {f : Failure} : f.isRecoverable ≠ f.kind.isRecoverable ↔
    (∃ leaf ∈ f.leaves, leaf.1.kind.isRecoverable = true) ∧
      (∃ leaf ∈ f.leaves, leaf.1.kind.isRecoverable = false) ∨ f.leaves = [] := by
  rw [Ne, Bool.eq_iff_iff, isRecoverable_iff, kind_isRecoverable_iff]
  by_cases hmild : f.Mild
  · have hnone : ¬ ∃ leaf ∈ f.leaves, leaf.1.kind.isRecoverable = false := by
      rintro ⟨leaf, hleaf, hkind⟩
      exact Bool.false_ne_true (hkind.symm.trans (hmild leaf hleaf))
    have hsome : (∃ leaf ∈ f.leaves, leaf.1.kind.isRecoverable = true) ↔ f.leaves ≠ [] := by
      refine ⟨fun ⟨leaf, hleaf, _⟩ => List.ne_nil_of_mem hleaf, fun hne => ?_⟩
      obtain ⟨leaf, hleaf⟩ := List.exists_mem_of_ne_nil _ hne
      exact ⟨leaf, hleaf, hmild leaf hleaf⟩
    simp [hmild, hnone, hsome]
  · obtain ⟨leaf, hleaf, hkind⟩ : ∃ leaf ∈ f.leaves, leaf.1.kind.isRecoverable = false := by
      simpa [Mild] using hmild
    have hfatal : ∃ leaf ∈ f.leaves, leaf.1.kind.isRecoverable = false := ⟨leaf, hleaf, hkind⟩
    simp [hmild, hfatal, List.ne_nil_of_mem hleaf]

-- ---------------------------------------------------------------------------
-- Fatal and unmixed failures
-- ---------------------------------------------------------------------------

theorem Fatal.not_is {f : Failure} (h : f.Fatal) (hk : k.isRecoverable = true) :
    f.is k = false := by
  obtain ⟨fault, pos, rfl, hfault⟩ := h
  rw [is, beq_eq_false_iff_ne]
  rintro rfl
  rw [hk] at hfault
  contradiction

theorem Fatal.not_isRecoverable {f : Failure} (h : f.Fatal) : f.isRecoverable = false := by
  rw [isRecoverable, h.not_is rfl, h.not_is rfl]
  rfl

theorem Fatal.orAt {f : Failure} (h : f.Fatal) (fallback : Option Position) :
    (f.orAt fallback).Fatal := by
  obtain ⟨fault, pos, rfl, hfault⟩ := h
  cases pos with
  | none => exact ⟨fault, fallback, rfl, hfault⟩
  | some pos => exact ⟨fault, some pos, rfl, hfault⟩

theorem Unmixed.of_isRecoverable {f : Failure} (h : f.Unmixed) (hrec : f.isRecoverable = true) :
    f.leaves ≠ [] ∧ f.Mild := by
  rcases h with hfatal | hmild
  · rw [hfatal.not_isRecoverable] at hrec
    contradiction
  · exact hmild

theorem Unmixed.of_not_isRecoverable {f : Failure} (h : f.Unmixed)
    (hrec : f.isRecoverable = false) : f.Fatal := by
  rcases h with hfatal | ⟨hleaves, hmild⟩
  · exact hfatal
  · obtain ⟨leaf, hleaf⟩ := List.exists_mem_of_ne_nil _ hleaves
    have htrue := (isRecoverable_iff f).2 ⟨leaf, hleaf, hmild leaf hleaf⟩
    rw [hrec] at htrue
    contradiction

theorem Unmixed.isRecoverable_eq {f : Failure} (h : f.Unmixed) :
    f.isRecoverable = f.kind.isRecoverable := by
  cases hrec : f.isRecoverable with
  | true => exact (kind_isRecoverable_iff.2 (h.of_isRecoverable hrec).2).symm
  | false =>
    obtain ⟨fault, pos, rfl, hfault⟩ := h.of_not_isRecoverable hrec
    rw [Failure.kind, hfault]

theorem Unmixed.single (fault : Fault) (pos : Option Position) :
    (Failure.single fault pos).Unmixed := by
  cases hfault : fault.kind.isRecoverable with
  | true => exact .inr ⟨by simp [leaves], by simpa [Mild, leaves] using hfault⟩
  | false => exact .inl ⟨fault, pos, rfl, hfault⟩

theorem Unmixed.orAt {f : Failure} (h : f.Unmixed) (fallback : Option Position) :
    (f.orAt fallback).Unmixed := by
  cases f with
  | single fault pos => cases pos <;> exact .single ..
  | joined members pos =>
    rcases h with ⟨_, _, hsingle, _⟩ | hmild
    · contradiction
    · cases pos <;> exact .inr hmild

theorem Unmixed.join {fs : List Failure} (hne : fs ≠ [])
    (h : ∀ f ∈ fs, f.leaves ≠ [] ∧ f.Mild) (pos : Option Position) : (join fs pos).Unmixed := by
  refine .inr ⟨?_, ?_⟩
  · obtain ⟨f, hf⟩ := List.exists_mem_of_ne_nil fs hne
    rw [leaves_join]
    exact fun hnone => (h f hf).1 (List.flatMap_eq_nil_iff.1 hnone f hf)
  · intro leaf hleaf
    rw [leaves_join] at hleaf
    obtain ⟨f, hf, hleaf⟩ := List.mem_flatMap.1 hleaf
    exact (h f hf).2 leaf hleaf

-- ---------------------------------------------------------------------------
-- Any failure
-- ---------------------------------------------------------------------------

/-- `is` finds every leaf. `kind` finds the first that is not recoverable; without one it
follows the first members down, and says `notMatch` where they end at an empty join. So the
two ways to ask for recoverability agree unless leaves of both sorts are mixed or there are no
leaves. A join has the leaves of its members in their order, also where it is none of its own. -/
theorem classified_by_leaves :
    (∀ f : Failure,
      (∀ k, f.is k = true ↔ ∃ leaf ∈ f.leaves, leaf.1.kind = k) ∧
      f.kind = ((firstFatal f.leaves).map (·.1.kind)).getD
        ((f.foremost.map (·.kind)).getD .notMatch) ∧
      (f.isRecoverable ≠ f.kind.isRecoverable ↔
        (∃ leaf ∈ f.leaves, leaf.1.kind.isRecoverable = true) ∧
          (∃ leaf ∈ f.leaves, leaf.1.kind.isRecoverable = false) ∨ f.leaves = [])) ∧
    ∀ (fs : List Failure) pos, (join fs pos).leaves = fs.flatMap leaves :=
  ⟨fun f => ⟨fun k => is_iff k f, kind_eq f, isRecoverable_ne_iff⟩, leaves_join⟩

example : (join [notMatch "a" "" none, critical "b" none] none).isRecoverable = true ∧
    (join [notMatch "a" "" none, critical "b" none] none).kind = .critical := by
  decide

end TokenGrammar.Failure
