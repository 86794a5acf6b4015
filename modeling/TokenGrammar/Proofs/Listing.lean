import TokenGrammar.Proofs.Classification
import TokenGrammar.Proofs.Lines

/-!
# The lines of a failure

A failure in which no join is empty is written on one line a leaf. A line shows its leaf's
fault and place, and then the places of the joins that end with that leaf, from the inner
to the outer (`render_lines`).
-/

namespace TokenGrammar.Failure

open Text (OneLine)

mutual
def Populated : Failure → Prop
  | .single .. => True
  | .joined members _ => members ≠ [] ∧ AllPopulated members
def AllPopulated : List Failure → Prop
  | [] => True
  | f :: fs => f.Populated ∧ AllPopulated fs
end

mutual
/-- The joins around the leaf numbered `i`, from the inner to the outer, each with the number
that the leaf has among its own. -/
def around : Failure → Nat → List (Failure × Nat)
  | .single .., _ => []
  | .joined members pos, i => aroundIn members i ++ [(.joined members pos, i)]
def aroundIn : List Failure → Nat → List (Failure × Nat)
  | [], _ => []
  | f :: fs, i => if i < f.leaves.length then f.around i else aroundIn fs (i - f.leaves.length)
end

/-- The places of the joins whose last leaf is at hand; a join may have none. -/
def closings (joins : List (Failure × Nat)) : List Position :=
  joins.filterMap fun (f, i) => if i + 1 = f.leaves.length then f.pos else none

def leafLine (leaf : Fault × Option Position) (places : List Position) : String :=
  leaf.1.render ++ " at " ++ Position.renderOpt leaf.2 ++
    String.join (places.map (" at " ++ ·.render))

def lines (f : Failure) : List String :=
  f.leaves.mapIdx fun i leaf => leafLine leaf (closings (f.around i))

def linesAll (fs : List Failure) : List String :=
  (leavesAll fs).mapIdx fun i leaf => leafLine leaf (closings (aroundIn fs i))

-- ---------------------------------------------------------------------------
-- Lines of joins
-- ---------------------------------------------------------------------------

theorem linesAll_cons (f : Failure) (fs : List Failure) :
    linesAll (f :: fs) = f.lines ++ linesAll fs := by
  unfold linesAll lines
  rw [leavesAll, List.mapIdx_append]
  congr 1
  · refine List.mapIdx_eq_mapIdx_iff.2 fun i hi => ?_
    rw [aroundIn, if_pos hi]
  · refine List.mapIdx_eq_mapIdx_iff.2 fun i hi => ?_
    rw [aroundIn, if_neg (by omega), Nat.add_sub_cancel]

theorem closings_joined (members : List Failure) (pos : Option Position) (i : Nat) :
    closings ((joined members pos).around i) = closings (aroundIn members i) ++
      if i + 1 = (leavesAll members).length then pos.toList else [] := by
  rw [around, closings, List.filterMap_append]
  congr 1
  by_cases hlast : i + 1 = (leavesAll members).length
  · cases pos <;> simp [leaves, Failure.pos, hlast]
  · simp [leaves, hlast]

theorem Populated.leaves_ne_nil : (f : Failure) → f.Populated → f.leaves ≠ []
  | .single .., _ => by simp [leaves]
  | .joined [] _, h => by simp [Populated] at h
  | .joined (f :: fs) _, h => by
    rw [Populated, AllPopulated] at h
    simp [leaves, leavesAll, Populated.leaves_ne_nil f h.2.1]

theorem intercalate_concat_append (separator : String) (texts : List String)
    (last ending : String) :
    separator.intercalate (texts ++ [last ++ ending]) =
      separator.intercalate (texts ++ [last]) ++ ending := by
  by_cases htexts : texts = []
  · simp [htexts]
  · simp [String.intercalate_append_of_ne_nil htexts, String.append_assoc]

theorem intercalate_lines_joined {members : List Failure} (hne : leavesAll members ≠ [])
    (pos : Option Position) :
    "\n".intercalate (joined members pos).lines =
      "\n".intercalate (linesAll members) ++ String.join (pos.toList.map (" at " ++ ·.render)) := by
  obtain ⟨earlier, last, hleaves⟩ := (List.eq_nil_or_concat _).resolve_left hne
  have hearlier : earlier.mapIdx (fun i leaf =>
        leafLine leaf (closings ((joined members pos).around i))) =
      earlier.mapIdx fun i leaf => leafLine leaf (closings (aroundIn members i)) := by
    refine List.mapIdx_eq_mapIdx_iff.2 fun i hi => ?_
    rw [closings_joined, hleaves, if_neg (by simp; omega), List.append_nil]
  have hlast : leafLine last (closings ((joined members pos).around earlier.length)) =
      leafLine last (closings (aroundIn members earlier.length)) ++
        String.join (pos.toList.map (" at " ++ ·.render)) := by
    rw [closings_joined, hleaves, if_pos (by simp)]
    simp [leafLine, String.append_assoc]
  rw [lines, linesAll, leaves, hleaves, List.concat_eq_append, List.mapIdx_concat,
    List.mapIdx_concat, hearlier, hlast, intercalate_concat_append]

-- ---------------------------------------------------------------------------
-- The text of a failure
-- ---------------------------------------------------------------------------

theorem AllPopulated.leavesAll_ne_nil {fs : List Failure} (h : AllPopulated fs) (hne : fs ≠ []) :
    leavesAll fs ≠ [] :=
  Populated.leaves_ne_nil (.joined fs none) ⟨hne, h⟩

mutual
theorem render_eq : (f : Failure) → f.Populated → f.render = "\n".intercalate f.lines
  | .single fault pos, _ => by
    simp [render, lines, leaves, leafLine, around, closings]
  | .joined members pos, h => by
    rw [Populated] at h
    rw [intercalate_lines_joined (h.2.leavesAll_ne_nil h.1), ← intercalate_renderAll members h.2]
    cases pos with
    | none => simp [render]
    | some pos => simp [render, String.append_assoc]
theorem intercalate_renderAll : (fs : List Failure) → AllPopulated fs →
    "\n".intercalate (renderAll fs) = "\n".intercalate (linesAll fs)
  | [], _ => rfl
  | [f], h => by
    rw [AllPopulated] at h
    have hnil : linesAll [] = [] := rfl
    rw [linesAll_cons, hnil, List.append_nil, ← render_eq f h.1]
    simp [renderAll]
  | f :: g :: fs, h => by
    rw [AllPopulated] at h
    have hfirst : f.lines ≠ [] := by
      simpa [lines] using Populated.leaves_ne_nil f h.1
    have hrest : linesAll (g :: fs) ≠ [] := by
      simpa [linesAll] using h.2.leavesAll_ne_nil (List.cons_ne_nil g fs)
    rw [linesAll_cons, String.intercalate_append_of_ne_nil hfirst hrest, ← render_eq f h.1,
      ← intercalate_renderAll (g :: fs) h.2, renderAll,
      String.intercalate_cons_of_ne_nil (by simp [renderAll])]
end

mutual
theorem Plain.leaves : (f : Failure) → f.Plain → ∀ leaf ∈ f.leaves, leaf.1.Plain
  | .single fault pos, h => by
    rw [Plain] at h
    simpa [Failure.leaves] using h
  | .joined members _, h => by
    rw [Plain] at h
    rw [Failure.leaves]
    exact AllPlain.leavesAll members h
theorem AllPlain.leavesAll :
    (fs : List Failure) → AllPlain fs → ∀ leaf ∈ leavesAll fs, leaf.1.Plain
  | [], _ => by simp [Failure.leavesAll]
  | f :: fs, h => by
    rw [AllPlain] at h
    rw [Failure.leavesAll]
    exact List.forall_mem_append.2 ⟨Plain.leaves f h.1, AllPlain.leavesAll fs h.2⟩
end

theorem oneLine_leafLine {leaf : Fault × Option Position} (h : leaf.1.Plain)
    (places : List Position) : OneLine (leafLine leaf places) := by
  have hplaces : OneLine (String.join (places.map (" at " ++ ·.render))) := by
    refine Text.oneLine_join fun text htext => ?_
    obtain ⟨pos, -, rfl⟩ := List.mem_map.1 htext
    have hpos : OneLine pos.render := Position.oneLine_renderOpt (some pos)
    simp [hpos]; decide
  simp [leafLine, Fault.oneLine_render h, hplaces]; decide

/-- Where no join is empty and no label or message has a line break, the text of a failure is
one line a leaf, in order: the leaf's fault and place, and then the place of each join that has
one and ends with this leaf, from the inner to the outer. -/
theorem render_lines {f : Failure} (hpopulated : f.Populated) (hplain : f.Plain) :
    f.render.toList.splitOn '\n' =
      (f.leaves.mapIdx fun i leaf => leafLine leaf (closings (f.around i))).map (·.toList) := by
  have honeLine : ∀ line ∈ f.lines.map (·.toList), '\n' ∉ line := by
    intro line hline
    obtain ⟨text, htext, rfl⟩ := List.mem_map.1 hline
    obtain ⟨i, hi, rfl⟩ := List.mem_mapIdx.1 htext
    exact Text.oneLine_iff.1 (oneLine_leafLine (Plain.leaves f hplain _ (List.getElem_mem hi)) _)
  have hne : f.lines.map (·.toList) ≠ [] := by
    simpa [lines] using Populated.leaves_ne_nil f hpopulated
  rw [render_eq f hpopulated, String.toList_intercalate]
  exact List.splitOn_intercalate '\n' honeLine hne

/-- The inner join gives its place to its last leaf, and so does the outer one, which ends with
the same leaf. -/
theorem render_lines_nested :
    let inner := joined [critical "second" none, repeatCount "digit" 2 1 (some (.atIndex 4))]
      (some (.ofLineCol 2 3))
    let outer := joined [joined [critical "first" (some (.atIndex 0))] none, inner]
      (some (.atIndex 9))
    outer.Populated ∧ outer.Plain ∧
      (outer.render.toList.splitOn '\n').map String.ofList =
        ["critical error: first at 0", "critical error: second at 1:1",
          "repeat count (digit) expected count: 2, actual count: 1 at 4 at 2:3 at 9"] := by
  intro inner outer
  have hpopulated : outer.Populated := by
    simp [outer, inner, Populated, AllPopulated, critical, repeatCount]
  have hplain : outer.Plain := by
    simp [outer, inner, Plain, AllPlain, critical, repeatCount, Fault.Plain]
    decide
  refine ⟨hpopulated, hplain, ?_⟩
  rw [render_lines hpopulated hplain]
  decide +kernel

end TokenGrammar.Failure
