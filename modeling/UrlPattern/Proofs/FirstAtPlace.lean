import UrlPattern.Regex.Matching

/-!
# The first cursor at each place

A search keeps of several ways to one place the preferred one. `firsts` is that choice on lists:
the first cursor at each place, in order. Two lists with the same `firsts` are equally good as
results of a search; the lemmas below say which operations on lists respect that.
-/

namespace UrlPattern.Regex

/-- The positions of cursors. -/
def positions (cs : List Cursor) : List Nat := cs.map (·.pos)

theorem positions_append (cs ds : List Cursor) :
    positions (cs ++ ds) = positions cs ++ positions ds := List.map_append

theorem mem_positions {cs : List Cursor} {pos : Nat} :
    pos ∈ positions cs ↔ ∃ c ∈ cs, c.pos = pos := List.mem_map

/-- The first cursor at each place, in order. -/
def firsts : List Cursor → List Cursor
  | [] => []
  | c :: cs => c :: (firsts cs).filter (·.pos ≠ c.pos)

/-- Nothing comes first that was not there. -/
theorem firsts_subset (cs : List Cursor) : firsts cs ⊆ cs := by
  induction cs with
  | nil => exact List.Subset.refl _
  | cons c cs ih =>
    intro d hd
    rcases List.mem_cons.mp hd with rfl | hd
    · exact List.mem_cons_self
    · exact List.mem_cons_of_mem _ (ih (List.mem_filter.mp hd).1)

/-- No place is lost. -/
theorem mem_positions_firsts (cs : List Cursor) (pos : Nat) :
    pos ∈ positions (firsts cs) ↔ pos ∈ positions cs := by
  induction cs with
  | nil => rfl
  | cons c cs ih =>
    rw [mem_positions] at ih
    simp only [mem_positions] at ih
    simp only [firsts, mem_positions, List.mem_cons, List.mem_filter, exists_eq_or_imp]
    rw [← ih]
    by_cases hp : c.pos = pos
    · simp [hp]
    · simp only [hp, false_or]
      constructor
      · rintro ⟨d, ⟨hd, -⟩, rfl⟩
        exact ⟨d, hd, rfl⟩
      · rintro ⟨d, hd, rfl⟩
        exact ⟨d, ⟨hd, by simpa using Ne.symm hp⟩, rfl⟩

/-- The first cursor of all is the first at its place. -/
theorem head?_firsts (cs : List Cursor) : (firsts cs).head? = cs.head? := by
  cases cs <;> rfl

/-- Choosing by place commutes with keeping certain places. -/
theorem firsts_filter_pos (q : Nat → Bool) (cs : List Cursor) :
    firsts (cs.filter fun c ↦ q c.pos) = (firsts cs).filter fun c ↦ q c.pos := by
  induction cs with
  | nil => rfl
  | cons c cs ih =>
    by_cases hq : q c.pos
    · simp only [List.filter_cons, hq, if_true, firsts, ih, List.filter_filter, Bool.and_comm]
    · simp only [List.filter_cons, hq, Bool.false_eq_true, if_false, firsts, ih,
        List.filter_filter]
      refine List.filter_congr fun d _ ↦ ?_
      by_cases hd : d.pos = c.pos
      · simp [hd, hq]
      · simp [hd]

/-- Behind a list, only the places that it does not have come first. -/
theorem firsts_append (cs ds : List Cursor) :
    firsts (cs ++ ds) = firsts cs ++ (firsts ds).filter fun d ↦ d.pos ∉ positions cs := by
  induction cs with
  | nil =>
    symm
    simp [firsts, positions]
  | cons c cs ih =>
    simp only [List.cons_append, firsts, ih, List.filter_append, List.filter_filter]
    congr 2
    refine List.filter_congr fun d _ ↦ ?_
    simp [positions, not_or]

/-- Choosing twice is choosing once. -/
theorem firsts_firsts (cs : List Cursor) : firsts (firsts cs) = firsts cs := by
  induction cs with
  | nil => rfl
  | cons c cs ih =>
    simp only [firsts]
    rw [firsts_filter_pos (fun p ↦ decide (p ≠ c.pos)), ih, List.filter_filter]
    simp

/-- An operation that keeps positions commutes with choosing. -/
theorem firsts_map (f : Cursor → Cursor) (hf : ∀ c, (f c).pos = c.pos) (cs : List Cursor) :
    firsts (cs.map f) = (firsts cs).map f := by
  induction cs with
  | nil => rfl
  | cons c cs ih =>
    simp only [List.map_cons, firsts, ih, List.filter_map, Function.comp_def, hf]

/-- Lists that are equally good have the same places. -/
theorem mem_positions_of_firsts_eq {cs ds : List Cursor} (h : firsts cs = firsts ds) (pos : Nat) :
    pos ∈ positions cs ↔ pos ∈ positions ds := by
  rw [← mem_positions_firsts cs, h, mem_positions_firsts]

/-- Equally good lists may replace one another on both sides of a concatenation. -/
theorem firsts_append_congr {cs cs' ds ds' : List Cursor} (hc : firsts cs = firsts cs')
    (hd : firsts ds = firsts ds') : firsts (cs ++ ds) = firsts (cs' ++ ds') := by
  rw [firsts_append, firsts_append, hc, hd]
  simp only [mem_positions_of_firsts_eq hc]

/-- Equally good continuations may replace one another. -/
theorem firsts_flatMap_congr {cs : List Cursor} {F G : Cursor → List Cursor}
    (h : ∀ c ∈ cs, firsts (F c) = firsts (G c)) :
    firsts (cs.flatMap F) = firsts (cs.flatMap G) := by
  induction cs with
  | nil => rfl
  | cons c cs ih =>
    rw [List.flatMap_cons, List.flatMap_cons]
    exact firsts_append_congr (h c List.mem_cons_self)
      (ih fun d hd ↦ h d (List.mem_cons_of_mem _ hd))

/-- A cursor adds nothing behind a list that has all the places it leads to. -/
theorem firsts_append_flatMap_filter (F : Cursor → List Cursor) (q : Cursor → Bool)
    (ds cs : List Cursor)
    (h : ∀ c ∈ cs, q c = false → positions (F c) ⊆ positions ds) :
    firsts (ds ++ (cs.filter q).flatMap F) = firsts (ds ++ cs.flatMap F) := by
  induction cs generalizing ds with
  | nil => rfl
  | cons c cs ih =>
    have hcs : ∀ d ∈ cs, q d = false → positions (F d) ⊆ positions ds :=
      fun d hd ↦ h d (List.mem_cons_of_mem _ hd)
    by_cases hq : q c
    · rw [List.filter_cons_of_pos hq, List.flatMap_cons, List.flatMap_cons, ← List.append_assoc,
        ← List.append_assoc]
      refine ih (ds ++ F c) fun d hd hqd ↦ ?_
      rw [positions_append]
      exact List.subset_append_of_subset_left _ (hcs d hd hqd)
    · have hsub := h c List.mem_cons_self (by simpa using hq)
      have hnone : firsts (ds ++ F c) = firsts ds := by
        rw [firsts_append]
        refine (congrArg _ (List.filter_eq_nil_iff.mpr fun d hd ↦ ?_)).trans (List.append_nil _)
        have := hsub (List.mem_map_of_mem (firsts_subset _ hd))
        simpa using this
      rw [List.filter_cons_of_neg hq, List.flatMap_cons, ih ds hcs, ← List.append_assoc]
      exact firsts_append_congr hnone.symm rfl

/-! ### Collecting cursors -/

namespace Found

/-- Collecting finds the places of the list and no others. -/
theorem has_foldl_add (cs : List Cursor) (f : Found) (pos : Nat) :
    (cs.foldl add f).has pos = (decide (pos ∈ positions cs) || f.has pos) := by
  induction cs generalizing f with
  | nil => simp [positions]
  | cons c cs ih =>
    rw [List.foldl_cons, ih, has_add, positions, positions, List.map_cons]
    by_cases hp : pos = c.pos
    · simp [hp]
    · simp [hp, beq_eq_false_iff_ne.mpr hp]

/-- Collecting a list keeps the first cursor at each place that was not found before. -/
theorem toList_foldl_add (cs : List Cursor) (f : Found) :
    (cs.foldl add f).toList = f.toList ++ (firsts cs).filter fun c ↦ !f.has c.pos := by
  induction cs generalizing f with
  | nil => exact (List.append_nil _).symm
  | cons c cs ih =>
    rw [List.foldl_cons, ih, firsts]
    simp only [has_add]
    by_cases hc : f.has c.pos
    · have hadd : f.add c = f := by rw [add, if_pos hc]
      rw [hadd, List.filter_cons_of_neg (by simpa using hc), List.filter_filter]
      congr 1
      refine List.filter_congr fun d _ ↦ ?_
      by_cases hd : d.pos = c.pos
      · simp [hd, hc]
      · simp [hd]
    · have hadd : (f.add c).toList = f.toList ++ [c] := by
        rw [add, if_neg hc, toList, List.reverse_cons]
        rfl
      rw [hadd, List.filter_cons_of_pos (by simpa using hc), List.append_assoc, List.filter_filter,
        List.singleton_append]
      congr 2
      refine List.filter_congr fun d _ ↦ ?_
      by_cases hd : d.pos = c.pos
      · simp [hd]
      · simp [hd, beq_eq_false_iff_ne.mpr hd]

/-- What is at places found before does not matter. -/
theorem foldl_add_filter (q : Nat → Bool) (cs : List Cursor) (f : Found)
    (h : ∀ pos, q pos = false → f.has pos = true) :
    (cs.filter fun c ↦ q c.pos).foldl add f = cs.foldl add f := by
  induction cs generalizing f with
  | nil => rfl
  | cons c cs ih =>
    have hstep : ∀ pos, q pos = false → (f.add c).has pos = true := fun pos hq ↦ by
      rw [has_add, h pos hq, Bool.or_true]
    by_cases hq : q c.pos
    · rw [List.filter_cons, if_pos hq, List.foldl_cons, List.foldl_cons, ih _ hstep]
    · have hc := h c.pos (by simpa using hq)
      have hadd : f.add c = f := by rw [add, if_pos hc]
      rw [List.filter_cons, if_neg hq, List.foldl_cons, hadd, ih _ h]

/-- Collecting a list from nothing is choosing. -/
theorem toList_foldl_add_none (cs : List Cursor) (first : Nat) :
    (cs.foldl add (none first)).toList = firsts cs := by
  rw [toList_foldl_add]
  simp [none, toList, has, Positions.has_empty]

end Found

/-- `distinct` chooses the first cursor at each place. -/
theorem distinct_eq_firsts (cs : List Cursor) : distinct cs = firsts cs :=
  Found.toList_foldl_add_none cs _

/-- Choosing row by row is choosing over all rows in turn, leaving out the places seen before. -/
theorem flatten_distinctRows (rows : List (List Cursor)) (seen : Positions) :
    (distinctRows seen rows).flatten = (firsts rows.flatten).filter fun c ↦ !seen.has c.pos := by
  induction rows generalizing seen with
  | nil => rfl
  | cons row rows ih =>
    have hseen : ∀ pos, (row.foldl Found.add ⟨seen, []⟩).seen.has pos
        = (decide (pos ∈ positions row) || seen.has pos) :=
      Found.has_foldl_add row ⟨seen, []⟩
    rw [distinctRows, List.flatten_cons, List.flatten_cons, ih, firsts_append, List.filter_append,
      List.filter_filter, Found.toList_foldl_add]
    simp only [hseen, Found.has, Found.toList, List.reverse_nil, List.nil_append]
    congr 1
    refine List.filter_congr fun d _ ↦ ?_
    simp [Bool.and_comm]

end UrlPattern.Regex
