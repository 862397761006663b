import UrlPattern.CharSet

/-!
# Combined sets of characters

An operation on two sets of characters is one walk along the changes of both. If these ascend, so do
the changes that are found, and a character belongs to the combination exactly if the operation is
true of its membership in the two sets (`CharSet.contains_combine`).

A walk that has reached some place is told by whether the place is inside either set and by the
changes that are left. Past the next change of one of them, or of both at once, it is told in the
same way (`CharSet.Passes`), so that one lemma serves all three kinds of steps.
-/

namespace UrlPattern.CharSet

/-- The changes of a set ascend, so each is listed once. -/
def IsAscending (s : CharSet) : Prop := s.changes.Pairwise (· < ·)

/-- Above the place `x` a set has only the changes `later`, and `inside` tells whether the
characters directly behind that place belong to it. -/
inductive Passes (x : Nat) : (before : Bool) → (changes : List Nat) → (inside : Bool) →
    (later : List Nat) → Prop where
  /-- The set does not change at this place. -/
  | keeps {inside : Bool} {later : List Nat} (h : ∀ y ∈ later, x < y) :
      Passes x inside later inside later
  | changes {before : Bool} {later : List Nat} (h : ∀ y ∈ later, x < y) :
      Passes x before (x :: later) (!before) later

/-- Changes that lie above a place do not count there. -/
theorem oddBelow_eq_false {n : Nat} {changes : List Nat} (h : ∀ y ∈ changes, n < y) :
    oddBelow n changes = false := by
  cases changes with
  | nil => rfl
  | cons y ys => rw [oddBelow, if_neg (Nat.not_le.mpr (h y List.mem_cons_self))]

namespace Passes

variable {x n : Nat} {before inside : Bool} {changes later : List Nat}

theorem above (h : Passes x before changes inside later) : ∀ y ∈ later, x < y := by
  cases h with
  | keeps h => exact h
  | changes h => exact h

theorem subset (h : Passes x before changes inside later) : later ⊆ changes := by
  cases h with
  | keeps => exact List.Subset.refl _
  | changes => exact List.subset_cons_self ..

/-- In front of the place the set is as it was. -/
theorem xor_oddBelow_of_lt (h : Passes x before changes inside later) (hn : n < x) :
    (before ^^ oddBelow n changes) = before := by
  have hchanges : oddBelow n changes = false := by
    apply oddBelow_eq_false
    cases h with
    | keeps h => exact fun y hy ↦ Nat.lt_trans hn (h y hy)
    | changes h => exact List.forall_mem_cons.mpr ⟨hn, fun y hy ↦ Nat.lt_trans hn (h y hy)⟩
  rw [hchanges, Bool.xor_false]

/-- From the place on the set is told by the later changes. -/
theorem xor_oddBelow_of_le (h : Passes x before changes inside later) (hn : x ≤ n) :
    (before ^^ oddBelow n changes) = (inside ^^ oddBelow n later) := by
  cases h with
  | keeps => rfl
  | changes => rw [oddBelow, if_pos hn, Bool.xor_not, Bool.not_xor]

end Passes

/-- What the changes of a combination are, from a place on where it is known whether the place is
inside either set. -/
structure Combines (f : Bool → Bool → Bool) (a b : Bool) (xs ys changes : List Nat) : Prop where
  subset : changes ⊆ xs ++ ys
  ascending : changes.Pairwise (· < ·)
  odd : ∀ n, (f a b ^^ oddBelow n changes) = f (a ^^ oddBelow n xs) (b ^^ oddBelow n ys)

variable {f : Bool → Bool → Bool} {a b a' b' : Bool} {xs ys xs' ys' later : List Nat}

namespace Combines

variable {x : Nat}

theorem above (hx : Passes x a xs a' xs') (hy : Passes x b ys b' ys')
    (h : Combines f a' b' xs' ys' later) : ∀ y ∈ later, x < y := fun y hin ↦
  (List.mem_append.mp (h.subset hin)).elim (hx.above y) (hy.above y)

theorem subset_before (hx : Passes x a xs a' xs') (hy : Passes x b ys b' ys')
    (h : Combines f a' b' xs' ys' later) : later ⊆ xs ++ ys := fun _ hin ↦
  List.mem_append.mpr ((List.mem_append.mp (h.subset hin)).imp (hx.subset ·) (hy.subset ·))

/-- A place at which the sets change is none of the combination if that makes no difference. -/
theorem keep (hx : Passes x a xs a' xs') (hy : Passes x b ys b' ys')
    (h : Combines f a' b' xs' ys' later) (hsame : f a' b' = f a b) :
    Combines f a b xs ys later := by
  refine ⟨h.subset_before hx hy, h.ascending, fun n ↦ ?_⟩
  rcases Nat.lt_or_ge n x with hn | hn
  · rw [hx.xor_oddBelow_of_lt hn, hy.xor_oddBelow_of_lt hn,
      oddBelow_eq_false fun y hin ↦ Nat.lt_trans hn (h.above hx hy y hin), Bool.xor_false]
  · rw [hx.xor_oddBelow_of_le hn, hy.xor_oddBelow_of_le hn, ← h.odd n, hsame]

/-- A place at which the sets change is a change of the combination if that makes a difference. -/
theorem change (hx : Passes x a xs a' xs') (hy : Passes x b ys b' ys')
    (h : Combines f a' b' xs' ys' later) (hother : f a b = !f a' b') :
    Combines f a b xs ys (x :: later) := by
  -- If neither set changed here, neither would the combination.
  have hmem : x ∈ xs ++ ys := by
    cases hx with
    | changes => exact List.mem_append_left _ List.mem_cons_self
    | keeps =>
      cases hy with
      | changes => exact List.mem_append_right _ List.mem_cons_self
      | keeps => exact ((Bool.eq_not_self _).mp hother).elim
  refine ⟨List.cons_subset.mpr ⟨hmem, h.subset_before hx hy⟩,
    List.pairwise_cons.mpr ⟨h.above hx hy, h.ascending⟩, fun n ↦ ?_⟩
  rcases Nat.lt_or_ge n x with hn | hn
  · rw [hx.xor_oddBelow_of_lt hn, hy.xor_oddBelow_of_lt hn, oddBelow,
      if_neg (Nat.not_le.mpr hn), Bool.xor_false]
  · rw [hx.xor_oddBelow_of_le hn, hy.xor_oddBelow_of_le hn, ← h.odd n, oddBelow, if_pos hn,
      hother, Bool.not_xor, Bool.xor_not, Bool.not_not]

/-- A step of the walk past a place at which one set changes, or both do. -/
theorem step (hx : Passes x a xs a' xs') (hy : Passes x b ys b' ys')
    (h : Combines f a' b' xs' ys' later) :
    Combines f a b xs ys (changeIf (f a' b' != f a b) x later) := by
  unfold changeIf
  by_cases hsame : f a' b' = f a b
  · rw [hsame, bne_self_eq_false]
    exact h.keep hx hy hsame
  · rw [bne_iff_ne.mpr hsame]
    exact h.change hx hy (Bool.eq_not.mpr (Ne.symm hsame))

end Combines

/-- The walk along the second set alone. -/
theorem combines_tail (hys : ys.Pairwise (· < ·)) :
    Combines f a b [] ys (combineTail f a b ys) := by
  induction ys generalizing b with
  | nil =>
    exact ⟨List.nil_subset _, .nil, fun n ↦ by simp [combineTail, oddBelow]⟩
  | cons y ys ih =>
    obtain ⟨habove, hys⟩ := List.pairwise_cons.mp hys
    exact (ih hys).step (.keeps (List.forall_mem_nil _)) (.changes habove)

/-- The walk up to the next change of the first set, given that it goes on as it should behind it.
-/
theorem combines_upTo {x : Nat} {behind : Bool → List Nat → List Nat} (hxs : ∀ y ∈ xs, x < y)
    (hbehind : ∀ b ys, ys.Pairwise (· < ·) → Combines f (!a) b xs ys (behind b ys))
    (hys : ys.Pairwise (· < ·)) :
    Combines f a b (x :: xs) ys (combineUpTo f a x behind b ys) := by
  induction ys generalizing b with
  | nil => exact (hbehind b [] .nil).step (.changes hxs) (.keeps (List.forall_mem_nil _))
  | cons y ys ih =>
    obtain ⟨habove, hrest⟩ := List.pairwise_cons.mp hys
    rw [combineUpTo]
    by_cases hlt : y < x
    · rw [if_pos hlt]
      have hfirst : ∀ z ∈ x :: xs, y < z :=
        List.forall_mem_cons.mpr ⟨hlt, fun z hz ↦ Nat.lt_trans hlt (hxs z hz)⟩
      exact (ih hrest).step (.keeps hfirst) (.changes habove)
    · rw [if_neg hlt]
      by_cases heq : y = x
      · subst heq
        rw [if_pos rfl]
        exact (hbehind (!b) ys hrest).step (.changes hxs) (.changes habove)
      · rw [if_neg heq]
        have hgt : x < y := by omega
        have hsecond : ∀ z ∈ y :: ys, x < z :=
          List.forall_mem_cons.mpr ⟨hgt, fun z hz ↦ Nat.lt_trans hgt (habove z hz)⟩
        exact (hbehind b (y :: ys) hys).step (.changes hxs) (.keeps hsecond)

/-- The walk along both sets. -/
theorem combines_from (hxs : xs.Pairwise (· < ·)) (hys : ys.Pairwise (· < ·)) :
    Combines f a b xs ys (combineFrom f xs a b ys) := by
  induction xs generalizing a b ys with
  | nil => exact combines_tail hys
  | cons x xs ih =>
    obtain ⟨habove, hrest⟩ := List.pairwise_cons.mp hxs
    exact combines_upTo habove (fun b ys hys ↦ ih hrest hys) hys

variable {s t : CharSet}

theorem IsAscending.combine (hs : s.IsAscending) (ht : t.IsAscending) :
    (combine f s t).IsAscending := (combines_from hs ht).ascending

/-- A character belongs to a combination if the operation is true of its membership in both sets. -/
theorem contains_combine (hf : f false false = false) (hs : s.IsAscending) (ht : t.IsAscending)
    (c : Char) : (combine f s t).contains c = f (s.contains c) (t.contains c) := by
  have hodd := (combines_from (f := f) (a := false) (b := false) hs ht).odd c.toNat
  rwa [hf, Bool.false_xor, Bool.false_xor, Bool.false_xor] at hodd

theorem isAscending_empty : empty.IsAscending := .nil

theorem isAscending_single (c : Char) : (single c).IsAscending := by
  rw [single, range, if_pos (Nat.le_refl _), IsAscending]
  exact List.pairwise_pair.mpr (Nat.lt_succ_self _)

theorem contains_single_iff {c d : Char} : (single c).contains d = true ↔ d = c := by
  rw [single, contains_range, decide_eq_true_eq, ← Char.toNat_inj]
  omega

/-- The union of any ascending sets holds the characters of each. -/
theorem foldl_union {sets : List CharSet} (hs : s.IsAscending) (hsets : ∀ t ∈ sets, t.IsAscending) :
    (sets.foldl union s).IsAscending ∧
      ∀ c, (sets.foldl union s).contains c = (s.contains c || sets.any (·.contains c)) := by
  induction sets generalizing s with
  | nil => exact ⟨hs, fun c ↦ (Bool.or_false _).symm⟩
  | cons t sets ih =>
    obtain ⟨ht, hsets⟩ := List.forall_mem_cons.mp hsets
    have hunion : (s.union t).IsAscending := hs.combine ht
    obtain ⟨hascending, hcontains⟩ := ih hunion hsets
    refine ⟨hascending, fun c ↦ ?_⟩
    rw [List.foldl_cons, hcontains, union, contains_combine rfl hs ht, List.any_cons, Bool.or_assoc]

end UrlPattern.CharSet
