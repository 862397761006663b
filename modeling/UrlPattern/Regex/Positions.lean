/-!
# Sets of positions

Which places of an input a search has found. The set is a row of truth values that starts at some
position and grows as far as it must, so a set of neighbouring positions is small wherever they lie.
-/

namespace UrlPattern.Regex

/-- A set of positions. -/
structure Positions where
  /-- The position of the first entry. -/
  first : Nat
  /-- For each position from the first on whether it belongs to the set. No other does. -/
  entries : Array Bool

namespace Positions

/-- The empty set. It grows best if no position before the given one is added. -/
def empty (first : Nat) : Positions := ⟨first, #[]⟩

/-- Whether a position belongs to a set. -/
def has (s : Positions) (pos : Nat) : Bool :=
  decide (s.first ≤ pos) && s.entries.getD (pos - s.first) false

/-- Adds a position. -/
def insert (s : Positions) (pos : Nat) : Positions :=
  if pos < s.first then
    ⟨pos, #[true] ++ Array.replicate (s.first - pos - 1) false ++ s.entries⟩
  else if pos - s.first < s.entries.size then
    { s with entries := s.entries.setIfInBounds (pos - s.first) true }
  else
    { s with
      entries :=
        (s.entries ++ Array.replicate (pos - s.first - s.entries.size) false).push true }

/-- The empty set has no member. -/
theorem has_empty (first pos : Nat) : (empty first).has pos = false := by
  simp [has, empty]

/-- Adding a position adds it and nothing else. -/
theorem has_insert (s : Positions) (pos q : Nat) :
    (s.insert pos).has q = (q == pos || s.has q) := by
  unfold insert
  split
  · rename_i h
    simp only [has, Array.getD_eq_getD_getElem?, Array.getElem?_append, Array.getElem?_replicate,
      Array.size_append, Array.size_replicate, List.size_toArray, List.length_cons, List.length_nil]
    by_cases h1 : q = pos
    · have : 0 < 1 + (s.first - pos - 1) := by omega
      simp [*]
    · by_cases h2 : q < pos
      · have : ¬ s.first ≤ q := by omega
        have : ¬ pos ≤ q := by omega
        simp [*]
      · by_cases h3 : s.first ≤ q
        · have e : q - pos - (1 + (s.first - pos - 1)) = q - s.first := by omega
          have : ¬ q - pos < 1 + (s.first - pos - 1) := by omega
          have : pos ≤ q := by omega
          simp [*]
        · have : q - pos < 1 + (s.first - pos - 1) := by omega
          have : ¬ q - pos < 1 := by omega
          have : q - pos - 1 < s.first - pos - 1 := by omega
          simp [*]
  · rename_i h
    by_cases h1 : q = pos
    · subst h1
      split
      · rename_i h2
        simp [has, Array.getD_eq_getD_getElem?, h2]; omega
      · rename_i h2
        simp only [has, Array.getD_eq_getD_getElem?, Array.getElem?_push, Array.size_append,
          Array.size_replicate]
        have : q - s.first = s.entries.size + (q - s.first - s.entries.size) := by omega
        simp [← this]; omega
    · by_cases h2 : s.first ≤ q
      · have h3 : q - s.first ≠ pos - s.first := by omega
        split
        · simp [has, Array.getD_eq_getD_getElem?, h1, h3.symm]
        · rename_i h4
          have e : s.entries.size + (pos - s.first - s.entries.size) = pos - s.first := by omega
          simp only [has, Array.getD_eq_getD_getElem?, Array.getElem?_push, Array.getElem?_append,
            Array.size_append, Array.getElem?_replicate, Array.size_replicate, e, h3, ite_false]
          by_cases h5 : q - s.first < s.entries.size
          · simp [h1, h5]
          · have h6 : s.entries[q - s.first]? = none := by simp; omega
            have h7 : (q == pos) = false := by simp [h1]
            rw [h6, h7]
            by_cases h8 : q - s.first - s.entries.size < pos - s.first - s.entries.size <;>
              simp [h5, h8]
      · split <;> simp [has, h1, h2]

end Positions

end UrlPattern.Regex
