import Mathlib.Data.Nat.Log
import Mathlib.Order.Bounds.Defs
import UrlPattern.Proofs.AcceptedRuns

/-!
# The longest accepted run

The search for the longest accepted run of a character starts between an accepted length and a
greater one that is rejected. A turn of it (`Group.halve`) asks for the run in the middle and moves
one of the two ends there. It keeps the lower end accepted and the upper end rejected
(`Group.Brackets.halve`) and leaves half of the gap, so after as many turns as halve the gap to one
the ends are neighbors (`Group.Brackets.iterate_halve`).

Since the accepted lengths have no gap (`Group.acceptsRun_of_between`), the lower end is then the
greatest accepted length below the one that the search started from (`Group.isGreatest_longestRun`).

Specification: `SPEC_FULL.md` §10.9 (lines 266–281).
-/

namespace UrlPattern.Group

variable {g : Group} {c : Char} {low high : Nat} {ends : Nat × Nat}

/-- A turn of the search: the run in the middle is tried, unless the ends are neighbors. -/
def halve (g : Group) (c : Char) (ends : Nat × Nat) : Nat × Nat :=
  if ends.2 - ends.1 ≤ 1 then ends
  else
    let middle := ends.1 + (ends.2 - ends.1) / 2
    if g.acceptsRun c middle then (middle, ends.2) else (ends.1, middle)

/-- What the search knows of its ends. -/
structure Brackets (g : Group) (c : Char) (ends : Nat × Nat) : Prop where
  lt : ends.1 < ends.2
  accepted : g.acceptsRun c ends.1 = true
  rejected : g.acceptsRun c ends.2 = false

/-- A turn keeps what is known, and half of the gap. -/
theorem Brackets.halve (h : g.Brackets c ends) :
    g.Brackets c (g.halve c ends) ∧
      (g.halve c ends).2 - (g.halve c ends).1 ≤ (ends.2 - ends.1 + 1) / 2 := by
  have hlt := h.lt
  rw [Group.halve]
  split
  · next hsmall => exact ⟨h, by omega⟩
  · next hlarge =>
    dsimp only
    split
    · next haccept =>
      exact ⟨⟨by dsimp only; omega, haccept, h.rejected⟩, by omega⟩
    · next hreject =>
      exact ⟨⟨by dsimp only; omega, h.accepted, Bool.eq_false_iff.mpr hreject⟩, by omega⟩

/-- The search goes on from where a turn ends. -/
theorem longestRun_halve (g : Group) (c : Char) (ends : Nat × Nat) :
    g.longestRun c (g.halve c ends).1 (g.halve c ends).2 = g.longestRun c ends.1 ends.2 := by
  conv_rhs => rw [longestRun]
  rw [halve]
  split
  · next hsmall => rw [longestRun, if_pos hsmall]
  · next hlarge =>
    dsimp only
    split <;> rfl

/-- After enough turns the ends are the length that the search gives and the one behind it. -/
theorem Brackets.iterate_halve (h : g.Brackets c ends) {turns : Nat}
    (hturns : ends.2 - ends.1 ≤ 2 ^ turns) :
    (g.halve c)^[turns] ends
      = (g.longestRun c ends.1 ends.2, g.longestRun c ends.1 ends.2 + 1) := by
  induction turns generalizing ends with
  | zero =>
    have hlt := h.lt
    rw [pow_zero] at hturns
    rw [Function.iterate_zero, id_eq, longestRun, if_pos hturns]
    exact Prod.ext rfl (by dsimp only; omega)
  | succ turns ih =>
    obtain ⟨hnext, hhalf⟩ := h.halve
    rw [pow_succ] at hturns
    rw [Function.iterate_succ_apply, ih hnext (by omega), longestRun_halve]

/-- Between an accepted and a rejected length the search stops, after as many turns as halve the gap
to one. It stops at the greatest length below the rejected one whose run is accepted, and all runs
from the accepted length up to it are accepted. `SPEC_FULL.md:276–278`. -/
theorem isGreatest_longestRun (hg : g.IsBuiltin) (hlt : low < high)
    (hlow : g.acceptsRun c low = true) (hhigh : g.acceptsRun c high = false) :
    (g.halve c)^[Nat.clog 2 (high - low)] (low, high)
        = (g.longestRun c low high, g.longestRun c low high + 1) ∧
      IsGreatest {n | n < high ∧ g.acceptsRun c n = true} (g.longestRun c low high) ∧
      ∀ n, low ≤ n → n ≤ g.longestRun c low high → g.acceptsRun c n = true := by
  have hends : g.Brackets c (low, high) := ⟨hlt, hlow, hhigh⟩
  obtain ⟨hle, hless, haccept, -⟩ := longestRun_spec hlt hlow hhigh
  refine ⟨hends.iterate_halve (Nat.le_pow_clog (by omega) _), ⟨⟨hless, haccept⟩, ?_⟩, ?_⟩
  · rintro n ⟨hn, hrun⟩
    rcases Nat.lt_or_ge n low with hbelow | habove
    · omega
    · exact le_longestRun hg hlow hhigh habove hn hrun
  · exact fun n habove hn ↦ acceptsRun_of_between hg hlow haccept habove hn

/-- Nines as integers from 10 to 5000 have 2 or 3 digits. In words of at most 7 characters that
begin with `aa`, a run of that letter has from 2 to 7. -/
theorem isGreatest_longestRun_capped :
    (∃ g : Group, g.type = .integer ∧ g.raw = .ofList [("max", "5000"), ("min", "10")] ∧
      g.acceptsRun '9' 2 = true ∧ g.acceptsRun '9' 20 = false ∧
        IsGreatest {n | n < 20 ∧ g.acceptsRun '9' n = true} 3) ∧
    ∃ g : Group, g.type = .word ∧ g.raw = .ofList [("maxLen", "7"), ("startsWith", "aa")] ∧
      g.acceptsRun 'a' 2 = true ∧ g.acceptsRun 'a' 20 = false ∧
        IsGreatest {n | n < 20 ∧ g.acceptsRun 'a' n = true} 7 := by
  let g : Group := ⟨1, "n", .integer, .ofList [("max", "5000"), ("min", "10")],
    [.max 5000, .min 10], rfl, .plain⟩
  let g' : Group := ⟨1, "n", .word, .ofList [("maxLen", "7"), ("startsWith", "aa")],
    [.maxLen 7, .startsWith "aa"], rfl, .plain⟩
  have hlow : g.acceptsRun '9' 2 = true := by decide +kernel
  have hhigh : g.acceptsRun '9' 20 = false := by decide +kernel
  have hlow' : g'.acceptsRun 'a' 2 = true := by decide +kernel
  have hhigh' : g'.acceptsRun 'a' 20 = false := by decide +kernel
  have hlongest : g.longestRun '9' 2 20 = 3 := by decide +kernel
  have hlongest' : g'.longestRun 'a' 2 20 = 7 := by decide +kernel
  refine ⟨⟨g, rfl, rfl, hlow, hhigh, ?_⟩, g', rfl, rfl, hlow', hhigh', ?_⟩
  · rw [← hlongest]
    exact (isGreatest_longestRun (.inl rfl) (by decide) hlow hhigh).2.1
  · rw [← hlongest']
    exact (isGreatest_longestRun (.inr rfl) (by decide) hlow' hhigh').2.1

end UrlPattern.Group
