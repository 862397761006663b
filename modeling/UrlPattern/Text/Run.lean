/-!
# Runs

A run is a text that repeats one character.

Specification: `SPEC_FULL.md` §10.9 (lines 266–281).
-/

namespace UrlPattern.Text

/-- So many times the same character. -/
def run (c : Char) (n : Nat) : String := "".pushn c n

/-- A run consists of its character. -/
theorem toList_run (c : Char) (n : Nat) : (run c n).toList = List.replicate n c := by
  have repeat_push : ∀ n, (n.repeat (fun s ↦ s.push c) "").toList = List.replicate n c := by
    intro n
    induction n with
    | zero => rfl
    | succ n ih => rw [Nat.repeat, String.toList_push, ih, List.replicate_succ']
  rw [run, String.pushn_eq_repeat_push, repeat_push]

theorem length_run (c : Char) (n : Nat) : (run c n).length = n := by
  rw [← String.length_toList, toList_run, List.length_replicate]

end UrlPattern.Text
