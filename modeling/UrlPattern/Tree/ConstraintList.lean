import UrlPattern.Constraint
import UrlPattern.Text.Blank

/-!
# Reading lists of constraints

Between the parentheses of a group stand pairs `key=value`, separated by commas. A value is either
a quoted text, in which a backslash takes the meaning from the character after it, or runs up to
the next comma. Blanks around keys and values do not count, nor does a list of blanks.

Specification: `SPEC_FULL.md` §4.4 (lines 57–58) and §6 (lines 78–82).
-/

namespace UrlPattern.ConstraintList

/-- What is wrong with a list of constraints. -/
inductive Fault where
  /-- The entry of this key is not of the form `key=value`, or repeats the key. -/
  | invalidEntry (key : String)
  /-- A quoted value is not closed. -/
  | unterminatedQuote
  deriving DecidableEq

/-- Reads a quoted value behind its opening quote; gives the value and what follows the closing
quote. `SPEC_FULL.md:58`. -/
def readQuoted : List Char → Option (List Char × List Char)
  | [] => none
  | ['\\'] => none
  | '\\' :: c :: cs => (readQuoted cs).map fun r ↦ (c :: r.1, r.2)
  | '"' :: cs => some ([], cs)
  | c :: cs => (readQuoted cs).map fun r ↦ (c :: r.1, r.2)

/-- Reads the value of an entry behind its equals sign; gives the value and what follows it, which
is nothing or starts with a comma. -/
def readValue (key : String) (cs : List Char) : Except Fault (String × List Char) :=
  match Text.trimStart cs with
  | '"' :: body =>
    match readQuoted body with
    | none => .error .unterminatedQuote
    | some (value, after) =>
      match Text.trimStart after with
      | [] => .ok (String.ofList value, [])
      | ',' :: more => .ok (String.ofList value, ',' :: more)
      | _ => .error (.invalidEntry key)
  | body =>
    .ok (String.ofList (Text.trim (body.takeWhile (· ≠ ','))), body.dropWhile (· ≠ ','))

/-- Reads an entry; gives the key, the value and what follows. -/
def readEntry (cs : List Char) : Except Fault (String × String × List Char) :=
  let key := String.ofList (Text.trim (cs.takeWhile fun c ↦ c ≠ '=' && c ≠ ','))
  match cs.dropWhile fun c ↦ c ≠ '=' && c ≠ ',' with
  | '=' :: body =>
    if key = "" then .error (.invalidEntry key)
    else (readValue key body).map fun r ↦ (key, r.1, r.2)
  | _ => .error (.invalidEntry key)

private theorem length_dropWhile_le {α : Type _} (p : α → Bool) (l : List α) :
    (l.dropWhile p).length ≤ l.length :=
  (List.dropWhile_suffix p).length_le

private theorem length_readQuoted {cs value after : List Char}
    (h : readQuoted cs = some (value, after)) : after.length ≤ cs.length := by
  fun_induction readQuoted cs generalizing value after with
  | case1 => simp at h
  | case2 => simp at h
  | case3 c cs ih =>
    obtain ⟨r, hr, he⟩ := Option.map_eq_some_iff.mp h
    have := ih hr
    simp only [Prod.mk.injEq] at he
    simp only [List.length_cons]
    rw [← he.2]
    omega
  | case4 cs =>
    simp only [Option.some.injEq, Prod.mk.injEq] at h
    simp [← h.2]
  | case5 c cs _ _ _ ih =>
    obtain ⟨r, hr, he⟩ := Option.map_eq_some_iff.mp h
    have := ih hr
    simp only [Prod.mk.injEq] at he
    simp only [List.length_cons]
    rw [← he.2]
    omega

private theorem length_readValue {key : String} {cs : List Char} {value : String}
    {after : List Char} (h : readValue key cs = .ok (value, after)) :
    after.length ≤ cs.length := by
  have hstart := length_dropWhile_le Text.isBlank cs
  rw [readValue] at h
  split at h
  · next body hbody =>
    have hb : body.length + 1 ≤ cs.length := by
      rw [Text.trimStart] at hbody
      simpa [hbody] using hstart
    split at h
    · simp at h
    · next value' after' hq =>
      have hq := length_readQuoted hq
      have ha := length_dropWhile_le Text.isBlank after'
      split at h
      · simp only [Except.ok.injEq, Prod.mk.injEq] at h
        simp [← h.2]
      · next more hm =>
        simp only [Except.ok.injEq, Prod.mk.injEq] at h
        rw [Text.trimStart] at hm
        rw [hm] at ha
        rw [← h.2]
        omega
      · simp at h
  · next body _ =>
    simp only [Except.ok.injEq, Prod.mk.injEq] at h
    have := length_dropWhile_le (· ≠ ',') (Text.trimStart cs)
    rw [← h.2]
    exact Nat.le_trans this hstart

/-- What follows an entry is shorter than the text from the entry on. -/
theorem length_readEntry {cs : List Char} {key value : String} {after : List Char}
    (h : readEntry cs = .ok (key, value, after)) : after.length < cs.length := by
  rw [readEntry] at h
  have hd := length_dropWhile_le (fun c ↦ c ≠ '=' && c ≠ ',') cs
  split at h
  · next body hbody =>
    rw [hbody] at hd
    split at h
    · simp at h
    · cases hv : readValue (String.ofList (Text.trim (cs.takeWhile fun c ↦ c ≠ '=' && c ≠ ',')))
          body with
      | error e => rw [hv] at h; simp [Except.map] at h
      | ok r =>
        have := length_readValue hv
        simp only [hv, Except.map, Except.ok.injEq, Prod.mk.injEq] at h
        simp only [List.length_cons] at hd
        rw [← h.2.2]
        omega
  · simp at h

/-- Adds an entry, whose key must be new. -/
def addEntry (before : RawConstraints) (key value : String) : Except Fault RawConstraints :=
  if before.contains key then .error (.invalidEntry key) else .ok (before.insert key value)

/-- Reads the entries of a list and adds them to those before. -/
def readEntries (before : RawConstraints) (cs : List Char) : Except Fault RawConstraints :=
  match _h : readEntry cs with
  | .error e => .error e
  | .ok (key, value, ',' :: more) => do
    let added ← addEntry before key value
    readEntries added more
  | .ok (key, value, _) => addEntry before key value
termination_by cs.length
decreasing_by
  have := length_readEntry _h
  simp only [List.length_cons] at this
  omega

/-- Reads a list of constraints. `SPEC_FULL.md:80`. -/
def read (cs : List Char) : Except Fault RawConstraints :=
  if Text.trim cs = [] then .ok ∅ else readEntries ∅ cs

end UrlPattern.ConstraintList
