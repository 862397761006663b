/-!
# Decimal numbers

Reading and writing of decimal numbers. An integer is a word of 64 bits with a sign; a length is a
natural number below `2 ^ 64`. Readers refuse what does not fit.

Specification: `SPEC_FULL.md` §10.3 (lines 194–210).
-/

namespace UrlPattern.Text

/-- The number of a digit. -/
def digitValue (c : Char) : Nat := c.toNat - '0'.toNat

/-- The number that a sequence of digits denotes. -/
def ofDigits (cs : List Char) : Nat := cs.foldl (fun n c ↦ 10 * n + digitValue c) 0

/-- Reads a number from one or more digits. -/
def readNat (cs : List Char) : Option Nat :=
  if cs ≠ [] ∧ cs.all Char.isDigit then some (ofDigits cs) else none

/-- Reads a number from one or more digits, unless it exceeds a limit; the digits behind the first
that makes it too large do not matter. -/
def readNatUpTo (most : Nat) (cs : List Char) : Option Nat :=
  if cs = [] then none
  else
    cs.foldlM
      (fun n c ↦
        if c.isDigit ∧ 10 * n + digitValue c ≤ most then some (10 * n + digitValue c) else none)
      0

/-- Reading up to a limit is reading and then comparing. -/
theorem readNatUpTo_eq (most : Nat) (cs : List Char) :
    readNatUpTo most cs = (readNat cs).filter (· ≤ most) := by
  have grows : ∀ (cs : List Char) (n : Nat),
      n ≤ cs.foldl (fun n c ↦ 10 * n + digitValue c) n := by
    intro cs
    induction cs with
    | nil => exact fun n ↦ Nat.le_refl n
    | cons c cs ih => exact fun n ↦ Nat.le_trans (by omega) (ih (10 * n + digitValue c))
  have step : ∀ (cs : List Char) (n : Nat), n ≤ most →
      cs.foldlM (m := Option)
        (fun n c ↦
          if c.isDigit ∧ 10 * n + digitValue c ≤ most then some (10 * n + digitValue c) else none)
        n
      = if cs.all Char.isDigit ∧ cs.foldl (fun n c ↦ 10 * n + digitValue c) n ≤ most then
          some (cs.foldl (fun n c ↦ 10 * n + digitValue c) n)
        else none := by
    intro cs
    induction cs with
    | nil => intro n h; simp [h]
    | cons c cs ih =>
      intro n _
      by_cases hc : c.isDigit ∧ 10 * n + digitValue c ≤ most
      · simp [hc.1, hc.2, ih _ hc.2]
      · have := grows cs (10 * n + digitValue c)
        have hnot : ¬ ((c.isDigit = true ∧ ∀ x ∈ cs, x.isDigit = true) ∧
            cs.foldl (fun n c ↦ 10 * n + digitValue c) (10 * n + digitValue c) ≤ most) :=
          fun h ↦ hc ⟨h.1.1, Nat.le_trans this h.2⟩
        simp [hc, hnot]
  by_cases h : cs = []
  · simp [readNatUpTo, readNat, h]
  · rw [readNatUpTo, if_neg h, step cs 0 (Nat.zero_le most), readNat]
    by_cases ha : cs.all Char.isDigit
    · have hr : (if cs ≠ [] ∧ cs.all Char.isDigit then some (ofDigits cs) else none)
          = some (ofDigits cs) := if_pos ⟨h, ha⟩
      rw [hr, Option.filter_some]
      by_cases hm : ofDigits cs ≤ most
      · rw [if_pos ⟨ha, hm⟩, if_pos (decide_eq_true hm), ofDigits]
      · rw [if_neg fun hx ↦ hm hx.2, if_neg (by simpa using hm)]
    · rw [if_neg fun hx ↦ ha hx.1, if_neg fun hx ↦ ha hx.2]
      rfl

/-- The size of the least integer. -/
def sizeMax : Nat := 0x8000000000000000

/-- The least integer. -/
def integerMin : Int := -0x8000000000000000

/-- The greatest integer. -/
def integerMax : Int := 0x7fffffffffffffff

/-- The integer of this value, if there is one. -/
def integerOf (n : Int) : Option Int64 :=
  if integerMin ≤ n ∧ n ≤ integerMax then some (Int64.ofInt n) else none

/-- Reads an integer from an optional sign `-` and digits. `SPEC_FULL.md:202–203`. -/
def readSigned (cs : List Char) : Option Int64 :=
  match cs with
  | '-' :: ds => (readNatUpTo sizeMax ds).bind fun n ↦ integerOf (-n)
  | ds => (readNatUpTo sizeMax ds).bind fun n ↦ integerOf n

/-- Reads an integer from an optional sign, which may also be `+`, and digits. -/
def readInteger (cs : List Char) : Option Int64 :=
  match cs with
  | '+' :: ds => (readNatUpTo sizeMax ds).bind fun n ↦ integerOf n
  | ds => readSigned ds

/-- The greatest length. -/
def lengthMax : Nat := 0xffffffffffffffff

/-- Reads a length from an optional `+` and digits. -/
def readLength (cs : List Char) : Option Nat :=
  match cs with
  | '+' :: ds => readNatUpTo lengthMax ds
  | ds => readNatUpTo lengthMax ds

/-- The digits of a number, without leading zeros. -/
def natDigits (n : Nat) : List Char := Nat.toDigits 10 n

/-- The decimal text of a number. -/
def renderNat (n : Nat) : String := String.ofList (natDigits n)

/-- The decimal text of an integer, with a `-` in front of the digits of a negative one. -/
def renderInteger (n : Int64) : String :=
  if n.toInt < 0 then String.ofList ('-' :: natDigits n.toInt.natAbs) else renderNat n.toInt.natAbs

/-- The number of digits is the one that core's reader finds. -/
theorem ofDigits_eq (cs : List Char) : ofDigits cs = Nat.ofDigitChars 10 cs 0 := by
  rw [Nat.ofDigitChars_eq_foldl]
  rfl

/-- Only digits are written for a number. -/
theorem isDigit_of_mem_natDigits {n : Nat} {c : Char} (h : c ∈ natDigits n) : c.isDigit = true :=
  Nat.isDigit_of_mem_toDigits (by omega) (by omega) h

/-- The digits of a number denote it. -/
theorem ofDigits_natDigits (n : Nat) : ofDigits (natDigits n) = n := by
  rw [ofDigits_eq]
  exact Nat.ofDigitChars_toDigits (by omega) (by omega)

/-- What is written for a number reads as that number. -/
theorem readNat_natDigits (n : Nat) : readNat (natDigits n) = some n := by
  have hd : (natDigits n).all Char.isDigit :=
    List.all_eq_true.mpr fun _ ↦ isDigit_of_mem_natDigits
  rw [readNat, if_pos ⟨Nat.toDigits_ne_nil, hd⟩, ofDigits_natDigits]

/-- Different numbers have different texts. -/
theorem renderNat_inj {m n : Nat} : renderNat m = renderNat n ↔ m = n := by
  constructor
  · intro h
    have hread := congrArg readNat (String.ofList_inj.mp h)
    rw [readNat_natDigits, readNat_natDigits] at hread
    exact Option.some.inj hread
  · exact congrArg renderNat

/-- Of all numbers only zero has a zero in front. -/
theorem eq_zero_of_head?_natDigits {n : Nat} (h : (natDigits n).head? = some '0') : n = 0 := by
  induction n using Nat.strongRecOn with
  | ind n ih =>
    rw [natDigits, Nat.toDigits_eq_if (by omega)] at h
    split at h
    · simpa using h
    · next hten =>
      obtain ⟨c, cs, hfront⟩ := List.exists_cons_of_ne_nil (l := Nat.toDigits 10 (n / 10))
        Nat.toDigits_ne_nil
      rw [hfront] at h
      have hzero := ih (n / 10) (by omega) (by rw [natDigits, hfront]; exact h)
      omega

end UrlPattern.Text
