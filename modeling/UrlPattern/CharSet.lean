/-!
# Sets of characters

A set of characters is kept as the code points at which membership changes. That form is the same
for a short set in brackets and for the table of a Unicode property, and each operation on sets is
one walk along the changes of both.
-/

namespace UrlPattern

/-- A set of characters: the ascending code points at which membership changes. Code point zero is
outside unless it is the first change. -/
structure CharSet where
  changes : List Nat
  deriving DecidableEq

namespace CharSet

/-- Whether an odd number of ascending changes lie at or below a code point. -/
def oddBelow (n : Nat) : List Nat → Bool
  | [] => false
  | b :: bs => if b ≤ n then !oddBelow n bs else false

/-- Whether a character belongs to the set. -/
def contains (s : CharSet) (c : Char) : Bool := oddBelow c.toNat s.changes

/-- The set of no character. -/
def empty : CharSet := ⟨[]⟩

/-- The characters from one to another, both included. -/
def range (low high : Char) : CharSet :=
  if low.toNat ≤ high.toNat then ⟨[low.toNat, high.toNat + 1]⟩ else empty

/-- The set of one character. -/
def single (c : Char) : CharSet := range c c

/-- The code points in ascending closed ranges that do not touch. -/
def ofRanges (ranges : List (Nat × Nat)) : CharSet := ⟨ranges.flatMap fun r ↦ [r.1, r.2 + 1]⟩

/-- The characters outside a set. -/
def complement (s : CharSet) : CharSet :=
  match s.changes with
  | 0 :: changes => ⟨changes⟩
  | changes => ⟨0 :: changes⟩

/-- Puts a change in front of the later ones if there is one at all. -/
def changeIf (changes : Bool) (n : Nat) (later : List Nat) : List Nat :=
  if changes then n :: later else later

/-- The changes of a combination from where the first set is left, the second one being walked on
alone. -/
def combineTail (f : Bool → Bool → Bool) (a b : Bool) : List Nat → List Nat
  | [] => []
  | y :: ys => changeIf (f a (!b) != f a b) y (combineTail f a (!b) ys)

/-- The changes of a combination up to the next change of the first set, and behind it what is
given for the second set from there on. -/
def combineUpTo (f : Bool → Bool → Bool) (a : Bool) (x : Nat)
    (behind : Bool → List Nat → List Nat) : Bool → List Nat → List Nat
  | b, [] => changeIf (f (!a) b != f a b) x (behind b [])
  | b, y :: ys =>
    if y < x then changeIf (f a (!b) != f a b) y (combineUpTo f a x behind (!b) ys)
    else if y = x then changeIf (f (!a) (!b) != f a b) x (behind (!b) ys)
    else changeIf (f (!a) b != f a b) x (behind b (y :: ys))

/-- The changes of a combination of two sets, given whether the place reached is inside either. -/
def combineFrom (f : Bool → Bool → Bool) : List Nat → Bool → Bool → List Nat → List Nat
  | [], a, b, ys => combineTail f a b ys
  | x :: xs, a, b, ys => combineUpTo f a x (fun b ys ↦ combineFrom f xs (!a) b ys) b ys

/-- The characters for which an operation on their membership in two sets is true. Of a character
in neither set it must be false. -/
def combine (f : Bool → Bool → Bool) (s t : CharSet) : CharSet :=
  ⟨combineFrom f s.changes false false t.changes⟩

/-- The characters in either set. -/
def union : CharSet → CharSet → CharSet := combine fun a b ↦ a || b

/-- The characters in both sets. -/
def inter : CharSet → CharSet → CharSet := combine fun a b ↦ a && b

/-- The characters in the first set and not in the second. -/
def diff : CharSet → CharSet → CharSet := combine fun a b ↦ a && (!b)

/-- The characters in one of the sets and not in the other. -/
def symmDiff : CharSet → CharSet → CharSet := combine fun a b ↦ a != b

/-- The only character of the set, if there is just one. -/
def single? (s : CharSet) : Option Char :=
  match s.changes with
  | [low, above] => if above = low + 1 then some (Char.ofNat low) else none
  | _ => none

/-- The closed ranges of code points that the set consists of. -/
def ranges (s : CharSet) : List (Nat × Nat) := pairs s.changes
where
  /-- The ranges that ascending changes delimit. -/
  pairs : List Nat → List (Nat × Nat)
    | low :: above :: later => (low, above - 1) :: pairs later
    | [low] => [(low, 0x10FFFF)]
    | [] => []

/-- No character belongs to the empty set. -/
theorem contains_empty (c : Char) : empty.contains c = false := rfl

/-- The characters of a range are those between its ends. -/
theorem contains_range (low high c : Char) :
    (range low high).contains c = decide (low.toNat ≤ c.toNat ∧ c.toNat ≤ high.toNat) := by
  unfold range contains
  split
  · simp only [oddBelow]
    grind
  · simp only [empty, oddBelow]
    grind

end CharSet

end UrlPattern
