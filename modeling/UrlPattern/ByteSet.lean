import UrlPattern.Text.Utf8

/-!
# Sets of bytes

A set of bytes is a table of 256 bits in four words, of which bit `b % 64` of word `b / 64` tells
whether byte `b` is a member. The view is `contains`: the lemmas below say what each operation does
to it, and `ext_contains` that a set is determined by its members.

Specification: `SPEC_FULL.md` §3 (line 40) and §4.7 (lines 66–69).
-/

namespace UrlPattern

/-- A set of bytes. -/
structure ByteSet where
  /-- The bits of the members are set, and no others. -/
  words : Vector UInt64 4
  deriving DecidableEq

namespace ByteSet

/-- The set without members. -/
def empty : ByteSet := ⟨Vector.replicate 4 0⟩

instance : Inhabited ByteSet := ⟨empty⟩

private theorem toNat_shiftRight_six (b : UInt8) : (b >>> 6).toNat = b.toNat / 64 := by
  rw [UInt8.toNat_shiftRight, Nat.shiftRight_eq_div_pow]
  rfl

/-- The word that holds the bit of a byte. -/
def wordOf (b : UInt8) : Fin 4 :=
  ⟨(b >>> 6).toNat, by
    have hb : b.toNat < 256 := b.toNat_lt
    rw [toNat_shiftRight_six]
    omega⟩

/-- The bit of a byte in its word. -/
def bitOf (b : UInt8) : UInt64 := 1 <<< (b &&& 63).toUInt64

/-- Whether a byte is a member. -/
def contains (s : ByteSet) (b : UInt8) : Bool := s.words[wordOf b] &&& bitOf b != 0

/-- Adds a byte. -/
def insert (s : ByteSet) (b : UInt8) : ByteSet :=
  ⟨s.words.set (wordOf b) (s.words[wordOf b] ||| bitOf b)⟩

/-- The members of either set. -/
def union (s t : ByteSet) : ByteSet := ⟨s.words.zipWith (· ||| ·) t.words⟩

/-- The bytes of a list. -/
def ofList (l : List UInt8) : ByteSet := l.foldl insert empty

/-- The bytes of a text's encoding. -/
def ofText (s : String) : ByteSet := ofList (Text.utf8 s.toList)

/-- All bytes, ascending. -/
def allBytes : List UInt8 := (List.range 256).map UInt8.ofNat

/-- The members, ascending. -/
def toList (s : ByteSet) : List UInt8 := allBytes.filter s.contains

/-- The number of members: that of the bits that are set. -/
def size (s : ByteSet) : Nat := s.words.foldl (fun n w ↦ n + w.toBitVec.cpop.toNat) 0

/-- Whether there is no member. -/
def isEmpty (s : ByteSet) : Bool := s.words.all (· == 0)

/-- Whether every byte of a text's encoding is a member. -/
def containsAll (s : ByteSet) (text : String) : Bool := (Text.utf8 text.toList).all s.contains

/-- The printable characters of ASCII, space to tilde. `SPEC_FULL.md:72`. -/
def printable : ByteSet := ofList ((List.range' 32 95).map UInt8.ofNat)

private def hexDigits (b : UInt8) : String :=
  String.ofList [Nat.digitChar (b.toNat / 16), Nat.digitChar (b.toNat % 16)]

/-- The members as a text: a printable byte is its character, any other `\x` and two hex digits. -/
def render (s : ByteSet) : String :=
  String.join (s.toList.map fun b ↦
    if 32 ≤ b.toNat ∧ b.toNat ≤ 126 then String.singleton (Char.ofNat b.toNat)
    else "\\x" ++ hexDigits b)

/-- The labelled form of `render`, for diagnostics. -/
def debugText (s : ByteSet) : String := "ByteSet(\"" ++ s.render ++ "\")"

theorem val_wordOf (b : UInt8) : (wordOf b).val = b.toNat / 64 := toNat_shiftRight_six b

/-- The bit of a byte is the one numbered by the rest of the byte. -/
theorem toBitVec_bitOf (b : UInt8) : (bitOf b).toBitVec = BitVec.twoPow 64 (b.toNat % 64) := by
  have hrest : b.toNat &&& 63 = b.toNat % 64 := Nat.and_two_pow_sub_one_eq_mod b.toNat 6
  rw [bitOf, UInt64.toBitVec_shiftLeft, BitVec.shiftLeft_eq', BitVec.twoPow]
  simp [hrest]

/-- In one word, different bytes have different bits. -/
theorem toNat_mod_eq_iff {a b : UInt8} (h : wordOf a = wordOf b) :
    a.toNat % 64 = b.toNat % 64 ↔ a = b := by
  have hword := congrArg Fin.val h
  rw [val_wordOf, val_wordOf] at hword
  rw [← UInt8.toNat_inj]
  omega

/-- Whether a byte is a member is told by its bit. -/
theorem contains_eq_getLsbD (s : ByteSet) (b : UInt8) :
    s.contains b = s.words[wordOf b].toBitVec.getLsbD (b.toNat % 64) := by
  have hbit : BitVec.twoPow 64 (b.toNat % 64) ≠ 0#64 := fun hzero ↦ by
    have hset := congrArg (fun w ↦ w.getLsbD (b.toNat % 64)) hzero
    simp [Nat.mod_lt] at hset
  rw [contains, Bool.eq_iff_iff, bne_iff_ne, Ne, ← UInt64.toBitVec_inj, UInt64.toBitVec_and,
    toBitVec_bitOf, BitVec.and_twoPow]
  split
  · next hmem => exact iff_of_true hbit hmem
  · next hmem => exact iff_of_false (fun hne ↦ hne rfl) hmem

/-- Every bit of every word is that of a byte. -/
theorem contains_ofNat (s : ByteSet) {i j : Nat} (hi : i < 4) (hj : j < 64) :
    s.contains (UInt8.ofNat (64 * i + j)) = s.words[i].toBitVec.getLsbD j := by
  have hbyte : (UInt8.ofNat (64 * i + j)).toNat = 64 * i + j :=
    UInt8.toNat_ofNat_of_lt' (by change _ < 256; omega)
  have hword : wordOf (UInt8.ofNat (64 * i + j)) = ⟨i, hi⟩ := by
    apply Fin.ext
    rw [val_wordOf, hbyte]
    change (64 * i + j) / 64 = i
    omega
  have hrest : (64 * i + j) % 64 = j := by omega
  simp only [contains_eq_getLsbD, hword, hbyte, hrest]
  rfl

/-- The empty set has no members. -/
theorem contains_empty (b : UInt8) : empty.contains b = false := by
  simp [contains_eq_getLsbD, empty]

/-- Inserting adds that byte and no other. -/
theorem contains_insert (s : ByteSet) (a b : UInt8) :
    (s.insert a).contains b = (decide (a = b) || s.contains b) := by
  rw [contains_eq_getLsbD, contains_eq_getLsbD, insert]
  by_cases hword : wordOf a = wordOf b
  · have hlt : a.toNat % 64 < 64 := Nat.mod_lt _ (by omega)
    simp [hword, toBitVec_bitOf, hlt, toNat_mod_eq_iff hword, Bool.or_comm]
  · have hne : (wordOf a).val ≠ (wordOf b).val := fun h ↦ hword (Fin.ext h)
    have hother : a ≠ b := fun h ↦ hword (congrArg wordOf h)
    simp [hother, hne]

/-- A union holds the members of both. -/
theorem contains_union (s t : ByteSet) (b : UInt8) :
    (s.union t).contains b = (s.contains b || t.contains b) := by
  simp [contains_eq_getLsbD, union]

/-- The set of a list holds its bytes. -/
theorem contains_ofList (l : List UInt8) (b : UInt8) :
    (ofList l).contains b = true ↔ b ∈ l := by
  have added : ∀ (l : List UInt8) (s : ByteSet),
      (l.foldl insert s).contains b = true ↔ b ∈ l ∨ s.contains b = true := by
    intro l
    induction l with
    | nil => simp
    | cons a l ih =>
      intro s
      rw [List.foldl_cons, ih, contains_insert, Bool.or_eq_true, decide_eq_true_eq, List.mem_cons,
        ← or_assoc, eq_comm (a := a), or_comm (a := b ∈ l)]
  rw [ofList, added, contains_empty]
  exact or_iff_left nofun

theorem mem_allBytes (b : UInt8) : b ∈ allBytes :=
  List.mem_map.mpr ⟨b.toNat, List.mem_range.mpr b.toNat_lt, UInt8.ofNat_toNat⟩

/-- The list holds exactly the members. -/
theorem mem_toList (s : ByteSet) (b : UInt8) : b ∈ s.toList ↔ s.contains b = true := by
  rw [toList, List.mem_filter]
  exact ⟨And.right, fun h ↦ ⟨mem_allBytes b, h⟩⟩

/-- A set is determined by its members. -/
theorem ext_contains {s t : ByteSet} (h : ∀ b, s.contains b = t.contains b) : s = t := by
  cases s with
  | mk v =>
    cases t with
    | mk w =>
      congr 1
      refine Vector.ext fun i hi ↦ UInt64.toBitVec_inj.mp (BitVec.eq_of_getLsbD_eq fun j hj ↦ ?_)
      have hbit := h (UInt8.ofNat (64 * i + j))
      rwa [contains_ofNat _ hi hj, contains_ofNat _ hi hj] at hbit

/-- A set of bytes is that of its members. -/
theorem ofList_toList (s : ByteSet) : ofList s.toList = s := by
  apply ext_contains
  intro b
  rw [Bool.eq_iff_iff, contains_ofList, mem_toList]

/-- The members come in ascending order. -/
theorem pairwise_lt_toList (s : ByteSet) : s.toList.Pairwise (· < ·) := by
  refine List.Pairwise.filter _ (List.pairwise_map.mpr ?_)
  refine List.pairwise_lt_range.imp_of_mem fun {m n} hm hn hlt ↦ ?_
  rw [List.mem_range] at hm hn
  rwa [UInt8.lt_iff_toNat_lt, UInt8.toNat_ofNat_of_lt' hm, UInt8.toNat_ofNat_of_lt' hn]

/-- The bits that are set are counted from the last to the first. -/
private theorem cpopNatRec_eq_countP {w : Nat} (x : BitVec w) (n : Nat) :
    x.cpopNatRec n 0 = (List.range n).countP x.getLsbD := by
  induction n with
  | zero => rfl
  | succ n ih =>
    rw [BitVec.cpopNatRec_succ, BitVec.cpopNatRec_add, ih, List.range_succ, List.countP_append,
      List.countP_singleton]
    cases x.getLsbD n <;> rfl

/-- All bytes, word by word. -/
private theorem allBytes_eq_flatMap : allBytes =
    (List.range 4).flatMap fun i ↦ (List.range 64).map fun j ↦ UInt8.ofNat (64 * i + j) := by
  decide +kernel

/-- As many bits are set as there are members. -/
theorem size_eq_length (s : ByteSet) : s.size = s.toList.length := by
  have hword : ∀ i (hi : i < 4),
      ((List.range 64).map fun j ↦ UInt8.ofNat (64 * i + j)).countP s.contains
        = s.words[i].toBitVec.cpop.toNat := by
    intro i hi
    rw [BitVec.toNat_cpop, cpopNatRec_eq_countP, List.countP_map]
    refine List.countP_congr fun j hj ↦ ?_
    rw [Function.comp_apply, s.contains_ofNat hi (List.mem_range.mp hj)]
  have hsum : s.size = (s.words.toList.map fun w ↦ w.toBitVec.cpop.toNat).sum := by
    rw [size, ← Vector.foldl_toList, List.sum_eq_foldl_nat, List.foldl_map]
  rw [hsum, toList, ← List.countP_eq_length_filter, allBytes_eq_flatMap, List.countP_flatMap]
  congr 1
  refine List.ext_getElem (by simp) fun i hi _ ↦ ?_
  have hlt : i < 4 := by simpa using hi
  rw [List.getElem_map, List.getElem_map, List.getElem_range, Function.comp_apply, hword i hlt]
  rfl

/-- No bit is set exactly if there is no member. -/
theorem isEmpty_iff (s : ByteSet) : s.isEmpty = true ↔ ∀ b, s.contains b = false := by
  rw [isEmpty, Vector.all_eq_true]
  constructor
  · intro hzero b
    have hword := eq_of_beq (hzero (wordOf b) (wordOf b).isLt)
    rw [contains_eq_getLsbD, Fin.getElem_fin, hword]
    exact BitVec.getLsbD_zero
  · intro hnone i hi
    rw [beq_iff_eq, ← UInt64.toBitVec_inj]
    refine BitVec.eq_of_getLsbD_eq fun j hj ↦ ?_
    rw [← s.contains_ofNat hi hj, hnone]
    exact BitVec.getLsbD_zero.symm

end ByteSet

end UrlPattern
