import Mathlib.Data.Finset.Card
import UrlPattern.ByteSet

/-!
# Sets of bytes as finite sets

However a set of bytes is put together, all that can be asked of its words is answered as by the
finite set of the bytes that were put in (`ByteSet.Construction.hasMembers_set`). Each operation is
known by what it does to membership, and every answer follows from membership alone
(`ByteSet.hasMembers_of_contains`).

Specification: `SPEC_FULL.md` §3 (line 40).
-/

namespace UrlPattern

/-- The bytes of a text are those that a `String` stores. -/
theorem Text.mem_utf8_toList {text : String} {b : UInt8} :
    b ∈ Text.utf8 text.toList ↔ b ∈ text.toUTF8.data := by
  have hstored : text.toUTF8.data = (Text.utf8 text.toList).toArray := by
    rw [String.toUTF8, ← String.utf8Encode_toList, List.utf8Encode, List.data_toByteArray]
    rfl
  rw [hstored, List.mem_toArray]

namespace ByteSet

/-- The members of the set of a list are its bytes, in order and without repetitions. -/
theorem toList_ofList (l : List UInt8) : (ofList l).toList = l.dedup.mergeSort := by
  have hperm : (ofList l).toList.Perm l.dedup.mergeSort := by
    refine .trans ?_ (List.mergeSort_perm _ _).symm
    have hnodup := (ofList l).pairwise_lt_toList.imp UInt8.ne_of_lt
    refine (List.perm_ext_iff_of_nodup hnodup (List.nodup_dedup l)).mpr fun b ↦ ?_
    rw [mem_toList, contains_ofList, List.mem_dedup]
  have hsorted : l.dedup.mergeSort.Pairwise (· ≤ ·) := by
    have htrans : ∀ a b c : UInt8, decide (a ≤ b) = true → decide (b ≤ c) = true →
        decide (a ≤ c) = true := by
      simp only [decide_eq_true_eq]
      exact fun _ _ _ ↦ UInt8.le_trans
    have htotal : ∀ a b : UInt8, (decide (a ≤ b) || decide (b ≤ a)) = true := by
      simp only [Bool.or_eq_true, decide_eq_true_eq]
      exact UInt8.le_total
    exact (List.pairwise_mergeSort htrans htotal l.dedup).imp of_decide_eq_true
  refine hperm.eq_of_pairwise (fun _ _ _ _ ↦ UInt8.le_antisymm) ?_ hsorted
  exact (ofList l).pairwise_lt_toList.imp UInt8.le_of_lt

/-- What can be asked of a set of bytes is answered as by a finite set of its members. -/
structure HasMembers (s : ByteSet) (members : Finset UInt8) : Prop where
  contains_iff : ∀ b, s.contains b = true ↔ b ∈ members
  /-- The members are listed, each of them once and in ascending order. -/
  mem_toList_iff : ∀ b, b ∈ s.toList ↔ b ∈ members
  ascending : s.toList.Pairwise (· < ·)
  size_eq : s.size = members.card
  isEmpty_iff : s.isEmpty = true ↔ members = ∅
  /-- A text is covered if all bytes of its encoding are members. -/
  containsAll_iff : ∀ text : String,
    s.containsAll text = true ↔ ∀ b ∈ text.toUTF8.data, b ∈ members
  /-- The list of the members gives the set back. -/
  ofList_toList : ofList s.toList = s

/-- All answers follow from membership. -/
theorem hasMembers_of_contains {s : ByteSet} {members : Finset UInt8}
    (h : ∀ b, s.contains b = true ↔ b ∈ members) : s.HasMembers members := by
  have hlist : ∀ b, b ∈ s.toList ↔ b ∈ members := fun b ↦ (s.mem_toList b).trans (h b)
  refine ⟨h, hlist, s.pairwise_lt_toList, ?_, ?_, fun text ↦ ?_, s.ofList_toList⟩
  · have hmembers : s.toList.toFinset = members := by
      ext b
      rw [List.mem_toFinset, hlist]
    rw [size_eq_length, ← hmembers]
    exact (List.toFinset_card_of_nodup (s.pairwise_lt_toList.imp UInt8.ne_of_lt)).symm
  · rw [s.isEmpty_iff, Finset.eq_empty_iff_forall_notMem]
    simp only [← h, Bool.not_eq_true]
  · rw [containsAll, List.all_eq_true]
    simp only [h, Text.mem_utf8_toList]

/-- How a set of bytes is put together. -/
inductive Construction where
  /-- A new set. -/
  | empty
  /-- The set that is collected from a list. -/
  | collect (l : List UInt8)
  /-- A byte is inserted. -/
  | insert (c : Construction) (b : UInt8)
  /-- Another set is merged in. -/
  | unionWith (c d : Construction)

namespace Construction

/-- The set that comes of it. -/
def set : Construction → ByteSet
  | empty => .empty
  | collect l => .ofList l
  | insert c b => c.set.insert b
  | unionWith c d => c.set.union d.set

/-- The bytes that were put in. -/
def bytes : Construction → Finset UInt8
  | empty => ∅
  | collect l => l.toFinset
  | insert c b => Insert.insert b c.bytes
  | unionWith c d => c.bytes ∪ d.bytes

/-- The members are the bytes that were put in. -/
theorem contains_set (c : Construction) (b : UInt8) :
    c.set.contains b = true ↔ b ∈ c.bytes := by
  induction c with
  | empty => simp [set, bytes, contains_empty]
  | collect l => rw [set, bytes, contains_ofList, List.mem_toFinset]
  | insert c a ih =>
    rw [set, bytes, contains_insert, Bool.or_eq_true, decide_eq_true_eq, ih, Finset.mem_insert,
      eq_comm]
  | unionWith c d ihc ihd =>
    rw [set, bytes, contains_union, Bool.or_eq_true, ihc, ihd, Finset.mem_union]

/-- However a set of bytes is put together, it is the finite set of the bytes that were put in; and
what is made of a list is the list in order and without repetitions. -/
theorem hasMembers_set (c : Construction) :
    c.set.HasMembers c.bytes ∧ ∀ l, (ofList l).toList = l.dedup.mergeSort :=
  ⟨hasMembers_of_contains c.contains_set, toList_ofList⟩

end Construction

end ByteSet

end UrlPattern
