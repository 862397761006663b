/-!
# Finite tables in key order

A `Table` is a finite map whose entries are listed in ascending key order, one per key. Every
table that a pattern or a pre-filter shows to the outside (constraints, group names, literals) is
listed in that order, so the order is part of the type. Numbers are ordered by size and texts by
their scalar values, character by character.

The view is `get?`: `get?_insert` says what an insertion does to it, and `ext_get?` that a table
is determined by its look-ups.

Specification: `SPEC_FULL.md` §10.4 (lines 212–222).
-/

namespace UrlPattern

universe u v w

/-- A strict total order that decides where a key is listed. `SPEC_FULL.md:218`. -/
class KeyOrder (κ : Type u) where
  /-- Whether the first key is listed before the second. -/
  before : κ → κ → Bool
  before_irrefl : ∀ a, before a a = false
  before_trans : ∀ {a b c}, before a b = true → before b c = true → before a c = true
  before_total : ∀ a b, a = b ∨ before a b = true ∨ before b a = true

export KeyOrder (before)

namespace KeyOrder

instance : KeyOrder Nat where
  before a b := decide (a < b)
  before_irrefl a := by simp
  before_trans h h' := by simp only [decide_eq_true_eq] at *; omega
  before_total a b := by simp only [decide_eq_true_eq]; omega

/-- The order of character sequences: the first difference of scalar values decides, and a proper
beginning stands before what it begins. -/
def charsBefore : List Char → List Char → Bool
  | _, [] => false
  | [], _ :: _ => true
  | a :: s, b :: t => decide (a.toNat < b.toNat) || (decide (a = b) && charsBefore s t)

private theorem charsBefore_irrefl (s : List Char) : charsBefore s s = false := by
  induction s with
  | nil => rfl
  | cons a s ih => simp [charsBefore, ih]

private theorem charsBefore_trans {s t u : List Char} (h : charsBefore s t = true)
    (h' : charsBefore t u = true) : charsBefore s u = true := by
  induction s generalizing t u with
  | nil =>
    cases u with
    | nil => cases t <;> simp [charsBefore] at h'
    | cons c u => rfl
  | cons a s ih =>
    cases t with
    | nil => simp [charsBefore] at h
    | cons b t =>
      cases u with
      | nil => simp [charsBefore] at h'
      | cons c u =>
        simp only [charsBefore, Bool.or_eq_true, Bool.and_eq_true, decide_eq_true_eq] at h h' ⊢
        rcases h with h | ⟨rfl, h⟩
        · rcases h' with h' | ⟨rfl, _⟩
          · exact .inl (Nat.lt_trans h h')
          · exact .inl h
        · rcases h' with h' | ⟨rfl, h'⟩
          · exact .inl h'
          · exact .inr ⟨rfl, ih h h'⟩

private theorem charsBefore_total (s t : List Char) :
    s = t ∨ charsBefore s t = true ∨ charsBefore t s = true := by
  induction s generalizing t with
  | nil => cases t <;> simp [charsBefore]
  | cons a s ih =>
    cases t with
    | nil => simp [charsBefore]
    | cons b t =>
      simp only [charsBefore, Bool.or_eq_true, Bool.and_eq_true, decide_eq_true_eq, List.cons.injEq]
      rcases Nat.lt_trichotomy a.toNat b.toNat with h | h | h
      · exact .inr (.inl (.inl h))
      · obtain rfl := Char.toNat_inj.mp h
        rcases ih t with h | h | h <;> simp [h]
      · exact .inr (.inr (.inl h))

instance : KeyOrder Char where
  before a b := decide (a.toNat < b.toNat)
  before_irrefl a := by simp
  before_trans h h' := by simp only [decide_eq_true_eq] at *; omega
  before_total a b := by
    simp only [decide_eq_true_eq]
    rcases Nat.lt_trichotomy a.toNat b.toNat with h | h | h
    · exact .inr (.inl h)
    · exact .inl (Char.toNat_inj.mp h)
    · exact .inr (.inr h)

instance : KeyOrder String where
  before a b := charsBefore a.toList b.toList
  before_irrefl a := charsBefore_irrefl a.toList
  before_trans := charsBefore_trans
  before_total a b := (charsBefore_total a.toList b.toList).imp_left String.toList_inj.mp

variable {κ : Type u} [KeyOrder κ]

theorem ne_of_before {a b : κ} (h : before a b = true) : a ≠ b := by
  rintro rfl
  rw [before_irrefl] at h
  exact Bool.false_ne_true h

theorem not_before_of_before {a b : κ} (h : before a b = true) : before b a ≠ true :=
  fun h' ↦ ne_of_before (before_trans h h') rfl

theorem eq_of_not_before {a b : κ} (h : before a b ≠ true) (h' : before b a ≠ true) : a = b := by
  rcases before_total a b with rfl | hb | hb
  · rfl
  · exact absurd hb h
  · exact absurd hb h'

end KeyOrder

/-- A finite map, listed in strictly ascending key order. -/
structure Table (κ : Type u) (ν : Type v) [KeyOrder κ] where
  /-- The entries, ascending by key. -/
  toList : List (κ × ν)
  /-- No key is listed twice and the keys ascend. -/
  ascending : toList.Pairwise fun a b ↦ before a.1 b.1 = true

namespace Table

variable {κ : Type u} {ν : Type v} [KeyOrder κ]

/-- Two tables with the same listing are equal. -/
theorem toList_inj {s t : Table κ ν} : s.toList = t.toList ↔ s = t := by
  constructor
  · intro h
    cases s
    cases t
    simpa using h
  · exact congrArg toList

instance [DecidableEq κ] [DecidableEq ν] : DecidableEq (Table κ ν) := fun s t ↦
  decidable_of_iff (s.toList = t.toList) toList_inj

/-- The table without entries. -/
def empty : Table κ ν := ⟨[], .nil⟩

instance : Inhabited (Table κ ν) := ⟨empty⟩

instance : EmptyCollection (Table κ ν) := ⟨empty⟩

/-- Whether there is no entry at all. -/
def isEmpty (t : Table κ ν) : Bool := t.toList.isEmpty

/-- The keys, ascending. -/
def keys (t : Table κ ν) : List κ := t.toList.map (·.1)

/-- Replaces every value, keeping the keys. -/
def map {μ : Type w} (f : ν → μ) (t : Table κ ν) : Table κ μ where
  toList := t.toList.map fun e ↦ (e.1, f e.2)
  ascending := List.pairwise_map.mpr t.ascending

/-- Puts an entry at its place in an ascending listing, in the stead of an entry with the same key.
-/
def insertEntry (k : κ) (v : ν) : List (κ × ν) → List (κ × ν)
  | [] => [(k, v)]
  | e :: rest =>
    if before k e.1 then (k, v) :: e :: rest
    else if before e.1 k then e :: insertEntry k v rest
    else (k, v) :: rest

private theorem key_of_mem_insertEntry {k : κ} {v : ν} {e : κ × ν} {l : List (κ × ν)}
    (h : e ∈ insertEntry k v l) : e.1 = k ∨ e ∈ l := by
  induction l with
  | nil => simp [insertEntry] at h; simp [h]
  | cons d rest ih =>
    rw [insertEntry] at h
    split at h
    · rcases List.mem_cons.mp h with rfl | h
      · exact .inl rfl
      · exact .inr h
    · split at h
      · rcases List.mem_cons.mp h with rfl | h
        · exact .inr (List.mem_cons_self ..)
        · exact (ih h).imp id (List.mem_cons_of_mem _)
      · rcases List.mem_cons.mp h with rfl | h
        · exact .inl rfl
        · exact .inr (List.mem_cons_of_mem _ h)

private theorem ascending_insertEntry (k : κ) (v : ν) {l : List (κ × ν)}
    (h : l.Pairwise fun a b ↦ before a.1 b.1 = true) :
    (insertEntry k v l).Pairwise fun a b ↦ before a.1 b.1 = true := by
  induction l with
  | nil => simp [insertEntry]
  | cons d rest ih =>
    have hd := List.pairwise_cons.mp h
    rw [insertEntry]
    split
    · next hk =>
      refine List.pairwise_cons.mpr ⟨fun e he ↦ ?_, h⟩
      rcases List.mem_cons.mp he with rfl | he
      · exact hk
      · exact KeyOrder.before_trans hk (hd.1 e he)
    · next hk =>
      split
      · next hl =>
        refine List.pairwise_cons.mpr ⟨fun e he ↦ ?_, ih hd.2⟩
        rcases key_of_mem_insertEntry he with heq | he
        · exact heq ▸ hl
        · exact hd.1 e he
      · next hl =>
        have heq : d.1 = k := KeyOrder.eq_of_not_before hl hk
        exact List.pairwise_cons.mpr ⟨fun e he ↦ heq ▸ hd.1 e he, hd.2⟩

/-- Sets the value at a key. -/
def insert (t : Table κ ν) (k : κ) (v : ν) : Table κ ν where
  toList := insertEntry k v t.toList
  ascending := ascending_insertEntry k v t.ascending

/-- The table of a list of entries; of two entries with one key, the later counts. -/
def ofList (l : List (κ × ν)) : Table κ ν := l.foldl (fun t e ↦ t.insert e.1 e.2) empty

/-- An entry whose key comes behind all others is listed last. -/
theorem insertEntry_of_before {k : κ} {v : ν} {l : List (κ × ν)}
    (h : ∀ e ∈ l, before e.1 k = true) : insertEntry k v l = l ++ [(k, v)] := by
  induction l with
  | nil => rfl
  | cons d rest ih =>
    obtain ⟨hd, hrest⟩ := List.forall_mem_cons.mp h
    rw [insertEntry, if_neg (KeyOrder.not_before_of_before hd), if_pos hd, ih hrest]
    rfl

/-- Entries that ascend by key are listed as they are given. -/
theorem toList_ofList {l : List (κ × ν)} (h : l.Pairwise fun a b ↦ before a.1 b.1 = true) :
    (ofList l).toList = l := by
  have added : ∀ (l : List (κ × ν)) (t : Table κ ν),
      (t.toList ++ l).Pairwise (fun a b ↦ before a.1 b.1 = true) →
        (l.foldl (fun t e ↦ t.insert e.1 e.2) t).toList = t.toList ++ l := by
    intro l
    induction l with
    | nil => exact fun t _ ↦ (List.append_nil _).symm
    | cons e l ih =>
      intro t ht
      have hlast : (t.insert e.1 e.2).toList = t.toList ++ [e] :=
        insertEntry_of_before fun d hd ↦
          (List.pairwise_append.mp ht).2.2 d hd e List.mem_cons_self
      rw [List.foldl_cons, ih _ (by rw [hlast, List.append_assoc]; exact ht), hlast,
        List.append_assoc]
      rfl
  exact added l empty h

/-- A table is that of its own listing. -/
theorem ofList_toList (t : Table κ ν) : ofList t.toList = t :=
  toList_inj.mp (toList_ofList t.ascending)

/-- No key is listed twice. -/
theorem keys_nodup (t : Table κ ν) : t.keys.Nodup :=
  List.pairwise_map.mpr (t.ascending.imp KeyOrder.ne_of_before)

/-- No entry is listed twice. -/
theorem toList_nodup (t : Table κ ν) : t.toList.Nodup :=
  t.ascending.imp fun {a b} hab ↦ by
    rintro rfl
    exact KeyOrder.ne_of_before hab rfl

/-- A table is determined by its entries, in whichever order they are given. -/
theorem eq_of_perm {s t : Table κ ν} (h : s.toList.Perm t.toList) : s = t :=
  toList_inj.mp (List.Perm.eq_of_pairwise
    (fun _ _ _ _ hab hba ↦ absurd hba (KeyOrder.not_before_of_before hab))
    s.ascending t.ascending h)

section Lookup

variable [DecidableEq κ]

/-- The value of the first entry with the key. -/
def lookupEntry (k : κ) : List (κ × ν) → Option ν
  | [] => none
  | e :: rest => if k = e.1 then some e.2 else lookupEntry k rest

/-- The value at a key. -/
def get? (t : Table κ ν) (k : κ) : Option ν := lookupEntry k t.toList

/-- Whether the key has an entry. -/
def contains (t : Table κ ν) (k : κ) : Bool := (t.get? k).isSome

/-- Adds a value at a key; a value already there is combined with the new one. -/
def insertWith (f : ν → ν → ν) (t : Table κ ν) (k : κ) (v : ν) : Table κ ν :=
  match t.get? k with
  | some old => t.insert k (f old v)
  | none => t.insert k v

theorem get?_empty (k : κ) : (empty : Table κ ν).get? k = none := rfl

private theorem lookupEntry_insertEntry (k j : κ) (v : ν) (l : List (κ × ν)) :
    lookupEntry j (insertEntry k v l) = if j = k then some v else lookupEntry j l := by
  induction l with
  | nil => rfl
  | cons d rest ih =>
    rw [insertEntry]
    split
    · rw [lookupEntry]
    · next hk =>
      split
      · next hl =>
        simp only [lookupEntry, ih]
        by_cases hj : j = d.1
        · rw [if_pos hj, if_neg (hj ▸ KeyOrder.ne_of_before hl), if_pos hj]
        · rw [if_neg hj, if_neg hj]
      · next hl =>
        have heq : d.1 = k := KeyOrder.eq_of_not_before hl hk
        simp only [lookupEntry, heq]
        by_cases hj : j = k <;> simp [hj]

/-- An insertion changes the look-up at its key, and no other. -/
theorem get?_insert (t : Table κ ν) (k j : κ) (v : ν) :
    (t.insert k v).get? j = if j = k then some v else t.get? j :=
  lookupEntry_insertEntry k j v t.toList

/-- An insertion adds its key. -/
theorem contains_insert_iff {t : Table κ ν} {k j : κ} {v : ν} :
    (t.insert k v).contains j = true ↔ j = k ∨ t.contains j = true := by
  rw [contains, get?_insert, contains]
  by_cases hj : j = k <;> simp [hj]

omit [KeyOrder κ] in
/-- Of entries with different keys, a look-up finds each one and nothing else. -/
theorem lookupEntry_eq_some_iff {l : List (κ × ν)} (h : (l.map Prod.fst).Nodup) (k : κ) (v : ν) :
    lookupEntry k l = some v ↔ (k, v) ∈ l := by
  induction l with
  | nil => simp [lookupEntry]
  | cons d rest ih =>
    obtain ⟨hnew, hrest⟩ := List.nodup_cons.mp h
    rw [lookupEntry, List.mem_cons]
    by_cases hk : k = d.1
    · rw [if_pos hk]
      constructor
      · intro hv
        exact .inl (Prod.ext hk (Option.some.inj hv).symm)
      · rintro (rfl | hm)
        · rfl
        · exact absurd (List.mem_map.mpr ⟨_, hm, hk⟩) hnew
    · rw [if_neg hk, ih hrest]
      exact ⟨.inr, fun hm ↦ hm.resolve_left fun he ↦ hk (congrArg Prod.fst he)⟩

omit [KeyOrder κ] in
theorem isSome_lookupEntry_iff {l : List (κ × ν)} {k : κ} :
    (lookupEntry k l).isSome = true ↔ k ∈ l.map Prod.fst := by
  induction l with
  | nil => simp [lookupEntry]
  | cons d rest ih =>
    rw [lookupEntry, List.map_cons, List.mem_cons, ← ih]
    by_cases hk : k = d.1 <;> simp [hk]

omit [KeyOrder κ] in
/-- Entries that share one value are found by their keys. -/
theorem lookupEntry_map_pair (l : List κ) (v : ν) (k : κ) :
    lookupEntry k (l.map fun a ↦ (a, v)) = if k ∈ l then some v else none := by
  induction l with
  | nil => rfl
  | cons a l ih =>
    rw [List.map_cons, lookupEntry, ih]
    by_cases hk : k = a <;> simp [hk]

omit [KeyOrder κ] in
/-- Replacing each value by one that may depend on its key replaces what is looked up. -/
theorem lookupEntry_map {μ : Type w} (f : κ → ν → μ) (l : List (κ × ν)) (k : κ) :
    lookupEntry k (l.map fun e ↦ (e.1, f e.1 e.2)) = (lookupEntry k l).map (f k) := by
  induction l with
  | nil => rfl
  | cons e l ih =>
    rw [List.map_cons, lookupEntry, lookupEntry, ih]
    by_cases hk : k = e.1
    · rw [if_pos hk, if_pos hk, hk]
      rfl
    · rw [if_neg hk, if_neg hk]

omit [KeyOrder κ] in
/-- A look-up in two listings after one another prefers the first one. -/
theorem lookupEntry_append (l l' : List (κ × ν)) (k : κ) :
    lookupEntry k (l ++ l') = (lookupEntry k l).or (lookupEntry k l') := by
  induction l with
  | nil => rfl
  | cons d rest ih =>
    rw [List.cons_append, lookupEntry, lookupEntry, ih]
    split <;> rfl

omit [KeyOrder κ] in
/-- A look-up finds the first entry with the key. -/
theorem lookupEntry_eq_some_iff_append {l : List (κ × ν)} {k : κ} {v : ν} :
    lookupEntry k l = some v ↔
      ∃ front back, l = front ++ (k, v) :: back ∧ k ∉ front.map Prod.fst := by
  induction l with
  | nil => simp [lookupEntry]
  | cons e l ih =>
    rw [lookupEntry]
    by_cases hk : k = e.1
    · rw [if_pos hk]
      constructor
      · intro h
        cases h
        exact ⟨[], l, by rw [hk]; rfl, List.not_mem_nil⟩
      · rintro ⟨front, back, heq, hnew⟩
        cases front with
        | nil => rw [(List.cons.inj heq).1]
        | cons d front => exact absurd (by rw [hk, (List.cons.inj heq).1]; simp) hnew
    · rw [if_neg hk, ih]
      constructor
      · rintro ⟨front, back, rfl, hnew⟩
        exact ⟨e :: front, back, rfl, by simp [hk, hnew]⟩
      · rintro ⟨front, back, heq, hnew⟩
        cases front with
        | nil => exact absurd (by rw [(List.cons.inj heq).1]) hk
        | cons d front =>
          rw [List.map_cons, List.mem_cons, not_or] at hnew
          exact ⟨front, back, (List.cons.inj heq).2, hnew.2⟩

/-- A look-up finds exactly the listed entries. -/
theorem get?_eq_some_iff (t : Table κ ν) (k : κ) (v : ν) :
    t.get? k = some v ↔ (k, v) ∈ t.toList :=
  lookupEntry_eq_some_iff t.keys_nodup k v

/-- Replacing the values replaces what is looked up. -/
theorem get?_map {μ : Type w} (f : ν → μ) (t : Table κ ν) (k : κ) :
    (t.map f).get? k = (t.get? k).map f :=
  lookupEntry_map (fun _ ↦ f) t.toList k

/-- A key is listed exactly if its look-up succeeds. -/
theorem contains_iff_mem_keys (t : Table κ ν) (k : κ) : t.contains k = true ↔ k ∈ t.keys := by
  rw [contains, Option.isSome_iff_exists, keys, List.mem_map]
  constructor
  · rintro ⟨v, hv⟩
    exact ⟨(k, v), (get?_eq_some_iff ..).mp hv, rfl⟩
  · rintro ⟨e, he, rfl⟩
    exact ⟨e.2, (get?_eq_some_iff ..).mpr he⟩

/-- Of entries inserted one after the other, the last one with a key counts. -/
theorem get?_foldl_insert (l : List (κ × ν)) (t : Table κ ν) (k : κ) :
    (l.foldl (fun t e ↦ t.insert e.1 e.2) t).get? k = (lookupEntry k l.reverse).or (t.get? k) := by
  induction l generalizing t with
  | nil => rfl
  | cons e l ih =>
    rw [List.foldl_cons, ih, get?_insert, List.reverse_cons, lookupEntry_append, Option.or_assoc,
      lookupEntry, lookupEntry]
    split <;> rfl

/-- The entries of one table inserted into another hide those that are there. -/
theorem get?_foldl_insert_toList (s t : Table κ ν) (k : κ) :
    (s.toList.foldl (fun t e ↦ t.insert e.1 e.2) t).get? k = (s.get? k).or (t.get? k) := by
  have hreverse : lookupEntry k s.toList.reverse = s.get? k := by
    refine Option.ext fun v ↦ ?_
    have hnodup : (s.toList.reverse.map Prod.fst).Nodup := by
      rw [List.map_reverse]
      exact List.pairwise_reverse.mpr (s.keys_nodup.imp Ne.symm)
    rw [lookupEntry_eq_some_iff hnodup, List.mem_reverse, get?_eq_some_iff]
  rw [get?_foldl_insert, hreverse]

/-- A value that is added is combined with the one at its key. -/
theorem get?_insertWith (f : ν → ν → ν) (t : Table κ ν) (k j : κ) (v : ν) :
    (t.insertWith f k v).get? j
      = if j = k then (t.get? k).merge f (some v) else t.get? j := by
  unfold insertWith
  cases t.get? k <;> exact get?_insert ..

/-- The entries of one table added to another are combined with those that are there. -/
theorem get?_foldl_insertWith_toList (f : ν → ν → ν) (s t : Table κ ν) (k : κ) :
    (s.toList.foldl (fun t e ↦ t.insertWith f e.1 e.2) t).get? k
      = (t.get? k).merge f (s.get? k) := by
  have entries : ∀ (l : List (κ × ν)) (t : Table κ ν), (l.map Prod.fst).Nodup →
      (l.foldl (fun t e ↦ t.insertWith f e.1 e.2) t).get? k
        = (t.get? k).merge f (lookupEntry k l) := by
    intro l
    induction l with
    | nil => exact fun t _ ↦ (Option.merge_none_right).symm
    | cons e l ih =>
      intro t h
      obtain ⟨hnew, hrest⟩ := List.nodup_cons.mp h
      rw [List.foldl_cons, ih _ hrest, get?_insertWith, lookupEntry]
      by_cases hk : k = e.1
      · have hnone : lookupEntry k l = none := by
          rw [← Option.not_isSome_iff_eq_none, isSome_lookupEntry_iff, hk]
          exact hnew
        rw [if_pos hk, if_pos hk, hnone, Option.merge_none_right, hk]
      · rw [if_neg hk, if_neg hk]
  exact entries s.toList t s.keys_nodup

/-- The keys of the table of a list are those of its entries. -/
theorem mem_keys_ofList (l : List (κ × ν)) (k : κ) : k ∈ (ofList l).keys ↔ ∃ v, (k, v) ∈ l := by
  rw [← contains_iff_mem_keys, contains, ofList, get?_foldl_insert, get?_empty, Option.or_none,
    isSome_lookupEntry_iff, List.map_reverse, List.mem_reverse]
  simp

/-- Of entries with different keys, the table of a list finds each one and nothing else. -/
theorem get?_ofList_eq_some_iff {l : List (κ × ν)} (h : (l.map Prod.fst).Nodup) (k : κ) (v : ν) :
    (ofList l).get? k = some v ↔ (k, v) ∈ l := by
  have hnodup : (l.reverse.map Prod.fst).Nodup := by
    rw [List.map_reverse]
    exact List.pairwise_reverse.mpr (h.imp Ne.symm)
  rw [ofList, get?_foldl_insert, get?_empty, Option.or_none, lookupEntry_eq_some_iff hnodup,
    List.mem_reverse]

/-- The table of a list finds the last entry with the key. -/
theorem get?_ofList_eq_some_iff_append {l : List (κ × ν)} {k : κ} {v : ν} :
    (ofList l).get? k = some v ↔
      ∃ front back, l = front ++ (k, v) :: back ∧ k ∉ back.map Prod.fst := by
  rw [ofList, get?_foldl_insert, get?_empty, Option.or_none, lookupEntry_eq_some_iff_append]
  constructor
  · rintro ⟨front, back, heq, hnew⟩
    refine ⟨back.reverse, front.reverse, ?_, by rwa [List.map_reverse, List.mem_reverse]⟩
    rw [← List.reverse_reverse l, heq]
    simp
  · rintro ⟨front, back, rfl, hnew⟩
    refine ⟨back.reverse, front.reverse, by simp, ?_⟩
    rwa [List.map_reverse, List.mem_reverse]

/-- What the table of a list finds is an entry of the list. -/
theorem mem_of_get?_ofList {l : List (κ × ν)} {k : κ} {v : ν} (h : (ofList l).get? k = some v) :
    (k, v) ∈ l := by
  obtain ⟨front, back, rfl, -⟩ := get?_ofList_eq_some_iff_append.mp h
  exact List.mem_append_right front List.mem_cons_self

/-- Replacing the values of a list, each with regard to its key, replaces what its table finds. -/
theorem get?_ofList_map {μ : Type w} (f : κ → ν → μ) (l : List (κ × ν)) (k : κ) :
    (ofList (l.map fun e ↦ (e.1, f e.1 e.2))).get? k = ((ofList l).get? k).map (f k) := by
  rw [ofList, ofList, get?_foldl_insert, get?_foldl_insert, get?_empty, get?_empty, Option.or_none,
    Option.or_none, ← List.map_reverse, lookupEntry_map]

/-- A table is determined by its look-ups. -/
theorem ext_get? {s t : Table κ ν} (h : ∀ k, s.get? k = t.get? k) : s = t := by
  refine eq_of_perm ((List.perm_ext_iff_of_nodup s.toList_nodup t.toList_nodup).mpr fun e ↦ ?_)
  rw [← get?_eq_some_iff s e.1 e.2, ← get?_eq_some_iff t e.1 e.2, h]

/-- Setting the value that is there changes nothing. -/
theorem insert_of_get?_eq_some {t : Table κ ν} {k : κ} {v : ν} (h : t.get? k = some v) :
    t.insert k v = t := by
  refine ext_get? fun j ↦ ?_
  rw [get?_insert]
  split
  · next hj => rw [hj, h]
  · rfl

/-- A table without values is determined by its keys. -/
theorem ext_keys {s t : Table κ Unit} (h : ∀ k, k ∈ s.keys ↔ k ∈ t.keys) : s = t := by
  have found : ∀ {s t : Table κ Unit} {k : κ}, (k ∈ s.keys → k ∈ t.keys) →
      s.get? k = some () → t.get? k = some () := by
    intro s t k h hs
    rw [← contains_iff_mem_keys, ← contains_iff_mem_keys, contains, contains, hs] at h
    obtain ⟨v, hv⟩ := Option.isSome_iff_exists.mp (h rfl)
    exact hv
  exact ext_get? fun k ↦ Option.ext fun _ ↦ ⟨found (h k).mp, found (h k).mpr⟩

/-- A new key adds its entry to those there. -/
theorem perm_insert {t : Table κ ν} {k : κ} (hk : t.contains k = false) (v : ν) :
    (t.insert k v).toList.Perm ((k, v) :: t.toList) := by
  have hnone : t.get? k = none := by simpa [contains] using hk
  have hnew : (k, v) ∉ t.toList := fun hmem ↦ by
    rw [← get?_eq_some_iff, hnone] at hmem
    cases hmem
  refine (List.perm_ext_iff_of_nodup (toList_nodup _)
    (List.nodup_cons.mpr ⟨hnew, t.toList_nodup⟩)).mpr fun e ↦ ?_
  rw [← get?_eq_some_iff _ e.1 e.2, get?_insert, List.mem_cons, ← get?_eq_some_iff t e.1 e.2]
  by_cases he : e.1 = k
  · rw [if_pos he, he, hnone, ← Prod.eta e, he]
    simp [eq_comm]
  · rw [if_neg he]
    exact ⟨.inr, fun h ↦ h.resolve_left fun heq ↦ he (congrArg Prod.fst heq)⟩

end Lookup

end Table

end UrlPattern
