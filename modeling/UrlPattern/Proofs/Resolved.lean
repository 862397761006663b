import UrlPattern.Tree
import UrlPattern.ValueType.Registry

/-!
# Constraints that were read

What is known of the constraints of a group because they were read from written ones: each is one
that its kind allows, the type agrees to them together, and a fallback is a text of the type.

Specification: `SPEC_FULL.md` §10.4 (lines 212–222).
-/

namespace UrlPattern

/-- A step and what follows it give a result exactly if both do. -/
theorem bind_eq_ok {ε α β : Type} {x : Except ε α} {f : α → Except ε β} {b : β} :
    (x >>= f) = .ok b ↔ ∃ a, x = .ok a ∧ f a = .ok b := by
  cases x with
  | error e => exact ⟨nofun, nofun⟩
  | ok a => exact ⟨fun h ↦ ⟨a, rfl, h⟩, fun ⟨_, ha, h⟩ ↦ Except.ok.inj ha ▸ h⟩

/-- What reading a list item by item gives comes from its items. -/
theorem mem_of_mapM_eq_ok {ε α β : Type} {f : α → Except ε β} {as : List α} {bs : List β}
    (h : as.mapM f = .ok bs) {b : β} (hb : b ∈ bs) : ∃ a ∈ as, f a = .ok b := by
  induction as generalizing bs with
  | nil =>
    obtain rfl := Except.ok.inj h
    exact absurd hb List.not_mem_nil
  | cons a as ih =>
    rw [List.mapM_cons] at h
    obtain ⟨b', hb', h⟩ := bind_eq_ok.mp h
    obtain ⟨bs', hbs', h⟩ := bind_eq_ok.mp h
    obtain rfl := Except.ok.inj h
    rcases List.mem_cons.mp hb with rfl | hb
    · exact ⟨a, List.mem_cons_self, hb'⟩
    · obtain ⟨a', ha', h⟩ := ih hbs' hb
      exact ⟨a', List.mem_cons_of_mem _ ha', h⟩

/-- Reading a list item by item reads every item. -/
theorem exists_of_mapM_eq_ok {ε α β : Type} {f : α → Except ε β} {as : List α} {bs : List β}
    (h : as.mapM f = .ok bs) {a : α} (ha : a ∈ as) : ∃ b, f a = .ok b := by
  induction as generalizing bs with
  | nil => exact absurd ha List.not_mem_nil
  | cons a' as ih =>
    rw [List.mapM_cons] at h
    obtain ⟨b', hb', h⟩ := bind_eq_ok.mp h
    obtain ⟨bs', hbs', h⟩ := bind_eq_ok.mp h
    rcases List.mem_cons.mp ha with rfl | ha
    · exact ⟨b', hb'⟩
    · exact ih hbs' ha

namespace ValueType

theorem mem_fallbackLast {cs : List Constraint} {c : Constraint} :
    c ∈ fallbackLast cs ↔ c ∈ cs := by
  rw [fallbackLast, List.mem_append, List.mem_filter, List.mem_filter, ← and_or_left]
  by_cases hkind : c.kind = .fallback <;> simp [hkind]

/-- What resolving comes to: every constraint is read from a written one, the type agrees to all of
them together, and a fallback denotes a value. -/
theorem resolve_eq_ok {t : ValueType} {raw : RawConstraints} {cs : List Constraint}
    (h : t.resolve raw = .ok cs) :
    (∀ c ∈ cs, ∃ e ∈ raw.toList, t.resolveEntry e.1 e.2 = .ok c) ∧
      t.checkConstraints cs = .ok () ∧
      (∀ text, cs.getLast? = some (.fallback text) → (t.convert? text).isSome) ∧
      ∃ read, cs = fallbackLast read := by
  obtain ⟨read, hread, h⟩ := bind_eq_ok.mp h
  obtain ⟨⟨⟩, hcheck, h⟩ := bind_eq_ok.mp h
  have hmem : ∀ c ∈ fallbackLast read, ∃ e ∈ raw.toList, t.resolveEntry e.1 e.2 = .ok c :=
    fun c hc ↦ mem_of_mapM_eq_ok hread (mem_fallbackLast.mp hc)
  split at h
  · next text hlast =>
    split at h
    · next hsome =>
      obtain rfl := Except.ok.inj h
      refine ⟨hmem, hcheck, fun text' hlast' ↦ ?_, read, rfl⟩
      rw [hlast] at hlast'
      cases hlast'
      exact hsome
    · cases h
  · next hlast =>
    obtain rfl := Except.ok.inj h
    exact ⟨hmem, hcheck, fun text hlast' ↦ absurd hlast' (hlast text), read, rfl⟩

end ValueType

namespace Constraint

/-- A constraint is read as one of its kind. -/
theorem kind_of_ofRaw {kind : ConstraintKind} {raw : String} {c : Constraint}
    (h : ofRaw kind raw = .ok c) : c.kind = kind := by
  rw [ofRaw.eq_def] at h
  simp only at h
  split at h
  · cases h
  · cases kind with
    | min => cases hread : Text.readInteger raw.toList <;> rw [hread] at h <;> cases h; rfl
    | max => cases hread : Text.readInteger raw.toList <;> rw [hread] at h <;> cases h; rfl
    | minLen => cases hread : Text.readLength raw.toList <;> rw [hread] at h <;> cases h; rfl
    | maxLen => simp only at h; split at h <;> cases h; rfl
    | fallback | startsWith | endsWith | contains => cases h; rfl

/-- No greatest length is zero. -/
theorem one_le_of_ofRaw {kind : ConstraintKind} {raw : String} {n : Nat}
    (h : ofRaw kind raw = .ok (.maxLen n)) : 1 ≤ n := by
  obtain rfl : .maxLen = kind := kind_of_ofRaw h
  rw [ofRaw.eq_def] at h
  simp only at h
  split at h
  · cases h
  · split at h
    · cases h
    · cases h
    · next m hne _ =>
      obtain rfl := Constraint.maxLen.inj (Except.ok.inj h)
      exact Nat.one_le_iff_ne_zero.mpr hne

/-- A parameter that a search finds is that of a constraint in the list. -/
private theorem mem_of_findSome? {α : Type} {param? : Constraint → Option α} {make : α → Constraint}
    (hmake : ∀ c a, param? c = some a → c = make a) {cs : List Constraint} {a : α}
    (h : cs.findSome? param? = some a) : make a ∈ cs := by
  obtain ⟨c, hc, hsome⟩ := List.exists_of_findSome?_eq_some h
  rwa [← hmake c a hsome]

theorem mem_of_min? {cs : List Constraint} {n : Int64} (h : min? cs = some n) : .min n ∈ cs :=
  mem_of_findSome? (fun c _ hc ↦ by cases c <;> cases hc; rfl) h

theorem mem_of_max? {cs : List Constraint} {n : Int64} (h : max? cs = some n) : .max n ∈ cs :=
  mem_of_findSome? (fun c _ hc ↦ by cases c <;> cases hc; rfl) h

theorem mem_of_minLen? {cs : List Constraint} {n : Nat} (h : minLen? cs = some n) :
    .minLen n ∈ cs :=
  mem_of_findSome? (fun c _ hc ↦ by cases c <;> cases hc; rfl) h

theorem mem_of_maxLen? {cs : List Constraint} {n : Nat} (h : maxLen? cs = some n) :
    .maxLen n ∈ cs :=
  mem_of_findSome? (fun c _ hc ↦ by cases c <;> cases hc; rfl) h

theorem mem_of_fallback? {cs : List Constraint} {text : String} (h : fallback? cs = some text) :
    .fallback text ∈ cs :=
  mem_of_findSome? (fun c _ hc ↦ by cases c <;> cases hc; rfl) h

end Constraint

namespace ValueType

variable {t : ValueType} {raw : RawConstraints} {cs : List Constraint} {c c' : Constraint}

/-- An entry is read as the constraint of its key. -/
theorem resolveEntry_eq_ok {key text : String} (h : t.resolveEntry key text = .ok c) :
    key = c.kind.name ∧ c.kind ∈ t.supported ∧ Constraint.ofRaw c.kind text = .ok c := by
  rw [resolveEntry] at h
  split at h
  · next kind hkind =>
    obtain ⟨hname, hsupported⟩ := Option.filter_eq_some_iff.mp hkind
    obtain rfl := Constraint.kind_of_ofRaw h
    exact ⟨(ConstraintKind.name_of_ofName? hname).symm, List.contains_iff_mem.mp hsupported, h⟩
  · cases h

/-- A constraint is of a kind that the type supports, and is read from what is written for its
kind. -/
theorem written_of_mem (h : t.resolve raw = .ok cs) (hc : c ∈ cs) :
    c.kind ∈ t.supported ∧
      ∃ text, raw.get? c.kind.name = some text ∧ Constraint.ofRaw c.kind text = .ok c := by
  obtain ⟨⟨key, text⟩, he, hentry⟩ := (resolve_eq_ok h).1 c hc
  obtain ⟨rfl, hsupported, hread⟩ := resolveEntry_eq_ok hentry
  exact ⟨hsupported, text, (Table.get?_eq_some_iff _ _ _).mpr he, hread⟩

/-- There is one constraint of a kind at most, since a key is written once at most. -/
theorem eq_of_kind_eq (h : t.resolve raw = .ok cs) (hc : c ∈ cs) (hc' : c' ∈ cs)
    (hkind : c.kind = c'.kind) : c = c' := by
  obtain ⟨-, text, htext, hread⟩ := written_of_mem h hc
  obtain ⟨-, text', htext', hread'⟩ := written_of_mem h hc'
  rw [hkind, htext', Option.some.injEq] at htext
  rw [hkind, ← htext, hread'] at hread
  exact (Except.ok.inj hread).symm

/-- The fallback of a group stands behind the constraints of other kinds and denotes a value. -/
theorem exists_fallback (h : t.resolve raw = .ok cs) {text : String} (hmem : .fallback text ∈ cs) :
    (t.convert? text).isSome ∧ ∃ front back, cs = front ++ .fallback text :: back ∧
      (∀ c ∈ front, c.kind ≠ .fallback) ∧ ∀ c ∈ back, c.kind = .fallback := by
  obtain ⟨-, -, hlast, read, rfl⟩ := resolve_eq_ok h
  have hkind : ∀ c ∈ fallbackLast read, c.kind = .fallback → c = .fallback text :=
    fun c hc hkind ↦ eq_of_kind_eq h hc hmem hkind
  rw [fallbackLast] at hlast hkind ⊢
  generalize hback : read.filter (fun c ↦ c.kind = .fallback) = back at hlast hkind ⊢
  have hbehind : ∀ c ∈ back, c.kind = .fallback := by
    intro c hc
    rw [← hback, List.mem_filter] at hc
    exact of_decide_eq_true hc.2
  cases back with
  | nil =>
    have hnone := List.filter_eq_nil_iff.mp hback _ (mem_fallbackLast.mp hmem)
    exact absurd rfl (of_decide_eq_false (Bool.eq_false_iff.mpr hnone))
  | cons c back =>
    have hc : ∀ c' ∈ c :: back, c' = .fallback text := fun c' hc' ↦
      hkind c' (List.mem_append_right _ hc') (hbehind c' hc')
    obtain rfl := hc c List.mem_cons_self
    refine ⟨hlast text ?_, _, back, rfl, fun c hc ↦ ?_, (List.forall_mem_cons.mp hbehind).2⟩
    · rw [List.getLast?_append,
        List.getLast?_eq_some_getLast (List.cons_ne_nil _ _), hc _ (List.getLast_mem _),
        Option.some_or]
    · exact of_decide_eq_true (List.mem_filter.mp hc).2

end ValueType

namespace Group

/-- A word that meets its least length may meet its greatest one, too. -/
theorem word_bounds {g : Group} (hg : g.type = .word) {greatest : Nat}
    (h : Constraint.maxLen? g.constraints = some greatest) :
    Nat.max 1 ((Constraint.minLen? g.constraints).getD 1) ≤ greatest := by
  obtain ⟨-, hcheck, -⟩ := ValueType.resolve_eq_ok g.resolved
  have hpos : 1 ≤ greatest := by
    obtain ⟨-, text, -, hread⟩ :=
      ValueType.written_of_mem g.resolved (Constraint.mem_of_maxLen? h)
    exact Constraint.one_le_of_ofRaw hread
  refine Nat.max_le.mpr ⟨hpos, ?_⟩
  rw [hg] at hcheck
  cases hmin : Constraint.minLen? g.constraints with
  | none => exact hpos
  | some least =>
    simp only [ValueType.word, hmin, h] at hcheck
    split at hcheck
    · cases hcheck
    · next hle => exact Nat.le_of_not_lt hle

end Group

end UrlPattern
