import UrlPattern.Pattern
import UrlPattern.Proofs.EnteredGroups
import UrlPattern.Proofs.GroupTexts
import UrlPattern.Proofs.Resolved

/-!
# The values of a match

What a match result says of each group. Constraints never change a value, so a value that a group is
given is the one that its text denotes, and all constraints of the group admit it. Such a value is
written as a text that the group spells: writing drops leading zeros and the sign of zero, and a
number within bounds has no more digits than they have.

The groups of a pattern have different names, so no group overwrites what another was given
(`MatchResult.get?_addGroups`).

Specification: `SPEC_FULL.md` §4.5 (lines 60–61).
-/

namespace UrlPattern

/-! ### Values under constraints -/

/-- A fallback admits every value. -/
theorem Constraint.holds_of_kind {c : Constraint} (h : c.kind = .fallback) (v : Value) :
    c.holds v = true := by
  cases c with
  | fallback raw => rfl
  | min n | max n | minLen n | maxLen n | startsWith part | endsWith part | contains part => cases h

namespace ValueType

variable {t : ValueType} {cs : List Constraint} {v : Value}

/-- Constraints let a value pass unchanged if all of them admit it. -/
theorem foldlM_apply_eq_ok {convert : String → Except ValueError Value} {o : Option Value} :
    cs.foldlM (fun v c ↦ c.apply convert v) (some v) = .ok o ↔
      o = some v ∧ ∀ c ∈ cs, c.holds v = true := by
  induction cs with
  | nil =>
    rw [List.foldlM_nil]
    exact ⟨fun h ↦ ⟨(Except.ok.inj h).symm, nofun⟩, fun h ↦ by rw [h.1]; rfl⟩
  | cons c cs ih =>
    rw [List.foldlM_cons, List.forall_mem_cons, Constraint.apply]
    split
    · next hc =>
      have hnext : (Except.ok (some v) >>= fun v ↦ cs.foldlM (fun v c ↦ c.apply convert v) v)
          = cs.foldlM (fun v c ↦ c.apply convert v) (some v) := rfl
      rw [hnext, ih]
      exact ⟨fun h ↦ ⟨h.1, hc, h.2⟩, fun h ↦ ⟨h.1, h.2.2⟩⟩
    · next hc => exact ⟨nofun, fun h ↦ absurd h.2.1 hc⟩

/-- The value of a captured text is the one that the text denotes, if every constraint admits it. -/
theorem parseValue_some_eq_ok (huse : t.UsesConvert) {raw : String} :
    t.parseValue (some raw) cs = .ok v ↔
      t.convert? raw = some v ∧ ∀ c ∈ cs, c.holds v = true := by
  rw [huse, convert?_eq_some_iff]
  constructor
  · intro h
    obtain ⟨start, hstart, h⟩ := bind_eq_ok.mp h
    obtain ⟨o, ho, h⟩ := bind_eq_ok.mp h
    cases hconv : t.convert raw with
    | error e =>
      rw [hconv] at hstart
      cases hstart
    | ok w =>
      rw [hconv] at hstart
      cases hstart
      obtain ⟨rfl, hall⟩ := foldlM_apply_eq_ok.mp ho
      cases h
      exact ⟨rfl, hall⟩
  · rintro ⟨hconv, hall⟩
    have hstart : (t.convert raw).map some = .ok (some v) := by
      rw [hconv]
      rfl
    exact bind_eq_ok.mpr
      ⟨some v, hstart, bind_eq_ok.mpr ⟨some v, foldlM_apply_eq_ok.mpr ⟨rfl, hall⟩, rfl⟩⟩

/-- Only a fallback supplies a value. -/
theorem foldlM_apply_none_of_kind {convert : String → Except ValueError Value}
    (h : ∀ c ∈ cs, c.kind ≠ .fallback) :
    cs.foldlM (fun v c ↦ c.apply convert v) none = .ok none := by
  induction cs with
  | nil => rfl
  | cons c cs ih =>
    obtain ⟨hc, hcs⟩ := List.forall_mem_cons.mp h
    cases c with
    | fallback raw => exact absurd rfl hc
    | min n | max n | minLen n | maxLen n | startsWith part | endsWith part | contains part =>
      exact bind_eq_ok.mpr ⟨none, rfl, ih hcs⟩

end ValueType

namespace Group

/-- The fallback of a group denotes the value that the group has without a captured text. -/
theorem exists_parseValue_none {g : Group} (huse : g.type.UsesConvert) {raw : String}
    (h : g.fallback? = some raw) :
    ∃ v, g.type.convert? raw = some v ∧ g.type.parseValue none g.constraints = .ok v := by
  obtain ⟨hsome, front, back, hcs, hfront, hback⟩ :=
    ValueType.exists_fallback g.resolved (Constraint.mem_of_fallback? h)
  obtain ⟨v, hv⟩ := Option.isSome_iff_exists.mp hsome
  have hsupply : (Constraint.fallback raw).apply g.type.convert none = .ok (some v) := by
    rw [Constraint.apply, ValueType.convert?_eq_some_iff.mp hv]
    rfl
  have hkeep : back.foldlM (fun v c ↦ c.apply g.type.convert v) (some v) = .ok (some v) :=
    ValueType.foldlM_apply_eq_ok.mpr ⟨rfl, fun c hc ↦ Constraint.holds_of_kind (hback c hc) v⟩
  have hall : g.constraints.foldlM (fun v c ↦ c.apply g.type.convert v) none = .ok (some v) := by
    rw [hcs, List.foldlM_append]
    refine bind_eq_ok.mpr ⟨none, ValueType.foldlM_apply_none_of_kind hfront, ?_⟩
    rw [List.foldlM_cons]
    exact bind_eq_ok.mpr ⟨some v, hsupply, hkeep⟩
  refine ⟨v, hv, ?_⟩
  rw [huse]
  exact bind_eq_ok.mpr ⟨none, rfl, bind_eq_ok.mpr ⟨some v, hall, rfl⟩⟩

end Group

/-! ### Values written as texts -/

namespace ValueType

theorem length_natDigits_mono {a b : Nat} (h : a ≤ b) :
    (Text.natDigits a).length ≤ (Text.natDigits b).length := by
  have hpos : 0 < (Text.natDigits b).length := Nat.length_toDigits_pos
  rw [Text.natDigits, Nat.length_toDigits_le_iff (by omega) hpos]
  exact Nat.lt_of_le_of_lt h ((Nat.length_toDigits_le_iff (by omega) hpos).mp (Nat.le_refl _))

theorem isDigits_natDigits {width : Option Nat} {n : Nat}
    (h : ∀ w, width = some w → (Text.natDigits n).length ≤ w) :
    IsDigits width (Text.natDigits n) :=
  ⟨Nat.toDigits_ne_nil, fun _ ↦ Text.isDigit_of_mem_natDigits, h⟩

/-- An integer within bounds is written as an integer within these bounds. -/
theorem isIntegerText_renderInteger {least greatest : Option Int64} {n : Int64}
    (hleast : ∀ m, least = some m → m.toInt ≤ n.toInt)
    (hgreatest : ∀ m, greatest = some m → n.toInt ≤ m.toInt) :
    IsIntegerText least greatest (Text.renderInteger n).toList := by
  rw [Text.renderInteger]
  split
  · next hneg =>
    rw [String.toList_ofList]
    refine .inr ⟨_, rfl, fun m hm ↦ ?_, isDigits_natDigits fun w hw ↦ ?_⟩
    · have := hleast m hm
      omega
    · obtain ⟨m, hm, rfl⟩ := Option.map_eq_some_iff.mp hw
      have := hleast m hm
      exact length_natDigits_mono (by omega)
  · next hnonneg =>
    rw [Text.renderNat, String.toList_ofList]
    refine .inl (isDigits_natDigits fun w hw ↦ ?_)
    obtain ⟨m, hm, rfl⟩ := Option.map_eq_some_iff.mp hw
    have := hgreatest m hm
    exact length_natDigits_mono (by omega)

/-- A word within bounds on its length. -/
theorem isWordText_of_bounds {least greatest : Option Nat} {s : String} (hne : s ≠ "")
    (hchars : s.toList.all isWordChar = true) (hleast : ∀ n, least = some n → n ≤ s.length)
    (hgreatest : ∀ n, greatest = some n → s.length ≤ n) : IsWordText least greatest s.toList := by
  have hpos : 1 ≤ s.length := by
    rw [Nat.one_le_iff_ne_zero, ne_eq, String.length_eq_zero_iff]
    exact hne
  rw [IsWordText, String.length_toList]
  refine ⟨List.all_eq_true.mp hchars, Nat.max_le.mpr ⟨hpos, ?_⟩, hgreatest⟩
  cases least with
  | none => exact hpos
  | some n => exact hleast n rfl

end ValueType

namespace Group

variable {g : Group}

/-- A value that a text denotes and all constraints of the group admit is written as a text of the
group. -/
theorem spells_format (hg : g.IsBuiltin) {raw : String} {v : Value}
    (hconv : g.type.convert? raw = some v) (hholds : ∀ c ∈ g.constraints, c.holds v = true) :
    g.Spells (g.type.format v).toList := by
  rcases hg with hint | hword
  · rw [hint] at hconv
    obtain ⟨n, rfl⟩ := ValueType.exists_int_of_convert? hconv
    refine .inl ⟨hint, ?_⟩
    rw [hint]
    refine ValueType.isIntegerText_renderInteger (fun m hm ↦ ?_) fun m hm ↦ ?_
    · exact of_decide_eq_true (hholds _ (Constraint.mem_of_min? hm))
    · exact of_decide_eq_true (hholds _ (Constraint.mem_of_max? hm))
  · rw [hword] at hconv
    obtain ⟨⟨hne, hchars⟩, rfl⟩ := ValueType.convert?_word_eq_some_iff.mp hconv
    refine .inr ⟨hword, ?_⟩
    rw [hword]
    refine ValueType.isWordText_of_bounds hne hchars (fun n hn ↦ ?_) fun n hn ↦ ?_
    · exact of_decide_eq_true (hholds _ (Constraint.mem_of_minLen? hn))
    · exact of_decide_eq_true (hholds _ (Constraint.mem_of_maxLen? hn))

end Group

/-! ### Values of groups -/

namespace Group

variable {g : Group} {captured : String → Option String}

/-- What matching makes of a group: a value, a refusal, or nothing at all. -/
def outcome? (captured : String → Option String) (g : Group) : Option (Except ValueError Value) :=
  let raw := (captured g.captureName).filter (· ≠ "")
  if raw.isNone && g.fallback?.isNone then none
  else some (g.type.parseValue raw g.constraints)

/-- The entry of a group in a match result. -/
def result? (captured : String → Option String) (g : Group) : Option GroupValue :=
  match g.outcome? captured with
  | some (.ok value) => some ⟨value, g.type.name, g.raw⟩
  | _ => none

/-- The error of a group in a match result. -/
def refusal? (captured : String → Option String) (g : Group) : Option MatchError :=
  match g.outcome? captured with
  | some (.error error) => some ⟨g.name, error⟩
  | _ => none

theorem outcome?_of_captured {t : String} (h : captured g.captureName = some t) (ht : t ≠ "") :
    g.outcome? captured = some (g.type.parseValue (some t) g.constraints) := by
  have hraw : (captured g.captureName).filter (· ≠ "") = some t := by
    rw [h, Option.filter_some, if_pos (decide_eq_true ht)]
  rw [outcome?, hraw]
  rfl

theorem outcome?_of_uncaptured (h : captured g.captureName = none) :
    g.outcome? captured
      = if g.fallback?.isNone then none else some (g.type.parseValue none g.constraints) := by
  rw [outcome?, h]
  rfl

/-- Matching makes nothing of a group exactly if it captured nothing and has no fallback. -/
theorem outcome?_eq_none_iff (h : captured g.captureName ≠ some "") :
    g.outcome? captured = none ↔ captured g.captureName = none ∧ g.fallback? = none := by
  cases hcap : captured g.captureName with
  | none =>
    rw [outcome?_of_uncaptured hcap]
    cases g.fallback? <;> simp
  | some t =>
    have ht : t ≠ "" := fun heq ↦ h (heq ▸ hcap)
    rw [outcome?_of_captured hcap ht]
    exact iff_of_false (Option.some_ne_none _) fun hnone ↦ Option.some_ne_none _ hnone.1

/-- A group that captured nothing is not refused, and has the value that its fallback denotes. -/
theorem accepted_of_uncaptured (huse : g.type.UsesConvert) (h : captured g.captureName = none) :
    g.refusal? captured = none ∧
      (g.result? captured).map (·.value) = g.fallback?.bind g.type.convert? := by
  rw [refusal?, result?, outcome?_of_uncaptured h]
  cases hfallback : g.fallback? with
  | none => exact ⟨rfl, rfl⟩
  | some raw =>
    obtain ⟨v, hconv, hparse⟩ := exists_parseValue_none huse hfallback
    rw [hparse, Option.bind_some, hconv]
    exact ⟨rfl, rfl⟩

/-- A group whose captured text has a value is not refused. -/
theorem accepted_of_captured {t : String} {v : Value} (h : captured g.captureName = some t)
    (ht : t ≠ "") (hparse : g.type.parseValue (some t) g.constraints = .ok v) :
    g.refusal? captured = none ∧ (g.result? captured).map (·.value) = some v := by
  rw [refusal?, result?, outcome?_of_captured h ht, hparse]
  exact ⟨rfl, rfl⟩

/-- A captured text that is not refused gives the value that it denotes. -/
theorem result?_of_captured (huse : g.type.UsesConvert) {t : String}
    (h : captured g.captureName = some t) (ht : t ≠ "") (haccept : g.refusal? captured = none) :
    ∃ v, g.result? captured = some ⟨v, g.type.name, g.raw⟩ ∧ g.type.convert? t = some v ∧
      ∀ c ∈ g.constraints, c.holds v = true := by
  rw [refusal?, outcome?_of_captured h ht] at haccept
  rw [result?, outcome?_of_captured h ht]
  cases hparse : g.type.parseValue (some t) g.constraints with
  | ok v => exact ⟨v, rfl, (ValueType.parseValue_some_eq_ok huse).mp hparse⟩
  | error e =>
    rw [hparse] at haccept
    cases haccept

/-- A group that captured nothing has the value of its fallback. -/
theorem result?_of_uncaptured (huse : g.type.UsesConvert) (h : captured g.captureName = none)
    {e : GroupValue} (he : g.result? captured = some e) :
    ∃ raw, g.fallback? = some raw ∧ g.type.convert? raw = some e.value := by
  have hvalue := (accepted_of_uncaptured huse h).2
  rw [he, Option.map_some] at hvalue
  exact Option.bind_eq_some_iff.mp hvalue.symm

/-- A group that has neither a value nor a refusal captured nothing and has no fallback. -/
theorem fallback?_eq_none (h : captured g.captureName ≠ some "") (he : g.result? captured = none)
    (haccept : g.refusal? captured = none) :
    captured g.captureName = none ∧ g.fallback? = none := by
  rw [← outcome?_eq_none_iff h]
  rw [result?] at he
  rw [refusal?] at haccept
  cases houtcome : g.outcome? captured with
  | none => rfl
  | some outcome =>
    rw [houtcome] at he haccept
    cases outcome with
    | ok v => cases he
    | error e => cases haccept

end Group

namespace MatchResult

variable {captured : String → Option String} {gs : List Group} {r : MatchResult}

/-- What adding a group changes. -/
theorem addGroup_eq (captured : String → Option String) (r : MatchResult) (g : Group) :
    r.addGroup captured g
      = ⟨r.input, (g.result? captured).elim r.groups (r.groups.insert g.name),
          r.errors ++ (g.refusal? captured).toList⟩ := by
  have hkeep : ∀ groups, (⟨r.input, groups, r.errors⟩ : MatchResult)
      = ⟨r.input, groups, r.errors ++ []⟩ := fun groups ↦ by rw [List.append_nil]
  rw [addGroup, Group.result?, Group.refusal?, Group.outcome?]
  split
  · exact hkeep r.groups
  · split
    · next value hparse =>
      rw [hparse]
      exact hkeep _
    · next error hparse =>
      rw [hparse]
      rfl

/-- Adding groups keeps the input. -/
theorem input_addGroups : (gs.foldl (addGroup captured) r).input = r.input := by
  induction gs generalizing r with
  | nil => rfl
  | cons g gs ih => rw [List.foldl_cons, ih, addGroup_eq]

/-- The errors are the refusals of the groups in their order. -/
theorem errors_addGroups :
    (gs.foldl (addGroup captured) r).errors
      = r.errors ++ gs.filterMap (Group.refusal? captured) := by
  induction gs generalizing r with
  | nil => exact (List.append_nil _).symm
  | cons g gs ih =>
    rw [List.foldl_cons, ih, addGroup_eq, List.append_assoc, List.filterMap_cons]
    cases g.refusal? captured <;> rfl

/-- Adding groups leaves alone what is known under other names. -/
theorem get?_addGroups_of_notMem {name : String} (h : name ∉ gs.map Group.name) :
    (gs.foldl (addGroup captured) r).groups.get? name = r.groups.get? name := by
  induction gs generalizing r with
  | nil => rfl
  | cons g gs ih =>
    rw [List.map_cons, List.mem_cons, not_or] at h
    rw [List.foldl_cons, ih h.2, addGroup_eq]
    cases g.result? captured with
    | none => rfl
    | some e => exact (Table.get?_insert _ _ _ _).trans (if_neg h.1)

/-- Of groups with different names each one gets its own entry. -/
theorem get?_addGroups (hnodup : (gs.map Group.name).Nodup) {g : Group} (hg : g ∈ gs) :
    (gs.foldl (addGroup captured) r).groups.get? g.name
      = (g.result? captured).or (r.groups.get? g.name) := by
  induction gs generalizing r with
  | nil => exact absurd hg List.not_mem_nil
  | cons g' gs ih =>
    rw [List.map_cons, List.nodup_cons] at hnodup
    rw [List.foldl_cons]
    rcases List.mem_cons.mp hg with rfl | hg
    · rw [get?_addGroups_of_notMem hnodup.1, addGroup_eq]
      cases g.result? captured with
      | none => rfl
      | some e => exact (Table.get?_insert _ _ _ _).trans (if_pos rfl)
    · have hne : g.name ≠ g'.name := fun heq ↦ hnodup.1 (heq ▸ List.mem_map_of_mem hg)
      rw [ih hnodup.2 hg, addGroup_eq]
      cases g'.result? captured with
      | none => rfl
      | some e => exact congrArg _ ((Table.get?_insert _ _ _ _).trans (if_neg hne))

end MatchResult

namespace Pattern

variable {p : Pattern} {s : String} {r : MatchResult}

/-- The table of a pattern lists the groups of its tree. -/
theorem lists_groups {B : Backend} (p : Pattern B) : p.groups.Lists p.tree.groups :=
  GroupTable.ofTree_eq_ok_iff.mp p.groups_eq

/-- The groups of a pattern have different names. -/
theorem names_nodup {B : Backend} (p : Pattern B) : (p.tree.groups.map Group.name).Nodup :=
  p.lists_groups.names_nodup

/-- The result of a match names its input. -/
theorem input_eq_of_match? (h : p.match? s = some r) : r.input = s := by
  rw [match?_eq] at h
  split at h
  · cases h
  · obtain ⟨captures, -, rfl⟩ := Option.map_eq_some_iff.mp h
    exact MatchResult.input_addGroups

/-- What the result of a match says: of each group its entry, and all refusals. -/
theorem match?_eq_some (h : p.match? s = some r) :
    s ≠ "" ∧ ∃ captures, p.regex.captures? s = some captures ∧
      (∀ g ∈ p.tree.groups,
        r.values.get? g.name = (g.result? (Regex.capturedText? captures)).map (·.value)) ∧
      (∀ name, name ∉ p.tree.groups.map Group.name → r.groups.get? name = none) ∧
      r.errors = p.tree.groups.filterMap (Group.refusal? (Regex.capturedText? captures)) := by
  rw [match?_eq] at h
  split at h
  · cases h
  · next hs =>
    obtain ⟨captures, hcap, rfl⟩ := Option.map_eq_some_iff.mp h
    refine ⟨hs, captures, hcap, fun g hg ↦ ?_, fun name hname ↦ ?_, ?_⟩
    · rw [MatchResult.values, Table.get?_map, MatchResult.get?_addGroups p.names_nodup hg]
      exact congrArg _ (Option.or_none ..)
    · exact MatchResult.get?_addGroups_of_notMem hname
    · exact MatchResult.errors_addGroups

end Pattern

end UrlPattern
