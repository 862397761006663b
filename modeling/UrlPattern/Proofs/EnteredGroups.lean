import UrlPattern.GroupTable

/-!
# Entered groups

A table keeps its names twice, in the list of its groups and in the set of the names that are taken.
The set is written by every call, also by one that is refused; since a call is refused only if the
name is there already, the two agree after any calls (`GroupTable.Lists.lists_after`), and a refused
call leaves the table as it was (`GroupTable.Lists.register_cases`).

So the table of any calls lists the groups whose calls were accepted, one for each name, and its
maps tell of these groups alone. Collecting a tree enters its groups up to the first one whose name
an earlier one has (`GroupTable.Lists.ends_collect`).

Specification: `SPEC_FULL.md` §10.6 (lines 233–237).
-/

namespace UrlPattern.GroupTable

variable {t t' : GroupTable} {gs : List Group} {g : Group}

/-- The table has entered exactly these groups. -/
structure Lists (t : GroupTable) (gs : List Group) : Prop where
  infos_eq : t.infos = gs.map Group.info
  /-- The set of names agrees with the list. -/
  taken_iff : ∀ name, t.taken.contains name = true ↔ name ∈ gs.map Group.name
  names_nodup : (gs.map Group.name).Nodup

theorem Lists.names_eq (h : t.Lists gs) : t.names = gs.map Group.name := by
  rw [names, h.infos_eq, List.map_map]
  rfl

/-- A table is determined by the groups that it has entered. -/
theorem Lists.unique (h : t.Lists gs) (h' : t'.Lists gs) : t = t' := by
  have hinfos : t.infos = t'.infos := h.infos_eq.trans h'.infos_eq.symm
  have htaken : t.taken = t'.taken := Table.ext_keys fun name ↦ by
    rw [← Table.contains_iff_mem_keys, ← Table.contains_iff_mem_keys, h.taken_iff, h'.taken_iff]
  cases t
  cases t'
  congr

/-- Groups with the same entries are listed alike. -/
theorem Lists.congr {gs' : List Group} (h : t.Lists gs)
    (hinfos : gs'.map Group.info = gs.map Group.info) : t.Lists gs' := by
  have hnames : gs'.map Group.name = gs.map Group.name := by
    have hmap := congrArg (List.map GroupInfo.name) hinfos
    rw [List.map_map, List.map_map] at hmap
    exact hmap
  refine ⟨h.infos_eq.trans hinfos.symm, fun name ↦ ?_, ?_⟩
  · rw [hnames]
    exact h.taken_iff name
  · rw [hnames]
    exact h.names_nodup

theorem lists_empty : empty.Lists [] := ⟨rfl, fun _ ↦ iff_of_false Bool.false_ne_true nofun, .nil⟩

/-- The table that lists these entries. -/
def ofInfos (infos : List GroupInfo) : GroupTable :=
  ⟨infos, .ofList (infos.map fun i ↦ (i.name, ()))⟩

theorem lists_ofInfos (h : (gs.map Group.name).Nodup) : (ofInfos (gs.map Group.info)).Lists gs := by
  refine ⟨rfl, fun name ↦ ?_, h⟩
  rw [ofInfos, Table.contains_iff_mem_keys, Table.mem_keys_ofList, List.map_map]
  simp [Group.info]

/-! ### One call -/

/-- A group whose name is taken is refused. -/
theorem Lists.register_of_mem (h : t.Lists gs) (hg : g.name ∈ gs.map Group.name) :
    t.register g = (t, .error (.duplicateGroupName g.name)) := by
  have htaken : t.taken.contains g.name = true := (h.taken_iff g.name).mpr hg
  obtain ⟨⟨⟩, hget⟩ := Option.isSome_iff_exists.mp htaken
  -- the set is written all the same, with a name that it holds
  rw [register, if_pos htaken, Table.insert_of_get?_eq_some hget]

/-- A group with a new name is entered behind the others. -/
theorem Lists.register_of_notMem (h : t.Lists gs) (hg : g.name ∉ gs.map Group.name) :
    ∃ t', t.register g = (t', .ok g.id) ∧ t'.Lists (gs ++ [g]) := by
  refine ⟨_, if_neg (mt (h.taken_iff g.name).mp hg), ?_, fun name ↦ ?_, ?_⟩
  · rw [h.infos_eq, List.map_append]
    rfl
  · rw [Table.contains_insert_iff, h.taken_iff, List.map_append, List.mem_append, or_comm]
    exact or_congr_right List.mem_singleton.symm
  · rw [List.map_append]
    refine List.nodup_append.mpr ⟨h.names_nodup, List.pairwise_singleton _ _, ?_⟩
    rintro name hname _ hlast rfl
    exact hg (List.mem_singleton.mp hlast ▸ hname)

/-- All that a call can do: a group whose name is taken is refused and the table stays as it was,
and any other group is entered behind those that are there. -/
theorem Lists.register_cases (h : t.Lists gs) (g : Group) :
    (g.name ∈ gs.map Group.name ∧ t.register g = (t, .error (.duplicateGroupName g.name))) ∨
      (g.name ∉ gs.map Group.name ∧
        ∃ t', t.register g = (t', .ok g.id) ∧ t'.Lists (gs ++ [g])) := by
  by_cases hg : g.name ∈ gs.map Group.name
  · exact .inl ⟨hg, h.register_of_mem hg⟩
  · exact .inr ⟨hg, h.register_of_notMem hg⟩

/-! ### Any calls -/

/-- The table after calls to enter these groups one by one, whichever of them are refused. -/
def after (t : GroupTable) (calls : List Group) : GroupTable :=
  calls.foldl (fun t g ↦ (t.register g).1) t

/-- The groups that are accepted when these are to be entered one by one. -/
def accepted (t : GroupTable) : List Group → List Group
  | [] => []
  | g :: calls =>
    let (t', answer) := t.register g
    if answer.isOk then g :: t'.accepted calls else t'.accepted calls

theorem after_cons (t : GroupTable) (g : Group) (calls : List Group) :
    t.after (g :: calls) = (t.register g).1.after calls := rfl

/-- Whichever calls are refused, the table lists the groups that were accepted. -/
theorem Lists.lists_after (h : t.Lists gs) (calls : List Group) :
    (t.after calls).Lists (gs ++ t.accepted calls) := by
  induction calls generalizing t gs with
  | nil =>
    rw [accepted, List.append_nil]
    exact h
  | cons g calls ih =>
    rw [after_cons, accepted]
    obtain ⟨-, hregister⟩ | ⟨-, t', hregister, h'⟩ := h.register_cases g
    · rw [hregister]
      exact ih h
    · rw [hregister]
      have hrest := ih h'
      rwa [List.append_assoc] at hrest

/-- From a list without repetitions nothing is erased. -/
theorem eraseDups_of_nodup {names : List String} (h : names.Nodup) : names.eraseDups = names := by
  induction names with
  | nil => rfl
  | cons name names ih =>
    obtain ⟨hnew, hnames⟩ := List.nodup_cons.mp h
    have hkept : names.filter (!· == name) = names := by
      refine List.filter_eq_self.mpr fun other hother ↦ ?_
      rw [Bool.not_eq_true', beq_eq_false_iff_ne]
      exact ne_of_mem_of_not_mem hother hnew
    rw [List.eraseDups_cons, hkept, ih hnames]

/-- The names of the groups are those of all calls, each at its first place. -/
theorem Lists.names_accepted (h : t.Lists gs) (calls : List Group) :
    (gs ++ t.accepted calls).map Group.name = ((gs ++ calls).map Group.name).eraseDups := by
  induction calls generalizing t gs with
  | nil =>
    rw [accepted, List.append_nil]
    exact (eraseDups_of_nodup h.names_nodup).symm
  | cons g calls ih =>
    rw [accepted]
    obtain ⟨hg, hregister⟩ | ⟨-, t', hregister, h'⟩ := h.register_cases g
    · rw [hregister]
      -- a refused name is one of those in front, so it is erased behind them
      refine (ih h).trans ?_
      rw [List.map_append, List.map_append, List.map_cons, List.eraseDups_append,
        List.eraseDups_append, List.cons_removeAll, if_neg (by simpa using hg)]
    · rw [hregister]
      have hrest := ih h'
      rwa [List.append_assoc, List.append_assoc] at hrest

/-! ### Maps -/

/-- The maps of a table tell of these groups, and of no others. -/
structure HasMaps (t : GroupTable) (gs : List Group) : Prop where
  /-- A number leads to the name of the last group that has it. -/
  namedGroups_iff : ∀ id name, t.namedGroups.get? id = some name ↔
    ∃ front g back, gs = front ++ g :: back ∧ g.id = id ∧ g.name = name ∧ ∀ g' ∈ back, g'.id ≠ id
  groupTypes_iff : ∀ name typeName, t.groupTypes.get? name = some typeName ↔
    ∃ g ∈ gs, g.name = name ∧ g.type.name = typeName
  groupConstraints_iff : ∀ name raw, t.groupConstraints.get? name = some raw ↔
    ∃ g ∈ gs, g.name = name ∧ g.raw = raw

/-- The map by numbers has an entry for each group, of which the later count. -/
theorem Lists.namedGroups_eq (h : t.Lists gs) :
    t.namedGroups = .ofList (gs.map fun g ↦ (g.id, g.name)) := by
  rw [namedGroups, h.infos_eq, List.map_map]
  rfl

theorem Lists.get?_namedGroups_eq_some_iff (h : t.Lists gs) {id : Nat} {name : String} :
    t.namedGroups.get? id = some name ↔
      ∃ front g back, gs = front ++ g :: back ∧ g.id = id ∧ g.name = name ∧
        ∀ g' ∈ back, g'.id ≠ id := by
  rw [h.namedGroups_eq, Table.get?_ofList_eq_some_iff_append]
  constructor
  · rintro ⟨front, back, heq, hlast⟩
    obtain ⟨front, rest, hgroups, rfl, hrest⟩ := List.map_eq_append_iff.mp heq
    obtain ⟨g, back, rfl, hg, rfl⟩ := List.map_eq_cons_iff.mp hrest
    cases hg
    refine ⟨front, g, back, hgroups, rfl, rfl, fun g' hg' hid ↦ hlast ?_⟩
    rw [List.map_map, ← hid]
    exact List.mem_map_of_mem hg'
  · rintro ⟨front, g, back, hgroups, rfl, rfl, hlast⟩
    refine ⟨_, _, by rw [hgroups, List.map_append, List.map_cons], ?_⟩
    rw [List.map_map]
    intro hin
    obtain ⟨g', hg', hid⟩ := List.mem_map.mp hin
    exact hlast g' hg' hid

/-- What a map by names says: to each group what its entry says. -/
theorem Lists.get?_ofList_infos (h : t.Lists gs) {α : Type} (f : GroupInfo → α) (name : String)
    (a : α) : (Table.ofList (t.infos.map fun i ↦ (i.name, f i))).get? name = some a ↔
      ∃ g ∈ gs, g.name = name ∧ f g.info = a := by
  rw [Table.get?_ofList_eq_some_iff, h.infos_eq, List.map_map, List.mem_map]
  · exact exists_congr fun g ↦ and_congr_right fun _ ↦ Prod.ext_iff
  · rw [h.infos_eq, List.map_map, List.map_map]
    exact h.names_nodup

theorem Lists.hasMaps (h : t.Lists gs) : t.HasMaps gs :=
  ⟨fun _ _ ↦ h.get?_namedGroups_eq_some_iff, h.get?_ofList_infos GroupInfo.typeName,
    h.get?_ofList_infos GroupInfo.constraints⟩

/-! ### Trees -/

/-- How entering groups behind others ends: either all are entered, or those before the first whose
name is taken by then, and this one is refused. -/
inductive Ends (gs entering : List Group) : GroupTable × Option ValidationError → Prop where
  | entered {t : GroupTable} (h : t.Lists (gs ++ entering)) : Ends gs entering (t, none)
  | refused {t : GroupTable} {front back : List Group} {g : Group}
      (hentering : entering = front ++ g :: back) (h : t.Lists (gs ++ front))
      (htaken : g.name ∈ (gs ++ front).map Group.name) :
      Ends gs entering (t, some (.duplicateGroupName g.name))

theorem Lists.ends_registerAll (h : t.Lists gs) (entering : List Group) :
    Ends gs entering (t.registerAll entering) := by
  induction entering generalizing t gs with
  | nil =>
    refine .entered ?_
    rw [List.append_nil]
    exact h
  | cons g entering ih =>
    rw [registerAll]
    obtain ⟨hg, hregister⟩ | ⟨-, t', hregister, h'⟩ := h.register_cases g
    · rw [hregister]
      refine .refused (List.nil_append _).symm ?_ ?_
      · rwa [List.append_nil]
      · rwa [List.append_nil]
    · rw [hregister]
      change Ends gs (g :: entering) (t'.registerAll entering)
      have hrest := ih h'
      generalize t'.registerAll entering = reached at hrest ⊢
      cases hrest with
      | entered hall =>
        rw [List.append_assoc] at hall
        exact .entered hall
      | refused hentering hfront htaken =>
        rw [List.append_assoc] at hfront htaken
        exact .refused (congrArg (g :: ·) hentering) hfront htaken

theorem Lists.ends_collect (h : t.Lists gs) (root : Node) :
    Ends gs root.groups (t.collect root) :=
  h.ends_registerAll root.groups

/-- Nothing is refused exactly if all names are different. -/
theorem Ends.snd_eq_none_iff {entering : List Group} {reached : GroupTable × Option ValidationError}
    (h : Ends gs entering reached) :
    reached.2 = none ↔ ((gs ++ entering).map Group.name).Nodup := by
  cases h with
  | entered hall => exact iff_of_true rfl hall.names_nodup
  | refused hentering _ htaken =>
    refine iff_of_false nofun fun hnodup ↦ ?_
    rw [hentering, ← List.append_assoc, List.map_append] at hnodup
    exact (List.nodup_append.mp hnodup).2.2 _ htaken _ List.mem_cons_self rfl

variable {root : Node}

/-- The table of a tree is the one that lists all of its groups. -/
theorem ofTree_eq_ok_iff : ofTree root = .ok t ↔ t.Lists root.groups := by
  have hends : Ends [] root.groups (empty.collect root) := lists_empty.ends_collect root
  have hnone := hends.snd_eq_none_iff
  rw [ofTree]
  generalize empty.collect root = reached at hends hnone ⊢
  cases hends with
  | entered hall =>
    constructor
    · intro h
      cases h
      exact hall
    · intro h
      exact congrArg Except.ok (hall.unique h)
  | refused =>
    refine iff_of_false nofun fun h ↦ ?_
    cases hnone.mpr h.names_nodup

/-- The table of a tree is refused if a name is repeated, with the first name that an earlier group
has. -/
theorem ofTree_of_repeated (h : ¬ (root.groups.map Group.name).Nodup) :
    ∃ front g back, root.groups = front ++ g :: back ∧ (front.map Group.name).Nodup ∧
      g.name ∈ front.map Group.name ∧ ofTree root = .error (.duplicateGroupName g.name) := by
  have hends : Ends [] root.groups (empty.collect root) := lists_empty.ends_collect root
  rw [ofTree]
  generalize empty.collect root = reached at hends ⊢
  cases hends with
  | entered hall => exact absurd hall.names_nodup h
  | refused hgroups hfront htaken => exact ⟨_, _, _, hgroups, hfront.names_nodup, htaken, rfl⟩

/-- Whichever of the calls to a table are refused, its list and its set of names agree on the groups
that were accepted, one for each name and in order, and its maps tell of them. A further call is
refused exactly if the name is there, and then changes nothing. Collecting a tree enters all of its
groups if their names are new and different, and otherwise those before the first one whose name is
there by then. `SPEC_FULL.md:235–236`. -/
theorem lists_accepted (calls : List Group) :
    (empty.after calls).Lists (empty.accepted calls) ∧
      (empty.after calls).HasMaps (empty.accepted calls) ∧
      (empty.after calls).names = (calls.map Group.name).eraseDups ∧
      (∀ g, (∃ e, ((empty.after calls).register g).2 = .error e) ↔
        g.name ∈ (empty.after calls).names) ∧
      (∀ g, (empty.after calls).register g
          = (empty.after calls, .error (.duplicateGroupName g.name)) ∨
        ∃ t, (empty.after calls).register g = (t, .ok g.id) ∧
          t.Lists (empty.accepted calls ++ [g])) ∧
      ∀ root, Ends (empty.accepted calls) root.groups ((empty.after calls).collect root) ∧
        (((empty.after calls).collect root).2 = none ↔
          ((empty.accepted calls ++ root.groups).map Group.name).Nodup) := by
  have hlists : (empty.after calls).Lists (empty.accepted calls) := lists_empty.lists_after calls
  refine ⟨hlists, hlists.hasMaps, ?_, fun g ↦ ?_, fun g ↦ ?_, fun root ↦ ?_⟩
  · rw [hlists.names_eq]
    exact lists_empty.names_accepted calls
  · rw [hlists.names_eq]
    obtain ⟨hg, hregister⟩ | ⟨hg, t, hregister, -⟩ := hlists.register_cases g
    · rw [hregister]
      exact iff_of_true ⟨_, rfl⟩ hg
    · rw [hregister]
      exact iff_of_false (fun ⟨_, herror⟩ ↦ nomatch herror) hg
  · exact (hlists.register_cases g).imp And.right And.right
  · have hends := hlists.ends_collect root
    exact ⟨hends, hends.snd_eq_none_iff⟩

end UrlPattern.GroupTable
