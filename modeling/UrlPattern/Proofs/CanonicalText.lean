import UrlPattern.Proofs.WrittenTree

/-!
# The canonical text of a tree

A tree has one text that writes it plainly: literals as they are, every value of a constraint
between quotes, every section between parentheses. `parse_print` says that this text is read as the
tree, whatever characters stand in the values.

Specification: `SPEC_FULL.md` §4.4 (lines 57–58) and §6 (lines 78–82).
-/

namespace UrlPattern

namespace ConstraintList

/-- A text that may stand between quotes: quotes and backslashes are hidden behind backslashes. -/
def escape : List Char → List Char
  | [] => []
  | c :: cs => if c ∈ ['"', '\\'] then '\\' :: c :: escape cs else c :: escape cs

/-- An entry with its value between quotes. -/
def printEntry (entry : String × String) : List Char :=
  entry.1.toList ++ '=' :: '"' :: (escape entry.2.toList ++ ['"'])

/-- Entries with commas between them. -/
def printEntries : List (String × String) → List Char
  | [] => []
  | [entry] => printEntry entry
  | entry :: entries => printEntry entry ++ ',' :: printEntries entries

theorem quoted_escape (value : List Char) : Quoted (escape value) value := by
  induction value with
  | nil => exact .nil
  | cons c value ih =>
    rw [escape]
    split
    · exact .escaped ih
    · next hc => exact .plain hc ih

/-- The keys that stand in canonical texts have no blanks, and no character of theirs is a mark. -/
def IsPlainKey (key : String) : Prop := key ≠ "" ∧ ∀ c ∈ key.toList, c.isAlpha = true

theorem isBlank_of_isAlpha {c : Char} (h : c.isAlpha = true) : Text.isBlank c = false := by
  have hletter : 65 ≤ c.toNat ∧ c.toNat ≤ 90 ∨ 97 ≤ c.toNat ∧ c.toNat ≤ 122 := by
    rcases Bool.or_eq_true_iff.mp h with h | h
    · exact .inl (of_decide_eq_true h)
    · obtain ⟨hleast, hgreatest⟩ := Bool.and_eq_true_iff.mp h
      exact .inr ⟨of_decide_eq_true hleast, of_decide_eq_true hgreatest⟩
  refine List.any_eq_false.mpr ?_
  simp only [Text.blankRanges, List.forall_mem_cons, Bool.and_eq_true, decide_eq_true_eq,
    List.not_mem_nil, IsEmpty.forall_iff, implies_true, and_true]
  omega

theorem spellsEntry_printEntry {entry : String × String} (h : IsPlainKey entry.1) :
    SpellsEntry (printEntry entry) entry := by
  have htrim : Text.trim entry.1.toList = entry.1.toList :=
    Text.trim_eq_self fun c hc ↦ isBlank_of_isAlpha (h.2 c hc)
  have hvalue : SpellsValue ('"' :: (escape entry.2.toList ++ ['"'])) entry.2 := by
    have hblank : ∀ c ∈ ([] : List Char), Text.isBlank c = true := by simp
    have hquoted := SpellsValue.quoted hblank (quoted_escape entry.2.toList) hblank
    rwa [String.ofList_toList] at hquoted
  have hmarks : ∀ c ∈ entry.1.toList, c ∉ ['=', ','] := fun c hc hmark ↦ by
    have halpha := h.2 c hc
    simp only [List.mem_cons, List.not_mem_nil, or_false] at hmark
    rcases hmark with rfl | rfl <;> cases halpha
  have hne : Text.trim entry.1.toList ≠ [] := by
    rw [htrim]
    exact fun hnil ↦ h.1 (String.toList_eq_nil_iff.mp hnil)
  have hentry := SpellsEntry.mk hmarks hne hvalue
  rwa [htrim, String.ofList_toList] at hentry

theorem spellsEntries_printEntries {entries : List (String × String)} (hne : entries ≠ [])
    (h : ∀ entry ∈ entries, IsPlainKey entry.1) : SpellsEntries (printEntries entries) entries := by
  fun_induction printEntries entries with
  | case1 => exact absurd rfl hne
  | case2 entry => exact .single (spellsEntry_printEntry (h entry List.mem_cons_self))
  | case3 entry entries hmore ih =>
    refine .cons (spellsEntry_printEntry (h entry List.mem_cons_self)) (ih hmore ?_)
    exact fun e he ↦ h e (List.mem_cons_of_mem _ he)

end ConstraintList

/-- The keys of constraints that a type resolves are those of kinds. -/
theorem Group.isPlainKey (g : Group) {entry : String × String} (h : entry ∈ g.raw.toList) :
    ConstraintList.IsPlainKey entry.1 := by
  obtain ⟨constraints, hread, -⟩ := bind_eq_ok.mp g.resolved
  obtain ⟨c, hc⟩ := exists_of_mapM_eq_ok hread h
  rw [(ValueType.resolveEntry_eq_ok hc).1]
  cases c.kind <;> exact ⟨by decide, List.all_eq_true.mp (by decide)⟩

/-- The inside of the canonical text of a group. -/
def Group.content (g : Group) : List Char :=
  Node.GroupHeader.text ⟨g.name, g.type.name,
    if g.raw.toList = [] then none else some (ConstraintList.printEntries g.raw.toList)⟩

theorem Group.isWrittenInside_content (g : Group) : g.IsWrittenInside g.content := by
  rw [Group.content]
  split
  · next hraw =>
    rw [Node.GroupHeader.text, Node.GroupHeader.listText, List.append_nil]
    exact .bare (Table.toList_inj.mp hraw)
  · next hraw =>
    exact .listed (.inr ⟨_, ConstraintList.spellsEntries_printEntries hraw
      fun e he ↦ g.isPlainKey he, .refl _⟩)

namespace Node

/-! ### What stands in a canonical text -/

namespace GroupInside

variable {cs : List Char}

/-- Before what may stand in a group there may stand anything but quotes and braces. -/
theorem append_plain {front : List Char} (h : ∀ c ∈ front, c ∉ ['"', '\x7d'])
    (hcs : GroupInside false cs) : GroupInside false (front ++ cs) := by
  induction front with
  | nil => exact hcs
  | cons c front ih =>
    obtain ⟨hc, hfront⟩ := List.forall_mem_cons.mp h
    simp only [List.mem_cons, List.not_mem_nil, or_false, not_or] at hc
    exact .char hc.1 hc.2 (ih hfront)

/-- Before what may stand in a group there may stand any value in quotes. -/
theorem append_quoted {text value : List Char} (h : ConstraintList.Quoted text value)
    (hcs : GroupInside false cs) : GroupInside true (text ++ '"' :: cs) := by
  induction h with
  | nil => exact .quote hcs
  | plain hc _ ih =>
    simp only [List.mem_cons, List.not_mem_nil, or_false, not_or] at hc
    exact .char hc.1 hc.2 ih
  | escaped _ ih => exact .escape ih

theorem append_entry {entry : String × String} (h : ConstraintList.IsPlainKey entry.1)
    (hcs : GroupInside false cs) : GroupInside false (ConstraintList.printEntry entry ++ cs) := by
  have hquoted := append_quoted (ConstraintList.quoted_escape entry.2.toList) hcs
  have hkey : ∀ c ∈ entry.1.toList ++ ['='], c ∉ ['"', '\x7d'] := by
    refine List.forall_mem_append.mpr ⟨fun c hc ↦ ?_, by simp⟩
    have halpha := h.2 c hc
    rintro hmark
    simp only [List.mem_cons, List.not_mem_nil, or_false] at hmark
    rcases hmark with rfl | rfl <;> cases halpha
  simpa [ConstraintList.printEntry] using append_plain hkey (.quote hquoted)

theorem append_entries {entries : List (String × String)}
    (h : ∀ e ∈ entries, ConstraintList.IsPlainKey e.1) (hcs : GroupInside false cs) :
    GroupInside false (ConstraintList.printEntries entries ++ cs) := by
  fun_induction ConstraintList.printEntries entries with
  | case1 => exact hcs
  | case2 entry => exact append_entry (h entry List.mem_cons_self) hcs
  | case3 entry entries hmore ih =>
    rw [List.append_assoc, List.cons_append]
    refine append_entry (h entry List.mem_cons_self) (.char (by decide) (by decide) (ih ?_))
    exact fun e he ↦ h e (List.mem_cons_of_mem _ he)

end GroupInside

/-- No name of a group, and no name of a type, has a quote or a brace. -/
theorem groupInside_content {types : TypeRegistry} {g : Group} (h : g.IsReadable types) :
    GroupInside false g.content := by
  have hname : ∀ c ∈ g.name.toList, c ∉ ['"', '\x7d'] := fun c hc hmark ↦ by
    have hchar := h.name.2 c hc
    simp only [List.mem_cons, List.not_mem_nil, or_false] at hmark
    rcases hmark with rfl | rfl <;> cases hchar
  have htype : ∀ c ∈ g.type.name.toList, c ∉ ['"', '\x7d'] := fun c hc hmark ↦ by
    have hletter := h.typeName.2 c hc
    simp only [List.mem_cons, List.not_mem_nil, or_false] at hmark
    rcases hmark with rfl | rfl <;> cases hletter
  have hlist : GroupInside false (GroupHeader.listText
      (if g.raw.toList = [] then none else some (ConstraintList.printEntries g.raw.toList))) := by
    split
    · exact .nil
    · have hclose : GroupInside false [')'] := .char (by decide) (by decide) .nil
      exact .char (by decide) (by decide) (.append_entries (fun e he ↦ g.isPlainKey he) hclose)
  exact .append_plain hname (.char (by decide) (by decide) (.append_plain htype hlist))

/-! ### Trees -/

mutual

/-- The canonical text of a node. -/
def print : Node → List Char
  | literal text _ => text.toList
  | group g => '\x7b' :: (g.content ++ ['\x7d'])
  | sequence children _ => printAll children
  | optional children _ => '(' :: (printAll children ++ [')'])

/-- The canonical texts of several nodes, one after the other. -/
def printAll : List Node → List Char
  | [] => []
  | n :: ns => n.print ++ printAll ns

end

/-- The canonical text is a way to write a row of nodes. -/
theorem areWrittenAs_printAll {types : TypeRegistry} {inSection : Bool} {ns : List Node}
    (h : AreWellFormed inSection ns) (hreadable : ∀ g ∈ groupsOf ns, g.IsReadable types) :
    AreWrittenAs ns (printAll ns) := by
  induction h with
  | nil => exact .nil
  | literal _ _ _ _ _ ih => exact .literal (ih hreadable)
  | @group _ g ns _ _ _ ih =>
    obtain ⟨hg, hreadable⟩ := List.forall_mem_cons.mp hreadable
    exact .group (.mk (groupInside_content hg) g.isWrittenInside_content) (ih hreadable)
  | optional _ _ ihchildren ih =>
    obtain ⟨hreadable, hreadable'⟩ := List.forall_mem_append.mp hreadable
    simpa [printAll, print] using AreWrittenAs.optional (ihchildren hreadable) (ih hreadable')

/-- The canonical text of every well-formed tree is read, and read as the tree.
`SPEC_FULL.md:78–82`. -/
theorem parse_print {types : TypeRegistry} {children : List Node} (h : ArePattern types children) :
    parse (String.ofList (ofChildren children).print) types = .ok (ofChildren children) := by
  refine parse_eq_ok_iff.mpr ⟨children, rfl, h, ?_⟩
  rw [String.toList_ofList]
  exact areWrittenAs_printAll h.wellFormed h.readable

/-- A value with a brace, a quote and a backslash, in a section with an empty section. -/
theorem parse_print_marks :
    ∃ children, ArePattern .builtin children ∧
      (ofChildren children).print
        = "a)(\x7bn:string(contains=\"\x7d\\\"\\\\\")\x7d()-)".toList ∧
      parse "a)(\x7bn:string(contains=\"\x7d\\\"\\\\\")\x7d()-)" .builtin
        = .ok (ofChildren children) := by
  let g : Group := ⟨1, "n", .word, Table.ofList [("contains", "\x7d\"\\")],
    [.contains "\x7d\"\\"], rfl, ⟨true, none⟩⟩
  let children : List Node := [.literal "a)" .plain,
    .optional [.group g, .optional [] ⟨true, none⟩, .literal "-" ⟨true, none⟩] .plain]
  have hwell : AreWellFormed false children := by
    refine .literal (by decide) (List.all_eq_true.mp (by decide)) nofun (by simp [literalText?])
      (.optional ?_ .nil)
    refine .group rfl (by simp [literalText?]) (.optional .nil ?_)
    exact .literal (by decide) (List.all_eq_true.mp (by decide)) (by decide) nofun .nil
  have hg : g.IsReadable .builtin :=
    ⟨⟨⟨'n', by decide, by decide⟩, List.all_eq_true.mp (by decide)⟩,
      ⟨by decide, List.all_eq_true.mp (by decide)⟩, rfl⟩
  have hpattern : ArePattern .builtin children :=
    ⟨List.cons_ne_nil _ _, hwell, by simpa [children, groupsOf, groups] using hg, rfl⟩
  have hprint : (ofChildren children).print
      = "a)(\x7bn:string(contains=\"\x7d\\\"\\\\\")\x7d()-)".toList := by
    decide +kernel
  have hparse := parse_print hpattern
  rw [hprint, String.ofList_toList] at hparse
  exact ⟨children, hpattern, hprint, hparse⟩

end Node

end UrlPattern
