import UrlPattern.Proofs.ParsedTree

/-!
# Numbers of patterns read in turn

Patterns that are read one after the other are numbered on from each other, even past one that is
refused. The numbers that a step of reading takes for groups are consecutive from the number before
it to the one behind it, wherever the step fails (`Node.Takes.ids_eq_range`). So the groups of a
pattern that is read have the numbers that reading it took, a refused one uses up what it took, and
over the whole row no number is taken twice (`Node.numbered_readAll`).

Specification: `SPEC_FULL.md` §4.4 (lines 57–58) and §9 (line 106).
-/

namespace UrlPattern.Node

/-- The number for the next group behind a step of reading, whether it failed or not. -/
def numberBehind {α : Type} : EStateM.Result PatternError Nat α → Nat
  | .ok _ last => last
  | .error _ last => last

/-! ### The numbers that a step takes -/

/-- A step of reading, begun before this number, takes these numbers for groups, in order, and comes
to this result. -/
inductive Takes : {α : Type} → Parse α → (next : Nat) → (ids : List Nat) →
    EStateM.Result PatternError Nat α → Prop where
  | pure {α : Type} {a : α} {next : Nat} : Takes (Pure.pure a) next [] (.ok a next)
  | throw {α : Type} {e : PatternError} {next : Nat} :
      Takes (throw e : Parse α) next [] (.error e next)
  | takeId {next : Nat} : Takes takeId next [next] (.ok next (next + 1))
  | bind {α β : Type} {x : Parse α} {f : α → Parse β} {a : α} {next middle : Nat}
      {ids ids' : List Nat} {r : EStateM.Result PatternError Nat β}
      (hx : Takes x next ids (.ok a middle)) (hf : Takes (f a) middle ids' r) :
      Takes (x >>= f) next (ids ++ ids') r
  | fail {α β : Type} {x : Parse α} {f : α → Parse β} {e : PatternError} {next last : Nat}
      {ids : List Nat} (hx : Takes x next ids (.error e last)) :
      Takes (x >>= f) next ids (.error e last)

/-- The numbers that are taken are consecutive, and the number behind follows on them. -/
theorem Takes.ids_eq_range {α : Type} {x : Parse α} {next : Nat} {ids : List Nat}
    {r : EStateM.Result PatternError Nat α} (h : Takes x next ids r) :
    ids = List.range' next ids.length ∧ numberBehind r = next + ids.length := by
  induction h with
  | pure | throw | takeId => exact ⟨rfl, rfl⟩
  | @bind _ _ _ _ _ _ _ ids ids' _ _ _ ihx ihf =>
    obtain ⟨hids, hmiddle⟩ := ihx
    obtain ⟨hids', hlast⟩ := ihf
    dsimp only [numberBehind] at hmiddle
    subst hmiddle
    rw [hlast, List.length_append, ← List.range'_append_1, ← hids, ← hids']
    exact ⟨rfl, Nat.add_assoc ..⟩
  | fail _ ih => exact ih

/-- Wherever a step of reading is begun, all that it does to the numbering is to take numbers. -/
def Counts {α : Type} (x : Parse α) : Prop := ∀ next, ∃ ids, Takes x next ids (x next)

namespace Counts

variable {α β : Type}

theorem pure (a : α) : Counts (Pure.pure a) := fun _ ↦ ⟨[], .pure⟩

theorem throw (e : PatternError) : Counts (throw e : Parse α) := fun _ ↦ ⟨[], .throw⟩

theorem takeId : Counts takeId := fun next ↦ ⟨[next], .takeId⟩

theorem bind {x : Parse α} {f : α → Parse β} (hx : Counts x) (hf : ∀ a, Counts (f a)) :
    Counts (x >>= f) := by
  intro next
  obtain ⟨ids, htakes⟩ := hx next
  change ∃ ids, Takes (x >>= f) next ids (EStateM.bind x f next)
  rw [EStateM.bind]
  cases hresult : x next with
  | ok a middle =>
    rw [hresult] at htakes
    obtain ⟨ids', htakes'⟩ := hf a middle
    exact ⟨ids ++ ids', .bind htakes htakes'⟩
  | error e last =>
    rw [hresult] at htakes
    exact ⟨ids, .fail htakes⟩

theorem liftResult {ε : Type} (f : ε → PatternError) (r : Except ε α) :
    Counts (liftResult f r) := by
  cases r with
  | ok a => exact pure a
  | error e => exact throw (f e)

/-- A group takes its number once its type is known; its constraints may still be refused then. -/
theorem readGroup (pattern : String) (types : TypeRegistry) (offset : Nat) (content : List Char) :
    Counts (readGroup pattern types offset content) := by
  rw [Node.readGroup]
  split
  · exact throw _
  · exact (liftResult _ _).bind fun _ ↦ (liftResult _ _).bind fun _ ↦ takeId.bind fun _ ↦
      liftResult _ _

theorem readElements (pattern : String) (types : TypeRegistry) (offset : Nat) (cs : List Char) :
    Counts (readElements pattern types offset cs) := by
  induction offset, cs using readElements.induct with
  | case1 offset =>
    rw [Node.readElements]
    exact pure _
  | case2 offset rest kind hsplit =>
    rw [Node.readElements, if_pos rfl, hsplit]
    exact throw _
  | case3 offset rest content after hsplit ih =>
    rw [readElements_marked _ _ _ hsplit]
    exact (readGroup _ _ _ _).bind fun _ ↦ ih.bind fun _ ↦ pure _
  | case4 offset rest content after hafter hsplit ih =>
    rw [readElements_group _ _ _ hsplit (head?_ne_mark hafter)]
    exact (readGroup _ _ _ _).bind fun _ ↦ ih.bind fun _ ↦ pure _
  | case5 offset rest fault hsplit hbrace =>
    rw [Node.readElements, if_neg hbrace, if_pos rfl, hsplit]
    exact throw _
  | case6 offset rest inside after hsplit hbrace ihchildren ih =>
    rw [readElements_section _ _ _ hsplit]
    exact ihchildren.bind fun _ ↦ ih.bind fun _ ↦ pure _
  | case7 offset c rest hbrace hparen text ih =>
    rw [Node.readElements, if_neg hbrace, if_neg hparen]
    exact ih.bind fun _ ↦ pure _

theorem read (pattern : String) (types : TypeRegistry) : Counts (read pattern types) := by
  rw [Node.read]
  split
  · exact throw _
  · exact (readElements _ _ _ _).bind fun _ ↦ pure _

end Counts

/-! ### One pattern after the other -/

/-- One pattern that is read: its text, the number before it, and what reading it came to. -/
structure Turn where
  source : String
  first : Nat
  result : EStateM.Result PatternError Nat Node

/-- The number behind the pattern. -/
def Turn.last (t : Turn) : Nat := numberBehind t.result

/-- Reads patterns one after the other. Each is numbered from where the one before it stopped, and a
refused one does not end the row. -/
def readAll (types : TypeRegistry) : (next : Nat) → List String → List Turn
  | _, [] => []
  | next, source :: sources =>
    let t : Turn := ⟨source, next, read source types next⟩
    t :: readAll types t.last sources

/-- Every pattern has its turn. -/
theorem sources_readAll (types : TypeRegistry) (next : Nat) (sources : List String) :
    (readAll types next sources).map Turn.source = sources := by
  induction sources generalizing next with
  | nil => rfl
  | cons source sources ih => exact congrArg (source :: ·) (ih _)

/-- Each pattern begins where the one before it stopped. -/
theorem chain_readAll (types : TypeRegistry) (next : Nat) (sources : List String) :
    ∃ last, next :: (readAll types next sources).map Turn.last
      = (readAll types next sources).map Turn.first ++ [last] := by
  induction sources generalizing next with
  | nil => exact ⟨next, rfl⟩
  | cons source sources ih =>
    obtain ⟨last, hchain⟩ := ih (Turn.last ⟨source, next, read source types next⟩)
    exact ⟨last, congrArg (next :: ·) hchain⟩

/-- What is known of the numbers that reading one pattern took. -/
structure Turn.IsNumbered (types : TypeRegistry) (t : Turn) (ids : List Nat) : Prop where
  result_eq : t.result = read t.source types t.first
  takes : Takes (read t.source types) t.first ids t.result
  ids_eq : ids = List.range' t.first ids.length
  last_eq : t.last = t.first + ids.length
  /-- The groups of a pattern that was not refused have these numbers, from left to right. -/
  groups_eq : ∀ root last, t.result = .ok root last → root.groups.map Group.id = ids

/-- Reading a pattern takes numbers from the one before it on, and its groups have them all. -/
theorem exists_isNumbered_read (types : TypeRegistry) (next : Nat) (source : String) :
    ∃ ids, Turn.IsNumbered types ⟨source, next, read source types next⟩ ids := by
  obtain ⟨ids, htakes⟩ := Counts.read source types next
  obtain ⟨hids, hlast⟩ := htakes.ids_eq_range
  refine ⟨ids, rfl, htakes, hids, hlast, fun root last hresult ↦ ?_⟩
  obtain ⟨-, children, hchildren, rfl⟩ := read_eq_ok_iff.mp hresult
  obtain ⟨hgroups, hbehind⟩ := hchildren.ids_eq_range
  have hlast' : last = next + ids.length := (congrArg numberBehind hresult).symm.trans hlast
  have hlength : ids.length = (groupsOf children).length := by omega
  rw [hids, hlength]
  exact hgroups

/-- The numbers that the patterns take are one row of consecutive numbers. -/
theorem exists_isNumbered_readAll (types : TypeRegistry) (next : Nat) (sources : List String) :
    ∃ taken, List.Forall₂ (Turn.IsNumbered types) (readAll types next sources) taken ∧
      taken.flatten = List.range' next taken.flatten.length := by
  induction sources generalizing next with
  | nil => exact ⟨[], .nil, rfl⟩
  | cons source sources ih =>
    obtain ⟨ids, ht⟩ := exists_isNumbered_read types next source
    obtain ⟨taken, hnumbered, hflat⟩ := ih (Turn.last ⟨source, next, read source types next⟩)
    refine ⟨ids :: taken, .cons ht hnumbered, ?_⟩
    rw [ht.last_eq] at hflat
    rw [List.flatten_cons, List.length_append, ← List.range'_append_1, ← hflat, ← ht.ids_eq]

/-- Patterns that are read one after the other take one row of consecutive numbers, no number twice:
each pattern begins where the one before it stopped, refused or not. `SPEC_FULL.md:106`. -/
theorem numbered_readAll (types : TypeRegistry) (next : Nat) (sources : List String) :
    (readAll types next sources).map Turn.source = sources ∧
      (∃ last, next :: (readAll types next sources).map Turn.last
        = (readAll types next sources).map Turn.first ++ [last]) ∧
      ∃ taken, List.Forall₂ (Turn.IsNumbered types) (readAll types next sources) taken ∧
        taken.flatten = List.range' next taken.flatten.length ∧ taken.flatten.Nodup := by
  obtain ⟨taken, hnumbered, hflat⟩ := exists_isNumbered_readAll types next sources
  have hnodup : taken.flatten.Nodup := hflat ▸ List.nodup_range'
  exact ⟨sources_readAll .., chain_readAll .., taken, hnumbered, hflat, hnodup⟩

end UrlPattern.Node
