import UrlPattern.Proofs.FirstAtPlace
import UrlPattern.Regex.Parser

/-!
# What a search finds

`Regex.ends` works on lists of cursors and drops what comes later at a place already reached. Here
each expression gets a function that says, for a single cursor and without dropping anything, where
the expression may end, the preferred end first. `Finds` ties the two: from any cursors of an input,
the search finds what the function gives, up to later cursors at a place.

The lemmas follow the constructors of expressions. Sequences of expressions compose the functions,
alternatives put one list behind the other, and an optional part puts the cursor itself behind.
-/

namespace UrlPattern.Regex

namespace Cursor

/-- The cursor stands at its position of an input. -/
def At (input : List Char) (c : Cursor) : Prop :=
  c.pos ≤ input.length ∧ c.rest = input.drop c.pos

/-- The cursor behind so many further characters. -/
def skip : Nat → Cursor → Cursor
  | 0, c => c
  | n + 1, c =>
    match c.rest with
    | a :: rest => skip n (c.advance a rest)
    | [] => c

theorem skip_succ {c : Cursor} {a : Char} {rest : List Char} (h : c.rest = a :: rest) (n : Nat) :
    c.skip (n + 1) = (c.advance a rest).skip n := by
  rw [skip, h]

theorem skip_succ_of_nil {c : Cursor} (h : c.rest = []) (n : Nat) : c.skip (n + 1) = c := by
  rw [skip, h]

/-- Skipping leaves the groups and what they matched alone. -/
theorem skip_frame (n : Nat) (c : Cursor) :
    (c.skip n).opened = c.opened ∧ (c.skip n).captures = c.captures := by
  induction n generalizing c with
  | zero => exact ⟨rfl, rfl⟩
  | succ n ih =>
    cases h : c.rest with
    | nil => rw [skip_succ_of_nil h]; exact ⟨rfl, rfl⟩
    | cons a rest => rw [skip_succ h]; exact ih (c.advance a rest)

theorem rest_skip (n : Nat) (c : Cursor) : (c.skip n).rest = c.rest.drop n := by
  induction n generalizing c with
  | zero => rfl
  | succ n ih =>
    cases h : c.rest with
    | nil => rw [skip_succ_of_nil h, h, List.drop_nil]
    | cons a rest => rw [skip_succ h, ih, List.drop_succ_cons]; rfl

theorem pos_skip {n : Nat} {c : Cursor} (h : n ≤ c.rest.length) :
    (c.skip n).pos = c.pos + n := by
  induction n generalizing c with
  | zero => rfl
  | succ n ih =>
    cases hc : c.rest with
    | nil => rw [hc] at h; exact absurd h (Nat.not_succ_le_zero n)
    | cons a rest =>
      rw [hc, List.length_cons] at h
      have hpos : (c.advance a rest).pos = c.pos + 1 := rfl
      rw [skip_succ hc, ih (c := c.advance a rest) (Nat.le_of_succ_le_succ h), hpos]
      omega

theorem skip_add (m n : Nat) (c : Cursor) : c.skip (m + n) = (c.skip m).skip n := by
  induction m generalizing c with
  | zero => rw [Nat.zero_add]; rfl
  | succ m ih =>
    rw [Nat.add_right_comm]
    cases h : c.rest with
    | nil =>
      rw [skip_succ_of_nil h, skip_succ_of_nil h]
      cases n with
      | zero => rfl
      | succ n => rw [skip_succ_of_nil h]
    | cons a rest => rw [skip_succ h, skip_succ h, ih]

/-- How far the input goes on behind a cursor. -/
theorem At.length_rest {input : List Char} {c : Cursor} (h : c.At input) :
    c.rest.length + c.pos = input.length := by
  rw [h.2, List.length_drop]
  exact Nat.sub_add_cancel h.1

theorem At.skip {input : List Char} {c : Cursor} (h : c.At input) {n : Nat}
    (hn : n ≤ c.rest.length) : (c.skip n).At input := by
  have := h.length_rest
  refine ⟨by rw [pos_skip hn]; omega, ?_⟩
  rw [rest_skip, pos_skip hn, h.2, List.drop_drop]

/-- Cursors at one position have the same input before them. -/
theorem At.rest_eq {input : List Char} {c d : Cursor} (hc : c.At input) (hd : d.At input)
    (h : c.pos = d.pos) : c.rest = d.rest := by
  rw [hc.2, hd.2, h]

end Cursor

/-- What a function gives depends on the place of a cursor, up to what the cursor carries, and
belongs to the same input. -/
structure IsLocal (input : List Char) (F : Cursor → List Cursor) : Prop where
  at_input : ∀ c, c.At input → ∀ d ∈ F c, d.At input
  positions_eq : ∀ c d, c.At input → d.At input → c.pos = d.pos → positions (F c) = positions (F d)

/-- A search on lists of cursors finds, from each of them, what a function gives, up to later
cursors at a place. -/
structure Finds (input : List Char) (T : List Cursor → List Cursor) (F : Cursor → List Cursor) :
    Prop where
  isLocal : IsLocal input F
  at_input : ∀ cs, (∀ c ∈ cs, c.At input) → ∀ d ∈ T cs, d.At input
  firsts_eq : ∀ cs, (∀ c ∈ cs, c.At input) → firsts (T cs) = firsts (cs.flatMap F)

section

variable {input : List Char} {F G : Cursor → List Cursor} {T U : List Cursor → List Cursor}

/-- Dropping later cursors at a place first makes no difference to what is found from there. -/
theorem IsLocal.firsts_flatMap_firsts (hF : IsLocal input F) {cs : List Cursor}
    (h : ∀ c ∈ cs, c.At input) : firsts ((firsts cs).flatMap F) = firsts (cs.flatMap F) := by
  induction cs with
  | nil => rfl
  | cons c cs ih =>
    have hc := h c List.mem_cons_self
    have hcs : ∀ d ∈ cs, d.At input := fun d hd ↦ h d (List.mem_cons_of_mem _ hd)
    rw [firsts, List.flatMap_cons, List.flatMap_cons, firsts_append_flatMap_filter]
    · exact firsts_append_congr rfl (ih hcs)
    · intro d hd hpos
      rw [hF.positions_eq d c (hcs d (firsts_subset _ hd)) hc (by simpa using hpos)]
      exact List.Subset.refl _

/-- Equally good cursors lead to equally good results. -/
theorem IsLocal.firsts_flatMap_eq (hF : IsLocal input F) {cs ds : List Cursor}
    (hc : ∀ c ∈ cs, c.At input) (hd : ∀ d ∈ ds, d.At input) (h : firsts cs = firsts ds) :
    firsts (cs.flatMap F) = firsts (ds.flatMap F) := by
  rw [← hF.firsts_flatMap_firsts hc, h, hF.firsts_flatMap_firsts hd]

theorem IsLocal.at_flatMap (hF : IsLocal input F) {cs : List Cursor} (h : ∀ c ∈ cs, c.At input) :
    ∀ d ∈ cs.flatMap F, d.At input := by
  intro d hd
  obtain ⟨c, hc, hd⟩ := List.mem_flatMap.mp hd
  exact hF.at_input c (h c hc) d hd

theorem IsLocal.bind (hF : IsLocal input F) (hG : IsLocal input G) :
    IsLocal input fun c ↦ (F c).flatMap G where
  at_input c hc := hG.at_flatMap (hF.at_input c hc)
  positions_eq c d hc hd hpos := by
    have key : ∀ {cs ds : List Cursor}, (∀ e ∈ cs, e.At input) → (∀ e ∈ ds, e.At input) →
        positions cs = positions ds → positions (cs.flatMap G) = positions (ds.flatMap G) := by
      intro cs
      induction cs with
      | nil =>
        intro ds _ _ h
        rw [List.map_eq_nil_iff.mp h.symm]
      | cons e cs ih =>
        intro ds hcs hds h
        cases ds with
        | nil => simp [positions] at h
        | cons e' ds =>
          obtain ⟨he, h⟩ := List.cons.inj h
          rw [List.flatMap_cons, List.flatMap_cons, positions_append, positions_append,
            hG.positions_eq e e' (hcs e List.mem_cons_self) (hds e' List.mem_cons_self) he,
            ih (fun x hx ↦ hcs x (List.mem_cons_of_mem _ hx))
              (fun x hx ↦ hds x (List.mem_cons_of_mem _ hx)) h]
    exact key (hF.at_input c hc) (hF.at_input d hd) (hF.positions_eq c d hc hd hpos)

theorem IsLocal.append (hF : IsLocal input F) (hG : IsLocal input G) :
    IsLocal input fun c ↦ F c ++ G c where
  at_input c hc d hd :=
    (List.mem_append.mp hd).elim (hF.at_input c hc d) (hG.at_input c hc d)
  positions_eq c d hc hd hpos := by
    rw [positions_append, positions_append, hF.positions_eq c d hc hd hpos,
      hG.positions_eq c d hc hd hpos]

theorem IsLocal.self : IsLocal input fun c ↦ [c] where
  at_input c hc d hd := by rwa [List.mem_singleton.mp hd]
  positions_eq c d _ _ hpos := congrArg (fun pos ↦ [pos]) hpos

theorem IsLocal.congr (hF : IsLocal input F) (h : ∀ c, c.At input → F c = G c) :
    IsLocal input G where
  at_input c hc := h c hc ▸ hF.at_input c hc
  positions_eq c d hc hd hpos := by
    rw [← h c hc, ← h d hd]
    exact hF.positions_eq c d hc hd hpos

/-- A search that agrees with a function on the nose finds what it gives. -/
theorem IsLocal.finds (hF : IsLocal input F)
    (h : ∀ cs, (∀ c ∈ cs, c.At input) → T cs = cs.flatMap F) : Finds input T F where
  isLocal := hF
  at_input cs hcs := h cs hcs ▸ hF.at_flatMap hcs
  firsts_eq cs hcs := by rw [h cs hcs]

/-- A search that drops later cursors at a place finds what the function gives. -/
theorem IsLocal.finds_of_firsts (hF : IsLocal input F)
    (h : ∀ cs, (∀ c ∈ cs, c.At input) → T cs = firsts (cs.flatMap F)) : Finds input T F where
  isLocal := hF
  at_input cs hcs d hd := hF.at_flatMap hcs d (firsts_subset _ (h cs hcs ▸ hd))
  firsts_eq cs hcs := by rw [h cs hcs, firsts_firsts]

theorem Finds.congr (hT : Finds input T F) (h : ∀ c, c.At input → F c = G c) :
    Finds input T G where
  isLocal := hT.isLocal.congr h
  at_input := hT.at_input
  firsts_eq cs hcs := by
    rw [hT.firsts_eq cs hcs]
    exact firsts_flatMap_congr fun c hc ↦ by rw [h c (hcs c hc)]

/-- One search after the other. -/
theorem Finds.comp (hT : Finds input T F) (hU : Finds input U G) :
    Finds input (fun cs ↦ U (T cs)) fun c ↦ (F c).flatMap G where
  isLocal := hT.isLocal.bind hU.isLocal
  at_input cs hcs := hU.at_input _ (hT.at_input cs hcs)
  firsts_eq cs hcs := by
    rw [hU.firsts_eq _ (hT.at_input cs hcs),
      hU.isLocal.firsts_flatMap_eq (hT.at_input cs hcs) (hT.isLocal.at_flatMap hcs)
        (hT.firsts_eq cs hcs), List.flatMap_assoc]

/-- What a search finds from a single cursor. -/
theorem Finds.firsts_single (hT : Finds input T F) {c : Cursor} (hc : c.At input) :
    firsts (T [c]) = firsts (F c) := by
  rw [hT.firsts_eq [c] (by simpa using hc), List.flatMap_singleton]

end

/-! ### Single characters and the end of the input -/

theorem Cursor.step?_eq (p : Char → Bool) (c : Cursor) :
    c.step? p = if c.rest.head?.any p then some (c.skip 1) else none := by
  rw [step?]
  cases h : c.rest with
  | nil => rfl
  | cons a rest =>
    simp only [List.head?_cons, Option.any_some]
    rw [skip_succ h]
    rfl

/-- A search for one character that passes a test. -/
theorem finds_step (input : List Char) (p : Char → Bool) :
    Finds input (fun cs ↦ cs.filterMap (Cursor.step? p))
      fun c ↦ if c.rest.head?.any p then [c.skip 1] else [] := by
  have hle : ∀ c : Cursor, c.rest.head?.any p = true → 1 ≤ c.rest.length := fun c h ↦ by
    cases hr : c.rest with
    | nil => simp [hr] at h
    | cons a rest => simp
  refine IsLocal.finds ⟨fun c hc d hd ↦ ?_, fun c d hc hd hpos ↦ ?_⟩ fun cs _ ↦ ?_
  · split at hd
    · next h =>
      rw [List.mem_singleton.mp hd]
      exact hc.skip (hle c h)
    · simp at hd
  · rw [hc.rest_eq hd hpos]
    split
    · next h =>
      have h' := h
      rw [← hc.rest_eq hd hpos] at h'
      simp only [positions, List.map_cons, List.map_nil]
      rw [Cursor.pos_skip (hle d h), Cursor.pos_skip (hle c h'), hpos]
    · rfl
  · calc cs.filterMap (Cursor.step? p)
      _ = (cs.flatMap fun c ↦ [c]).filterMap (Cursor.step? p) := by rw [List.flatMap_singleton']
      _ = cs.flatMap fun c ↦ [c].filterMap (Cursor.step? p) := List.filterMap_flatMap
      _ = _ := congrArg (cs.flatMap ·) (funext fun c ↦ ?_)
    rw [List.filterMap_cons, Cursor.step?_eq]
    by_cases h : c.rest.head?.any p
    · rw [if_pos h, if_pos h]
      rfl
    · rw [if_neg h, if_neg h]
      rfl

/-- Going on from what passes a test and no other is keeping what passes. -/
theorem flatMap_keep {α : Type} (p : α → Bool) (l : List α) :
    (l.flatMap fun a ↦ if p a then [a] else []) = l.filter p := by
  induction l with
  | nil => rfl
  | cons a l ih =>
    rw [List.flatMap_cons, List.filter_cons, ih]
    split <;> rfl

/-- A search for the end of the input. -/
theorem finds_finish (input : List Char) :
    Finds input (ends .finish) fun c ↦ if c.rest.isEmpty then [c] else [] := by
  refine IsLocal.finds ⟨fun c hc d hd ↦ ?_, fun c d hc hd hpos ↦ ?_⟩ fun cs _ ↦ ?_
  · split at hd
    · rwa [List.mem_singleton.mp hd]
    · simp at hd
  · rw [hc.rest_eq hd hpos]
    split
    · exact congrArg (fun pos ↦ [pos]) hpos
    · rfl
  · exact (flatMap_keep (fun c : Cursor ↦ c.rest.isEmpty) cs).symm

/-! ### Rows of expressions -/

/-- Where several expressions in a row may end. -/
def endsAll (items : List Regex) (cs : List Cursor) : List Cursor :=
  items.foldl (fun cs r ↦ ends r cs) cs

theorem endsAll_append (items more : List Regex) (cs : List Cursor) :
    endsAll (items ++ more) cs = endsAll more (endsAll items cs) := List.foldl_append

/-- A sequence, whose parts come the last first, ends where its parts in a row do. -/
theorem ends_sequence (items : List Regex) (cs : List Cursor) :
    ends (Reader.sequence items.reverse) cs = endsAll items cs := by
  have key : ∀ parts : List Regex, ends (Reader.sequence parts) cs = parts.foldr ends cs := by
    intro parts
    induction parts with
    | nil => rw [Reader.sequence, ends, List.foldr_nil]
    | cons r parts ih =>
      cases parts with
      | nil => rfl
      | cons r' parts =>
        have hcat : Reader.sequence (r :: r' :: parts)
            = cat (Reader.sequence (r' :: parts)) r := rfl
        rw [hcat, ends, ih]
        rfl
  rw [key, List.foldr_reverse, endsAll]

theorem finds_nil (input : List Char) : Finds input (endsAll []) fun c ↦ [c] :=
  IsLocal.self.finds fun cs _ ↦ (List.flatMap_singleton' cs).symm

theorem Finds.single {input : List Char} {r : Regex} {F : Cursor → List Cursor}
    (hr : Finds input (ends r) F) : Finds input (endsAll [r]) F := hr

/-- Rows of expressions one after the other. -/
theorem Finds.append {input : List Char} {items more : List Regex} {F G : Cursor → List Cursor}
    (h : Finds input (endsAll items) F) (h' : Finds input (endsAll more) G) :
    Finds input (endsAll (items ++ more)) fun c ↦ (F c).flatMap G := by
  have heq : endsAll (items ++ more) = fun cs ↦ endsAll more (endsAll items cs) :=
    funext fun cs ↦ endsAll_append items more cs
  rw [heq]
  exact h.comp h'

/-! ### Alternatives and groups -/

theorem finds_alt {input : List Char} {a b : Regex} {F G : Cursor → List Cursor}
    (ha : Finds input (ends a) F) (hb : Finds input (ends b) G) :
    Finds input (ends (alt a b)) fun c ↦ F c ++ G c := by
  refine (ha.isLocal.append hb.isLocal).finds_of_firsts fun cs hcs ↦ ?_
  rw [ends, distinct_eq_firsts]
  exact firsts_flatMap_congr fun c hc ↦
    firsts_append_congr (ha.firsts_single (hcs c hc)) (hb.firsts_single (hcs c hc))

theorem Cursor.closeGroup_place (name : String) (c : Cursor) :
    (c.closeGroup name).pos = c.pos ∧ (c.closeGroup name).rest = c.rest := by
  rw [closeGroup]
  split <;> exact ⟨rfl, rfl⟩

/-- A group with a name finds what its content finds, and notes what lies between. -/
theorem finds_group {input : List Char} {r : Regex} {F : Cursor → List Cursor}
    (hr : Finds input (ends r) F) (name : String) :
    Finds input (ends (group (some name) r))
      fun c ↦ (F c.openGroup).map (Cursor.closeGroup name) := by
  have hpos : ∀ c, (Cursor.closeGroup name c).pos = c.pos := fun c ↦ (c.closeGroup_place name).1
  have hopen : ∀ {c : Cursor}, c.At input → c.openGroup.At input := id
  have hclose : ∀ {cs : List Cursor}, (∀ c ∈ cs, c.At input) →
      ∀ d ∈ cs.map (Cursor.closeGroup name), d.At input := by
    intro cs h d hd
    obtain ⟨c, hc, rfl⟩ := List.mem_map.mp hd
    rw [Cursor.At, hpos, (c.closeGroup_place name).2]
    exact h c hc
  have hmap : ∀ {cs : List Cursor}, (∀ c ∈ cs, c.At input) →
      ∀ d ∈ cs.map Cursor.openGroup, d.At input := by
    intro cs h d hd
    obtain ⟨c, hc, rfl⟩ := List.mem_map.mp hd
    exact hopen (h c hc)
  refine ⟨⟨fun c hc ↦ hclose (hr.isLocal.at_input _ (hopen hc)), fun c d hc hd h ↦ ?_⟩,
    fun cs hcs ↦ hclose (hr.at_input _ (hmap hcs)), fun cs hcs ↦ ?_⟩
  · have := hr.isLocal.positions_eq _ _ (hopen hc) (hopen hd) h
    simpa only [positions, List.map_map, Function.comp_def, hpos] using this
  · rw [ends, firsts_map _ hpos, hr.firsts_eq _ (hmap hcs), ← firsts_map _ hpos, List.map_flatMap,
      List.flatMap_map]

/-! ### Optional parts -/

private theorem follow_single (c : Cursor) (ds : List Cursor) :
    follow c ds ((ds.filter fun d ↦ c.pos < d.pos).map fun d ↦ [d]) = ds := by
  induction ds with
  | nil => rfl
  | cons d ds ih =>
    by_cases h : c.pos < d.pos
    · rw [List.filter_cons_of_pos (by simpa using h), List.map_cons, follow.eq_def]
      simp only [h, if_true, ih]
      rfl
    · rw [List.filter_cons_of_neg (by simpa using h), follow.eq_def]
      simp only [h, if_false, ih]

private theorem followAll_single (cs : List Cursor) (rows : List (List Cursor)) :
    followAll true cs rows
        (((cs.zip rows).flatMap fun e ↦ e.2.filter (e.1.pos < ·.pos)).map fun d ↦ [d])
      = List.zipWith (fun c row ↦ row ++ [c]) cs rows := by
  induction cs generalizing rows with
  | nil => rfl
  | cons c cs ih =>
    cases rows with
    | nil => rfl
    | cons row rows =>
      rw [followAll, List.zip_cons_cons, List.flatMap_cons, List.map_append, List.zipWith_cons_cons,
        ← ih]
      rw [List.take_left' (List.length_map ..), List.drop_left' (List.length_map ..), follow_single]
      rfl

private theorem upTo_one (copy : List Cursor → List Cursor) (cs : List Cursor) :
    upTo copy true 1 cs
      = distinctRows (.empty (leastPos cs)) (List.zipWith (fun c row ↦ row ++ [c]) cs
          (distinctRows (.empty (leastPos cs)) (cs.map fun c ↦ copy [c]))) := by
  simp only [upTo]
  rw [← followAll_single]
  split
  · next h => rw [List.isEmpty_iff.mp h]; rfl
  · rfl

private theorem firsts_append_filter {ds : List Cursor} {seen : Positions}
    (h : ∀ pos, seen.has pos = true → pos ∈ positions ds) (cs : List Cursor) :
    firsts (ds ++ (firsts cs).filter fun c ↦ !seen.has c.pos) = firsts (ds ++ cs) := by
  rw [firsts_append, firsts_append, firsts_filter_pos (fun pos ↦ !seen.has pos), firsts_firsts,
    List.filter_filter]
  congr 1
  refine List.filter_congr fun c _ ↦ ?_
  by_cases hc : c.pos ∈ positions ds
  · simp [hc]
  · have : seen.has c.pos = false := Bool.eq_false_iff.mpr fun hs ↦ hc (h _ hs)
    simp [this]

private theorem firsts_zipWith_distinctRows (cs : List Cursor) (rows : List (List Cursor))
    {ds : List Cursor} {seen : Positions} (h : ∀ pos, seen.has pos = true → pos ∈ positions ds) :
    firsts (ds ++ (List.zipWith (fun c row ↦ row ++ [c]) cs (distinctRows seen rows)).flatten)
      = firsts (ds ++ (List.zipWith (fun c row ↦ row ++ [c]) cs rows).flatten) := by
  induction rows generalizing cs ds seen with
  | nil => rfl
  | cons row rows ih =>
    cases cs with
    | nil => rfl
    | cons c cs =>
      have hrow : (row.foldl Found.add ⟨seen, []⟩).toList
          = (firsts row).filter fun c ↦ !seen.has c.pos := Found.toList_foldl_add row ⟨seen, []⟩
      have hsame := firsts_append_filter h row
      have hnext : ∀ pos, (row.foldl Found.add ⟨seen, []⟩).seen.has pos = true →
          pos ∈ positions (ds ++ ((firsts row).filter fun c ↦ !seen.has c.pos) ++ [c]) := by
        intro pos hp
        have hp := (Found.has_foldl_add row ⟨seen, []⟩ pos).symm.trans hp
        rw [positions_append, List.mem_append, mem_positions_of_firsts_eq hsame, positions_append,
          List.mem_append]
        rcases Bool.or_eq_true _ _ ▸ hp with hp | hp
        · exact .inl (.inr (by simpa using hp))
        · exact .inl (.inl (h pos hp))
      rw [distinctRows, List.zipWith_cons_cons, List.zipWith_cons_cons, List.flatten_cons,
        List.flatten_cons, hrow, ← List.append_assoc, ← List.append_assoc, ← List.append_assoc,
        ← List.append_assoc, ih cs hnext]
      exact firsts_append_congr (firsts_append_congr hsame rfl) rfl

/-- An expression that may be left out finds what it finds when it is there, and then the place
where it would begin. -/
theorem finds_optional {input : List Char} {r : Regex} {F : Cursor → List Cursor}
    (hr : Finds input (ends r) F) :
    Finds input (ends (rep (group none r) 0 (some 1) true)) fun c ↦ F c ++ [c] := by
  refine (hr.isLocal.append .self).finds_of_firsts fun cs hcs ↦ ?_
  have hleast : leastCopies (group none r) 0 = 0 := by simp [leastCopies]
  have hmost : mostCopies (group none r) (some 1) = some 1 := by
    rw [mostCopies]
    split <;> rfl
  have hnone : ∀ pos, (Positions.empty (leastPos cs)).has pos = true → pos ∈ positions [] :=
    fun pos h ↦ by simp [Positions.has_empty] at h
  calc ends (rep (group none r) 0 (some 1) true) cs
    _ = distinct (upTo (ends r) true 1 cs).flatten := by
      rw [ends]
      simp only [single?]
      rw [hleast, hmost]
      rfl
    _ = firsts (List.zipWith (fun c row ↦ row ++ [c]) cs
          (cs.map fun c ↦ ends r [c])).flatten := by
      rw [distinct_eq_firsts, upTo_one, flatten_distinctRows]
      simp only [Positions.has_empty, Bool.not_false, List.filter_eq_self.mpr fun _ _ ↦ rfl]
      rw [firsts_firsts]
      exact firsts_zipWith_distinctRows cs (cs.map fun c ↦ ends r [c]) hnone
    _ = firsts (cs.flatMap fun c ↦ ends r [c] ++ [c]) := by
      rw [List.zipWith_map_right, List.zipWith_self, List.flatMap_def]
    _ = firsts (cs.flatMap fun c ↦ F c ++ [c]) :=
      firsts_flatMap_congr fun c hc ↦ firsts_append_congr (hr.firsts_single (hcs c hc)) rfl

end UrlPattern.Regex
