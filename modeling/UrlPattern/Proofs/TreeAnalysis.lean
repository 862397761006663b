import UrlPattern.Proofs.AcceptedRuns

/-!
# Analyses of trees

An analysis of a tree is put together from those of its groups and literals. A relation between
analyses and texts that every step of this keeps (`Analysis.IsKept`) holds of the tree and each of
its texts, if it holds of the groups and what these take of the text (`Node.analysis_of_kept`). So
each bound on the texts of trees is shown for groups alone.

Specification: `SPEC_FULL.md` §4.8 (lines 71–72).
-/

namespace UrlPattern

/-- A relation between analyses and texts that is kept when analyses are put together: it holds of
literals, follows the texts one behind the other, and knows that a text may be left out. -/
structure Analysis.IsKept (options : AnalysisOptions) (P : Analysis → List Char → Prop) : Prop where
  empty : P .empty []
  literal : ∀ text, P (.ofText options.ceiling text) text.toList
  followedBy : ∀ {a b s t}, P a s → P b t → P (a.followedBy options.ceiling b) (s ++ t)
  absent : ∀ a : Analysis, P a.madeOptional []
  present : ∀ {a t}, P a t → P a.madeOptional t

namespace Node

variable {options : AnalysisOptions} {P : Analysis → List Char → Prop}

mutual

/-- What holds of the groups and their parts of a text holds of the tree and the text. -/
theorem analysis_of_kept (hP : Analysis.IsKept options P) {n : Node} {d : Division}
    (h : n.Divides d) (hgroups : ∀ g t, .group g t ∈ d → P (g.analysis options) t) :
    P (n.analysis options) d.text := by
  cases n with
  | literal text tag =>
    rw [Divides] at h
    rw [h, analysis, Division.text_cons, Division.text_nil, List.append_nil]
    exact hP.literal text
  | group g =>
    obtain ⟨t, -, rfl⟩ := h
    rw [analysis, Division.text_cons, Division.text_nil, List.append_nil]
    exact hgroups g t List.mem_cons_self
  | sequence children tag =>
    rw [Divides] at h
    exact analysisFrom_of_kept hP h hgroups hP.empty
  | optional children tag =>
    rw [Divides] at h
    rw [analysis]
    rcases h with ⟨e, he, rfl⟩ | rfl
    · have hthere := fun g t hin ↦ hgroups g t (List.mem_cons_of_mem _ hin)
      exact hP.present (analysisFrom_of_kept hP he hthere hP.empty)
    · exact hP.absent _

/-- The same of several trees that follow an analyzed text. -/
theorem analysisFrom_of_kept (hP : Analysis.IsKept options P) {ns : List Node} {d : Division}
    (h : DividesAll ns d) (hgroups : ∀ g t, .group g t ∈ d → P (g.analysis options) t)
    {before : Analysis} {s : List Char} (hbefore : P before s) :
    P (analysisFrom options before ns) (s ++ d.text) := by
  cases ns with
  | nil =>
    rw [DividesAll] at h
    rw [h, analysisFrom, Division.text_nil, List.append_nil]
    exact hbefore
  | cons n ns =>
    rw [DividesAll] at h
    obtain ⟨d₁, d₂, hd₁, hd₂, rfl⟩ := h
    have hfirst := analysis_of_kept hP hd₁ fun g t hin ↦
      hgroups g t (List.mem_append_left _ hin)
    rw [analysisFrom, Division.text_append, ← List.append_assoc]
    exact analysisFrom_of_kept hP hd₂ (fun g t hin ↦ hgroups g t (List.mem_append_right _ hin))
      (hP.followedBy hbefore hfirst)

end

end Node

/-- A relation that is kept, and that holds of the groups and the texts that they accept, holds of a
pattern and the inputs that it matches without errors. -/
theorem Pattern.IsDerived.analysis_of_match? {p : Pattern} (h : p.IsDerived)
    {options : AnalysisOptions} {P : Analysis → List Char → Prop}
    (hP : Analysis.IsKept options P)
    (hgroups : ∀ g ∈ p.tree.groups, ∀ t, g.Spells t.toList → g.accepts t = true →
      P (g.analysis options) t.toList)
    {s : String} {r : MatchResult} (hmatch : p.match? s = some r) (herrors : r.errors = []) :
    P (p.tree.analysis options) s.toList := by
  obtain ⟨d, hdivides, htext, haccepted⟩ := h.exists_accepted_division hmatch herrors
  rw [← htext]
  refine Node.analysis_of_kept hP hdivides fun g t hin ↦ ?_
  obtain ⟨hg, hspells, haccept⟩ := haccepted g t hin
  rw [← String.toList_ofList (l := t)] at hspells ⊢
  exact hgroups g hg _ hspells haccept

end UrlPattern
