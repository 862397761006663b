import UrlPattern.Proofs.SectionSteps

/-!
# Where errors point

An error of reading names the whole pattern and the place of the brace or parenthesis that opens the
group or section at fault, counted in bytes from the start of the pattern (`Node.byte_of_read`).

Inside a section the reader knows the offset of its part of the pattern, and an error may be found
by the search for the end of a section before the reader comes there. In each case the place lies in
the text at hand, as far from its start as the offset says (`Node.Opens`), so it stays the place of
the same character in every text around.

Specification: `SPEC_FULL.md` §4.4 (lines 57–58) and §7 (lines 90–91).
-/

namespace UrlPattern

/-- What opens the group or section that an error is about. -/
def ParseErrorKind.opener? : ParseErrorKind → Option Char
  | emptyPattern => none
  | unterminatedSection => some '('
  | unterminatedGroup | unterminatedQuote | invalidGroup _ | invalidConstraint _ => some '\x7b'

namespace Node

/-- In a text that starts at an offset, the character at a place opens what the error is about. -/
def Opens (offset : Nat) (cs : List Char) (place : Nat) (kind : ParseErrorKind) : Prop :=
  ∃ front c back, cs = front ++ c :: back ∧ place = offset + Text.byteLength front ∧
    kind.opener? = some c

namespace Opens

variable {offset place : Nat} {cs : List Char} {kind : ParseErrorKind}

/-- The place is the same with more text in front. -/
theorem behind (front : List Char) (h : Opens (offset + Text.byteLength front) cs place kind) :
    Opens offset (front ++ cs) place kind := by
  obtain ⟨front', c, back, rfl, rfl, hc⟩ := h
  refine ⟨front ++ front', c, back, (List.append_assoc ..).symm, ?_, hc⟩
  rw [Text.byteLength_append, Nat.add_assoc]

/-- The place is the same with more text behind. -/
theorem before (h : Opens offset cs place kind) (behind : List Char) :
    Opens offset (cs ++ behind) place kind := by
  obtain ⟨front, c, back, rfl, hplace, hc⟩ := h
  exact ⟨front, c, back ++ behind, List.append_assoc .., hplace, hc⟩

/-- The text may start with the place. -/
theorem head {c : Char} (hc : kind.opener? = some c) : Opens offset (c :: cs) offset kind :=
  ⟨[], c, cs, rfl, rfl, hc⟩

/-- The place lies within the text, and its byte is the character. -/
theorem getElem?_utf8 (h : Opens 0 cs place kind) :
    (Text.utf8 cs)[place]? = kind.opener?.map Char.toUInt8 := by
  obtain ⟨front, c, back, rfl, rfl, hc⟩ := h
  have hbyte : String.utf8EncodeChar c = [c.toUInt8] := by
    cases kind <;> cases hc <;> decide
  have hcons : Text.utf8 (c :: back) = c.toUInt8 :: Text.utf8 back :=
    congrArg (· ++ Text.utf8 back) hbyte
  rw [Text.utf8_append, hcons, Nat.zero_add, ← Text.length_utf8, List.getElem?_append_right
    (Nat.le_refl _), Nat.sub_self, hc]
  rfl

end Opens

/-! ### The searches -/

private theorem map_eq_error {ε α β : Type} {f : α → β} {r : Except ε α} {e : ε} :
    r.map f = .error e ↔ r = .error e := by
  cases r <;> simp [Except.map]

/-- A group that is not closed is said to be one, or to have an open quote. -/
theorem opener?_of_splitGroup {inQuotes : Bool} {cs : List Char} {kind : ParseErrorKind}
    (h : splitGroup inQuotes cs = .error kind) : kind.opener? = some '\x7b' := by
  fun_induction splitGroup inQuotes cs with
  | case1 inQuotes =>
    cases h
    cases inQuotes <;> rfl
  | case2 c cs ih => exact ih (map_eq_error.mp h)
  | case3 inQuotes cs ih => exact ih (map_eq_error.mp h)
  | case4 cs => cases h
  | case5 inQuotes c cs _ _ _ ih => exact ih (map_eq_error.mp h)

/-- The search for the end of a section fails at the section itself, or at a group in it. -/
theorem opens_of_splitSection {opener offset depth : Nat} {cs : List Char} {fault : ParseFault}
    (h : splitSection opener offset depth cs = .error fault) :
    fault = ⟨opener, .unterminatedSection⟩ ∨ Opens offset cs fault.offset fault.kind := by
  fun_induction splitSection opener offset depth cs with
  | case1 =>
    cases h
    exact .inl rfl
  | case2 offset depth rest kind hsplit =>
    cases h
    exact .inr (.head (opener?_of_splitGroup hsplit))
  | case3 offset depth rest content after hsplit ih =>
    refine (ih (map_eq_error.mp h)).imp_right fun hopens ↦ ?_
    have hrest : '\x7b' :: rest = ('\x7b' :: content ++ ['\x7d']) ++ after := by
      rw [eq_of_splitGroup hsplit]
      simp
    have hbytes : Text.byteLength ('\x7b' :: content ++ ['\x7d'])
        = 1 + Text.byteLength content + 1 := by
      rw [Text.byteLength_append]
      rfl
    rw [hrest]
    apply Opens.behind
    rwa [hbytes, ← Nat.add_assoc, ← Nat.add_assoc]
  | case4 offset depth rest _ ih =>
    exact (ih (map_eq_error.mp h)).imp_right fun hopens ↦ .behind ['('] hopens
  | case5 => cases h
  | case6 offset depth rest _ _ _ ih =>
    exact (ih (map_eq_error.mp h)).imp_right fun hopens ↦ .behind [')'] hopens
  | case7 offset depth c rest _ _ _ ih =>
    exact (ih (map_eq_error.mp h)).imp_right fun hopens ↦ .behind [c] hopens

/-! ### The reader -/

/-- A group that cannot be read fails at its brace. -/
theorem opener?_of_readGroup {pattern : String} {types : TypeRegistry} {offset next last : Nat}
    {content : List Char} {e : ParseError}
    (h : readGroup pattern types offset content next = .error (.parse e) last) :
    e.pattern = pattern ∧ e.offset = offset ∧ e.kind.opener? = some '\x7b' := by
  cases groupError_of_readGroup h with
  | header | entry | openQuote => exact ⟨rfl, rfl, rfl⟩

/-- Reading a part of a pattern fails at a place of this part, however deep in it. -/
theorem opens_of_readElements {pattern : String} {types : TypeRegistry} {offset next last : Nat}
    {cs : List Char} {e : ParseError}
    (h : readElements pattern types offset cs next = .error (.parse e) last) :
    e.pattern = pattern ∧ Opens offset cs e.offset e.kind := by
  obtain ⟨ns, q, hreach, hfails⟩ :=
    Place.exists_fails_of_readElements (p := ⟨offset, cs, next⟩) h
  obtain ⟨front, hrest, hoffset, -⟩ := hreach.exists_front
  dsimp only at hrest hoffset
  suffices hq : e.pattern = pattern ∧ Opens q.offset q.rest e.offset e.kind by
    rw [hoffset] at hq
    rw [hrest]
    exact ⟨hq.1, hq.2.behind front⟩
  cases hfails with
  | unclosedGroup hsplit => exact ⟨rfl, .head (opener?_of_splitGroup hsplit)⟩
  | group hsplit hread =>
    obtain ⟨hpattern, hplace, hopener⟩ := opener?_of_readGroup hread
    exact ⟨hpattern, hplace ▸ .head hopener⟩
  | unclosedSection hsplit =>
    obtain hfault | hopens := opens_of_splitSection hsplit
    · subst hfault
      exact ⟨rfl, .head rfl⟩
    · exact ⟨rfl, .behind ['('] hopens⟩
  | @«section» _ _ _ _ inside behind _ hsplit hread =>
    obtain rfl := eq_of_splitSection hsplit
    have hlength : inside.length < cs.length := by
      rw [hrest]
      simp only [List.length_append, List.length_cons]
      omega
    obtain ⟨hpattern, hopens⟩ := opens_of_readElements hread
    exact ⟨hpattern, .behind ['('] (hopens.before _)⟩
termination_by cs.length

/-- A pattern read alone fails as it does with its groups numbered from one on. -/
theorem parse_eq_error_iff {source : String} {types : TypeRegistry} {e : PatternError} :
    parse source types = .error e ↔ ∃ last, read source types 1 = .error e last := by
  rw [parse]
  cases read source types 1 <;> simp

/-- An error of reading names the whole pattern and a place within it, where a parenthesis opens the
section that is not closed, or a brace the group that is not closed or cannot be read.
`SPEC_FULL.md:91`. -/
theorem byte_of_read {source : String} {types : TypeRegistry} {next last : Nat} {e : ParseError}
    (h : read source types next = .error (.parse e) last) (hkind : e.kind ≠ .emptyPattern) :
    e.pattern = source ∧ e.offset < source.utf8ByteSize ∧
      (Text.utf8 source.toList)[e.offset]?
        = some (if e.kind = .unterminatedSection then '(' else '\x7b').toUInt8 := by
  rw [read] at h
  split at h
  · cases h
    exact absurd rfl hkind
  obtain hread | ⟨children, middle, -, hdone⟩ := parse_bind_eq_error h
  · obtain ⟨hpattern, hopens⟩ := opens_of_readElements hread
    have hbyte : (Text.utf8 source.toList)[e.offset]?
        = some (if e.kind = .unterminatedSection then '(' else '\x7b').toUInt8 := by
      rw [hopens.getElem?_utf8]
      cases hk : e.kind with
      | emptyPattern => exact absurd hk hkind
      | unterminatedGroup | unterminatedSection | unterminatedQuote => rfl
      | invalidGroup content => rfl
      | invalidConstraint key => rfl
    refine ⟨hpattern, ?_, hbyte⟩
    obtain ⟨hlt, -⟩ := List.getElem?_eq_some_iff.mp hbyte
    rwa [Text.length_utf8, Text.byteLength_toList] at hlt
  · cases hdone

/-- A key that is repeated in a group of an inner section, behind a character of two bytes. -/
theorem byte_of_read_nested :
    ∃ e last, read "é(a(b\x7bn:int(min=1,min=2)\x7d))" .builtin 1 = .error (.parse e) last ∧
      e.kind = .invalidConstraint "min" ∧ e.pattern = "é(a(b\x7bn:int(min=1,min=2)\x7d))" ∧
      e.offset < "é(a(b\x7bn:int(min=1,min=2)\x7d))".utf8ByteSize ∧
      (Text.utf8 "é(a(b\x7bn:int(min=1,min=2)\x7d))".toList)[e.offset]? = some 123 := by
  have herror : (parse "é(a(b\x7bn:int(min=1,min=2)\x7d))" .builtin).map (fun _ ↦ ())
      = .error (.parse ⟨"é(a(b\x7bn:int(min=1,min=2)\x7d))", 6, .invalidConstraint "min"⟩) := by
    decide +kernel
  obtain ⟨last, hread⟩ := parse_eq_error_iff.mp (map_eq_error.mp herror)
  obtain ⟨hpattern, hlt, hbyte⟩ := byte_of_read hread (by decide)
  exact ⟨_, last, hread, rfl, hpattern, hlt, hbyte⟩

end Node

end UrlPattern
