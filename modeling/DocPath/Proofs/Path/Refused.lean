import DocPath.Proofs.Path.Accepted

/-!
Which path texts are refused, and what is reported then: the first token that is no segment, as it
stands in the text.
-/

namespace DocPath

theorem Token.EndsBefore.of_append {t : Token} {rest more : List Char}
    (h : t.EndsBefore (rest ++ more)) : t.EndsBefore rest := by
  cases t with
  | word w =>
    rintro c after rfl
    obtain ⟨hc, hclosed⟩ := h c (after ++ more) rfl
    exact ⟨hc, fun hb hm => hclosed hb (List.mem_append_left more hm)⟩
  | bracketed w content => trivial

/-- The text in front of a token and the text behind it are cut as they are in the whole text. -/
theorem Cut.exists_text_eq {d : Cut} (hd : d.Valid) {t : Token} {xs ys : List Token}
    (h : d.tokens = xs ++ t :: ys) :
    ∃ before after, d.text = before ++ (t.text ++ after) ∧ Token.scan before = xs ∧
      Token.scan after = ys := by
  induction d generalizing xs with
  | last gap => simp [tokens] at h
  | more gap token rest ih =>
    obtain ⟨hg, ht, he, hrest⟩ := hd
    cases xs with
    | nil =>
      obtain ⟨rfl, rfl⟩ := List.cons.inj h
      exact ⟨gap, rest.text, rfl, Token.scan_gap hg, scan_text hrest⟩
    | cons x xs =>
      obtain ⟨rfl, htokens⟩ := List.cons.inj h
      obtain ⟨before, after, htext, rfl, hafter⟩ := ih hrest htokens
      refine ⟨gap ++ (token.text ++ before), after, ?_, ?_, hafter⟩
      · rw [text, htext, List.append_assoc, List.append_assoc]
      · rw [htext] at he
        rw [Token.scan_gap_append hg, Token.scan_token_append ht he.of_append]

/-- Between the texts `before` and `after` stands the first token of a text that is no segment. -/
structure FirstRefused (cs before : List Char) (t : Token) (after : List Char) : Prop where
  text_eq : cs = before ++ (t.text ++ after)
  scan_eq : Token.scan cs = Token.scan before ++ t :: Token.scan after
  accepted : ∀ s ∈ Token.scan before, s.Accepted
  not_accepted : ¬t.Accepted

theorem exists_firstRefused {cs : List Char} (h : ¬∀ t ∈ Token.scan cs, t.Accepted) :
    ∃ before t after, FirstRefused cs before t after := by
  obtain ⟨xs, t, ys, hscan, hxs, ht⟩ := exists_first_not h
  obtain ⟨d, hd, rfl⟩ := Cut.exists_valid cs
  have htokens := (Cut.scan_text hd).symm.trans hscan
  obtain ⟨before, after, htext, rfl, rfl⟩ := Cut.exists_text_eq hd htokens
  exact ⟨before, t, after, htext, hscan, hxs, ht⟩

theorem FirstRefused.exists_bracketed {cs before after : List Char} {t : Token}
    (h : FirstRefused cs before t after) : ∃ w content, t = .bracketed w content := by
  cases t with
  | word w => exact absurd trivial h.not_accepted
  | bracketed w content => exact ⟨w, content, rfl⟩

theorem FirstRefused.ofChars_eq {cs before after : List Char} {t : Token}
    (h : FirstRefused cs before t after) :
    Path.ofChars cs = .error (.malformed (String.ofList t.text)) := by
  have hne : cs ≠ [] := by
    rintro rfl
    simpa using h.scan_eq
  rw [Path.ofChars_of_ne_nil hne, h.scan_eq]
  have hok : ∀ s ∈ Token.scan before, ∃ z, Segment.ofToken s = .ok z :=
    fun s hs => ⟨_, ofToken_of_accepted (h.accepted s hs)⟩
  exact mapM_append_of_error hok (ofToken_of_not_accepted h.not_accepted)

theorem exists_ofChars_eq_ok {cs : List Char} (hne : cs ≠ [])
    (h : ∀ t ∈ Token.scan cs, t.Accepted) : ∃ p, Path.ofChars cs = .ok p :=
  ⟨_, (ofChars_eq_ok_iff hne).mpr ⟨h, rfl⟩⟩

/-- A text is refused because it is empty, or because of its first token that is no segment. -/
theorem ofChars_eq_error_iff {cs : List Char} {e : PathFailure} :
    Path.ofChars cs = .error e ↔
      (cs = [] ∧ e = .emptyPath) ∨
        ∃ before t after, FirstRefused cs before t after ∧
          e = .malformed (String.ofList t.text) := by
  constructor
  · intro h
    by_cases hne : cs = []
    · rw [hne, Path.ofChars_nil] at h
      exact Or.inl ⟨hne, (Except.error.inj h).symm⟩
    · by_cases hall : ∀ t ∈ Token.scan cs, t.Accepted
      · obtain ⟨p, hp⟩ := exists_ofChars_eq_ok hne hall
        rw [hp] at h
        contradiction
      · obtain ⟨before, t, after, ht⟩ := exists_firstRefused hall
        rw [ht.ofChars_eq] at h
        exact Or.inr ⟨before, t, after, ht, (Except.error.inj h).symm⟩
  · rintro (⟨rfl, rfl⟩ | ⟨before, t, after, ht, rfl⟩)
    · exact Path.ofChars_nil
    · exact ht.ofChars_eq

end DocPath
