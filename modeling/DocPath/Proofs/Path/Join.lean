import DocPath.Proofs.Path.Refused
import Mathlib

/-!
Texts put one behind the other. If no word of the first text goes on in the second one, the tokens
of the second follow those of the first, and so do the segments and the failures. Separators between
them see to that, unless a bracket of the second text closes a group of the first.
-/

namespace DocPath

/-- Every word that ends somewhere in the first text also ends there in front of the second one. -/
def Apart (cs rest : List Char) : Prop :=
  ∀ w after, IsRun w → w ++ after <:+ cs → (Token.word w).EndsBefore after →
    (Token.word w).EndsBefore (after ++ rest)

/-- Every bracket that opens directly behind a word is followed by a closing one. -/
def ClosesBrackets (cs : List Char) : Prop :=
  ∀ front c after, cs = front ++ c :: '[' :: after → isWord c → ']' ∈ after

/-- The characters are neither word characters nor brackets. -/
def IsSeparator (sep : List Char) : Prop :=
  ∀ c ∈ sep, isWord c = false ∧ c ≠ '[' ∧ c ≠ ']'

section Apart

variable {cs rest : List Char}

theorem Apart.of_suffix {tail : List Char} (h : Apart cs rest) (htail : tail <:+ cs) :
    Apart tail rest :=
  fun w after hw hafter => h w after hw (hafter.trans htail)

theorem Apart.endsBefore {t : Token} {after : List Char} (h : Apart cs rest) (ht : t.Proper)
    (hafter : t.text ++ after <:+ cs) (he : t.EndsBefore after) : t.EndsBefore (after ++ rest) := by
  cases t with
  | word w => exact h w after ht hafter he
  | bracketed w content => trivial

theorem ClosesBrackets.mem_of_run {w after : List Char} (h : ClosesBrackets cs) (hw : IsRun w)
    (hafter : w ++ '[' :: after <:+ cs) : ']' ∈ after := by
  obtain ⟨before, hbefore⟩ := hafter
  obtain ⟨front, c, rfl⟩ : ∃ front c, w = front ++ [c] :=
    ⟨_, _, (List.dropLast_concat_getLast hw.1).symm⟩
  apply h (before ++ front) c after
  · rw [← hbefore]
    simp
  · exact hw.2 c (List.mem_append_right _ List.mem_cons_self)

theorem closesBrackets_append_close (cs : List Char) : ClosesBrackets (cs ++ [']']) := by
  intro front c after h _
  have hlast := congrArg List.getLast? h
  cases after with
  | nil => simp at hlast
  | cons d after => exact List.mem_of_getLast? (by simpa [List.getLast?_append] using hlast.symm)

/-- A separator ends every word. A bracket behind it closes no group of the first text that is open
there, for all are closed or there is no such bracket. -/
theorem apart_of_separator {c : Char} (hc : isWord c = false) (hopen : c ≠ '[')
    (hclose : ClosesBrackets cs ∨ ']' ∉ c :: rest) : Apart cs (c :: rest) := by
  intro w after hw hafter he
  cases after with
  | nil => exact (Token.word w).endsBefore_cons hc hopen rest
  | cons d after =>
    rintro d' after' h
    obtain ⟨rfl, rfl⟩ := List.cons.inj h
    obtain ⟨hd, hnot⟩ := he d after rfl
    refine ⟨hd, ?_⟩
    rintro rfl hm
    rcases hclose with hcloses | hclose
    · exact hnot rfl (hcloses.mem_of_run hw hafter)
    · rcases List.mem_append.mp hm with hm | hm
      · exact hnot rfl hm
      · exact hclose hm

/-- What follows a closing bracket belongs to no token in front of it, for that bracket closes every
group that is open. -/
theorem apart_of_close (cs rest : List Char) : Apart (cs ++ [']']) rest := by
  intro w after hw hafter he
  cases after with
  | nil =>
    obtain ⟨before, hbefore⟩ := hafter
    rw [List.append_nil] at hbefore
    have hlast : w.getLast? = some ']' := by
      have := congrArg List.getLast? hbefore
      simpa [List.getLast?_append, hw.1] using this
    exact absurd (hw.2 ']' (List.mem_of_getLast? hlast)) (by decide)
  | cons d after =>
    rintro d' after' h
    obtain ⟨rfl, rfl⟩ := List.cons.inj h
    obtain ⟨hd, hnot⟩ := he d after rfl
    refine ⟨hd, ?_⟩
    rintro rfl
    exact absurd ((closesBrackets_append_close cs).mem_of_run hw hafter) (hnot rfl)

end Apart

namespace Token

variable {cs rest : List Char}

theorem scan_append (h : Apart cs rest) : scan (cs ++ rest) = scan cs ++ scan rest := by
  obtain ⟨d, hd, rfl⟩ := Cut.exists_valid cs
  induction d with
  | last gap =>
    rw [Cut.text, scan_gap_append hd, scan_gap hd, List.nil_append]
  | more gap token tail ih =>
    obtain ⟨hg, ht, he, htail⟩ := hd
    have hsuffix : token.text ++ tail.text <:+ (Cut.more gap token tail).text :=
      List.suffix_append gap _
    have hrest := h.of_suffix ((List.suffix_append token.text _).trans hsuffix)
    have hends := h.endsBefore ht hsuffix he
    rw [Cut.text, List.append_assoc, List.append_assoc, scan_gap_append hg, scan_gap_append hg]
    rw [scan_token_append ht hends, scan_token_append ht he, ih htail hrest, List.cons_append]

theorem text_infix_of_mem_scan {t : Token} (h : t ∈ scan cs) : t.text <:+: cs := by
  obtain ⟨d, hd, rfl⟩ := Cut.exists_valid cs
  rw [Cut.scan_text hd] at h
  obtain ⟨xs, ys, htokens⟩ := List.mem_iff_append.mp h
  obtain ⟨before, after, htext, _, _⟩ := Cut.exists_text_eq hd htokens
  exact ⟨before, after, by rw [htext, List.append_assoc]⟩

end Token

namespace Path

variable {cs rest : List Char}

theorem ofChars_append (h : Apart cs rest) (hcs : cs ≠ []) (hrest : rest ≠ []) :
    ofChars (cs ++ rest) = do
      let p ← ofChars cs
      let q ← ofChars rest
      return p ++ q := by
  have hne : cs ++ rest ≠ [] := fun h => hcs (List.append_eq_nil_iff.mp h).1
  rw [ofChars_of_ne_nil hne, ofChars_of_ne_nil hcs, ofChars_of_ne_nil hrest]
  rw [Token.scan_append h, List.mapM_append]

theorem ofChars_gap_append {gap : List Char} (hgap : IsGap gap) (hcs : cs ≠ []) :
    ofChars (gap ++ cs) = ofChars cs := by
  have hne : gap ++ cs ≠ [] := fun h => hcs (List.append_eq_nil_iff.mp h).2
  rw [ofChars_of_ne_nil hne, ofChars_of_ne_nil hcs, Token.scan_gap_append hgap]

/-- Two texts with a separator between them are read one after the other. -/
theorem ofChars_join {sep : List Char} (hcs : cs ≠ []) (hrest : rest ≠ []) (hne : sep ≠ [])
    (hsep : IsSeparator sep) (hclose : ClosesBrackets cs ∨ ']' ∉ rest) :
    ofChars (cs ++ (sep ++ rest)) = do
      let p ← ofChars cs
      let q ← ofChars rest
      return p ++ q := by
  have hgap : IsGap sep := fun c hc => (hsep c hc).1
  have hapart : Apart cs (sep ++ rest) := by
    cases sep with
    | nil => contradiction
    | cons c sep =>
      obtain ⟨hc, hopen, _⟩ := hsep c List.mem_cons_self
      apply apart_of_separator hc hopen
      refine hclose.imp_right ?_
      intro hrest hm
      rw [List.append_eq, ← List.cons_append] at hm
      rcases List.mem_append.mp hm with hm | hm
      · exact (hsep _ hm).2.2 rfl
      · exact hrest hm
  have hne' : sep ++ rest ≠ [] := fun h => hrest (List.append_eq_nil_iff.mp h).2
  rw [ofChars_append hapart hcs hne', ofChars_gap_append hgap hrest]

/-- Without closing brackets a text is read whatever it is, and no segment has an index path. -/
theorem exists_ofChars_of_no_close (hcs : cs ≠ []) (hclose : ']' ∉ cs) :
    ∃ p, ofChars cs = .ok p ∧ ∀ s ∈ p, s.isIndexed = false := by
  have hwords : ∀ t ∈ Token.scan cs, ∃ w, t = .word w := by
    intro t ht
    cases t with
    | word w => exact ⟨w, rfl⟩
    | bracketed w content =>
      have hmem : ']' ∈ (Token.bracketed w content).text := by simp
      exact absurd ((Token.text_infix_of_mem_scan ht).mem hmem) hclose
  refine ⟨(Token.scan cs).map Token.segment, ?_, ?_⟩
  · apply (ofChars_eq_ok_iff hcs).mpr
    refine ⟨?_, rfl⟩
    intro t ht
    obtain ⟨w, rfl⟩ := hwords t ht
    trivial
  · intro s hs
    obtain ⟨t, ht, rfl⟩ := List.mem_map.mp hs
    obtain ⟨w, rfl⟩ := hwords t ht
    rfl

end Path

/-- Parsing turns joining by separators into appending, and the failure of the front comes first. -/
theorem parse_join {p sep q : String} (hp : p ≠ "") (hq : q ≠ "") (hne : sep ≠ "")
    (hsep : IsSeparator sep.toList) (hclose : ClosesBrackets p.toList ∨ ']' ∉ q.toList) :
    Path.parse (p ++ sep ++ q) = do
      let front ← Path.parse p
      let back ← Path.parse q
      return front ++ back := by
  have hp' : p.toList ≠ [] := fun h => hp (String.toList_eq_nil_iff.mp h)
  have hq' : q.toList ≠ [] := fun h => hq (String.toList_eq_nil_iff.mp h)
  have hne' : sep.toList ≠ [] := fun h => hne (String.toList_eq_nil_iff.mp h)
  rw [Path.parse, String.toList_append, String.toList_append, List.append_assoc]
  exact Path.ofChars_join hp' hq' hne' hsep hclose

/-- Both texts may have brackets, where the first one closes its own. -/
theorem parse_join_of_closed :
    "a[b]" ≠ "" ∧ "c[d]" ≠ "" ∧ " ." ≠ "" ∧ IsSeparator " .".toList ∧
      ClosesBrackets "a[b]".toList ∧
      Path.parse ("a[b]" ++ " ." ++ "c[d]") =
        .ok [.indexed "a" [.bare "b"], .indexed "c" [.bare "d"]] := by
  have hp : "a[b]" ≠ "" := by decide
  have hq : "c[d]" ≠ "" := by decide
  have hne : " ." ≠ "" := by decide
  have hsep : IsSeparator " .".toList := by
    intro c hc
    rcases List.mem_pair.mp hc with rfl | rfl
    · decide
    · decide
  have hcloses : ClosesBrackets "a[b]".toList := closesBrackets_append_close "a[b".toList
  have hfront : Path.parse "a[b]" = .ok [.indexed "a" [.bare "b"]] := by cbv
  have hback : Path.parse "c[d]" = .ok [.indexed "c" [.bare "d"]] := by cbv
  refine ⟨hp, hq, hne, hsep, hcloses, ?_⟩
  rw [parse_join hp hq hne hsep (.inl hcloses), hfront, hback]
  rfl

end DocPath
