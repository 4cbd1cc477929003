import DocPath.Path.Parse
import DocPath.Proofs.Path.WordRuns

/-!
Which path texts are read, and as what. A text is read if each of its tokens is a segment, and then
nothing of the tokens is lost.
-/

namespace DocPath

section Traversal

variable {α β ε : Type} {f : α → Except ε β} {g : α → β}

theorem mapM_cons_of_ok {x : α} {y : β} (h : f x = .ok y) (xs : List α) :
    (x :: xs).mapM f = (xs.mapM f).map (y :: ·) := by
  rw [List.mapM_cons, h]
  cases xs.mapM f <;> rfl

theorem mapM_cons_of_error {x : α} {e : ε} (h : f x = .error e) (xs : List α) :
    (x :: xs).mapM f = .error e := by
  rw [List.mapM_cons, h]
  rfl

theorem mapM_eq_map {xs : List α} (h : ∀ x ∈ xs, f x = .ok (g x)) :
    xs.mapM f = .ok (xs.map g) := by
  induction xs with
  | nil => rfl
  | cons x xs ih =>
    rw [mapM_cons_of_ok (h x List.mem_cons_self)]
    rw [ih fun y hy => h y (List.mem_cons_of_mem x hy)]
    rfl

theorem mapM_congr {f' : α → Except ε β} {xs : List α} (h : ∀ x ∈ xs, f x = f' x) :
    xs.mapM f = xs.mapM f' := by
  induction xs with
  | nil => rfl
  | cons x xs ih =>
    obtain ⟨hx, hxs⟩ := List.forall_mem_cons.mp h
    rw [List.mapM_cons, List.mapM_cons, hx, ih hxs]

theorem mapM_append_of_error {xs rest : List α} {x : α} {e : ε}
    (h : ∀ y ∈ xs, ∃ z, f y = .ok z) (hx : f x = .error e) :
    (xs ++ x :: rest).mapM f = .error e := by
  induction xs with
  | nil => exact mapM_cons_of_error hx rest
  | cons y ys ih =>
    obtain ⟨z, hz⟩ := h y List.mem_cons_self
    rw [List.cons_append, mapM_cons_of_ok hz]
    rw [ih fun a ha => h a (List.mem_cons_of_mem y ha)]
    rfl

theorem exists_first_not {P : α → Prop} {xs : List α} (h : ¬∀ x ∈ xs, P x) :
    ∃ before x after, xs = before ++ x :: after ∧ (∀ y ∈ before, P y) ∧ ¬P x := by
  induction xs with
  | nil => simp at h
  | cons x xs ih =>
    by_cases hx : P x
    · have hxs : ¬∀ y ∈ xs, P y := fun hall => h (List.forall_mem_cons.mpr ⟨hx, hall⟩)
      obtain ⟨before, y, after, rfl, hbefore, hy⟩ := ih hxs
      exact ⟨x :: before, y, after, rfl, List.forall_mem_cons.mpr ⟨hx, hbefore⟩, hy⟩
    · exact ⟨[], x, xs, rfl, by simp, hx⟩

theorem mapM_eq_ok_iff {P : α → Prop} (hok : ∀ x, P x → f x = .ok (g x))
    (herror : ∀ x, ¬P x → ∃ e, f x = .error e) {xs : List α} {ys : List β} :
    xs.mapM f = .ok ys ↔ (∀ x ∈ xs, P x) ∧ ys = xs.map g := by
  by_cases hall : ∀ x ∈ xs, P x
  · rw [mapM_eq_map fun x hx => hok x (hall x hx)]
    constructor
    · intro h
      exact ⟨hall, (Except.ok.inj h).symm⟩
    · rintro ⟨_, rfl⟩
      rfl
  · obtain ⟨before, x, after, rfl, hbefore, hx⟩ := exists_first_not hall
    obtain ⟨e, he⟩ := herror x hx
    rw [mapM_append_of_error (fun y hy => ⟨g y, hok y (hbefore y hy)⟩) he]
    constructor
    · intro h
      contradiction
    · rintro ⟨h, _⟩
      exact absurd h hall

end Traversal

def Token.Accepted : Token → Prop
  | word _ => True
  | bracketed _ content =>
    content ≠ [] ∧ (∀ c ∈ content, isWord c ∨ c = '.') ∧ ¬∀ c ∈ content, c.isDigit

def Token.segment : Token → Segment
  | word w => .bare (String.ofList w)
  | bracketed w content =>
    .indexed (String.ofList w) ((wordRuns content).map fun run => .bare (String.ofList run))

theorem isIndexText_iff {content : List Char} :
    isIndexText content ↔
      content ≠ [] ∧ (∀ c ∈ content, isWord c ∨ c = '.') ∧ ¬∀ c ∈ content, c.isDigit := by
  simp [isIndexText, and_assoc]

section Content

variable {w content : List Char} (h : (Token.bracketed w content).Accepted)
include h

theorem Token.Accepted.not_mem {c : Char} (hword : isWord c = false) (hpoint : c ≠ '.') :
    c ∉ content := by
  intro hm
  rcases h.2.1 c hm with hc | hc
  · rw [hword] at hc
    contradiction
  · exact hpoint hc

theorem Token.Accepted.no_bracket : '[' ∉ content := h.not_mem (by decide) (by decide)

theorem Token.Accepted.no_close : ']' ∉ content := h.not_mem (by decide) (by decide)

end Content

theorem ofChars_of_no_bracket {cs : List Char} (hne : cs ≠ []) (h : '[' ∉ cs) :
    Path.ofChars cs = .ok ((wordRuns cs).map fun run => .bare (String.ofList run)) := by
  rw [Path.ofChars_of_ne_nil hne, scan_eq_map_word h, List.mapM_map]
  exact mapM_eq_map fun run _ => Segment.ofToken_word run

theorem ofToken_of_accepted {t : Token} (h : t.Accepted) : Segment.ofToken t = .ok t.segment := by
  cases t with
  | word w => exact Segment.ofToken_word w
  | bracketed w content =>
    rw [Segment.ofToken, if_pos (isIndexText_iff.mpr h)]
    rw [ofChars_of_no_bracket h.1 h.no_bracket]
    rfl

theorem ofToken_of_not_accepted {t : Token} (h : ¬t.Accepted) :
    Segment.ofToken t = .error (.malformed (String.ofList t.text)) := by
  cases t with
  | word w => exact absurd trivial h
  | bracketed w content =>
    rw [Segment.ofToken, if_neg fun hi => h (isIndexText_iff.mp hi)]

theorem ofChars_eq_ok_iff {cs : List Char} (hcs : cs ≠ []) {p : Path} :
    Path.ofChars cs = .ok p ↔
      (∀ t ∈ Token.scan cs, t.Accepted) ∧ p = (Token.scan cs).map Token.segment := by
  rw [Path.ofChars_of_ne_nil hcs]
  exact mapM_eq_ok_iff (fun t => ofToken_of_accepted)
    (fun t ht => ⟨_, ofToken_of_not_accepted ht⟩)

/-- A text has one cut. It is read if the tokens of the cut are accepted, and it is read as them. -/
theorem parse_eq_ok_iff_cut (s : String) :
    (∃! d : Cut, d.Valid ∧ d.text = s.toList) ∧
      ∀ d : Cut, d.Valid → d.text = s.toList → s ≠ "" → ∀ p,
        Path.parse s = .ok p ↔
          (∀ t ∈ d.tokens, t.Accepted) ∧ p = d.tokens.map Token.segment := by
  constructor
  · obtain ⟨d, hd, htext⟩ := Cut.exists_valid s.toList
    refine ⟨d, ⟨hd, htext⟩, ?_⟩
    rintro d' ⟨hd', htext'⟩
    exact Cut.eq_of_text_eq hd' hd (htext'.trans htext.symm)
  · intro d hd htext hs p
    have hne : s.toList ≠ [] := fun h => hs (String.toList_eq_nil_iff.mp h)
    rw [Path.parse, ofChars_eq_ok_iff hne, ← htext, Cut.scan_text hd]

theorem parse_eq_ok_of_cut_unclosed :
    ∃ d : Cut, d.Valid ∧ d.text = "x..a[b.c]d[e".toList ∧ "x..a[b.c]d[e" ≠ "" ∧
      Path.parse "x..a[b.c]d[e" =
        .ok [.bare "x", .indexed "a" [.bare "b", .bare "c"], .bare "d", .bare "e"] := by
  let d : Cut := .more [] (.word ['x']) <| .more ['.', '.'] (.bracketed ['a'] ['b', '.', 'c']) <|
    .more [] (.word ['d']) <| .more ['['] (.word ['e']) <| .last []
  have hd : d.Valid := by
    simp [d, Cut.Valid, Cut.text, IsGap, IsRun, Token.Proper, Token.EndsBefore, isWord]
  have htext : d.text = "x..a[b.c]d[e".toList := by decide
  refine ⟨d, hd, htext, by decide, ?_⟩
  apply ((parse_eq_ok_iff_cut _).2 d hd htext (by decide) _).mpr
  constructor
  · simp [d, Cut.tokens, Token.Accepted, isWord]
  · decide

end DocPath
