import DocPath.Lookup.Walk
import DocPath.Proofs.Path.RoundTrip
import Mathlib

/-!
The segments and paths that can be obtained: read from a text or from a value, or taken out of one
another. All of them are shaped, so they are told apart by their renderings, also by those that are
not read.
-/

namespace DocPath

/-- The text of one segment: a run of word characters, with or without brackets behind it. The
brackets hold word characters and points, and not digits alone. -/
inductive IsSegmentText : List Char → Prop where
  | run {w : List Char} (hw : IsRun w) : IsSegmentText w
  | group {w content : List Char} (hw : IsRun w) (hne : content ≠ [])
      (hcontent : ∀ c ∈ content, isWord c ∨ c = '.') (hdigits : ¬∀ c ∈ content, c.isDigit) :
      IsSegmentText (w ++ '[' :: content ++ [']'])

theorem isSegmentText_iff {cs : List Char} :
    IsSegmentText cs ↔ ∃ t : Token, t.Proper ∧ t.Accepted ∧ t.text = cs := by
  constructor
  · intro h
    cases h with
    | run hw => exact ⟨.word cs, hw, trivial, rfl⟩
    | @group w content hw hne hcontent hdigits =>
      have haccepted : (Token.bracketed w content).Accepted := ⟨hne, hcontent, hdigits⟩
      exact ⟨.bracketed w content, ⟨hw, haccepted.no_close⟩, haccepted, rfl⟩
  · rintro ⟨t, ht, haccepted, rfl⟩
    cases t with
    | word w => exact .run ht
    | bracketed w content => exact .group ht.1 haccepted.1 haccepted.2.1 haccepted.2.2

namespace Segment

theorem ofChars_text {t : Token} (ht : t.Proper) : ofChars t.text = ofToken t := by
  have hscan := Token.scan_token_append ht (Token.endsBefore_nil t)
  rw [List.append_nil, Token.scan_nil] at hscan
  obtain ⟨c, cs, htext, _⟩ := Token.exists_text_eq_cons ht
  have hne : t.text.isEmpty = false := by simp [htext]
  simp [ofChars, hne, hscan]

/-- A text that is not one token is refused as a whole. -/
theorem ofChars_of_no_token {cs : List Char} (hne : cs ≠ [])
    (h : ∀ t : Token, t.Proper → t.text ≠ cs) :
    ofChars cs = .error (.malformed (String.ofList cs)) := by
  rw [ofChars, if_neg (by simpa using hne)]
  split
  · rename_i t hscan
    have hmem : t ∈ Token.scan cs := by simp [hscan]
    have ht : t.Proper := Token.proper_of_mem_scan hmem
    rw [if_neg (h t ht)]
  · rfl

theorem ofChars_of_not_isSegmentText {cs : List Char} (hne : cs ≠ []) (h : ¬IsSegmentText cs) :
    ofChars cs = .error (.malformed (String.ofList cs)) := by
  by_cases htoken : ∃ t : Token, t.Proper ∧ t.text = cs
  · obtain ⟨t, ht, rfl⟩ := htoken
    have hrefused : ¬t.Accepted := fun haccepted =>
      h (isSegmentText_iff.mpr ⟨t, ht, haccepted, rfl⟩)
    rw [ofChars_text ht]
    exact ofToken_of_not_accepted hrefused
  · exact ofChars_of_no_token hne fun t ht htext => htoken ⟨t, ht, htext⟩

theorem ofChars_eq_ok_iff {cs : List Char} {s : Segment} :
    ofChars cs = .ok s ↔
      ∃ t : Token, t.Proper ∧ t.Accepted ∧ t.text = cs ∧ s = t.segment := by
  constructor
  · intro h
    by_cases htext : IsSegmentText cs
    · obtain ⟨t, ht, haccepted, rfl⟩ := isSegmentText_iff.mp htext
      rw [ofChars_text ht, ofToken_of_accepted haccepted] at h
      exact ⟨t, ht, haccepted, rfl, (Except.ok.inj h).symm⟩
    · by_cases hne : cs = []
      · rw [hne, ofChars] at h
        contradiction
      · rw [ofChars_of_not_isSegmentText hne htext] at h
        contradiction
  · rintro ⟨t, ht, haccepted, rfl, rfl⟩
    rw [ofChars_text ht]
    exact ofToken_of_accepted haccepted

theorem exists_ofChars_eq_ok_iff {cs : List Char} :
    (∃ s, ofChars cs = .ok s) ↔ IsSegmentText cs := by
  rw [isSegmentText_iff]
  constructor
  · rintro ⟨s, hs⟩
    obtain ⟨t, ht, haccepted, htext, _⟩ := ofChars_eq_ok_iff.mp hs
    exact ⟨t, ht, haccepted, htext⟩
  · rintro ⟨t, ht, haccepted, htext⟩
    exact ⟨t.segment, ofChars_eq_ok_iff.mpr ⟨t, ht, haccepted, htext, rfl⟩⟩

theorem shaped_of_parse {text : String} {s : Segment} (h : parse text = .ok s) : s.Shaped := by
  obtain ⟨t, ht, haccepted, _, rfl⟩ := ofChars_eq_ok_iff.mp h
  exact Token.shaped_segment ht haccepted

theorem Shaped.index {s : Segment} {p : Path} (hs : s.Shaped) (h : s.index? = some p) :
    p.Shaped := by
  cases hs with
  | bare hname => contradiction
  | indexed hname hnames =>
    obtain rfl := Option.some.inj h
    intro x hx
    obtain ⟨n, hn, rfl⟩ := List.mem_map.mp hx
    exact .bare (hnames n hn)

end Segment

mutual

/-- Segments that are read from a text or from a value, or stand in a path that can be obtained. -/
inductive Segment.Obtained : Segment → Prop where
  | parse {text : String} {s : Segment} (h : Segment.parse text = .ok s) : Segment.Obtained s
  | ofJson {v : Json} {s : Segment} (h : Segment.ofJson v = .ok s) : Segment.Obtained s
  | mem {p : Path} {s : Segment} (hp : Path.Obtained p) (hs : s ∈ p) : Segment.Obtained s

/-- Paths that are read from a text or from a value, the empty path, and the index paths of segments
that can be obtained. -/
inductive Path.Obtained : Path → Prop where
  | empty : Path.Obtained []
  | parse {text : String} {p : Path} (h : Path.parse text = .ok p) : Path.Obtained p
  | ofJson {v : Json} {p : Path} (h : Path.ofJson v = .ok p) : Path.Obtained p
  | index {s : Segment} {p : Path} (hs : Segment.Obtained s) (hp : s.index? = some p) :
      Path.Obtained p

end

theorem Segment.shaped_of_ofJson {v : Json} {s : Segment} (h : Segment.ofJson v = .ok s) :
    s.Shaped := by
  cases v with
  | string text => exact Segment.shaped_of_parse h
  | _ => contradiction

theorem Path.shaped_of_ofJson {v : Json} {p : Path} (h : Path.ofJson v = .ok p) : p.Shaped := by
  cases v with
  | string text => exact Path.shaped_of_parse h
  | _ => contradiction

mutual

theorem Segment.Obtained.shaped {s : Segment} : s.Obtained → s.Shaped
  | .parse h => Segment.shaped_of_parse h
  | .ofJson h => Segment.shaped_of_ofJson h
  | .mem hp hs => Path.Obtained.shaped hp _ hs

theorem Path.Obtained.shaped {p : Path} : p.Obtained → p.Shaped
  | .empty => fun _ hs => absurd hs List.not_mem_nil
  | .parse h => Path.shaped_of_parse h
  | .ofJson h => Path.shaped_of_ofJson h
  | .index hs hp => (Segment.Obtained.shaped hs).index hp

end

/-- The tokens of a rendering are those of the segments, and they stand for the segments again. -/
theorem Path.Shaped.eq_of_render_eq {p q : Path} (hp : p.Shaped) (hq : q.Shaped)
    (h : p.render = q.render) : p = q := by
  have htokens : p.map Segment.token = q.map Segment.token := by
    rw [← scan_render hp, h, scan_render hq]
  have hsegments := congrArg (List.map Token.segment) htokens
  rw [List.map_map, List.map_map] at hsegments
  have hback {r : Path} (hr : r.Shaped) : r.map (Token.segment ∘ Segment.token) = r := by
    have heach : ∀ s ∈ r, (Token.segment ∘ Segment.token) s = id s :=
      fun s hs => (hr s hs).segment_token
    rw [List.map_congr_left heach, List.map_id]
  rwa [hback hp, hback hq] at hsegments

/-- The rendering is a canonical form. -/
theorem eq_iff_render_eq {p q : Path} (hp : p.Obtained) (hq : q.Obtained) :
    p = q ↔ p.render = q.render := by
  constructor
  · rintro rfl
    rfl
  · exact hp.shaped.eq_of_render_eq hq.shaped

/-- Neither rendering is read, and they differ as the paths do. -/
theorem eq_iff_render_eq_of_unread :
    let p : Path := [.indexed "a" [], .indexed "b" [.bare "1"]]
    let q : Path := [.indexed "a" [], .indexed "b" [.bare "10"]]
    Path.parse "a[.].b[1.]" = .ok p ∧ Path.parse "a[..]-b[.10]" = .ok q ∧
      p.render = "a[].b[1]" ∧ Path.parse "a[].b[1]" = .error (.malformed "a[]") ∧
      (p = q ↔ p.render = q.render) ∧ p.render ≠ q.render := by
  intro p q
  have hp : Path.parse "a[.].b[1.]" = .ok p := by cbv
  have hq : Path.parse "a[..]-b[.10]" = .ok q := by cbv
  have hrefused : Path.parse "a[].b[1]" = .error (.malformed "a[]") := by cbv
  have hiff := eq_iff_render_eq (.parse hp) (.parse hq)
  refine ⟨hp, hq, rfl, hrefused, hiff, ?_⟩
  intro h
  have hsame := hiff.mpr h
  simp [p, q] at hsame

end DocPath
