import DocPath.Proofs.Path.Shape
import Mathlib

/-!
Reading a rendered path. The rendering is cut back into the same segments, and it is read unless a
segment has an index path whose text brackets cannot hold.
-/

namespace DocPath

def Segment.token : Segment → Token
  | bare name => .word name.toList
  | indexed name index => .bracketed name.toList (Path.render index).toList

/-- An index path whose text is empty, or nothing but digits. -/
def Segment.Offends : Segment → Prop
  | bare _ => False
  | indexed _ index => index = [] ∨ ∃ s, index = [s] ∧ ∀ c ∈ s.name.toList, c.isDigit

theorem Segment.text_token (s : Segment) : s.token.text = s.render.toList := by
  cases s with
  | bare name => simp [token, render]
  | indexed name index => simp [token, render]

def namesText (names : List String) : List Char := (Path.render (names.map .bare)).toList

theorem namesText_nil : namesText [] = [] := rfl

theorem namesText_singleton (n : String) : namesText [n] = n.toList := by
  simp [namesText, Segment.render]

theorem namesText_cons_cons (n m : String) (rest : List String) :
    namesText (n :: m :: rest) = n.toList ++ '.' :: namesText (m :: rest) := by
  simp [namesText, Segment.render]

theorem stops_point (rest : List Char) : Stops isWord ('.' :: rest) := stops_cons (by decide)

section Names

variable {names : List String}

theorem isWord_or_point_of_mem_namesText (h : ∀ n ∈ names, IsName n) :
    ∀ c ∈ namesText names, isWord c ∨ c = '.' := by
  induction names with
  | nil => simp [namesText_nil]
  | cons n names ih =>
    obtain ⟨hn, hnames⟩ := List.forall_mem_cons.mp h
    intro c hc
    cases names with
    | nil =>
      rw [namesText_singleton] at hc
      exact Or.inl (hn.2 c hc)
    | cons m rest =>
      rw [namesText_cons_cons] at hc
      rcases List.mem_append.mp hc with hc | hc
      · exact Or.inl (hn.2 c hc)
      · rcases List.mem_cons.mp hc with rfl | hc
        · exact Or.inr rfl
        · exact ih hnames c hc

theorem wordRuns_namesText (h : ∀ n ∈ names, IsName n) :
    wordRuns (namesText names) = names.map String.toList := by
  induction names with
  | nil => simp [namesText_nil]
  | cons n names ih =>
    obtain ⟨hn, hnames⟩ := List.forall_mem_cons.mp h
    cases names with
    | nil =>
      have hend : Stops isWord [] := by simp [Stops]
      simpa [namesText_singleton] using wordRuns_run_append hn hend
    | cons m rest =>
      rw [namesText_cons_cons, wordRuns_run_append hn (stops_point _)]
      rw [wordRuns_cons_of_not_isWord (by decide), ih hnames]
      rfl

theorem namesText_eq_nil_iff (h : ∀ n ∈ names, IsName n) :
    namesText names = [] ↔ names = [] := by
  cases names with
  | nil => simp [namesText_nil]
  | cons n names =>
    have hn := (h n List.mem_cons_self).1
    cases names with
    | nil => simpa [namesText_singleton] using hn
    | cons m rest => simp [namesText_cons_cons]

theorem digits_namesText_iff :
    (∀ c ∈ namesText names, c.isDigit) ↔
      names = [] ∨ ∃ n, names = [n] ∧ ∀ c ∈ n.toList, c.isDigit := by
  cases names with
  | nil => simp [namesText_nil]
  | cons n names =>
    cases names with
    | nil => simp [namesText_singleton]
    | cons m rest =>
      have hpoint : '.' ∈ namesText (n :: m :: rest) := by simp [namesText_cons_cons]
      constructor
      · intro hall
        exact absurd (hall '.' hpoint) (by decide)
      · simp

end Names

namespace Segment

theorem offends_indexed_iff {name : String} {names : List String} :
    (indexed name (names.map .bare)).Offends ↔
      names = [] ∨ ∃ n, names = [n] ∧ ∀ c ∈ n.toList, c.isDigit := by
  cases names with
  | nil => simp [Offends]
  | cons n rest => cases rest <;> simp [Offends]

theorem Shaped.proper_token {s : Segment} (hs : s.Shaped) : s.token.Proper := by
  cases hs with
  | bare hname => exact hname
  | indexed hname hnames =>
    refine ⟨hname, ?_⟩
    intro hm
    rcases isWord_or_point_of_mem_namesText hnames _ hm with h | h
    · exact absurd h (by decide)
    · exact absurd h (by decide)

theorem Shaped.accepted_token_iff {s : Segment} (hs : s.Shaped) :
    s.token.Accepted ↔ ¬s.Offends := by
  cases hs with
  | bare hname => simp [token, Token.Accepted, Offends]
  | @indexed name names hname hnames =>
    rw [offends_indexed_iff, ← digits_namesText_iff]
    constructor
    · intro h
      exact h.2.2
    · intro h
      refine ⟨?_, isWord_or_point_of_mem_namesText hnames, h⟩
      intro hnil
      rw [← namesText, namesText_eq_nil_iff hnames] at hnil
      exact h (digits_namesText_iff.mpr (Or.inl hnil))

theorem Shaped.segment_token {s : Segment} (hs : s.Shaped) : s.token.segment = s := by
  cases hs with
  | bare hname => simp [token, Token.segment]
  | @indexed name names hname hnames =>
    have hruns := wordRuns_namesText hnames
    rw [namesText] at hruns
    simp [token, Token.segment, hruns]

theorem Shaped.ofToken_token {s : Segment} (hs : s.Shaped) (h : ¬s.Offends) :
    ofToken s.token = .ok s := by
  rw [ofToken_of_accepted (hs.accepted_token_iff.mpr h), hs.segment_token]

theorem Shaped.ofToken_token_of_offends {s : Segment} (hs : s.Shaped) (h : s.Offends) :
    ofToken s.token = .error (.malformed s.render) := by
  rw [ofToken_of_not_accepted fun ha => hs.accepted_token_iff.mp ha h, text_token]
  rw [String.ofList_toList]

end Segment

namespace Path

theorem scan_render {p : Path} (hp : p.Shaped) :
    Token.scan p.render.toList = p.map Segment.token := by
  induction p with
  | nil => simp
  | cons s p ih =>
    obtain ⟨hs, hrest⟩ := List.forall_mem_cons.mp hp
    cases p with
    | nil =>
      have := Token.scan_token_append hs.proper_token (Token.endsBefore_nil s.token)
      simpa [Segment.text_token] using this
    | cons t rest =>
      have htext : (render (s :: t :: rest)).toList =
          s.token.text ++ '.' :: (render (t :: rest)).toList := by
        simp [Segment.text_token]
      have hends := s.token.endsBefore_cons (c := '.') (by decide) (by decide)
        (render (t :: rest)).toList
      rw [htext, Token.scan_token_append hs.proper_token hends]
      rw [Token.scan_cons_of_not_isWord (by decide), ih hrest]
      rfl

theorem Shaped.toList_render_ne_nil {p : Path} (hp : p.Shaped) (hne : p ≠ []) :
    p.render.toList ≠ [] := by
  intro hnil
  have hscan := scan_render hp
  rw [hnil, Token.scan_nil] at hscan
  exact hne (List.map_eq_nil_iff.mp hscan.symm)

theorem Shaped.parse_render_eq_mapM {p : Path} (hp : p.Shaped) (hne : p ≠ []) :
    Path.parse p.render = p.mapM fun s => Segment.ofToken s.token := by
  rw [parse, ofChars_of_ne_nil (hp.toList_render_ne_nil hne), scan_render hp, List.mapM_map]
  rfl

theorem Shaped.parse_render_of_offends {before after : Path} {x : Segment}
    (hp : Path.Shaped (before ++ x :: after)) (hbefore : ∀ y ∈ before, ¬y.Offends)
    (hx : x.Offends) :
    Path.parse (Path.render (before ++ x :: after)) = .error (.malformed x.render) := by
  rw [hp.parse_render_eq_mapM (by simp)]
  have hshaped : ∀ y ∈ before, ∃ z, Segment.ofToken y.token = .ok z := fun y hy =>
    ⟨y, Segment.Shaped.ofToken_token (hp y (List.mem_append_left _ hy)) (hbefore y hy)⟩
  have hxs := hp x (List.mem_append_right before List.mem_cons_self)
  exact mapM_append_of_error hshaped (hxs.ofToken_token_of_offends hx)

end Path

/-- A rendering is read as the path that was rendered, or not at all: the first segment that offends
is reported, and so is the empty text. -/
theorem parse_render {p : Path} (hp : p = [] ∨ ∃ s, Path.parse s = .ok p) :
    (p ≠ [] → (∀ x ∈ p, ¬x.Offends) → Path.parse p.render = .ok p) ∧
    (p = [] → Path.parse p.render = .error .emptyPath) ∧
    (∀ before x after, p = before ++ x :: after → (∀ y ∈ before, ¬y.Offends) → x.Offends →
      Path.parse p.render = .error (.malformed x.render)) ∧
    ∀ q, Path.parse p.render = .ok q → q = p := by
  have hshaped : p.Shaped := by
    rcases hp with rfl | ⟨s, hs⟩
    · exact fun x hx => absurd hx List.not_mem_nil
    · exact Path.shaped_of_parse hs
  have hok : p ≠ [] → (∀ x ∈ p, ¬x.Offends) → Path.parse p.render = .ok p := by
    intro hne hall
    rw [hshaped.parse_render_eq_mapM hne]
    have := mapM_eq_map (g := id) fun x hx => (hshaped x hx).ofToken_token (hall x hx)
    rwa [List.map_id] at this
  have hempty : p = [] → Path.parse p.render = .error .emptyPath := by
    rintro rfl
    exact Path.ofChars_nil
  have herror : ∀ before x after, p = before ++ x :: after → (∀ y ∈ before, ¬y.Offends) →
      x.Offends → Path.parse p.render = .error (.malformed x.render) := by
    rintro before x after rfl hbefore hx
    exact hshaped.parse_render_of_offends hbefore hx
  refine ⟨hok, hempty, herror, ?_⟩
  intro q hq
  by_cases hne : p = []
  · rw [hempty hne] at hq
    contradiction
  · by_cases hall : ∀ x ∈ p, ¬x.Offends
    · rw [hok hne hall] at hq
      exact (Except.ok.inj hq).symm
    · obtain ⟨before, x, after, rfl, hbefore, hx⟩ := exists_first_not hall
      rw [herror before x after rfl hbefore (Classical.not_not.mp hx)] at hq
      contradiction

theorem parse_render_of_point_in_brackets :
    Path.parse "a.b[c].d[1.].e[.]" =
        .ok [.bare "a", .indexed "b" [.bare "c"], .indexed "d" [.bare "1"], .indexed "e" []] ∧
      Path.parse "a.b[c].d[1].e[]" = .error (.malformed "d[1]") := by
  have h : Path.parse "a.b[c].d[1.].e[.]" =
      .ok [.bare "a", .indexed "b" [.bare "c"], .indexed "d" [.bare "1"], .indexed "e" []] := by
    cbv
  refine ⟨h, ?_⟩
  exact (parse_render (Or.inr ⟨_, h⟩)).2.2.1 [.bare "a", .indexed "b" [.bare "c"]]
    (.indexed "d" [.bare "1"]) [.indexed "e" []] rfl (by simp [Segment.Offends])
    (Or.inr ⟨.bare "1", rfl, by simp⟩)

end DocPath
