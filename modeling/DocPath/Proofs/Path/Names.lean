import DocPath.Proofs.Path.Accepted
import Mathlib

/-!
The names that a path reads, told from its text. They are the runs of word characters, wherever
these stand: in brackets, between separators, or behind a bracket that is never closed.
-/

namespace DocPath

theorem Path.names_map_bare (names : List String) : Path.names (names.map .bare) = names := by
  induction names with
  | nil => rfl
  | cons n names ih =>
    rw [List.map_cons, names_cons, ih]
    rfl

theorem Token.names_segment (t : Token) :
    t.segment.names = match t with
      | word w => [String.ofList w]
      | bracketed w content => String.ofList w :: (wordRuns content).map String.ofList := by
  cases t with
  | word w => rfl
  | bracketed w content =>
    have hnames := Path.names_map_bare ((wordRuns content).map String.ofList)
    rw [List.map_map] at hnames
    rw [segment, Segment.names]
    exact congrArg (String.ofList w :: ·) hnames

/-- The runs of a token are the names of its segment. -/
theorem Token.wordRuns_text_append {t : Token} {rest : List Char} (ht : t.Proper)
    (hr : t.EndsBefore rest) :
    (wordRuns (t.text ++ rest)).map String.ofList =
      t.segment.names ++ (wordRuns rest).map String.ofList := by
  rw [names_segment]
  cases t with
  | word w =>
    rw [text_word, wordRuns_run_append ht (stops_of_endsBefore hr)]
    rfl
  | bracketed w content =>
    have hopen : Stops isWord ('[' :: (content ++ ']' :: rest)) := stops_cons (by decide)
    have htext : (bracketed w content).text ++ rest = w ++ '[' :: (content ++ ']' :: rest) := by
      simp
    rw [htext, wordRuns_run_append ht.1 hopen, wordRuns_cons_of_not_isWord (by decide)]
    rw [wordRuns_append_cons (by decide), List.map_cons, List.map_append]
    rfl

theorem Cut.names_tokens {d : Cut} (hd : d.Valid) :
    Path.names (d.tokens.map Token.segment) = (wordRuns d.text).map String.ofList := by
  induction d with
  | last gap =>
    rw [text, wordRuns_gap hd]
    rfl
  | more gap token rest ih =>
    obtain ⟨hg, ht, he, hrest⟩ := hd
    rw [text, wordRuns_gap_append hg, Token.wordRuns_text_append ht he, ← ih hrest]
    rfl

/-- A text that is read loses none of its runs, and its path reads no other names. -/
theorem names_eq_wordRuns {s : String} {p : Path} (h : Path.parse s = .ok p) :
    p.names = (wordRuns s.toList).map String.ofList ∧
      ∀ runs, RunsOf s.toList runs ↔ runs = p.names.map String.toList := by
  have hnames : p.names = (wordRuns s.toList).map String.ofList := by
    obtain ⟨d, hd, htext⟩ := Cut.exists_valid s.toList
    by_cases hs : s.toList = []
    · rw [Path.parse, hs, Path.ofChars_nil] at h
      contradiction
    · obtain ⟨_, rfl⟩ := (ofChars_eq_ok_iff hs).mp h
      rw [← htext, Cut.scan_text hd]
      exact Cut.names_tokens hd
  refine ⟨hnames, ?_⟩
  intro runs
  have hchars : String.toList ∘ String.ofList = id := by
    funext cs
    exact String.toList_ofList
  rw [runsOf_iff, hnames, List.map_map, hchars, List.map_id]

theorem names_eq_wordRuns_of_stray_brackets :
    Path.parse "é[a[.b.1]c[d" =
        .ok [.indexed "a" [.bare "b", .bare "1"], .bare "c", .bare "d"] ∧
      RunsOf "é[a[.b.1]c[d".toList [['a'], ['b'], ['1'], ['c'], ['d']] := by
  have h : Path.parse "é[a[.b.1]c[d" =
      .ok [.indexed "a" [.bare "b", .bare "1"], .bare "c", .bare "d"] := by cbv
  refine ⟨h, ?_⟩
  apply ((names_eq_wordRuns h).2 _).mpr
  simp [Segment.names]

end DocPath
