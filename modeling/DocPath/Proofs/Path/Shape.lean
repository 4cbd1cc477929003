import DocPath.Proofs.Path.Accepted

/-!
The shape of paths that are read: names are runs of word characters, and an index path has bare
segments only.
-/

namespace DocPath

def IsName (name : String) : Prop := IsRun name.toList

inductive Segment.Shaped : Segment → Prop where
  | bare {name : String} (hname : IsName name) : Shaped (.bare name)
  | indexed {name : String} {names : List String} (hname : IsName name)
      (hnames : ∀ n ∈ names, IsName n) : Shaped (.indexed name (names.map .bare))

def Path.Shaped (p : Path) : Prop := ∀ s ∈ p, s.Shaped

theorem Cut.proper_of_mem_tokens {d : Cut} (hd : d.Valid) {t : Token} (ht : t ∈ d.tokens) :
    t.Proper := by
  induction d with
  | last gap => simp [tokens] at ht
  | more gap token rest ih =>
    obtain ⟨_, htoken, _, hrest⟩ := hd
    rcases List.mem_cons.mp ht with rfl | ht
    · exact htoken
    · exact ih hrest ht

theorem Token.proper_of_mem_scan {t : Token} {cs : List Char} (ht : t ∈ scan cs) : t.Proper := by
  obtain ⟨d, hd, rfl⟩ := Cut.exists_valid cs
  rw [Cut.scan_text hd] at ht
  exact Cut.proper_of_mem_tokens hd ht

theorem isRun_of_mem_wordRuns {cs run : List Char} (h : '[' ∉ cs) (hrun : run ∈ wordRuns cs) :
    IsRun run := by
  have hmem : Token.word run ∈ Token.scan cs := by
    rw [scan_eq_map_word h]
    exact List.mem_map_of_mem hrun
  exact Token.proper_of_mem_scan hmem

theorem isName_ofList {w : List Char} (hw : IsRun w) : IsName (String.ofList w) := by
  rw [IsName, String.toList_ofList]
  exact hw

theorem Token.shaped_segment {t : Token} (ht : t.Proper) (h : t.Accepted) :
    t.segment.Shaped := by
  cases t with
  | word w => exact .bare (isName_ofList ht)
  | bracketed w content =>
    have hnames : ∀ n ∈ (wordRuns content).map String.ofList, IsName n := by
      intro n hn
      obtain ⟨run, hrun, rfl⟩ := List.mem_map.mp hn
      exact isName_ofList (isRun_of_mem_wordRuns h.no_bracket hrun)
    have := Segment.Shaped.indexed (isName_ofList ht.1) hnames
    rwa [List.map_map] at this

theorem Path.shaped_of_parse {s : String} {p : Path} (h : Path.parse s = .ok p) : p.Shaped := by
  by_cases hs : s.toList = []
  · rw [Path.parse, hs, Path.ofChars_nil] at h
    contradiction
  · obtain ⟨haccepted, rfl⟩ := (ofChars_eq_ok_iff hs).mp h
    intro x hx
    obtain ⟨t, ht, rfl⟩ := List.mem_map.mp hx
    exact Token.shaped_segment (Token.proper_of_mem_scan ht) (haccepted t ht)

end DocPath
