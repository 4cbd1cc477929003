import DocPath.Proofs.Path.Obtained
import Mathlib

/-!
How deep reading and following a path go. Each is told with its calls for the text or the path in
brackets as a parameter, once for every level. Brackets hold no brackets, so that what stands for
the calls two levels below the top is never asked.
-/

namespace DocPath

/-- The segment of a token, where `inner` reads the text in brackets. -/
def Segment.ofTokenBy (inner : List Char → Except PathFailure Path) :
    Token → Except PathFailure Segment
  | .word w => .ok (.bare (String.ofList w))
  | .bracketed w content =>
    if isIndexText content then do
      let index ← inner content
      return .indexed (String.ofList w) index
    else .error (.malformed (String.ofList (Token.bracketed w content).text))

/-- The path of a text, where `inner` reads the texts in brackets. -/
def Path.ofCharsBy (inner : List Char → Except PathFailure Path) (cs : List Char) :
    Except PathFailure Path :=
  if cs.isEmpty then .error .emptyPath else (Token.scan cs).mapM (Segment.ofTokenBy inner)

section Reading

variable (deeper : List Char → Except PathFailure Path)

theorem Segment.ofTokenBy_ofChars (t : Token) : ofTokenBy Path.ofChars t = ofToken t := by
  cases t with
  | word w => exact (ofToken_word w).symm
  | bracketed w content => rw [ofToken, ofTokenBy]

theorem Path.ofCharsBy_eq {cs : List Char}
    (h : ∀ t ∈ Token.scan cs, Segment.ofTokenBy deeper t = Segment.ofToken t) :
    ofCharsBy deeper cs = ofChars cs := by
  by_cases hne : cs = []
  · rw [hne, ofChars_nil]
    rfl
  · rw [ofChars_of_ne_nil hne, ofCharsBy, if_neg (by simpa using hne)]
    exact mapM_congr h

/-- The parser is the one that reads brackets by itself. -/
theorem Path.ofCharsBy_ofChars (cs : List Char) : ofCharsBy ofChars cs = ofChars cs :=
  ofCharsBy_eq _ fun t _ => Segment.ofTokenBy_ofChars t

theorem Path.ofCharsBy_of_no_bracket {cs : List Char} (h : '[' ∉ cs) :
    ofCharsBy deeper cs = ofChars cs := by
  apply ofCharsBy_eq
  intro t ht
  rw [scan_eq_map_word h] at ht
  obtain ⟨w, _, rfl⟩ := List.mem_map.mp ht
  exact (Segment.ofToken_word w).symm

theorem Segment.ofTokenBy_ofCharsBy (t : Token) :
    ofTokenBy (Path.ofCharsBy deeper) t = ofToken t := by
  rw [← ofTokenBy_ofChars]
  cases t with
  | word w => rfl
  | bracketed w content =>
    by_cases h : isIndexText content
    · have hopen : '[' ∉ content := Token.Accepted.no_bracket (w := w) (isIndexText_iff.mp h)
      rw [ofTokenBy, ofTokenBy, Path.ofCharsBy_of_no_bracket deeper hopen]
    · rw [ofTokenBy, ofTokenBy, if_neg h, if_neg h]

theorem Path.ofCharsBy_ofCharsBy (cs : List Char) :
    ofCharsBy (ofCharsBy deeper) cs = ofChars cs :=
  ofCharsBy_eq _ fun t _ => Segment.ofTokenBy_ofCharsBy deeper t

end Reading

namespace Json

/-- Moves along one segment, where `inner` follows the path in brackets. -/
def walkSegmentBy (inner : Path → Logged Json) (inside : Path) (current : Json) :
    Segment → Logged Json
  | .bare name => do
    Logged.note (.entered (.bare name))
    match current.member? name with
    | some found => pure found
    | none => Logged.fail (.nameMissing name inside) (.missing name)
  | .indexed name index => do
    Logged.note (.entered (.indexed name index))
    match current.member? name with
    | some found =>
      let value ← inner index
      match select? value found with
      | some picked => pure picked
      | none =>
        Logged.fail (.indexMissing name index) (.missing (Segment.indexed name index).render)
    | none => Logged.fail (.nameMissing name inside) (.missing name)

def walkFromBy (inner : Path → Logged Json) (inside : Path) (current : Json) : Path → Logged Json
  | [] => pure current
  | segment :: rest => do
    let next ← walkSegmentBy inner inside current segment
    walkFromBy inner inside next rest

/-- Follows a path from the root, where `inner` follows the paths in brackets. -/
def walkBy (root : Json) (inner : Path → Logged Json) (p : Path) : Logged Json :=
  walkFromBy inner p root p

section Walking

variable {root : Json} {inner : Path → Logged Json}

theorem walkSegmentBy_bare (inside : Path) (current : Json) (name : String) :
    walkSegmentBy inner inside current (.bare name) =
      walkSegment root inside current (.bare name) := rfl

theorem walkSegmentBy_indexed {index : Path} (h : inner index = root.walk index) (inside : Path)
    (current : Json) (name : String) :
    walkSegmentBy inner inside current (.indexed name index) =
      walkSegment root inside current (.indexed name index) := by
  rw [walkSegmentBy, h]
  rfl

/-- A walk is the same if the walks along its index paths are. -/
theorem walkFromBy_eq {p : Path}
    (h : ∀ s ∈ p, ∀ index, s.index? = some index → inner index = root.walk index)
    (inside : Path) (current : Json) :
    walkFromBy inner inside current p = walkFrom root inside current p := by
  induction p generalizing current with
  | nil => rfl
  | cons s rest ih =>
    obtain ⟨hs, hrest⟩ := List.forall_mem_cons.mp h
    have hsegment : walkSegmentBy inner inside current s = walkSegment root inside current s := by
      cases s with
      | bare name => exact walkSegmentBy_bare inside current name
      | indexed name index => exact walkSegmentBy_indexed (hs index rfl) inside current name
    rw [walkFromBy, walkFrom_cons, hsegment]
    have hnext : (fun next => walkFromBy inner inside next rest) =
        fun next => walkFrom root inside next rest := funext fun next => ih hrest next
    rw [hnext]

theorem walkBy_eq {p : Path}
    (h : ∀ s ∈ p, ∀ index, s.index? = some index → inner index = root.walk index) :
    walkBy root inner p = root.walk p :=
  walkFromBy_eq h p root

/-- The walk is the one that follows index paths by itself. -/
theorem walkBy_walk (root : Json) (p : Path) : walkBy root root.walk p = root.walk p :=
  walkBy_eq fun _ _ _ _ => rfl

theorem walkBy_walkBy {p : Path} (hp : p.Shaped) (deeper : Path → Logged Json) :
    walkBy root (walkBy root deeper) p = root.walk p := by
  apply walkBy_eq
  intro s hs index hindex
  apply walkBy_eq
  -- The segments of an index path are bare.
  intro x hx deepest hdeepest
  cases hp s hs with
  | bare hname => contradiction
  | indexed hname hnames =>
    obtain rfl := Option.some.inj hindex
    obtain ⟨n, _, rfl⟩ := List.mem_map.mp hx
    contradiction

end Walking

end Json

/-- How the text of one segment is read: as the segment that it writes, or not at all. -/
structure ReadAsSegment (text : String) : Prop where
  emptySegment : Segment.parse text = .error .emptySegment ↔ text = ""
  ok : (∃ s, Segment.parse text = .ok s) ↔ IsSegmentText text.toList
  malformed : text ≠ "" → ¬IsSegmentText text.toList →
    Segment.parse text = .error (.malformed text)

theorem readAsSegment (text : String) : ReadAsSegment text := by
  have hrefused : text ≠ "" → ¬IsSegmentText text.toList →
      Segment.parse text = .error (.malformed text) := by
    intro hne h
    have hcs : text.toList ≠ [] := fun hnil => hne (String.toList_eq_nil_iff.mp hnil)
    rw [Segment.parse, Segment.ofChars_of_not_isSegmentText hcs h, String.ofList_toList]
  refine ⟨?_, Segment.exists_ofChars_eq_ok_iff, hrefused⟩
  constructor
  · intro h
    by_contra hne
    by_cases htext : IsSegmentText text.toList
    · obtain ⟨s, hs⟩ := Segment.exists_ofChars_eq_ok_iff.mpr htext
      have hsame := hs.symm.trans h
      contradiction
    · have hsame := Except.error.inj ((hrefused hne htext).symm.trans h)
      contradiction
  · rintro rfl
    rfl

/-- The text of a segment is read as a whole or refused as a whole, and whatever can be obtained has
bare segments in its brackets. So no call is made two levels below the top: it does not matter what
stands for those calls. -/
theorem brackets_are_one_level_deep (text : String) :
    ReadAsSegment text ∧
    (∀ content, isIndexText content → ∃ p, Path.ofChars content = .ok p) ∧
    (∀ s : Segment, s.Obtained → s.Shaped) ∧
    (∀ p : Path, p.Obtained → p.Shaped) ∧
    (∀ t, Segment.ofTokenBy Path.ofChars t = Segment.ofToken t ∧
      ∀ deeper, Segment.ofTokenBy (Path.ofCharsBy deeper) t = Segment.ofToken t) ∧
    (∀ cs, Path.ofCharsBy Path.ofChars cs = Path.ofChars cs ∧
      ∀ deeper, Path.ofCharsBy (Path.ofCharsBy deeper) cs = Path.ofChars cs) ∧
    ∀ (root : Json) (p : Path), p.Obtained → Json.walkBy root root.walk p = root.walk p ∧
      ∀ deeper, Json.walkBy root (Json.walkBy root deeper) p = root.walk p := by
  have hinner : ∀ content, isIndexText content → ∃ p, Path.ofChars content = .ok p := by
    intro content h
    have hcontent := isIndexText_iff.mp h
    have hopen : '[' ∉ content := Token.Accepted.no_bracket (w := []) hcontent
    exact ⟨_, ofChars_of_no_bracket hcontent.1 hopen⟩
  refine ⟨readAsSegment text, hinner, fun _ hs => hs.shaped, fun _ hp => hp.shaped, ?_, ?_, ?_⟩
  · exact fun t => ⟨Segment.ofTokenBy_ofChars t, fun deeper => Segment.ofTokenBy_ofCharsBy deeper t⟩
  · exact fun cs => ⟨Path.ofCharsBy_ofChars cs, fun deeper => Path.ofCharsBy_ofCharsBy deeper cs⟩
  · intro root p hp
    exact ⟨Json.walkBy_walk root p, fun deeper => Json.walkBy_walkBy hp.shaped deeper⟩

/-- The line break at the end is not passed over, and a walk into brackets asks for none below. -/
theorem brackets_are_one_level_deep_with_line_break :
    let p : Path := [.indexed "rows" [.bare "at"], .indexed "x" []]
    let root : Json := .object [("rows", .array [.bool true]), ("at", .string "0")]
    let deeper : Path → Logged Json := fun _ => Logged.ofExcept (.error .emptySegment)
    "rows[at]\n" ≠ "" ∧ ¬IsSegmentText "rows[at]\n".toList ∧
      Segment.parse "rows[at]\n" = .error (.malformed "rows[at]\n") ∧
      isIndexText ['.'] ∧ (∃ q, Path.ofChars ['.'] = .ok q) ∧
      p.Obtained ∧ p.Shaped ∧ Json.walkBy root (Json.walkBy root deeper) p = root.walk p := by
  intro p root deeper
  have hnot : ¬IsSegmentText "rows[at]\n".toList := by
    intro h
    obtain ⟨t, ht, _, htext⟩ := isSegmentText_iff.mp h
    have hlast : t.text.getLast? = some '\n' := by simp [htext]
    cases t with
    | word w => exact absurd (ht.2 _ (List.mem_of_getLast? hlast)) (by decide)
    | bracketed w content =>
      rw [Token.text_bracketed, List.getLast?_concat] at hlast
      simp at hlast
  have hparse : Path.parse "rows[at].x[.]" = .ok p := by cbv
  have hp : p.Obtained := .parse hparse
  obtain ⟨hread, hinner, _, hpaths, _, _, hwalks⟩ := brackets_are_one_level_deep "rows[at]\n"
  have hne : "rows[at]\n" ≠ "" := by simp
  exact ⟨hne, hnot, hread.malformed hne hnot, by decide, hinner ['.'] (by decide), hp,
    hpaths p hp, (hwalks root p hp).2 deeper⟩

end DocPath
