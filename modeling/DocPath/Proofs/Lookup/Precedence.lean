import DocPath.Proofs.Lookup.Failing
import DocPath.Proofs.Path.Refused
import Mathlib

/-!
Which failure a lookup reports when there are several to choose from: a null document comes first,
then the empty text, then the first token that is no segment, and a missing member last.
-/

namespace DocPath

/-- How a path text is answered over a document that is looked into. Members can be missing only if
the text is read. -/
structure AnsweredInOrder (text : String) (answer : Except PathFailure Json) : Prop where
  emptyPath : answer = .error .emptyPath ↔ text = ""
  malformed : ∀ before w content after,
    FirstRefused text.toList before (.bracketed w content) after →
      answer = .error (.malformed (String.ofList (w ++ '[' :: content ++ [']'])))
  lookedUp : text ≠ "" → (∀ t ∈ Token.scan text.toList, t.Accepted) →
    (∃ v, answer = .ok v) ∨ ∃ x, answer = .error (.missing x)

section Reading

variable {text : String} {e : PathFailure}

theorem parse_eq_error_emptyPath_iff : Path.parse text = .error .emptyPath ↔ text = "" := by
  rw [Path.parse, ofChars_eq_error_iff, ← String.toList_eq_nil_iff]
  constructor
  · rintro (⟨h, _⟩ | ⟨before, t, after, _, h⟩)
    · exact h
    · contradiction
  · intro h
    exact Or.inl ⟨h, rfl⟩

theorem parse_failures (h : Path.parse text = .error e) :
    e = .emptyPath ∨ ∃ x, e = .malformed x := by
  rcases ofChars_eq_error_iff.mp h with ⟨_, he⟩ | ⟨_, _, _, _, he⟩
  · exact Or.inl he
  · exact Or.inr ⟨_, he⟩

/-- The text of one segment is refused as that, whatever is wrong in its brackets. -/
theorem parseSegment_failures (h : Segment.parse text = .error e) :
    e = .emptySegment ∨ e = .malformed text := by
  rw [Segment.parse, Segment.ofChars] at h
  split at h
  · exact Or.inl (Except.error.inj h).symm
  · right
    split at h
    · split at h
      · rename_i t _ htext
        by_cases ht : t.Accepted
        · rw [ofToken_of_accepted ht] at h
          contradiction
        · rw [ofToken_of_not_accepted ht, htext, String.ofList_toList] at h
          exact (Except.error.inj h).symm
      · rw [String.ofList_toList] at h
        exact (Except.error.inj h).symm
    · rw [String.ofList_toList] at h
      exact (Except.error.inj h).symm

end Reading

namespace Json

variable {root v : Json} {text : String} {p : Path} {e : PathFailure}

theorem isNull_iff : v.isNull ↔ v = .null := by
  cases v <;> simp [isNull]

def IsScalar : Json → Prop
  | array _ => False
  | object _ => False
  | _ => True

theorem IsScalar.member?_eq_none (hv : v.IsScalar) (name : String) : v.member? name = none := by
  cases v with
  | array items => exact hv.elim
  | object members => exact hv.elim
  | _ => rfl

theorem IsScalar.resolve_cons (hv : v.IsScalar) (s : Segment) (rest : Path) :
    v.resolve (s :: rest) = .error (.missing s.name) := by
  apply resolve_eq_error_iff.mpr
  exact ⟨.name s rest, .name (hv.member?_eq_none s.name), rfl⟩

theorem query_of_parse_error (h : Path.parse text = .error e) : root.query text = .error e := by
  rw [query, h]
  rfl

theorem query_of_parse_ok (h : Path.parse text = .ok p) : root.query text = root.resolve p := by
  rw [query, h]
  rfl

theorem resolve_failures (h : root.resolve p = .error e) : ∃ x, e = .missing x := by
  obtain ⟨l, _, he⟩ := resolve_eq_error_iff.mp h
  exact ⟨l.reported, he⟩

theorem query_failures (h : root.query text = .error e) :
    e = .emptyPath ∨ (∃ x, e = .malformed x) ∨ ∃ x, e = .missing x := by
  cases hp : Path.parse text with
  | error e' =>
    rw [query_of_parse_error hp, Except.error.injEq] at h
    subst h
    exact (parse_failures hp).imp_right Or.inl
  | ok p =>
    rw [query_of_parse_ok hp] at h
    exact Or.inr (Or.inr (resolve_failures h))

theorem query_ne_error_nullDocument (root : Json) (text : String) :
    root.query text ≠ .error .nullDocument := by
  intro h
  rcases query_failures h with he | ⟨_, he⟩ | ⟨_, he⟩ <;> contradiction

theorem query_ne_error_emptySegment (root : Json) (text : String) :
    root.query text ≠ .error .emptySegment := by
  intro h
  rcases query_failures h with he | ⟨_, he⟩ | ⟨_, he⟩ <;> contradiction

/-- No value of a scalar is found but itself, so that all scalars answer alike. -/
theorem IsScalar.query_eq (hv : v.IsScalar) (text : String) :
    v.query text = (Json.null.query text).map fun _ => v := by
  cases hp : Path.parse text with
  | error e =>
    rw [query_of_parse_error hp, query_of_parse_error hp]
    rfl
  | ok p =>
    rw [query_of_parse_ok hp, query_of_parse_ok hp]
    cases p with
    | nil => rfl
    | cons s rest =>
      have hnull : Json.null.IsScalar := trivial
      rw [hv.resolve_cons, hnull.resolve_cons]
      rfl

theorem answeredInOrder_query (root : Json) (text : String) :
    AnsweredInOrder text (root.query text) where
  emptyPath := by
    rw [← parse_eq_error_emptyPath_iff]
    cases hp : Path.parse text with
    | error e => rw [query_of_parse_error hp, Except.error.injEq, Except.error.injEq]
    | ok p =>
      rw [query_of_parse_ok hp]
      constructor
      · intro h
        obtain ⟨x, hx⟩ := resolve_failures h
        contradiction
      · intro h
        contradiction
  malformed := by
    intro before w content after h
    exact query_of_parse_error h.ofChars_eq
  lookedUp := by
    intro hne hall
    have hcs : text.toList ≠ [] := fun h => hne (String.toList_eq_nil_iff.mp h)
    obtain ⟨p, hp⟩ := exists_ofChars_eq_ok hcs hall
    rw [query_of_parse_ok hp]
    cases h : root.resolve p with
    | ok v => exact Or.inl ⟨v, rfl⟩
    | error e =>
      obtain ⟨x, rfl⟩ := resolve_failures h
      exact Or.inr ⟨x, rfl⟩

end Json

section Document

variable {document : Json}

theorem lookup_null (text : String) : lookup .null text = .error .nullDocument := rfl

theorem lookup_of_ne_null (h : document ≠ .null) (text : String) :
    lookup document text = document.query text := by
  rw [lookup, if_neg fun hnull => h (Json.isNull_iff.mp hnull)]

theorem lookupValue_string (document : Json) (text : String) :
    lookupValue document (.string text) = lookup document text := rfl

theorem lookupValue_of_ne_string {j : Json} (h : ∀ s, j ≠ .string s) :
    lookupValue document j = lookup document "" := by
  have hj : Path.ofJson j = Path.parse "" := by
    rw [parse_eq_error_emptyPath_iff.mpr rfl]
    cases j with
    | string s => exact absurd rfl (h s)
    | _ => rfl
  rw [lookupValue, hj]
  rfl

theorem lookup_failures {text : String} {e : PathFailure} (h : lookup document text = .error e) :
    e = .nullDocument ∨ e = .emptyPath ∨ (∃ x, e = .malformed x) ∨ ∃ x, e = .missing x := by
  by_cases hnull : document = .null
  · rw [hnull, lookup_null] at h
    exact Or.inl (Except.error.inj h).symm
  · rw [lookup_of_ne_null hnull] at h
    exact Or.inr (Json.query_failures h)

theorem lookup_ne_error_emptySegment (document : Json) (text : String) :
    lookup document text ≠ .error .emptySegment := by
  intro h
  rcases lookup_failures h with he | he | ⟨_, he⟩ | ⟨_, he⟩ <;> contradiction

theorem lookup_eq_error_nullDocument_iff {text : String} :
    lookup document text = .error .nullDocument ↔ document = .null := by
  constructor
  · intro h
    by_contra hnull
    rw [lookup_of_ne_null hnull] at h
    exact Json.query_ne_error_nullDocument document text h
  · rintro rfl
    exact lookup_null text

theorem lookupValue_ne_error_emptySegment (document j : Json) :
    lookupValue document j ≠ .error .emptySegment := by
  by_cases hj : ∃ s, j = .string s
  · obtain ⟨s, rfl⟩ := hj
    exact lookup_ne_error_emptySegment document s
  · rw [lookupValue_of_ne_string fun s hs => hj ⟨s, hs⟩]
    exact lookup_ne_error_emptySegment document ""

end Document

/-- The failures of a lookup come in a fixed order, and it is the same one for a text that is looked
up by itself, over any document, and for one that is given as a value. -/
theorem failures_in_order (document : Json) (text : String) :
    ((¬∀ t ∈ Token.scan text.toList, t.Accepted) → ∃ before w content after,
      FirstRefused text.toList before (.bracketed w content) after) ∧
    (lookup document text = .error .nullDocument ↔ document = .null) ∧
    (document ≠ .null → AnsweredInOrder text (lookup document text) ∧
      lookup document text = document.query text) ∧
    AnsweredInOrder text (document.query text) ∧
    (∀ v : Json, v.IsScalar → v.query text = (Json.null.query text).map fun _ => v) ∧
    lookupValue document (.string text) = lookup document text ∧
    (∀ j : Json, (∀ s, j ≠ .string s) → lookupValue document j = lookup document "") ∧
    document.query text ≠ .error .nullDocument ∧
    document.query text ≠ .error .emptySegment ∧
    lookup document text ≠ .error .emptySegment ∧
    (∀ j, lookupValue document j ≠ .error .emptySegment) ∧
    Segment.parse text ≠ .error .emptyPath := by
  have hfirst : (¬∀ t ∈ Token.scan text.toList, t.Accepted) → ∃ before w content after,
      FirstRefused text.toList before (.bracketed w content) after := by
    intro h
    obtain ⟨before, t, after, ht⟩ := exists_firstRefused h
    obtain ⟨w, content, rfl⟩ := ht.exists_bracketed
    exact ⟨before, w, content, after, ht⟩
  have hquery := Json.answeredInOrder_query document text
  have hlookup : document ≠ .null → AnsweredInOrder text (lookup document text) ∧
      lookup document text = document.query text := by
    intro h
    rw [lookup_of_ne_null h]
    exact ⟨hquery, rfl⟩
  have hpath : Segment.parse text ≠ .error .emptyPath := by
    intro h
    rcases parseSegment_failures h with he | he <;> contradiction
  exact ⟨hfirst, lookup_eq_error_nullDocument_iff, hlookup, hquery,
    fun v hv => hv.query_eq text, lookupValue_string document text,
    fun j hj => lookupValue_of_ne_string hj, Json.query_ne_error_nullDocument document text,
    Json.query_ne_error_emptySegment document text, lookup_ne_error_emptySegment document text,
    lookupValue_ne_error_emptySegment document, hpath⟩

/-- Of two tokens that are no segments the first is reported, and no member that is missing. -/
theorem failures_in_order_of_two_refused :
    FirstRefused "gone.a[1].c['d']".toList "gone.".toList (.bracketed ['a'] ['1'])
        ".c['d']".toList ∧
      (.bool true : Json) ≠ .null ∧
      lookup (.bool true) "gone.a[1].c['d']" = .error (.malformed "a[1]") := by
  have hfirst : FirstRefused "gone.a[1].c['d']".toList "gone.".toList (.bracketed ['a'] ['1'])
      ".c['d']".toList := by
    have hscan : Token.scan "gone.".toList = [.word "gone".toList] := by cbv
    refine ⟨by decide, by cbv, ?_, ?_⟩
    · rw [hscan]
      simp [Token.Accepted]
    · simp [Token.Accepted]
  have hne : (.bool true : Json) ≠ .null := by simp
  refine ⟨hfirst, hne, ?_⟩
  obtain ⟨hlookup, _⟩ := (failures_in_order (.bool true) "gone.a[1].c['d']").2.2.1 hne
  exact hlookup.malformed _ _ _ _ hfirst

end DocPath
