import DocPath.Proofs.Path.Join
import Mathlib

/-!
Positions and quoted names in brackets. Behind a word they are refused, whatever stands around them.
Behind a closing bracket no token goes on, so that the brackets only separate and what they hold is
read by itself.
-/

namespace DocPath

/-- The content of brackets that would pick a member without a path: digits alone, or a text that
begins with a quote. -/
def IsLiteral (content : List Char) : Prop :=
  content ≠ [] ∧
    ((∀ c ∈ content, c.isDigit) ∨ content.head? = some '\x27' ∨ content.head? = some '"')

def EndsInWord (front : List Char) : Prop := ∃ c, front.getLast? = some c ∧ isWord c

theorem IsLiteral.not_accepted {content : List Char} (h : IsLiteral content) (w : List Char) :
    ¬(Token.bracketed w content).Accepted := by
  rintro ⟨_, hchars, hdigits⟩
  rcases h.2 with hall | hquote | hquote
  · exact hdigits hall
  · exact absurd (hchars _ (List.mem_of_mem_head? hquote)) (by decide)
  · exact absurd (hchars _ (List.mem_of_mem_head? hquote)) (by decide)

theorem EndsInWord.of_append (front : List Char) {tail : List Char}
    (h : EndsInWord (front ++ tail)) (hne : tail ≠ []) : EndsInWord tail := by
  obtain ⟨c, hlast, hc⟩ := h
  refine ⟨c, ?_, hc⟩
  rwa [List.getLast?_append_of_ne_nil front hne] at hlast

theorem EndsInWord.ne_nil {front : List Char} (h : EndsInWord front) : front ≠ [] := by
  rintro rfl
  obtain ⟨c, hlast, _⟩ := h
  contradiction

theorem not_endsInWord_singleton {c : Char} (hc : isWord c = false) : ¬EndsInWord [c] := by
  rintro ⟨d, hlast, hd⟩
  have heq : c = d := Option.some.inj hlast
  rw [← heq, hc] at hd
  contradiction

/-- Where a run of word characters stands at the start of a text, a bracket behind a word opens right
behind the run or further on. -/
theorem run_append_split {w rest front more : List Char} (hw : ∀ c ∈ w, isWord c)
    (h : w ++ rest = front ++ '[' :: more) :
    rest = '[' :: more ∨ ∃ tail, tail ≠ [] ∧ front = w ++ tail ∧ rest = tail ++ '[' :: more := by
  rcases List.append_eq_append_iff.mp h with ⟨tail, hfront, hrest⟩ | ⟨tail, hsplit, hmore⟩
  · by_cases hne : tail = []
    · rw [hne] at hrest
      exact Or.inl hrest
    · exact Or.inr ⟨tail, hne, hfront, hrest⟩
  · cases tail with
    | nil => exact Or.inl hmore.symm
    | cons c tail =>
      have hc : c = '[' := (List.cons.inj hmore).1.symm
      have hword := hw c (by rw [hsplit]; simp)
      rw [hc] at hword
      exact absurd hword (by decide)

/-- A bracket behind a word opens in the content of a group, or behind the group. -/
theorem group_append_split {content rest front more : List Char} (hfront : EndsInWord front)
    (h : '[' :: content ++ ']' :: rest = front ++ '[' :: more) :
    '[' ∈ content ∨ ∃ tail, EndsInWord tail ∧ rest = tail ++ '[' :: more := by
  rw [List.cons_append] at h
  cases front with
  | nil => exact absurd rfl hfront.ne_nil
  | cons c front =>
    obtain ⟨rfl, htail⟩ := List.cons.inj h
    rcases List.append_eq_append_iff.mp htail with ⟨tail, hsplit, hrest⟩ | ⟨tail, hsplit, hrest⟩
    · cases tail with
      | nil => simp at hrest
      | cons c tail =>
        obtain ⟨rfl, hbehind⟩ := List.cons.inj hrest
        refine Or.inr ⟨tail, ?_, hbehind⟩
        have hends : EndsInWord (']' :: tail) := by
          rw [hsplit, ← List.cons_append] at hfront
          exact hfront.of_append _ (List.cons_ne_nil _ _)
        apply hends.of_append [']']
        rintro rfl
        exact not_endsInWord_singleton (by decide) hends
    · cases tail with
      | nil => simp at hrest
      | cons c tail =>
        obtain ⟨rfl, _⟩ := List.cons.inj hrest
        left
        rw [hsplit]
        simp

/-- A closed group behind a word is the group of a token, or it opens inside one. -/
theorem exists_bracketed_mem_scan {cs front content after : List Char} (hfront : EndsInWord front)
    (hclose : ']' ∉ content) (h : cs = front ++ '[' :: (content ++ ']' :: after)) :
    ∃ w whole, .bracketed w whole ∈ Token.scan cs ∧ (whole = content ∨ '[' ∈ whole) := by
  fun_induction Token.scan cs generalizing front with
  | case1 => simp at h
  | case2 c cs hc whole rest hg ih =>
    have hrun := isRun_cons_takeWhile hc cs
    have hgroup := (Token.group?_eq_some_iff.mp hg).1
    have hcs : c :: cs = (c :: cs.takeWhile isWord) ++ cs.dropWhile isWord := by simp
    rcases run_append_split hrun.2 (hcs.symm.trans h) with hrest | ⟨tail, hne, hsplit, hrest⟩
    · have hg' := Token.group?_eq_some_iff.mpr ⟨hrest, hclose⟩
      obtain ⟨rfl, _⟩ := Prod.mk.inj (Option.some.inj (hg.symm.trans hg'))
      exact ⟨_, _, List.mem_cons_self, Or.inl rfl⟩
    · rw [hsplit] at hfront
      rcases group_append_split (hfront.of_append _ hne) (hgroup.symm.trans hrest) with
        hopen | ⟨tail, htail, hafter⟩
      · exact ⟨_, _, List.mem_cons_self, Or.inr hopen⟩
      · obtain ⟨w, whole', hmem, hwhole⟩ := ih htail hafter
        exact ⟨w, whole', List.mem_cons_of_mem _ hmem, hwhole⟩
  | case3 c cs hc hg ih =>
    have hrun := isRun_cons_takeWhile hc cs
    have hcs : c :: cs = (c :: cs.takeWhile isWord) ++ cs.dropWhile isWord := by simp
    rcases run_append_split hrun.2 (hcs.symm.trans h) with hrest | ⟨tail, hne, hsplit, hrest⟩
    · have hnot := Token.group?_eq_none_iff.mp hg _ hrest
      exact absurd (List.mem_append_right content List.mem_cons_self) hnot
    · rw [hsplit] at hfront
      obtain ⟨w, whole, hmem, hwhole⟩ := ih (hfront.of_append _ hne) hrest
      exact ⟨w, whole, List.mem_cons_of_mem _ hmem, hwhole⟩
  | case4 c cs hc ih =>
    cases front with
    | nil => exact absurd rfl hfront.ne_nil
    | cons d front =>
      obtain ⟨rfl, hcs⟩ := List.cons.inj h
      have hne : front ≠ [] := by
        rintro rfl
        exact not_endsInWord_singleton (by simpa using hc) hfront
      exact ih (hfront.of_append [c] hne) hcs

theorem exists_not_accepted_of_literal {front content : List Char} (after : List Char)
    (hfront : EndsInWord front) (hclose : ']' ∉ content) (hliteral : IsLiteral content) :
    ¬∀ t ∈ Token.scan (front ++ '[' :: (content ++ ']' :: after)), t.Accepted := by
  intro hall
  obtain ⟨w, whole, hmem, hwhole⟩ := exists_bracketed_mem_scan hfront hclose rfl
  have haccepted := hall _ hmem
  rcases hwhole with rfl | hopen
  · exact hliteral.not_accepted w haccepted
  · exact haccepted.no_bracket hopen

theorem scan_group_behind_close (front content after : List Char) :
    Token.scan (front ++ [']'] ++ '[' :: (content ++ ']' :: after)) =
      Token.scan (front ++ [']']) ++ (Token.scan (content ++ [']']) ++ Token.scan after) := by
  have hsplit : content ++ ']' :: after = content ++ [']'] ++ after := by simp
  rw [Token.scan_append (apart_of_close front _), Token.scan_cons_of_not_isWord (by decide)]
  rw [hsplit, Token.scan_append (apart_of_close content after)]

/-- A position or a quoted name in brackets is refused behind a word. Behind a closing bracket it is
read like any text between separators. -/
theorem parse_of_literal_in_brackets {s : String} {front content after : List Char}
    (htext : s.toList = front ++ '[' :: (content ++ ']' :: after)) (hclose : ']' ∉ content)
    (hliteral : IsLiteral content) :
    (EndsInWord front → ∃ x, Path.parse s = .error (.malformed x)) ∧
    (front.getLast? = some ']' →
      let tokens := Token.scan front ++ (Token.scan (content ++ [']']) ++ Token.scan after)
      ∀ p, Path.parse s = .ok p ↔ (∀ t ∈ tokens, t.Accepted) ∧ p = tokens.map Token.segment) := by
  constructor
  · intro hfront
    have hnot := exists_not_accepted_of_literal after hfront hclose hliteral
    obtain ⟨before, t, behind, ht⟩ := exists_firstRefused hnot
    rw [Path.parse, htext]
    exact ⟨_, ht.ofChars_eq⟩
  · intro hlast tokens p
    obtain ⟨before, rfl⟩ := List.getLast?_eq_some_iff.mp hlast
    rw [Path.parse, htext, ofChars_eq_ok_iff (by simp), scan_group_behind_close]

/-- A position is accepted behind the brackets of an index path, and so is a quoted name. -/
theorem literal_accepted_behind_brackets :
    ("a[b][0]".toList = "a[b]".toList ++ '[' :: (['0'] ++ ']' :: []) ∧
      "a[b]".toList.getLast? = some ']' ∧ IsLiteral ['0'] ∧
      Path.parse "a[b][0]" = .ok [.indexed "a" [.bare "b"], .bare "0"]) ∧
    ("a[b]['c']".toList = "a[b]".toList ++ '[' :: ("'c'".toList ++ ']' :: []) ∧
      IsLiteral "'c'".toList ∧
      Path.parse "a[b]['c']" = .ok [.indexed "a" [.bare "b"], .bare "c"]) := by
  have hzero : IsLiteral ['0'] := ⟨by simp, Or.inl (by simp)⟩
  have hquoted : IsLiteral "'c'".toList := ⟨by simp, Or.inr (Or.inl (by simp))⟩
  have hzeroRead : Path.parse "a[b][0]" = .ok [.indexed "a" [.bare "b"], .bare "0"] := by cbv
  have hquotedRead : Path.parse "a[b]['c']" = .ok [.indexed "a" [.bare "b"], .bare "c"] := by cbv
  exact ⟨⟨by simp, by simp, hzero, hzeroRead⟩, by simp, hquoted, hquotedRead⟩

/-- In a group that is open already, brackets are refused as well. -/
theorem parse_of_literal_in_open_brackets :
    "x[a[0]].b".toList = "x[a".toList ++ '[' :: (['0'] ++ ']' :: "].b".toList) ∧
      EndsInWord "x[a".toList ∧ ']' ∉ ['0'] ∧ IsLiteral ['0'] ∧
      ∃ x, Path.parse "x[a[0]].b" = .error (.malformed x) := by
  have htext : "x[a[0]].b".toList = "x[a".toList ++ '[' :: (['0'] ++ ']' :: "].b".toList) := by
    simp
  have hfront : EndsInWord "x[a".toList := ⟨'a', by simp, by decide⟩
  have hclose : ']' ∉ ['0'] := by decide
  have hliteral : IsLiteral ['0'] := ⟨by simp, Or.inl (by simp)⟩
  exact ⟨htext, hfront, hclose, hliteral,
    (parse_of_literal_in_brackets htext hclose hliteral).1 hfront⟩

end DocPath
