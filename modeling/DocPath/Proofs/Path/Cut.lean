import DocPath.Path.Token
import Mathlib.Logic.ExistsUnique

/-!
Ways of taking a text apart into gaps and tokens. Every text has exactly one in which no token could
have gone on, and its tokens are those of the scan.
-/

namespace DocPath

def IsRun (w : List Char) : Prop := w ≠ [] ∧ ∀ c ∈ w, isWord c

def IsGap (g : List Char) : Prop := ∀ c ∈ g, isWord c = false

theorem IsRun.exists_cons {w : List Char} (hw : IsRun w) :
    ∃ c cs, w = c :: cs ∧ isWord c ∧ ∀ d ∈ cs, isWord d := by
  obtain ⟨hne, hall⟩ := hw
  cases w with
  | nil => exact absurd rfl hne
  | cons c cs =>
    exact ⟨c, cs, rfl, hall c List.mem_cons_self, fun d hd => hall d (List.mem_cons_of_mem c hd)⟩

/-- Characters with the property `p` that stand in front of `rest` do not go on in it. -/
def Stops (p : Char → Bool) (rest : List Char) : Prop := ∀ c after, rest = c :: after → p c = false

section Stops

variable {p : Char → Bool} {w rest : List Char}

theorem stops_cons {c : Char} {after : List Char} (h : p c = false) : Stops p (c :: after) := by
  intro d _ hd
  rw [← (List.cons.inj hd).1]
  exact h

theorem stops_dropWhile (p : Char → Bool) (cs : List Char) : Stops p (cs.dropWhile p) := by
  intro c after h
  have := List.head?_dropWhile_not p cs
  rw [h] at this
  simpa using this

theorem takeWhile_append_of_stops (hw : ∀ c ∈ w, p c) (hr : Stops p rest) :
    (w ++ rest).takeWhile p = w := by
  rw [List.takeWhile_append_of_pos hw]
  cases rest with
  | nil => simp
  | cons c after => simp [hr c after rfl]

theorem dropWhile_append_of_stops (hw : ∀ c ∈ w, p c) (hr : Stops p rest) :
    (w ++ rest).dropWhile p = rest := by
  rw [List.dropWhile_append_of_pos hw]
  cases rest with
  | nil => rfl
  | cons c after => simp [hr c after rfl]

theorem append_inj_of_stops {v rest' : List Char} (hv : ∀ c ∈ v, p c) (hw : ∀ c ∈ w, p c)
    (hr : Stops p rest) (hr' : Stops p rest') (h : v ++ rest = w ++ rest') :
    v = w ∧ rest = rest' := by
  have ht := congrArg (List.takeWhile p) h
  have hd := congrArg (List.dropWhile p) h
  rw [takeWhile_append_of_stops hv hr, takeWhile_append_of_stops hw hr'] at ht
  rw [dropWhile_append_of_stops hv hr, dropWhile_append_of_stops hw hr'] at hd
  exact ⟨ht, hd⟩

end Stops

theorem isRun_cons_takeWhile {c : Char} (hc : isWord c) (cs : List Char) :
    IsRun (c :: cs.takeWhile isWord) := by
  refine ⟨List.cons_ne_nil _ _, ?_⟩
  intro d hd
  rcases List.mem_cons.mp hd with rfl | hd
  · exact hc
  · exact List.all_eq_true.mp List.all_takeWhile d hd

namespace Token

def Proper : Token → Prop
  | word w => IsRun w
  | bracketed w content => IsRun w ∧ ']' ∉ content

/-- A token ends where it does because it cannot go on: a word is followed by no word character and
by no closed bracket group. -/
def EndsBefore : Token → List Char → Prop
  | word _, rest => ∀ c after, rest = c :: after → isWord c = false ∧ (c = '[' → ']' ∉ after)
  | bracketed _ _, _ => True

theorem stops_of_endsBefore {w rest : List Char} (h : (word w).EndsBefore rest) :
    Stops isWord rest := fun c after hr => (h c after hr).1

theorem group?_eq_none_iff {rest : List Char} :
    group? rest = none ↔ ∀ after, rest = '[' :: after → ']' ∉ after := by
  cases rest with
  | nil => simp [group?]
  | cons c after =>
    by_cases hc : c = '['
    · subst hc
      simp [group?, close?_eq_none_iff]
    · simp [group?, hc]

theorem endsBefore_word_iff {w rest : List Char} :
    (word w).EndsBefore rest ↔ Stops isWord rest ∧ group? rest = none := by
  rw [group?_eq_none_iff]
  constructor
  · intro h
    refine ⟨stops_of_endsBefore h, ?_⟩
    rintro after rfl
    exact (h '[' after rfl).2 rfl
  · rintro ⟨hs, hg⟩ c after rfl
    refine ⟨hs c after rfl, ?_⟩
    rintro rfl
    exact hg after rfl

theorem endsBefore_nil (t : Token) : t.EndsBefore [] := by
  cases t <;> simp [EndsBefore]

theorem endsBefore_cons (t : Token) {c : Char} (hc : isWord c = false) (hb : c ≠ '[')
    (after : List Char) : t.EndsBefore (c :: after) := by
  cases t with
  | word w =>
    intro d rest h
    rw [← (List.cons.inj h).1]
    exact ⟨hc, fun h' => absurd h' hb⟩
  | bracketed w content => trivial

theorem exists_text_eq_cons {t : Token} (ht : t.Proper) :
    ∃ c cs, t.text = c :: cs ∧ isWord c := by
  cases t with
  | word w =>
    obtain ⟨c, cs, rfl, hc, _⟩ := IsRun.exists_cons ht
    exact ⟨c, cs, rfl, hc⟩
  | bracketed w content =>
    obtain ⟨c, cs, rfl, hc, _⟩ := ht.1.exists_cons
    exact ⟨c, _, rfl, hc⟩

theorem scan_cons_of_not_isWord {c : Char} (h : isWord c = false) (cs : List Char) :
    scan (c :: cs) = scan cs := by
  rw [scan]
  simp [h]

theorem scan_gap_append {g : List Char} (hg : IsGap g) (rest : List Char) :
    scan (g ++ rest) = scan rest := by
  induction g with
  | nil => rfl
  | cons c g ih =>
    rw [List.cons_append, scan_cons_of_not_isWord (hg c List.mem_cons_self)]
    exact ih fun d hd => hg d (List.mem_cons_of_mem c hd)

theorem scan_gap {g : List Char} (hg : IsGap g) : scan g = [] := by
  have := scan_gap_append hg []
  rwa [List.append_nil, scan_nil] at this

theorem scan_run_append {w rest : List Char} (hw : IsRun w) (hr : Stops isWord rest) :
    scan (w ++ rest) =
      match group? rest with
      | some (content, after) => bracketed w content :: scan after
      | none => word w :: scan rest := by
  obtain ⟨c, cs, rfl, hc, hcs⟩ := hw.exists_cons
  rw [List.cons_append, scan, if_pos hc, takeWhile_append_of_stops hcs hr]
  rw [dropWhile_append_of_stops hcs hr]
  split <;> rename_i h <;> simp [h]

theorem scan_token_append {t : Token} {rest : List Char} (ht : t.Proper)
    (hr : t.EndsBefore rest) : scan (t.text ++ rest) = t :: scan rest := by
  cases t with
  | word w =>
    obtain ⟨hs, hg⟩ := endsBefore_word_iff.mp hr
    rw [text_word, scan_run_append ht hs, hg]
  | bracketed w content =>
    have hg : group? ('[' :: (content ++ ']' :: rest)) = some (content, rest) :=
      group?_eq_some_iff.mpr ⟨rfl, ht.2⟩
    have hs : Stops isWord ('[' :: (content ++ ']' :: rest)) := stops_cons (by decide)
    have htext : (bracketed w content).text ++ rest = w ++ '[' :: (content ++ ']' :: rest) := by
      simp
    rw [htext, scan_run_append ht.1 hs, hg]

end Token

/-- A text taken apart: a gap, a token, a gap, and so on to a last gap. -/
inductive Cut where
  | last (gap : List Char)
  | more (gap : List Char) (token : Token) (rest : Cut)

namespace Cut

def text : Cut → List Char
  | last gap => gap
  | more gap token rest => gap ++ (token.text ++ rest.text)

def tokens : Cut → List Token
  | last _ => []
  | more _ token rest => token :: rest.tokens

def Valid : Cut → Prop
  | last gap => IsGap gap
  | more gap token rest =>
    IsGap gap ∧ token.Proper ∧ token.EndsBefore rest.text ∧ rest.Valid

theorem scan_text {d : Cut} (hd : d.Valid) : Token.scan d.text = d.tokens := by
  induction d with
  | last gap => exact Token.scan_gap hd
  | more gap token rest ih =>
    obtain ⟨hg, ht, he, hrest⟩ := hd
    rw [text, Token.scan_gap_append hg, Token.scan_token_append ht he, ih hrest, tokens]

def cons (c : Char) : Cut → Cut
  | last gap => last (c :: gap)
  | more gap token rest => more (c :: gap) token rest

theorem text_cons (c : Char) (d : Cut) : (d.cons c).text = c :: d.text := by
  cases d <;> rfl

theorem valid_cons {c : Char} {d : Cut} (hc : isWord c = false) (hd : d.Valid) :
    (d.cons c).Valid := by
  cases d with
  | last gap => exact List.forall_mem_cons.mpr ⟨hc, hd⟩
  | more gap token rest => exact ⟨List.forall_mem_cons.mpr ⟨hc, hd.1⟩, hd.2⟩

theorem exists_valid (cs : List Char) : ∃ d : Cut, d.Valid ∧ d.text = cs := by
  -- The scan itself takes the text apart: each of its cases tells the first gap and token.
  fun_induction Token.scan cs with
  | case1 => exact ⟨last [], by simp [Valid, IsGap], rfl⟩
  | case2 c cs hc content after hg ih =>
    obtain ⟨d, hd, htext⟩ := ih
    obtain ⟨hrest, hcontent⟩ := Token.group?_eq_some_iff.mp hg
    refine ⟨more [] (.bracketed (c :: cs.takeWhile isWord) content) d, ?_, ?_⟩
    · exact ⟨by simp [IsGap], ⟨isRun_cons_takeWhile hc cs, hcontent⟩, trivial, hd⟩
    · have hsplit := @List.takeWhile_append_dropWhile _ isWord cs
      rw [hrest] at hsplit
      simpa [text, htext] using hsplit
  | case3 c cs hc hg ih =>
    obtain ⟨d, hd, htext⟩ := ih
    refine ⟨more [] (.word (c :: cs.takeWhile isWord)) d, ?_, ?_⟩
    · refine ⟨by simp [IsGap], isRun_cons_takeWhile hc cs, ?_, hd⟩
      rw [htext]
      exact Token.endsBefore_word_iff.mpr ⟨stops_dropWhile isWord cs, hg⟩
    · simp [text, htext, List.takeWhile_append_dropWhile]
  | case4 c cs hc ih =>
    obtain ⟨d, hd, htext⟩ := ih
    exact ⟨d.cons c, valid_cons (by simpa using hc) hd, by rw [text_cons, htext]⟩

theorem stops_token_append {t : Token} (ht : t.Proper) (rest : List Char) :
    Stops (fun c => !isWord c) (t.text ++ rest) := by
  obtain ⟨c, cs, htext, hc⟩ := Token.exists_text_eq_cons ht
  rw [htext, List.cons_append]
  exact stops_cons (by simp [hc])

theorem token_append_inj {t t' : Token} {rest rest' : List Char} (ht : t.Proper)
    (ht' : t'.Proper) (he : t.EndsBefore rest) (he' : t'.EndsBefore rest')
    (h : t.text ++ rest = t'.text ++ rest') : t = t' ∧ rest = rest' := by
  have hscan := congrArg Token.scan h
  rw [Token.scan_token_append ht he, Token.scan_token_append ht' he'] at hscan
  obtain ⟨rfl, _⟩ := List.cons.inj hscan
  exact ⟨rfl, List.append_cancel_left h⟩

theorem eq_of_text_eq {d d' : Cut} (hd : d.Valid) (hd' : d'.Valid) (h : d.text = d'.text) :
    d = d' := by
  -- The first gap ends at a word character, and the first token at a place where it cannot go on.
  induction d generalizing d' with
  | last gap =>
    cases d' with
    | last gap' => exact congrArg last h
    | more gap' token rest =>
      have htokens := scan_text hd'
      rw [← h, scan_text hd] at htokens
      contradiction
  | more gap token rest ih =>
    cases d' with
    | last gap' =>
      have htokens := scan_text hd
      rw [h, scan_text hd'] at htokens
      contradiction
    | more gap' token' rest' =>
      obtain ⟨hg, ht, he, hrest⟩ := hd
      obtain ⟨hg', ht', he', hrest'⟩ := hd'
      obtain ⟨rfl, htail⟩ := append_inj_of_stops (by simpa [IsGap] using hg)
        (by simpa [IsGap] using hg') (stops_token_append ht _) (stops_token_append ht' _) h
      obtain ⟨rfl, htext⟩ := token_append_inj ht ht' he he' htail
      rw [ih hrest hrest' htext]

end Cut

end DocPath
