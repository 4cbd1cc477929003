import DocPath.Proofs.Path.Cut

/-!
The maximal runs of word characters of a text: a text has one list of them, and a separator parts
it. Where no bracket opens they are the tokens.
-/

namespace DocPath

/-- The maximal runs of word characters, from left to right. -/
def wordRuns (cs : List Char) : List (List Char) :=
  (cs.splitOnP fun c => !isWord c).filter fun run => !run.isEmpty

@[simp] theorem wordRuns_nil : wordRuns [] = [] := by
  simp [wordRuns]

theorem wordRuns_cons_of_not_isWord {c : Char} (h : isWord c = false) (cs : List Char) :
    wordRuns (c :: cs) = wordRuns cs := by
  simp [wordRuns, List.splitOnP_cons_eq_if_modifyHead, h]

theorem wordRuns_run_append {w rest : List Char} (hw : IsRun w) (hr : Stops isWord rest) :
    wordRuns (w ++ rest) = w :: wordRuns rest := by
  have hall : ∀ c ∈ w, (!isWord c) = false := fun c hc => by simp [hw.2 c hc]
  have hne : w.isEmpty = false := by simpa using hw.1
  cases rest with
  | nil => simp [wordRuns, List.splitOnP_eq_singleton hall, hne]
  | cons c after =>
    have hc := hr c after rfl
    have hsplit := List.splitOnP_append_cons_of_forall_mem hall c (by simp [hc]) after
    rw [wordRuns_cons_of_not_isWord hc]
    simp [wordRuns, hsplit, hne]

theorem wordRuns_gap_append {g : List Char} (hg : IsGap g) (rest : List Char) :
    wordRuns (g ++ rest) = wordRuns rest := by
  induction g with
  | nil => rfl
  | cons c g ih =>
    rw [List.cons_append, wordRuns_cons_of_not_isWord (hg c List.mem_cons_self)]
    exact ih fun d hd => hg d (List.mem_cons_of_mem c hd)

theorem wordRuns_gap {g : List Char} (hg : IsGap g) : wordRuns g = [] := by
  have hruns := wordRuns_gap_append hg []
  rwa [List.append_nil, wordRuns_nil] at hruns

theorem wordRuns_append_cons {c : Char} (h : isWord c = false) (xs ys : List Char) :
    wordRuns (xs ++ c :: ys) = wordRuns xs ++ wordRuns ys := by
  unfold wordRuns
  rw [List.splitOnP_append_cons xs ys (by simp [h]), List.filter_append]

/-- A text taken apart into runs and the gaps around them, where each run ends because it cannot go
on. -/
inductive RunsOf : List Char → List (List Char) → Prop where
  | gap {g : List Char} (hg : IsGap g) : RunsOf g []
  | run {g w rest : List Char} {runs : List (List Char)} (hg : IsGap g) (hw : IsRun w)
      (hstops : Stops isWord rest) (hrest : RunsOf rest runs) :
      RunsOf (g ++ (w ++ rest)) (w :: runs)

namespace RunsOf

variable {cs : List Char} {runs : List (List Char)}

theorem eq_wordRuns (h : RunsOf cs runs) : runs = wordRuns cs := by
  induction h with
  | gap hg => exact (wordRuns_gap hg).symm
  | run hg hw hstops _ ih =>
    rw [wordRuns_gap_append hg, wordRuns_run_append hw hstops, ← ih]

theorem cons_of_not_isWord {c : Char} (hc : isWord c = false) (h : RunsOf cs runs) :
    RunsOf (c :: cs) runs := by
  cases h with
  | gap hg => exact .gap (List.forall_mem_cons.mpr ⟨hc, hg⟩)
  | run hg hw hstops hrest => exact .run (List.forall_mem_cons.mpr ⟨hc, hg⟩) hw hstops hrest

/-- A word character in front makes the first run longer, or it is a run of its own. -/
theorem exists_cons_of_isWord {c : Char} (hc : isWord c) (h : RunsOf cs runs) :
    ∃ runs', RunsOf (c :: cs) runs' := by
  have hnone : IsGap [] := by simp [IsGap]
  have hsingle : IsRun [c] := ⟨by simp, by simpa using hc⟩
  cases h with
  | gap hg =>
    have hstops : Stops isWord cs := fun d after hd => hg d (by simp [hd])
    exact ⟨[[c]], .run hnone hsingle hstops (.gap hg)⟩
  | @run g w rest runs hg hw hstops hrest =>
    cases g with
    | nil =>
      have hlonger : IsRun (c :: w) := ⟨by simp, List.forall_mem_cons.mpr ⟨hc, hw.2⟩⟩
      exact ⟨(c :: w) :: runs, .run hnone hlonger hstops hrest⟩
    | cons d g =>
      have hd : Stops isWord (d :: g ++ (w ++ rest)) := stops_cons (hg d List.mem_cons_self)
      exact ⟨[c] :: w :: runs, .run hnone hsingle hd (.run hg hw hstops hrest)⟩

theorem exists_runs (cs : List Char) : ∃ runs, RunsOf cs runs := by
  induction cs with
  | nil => exact ⟨[], .gap (by simp [IsGap])⟩
  | cons c cs ih =>
    obtain ⟨runs, hruns⟩ := ih
    cases hc : isWord c with
    | true => exact hruns.exists_cons_of_isWord hc
    | false => exact ⟨runs, hruns.cons_of_not_isWord hc⟩

end RunsOf

theorem runsOf_iff {cs : List Char} {runs : List (List Char)} :
    RunsOf cs runs ↔ runs = wordRuns cs := by
  constructor
  · exact RunsOf.eq_wordRuns
  · rintro rfl
    obtain ⟨runs, hruns⟩ := RunsOf.exists_runs cs
    rwa [← hruns.eq_wordRuns]

theorem scan_eq_map_word {cs : List Char} (h : '[' ∉ cs) :
    Token.scan cs = (wordRuns cs).map .word := by
  fun_induction Token.scan cs with
  | case1 => rfl
  | case2 c cs hc content after hg ih =>
    have hmem : '[' ∈ cs.dropWhile isWord := by
      rw [(Token.group?_eq_some_iff.mp hg).1]
      exact List.mem_cons_self
    exact absurd (List.mem_cons_of_mem c ((List.dropWhile_sublist isWord).mem hmem)) h
  | case3 c cs hc hg ih =>
    have hrest : '[' ∉ cs.dropWhile isWord := fun hm =>
      h (List.mem_cons_of_mem c ((List.dropWhile_sublist isWord).mem hm))
    have hruns := wordRuns_run_append (isRun_cons_takeWhile hc cs) (stops_dropWhile isWord cs)
    rw [List.cons_append, List.takeWhile_append_dropWhile] at hruns
    rw [hruns, ih hrest, List.map_cons]
  | case4 c cs hc ih =>
    rw [wordRuns_cons_of_not_isWord (by simpa using hc)]
    exact ih fun hm => h (List.mem_cons_of_mem c hm)

end DocPath
