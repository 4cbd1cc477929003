import DocPath.CommandLine.Arguments

/-!
What the verbose option changes in an invocation. Taken out of the arguments it leaves everything
else that they ask for.
-/

namespace DocPath

namespace Invocation

/-- The same invocation without the verbose option. -/
def quiet (i : Invocation) : Invocation := { i with verbose := false }

theorem quiet_of_not_verbose {i : Invocation} (h : i.verbose = false) :
    quiet { i with verbose := true } = i := by
  rw [quiet, ← h]

theorem finish_quiet {i k : Invocation} (h : i.finish = .run k) :
    i.quiet.finish = .run k.quiet := by
  unfold finish at h
  split at h
  · contradiction
  · rename_i hpaths
    obtain rfl := Request.run.inj h
    exact if_neg hpaths

end Invocation

namespace Reading

def quiet : Reading → Reading
  | taken i => taken i.quiet
  | wantsInput i => wantsInput i.quiet
  | ended i => ended i.quiet
  | help => help
  | malformed => malformed

def IsVerbose : Reading → Prop
  | taken i => i.verbose
  | wantsInput i => i.verbose
  | ended i => i.verbose
  | help => True
  | malformed => True

/-- An argument of a verbose invocation is refused, or the quiet invocation takes it alike. -/
def KeptQuiet (r r' : Reading) : Prop := r = malformed ∨ (r.IsVerbose ∧ r' = r.quiet)

section Verbose

variable {i : Invocation} (hi : i.verbose)
include hi

theorem keptQuiet_input (name : String) : KeptQuiet (input i name) (input i.quiet name) := by
  unfold input
  split
  · exact Or.inl rfl
  · rename_i h
    exact Or.inr ⟨hi, if_neg h⟩

theorem keptQuiet_pretty : KeptQuiet (pretty i) (pretty i.quiet) := by
  unfold pretty
  split
  · exact Or.inl rfl
  · rename_i h
    exact Or.inr ⟨hi, if_neg h⟩

/-- The option is not given twice. -/
theorem verbose_of_verbose : verbose i = malformed := if_pos hi

theorem keptQuiet_short (flags : List Char) : KeptQuiet (short i flags) (short i.quiet flags) := by
  unfold short
  split
  · exact Or.inr ⟨hi, rfl⟩
  · exact Or.inr ⟨trivial, rfl⟩
  · rw [verbose_of_verbose hi]
    exact Or.inl rfl
  · exact Or.inr ⟨hi, rfl⟩
  · exact keptQuiet_input hi _
  · exact keptQuiet_input hi _
  · exact Or.inl rfl

theorem keptQuiet_long (name : List Char) (value? : Option (List Char)) :
    KeptQuiet (long i name value?) (long i.quiet name value?) := by
  unfold long
  split
  · exact Or.inr ⟨trivial, rfl⟩
  · exact keptQuiet_pretty hi
  · exact Or.inl (verbose_of_verbose hi)
  · exact Or.inr ⟨hi, rfl⟩
  · exact keptQuiet_input hi _
  · exact Or.inl rfl

theorem keptQuiet_ofArgument (argument : String) :
    KeptQuiet (ofArgument i argument) (ofArgument i.quiet argument) := by
  unfold ofArgument
  split
  · exact Or.inr ⟨hi, rfl⟩
  · exact Or.inr ⟨hi, rfl⟩
  · exact keptQuiet_long hi _ _
  · exact keptQuiet_short hi _
  · exact Or.inr ⟨hi, rfl⟩

end Verbose

theorem KeptQuiet.quiet_eq {r r' q : Reading} (h : KeptQuiet r r') (hr : r = q)
    (hq : q ≠ malformed) : q.IsVerbose ∧ r' = q.quiet := by
  subst hr
  rcases h with h | h
  · exact absurd h hq
  · exact h

section Ended

variable {i j : Invocation}

theorem input_ne_ended (name : String) : input i name ≠ ended j := by
  unfold input
  split <;> simp

theorem pretty_ne_ended : pretty i ≠ ended j := by
  unfold pretty
  split <;> simp

theorem verbose_ne_ended : verbose i ≠ ended j := by
  unfold verbose
  split <;> simp

theorem short_ne_ended (flags : List Char) : short i flags ≠ ended j := by
  fun_induction short i flags with
  | case3 i rest i' _ ih => exact ih
  | case4 => exact verbose_ne_ended
  | case6 => exact input_ne_ended _
  | case7 => exact input_ne_ended _
  | _ => simp

theorem long_ne_ended (name : List Char) (value? : Option (List Char)) :
    long i name value? ≠ ended j := by
  unfold long
  split
  · simp
  · exact pretty_ne_ended
  · exact verbose_ne_ended
  · simp
  · exact input_ne_ended _
  · simp

/-- Only two dashes end the options. -/
theorem eq_of_ended {argument : String} (h : ofArgument i argument = ended j) :
    argument = "--" := by
  unfold ofArgument at h
  split at h
  · contradiction
  · rename_i hchars
    exact String.toList_inj.mp hchars
  · exact absurd h (long_ne_ended _ _)
  · exact absurd h (short_ne_ended _)
  · contradiction

end Ended

end Reading

/-- What arguments ask for that are read from an invocation on. -/
inductive Asks : Invocation → List String → Invocation → Prop where
  | done {i k : Invocation} (h : i.finish = .run k) : Asks i [] k
  | taken {i j k : Invocation} {argument : String} {rest : List String}
      (h : Reading.ofArgument i argument = .taken j) (hrest : Asks j rest k) :
      Asks i (argument :: rest) k
  | ended {i j k : Invocation} {argument : String} {rest : List String}
      (h : Reading.ofArgument i argument = .ended j) (hk : (j.addPaths rest).finish = .run k) :
      Asks i (argument :: rest) k
  | input {i j j' k : Invocation} {argument name : String} {rest : List String}
      (h : Reading.ofArgument i argument = .wantsInput j) (hname : Reading.isValue name)
      (hinput : Reading.input j name = .taken j') (hrest : Asks j' rest k) :
      Asks i (argument :: name :: rest) k

section Asks

variable {i k : Invocation} {arguments : List String}

theorem asks_of_readFrom (h : Request.readFrom i arguments = .run k) : Asks i arguments k := by
  fun_induction Request.readFrom i arguments with
  | case1 => exact .done h
  | case2 _ _ _ _ hread ih => exact .taken hread (ih h)
  | case3 _ _ _ _ hread => exact .ended hread h
  | case7 _ _ _ hread _ _ hname _ hinput ih => exact .input hread hname hinput (ih h)
  | _ => contradiction

theorem Asks.readFrom_eq (h : Asks i arguments k) : Request.readFrom i arguments = .run k := by
  induction h with
  | done h => exact h
  | taken h _ ih =>
    rw [Request.readFrom, h]
    exact ih
  | ended h hk =>
    rw [Request.readFrom, h]
    exact hk
  | input h hname hinput _ ih =>
    rw [Request.readFrom, h]
    simp only [hname, if_true, hinput]
    exact ih

/-- What is asked for from a verbose invocation on is asked for from the quiet one on as well. -/
theorem Asks.quiet (h : Asks i arguments k) (hi : i.verbose) : Asks i.quiet arguments k.quiet := by
  induction h with
  | done h => exact .done (Invocation.finish_quiet h)
  | taken h _ ih =>
    obtain ⟨hj, hread⟩ := (Reading.keptQuiet_ofArgument hi _).quiet_eq h (by simp)
    exact .taken hread (ih hj)
  | ended h hk =>
    obtain ⟨_, hread⟩ := (Reading.keptQuiet_ofArgument hi _).quiet_eq h (by simp)
    exact .ended hread (Invocation.finish_quiet hk)
  | input h hname hinput _ ih =>
    obtain ⟨hj, hread⟩ := (Reading.keptQuiet_ofArgument hi _).quiet_eq h (by simp)
    obtain ⟨hj', hinput'⟩ := (Reading.keptQuiet_input hj _).quiet_eq hinput (by simp)
    exact .input hread hname hinput' (ih hj')

/-- The two spellings of the verbose option. -/
def IsVerboseFlag (flag : String) : Prop := flag = "-v" ∨ flag = "--verbose"

section Flag

variable {flag : String} (hflag : IsVerboseFlag flag)
include hflag

theorem IsVerboseFlag.ofArgument_eq : Reading.ofArgument i flag = Reading.verbose i := by
  rcases hflag with rfl | rfl
  · have hshort : Reading.ofArgument i "-v" = Reading.short i ['v'] := rfl
    rw [hshort]
    unfold Reading.short
    cases Reading.verbose i <;> simp [Reading.short]
  · rfl

theorem IsVerboseFlag.not_isValue : Reading.isValue flag = false := by
  have hdash : flag.startsWith "-" := by
    rw [String.startsWith_string_iff]
    rcases hflag with rfl | rfl <;> simp
  have hne : flag ≠ "-" := by
    rcases hflag with rfl | rfl <;> simp
  simp [Reading.isValue, hdash, hne]

/-- The verbose option is taken once, and then it leaves the invocation verbose. -/
theorem IsVerboseFlag.of_taken {j : Invocation} (h : Reading.ofArgument i flag = .taken j) :
    j.verbose ∧ j.quiet = i := by
  rw [hflag.ofArgument_eq] at h
  unfold Reading.verbose at h
  split at h
  · contradiction
  · rename_i hi
    obtain rfl := Reading.taken.inj h
    exact ⟨rfl, Invocation.quiet_of_not_verbose (by simpa using hi)⟩

theorem IsVerboseFlag.ne_wantsInput {j : Invocation} :
    Reading.ofArgument i flag ≠ .wantsInput j := by
  rw [hflag.ofArgument_eq]
  unfold Reading.verbose
  split <;> simp

/-- Without the verbose option arguments ask for the same but for that. -/
theorem Asks.of_append_flag {before after : List String} (hbefore : "--" ∉ before)
    (h : Asks i (before ++ flag :: after) k) : Asks i (before ++ after) k.quiet := by
  generalize hall : before ++ flag :: after = arguments at h
  induction h generalizing before with
  | done h => simp at hall
  | taken h hrest ih =>
    rcases before with _ | ⟨first, before⟩
    · obtain ⟨rfl, rfl⟩ := List.cons.inj hall
      obtain ⟨hj, hquiet⟩ := hflag.of_taken h
      rw [← hquiet]
      exact hrest.quiet hj
    · obtain ⟨rfl, hrest'⟩ := List.cons.inj hall
      exact .taken h (ih (List.not_mem_of_not_mem_cons hbefore) hrest')
  | ended h hk =>
    have hdashes := Reading.eq_of_ended h
    rcases before with _ | ⟨first, before⟩
    · obtain ⟨rfl, rfl⟩ := List.cons.inj hall
      rw [hflag.ofArgument_eq] at h
      exact absurd h Reading.verbose_ne_ended
    · obtain ⟨rfl, _⟩ := List.cons.inj hall
      exact absurd (hdashes ▸ List.mem_cons_self) hbefore
  | input h hname hinput hrest ih =>
    rcases before with _ | ⟨first, _ | ⟨second, before⟩⟩
    · obtain ⟨rfl, _⟩ := List.cons.inj hall
      exact absurd h hflag.ne_wantsInput
    · obtain ⟨rfl, hrest'⟩ := List.cons.inj hall
      obtain ⟨rfl, _⟩ := List.cons.inj hrest'
      rw [hflag.not_isValue] at hname
      contradiction
    · obtain ⟨rfl, hrest'⟩ := List.cons.inj hall
      obtain ⟨rfl, hrest''⟩ := List.cons.inj hrest'
      have hafter := List.not_mem_of_not_mem_cons (List.not_mem_of_not_mem_cons hbefore)
      exact .input h hname hinput (ih hafter hrest'')

theorem ofArguments_append_flag {before after : List String} (hbefore : "--" ∉ before)
    (h : Request.ofArguments (before ++ flag :: after) = .run k) :
    Request.ofArguments (before ++ after) = .run k.quiet := by
  have hasks := asks_of_readFrom h
  exact (hasks.of_append_flag hflag hbefore).readFrom_eq

end Flag

end Asks

end DocPath
