import DocPath.Proofs.Path.Obtained
import DocPath.Session
import Mathlib

/-!
What commands do to a session. One that fails leaves it as it was, so that it could as well not have
been given. Slots hold only paths that can be obtained, so that comparing them compares what they
show.
-/

namespace DocPath.Session

section Failing

variable {read : Json.Reader} {s : Session} {name : String}

theorem keepRead_of_isFailure {r : Except PathFailure Path}
    (h : (s.keepRead name r).2.isFailure) : (s.keepRead name r).1 = s := by
  cases r with
  | ok path => contradiction
  | error e => rfl

theorem withSlot_of_isFailure {act : Path → Session × Reply}
    (hact : ∀ path, (act path).2.isFailure → (act path).1 = s)
    (h : (s.withSlot name act).2.isFailure) : (s.withSlot name act).1 = s := by
  unfold withSlot at h ⊢
  cases hslot : s.slot? name with
  | none => rfl
  | some path =>
    rw [hslot] at h
    exact hact path h

/-- A command that fails leaves the session as it was. -/
theorem step_of_isFailure {command : Command} (h : (s.step read command).2.isFailure) :
    (s.step read command).1 = s := by
  cases command with
  | query text => rfl
  | document => rfl
  | store slot text => exact keepRead_of_isFailure h
  | storeEmpty slot => contradiction
  | resolve slot => exact withSlot_of_isFailure (fun _ _ => rfl) h
  | reread slot into => exact withSlot_of_isFailure (fun _ => keepRead_of_isFailure) h
  | compare slot other =>
    exact withSlot_of_isFailure (fun _ => withSlot_of_isFailure fun _ _ => rfl) h
  | «show» slot => exact withSlot_of_isFailure (fun _ _ => rfl) h
  | rebind text? =>
    rw [step] at h ⊢
    cases hdocument : documentOf read text? with
    | error cause => rfl
    | ok document =>
      rw [hdocument] at h
      contradiction
  | descend text =>
    rw [step] at h ⊢
    cases hvalue : s.document.query text with
    | error e => rfl
    | ok v =>
      rw [hvalue] at h
      contradiction

/-- The commands that do not fail, each in the session that the ones in front of it leave. -/
def followed (read : Json.Reader) (s : Session) : List Command → List Command
  | [] => []
  | command :: rest =>
    let (next, reply) := s.step read command
    if reply.isFailure then next.followed read rest else command :: next.followed read rest

/-- Without the commands that fail a session goes the same way, and it replies the same to the
others. -/
theorem run_followed (read : Json.Reader) (s : Session) (commands : List Command) :
    s.after read (s.followed read commands) = s.after read commands ∧
      s.run read (s.followed read commands) =
        (s.run read commands).filter fun reply => !reply.isFailure := by
  induction commands generalizing s with
  | nil => exact ⟨rfl, rfl⟩
  | cons command rest ih =>
    obtain ⟨hafter, hrun⟩ := ih (s.step read command).1
    by_cases hfails : (s.step read command).2.isFailure
    · have hsame := step_of_isFailure hfails
      simp only [followed, hfails, if_true, run, List.filter_cons, after, List.foldl_cons]
      rw [hsame] at hafter hrun ⊢
      exact ⟨hafter, hrun⟩
    · simp only [followed, hfails, run, List.filter_cons, after, List.foldl_cons]
      exact ⟨hafter, congrArg (_ :: ·) hrun⟩

end Failing

section Slots

/-- All paths that are kept can be obtained. -/
def Sound (s : Session) : Prop := ∀ name path, s.slot? name = some path → path.Obtained

variable {read : Json.Reader} {s : Session} {path : Path}

theorem slot?_keep (s : Session) (name : String) (path : Path) (asked : String) :
    (s.keep name path).slot? asked = if name = asked then some path else s.slot? asked := by
  by_cases h : name = asked
  · simp [slot?, keep, h]
  · have hfirst : (name == asked) = false := beq_eq_false_iff_ne.mpr h
    simp only [slot?, keep, if_neg h, List.find?_cons, hfirst, List.find?_filter]
    congr 2
    funext entry
    by_cases he : entry.1 = asked
    · simp [he, Ne.symm h]
    · simp [he]

theorem sound_start {text? : Option String} (h : start read text? = .ok s) : s.Sound := by
  intro name path hpath
  cases hdocument : documentOf read text? with
  | error cause =>
    rw [start, hdocument] at h
    contradiction
  | ok document =>
    rw [start, hdocument] at h
    obtain rfl := Except.ok.inj h
    contradiction

theorem Sound.keep (hs : s.Sound) (name : String) (hpath : path.Obtained) :
    (s.keep name path).Sound := by
  intro asked kept hkept
  rw [slot?_keep] at hkept
  split_ifs at hkept
  · rwa [← Option.some.inj hkept]
  · exact hs asked kept hkept

theorem Sound.keepRead (hs : s.Sound) (name text : String) :
    (s.keepRead name (Path.parse text)).1.Sound := by
  cases hparse : Path.parse text with
  | ok path => exact hs.keep name (.parse hparse)
  | error e => exact hs

theorem Sound.withSlot (hs : s.Sound) (name : String) {act : Path → Session × Reply}
    (hact : ∀ path, (act path).1.Sound) : (s.withSlot name act).1.Sound := by
  unfold Session.withSlot
  cases s.slot? name with
  | none => exact hs
  | some path => exact hact path

/-- The slots stay as they are when the document changes. -/
theorem Sound.with_document (hs : s.Sound) (document : Json) :
    Sound { s with document := document } := hs

theorem Sound.step (hs : s.Sound) (command : Command) : (s.step read command).1.Sound := by
  cases command with
  | query text => exact hs
  | document => exact hs
  | store slot text => exact hs.keepRead slot text
  | storeEmpty slot => exact hs.keep slot .empty
  | resolve slot => exact hs.withSlot slot fun _ => hs
  | reread slot into => exact hs.withSlot slot fun _ => hs.keepRead into _
  | compare slot other => exact hs.withSlot slot fun _ => hs.withSlot other fun _ => hs
  | «show» slot => exact hs.withSlot slot fun _ => hs
  | rebind text? =>
    rw [Session.step]
    cases documentOf read text? with
    | error cause => exact hs
    | ok document => exact hs.with_document document
  | descend text =>
    rw [Session.step]
    cases s.document.query text with
    | error e => exact hs
    | ok v => exact hs.with_document v

theorem Sound.after (hs : s.Sound) (commands : List Command) : (s.after read commands).Sound := by
  induction commands generalizing s with
  | nil => exact hs
  | cons command rest ih => exact ih (hs.step command)

/-- Whatever commands a session has followed, two slots are the same if they show the same. -/
theorem reply_compare {text? : Option String} (h : start read text? = .ok s)
    (commands : List Command) {slot other : String} {p q : Path}
    (hp : (s.after read commands).slot? slot = some p)
    (hq : (s.after read commands).slot? other = some q) :
    ((s.after read commands).step read (.compare slot other)).2 =
      .same (p.render = q.render) := by
  have hsound : (s.after read commands).Sound := (sound_start h).after commands
  have hpath := (hsound slot p hp).shaped
  have hpath' := (hsound other q hq).shaped
  have hiff : p = q ↔ p.render = q.render :=
    ⟨congrArg Path.render, hpath.eq_of_render_eq hpath'⟩
  rw [Session.step, withSlot, hp]
  simp only [withSlot, hq, hiff]

end Slots

end DocPath.Session
