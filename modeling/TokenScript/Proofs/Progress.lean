import TokenScript.Proofs.Memo.Invisible
import TokenScript.Proofs.Steps

/-!
# Statements go forward

A statement names places in its code: where the next statement stands, and from where to where its
blocks reach.  All of them lie behind the statement, so whoever follows them never comes back to it,
except through a loop; and all of them lie inside the code or just behind it.  This holds whatever
the tokens are, in a world that scans for every close.

* `Returns`: what an action returns in a world that scans.
* `returns_execute`: every statement goes forward.
* `leads_execute`: where a statement goes on follows from its form.
* `Machine.Advances`: the same, of the next step of a machine.
* `Machine.exists_reaches_alike`: a run that remembers closes has the frames of one that scans.
-/

namespace TokenScript

open TokenScript.Action

variable {σ α : Type} {code : Code} {start : Nat}

/-- Started in a world that scans for every close, the action returns nothing but what is so. -/
def Returns (x : Action σ α) (Q : α → Prop) : Prop :=
  ∀ world u final, world.closes = none → x.run world = .ok u final → Q u

/-- A call that starts is counted, and the count was below the limit before. -/
theorem Statement.of_run_invoke {name : String} {span : Span} {body : Code}
    {world entered : World σ} (h : (invoke name span).run world = .ok body entered) :
    world.context.depth < world.context.callLimit ∧ entered = world.startCall name := by
  rw [run_invoke] at h
  cases hget : world.context.functions.get? name with
  | none =>
    rw [hget] at h
    cases h
  | some stored =>
    rw [hget] at h
    simp only at h
    split at h
    · cases h
    · next hlimit =>
      obtain ⟨-, rfl⟩ := EStateM.Result.ok.inj h
      exact ⟨Nat.lt_of_not_le hlimit, rfl⟩

/-- What is known of the places that a statement names, in a world that scans for every close. -/
theorem Staged.goes (site : Site) {world final : World site.σ} {check : Routine Unit}
    {x : Routine Flow} {flow : Flow} (h : Staged (world.closes = none) code start check x)
    (hstart : start < code.size) (hscans : world.closes = none)
    (hrun : (x site).run world = .ok flow final) :
    flow.Forward code start ∧
      Statement.Leads (world.closes = none) (site.place code) start world flow := by
  cases h with
  | plain hform hrest hown hleads =>
    obtain ⟨u, middle, hfirst, hsecond⟩ := exists_ok_of_bind hrun
    obtain ⟨hmiddle, -, hu⟩ := (hform.keeps (deeds_inspecting site)).of_run Iff.rfl hfirst
    obtain ⟨-, -, hflow⟩ := ((hrest u hu).keeps (deeds_acting site)).of_run hmiddle hsecond
    exact ⟨(hown u flow hu hflow).forward hscans, hleads site world middle u flow hfirst hu hflow⟩
  | @call named _ next _ hnext _ =>
    simp only [Statement.callOr, run_get_bind] at hrun
    cases hget : world.context.functions.get? named.1 with
    | none =>
      rw [hget] at hrun
      obtain ⟨_, _, -, hlast⟩ := exists_ok_of_bind hrun
      cases hlast
      exact ⟨hnext.forward hstart, .next (hnext.place site)⟩
    | some stored =>
      rw [hget] at hrun
      obtain ⟨body, _, -, hlast⟩ := exists_ok_of_bind hrun
      cases hlast
      exact ⟨hnext.forward hstart, .call (hnext.place site)⟩

variable [Console σ]

/-- Every statement goes forward. -/
theorem returns_execute (hstart : start < code.size) :
    Returns (σ := σ) (Statement.execute code start) (Flow.Forward code start) :=
  fun _ _ _ hscans hrun =>
    (Staged.goes ⟨code.address⟩ (staged_execute fun _ => hstart) hstart hscans hrun).1

/-- Where a statement goes on follows from its form. -/
theorem leads_execute (hstart : start < code.size) {world final : World σ} {flow : Flow}
    (hscans : world.closes = none)
    (hrun : (Statement.execute code start).run world = .ok flow final) :
    Statement.Leads (world.closes = none) code start world flow :=
  (Staged.goes ⟨code.address⟩ (staged_execute fun _ => hstart) hstart hscans hrun).2

/-! ## Moments of runs -/

namespace Machine

/-- At each moment, a run that remembers closes has the frames of the run that scans for every
close. -/
theorem exists_reaches_alike {frames : List Frame} {world plain : World σ}
    (h : Alike frames world plain) {later : Machine σ} (hreaches : Reaches ⟨frames, world⟩ later) :
    ∃ other, Reaches ⟨frames, plain⟩ ⟨later.frames, other⟩ ∧
      Alike later.frames later.world other := by
  induction hreaches with
  | refl => exact ⟨plain, .refl, h⟩
  | @tail now next _ hlast ih =>
    obtain ⟨other, hother, halike⟩ := ih
    rcases (step_alike halike).cases with ⟨_, _, after, hfirst, hsecond, halike⟩ |
      ⟨_, _, _, hfirst, -⟩
    · obtain rfl := Status.running.inj (hlast.symm.trans hfirst)
      exact ⟨after, hother.tail hsecond, halike⟩
    · cases hlast.symm.trans hfirst

/-- After a statement, the block that it stands in goes on behind it. -/
def Advances (machine : Machine σ) : Prop :=
  ∀ code cursor stop rest, machine.frames = .block code cursor stop :: rest → cursor < stop →
    cursor < code.size → ∀ next, machine.step = .running next →
      ∃ extra place, next.frames = extra ++ .block code place stop :: rest ∧ cursor < place

omit [Console σ] in
theorem follow_advances {cursor stop : Nat} {rest : List Frame} {flow : Flow} {world : World σ}
    {next : Machine σ} (hforward : flow.Forward code cursor)
    (h : follow code stop flow rest world = .running next) :
    ∃ extra place, next.frames = extra ++ .block code place stop :: rest ∧ cursor < place := by
  cases flow with
  | advance place =>
    obtain rfl := Status.running.inj h
    exact ⟨[], place, rfl, hforward.1⟩
  | enter extent place =>
    obtain rfl := Status.running.inj h
    exact ⟨[_], place, rfl, hforward.2.1⟩
  | retest condition loop place =>
    obtain rfl := Status.running.inj h
    exact ⟨[_], place, rfl, hforward.2.2.2.1⟩
  | count name first last loop place =>
    obtain rfl := Status.running.inj h
    exact ⟨[_], place, rfl, hforward.2.1⟩
  | call body place =>
    obtain rfl := Status.running.inj h
    exact ⟨[_, _], place, rfl, hforward.1⟩
  | exit => cases h

/-- In a world that scans for every close, the next step goes forward. -/
theorem advances_of_scans {machine : Machine σ} (h : machine.world.closes = none) :
    machine.Advances := by
  obtain ⟨frames, world⟩ := machine
  rintro code cursor stop rest rfl hstop hsize next hstep
  rw [step_block ⟨hstop, hsize⟩] at hstep
  cases hexecute : (Statement.execute code cursor).run world with
  | error abort final =>
    rw [hexecute] at hstep
    cases hstep
  | ok flow final =>
    rw [hexecute] at hstep
    exact follow_advances (returns_execute hsize world flow final h hexecute) hstep

/-- So does it in a world that remembers closes, if what it remembers is right. -/
theorem advances_of_alike {machine : Machine σ} {plain : World σ}
    (h : Alike machine.frames machine.world plain) : machine.Advances := by
  intro code cursor stop rest hframes hstop hsize next hstep
  have hadvances : Advances ⟨machine.frames, plain⟩ := advances_of_scans h.scans
  rcases (step_alike h).cases with ⟨_, _, after, hfirst, hsecond, -⟩ | ⟨_, _, _, hfirst, -⟩
  · obtain rfl := Status.running.inj (hstep.symm.trans hfirst)
    exact hadvances code cursor stop rest hframes hstop hsize ⟨_, after⟩ hsecond
  · cases hstep.symm.trans hfirst

end Machine
end TokenScript
