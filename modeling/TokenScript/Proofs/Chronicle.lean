import Mathlib.Data.List.Chain
import TokenScript.Proofs.Lockstep.Runs

/-!
# What a run notes

A journal keeps the events of a run up to a severity, or none at all, and what it keeps never
changes what the script does.  So one can speak of all events of a run, whatever its journal keeps:
they are the ones that a journal which keeps everything would hold.  The journal that a run leaves
behind is the journal that it started with, in which these events have been noted one after another.

The two journals are those of two worlds in lockstep, which differ in nothing else, and nothing cuts
a run off.

* `Machine.noted`: the events of the next step, in order.
* `Machine.journal_step`: the journal after a step.
* `Machine.moments`: the machines that a run comes by.
* `Machine.journal_of_run`: the journal after a run.
-/

namespace TokenScript

variable {σ : Type}

namespace Journal

/-- A journal that keeps every event holds the one that is noted last. -/
theorem note_of_trace {journal : Journal} (h : journal.threshold = some .trace) (event : Event) :
    journal.note event = { journal with entries := event :: journal.entries } := by
  have hkeeps : journal.keeps event = true := by
    simp only [keeps, h]
    cases event <;> rfl
  exact if_pos hkeeps

end Journal

/-! ## Journals that do not matter -/

/-- The second world differs from the first in its journal, which keeps every event.  The journal of
the first is `base` with these events noted. -/
inductive World.Noting (base : Journal) (world : World σ) : World σ → Prop
  | intro (entries : List Event) :
    world.journal = entries.foldr (fun event journal => journal.note event) base →
      Noting base world { world with journal := ⟨some .trace, entries⟩ }

namespace World.Noting

variable {base : Journal} {world other : World σ}

theorem note (h : world.Noting base other) (event : Event) :
    (world.note event).Noting base (other.note event) := by
  obtain ⟨entries, hentries⟩ := h
  have hother : World.note { world with journal := ⟨some .trace, entries⟩ } event =
      { world.note event with journal := ⟨some .trace, event :: entries⟩ } := by
    rw [World.note, Journal.note_of_trace rfl]
    rfl
  rw [hother]
  refine ⟨event :: entries, ?_⟩
  rw [List.foldr_cons, ← hentries]
  rfl

/-- A change that has nothing to do with the journal. -/
theorem change (h : world.Noting base other) (f : World σ → World σ)
    (hjournal : (f world).journal = world.journal)
    (hcommutes :
      ∀ journal, f { world with journal := journal } = { f world with journal := journal }) :
    (f world).Noting base (f other) := by
  obtain ⟨entries, hentries⟩ := h
  have hother : f { world with journal := ⟨some .trace, entries⟩ } =
      { f world with journal := ⟨some .trace, entries⟩ } := hcommutes _
  rw [hother]
  exact ⟨entries, hjournal.trans hentries⟩

theorem closes (h : world.Noting base other) : other.closes = world.closes := by
  obtain ⟨entries, -⟩ := h
  rfl

/-- The journal of the first world is `base` with the events of the second noted. -/
theorem journal (h : world.Noting base other) :
    world.journal = other.journal.events.foldl Journal.note base := by
  obtain ⟨entries, hentries⟩ := h
  rw [hentries, Journal.events, List.foldl_reverse]

end World.Noting

variable [Console σ]

/-- Worlds that differ in their journals only are in lockstep. -/
def Journal.lockstep (base : Journal) : Lockstep σ σ where
  Worlds := World.Noting base
  Codes code other := other = code
  Known := Set.univ
  Cut _ _ _ := False
  tokens_eq h := by rw [h]
  names_known _ := Set.subset_univ _
  agree := by
    rintro a _ ⟨entries, -⟩
    exact fun _ _ => rfl
  bodies := by
    rintro a _ ⟨entries, -⟩
    refine a.context.functions.rel_get?_self ?_
    exact fun _ => rfl
  remembered := by
    rintro a _ _ code ⟨entries, -⟩ rfl start
    rfl
  note hab event := hab.note event
  assign hab _ value := hab.change (World.assign · _ value) rfl fun _ => rfl
  define hab _ _ := hab.change (World.define · _ _) rfl fun _ => rfl
  remember := by
    rintro a b _ code hab rfl start index
    exact hab.change (World.remember · code start index) rfl fun _ => rfl
  startCall := by
    rintro a _ ⟨entries, hentries⟩ name
    have hcounted := (World.Noting.intro entries hentries).change (fun world =>
      { world with context := { world.context with depth := world.context.depth + 1 } }) rfl
      fun _ => rfl
    exact hcounted.note (.callStarted name (a.context.depth + 1))
  hold := by
    rintro a b _ code hab rfl
    exact hab.change (World.hold · code) rfl fun _ => rfl
  endCall hab := hab.change World.endCall rfl fun _ => rfl
  read := by
    rintro a _ ⟨entries, hentries⟩ prompt
    exact Or.inl ⟨rfl, ⟨entries, hentries⟩⟩
  write := by
    rintro a _ ⟨entries, hentries⟩ line
    exact Or.inl ⟨rfl, ⟨entries, hentries⟩⟩
  full := by
    rintro a _ ⟨entries, -⟩ hfull
    exact hfull
  refused := by
    rintro a _ ⟨entries, -⟩ hfull
    exact Or.inl ⟨hfull, rfl⟩
  cut_later h _ := h

namespace Machine

/-! ## The events of a step -/

/-- The same machine with a journal that keeps every event, and holds none so far. -/
def watched (machine : Machine σ) : Machine σ :=
  ⟨machine.frames, { machine.world with journal := ⟨some .trace, []⟩ }⟩

/-- The events of the next step, in order, whether or not they are kept. -/
def noted (machine : Machine σ) : List Event := machine.watched.step.world.journal.events

/-- A machine and the same machine watched take the same step. -/
theorem noting_step (machine : Machine σ) :
    machine.step.world.Noting machine.world.journal machine.watched.step.world := by
  have hframes :
      List.Forall₂ (Journal.lockstep (σ := σ) machine.world.journal).Frames machine.frames
      machine.watched.frames := by
    refine List.forall₂_same.2 fun frame _ => ?_
    cases frame with
    | block code cursor stop => exact .block cursor stop rfl
    | retest code condition loop rounds => exact .retest condition loop rounds rfl
    | count code name first last next loop => exact .count first last next loop rfl (Set.mem_univ _)
    | call => exact .call
  have hstep :
      (Journal.lockstep machine.world.journal).Statuses machine.step machine.watched.step :=
    Lockstep.statuses_step ⟨hframes, .intro [] rfl⟩
  revert hstep
  cases machine.step <;> cases machine.watched.step <;> intro hstep
  · exact hstep.world
  · obtain ⟨_, -, hcut⟩ := hstep
    exact False.elim hcut
  · exact False.elim hstep
  · obtain ⟨-, hworlds⟩ | ⟨_, -, hcut⟩ := hstep
    · exact hworlds
    · exact False.elim hcut

/-- The journal after a step is the one before, with the events of the step noted. -/
theorem journal_step (machine : Machine σ) :
    machine.step.world.journal = machine.noted.foldl Journal.note machine.world.journal :=
  machine.noting_step.journal

/-! ## Runs -/

/-- The machines that take the first so many steps of a run. -/
def moments : Nat → Machine σ → List (Machine σ)
  | 0, _ => []
  | fuel + 1, machine =>
    machine :: match machine.step with
      | .running next => moments fuel next
      | .halted _ _ => []

theorem moments_of_running {machine next : Machine σ} (h : machine.step = .running next)
    (fuel : Nat) :
    moments (fuel + 1) machine = machine :: moments fuel next := by
  rw [moments, h]

theorem moments_of_halted {machine : Machine σ} {outcome : Outcome} {final : World σ}
    (h : machine.step = .halted outcome final) (fuel : Nat) :
    moments (fuel + 1) machine = [machine] := by
  rw [moments, h]

/-- Each of them comes from the one before by a step. -/
theorem isChain_moments (fuel : Nat) (machine : Machine σ) :
    (moments fuel machine).IsChain Steps := by
  induction fuel generalizing machine with
  | zero => exact .nil
  | succ fuel ih =>
    cases hstep : machine.step with
    | halted outcome final =>
      rw [moments_of_halted hstep]
      exact .singleton machine
    | running next =>
      rw [moments_of_running hstep]
      refine List.isChain_cons.2 ⟨fun first hfirst => ?_, ih next⟩
      cases fuel with
      | zero => cases hfirst
      | succ fuel =>
        obtain rfl : next = first := Option.some.inj hfirst
        exact hstep

theorem reaches_of_mem_moments {fuel : Nat} {machine later : Machine σ}
    (h : later ∈ moments fuel machine) : Reaches machine later := by
  induction fuel generalizing machine with
  | zero => cases h
  | succ fuel ih =>
    cases hstep : machine.step with
    | halted outcome final =>
      rw [moments_of_halted hstep] at h
      rw [List.mem_singleton.1 h]
    | running next =>
      rw [moments_of_running hstep] at h
      rcases List.mem_cons.1 h with rfl | h
      · exact .refl
      · exact (ih h).head hstep

/-- The journal after a run is the one before, with the events of all its steps noted. -/
theorem journal_of_run {fuel : Nat} {machine : Machine σ} {outcome : Outcome} {final : World σ}
    (h : machine.run fuel = some (outcome, final)) :
    final.journal = ((moments fuel machine).flatMap noted).foldl Journal.note
      machine.world.journal := by
  induction fuel generalizing machine with
  | zero => cases h
  | succ fuel ih =>
    have hjournal := machine.journal_step
    rw [run] at h
    cases hstep : machine.step with
    | running next =>
      rw [hstep] at h hjournal
      rw [moments_of_running hstep, List.flatMap_cons, List.foldl_append, ← hjournal]
      exact ih h
    | halted early last =>
      rw [hstep] at h hjournal
      obtain ⟨rfl, rfl⟩ := Prod.mk.inj (Option.some.inj h)
      rw [moments_of_halted hstep, List.flatMap_singleton, ← hjournal]
      rfl

end Machine
end TokenScript
