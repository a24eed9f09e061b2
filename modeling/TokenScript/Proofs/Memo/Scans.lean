import TokenScript.Proofs.Chronicle

/-!
# What statements scan

A close that is not remembered is found by a scan, and remembered from then on.  So a statement
scans for no opener whose close was remembered before, and not twice for the same one, and
afterwards the close of every opener that it scanned for is remembered.  The one exception is
`func`, which scans, stores a body, and forgets everything.

The scans of a statement are read off its events.  They are all there in a journal that keeps every
event, and it starts empty here, so that what it holds is what the statement did.

* `World.Scanned`: the scans so far were for different openers that were not remembered at first.
* `World.Tracks`: and all of them are remembered by now.
* `World.Settled`: or a body has been stored since.
* `Staged.settled`: closes are found in the first stage, and a body is stored in the second.
* `settled_execute`: every statement.
-/

namespace TokenScript

open TokenScript.Action

variable {σ α : Type}

/-! ## Scans in a journal -/

/-- The opener of the scan that an event tells of. -/
def Event.scan? : Event → Option Nat
  | blockMatched start _ _ => some start
  | _ => none

/-- Whether an event tells of a body that is stored. -/
def Event.isStore : Event → Bool
  | functionDefined .. => true
  | _ => false

/-- The openers of the scans that a journal tells of, the latest first. -/
def Journal.scanned (journal : Journal) : List Nat := journal.entries.filterMap Event.scan?

/-- A scan for the close of the opener at an index finds this one. -/
def Code.Finds (code : Code) (start : Nat) (close : BlockPolicy.Close) : Prop :=
  ∃ policy, code.policyAt? start = some policy ∧ policy.close code.tokens start = .ok close

variable {code : Code} {memo : CloseMemo}

/-- The journal holds all events.  The scans that it tells of are scans of the code, each for an
opener of its own whose close the memory did not hold. -/
structure World.Scanned (code : Code) (memo : CloseMemo) (world : World σ) : Prop where
  keeps : world.journal.threshold = some .trace
  distinct : world.journal.scanned.Nodup
  fresh : ∀ start ∈ world.journal.scanned, (code.address, start) ∉ memo
  found : ∀ start index word, .blockMatched start index word ∈ world.journal.entries →
    code.Finds start ⟨index, word⟩

/-- The closes that the scans found are remembered, together with those that were remembered
before. -/
structure World.Tracks (code : Code) (memo : CloseMemo) (world : World σ) : Prop
    extends World.Scanned code memo world where
  remembers : ∃ now, world.closes = some now ∧ (∀ key ∈ memo, key ∈ now) ∧
    ∀ start ∈ world.journal.scanned, (code.address, start) ∈ now

/-- The world remembers all closes that were found, or a body has been stored since. -/
def World.Settled (code : Code) (memo : CloseMemo) (world : World σ) : Prop :=
  world.Tracks code memo ∨
    world.Scanned code memo ∧ ∃ event ∈ world.journal.entries, event.isStore = true

/-- A journal that keeps all events holds one more. -/
theorem World.entries_note {world : World σ} (h : world.journal.threshold = some .trace)
    (event : Event) :
    (world.note event).journal.entries = event :: world.journal.entries :=
  congrArg Journal.entries (Journal.note_of_trace h event)

namespace World.Scanned

variable {world other : World σ}

/-- Only the journal matters. -/
theorem congr (h : world.Scanned code memo) (hjournal : other.journal = world.journal) :
    other.Scanned code memo := by
  obtain ⟨hkeeps, hdistinct, hfresh, hfound⟩ := h
  rw [← hjournal] at hkeeps hdistinct hfresh hfound
  exact ⟨hkeeps, hdistinct, hfresh, hfound⟩

theorem scanned_note (h : world.Scanned code memo) {event : Event} (hevent : event.scan? = none) :
    (world.note event).journal.scanned = world.journal.scanned := by
  rw [Journal.scanned, entries_note h.keeps, List.filterMap_cons_none hevent]
  rfl

/-- An event that tells of no scan. -/
theorem note (h : world.Scanned code memo) {event : Event} (hevent : event.scan? = none) :
    (world.note event).Scanned code memo where
  keeps := (Journal.threshold_note _ _).trans h.keeps
  distinct := h.scanned_note hevent ▸ h.distinct
  fresh := h.scanned_note hevent ▸ h.fresh
  found start index word hmem := by
    rw [entries_note h.keeps] at hmem
    rcases List.mem_cons.1 hmem with rfl | hmem
    · cases hevent
    · exact h.found start index word hmem

end World.Scanned

namespace World.Tracks

variable {world other : World σ}

theorem congr (h : world.Tracks code memo) (hjournal : other.journal = world.journal)
    (hcloses : other.closes = world.closes) : other.Tracks code memo := by
  refine ⟨h.toScanned.congr hjournal, ?_⟩
  rw [hcloses, hjournal]
  exact h.remembers

theorem note (h : world.Tracks code memo) {event : Event} (hevent : event.scan? = none) :
    (world.note event).Tracks code memo := by
  refine ⟨h.toScanned.note hevent, ?_⟩
  rw [h.toScanned.scanned_note hevent]
  exact h.remembers

/-- At first there are no scans. -/
theorem of_watched {memo : CloseMemo} (h : world.closes = some memo) (code : Code) :
    World.Tracks code memo { world with journal := ⟨some .trace, []⟩ } where
  keeps := rfl
  distinct := .nil
  fresh := nofun
  found := nofun
  remembers := ⟨memo, h, fun _ => id, nofun⟩

/-- A scan that finds a close which was not remembered, and the close is remembered. -/
theorem scan {policy : BlockPolicy} {start : Nat} {found : BlockPolicy.Close}
    (h : world.Tracks code memo) (hmiss : world.remembered? code start = none)
    (hpolicy : code.policyAt? start = some policy)
    (hclose : policy.close code.tokens start = .ok found) :
    ((world.note (.blockMatched start found.index found.keyword)).remember code start
      found.index).Tracks code memo := by
  obtain ⟨now, hcloses, hold, hscanned⟩ := h.remembers
  have hentries := entries_note h.keeps (.blockMatched start found.index found.keyword)
  have hall : (world.note (.blockMatched start found.index found.keyword)).journal.scanned =
      start :: world.journal.scanned := by
    rw [Journal.scanned, hentries]
    rfl
  -- what is not remembered now was neither remembered at first nor scanned for since
  have hnew : (code.address, start) ∉ now := by
    rw [remembered?, hcloses, Option.bind_some] at hmiss
    simpa using hmiss
  refine ⟨⟨(Journal.threshold_note _ _).trans h.keeps, ?_, ?_, ?_⟩, ?_⟩
  · exact hall ▸ List.nodup_cons.2 ⟨fun hmem => hnew (hscanned start hmem), h.distinct⟩
  · exact hall ▸ List.forall_mem_cons.2 ⟨fun hmem => hnew (hold _ hmem), h.fresh⟩
  · intro place index word hmem
    rcases List.mem_cons.1 (hentries ▸ hmem) with heq | hmem
    · obtain ⟨rfl, rfl, rfl⟩ := Event.blockMatched.inj heq
      exact ⟨policy, hpolicy, hclose⟩
    · exact h.found place index word hmem
  · refine ⟨now.insert (code.address, start) found.index, ?_, ?_, ?_⟩
    · exact congrArg (Option.map _) hcloses
    · exact fun key hkey => Std.HashMap.mem_insert.2 (Or.inr (hold key hkey))
    · refine hall ▸ List.forall_mem_cons.2
        ⟨Std.HashMap.mem_insert.2 (Or.inl (beq_self_eq_true _)), ?_⟩
      exact fun place hplace => Std.HashMap.mem_insert.2 (Or.inr (hscanned place hplace))

end World.Tracks

namespace World.Settled

variable {world other : World σ}

theorem scanned (h : world.Settled code memo) :
    world.Scanned code memo :=
  h.elim World.Tracks.toScanned And.left

theorem congr (h : world.Settled code memo) (hjournal : other.journal = world.journal)
    (hcloses : other.closes = world.closes) : other.Settled code memo := by
  refine h.imp (·.congr hjournal hcloses) fun hstored => ⟨hstored.1.congr hjournal, ?_⟩
  rw [hjournal]
  exact hstored.2

theorem note (h : world.Settled code memo) {event : Event} (hevent : event.scan? = none) :
    (world.note event).Settled code memo := by
  refine h.imp (·.note hevent) ?_
  rintro ⟨hscanned, stored, hmem, hstore⟩
  refine ⟨hscanned.note hevent, stored, ?_, hstore⟩
  rw [entries_note hscanned.keeps]
  exact List.mem_cons_of_mem event hmem

/-- A body is stored, and what was found is forgotten. -/
theorem define (h : world.Settled code memo) (name : String) (body : Array Token) :
    ((world.note (.functionDefined name body)).define name body).Settled code memo := by
  have hevent : Event.scan? (.functionDefined name body) = none := rfl
  refine Or.inr ⟨(h.scanned.note hevent).congr rfl, .functionDefined name body, ?_, rfl⟩
  exact entries_note h.scanned.keeps _ ▸ List.mem_cons_self

end World.Settled

/-! ## Statements -/

/-- The world that an action leaves. -/
def Action.final : EStateM.Result Abort (World σ) α → World σ
  | .ok _ world => world
  | .error _ world => world

/-- Actions that keep something, whether they return or are abandoned. -/
def Manner.holding (holds : World σ → Prop) : Manner σ where
  Starts := holds
  Goes _ _ := True
  Stops _ _ := holds
  refl _ := trivial
  trans _ _ := trivial
  stops_trans _ := id

/-- Whatever the action comes to, it scans for nothing that is remembered, and remembers what it
finds. -/
abbrev Manner.tracking (code : Code) (memo : CloseMemo) : Manner σ :=
  .holding fun world => world.Tracks code memo

/-- The same, or a body is stored. -/
abbrev Manner.settling (code : Code) (memo : CloseMemo) : Manner σ :=
  .holding fun world => world.Settled code memo

theorem Manner.Keeps.final {holds : World σ → Prop} {x : Action σ α} {P : α → Prop}
    (h : (Manner.holding holds).Keeps x P) {world : World σ} (hworld : holds world) :
    holds (Action.final (x.run world)) := by
  have hkept := h world hworld
  revert hkept
  cases x.run world with
  | ok u final => exact And.left
  | error abort final => exact id

/-- The one action that scans. -/
theorem remembers_closeOf {start : Nat} {policy : BlockPolicy}
    (hpolicy : code.policyAt? start = some policy) :
    (Manner.tracking code memo).Keeps (closeOf (σ := σ) code start policy) fun _ => True := by
  intro world h
  rw [run_closeOf]
  cases hmiss : world.closes.bind (·[(code.address, start)]?) with
  | some index => exact ⟨h, trivial, trivial⟩
  | none =>
    cases hclose : policy.close code.tokens start with
    | error e => exact h
    | ok found => exact ⟨h.scan hmiss hpolicy hclose, trivial, trivial⟩

theorem settled_note {event : Event} (hevent : event.isMatch = false) :
    (Manner.settling code memo).Keeps (note (σ := σ) event) fun _ => True := by
  have hscan : event.scan? = none := by
    cases event <;> first | rfl | cases hevent
  exact .of_modify trivial fun _ h => ⟨h.note hscan, trivial⟩

theorem settled_readLine [Console σ] (prompt : String) :
    (Manner.settling code memo).Keeps (readLine (σ := σ) prompt) fun _ => True := by
  intro world h
  rw [run_readLine]
  rcases Console.readLine prompt world.console with ⟨_ | _, console⟩
  · exact World.Settled.congr h rfl rfl
  · exact ⟨World.Settled.congr h rfl rfl, trivial, trivial⟩

theorem settled_writeLine [Console σ] (line : String) :
    (Manner.settling code memo).Keeps (writeLine (σ := σ) line) fun _ => True := by
  intro world h
  rw [run_writeLine]
  rcases Console.writeLine line world.console with ⟨_ | _, console⟩
  · exact World.Settled.congr h rfl rfl
  · exact ⟨World.Settled.congr h rfl rfl, trivial, trivial⟩

theorem settled_invoke (name : String) (span : Span) :
    (Manner.settling code memo).Keeps (Statement.invoke (σ := σ) name span) fun _ => True := by
  intro world h
  rw [Statement.run_invoke]
  split
  · exact h
  · split
    · exact h
    · have hevent : Event.scan? (.callStarted name (world.context.depth + 1)) = none := rfl
      exact ⟨(World.Settled.note h hevent).congr rfl rfl, trivial, trivial⟩

section

variable {code : Code} {site : Site} {place : Code}

theorem tracks_inspecting :
    (Manner.tracking (σ := site.σ) (site.place code) memo).Inspecting False code site where
  refused _ _ _ := id
  fault _ _ := id
  closeOf {start policy} hpolicy := by
    have hplace : (site.place code).policyAt? start = some policy := hpolicy
    exact (remembers_closeOf hplace).mono fun _ _ => False.elim

theorem settled_acting :
    (Manner.settling (σ := site.σ) place memo).Acting False code site where
  fault _ _ := id
  note := settled_note
  assign _ _ := .of_modify trivial fun _ h => ⟨h.congr rfl rfl, trivial⟩
  define _ _ _ _ h := ⟨h.define _ _, trivial, trivial⟩
  readLine := settled_readLine
  writeLine := settled_writeLine

/-- Closes are found first, and nothing is forgotten until then. -/
theorem Staged.settled {start : Nat} {check : Routine Unit} {x : Routine Flow}
    (h : Staged False code start check x) (site : Site) {world : World site.σ}
    (hworld : world.Tracks (site.place code) memo) :
    (final ((x site).run world)).Settled (site.place code) memo := by
  cases h with
  | @plain _ form rest _ _ hform hrest =>
    have hkept := hform.keeps tracks_inspecting world hworld
    change (final (EStateM.bind (form site) (rest · site) world)).Settled (site.place code) memo
    simp only [EStateM.run] at hkept
    simp only [EStateM.bind]
    revert hkept
    cases form site world with
    | ok u middle =>
      exact fun hkept => ((hrest u hkept.2.2).keeps settled_acting).final (Or.inl hkept.1)
    | error abort middle => exact Or.inl
  | @call named _ _ _ _ hunknown =>
    refine Manner.Keeps.final (.bind_get (Q := fun _ => True) fun seen => ?_) (Or.inl hworld)
    cases seen.context.functions.get? named.1 with
    | none => exact .bind (hunknown.keeps settled_acting) fun _ _ => .of_pure trivial
    | some _ => exact .bind (settled_invoke _ _) fun _ _ => .of_pure trivial

end

variable [Console σ]

theorem settled_evaluate {world : World σ} (h : world.Settled code memo) (start : Nat) :
    (final ((evaluate code start).run world)).Settled code memo :=
  (Manner.Keeps.evaluate (fun _ => settled_note) settled_writeLine code start).final h

/-- Every statement remembers what it scans, unless it stores a body. -/
theorem settled_execute {world : World σ} (h : world.Tracks code memo) (start : Nat) :
    (final ((Statement.execute code start).run world)).Settled code memo :=
  (staged_execute False.elim).settled ⟨code.address⟩ h

end TokenScript
