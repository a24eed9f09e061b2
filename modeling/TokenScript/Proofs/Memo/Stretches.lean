import Mathlib.Algebra.GroupWithZero.Nat
import Mathlib.Data.List.Dedup
import Mathlib.Data.List.Perm.Subperm
import Mathlib.Data.List.SplitBy
import TokenScript.Proofs.Block.Bodies
import TokenScript.Proofs.Memo.Scans

/-!
# Blocks are not scanned again

Loops and calls come by the same blocks again and again, and each time a statement asks where its
block ends.  The memory of closes saves the scans: between two moments at which a body is stored and
everything is forgotten, a run scans for each opener of each piece of code at most once, however
often it comes by.  So the scans in such a stretch of a run are no more than the words in the code
it executes that open a block or a clause.

The memory is emptied where a stretch ends, and nowhere else.  Along a stretch it only grows:
whatever was scanned for is remembered, and what is remembered is not scanned for.

* `Machine.scans`: the scans of the next step that find a close.
* `Machine.stretches`: a run, split behind each step that stores a body.
* `Machine.nodup_of_isChain`: what one step does to the memory, carried along a stretch.
* `length_le_openings`: different scans are for different openers.
* `blocks_not_rescanned`: in each stretch of each run and of each call.
-/

namespace TokenScript

variable {σ : Type}

/-! ## Openers -/

/-- The words that open a block or a clause. -/
def openingWords : List Keyword :=
  [.ifClause, .elifClause, .elseClause, .whileLoop, .forLoop, .func]

/-- How many words of the code open a block or a clause. -/
def Code.openings (code : Code) : Nat :=
  code.tokens.countP fun t => t.keyword?.any fun word => decide (word ∈ openingWords)

/-- Where these words stand. -/
def Code.openers (code : Code) : List Nat :=
  (List.range code.size).filter fun start => (code.policyAt? start).isSome

/-- Scans start at these words and at no others. -/
theorem isSome_ofOpener? (word : Keyword) :
    (BlockPolicy.ofOpener? word).isSome = decide (word ∈ openingWords) := by
  cases word <;> rfl

theorem Code.isSome_policyAt? (code : Code) (start : Nat) :
    (code.policyAt? start).isSome =
      (code.tokens[start]?).any fun t => t.keyword?.any fun word =>
        decide (word ∈ openingWords) := by
  unfold policyAt?
  cases code.tokens[start]? with
  | none => rfl
  | some t =>
    rw [Option.bind_some, Option.any_some]
    cases t.keyword? with
    | none => rfl
    | some word => exact isSome_ofOpener? word

theorem Code.length_openers (code : Code) : code.openers.length = code.openings := by
  have htokens : (List.range code.size).map (code.tokens[·]?) = code.tokens.toList.map some := by
    refine List.ext_getElem (by simp [size]) fun index hleft hright => ?_
    simp
  rw [openers, ← List.countP_eq_length_filter, openings, ← Array.countP_toList]
  simp only [isSome_policyAt?]
  rw [← Function.comp_def (fun t? : Option Token => t?.any _) (code.tokens[·]?), ← List.countP_map,
    htokens, List.countP_map]
  rfl

theorem Code.Finds.mem_openers {code : Code} {start : Nat} {close : BlockPolicy.Close}
    (h : code.Finds start close) : start ∈ code.openers := by
  obtain ⟨policy, hpolicy, -⟩ := h
  refine List.mem_filter.2 ⟨List.mem_range.2 ?_, by rw [hpolicy]; rfl⟩
  by_contra hle
  rw [policyAt?, Array.getElem?_eq_none (Nat.le_of_not_lt hle)] at hpolicy
  cases hpolicy

/-- Different scans of some pieces of code are no more than the words there that open a block or a
clause. -/
theorem length_le_openings {scans : List (Code × Nat)} {codes : List Code} (hdistinct : scans.Nodup)
    (hscans : ∀ scan ∈ scans, scan.1 ∈ codes ∧ ∃ close, scan.1.Finds scan.2 close) :
    scans.length ≤ (codes.map Code.openings).sum := by
  have hsub : scans ⊆ codes.flatMap fun code => code.openers.map fun start => (code, start) := by
    rintro ⟨code, start⟩ hmem
    obtain ⟨hcode, close, hfinds⟩ := hscans _ hmem
    exact List.mem_flatMap.2 ⟨code, hcode, List.mem_map_of_mem hfinds.mem_openers⟩
  have hlength := (hdistinct.subperm hsub).length_le
  simpa only [List.length_flatMap, List.length_map, Code.length_openers] using hlength

/-! ## The memory after a step -/

section

variable {code : Code} {memo : CloseMemo} {world other : World σ}

theorem World.Settled.unwind (h : world.Settled code memo) (frames : List Frame) :
    (world.unwind frames).Settled code memo :=
  h.congr (world.apply_unwind (fun _ => rfl) frames) (world.apply_unwind (fun _ => rfl) frames)

theorem Machine.settled_follow (h : world.Settled code memo) (stop : Nat) (flow : Flow)
    (rest : List Frame) : (follow code stop flow rest world).world.Settled code memo := by
  cases flow with
  | exit => exact h.unwind rest
  | _ => exact h.congr rfl rfl

variable [Console σ]

/-- A step remembers what it scans, unless it stores a body. -/
theorem Machine.settled_step {frame : Frame} (hcode : frame.code? = some code)
    (h : world.Tracks code memo) (rest : List Frame) :
    (step ⟨frame :: rest, world⟩).world.Settled code memo := by
  cases frame with
  | call => cases hcode
  | block code cursor stop =>
    obtain rfl := Option.some.inj hcode
    by_cases hinside : cursor < stop ∧ cursor < code.size
    · rw [step_block hinside]
      have hexecute := settled_execute h cursor
      revert hexecute
      cases (Statement.execute code cursor).run world with
      | ok flow final => exact fun hfinal => settled_follow hfinal stop flow rest
      | error abort final => exact fun hfinal => hfinal.unwind rest
    · simp only [step, if_neg hinside]
      exact Or.inl h
  | retest code condition loop rounds =>
    obtain rfl := Option.some.inj hcode
    have hevaluate := settled_evaluate (Or.inl h) condition
    simp only [step]
    revert hevaluate
    cases (Action.evaluate code condition).run world with
    | error abort final => exact fun hfinal => hfinal.unwind rest
    | ok value final =>
      intro hfinal
      dsimp only
      split
      · exact hfinal
      · exact hfinal.note rfl
  | count code name first last next loop =>
    obtain rfl := Option.some.inj hcode
    simp only [step]
    split
    · exact Or.inl (h.congr rfl rfl)
    · exact Or.inl (h.note rfl)

end

namespace Machine

/-! ## The scans of a step -/

/-- The code that the next step executes. -/
def running? (machine : Machine σ) : Option Code := machine.frames.head?.bind Frame.code?

variable [Console σ]

/-- The scans of the next step that find a close: the code, and the index of the opener. -/
def scans (machine : Machine σ) : List (Code × Nat) :=
  match machine.running? with
  | some code => (machine.noted.filterMap Event.scan?).map fun start => (code, start)
  | none => []

/-- Whether the next step stores a body. -/
def stores (machine : Machine σ) : Bool := machine.noted.any Event.isStore

section

variable {machine next later : Machine σ} {code : Code} {memo : CloseMemo}

theorem scans_eq (hcode : machine.running? = some code) :
    machine.scans =
      machine.watched.step.world.journal.scanned.reverse.map fun start => (code, start) := by
  rw [scans, hcode]
  dsimp only
  rw [noted, Journal.events, List.filterMap_reverse]
  rfl

/-- The next step of a machine that executes code. -/
theorem settled_watched (hcode : machine.running? = some code)
    (hmemo : machine.world.closes = some memo) : machine.watched.step.world.Settled code memo := by
  obtain ⟨_ | ⟨frame, rest⟩, world⟩ := machine
  · cases hcode
  · exact settled_step hcode (.of_watched hmemo code) rest

/-- A step that executes no code drops the frame of a call, or ends the run. -/
theorem idle_of_running? (h : machine.running? = none) :
    machine.noted = [] ∧ machine.step.world.closes = machine.world.closes := by
  obtain ⟨_ | ⟨frame, rest⟩, world⟩ := machine
  · exact ⟨rfl, rfl⟩
  · cases frame with
    | call => exact ⟨rfl, rfl⟩
    | block | retest | count => cases h

theorem mem_scans {scan : Code × Nat} (h : scan ∈ machine.scans) :
    machine.running? = some scan.1 ∧ scan.2 ∈ machine.watched.step.world.journal.scanned := by
  cases hcode : machine.running? with
  | none =>
    rw [scans, hcode] at h
    cases h
  | some code =>
    rw [scans_eq hcode] at h
    obtain ⟨start, hmem, rfl⟩ := List.mem_map.1 h
    exact ⟨rfl, List.mem_reverse.1 hmem⟩

/-- There is one scan for each event that tells of one. -/
theorem length_scans (machine : Machine σ) :
    machine.scans.length = machine.noted.countP Event.isMatch := by
  have hmatch : ∀ event : Event, event.scan?.isSome = event.isMatch :=
    fun event => by cases event <;> rfl
  cases hcode : machine.running? with
  | none =>
    rw [scans, hcode, (idle_of_running? hcode).1]
    rfl
  | some code =>
    rw [scans, hcode, List.length_map, List.length_filterMap_eq_countP]
    simp only [hmatch]

/-- A scan of a step is one of the code that it executes, and finds a close. -/
theorem exists_finds_of_mem_scans (hmemo : machine.world.closes = some memo) {scan : Code × Nat}
    (h : scan ∈ machine.scans) :
    machine.running? = some scan.1 ∧ ∃ close, scan.1.Finds scan.2 close := by
  obtain ⟨hcode, hmem⟩ := mem_scans h
  obtain ⟨event, hevent, hscan⟩ := List.mem_filterMap.1 hmem
  cases event with
  | blockMatched place index word =>
    obtain rfl := Option.some.inj hscan
    exact ⟨hcode, _, (settled_watched hcode hmemo).scanned.found _ index word hevent⟩
  | _ => cases hscan

/-- A step scans for different openers, the closes of which are not remembered. -/
theorem nodup_scans (hmemo : machine.world.closes = some memo) :
    machine.scans.Nodup ∧ ∀ scan ∈ machine.scans, (scan.1.address, scan.2) ∉ memo := by
  constructor
  · cases hcode : machine.running? with
    | none =>
      rw [scans, hcode]
      exact .nil
    | some code =>
      rw [scans_eq hcode]
      refine List.Nodup.map (fun _ _ heq => (Prod.mk.inj heq).2) ?_
      exact List.nodup_reverse.2 (settled_watched hcode hmemo).scanned.distinct
  · intro scan hmem
    obtain ⟨hcode, hscanned⟩ := mem_scans hmem
    exact (settled_watched hcode hmemo).scanned.fresh scan.2 hscanned

/-- After a step that stores no body, all that was remembered still is, and so is what the step
found. -/
theorem exists_closes_of_steps (hmemo : machine.world.closes = some memo)
    (hstep : machine.Steps next) (hstores : machine.stores = false) :
    ∃ now, next.world.closes = some now ∧ (∀ key ∈ memo, key ∈ now) ∧
      ∀ scan ∈ machine.scans, (scan.1.address, scan.2) ∈ now := by
  have hworld : machine.step.world = next.world := congrArg Status.world hstep
  cases hcode : machine.running? with
  | none =>
    refine ⟨memo, ?_, fun _ => id, ?_⟩
    · rw [← hworld, (idle_of_running? hcode).2, hmemo]
    · rw [scans, hcode]
      exact nofun
  | some code =>
    rcases settled_watched hcode hmemo with htracks | ⟨-, event, hevent, hstored⟩
    · obtain ⟨now, hcloses, hold, hscanned⟩ := htracks.remembers
      refine ⟨now, ?_, hold, fun scan hmem => ?_⟩
      · rw [← hworld, ← machine.noting_step.closes, hcloses]
      · obtain ⟨hrunning, hmem⟩ := mem_scans hmem
        obtain rfl : code = scan.1 := Option.some.inj (hcode.symm.trans hrunning)
        exact hscanned scan.2 hmem
    · have hall := List.any_eq_false.1 hstores event (List.mem_reverse.2 hevent)
      exact absurd hstored hall

/-- A run that remembers closes goes on doing so. -/
theorem exists_closes_of_reaches (h : Reaches machine later)
    (hmemo : machine.world.closes = some memo) :
    ∃ now, later.world.closes = some now := by
  have hsome : later.world.closes.isNone = false := by
    refine h.invariant (I := fun machine => machine.world.closes.isNone = false)
      (by rw [hmemo]; rfl) ?_
    intro now next hnow htakes
    cases htakes with
    | returned | called => exact hnow
    | worked code extra hframe hdeeds hextra => exact hdeeds.isNone_closes.trans hnow
  exact Option.isSome_iff_exists.1 (Option.isNone_eq_false_iff.1 hsome)

end

/-- A step that remembers closes stores a body just if the one that scans for them does: the two
differ in their scans only. -/
theorem stores_alike {frames : List Frame} {world plain : World σ} (h : Alike frames world plain) :
    stores ⟨frames, world⟩ = stores ⟨frames, plain⟩ := by
  have hwatched : Alike frames { world with journal := ⟨some .trace, []⟩ }
      { plain with journal := ⟨some .trace, []⟩ } :=
    ⟨h.context, h.console, h.held, rfl, h.scans, h.memory.congr rfl rfl rfl⟩
  have hobserve : (watched ⟨frames, world⟩).step.world.observe =
      (watched ⟨frames, plain⟩).step.world.observe := by
    simp only [watched]
    rcases (step_alike hwatched).cases with ⟨_, _, _, hfirst, hsecond, halike⟩ |
      ⟨_, _, _, hfirst, hsecond, hobserve⟩
    · rw [hfirst, hsecond]
      exact halike.observe_eq
    · rw [hfirst, hsecond]
      exact hobserve
  have hentries := congrArg (fun seen : Context × σ × Journal => seen.2.2.entries) hobserve
  have hstores : ∀ entries : List Event,
      (entries.filter fun event => !event.isMatch).any Event.isStore =
        entries.any Event.isStore := by
    intro entries
    rw [List.any_filter]
    refine congrArg (entries.any ·) (funext fun event => ?_)
    cases event <;> rfl
  simp only [stores, noted, Journal.events, List.any_reverse]
  rw [← hstores, ← hstores (watched ⟨frames, plain⟩).step.world.journal.entries]
  exact congrArg (List.any · Event.isStore) hentries

/-- At each moment, the run that remembers closes has the frames of the one that scans for them, and
it stores bodies at the same moments. -/
theorem map_moments_alike {γ : Type} {f : Machine σ → γ}
    (hf : ∀ now other : Machine σ, now.frames = other.frames → now.stores = other.stores →
      f now = f other)
    {frames : List Frame} {world plain : World σ} (h : Alike frames world plain) (fuel : Nat) :
    (moments fuel ⟨frames, world⟩).map f = (moments fuel ⟨frames, plain⟩).map f := by
  have hfirst : ∀ {frames : List Frame} {world plain : World σ}, Alike frames world plain →
      f ⟨frames, world⟩ = f ⟨frames, plain⟩ := fun h => hf _ _ rfl (stores_alike h)
  induction fuel generalizing frames world plain with
  | zero => rfl
  | succ fuel ih =>
    rcases (step_alike h).cases with ⟨_, _, _, hnow, hother, halike⟩ | ⟨_, _, _, hnow, hother, -⟩
    · rw [moments_of_running hnow, moments_of_running hother, List.map_cons, List.map_cons,
        hfirst h, ih halike]
    · rw [moments_of_halted hnow, moments_of_halted hother, List.map_singleton, List.map_singleton,
        hfirst h]

/-! ## Stretches -/

/-- The first so many steps of a run, split behind each that stores a body. -/
def stretches (fuel : Nat) (machine : Machine σ) : List (List (Machine σ)) :=
  (moments fuel machine).splitBy fun now _ => !now.stores

omit [Console σ] in
/-- The pieces of code that are executed in a stretch of a run, each of them once. -/
def executed (stretch : List (Machine σ)) : List Code := (stretch.filterMap running?).dedup

section

variable {machine : Machine σ} {memo : CloseMemo}

/-- In some steps one after another, of which only the last may store a body, no opener is scanned
for twice, nor one whose close is remembered at first.  By induction on the steps: what the first
one scans for is remembered when the others begin. -/
theorem nodup_of_isChain {rest : List (Machine σ)}
    (hsteps : (machine :: rest).IsChain Steps)
    (hstores : (machine :: rest).IsChain fun now _ => (!now.stores) = true)
    (hmemo : machine.world.closes = some memo) :
    ((machine :: rest).flatMap scans).Nodup ∧
      ∀ scan ∈ (machine :: rest).flatMap scans, (scan.1.address, scan.2) ∉ memo := by
  induction rest generalizing machine memo with
  | nil =>
    rw [List.flatMap_singleton]
    exact nodup_scans hmemo
  | cons next rest ih =>
    obtain ⟨hdistinct, hfresh⟩ := nodup_scans hmemo
    obtain ⟨hfirst, hothers⟩ := List.isChain_cons_cons.1 hsteps
    obtain ⟨hplain, hplains⟩ := List.isChain_cons_cons.1 hstores
    obtain ⟨now, hnow, hold, hscanned⟩ :=
      exists_closes_of_steps hmemo hfirst (by simpa using hplain)
    obtain ⟨hrest, hunknown⟩ := ih hothers hplains hnow
    rw [List.flatMap_cons]
    constructor
    · refine List.nodup_append.2 ⟨hdistinct, hrest, ?_⟩
      rintro scan hscan _ hother rfl
      exact hunknown scan hother (hscanned scan hscan)
    · intro scan hmem
      rcases List.mem_append.1 hmem with hmem | hmem
      · exact hfresh scan hmem
      · exact fun hkey => hunknown scan hmem (hold _ hkey)

theorem reaches_of_mem_stretches {fuel : Nat} {stretch : List (Machine σ)}
    (h : stretch ∈ machine.stretches fuel) {later : Machine σ} (hlater : later ∈ stretch) :
    Reaches machine later := by
  have hmem : later ∈ (machine.stretches fuel).flatten := List.mem_flatten.2 ⟨stretch, h, hlater⟩
  rw [stretches, List.flatten_splitBy] at hmem
  exact reaches_of_mem_moments hmem

/-- In a stretch of a run, no opener is scanned for twice. -/
theorem nodup_of_mem_stretches (hmemo : machine.world.closes = some memo) {fuel : Nat}
    {stretch : List (Machine σ)} (h : stretch ∈ machine.stretches fuel) :
    (stretch.flatMap scans).Nodup := by
  have hsteps : stretch.IsChain Steps := by
    have hall : (machine.stretches fuel).flatten.IsChain Steps := by
      rw [stretches, List.flatten_splitBy]
      exact isChain_moments fuel machine
    exact ((List.isChain_flatten (List.nil_notMem_splitBy _ _)).1 hall).1 stretch h
  cases stretch with
  | nil => exact .nil
  | cons first rest =>
    obtain ⟨now, hnow⟩ :=
      exists_closes_of_reaches (reaches_of_mem_stretches h List.mem_cons_self) hmemo
    exact (nodup_of_isChain hsteps (List.isChain_of_mem_splitBy h) hnow).1

/-- In a stretch of a run, there are at most as many scans as words that they can start at. -/
theorem countP_le_of_mem_stretches (hmemo : machine.world.closes = some memo) {fuel : Nat}
    {stretch : List (Machine σ)} (h : stretch ∈ machine.stretches fuel) :
    (stretch.flatMap noted).countP Event.isMatch ≤ ((executed stretch).map Code.openings).sum := by
  have hlength : (stretch.flatMap scans).length = (stretch.flatMap noted).countP Event.isMatch := by
    rw [List.length_flatMap, List.countP_flatMap]
    exact congrArg List.sum (List.map_congr_left fun now _ => now.length_scans)
  rw [← hlength]
  refine length_le_openings (nodup_of_mem_stretches hmemo h) fun scan hscan => ?_
  obtain ⟨now, hnow, hmem⟩ := List.mem_flatMap.1 hscan
  obtain ⟨memory, hmemory⟩ := exists_closes_of_reaches (reaches_of_mem_stretches h hnow) hmemo
  obtain ⟨hcode, hfinds⟩ := exists_finds_of_mem_scans hmemory hmem
  exact ⟨List.mem_dedup.2 (List.mem_filterMap.2 ⟨now, hnow, hcode⟩), hfinds⟩

end

/-- A run that scans for each opener once, between two moments at which a body is stored.  A stretch
that ends with the first so many steps may go on behind them, and this holds for any number of
steps. -/
structure ScansOnce (machine : Machine σ) : Prop where
  /-- In a stretch, no opener of a piece of code is scanned for twice. -/
  distinct : ∀ fuel, ∀ stretch ∈ machine.stretches fuel, (stretch.flatMap scans).Nodup
  /-- In a stretch, the events that tell of a scan are no more than the words that open a block or a
  clause in the code that is executed. -/
  bounded : ∀ fuel, ∀ stretch ∈ machine.stretches fuel,
    (stretch.flatMap noted).countP Event.isMatch ≤ ((executed stretch).map Code.openings).sum
  /-- A scan of a step is one of the code that it executes, and finds a close there. -/
  found : ∀ later, machine.Reaches later → ∀ scan ∈ later.scans,
    later.running? = some scan.1 ∧ ∃ close, scan.1.Finds scan.2 close
  /-- The events of the steps, and no others, are noted in the journal of the run. -/
  journal : ∀ fuel outcome final, machine.run fuel = some (outcome, final) →
    final.journal = ((machine.moments fuel).flatMap noted).foldl Journal.note machine.world.journal

theorem scansOnce_of_closes {machine : Machine σ} {memo : CloseMemo}
    (hmemo : machine.world.closes = some memo) : machine.ScansOnce where
  distinct _ _ h := nodup_of_mem_stretches hmemo h
  bounded _ _ h := countP_le_of_mem_stretches hmemo h
  found _ hreaches _ hscan := by
    obtain ⟨now, hnow⟩ := exists_closes_of_reaches hreaches hmemo
    exact exists_finds_of_mem_scans hnow hscan
  journal _ _ _ hrun := journal_of_run hrun

end Machine

/-! ## Runs and calls -/

/-- **Blocks are not scanned again.**  Take a context, a console and a journal, and a run of any
range of any tokens, or a call of a function that can start.  Split the run behind each step that
stores a body.  In each stretch of it, a scan for the close of a block succeeds at most once for
each opener of each piece of code, however many rounds of loops and calls of the same body there
are.  So in each stretch there are at most as many scans as there are words that open a block or a
clause in the code that is executed there. -/
theorem blocks_not_rescanned [Console σ] (context : Context) (console : σ) (journal : Journal) :
    (∀ (tokens : Array Token) (extent : Extent),
      (Machine.start (.program tokens) extent (context.world console journal)).ScansOnce) ∧
    ∀ (name : String) (span : Span) (body : Code) (entered : World σ),
      (Statement.invoke name span).run (context.world console journal) = .ok body entered →
        (Machine.calling body entered).ScansOnce := by
  have hempty : (context.world console journal).closes = some ∅ := rfl
  refine ⟨fun tokens extent => Machine.scansOnce_of_closes hempty, ?_⟩
  intro name span body entered hinvoke
  obtain ⟨-, rfl⟩ := Statement.of_run_invoke hinvoke
  exact Machine.scansOnce_of_closes hempty

/-- The tokens of `for i in 1 to 3`, of `if i end`, and of `end`. -/
def countToThree : Array Token :=
  #[⟨.keyword .forLoop, "for", ⟨1, 0⟩⟩, ⟨.identifier "i", "i", ⟨1, 4⟩⟩,
    ⟨.keyword .inBound, "in", ⟨1, 6⟩⟩, ⟨.number (.int 1), "1", ⟨1, 9⟩⟩,
    ⟨.keyword .toBound, "to", ⟨1, 11⟩⟩, ⟨.number (.int 3), "3", ⟨1, 14⟩⟩,
    ⟨.keyword .ifClause, "if", ⟨2, 0⟩⟩, ⟨.identifier "i", "i", ⟨2, 3⟩⟩,
    ⟨.keyword .endBlock, "end", ⟨2, 5⟩⟩, ⟨.keyword .endBlock, "end", ⟨3, 0⟩⟩]

/-- The machine that runs `countToThree`. -/
def countingMachine : Machine Console.Buffered :=
  .start (.program countToThree) ⟨0, 10⟩ ((Context.fresh 1).world ⟨[], []⟩ .silent)

/-- What is executed at a moment of a run: the code, the place and the stop of the block, and
whether a body is stored. -/
def Machine.glance (machine : Machine Console.Buffered) : Option Code × Option (Nat × Nat) × Bool :=
  (machine.running?, machine.cursor?, machine.stores)

/-- The run of `countToThree` comes by the `if` three times, executes nothing but the program, and
stores no body. -/
theorem glances_countToThree :
    ((countingMachine.moments 16).map Machine.glance).countP
      (fun seen => seen.2.1 = some (6, 9)) = 3 ∧
      (((countingMachine.moments 16).map Machine.glance).filterMap Prod.fst).dedup =
        [.program countToThree] ∧
      ∀ seen ∈ (countingMachine.moments 16).map Machine.glance, seen.2.2 = false := by
  have hglance : ∀ now other : Machine Console.Buffered, now.frames = other.frames →
      now.stores = other.stores → now.glance = other.glance := by
    rintro ⟨frames, world⟩ ⟨_, plain⟩ rfl hstores
    rw [Machine.glance, Machine.glance, hstores]
    rfl
  have halike :=
    (Context.fresh 1).alike_start (⟨[], []⟩ : Console.Buffered) .silent countToThree ⟨0, 10⟩
  have hmoments : (countingMachine.moments 16).map Machine.glance = _ :=
    Machine.map_moments_alike hglance halike 16
  rw [hmoments]
  decide +kernel

/-- `countToThree` opens two blocks, and its run goes three rounds and scans at most twice.  A call
of a function that calls itself scans for no opener twice, either. -/
theorem blocks_not_rescanned_countToThree :
    ((countingMachine.moments 16).countP (fun now => now.cursor? = some (6, 9)) = 3 ∧
      countingMachine.stretches 16 = [countingMachine.moments 16] ∧
      ((countingMachine.moments 16).flatMap Machine.scans).Nodup ∧
      ((countingMachine.moments 16).flatMap Machine.noted).countP Event.isMatch ≤ 2) ∧
    ∃ body entered,
      (Statement.invoke "f" ⟨1, 0⟩).run (selfCalling.world (⟨[], []⟩ : Console.Buffered) .silent) =
        .ok body entered ∧
      (Machine.calling body entered).ScansOnce := by
  constructor
  · obtain ⟨hrounds, hexecuted, hstores⟩ := glances_countToThree
    have hstretches : countingMachine.stretches 16 = [countingMachine.moments 16] := by
      refine List.splitBy_of_isChain nofun
        (List.pairwise_of_forall_mem_list fun now hnow _ _ => ?_).isChain
      rw [show now.stores = false from hstores _ (List.mem_map_of_mem hnow)]
      rfl
    have hscans : countingMachine.ScansOnce :=
      (blocks_not_rescanned (Context.fresh 1) (⟨[], []⟩ : Console.Buffered) .silent).1
        countToThree ⟨0, 10⟩
    have hmem : countingMachine.moments 16 ∈ countingMachine.stretches 16 := by
      rw [hstretches]
      exact List.mem_singleton_self _
    have hbounded := hscans.bounded 16 _ hmem
    rw [List.countP_map] at hrounds
    rw [List.filterMap_map] at hexecuted
    rw [show Machine.executed (countingMachine.moments 16) = [.program countToThree] from hexecuted]
      at hbounded
    exact ⟨hrounds, hstretches, hscans.distinct 16 _ hmem, hbounded⟩
  · have hget :
        (selfCalling.world (⟨[], []⟩ : Console.Buffered) .silent).context.functions.get? "f" =
        some ⟨_, _⟩ := FunctionTable.get?_define_self _ _ _ _
    have hinvoke := Statement.run_invoke_of_get? hget ⟨1, 0⟩
    rw [if_neg (by decide)] at hinvoke
    exact ⟨_, _, hinvoke, (blocks_not_rescanned selfCalling _ _).2 _ _ _ _ hinvoke⟩

end TokenScript
