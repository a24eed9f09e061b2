import TokenScript.Proofs.Block.Bodies
import TokenScript.Proofs.Bounds
import TokenScript.Proofs.Program.Heads

/-!
# Blocks lie between a statement and the next one

A statement finds out in nine ways where the one after it stands: a fixed number of tokens further
on, at the end of an expression, or behind a close that scans have found.  In all of them the next
statement is behind the statement and not beyond the code, and the blocks that run before it lie
between the two.

Blocks run on top of the block that holds their opener.  What they hold may open more blocks, and so
on; but however long the machine is busy above that block, all that it executes there of the same
code lies behind the opener.  Other code runs as well, when a function is called, until the call
ends.

* `Flow.blocks`: the blocks that a statement runs; `Extent.Between`: where they lie.
* `encloses_execute`: the blocks of every statement lie between it and the next one.
* `Frame.Nested`: frames that execute nothing before an opener; `Machine.nested_step`,
  `Machine.nested_of_reachesAbove`.
* `statements_advance_past_blocks`.
-/

namespace TokenScript

open TokenScript.Action

variable {σ α β : Type} {code : Code} {start stop next : Nat}

/-! ## Blocks -/

/-- The block lies behind the statement at `start` and before the one at `next`. -/
structure Extent.Between (start next : Nat) (extent : Extent) : Prop where
  lt_start : start < extent.start
  start_le : extent.start ≤ extent.stop
  stop_lt : extent.stop < next

/-- The blocks that a statement runs. -/
def Flow.blocks : Flow → List Extent
  | .enter block _ => [block]
  | .retest _ loop _ | .count _ _ _ loop _ => loop.blocks
  | .advance _ | .call _ _ | .exit => []

/-- The blocks that the statement at `start` runs lie between it and the next one. -/
def Flow.Encloses (start : Nat) (flow : Flow) : Prop :=
  ∀ next, flow.next? = some next → ∀ block ∈ flow.blocks, block.Between start next

theorem Flow.encloses_of_blocks_eq_nil {flow : Flow} (h : flow.blocks = []) :
    flow.Encloses start := by
  intro next _ block hmem
  rw [h] at hmem
  exact absurd hmem List.not_mem_nil

/-- The blocks between the words of a chain lie between the opener and the `end`. -/
theorem Code.ChainsTo.between {words : List Keyword} {places : List Nat} {bodies : List Extent}
    (h : code.ChainsTo start words (.ok (places, stop))) (hwords : words ⊆ Code.clauseWords)
    (htiles : Tiles start places stop bodies) {body : Extent} (hmem : body ∈ bodies) :
    body.Between start (stop + 1) := by
  obtain ⟨hlt, hle, hends⟩ := htiles.of_mem hmem
  refine ⟨hlt, hle, Nat.lt_succ_of_le ?_⟩
  rcases hends with hplace | heq
  · obtain ⟨-, hpairwise⟩ := List.pairwise_cons.1 (h.sorted hwords).1
    obtain ⟨-, -, hlast⟩ := List.pairwise_append.1 hpairwise
    exact Nat.le_of_lt (hlast _ hplace stop List.mem_cons_self)
  · exact Nat.le_of_eq heq

/-- The blocks of every statement lie between it and the next one. -/
theorem Statement.Leads.encloses {world : World σ} {flow : Flow} (hscans : world.closes = none)
    (h : Statement.Leads (world.closes = none) code start world flow) : flow.Encloses start := by
  cases h with
  | next | call | exit | define | skip | pass => exact Flow.encloses_of_blocks_eq_nil rfl
  | clause hword hrun hmem =>
    obtain ⟨places, hchain, hfound⟩ := exists_chain_of_clauses hword hscans hrun
    rintro _ ⟨⟩ block hblock
    obtain rfl := List.mem_singleton.1 hblock
    refine hchain.between (List.Subset.refl _) hchain.tiles_clauses (List.mem_map_of_mem ?_)
    exact hfound ▸ Array.mem_toList_iff.2 hmem
  | retest line hword hrun =>
    obtain ⟨places, stop, hchain, rfl⟩ := exists_chain_of_loopForm hword (Or.inl rfl) hscans hrun
    rintro _ ⟨⟩ block hblock
    exact hchain.between (by decide) (hchain.tiles_while line) hblock
  | count line low high hword hhead hrun =>
    obtain ⟨places, stop, hchain, hform⟩ := exists_chain_of_forForm hword hhead hscans hrun
    rw [hform]
    rintro _ ⟨⟩ block hblock
    exact hchain.between (by decide) (hchain.tiles_for hhead line) hblock

variable [Console σ]

theorem encloses_execute (hstart : start < code.size) :
    Returns (σ := σ) (Statement.execute code start) (Flow.Encloses start) :=
  fun _ _ _ hscans hrun => (leads_execute hstart hscans hrun).encloses hscans

/-! ## Worlds that remember closes -/

section

variable {frames : List Frame} {world final : World σ}

/-- What statements return in worlds that scan for every close, they return in worlds whose memory
is right. -/
theorem Remembers.of_returns (h : Remembers frames world) (hcode : code ∈ Frame.codes frames)
    {Q : Flow → Prop} (hreturns : Returns (σ := σ) (Statement.execute code start) Q) {flow : Flow}
    (hrun : (Statement.execute code start).run world = .ok flow final) : Q flow := by
  have halike : Alike frames world { world with closes := none } := ⟨rfl, rfl, rfl, rfl, rfl, h⟩
  have hblind := blind_execute hcode start world _ halike
  rw [hrun] at hblind
  cases hplain : (Statement.execute code start).run { world with closes := none } with
  | error abort other =>
    rw [hplain] at hblind
    exact False.elim hblind
  | ok same other =>
    rw [hplain] at hblind
    obtain ⟨rfl, -, -⟩ := hblind
    exact hreturns _ flow other rfl hplain

/-- The memory of a run stays right. -/
theorem Remembers.reaches {machine later : Machine σ} (h : Remembers machine.frames machine.world)
    (hreaches : machine.Reaches later) : Remembers later.frames later.world := by
  have halike : Alike machine.frames machine.world { machine.world with closes := none } :=
    ⟨rfl, rfl, rfl, rfl, rfl, h⟩
  obtain ⟨plain, -, hlater⟩ := Machine.exists_reaches_alike halike hreaches
  exact hlater.memory

omit [Console σ] in
theorem Flow.Forward.lt_next {flow : Flow} (h : flow.Forward code start)
    (hnext : flow.next? = some next) :
    start < next ∧ next ≤ code.size := by
  cases flow with
  | exit => cases hnext
  | advance place | call body place =>
    obtain rfl := Option.some.inj hnext
    exact h
  | enter extent place | count name first last loop place =>
    obtain rfl := Option.some.inj hnext
    exact h.2
  | retest condition loop place =>
    obtain rfl := Option.some.inj hnext
    exact h.2.2.2

end

/-! ## Above a block -/

/-- The frame executes nothing of the code but what lies behind the opener at `start`. -/
def Frame.Behind (code : Code) (start : Nat) : Frame → Prop
  | .block other cursor _ => other = code ∧ start < cursor
  | .retest other _ loop _ => other = code ∧ loop.Behind code start
  | .count other _ _ _ _ loop => other = code ∧ loop.Behind code start
  | .call => True

/-- Of the frames above the block with the opener at `start`, those that belong to no call execute
nothing but what lies behind the opener. -/
def Frame.Nested (code : Code) (start : Nat) : List Frame → Prop
  | [] => True
  | frame :: rest =>
    (Frame.calls (frame :: rest) = 0 → frame.Behind code start) ∧ Nested code start rest

section

variable {frame : Frame} {rest extra : List Frame} {other : Code} {cursor : Nat}

omit [Console σ]

theorem Extent.Behind.trans {extent : Extent} (h : extent.Behind code cursor)
    (hlt : start < cursor) :
    extent.Behind code start :=
  h.of_le (Nat.le_of_lt hlt)

theorem Loop.Behind.trans {loop : Loop} (h : loop.Behind code cursor) (hlt : start < cursor) :
    loop.Behind code start :=
  ⟨h.body.trans hlt, fun extent heq => (h.otherwise extent heq).trans hlt⟩

theorem Frame.Behind.trans (h : frame.Behind code cursor) (hlt : start < cursor) :
    frame.Behind code start := by
  cases frame with
  | block code place stop => exact ⟨h.1, Nat.lt_trans hlt h.2⟩
  | retest code condition loop rounds | count code name first last place loop =>
    exact ⟨h.1, h.2.trans hlt⟩
  | call => trivial

theorem Frame.nested_cons_iff (hcode : frame.code? = some other) :
    Frame.Nested code start (frame :: rest) ↔
      (Frame.calls rest = 0 → frame.Behind code start) ∧ Frame.Nested code start rest := by
  rw [Nested, calls_cons hcode]

/-- Frames that are nested in a statement, on top of frames that are nested in another one.  The
statement lies behind the other one, unless it belongs to a call. -/
theorem Frame.Nested.append (h : Frame.Nested other cursor extra)
    (hcursor : Frame.calls rest = 0 → other = code ∧ start < cursor)
    (hrest : Frame.Nested code start rest) :
    Frame.Nested code start (extra ++ rest) := by
  induction extra with
  | nil => exact hrest
  | cons frame extra ih =>
    refine ⟨fun hcalls => ?_, ih h.2⟩
    change calls (frame :: extra ++ rest) = 0 at hcalls
    rw [calls, List.countP_append] at hcalls
    obtain ⟨rfl, hlt⟩ := hcursor (Nat.eq_zero_of_add_eq_zero_left hcalls)
    exact (h.1 (Nat.eq_zero_of_add_eq_zero_right hcalls)).trans hlt

theorem Frame.nested_elseFrames {loop : Loop} (h : Frame.Nested code start rest)
    (hloop : Frame.calls rest = 0 → other = code ∧ loop.Behind code start) :
    Frame.Nested code start (Machine.elseFrames other loop ++ rest) := by
  unfold Machine.elseFrames
  cases hextent : loop.otherwise with
  | none => exact h
  | some extent =>
    refine (nested_cons_iff rfl).2 ⟨fun hcalls => ?_, h⟩
    obtain ⟨hsame, hbehind⟩ := hloop hcalls
    exact ⟨hsame, (hbehind.otherwise extent hextent).lt_start⟩

/-- The frames of a flow are nested in its statement. -/
theorem Flow.Forward.nested {flow : Flow} (h : flow.Forward code cursor) :
    Frame.Nested code cursor (flow.frames code) := by
  cases flow with
  | advance place | exit => trivial
  | enter extent place => exact ⟨fun _ => ⟨rfl, h.1.lt_start⟩, trivial⟩
  | retest condition loop place => exact ⟨fun _ => ⟨rfl, h.2.2.1⟩, trivial⟩
  | count name first last loop place => exact ⟨fun _ => ⟨rfl, h.1⟩, trivial⟩
  | call body place =>
    refine ⟨fun hcalls => ?_, fun _ => trivial, trivial⟩
    rw [Frame.calls_cons rfl, Frame.calls_call] at hcalls
    cases hcalls

/-- Going on after a statement. -/
theorem Machine.nested_follow {flow : Flow} {world : World σ} {later : Machine σ}
    (hforward : flow.Forward other cursor)
    (hframe : Frame.calls rest = 0 → other = code ∧ start < cursor)
    (hrest : Frame.Nested code start rest)
    (h : follow other stop flow rest world = .running later) :
    Frame.Nested code start later.frames := by
  cases hflow : flow.next? with
  | none =>
    cases flow with
    | exit => cases h
    | _ => cases hflow
  | some place =>
    rw [follow_eq hflow] at h
    obtain rfl := Status.running.inj h
    refine hforward.nested.append (fun hcalls => ?_)
      ((Frame.nested_cons_iff rfl).2 ⟨fun hcalls => ?_, hrest⟩)
    · rw [Frame.calls_cons rfl] at hcalls
      exact hframe hcalls
    · obtain ⟨hsame, hlt⟩ := hframe hcalls
      exact ⟨hsame, Nat.lt_trans hlt (hforward.lt_next hflow).1⟩

end

namespace Machine

variable {frame : Frame} {frames base : List Frame}

/-- A step with some frames above the opener leaves such frames again. -/
theorem nested_step {world : World σ} {later : Machine σ}
    (hmemory : Remembers (frame :: frames ++ base) world)
    (hnested : Frame.Nested code start (frame :: frames))
    (hstep : step ⟨frame :: frames, world⟩ = .running later) :
    Frame.Nested code start later.frames := by
  cases frame with
  | call =>
    obtain rfl := Status.running.inj hstep
    exact hnested.2
  | block other cursor stop =>
    obtain ⟨hframe, hrest⟩ := (Frame.nested_cons_iff rfl).1 hnested
    by_cases hexecutes : cursor < stop ∧ cursor < other.size
    · rw [step_block hexecutes] at hstep
      cases hexecute : (Statement.execute other cursor).run world with
      | error abort final =>
        rw [hexecute] at hstep
        cases hstep
      | ok flow final =>
        rw [hexecute] at hstep
        have hforward :=
          hmemory.of_returns List.mem_cons_self (returns_execute hexecutes.2) hexecute
        exact nested_follow hforward hframe hrest hstep
    · simp only [step, if_neg hexecutes] at hstep
      obtain rfl := Status.running.inj hstep
      exact hrest
  | retest other condition loop rounds =>
    obtain ⟨hframe, hrest⟩ := (Frame.nested_cons_iff rfl).1 hnested
    simp only [step] at hstep
    split at hstep
    · cases hstep
    · split at hstep
      · obtain rfl := Status.running.inj hstep
        refine (Frame.nested_cons_iff rfl).2
          ⟨fun hcalls => ?_, (Frame.nested_cons_iff rfl).2 ⟨hframe, hrest⟩⟩
        rw [Frame.calls_cons rfl] at hcalls
        obtain ⟨hsame, hloop⟩ := hframe hcalls
        exact ⟨hsame, hloop.body.lt_start⟩
      · obtain rfl := Status.running.inj hstep
        exact Frame.nested_elseFrames hrest hframe
  | count other name first last place loop =>
    obtain ⟨hframe, hrest⟩ := (Frame.nested_cons_iff rfl).1 hnested
    simp only [step] at hstep
    split at hstep
    · obtain rfl := Status.running.inj hstep
      refine (Frame.nested_cons_iff rfl).2
        ⟨fun hcalls => ?_, (Frame.nested_cons_iff rfl).2 ⟨hframe, hrest⟩⟩
      rw [Frame.calls_cons rfl] at hcalls
      obtain ⟨hsame, hloop⟩ := hframe hcalls
      exact ⟨hsame, hloop.body.lt_start⟩
    · obtain rfl := Status.running.inj hstep
      exact Frame.nested_elseFrames hrest hframe

/-- A step that executes a frame above the base. -/
def StepsAbove (base : List Frame) (machine later : Machine σ) : Prop :=
  machine.Steps later ∧ ∃ frame frames, machine.frames = frame :: frames ++ base

/-- A run that comes by the machine before it gets back to the base. -/
abbrev ReachesAbove (base : List Frame) : Machine σ → Machine σ → Prop :=
  Relation.ReflTransGen (StepsAbove base)

theorem nested_of_reachesAbove {machine later : Machine σ}
    (hmemory : Remembers machine.frames machine.world) (hframes : machine.frames = frames ++ base)
    (hnested : Frame.Nested code start frames) (h : machine.ReachesAbove base later) :
    ∃ inner, later.frames = inner ++ base ∧ Frame.Nested code start inner := by
  induction h with
  | refl => exact ⟨frames, hframes, hnested⟩
  | @tail now next hreaches hlast ih =>
    obtain ⟨inner, hnow, hinner⟩ := ih
    obtain ⟨hstep, frame, above, hsplit⟩ := hlast
    obtain rfl : inner = frame :: above := List.append_cancel_right (hnow.symm.trans hsplit)
    have hright :=
      hmemory.reaches (Relation.ReflTransGen.mono (fun _ _ hsteps => hsteps.1) _ _ hreaches)
    -- the step does not look at the base
    have happend := step_append frame above base now.world
    rw [← hsplit, show step ⟨now.frames, now.world⟩ = .running next from hstep] at happend
    cases habove : step ⟨frame :: above, now.world⟩ with
    | halted outcome final =>
      rw [habove] at happend
      cases happend
    | running second =>
      rw [habove] at happend
      obtain rfl := Status.running.inj happend
      exact ⟨second.frames, rfl, nested_step (hsplit ▸ hright) hinner habove⟩

end Machine

/-! ## Statements advance -/

/-- **Every statement goes on behind the blocks that it runs.**  Take any moment of a run, or any
other machine whose memory of closes is right, that is about to execute the statement at `cursor`,
and say that the statement after it is at `next`.

* It lies behind the statement, and not beyond the code.
* The blocks that the statement runs lie between the two.
* While the machine is busy above the block that goes on at `next`, it executes nothing of the code
  but what lies behind `cursor`, unless it is in a call.

The memory is right at all moments of all runs and of all calls. -/
theorem statements_advance_past_blocks (σ : Type) [Console σ] :
    (∀ (machine : Machine σ) (code : Code) (cursor stop : Nat) (rest : List Frame),
      Remembers machine.frames machine.world → machine.frames = .block code cursor stop :: rest →
      cursor < stop → cursor < code.size → ∀ flow final next,
      (Statement.execute code cursor).run machine.world = .ok flow final → flow.next? = some next →
        cursor < next ∧ next ≤ code.size ∧ (∀ block ∈ flow.blocks, block.Between cursor next) ∧
        ∃ entered,
          machine.step = .running ⟨flow.frames code ++ .block code next stop :: rest, entered⟩ ∧
          ∀ later, Machine.ReachesAbove (.block code next stop :: rest)
              ⟨flow.frames code ++ .block code next stop :: rest, entered⟩ later →
            ∃ inner, later.frames = inner ++ .block code next stop :: rest ∧
              Frame.Nested code cursor inner) ∧
    (∀ (context : Context) (console : σ) (journal : Journal) (tokens : Array Token)
        (extent : Extent) later,
      Machine.Reaches
        (Machine.start (.program tokens) extent (context.world console journal)) later →
        Remembers later.frames later.world) ∧
    ∀ (context : Context) (console : σ) (journal : Journal) (name : String) (span : Span)
        body entered,
      (Statement.invoke name span).run (context.world console journal) = .ok body entered →
      ∀ later, Machine.Reaches (Machine.calling body entered) later →
        Remembers later.frames later.world := by
  refine ⟨?_, fun context console journal tokens extent later hreaches =>
    (context.alike_start console journal tokens extent).memory.reaches hreaches, ?_⟩
  · rintro ⟨frames, world⟩ code cursor stop rest hmemory rfl hstop hsize flow final next hrun hnext
    have hcode : code ∈ Frame.codes (.block code cursor stop :: rest) := List.mem_cons_self
    have hforward := hmemory.of_returns hcode (returns_execute hsize) hrun
    have hencloses := hmemory.of_returns hcode (encloses_execute hsize) hrun
    have hentered : Machine.step ⟨.block code cursor stop :: rest, world⟩ =
        .running ⟨flow.frames code ++ .block code next stop :: rest, flow.entered final⟩ := by
      rw [Machine.step_block ⟨hstop, hsize⟩, hrun]
      exact Machine.follow_eq hnext code stop rest final
    obtain ⟨hlt, hle⟩ := hforward.lt_next hnext
    refine ⟨hlt, hle, hencloses next hnext, _, hentered, fun later hreaches => ?_⟩
    have hsecond := hmemory.reaches (.single hentered)
    exact Machine.nested_of_reachesAbove hsecond rfl hforward.nested hreaches
  · intro context console journal name span body entered hinvoke later hreaches
    obtain ⟨plain, halike⟩ := Context.alike_calling hinvoke
    have hcalling :
        Remembers (Machine.calling body entered).frames (Machine.calling body entered).world :=
      halike.memory
    exact hcalling.reaches hreaches

/-- The `while` of `clauseChains` runs a body and an `else` clause, the body without any tokens but
a stray `elif`, and goes on behind its `end`. -/
theorem statements_advance_past_blocks_clauseChains :
    Remembers [.block clauseChains 8 12] clauseWorld ∧
    ∃ flow final, (Statement.execute clauseChains 8).run clauseWorld = .ok flow final ∧
      flow.next? = some 12 ∧ flow.blocks = [⟨9, 10⟩, ⟨11, 11⟩] ∧
      (∀ block ∈ flow.blocks, block.Between 8 12) ∧
      ∃ entered, Machine.step ⟨[.block clauseChains 8 12], clauseWorld⟩ =
        .running ⟨flow.frames clauseChains ++ [.block clauseChains 12 12], entered⟩ := by
  have hstart :=
    ((Context.fresh 0).alike_start (⟨[], []⟩ : Console.Buffered) .silent clauseChains.tokens
      ⟨8, 12⟩).memory
  have hmemory : Remembers [.block clauseChains 8 12] clauseWorld :=
    ⟨hstart.pinned, hstart.apart, nofun⟩
  have hcomputed : (answerOf ((Statement.execute clauseChains 8).run clauseWorld)).map
      (Except.map fun flow => (flow.next?, flow.blocks)) =
        some (.ok (some 12, [⟨9, 10⟩, ⟨11, 11⟩])) := by decide +kernel
  obtain ⟨hadvance, -, -⟩ := statements_advance_past_blocks Console.Buffered
  cases hrun : (Statement.execute clauseChains 8).run clauseWorld with
  | error abort final =>
    rw [hrun] at hcomputed
    cases abort <;> cases hcomputed
  | ok flow final =>
    rw [hrun] at hcomputed
    obtain ⟨hnext, hblocks⟩ := Prod.mk.inj (Except.ok.inj (Option.some.inj hcomputed))
    obtain ⟨-, -, hbetween, entered, hstep, -⟩ :=
      hadvance ⟨[.block clauseChains 8 12], clauseWorld⟩ clauseChains 8 12 [] hmemory rfl
        (by decide) (by decide) flow final 12 hrun hnext
    exact ⟨hmemory, flow, final, rfl, hnext, hblocks, hbetween, entered, hstep⟩

end TokenScript
