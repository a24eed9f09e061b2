import TokenScript.Proofs.Escapes
import TokenScript.Proofs.Progress
import TokenScript.Proofs.WordSteps

/-!
# Nothing runs out of bounds

The library counts with numbers that have no bounds, and looks at tokens that may not be there.  A
machine counts with 64 bits and has to stop when a count leaves them, or when it looks beyond the
end of its tokens.  This file shows that it never has to, whatever the tokens are, where a run
starts and stops, and what its context holds.

Tokens are looked at in few places, and what keeps these inside the code was found out earlier: by
the scan for a block, whose result may have been remembered since, or by the check of a statement's
form.  So the frames of a machine name places inside their code, at each moment of a run.  The calls
under way are counted up below the limit only, and down once for each call that was counted up.  A
scan opens as many blocks as it has seen tokens, and closes none that it did not open.

* `BlockPolicy.closeCounting`: the scan for a block by a machine that counts with 64 bits.
* `Frame.Inside`: the places in a frame, and the integers that it counts through.
* `Machine.InBounds`: a machine at a moment of a run; `Machine.inBounds_of_reaches`.
* `runs_stay_in_bounds`: nothing runs out of bounds.
-/

namespace TokenScript

/-! ## Scans that count -/

/-- The greatest number that 64 bits count to. -/
def countLimit : Nat := 18446744073709551615

/-- The next number, if 64 bits count to it. -/
def countUp? (n : Nat) : Option Nat := if n < countLimit then some (n + 1) else none

/-- The number before, if there is one. -/
def countDown? (n : Nat) : Option Nat := if 0 < n then some (n - 1) else none

namespace BlockPolicy

/-- Scans from an index on, with `depth` nested blocks open.  The outer option is `none` if the
number of open blocks cannot be counted. -/
def scanCounting (policy : BlockPolicy) (tokens : Array Token) (index depth : Nat) :
    Option (Option Close) :=
  if h : index < tokens.size then
    match tokens[index].keyword? with
    | none => scanCounting policy tokens (index + 1) depth
    | some word =>
      if word ∈ policy.openers then
        (countUp? depth).bind fun deeper => scanCounting policy tokens (index + 1) deeper
      else if depth = 0 ∧ word ∈ policy.stops then some (some ⟨index, word⟩)
      else if word = policy.nestedClose ∧ 0 < depth then
        (countDown? depth).bind fun shallower => scanCounting policy tokens (index + 1) shallower
      else scanCounting policy tokens (index + 1) depth
  else some none
termination_by tokens.size - index

/-- The end of the block that opens at `start`, or `none` if something cannot be counted on the
way. -/
def closeCounting (policy : BlockPolicy) (tokens : Array Token) (start : Nat) :
    Option (Except Error Close) :=
  (countUp? start).bind fun first =>
    (policy.scanCounting tokens first 0).map fun
      | some found => .ok found
      | none => .error (policy.unterminated tokens start)

variable {policy : BlockPolicy} {tokens : Array Token} {index depth start : Nat}

/-- A scan opens at most one block for each token that is left. -/
theorem scanCounting_eq (h : depth + (tokens.size - index) ≤ countLimit) :
    policy.scanCounting tokens index depth = some (policy.scan tokens index depth) := by
  fun_induction scan policy tokens index depth with
  | case1 index depth hlt hword ih =>
    rw [scanCounting, dif_pos hlt, hword]
    exact ih (by omega)
  | case2 index depth hlt word hword hopener ih =>
    have hcount : countUp? depth = some (depth + 1) := if_pos (by omega)
    rw [scanCounting, dif_pos hlt, hword]
    simp only [if_pos hopener, hcount, Option.bind_some]
    exact ih (by omega)
  | case3 index depth hlt word hword hopener hstop =>
    rw [scanCounting, dif_pos hlt, hword]
    simp only [if_neg hopener, if_pos hstop]
  | case4 index depth hlt word hword hopener hstop hclose ih =>
    have hcount : countDown? depth = some (depth - 1) := if_pos hclose.2
    rw [scanCounting, dif_pos hlt, hword]
    simp only [if_neg hopener, if_neg hstop, if_pos hclose, hcount, Option.bind_some]
    exact ih (by omega)
  | case5 index depth hlt word hword hopener hstop hclose ih =>
    rw [scanCounting, dif_pos hlt, hword]
    simp only [if_neg hopener, if_neg hstop, if_neg hclose]
    exact ih (by omega)
  | case6 index depth hge => rw [scanCounting, dif_neg hge]

/-- A machine that counts with 64 bits finds the end of every block, if it can count the tokens. -/
theorem closeCounting_eq (hsize : tokens.size + 2 ≤ countLimit) (hstart : start ≤ tokens.size + 1) :
    policy.closeCounting tokens start = some (policy.close tokens start) := by
  have hcount : countUp? start = some (start + 1) := if_pos (by omega)
  have hscan : policy.scanCounting tokens (start + 1) 0 = some (policy.scan tokens (start + 1) 0) :=
    scanCounting_eq (by omega)
  cases hfound : policy.scan tokens (start + 1) 0 <;>
    simp only [closeCounting, close, hcount, hscan, hfound, Option.bind_some, Option.map_some]

theorem close_bounds {found : Close} (h : policy.close tokens start = .ok found) :
    start < found.index ∧ found.index < tokens.size := by
  obtain ⟨hle, hlt, -⟩ := scan_bounds (scan_of_close h)
  exact ⟨hle, hlt⟩

end BlockPolicy

/-! ## Frames -/

/-- The frame names places inside its code, up to so many behind its end where it starts; and the
integers that it counts through are words. -/
def Frame.Inside (slack : Nat) : Frame → Prop
  | .block code cursor _ => cursor ≤ code.size + slack
  | .retest code condition loop _ => condition ≤ code.size ∧ ∃ start, loop.Behind code start
  | .count code _ _ last next loop =>
    Word.least ≤ next ∧ last ≤ Word.greatest ∧ ∃ start, loop.Behind code start
  | .call => True

variable {σ : Type}

namespace Machine

variable {slack : Nat} {code : Code} {rest : List Frame}

theorem inside_blockFrame {start : Nat} {extent : Extent} (h : extent.Behind code start) :
    (blockFrame code extent).Inside slack :=
  Nat.le_trans h.start_le (Nat.le_add_right _ _)

theorem inside_elseFrames {start : Nat} {loop : Loop} (h : loop.Behind code start) :
    ∀ frame ∈ elseFrames code loop, frame.Inside slack := by
  intro frame hmem
  obtain ⟨extent, hextent, rfl⟩ := Option.map_eq_some_iff.1 (Option.mem_toList.1 hmem)
  exact inside_blockFrame (h.otherwise extent hextent)

/-- Going on after a statement. -/
theorem inside_follow {cursor stop : Nat} {flow : Flow} {world : World σ} {next : Machine σ}
    (hforward : flow.Forward code cursor) (hrest : ∀ frame ∈ rest, frame.Inside slack)
    (h : follow code stop flow rest world = .running next) :
    ∀ frame ∈ next.frames, frame.Inside slack := by
  have hblock : ∀ place, place ≤ code.size → ∀ frame ∈ .block code place stop :: rest,
      frame.Inside slack := fun place hplace =>
    List.forall_mem_cons.2 ⟨Nat.le_trans hplace (Nat.le_add_right _ _), hrest⟩
  cases flow with
  | advance place =>
    obtain rfl := Status.running.inj h
    exact hblock place hforward.2
  | enter extent place =>
    obtain rfl := Status.running.inj h
    exact List.forall_mem_cons.2 ⟨inside_blockFrame hforward.1, hblock place hforward.2.2⟩
  | retest condition loop place =>
    obtain rfl := Status.running.inj h
    obtain ⟨-, hcondition, hloop, -, hplace⟩ := hforward
    exact List.forall_mem_cons.2 ⟨⟨hcondition, cursor, hloop⟩, hblock place hplace⟩
  | count name first last loop place =>
    obtain rfl := Status.running.inj h
    have hwords := And.intro (Word.bounds_toInt first).1 (Word.bounds_toInt last).2
    exact List.forall_mem_cons.2
      ⟨⟨hwords.1, hwords.2, cursor, hforward.1⟩, hblock place hforward.2.2⟩
  | call body place =>
    obtain rfl := Status.running.inj h
    exact List.forall_mem_cons.2
      ⟨Nat.zero_le _, List.forall_mem_cons.2 ⟨trivial, hblock place hforward.2⟩⟩
  | exit => cases h

variable [Console σ]

/-- In a world that scans for every close, a step keeps all places inside. -/
theorem inside_step {machine next : Machine σ} (hscans : machine.world.closes = none)
    (hinside : ∀ frame ∈ machine.frames, frame.Inside slack)
    (hstep : machine.step = .running next) :
    ∀ frame ∈ next.frames, frame.Inside slack := by
  obtain ⟨frames, world⟩ := machine
  cases frames with
  | nil => cases hstep
  | cons frame rest =>
    obtain ⟨hframe, hrest⟩ := List.forall_mem_cons.1 hinside
    have happend : ∀ extra : List Frame, (∀ frame ∈ extra, frame.Inside slack) →
        ∀ frame ∈ extra ++ rest, frame.Inside slack := fun extra hextra frame hmem =>
      (List.mem_append.1 hmem).elim (hextra frame) (hrest frame)
    cases frame with
    | call =>
      obtain rfl := Status.running.inj hstep
      exact hrest
    | block code cursor stop =>
      by_cases hexecutes : cursor < stop ∧ cursor < code.size
      · rw [step_block hexecutes] at hstep
        cases hexecute : (Statement.execute code cursor).run world with
        | error abort final =>
          rw [hexecute] at hstep
          cases hstep
        | ok flow final =>
          rw [hexecute] at hstep
          have hforward := returns_execute hexecutes.2 world flow final hscans hexecute
          exact inside_follow hforward hrest hstep
      · simp only [step, if_neg hexecutes] at hstep
        obtain rfl := Status.running.inj hstep
        exact hrest
    | retest code condition loop rounds =>
      obtain ⟨hcondition, start, hloop⟩ := hframe
      simp only [step] at hstep
      split at hstep
      · cases hstep
      · split at hstep
        · obtain rfl := Status.running.inj hstep
          exact List.forall_mem_cons.2 ⟨inside_blockFrame hloop.body,
            List.forall_mem_cons.2 ⟨⟨hcondition, start, hloop⟩, hrest⟩⟩
        · obtain rfl := Status.running.inj hstep
          exact happend _ (inside_elseFrames hloop)
    | count code name first last place loop =>
      obtain ⟨hleast, hgreatest, start, hloop⟩ := hframe
      simp only [step] at hstep
      split at hstep
      · obtain rfl := Status.running.inj hstep
        have hnext : Word.least ≤ place + 1 := by omega
        exact List.forall_mem_cons.2 ⟨inside_blockFrame hloop.body,
          List.forall_mem_cons.2 ⟨⟨hnext, hgreatest, start, hloop⟩, hrest⟩⟩
      · obtain rfl := Status.running.inj hstep
        exact happend _ (inside_elseFrames hloop)

theorem inside_of_reaches (machine later : Machine σ) (hscans : machine.world.closes = none)
    (hinside : ∀ frame ∈ machine.frames, frame.Inside slack) (h : Reaches machine later) :
    ∀ frame ∈ later.frames, frame.Inside slack := by
  induction h with
  | refl => exact hinside
  | tail hreaches hlast ih => exact inside_step (scans_of_reaches hreaches hscans) ih hlast

/-! ## Moments of runs -/

/-- A machine that runs nothing out of bounds, at a moment of a run that started with `base` calls
under way out of `limit`. -/
structure InBounds (slack base limit : Nat) (machine : Machine σ) : Prop where
  /-- The next step looks at no token that is not there. -/
  step_ne : ∀ final, machine.step ≠ .halted .fault final
  inside : ∀ frame ∈ machine.frames, frame.Inside slack
  /-- Every call that can still end was counted. -/
  calls_le : Frame.calls machine.frames ≤ machine.world.context.depth
  depth_le : machine.world.context.depth ≤ max base limit

/-- The count of calls stays below a bound if the limit does. -/
theorem depth_le_of_reaches {limit bound : Nat} {machine later : Machine σ}
    (hlimit : machine.world.context.callLimit = limit) (hbound : limit ≤ bound)
    (hdepth : machine.world.context.depth ≤ bound) (h : Reaches machine later) :
    later.world.context.depth ≤ bound := by
  have hboth : later.world.context.callLimit = limit ∧ later.world.context.depth ≤ bound := by
    refine h.invariant (I := fun machine : Machine σ => machine.world.context.callLimit = limit ∧
      machine.world.context.depth ≤ bound) ⟨hlimit, hdepth⟩ ?_
    rintro now next ⟨hnow, hle⟩ htakes
    cases htakes with
    | returned rest world => exact ⟨hnow, Nat.le_trans (Nat.sub_le _ 1) hle⟩
    | worked code extra hframe hdeeds hextra =>
      exact ⟨hdeeds.callLimit.trans hnow, hdeeds.depth ▸ hle⟩
    | called hcall hget hlt => exact ⟨hnow, Nat.le_trans (hnow ▸ hlt) hbound⟩
  exact hboth.2

/-- A run whose memory of closes is right stays in bounds. -/
theorem inBounds_of_reaches {base limit : Nat} {machine later : Machine σ} {plain : World σ}
    (halike : Alike machine.frames machine.world plain)
    (hinside : ∀ frame ∈ machine.frames, frame.Inside slack)
    (hbalanced : Balanced base limit machine)
    (hdepth : machine.world.context.depth ≤ max base limit) (h : Reaches machine later) :
    later.InBounds slack base limit := by
  obtain ⟨other, hother, hlater⟩ := exists_reaches_alike halike h
  have hscans : other.closes = none := hlater.scans
  refine ⟨fun final hfault => ?_, ?_, ?_, ?_⟩
  · -- the run that scans for every close would halt in the same way
    have htakes := takes_step (⟨later.frames, other⟩ : Machine σ)
    rcases (step_alike hlater).cases with ⟨_, _, _, hfirst, -⟩ | ⟨_, _, _, hfirst, hsecond, -⟩
    · cases hfault.symm.trans hfirst
    · rw [hsecond] at htakes
      exact htakes.ne_fault hscans (Status.halted.inj (hfirst.symm.trans hfault)).1
  · exact inside_of_reaches ⟨machine.frames, plain⟩ ⟨later.frames, other⟩ halike.scans
      hinside hother
  · rw [(hbalanced.reaches h).depth]
    exact Nat.le_add_left _ _
  · exact depth_le_of_reaches hbalanced.callLimit (Nat.le_max_right _ _) hdepth h

end Machine

/-! ## Runs and calls -/

theorem Statement.run_invoke_ne_fault (name : String) (span : Span) (world final : World σ) :
    (invoke name span).run world ≠ .error .fault final := by
  rw [run_invoke]
  split
  · exact nofun
  · split <;> exact nofun

/-- The machine that makes a call has a memory of closes that is right. -/
theorem Context.alike_calling {context : Context} {console : σ} {journal : Journal} {name : String}
    {span : Span} {body : Code} {entered : World σ}
    (h : (Statement.invoke name span).run (context.world console journal) = .ok body entered) :
    ∃ plain, Alike [.block body 0 body.size, .call] (entered.hold body) plain := by
  have hempty : Alike [] (context.world console journal)
      { context.world console journal with closes := none } :=
    (context.alike_start console journal #[] ⟨0, 0⟩).replace rfl [] (by simp)
  have hblind := blind_invoke name span _ _ hempty
  rw [h] at hblind
  cases hplain : (Statement.invoke name span).run
      { context.world console journal with closes := none } with
  | error abort final =>
    rw [hplain] at hblind
    exact False.elim hblind
  | ok started plain =>
    rw [hplain] at hblind
    obtain ⟨-, ⟨other, hget⟩, halike⟩ := hblind
    exact ⟨plain.hold body, halike.call hget 0 body.size⟩

/-- **Nothing runs out of bounds.**

* At each moment of a run of any range of any tokens, the next step looks at no token that is not
  there, all places in the frames lie inside their code or, where the run starts beyond it, not
  further behind its end, the integers that loops count through are words, and the calls under way
  are neither more than allowed nor fewer than have to end.
* The same goes for calls.
* An expression starts and ends inside the tokens, wherever it is looked for.
* A scan for the end of a block counts no further than 64 bits go, and never below zero; and the end
  is behind the opener.
* No step of an operator leaves the words. -/
theorem runs_stay_in_bounds (σ : Type) [Console σ] :
    (∀ (context : Context) (console : σ) (journal : Journal) (tokens : Array Token)
        (extent : Extent) (slack : Nat), extent.start ≤ tokens.size + slack →
      ∀ later, Machine.Reaches
          (Machine.start (.program tokens) extent (context.world console journal)) later →
        later.InBounds slack context.depth context.callLimit) ∧
    (∀ (context : Context) (console : σ) (journal : Journal) (name : String) (span : Span),
      (∀ final, (Statement.invoke name span).run (context.world console journal) ≠
        .error .fault final) ∧
      ∀ body entered,
        (Statement.invoke name span).run (context.world console journal) = .ok body entered →
        ∀ later, Machine.Reaches (Machine.calling body entered) later →
          later.InBounds 0 context.depth context.callLimit) ∧
    (∀ (tokens : Array Token) (start : Nat),
      min start tokens.size ≤ Expression.endFrom tokens start ∧
        Expression.endFrom tokens start ≤ tokens.size) ∧
    (∀ (policy : BlockPolicy) (tokens : Array Token) (start : Nat),
      (tokens.size + 2 ≤ countLimit → start ≤ tokens.size + 1 →
        policy.closeCounting tokens start = some (policy.close tokens start)) ∧
      ∀ found, policy.close tokens start = .ok found →
        start < found.index ∧ found.index < tokens.size) ∧
    (∀ (op : Operator) (left right : Value),
      op.applyInWords left right = some (op.apply left right)) ∧
    ∀ (op : Operator) (operand : Value), op.signInWords operand = some (op.applySign operand) := by
  refine ⟨?_, ?_, ?_, ?_, Operator.applyInWords_eq, Operator.signInWords_eq⟩
  · intro context console journal tokens extent slack hstart later hreaches
    have hinside : ∀ frame ∈ [Machine.blockFrame (.program tokens) extent], frame.Inside slack :=
      List.forall_mem_singleton.2 hstart
    exact Machine.inBounds_of_reaches (context.alike_start console journal tokens extent) hinside
      (Machine.balanced_start (.program tokens) extent (context.world console journal))
      (Nat.le_max_left _ _) hreaches
  · intro context console journal name span
    refine ⟨Statement.run_invoke_ne_fault name span _,
      fun body entered hinvoke later hreaches => ?_⟩
    obtain ⟨plain, halike⟩ := Context.alike_calling hinvoke
    obtain ⟨hlimit, rfl⟩ := Statement.of_run_invoke hinvoke
    have hinside : ∀ frame ∈ [.block body 0 body.size, .call], Frame.Inside 0 frame :=
      List.forall_mem_cons.2 ⟨Nat.zero_le _, List.forall_mem_singleton.2 trivial⟩
    exact Machine.inBounds_of_reaches halike hinside
      (Machine.balanced_calling body (context.world console journal) name)
      (Nat.le_trans hlimit (Nat.le_max_right _ _)) hreaches
  · intro tokens start
    refine ⟨?_, Expression.endFrom_le tokens start⟩
    by_cases hstart : start ≤ tokens.size
    · rw [Nat.min_eq_left hstart]
      exact Expression.le_endFrom hstart
    · rw [Nat.min_eq_right (Nat.le_of_not_le hstart), Expression.endFrom, dif_neg (by omega)]
  · intro policy tokens start
    exact ⟨BlockPolicy.closeCounting_eq, fun found => BlockPolicy.close_bounds⟩

/-- The tokens of `end else for`, which no script has in this order. -/
def disorder : Array Token :=
  #[⟨.keyword .endBlock, "end", ⟨1, 0⟩⟩, ⟨.keyword .elseClause, "else", ⟨1, 4⟩⟩,
    ⟨.keyword .forLoop, "for", ⟨1, 9⟩⟩]

/-- A run of disordered tokens up to an index beyond their end, a call of a function that calls
itself, a scan for a block that is not closed, and the quotient that no word holds. -/
theorem runs_stay_in_bounds_disorder :
    (∀ later, Machine.Reaches
        (Machine.start (.program disorder) ⟨0, 9⟩
          (selfCalling.world (⟨[], []⟩ : Console.Buffered) .silent)) later →
      later.InBounds 1 0 1) ∧
    (∃ body entered,
      (Statement.invoke "f" ⟨3, 0⟩).run (selfCalling.world (⟨[], []⟩ : Console.Buffered) .silent) =
        .ok body entered ∧
      ∀ later, Machine.Reaches (Machine.calling body entered) later → later.InBounds 0 0 1) ∧
    BlockPolicy.loop.closeCounting disorder 2 = some (BlockPolicy.loop.close disorder 2) ∧
    Operator.floorDiv.applyInWords (.int (-9223372036854775808)) (.int (-1)) =
      some (.error (.overflow .floorDiv)) := by
  obtain ⟨hruns, hcalls, -, hscans, hoperators, -⟩ := runs_stay_in_bounds Console.Buffered
  have hget : selfCalling.functions.get? "f" = some ⟨_, #[callOf ⟨1, 5⟩]⟩ :=
    FunctionTable.get?_define_self _ _ _ _
  have hinvoke : (Statement.invoke "f" ⟨3, 0⟩).run
      (selfCalling.world (⟨[], []⟩ : Console.Buffered) .silent) = .ok _ _ :=
    (Statement.run_invoke_of_get? (by exact hget) ⟨3, 0⟩).trans (if_neg (by decide))
  refine ⟨hruns selfCalling _ _ disorder ⟨0, 9⟩ 1 (by decide), ⟨_, _, hinvoke, ?_⟩,
    (hscans .loop disorder 2).1 (by decide) (by decide), ?_⟩
  · exact (hcalls selfCalling _ _ "f" ⟨3, 0⟩).2 _ _ hinvoke
  · rw [hoperators]
    rfl

end TokenScript
