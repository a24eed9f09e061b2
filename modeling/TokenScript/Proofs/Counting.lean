import Mathlib.Data.List.Sort
import TokenScript.Proofs.Form

/-!
# Loops that count

A `for` loop evaluates its bounds, and then it counts.  This file says what both parts come to.

If both bounds are integers, the loop is its unrolling: an assignment and the body for each integer
from the first to the last, in order, up to the first round that ends early, and then the `else`
clause.  Neither the counter nor the last bound is kept in a variable, so nothing that the body does
changes which rounds there are; and the counter is an integer without bounds, so it passes the
greatest word without starting anew.  `Ends` turns the steps of the machine into a relation between
what is to do and what it comes to; `Rounds` is the unrolling in terms of it.

If a bound is no integer, the loop is passed over, and the first such bound is reported: by the line
for its failure, or by one that tells its kind.  There is one exception.  A bound is worth `nothing`
if its evaluation failed, which has been reported then; but a variable can hold `nothing` too, and
such a bound is taken for one that has been reported.

* `Machine.Ends`, `Machine.ends_append_iff`: what frames come to, and frames on top of others.
* `Machine.Rounds`, `Machine.ends_count_iff`: the rounds of a loop, by induction on what is left to
  count.
* `Word.between`: the words that a loop counts.
* `Code.ForLoop`: a well-formed `for` loop.
* `Code.badBound?`, `Code.ForLoop.exists_run_of_badBound`: a loop that is passed over.
-/

namespace TokenScript

open TokenScript.Action

variable {σ : Type}

/-! ## Words in order -/

namespace Word

/-- The words from `next` to `last`, in order. -/
def upTo (next last : Int) : List Int64 :=
  (List.range (last + 1 - next).toNat).map fun k : Nat => Int64.ofInt (next + k)

/-- The words between two words, in order. -/
def between (first last : Int64) : List Int64 := upTo first.toInt last.toInt

theorem upTo_of_lt {next last : Int} (h : last < next) : upTo next last = [] := by
  rw [upTo, show (last + 1 - next).toNat = 0 by omega]
  rfl

theorem upTo_of_le {next last : Int} (h : next ≤ last) :
    upTo next last = Int64.ofInt next :: upTo (next + 1) last := by
  rw [upTo, upTo, show (last + 1 - next).toNat = (last + 1 - (next + 1)).toNat + 1 by omega,
    List.range_succ_eq_map, List.map_cons, List.map_map]
  refine congrArg₂ List.cons (by simp) (List.map_congr_left fun k _ => congrArg Int64.ofInt ?_)
  simp only [Nat.succ_eq_add_one]
  omega

/-- Between words, every integer is a word. -/
theorem map_toInt_between (first last : Int64) :
    (between first last).map Int64.toInt =
      (List.range (last.toInt + 1 - first.toInt).toNat).map fun k : Nat => first.toInt + k := by
  rw [between, upTo, List.map_map]
  refine List.map_congr_left fun k hk => ?_
  have hlow := first.le_toInt
  have hhigh := last.toInt_lt
  have hlt := List.mem_range.1 hk
  exact Int64.toInt_ofInt_of_le (by omega) (by omega)

theorem mem_between {first last i : Int64} : i ∈ between first last ↔ first ≤ i ∧ i ≤ last := by
  have hmem : i ∈ between first last ↔ i.toInt ∈ (between first last).map Int64.toInt := by
    rw [List.mem_map]
    exact ⟨fun h => ⟨i, h, rfl⟩, fun ⟨j, hj, heq⟩ => Int64.toInt_inj.1 heq ▸ hj⟩
  rw [hmem, map_toInt_between, List.mem_map, Int64.le_iff_toInt_le, Int64.le_iff_toInt_le]
  constructor
  · rintro ⟨k, hk, heq⟩
    have hlt := List.mem_range.1 hk
    omega
  · rintro ⟨hlow, hhigh⟩
    exact ⟨(i.toInt - first.toInt).toNat, List.mem_range.2 (by omega), by omega⟩

theorem pairwise_between (first last : Int64) : (between first last).Pairwise (· < ·) := by
  have hsorted : ((between first last).map Int64.toInt).Pairwise (· < ·) := by
    rw [map_toInt_between]
    refine List.pairwise_map.2 (List.pairwise_lt_range.imp fun h => ?_)
    omega
  refine (List.pairwise_map.1 hsorted).imp fun h => ?_
  exact Int64.lt_iff_toInt_lt.2 h

end Word

/-! ## What frames come to -/

namespace Machine

variable [Console σ]

/-- From the world on, the frames come to an end, with this outcome and in this world. -/
def Ends (frames : List Frame) (world : World σ) (outcome : Outcome) (final : World σ) : Prop :=
  ∃ fuel, run fuel ⟨frames, world⟩ = some (outcome, final)

variable {frames rest : List Frame} {world final : World σ} {outcome : Outcome}

/-- What frames come to is what they come to after a step. -/
theorem ends_iff_of_step {next : Machine σ} (h : step ⟨frames, world⟩ = .running next) :
    Ends frames world outcome final ↔ Ends next.frames next.world outcome final := by
  constructor
  · rintro ⟨fuel, hrun⟩
    cases fuel with
    | zero => cases hrun
    | succ fuel =>
      rw [run, h] at hrun
      exact ⟨fuel, hrun⟩
  · rintro ⟨fuel, hrun⟩
    refine ⟨fuel + 1, ?_⟩
    rw [run, h]
    exact hrun

/-- Frames on top of others come to their end, and then the others do; or the others are not run. -/
theorem ends_append_iff :
    Ends (frames ++ rest) world outcome final ↔ ∃ early middle, Ends frames world early middle ∧
      (early = .done .next ∧ Ends rest middle outcome final ∨
        early ≠ .done .next ∧ outcome = early ∧ final = middle.unwind rest) := by
  constructor
  · rintro ⟨fuel, hrun⟩
    obtain ⟨early, middle, hfirst, ⟨hnext, hrest⟩ | ⟨hstop, hanswer⟩⟩ := run_of_append hrun
    · exact ⟨early, middle, ⟨fuel, hfirst⟩, Or.inl ⟨hnext, fuel, hrest⟩⟩
    · obtain ⟨houtcome, hfinal⟩ := Prod.mk.inj hanswer
      exact ⟨early, middle, ⟨fuel, hfirst⟩, Or.inr ⟨hstop, houtcome, hfinal⟩⟩
  · rintro ⟨early, middle, ⟨fuel, hfirst⟩, ⟨rfl, more, hrest⟩ | ⟨hstop, rfl, rfl⟩⟩
    · exact ⟨fuel + more, run_append_of_next hfirst hrest⟩
    · exact ⟨fuel, run_append_of_stop hfirst hstop⟩

/-! ## Rounds -/

/-- A loop unrolled: for each word, in order, the assignment and then the body, up to the first body
that ends early. -/
inductive Rounds (code : Code) (name : String) (body : Extent) :
    List Int64 → World σ → Outcome → World σ → Prop
  | nil (world : World σ) : Rounds code name body [] world (.done .next) world
  | next {word : Int64} {words : List Int64} {world middle final : World σ} {outcome : Outcome} :
    Ends [blockFrame code body] (world.assign name (.int word)) (.done .next) middle →
      Rounds code name body words middle outcome final →
      Rounds code name body (word :: words) world outcome final
  | stop {word : Int64} {words : List Int64} {world final : World σ} {outcome : Outcome} :
    Ends [blockFrame code body] (world.assign name (.int word)) outcome final →
    outcome ≠ .done .next →
      Rounds code name body (word :: words) world outcome final

/-- What an unrolled loop comes to: its rounds, and then its `else` clause, if it has one, and what
is below it; or its rounds alone, if they end early. -/
def Unrolls (code : Code) (name : String) (loop : Loop) (rounds : Int) (words : List Int64)
    (rest : List Frame) (world : World σ) (outcome : Outcome) (final : World σ) : Prop :=
  ∃ early middle, Rounds code name loop.body words world early middle ∧
    (early = .done .next ∧
        Ends (elseFrames code loop ++ rest) (middle.note (.forFinished loop.line rounds))
          outcome final ∨
      early ≠ .done .next ∧ outcome = early ∧ final = middle.unwind rest)

variable {code : Code} {name : String} {loop : Loop}

theorem unrolls_nil_iff {rounds : Int} :
    Unrolls code name loop rounds [] rest world outcome final ↔
      Ends (elseFrames code loop ++ rest) (world.note (.forFinished loop.line rounds))
        outcome final := by
  constructor
  · rintro ⟨early, middle, ⟨⟩, ⟨-, hrest⟩ | ⟨hstop, -⟩⟩
    · exact hrest
    · exact absurd rfl hstop
  · intro hrest
    exact ⟨.done .next, world, .nil world, Or.inl ⟨rfl, hrest⟩⟩

/-- One round, and then the others. -/
theorem unrolls_cons_iff {rounds : Int} {word : Int64} {words : List Int64} :
    Unrolls code name loop rounds (word :: words) rest world outcome final ↔
      ∃ early middle,
        Ends [blockFrame code loop.body] (world.assign name (.int word)) early middle ∧
        (early = .done .next ∧ Unrolls code name loop rounds words rest middle outcome final ∨
          early ≠ .done .next ∧ outcome = early ∧ final = middle.unwind rest) := by
  constructor
  · rintro ⟨early, middle, hrounds, hrest⟩
    cases hrounds with
    | next hbody hrounds => exact ⟨_, _, hbody, Or.inl ⟨rfl, early, middle, hrounds, hrest⟩⟩
    | stop hbody hstop =>
      rcases hrest with ⟨hnext, -⟩ | ⟨-, houtcome, hfinal⟩
      · exact absurd hnext hstop
      · exact ⟨early, middle, hbody, Or.inr ⟨hstop, houtcome, hfinal⟩⟩
  · rintro ⟨early, middle, hbody, ⟨rfl, last, after, hrounds, hrest⟩ | ⟨hstop, houtcome, hfinal⟩⟩
    · exact ⟨last, after, .next hbody hrounds, hrest⟩
    · exact ⟨early, middle, .stop hbody hstop, Or.inr ⟨hstop, houtcome, hfinal⟩⟩

/-- A loop that counts is its unrolling, by induction on what is left to count. -/
theorem ends_count_iff (low last next : Int) :
    Ends (.count code name low last next loop :: rest) world outcome final ↔
      Unrolls code name loop (roundsBetween low last) (Word.upTo next last) rest world
        outcome final := by
  induction hleft : (last + 1 - next).toNat generalizing next world with
  | zero =>
    have hdone : ¬next ≤ last := by omega
    have hstep : step ⟨.count code name low last next loop :: rest, world⟩ =
        .running ⟨elseFrames code loop ++ rest,
          world.note (.forFinished loop.line (roundsBetween low last))⟩ := by
      simp only [step, if_neg hdone]
    rw [ends_iff_of_step hstep, Word.upTo_of_lt (Int.not_le.1 hdone), unrolls_nil_iff]
  | succ left ih =>
    have hround : next ≤ last := by omega
    have hstep : step ⟨.count code name low last next loop :: rest, world⟩ =
        .running ⟨[blockFrame code loop.body] ++ .count code name low last (next + 1) loop :: rest,
          world.assign name (.int (Int64.ofInt next))⟩ := by
      simp only [step, if_pos hround, List.singleton_append]
    -- the body lies on top of the rest of the loop, which is counted further if the body lets it
    rw [ends_iff_of_step hstep, ends_append_iff, Word.upTo_of_le hround, unrolls_cons_iff]
    refine exists_congr fun early => exists_congr fun middle => and_congr_right fun _ => ?_
    rw [ih (next + 1) (by omega)]
    rfl

end Machine

/-! ## Well-formed loops -/

/-- A well-formed `for` loop: its head, the place of its `else` if it has one, and that of its
`end`. -/
structure Code.ForLoop (code : Code) (start : Nat) (name : String) (otherwise : Option Nat)
    (close : Nat) : Prop where
  word : code.wordAt? start = some .forLoop
  head : code.ForHead start name
  chain : code.ChainsTo start [.elseClause] (.ok (otherwise.toList, close))

/-- The line of the token at an index. -/
def Code.lineAt (code : Code) (index : Nat) : Nat :=
  (code.tokens[index]?.map fun t => t.span.line).getD 0

/-- What a `for` loop runs that has its `else` and its `end` at these places. -/
def Code.counted (code : Code) (start : Nat) (otherwise : Option Nat) (close : Nat) : Loop where
  line := code.lineAt start
  body := ⟨code.forBody start, otherwise.getD close⟩
  otherwise := otherwise.map fun place => ⟨place + 1, close⟩

section

variable {code : Code} {start close : Nat} {name : String} {otherwise : Option Nat}

/-- Clauses come to one thing only. -/
theorem Code.ChainsTo.unique {words : List Keyword} {result other : Except Error (List Nat × Nat)}
    (h : code.ChainsTo start words result) (hother : code.ChainsTo start words other) :
    result = other := by
  cases other with
  | error e => exact h.eq_error hother
  | ok chain =>
    cases result with
    | error e => exact (hother.eq_error h).symm
    | ok found =>
      obtain ⟨places, stop⟩ := found
      obtain ⟨others, last⟩ := chain
      obtain ⟨hstop, hsorted, hmem, -⟩ := h
      obtain ⟨hlast, hothers, hmem', -⟩ := hother
      obtain rfl := hstop.end_unique hlast
      obtain rfl := hsorted.eq_of_mem_iff hothers fun index => (hmem index).trans (hmem' index).symm
      rfl

theorem Statement.formOf_toList (otherwise : Option Nat) (close : Nat) :
    formOf (otherwise.toList, close) =
      (otherwise.getD close, otherwise.map fun place => ⟨place + 1, close⟩, close) := by
  cases otherwise <;> rfl

/-- A well-formed loop passes the check of its form. -/
theorem Code.ForLoop.looks_forForm (h : code.ForLoop start name otherwise close) :
    Looks (σ := σ) code (Statement.forForm code start)
      (.ok (name, otherwise.getD close, otherwise.map fun place => ⟨place + 1, close⟩, close)) := by
  obtain ⟨result, hchain, hlooks⟩ := exists_chain_loop (σ := σ) h.word (Or.inr rfl)
  obtain rfl := hchain.unique h.chain
  have hform := TokenScript.looks_forForm h.head hlooks
  simp only [Except.map, Statement.formOf_toList] at hform
  exact hform

/-- Only a well-formed loop passes the check of its form. -/
theorem Code.exists_forLoop_of_run {world final : World σ}
    {form : String × Nat × Option Extent × Nat} (hword : code.wordAt? start = some .forLoop)
    (htrusts : world.Trusts code)
    (hrun : (Statement.forForm code start).run world = .ok form final) :
    ∃ name otherwise close, code.ForLoop start name otherwise close ∧
      form =
        (name, otherwise.getD close, otherwise.map fun place => ⟨place + 1, close⟩, close) := by
  have hcheck : (Statement.check code start).run world = .ok () final := by
    rw [Statement.check, hword]
    change EStateM.bind _ _ world = _
    simp only [EStateM.run] at hrun
    rw [EStateM.bind, hrun]
    rfl
  have hformed : ∀ e, ¬code.Malformed start e := by
    intro e hmalformed
    obtain ⟨other, -, herror⟩ := looks_check_of_malformed hmalformed world htrusts
    rw [hcheck] at herror
    cases herror
  obtain ⟨name, hhead⟩ := forHead_of_formed hword hformed
  obtain ⟨result, hchain, -⟩ := exists_chain_loop (σ := σ) hword (Or.inr rfl)
  cases result with
  | error e => exact absurd (.forClauses hword hhead hchain) (hformed e)
  | ok chain =>
    obtain ⟨places, close⟩ := chain
    obtain ⟨otherwise, rfl⟩ : ∃ otherwise : Option Nat, places = otherwise.toList := by
      rcases hchain.eq_nil_or_singleton with rfl | ⟨place, rfl⟩
      · exact ⟨none, rfl⟩
      · exact ⟨some place, rfl⟩
    have hloop : code.ForLoop start name otherwise close := ⟨hword, hhead, hchain⟩
    refine ⟨name, otherwise, close, hloop, ?_⟩
    obtain ⟨other, -, hform⟩ := hloop.looks_forForm world htrusts
    cases hrun.symm.trans hform
    rfl

variable [Console σ] {world : World σ}

theorem execute_of_forLoop (hword : code.wordAt? start = some .forLoop) :
    Statement.execute (σ := σ) code start = Statement.forLoop code start (code.lineAt start) := by
  obtain ⟨t, ht, hkeyword⟩ := Code.exists_token hword
  have hfor : t.isKeyword .forLoop = true := by simp [Token.isKeyword_eq hkeyword]
  have hkind : t.kind = .keyword .forLoop := of_decide_eq_true hfor
  simp only [Statement.execute, Code.lineAt, tokenAt, ht, pure_bind, hkind]
  rfl

/-! ## Bounds that are integers -/

/-- What `for` does before it counts: it looks at its form and evaluates its bounds, each of them
once. -/
def Statement.evaluateBounds (code : Code) (start : Nat) : Action σ (Value × Value) := do
  let _ ← forForm code start
  let low ← evaluate code (start + 3)
  let high ← evaluate code (code.forTo start + 1)
  pure (low, high)

theorem run_evaluate_of_ok {value : Value} {index : Nat}
    (h : Expression.evaluateFrom code.tokens index world.context.store = .ok value) :
    (evaluate code index).run world = .ok value world := by
  rw [evaluate, run_get_bind, h]
  rfl

/-- A well-formed loop whose bounds are integers starts to count, and has changed nothing. -/
theorem Code.ForLoop.exists_run_of_ints (h : code.ForLoop start name otherwise close)
    (htrusts : world.Trusts code) {first last : Int64}
    (hfirst : Expression.evaluateFrom code.tokens (start + 3) world.context.store =
      .ok (.int first))
    (hlast : Expression.evaluateFrom code.tokens (code.forTo start + 1) world.context.store =
      .ok (.int last)) :
    ∃ entered, world.Looked code entered ∧
      (Statement.evaluateBounds code start).run world = .ok (.int first, .int last) entered ∧
      (Statement.execute code start).run world =
        .ok (.count name first last (code.counted start otherwise close) (close + 1)) entered := by
  obtain ⟨entered, hlooked, hform⟩ := h.looks_forForm world htrusts
  rw [← hlooked.context] at hfirst hlast
  have hlow := run_evaluate_of_ok hfirst
  have hhigh := run_evaluate_of_ok hlast
  refine ⟨entered, hlooked, ?_, ?_⟩
  · rw [Statement.evaluateBounds, run_bind_of_ok hform, run_bind_of_ok hlow, run_bind_of_ok hhigh]
    rfl
  · have hbound : ∀ {index anchor : Nat} {n : Int64}, (evaluate code index).run entered =
        .ok (.int n) entered →
        (Statement.bound code index anchor).run entered = .ok (some n) entered := by
      intro index anchor n hrun
      rw [Statement.bound, run_bind_of_ok hrun]
      rfl
    rw [execute_of_forLoop h.word, forLoop_eq, run_bind_of_ok hform, run_bind_of_ok (hbound hlow)]
    exact run_bind_of_ok (hbound hhigh)

end

/-- **A `for` loop is its unrolling.**  Take a well-formed loop, a world that is right about the
code, as all worlds of all runs are, and bounds that are integers there.

* The loop looks at its form and evaluates its bounds, the first before the last and each of them
  once.  This changes nothing but what is remembered.
* From there on it does what its unrolling does, whatever its body does to the variables and
  functions: for each word between the bounds, in order, the assignment and then the body, up to the
  first body that ends early; and then its `else` clause, if it has one, and what follows its `end`.
* The words between the bounds are all words from the first to the last in their order. -/
theorem for_loop_is_its_unrolling [Console σ] {code : Code} {start close : Nat} {name : String}
    {otherwise : Option Nat} (hloop : code.ForLoop start name otherwise close) {world : World σ}
    (htrusts : world.Trusts code) {first last : Int64}
    (hfirst : Expression.evaluateFrom code.tokens (start + 3) world.context.store =
      .ok (.int first))
    (hlast : Expression.evaluateFrom code.tokens (code.forTo start + 1) world.context.store =
      .ok (.int last)) :
    (∃ entered, world.Looked code entered ∧
      (Statement.evaluateBounds code start).run world = .ok (.int first, .int last) entered ∧
      ∀ stop rest outcome final, start < stop →
        (Machine.Ends (.block code start stop :: rest) world outcome final ↔
          Machine.Unrolls code name (code.counted start otherwise close)
            (Machine.roundsBetween first.toInt last.toInt) (Word.between first last)
            (.block code (close + 1) stop :: rest) entered outcome final)) ∧
    (∀ word, word ∈ Word.between first last ↔ first ≤ word ∧ word ≤ last) ∧
    (Word.between first last).Pairwise (· < ·) ∧
    ∀ (context : Context) (console : σ) (journal : Journal) (tokens : Array Token) (extent : Extent)
      (later : Machine σ),
      (Machine.start (.program tokens) extent (context.world console journal)).Reaches later →
      ∀ frame ∈ later.frames, frame.code? = some code → later.world.Trusts code := by
  refine ⟨?_, fun word => Word.mem_between, Word.pairwise_between first last,
    fun context console journal tokens extent later hreaches frame hframe hcode =>
      (context.alike_start console journal tokens extent).memory.trusts_of_reaches hreaches
        hframe hcode⟩
  obtain ⟨entered, hlooked, hbounds, hrun⟩ := hloop.exists_run_of_ints htrusts hfirst hlast
  refine ⟨entered, hlooked, hbounds, fun stop rest outcome final hlt => ?_⟩
  have hstep : Machine.step ⟨.block code start stop :: rest, world⟩ =
      .running
        ⟨.count code name first.toInt last.toInt first.toInt (code.counted start otherwise close) ::
        .block code (close + 1) stop :: rest, entered⟩ := by
    rw [Machine.step_block ⟨hlt, Code.lt_size_of_wordAt? hloop.word⟩, hrun]
    rfl
  rw [Machine.ends_iff_of_step hstep, Machine.ends_count_iff]
  rfl

/-- A loop is well-formed if the check of its form says so. -/
theorem Code.forLoop_of_answerOf {code : Code} {start close : Nat} {name : String}
    {otherwise : Option Nat} (hword : code.wordAt? start = some .forLoop)
    (hanswer : answerOf ((Statement.forForm code start).run clauseWorld) = some (.ok
      (name, otherwise.getD close, otherwise.map fun place => ⟨place + 1, close⟩, close))) :
    code.ForLoop start name otherwise close := by
  have htrusts : clauseWorld.Trusts code := World.trusts_of_scans rfl code
  cases hrun : (Statement.forForm code start).run clauseWorld with
  | error abort final =>
    rw [hrun] at hanswer
    cases abort <;> cases hanswer
  | ok form final =>
    rw [hrun] at hanswer
    obtain ⟨other, place, stop, hloop, rfl⟩ := Code.exists_forLoop_of_run hword htrusts hrun
    simp only [answerOf, Option.some.injEq, Except.ok.injEq, Prod.mk.injEq] at hanswer
    obtain ⟨rfl, -, hplace, rfl⟩ := hanswer
    have hinjective : Function.Injective fun place : Nat => (⟨place + 1, stop⟩ : Extent) := by
      intro first second heq
      simpa using heq
    obtain rfl := Option.map_injective hinjective hplace
    exact hloop

/-- The tokens of a loop from the second greatest word to the greatest; its body gives the counter
the value `0`, and its `else` clause prints it. -/
def greatestLoop : Code := .program
  #[⟨.keyword .forLoop, "for", ⟨1, 0⟩⟩, ⟨.identifier "i", "i", ⟨1, 4⟩⟩,
    ⟨.keyword .inBound, "in", ⟨1, 6⟩⟩,
    ⟨.number (.int 9223372036854775806), "9223372036854775806", ⟨1, 9⟩⟩,
    ⟨.keyword .toBound, "to", ⟨1, 29⟩⟩,
    ⟨.number (.int 9223372036854775807), "9223372036854775807", ⟨1, 32⟩⟩, ⟨.newline, "\n", ⟨1, 51⟩⟩,
    ⟨.identifier "i", "i", ⟨2, 0⟩⟩, ⟨.assignment, "=", ⟨2, 2⟩⟩, ⟨.number (.int 0), "0", ⟨2, 4⟩⟩,
    ⟨.newline, "\n", ⟨2, 5⟩⟩, ⟨.keyword .elseClause, "else", ⟨3, 0⟩⟩,
    ⟨.keyword .print, "print", ⟨3, 5⟩⟩, ⟨.identifier "i", "i", ⟨3, 11⟩⟩, ⟨.newline, "\n", ⟨3, 12⟩⟩,
    ⟨.keyword .endBlock, "end", ⟨4, 0⟩⟩]

/-- The loop has two rounds, and then its `else` clause is run. -/
theorem for_loop_is_its_unrolling_greatestLoop :
    greatestLoop.ForLoop 0 "i" (some 11) 15 ∧ clauseWorld.Trusts greatestLoop ∧
      ∃ entered, clauseWorld.Looked greatestLoop entered ∧ ∀ outcome final,
        Machine.Ends [.block greatestLoop 0 16] clauseWorld outcome final ↔
          Machine.Unrolls greatestLoop "i" ⟨1, ⟨6, 11⟩, some ⟨12, 15⟩⟩ 2
            [9223372036854775806, 9223372036854775807] [.block greatestLoop 16 16] entered
              outcome final := by
  have hloop : greatestLoop.ForLoop 0 "i" (some 11) 15 :=
    Code.forLoop_of_answerOf (by decide) (by decide +kernel)
  have htrusts : clauseWorld.Trusts greatestLoop := World.trusts_of_scans rfl _
  have hfirst : Expression.evaluateFrom greatestLoop.tokens 3 clauseWorld.context.store =
      .ok (.int 9223372036854775806) := by decide +kernel
  have hlast : Expression.evaluateFrom greatestLoop.tokens (greatestLoop.forTo 0 + 1)
      clauseWorld.context.store = .ok (.int 9223372036854775807) := by decide +kernel
  have hbody : greatestLoop.counted 0 (some 11) 15 = ⟨1, ⟨6, 11⟩, some ⟨12, 15⟩⟩ := by
    decide +kernel
  have hwords : Word.between 9223372036854775806 9223372036854775807 =
      [9223372036854775806, 9223372036854775807] := by decide +kernel
  obtain ⟨⟨entered, hlooked, -, hends⟩, -⟩ := for_loop_is_its_unrolling hloop htrusts hfirst hlast
  refine ⟨hloop, htrusts, entered, hlooked, fun outcome final => ?_⟩
  have hends := hends 16 [] outcome final (by decide)
  rw [hbody, hwords] at hends
  exact hends

/-! ## Bounds that are no integers -/

section

variable {code : Code} {start close index : Nat} {name : String} {otherwise : Option Nat}
  {store : Store}

theorem Statement.boundAt_eq_some_iff {n : Int64} :
    boundAt code index store = some n ↔
    Expression.evaluateFrom code.tokens index store = .ok (.int n) := by
  unfold boundAt Expression.valueAt
  cases Expression.evaluateFrom code.tokens index store with
  | error failure => exact ⟨nofun, nofun⟩
  | ok value => cases value <;> simp

/-- The first bound of the loop at `start` that is no integer. -/
def Code.badBound? (code : Code) (start : Nat) (store : Store) : Option Nat :=
  if (Statement.boundAt code (start + 3) store).isNone then some (start + 3)
  else if (Statement.boundAt code (code.forTo start + 1) store).isNone then
    some (code.forTo start + 1)
  else none

theorem Code.badBound?_ne_none
    (h : ¬∃ first last, Expression.evaluateFrom code.tokens (start + 3) store = .ok (.int first) ∧
      Expression.evaluateFrom code.tokens (code.forTo start + 1) store = .ok (.int last)) :
    code.badBound? start store ≠ none := by
  intro hnone
  unfold badBound? at hnone
  split at hnone
  · cases hnone
  · next hfirst =>
    split at hnone
    · cases hnone
    · next hlast =>
      obtain ⟨first, hfirst⟩ := Option.ne_none_iff_exists'.1 (mt Option.isNone_iff_eq_none.2 hfirst)
      obtain ⟨last, hlast⟩ := Option.ne_none_iff_exists'.1 (mt Option.isNone_iff_eq_none.2 hlast)
      exact h
        ⟨first, last, Statement.boundAt_eq_some_iff.1 hfirst, Statement.boundAt_eq_some_iff.1 hlast⟩

/-- The failure of a bound that is no integer: its evaluation failed, or it is of another kind. -/
def Statement.BoundFailure (code : Code) (index : Nat) (store : Store) (failure : Failure) : Prop :=
  Expression.evaluateFrom code.tokens index store = .error failure ∨
    ∃ value, Expression.evaluateFrom code.tokens index store = .ok value ∧
      failure.cause = .boundNotInteger value.kind

/-- A bound that is no integer has one failure that is told, unless it is worth `nothing` without
one. -/
theorem Statement.boundReports_cases (hsize : 0 < code.size) (anchor : Nat)
    (h : boundAt code index store = none) :
    Expression.evaluateFrom code.tokens index store = .ok .nothing ∧
        boundReports code index anchor store = [] ∨
      Expression.evaluateFrom code.tokens index store ≠ .ok .nothing ∧
        ∃ failure, BoundFailure code index store failure ∧
          boundReports code index anchor store = [failure] := by
  have hlt : min anchor (code.size - 1) < code.tokens.size := by
    change _ < code.size
    omega
  unfold boundAt Expression.valueAt at h
  unfold BoundFailure boundReports boundFailures Expression.isNothingAt
  cases hvalue : Expression.evaluateFrom code.tokens index store with
  | error failure => exact Or.inr ⟨nofun, failure, Or.inl rfl, rfl⟩
  | ok value =>
    rw [hvalue] at h
    cases value with
    | int n => cases h
    | nothing => exact Or.inl ⟨rfl, rfl⟩
    | float | text | bool =>
      simp only [Array.getElem?_eq_getElem hlt]
      exact Or.inr ⟨nofun, _, Or.inr ⟨_, rfl, rfl⟩, rfl⟩

theorem Statement.boundReports_eq_nil {n : Int64} (anchor : Nat)
    (h : boundAt code index store = some n) :
    boundReports code index anchor store = [] := by
  rw [boundReports, boundFailures_of_boundAt h, ite_self]

/-- The failures of a loop that are told are those of its first bound that is no integer. -/
theorem Statement.forReports_cases (hsize : 0 < code.size) {place : Nat}
    (h : code.badBound? start store = some place) :
    Expression.evaluateFrom code.tokens place store = .ok .nothing ∧
      forReports code start store = [] ∨
      Expression.evaluateFrom code.tokens place store ≠ .ok .nothing ∧
        ∃ failure, BoundFailure code place store failure ∧
          forReports code start store = [failure] := by
  unfold Code.badBound? at h
  unfold forReports
  cases hfirst : boundAt code (start + 3) store with
  | none =>
    rw [hfirst] at h
    obtain rfl := Option.some.inj h
    simp only [Option.isSome_none, Bool.false_eq_true, if_false, List.append_nil]
    exact boundReports_cases hsize _ hfirst
  | some first =>
    rw [hfirst] at h
    simp only [Option.isNone_some, Bool.false_eq_true, if_false] at h
    split at h
    · next hlast =>
      obtain rfl := Option.some.inj h
      simp only [boundReports_eq_nil _ hfirst, Option.isSome_some, if_true, List.nil_append]
      exact boundReports_cases hsize _ (Option.isNone_iff_eq_none.1 hlast)
    · cases h

variable [Console σ] {world : World σ}

/-- What is said to a console that takes it does not stop an action. -/
theorem Speaks.exists_ok {α : Type} {x : Action σ α} {said : List Console.Exchange}
    {Q : α → World σ → Prop} (h : Speaks world x said Q) {after : σ}
    (hheard : Console.exchanges world.console said = (none, after)) :
    ∃ u final, x.run world = .ok u final ∧ final.console = after ∧ Q u final := by
  unfold Speaks at h
  cases hrun : x.run world with
  | error abort final =>
    rw [hrun] at h
    obtain ⟨reason, -, hfailed⟩ := h
    rw [hheard] at hfailed
    cases hfailed
  | ok u final =>
    rw [hrun] at h
    obtain ⟨hspoken, hQ⟩ := h
    rw [hheard] at hspoken
    exact ⟨u, final, rfl, (Prod.mk.inj hspoken).2.symm, hQ⟩

/-- A loop with a bound that is no integer is passed over.  If it is the first bound, the other one
is not evaluated. -/
theorem Code.ForLoop.exists_run_of_badBound (h : code.ForLoop start name otherwise close)
    (htrusts : world.Trusts code) (hbad : code.badBound? start world.context.store ≠ none)
    {after : σ}
    (hheard : Console.exchanges world.console
      ((Statement.forReports code start world.context.store).map Failure.told) = (none, after)) :
    ∃ final, final.context = world.context ∧ final.console = after ∧
      (Statement.execute code start).run world = .ok (.advance (close + 1)) final ∧
      (Statement.boundAt code (start + 3) world.context.store = none →
        (Statement.forForm code start >>= fun _ =>
          Statement.bound code (start + 3) (code.forTo start)).run world = .ok none final) := by
  have hsize : 0 < code.size := Nat.zero_lt_of_lt (Code.lt_size_of_wordAt? h.word)
  obtain ⟨entered, hlooked, hform⟩ := h.looks_forForm world htrusts
  have hlow : Speaks entered (Statement.bound code (start + 3) (code.forTo start)) _ _ :=
    speaks_bound _ _ hsize hlooked.context
  rw [← hlooked.console, Statement.forReports] at hheard
  rw [execute_of_forLoop h.word, forLoop_eq, run_bind_of_ok hform, run_bind_of_ok hform]
  cases hfirst : Statement.boundAt code (start + 3) world.context.store with
  | none =>
    simp only [hfirst, Option.isSome_none, Bool.false_eq_true, if_false, List.append_nil] at hheard
    obtain ⟨low, final, hrun, hconsole, rfl, hcontext⟩ := hlow.exists_ok hheard
    rw [hfirst] at hrun
    exact ⟨final, hcontext, hconsole, run_bind_of_ok hrun, fun _ => hrun⟩
  | some first =>
    simp only [hfirst, Statement.boundReports_eq_nil _ hfirst, Option.isSome_some, if_true,
      List.nil_append] at hheard
    -- a bound that is an integer says nothing, so all that is said is about the other one
    rw [Statement.boundReports_eq_nil _ hfirst] at hlow
    obtain ⟨low, middle, hrun, hmiddle, rfl, hcontext⟩ := hlow.exists_ok rfl
    rw [hfirst] at hrun
    have hlast : Statement.boundAt code (code.forTo start + 1) world.context.store = none := by
      simpa [Code.badBound?, hfirst] using hbad
    have hhigh :
        Speaks middle (Statement.bound code (code.forTo start + 1) (code.forTo start + 1)) _ _ :=
      speaks_bound _ _ hsize hcontext
    rw [← hmiddle] at hheard
    obtain ⟨high, final, hrun', hconsole, rfl, hcontext'⟩ := hhigh.exists_ok hheard
    rw [hlast] at hrun'
    exact ⟨final, hcontext', hconsole, (run_bind_of_ok hrun).trans (run_bind_of_ok hrun'),
      fun hnone => absurd hnone (Option.some_ne_none first)⟩

end

/-- **A `for` loop with a bad bound is passed over, and that is reported once, unless the bound is a
`nothing` that no failure has left.**  Take a well-formed loop, a world that is right about the
code, as all worlds of all runs are, and bounds that are not both integers there.

* One bound is the first that is no integer.  If its evaluation gives `nothing`, then nothing is
  said; and otherwise one line tells the failure of its evaluation, or its kind.
* If the console takes this line, the loop goes on behind its `end`.  Neither its body nor its
  `else` clause is run, and the context is what it was.
* If the first bound is no integer, all that is done is to look at the form and to evaluate this
  bound. -/
theorem bad_bound_passes_over_loop [Console σ] {code : Code} {start close : Nat} {name : String}
    {otherwise : Option Nat} (hloop : code.ForLoop start name otherwise close) {world : World σ}
    (htrusts : world.Trusts code)
    (hbad : ¬∃ first last,
      Expression.evaluateFrom code.tokens (start + 3) world.context.store = .ok (.int first) ∧
      Expression.evaluateFrom code.tokens (code.forTo start + 1) world.context.store =
        .ok (.int last)) :
    (∃ place, code.badBound? start world.context.store = some place ∧ ∃ failures : List Failure,
      (Expression.evaluateFrom code.tokens place world.context.store = .ok .nothing ∧
        failures = [] ∨
        Expression.evaluateFrom code.tokens place world.context.store ≠ .ok .nothing ∧
          ∃ failure, Statement.BoundFailure code place world.context.store failure ∧
            failures = [failure]) ∧
      ∀ after, Console.exchanges world.console (failures.map Failure.told) = (none, after) →
        ∃ final, final.context = world.context ∧ final.console = after ∧
          (∀ stop rest, start < stop → Machine.step ⟨.block code start stop :: rest, world⟩ =
            .running ⟨.block code (close + 1) stop :: rest, final⟩) ∧
          (Statement.boundAt code (start + 3) world.context.store = none →
            (Statement.forForm code start >>= fun _ =>
              Statement.bound code (start + 3) (code.forTo start)).run world = .ok none final)) ∧
    ∀ (context : Context) (console : σ) (journal : Journal) (tokens : Array Token) (extent : Extent)
      (later : Machine σ),
      (Machine.start (.program tokens) extent (context.world console journal)).Reaches later →
      ∀ frame ∈ later.frames, frame.code? = some code → later.world.Trusts code := by
  refine ⟨?_, fun context console journal tokens extent later hreaches frame hframe hcode =>
    (context.alike_start console journal tokens extent).memory.trusts_of_reaches hreaches
      hframe hcode⟩
  have hsize : start < code.size := Code.lt_size_of_wordAt? hloop.word
  have hnone := Code.badBound?_ne_none hbad
  obtain ⟨place, hplace⟩ := Option.ne_none_iff_exists'.1 hnone
  refine ⟨place, hplace, _, Statement.forReports_cases (Nat.zero_lt_of_lt hsize) hplace,
    fun after hheard => ?_⟩
  obtain ⟨final, hcontext, hconsole, hrun, hfirst⟩ :=
    hloop.exists_run_of_badBound htrusts hnone hheard
  refine ⟨final, hcontext, hconsole, fun stop rest hlt => ?_, hfirst⟩
  rw [Machine.step_block ⟨hlt, hsize⟩, hrun]
  rfl

/-- The tokens of `for i in 'a' to y`, a line that prints `i`, and `end`. -/
def textBound : Code := .program
  #[⟨.keyword .forLoop, "for", ⟨1, 0⟩⟩, ⟨.identifier "i", "i", ⟨1, 4⟩⟩,
    ⟨.keyword .inBound, "in", ⟨1, 6⟩⟩, ⟨.text "a", "'a'", ⟨1, 9⟩⟩,
    ⟨.keyword .toBound, "to", ⟨1, 13⟩⟩, ⟨.identifier "y", "y", ⟨1, 16⟩⟩, ⟨.newline, "\n", ⟨1, 17⟩⟩,
    ⟨.keyword .print, "print", ⟨2, 0⟩⟩, ⟨.identifier "i", "i", ⟨2, 6⟩⟩, ⟨.newline, "\n", ⟨2, 7⟩⟩,
    ⟨.keyword .endBlock, "end", ⟨3, 0⟩⟩]

/-- The text is reported.  That `y` has no value is not. -/
theorem bad_bound_passes_over_loop_textBound :
    textBound.ForLoop 0 "i" none 10 ∧ clauseWorld.Trusts textBound ∧ ∃ final,
      final.context = clauseWorld.context ∧
      final.console.output =
        ["Error evaluating expression: " ++ (EvaluationCause.boundNotInteger .text).message] ∧
      Machine.step ⟨[.block textBound 0 11], clauseWorld⟩ =
        .running ⟨[.block textBound 11 11], final⟩ := by
  have hloop : textBound.ForLoop 0 "i" none 10 :=
    Code.forLoop_of_answerOf (by decide) (by decide +kernel)
  have htrusts : clauseWorld.Trusts textBound := World.trusts_of_scans rfl _
  have hvalue : Expression.evaluateFrom textBound.tokens 3 clauseWorld.context.store =
      .ok (.text "a") := by decide +kernel
  have hbad :
      ¬∃ first last, Expression.evaluateFrom textBound.tokens (0 + 3) clauseWorld.context.store =
      .ok (.int first) ∧ Expression.evaluateFrom textBound.tokens (textBound.forTo 0 + 1)
        clauseWorld.context.store = .ok (.int last) := by
    rintro ⟨first, last, hfirst, -⟩
    rw [hvalue] at hfirst
    cases hfirst
  obtain ⟨⟨place, hplace, failures, hfailures, hpasses⟩, -⟩ :=
    bad_bound_passes_over_loop hloop htrusts hbad
  obtain rfl : 3 = place := by
    have hthree : textBound.badBound? 0 clauseWorld.context.store = some 3 := by decide +kernel
    exact Option.some.inj (hthree.symm.trans hplace)
  rw [hvalue] at hfailures
  rcases hfailures with ⟨hnothing, -⟩ | ⟨-, failure, hfailure, rfl⟩
  · cases hnothing
  · obtain ⟨final, hcontext, hconsole, hstep, -⟩ := hpasses _ rfl
    refine ⟨hloop, htrusts, final, hcontext, ?_, hstep 11 [] (by decide)⟩
    rcases hfailure with herror | ⟨value, hother, hcause⟩
    · rw [hvalue] at herror
      cases herror
    · obtain rfl := Except.ok.inj (hvalue.symm.trans hother)
      rw [hconsole, hcause]
      rfl

/-- The world that `x =` leaves behind. -/
def emptied : World Console.Buffered :=
  match (Statement.execute emptyBound 0).run clauseWorld with
  | .ok _ final => final
  | .error _ final => final

/-- Not every loop with a bad bound is reported: behind `x =`, a loop from `x` to `3` is passed over
without a word. -/
theorem bad_bound_not_always_reported :
    ¬∀ (code : Code) (start close stop : Nat) (name : String) (otherwise : Option Nat)
        (rest : List Frame) (world : World Console.Buffered),
      code.ForLoop start name otherwise close → world.Trusts code → start < stop →
      (¬∃ first last,
        Expression.evaluateFrom code.tokens (start + 3) world.context.store = .ok (.int first) ∧
        Expression.evaluateFrom code.tokens (code.forTo start + 1) world.context.store =
          .ok (.int last)) →
      ∃ final message, Machine.step ⟨.block code start stop :: rest, world⟩ =
          .running ⟨.block code (close + 1) stop :: rest, final⟩ ∧
        final.console.output = world.console.output ++
          ["Error evaluating expression: " ++ message] := by
  intro hclaim
  have hloop : emptyBound.ForLoop 3 "i" none 13 :=
    Code.forLoop_of_answerOf (by decide) (by decide +kernel)
  have hvalue : Expression.evaluateFrom emptyBound.tokens 6 emptied.context.store =
      .ok .nothing := by
    decide +kernel
  have hquiet : (Machine.step ⟨[.block emptyBound 3 14], emptied⟩).console.output = [] := by
    decide +kernel
  obtain ⟨final, message, hstep, houtput⟩ := hclaim emptyBound 3 13 14 "i" none [] emptied hloop
    (World.trusts_of_scans (by decide +kernel) _) (by decide) (by
      rintro ⟨first, last, hfirst, -⟩
      rw [hvalue] at hfirst
      cases hfirst)
  rw [hstep] at hquiet
  change final.console.output = [] at hquiet
  rw [hquiet] at houtput
  simp at houtput

end TokenScript
