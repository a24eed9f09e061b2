import TokenScript.Proofs.Expression.Reader
import TokenScript.Proofs.Progress

/-!
# Descending through the grammar

The reader of expressions keeps what is waiting on lists.  The grammar can be read in another way,
with a function for each phrase that calls those for its parts, and a cursor that they share.  This
file has these functions, and shows that they come to what the reader comes to.

They call each other with and without taking a token, so it is not plain that the calls end.  What
bounds them is the number of tokens that are left and the place of a phrase in the grammar together:
a call that takes no token is for a phrase further up in the grammar, and there are eleven such
places.  So the calls are nested no deeper than eleven times the number of tokens that are left, and
eleven, whatever the tokens are.

* `descend`: the functions, with a bound on how deep the calls are nested.
* `Call.Right`: what a call comes to, in terms of the cursor and of the reader.
* `ends_descend`: all calls end and come to what is right.
* `descent_makes_progress`.
-/

namespace TokenScript

open Phrase

namespace Phrase

/-- The phrases that have a function of their own. -/
def all : List Phrase :=
  [.binary 0, .binary 1, .binary 2, .binary 3, .binary 4, .binary 5, .binary 6, .unary,
    .power, .primary]

end Phrase

namespace Expression

/-- What a call comes to, and the cursor behind it. -/
abbrev Answer := Except Failure Value × Nat

/-- What the functions are called for: a phrase, or the operators of a level and their right
operands, with the value of what stands on the left of them. -/
inductive Call where
  | phrase (wanted : Phrase)
  | links (level : Nat) (left : Value)

/-- Goes on with the value and the cursor, unless there is a failure. -/
def andThen (answer? : Option Answer) (next : Value → Nat → Option Answer) : Option Answer :=
  match answer? with
  | none => none
  | some (.error failure, stop) => some (.error failure, stop)
  | some (.ok value, stop) => next value stop

/-- The operator at the cursor, if it is one of these, with its place. -/
def operatorAt? (tokens : List Token) (accepts : Operator → Bool) (cursor : Nat) :
    Option (Operator × Span) :=
  match tokens[cursor]? with
  | none => none
  | some t =>
    match t.operator? with
    | none => none
    | some op => if accepts op then some (op, t.span) else none

/-- The functions that descend through the grammar.  There is no answer if they call each other
deeper than so many times. -/
def descend (store : Store) (tokens : List Token) : Nat → Call → Nat → Option Answer
  | 0, _, _ => none
  | depth + 1, .phrase (.binary level), cursor =>
    if level < 7 then
      andThen (descend store tokens depth (.phrase (.binary (level + 1))) cursor) fun left stop =>
        descend store tokens depth (.links level left) stop
    else descend store tokens depth (.phrase .unary) cursor
  | depth + 1, .links level left, cursor =>
    match operatorAt? tokens (fun op => op.level? = some level) cursor with
    | none => some (.ok left, cursor)
    | some (op, span) =>
      andThen (descend store tokens depth (.phrase (.binary (level + 1))) (cursor + 1))
        fun right stop =>
        andThen (some ((Pending.binary level op span left).apply right, stop)) fun value stop =>
          descend store tokens depth (.links level value) stop
  | depth + 1, .phrase .unary, cursor =>
    match operatorAt? tokens Operator.isSign cursor with
    | none => descend store tokens depth (.phrase .power) cursor
    | some (op, span) =>
      andThen (descend store tokens depth (.phrase .unary) (cursor + 1)) fun operand stop =>
        some ((Pending.sign op span).apply operand, stop)
  | depth + 1, .phrase .power, cursor =>
    andThen (descend store tokens depth (.phrase .primary) cursor) fun base stop =>
      match operatorAt? tokens (· = .power) stop with
      | none => some (.ok base, stop)
      | some (_, span) =>
        andThen (descend store tokens depth (.phrase .unary) (stop + 1)) fun exponent stop =>
          some ((Pending.power span base).apply exponent, stop)
  | depth + 1, .phrase .primary, cursor =>
    match tokens[cursor]? with
    | none => some (.error ⟨.endedUnexpectedly, lastSpan tokens⟩, cursor)
    | some t =>
      match t.kind with
      | .number n => some (.ok n.value, cursor + 1)
      | .text contents => some (.ok (.text contents), cursor + 1)
      | .identifier name =>
        match store.get? name with
        | some value => some (.ok value, cursor + 1)
        | none => some (.error ⟨.undefinedName name, t.span⟩, cursor + 1)
      | .operator op =>
        if op = .leftParen then
          andThen (descend store tokens depth (.phrase (.binary 0)) (cursor + 1)) fun value stop =>
            match operatorAt? tokens (· = .rightParen) stop with
            | none => some (.error ⟨.unclosedParen, t.span⟩, stop)
            | some _ => some (.ok value, stop + 1)
        else some (.error ⟨.unexpectedToken t.shown, t.span⟩, cursor + 1)
      | .keyword _ | .assignment | .newline =>
        some (.error ⟨.unexpectedToken t.shown, t.span⟩, cursor + 1)

/-! ## Operators at the cursor -/

variable {store : Store} {tokens : List Token} {cursor : Nat} {accepts : Operator → Bool}
  {t : Token}

theorem drop_of_getElem? (h : tokens[cursor]? = some t) :
    tokens.drop cursor = t :: tokens.drop (cursor + 1) ∧ cursor < tokens.length := by
  obtain ⟨hlt, rfl⟩ := List.getElem?_eq_some_iff.1 h
  exact ⟨List.drop_eq_getElem_cons hlt, hlt⟩

theorem getElem?_of_drop {tail : List Token} (h : tokens.drop cursor = t :: tail) :
    tokens[cursor]? = some t := by
  rw [← List.head?_drop, h, List.head?_cons]

theorem operatorAt?_eq_some {op : Operator} {span : Span}
    (h : operatorAt? tokens accepts cursor = some (op, span)) :
    ∃ t, tokens[cursor]? = some t ∧ t.kind = .operator op ∧ t.span = span ∧ accepts op = true := by
  unfold operatorAt? at h
  split at h
  · cases h
  · next t ht =>
    split at h
    · cases h
    · next found hfound =>
      split at h
      · next haccepts =>
        obtain ⟨rfl, rfl⟩ := Prod.mk.inj (Option.some.inj h)
        exact ⟨t, ht, Token.operator?_eq_some_iff.1 hfound, rfl, haccepts⟩
      · cases h

theorem operatorAt?_eq_none (h : operatorAt? tokens accepts cursor = none) {op : Operator}
    (ht : tokens[cursor]? = some t) (hop : t.kind = .operator op) : accepts op = false := by
  have hfound : t.operator? = some op := Token.operator?_eq_some_iff.2 hop
  unfold operatorAt? at h
  rw [ht] at h
  simp only [hfound] at h
  split at h
  · cases h
  · next haccepts => exact Bool.eq_false_iff.2 haccepts

end Expression

/-! ## Readers of other phrases -/

/-- Whatever goes on with the phrase goes on with the other one. -/
structure Phrase.Covers (host phrase : Phrase) : Prop where
  sign : phrase.admitsSign = true → host.admitsSign = true
  power : phrase.admitsPower = true → host.admitsPower = true
  level : ∀ level, phrase.admitsLevel level = true → host.admitsLevel level = true

/-- The reader of a phrase, with operators that wait and parentheses that are open, reads another
phrase from these tokens as the reader of that phrase does. -/
structure Phrase.Hosts (host phrase : Phrase) (waiting : List Pending) (outer : List Enclosing)
    (rest : List Token) : Prop where
  /-- It applies no operator that waits before the phrase is at its end. -/
  fits : phrase.Fits waiting
  /-- It takes the operators that the phrase admits. -/
  covers : waiting = [] → outer = [] → host.Covers phrase
  /-- It takes no sign in front of a phrase that admits none. -/
  unsigned : phrase.admitsSign = false → ∀ t tail op, rest = t :: tail → t.kind = .operator op →
    op.isSign = true → host.admitsSign = false ∧ waiting = [] ∧ outer = []

namespace Phrase

variable {host phrase part : Phrase} {waiting : List Pending} {outer : List Enclosing}
  {rest : List Token} {level : Nat}

theorem covers_binary (level : Nat) : (binary level).Covers (binary (level + 1)) := by
  refine ⟨id, id, fun other h => ?_⟩
  simp only [admitsLevel, decide_eq_true_eq] at h ⊢
  omega

theorem covers_unary (level : Nat) : (binary level).Covers unary :=
  ⟨fun _ => rfl, fun _ => rfl, nofun⟩

theorem covers_power : unary.Covers power := ⟨nofun, id, fun _ => id⟩

theorem covers_primary : power.Covers primary := ⟨id, nofun, fun _ => id⟩

theorem Covers.refl (phrase : Phrase) : phrase.Covers phrase := ⟨id, id, fun _ => id⟩

theorem Covers.trans (h : host.Covers phrase) (hpart : phrase.Covers part) : host.Covers part :=
  ⟨fun hsign => h.sign (hpart.sign hsign), fun hpower => h.power (hpart.power hpower),
    fun level hlevel => h.level level (hpart.level level hlevel)⟩

/-- A reader that hosts a phrase hosts a part of it at its start. -/
theorem Hosts.start (h : host.Hosts phrase waiting outer rest) (hcovers : phrase.Covers part)
    (hfits : part.Fits waiting)
    (hunsigned : phrase.admitsSign = true → part.admitsSign = false →
      ∀ t tail op, rest = t :: tail → t.kind = .operator op → op.isSign = false) :
    host.Hosts part waiting outer rest := by
  refine ⟨hfits, fun hw ho => (h.covers hw ho).trans hcovers,
    fun hpart t tail op hrest hop hsign => ?_⟩
  cases hphrase : phrase.admitsSign with
  | false => exact h.unsigned hphrase t tail op hrest hop hsign
  | true =>
    rw [hunsigned hphrase hpart t tail op hrest hop] at hsign
    cases hsign

/-- A part of an expression that comes after an operator that waits. -/
theorem hosts_operand {p : Pending} (hfits : part.Fits (p :: waiting))
    (hsign : part.admitsSign = true) :
    host.Hosts part (p :: waiting) outer rest := by
  refine ⟨hfits, nofun, fun hunsigned => ?_⟩
  rw [hsign] at hunsigned
  cases hunsigned

/-- An expression in parentheses. -/
theorem hosts_inner (enclosing : Enclosing) : host.Hosts (binary 0) [] (enclosing :: outer) rest :=
  ⟨trivial, nofun, nofun⟩

/-- Every reader hosts its own phrase. -/
theorem hosts_self (phrase : Phrase) (rest : List Token) : phrase.Hosts phrase [] [] rest :=
  ⟨by cases phrase <;> trivial, fun _ _ => Covers.refl phrase,
    fun hsign _ _ _ _ _ _ => ⟨hsign, rfl, rfl⟩⟩

theorem Hosts.admitsSign (h : host.Hosts phrase waiting outer rest)
    (hsign : phrase.admitsSign = true) :
    (host.admitsSign || !waiting.isEmpty || !outer.isEmpty) = true := by
  cases waiting with
  | cons p waiting => simp
  | nil =>
    cases outer with
    | cons enclosing outer => simp
    | nil => simp [(h.covers rfl rfl).sign hsign]

theorem Hosts.admitsPower (h : host.Hosts phrase waiting outer rest)
    (hpower : phrase.admitsPower = true) :
    (host.admitsPower || !waiting.isEmpty || !outer.isEmpty) = true := by
  cases waiting with
  | cons p waiting => simp
  | nil =>
    cases outer with
    | cons enclosing outer => simp
    | nil => simp [(h.covers rfl rfl).power hpower]

theorem Hosts.admitsLevel (h : host.Hosts (binary level) waiting outer rest) :
    (host.admitsLevel level || !waiting.isEmpty || !outer.isEmpty) = true := by
  cases waiting with
  | cons p waiting => simp
  | nil =>
    cases outer with
    | cons enclosing outer => simp
    | nil => simp [(h.covers rfl rfl).level level (by simp [Phrase.admitsLevel])]

/-! ## Tokens that end a phrase -/

theorem StopsAt.noTighter (h : (binary (level + 1)).StopsAt rest) : NoTighter level rest := by
  cases rest with
  | nil => trivial
  | cons t rest =>
    intro op hop
    obtain ⟨hpower, hlevel⟩ := h op hop
    refine ⟨fun heq => absurd (hpower heq) nofun, fun other hother => ?_⟩
    have hadmits := hlevel other hother
    simp only [Phrase.admitsLevel, decide_eq_false_iff_not] at hadmits
    omega

theorem noTighter_of_unary (h : Phrase.unary.StopsAt rest) : NoTighter 7 rest := by
  cases rest with
  | nil => trivial
  | cons t rest =>
    intro op hop
    exact ⟨fun heq => absurd ((h op hop).1 heq) nofun,
      fun level hlevel => Nat.le_of_lt (Operator.level?_lt hlevel)⟩

theorem StopsAt.endsExpression {t : Token} (h : (binary 0).StopsAt (t :: rest)) :
    t.EndsExpression := by
  intro op hop
  obtain ⟨hpower, hlevel⟩ := h op hop
  refine ⟨fun heq => absurd (hpower heq) nofun, ?_⟩
  cases hfound : op.level? with
  | none => rfl
  | some level => cases hlevel level hfound

/-- Nothing but an operator of the level goes on with the level and not with the next one. -/
theorem StopsAt.looser (h : (binary (level + 1)).StopsAt rest)
    (hlevel : ∀ t tail op, rest = t :: tail → t.kind = .operator op → op.level? ≠ some level) :
    (binary level).StopsAt rest := by
  cases rest with
  | nil => trivial
  | cons t rest =>
    intro op hop
    refine ⟨(h op hop).1, fun other hother => ?_⟩
    have hadmits := (h op hop).2 other hother
    simp only [Phrase.admitsLevel, decide_eq_false_iff_not] at hadmits ⊢
    have hne : other ≠ level := fun heq => hlevel t rest op rfl hop (heq ▸ hother)
    omega

/-- The reader of a phrase that is at its end. -/
theorem read_of_stopsAt {store : Store} {last : Span} {value : Value} (h : phrase.StopsAt rest) :
    phrase.read store last (some value) [] [] rest = .ok (value, rest) := by
  cases rest with
  | nil => exact read_nil
  | cons t rest =>
    rcases t.continuation_cases with hpower | ⟨op, level, hop, hlevel⟩ | hend
    · have hadmits : phrase.admitsPower = false := (h .power hpower).1 rfl
      rw [Phrase.read]
      simp only [Token.operator?, hpower, hadmits]
      rfl
    · rw [read_level hop hlevel, settle]
      exact if_neg (by simp [(h op hop).2 level hlevel])
    · exact read_end hend

theorem StopsAt.tightest (h : Phrase.unary.StopsAt rest) : (binary 7).StopsAt rest := by
  cases rest with
  | nil => trivial
  | cons t rest =>
    intro op hop
    refine ⟨(h op hop).1, fun level hlevel => ?_⟩
    have hlt := Operator.level?_lt hlevel
    simp only [Phrase.admitsLevel, decide_eq_false_iff_not]
    omega

/-- Only `**` goes on with a phrase above all levels. -/
theorem stopsAt_unary (h : ∀ t tail, rest = t :: tail → t.kind ≠ .operator .power) :
    unary.StopsAt rest := by
  cases rest with
  | nil => trivial
  | cons t rest =>
    intro op hop
    refine ⟨?_, fun level _ => rfl⟩
    rintro rfl
    exact absurd hop (h t rest rfl)

end Phrase

/-! ## What calls come to -/

namespace Expression

namespace Call

/-- The phrase that a call brings to its end. -/
def goal : Call → Phrase
  | .phrase wanted => wanted
  | .links level _ => .binary level

/-- The value that is at hand when a call starts. -/
def left? : Call → Option Value
  | .phrase _ => none
  | .links _ left => some left

/-- The place in the grammar of what a call is for: how many calls can follow it without taking a
token. -/
def rank : Call → Nat
  | .phrase (.binary level) => 10 - level
  | .phrase .unary => 2
  | .phrase .power => 1
  | .phrase .primary | .links _ _ => 0

/-- How deep calls may be nested for a call at the cursor to end. -/
def need (tokens : List Token) (call : Call) (cursor : Nat) : Nat :=
  11 * (tokens.length - cursor) + call.rank + 1

/-- The calls that are made. -/
def Ready (tokens : List Token) (cursor : Nat) : Call → Prop
  | .phrase (.binary level) => level ≤ 7
  | .phrase .unary | .phrase .power | .phrase .primary => True
  | .links level _ => level < 7 ∧ (Phrase.binary (level + 1)).StopsAt (tokens.drop cursor)

/-- A call that comes to a result, with the cursor at `stop` afterwards, is right. -/
structure Right (store : Store) (tokens : List Token) (call : Call) (cursor : Nat)
    (result : Except Failure Value) (stop : Nat) : Prop where
  /-- The cursor does not go back. -/
  le : cursor ≤ stop
  le_length : stop ≤ tokens.length
  /-- A phrase has a token. -/
  lt_of_ok : call.left? = none → ∀ value, result = .ok value → cursor < stop
  /-- The phrase is at its end. -/
  stopsAt : ∀ value, result = .ok value → call.goal.StopsAt (tokens.drop stop)
  /-- The reader comes to the same. -/
  reads : ∀ host waiting outer, Phrase.Hosts host call.goal waiting outer (tokens.drop cursor) →
    host.read store (lastSpan tokens) call.left? waiting outer (tokens.drop cursor) =
      result >>= fun value =>
        host.read store (lastSpan tokens) (some value) waiting outer (tokens.drop stop)

end Call

/-- There is an answer, and it is so. -/
def Ends (answer? : Option Answer) (Q : Except Failure Value → Nat → Prop) : Prop :=
  ∃ result stop, answer? = some (result, stop) ∧ Q result stop

section

variable {answer? : Option Answer} {next : Value → Nat → Option Answer}
  {P Q : Except Failure Value → Nat → Prop} {result : Except Failure Value} {stop : Nat}

theorem Ends.of_some (h : Q result stop) : Ends (some (result, stop)) Q := ⟨result, stop, rfl, h⟩

theorem Ends.mono (h : Ends answer? P) (himp : ∀ result stop, P result stop → Q result stop) :
    Ends answer? Q := by
  obtain ⟨result, stop, hanswer, hP⟩ := h
  exact ⟨result, stop, hanswer, himp result stop hP⟩

/-- One call after another. -/
theorem Ends.andThen (h : Ends answer? P)
    (hfailed : ∀ failure stop, P (.error failure) stop → Q (.error failure) stop)
    (hnext : ∀ value stop, P (.ok value) stop → Ends (next value stop) Q) :
    Ends (Expression.andThen answer? next) Q := by
  obtain ⟨result, stop, rfl, hP⟩ := h
  cases result with
  | error failure => exact ⟨.error failure, stop, rfl, hfailed failure stop hP⟩
  | ok value => exact hnext value stop hP

end

/-- All calls that can be made with calls nested so deep end, and are right. -/
def Serves (store : Store) (tokens : List Token) (depth : Nat) : Prop :=
  ∀ (call : Call) (cursor : Nat), cursor ≤ tokens.length → call.Ready tokens cursor →
    call.need tokens cursor ≤ depth →
    Ends (descend store tokens depth call cursor) (call.Right store tokens cursor)

section

variable {depth level : Nat} {left : Value} (ih : Serves store tokens depth)
  (hcursor : cursor ≤ tokens.length)

include ih hcursor

theorem ends_binary (hlevel : level ≤ 7)
    (hneed : (Call.phrase (.binary level)).need tokens cursor ≤ depth + 1) :
    Ends (descend store tokens (depth + 1) (.phrase (.binary level)) cursor)
      ((Call.phrase (.binary level)).Right store tokens cursor) := by
  simp only [Call.need, Call.rank] at hneed
  rw [descend]
  split
  · next hlt =>
    refine (ih (.phrase (.binary (level + 1))) cursor hcursor (show level + 1 ≤ 7 by omega)
      (by simp only [Call.need, Call.rank]; omega)).andThen (fun failure stop h => ?_)
        fun first stop h => ?_
    · refine ⟨h.le, h.le_length, nofun, nofun, fun host waiting outer hhosts => ?_⟩
      exact h.reads host waiting outer
        (hhosts.start (covers_binary level) hhosts.fits.tighter nofun)
    · have hprogress := h.lt_of_ok rfl first rfl
      have hstops := h.stopsAt first rfl
      refine (ih (.links level first) stop h.le_length ⟨hlt, hstops⟩
        (by simp only [Call.need, Call.rank]; omega)).mono fun result final hlinks => ?_
      refine ⟨Nat.le_trans h.le hlinks.le, hlinks.le_length,
        fun _ _ _ => Nat.lt_of_lt_of_le hprogress hlinks.le, hlinks.stopsAt,
        fun host waiting outer hhosts => ?_⟩
      have hfirst :=
        h.reads host waiting outer (hhosts.start (covers_binary level) hhosts.fits.tighter nofun)
      exact hfirst.trans (hlinks.reads host waiting outer ⟨hhosts.fits, hhosts.covers, nofun⟩)
  · obtain rfl : level = 7 := by omega
    refine (ih (.phrase .unary) cursor hcursor trivial
      (by simp only [Call.need, Call.rank]; omega)).mono
      fun result stop h => ?_
    refine ⟨h.le, h.le_length, h.lt_of_ok, fun value heq => (h.stopsAt value heq).tightest,
      fun host waiting outer hhosts => ?_⟩
    exact h.reads host waiting outer (hhosts.start (covers_unary 7) trivial nofun)

theorem ends_links (hlevel : level < 7)
    (hstops : (Phrase.binary (level + 1)).StopsAt (tokens.drop cursor))
    (hneed : (Call.links level left).need tokens cursor ≤ depth + 1) :
    Ends (descend store tokens (depth + 1) (.links level left) cursor)
      ((Call.links level left).Right store tokens cursor) := by
  simp only [Call.need, Call.rank] at hneed
  rw [descend]
  cases hfound : operatorAt? tokens (fun op => op.level? = some level) cursor with
  | none =>
    refine Ends.of_some
      ⟨Nat.le_refl cursor, hcursor, nofun, fun value _ => ?_, fun host waiting outer _ => rfl⟩
    refine hstops.looser fun t tail op hrest hkind hown => ?_
    have hother := operatorAt?_eq_none hfound (getElem?_of_drop hrest) hkind
    exact absurd hown (of_decide_eq_false hother)
  | some found =>
    obtain ⟨op, span⟩ := found
    obtain ⟨t, ht, hkind, rfl, haccepts⟩ := operatorAt?_eq_some hfound
    have hown : op.level? = some level := of_decide_eq_true haccepts
    obtain ⟨hdrop, hlt⟩ := drop_of_getElem? ht
    have hread :
        ∀ host waiting outer, Phrase.Hosts host (.binary level) waiting outer (tokens.drop cursor) →
        host.read store (lastSpan tokens) (some left) waiting outer (tokens.drop cursor) =
          host.read store (lastSpan tokens) none (.binary level op t.span left :: waiting) outer
            (tokens.drop (cursor + 1)) := by
      intro host waiting outer hhosts
      rw [hdrop, read_level hkind hown, settle_of_fits hhosts.fits]
      exact if_pos hhosts.admitsLevel
    have hhosted : ∀ host waiting outer, Phrase.Hosts host (.binary (level + 1))
        (.binary level op t.span left :: waiting) outer (tokens.drop (cursor + 1)) :=
      fun host waiting outer => hosts_operand (decide_eq_false (by omega)) rfl
    refine (ih (.phrase (.binary (level + 1))) (cursor + 1) hlt (show level + 1 ≤ 7 by omega)
      (by simp only [Call.need, Call.rank]; omega)).andThen (fun failure stop h => ?_)
        fun right stop h => ?_
    · refine ⟨Nat.le_of_succ_le h.le, h.le_length, nofun, nofun,
        fun host waiting outer hhosts => ?_⟩
      exact (hread host waiting outer hhosts).trans
        (h.reads host _ outer (hhosted host waiting outer))
    · have hprogress := h.lt_of_ok rfl right rfl
      have hafter := h.stopsAt right rfl
      -- the operator is applied before anything behind it is taken
      have happlied : ∀ host waiting outer,
          Phrase.Hosts host (.binary level) waiting outer (tokens.drop cursor) →
          host.read store (lastSpan tokens) (some left) waiting outer (tokens.drop cursor) =
            (Pending.binary level op t.span left).apply right >>= fun value =>
              host.read store (lastSpan tokens) (some value) waiting outer (tokens.drop stop) := by
        intro host waiting outer hhosts
        have hright := h.reads host _ outer (hhosted host waiting outer)
        exact (hread host waiting outer hhosts).trans
          (hright.trans (read_settle hafter.noTighter fun own hle => decide_eq_true hle))
      cases happly : (Pending.binary level op t.span left).apply right with
      | error failure =>
        rw [happly] at happlied
        exact Ends.of_some ⟨Nat.le_of_succ_le h.le, h.le_length, nofun, nofun, happlied⟩
      | ok value =>
        rw [happly] at happlied
        refine (ih (.links level value) stop h.le_length ⟨hlevel, hafter⟩
          (by simp only [Call.need, Call.rank]; omega)).mono fun result final hlinks => ?_
        refine ⟨Nat.le_trans (Nat.le_of_succ_le h.le) hlinks.le, hlinks.le_length, nofun,
          hlinks.stopsAt,
          fun host waiting outer hhosts => ?_⟩
        exact (happlied host waiting outer hhosts).trans
          (hlinks.reads host waiting outer ⟨hhosts.fits, hhosts.covers, nofun⟩)

omit ih hcursor in
/-- A sign or a `**` is applied to the phrase behind it. -/
theorem Ends.applied {wanted : Phrase} {p : Pending} {place : Nat} (hlt : cursor < place)
    (hplace : Ends (descend store tokens depth (.phrase .unary) place)
      ((Call.phrase .unary).Right store tokens place))
    (hbinds : ∀ level ≤ 7, p.bindsAtLeast level = true)
    (hstops : ∀ rest, Phrase.unary.StopsAt rest → wanted.StopsAt rest)
    (hread : ∀ host waiting outer, Phrase.Hosts host wanted waiting outer (tokens.drop cursor) →
      host.read store (lastSpan tokens) none waiting outer (tokens.drop cursor) =
        host.read store (lastSpan tokens) none (p :: waiting) outer (tokens.drop place)) :
    Ends (Expression.andThen (descend store tokens depth (.phrase .unary) place) fun operand stop =>
        some (p.apply operand, stop))
      ((Call.phrase wanted).Right store tokens cursor) := by
  have hhosted : ∀ host waiting outer,
      Phrase.Hosts host .unary (p :: waiting) outer (tokens.drop place) :=
    fun host waiting outer => hosts_operand trivial rfl
  refine hplace.andThen (fun failure stop h => ?_) fun operand stop h => Ends.of_some ?_
  · refine ⟨Nat.le_trans (Nat.le_of_lt hlt) h.le, h.le_length, nofun, nofun,
      fun host waiting outer hhosts => ?_⟩
    exact (hread host waiting outer hhosts).trans
      (h.reads host _ outer (hhosted host waiting outer))
  · have hafter := h.stopsAt operand rfl
    refine ⟨Nat.le_trans (Nat.le_of_lt hlt) h.le, h.le_length,
      fun _ _ _ => Nat.lt_of_lt_of_le hlt h.le,
      fun _ _ => hstops _ hafter, fun host waiting outer hhosts => ?_⟩
    have hoperand := h.reads host _ outer (hhosted host waiting outer)
    exact (hread host waiting outer hhosts).trans
      (hoperand.trans (read_settle (noTighter_of_unary hafter) hbinds))

theorem ends_unary (hneed : (Call.phrase .unary).need tokens cursor ≤ depth + 1) :
    Ends (descend store tokens (depth + 1) (.phrase .unary) cursor)
      ((Call.phrase .unary).Right store tokens cursor) := by
  simp only [Call.need, Call.rank] at hneed
  rw [descend]
  cases hfound : operatorAt? tokens Operator.isSign cursor with
  | none =>
    refine (ih (.phrase .power) cursor hcursor trivial
      (by simp only [Call.need, Call.rank]; omega)).mono
      fun result stop h => ?_
    refine ⟨h.le, h.le_length, h.lt_of_ok, fun value heq => ?_, fun host waiting outer hhosts => ?_⟩
    · have hpower : Phrase.power.StopsAt (tokens.drop stop) := h.stopsAt value heq
      refine stopsAt_unary fun t tail hrest hkind => ?_
      rw [hrest] at hpower
      exact not_stopsAt_power hkind tail hpower
    · refine h.reads host waiting outer
        (hhosts.start covers_power trivial fun _ _ t tail op hrest hop => ?_)
      exact operatorAt?_eq_none hfound (getElem?_of_drop hrest) hop
  | some found =>
    obtain ⟨op, span⟩ := found
    obtain ⟨t, ht, hkind, rfl, hsign⟩ := operatorAt?_eq_some hfound
    obtain ⟨hdrop, hlt⟩ := drop_of_getElem? ht
    refine Ends.applied (Nat.lt_succ_self cursor)
      (ih (.phrase .unary) (cursor + 1) hlt trivial (by simp only [Call.need, Call.rank]; omega))
      (fun level _ => rfl) (fun _ h => h) fun host waiting outer hhosts => ?_
    rw [hdrop]
    exact read_sign hkind hsign (hhosts.admitsSign rfl)

theorem ends_power (hneed : (Call.phrase .power).need tokens cursor ≤ depth + 1) :
    Ends (descend store tokens (depth + 1) (.phrase .power) cursor)
      ((Call.phrase .power).Right store tokens cursor) := by
  simp only [Call.need, Call.rank] at hneed
  rw [descend]
  have hbase : ∀ host waiting outer, Phrase.Hosts host .power waiting outer (tokens.drop cursor) →
      Phrase.Hosts host .primary waiting outer (tokens.drop cursor) :=
    fun host waiting outer hhosts => hhosts.start covers_primary trivial nofun
  refine (ih (.phrase .primary) cursor hcursor trivial
    (by simp only [Call.need, Call.rank]; omega)).andThen
    (fun failure stop h => ?_) fun base stop h => ?_
  · exact ⟨h.le, h.le_length, nofun, nofun, fun host waiting outer hhosts =>
      h.reads host waiting outer (hbase host waiting outer hhosts)⟩
  · have hprogress := h.lt_of_ok rfl base rfl
    cases hfound : operatorAt? tokens (· = .power) stop with
    | none =>
      refine Ends.of_some ⟨h.le, h.le_length, fun _ _ _ => hprogress, fun value _ => ?_,
        fun host waiting outer hhosts =>
          h.reads host waiting outer (hbase host waiting outer hhosts)⟩
      refine stopsAt_unary fun t tail hrest hkind => ?_
      have hother := operatorAt?_eq_none hfound (getElem?_of_drop hrest) hkind
      exact of_decide_eq_false hother rfl
    | some found =>
      obtain ⟨op, span⟩ := found
      obtain ⟨t, ht, hkind, rfl, haccepts⟩ := operatorAt?_eq_some hfound
      obtain rfl : op = .power := of_decide_eq_true haccepts
      obtain ⟨hdrop, hlt⟩ := drop_of_getElem? ht
      refine Ends.applied (Nat.lt_succ_of_lt hprogress)
        (ih (.phrase .unary) (stop + 1) hlt trivial (by simp only [Call.need, Call.rank]; omega))
        (fun level _ => rfl) (fun _ hunary => hunary) fun host waiting outer hhosts => ?_
      have hfirst := h.reads host waiting outer (hbase host waiting outer hhosts)
      rw [hdrop] at hfirst
      exact hfirst.trans (read_power hkind (hhosts.admitsPower rfl))

omit ih hcursor in
/-- A primary that is a single token, or fails at it. -/
theorem Ends.taken {result : Except Failure Value} (ht : tokens[cursor]? = some t)
    (hread : ∀ host waiting outer, Phrase.Hosts host .primary waiting outer (tokens.drop cursor) →
      host.read store (lastSpan tokens) none waiting outer (t :: tokens.drop (cursor + 1)) =
        result >>= fun value =>
          host.read store (lastSpan tokens) (some value) waiting outer (tokens.drop (cursor + 1))) :
    Ends (some (result, cursor + 1)) ((Call.phrase .primary).Right store tokens cursor) := by
  obtain ⟨hdrop, hlt⟩ := drop_of_getElem? ht
  refine Ends.of_some ⟨Nat.le_succ cursor, hlt, fun _ _ _ => Nat.lt_succ_self cursor,
    fun _ _ => stopsAt_primary _, fun host waiting outer hhosts => ?_⟩
  exact (congrArg _ hdrop).trans (hread host waiting outer hhosts)

omit hcursor in
/-- An expression in parentheses. -/
theorem ends_inner (ht : tokens[cursor]? = some t) (hparen : t.kind = .operator .leftParen)
    (hneed : (Call.phrase .primary).need tokens cursor ≤ depth + 1) :
    Ends
      (andThen (descend store tokens depth (.phrase (.binary 0)) (cursor + 1)) fun value stop =>
        match operatorAt? tokens (· = .rightParen) stop with
        | none => some (.error ⟨.unclosedParen, t.span⟩, stop)
        | some _ => some (.ok value, stop + 1))
      ((Call.phrase .primary).Right store tokens cursor) := by
  simp only [Call.need, Call.rank] at hneed
  obtain ⟨hdrop, hlt⟩ := drop_of_getElem? ht
  have hread : ∀ (host : Phrase) waiting outer,
      host.read store (lastSpan tokens) none waiting outer (tokens.drop cursor) =
        host.read store (lastSpan tokens) none [] (⟨t.span, waiting⟩ :: outer)
          (tokens.drop (cursor + 1)) := by
    intro host waiting outer
    rw [hdrop, read_leftParen hparen]
  refine (ih (.phrase (.binary 0)) (cursor + 1) hlt (Nat.zero_le 7)
    (by simp only [Call.need, Call.rank]; omega)).andThen (fun failure stop h => ?_)
      fun value stop h => ?_
  · refine ⟨Nat.le_of_succ_le h.le, h.le_length, nofun, nofun, fun host waiting outer _ => ?_⟩
    exact (hread host waiting outer).trans (h.reads host [] _ (hosts_inner _))
  · have hafter : (Phrase.binary 0).StopsAt (tokens.drop stop) := h.stopsAt value rfl
    have hinner : ∀ (host : Phrase) waiting outer,
        host.read store (lastSpan tokens) none waiting outer (tokens.drop cursor) =
          host.read store (lastSpan tokens) (some value) [] (⟨t.span, waiting⟩ :: outer)
            (tokens.drop stop) :=
      fun host waiting outer => (hread host waiting outer).trans (h.reads host [] _ (hosts_inner _))
    cases hfound : operatorAt? tokens (· = .rightParen) stop with
    | none =>
      refine Ends.of_some
        ⟨Nat.le_of_succ_le h.le, h.le_length, nofun, nofun, fun host waiting outer _ => ?_⟩
      refine (hinner host waiting outer).trans ?_
      cases hrest : tokens.drop stop with
      | nil => exact read_nil
      | cons u rest =>
        rw [hrest] at hafter
        rw [read_end hafter.endsExpression]
        have hother : u.operator? ≠ some .rightParen := fun hop =>
          of_decide_eq_false (operatorAt?_eq_none hfound (getElem?_of_drop hrest)
            (Token.operator?_eq_some_iff.1 hop)) rfl
        exact if_neg hother
    | some found =>
      obtain ⟨op, span⟩ := found
      obtain ⟨u, hu, hkind, rfl, haccepts⟩ := operatorAt?_eq_some hfound
      obtain rfl : op = .rightParen := of_decide_eq_true haccepts
      obtain ⟨hrest, hend⟩ := drop_of_getElem? hu
      refine Ends.of_some ⟨Nat.le_succ_of_le (Nat.le_of_succ_le h.le), hend,
        fun _ _ _ => Nat.lt_succ_of_le (Nat.le_of_succ_le h.le), fun _ _ => stopsAt_primary _,
        fun host waiting outer _ => ?_⟩
      refine (hinner host waiting outer).trans ?_
      rw [hrest] at hafter ⊢
      rw [read_end hafter.endsExpression]
      exact if_pos (Token.operator?_eq_some_iff.2 hkind)

theorem ends_primary (hneed : (Call.phrase .primary).need tokens cursor ≤ depth + 1) :
    Ends (descend store tokens (depth + 1) (.phrase .primary) cursor)
      ((Call.phrase .primary).Right store tokens cursor) := by
  rw [descend]
  cases ht : tokens[cursor]? with
  | none =>
    refine Ends.of_some ⟨Nat.le_refl cursor, hcursor, nofun, nofun, fun host waiting outer _ => ?_⟩
    rw [List.drop_eq_nil_of_le (List.getElem?_eq_none_iff.1 ht), Phrase.read.eq_def]
    rfl
  | some t =>
    cases hkind : t.kind with
    | number n =>
      have hoperand : t.kind = (Operand.number n).kind := hkind
      simp only [hkind]
      exact Ends.taken ht fun _ _ _ _ => read_operand hoperand
    | text contents =>
      have hoperand : t.kind = (Operand.text contents).kind := hkind
      simp only [hkind]
      exact Ends.taken ht fun _ _ _ _ => read_operand hoperand
    | identifier name =>
      have hoperand : t.kind = (Operand.name name).kind := hkind
      simp only [hkind]
      cases hget : store.get? name with
      | none =>
        refine Ends.taken ht fun host waiting outer _ => ?_
        rw [read_operand hoperand, Tree.value, hget]
      | some value =>
        refine Ends.taken ht fun host waiting outer _ => ?_
        rw [read_operand hoperand, Tree.value, hget]
    | operator op =>
      simp only [hkind]
      by_cases hparen : op = .leftParen
      · rw [if_pos hparen]
        exact ends_inner ih ht (hkind.trans (congrArg _ hparen)) hneed
      · rw [if_neg hparen]
        refine Ends.taken ht fun host waiting outer hhosts => ?_
        rw [Phrase.read]
        simp only [hkind, if_neg hparen]
        cases hsign : op.isSign with
        | false => rfl
        | true =>
          obtain ⟨hadmits, rfl, rfl⟩ :=
            hhosts.unsigned rfl t _ op (drop_of_getElem? ht).1 hkind hsign
          rw [hadmits]
          rfl
    | keyword word | assignment | newline =>
      simp only [hkind]
      refine Ends.taken ht fun host waiting outer _ => ?_
      rw [Phrase.read]
      simp only [hkind]
      rfl

end

/-- All calls end, and are right, if they may be nested deep enough. -/
theorem ends_descend (store : Store) (tokens : List Token) (depth : Nat) :
    Serves store tokens depth := by
  induction depth with
  | zero =>
    intro call cursor _ _ hneed
    exact absurd hneed (Nat.not_succ_le_zero _)
  | succ depth ih =>
    intro call cursor hcursor hready hneed
    cases call with
    | links level left => exact ends_links ih hcursor hready.1 hready.2 hneed
    | phrase wanted =>
      cases wanted with
      | binary level => exact ends_binary ih hcursor hready hneed
      | unary => exact ends_unary ih hcursor hneed
      | power => exact ends_power ih hcursor hneed
      | primary => exact ends_primary ih hcursor hneed

/-- With calls nested so deep every phrase is read. -/
theorem exists_descend_eq (store : Store) (tokens : List Token) {wanted : Phrase}
    (hwanted : wanted ∈ Phrase.all) {cursor depth : Nat} (hcursor : cursor ≤ tokens.length)
    (hdepth : 11 * (tokens.length - cursor + 1) ≤ depth) :
    ∃ result stop, descend store tokens depth (.phrase wanted) cursor = some (result, stop) ∧
      cursor ≤ stop ∧ stop ≤ tokens.length ∧ (∀ value, result = .ok value → cursor < stop) ∧
      wanted.read store (lastSpan tokens) none [] [] (tokens.drop cursor) =
        result.map fun value => (value, tokens.drop stop) := by
  have hready : (Call.phrase wanted).Ready tokens cursor ∧ (Call.phrase wanted).rank ≤ 10 := by
    simp only [Phrase.all, List.mem_cons, List.not_mem_nil, or_false] at hwanted
    rcases hwanted with rfl | rfl | rfl | rfl | rfl | rfl | rfl | rfl | rfl | rfl <;>
      simp [Call.Ready, Call.rank]
  obtain ⟨result, stop, hanswer, h⟩ :=
    ends_descend store tokens depth (.phrase wanted) cursor hcursor hready.1
    (by have := hready.2; simp only [Call.need]; omega)
  refine ⟨result, stop, hanswer, h.le, h.le_length, h.lt_of_ok rfl, ?_⟩
  refine (h.reads wanted [] [] (hosts_self wanted _)).trans ?_
  cases result with
  | error failure => rfl
  | ok value => exact read_of_stopsAt (h.stopsAt value rfl)

/-! ## Where expressions end -/

/-- The index is behind the tokens that an expression can have from `start` on. -/
structure EndsAt (tokens : Array Token) (start stop : Nat) : Prop where
  min_le : min start tokens.size ≤ stop
  le_size : stop ≤ tokens.size
  bearing : ∀ index t, start ≤ index → index < stop → tokens[index]? = some t →
    t.isValueBearing = true
  ends : ∀ t, tokens[stop]? = some t → t.isValueBearing = false

theorem EndsAt.le {tokens : Array Token} {start stop other : Nat} (h : EndsAt tokens start stop)
    (hother : EndsAt tokens start other) : stop ≤ other := by
  refine Nat.le_of_not_lt fun hlt => ?_
  have hsize : other < tokens.size := Nat.lt_of_lt_of_le hlt h.le_size
  have hget := Array.getElem?_eq_getElem hsize
  have hstart : start ≤ other := by have := hother.min_le; omega
  have hends := hother.ends _ hget
  rw [h.bearing other _ hstart hlt hget] at hends
  cases hends

theorem endsAt_endFrom (tokens : Array Token) (start : Nat) :
    EndsAt tokens start (endFrom tokens start) := by
  fun_induction endFrom tokens start with
  | case1 start hlt hbearing ih =>
    refine ⟨by have := ih.min_le; omega, ih.le_size, fun index t hle hindex ht => ?_, ih.ends⟩
    rcases Nat.eq_or_lt_of_le hle with rfl | hlater
    · obtain ⟨-, rfl⟩ := Array.getElem?_eq_some_iff.1 ht
      exact hbearing
    · exact ih.bearing index t hlater hindex ht
  | case2 start hlt hbearing =>
    refine ⟨Nat.min_le_left _ _, Nat.le_of_lt hlt,
      fun index t hle hindex => absurd hindex (Nat.not_lt.2 hle),
      fun t ht => ?_⟩
    obtain ⟨-, rfl⟩ := Array.getElem?_eq_some_iff.1 ht
    exact Bool.eq_false_iff.2 hbearing
  | case3 start hge =>
    refine ⟨Nat.min_le_right _ _, Nat.le_refl _, fun index t hle hindex => by omega, fun t ht => ?_⟩
    obtain ⟨hlt, -⟩ := Array.getElem?_eq_some_iff.1 ht
    exact absurd hlt (Nat.lt_irrefl _)

theorem endsAt_iff {tokens : Array Token} {start stop : Nat} :
    EndsAt tokens start stop ↔ stop = endFrom tokens start := by
  constructor
  · intro h
    exact Nat.le_antisymm (h.le (endsAt_endFrom tokens start)) ((endsAt_endFrom tokens start).le h)
  · rintro rfl
    exact endsAt_endFrom tokens start

/-! ## Whole expressions -/

/-- The value of an expression whose phrase is at its end: what is left over is an error. -/
def complete (run : List Token) (stop : Nat) (value : Value) : Except Failure Value :=
  match run[stop]? with
  | none => .ok value
  | some extra => .error ⟨.unexpectedToken extra.shown, extra.span⟩

/-- Evaluating an expression is descending through it, and looking for tokens that are left over. -/
theorem evaluate_eq_descend (store : Store) {run : List Token} (hne : run ≠ []) {depth : Nat}
    (hdepth : 11 * (run.length + 1) ≤ depth) :
    ∃ result stop, descend store run depth (.phrase .expression) 0 = some (result, stop) ∧
      stop ≤ run.length ∧ evaluate store run = result >>= complete run stop := by
  have hexpression : Phrase.expression ∈ Phrase.all := by decide
  obtain ⟨result, stop, hanswer, -, hle, -, hread⟩ :=
    exists_descend_eq store run hexpression (Nat.zero_le _) hdepth
  refine ⟨result, stop, hanswer, hle, ?_⟩
  rw [List.drop_zero] at hread
  rw [evaluate, if_neg (by simpa using hne), hread]
  cases result with
  | error failure => rfl
  | ok value =>
    cases hrest : run.drop stop with
    | nil =>
      show Except.ok value = complete run stop value
      rw [complete, List.getElem?_eq_none (List.drop_eq_nil_iff.1 hrest)]
    | cons extra rest =>
      show Except.error ⟨.unexpectedToken extra.shown, extra.span⟩ = complete run stop value
      rw [complete, getElem?_of_drop hrest]

/-- **Descending through an expression makes progress.**  Take any tokens, any variables, and any of
the ten phrases.

* From every cursor in the tokens, the function of the phrase comes to an answer, with calls nested
  no deeper than eleven times the number of tokens that are left, and eleven.  The cursor does not
  go back, nor beyond the tokens, and it goes on if there is a value.  The reader of the phrase
  comes to the same value and goes on with the same tokens, or to the same failure.
* Wherever an expression is looked for, also beyond the tokens, its end is the one place that is not
  before its start and not beyond the tokens, with all tokens in between value-bearing and none of
  these at it.  Its value is that of the tokens in between: nothing, if there are none, and
  otherwise what the function for whole expressions comes to, unless it leaves a token over. -/
theorem descent_makes_progress (store : Store) :
    (∀ (tokens : List Token), ∀ phrase ∈ Phrase.all, ∀ cursor ≤ tokens.length, ∀ depth,
      11 * (tokens.length - cursor + 1) ≤ depth →
      ∃ result stop, descend store tokens depth (.phrase phrase) cursor = some (result, stop) ∧
        cursor ≤ stop ∧ stop ≤ tokens.length ∧ (∀ value, result = .ok value → cursor < stop) ∧
        phrase.read store (lastSpan tokens) none [] [] (tokens.drop cursor) =
          result.map fun value => (value, tokens.drop stop)) ∧
    ∀ (tokens : Array Token) (start : Nat),
      (∀ stop, EndsAt tokens start stop ↔ stop = endFrom tokens start) ∧
      (runFrom tokens start = [] → evaluateFrom tokens start store = .ok .nothing) ∧
      (runFrom tokens start ≠ [] → ∀ depth, 11 * ((runFrom tokens start).length + 1) ≤ depth →
        ∃ result stop,
          descend store (runFrom tokens start) depth (.phrase .expression) 0 = some (result, stop) ∧
          stop ≤ (runFrom tokens start).length ∧
          evaluateFrom tokens start store = result >>= complete (runFrom tokens start) stop) := by
  refine ⟨fun tokens phrase hphrase cursor hcursor depth hdepth =>
    exists_descend_eq store tokens hphrase hcursor hdepth, fun tokens start =>
    ⟨fun stop => endsAt_iff, fun hempty => ?_,
      fun hne depth hdepth => evaluate_eq_descend store hne hdepth⟩⟩
  rw [evaluateFrom, hempty]
  rfl

/-- The tokens `( 1`. -/
def unclosedSum : List Token :=
  [⟨.operator .leftParen, "(", ⟨1, 0⟩⟩, ⟨.number (.int 1), "1", ⟨1, 2⟩⟩]

/-- A primary takes the parenthesis and the number, and fails for want of a `)`. -/
theorem descent_makes_progress_unclosedSum :
    Phrase.primary ∈ Phrase.all ∧ 0 ≤ unclosedSum.length ∧ 11 * (unclosedSum.length - 0 + 1) ≤ 33 ∧
    descend ∅ unclosedSum 33 (.phrase .primary) 0 = some (.error ⟨.unclosedParen, ⟨1, 0⟩⟩, 2) ∧
    Phrase.primary.read ∅ (lastSpan unclosedSum) none [] [] unclosedSum =
      .error ⟨.unclosedParen, ⟨1, 0⟩⟩ := by
  have hphrase : Phrase.primary ∈ Phrase.all := by decide
  have hcomputed : descend ∅ unclosedSum 33 (.phrase .primary) 0 =
      some (.error ⟨.unclosedParen, ⟨1, 0⟩⟩, 2) := by decide +kernel
  obtain ⟨result, stop, hanswer, -, -, -, hread⟩ :=
    (descent_makes_progress ∅).1 unclosedSum .primary hphrase 0 (Nat.zero_le _) 33 (by decide)
  rw [hcomputed] at hanswer
  obtain ⟨rfl, rfl⟩ := Prod.mk.inj (Option.some.inj hanswer)
  exact ⟨hphrase, Nat.zero_le _, by decide, hcomputed, hread⟩

end Expression

end TokenScript
