import TokenScript.Proofs.Expression.Grammar

/-!
# The reader follows the grammar

An expression is read and evaluated in one pass, with what is still waiting for a value on lists.
This file compares that with the trees of the grammar.

*Completeness.*  Reading the tokens of a tree is evaluating the tree, with anything waiting and
anything coming after: `read_tree`.  Two things are needed of the surroundings.  No operator that
waits may be applied to a part of the tree, and no operator after the tree may take a part of it.

*Soundness.*  Whatever was read so far is part of some tree.  `Waits` and `Opens` say so of the
operators that wait and of the parentheses that are open, one rule for each way to grow; so a reader
that gets to the end has read a tree: `sound_read`.

* `read_operand`, `read_sign`, ..., `read_end`: what the reader does with one token.
* `read_tree`: the tokens of a tree are read as its value.
* `sound_read`: what is read is a tree.
* `evaluate_grammar`: the evaluator and the grammar agree.
-/

namespace TokenScript

open Expression Phrase

variable {phrase : Phrase} {store : Store} {last : Span} {value : Value} {waiting : List Pending}
  {outer : List Enclosing} {t : Token} {rest : List Token} {op : Operator} {level : Nat}

theorem Token.operator?_eq_some_iff : t.operator? = some op ↔ t.kind = .operator op := by
  unfold Token.operator?
  cases t.kind <;> simp

/-! ## One token -/

theorem exists_of_bind_eq_ok {ε α β : Type} {x : Except ε α} {f : α → Except ε β} {result : β}
    (h : x >>= f = .ok result) : ∃ u, x = .ok u ∧ f u = .ok result := by
  cases x with
  | error e => cases h
  | ok u => exact ⟨u, rfl, h⟩

theorem settle_cons (level : Nat) (value : Value) (p : Pending) (waiting : List Pending) :
    settle level value (p :: waiting) =
      if p.bindsAtLeast level then p.apply value >>= fun applied => settle level applied waiting
      else .ok (value, p :: waiting) := by
  rw [settle]
  split
  · cases p.apply value <;> rfl
  · rfl

@[simp] theorem Pending.bindsAtLeast_sign (op : Operator) (span : Span) (level : Nat) :
    (Pending.sign op span).bindsAtLeast level = true := rfl

@[simp] theorem Pending.bindsAtLeast_power (span : Span) (base : Value) (level : Nat) :
    (Pending.power span base).bindsAtLeast level = true := rfl

theorem read_operand {operand : Operand} (ht : t.kind = operand.kind) :
    phrase.read store last none waiting outer (t :: rest) =
      (Tree.operand t operand).value store >>= fun value =>
        phrase.read store last (some value) waiting outer rest := by
  rw [Phrase.read]
  cases operand with
  | number n => simp only [ht, Operand.kind]; rfl
  | text contents => simp only [ht, Operand.kind]; rfl
  | name word =>
    simp only [ht, Operand.kind, Tree.value]
    cases store.get? word <;> rfl

theorem read_leftParen (ht : t.kind = .operator .leftParen) :
    phrase.read store last none waiting outer (t :: rest) =
      phrase.read store last none [] (⟨t.span, waiting⟩ :: outer) rest := by
  rw [Phrase.read]
  simp only [ht, if_true]

/-- A sign is taken if the phrase admits one, or if something surrounds it. -/
theorem read_sign (ht : t.kind = .operator op) (hsign : op.isSign = true)
    (hadmits : (phrase.admitsSign || !waiting.isEmpty || !outer.isEmpty) = true) :
    phrase.read store last none waiting outer (t :: rest) =
      phrase.read store last none (.sign op t.span :: waiting) outer rest := by
  have hparen : op ≠ .leftParen := by
    rintro rfl
    cases hsign
  rw [Phrase.read]
  simp only [ht, if_neg hparen, hsign, hadmits, Bool.and_self, if_true]

/-- `**` is taken if the phrase admits one, or if something surrounds it. -/
theorem read_power (ht : t.kind = .operator .power)
    (hadmits : (phrase.admitsPower || !waiting.isEmpty || !outer.isEmpty) = true) :
    phrase.read store last (some value) waiting outer (t :: rest) =
      phrase.read store last none (.power t.span value :: waiting) outer rest := by
  rw [Phrase.read]
  simp only [Token.operator?, ht, decide_true, hadmits, Bool.and_self, if_true]

/-- An operator of a level: those that bind at least as tightly are applied first, and then it is
taken if the phrase admits it, or if something surrounds it. -/
theorem read_level (ht : t.kind = .operator op) (hlevel : op.level? = some level) :
    phrase.read store last (some value) waiting outer (t :: rest) =
      settle level value waiting >>= fun settled =>
        if phrase.admitsLevel level || !settled.2.isEmpty || !outer.isEmpty then
          phrase.read store last none (.binary level op t.span settled.1 :: settled.2) outer rest
        else .ok (settled.1, t :: rest) := by
  have hpower : op ≠ .power := by
    rintro rfl
    cases hlevel
  rw [Phrase.read]
  simp only [Token.operator?, ht, Option.some.injEq, hpower, decide_false, Bool.false_and,
    Bool.false_eq_true, if_false, Option.bind_some, hlevel, Option.map_some]
  rcases settle level value waiting with _ | ⟨settled, still⟩ <;> rfl

/-- An expression admits operators of all levels. -/
theorem read_binary (ht : t.kind = .operator op) (hlevel : op.level? = some level) :
    Phrase.expression.read store last (some value) waiting outer (t :: rest) =
      settle level value waiting >>= fun settled =>
        Phrase.expression.read store last none
          (.binary level op t.span settled.1 :: settled.2) outer rest := by
  rw [read_level ht hlevel]
  simp only [expression, admitsLevel, Nat.zero_le, decide_true, Bool.true_or, if_true]

/-- Every token is an operand, an open parenthesis or a sign, or no expression starts with it. -/
theorem read_start_cases (t : Token) :
    (∃ operand : Operand, t.kind = operand.kind) ∨ t.kind = .operator .leftParen ∨
      (∃ op, t.kind = .operator op ∧ op.isSign = true) ∨
      ∀ (store : Store) (last : Span) waiting outer rest, ∃ failure,
        Phrase.expression.read store last none waiting outer (t :: rest) = .error failure := by
  have hfails : ∀ kind, t.kind = kind →
      (match kind with
        | .number _ | .text _ | .identifier _ => false
        | .operator op => op ≠ .leftParen && !op.isSign
        | _ => true) = true →
      ∀ (store : Store) (last : Span) waiting outer rest, ∃ failure,
        Phrase.expression.read store last none waiting outer (t :: rest) = .error failure := by
    intro kind hkind hmatch store last waiting outer rest
    rw [Phrase.read]
    cases kind <;> simp_all
  cases hkind : t.kind with
  | number n => exact Or.inl ⟨.number n, rfl⟩
  | text contents => exact Or.inl ⟨.text contents, rfl⟩
  | identifier word => exact Or.inl ⟨.name word, rfl⟩
  | operator op =>
    by_cases hparen : op = .leftParen
    · exact Or.inr (Or.inl (by rw [hparen]))
    · by_cases hsign : op.isSign = true
      · exact Or.inr (Or.inr (Or.inl ⟨op, rfl, hsign⟩))
      · exact Or.inr (Or.inr (Or.inr (hfails _ hkind (by simp [hparen, hsign]))))
  | keyword word => exact Or.inr (Or.inr (Or.inr (hfails _ hkind rfl)))
  | assignment => exact Or.inr (Or.inr (Or.inr (hfails _ hkind rfl)))
  | newline => exact Or.inr (Or.inr (Or.inr (hfails _ hkind rfl)))

/-- The token cannot go on with an expression. -/
def Token.EndsExpression (t : Token) : Prop :=
  ∀ op, t.kind = .operator op → op ≠ .power ∧ op.level? = none

/-- What becomes of the value of an expression that is at its end. -/
def afterEnd (phrase : Phrase) (store : Store) (last : Span) (t : Token) (rest : List Token)
    (value : Value) :
    List Enclosing → Except Failure (Value × List Token)
  | [] => .ok (value, t :: rest)
  | enclosing :: further =>
    if t.operator? = some .rightParen then
      phrase.read store last (some value) enclosing.waiting further rest
    else .error ⟨.unclosedParen, enclosing.paren⟩

theorem read_end (ht : t.EndsExpression) :
    phrase.read store last (some value) waiting outer (t :: rest) =
      settle 0 value waiting >>= fun settled =>
        afterEnd phrase store last t rest settled.1 outer := by
  have hnone : (t.operator?.bind fun op => op.level?.map fun level => (op, level)) = none := by
    cases hop : t.operator? with
    | none => rfl
    | some op => simp [(ht op (Token.operator?_eq_some_iff.1 hop)).2]
  have hpower : t.operator? ≠ some .power := fun hop =>
    (ht .power (Token.operator?_eq_some_iff.1 hop)).1 rfl
  rw [Phrase.read]
  simp only [hpower, decide_false, Bool.false_and, Bool.false_eq_true, if_false, hnone]
  rcases settle 0 value waiting with _ | ⟨settled, still⟩
  · rfl
  · cases outer <;> rfl

/-- Every token is `**`, an operator of some level, or cannot go on with an expression. -/
theorem Token.continuation_cases (t : Token) :
    t.kind = .operator .power ∨ (∃ op level, t.kind = .operator op ∧ op.level? = some level) ∨
      t.EndsExpression := by
  by_cases hpower : t.kind = .operator .power
  · exact Or.inl hpower
  · by_cases hlevel : ∃ op level, t.kind = .operator op ∧ op.level? = some level
    · exact Or.inr (Or.inl hlevel)
    · refine Or.inr (Or.inr fun op hop => ⟨?_, ?_⟩)
      · rintro rfl
        exact hpower hop
      · cases h : op.level? with
        | none => rfl
        | some level => exact absurd ⟨op, level, hop, h⟩ hlevel

theorem read_nil :
    phrase.read store last (some value) waiting outer [] =
      settle 0 value waiting >>= fun settled =>
        match outer with
        | [] => .ok (settled.1, [])
        | enclosing :: _ => .error ⟨.unclosedParen, enclosing.paren⟩ := by
  rw [Phrase.read]
  rcases settle 0 value waiting with _ | ⟨settled, still⟩ <;> rfl

/-! ## Completeness -/

/-- The tokens start with no operator that binds tighter than a level. -/
def NoTighter (own : Nat) : List Token → Prop
  | [] => True
  | t :: _ =>
    ∀ op, t.kind = .operator op → op ≠ .power ∧ ∀ level, op.level? = some level → level ≤ own

theorem NoTighter.mono {own more : Nat} (h : NoTighter own rest) (hle : own ≤ more) :
    NoTighter more rest := by
  cases rest with
  | nil => trivial
  | cons t rest =>
    intro op hop
    obtain ⟨hpower, hlevel⟩ := h op hop
    exact ⟨hpower, fun level hl => Nat.le_trans (hlevel level hl) hle⟩

theorem noTighter_of_level (ht : t.kind = .operator op) (hlevel : op.level? = some level)
    (rest : List Token) : NoTighter level (t :: rest) := by
  intro other hother
  obtain rfl : op = other := TokenKind.operator.inj (ht.symm.trans hother)
  refine ⟨?_, fun own hown => ?_⟩
  · rintro rfl
    cases hlevel
  · exact Nat.le_of_eq (Option.some.inj (hown.symm.trans hlevel))

/-- The operator that has waited for the shortest time is applied to a value, if the next token does
not bind tighter. -/
theorem read_settle {own : Nat} {p : Pending} (hrest : NoTighter own rest)
    (hbinds : ∀ level ≤ own, p.bindsAtLeast level = true) :
    phrase.read store last (some value) (p :: waiting) outer rest =
      p.apply value >>= fun applied =>
        phrase.read store last (some applied) waiting outer rest := by
  have hsettle : ∀ level ≤ own, settle level value (p :: waiting) =
      p.apply value >>= fun applied => settle level applied waiting := by
    intro level hle
    rw [settle_cons, if_pos (hbinds level hle)]
  cases rest with
  | nil => simp only [read_nil, hsettle 0 (Nat.zero_le own), bind_assoc]
  | cons t rest =>
    rcases t.continuation_cases with hpower | ⟨op, level, hop, hlevel⟩ | hend
    · exact absurd rfl (hrest .power hpower).1
    · have hle := (hrest op hop).2 level hlevel
      simp only [read_level hop hlevel, hsettle level hle, bind_assoc]
    · simp only [read_end hend, hsettle 0 (Nat.zero_le own), bind_assoc]

/-- No operator that waits is applied before an operator of the phrase is taken. -/
def Phrase.Fits : Phrase → List Pending → Prop
  | .binary level, p :: _ => p.bindsAtLeast level = false
  | _, _ => True

/-- No operator among the tokens takes the last part of a tree of the phrase. -/
def Phrase.Keeps : Phrase → List Token → Prop
  | .binary level, rest => NoTighter level rest
  | .unary, rest | .power, rest => NoTighter 7 rest
  | .primary, _ => True

theorem Phrase.Fits.tighter (h : (Phrase.binary level).Fits waiting) :
    (Phrase.binary (level + 1)).Fits waiting := by
  cases waiting with
  | nil => trivial
  | cons p waiting =>
    change p.bindsAtLeast level = false at h
    change p.bindsAtLeast (level + 1) = false
    unfold Pending.bindsAtLeast at h ⊢
    cases hown : p.level? with
    | none => simp [hown] at h
    | some own =>
      simp only [hown, decide_eq_false_iff_not] at h ⊢
      omega

theorem settle_of_fits (h : (Phrase.binary level).Fits waiting) :
    settle level value waiting = .ok (value, waiting) := by
  cases waiting with
  | nil => rfl
  | cons p waiting =>
    have hbinds : ¬ p.bindsAtLeast level = true := by
      rw [show p.bindsAtLeast level = false from h]
      simp
    rw [settle_cons, if_neg hbinds]

/-- **Completeness.**  Reading the tokens of a tree is evaluating the tree. -/
theorem read_tree {phrase : Phrase} {tree : Tree} (h : Derives phrase tree)
    (hwaiting : phrase.Fits waiting) (hrest : phrase.Keeps rest) :
    Phrase.expression.read store last none waiting outer (tree.tokens ++ rest) =
      tree.value store >>= fun value =>
        Phrase.expression.read store last (some value) waiting outer rest := by
  induction h generalizing waiting outer rest with
  | operand ht => exact read_operand ht
  | @paren left right inner hleft hright _ ih =>
    have hend : right.EndsExpression := by
      intro op hop
      obtain rfl : Operator.rightParen = op := TokenKind.operator.inj (hright.symm.trans hop)
      exact ⟨by simp, rfl⟩
    have hfits : (Phrase.binary 0).Fits [] := trivial
    have hkeeps : (Phrase.binary 0).Keeps (right :: rest) := by
      intro op hop
      obtain ⟨hpower, hlevel⟩ := hend op hop
      exact ⟨hpower, fun level hl => by rw [hlevel] at hl; cases hl⟩
    rw [Tree.tokens, List.cons_append, List.append_assoc, read_leftParen hleft]
    rw [List.singleton_append, ih hfits hkeeps, Tree.value]
    refine bind_congr fun value => ?_
    rw [read_end hend, settle]
    show afterEnd expression store last right rest value (⟨left.span, waiting⟩ :: outer) = _
    rw [afterEnd, if_pos (Token.operator?_eq_some_iff.2 hright)]
  | base _ ih => exact ih trivial trivial
  | @power base exponent t ht _ _ ihb ihe =>
    rw [Tree.tokens, List.append_assoc, List.cons_append, ihb trivial trivial, Tree.value]
    simp only [bind_assoc]
    refine bind_congr fun left => ?_
    rw [read_power ht rfl, ihe trivial hrest]
    refine bind_congr fun right => ?_
    exact read_settle hrest fun level _ => Pending.bindsAtLeast_power t.span left level
  | unsigned _ ih => exact ih trivial hrest
  | @sign t op inner ht hsign _ ih =>
    rw [Tree.tokens, List.cons_append, read_sign ht hsign rfl, ih trivial hrest, Tree.value]
    simp only [bind_assoc]
    refine bind_congr fun right => ?_
    exact read_settle hrest fun level _ => Pending.bindsAtLeast_sign op t.span level
  | unary _ ih => exact ih trivial hrest
  | tighter hlevel _ ih => exact ih hwaiting.tighter (hrest.mono (Nat.le_succ _))
  | @binary level left right t op ht hlevel _ _ ihl ihr =>
    have hkeeps : (Phrase.binary level).Keeps (t :: (right.tokens ++ rest)) :=
      noTighter_of_level ht hlevel (right.tokens ++ rest)
    rw [Tree.tokens, List.append_assoc, List.cons_append, ihl hwaiting hkeeps, Tree.value]
    simp only [bind_assoc]
    refine bind_congr fun x => ?_
    rw [read_binary ht hlevel, settle_of_fits hwaiting]
    have hfits : (Phrase.binary (level + 1)).Fits (.binary level op t.span x :: waiting) := by
      show decide (level + 1 ≤ level) = false
      simp
    show Phrase.expression.read store last none (.binary level op t.span x :: waiting) outer
      (right.tokens ++ rest) = _
    rw [ihr hfits (hrest.mono (Nat.le_succ _))]
    refine bind_congr fun y => ?_
    exact read_settle hrest fun own hle => decide_eq_true hle

/-! ## Soundness -/

/-- The operators that wait stand in the tokens that were read since the last open parenthesis, with
the trees of their left operands, and a tree of the phrase is to come. -/
inductive Waits : List Pending → List Token → Phrase → Prop
  | nil : Waits [] [] (.binary 0)
  | sign {waiting : List Pending} {before : List Token} {phrase : Phrase} {t : Token}
    {op : Operator} :
    Waits waiting before phrase → t.kind = .operator op → op.isSign = true →
      Waits (.sign op t.span :: waiting) (before ++ [t]) .unary
  | power {waiting : List Pending} {before : List Token} {phrase : Phrase} {t : Token} {base : Tree}
    (left : Value) :
    Waits waiting before phrase → t.kind = .operator .power → Derives .primary base →
      Waits (.power t.span left :: waiting) (before ++ (base.tokens ++ [t])) .unary
  | binary {waiting : List Pending} {before : List Token} {least level : Nat} {t : Token}
    {op : Operator} {tree : Tree} (left : Value) :
    Waits waiting before (.binary least) → least ≤ level → t.kind = .operator op →
      op.level? = some level → Derives (.binary level) tree →
      Waits (.binary level op t.span left :: waiting) (before ++ (tree.tokens ++ [t]))
        (.binary (level + 1))

/-- The open parentheses stand in the tokens that were read before the last of them. -/
inductive Opens : List Enclosing → List Token → Prop
  | nil : Opens [] []
  | cons {outer : List Enclosing} {before inside : List Token} {waiting : List Pending}
    {phrase : Phrase} {t : Token} :
    Opens outer before → Waits waiting inside phrase → t.kind = .operator .leftParen →
      Opens (⟨t.span, waiting⟩ :: outer) (before ++ (inside ++ [t]))

/-- A unary phrase may stand wherever something is to come. -/
theorem Waits.of_unary {before : List Token} {phrase : Phrase} {tree : Tree}
    (h : Waits waiting before phrase) (htree : Derives .unary tree) : Derives phrase tree := by
  cases h with
  | nil => exact htree.of_unary (Nat.zero_le 7)
  | sign _ _ _ => exact htree
  | power _ _ _ _ => exact htree
  | binary _ _ _ _ hlevel _ => exact htree.of_unary (Operator.level?_lt hlevel)

/-- Applying operators that wait makes one tree of what was read.  Those that still wait afterwards
bind looser than the level. -/
theorem Waits.settle {before : List Token} {phrase : Phrase} {tree : Tree} {settled : Value}
    {still : List Pending} (hwaits : Waits waiting before phrase) (hlevel : level ≤ 7)
    (htree : Derives phrase tree) (htight : Derives (.binary level) tree)
    (h : TokenScript.settle level value waiting = .ok (settled, still)) :
    ∃ before' least tree', Waits still before' (.binary least) ∧ least ≤ level ∧
      Derives (.binary level) tree' ∧ before' ++ tree'.tokens = before ++ tree.tokens := by
  induction hwaits generalizing tree value with
  | nil =>
    obtain ⟨-, rfl⟩ := Prod.mk.inj (Except.ok.inj h)
    exact ⟨[], 0, tree, Waits.nil, Nat.zero_le level, htight, rfl⟩
  | @sign waiting before phrase t op hwaits ht hsign ih =>
    rw [settle_cons, if_pos (Pending.bindsAtLeast_sign op t.span level)] at h
    obtain ⟨applied, -, h⟩ := exists_of_bind_eq_ok h
    have hnew : Derives .unary (.sign t op tree) := Derives.sign ht hsign htree
    obtain ⟨before', least, tree', hstill, hle, htree', heq⟩ :=
      ih (hwaits.of_unary hnew) (hnew.of_unary hlevel) h
    refine ⟨before', least, tree', hstill, hle, htree', ?_⟩
    rw [heq, Tree.tokens, List.append_assoc, List.singleton_append]
  | @power waiting before phrase t base left hwaits ht hbase ih =>
    rw [settle_cons, if_pos (Pending.bindsAtLeast_power t.span left level)] at h
    obtain ⟨applied, -, h⟩ := exists_of_bind_eq_ok h
    have hnew : Derives .unary (.power base t tree) :=
      Derives.unsigned (Derives.power ht hbase htree)
    obtain ⟨before', least, tree', hstill, hle, htree', heq⟩ :=
      ih (hwaits.of_unary hnew) (hnew.of_unary hlevel) h
    refine ⟨before', least, tree', hstill, hle, htree', ?_⟩
    simp only [heq, Tree.tokens, List.append_assoc, List.singleton_append]
  | @binary waiting before least own t op left' left hwaits hle ht hop hleft ih =>
    rw [settle_cons] at h
    split at h
    · next hbinds =>
      have hown : level ≤ own := of_decide_eq_true hbinds
      have hseven := Nat.le_of_lt (Operator.level?_lt hop)
      obtain ⟨applied, -, h⟩ := exists_of_bind_eq_ok h
      have hnew : Derives (.binary own) (.binary left' t op tree) :=
        Derives.binary ht hop hleft htree
      obtain ⟨before', least, tree', hstill, hle, htree', heq⟩ :=
        ih (hnew.looser hle hseven) (hnew.looser hown hseven) h
      refine ⟨before', least, tree', hstill, hle, htree', ?_⟩
      simp only [heq, Tree.tokens, List.append_assoc, List.singleton_append]
    · next hbinds =>
      have hown : own < level := Nat.not_le.1 fun hle => hbinds (decide_eq_true hle)
      obtain ⟨-, rfl⟩ := Prod.mk.inj (Except.ok.inj h)
      exact ⟨_, own + 1, tree, Waits.binary left hwaits hle ht hop hleft, hown, htight, rfl⟩

/-- Applying all operators that wait. -/
theorem Waits.settle_all {before : List Token} {phrase : Phrase} {tree : Tree} {settled : Value}
    {still : List Pending} (hwaits : Waits waiting before phrase) (htree : Derives .primary tree)
    (h : TokenScript.settle 0 value waiting = .ok (settled, still)) :
    ∃ whole, Derives .expression whole ∧ whole.tokens = before ++ tree.tokens := by
  have hunary := Derives.unsigned (Derives.base htree)
  obtain ⟨before', least, whole, hstill, hle, hwhole, heq⟩ :=
    hwaits.settle (Nat.zero_le 7) (hwaits.of_unary hunary) (hunary.of_unary (Nat.zero_le 7)) h
  obtain rfl : least = 0 := Nat.le_zero.1 hle
  -- nothing that is to come is that loose, unless nothing waits
  generalize hphrase : Phrase.binary 0 = phrase' at hstill
  cases hstill with
  | nil => exact ⟨whole, hwhole, heq⟩
  | _ => cases hphrase

/-- A reader without a value at hand that gets to the end has read a tree: what was read before and
what is read from these tokens. -/
def SoundBefore (store : Store) (last : Span) (tokens : List Token) : Prop :=
  ∀ {waiting : List Pending} {outer : List Enclosing} {before inside : List Token} {phrase : Phrase}
    {answer : Value × List Token}, Opens outer before → Waits waiting inside phrase →
    Phrase.expression.read store last none waiting outer tokens = .ok answer →
    ∃ tree, Derives .expression tree ∧ before ++ (inside ++ tokens) = tree.tokens ++ answer.2

/-- A reader that has the value of an operand and gets to the end has read a tree. -/
def SoundAfter (store : Store) (last : Span) (tokens : List Token) : Prop :=
  ∀ {waiting : List Pending} {outer : List Enclosing} {before inside : List Token} {phrase : Phrase}
    {value : Value} {operand : Tree} {answer : Value × List Token}, Opens outer before →
    Waits waiting inside phrase → Derives .primary operand →
    Phrase.expression.read store last (some value) waiting outer tokens = .ok answer →
    ∃ tree, Derives .expression tree ∧
      before ++ (inside ++ (operand.tokens ++ tokens)) = tree.tokens ++ answer.2

theorem soundBefore_nil (store : Store) (last : Span) : SoundBefore store last [] := by
  intro waiting outer before inside phrase answer _ _ h
  rw [Phrase.read] at h
  cases h

theorem soundBefore_cons (hbefore : SoundBefore store last rest)
    (hafter : SoundAfter store last rest) (t : Token) : SoundBefore store last (t :: rest) := by
  intro waiting outer before inside phrase answer hopens hwaits h
  rcases read_start_cases t with ⟨operand, ht⟩ | ht | ⟨op, ht, hsign⟩ | hfails
  · rw [read_operand ht] at h
    obtain ⟨value, -, h⟩ := exists_of_bind_eq_ok h
    exact hafter hopens hwaits (Derives.operand ht) h
  · rw [read_leftParen ht] at h
    obtain ⟨tree, htree, htokens⟩ := hbefore (Opens.cons hopens hwaits ht) Waits.nil h
    exact ⟨tree, htree, by simpa using htokens⟩
  · rw [read_sign ht hsign rfl] at h
    obtain ⟨tree, htree, htokens⟩ := hbefore hopens (Waits.sign hwaits ht hsign) h
    exact ⟨tree, htree, by simpa using htokens⟩
  · obtain ⟨failure, hfailure⟩ := hfails store last waiting outer rest
    rw [hfailure] at h
    cases h

theorem soundAfter_nil (store : Store) (last : Span) : SoundAfter store last [] := by
  intro waiting outer before inside phrase value operand answer hopens hwaits hoperand h
  rw [read_nil] at h
  obtain ⟨⟨settled, still⟩, hsettle, h⟩ := exists_of_bind_eq_ok h
  obtain ⟨tree, htree, htokens⟩ := hwaits.settle_all hoperand hsettle
  cases hopens with
  | nil =>
    obtain rfl := Except.ok.inj h
    exact ⟨tree, htree, by simp [htokens]⟩
  | cons _ _ _ => cases h

theorem soundAfter_cons (hbefore : SoundBefore store last rest)
    (hafter : SoundAfter store last rest) (t : Token) : SoundAfter store last (t :: rest) := by
  intro waiting outer before inside phrase value operand answer hopens hwaits hoperand h
  have hunary := Derives.unsigned (Derives.base hoperand)
  rcases t.continuation_cases with ht | ⟨op, level, ht, hlevel⟩ | hend
  · rw [read_power ht rfl] at h
    obtain ⟨tree, htree, htokens⟩ := hbefore hopens (Waits.power value hwaits ht hoperand) h
    exact ⟨tree, htree, by simpa using htokens⟩
  · rw [read_binary ht hlevel] at h
    obtain ⟨⟨settled, still⟩, hsettle, h⟩ := exists_of_bind_eq_ok h
    have hseven := Nat.le_of_lt (Operator.level?_lt hlevel)
    obtain ⟨inside', least, left, hstill, hle, hleft, hinside⟩ :=
      hwaits.settle hseven (hwaits.of_unary hunary) (hunary.of_unary hseven) hsettle
    obtain ⟨tree, htree, htokens⟩ :=
      hbefore hopens (Waits.binary settled hstill hle ht hlevel hleft) h
    refine ⟨tree, htree, ?_⟩
    calc before ++ (inside ++ (operand.tokens ++ t :: rest))
        = before ++ (inside ++ operand.tokens ++ t :: rest) := by rw [List.append_assoc]
      _ = before ++ (inside' ++ (left.tokens ++ [t]) ++ rest) := by simp [← hinside]
      _ = tree.tokens ++ answer.2 := htokens
  · rw [read_end hend] at h
    obtain ⟨⟨settled, still⟩, hsettle, h⟩ := exists_of_bind_eq_ok h
    obtain ⟨whole, hwhole, hinside⟩ := hwaits.settle_all hoperand hsettle
    cases hopens with
    | nil =>
      obtain rfl := Except.ok.inj h
      exact ⟨whole, hwhole, by simp [hinside]⟩
    | @cons further before' inside' waiting' phrase' left hopens' hwaits' hleft =>
      rw [afterEnd] at h
      split at h
      · next hright =>
        have hparen : Derives .primary (.paren left whole t) :=
          Derives.paren hleft (Token.operator?_eq_some_iff.1 hright) hwhole
        obtain ⟨tree, htree, htokens⟩ := hafter hopens' hwaits' hparen h
        refine ⟨tree, htree, ?_⟩
        rw [← htokens, Tree.tokens, hinside]
        simp
      · cases h

/-- **Soundness.**  A reader that gets to the end has read a tree. -/
theorem sound_read (store : Store) (last : Span) (tokens : List Token) :
    SoundBefore store last tokens ∧ SoundAfter store last tokens := by
  induction tokens with
  | nil => exact ⟨soundBefore_nil store last, soundAfter_nil store last⟩
  | cons t rest ih => exact ⟨soundBefore_cons ih.1 ih.2 t, soundAfter_cons ih.1 ih.2 t⟩

/-! ## Whole expressions -/

namespace Expression

/-- The tree is one of a whole expression with these tokens. -/
def Parses (tree : Tree) (run : List Token) : Prop :=
  Derives .expression tree ∧ tree.tokens = run

theorem evaluate_of_parses {tree : Tree} {run : List Token} (h : Parses tree run) (hne : run ≠ []) :
    evaluate store run = tree.value store := by
  obtain ⟨htree, rfl⟩ := h
  have hfits : Phrase.expression.Fits [] := trivial
  have hkeeps : Phrase.expression.Keeps [] := trivial
  have hread :
      Phrase.expression.read store (lastSpan tree.tokens) none [] [] (tree.tokens ++ []) = _ :=
    read_tree htree hfits hkeeps
  rw [List.append_nil] at hread
  rw [evaluate, if_neg (by simpa using hne), hread]
  cases tree.value store <;> rfl

theorem parses_of_evaluate {run : List Token} (hne : run ≠ [])
    (h : evaluate store run = .ok value) : ∃ tree, Parses tree run := by
  rw [evaluate, if_neg (by simpa using hne)] at h
  split at h
  · cases h
  · next answer hread =>
    obtain ⟨tree, htree, htokens⟩ := (sound_read store _ run).1 Opens.nil Waits.nil hread
    exact ⟨tree, htree, by simpa using htokens.symm⟩
  · cases h

/-- **The evaluator follows the grammar.**  Take any tokens but none, and any variables.  The tokens
have one tree at most.  If they have one, then evaluating them is evaluating the tree from left to
right and from the leaves up, with the same failure, at the same place, if there is one.  If they
have none, then the evaluation fails. -/
theorem evaluate_grammar (store : Store) (run : List Token) (hne : run ≠ []) :
    (∀ first second, Parses first run → Parses second run → first = second) ∧
      (∀ tree, Parses tree run → evaluate store run = tree.value store) ∧
      ((¬∃ tree, Parses tree run) →
        ∃ failure, evaluate store run = .error failure ∧ failure.toError.kind = .evaluation) := by
  refine ⟨?_, fun tree h => evaluate_of_parses h hne, ?_⟩
  · rintro first second ⟨hfirst, htokens⟩ ⟨hsecond, rfl⟩
    exact Tree.eq_of_tokens_eq hfirst hsecond htokens
  · intro hnone
    cases h : evaluate store run with
    | ok value => exact absurd (parses_of_evaluate hne h) hnone
    | error failure => exact ⟨failure, rfl, rfl⟩

/-- The tokens `x + y`. -/
def sumOfNames : List Token :=
  [⟨.identifier "x", "x", ⟨1, 0⟩⟩, ⟨.operator .plus, "+", ⟨1, 2⟩⟩, ⟨.identifier "y", "y", ⟨1, 4⟩⟩]

/-- The tree of `x + y`. -/
def sumTree : Tree :=
  .binary (.operand ⟨.identifier "x", "x", ⟨1, 0⟩⟩ (.name "x")) ⟨.operator .plus, "+", ⟨1, 2⟩⟩ .plus
    (.operand ⟨.identifier "y", "y", ⟨1, 4⟩⟩ (.name "y"))

theorem parses_sumTree : Parses sumTree sumOfNames := by
  have hname : ∀ {t : Token} {word : String} {level : Nat}, t.kind = .identifier word → level ≤ 7 →
      Derives (.binary level) (.operand t (.name word)) := fun ht hle =>
    (Derives.unsigned (Derives.base (Derives.operand ht))).of_unary hle
  have hsum : Derives (.binary 5) sumTree :=
    Derives.binary rfl rfl (hname rfl (by omega)) (hname rfl (by omega))
  exact ⟨hsum.looser (Nat.zero_le 5) (by omega), rfl⟩

/-- Where no name has a value, `x + y` fails at its left operand. -/
theorem evaluate_grammar_sumOfNames :
    sumOfNames ≠ [] ∧
      evaluate ∅ sumOfNames = .error ⟨.undefinedName "x", ⟨1, 0⟩⟩ := by
  have hne : sumOfNames ≠ [] := List.cons_ne_nil _ _
  refine ⟨hne, ?_⟩
  rw [(evaluate_grammar ∅ sumOfNames hne).2.1 sumTree parses_sumTree]
  simp only [sumTree, Tree.value, Store.get?_empty]
  rfl

end Expression
end TokenScript
