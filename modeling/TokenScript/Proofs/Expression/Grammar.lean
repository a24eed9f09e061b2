import Mathlib.Data.List.Basic
import TokenScript.Expression

/-!
# The grammar of expressions

The reader of expressions has no trees, so what it reads is fixed here: the trees of the grammar,
the tokens of a tree, and its value, which is computed from the leaves up and from left to right.

The grammar is not ambiguous.  The trees of a phrase that two stretches of tokens start with are
equal, if neither stretch goes on with the phrase after its tree: `Unique`.  Phrases that start with
a token of their own are compared token by token.  Left-associative phrases cannot be, since the
operator at the top of such a tree is the last one; they are taken apart into a first operand and
links, `Tree.chain`, and these are compared from the left.

* `Tree`, `Tree.tokens`, `Tree.value`: trees of expressions.
* `Phrase.Derives`: the grammar.
* `Phrase.StopsAt`: tokens that do not go on with a phrase.
* `Tree.eq_of_tokens_eq`: no tokens have two trees.
-/

namespace TokenScript

namespace Expression

/-- An operand that is a single token. -/
inductive Operand where
  | number (n : Number)
  | text (contents : String)
  | name (word : String)

/-- The kind of the token of an operand. -/
def Operand.kind : Operand → TokenKind
  | .number n => .number n
  | .text contents => .text contents
  | .name word => .identifier word

theorem Operand.kind_injective {first second : Operand} (h : first.kind = second.kind) :
    first = second := by
  cases first <;> cases second <;> simp_all [Operand.kind]

theorem Operand.kind_ne_operator (operand : Operand) (op : Operator) :
    operand.kind ≠ .operator op := by
  cases operand <;> simp [Operand.kind]

/-- A tree of an expression.  Every token of the expression is in it, once. -/
inductive Tree where
  | operand (t : Token) (operand : Operand)
  | paren (left : Token) (inner : Tree) (right : Token)
  | sign (t : Token) (op : Operator) (inner : Tree)
  | power (base : Tree) (t : Token) (exponent : Tree)
  | binary (left : Tree) (t : Token) (op : Operator) (right : Tree)

namespace Tree

/-- The tokens of a tree. -/
def tokens : Tree → List Token
  | operand t _ => [t]
  | paren left inner right => left :: (inner.tokens ++ [right])
  | sign t _ inner => t :: inner.tokens
  | power base t exponent => base.tokens ++ t :: exponent.tokens
  | binary left t _ right => left.tokens ++ t :: right.tokens

/-- The value of a tree.  Operands come before the operators they belong to, the left operand first,
and the first failure is that of the tree. -/
def value (store : Store) : Tree → Except Failure Value
  | operand t (.name word) =>
    match store.get? word with
    | some value => .ok value
    | none => .error ⟨.undefinedName word, t.span⟩
  | operand _ (.number n) => .ok n.value
  | operand _ (.text contents) => .ok (.text contents)
  | paren _ inner _ => inner.value store
  | sign t op inner => do
    let right ← inner.value store
    (op.applySign right).mapError (⟨·, t.span⟩)
  | power base t exponent => do
    let left ← base.value store
    let right ← exponent.value store
    (Operator.power.apply left right).mapError (⟨·, t.span⟩)
  | binary left t op right => do
    let x ← left.value store
    let y ← right.value store
    (op.apply x y).mapError (⟨·, t.span⟩)

end Tree
end Expression

open Expression

namespace Phrase

/-- The trees of a phrase. -/
inductive Derives : Phrase → Tree → Prop
  | operand {t : Token} {operand : Operand} :
    t.kind = operand.kind → Derives .primary (.operand t operand)
  | paren {left right : Token} {inner : Tree} :
    left.kind = .operator .leftParen → right.kind = .operator .rightParen →
      Derives (.binary 0) inner → Derives .primary (.paren left inner right)
  | base {tree : Tree} : Derives .primary tree → Derives .power tree
  | power {base exponent : Tree} {t : Token} :
    t.kind = .operator .power → Derives .primary base → Derives .unary exponent →
      Derives .power (.power base t exponent)
  | unsigned {tree : Tree} : Derives .power tree → Derives .unary tree
  | sign {t : Token} {op : Operator} {inner : Tree} :
    t.kind = .operator op → op.isSign = true → Derives .unary inner →
      Derives .unary (.sign t op inner)
  | unary {tree : Tree} : Derives .unary tree → Derives (.binary 7) tree
  | tighter {level : Nat} {tree : Tree} :
    level < 7 → Derives (.binary (level + 1)) tree → Derives (.binary level) tree
  | binary {level : Nat} {left right : Tree} {t : Token} {op : Operator} :
    t.kind = .operator op → op.level? = some level → Derives (.binary level) left →
      Derives (.binary (level + 1)) right → Derives (.binary level) (.binary left t op right)

end Phrase

/-- Every level is below that of the signs. -/
theorem Operator.level?_lt {op : Operator} {level : Nat} (h : op.level? = some level) :
    level < 7 := by
  cases op <;> simp [Operator.level?] at h <;> omega

namespace Phrase

/-- A tree of a level is one of every looser level. -/
theorem Derives.looser {level least : Nat} {tree : Tree} (h : Derives (.binary level) tree)
    (hle : least ≤ level) (hlevel : level ≤ 7) : Derives (.binary least) tree := by
  induction hle with
  | refl => exact h
  | @step level hle ih => exact ih (Derives.tighter (by omega) h) (by omega)

/-- Nothing but a unary phrase is of the tightest level. -/
theorem Derives.unary_of_tightest {tree : Tree} (h : Derives (.binary 7) tree) :
    Derives .unary tree := by
  cases h with
  | unary h => exact h
  | tighter hlevel _ => exact absurd hlevel (Nat.lt_irrefl 7)
  | binary _ hop _ _ => exact absurd (Operator.level?_lt hop) (Nat.lt_irrefl 7)

theorem Derives.of_unary {level : Nat} {tree : Tree} (h : Derives .unary tree) (hle : level ≤ 7) :
    Derives (.binary level) tree :=
  (Derives.unary h).looser hle (Nat.le_refl 7)

/-- The tokens do not go on with the phrase. -/
def StopsAt (phrase : Phrase) : List Token → Prop
  | [] => True
  | t :: _ => ∀ op, t.kind = .operator op → (op = .power → phrase.admitsPower = false) ∧
    ∀ level, op.level? = some level → phrase.admitsLevel level = false

theorem stopsAt_primary (rest : List Token) : Phrase.primary.StopsAt rest := by
  cases rest with
  | nil => trivial
  | cons t rest => exact fun op _ => ⟨fun _ => rfl, fun _ _ => rfl⟩

/-- What does not go on with a phrase does not go on with a tighter one. -/
theorem StopsAt.tighter {level : Nat} {rest : List Token} (h : (Phrase.binary level).StopsAt rest) :
    (Phrase.binary (level + 1)).StopsAt rest := by
  cases rest with
  | nil => trivial
  | cons t rest =>
    intro op hop
    refine ⟨(h op hop).1, fun other hother => ?_⟩
    have hlevel := (h op hop).2 other hother
    simp only [admitsLevel, decide_eq_false_iff_not] at hlevel ⊢
    omega

theorem StopsAt.unary {level : Nat} {rest : List Token} (h : (Phrase.binary level).StopsAt rest) :
    Phrase.unary.StopsAt rest := by
  cases rest with
  | nil => trivial
  | cons t rest => exact fun op hop => ⟨(h op hop).1, fun _ _ => rfl⟩

/-- `**` goes on with a primary. -/
theorem not_stopsAt_power {t : Token} (ht : t.kind = .operator .power) (rest : List Token) :
    ¬ Phrase.power.StopsAt (t :: rest) := by
  intro h
  have hfalse := (h .power ht).1 rfl
  simp [admitsPower] at hfalse

end Phrase

/-! ## Unique trees -/

open Phrase

/-- Two trees of the phrase that the same tokens start with are equal, if no tokens go on with
either, and the first has at most this many tokens. -/
def Unique (phrase : Phrase) (size : Nat) : Prop :=
  ∀ ⦃first second : Tree⦄ ⦃rest rest' : List Token⦄, Derives phrase first → Derives phrase second →
    phrase.StopsAt rest → phrase.StopsAt rest' → first.tokens ++ rest = second.tokens ++ rest' →
    first.tokens.length ≤ size → first = second ∧ rest = rest'

theorem unique_primary {size : Nat} (h : ∀ smaller < size, Unique (.binary 0) smaller) :
    Unique .primary size := by
  intro first second rest rest' hfirst hsecond _ _ htokens hsize
  cases hfirst with
  | @operand t operand ht =>
    cases hsecond with
    | @operand t' operand' ht' =>
      simp only [Tree.tokens, List.singleton_append, List.cons.injEq] at htokens
      obtain ⟨rfl, rfl⟩ := htokens
      obtain rfl := Operand.kind_injective (ht.symm.trans ht')
      exact ⟨rfl, rfl⟩
    | paren hleft _ _ =>
      simp only [Tree.tokens, List.cons_append, List.cons.injEq] at htokens
      obtain ⟨rfl, -⟩ := htokens
      exact absurd (ht.symm.trans hleft) (operand.kind_ne_operator _)
  | @paren left right inner hleft hright hinner =>
    cases hsecond with
    | @operand t' operand' ht' =>
      simp only [Tree.tokens, List.cons_append, List.cons.injEq] at htokens
      obtain ⟨rfl, -⟩ := htokens
      exact absurd (ht'.symm.trans hleft) (operand'.kind_ne_operator _)
    | @paren left' right' inner' hleft' hright' hinner' =>
      simp only [Tree.tokens, List.cons_append, List.append_assoc, List.cons.injEq] at htokens
      obtain ⟨rfl, htokens⟩ := htokens
      have hstops : ∀ {t : Token} (more : List Token), t.kind = .operator .rightParen →
          (Phrase.binary 0).StopsAt (t :: more) := by
        intro t more ht op hop
        obtain rfl : Operator.rightParen = op := TokenKind.operator.inj (ht.symm.trans hop)
        simp [Operator.level?]
      simp only [Tree.tokens, List.length_cons, List.length_append, List.length_nil] at hsize
      obtain ⟨rfl, hrest⟩ := h inner.tokens.length (by omega) hinner hinner' (hstops _ hright)
        (hstops _ hright') htokens (Nat.le_refl _)
      obtain ⟨rfl, rfl⟩ := List.cons.inj hrest
      exact ⟨rfl, rfl⟩

theorem unique_power {size : Nat} (hprimary : Unique .primary size)
    (h : ∀ smaller < size, Unique .unary smaller) : Unique .power size := by
  intro first second rest rest' hfirst hsecond hstop hstop' htokens hsize
  cases hfirst with
  | base hfirst =>
    cases hsecond with
    | base hsecond =>
      exact hprimary hfirst hsecond (stopsAt_primary _) (stopsAt_primary _) htokens hsize
    | power ht hbase' hexponent' =>
      simp only [Tree.tokens, List.append_assoc, List.cons_append] at htokens
      obtain ⟨rfl, rfl⟩ :=
        hprimary hfirst hbase' (stopsAt_primary _) (stopsAt_primary _) htokens hsize
      exact absurd hstop (not_stopsAt_power ht _)
  | @power base exponent t ht hbase hexponent =>
    simp only [Tree.tokens, List.length_append, List.length_cons] at hsize
    cases hsecond with
    | base hsecond =>
      simp only [Tree.tokens, List.append_assoc, List.cons_append] at htokens
      obtain ⟨rfl, rfl⟩ := hprimary hbase hsecond (stopsAt_primary _) (stopsAt_primary _) htokens
        (by omega)
      exact absurd hstop' (not_stopsAt_power ht _)
    | @power base' exponent' t' ht' hbase' hexponent' =>
      simp only [Tree.tokens, List.append_assoc, List.cons_append] at htokens
      obtain ⟨rfl, htail⟩ := hprimary hbase hbase' (stopsAt_primary _) (stopsAt_primary _) htokens
        (by omega)
      obtain ⟨rfl, hright⟩ := List.cons.inj htail
      obtain ⟨rfl, rfl⟩ :=
        h exponent.tokens.length (by omega) hexponent hexponent' hstop hstop' hright
        (Nat.le_refl _)
      exact ⟨rfl, rfl⟩

/-- A tree without a sign in front starts with an operand or with a parenthesis. -/
theorem Phrase.Derives.head_power {tree : Tree} (h : Derives .power tree) :
    ∃ t rest, tree.tokens = t :: rest ∧ ∀ op, t.kind = .operator op → op.isSign = false := by
  have hprimary : ∀ {tree : Tree}, Derives .primary tree →
      ∃ t rest, tree.tokens = t :: rest ∧ ∀ op, t.kind = .operator op → op.isSign = false := by
    intro tree h
    cases h with
    | @operand t operand ht =>
      exact ⟨t, [], rfl, fun op hop => absurd (ht.symm.trans hop) (operand.kind_ne_operator op)⟩
    | @paren left right inner hleft _ _ =>
      refine ⟨left, _, rfl, fun op hop => ?_⟩
      obtain rfl : Operator.leftParen = op := TokenKind.operator.inj (hleft.symm.trans hop)
      rfl
  cases h with
  | base h => exact hprimary h
  | @power base exponent t ht hbase _ =>
    obtain ⟨t', rest, htokens, hsign⟩ := hprimary hbase
    refine ⟨t', rest ++ t :: exponent.tokens, ?_, hsign⟩
    rw [Tree.tokens, htokens, List.cons_append]

theorem unique_unary {size : Nat} (hpower : Unique .power size)
    (h : ∀ smaller < size, Unique .unary smaller) : Unique .unary size := by
  intro first second rest rest' hfirst hsecond hstop hstop' htokens hsize
  -- a sign is neither an operand nor a parenthesis
  have hsigned : ∀ {tree : Tree} {t : Token} {op : Operator} {more after : List Token},
      Derives .power tree → t.kind = .operator op → op.isSign = true →
        tree.tokens ++ more ≠ t :: after := by
    intro tree t op more after htree hop hsign heq
    obtain ⟨t', tail, htail, hplain⟩ := htree.head_power
    rw [htail, List.cons_append, List.cons.injEq] at heq
    obtain ⟨rfl, -⟩ := heq
    rw [hplain op hop] at hsign
    cases hsign
  cases hfirst with
  | unsigned hfirst =>
    cases hsecond with
    | unsigned hsecond => exact hpower hfirst hsecond hstop hstop' htokens hsize
    | sign hop hsign hinner => exact absurd htokens (hsigned hfirst hop hsign)
  | @sign t op inner hop hsign hinner =>
    cases hsecond with
    | unsigned hsecond => exact absurd htokens.symm (hsigned hsecond hop hsign)
    | @sign t' op' inner' hop' hsign' hinner' =>
      simp only [Tree.tokens, List.cons_append, List.length_cons] at htokens hsize
      obtain ⟨rfl, htail⟩ := List.cons.inj htokens
      obtain rfl : op = op' := TokenKind.operator.inj (hop.symm.trans hop')
      obtain ⟨rfl, rfl⟩ := h inner.tokens.length (by omega) hinner hinner' hstop hstop' htail
        (Nat.le_refl _)
      exact ⟨rfl, rfl⟩

/-! ## Left-associative phrases -/

/-- An operator of a level and the operand on its right. -/
structure Link (level : Nat) where
  t : Token
  op : Operator
  right : Tree
  kind_eq : t.kind = .operator op
  level_eq : op.level? = some level
  derives : Derives (.binary (level + 1)) right

namespace Link

variable {level : Nat}

/-- The tree of a first operand and links. -/
def chain (first : Tree) (links : List (Link level)) : Tree :=
  links.foldl (fun left link => .binary left link.t link.op link.right) first

/-- The tokens of links. -/
def tokens (links : List (Link level)) : List Token :=
  links.flatMap fun link => link.t :: link.right.tokens

theorem tokens_chain (first : Tree) (links : List (Link level)) :
    (chain first links).tokens = first.tokens ++ tokens links := by
  induction links generalizing first with
  | nil => simp [chain, tokens]
  | cons link links ih =>
    have hstep : chain first (link :: links) =
        chain (.binary first link.t link.op link.right) links := rfl
    rw [hstep, ih, Tree.tokens, List.append_assoc]
    rfl

/-- Every tree of a level is a chain of trees of the next. -/
theorem exists_chain (hlevel : level < 7) {tree : Tree} (h : Derives (.binary level) tree) :
    ∃ first, ∃ links : List (Link level), Derives (.binary (level + 1)) first ∧
      tree = chain first links := by
  generalize hphrase : Phrase.binary level = phrase at h
  induction h with
  | tighter _ h _ =>
    obtain rfl := Phrase.binary.inj hphrase
    exact ⟨_, [], h, rfl⟩
  | @binary level' left right t op hkind hop _ hright ih _ =>
    obtain rfl := Phrase.binary.inj hphrase
    obtain ⟨first, links, hfirst, rfl⟩ := ih rfl
    refine ⟨first, links ++ [⟨t, op, right, hkind, hop, hright⟩], hfirst, ?_⟩
    simp only [chain, List.foldl_append, List.foldl_cons, List.foldl_nil]
  | unary _ _ =>
    obtain rfl := Phrase.binary.inj hphrase
    exact absurd hlevel (Nat.lt_irrefl 7)
  | _ => cases hphrase

/-- Links do not go on with a tighter phrase, nor does what comes after them. -/
theorem stopsAt_tokens (links : List (Link level)) {rest : List Token}
    (h : (Phrase.binary level).StopsAt rest) :
    (Phrase.binary (level + 1)).StopsAt (tokens links ++ rest) := by
  cases links with
  | nil => exact h.tighter
  | cons link links =>
    intro op hop
    obtain rfl : link.op = op := TokenKind.operator.inj (link.kind_eq.symm.trans hop)
    refine ⟨fun hpower => ?_, fun other hother => ?_⟩
    · have hlevel := link.level_eq
      rw [hpower] at hlevel
      cases hlevel
    · obtain rfl : level = other := Option.some.inj (link.level_eq.symm.trans hother)
      simp [admitsLevel]

/-- A link goes on with its phrase. -/
theorem not_stopsAt_cons (link : Link level) (links : List (Link level)) (rest : List Token) :
    ¬ (Phrase.binary level).StopsAt (tokens (link :: links) ++ rest) := by
  intro h
  have hlevel := (h link.op link.kind_eq).2 level link.level_eq
  simp [admitsLevel] at hlevel

theorem ext_of_eq {first second : Link level} (ht : first.t = second.t)
    (hright : first.right = second.right) : first = second := by
  obtain ⟨t, op, right, hkind, _, _⟩ := first
  obtain ⟨t', op', right', hkind', _, _⟩ := second
  obtain rfl : t = t' := ht
  obtain rfl : right = right' := hright
  obtain rfl : op = op' := TokenKind.operator.inj (hkind.symm.trans hkind')
  rfl

/-- Links are compared one after another. -/
theorem unique_links {size : Nat} (h : Unique (.binary (level + 1)) size)
    {links links' : List (Link level)} {rest rest' : List Token}
    (hstop : (Phrase.binary level).StopsAt rest) (hstop' : (Phrase.binary level).StopsAt rest')
    (htokens : tokens links ++ rest = tokens links' ++ rest')
    (hsize : (tokens links).length ≤ size) :
    links = links' ∧ rest = rest' := by
  induction links generalizing links' with
  | nil =>
    cases links' with
    | nil => exact ⟨rfl, htokens⟩
    | cons link' links' =>
      obtain rfl : rest = tokens (link' :: links') ++ rest' := htokens
      exact absurd hstop (link'.not_stopsAt_cons links' rest')
  | cons link links ih =>
    cases links' with
    | nil =>
      obtain rfl : tokens (link :: links) ++ rest = rest' := htokens
      exact absurd hstop' (link.not_stopsAt_cons links rest)
    | cons link' links' =>
      simp only [tokens, List.flatMap_cons, List.cons_append, List.append_assoc, List.length_cons,
        List.length_append] at htokens hsize
      obtain ⟨ht, htail⟩ := List.cons.inj htokens
      obtain ⟨hright, htail⟩ := h link.derives link'.derives (stopsAt_tokens links hstop)
        (stopsAt_tokens links' hstop') htail (by omega)
      obtain ⟨rfl, rfl⟩ := ih htail (by simp only [tokens]; omega)
      exact ⟨by rw [ext_of_eq ht hright], rfl⟩

end Link

theorem unique_binary {level size : Nat} (hlevel : level < 7)
    (h : Unique (.binary (level + 1)) size) : Unique (.binary level) size := by
  intro tree tree' rest rest' htree htree' hstop hstop' htokens hsize
  obtain ⟨first, links, hfirst, rfl⟩ := Link.exists_chain hlevel htree
  obtain ⟨first', links', hfirst', rfl⟩ := Link.exists_chain hlevel htree'
  rw [Link.tokens_chain, Link.tokens_chain, List.append_assoc, List.append_assoc] at htokens
  rw [Link.tokens_chain, List.length_append] at hsize
  obtain ⟨rfl, htail⟩ := h hfirst hfirst' (Link.stopsAt_tokens links hstop)
    (Link.stopsAt_tokens links' hstop') htokens (by omega)
  obtain ⟨rfl, rfl⟩ := Link.unique_links h hstop hstop' htail (by omega)
  exact ⟨rfl, rfl⟩

/-- The binary phrases, from the tightest to the loosest. -/
theorem unique_of_unary {size : Nat} (h : Unique .unary size) (steps : Nat) (hsteps : steps ≤ 7) :
    Unique (.binary (7 - steps)) size := by
  induction steps with
  | zero =>
    intro first second rest rest' hfirst hsecond hstop hstop' htokens hsize
    exact h hfirst.unary_of_tightest hsecond.unary_of_tightest hstop.unary hstop'.unary
      htokens hsize
  | succ steps ih =>
    have hnext : 7 - (steps + 1) + 1 = 7 - steps := by omega
    refine unique_binary (by omega) ?_
    rw [hnext]
    exact ih (by omega)

/-- Signed phrases and whole expressions have unique trees, whatever their size. -/
theorem unique_unary_expression (size : Nat) : Unique .unary size ∧ Unique .expression size := by
  induction size using Nat.strongRecOn with
  | ind size ih =>
    have hprimary := unique_primary fun smaller hlt => (ih smaller hlt).2
    have hpower := unique_power hprimary fun smaller hlt => (ih smaller hlt).1
    have hunary := unique_unary hpower fun smaller hlt => (ih smaller hlt).1
    exact ⟨hunary, unique_of_unary hunary 7 (Nat.le_refl 7)⟩

/-- No tokens have two trees. -/
theorem Expression.Tree.eq_of_tokens_eq {first second : Tree} (hfirst : Derives .expression first)
    (hsecond : Derives .expression second) (h : first.tokens = second.tokens) : first = second := by
  have hstop : Phrase.expression.StopsAt [] := trivial
  have htokens : first.tokens ++ [] = second.tokens ++ [] := by rw [h]
  exact ((unique_unary_expression first.tokens.length).2 hfirst hsecond hstop hstop htokens
    (Nat.le_refl _)).1

end TokenScript
