import Mathlib.Data.Set.Basic
import TokenScript.Expression

/-!
# The names in an expression

The value of an expression depends on the variables that it names, and on no others: stores that
agree on these names give the same value or the same failure.  The reader looks at a store in one
case only, when it meets a name.

* `namesIn`: the names that stand among tokens.
* `Phrase.read_congr`: reading a phrase with another store.
* `Expression.evaluateFrom_congr`: the expression at an index of some code.
-/

namespace TokenScript

/-- The names that stand among tokens. -/
def namesIn (tokens : Array Token) : Set String := {name | ∃ t ∈ tokens, t.identifier? = some name}

theorem mem_namesIn {tokens : Array Token} {index : Nat} {t : Token} {name : String}
    (ht : tokens[index]? = some t) (hname : t.identifier? = some name) : name ∈ namesIn tokens :=
  ⟨t, Array.mem_of_getElem? ht, hname⟩

/-- A part of the tokens has no other names. -/
theorem namesIn_extract (tokens : Array Token) (start stop : Nat) :
    namesIn (tokens.extract start stop) ⊆ namesIn tokens := by
  rintro name ⟨t, ht, hname⟩
  obtain ⟨index, hindex⟩ := Array.mem_iff_getElem?.1 ht
  rw [Array.getElem?_extract] at hindex
  split at hindex
  · exact mem_namesIn hindex hname
  · cases hindex

/-- The stores agree on the names. -/
def Store.AgreeOn (names : Set String) (store other : Store) : Prop :=
  ∀ name ∈ names, store.get? name = other.get? name

/-- Reading looks up no names but those of the tokens. -/
theorem Phrase.read_congr {store other : Store} {tokens : List Token}
    (h : ∀ t ∈ tokens, ∀ name, t.identifier? = some name → store.get? name = other.get? name)
    (phrase : Phrase) (last : Span) (value : Option Value) (waiting : List Pending)
    (outer : List Enclosing) :
    phrase.read store last value waiting outer tokens =
      phrase.read other last value waiting outer tokens := by
  induction tokens generalizing value waiting outer with
  | nil => cases value <;> rfl
  | cons t rest ih =>
    obtain ⟨hfirst, hrest⟩ := List.forall_mem_cons.1 h
    have ih := ih hrest
    cases value with
    | none =>
      simp only [read, ih]
      cases hkind : t.kind with
      | identifier name =>
        have hname : t.identifier? = some name := by simp only [Token.identifier?, hkind]
        simp only [hfirst name hname]
      | _ => rfl
    | some value => simp only [read, ih]

namespace Expression

/-- Stores that agree on the names in the code give an expression of the code the same value, or the
same failure. -/
theorem evaluateFrom_congr {tokens : Array Token} {store other : Store}
    (h : store.AgreeOn (namesIn tokens) other) (start : Nat) :
    evaluateFrom tokens start store = evaluateFrom tokens start other := by
  have hrun : ∀ t ∈ runFrom tokens start, ∀ name, t.identifier? = some name →
      store.get? name = other.get? name := by
    intro t ht name hname
    exact h name (namesIn_extract tokens start _ ⟨t, Array.mem_toList_iff.1 ht, hname⟩)
  rw [evaluateFrom, evaluateFrom, evaluate, evaluate, Phrase.read_congr hrun]

end Expression
end TokenScript
