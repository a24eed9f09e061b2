/-!
# Similar words

The similarity of two words is a number from zero to one.  A character of the first word has a
partner if the second word has the same character near the same place, and each character is the
partner of at most one other.  The characters that have partners form a word on either side; where
these two words differ, two characters are out of order.  The similarity is the mean of three
parts: the parts of the two words that have partners, and the part of the partners that is in order.

It is computed in binary64, one operation after the other, and similarities are compared as such.
-/

namespace TokenScript.Text.Similarity

/-- A character of the second word, and whether it is a partner already. -/
structure Slot where
  char : Char
  taken : Bool
  deriving DecidableEq, Repr

/-- Takes the first free slot that holds the character and whose place lies from `low` to `high`;
the first slot of the list stands at `place`. -/
def take? (c : Char) (low high place : Nat) : List Slot → Option (List Slot)
  | [] => none
  | slot :: rest =>
    if low ≤ place ∧ place ≤ high ∧ slot.char = c ∧ slot.taken = false then
      some ({ slot with taken := true } :: rest)
    else (take? c low high (place + 1) rest).map (slot :: ·)

/-- The search for partners: the place in the first word, its characters with a partner, the last
one first, and the second word. -/
structure Search where
  place : Nat
  found : List Char
  slots : List Slot

/-- Looks for a partner of the next character, at most `reach` places away. -/
def Search.step (reach : Nat) (search : Search) (c : Char) : Search :=
  let place := search.place
  match take? c (place - reach) (place + reach) 0 search.slots with
  | some slots => ⟨place + 1, c :: search.found, slots⟩
  | none => { search with place := place + 1 }

/-- How far partners may be apart in words of these lengths. -/
def reach (m n : Nat) : Nat := max m n / 2 - 1

/-- The characters with partners, of either word, in order. -/
def partners (a b : List Char) : List Char × List Char :=
  let search := a.foldl (Search.step (reach a.length b.length)) ⟨0, [], b.map (⟨·, false⟩)⟩
  (search.found.reverse, (search.slots.filter (·.taken)).map (·.char))

/-- How many pairs of partners are out of order. -/
def transpositions (partners : List Char × List Char) : Nat :=
  ((partners.1.zip partners.2).filter fun pair => pair.1 ≠ pair.2).length / 2

/-- The quotient of two numbers in binary64. -/
def ratio (m n : Nat) : Float := Float.ofInt m / Float.ofInt n

/-- The similarity of two words. -/
def similarity (a b : List Char) : Float :=
  let partners := partners a b
  let count := partners.1.length
  if a = [] ∧ b = [] then 1
  else if count = 0 then 0
  else
    let ordered := count - transpositions partners
    (ratio count a.length + ratio count b.length + ratio ordered count) / 3

/-- Words that are not more similar than this are different words. -/
def threshold : Float := 0.7

/-- The more similar of two words that are similar at all; of two that are equally similar, the
second. -/
def closer (word : String) (best : Option (Float × String)) (candidate : String) :
    Option (Float × String) :=
  let degree := similarity word.toList candidate.toList
  if threshold < degree then
    match best with
    | some (other, _) => if degree < other then best else some (degree, candidate)
    | none => some (degree, candidate)
  else best

/-- The candidate that is most similar to a word, if one is similar. -/
def closest? (word : String) (candidates : List String) : Option String :=
  (candidates.foldl (closer word) none).map (·.2)

end TokenScript.Text.Similarity
