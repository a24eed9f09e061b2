/-!
# Words

The integers of a script are signed 64-bit words.  The library computes with integers without bounds
and asks at the end whether a word can hold the result, so the only question about words is which
integers they are.
-/

namespace TokenScript.Word

/-- The least integer that a word can hold. -/
def least : Int := -9223372036854775808

/-- The greatest integer that a word can hold. -/
def greatest : Int := 9223372036854775807

/-- The word that holds an integer, if there is one. -/
def ofInt? (n : Int) : Option Int64 :=
  if least ≤ n ∧ n ≤ greatest then some (Int64.ofInt n) else none

/-- Every word lies between the two bounds. -/
theorem bounds_toInt (word : Int64) : least ≤ word.toInt ∧ word.toInt ≤ greatest := by
  have low := word.le_toInt
  have high := word.toInt_lt
  simp only [least, greatest]
  omega

/-- The word that holds an integer is the one that is worth it. -/
theorem ofInt?_eq_some_iff {n : Int} {word : Int64} : ofInt? n = some word ↔ word.toInt = n := by
  constructor
  · intro h
    unfold ofInt? at h
    split at h
    · next bounds =>
      obtain ⟨low, high⟩ := bounds
      obtain rfl := Option.some.inj h
      simp only [least, greatest] at low high
      exact Int64.toInt_ofInt_of_le (by omega) (by omega)
    · simp at h
  · rintro rfl
    rw [ofInt?, if_pos (bounds_toInt word), Int64.ofInt_toInt]

/-- No word holds an integer beyond the bounds. -/
theorem ofInt?_eq_none_iff {n : Int} : ofInt? n = none ↔ n < least ∨ greatest < n := by
  unfold ofInt?
  split
  · next bounds =>
    constructor
    · simp
    · rintro (h | h)
      · exact absurd bounds.1 (Int.not_le.2 h)
      · exact absurd bounds.2 (Int.not_le.2 h)
  · next bounds =>
    simp only [true_iff]
    omega

end TokenScript.Word
