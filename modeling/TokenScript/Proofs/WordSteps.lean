import Mathlib.Algebra.Ring.Int.Defs
import Mathlib.Algebra.Ring.Nat
import TokenScript.Value.Operation

/-!
# Operators in words

The library combines integers without bounds and asks at the end whether a word can hold the result.
A machine has nothing but words, and gets to the floor of a quotient in steps: it divides towards
zero and then takes one off, or adds the divisor to the remainder; and it shifts to the left and
then back to see whether something was lost.  Some steps are checked, so that the operator can
refuse the result.  The others are not, and a machine that leaves the words in one of them cannot go
on.  None of them does, and the results are those of the library.

* `Word.floorQuotient`, `Word.floorRemainder`, `Word.shiftLeft`, `Word.shiftRight`: the steps.
* `Word.floorQuotient_eq`, `Word.floorRemainder_eq`, `Word.shiftLeft_eq`, `Word.shiftRight_eq`: none
  of them leaves the words, and this is what they come to.
* `Operator.applyInWords_eq`, `Operator.signInWords_eq`: all operators.
-/

namespace TokenScript

namespace Word

/-! ## Single steps -/

/-- The sum, if a word holds it. -/
def add? (a b : Int64) : Option Int64 := ofInt? (a.toInt + b.toInt)

/-- The difference, if a word holds it. -/
def sub? (a b : Int64) : Option Int64 := ofInt? (a.toInt - b.toInt)

/-- The product, if a word holds it. -/
def mul? (a b : Int64) : Option Int64 := ofInt? (a.toInt * b.toInt)

/-- The opposite, if a word holds it. -/
def neg? (a : Int64) : Option Int64 := ofInt? (-a.toInt)

/-- The quotient towards zero.  There is none by zero, and no word holds that of the least word by
minus one. -/
def quotient? (a b : Int64) : Option Int64 :=
  if b.toInt = 0 then none else ofInt? (a.toInt.tdiv b.toInt)

/-- The remainder of the division towards zero.  There is one where there is a quotient. -/
def remainder? (a b : Int64) : Option Int64 :=
  (quotient? a b).bind fun _ => ofInt? (a.toInt.tmod b.toInt)

/-- The word with its bits moved up; bits that leave it are lost.  A word has 64 bits. -/
def moveUp? (a : Int64) (count : Nat) : Option Int64 :=
  if count < 64 then some (.ofBitVec (a.toBitVec <<< count)) else none

/-- The word with its bits moved down, and its sign in their place. -/
def moveDown? (a : Int64) (count : Nat) : Option Int64 :=
  if count < 64 then some (.ofBitVec (a.toBitVec.sshiftRight count)) else none

/-! ## Operators in steps

The outer option is `none` when a step that is not checked leaves the words, and the inner one when
a step that is checked does. -/

/-- Divides towards zero, and takes one off if something is left over and the signs differ. -/
def floorQuotient (a b : Int64) : Option (Option Int64) :=
  match quotient? a b with
  | none => some none
  | some q =>
    (remainder? a b).bind fun r =>
      if r.toInt ≠ 0 ∧ decide (a.toInt < 0) ≠ decide (b.toInt < 0) then (sub? q 1).map some
      else some (some q)

/-- Takes the remainder towards zero, and adds the divisor if the signs differ. -/
def floorRemainder (a b : Int64) : Option (Option Int64) :=
  match remainder? a b with
  | none => some none
  | some r =>
    if r.toInt ≠ 0 ∧ decide (r.toInt < 0) ≠ decide (b.toInt < 0) then (add? r b).map some
    else some (some r)

/-- Moves the bits up, and back to see whether one was lost. -/
def shiftLeft (a : Int64) (count : Nat) : Option (Option Int64) :=
  match moveUp? a count with
  | none => some none
  | some up => (moveDown? up count).map fun back => if back = a then some up else none

/-- Moves the bits down; when none of them is left, the sign is. -/
def shiftRight (a : Int64) (count : Nat) : Option (Option Int64) :=
  some (some ((moveDown? a count).getD (if a.toInt < 0 then -1 else 0)))

/-! ## The floor of a quotient -/

theorem exists_word {n : Int} (hleast : least ≤ n) (hgreatest : n ≤ greatest) :
    ∃ word : Int64, word.toInt = n :=
  ⟨_, ofInt?_eq_some_iff.1 (if_pos ⟨hleast, hgreatest⟩)⟩

theorem tmod_neg_iff {a b : Int} (h : a.tmod b ≠ 0) : a.tmod b < 0 ↔ a < 0 := by
  have hdvd : ¬ b ∣ a := fun hdvd => h (Int.dvd_iff_tmod_eq_zero.1 hdvd)
  have hsign := Int.sign_tmod a b
  rw [if_neg hdvd] at hsign
  rw [← Int.sign_eq_neg_one_iff_neg, hsign, Int.sign_eq_neg_one_iff_neg]

theorem fdiv_eq_adjusted {a b : Int} (hb : b ≠ 0) :
    a.fdiv b =
      if a.tmod b ≠ 0 ∧ decide (a < 0) ≠ decide (b < 0) then a.tdiv b - 1 else a.tdiv b := by
  have hdvd : b ∣ a ↔ a.tmod b = 0 := Int.dvd_iff_tmod_eq_zero
  rw [Int.fdiv_eq_tdiv]
  by_cases hr : a.tmod b = 0
  · rw [if_pos (hdvd.2 hr), if_neg fun h => h.1 hr, Int.sub_zero]
  · rw [if_neg (mt hdvd.1 hr)]
    simp only [ne_eq, hr, not_false_eq_true, true_and, decide_eq_decide]
    rcases Int.lt_or_gt_of_ne hb with hneg | hpos
    · rw [Int.sign_eq_neg_one_of_neg hneg]
      omega
    · rw [Int.sign_eq_one_of_pos hpos]
      omega

theorem fmod_eq_adjusted {a b : Int} :
    a.fmod b =
      if a.tmod b ≠ 0 ∧ decide (a.tmod b < 0) ≠ decide (b < 0) then a.tmod b + b else a.tmod b := by
  have hdvd : b ∣ a ↔ a.tmod b = 0 := Int.dvd_iff_tmod_eq_zero
  rw [Int.fmod_eq_tmod]
  by_cases hr : a.tmod b = 0
  · rw [if_pos (hdvd.2 hr), if_neg fun h => h.1 hr, Int.add_zero]
  · have hsign : a.tmod b < 0 ↔ a < 0 := tmod_neg_iff hr
    rw [if_neg (mt hdvd.1 hr)]
    simp only [ne_eq, hr, not_false_eq_true, true_and, hsign, decide_eq_decide]
    omega

section

variable {a b : Int64}

/-- Where something is left over, the quotient is far from the ends of the words. -/
theorem natAbs_tdiv_le {a b : Int} (h : 2 ≤ b.natAbs) : (a.tdiv b).natAbs ≤ a.natAbs / 2 := by
  rw [Int.natAbs_tdiv]
  exact Nat.div_le_div_left h (by decide)

theorem two_le_natAbs {a b : Int} (hb : b ≠ 0) (h : a.tmod b ≠ 0) : 2 ≤ b.natAbs := by
  refine Nat.lt_of_not_le fun hle => ?_
  have hone : b.natAbs = 1 := by omega
  have hmod := Int.natAbs_tmod a b
  rw [hone, Nat.mod_one] at hmod
  exact h (Int.natAbs_eq_zero.1 hmod)

/-- A word holds the quotient, except for one pair of words. -/
theorem exists_quotient (hb : b.toInt ≠ 0) (h : ¬ (a.toInt = least ∧ b.toInt = -1)) :
    ∃ q : Int64, q.toInt = a.toInt.tdiv b.toInt := by
  have ha := bounds_toInt a
  simp only [least, greatest] at ha h
  have hrange : least ≤ a.toInt.tdiv b.toInt ∧ a.toInt.tdiv b.toInt ≤ greatest := by
    simp only [least, greatest]
    by_cases hlarge : 2 ≤ b.toInt.natAbs
    · have hhalf : (a.toInt.tdiv b.toInt).natAbs ≤ a.toInt.natAbs / 2 := natAbs_tdiv_le hlarge
      omega
    · rcases (show b.toInt = 1 ∨ b.toInt = -1 by omega) with hone | hone
      · rw [hone, Int.tdiv_one]
        omega
      · rw [hone, Int.tdiv_neg, Int.tdiv_one]
        omega
  exact exists_word hrange.1 hrange.2

/-- A word holds every remainder. -/
theorem exists_remainder (hb : b.toInt ≠ 0) : ∃ r : Int64, r.toInt = a.toInt.tmod b.toInt := by
  have hbounds := bounds_toInt b
  have hlt : (a.toInt.tmod b.toInt).natAbs < b.toInt.natAbs := by
    rw [Int.natAbs_tmod]
    exact Nat.mod_lt _ (by omega)
  simp only [least, greatest] at hbounds
  exact exists_word (by simp only [least]; omega) (by simp only [greatest]; omega)

theorem quotient?_eq_none (ha : a.toInt = least) (hb : b.toInt = -1) : quotient? a b = none := by
  rw [quotient?, ha, hb]
  rfl

theorem quotient?_eq_some (hb : b.toInt ≠ 0) {q : Int64} (hq : q.toInt = a.toInt.tdiv b.toInt) :
    quotient? a b = some q := by
  rw [quotient?, if_neg hb, ofInt?_eq_some_iff.2 hq]

/-- The steps to the floor of a quotient. -/
theorem floorQuotient_eq (hb : b.toInt ≠ 0) :
    floorQuotient a b = some (ofInt? (a.toInt.fdiv b.toInt)) := by
  by_cases hescapes : a.toInt = least ∧ b.toInt = -1
  · obtain ⟨ha, hminus⟩ := hescapes
    rw [floorQuotient, quotient?_eq_none ha hminus, ha, hminus]
    rfl
  · obtain ⟨q, hq⟩ := exists_quotient hb hescapes
    obtain ⟨r, hr⟩ := exists_remainder (a := a) hb
    have hquotient := quotient?_eq_some hb hq
    have hremainder : remainder? a b = some r := by
      rw [remainder?, hquotient, Option.bind_some, ofInt?_eq_some_iff.2 hr]
    simp only [floorQuotient, hquotient, hremainder, Option.bind_some, hr, fdiv_eq_adjusted hb]
    split
    · next hadjust =>
      have hhalf : (a.toInt.tdiv b.toInt).natAbs ≤ a.toInt.natAbs / 2 :=
        natAbs_tdiv_le (two_le_natAbs hb hadjust.1)
      have ha := bounds_toInt a
      simp only [least, greatest] at ha
      obtain ⟨w, hw⟩ : ∃ w : Int64, w.toInt = a.toInt.tdiv b.toInt - 1 :=
        exists_word (by simp only [least]; omega) (by simp only [greatest]; omega)
      rw [sub?, hq, show (1 : Int64).toInt = 1 from rfl, ofInt?_eq_some_iff.2 hw]
      rfl
    · rw [ofInt?_eq_some_iff.2 hq]

/-- The steps to the remainder with the sign of the divisor. -/
theorem floorRemainder_eq (hb : b.toInt ≠ 0) :
    floorRemainder a b =
      some (if Operator.quotientEscapes a.toInt b.toInt then none
        else ofInt? (a.toInt.fmod b.toInt)) := by
  by_cases hescapes : a.toInt = least ∧ b.toInt = -1
  · obtain ⟨ha, hminus⟩ := hescapes
    rw [floorRemainder, remainder?, quotient?_eq_none ha hminus, ha, hminus]
    rfl
  · obtain ⟨q, hq⟩ := exists_quotient hb hescapes
    obtain ⟨r, hr⟩ := exists_remainder (a := a) hb
    have hremainder : remainder? a b = some r := by
      rw [remainder?, quotient?_eq_some hb hq, Option.bind_some, ofInt?_eq_some_iff.2 hr]
    have hstays : Operator.quotientEscapes a.toInt b.toInt = false := by
      simpa [Operator.quotientEscapes] using hescapes
    simp only [floorRemainder, hremainder, hr, hstays, Bool.false_eq_true, if_false,
      fmod_eq_adjusted]
    split
    · next hadjust =>
      have hlt : (a.toInt.tmod b.toInt).natAbs < b.toInt.natAbs := by
        rw [Int.natAbs_tmod]
        exact Nat.mod_lt _ (by omega)
      have hbounds := bounds_toInt b
      simp only [least, greatest] at hbounds
      -- the signs differ, so the sum is nearer to zero than the divisor
      have hsigns : a.toInt.tmod b.toInt < 0 ↔ ¬ b.toInt < 0 := by
        have hne := hadjust.2
        by_cases hneg : b.toInt < 0 <;> simpa [hneg] using hne
      obtain ⟨w, hw⟩ : ∃ w : Int64, w.toInt = a.toInt.tmod b.toInt + b.toInt :=
        exists_word (by simp only [least]; omega) (by simp only [greatest]; omega)
      rw [add?, hr, ofInt?_eq_some_iff.2 hw]
      rfl
    · rw [ofInt?_eq_some_iff.2 hr]

end

/-! ## Shifts -/

/-- Moving bits down divides towards the floor. -/
theorem toInt_moveDown (a : Int64) (count : Nat) :
    (Int64.ofBitVec (a.toBitVec.sshiftRight count)).toInt = a.toInt.fdiv (2 ^ count) := by
  have hpow : (0 : Int) ≤ 2 ^ count := Int.pow_nonneg (by decide)
  calc (a.toBitVec.sshiftRight count).toInt
    _ = a.toInt >>> count := BitVec.toInt_sshiftRight
    _ = a.toInt / 2 ^ count := by rw [Int.shiftRight_eq_div_pow, Int.natCast_pow]; rfl
    _ = a.toInt.fdiv (2 ^ count) := (Int.fdiv_eq_ediv_of_nonneg _ hpow).symm

/-- Moving bits up multiplies, as far as the bits that are left can tell. -/
theorem toInt_moveUp (a : Int64) (count : Nat) :
    (Int64.ofBitVec (a.toBitVec <<< count)).toInt = (a.toInt * 2 ^ count).bmod (2 ^ 64) := by
  have hword : a.toInt = (a.toBitVec.toNat : Int).bmod (2 ^ 64) := BitVec.toInt_eq_toNat_bmod _
  calc (a.toBitVec <<< count).toInt
    _ = ((a.toBitVec.toNat <<< count : Nat) : Int).bmod (2 ^ 64) := BitVec.toInt_shiftLeft
    _ = ((a.toBitVec.toNat : Int) * 2 ^ count).bmod (2 ^ 64) := by
      rw [Nat.shiftLeft_eq, Int.natCast_mul, Int.natCast_pow]; rfl
    _ = (a.toInt * 2 ^ count).bmod (2 ^ 64) := by rw [hword, Int.bmod_mul_bmod]

/-- A product comes back from the bits that are left just if none was lost. -/
theorem fdiv_bmod_eq_iff (n : Int) {count : Nat} (hcount : count ≤ 64) :
    ((n * 2 ^ count).bmod (2 ^ 64)).fdiv (2 ^ count) = n ↔
      (n * 2 ^ count).bmod (2 ^ 64) = n * 2 ^ count := by
  have hpow : (2 : Int) ^ count ≠ 0 := Int.pow_ne_zero (by decide)
  constructor
  · intro hback
    have hwhole : (2 : Int) ^ count ∣ ((2 ^ 64 : Nat) : Int) := by
      exact_mod_cast Nat.pow_dvd_pow 2 hcount
    have hdvd : (2 : Int) ^ count ∣ (n * 2 ^ count).bmod (2 ^ 64) := by
      have hdiff := Int.dvd_trans hwhole (Int.dvd_bmod_sub_self (x := n * 2 ^ count))
      have hsum := Int.dvd_add hdiff (Int.dvd_mul_left n (2 ^ count))
      rwa [Int.sub_add_cancel] at hsum
    rw [← Int.fdiv_mul_cancel hdvd, hback]
  · intro hkept
    rw [hkept, Int.mul_fdiv_cancel _ hpow]

theorem bmod_eq_self_iff {n : Int} : n.bmod (2 ^ 64) = n ↔ least ≤ n ∧ n ≤ greatest := by
  simp only [least, greatest]
  constructor
  · intro heq
    have hlow := Int.le_bmod (x := n) (m := 2 ^ 64) (by decide)
    have hhigh := Int.bmod_lt (x := n) (m := 2 ^ 64) (by decide)
    omega
  · rintro ⟨hlow, hhigh⟩
    exact Int.bmod_eq_of_le (by omega) (by omega)

/-- The steps of a shift to the left. -/
theorem shiftLeft_eq (a : Int64) (count : Nat) :
    shiftLeft a count = some (if 64 ≤ count then none else ofInt? (a.toInt * 2 ^ count)) := by
  by_cases hcount : 64 ≤ count
  · rw [if_pos hcount, shiftLeft, moveUp?, if_neg (Nat.not_lt.2 hcount)]
  · have hlt : count < 64 := Nat.lt_of_not_le hcount
    have hup := toInt_moveUp a count
    have hdown := toInt_moveDown (Int64.ofBitVec (a.toBitVec <<< count)) count
    rw [hup] at hdown
    rw [if_neg hcount, shiftLeft, moveUp?, if_pos hlt]
    simp only [moveDown?, if_pos hlt, Option.map_some, ← Int64.toInt_inj, hdown,
      fdiv_bmod_eq_iff a.toInt (Nat.le_of_lt hlt)]
    by_cases hkept : (a.toInt * 2 ^ count).bmod (2 ^ 64) = a.toInt * 2 ^ count
    · rw [if_pos hkept, ofInt?_eq_some_iff.2 (hup.trans hkept)]
    · have hout := fun hbounds => hkept (bmod_eq_self_iff.2 hbounds)
      rw [if_neg hkept, ofInt?, if_neg hout]

/-- The steps of a shift to the right. -/
theorem shiftRight_eq (a : Int64) (count : Nat) :
    shiftRight a count = some (ofInt? (a.toInt.fdiv (2 ^ min count 64))) := by
  rw [shiftRight, moveDown?]
  by_cases hcount : count < 64
  · rw [if_pos hcount, Option.getD_some, Nat.min_eq_left (Nat.le_of_lt hcount),
      ofInt?_eq_some_iff.2 (toInt_moveDown a count)]
  · rw [if_neg hcount, Option.getD_none, Nat.min_eq_right (Nat.le_of_not_lt hcount)]
    have ha := bounds_toInt a
    simp only [least, greatest] at ha
    refine congrArg some (ofInt?_eq_some_iff.2 ?_).symm
    rw [Int.fdiv_eq_ediv_of_nonneg _ (by decide)]
    split
    · show (-1 : Int) = _
      omega
    · show (0 : Int) = _
      omega

end Word

/-! ## Operators -/

namespace Operator

/-- What becomes of the result of checked steps. -/
def held (op : Operator) : Option Int64 → Except EvaluationCause Value
  | some word => .ok (.int word)
  | none => .error (.overflow op)

theorem checked_eq_held (op : Operator) (n : Int) : op.checked n = op.held (Word.ofInt? n) := by
  unfold checked held
  split <;> simp_all

/-- How far a word asks to shift: a machine counts bits with 32 bits. -/
def shiftCount (b : Int64) : Nat := min b.toInt.toNat exponentLimit

/-- A binary operator in steps that a machine takes with words.  It is `none` if a step that is not
checked leaves the words. -/
def applyInWords (op : Operator) (left right : Value) : Option (Except EvaluationCause Value) :=
  match op, left, right with
  | .plus, .int a, .int b => some (op.held (Word.add? a b))
  | .minus, .int a, .int b => some (op.held (Word.sub? a b))
  | .star, .int a, .int b => some (op.held (Word.mul? a b))
  | .floorDiv, .int a, .int b =>
    if b.toInt = 0 then some (.error .divisionByZero) else (Word.floorQuotient a b).map op.held
  | .percent, .int a, .int b =>
    if b.toInt = 0 then some (.error .divisionByZero) else (Word.floorRemainder a b).map op.held
  | .shiftLeft, .int a, .int b =>
    if b.toInt < 0 then some (.error .negativeShift)
    else (Word.shiftLeft a (shiftCount b)).map op.held
  | .shiftRight, .int a, .int b =>
    if b.toInt < 0 then some (.error .negativeShift)
    else (Word.shiftRight a (shiftCount b)).map op.held
  | _, _, _ => some (op.apply left right)

/-- A sign in steps that a machine takes with words. -/
def signInWords (op : Operator) (operand : Value) : Option (Except EvaluationCause Value) :=
  match op, operand with
  | .minus, .int n => some (op.held (Word.neg? n))
  | _, _ => some (op.applySign operand)

section

variable {a b : Int64}

theorem apply_floorDiv (hb : b.toInt ≠ 0) :
    apply .floorDiv (.int a) (.int b) = held .floorDiv (Word.ofInt? (a.toInt.fdiv b.toInt)) := by
  simp only [apply, arithmetic, integers, if_neg hb, checked_eq_held]

theorem apply_percent (hb : b.toInt ≠ 0) :
    apply .percent (.int a) (.int b) =
      held .percent (if quotientEscapes a.toInt b.toInt then none
        else Word.ofInt? (a.toInt.fmod b.toInt)) := by
  simp only [apply, arithmetic, integers, if_neg hb, checked_eq_held]
  split <;> rfl

theorem shiftCount_cases (b : Int64) :
    64 ≤ b.toInt.toNat ∧ 64 ≤ shiftCount b ∨ b.toInt.toNat < 64 ∧ shiftCount b = b.toInt.toNat := by
  simp only [shiftCount, exponentLimit]
  omega

theorem apply_shiftLeft (hb : ¬ b.toInt < 0) :
    apply .shiftLeft (.int a) (.int b) =
      held .shiftLeft (if 64 ≤ shiftCount b then none
        else Word.ofInt? (a.toInt * 2 ^ shiftCount b)) := by
  simp only [apply, shift, if_neg hb, checked_eq_held]
  rcases shiftCount_cases b with ⟨hlarge, hcount⟩ | ⟨hsmall, hcount⟩
  · rw [if_pos hlarge, if_pos hcount]
    rfl
  · rw [hcount, if_neg (Nat.not_le.2 hsmall), if_neg (Nat.not_le.2 hsmall)]
    rfl

theorem apply_shiftRight (hb : ¬ b.toInt < 0) :
    apply .shiftRight (.int a) (.int b) =
      held .shiftRight (Word.ofInt? (a.toInt.fdiv (2 ^ min (shiftCount b) 64))) := by
  have hcount : min (shiftCount b) 64 = min b.toInt.toNat 64 := by
    rcases shiftCount_cases b with ⟨hlarge, hcount⟩ | ⟨-, hcount⟩
    · rw [Nat.min_eq_right hlarge, Nat.min_eq_right hcount]
    · rw [hcount]
  simp only [apply, shift, if_neg hb, checked_eq_held, hcount]
  rfl

end

/-- No step of an operator leaves the words, and together they come to what the operator says. -/
theorem applyInWords_eq (op : Operator) (left right : Value) :
    op.applyInWords left right = some (op.apply left right) := by
  unfold applyInWords
  split
  · exact congrArg some (checked_eq_held _ _).symm
  · exact congrArg some (checked_eq_held _ _).symm
  · exact congrArg some (checked_eq_held _ _).symm
  · split
    · next hb => simp only [apply, arithmetic, integers, if_pos hb]
    · next hb => rw [Word.floorQuotient_eq hb, apply_floorDiv hb, Option.map_some]
  · split
    · next hb => simp only [apply, arithmetic, integers, if_pos hb]
    · next hb => rw [Word.floorRemainder_eq hb, apply_percent hb, Option.map_some]
  · split
    · next hb => simp only [apply, shift, if_pos hb]
    · next hb => rw [Word.shiftLeft_eq, apply_shiftLeft hb, Option.map_some]
  · split
    · next hb => simp only [apply, shift, if_pos hb]
    · next hb => rw [Word.shiftRight_eq, apply_shiftRight hb, Option.map_some]
  · rfl

theorem signInWords_eq (op : Operator) (operand : Value) :
    op.signInWords operand = some (op.applySign operand) := by
  unfold signInWords
  split
  · exact congrArg some (checked_eq_held _ _).symm
  · rfl

end Operator
end TokenScript
