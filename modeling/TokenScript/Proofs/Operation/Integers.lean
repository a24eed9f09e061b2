import Mathlib.Data.Int.Bitwise
import Mathlib.Data.Rat.Floor
import TokenScript.Proofs.WordSteps

/-!
# Integers are combined exactly

An operator on two integers gives the integer that arithmetic gives, or it gives none.  What
arithmetic gives is said here without words: quotients by the floor of a fraction, bits by the two's
complement that never ends.  So this file has two questions.  One is whether an integer result is
right.  It always is.  The other is whether a result that a word can hold is ever refused.  It is,
in two places: the remainder of the least word by minus one, which is zero, and the powers of zero,
one and minus one with an exponent beyond 32 bits.

A machine takes powers by squaring, and refuses as soon as one of its products leaves the words.
That happens only where the power itself leaves them: a square that no word holds is still a factor
of the power, and the only way back into the words would be a product that is the opposite of the
least word, which no square is.

* `Word.power?`, `Word.power?_eq`: powers by squaring.
* `Operator.ideal?`: what arithmetic gives.
* `Operator.apply_of_ideal?`: what an operator makes of it.
* `integer_results_exact`: an integer result is right.
* `overflow_reported_iff`: when a result is refused.
-/

namespace TokenScript

namespace Word

/-! ## Powers by squaring -/

/-- The product of a word and a power, by squaring.  The exponent is read from its last bit on, and
a word must hold every product on the way. -/
def powerFrom? (product base : Int64) (exponent : Nat) : Option Int64 :=
  if exponent = 0 then some product
  else if exponent = 1 then mul? product base
  else
    (if exponent % 2 = 1 then mul? product base else some product).bind fun next =>
      (mul? base base).bind fun square => powerFrom? next square (exponent / 2)
termination_by exponent

/-- The power of a word, by squaring. -/
def power? (base : Int64) (exponent : Nat) : Option Int64 := powerFrom? 1 base exponent

/-- No word holds a multiple of an integer that none holds. -/
theorem ofInt?_mul_eq_none {n p : Int} (hn : ofInt? n = none) (hp : 0 < p) :
    ofInt? (n * p) = none := by
  rw [ofInt?_eq_none_iff] at hn ⊢
  simp only [least, greatest] at hn ⊢
  rcases hn with hn | hn
  · exact .inl (by nlinarith)
  · exact .inr (by nlinarith)

/-- A square that no word holds is greater than the opposite of the least word, which is not a
square. -/
theorem lt_mul_self {n : Int} (h : ofInt? (n * n) = none) : -least < n * n := by
  have hsquare : n * n = (n.natAbs * n.natAbs : Nat) := (Int.natAbs_mul_self (a := n)).symm
  have hlarge : greatest < n * n := by
    rcases ofInt?_eq_none_iff.1 h with hneg | hlarge
    · have hnonneg : 0 ≤ n * n := mul_self_nonneg n
      simp only [least] at hneg
      omega
    · exact hlarge
  rw [hsquare] at hlarge ⊢
  simp only [least, greatest] at hlarge ⊢
  have hroot : 3037000500 ≤ n.natAbs := by
    by_contra hsmall
    have hle : n.natAbs * n.natAbs ≤ 3037000499 * 3037000499 :=
      Nat.mul_le_mul (by omega) (by omega)
    omega
  have hle : 3037000500 * 3037000500 ≤ n.natAbs * n.natAbs := Nat.mul_le_mul hroot hroot
  omega

/-- No word holds a multiple of a square that none holds, whatever the sign of the other factor. -/
theorem ofInt?_mul_square_eq_none {n c : Int} (h : ofInt? (n * n) = none) (hc : c ≠ 0) :
    ofInt? (c * (n * n)) = none := by
  have hlarge := lt_mul_self h
  rw [ofInt?_eq_none_iff]
  simp only [least, greatest] at hlarge ⊢
  rcases Int.lt_or_gt_of_ne hc with hneg | hpos
  · exact .inl (by nlinarith)
  · exact .inr (by nlinarith)

theorem ofInt?_toInt (word : Int64) : ofInt? word.toInt = some word := ofInt?_eq_some_iff.2 rfl

theorem ne_zero_of_ofInt?_eq_none {n : Int} (h : ofInt? n = none) : n ≠ 0 := by
  rintro rfl
  cases h

/-- One step of a power, with the product settled.  If no word holds the square of the base, none
holds the power either: the square is a factor of it, and the other factors are not zero. -/
theorem bind_square_eq {product base : Int64} {half : Nat}
    (h : product.toInt ≠ 0 ∨ base.toInt = 0)
    (hrest : ∀ square : Int64, product.toInt ≠ 0 ∨ square.toInt = 0 →
      powerFrom? product square (half + 1) = ofInt? (product.toInt * square.toInt ^ (half + 1))) :
    ((mul? base base).bind fun square => powerFrom? product square (half + 1)) =
      ofInt? (product.toInt * (base.toInt * base.toInt) ^ (half + 1)) := by
  cases hsquare : mul? base base with
  | none =>
    have hbase : base.toInt * base.toInt ≠ 0 := ne_zero_of_ofInt?_eq_none hsquare
    have hproduct : product.toInt ≠ 0 := h.resolve_right (left_ne_zero_of_mul hbase)
    rw [Option.bind_none, pow_succ, ← mul_assoc]
    exact (ofInt?_mul_square_eq_none hsquare (mul_ne_zero hproduct (pow_ne_zero half hbase))).symm
  | some square =>
    have hvalue : square.toInt = base.toInt * base.toInt := ofInt?_eq_some_iff.1 hsquare
    rw [Option.bind_some, ← hvalue]
    refine hrest square (h.imp_right fun hbase => ?_)
    rw [hvalue, hbase, mul_zero]

/-- Squaring refuses nothing but powers that no word holds.  The product so far is zero only if the
base is, and then every product on the way is zero. -/
theorem powerFrom?_eq {product base : Int64} {exponent : Nat}
    (h : product.toInt ≠ 0 ∨ base.toInt = 0) :
    powerFrom? product base exponent = ofInt? (product.toInt * base.toInt ^ exponent) := by
  fun_induction powerFrom? product base exponent with
  | case1 product base => rw [pow_zero, mul_one, ofInt?_toInt]
  | case2 product base => rw [pow_one, mul?]
  | case3 product base exponent hzero hone ih =>
    -- what is left of the exponent is not zero, so the square is a factor of what is left of the
    -- power
    obtain ⟨half, hhalf⟩ : ∃ half, exponent / 2 = half + 1 := ⟨exponent / 2 - 1, by omega⟩
    have hpow : base.toInt ^ exponent =
        base.toInt ^ (exponent % 2) * (base.toInt * base.toInt) ^ (half + 1) := by
      rw [← hhalf, ← pow_two, ← pow_mul, ← pow_add, Nat.mod_add_div]
    rw [hhalf] at ih ⊢
    rw [hpow, ← mul_assoc]
    rcases Nat.mod_two_eq_zero_or_one exponent with hbit | hbit
    · rw [hbit, if_neg (by decide), Option.bind_some, pow_zero, mul_one]
      exact bind_square_eq h (ih product)
    · rw [hbit, if_pos rfl, pow_one]
      cases hnext : mul? product base with
      | none =>
        have hbase : base.toInt ≠ 0 := right_ne_zero_of_mul (ne_zero_of_ofInt?_eq_none hnext)
        exact (ofInt?_mul_eq_none hnext (pow_pos (mul_self_pos.2 hbase) _)).symm
      | some next =>
        have hvalue : next.toInt = product.toInt * base.toInt := ofInt?_eq_some_iff.1 hnext
        have hkept : next.toInt ≠ 0 ∨ base.toInt = 0 := by
          by_cases hbase : base.toInt = 0
          · exact .inr hbase
          · rw [hvalue]
            exact .inl (mul_ne_zero (h.resolve_right hbase) hbase)
        rw [Option.bind_some, ← hvalue]
        exact bind_square_eq hkept (ih next)

/-- A word's power by squaring is its power, if a word holds that. -/
theorem power?_eq (base : Int64) (exponent : Nat) :
    power? base exponent = ofInt? (base.toInt ^ exponent) := by
  rw [power?, powerFrom?_eq (.inl (by decide)), show (1 : Int64).toInt = 1 from rfl, one_mul]

/-! ## Bits -/

/-- Integers with the same bits are the same. -/
theorem eq_of_testBit_eq {m n : Int} (h : ∀ i, m.testBit i = n.testBit i) : m = n := by
  -- far enough to the left, the bits of an integer are its sign
  have hfar (p q : Nat) : p.testBit (p + q) = false ∧ q.testBit (p + q) = false :=
    ⟨Nat.testBit_lt_two_pow (Nat.lt_of_le_of_lt (Nat.le_add_right p q) Nat.lt_two_pow_self),
      Nat.testBit_lt_two_pow (Nat.lt_of_le_of_lt (Nat.le_add_left q p) Nat.lt_two_pow_self)⟩
  match m, n with
  | .ofNat p, .ofNat q => exact congrArg Int.ofNat (Nat.eq_of_testBit_eq h)
  | .ofNat p, .negSucc q =>
    have hbit : p.testBit (p + q) = !q.testBit (p + q) := h (p + q)
    rw [(hfar p q).1, (hfar p q).2] at hbit
    cases hbit
  | .negSucc p, .ofNat q =>
    have hbit : (!p.testBit (p + q)) = q.testBit (p + q) := h (p + q)
    rw [(hfar p q).1, (hfar p q).2] at hbit
    cases hbit
  | .negSucc p, .negSucc q =>
    exact congrArg Int.negSucc (Nat.eq_of_testBit_eq fun i => Bool.not_inj (h i))

/-- The bits of a word, as those of an integer: beyond its 64 bits there is its sign. -/
theorem testBit_toInt (word : Int64) (i : Nat) :
    word.toInt.testBit i = if i < 64 then word.toBitVec.getLsbD i else word.toBitVec.msb := by
  have hlt : word.toBitVec.toNat < 2 ^ 64 := word.toBitVec.isLt
  cases hmsb : word.toBitVec.msb with
  | false =>
    have hvalue : word.toInt = Int.ofNat word.toBitVec.toNat := BitVec.toInt_eq_toNat_of_msb hmsb
    rw [hvalue]
    show word.toBitVec.toNat.testBit i = _
    split
    · rfl
    · exact Nat.testBit_lt_two_pow
        (Nat.lt_of_lt_of_le hlt (Nat.pow_le_pow_right (by decide) (by omega)))
  | true =>
    have hvalue : word.toInt = Int.negSucc (2 ^ 64 - (word.toBitVec.toNat + 1)) := by
      have hwide : word.toInt = (word.toBitVec.toNat : Int) - (2 ^ 64 : Nat) := by
        show word.toBitVec.toInt = _
        rw [BitVec.toInt_eq_msb_cond, if_pos hmsb]
      rw [hwide]
      omega
    rw [hvalue]
    show (!(2 ^ 64 - (word.toBitVec.toNat + 1)).testBit i) = _
    rw [Nat.testBit_two_pow_sub_succ hlt]
    split
    · next hi => simp [hi, BitVec.getLsbD]
    · next hi => simp [hi]

/-- Bits are combined place by place, and signs in the same way. -/
theorem toInt_eq_of_bits {a b c : Int64} {n : Int} {f : Bool → Bool → Bool}
    (hn : ∀ i, n.testBit i = f (a.toInt.testBit i) (b.toInt.testBit i))
    (hbits : ∀ i, i < 64 → c.toBitVec.getLsbD i = f (a.toBitVec.getLsbD i) (b.toBitVec.getLsbD i))
    (hmsb : c.toBitVec.msb = f a.toBitVec.msb b.toBitVec.msb) : c.toInt = n := by
  refine eq_of_testBit_eq fun i => ?_
  rw [hn, testBit_toInt, testBit_toInt, testBit_toInt]
  split
  · next hi => exact hbits i hi
  · exact hmsb

theorem toInt_and (a b : Int64) : (a &&& b).toInt = Int.land a.toInt b.toInt :=
  toInt_eq_of_bits (Int.testBit_land _ _) (fun _ _ => BitVec.getLsbD_and) BitVec.msb_and

theorem toInt_or (a b : Int64) : (a ||| b).toInt = Int.lor a.toInt b.toInt :=
  toInt_eq_of_bits (Int.testBit_lor _ _) (fun _ _ => BitVec.getLsbD_or) BitVec.msb_or

theorem toInt_xor (a b : Int64) : (a ^^^ b).toInt = Int.xor a.toInt b.toInt :=
  toInt_eq_of_bits (Int.testBit_lxor _ _) (fun _ _ => BitVec.getLsbD_xor) BitVec.msb_xor

/-! ## Quotients -/

/-- The quotient towards the floor is the floor of the fraction. -/
theorem fdiv_eq_floor (a b : Int) : a.fdiv b = ⌊(a / b : ℚ)⌋ := by
  have hnonneg (a : Int) (b : Nat) : a.fdiv b = ⌊(a / (b : Int) : ℚ)⌋ := by
    rw [Int.fdiv_eq_ediv_of_nonneg a (Int.natCast_nonneg b), Int.cast_natCast,
      Rat.floor_intCast_div_natCast]
  rcases Int.eq_nat_or_neg b with ⟨b, rfl | rfl⟩
  · exact hnonneg a b
  · rw [← Int.neg_fdiv_neg, Int.neg_neg, hnonneg, Int.cast_neg, Int.cast_neg, neg_div, div_neg]

/-- The remainder lies between zero and the divisor, and is not the divisor. -/
theorem fmod_between (a : Int) {b : Int} (hb : b ≠ 0) :
    0 ≤ a.fmod b ∧ a.fmod b < b ∨ b < a.fmod b ∧ a.fmod b ≤ 0 := by
  rcases Int.lt_or_gt_of_ne hb with hneg | hpos
  · have hlow := Int.fmod_nonneg_of_pos (-a) (Int.neg_pos_of_neg hneg)
    have hhigh := Int.fmod_lt_of_pos (-a) (Int.neg_pos_of_neg hneg)
    rw [Int.neg_fmod_neg] at hlow hhigh
    omega
  · exact .inl ⟨Int.fmod_nonneg_of_pos a hpos, Int.fmod_lt_of_pos a hpos⟩

/-- From the 64th power of two on, the floor of a quotient tells nothing but the sign. -/
theorem fdiv_two_pow_of_le (a : Int64) {count : Nat} (h : 64 ≤ count) :
    a.toInt.fdiv (2 ^ count) = if a.toInt < 0 then -1 else 0 := by
  have hbounds := bounds_toInt a
  have hpow : (2 : Int) ^ 64 ≤ 2 ^ count := pow_le_pow_right₀ (by decide) h
  simp only [least, greatest] at hbounds
  rw [Int.fdiv_eq_ediv_of_nonneg _ (by omega)]
  split
  · next hneg => exact Int.ediv_eq_neg_one_of_neg_of_le hneg (by omega)
  · exact Int.ediv_eq_zero_of_lt (by omega) (by omega)

theorem fdiv_two_pow_min (a : Int64) (count : Nat) :
    a.toInt.fdiv (2 ^ min count 64) = a.toInt.fdiv (2 ^ count) := by
  rcases Nat.le_total count 64 with hle | hle
  · rw [Nat.min_eq_left hle]
  · rw [Nat.min_eq_right hle, fdiv_two_pow_of_le a (Nat.le_refl 64), fdiv_two_pow_of_le a hle]

/-- No word holds a power from the 64th on, unless the base is next to zero. -/
theorem ofInt?_pow_eq_none {n : Int} {exponent : Nat} (hn : 2 ≤ n.natAbs) (h : 64 ≤ exponent) :
    ofInt? (n ^ exponent) = none := by
  have hpow : 2 ^ 64 ≤ (n ^ exponent).natAbs := by
    rw [Int.natAbs_pow]
    calc 2 ^ 64 ≤ 2 ^ exponent := Nat.pow_le_pow_right (by decide) h
      _ ≤ n.natAbs ^ exponent := Nat.pow_le_pow_left hn exponent
  rw [ofInt?_eq_none_iff]
  simp only [least, greatest]
  omega

end Word

namespace Operator

/-! ## What arithmetic gives -/

/-- What arithmetic gives for two integers, where the operator makes an integer of them.  The bits
of a negative integer are those of its two's complement, which has no end. -/
def ideal? (op : Operator) (a b : Int) : Option Int :=
  match op with
  | .plus => some (a + b)
  | .minus => some (a - b)
  | .star => some (a * b)
  | .floorDiv => if b = 0 then none else some ⌊(a / b : ℚ)⌋
  | .percent => if b = 0 then none else some (a - b * ⌊(a / b : ℚ)⌋)
  | .power => if b < 0 then none else some (a ^ b.toNat)
  | .shiftLeft => if b < 0 then none else some (a * 2 ^ b.toNat)
  | .shiftRight => if b < 0 then none else some ⌊(a / 2 ^ b.toNat : ℚ)⌋
  | .ampersand => some (Int.land a b)
  | .pipe => some (Int.lor a b)
  | .caret => some (Int.xor a b)
  | _ => none

/-- Where an operator does not look at what arithmetic gives: the quotient that belongs to a
remainder leaves the words, an exponent leaves 32 bits, or all bits of a word are shifted out of
it. -/
def declines (op : Operator) (a b : Int) : Bool :=
  match op with
  | .percent => quotientEscapes a b
  | .power => exponentLimit < b.toNat
  | .shiftLeft => 64 ≤ b.toNat
  | _ => false

/-- A power is its exact value, if a word holds that, up to the largest exponent. -/
theorem integerPower_eq (base : Int) (exponent : Nat) :
    integerPower base exponent =
      held .power (if exponentLimit < exponent then none else Word.ofInt? (base ^ exponent)) := by
  unfold integerPower
  split
  · rfl
  · split
    · next hlong =>
      simp only [checked_eq_held]
      split
      · next hzero => rw [hzero, zero_pow (by omega)]
      · split
        · next hone => rw [hone, one_pow]
        · split
          · next hminus =>
            rw [hminus, neg_one_pow_eq_pow_mod_two]
            rcases Nat.mod_two_eq_zero_or_one exponent with hbit | hbit
            · rw [hbit, if_pos rfl, pow_zero]
            · rw [hbit, if_neg (by decide), pow_one]
          · rw [Word.ofInt?_pow_eq_none (by omega) hlong]
            rfl
    · rw [checked_eq_held]
      rfl

section

variable {op : Operator} {a b : Int64} {n : Int}

theorem apply_power (hb : ¬ b.toInt < 0) :
    apply .power (.int a) (.int b) =
      held .power (if exponentLimit < b.toInt.toNat then none
        else Word.ofInt? (a.toInt ^ b.toInt.toNat)) := by
  simp only [apply, arithmetic, integers, if_neg hb, integerPower_eq]

/-- What an operator makes of what arithmetic gives. -/
theorem apply_of_ideal? (h : op.ideal? a.toInt b.toInt = some n) :
    op.apply (.int a) (.int b) =
      op.held (if op.declines a.toInt b.toInt then none else Word.ofInt? n) := by
  cases op with
  | plus | minus | star =>
    obtain rfl := Option.some.inj h
    exact checked_eq_held _ _
  | floorDiv =>
    obtain ⟨hb, hn⟩ := Option.ite_none_left_eq_some.1 h
    rw [apply_floorDiv hb, Word.fdiv_eq_floor, Option.some.inj hn]
    rfl
  | percent =>
    obtain ⟨hb, hn⟩ := Option.ite_none_left_eq_some.1 h
    rw [apply_percent hb, Int.fmod_def, Word.fdiv_eq_floor, Option.some.inj hn]
    rfl
  | power =>
    obtain ⟨hb, hn⟩ := Option.ite_none_left_eq_some.1 h
    rw [apply_power hb, Option.some.inj hn]
    simp only [declines, decide_eq_true_eq]
  | shiftLeft =>
    obtain ⟨hb, hn⟩ := Option.ite_none_left_eq_some.1 h
    rw [← Option.some.inj hn]
    simp only [apply, shift, if_neg hb, checked_eq_held, declines, decide_eq_true_eq]
    split <;> rfl
  | shiftRight =>
    obtain ⟨hb, hn⟩ := Option.ite_none_left_eq_some.1 h
    have hfloor := Word.fdiv_eq_floor a.toInt (2 ^ b.toInt.toNat)
    rw [Int.cast_pow, Int.cast_ofNat, Option.some.inj hn] at hfloor
    simp only [apply, shift, if_neg hb, checked_eq_held]
    exact congrArg (fun n => held .shiftRight (Word.ofInt? n))
      ((Word.fdiv_two_pow_min a _).trans hfloor)
  | ampersand =>
    obtain rfl := Option.some.inj h
    rw [← Word.toInt_and, Word.ofInt?_toInt]
    rfl
  | pipe =>
    obtain rfl := Option.some.inj h
    rw [← Word.toInt_or, Word.ofInt?_toInt]
    rfl
  | caret =>
    obtain rfl := Option.some.inj h
    rw [← Word.toInt_xor, Word.ofInt?_toInt]
    rfl
  | _ => cases h

/-- Where arithmetic gives no integer, the operator does not either. -/
theorem apply_ne_int_of_ideal?_eq_none {c : Int64} (h : op.ideal? a.toInt b.toInt = none) :
    op.apply (.int a) (.int b) ≠ .ok (.int c) := by
  cases op with
  | floorDiv | percent =>
    have hb : b.toInt = 0 := by simpa [ideal?] using h
    simp [apply, arithmetic, integers, hb]
  | power | shiftLeft | shiftRight =>
    have hb : b.toInt < 0 := by simpa [ideal?] using h
    simp [apply, arithmetic, integers, shift, hb]
  | slash =>
    simp only [apply, arithmetic, integers]
    split <;> simp
  | plus | minus | star | ampersand | pipe | caret => cases h
  | _ => simp [apply, Value.order, Except.map]

theorem held_eq_ok_int {word : Option Int64} {c : Int64} (h : op.held word = .ok (.int c)) :
    word = some c := by
  cases word with
  | none => cases h
  | some word =>
    cases h
    rfl

/-- An integer result is what arithmetic gives. -/
theorem ideal?_of_apply {c : Int64} (h : op.apply (.int a) (.int b) = .ok (.int c)) :
    op.ideal? a.toInt b.toInt = some c.toInt := by
  cases hexact : op.ideal? a.toInt b.toInt with
  | none => exact absurd h (apply_ne_int_of_ideal?_eq_none hexact)
  | some n =>
    rw [apply_of_ideal? hexact] at h
    have hword := held_eq_ok_int h
    split at hword
    · cases hword
    · rw [Word.ofInt?_eq_some_iff.1 hword]

end

/-! ## Powers in words -/

/-- A binary operator on two words, in steps that a machine takes with words.  It takes powers by
squaring. -/
def combineInWords (op : Operator) (a b : Int64) : Option (Except EvaluationCause Value) :=
  match op with
  | .power =>
    some (if b.toInt < 0 then .ok (.float (Float.pow (Float.ofInt a.toInt) (Float.ofInt b.toInt)))
      else if exponentLimit < b.toInt.toNat then .error (.overflow .power)
      else held .power (Word.power? a b.toInt.toNat))
  | _ => op.applyInWords (.int a) (.int b)

/-- The steps of a machine lead to what the operator says. -/
theorem combineInWords_eq (op : Operator) (a b : Int64) :
    op.combineInWords a b = some (op.apply (.int a) (.int b)) := by
  unfold combineInWords
  split
  · by_cases hb : b.toInt < 0
    · simp only [apply, arithmetic, integers, if_pos hb]
    · rw [if_neg hb, apply_power hb, Word.power?_eq]
      split <;> rfl
  · exact applyInWords_eq op _ _

section

variable {op : Operator} {a b : Int64} {n : Int}

/-! ## Single results -/

/-- A remainder is zero or has the sign of the divisor, and is nearer to zero. -/
theorem apply_percent_between {c : Int64} (h : apply .percent (.int a) (.int b) = .ok (.int c)) :
    (c.toInt = 0 ∨ c.toInt.sign = b.toInt.sign) ∧ c.toInt.natAbs < b.toInt.natAbs := by
  obtain ⟨hb, hc⟩ := Option.ite_none_left_eq_some.1 (ideal?_of_apply h)
  have hvalue := Option.some.inj hc
  rw [← Word.fdiv_eq_floor, ← Int.fmod_def] at hvalue
  have hbetween := Word.fmod_between a.toInt hb
  rw [hvalue] at hbetween
  refine ⟨?_, by omega⟩
  rcases Int.lt_trichotomy c.toInt 0 with hneg | hzero | hpos
  · rw [Int.sign_eq_neg_one_of_neg hneg, Int.sign_eq_neg_one_of_neg (by omega)]
    exact .inr rfl
  · exact .inl hzero
  · rw [Int.sign_eq_one_of_pos hpos, Int.sign_eq_one_of_pos (by omega)]
    exact .inr rfl

theorem held_ne_divisionByZero (word : Option Int64) : op.held word ≠ .error .divisionByZero := by
  cases word <;> simp [held]

/-- Division by zero is reported just if the divisor is zero. -/
theorem apply_eq_divisionByZero_iff (hop : op ∈ [slash, floorDiv, percent]) :
    op.apply (.int a) (.int b) = .error .divisionByZero ↔ b.toInt = 0 := by
  constructor
  · intro h
    by_contra hb
    simp only [List.mem_cons, List.not_mem_nil, or_false] at hop
    rcases hop with rfl | rfl | rfl
    · simp only [apply, arithmetic, integers, if_neg hb] at h
      cases h
    · rw [apply_floorDiv hb] at h
      exact held_ne_divisionByZero _ h
    · rw [apply_percent hb] at h
      exact held_ne_divisionByZero _ h
  · intro hb
    simp only [List.mem_cons, List.not_mem_nil, or_false] at hop
    rcases hop with rfl | rfl | rfl <;> simp only [apply, arithmetic, integers, if_pos hb]

/-- No shift has a negative count. -/
theorem apply_shift_of_neg (hop : op ∈ [shiftLeft, shiftRight]) (hb : b.toInt < 0) :
    op.apply (.int a) (.int b) = .error .negativeShift := by
  simp only [List.mem_cons, List.not_mem_nil, or_false] at hop
  rcases hop with rfl | rfl <;> simp only [apply, shift, if_pos hb]

/-- A shift to the left moves at most 63 bits. -/
theorem apply_shiftLeft_of_le (hb : 64 ≤ b.toInt) :
    apply .shiftLeft (.int a) (.int b) = .error (.overflow .shiftLeft) := by
  rw [apply_shiftLeft (by omega), if_pos (by rcases shiftCount_cases b with h | h <;> omega)]
  rfl

/-- A shift to the right always has a result, however far it goes. -/
theorem exists_apply_shiftRight (hb : 0 ≤ b.toInt) :
    ∃ c : Int64, apply .shiftRight (.int a) (.int b) = .ok (.int c) := by
  have hsteps := combineInWords_eq .shiftRight a b
  simp only [combineInWords, applyInWords, if_neg (Int.not_lt.2 hb), Word.shiftRight,
    Option.map_some, held] at hsteps
  exact ⟨_, (Option.some.inj hsteps).symm⟩

/-- The opposite of a word is exact, and the least word has none. -/
theorem applySign_minus_cases (a : Int64) :
    a.toInt = Word.least ∧ minus.applySign (.int a) = .error (.overflow .minus) ∨
      a.toInt ≠ Word.least ∧ ∃ c : Int64, minus.applySign (.int a) = .ok (.int c) ∧
        c.toInt = -a.toInt := by
  have hsign : minus.applySign (.int a) = minus.held (Word.ofInt? (-a.toInt)) := checked_eq_held _ _
  by_cases ha : a.toInt = Word.least
  · rw [hsign, ha]
    exact .inl ⟨rfl, rfl⟩
  · have hbounds := Word.bounds_toInt a
    simp only [Word.least, Word.greatest] at ha hbounds
    obtain ⟨c, hc⟩ : ∃ c : Int64, c.toInt = -a.toInt :=
      Word.exists_word (by simp only [Word.least]; omega) (by simp only [Word.greatest]; omega)
    rw [hsign, Word.ofInt?_eq_some_iff.2 hc]
    exact .inr ⟨ha, c, rfl, hc⟩

/-- Where a result is refused unseen, it is not one that a word can hold, up to three kinds. -/
theorem declined_iff (h : op.ideal? a.toInt b.toInt = some n) :
    op.declines a.toInt b.toInt = true ∨ (n < Word.least ∨ Word.greatest < n) ↔
      (n < Word.least ∨ Word.greatest < n) ∨
      op = shiftLeft ∧ 64 ≤ b.toInt ∨
      op = percent ∧ a.toInt = Word.least ∧ b.toInt = -1 ∨
      op = power ∧ a.toInt.natAbs ≤ 1 ∧ 2 ^ 32 ≤ b.toInt := by
  cases op with
  | power =>
    obtain ⟨hb, hn⟩ := Option.ite_none_left_eq_some.1 h
    -- a base further from zero has left the words long before its exponent leaves 32 bits
    have hlarge : 2 ≤ a.toInt.natAbs → 64 ≤ b.toInt.toNat → n < Word.least ∨ Word.greatest < n := by
      intro ha hcount
      rw [← Option.some.inj hn, ← Word.ofInt?_eq_none_iff]
      exact Word.ofInt?_pow_eq_none ha hcount
    have hlimit : exponentLimit = 4294967295 := rfl
    simp only [declines, decide_eq_true_eq, reduceCtorEq, false_and, false_or, true_and]
    omega
  | shiftLeft =>
    simp only [declines, decide_eq_true_eq, reduceCtorEq, false_and, or_false, true_and]
    omega
  | percent =>
    simp only [declines, quotientEscapes, Bool.and_eq_true, decide_eq_true_eq, reduceCtorEq,
      false_and, false_or, or_false, true_and]
    omega
  | _ => simp [declines]

end
end Operator

/-! ## Results -/

/-- **An integer result is never wrong.**

* It is what arithmetic gives; and a remainder is zero or has the sign of the divisor, and is nearer
  to zero.
* Division by zero is reported just if the divisor is zero.
* No shift has a negative count, and none to the left moves more than 63 bits.  A shift to the right
  always has a result.
* The opposite of a word is exact, and the least word has none.
* A machine that computes in words gets the same: it corrects its quotients by hand, looks back at
  its shifts, and takes powers by squaring. -/
theorem integer_results_exact (a b : Int64) :
    (∀ (op : Operator) (c : Int64), op.apply (.int a) (.int b) = .ok (.int c) →
      op.ideal? a.toInt b.toInt = some c.toInt) ∧
    (∀ c : Int64, Operator.apply .percent (.int a) (.int b) = .ok (.int c) →
      (c.toInt = 0 ∨ c.toInt.sign = b.toInt.sign) ∧ c.toInt.natAbs < b.toInt.natAbs) ∧
    (∀ op ∈ [Operator.slash, .floorDiv, .percent],
      op.apply (.int a) (.int b) = .error .divisionByZero ↔ b.toInt = 0) ∧
    (b.toInt < 0 → ∀ op ∈ [Operator.shiftLeft, .shiftRight],
      op.apply (.int a) (.int b) = .error .negativeShift) ∧
    (64 ≤ b.toInt →
      Operator.apply .shiftLeft (.int a) (.int b) = .error (.overflow .shiftLeft)) ∧
    (0 ≤ b.toInt → ∃ c : Int64, Operator.apply .shiftRight (.int a) (.int b) = .ok (.int c)) ∧
    (a.toInt = Word.least ∧ Operator.applySign .minus (.int a) = .error (.overflow .minus) ∨
      a.toInt ≠ Word.least ∧
        ∃ c : Int64, Operator.applySign .minus (.int a) = .ok (.int c) ∧ c.toInt = -a.toInt) ∧
    ∀ op : Operator, op.combineInWords a b = some (op.apply (.int a) (.int b)) :=
  ⟨fun _ _ => Operator.ideal?_of_apply, fun _ => Operator.apply_percent_between,
    fun _ => Operator.apply_eq_divisionByZero_iff,
    fun hb _ hop => Operator.apply_shift_of_neg hop hb, Operator.apply_shiftLeft_of_le,
    Operator.exists_apply_shiftRight, Operator.applySign_minus_cases a,
    fun op => Operator.combineInWords_eq op a b⟩

/-- The remainder of the least word by three is one, a shift to the right by more bits than it has
leaves its sign, and the least word has no opposite. -/
theorem integer_results_exact_least :
    Operator.ideal? .percent Word.least 3 = some 1 ∧
    Operator.apply .shiftLeft (.int (-9223372036854775808)) (.int 100) =
      .error (.overflow .shiftLeft) ∧
    Operator.ideal? .shiftRight Word.least 100 = some (-1) ∧
    Operator.applySign .minus (.int (-9223372036854775808)) = .error (.overflow .minus) := by
  obtain ⟨hexact, -⟩ := integer_results_exact (-9223372036854775808) 3
  obtain ⟨hshifted, -, -, -, hlost, -, hsign, -⟩ := integer_results_exact (-9223372036854775808) 100
  refine ⟨hexact .percent 1 rfl, hlost (by decide), hshifted .shiftRight (-1) rfl, ?_⟩
  exact (hsign.resolve_right fun h => h.1 rfl).2

/-- **Which results are refused.**  Let arithmetic give an integer for an operator and two words.
The operator reports an overflow if no word holds that integer.  Otherwise it gives it, except in
three places: a shift to the left by more bits than a word has, the remainder of the least word by
minus one, and powers of zero, one and minus one whose exponent has more than 32 bits. -/
theorem overflow_reported_iff {op : Operator} {a b : Int64} {n : Int}
    (h : op.ideal? a.toInt b.toInt = some n) :
    (op.apply (.int a) (.int b) = .error (.overflow op) ↔
      (n < Word.least ∨ Word.greatest < n) ∨
      op = .shiftLeft ∧ 64 ≤ b.toInt ∨
      op = .percent ∧ a.toInt = Word.least ∧ b.toInt = -1 ∨
      op = .power ∧ a.toInt.natAbs ≤ 1 ∧ 2 ^ 32 ≤ b.toInt) ∧
    (op.apply (.int a) (.int b) ≠ .error (.overflow op) →
      ∃ c : Int64, op.apply (.int a) (.int b) = .ok (.int c) ∧ c.toInt = n) := by
  rw [Operator.apply_of_ideal? h, ← Operator.declined_iff h, ← Word.ofInt?_eq_none_iff]
  by_cases hdeclines : op.declines a.toInt b.toInt = true
  · simp [hdeclines, Operator.held]
  · rw [if_neg hdeclines]
    cases hword : Word.ofInt? n with
    | none => simp [Operator.held]
    | some c => simp [Operator.held, hdeclines, Word.ofInt?_eq_some_iff.1 hword]

/-- The power of minus three that is next to the least word is given, and the one behind it is
refused. -/
theorem overflow_reported_iff_minusThree :
    (∃ c : Int64, Operator.apply .power (.int (-3)) (.int 39) = .ok (.int c) ∧
      c.toInt = (-3) ^ 39) ∧
    Operator.apply .power (.int (-3)) (.int 40) = .error (.overflow .power) := by
  have hlast : Operator.ideal? .power (-3 : Int64).toInt (39 : Int64).toInt = some ((-3) ^ 39) :=
    rfl
  have hnext : Operator.ideal? .power (-3 : Int64).toInt (40 : Int64).toInt = some ((-3) ^ 40) :=
    rfl
  refine ⟨(overflow_reported_iff hlast).2 fun hrefused => ?_,
    (overflow_reported_iff hnext).1.2 (.inl (.inr (by decide)))⟩
  exact absurd ((overflow_reported_iff hlast).1.1 hrefused) (by decide)

/-- A remainder and a power that are refused although a word holds them: zero, left by the least
word and minus one, and the power of one whose exponent is the first beyond 32 bits. -/
theorem fitting_results_refused :
    (Operator.ideal? .percent (-9223372036854775808) (-1) = some 0 ∧
      Operator.apply .percent (.int (-9223372036854775808)) (.int (-1)) =
        .error (.overflow .percent)) ∧
    (Operator.ideal? .power 1 4294967296 = some 1 ∧
      Operator.apply .power (.int 1) (.int 4294967296) = .error (.overflow .power)) := by
  have hremainder : Operator.ideal? .percent (-9223372036854775808) (-1) = some 0 := by
    norm_num [Operator.ideal?]
  have hpower : Operator.ideal? .power 1 4294967296 = some 1 := congrArg some (one_pow _)
  exact ⟨⟨hremainder, rfl⟩, hpower, rfl⟩

end TokenScript
