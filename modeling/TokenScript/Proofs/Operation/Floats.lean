import Mathlib
import TokenScript.Value.Operation

/-!
# Binary64 numbers in line

Two numbers are compared by what they are when unpacked: a sign, a mantissa and an exponent.  All
mantissas are full, as far as the exponents allow, so the exponent decides first.  Every number but
the undefined one thus has a place among all numbers, and the order of numbers is the order of their
places.

An integer below `2^53` is converted without loss.  Its mantissa is filled up with zeros, so its
exponent is not above zero.  From `2^53` on an integer has too many bits, and rounding cuts them
off; then the exponent is above zero.  So no integer beyond `2^53` falls on the place of one below
it.

* `Unpacked.place?`, `Unpacked.compare_eq_places`: places, and the order of numbers.
* `Unpacked.exists_roundWithAccuracy`: rounding to a full mantissa.
* `Unpacked.exists_place?_ofInt`: the place of an integer.
* `Floats.orderOfFloats_eq`, `Floats.beq_iff_place?`: floats by their places.
* `Floats.eq_of_place?_ofInt_eq`: integers below `2^53` have their places for themselves.
-/

open Float.Model Float.Model.UnpackedFloat

namespace TokenScript

namespace Unpacked

/-! ## Places -/

/-- Where a number stands among all numbers: on which side of zero, and there by exponent and
mantissa.  The undefined number stands nowhere, and the two zeros stand in one place. -/
def place? : UnpackedFloat → Option (Int × Int × Int)
  | .notANumber => none
  | .infinity .negative => some (-2, 0, 0)
  | .finite .negative m e _ => some (-1, -e, -m)
  | .zero _ => some (0, 0, 0)
  | .finite .positive m e _ => some (1, e, m)
  | .infinity .positive => some (2, 0, 0)

/-- The order of two places. -/
def comparePlaces (p q : Int × Int × Int) : Ordering :=
  (compare p.1 q.1).then ((compare p.2.1 q.2.1).then (compare p.2.2 q.2.2))

theorem comparePlaces_swap (p q : Int × Int × Int) :
    (comparePlaces p q).swap = comparePlaces q p := by
  simp only [comparePlaces, Ordering.swap_then, Int.compare_swap]

theorem comparePlaces_eq_eq_iff {p q : Int × Int × Int} : comparePlaces p q = .eq ↔ p = q := by
  simp only [comparePlaces, Ordering.then_eq_eq, Std.compare_eq_iff_eq, Prod.ext_iff]

theorem compare_neg (m n : Int) : compare (-m) (-n) = compare n m := by
  simp only [Int.compare_eq_ite_lt, Int.neg_lt_neg_iff]

theorem compare_natCast (m n : Nat) : compare (m : Int) (n : Int) = compare m n := by
  simp only [Int.compare_eq_ite_lt, Nat.compare_eq_ite_lt, Int.ofNat_lt]

/-- Numbers are compared by their places. -/
theorem compare_eq_places (x y : UnpackedFloat) :
    x.compare y = (place? x).bind fun p => (place? y).map (comparePlaces p) := by
  rcases x with (_ | _) | _ | _ | ⟨_ | _, m, e, hm⟩ <;>
    rcases y with (_ | _) | _ | _ | ⟨_ | _, n, f, hn⟩ <;>
    try rfl
  -- two numbers on one side of zero are left, where exponent and mantissa decide
  · show some ((compare e f).then (compare m n)).swap =
      some ((compare (-e) (-f)).then (compare (-(m : Int)) (-n)))
    rw [compare_neg, compare_neg, compare_natCast, Ordering.swap_then, Int.compare_swap,
      Nat.compare_swap]
  · show some ((compare e f).then (compare m n)) = some ((compare e f).then (compare (m : Int) n))
    rw [compare_natCast]

theorem compare_swap (x y : UnpackedFloat) : y.compare x = (x.compare y).map Ordering.swap := by
  rw [compare_eq_places, compare_eq_places]
  cases place? x <;> cases place? y <;> simp [comparePlaces_swap]

theorem place?_eq_none_iff {x : UnpackedFloat} : place? x = none ↔ x.isNaN = true := by
  rcases x with (_ | _) | _ | _ | ⟨_ | _, m, e, hm⟩ <;> simp [place?, UnpackedFloat.isNaN]

/-! ## Packing -/

/-- A number with a full mantissa, and an exponent that the format has. -/
structure Normal (m : Nat) (e : Int) : Prop where
  le : 2 ^ 52 ≤ m
  lt : m < 2 ^ 53
  least : -1074 ≤ e
  greatest : e ≤ 971

namespace Normal

variable {m : Nat} {e : Int}

theorem pos (h : Normal m e) : 0 < m := Nat.lt_of_lt_of_le (by decide) h.le

theorem log2_eq (h : Normal m e) : m.log2 = 52 := (Nat.log2_eq_iff h.pos.ne').2 ⟨h.le, h.lt⟩

/-- The mantissa without its first bit, with that bit put back. -/
theorem toNat_append (h : Normal m e) : (1#1 ++ BitVec.ofNat 52 m).toNat = m := by
  have hle := h.le
  have hlt := h.lt
  rw [BitVec.toNat_append, ← Nat.shiftLeft_add_eq_or_of_lt (BitVec.ofNat 52 m).isLt,
    BitVec.toNat_ofNat, Nat.shiftLeft_eq]
  show 1 * 2 ^ 52 + m % 2 ^ 52 = m
  omega

end Normal

/-- A number with a full mantissa is packed and unpacked without loss. -/
theorem unpack_pack {m : Nat} {e : Int} (h : Normal m e) (s : Sign) :
    UnpackedFloat.unpack .binary64 (UnpackedFloat.pack .binary64 (.finite s m e h.pos)) =
      .finite s m e h.pos := by
  have hleast := h.least
  have hgreatest := h.greatest
  have hbias :
      (e + Format.binary64.exponentBias + Format.binary64.mantissaBitsWithoutImplicit).toNat =
      (e + 1075).toNat := by
    show (e + 1023 + 52).toNat = (e + 1075).toNat
    omega
  have hfield : (BitVec.ofNat 11 (e + 1075).toNat).toNat = (e + 1075).toNat := by
    rw [BitVec.toNat_ofNat, Nat.mod_eq_of_lt (by omega)]
  have hfull : BitVec.ofNat 11 (e + 1075).toNat ≠ -1#11 := by
    intro hfull
    rw [hfull] at hfield
    have : (2047 : Nat) = (e + 1075).toNat := hfield
    omega
  have hempty : BitVec.ofNat 11 (e + 1075).toNat ≠ 0#11 := by
    intro hempty
    rw [hempty] at hfield
    have : (0 : Nat) = (e + 1075).toNat := hfield
    omega
  have hexponent : ((e + 1075).toNat : Int) - (1023 + 52) = e := by omega
  rw [UnpackedFloat.pack]
  simp only [h.log2_eq, hbias]
  rw [if_neg (by omega), if_pos (show 52 + 1 = Format.binary64.mantissaBits from rfl),
    UnpackedFloat.unpack]
  simp only [unpackMantissa_packComponents, unpackExponent_packComponents,
    unpackSign_packComponents, Sign.ofBitVec_toBitVec]
  rw [if_neg hfull, if_neg hempty]
  congr 1
  · exact h.toNat_append
  · rw [hfield]
    exact hexponent

/-! ## Rounding -/

/-- A mantissa with its last bits cut off, and rounded by what they were. -/
def cut (m k : Nat) : Nat := ((⟨m, false, false⟩ : ExtendedMantissa) >>> k).roundedMantissa

theorem mantissa_shiftRight (em : ExtendedMantissa) (k : Nat) :
    (em >>> k).mantissa = em.mantissa / 2 ^ k := by
  induction k with
  | zero => exact (Nat.div_one _).symm
  | succ k ih =>
    show (em >>> k).mantissa / 2 = _
    rw [ih, Nat.div_div_eq_div_mul, Nat.pow_succ]

theorem roundedMantissa_bounds (em : ExtendedMantissa) :
    em.mantissa ≤ em.roundedMantissa ∧ em.roundedMantissa ≤ em.mantissa + 1 := by
  obtain ⟨m, _ | _, _ | _⟩ := em <;>
    simp [ExtendedMantissa.roundedMantissa, ExtendedMantissa.accuracy, Accuracy.roundToNearestEven]
  omega

theorem cut_bounds (m k : Nat) : m / 2 ^ k ≤ cut m k ∧ cut m k ≤ m / 2 ^ k + 1 := by
  have hbounds := roundedMantissa_bounds ((⟨m, false, false⟩ : ExtendedMantissa) >>> k)
  rwa [mantissa_shiftRight] at hbounds

/-- Nothing is lost when zeros are moved out. -/
theorem shiftRight_zeros (m k : Nat) :
    (⟨m * 2 ^ k, false, false⟩ : ExtendedMantissa) >>> k = ⟨m, false, false⟩ := by
  induction k generalizing m with
  | zero => exact congrArg (ExtendedMantissa.mk · false false) (Nat.mul_one m)
  | succ k ih =>
    show ((⟨m * 2 ^ (k + 1), false, false⟩ : ExtendedMantissa) >>> k).shiftRightOne = _
    rw [Nat.pow_succ', ← Nat.mul_assoc, ih]
    simp [ExtendedMantissa.shiftRightOne]

theorem cut_zeros (m k : Nat) : cut (m * 2 ^ k) k = m := by
  rw [cut, shiftRight_zeros]
  rfl

theorem log2_mul_two_pow {m : Nat} (hm : m ≠ 0) (k : Nat) : (m * 2 ^ k).log2 = m.log2 + k := by
  obtain ⟨hlow, hhigh⟩ := (Nat.log2_eq_iff hm).1 rfl
  rw [Nat.log2_eq_iff (Nat.mul_ne_zero hm (Nat.two_pow_pos k).ne'), Nat.add_right_comm, Nat.pow_add,
    Nat.pow_add]
  exact ⟨Nat.mul_le_mul_right _ hlow, Nat.mul_lt_mul_of_pos_right hhigh (Nat.two_pow_pos k)⟩

section

variable {m : Nat} {e : Int} {k : Nat}

/-- A mantissa of at least 53 bits is moved down to 53 bits, where the exponent allows it. -/
theorem shiftToTargetExponent_eq (hlog : m.log2 = 52 + k) (he : -1074 ≤ e + k) :
    shiftToTargetExponent .binary64 m e .exact =
      ((⟨m, false, false⟩ : ExtendedMantissa) >>> k, e + k) := by
  have htarget : Format.binary64.targetExponent (totalExponent m e) = e + k := by
    simp only [Format.targetExponent, totalExponent, hlog, Format.mantissaBits, Format.minExponent]
    omega
  have hshift : (e + k - e).toNat = k := by omega
  simp only [shiftToTargetExponent, shiftToExponent, htarget, hshift,
    ExtendedMantissa.ofMantissaAndAccuracy]

/-- Rounding is two shifts, the second one for a carry. -/
theorem roundWithAccuracy_of_shifts {s : Sign} {first second : ExtendedMantissa} {f g : Int}
    (hfirst : shiftToTargetExponent .binary64 m e .exact = (first, f))
    (hsecond : shiftToTargetExponent .binary64 first.roundedMantissa f .exact = (second, g))
    (hpos : 0 < second.mantissa) :
    roundWithAccuracy .binary64 s m e .exact = .finite s second.mantissa g hpos := by
  simp only [roundWithAccuracy, hfirst, hsecond]
  rw [dif_neg hpos.ne']

/-- Rounding is over when what is left of the mantissa is full. -/
theorem roundWithAccuracy_of_normal (hlog : m.log2 = 52 + k) (h : Normal (cut m k) (e + k))
    (s : Sign) :
    roundWithAccuracy .binary64 s m e .exact = .finite s (cut m k) (e + k) h.pos := by
  have hsecond : shiftToTargetExponent .binary64 (cut m k) (e + k) .exact =
      (⟨cut m k, false, false⟩, e + k) := by
    rw [shiftToTargetExponent_eq (k := 0) h.log2_eq (by simpa using h.least)]
    exact congrArg _ (Int.add_zero _)
  exact roundWithAccuracy_of_shifts (shiftToTargetExponent_eq hlog h.least) hsecond h.pos

/-- Rounding may carry into one more bit, and then the exponent goes up once more. -/
theorem roundWithAccuracy_of_carry (hlog : m.log2 = 52 + k) (hleast : -1074 ≤ e + k)
    (hcarry : cut m k = 2 ^ 53) (s : Sign) :
    roundWithAccuracy .binary64 s m e .exact = .finite s (2 ^ 52) (e + k + 1) (by decide) := by
  have hsecond : shiftToTargetExponent .binary64 (cut m k) (e + k) .exact =
      (⟨2 ^ 52, false, false⟩, e + k + 1) := by
    rw [hcarry, shiftToTargetExponent_eq (k := 1) (by decide) (by omega)]
    rfl
  exact roundWithAccuracy_of_shifts (shiftToTargetExponent_eq hlog hleast) hsecond (by decide)

/-- A number that has a full mantissa and then zeros is rounded without loss. -/
theorem roundWithAccuracy_zeros (h : Normal m (e + k)) (s : Sign) :
    roundWithAccuracy .binary64 s (m * 2 ^ k) e .exact = .finite s m (e + k) h.pos := by
  have hlog : (m * 2 ^ k).log2 = 52 + k := by rw [log2_mul_two_pow h.pos.ne', h.log2_eq]
  have hround := roundWithAccuracy_of_normal (e := e) hlog (by rwa [cut_zeros]) s
  simpa only [cut_zeros] using hround

/-- A number with at least 53 bits is rounded to one with 53 bits, and loses no more bits than it
has too many, or one more. -/
theorem exists_roundWithAccuracy (hlog : m.log2 = 52 + k) (hleast : -1074 ≤ e + k)
    (hgreatest : e + k ≤ 970) (s : Sign) :
    ∃ (n : Nat) (f : Int) (h : Normal n f),
      roundWithAccuracy .binary64 s m e .exact = .finite s n f h.pos ∧ e + k ≤ f := by
  have hm : m ≠ 0 := by
    rintro rfl
    rw [Nat.log2_zero] at hlog
    omega
  obtain ⟨hlow, hhigh⟩ := (Nat.log2_eq_iff hm).1 hlog
  have hcut := cut_bounds m k
  have hcutlow : 2 ^ 52 ≤ m / 2 ^ k := by
    rw [Nat.le_div_iff_mul_le (Nat.two_pow_pos k), ← Nat.pow_add]
    exact hlow
  have hcuthigh : m / 2 ^ k < 2 ^ 53 := by
    rw [Nat.div_lt_iff_lt_mul (Nat.two_pow_pos k), ← Nat.pow_add]
    rwa [Nat.add_right_comm] at hhigh
  by_cases hcarry : cut m k = 2 ^ 53
  · exact ⟨_, _, ⟨Nat.le_refl _, by decide, by omega, by omega⟩,
      roundWithAccuracy_of_carry hlog hleast hcarry s, by omega⟩
  · have hnormal : Normal (cut m k) (e + k) := ⟨by omega, by omega, hleast, by omega⟩
    exact ⟨_, _, hnormal, roundWithAccuracy_of_normal hlog hnormal s, Int.le_refl _⟩

end

/-! ## Integers -/

/-- A number with a full mantissa stays what it is when it is multiplied by one. -/
theorem mul_one {m : Nat} {e : Int} (h : Normal m e) (s : Sign) (hone : 0 < 2 ^ 52) :
    UnpackedFloat.mul .binary64 (.finite s m e h.pos) (.finite .positive (2 ^ 52) (-52) hone) =
      .finite s m e h.pos := by
  have hsign : s * .positive = s := by cases s <;> rfl
  have hexponent : e + -52 + (52 : Nat) = e := by omega
  have hround := roundWithAccuracy_zeros (k := 52) (e := e + -52) (by rwa [hexponent]) s
  simpa only [UnpackedFloat.mul, hsign, hexponent] using hround

section

variable {n k : Nat}

/-- A natural number that fills a mantissa with zeros behind it is rounded without loss. -/
theorem round_natCast (h : Normal (n * 2 ^ k) (-k)) :
    UnpackedFloat.round .binary64 .positive n 0 = .finite .positive (n * 2 ^ k) (-k) h.pos := by
  have hn : n ≠ 0 := by
    rintro rfl
    exact absurd h.pos (by simp)
  have hlog : n.log2 + k = 52 := by rw [← log2_mul_two_pow hn, h.log2_eq]
  have htarget : Format.binary64.targetExponent (totalExponent n 0) = -k := by
    simp only [Format.targetExponent, totalExponent, Format.mantissaBits, Format.minExponent]
    omega
  have hshift : ((0 : Int) - -k).toNat = k := by omega
  have hround := roundWithAccuracy_zeros (k := 0) (m := n * 2 ^ k) (e := (0 : Int) - k)
    (by simpa using h) .positive
  simp only [UnpackedFloat.round, decreaseExponent, htarget, hshift, Nat.shiftLeft_eq]
  simpa using hround

/-- The conversion of a 64-bit number, where it is exact. -/
theorem unpack_toFloat (hlt : n < 2 ^ 64) (h : Normal (n * 2 ^ k) (-k)) :
    n.toUInt64.toFloat.toModel.unpack = .finite .positive (n * 2 ^ k) (-k) h.pos := by
  have hpos : 0 < n := Nat.pos_of_mul_pos_right h.pos
  have hword : n.toUInt64.toNat = n := by
    rw [UInt64.toNat_ofNat', Nat.mod_eq_of_lt hlt]
  have hsign : compare (n : Int) 0 = .gt := Int.compare_eq_gt.2 (by omega)
  show UnpackedFloat.unpack .binary64 (UnpackedFloat.pack .binary64
    (UnpackedFloat.normalize .binary64 n.toUInt64.toNat 0 .positive)) = _
  rw [hword, UnpackedFloat.normalize, hsign, Int.toNat_natCast, round_natCast h, unpack_pack h]

theorem ofNat_eq_mul (hlt : n < 2 ^ 53) :
    Float.ofNat n = n.toUInt64.toFloat * Float.ofBits 0x3FF0000000000000 := by
  show Float.ofScientific n false 0 = _
  rw [Float.ofScientific, dif_pos ⟨hlt, by decide⟩]
  rfl

/-- Natural numbers below `2^53` are converted without loss. -/
theorem unpack_ofNat_of_lt (hlt : n < 2 ^ 53) (h : Normal (n * 2 ^ k) (-k)) :
    (Float.ofNat n).toModel.unpack = .finite .positive (n * 2 ^ k) (-k) h.pos := by
  have hone : (Float.ofBits 0x3FF0000000000000).toModel.unpack =
      .finite .positive (2 ^ 52) (-52) (by decide) := rfl
  rw [ofNat_eq_mul hlt]
  show UnpackedFloat.unpack .binary64 (UnpackedFloat.pack .binary64 (UnpackedFloat.mul .binary64
    n.toUInt64.toFloat.toModel.unpack (Float.ofBits 0x3FF0000000000000).toModel.unpack)) = _
  rw [unpack_toFloat (by omega) h, hone, mul_one h, unpack_pack h]

/-- Natural numbers from `2^53` on are converted to numbers with an exponent above zero. -/
theorem unpack_ofNat_of_le (hle : 2 ^ 53 ≤ n) (hlt : n < 2 ^ 64) :
    ∃ (m : Nat) (e : Int) (h : Normal m e),
      (Float.ofNat n).toModel.unpack = .finite .positive m e h.pos ∧ 1 ≤ e := by
  have hn : n ≠ 0 := by omega
  have hlow : 53 ≤ n.log2 := (Nat.le_log2 hn).2 hle
  have hhigh : n.log2 < 64 := (Nat.log2_lt hn).2 hlt
  have hlog : (n * 2 ^ 53).log2 = 52 + (n.log2 + 1) := by rw [log2_mul_two_pow hn]; omega
  obtain ⟨m, e, h, hround, he⟩ :=
    exists_roundWithAccuracy (e := -53) hlog (by omega) (by omega) .positive
  refine ⟨m, e, h, ?_, by omega⟩
  have hscaled : UnpackedFloat.ofScientific .binary64 n 0 = .finite .positive m e h.pos := by
    have hrange : ¬(0 : Int) < -(2 ^ Format.binary64.exponentBits + n.log2) := by
      show ¬(0 : Int) < -(2048 + n.log2)
      omega
    rw [UnpackedFloat.ofScientific, dif_neg hn, if_neg (by decide), if_neg hrange,
      if_pos (by decide)]
    show roundWithAccuracy .binary64 .positive (n <<< 53 * 1) (-53) .exact = _
    rw [Nat.mul_one, Nat.shiftLeft_eq, hround]
  have hslow : Float.ofNat n = Float.ofModel (Float.Model.ofScientific n 0) := by
    show Float.ofScientific n false 0 = _
    rw [Float.ofScientific, dif_neg (by omega)]
    rfl
  rw [hslow]
  show UnpackedFloat.unpack .binary64 (UnpackedFloat.pack .binary64
    (UnpackedFloat.ofScientific .binary64 n 0)) = _
  rw [hscaled, unpack_pack h]

/-- What a natural number is converted to. -/
theorem unpack_ofNat (hpos : 0 < n) (hlt : n < 2 ^ 64) :
    ∃ (m : Nat) (e : Int) (h : Normal m e),
      (Float.ofNat n).toModel.unpack = .finite .positive m e h.pos ∧
      (e ≤ 0 ∧ m = n * 2 ^ (-e).toNat ∨ 1 ≤ e ∧ 2 ^ 53 ≤ n) := by
  rcases Nat.lt_or_ge n (2 ^ 53) with hsmall | hlarge
  · obtain ⟨k, hk⟩ : ∃ k, n.log2 + k = 52 := by
      have hlog := (Nat.log2_lt hpos.ne').2 hsmall
      exact ⟨52 - n.log2, by omega⟩
    have hlog : (n * 2 ^ k).log2 = 52 := by rw [log2_mul_two_pow hpos.ne', hk]
    obtain ⟨hlow, hhigh⟩ :=
      (Nat.log2_eq_iff (Nat.mul_ne_zero hpos.ne' (Nat.two_pow_pos k).ne')).1 hlog
    have hnormal : Normal (n * 2 ^ k) (-k) := ⟨hlow, hhigh, by omega, by omega⟩
    exact ⟨_, _, hnormal, unpack_ofNat_of_lt hsmall hnormal, .inl ⟨by omega, by simp⟩⟩
  · obtain ⟨m, e, h, hunpack, he⟩ := unpack_ofNat_of_le hlarge hlt
    exact ⟨m, e, h, hunpack, .inr ⟨he, hlarge⟩⟩

end

/-- Where an integer stands when it is converted. -/
theorem exists_place?_ofInt {n : Int} (hlt : n.natAbs < 2 ^ 64) :
    ∃ (m : Nat) (e : Int),
      place? (Float.ofInt n).toModel.unpack = some (n.sign, n.sign * e, n.sign * m) ∧
      (e ≤ 0 ∧ m = n.natAbs * 2 ^ (-e).toNat ∨ 1 ≤ e ∧ 2 ^ 53 ≤ n.natAbs) := by
  match n with
  | .ofNat 0 => exact ⟨0, 0, rfl, .inl ⟨Int.le_refl 0, rfl⟩⟩
  | .ofNat (n + 1) =>
    obtain ⟨m, e, h, hunpack, hplace⟩ := unpack_ofNat (Nat.succ_pos n) hlt
    refine ⟨m, e, ?_, hplace⟩
    show place? (Float.ofNat (n + 1)).toModel.unpack =
      some (1, 1 * e, 1 * (m : Int))
    rw [hunpack, Int.one_mul, Int.one_mul]
    rfl
  | .negSucc n =>
    obtain ⟨m, e, h, hunpack, hplace⟩ := unpack_ofNat (Nat.succ_pos n) hlt
    refine ⟨m, e, ?_, hplace⟩
    show place? (UnpackedFloat.unpack .binary64 (UnpackedFloat.pack .binary64
      (Float.ofNat (n + 1)).toModel.unpack.neg)) =
        some (-1, -1 * e, -1 * (m : Int))
    rw [hunpack, Int.neg_one_mul, Int.neg_one_mul]
    exact congrArg place? (unpack_pack h .negative)

end Unpacked

/-! ## Floats -/

namespace Floats

/-- Where a float stands among all numbers. -/
def place? (x : Float) : Option (Int × Int × Int) := Unpacked.place? x.toModel.unpack

/-- The undefined number alone stands nowhere. -/
theorem place?_eq_none_iff {x : Float} : place? x = none ↔ x.isNaN = true :=
  Unpacked.place?_eq_none_iff

theorem beq_eq_compare (x y : Float) :
    (x == y) = (x.toModel.unpack.compare y.toModel.unpack == some .eq) := rfl

theorem lt_iff_compare {x y : Float} :
    x < y ↔ x.toModel.unpack.compare y.toModel.unpack = some .lt := by
  show (decide (x.toModel.unpack.lt y.toModel.unpack = true)) = true ↔ _
  rw [decide_eq_true_eq, UnpackedFloat.lt, beq_iff_eq]

/-- The order of two floats is that of their places. -/
theorem orderOfFloats_eq (x y : Float) :
    Value.orderOfFloats x y =
      (place? x).bind fun p => (place? y).map (Unpacked.comparePlaces p) := by
  rw [place?, place?, ← Unpacked.compare_eq_places, Value.orderOfFloats]
  simp only [lt_iff_compare, beq_eq_compare,
    Unpacked.compare_swap x.toModel.unpack y.toModel.unpack]
  cases x.toModel.unpack.compare y.toModel.unpack with
  | none => rfl
  | some o => cases o <;> rfl

/-- Two floats are equal just if they stand in one place. -/
theorem beq_iff_place? {x y : Float} :
    (x == y) = true ↔ ∃ p, place? x = some p ∧ place? y = some p := by
  rw [beq_eq_compare, beq_iff_eq, Unpacked.compare_eq_places]
  show ((place? x).bind fun p => (place? y).map (Unpacked.comparePlaces p)) = some .eq ↔ _
  cases place? x with
  | none => simp
  | some p =>
    cases place? y with
    | none => simp
    | some q => simpa [Unpacked.comparePlaces_eq_eq_iff] using eq_comm

/-- A word stands somewhere when it is converted. -/
theorem exists_place?_ofInt (word : Int64) : ∃ p, place? (Float.ofInt word.toInt) = some p := by
  have hbounds := Word.bounds_toInt word
  simp only [Word.least, Word.greatest] at hbounds
  obtain ⟨m, e, hplace, -⟩ := Unpacked.exists_place?_ofInt (n := word.toInt) (by omega)
  exact ⟨_, hplace⟩

/-- No other word is converted to the place of an integer below `2^53`. -/
theorem eq_of_place?_ofInt_eq {a c : Int64} (ha : a.toInt.natAbs < 2 ^ 53)
    (h : place? (Float.ofInt a.toInt) = place? (Float.ofInt c.toInt)) : a = c := by
  have hbounds := Word.bounds_toInt c
  simp only [Word.least, Word.greatest] at hbounds
  obtain ⟨m, e, hplace, hm⟩ := Unpacked.exists_place?_ofInt (n := a.toInt) (by omega)
  obtain ⟨n, f, hplace', hn⟩ := Unpacked.exists_place?_ofInt (n := c.toInt) (by omega)
  rw [place?, place?, hplace, hplace', Option.some_inj, Prod.mk.injEq, Prod.mk.injEq] at h
  obtain ⟨hsign, hexponent, hmantissa⟩ := h
  rw [← Int64.toInt_inj]
  by_cases hzero : a.toInt = 0
  · rw [hzero, Int.sign_zero, eq_comm, Int.sign_eq_zero_iff_zero] at hsign
    rw [hzero, hsign]
  · have hne : a.toInt.sign ≠ 0 := mt Int.sign_eq_zero_iff_zero.1 hzero
    rw [← hsign] at hexponent hmantissa
    obtain rfl : e = f := Int.eq_of_mul_eq_mul_left hne hexponent
    obtain rfl : m = n := Int.ofNat_inj.1 (Int.eq_of_mul_eq_mul_left hne hmantissa)
    -- the exponent tells that the other integer is converted without loss as well
    have hboth : a.toInt.natAbs * 2 ^ (-e).toNat = c.toInt.natAbs * 2 ^ (-e).toNat := by
      rcases hm with ⟨hsmall, hm⟩ | ⟨-, hlarge⟩
      · rcases hn with ⟨-, hn⟩ | ⟨hlarge, -⟩
        · rw [← hm, ← hn]
        · omega
      · omega
    have habs : a.toInt.natAbs = c.toInt.natAbs :=
      Nat.eq_of_mul_eq_mul_right (Nat.two_pow_pos _) hboth
    rw [← Int.sign_mul_natAbs a.toInt, ← Int.sign_mul_natAbs c.toInt, hsign, habs]

end Floats
end TokenScript
