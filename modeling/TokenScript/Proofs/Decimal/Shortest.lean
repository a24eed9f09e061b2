import Mathlib.Algebra.Order.Field.Power
import Mathlib.Data.Rat.Floor
import Mathlib.Tactic.GCongr
import Mathlib.Tactic.Linarith
import Mathlib.Tactic.Positivity
import Mathlib.Tactic.Ring
import TokenScript.Decimal.Shortest

/-!
# Where the shortest decimal form lies

The shortest decimal form of a binary64 number is looked for on grids of powers of ten, from one
that is too coarse to finer and finer ones.  The first grid with a point that stands for the number
has it.  So the form is no finer than any grid that is known to have such a point, and it is at most
half a step away from the number.

A grid whose pitch is at most half a step has a point that stands for the number.  For a number with
a positive exponent, which is whole, there is such a grid among those of the powers of ten that are
whole themselves, and so its shortest form is whole as well.

What is at most half a step away from a number does not get past another number.  So a shortest form
is on the same side of the other numbers as the number it stands for.

* `Binary.covers_of_onGrid?`, `Binary.isSome_onGrid?`: points of a grid.
* `Binary.search_cases`: the first grid with a point.
* `Binary.Full`: the fields of a finite number; `Binary.full_ofFloat`.
* `Binary.toRat`, `Binary.Near`: what is at most half a step away; `Binary.near_of_covers`.
* `Binary.shortest_cases`: the shortest form, whole or finer.
* `Binary.Near.lt`, `Binary.Near.gt`: the sides of a number.
-/

namespace TokenScript.Binary

open Decimal

variable {b : Binary} {tie : Tie} {g : Grid} {digits : Nat}

/-! ## Points of a grid -/

theorem le_lower_add_two (b : Binary) : 4 * b.mantissa ≤ b.lower + 2 := by
  simp only [lower, middle]
  split <;> omega

theorem lower_lt (hpos : 0 < b.mantissa) : b.lower < b.middle := by
  simp only [lower, middle]
  split <;> omega

/-- A point that stands for the number lies in its interval. -/
theorem covers_bounds (h : b.covers g digits = true) :
    b.lower * g.unit ≤ digits * g.pitch ∧ digits * g.pitch ≤ b.upper * g.unit := by
  simp only [covers] at h
  split at h
  · simpa using h
  · simp only [Bool.and_eq_true, decide_eq_true_eq] at h
    exact ⟨Nat.le_of_lt h.1, Nat.le_of_lt h.2⟩

/-- So does a point inside the interval. -/
theorem covers_of_bounds (hlow : b.lower * g.unit < digits * g.pitch)
    (hhigh : digits * g.pitch < b.upper * g.unit) : b.covers g digits = true := by
  simp only [covers]
  split
  · simp [Nat.le_of_lt hlow, Nat.le_of_lt hhigh]
  · simp [hlow, hhigh]

/-- The point of a grid that stands for the number lies in its interval, and is not zero. -/
theorem covers_of_onGrid? (h : b.onGrid? tie g = some digits) :
    b.covers g digits = true ∧ 0 < digits := by
  simp only [onGrid?] at h
  have hbelow :
      (decide (0 < b.middle * g.unit / g.pitch) && b.covers g (b.middle * g.unit / g.pitch)) =
        true →
      b.covers g (b.middle * g.unit / g.pitch) = true ∧ 0 < b.middle * g.unit / g.pitch := by
    intro hcovers
    simpa [and_comm] using hcovers
  split at h
  · cases h
  · next hleft _ =>
    obtain rfl := Option.some.inj h
    exact hbelow hleft
  · next _ hright =>
    obtain rfl := Option.some.inj h
    exact ⟨hright, Nat.succ_pos _⟩
  · next hleft hright =>
    -- whichever of the two is taken
    have htaken : digits = b.middle * g.unit / g.pitch ∨
        digits = b.middle * g.unit / g.pitch + 1 := by
      grind
    rcases htaken with rfl | rfl
    · exact hbelow hleft
    · exact ⟨hright, Nat.succ_pos _⟩

/-- A grid whose pitch is at most half a step has a point that stands for the number. -/
theorem isSome_onGrid? (hpos : 0 < b.mantissa) (hunit : 0 < g.unit) (hpitch : 0 < g.pitch)
    (hle : g.pitch ≤ 2 * g.unit) : (b.onGrid? tie g).isSome = true := by
  have hvalue : 0 < b.middle * g.unit := Nat.mul_pos (by simp only [middle]; omega) hunit
  have hlower : b.lower * g.unit < b.middle * g.unit :=
    Nat.mul_lt_mul_of_pos_right (lower_lt hpos) hunit
  have hupper : b.upper * g.unit = b.middle * g.unit + 2 * g.unit := by rw [upper, Nat.add_mul]
  have hdivision := Nat.div_add_mod' (b.middle * g.unit) g.pitch
  have hrest := Nat.mod_lt (b.middle * g.unit) hpitch
  have hcovers :
      (0 < b.middle * g.unit / g.pitch ∧ b.covers g (b.middle * g.unit / g.pitch) = true) ∨
      b.covers g (b.middle * g.unit / g.pitch + 1) = true := by
    by_cases hexact : b.middle * g.unit % g.pitch = 0
    · -- the number itself is a point
      refine Or.inl ⟨Nat.div_pos (Nat.le_of_dvd hvalue (Nat.dvd_of_mod_eq_zero hexact)) hpitch,
        covers_of_bounds ?_ ?_⟩ <;> omega
    · refine Or.inr (covers_of_bounds ?_ ?_) <;> rw [Nat.add_mul, Nat.one_mul] <;> omega
  simp only [onGrid?]
  rcases hcovers with ⟨hbelow, hcovers⟩ | hcovers
  · simp only [hbelow, hcovers, decide_true, Bool.and_self]
    grind
  · simp only [hcovers]
    grind

/-! ## The search -/

/-- The search stops at the first grid with a point, or behind the last one. -/
theorem search_cases (b : Binary) (tie : Tie) (steps : Nat) (start : Int) :
    (∃ digits power, b.search tie steps start = ⟨digits, power⟩ ∧
      b.onGrid? tie (b.grid power) = some digits ∧
      ∀ place, power < place → place ≤ start → b.onGrid? tie (b.grid place) = none) ∨
    (b.search tie steps start).exponent = start - steps ∧
      ∀ place, start - steps < place → place ≤ start → b.onGrid? tie (b.grid place) = none := by
  induction steps generalizing start with
  | zero => exact Or.inr ⟨by simp [search], fun place hlt hle => by omega⟩
  | succ steps ih =>
    rw [search]
    cases hfound : b.onGrid? tie (b.grid start) with
    | some digits => exact Or.inl ⟨digits, start, rfl, hfound, fun place hlt hle => by omega⟩
    | none =>
      have hmore : ∀ place, place ≤ start →
          (place ≤ start - 1 → b.onGrid? tie (b.grid place) = none) →
          b.onGrid? tie (b.grid place) = none := by
        intro place hle hplace
        by_cases hlast : place = start
        · rw [hlast, hfound]
        · exact hplace (by omega)
      rcases ih (start - 1) with ⟨digits, power, heq, hdigits, hcoarser⟩ | ⟨heq, hcoarser⟩
      · exact Or.inl
          ⟨digits, power, heq, hdigits, fun place hlt hle => hmore place hle (hcoarser place hlt)⟩
      · refine Or.inr
          ⟨by rw [heq]; omega, fun place hlt hle => hmore place hle (hcoarser place (by omega))⟩

/-! ## Finite numbers -/

/-- The fields of a finite number.  The mantissa is full, as far as the exponent allows. -/
structure Full (b : Binary) : Prop where
  lt : b.mantissa < 2 ^ 53
  le : leastExponent < b.exponent → 2 ^ 52 ≤ b.mantissa
  le_exponent : leastExponent ≤ b.exponent
  exponent_le : b.exponent ≤ 972

theorem full_ofFloat (x : Float) : (ofFloat x).Full := by
  have hfraction : x.toBits.toNat % fractions < fractions := Nat.mod_lt _ (by decide)
  have hbiased : x.toBits.toNat / fractions % exponents < exponents := Nat.mod_lt _ (by decide)
  simp only [ofFloat]
  split
  · exact ⟨Nat.lt_trans hfraction (by decide), fun hlt => absurd hlt (Int.lt_irrefl _),
      Int.le_refl _,
      show leastExponent ≤ 972 by decide⟩
  · next hnormal =>
    simp only [fractions, exponents] at hfraction hbiased hnormal ⊢
    exact ⟨by simp only; omega, fun _ => by simp only; omega, by simp only [leastExponent]; omega,
      by simp only; omega⟩

/-! ## Quantities -/

/-- The magnitude itself. -/
def toRat (b : Binary) : ℚ := b.mantissa * 2 ^ b.exponent

/-- A quantity is at most half a step away from the number. -/
def Near (b : Binary) (q : ℚ) : Prop := |q - b.toRat| ≤ 2 ^ b.exponent / 2

theorem pitch_pos (b : Binary) (power : Int) : 0 < (b.grid power).pitch := by
  simp only [grid, Nat.pow_eq]
  positivity

theorem unit_pos (b : Binary) (power : Int) : 0 < (b.grid power).unit := by
  simp only [grid, Nat.pow_eq]
  positivity

/-- The common measure of a quarter step and of the pitch of a grid. -/
theorem exists_measure (b : Binary) (power : Int) :
    ∃ measure : ℚ, 0 < measure ∧ ((b.grid power).unit : ℚ) = 2 ^ b.exponent / 4 * measure ∧
      ((b.grid power).pitch : ℚ) = 10 ^ power * measure := by
  have hsplit : ∀ (base : ℚ) (n : Int), base ≠ 0 →
      base ^ n.toNat = base ^ n * base ^ (-n).toNat := by
    intro base n hbase
    rw [← zpow_natCast, ← zpow_natCast, ← zpow_add₀ hbase]
    congr 1
    omega
  have hquarter : (2 : ℚ) ^ (b.exponent - 2) = 2 ^ b.exponent / 4 := by
    rw [zpow_sub₀ (by norm_num)]
    norm_num
  refine ⟨2 ^ (-(b.exponent - 2)).toNat * 10 ^ (-power).toNat, by positivity, ?_, ?_⟩
  · simp only [grid, Nat.pow_eq]
    push_cast
    rw [hsplit 2 _ (by norm_num), hquarter]
    ring
  · simp only [grid, Nat.pow_eq]
    push_cast
    rw [hsplit 10 power (by norm_num)]
    ring

/-- A point that stands for the number is near it. -/
theorem near_of_covers {power : Int} (h : b.covers (b.grid power) digits = true) :
    b.Near (digits * 10 ^ power) := by
  obtain ⟨measure, hpos, hunit, hpitch⟩ := b.exists_measure power
  obtain ⟨hlow, hhigh⟩ := covers_bounds h
  have hlower : (b.lower * (2 ^ b.exponent / 4) : ℚ) ≤ digits * 10 ^ power := by
    refine le_of_mul_le_mul_right ?_ hpos
    rw [mul_assoc, mul_assoc, ← hunit, ← hpitch]
    exact_mod_cast hlow
  have hupper : (digits * 10 ^ power : ℚ) ≤ b.upper * (2 ^ b.exponent / 4) := by
    refine le_of_mul_le_mul_right ?_ hpos
    rw [mul_assoc, mul_assoc, ← hunit, ← hpitch]
    exact_mod_cast hhigh
  have hends : (4 * b.mantissa - 2 : ℚ) ≤ b.lower := by
    rw [sub_le_iff_le_add]
    exact_mod_cast b.le_lower_add_two
  have hinside : (4 * b.mantissa - 2 : ℚ) * (2 ^ b.exponent / 4) ≤ digits * 10 ^ power :=
    (mul_le_mul_of_nonneg_right hends (by positivity)).trans hlower
  rw [upper, middle] at hupper
  push_cast at hupper
  rw [Near, toRat, abs_le]
  constructor <;> linarith

/-- A power of ten that is at most half a step of a number with a positive exponent. -/
def wholePower (b : Binary) : Nat := 3 * ((b.exponent - 1).toNat / 10)

theorem isSome_wholePower (tie : Tie) (hpos : 0 < b.mantissa) (hexponent : 1 ≤ b.exponent) :
    (b.onGrid? tie (b.grid b.wholePower)).isSome = true := by
  refine isSome_onGrid? hpos (b.unit_pos _) (b.pitch_pos _) ?_
  obtain ⟨less, hless⟩ : ∃ less : Nat, b.exponent = less + 1 := ⟨(b.exponent - 1).toNat, by omega⟩
  have hpower : 10 ^ b.wholePower ≤ 2 ^ less := calc
    10 ^ b.wholePower = 1000 ^ (less / 10) := by
      rw [wholePower, hless, show ((less : Int) + 1 - 1).toNat = less by omega, Nat.pow_mul]
    _ ≤ 1024 ^ (less / 10) := Nat.pow_le_pow_left (by decide) _
    _ = 2 ^ (10 * (less / 10)) := by rw [Nat.pow_mul]
    _ ≤ 2 ^ less := Nat.pow_le_pow_right (by decide) (Nat.mul_div_le less 10)
  obtain ⟨measure, hmeasure, hunit, hpitch⟩ := b.exists_measure b.wholePower
  have hle : ((b.grid b.wholePower).pitch : ℚ) ≤ 2 * (b.grid b.wholePower).unit := by
    rw [hunit, hpitch, hless, zpow_natCast, zpow_add_one₀ (by norm_num), zpow_natCast]
    calc (10 : ℚ) ^ b.wholePower * measure ≤ 2 ^ less * measure :=
          mul_le_mul_of_nonneg_right (by exact_mod_cast hpower) hmeasure.le
      _ = 2 * (2 ^ less * 2 / 4 * measure) := by ring
  exact_mod_cast hle

/-- A search that passes over the coarser grids does not get beyond that power. -/
theorem wholePower_le (h : b.Full) (hpos : 0 < b.mantissa) (hexponent : 1 ≤ b.exponent)
    {power : Int}
    (hcoarser : ∀ place, power < place → place ≤ b.ceilingPower →
      b.onGrid? tie (b.grid place) = none) :
    b.ceilingPower - 25 < b.wholePower ∧ b.wholePower ≤ power := by
  have hle : 2 ^ 52 ≤ b.mantissa := h.le (by simp only [leastExponent]; omega)
  have hlog : b.mantissa.log2 = 52 := (Nat.log2_eq_iff hpos.ne').2 ⟨hle, h.lt⟩
  have hgreatest := h.exponent_le
  have hstart : (b.wholePower : Int) ≤ b.ceilingPower ∧ b.ceilingPower - 25 < b.wholePower := by
    simp only [ceilingPower, wholePower, hlog]
    omega
  refine ⟨hstart.2, Int.not_lt.1 fun hlt => ?_⟩
  have hpoint := isSome_wholePower tie hpos hexponent
  rw [hcoarser _ hlt hstart.1] at hpoint
  cases hpoint

/-- The shortest form is finer than the whole numbers only for a number without positive exponent.
Otherwise it is a whole number near it. -/
theorem shortest_cases (h : b.Full) (hpos : 0 < b.mantissa) (tie : Tie) :
    (b.exponent ≤ 0 ∧ (b.shortest tie).exponent < 0) ∨
      ∃ digits power : Nat, b.shortest tie = ⟨digits, power⟩ ∧ 0 < digits ∧
        b.Near ((digits * 10 ^ power : Nat) : ℚ) := by
  rw [shortest, gridCount]
  rcases search_cases b tie 25 b.ceilingPower with ⟨digits, power, heq, hdigits, hcoarser⟩ |
    ⟨heq, hnone⟩
  · by_cases hpower : 0 ≤ power
    · obtain ⟨power, rfl⟩ := Int.eq_ofNat_of_zero_le hpower
      obtain ⟨hcovers, hdigits⟩ := covers_of_onGrid? hdigits
      have hnear := near_of_covers hcovers
      rw [zpow_natCast] at hnear
      exact Or.inr ⟨digits, power, heq, hdigits, by exact_mod_cast hnear⟩
    · refine Or.inl ⟨Int.not_lt.1 fun hexponent => hpower ?_, heq ▸ Int.not_le.1 hpower⟩
      exact Int.le_trans (Int.natCast_nonneg _) (wholePower_le h hpos hexponent hcoarser).2
  · -- the search runs out of grids
    have hexponent : b.exponent ≤ 0 := by
      refine Int.not_lt.1 fun hexponent => ?_
      obtain ⟨hlt, hle⟩ := wholePower_le h hpos hexponent hnone
      omega
    have hlog : b.mantissa.log2 ≤ 52 := Nat.lt_succ_iff.1 ((Nat.log2_lt hpos.ne').2 h.lt)
    refine Or.inl ⟨hexponent, ?_⟩
    rw [heq, ceilingPower]
    omega

/-! ## The sides of a number -/

section

variable {c : Binary} {q : ℚ}

/-- Of two numbers, the one with the greater exponent is greater. -/
theorem toRat_lt_of_exponent_lt (hb : b.Full) (hc : c.Full) (hlt : b.exponent < c.exponent) :
    b.toRat < c.toRat := by
  have hle : (2 ^ 52 : ℚ) ≤ c.mantissa := by
    exact_mod_cast hc.le (Int.lt_of_le_of_lt hb.le_exponent hlt)
  have hmantissa : (b.mantissa : ℚ) < 2 ^ 53 := by exact_mod_cast hb.lt
  calc b.toRat < 2 ^ 53 * 2 ^ b.exponent := mul_lt_mul_of_pos_right hmantissa (by positivity)
    _ = 2 ^ 52 * 2 ^ (b.exponent + 1) := by rw [zpow_add_one₀ (by norm_num)]; ring
    _ ≤ 2 ^ 52 * 2 ^ c.exponent := by gcongr <;> [norm_num; exact hlt]
    _ ≤ c.toRat := mul_le_mul_of_nonneg_right hle (by positivity)

/-- The step of a greater exponent is a multiple of the step. -/
theorem exists_step_eq (hle : b.exponent ≤ c.exponent) :
    ∃ more : Nat, c.exponent = b.exponent + more ∧
      (2 : ℚ) ^ c.exponent = 2 ^ more * 2 ^ b.exponent := by
  obtain ⟨more, hmore⟩ := Int.le.dest hle
  refine ⟨more, hmore.symm, ?_⟩
  rw [← hmore, zpow_add₀ (by norm_num), zpow_natCast, mul_comm]

/-- What is near a number stays on the same side of all greater numbers. -/
theorem Near.lt (hb : b.Full) (hc : c.Full) (hlt : b.toRat < c.toRat) (hq : b.Near q) :
    q < c.toRat := by
  obtain ⟨more, -, hpow⟩ := exists_step_eq
    (Int.not_lt.1 fun hexponent => lt_asymm hlt (toRat_lt_of_exponent_lt hc hb hexponent))
  have hstep : (0 : ℚ) < 2 ^ b.exponent := by positivity
  have hmantissa : b.mantissa + 1 ≤ c.mantissa * 2 ^ more := by
    rw [toRat, toRat, hpow, ← mul_assoc] at hlt
    exact_mod_cast lt_of_mul_lt_mul_right hlt hstep.le
  have hnear := (abs_le.1 hq).2
  rw [toRat] at hnear
  calc q < (b.mantissa + 1 : ℚ) * 2 ^ b.exponent := by linarith
    _ ≤ (c.mantissa * 2 ^ more : ℚ) * 2 ^ b.exponent :=
      mul_le_mul_of_nonneg_right (by exact_mod_cast hmantissa) hstep.le
    _ = c.toRat := by rw [toRat, hpow, mul_assoc]

/-- And of all smaller numbers, but for those next to a greater exponent. -/
theorem Near.gt (hb : b.Full) (hc : c.Full) (hlast : c.mantissa + 1 < 2 ^ 53)
    (hlt : c.toRat < b.toRat) (hq : b.Near q) : c.toRat < q := by
  obtain ⟨more, hmore, hpow⟩ := exists_step_eq
    (Int.not_lt.1 fun hexponent => lt_asymm hlt (toRat_lt_of_exponent_lt hb hc hexponent))
  have hstep : (0 : ℚ) < 2 ^ c.exponent := by positivity
  have hmantissa : (c.mantissa : ℚ) < (b.mantissa - 1 / 2) * 2 ^ more := by
    cases more with
    | zero =>
      rw [toRat, toRat, hpow, pow_zero, one_mul] at hlt
      have hle : (c.mantissa + 1 : ℚ) ≤ b.mantissa := by
        exact_mod_cast lt_of_mul_lt_mul_right hlt hstep.le
      rw [pow_zero]
      linarith
    | succ more =>
      have hfull : (2 ^ 52 : ℚ) ≤ b.mantissa := by
        have hleast := hc.le_exponent
        exact_mod_cast hb.le (by omega)
      have hlast : (c.mantissa + 1 : ℚ) < 2 ^ 53 := by exact_mod_cast hlast
      have hmore : (2 : ℚ) ≤ 2 ^ (more + 1) := by
        rw [pow_succ]
        linarith [one_le_pow₀ (n := more) (one_le_two : (1 : ℚ) ≤ 2)]
      calc (c.mantissa : ℚ) < (2 ^ 52 - 1 / 2) * 2 := by linarith
        _ ≤ (b.mantissa - 1 / 2) * 2 ^ (more + 1) :=
          mul_le_mul (by linarith) hmore (by norm_num) (by linarith)
  have hnear := (abs_le.1 hq).1
  rw [toRat, hpow] at hnear
  calc c.toRat < (b.mantissa - 1 / 2) * 2 ^ more * 2 ^ c.exponent :=
      mul_lt_mul_of_pos_right hmantissa hstep
    _ ≤ q := by linarith

/-- Numbers of one magnitude have the same fields. -/
theorem eq_of_toRat_eq (hb : b.Full) (hc : c.Full) (hnarrow : b.narrow = c.narrow)
    (heq : b.toRat = c.toRat) : b = c := by
  have hexponent : b.exponent = c.exponent := by
    refine Int.le_antisymm (Int.not_lt.1 fun hlt => ?_) (Int.not_lt.1 fun hlt => ?_)
    · exact (toRat_lt_of_exponent_lt hc hb hlt).ne heq.symm
    · exact (toRat_lt_of_exponent_lt hb hc hlt).ne heq
  rw [toRat, toRat, hexponent] at heq
  have hmantissa : b.mantissa = c.mantissa := by
    exact_mod_cast mul_right_cancel₀ (show (2 : ℚ) ^ c.exponent ≠ 0 by positivity) heq
  cases b
  cases c
  simp_all only

end

end TokenScript.Binary
