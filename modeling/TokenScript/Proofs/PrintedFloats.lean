import TokenScript.Proofs.Decimal.Shortest
import TokenScript.Proofs.ReadBack

/-!
# Printed numbers and printed integers

What `print` writes for a binary64 number is its shortest form with every digit in its place.  Below
`10^16` there is a point among them: either the shortest form has places, or it is whole and gets a
zero as its only place.  From `10^16` on there is none, so such a number looks like an integer.  It
is printed as one as long as a word can hold its digits; beyond that, no integer is printed like
this, and a reader takes the digits for a binary64 number again.

The digits are those of the shortest form and not those of the number.  This makes no difference to
either threshold: both are numbers themselves, and a shortest form is on the same side of them as
the number it stands for.  The last threshold has a shortest form that is greater.

* `Decimal.Pointed`, `Decimal.Pointed.exists_spells`: digits with a point among them.
* `Decimal.pointed_positionalText`, `Decimal.positionalText_whole`: digits in their places.
* `Binary.shortest_sides`, `Binary.magnitude_cases`: a printed magnitude, on either side of the
  thresholds.
* `Value.told_apart_of_pointed`, `Value.told_apart_of_digits`: what is printed, read again.
* `printed_floats_told_apart`: which numbers are printed as integers are.
-/

namespace TokenScript

open Decimal

/-! ## Digits in their places -/

namespace Decimal

variable {text : List Char} {negative : Bool}

/-- Digits with a point among them. -/
def Pointed (text : List Char) : Prop :=
  ∃ whole places, whole ≠ [] ∧ places ≠ [] ∧ Digits whole ∧ Digits places ∧
    text = whole ++ '.' :: places

theorem digits_zeros (count : Nat) : Digits (zeros count) := by
  intro c hc
  rw [List.eq_of_mem_replicate hc]
  rfl

theorem Digits.append {first second : List Char} (hfirst : Digits first) (hsecond : Digits second) :
    Digits (first ++ second) := by
  intro c hc
  rcases List.mem_append.1 hc with hc | hc
  · exact hfirst c hc
  · exact hsecond c hc

/-- Zeros behind a number multiply it. -/
theorem toDigits_append_zeros {n : Nat} (hn : 0 < n) (count : Nat) :
    Nat.toDigits 10 n ++ zeros count = Nat.toDigits 10 (n * 10 ^ count) := by
  induction count with
  | zero => simp [zeros]
  | succ count ih =>
    have hmore : 0 < n * 10 ^ count := Nat.mul_pos hn (Nat.pow_pos (by decide))
    have hzero : ['0'] = Nat.toDigits 10 0 := by decide
    rw [zeros, List.replicate_succ', ← List.append_assoc]
    change Nat.toDigits 10 n ++ zeros count ++ ['0'] = _
    rw [ih, hzero, Nat.toDigits_append_toDigits (by decide) hmore (by decide), Nat.pow_succ,
      Nat.add_zero, Nat.mul_comm 10, Nat.mul_assoc]

/-- Digits with places have a point among them. -/
theorem pointed_positionalText (fmt : Format) {digits : List Char} (hdigits : Digits digits)
    {exponent : Int} (hneg : exponent < 0) : Pointed (positionalText fmt digits exponent) := by
  cases exponent with
  | ofNat e => exact absurd hneg (Int.not_lt.2 (Int.natCast_nonneg e))
  | negSucc e =>
    simp only [positionalText]
    split
    · next hshort =>
      refine ⟨_, _, ?_, ?_, fun c hc => hdigits c (List.mem_of_mem_take hc),
        fun c hc => hdigits c (List.mem_of_mem_drop hc), rfl⟩
      · intro hnil
        have hlength := congrArg List.length hnil
        rw [List.length_take, List.length_nil] at hlength
        omega
      · intro hnil
        have hlength := congrArg List.length hnil
        rw [List.length_drop, List.length_nil] at hlength
        omega
    · next hlong =>
      refine ⟨['0'], zeros (e + 1 - digits.length) ++ digits, by simp,
        fun hnil => ?_, by simp [Digits],
        (digits_zeros _).append hdigits, by simp⟩
      have hlength := congrArg List.length hnil
      rw [List.length_append, zeros, List.length_replicate, List.length_nil] at hlength
      omega

/-- A whole number keeps a fractional digit below the format's threshold. -/
theorem positionalText_whole (fmt : Format) {n : Nat} (hn : 0 < n) (power limit : Nat)
    (hlimit : fmt.pointBelow = limit) (hpos : 0 < limit) :
    positionalText fmt (Nat.toDigits 10 n) power =
      Nat.toDigits 10 (n * 10 ^ power) ++ if n * 10 ^ power < 10 ^ limit then
        ['.', '0'] else [] := by
  have hplace : (power : Int) + (Nat.toDigits 10 n).length ≤ fmt.pointBelow ↔
      n * 10 ^ power < 10 ^ limit := by
    rw [← Nat.length_toDigits_le_iff (by decide) hpos, ← toDigits_append_zeros hn,
      List.length_append, zeros, List.length_replicate, hlimit]
    omega
  change Nat.toDigits 10 n ++ zeros power ++
    (if (power : Int) + (Nat.toDigits 10 n).length ≤ fmt.pointBelow then ['.', '0'] else []) = _
  simp only [toDigits_append_zeros hn, hplace]

/-- With a sign or without, they are a numeral. -/
theorem Pointed.exists_spells (h : Pointed text) (negative : Bool) :
    ∃ numeral, Numeral.Spells (minus negative ++ text) numeral := by
  obtain ⟨whole, places, hne, -, hwhole, hplaces, rfl⟩ := h
  exact ⟨_, minus negative, negative, _, _, _, [], 0, sign_minus negative,
    .point hne hwhole hplaces, .none,
    by rw [List.append_nil], rfl⟩

theorem Pointed.mem (h : Pointed text) : '.' ∈ text := by
  obtain ⟨whole, places, -, -, -, -, rfl⟩ := h
  simp

/-- Nothing is cut off from them. -/
theorem Pointed.trim_eq (h : Pointed text) :
    Text.trim (minus negative ++ text) = minus negative ++ text := by
  obtain ⟨whole, places, -, -, hwhole, hplaces, rfl⟩ := h
  refine Text.trim_eq_self fun c hmem => ?_
  rcases List.mem_append.1 hmem with hc | hc
  · exact (sign_minus negative).not_isBlank c hc
  · rcases List.mem_append.1 hc with hc | hc
    · exact hwhole.not_isBlank c hc
    · rcases List.mem_cons.1 hc with rfl | hc
      · decide
      · exact hplaces.not_isBlank c hc

/-- There is no point in an integer. -/
theorem SpellsInt.not_mem_point {n : Int} (h : SpellsInt text n) : '.' ∉ text := by
  obtain ⟨sign, negative, digits, hsign, -, hdigits, rfl, -⟩ := h
  intro hmem
  rcases List.mem_append.1 hmem with hc | hc
  · cases hsign <;> simp at hc
  · exact absurd (hdigits _ hc) (by decide)

end Decimal

/-! ## Magnitudes -/

namespace Binary

variable {b : Binary}

/-- The number `10^16`, from which on a whole number has no point. -/
def pointLimit (narrow : Bool) : Binary := ⟨5000000000000000, 1, narrow⟩

/-- The number `2^63`, the first that no word holds. -/
def wordLimit (narrow : Bool) : Binary := ⟨4503599627370496, 11, narrow⟩

theorem full_pointLimit (narrow : Bool) : (pointLimit narrow).Full :=
  ⟨by simp [pointLimit], fun _ => by simp [pointLimit], by simp [pointLimit, leastExponent],
    by simp [pointLimit]⟩

theorem full_wordLimit (narrow : Bool) : (wordLimit narrow).Full :=
  ⟨by simp [wordLimit], fun _ => by simp [wordLimit], by simp [wordLimit, leastExponent],
    by simp [wordLimit]⟩

theorem toRat_pointLimit (narrow : Bool) : (pointLimit narrow).toRat = 10 ^ 16 := by
  norm_num [toRat, pointLimit]

theorem toRat_wordLimit (narrow : Bool) : (wordLimit narrow).toRat = 2 ^ 63 := by
  norm_num [toRat, wordLimit]

theorem shortest_pointLimit (narrow : Bool) : (pointLimit narrow).shortest .up = ⟨1, 16⟩ := by
  revert narrow
  decide +kernel

theorem shortest_wordLimit (narrow : Bool) :
    (wordLimit narrow).shortest .up = ⟨9223372036854776, 3⟩ := by
  revert narrow
  decide +kernel

/-- A whole shortest form is on the same side of both thresholds as the number.  That of the last
one is greater. -/
theorem shortest_sides (h : b.Full) {digits power : Nat}
    (hshortest : b.shortest .up = ⟨digits, power⟩)
    (hnear : b.Near ((digits * 10 ^ power : Nat) : ℚ)) :
    (b.toRat < 10 ^ 16 ↔ digits * 10 ^ power < 10 ^ 16) ∧
      (b.toRat < 2 ^ 63 → digits * 10 ^ power < 2 ^ 63) ∧
      (2 ^ 63 ≤ b.toRat → 2 ^ 63 < digits * 10 ^ power) := by
  have hpoint := full_pointLimit b.narrow
  have hword := full_wordLimit b.narrow
  refine ⟨⟨fun hlt => ?_, fun hlt => ?_⟩, fun hlt => ?_, fun hle => ?_⟩
  · have hside := hnear.lt h hpoint (hlt.trans_eq (toRat_pointLimit _).symm)
    rw [toRat_pointLimit] at hside
    exact_mod_cast hside
  · refine lt_of_not_ge fun hle => ?_
    rcases hle.lt_or_eq with hgt | heq
    · have hside := hnear.gt h hpoint (by simp [pointLimit]) ((toRat_pointLimit _).trans_lt hgt)
      rw [toRat_pointLimit] at hside
      exact lt_asymm hlt (by exact_mod_cast hside)
    · rw [eq_of_toRat_eq h hpoint rfl (heq.symm.trans (toRat_pointLimit _).symm),
        shortest_pointLimit] at hshortest
      cases hshortest
      exact absurd hlt (by decide)
  · have hside := hnear.lt h hword (hlt.trans_eq (toRat_wordLimit _).symm)
    rw [toRat_wordLimit] at hside
    exact_mod_cast hside
  · rcases hle.lt_or_eq with hgt | heq
    · have hside := hnear.gt h hword (by simp [wordLimit]) ((toRat_wordLimit _).trans_lt hgt)
      rw [toRat_wordLimit] at hside
      exact_mod_cast hside
    · rw [eq_of_toRat_eq h hword rfl (heq.symm.trans (toRat_wordLimit _).symm), shortest_wordLimit]
        at hshortest
      cases hshortest
      decide

/-- A printed magnitude, on either side of the thresholds. -/
theorem magnitude_cases (h : b.Full) (hpos : 0 < b.mantissa) :
    (b.toRat < 10 ^ 16 ∧ Pointed (Format.printed.magnitude b)) ∨
      10 ^ 16 ≤ b.toRat ∧ ∃ n, 0 < n ∧ Format.printed.magnitude b = Nat.toDigits 10 n ∧
        (b.toRat < 2 ^ 63 → n < 2 ^ 63) ∧ (2 ^ 63 ≤ b.toRat → 2 ^ 63 < n) := by
  have hplaces : Format.printed.magnitude b =
      positionalText .printed (Nat.toDigits 10 (b.shortest .up).digits) (b.shortest .up).exponent :=
    rfl
  rw [hplaces]
  rcases shortest_cases h hpos .up with ⟨hexponent, hneg⟩ | ⟨digits, power, heq, hdigits, hnear⟩
  · have hlt := toRat_lt_of_exponent_lt h (full_pointLimit false) (Int.lt_add_one_of_le hexponent)
    rw [toRat_pointLimit] at hlt
    exact Or.inl ⟨hlt, pointed_positionalText _ (digits_toDigits _) hneg⟩
  · obtain ⟨hpoint, hbelow, hbehind⟩ := shortest_sides h heq hnear
    rw [heq, positionalText_whole .printed hdigits power 16 rfl (by decide)]
    by_cases hlt : b.toRat < 10 ^ 16
    · rw [if_pos (hpoint.1 hlt)]
      exact Or.inl
        ⟨hlt, _, ['0'], Nat.toDigits_ne_nil, by simp, digits_toDigits _, by simp [Digits], rfl⟩
    · rw [if_neg fun hfew => hlt (hpoint.2 hfew), List.append_nil]
      exact Or.inr
        ⟨not_lt.1 hlt, _, Nat.mul_pos hdigits (Nat.pow_pos (by decide)), rfl, hbelow, hbehind⟩

end Binary

/-! ## Printed numbers -/

namespace Value

variable {x : Float} {n : Int64} {negative : Bool} {digits : Nat}

theorem display_float (hfinite : x.isFinite = true) :
    (Value.float x).display = String.ofList (minus (Binary.isNegative x) ++
      if (Binary.ofFloat x).mantissa = 0 then ['0', '.', '0']
      else Format.printed.magnitude (Binary.ofFloat x)) := by
  have hnumber : x.isNaN = false ∧ x.isInf = false := by
    unfold Float.isFinite Float.Model.isFinite at hfinite
    unfold Float.isNaN Float.isInf Float.Model.isNaN Float.Model.isInf
    generalize x.toModel.unpack = fields at hfinite
    cases fields with
    | notANumber => cases hfinite
    | infinity => cases hfinite
    | zero => exact ⟨rfl, rfl⟩
    | finite => exact ⟨rfl, rfl⟩
  rw [display, Format.render, hnumber.1, hnumber.2, minus]
  cases Binary.isNegative x <;> rfl

/-- What is printed for a positive number with a sign or without, if a word holds it. -/
theorem display_of_signed (hpos : 0 < digits) (h : n.toInt = signed negative digits) :
    (Value.int n).display = String.ofList (minus negative ++ Nat.toDigits 10 digits) := by
  cases negative with
  | false =>
    have habs : n.toInt.natAbs = digits := by rw [h]; rfl
    rw [display_of_nonneg (by rw [h]; exact Int.natCast_nonneg _), habs]
    rfl
  | true =>
    have hneg : n.toInt = -digits := h
    have habs : n.toInt.natAbs = digits := by omega
    rw [display_of_neg (by omega), habs]
    rfl

/-- What is printed for a finite number: digits with a point among them, or digits alone. -/
theorem display_float_cases (hfinite : x.isFinite = true) :
    ((Binary.ofFloat x).toRat < 10 ^ 16 ∧ ∃ text, Pointed text ∧
      (Value.float x).display = String.ofList (minus (Binary.isNegative x) ++ text)) ∨
    (10 ^ 16 ≤ (Binary.ofFloat x).toRat ∧ ∃ digits, 0 < digits ∧
      (Value.float x).display =
        String.ofList (minus (Binary.isNegative x) ++ Nat.toDigits 10 digits) ∧
      ((Binary.ofFloat x).toRat < 2 ^ 63 → digits < 2 ^ 63) ∧
      (2 ^ 63 ≤ (Binary.ofFloat x).toRat → 2 ^ 63 < digits)) := by
  have hdisplay := display_float hfinite
  by_cases hzero : (Binary.ofFloat x).mantissa = 0
  · rw [if_pos hzero] at hdisplay
    refine Or.inl
      ⟨by simp [Binary.toRat, hzero], _, ⟨['0'], ['0'], ?_, ?_, ?_, ?_, rfl⟩, hdisplay⟩ <;>
      simp [Digits]
  · rw [if_neg hzero] at hdisplay
    rcases Binary.magnitude_cases (Binary.full_ofFloat x) (Nat.pos_of_ne_zero hzero) with
      ⟨hlt, hpointed⟩ | ⟨hle, digits, hpos, heq, hbounds⟩
    · exact Or.inl ⟨hlt, _, hpointed, hdisplay⟩
    · exact Or.inr ⟨hle, digits, hpos, by rw [hdisplay, heq], hbounds⟩

/-- With a point among them, digits are no integer, and are read as a binary64 number. -/
theorem told_apart_of_pointed {line : String} {text : List Char} (h : Pointed text)
    (hline : line = String.ofList (minus negative ++ text)) :
    '.' ∈ line.toList ∧ (∀ n : Int64, line ≠ (Value.int n).display) ∧
      ∃ y, ofLine line = .float y := by
  have htext : line.toList = minus negative ++ text := by rw [hline, String.toList_ofList]
  have hmem : '.' ∈ line.toList := by
    rw [htext]
    exact List.mem_append_right _ h.mem
  have htrim : Text.trim line.toList = line.toList := by rw [htext, h.trim_eq]
  have hnone : ∀ n : Int64, ¬ SpellsInt line.toList n.toInt := fun n hspells =>
    hspells.not_mem_point hmem
  obtain ⟨numeral, hspells⟩ := h.exists_spells negative
  refine ⟨hmem, fun n heq => hnone n (heq ▸ spellsInt_display n), _,
    ofLine_eq_float_iff.2 ⟨?_, numeral, ?_, rfl⟩⟩
  · rwa [htrim]
  · rwa [htrim, htext]

/-- Digits alone are an integer.  They are printed for a word, and read as one, as long as a word
can hold them. -/
theorem told_apart_of_digits {line : String} (hpos : 0 < digits)
    (hline : line = String.ofList (minus negative ++ Nat.toDigits 10 digits)) :
    '.' ∉ line.toList ∧ (∀ n : Int64, ofLine line = .int n ↔ line = (Value.int n).display) ∧
      (digits < 2 ^ 63 → ∃ n : Int64, line = (Value.int n).display) ∧
      (2 ^ 63 < digits → (∀ n : Int64, line ≠ (Value.int n).display) ∧
        ∃ y, ofLine line = .float y) := by
  have hspells : SpellsInt line.toList (signed negative digits) := by
    rw [hline, String.toList_ofList]
    exact spellsInt_signed _ digits
  have hprinted : ∀ n : Int64, SpellsInt line.toList n.toInt ↔ line = (Value.int n).display := by
    refine fun n => ⟨fun hn => ?_, fun heq => heq ▸ spellsInt_display n⟩
    rw [hline, display_of_signed hpos (hn.unique hspells)]
  have hbounds : (signed negative digits).natAbs = digits := by
    cases negative <;> simp [signed]
  have hleast : Word.least = -2 ^ 63 := by decide
  have hgreatest : Word.greatest = 2 ^ 63 - 1 := by decide
  refine ⟨hspells.not_mem_point, fun n => ?_, fun hlt => ?_, fun hlt => ?_⟩
  · rw [ofLine_eq_int_iff, hspells.trim_eq]
    exact hprinted n
  · obtain ⟨n, hn⟩ := Word.exists_word (n := signed negative digits) (by omega) (by omega)
    exact ⟨n, (hprinted n).1 (hn ▸ hspells)⟩
  · have hnone : ∀ n : Int64, ¬ SpellsInt line.toList n.toInt := by
      intro n hn
      have hword := Word.bounds_toInt n
      rw [hn.unique hspells] at hword
      omega
    obtain ⟨numeral, hnumeral⟩ := hspells.exists_spells
    refine ⟨fun n heq => hnone n ((hprinted n).2 heq), _,
      ofLine_eq_float_iff.2 ⟨?_, numeral, ?_, rfl⟩⟩
    · rwa [hspells.trim_eq]
    · rwa [hspells.trim_eq]

end Value

/-- **Numbers printed as integers are.**  Take any finite binary64 number, as it is printed.

* There is a point in the text just if the magnitude of the number is below `10^16`.
* The text is that of an integer just if the magnitude is at least `10^16`, and below `2^63`.
* As a line of input, the text becomes an integer just if it is printed for that integer; so it
  becomes one for the same magnitudes.
* For all others it becomes a binary64 number. -/
theorem printed_floats_told_apart (x : Float) (hfinite : x.isFinite = true) :
    ('.' ∈ (Value.float x).display.toList ↔ (Binary.ofFloat x).toRat < 10 ^ 16) ∧
    ((∃ n : Int64, (Value.float x).display = (Value.int n).display) ↔
      10 ^ 16 ≤ (Binary.ofFloat x).toRat ∧ (Binary.ofFloat x).toRat < 2 ^ 63) ∧
    (∀ n : Int64, Value.ofLine (Value.float x).display = .int n ↔
      (Value.float x).display = (Value.int n).display) ∧
    ((Binary.ofFloat x).toRat < 10 ^ 16 ∨ 2 ^ 63 ≤ (Binary.ofFloat x).toRat →
      ∃ y, Value.ofLine (Value.float x).display = .float y) := by
  rcases Value.display_float_cases hfinite with
    ⟨hlt, text, hpointed, hdisplay⟩ | ⟨hle, digits, hpos, hdisplay, hbelow, hbehind⟩
  · obtain ⟨hmem, hdiffer, y, hread⟩ := Value.told_apart_of_pointed hpointed hdisplay
    refine ⟨iff_of_true hmem hlt,
      iff_of_false (fun ⟨n, heq⟩ => hdiffer n heq) fun h => hlt.not_ge h.1,
      fun n => iff_of_false ?_ (hdiffer n), fun _ => ⟨y, hread⟩⟩
    rw [hread]
    nofun
  · obtain ⟨hnone, hread, hfits, hlarge⟩ := Value.told_apart_of_digits hpos hdisplay
    refine ⟨iff_of_false hnone hle.not_gt,
      ⟨fun ⟨n, heq⟩ => ⟨hle, ?_⟩, fun h => hfits (hbelow h.2)⟩, hread,
      fun h => ?_⟩
    · exact not_le.1 fun hword => (hlarge (hbehind hword)).1 n heq
    · exact (hlarge (hbehind (h.resolve_left hle.not_gt))).2

/-- Three is told apart from all integers. -/
theorem printed_floats_told_apart_three :
    (3.0 : Float).isFinite = true ∧ (Binary.ofFloat 3.0).toRat = 3 ∧
    (∀ n : Int64, (Value.float 3.0).display ≠ (Value.int n).display) ∧
    ∃ y, Value.ofLine (Value.float 3.0).display = .float y := by
  have hfinite : (3.0 : Float).isFinite = true := by decide +kernel
  have hfields : Binary.ofFloat 3.0 = ⟨6755399441055744, -51, false⟩ := by decide +kernel
  have hvalue : (Binary.ofFloat 3.0).toRat = 3 := by
    rw [hfields]
    norm_num [Binary.toRat]
  obtain ⟨-, htext, -, hread⟩ := printed_floats_told_apart 3.0 hfinite
  rw [hvalue] at htext hread
  refine ⟨hfinite, hvalue, fun n heq => ?_, hread (Or.inl (by norm_num))⟩
  have hlarge := (htext.1 ⟨n, heq⟩).1
  norm_num at hlarge

/-- `10^16` is finite, but it is printed as an integer is, and read as that integer. -/
theorem printed_float_like_integer :
    (1e16 : Float).isFinite = true ∧
    (Value.float 1e16).display = (Value.int 10000000000000000).display ∧
    Value.ofLine (Value.float 1e16).display = .int 10000000000000000 ∧
    ¬ ∀ (x : Float) (n : Int64), x.isFinite = true →
      (Value.float x).display ≠ (Value.int n).display := by
  have hfinite : (1e16 : Float).isFinite = true := by decide +kernel
  have hdisplay : (Value.float 1e16).display = (Value.int 10000000000000000).display := by
    decide +kernel
  have hspells := Value.spellsInt_display 10000000000000000
  rw [← hdisplay] at hspells
  exact ⟨hfinite, hdisplay, Value.ofLine_eq_int_iff.2 (hspells.trim_eq.symm ▸ hspells),
    fun h => h 1e16 10000000000000000 hfinite hdisplay⟩

end TokenScript
