import TokenScript.CallLimit
import TokenScript.Proofs.Input

/-!
# The setting of the limit on calls

The limit on nested calls is set by a text from outside the script.  This file says what each text
sets it to: a numeral sets it to its value, cut down to the ceiling, and any other text leaves the
default.  So the limit lies between one and the ceiling whatever the setting is, and a larger
numeral never sets a smaller limit.

A numeral may have any number of digits, since there may be zeros before the first digit that
counts; but its value has to fit a machine word.  One digit too many, and the numeral is no longer
cut down to the ceiling but ignored.

* `Decimal.SpellsNat`, `Decimal.readUnsigned?_eq_some_iff`: numerals, and the reader that takes
  them.
* `CallLimit.Names`: the number that a setting names, with or without blanks around it.
* `setting_clamped_to_ceiling`: what each setting does.
* `large_setting_not_clamped`: a numeral that no word holds.
-/

namespace TokenScript

/-! ## Numerals without a minus sign -/

namespace Decimal

variable {text : List Char} {n m : Nat}

/-- The text is a number: digits, with a plus sign or without. -/
def SpellsNat (text : List Char) (n : Nat) : Prop :=
  ∃ sign digits, Sign sign false ∧ digits ≠ [] ∧ Digits digits ∧ text = sign ++ digits ∧
    n = digitsValue digits

/-- The reader of numbers takes exactly the numbers. -/
theorem readUnsigned?_eq_some_iff : readUnsigned? text = some n ↔ SpellsNat text n := by
  constructor
  · intro h
    unfold readUnsigned? at h
    split at h
    · next digits =>
      obtain ⟨hne, hdigits, rfl⟩ := readNat?_eq_some_iff.1 h
      exact ⟨['+'], digits, .plus, hne, hdigits, rfl, rfl⟩
    · obtain ⟨hne, hdigits, rfl⟩ := readNat?_eq_some_iff.1 h
      exact ⟨[], _, .none, hne, hdigits, rfl, rfl⟩
  · rintro ⟨sign, digits, hsign, hne, hdigits, rfl, rfl⟩
    have hread := readNat?_eq_some_iff.2 ⟨hne, hdigits, rfl⟩
    cases hsign with
    | plus => exact hread
    | none =>
      -- a digit is no plus sign
      have hunsigned := (Unsigned.of_digits hdigits hne []).2
      rw [List.append_nil] at hunsigned
      rw [List.nil_append]
      unfold readUnsigned?
      split
      · exact absurd rfl hunsigned
      · exact hread

/-- A text is one number at most. -/
theorem SpellsNat.unique (h : SpellsNat text n) (h' : SpellsNat text m) : n = m :=
  Option.some.inj ((readUnsigned?_eq_some_iff.2 h).symm.trans (readUnsigned?_eq_some_iff.2 h'))

end Decimal

open Decimal

/-! ## Settings -/

namespace CallLimit

variable {raw : String} {n m : Nat}

/-- The setting is a number with blanks around it. -/
def Names (raw : String) (n : Nat) : Prop :=
  ∃ body, Text.Trims raw.toList body ∧ SpellsNat body n

theorem names_iff : Names raw n ↔ SpellsNat (Text.trim raw.toList) n := by
  constructor
  · rintro ⟨body, htrims, hbody⟩
    rwa [htrims.trim_eq]
  · exact fun h => ⟨_, Text.trims_trim _, h⟩

/-- A setting names one number at most. -/
theorem Names.unique (h : Names raw n) (h' : Names raw m) : n = m :=
  (names_iff.1 h).unique (names_iff.1 h')

/-- A setting is read if it names a number that a word holds. -/
theorem readSetting?_eq_some_iff :
    readSetting? raw = some n ↔ Names raw n ∧ n ≤ largestSetting := by
  rw [readSetting?, Option.filter_eq_some_iff, readUnsigned?_eq_some_iff, names_iff,
    decide_eq_true_eq]

/-- The event that tells of a setting that was cut down. -/
def clamped? (n : Nat) : Option Event :=
  if ceiling < n then some (.limitClamped n ceiling) else none

/-- A positive number that a word holds is cut down to the ceiling. -/
theorem ofSetting_of_names (h : Names raw n) (hpos : 1 ≤ n) (hle : n ≤ largestSetting) :
    ofSetting (some raw) = (min n ceiling, clamped? n) := by
  obtain ⟨k, rfl⟩ : ∃ k, n = k + 1 := ⟨n - 1, by omega⟩
  simp only [ofSetting, readSetting?_eq_some_iff.2 ⟨h, hle⟩, clamped?]
  split
  · next hlt => rw [Nat.min_eq_right (Nat.le_of_lt hlt)]
  · next hge => rw [Nat.min_eq_left (Nat.not_lt.1 hge)]

/-- Any other setting is ignored. -/
theorem ofSetting_of_forall (h : ∀ n, Names raw n → n = 0 ∨ largestSetting < n) :
    ofSetting (some raw) = (default, some (.limitIgnored raw default)) := by
  cases hread : readSetting? raw with
  | none => simp only [ofSetting, hread]
  | some n =>
    obtain ⟨hnames, hle⟩ := readSetting?_eq_some_iff.1 hread
    obtain rfl := (h n hnames).resolve_right (Nat.not_lt.2 hle)
    simp only [ofSetting, hread]

/-- Every setting is a number that is cut down, or is ignored. -/
theorem ofSetting_cases (raw : String) :
    (∃ n, Names raw n ∧ 1 ≤ n ∧ n ≤ largestSetting ∧
      ofSetting (some raw) = (min n ceiling, clamped? n)) ∨
      ofSetting (some raw) = (default, some (.limitIgnored raw default)) := by
  by_cases hnumber : ∃ n, Names raw n ∧ 1 ≤ n ∧ n ≤ largestSetting
  · obtain ⟨n, hnames, hpos, hle⟩ := hnumber
    exact Or.inl ⟨n, hnames, hpos, hle, ofSetting_of_names hnames hpos hle⟩
  · refine Or.inr (ofSetting_of_forall fun n hnames => ?_)
    by_contra hother
    exact hnumber ⟨n, hnames, by omega, by omega⟩

theorem ofSetting_bounds (setting : Option String) :
    1 ≤ (ofSetting setting).1 ∧ (ofSetting setting).1 ≤ ceiling := by
  cases setting with
  | none => decide
  | some raw =>
    rcases ofSetting_cases raw with ⟨n, -, hpos, -, heq⟩ | heq
    · rw [heq]
      exact ⟨Nat.le_min.2 ⟨hpos, by decide⟩, Nat.min_le_right n ceiling⟩
    · rw [heq]
      show 1 ≤ default ∧ default ≤ ceiling
      decide

end CallLimit

open CallLimit

/-- **The setting of the limit on calls is cut down to the ceiling.**  Take any text.

* If it names a positive number which a word holds, it sets the limit to this number or to the
  ceiling, whichever is less; and if that is the ceiling's doing, it is noted.
* Otherwise it leaves the default, and that is noted; and so does a setting that is missing.  This
  includes the numerals that no word holds.
* The limit is at least one and at most the ceiling, whatever the setting is.
* Of two positive numbers that words hold, the larger does not set the smaller limit. -/
theorem setting_clamped_to_ceiling (raw : String) :
    (∀ n, Names raw n → 1 ≤ n → n ≤ largestSetting →
      ofSetting (some raw) = (min n ceiling, clamped? n)) ∧
    ((∀ n, Names raw n → n = 0 ∨ largestSetting < n) →
      ofSetting (some raw) = (CallLimit.default, some (.limitIgnored raw CallLimit.default))) ∧
    ofSetting none = (CallLimit.default, none) ∧
    (∀ setting, 1 ≤ (ofSetting setting).1 ∧ (ofSetting setting).1 ≤ ceiling) ∧
    ∀ other n m, Names raw n → Names other m → 1 ≤ n → n ≤ m → m ≤ largestSetting →
      (ofSetting (some raw)).1 ≤ (ofSetting (some other)).1 := by
  refine ⟨fun n => ofSetting_of_names, ofSetting_of_forall, rfl, ofSetting_bounds, ?_⟩
  intro other n m hraw hother hpos hle hlarge
  rw [ofSetting_of_names hraw hpos (Nat.le_trans hle hlarge),
    ofSetting_of_names hother (Nat.le_trans hpos hle) hlarge]
  show min n ceiling ≤ min m ceiling
  omega

/-- A numeral that has a plus sign, zeros in front, and blanks around it; one that is cut down; a
negative number, which is no numeral; and the largest number that a word holds, with the next
one. -/
theorem setting_clamped_to_ceiling_blanks :
    ofSetting (some "\u3000+0000000000000000000000032\n") = (32, none) ∧
    ofSetting (some "10001") = (10000, some (.limitClamped 10001 10000)) ∧
    ofSetting (some "-4") = (256, some (.limitIgnored "-4" 256)) ∧
    (ofSetting (some "18446744073709551615")).1 = 10000 ∧
    ofSetting (some "18446744073709551616") =
      (256, some (.limitIgnored "18446744073709551616" 256)) ∧
    (ofSetting (some "10001")).1 ≤ (ofSetting (some "18446744073709551615")).1 := by
  have hnames : ∀ {raw : String} {n : Nat}, readUnsigned? (Text.trim raw.toList) = some n →
      Names raw n :=
    fun h => names_iff.2 (readUnsigned?_eq_some_iff.1 h)
  obtain ⟨hclamped, -, -, -, hmono⟩ := setting_clamped_to_ceiling "10001"
  have hsmall : Names "\u3000+0000000000000000000000032\n" 32 := hnames (by decide)
  have hcut : Names "10001" 10001 := hnames (by decide)
  have hgreatest : Names "18446744073709551615" 18446744073709551615 := hnames (by decide)
  have hnext : Names "18446744073709551616" 18446744073709551616 := hnames (by decide)
  have hnegative : ∀ n, ¬ Names "-4" n := by
    intro n h
    have hread := readUnsigned?_eq_some_iff.2 (names_iff.1 h)
    rw [show readUnsigned? (Text.trim "-4".toList) = none by decide] at hread
    cases hread
  refine ⟨(setting_clamped_to_ceiling _).1 _ hsmall (by decide) (by decide),
    hclamped _ hcut (by decide) (by decide),
    (setting_clamped_to_ceiling _).2.1 fun n h => absurd h (hnegative n),
    congrArg Prod.fst ((setting_clamped_to_ceiling _).1 _ hgreatest (by decide) (by decide)),
    (setting_clamped_to_ceiling _).2.1 fun n h => Or.inr ?_,
    hmono _ _ _ hcut hgreatest (by decide) (by decide) (by decide)⟩
  rw [h.unique hnext]
  decide

/-- Not every positive numeral is cut down to the ceiling: one that no word holds leaves the
default. -/
theorem large_setting_not_clamped :
    ¬∀ raw n, Names raw n → 1 ≤ n → (ofSetting (some raw)).1 = min n ceiling := by
  intro hclaim
  have hnames : Names "18446744073709551616" 18446744073709551616 :=
    names_iff.2 (readUnsigned?_eq_some_iff.1 (by decide))
  have hceiling := hclaim _ _ hnames (by decide)
  have hdefault : (ofSetting (some "18446744073709551616")).1 = CallLimit.default := by
    rw [ofSetting_of_forall fun n h => Or.inr (h.unique hnames ▸ by decide)]
  rw [hdefault] at hceiling
  exact absurd hceiling (by decide)

end TokenScript
