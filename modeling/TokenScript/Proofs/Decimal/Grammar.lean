import Mathlib.Data.List.TakeWhile
import TokenScript.Decimal.Numeral

/-!
# The grammar of decimal numerals

The readers of numerals cut a text from the left: a sign if there is one, all digits that follow,
and so on.  This file says what texts are numerals without any cutting, as pieces that are put
together, and shows that the readers take exactly these, each for the quantity that its pieces are
worth:

    integer   :=  sign? digits
    numeral   :=  sign? mantissa exponent?
    mantissa  :=  digits  |  digits . digits?  |  . digits
    exponent  :=  (e | E) integer

Two things have to be seen for this.  The pieces can be told apart by their first characters, so a
cut from the left finds them again.  And a text that is an integer is a numeral too, so which reader
is asked first matters; the names of infinity and of the undefined number are no numerals, for want
of a digit.

* `Sign`, `SpellsInt`, `Mantissa`, `Exponent`, `Numeral.Spells`: the grammar.
* `readInt?_eq_some_iff`, `Numeral.read?_eq_some_iff`: what the readers take.
* `SpellsInt.exists_spells`: integers are numerals.
* `Named`, `Named.not_spells`: names are not.
-/

namespace TokenScript.Decimal

variable {text word rest sign body : List Char} {negative : Bool}

/-! ## The grammar -/

/-- Nothing but digits. -/
def Digits (word : List Char) : Prop := ∀ c ∈ word, c.isDigit = true

/-- A sign and whether it is a minus, or no sign. -/
inductive Sign : List Char → Bool → Prop
  | none : Sign [] false
  | plus : Sign ['+'] false
  | minus : Sign ['-'] true

/-- A quantity with its sign. -/
def signed (negative : Bool) (n : Nat) : Int := if negative then -(n : Int) else n

/-- The text is an integer: digits, with a sign or without. -/
def SpellsInt (text : List Char) (n : Int) : Prop :=
  ∃ sign negative digits, Sign sign negative ∧ digits ≠ [] ∧ Digits digits ∧ text = sign ++ digits ∧
    n = signed negative (digitsValue digits)

/-- The text is a mantissa: digits with a point behind, among or before them, or without one.  Its
digits are those around the point, and so many of them are places. -/
inductive Mantissa : List Char → List Char → Nat → Prop
  | whole {digits : List Char} : digits ≠ [] → Digits digits → Mantissa digits digits 0
  | point {whole places : List Char} : whole ≠ [] → Digits whole → Digits places →
    Mantissa (whole ++ '.' :: places) (whole ++ places) places.length
  | fraction {places : List Char} : places ≠ [] → Digits places →
    Mantissa ('.' :: places) places places.length

/-- The text is an exponent, or there is none. -/
inductive Exponent : List Char → Int → Prop
  | none : Exponent [] 0
  | marked {mark : Char} {text : List Char} {n : Int} : mark = 'e' ∨ mark = 'E' → SpellsInt text n →
    Exponent (mark :: text) n

/-- The text is a numeral: a mantissa, with a sign or without, and with an exponent or without. -/
def Numeral.Spells (text : List Char) (numeral : Numeral) : Prop :=
  ∃ sign negative mantissa digits places tail exponent, Sign sign negative ∧
    Mantissa mantissa digits places ∧ Exponent tail exponent ∧ text = sign ++ mantissa ++ tail ∧
    numeral = ⟨negative, digitsValue digits, exponent - places⟩

/-! ## Signs -/

/-- The text does not start with a sign. -/
def Unsigned (text : List Char) : Prop := text.head? ≠ some '-' ∧ text.head? ≠ some '+'

theorem Sign.exists_of_takeSign (text : List Char) :
    ∃ sign, Sign sign (Numeral.takeSign text).1 ∧ text = sign ++ (Numeral.takeSign text).2 := by
  unfold Numeral.takeSign
  split
  · exact ⟨['-'], .minus, rfl⟩
  · exact ⟨['+'], .plus, rfl⟩
  · exact ⟨[], .none, rfl⟩

theorem Sign.takeSign_append (h : Sign sign negative) (hbody : Unsigned body) :
    Numeral.takeSign (sign ++ body) = (negative, body) := by
  cases h with
  | none =>
    rw [List.nil_append]
    unfold Numeral.takeSign
    split
    · exact absurd rfl hbody.1
    · exact absurd rfl hbody.2
    · rfl
  | plus => rfl
  | minus => rfl

theorem Unsigned.of_digits (h : Digits word) (hne : word ≠ []) (rest : List Char) :
    Unsigned (word ++ rest) := by
  cases word with
  | nil => exact absurd rfl hne
  | cons c word =>
    have hc : c.isDigit = true := h c List.mem_cons_self
    constructor <;>
    · intro hhead
      obtain rfl := Option.some.inj hhead
      cases hc

/-! ## Integers -/

theorem readNat?_eq_some_iff {n : Nat} :
    readNat? text = some n ↔ text ≠ [] ∧ Digits text ∧ n = digitsValue text := by
  unfold readNat?
  constructor
  · intro h
    split at h
    · next hdigits => exact ⟨hdigits.1, List.all_eq_true.1 hdigits.2, (Option.some.inj h).symm⟩
    · cases h
  · rintro ⟨hne, hdigits, rfl⟩
    exact if_pos ⟨hne, List.all_eq_true.2 hdigits⟩

/-- An integer is read as a sign and then digits. -/
theorem readInt?_eq (text : List Char) :
    readInt? text = (readNat? (Numeral.takeSign text).2).map
      (signed (Numeral.takeSign text).1) := by
  unfold readInt? Numeral.takeSign
  split
  · next digits =>
    cases readNat? digits with
    | none => simp
    | some n => simp [signed]
  · rfl
  · rfl

/-- The reader of integers takes exactly the integers. -/
theorem readInt?_eq_some_iff {n : Int} : readInt? text = some n ↔ SpellsInt text n := by
  rw [readInt?_eq]
  constructor
  · intro h
    obtain ⟨value, hvalue, rfl⟩ := Option.map_eq_some_iff.1 h
    obtain ⟨hne, hdigits, rfl⟩ := readNat?_eq_some_iff.1 hvalue
    obtain ⟨sign, hsign, htext⟩ := Sign.exists_of_takeSign text
    exact ⟨sign, _, _, hsign, hne, hdigits, htext, rfl⟩
  · rintro ⟨sign, negative, digits, hsign, hne, hdigits, rfl, rfl⟩
    have hunsigned : Unsigned digits := by simpa using Unsigned.of_digits hdigits hne []
    rw [hsign.takeSign_append hunsigned, readNat?_eq_some_iff.2 ⟨hne, hdigits, rfl⟩]
    rfl

/-- A text is one integer at most. -/
theorem SpellsInt.unique {n m : Int} (h : SpellsInt text n) (h' : SpellsInt text m) : n = m :=
  Option.some.inj ((readInt?_eq_some_iff.2 h).symm.trans (readInt?_eq_some_iff.2 h'))

/-! ## Numerals -/

/-- A mantissa with a point has digits on one side of it at least. -/
theorem Mantissa.of_point {whole places : List Char} (hwhole : Digits whole)
    (hplaces : Digits places) (hsome : ¬ (whole = [] ∧ places = [])) :
    Mantissa (whole ++ '.' :: places) (whole ++ places) places.length := by
  by_cases hnil : whole = []
  · subst hnil
    exact .fraction (fun hnone => hsome ⟨rfl, hnone⟩) hplaces
  · exact .point hnil hwhole hplaces

theorem Mantissa.cases {mantissa digits : List Char} {count : Nat}
    (h : Mantissa mantissa digits count) :
    digits ≠ [] ∧ Digits digits ∧ mantissa = digits ∧ count = 0 ∨
      ∃ whole places, Digits whole ∧ Digits places ∧ ¬ (whole = [] ∧ places = []) ∧
        mantissa = whole ++ '.' :: places ∧ digits = whole ++ places ∧ count = places.length := by
  cases h with
  | whole hne hdigits => exact Or.inl ⟨hne, hdigits, rfl, rfl⟩
  | @point whole places hne hwhole hplaces =>
    exact Or.inr ⟨whole, places, hwhole, hplaces, fun hnone => hne hnone.1, rfl, rfl, rfl⟩
  | fraction hne hplaces =>
    exact Or.inr ⟨[], _, nofun, hplaces, fun hnone => hne hnone.2, rfl, rfl, rfl⟩

/-- An exponent starts with no digit and no point. -/
theorem Exponent.head {n : Int} (h : Exponent text n) :
    ∀ c after, text = c :: after → c.isDigit = false ∧ c ≠ '.' := by
  intro c after heq
  cases h with
  | none => cases heq
  | marked hmark =>
    obtain ⟨rfl, -⟩ := List.cons.inj heq
    rcases hmark with rfl | rfl <;> decide

namespace Numeral

/-- Digits end where something else comes. -/
theorem span_digits (h : Digits word) (hrest : ∀ c after, rest = c :: after → c.isDigit = false) :
    (word ++ rest).takeWhile Char.isDigit = word ∧
    (word ++ rest).dropWhile Char.isDigit = rest := by
  have hnone : rest.takeWhile Char.isDigit = [] ∧ rest.dropWhile Char.isDigit = rest := by
    cases rest with
    | nil => exact ⟨rfl, rfl⟩
    | cons c after =>
      have hc := hrest c after rfl
      simp [hc]
  rw [List.takeWhile_append_of_pos h, List.dropWhile_append_of_pos h, hnone.1, hnone.2,
    List.append_nil]
  exact ⟨rfl, rfl⟩

theorem readExponent?_eq_some_iff {n : Int} : readExponent? text = some n ↔ Exponent text n := by
  constructor
  · intro h
    unfold readExponent? at h
    split at h
    · obtain rfl := Option.some.inj h
      exact .none
    · split at h
      · next hmark => exact .marked hmark (readInt?_eq_some_iff.1 h)
      · cases h
  · intro h
    cases h with
    | none => rfl
    | marked hmark hint =>
      rw [readExponent?, if_pos hmark]
      exact readInt?_eq_some_iff.2 hint

theorem digits_takeWhile (text : List Char) : Digits (text.takeWhile Char.isDigit) :=
  fun _ hc => List.mem_takeWhile_imp hc

theorem read?_of_point {after : List Char} (hsign : takeSign text = (negative, body))
    (hdrop : body.dropWhile Char.isDigit = '.' :: after) :
    read? text =
      if body.takeWhile Char.isDigit = [] ∧ after.takeWhile Char.isDigit = [] then none
      else (readExponent? (after.dropWhile Char.isDigit)).map fun exponent =>
        ⟨negative, digitsValue (body.takeWhile Char.isDigit ++ after.takeWhile Char.isDigit),
          exponent - (after.takeWhile Char.isDigit).length⟩ := by
  simp only [read?, hsign, hdrop]

theorem read?_of_no_point (hsign : takeSign text = (negative, body))
    (hdrop : (body.dropWhile Char.isDigit).head? ≠ some '.') :
    read? text =
      if body.takeWhile Char.isDigit = [] then none
      else (readExponent? (body.dropWhile Char.isDigit)).map fun exponent =>
        ⟨negative, digitsValue (body.takeWhile Char.isDigit), exponent⟩ := by
  unfold read?
  simp only [hsign]
  split
  · next heq =>
    rw [heq] at hdrop
    exact absurd rfl hdrop
  · simp

theorem spells_of_read? {numeral : Numeral} (h : read? text = some numeral) :
    Spells text numeral := by
  obtain ⟨sign, hsign, htext⟩ := Sign.exists_of_takeSign text
  obtain ⟨⟨negative, body⟩, htaken⟩ : ∃ taken, takeSign text = taken := ⟨_, rfl⟩
  rw [htaken] at hsign htext
  have hbody := List.takeWhile_append_dropWhile (p := Char.isDigit) (l := body)
  by_cases hpoint : (body.dropWhile Char.isDigit).head? = some '.'
  · obtain ⟨after, hdrop⟩ := List.head?_eq_some_iff.1 hpoint
    have hafter := List.takeWhile_append_dropWhile (p := Char.isDigit) (l := after)
    rw [read?_of_point htaken hdrop] at h
    split at h
    · cases h
    · next hsome =>
      obtain ⟨exponent, hexponent, rfl⟩ := Option.map_eq_some_iff.1 h
      refine ⟨sign, negative, _, _, _, _, exponent, hsign,
        .of_point (digits_takeWhile body) (digits_takeWhile after) hsome,
        readExponent?_eq_some_iff.1 hexponent, ?_, rfl⟩
      rw [htext, List.append_assoc, List.append_assoc, List.cons_append, hafter, ← hdrop, hbody]
  · rw [read?_of_no_point htaken hpoint] at h
    split at h
    · cases h
    · next hsome =>
      obtain ⟨exponent, hexponent, rfl⟩ := Option.map_eq_some_iff.1 h
      refine ⟨sign, negative, _, _, _, _, exponent, hsign, .whole hsome (digits_takeWhile body),
        readExponent?_eq_some_iff.1 hexponent, ?_, ?_⟩
      · rw [htext, List.append_assoc, hbody]
      · simp

theorem read?_of_spells {numeral : Numeral} (h : Spells text numeral) :
    read? text = some numeral := by
  obtain ⟨sign, negative, mantissa, digits, count, tail, exponent, hsign, hmantissa, htail,
    rfl, rfl⟩ := h
  have hexponent := readExponent?_eq_some_iff.2 htail
  have hends : ∀ c after, tail = c :: after → c.isDigit = false :=
    fun c after heq => (htail.head c after heq).1
  rw [List.append_assoc]
  rcases hmantissa.cases with
    ⟨hne, hdigits, rfl, rfl⟩ | ⟨whole, places, hwhole, hplaces, hsome, rfl, rfl, rfl⟩
  · have htaken := hsign.takeSign_append (.of_digits hdigits hne tail)
    obtain ⟨htake, hdrop⟩ := span_digits hdigits hends
    have hpoint : tail.head? ≠ some '.' := by
      intro hhead
      obtain ⟨after, heq⟩ := List.head?_eq_some_iff.1 hhead
      exact (htail.head '.' after heq).2 rfl
    rw [read?_of_no_point htaken (by rwa [hdrop]), htake, hdrop, if_neg hne, hexponent]
    simp
  · have hpoint : ∀ c after, '.' :: (places ++ tail) = c :: after → c.isDigit = false := by
      intro c after heq
      obtain ⟨rfl, -⟩ := List.cons.inj heq
      rfl
    rw [List.append_assoc, List.cons_append]
    obtain ⟨htake, hdrop⟩ := span_digits hwhole hpoint
    obtain ⟨htakePlaces, hdropPlaces⟩ := span_digits hplaces hends
    have hunsigned : Unsigned (whole ++ '.' :: (places ++ tail)) := by
      by_cases hnil : whole = []
      · subst hnil
        exact ⟨nofun, nofun⟩
      · exact .of_digits hwhole hnil _
    rw [read?_of_point (hsign.takeSign_append hunsigned) hdrop, htake, htakePlaces, hdropPlaces,
      if_neg hsome, hexponent]
    rfl

/-- The reader of numerals takes exactly the numerals. -/
theorem read?_eq_some_iff {numeral : Numeral} : read? text = some numeral ↔ Spells text numeral :=
  ⟨spells_of_read?, read?_of_spells⟩

end Numeral

/-- An integer is a numeral, without point and exponent. -/
theorem SpellsInt.exists_spells {n : Int} (h : SpellsInt text n) :
    ∃ numeral, Numeral.Spells text numeral := by
  obtain ⟨sign, negative, digits, hsign, hne, hdigits, rfl, -⟩ := h
  exact ⟨_, sign, negative, digits, digits, 0, [], 0, hsign, .whole hne hdigits, .none,
    (List.append_nil _).symm, rfl⟩

/-! ## Names -/

/-- The text is a name of infinity or of the undefined number, in any case of letters, with a sign
or without. -/
def Named (text : List Char) : Prop :=
  ∃ sign negative name, Sign sign negative ∧ text = sign ++ name ∧
    name.map Char.toLower ∈ ["inf".toList, "infinity".toList, "nan".toList]

theorem Sign.not_isDigit (h : Sign sign negative) : ∀ c ∈ sign, c.isDigit = false := by
  cases h <;> simp

/-- There is a digit in every numeral. -/
theorem Numeral.Spells.exists_digit {numeral : Numeral} (h : Numeral.Spells text numeral) :
    ∃ c ∈ text, c.isDigit = true := by
  obtain ⟨sign, negative, mantissa, digits, count, tail, exponent, -, hmantissa, -, rfl, -⟩ := h
  suffices hdigit : ∃ c ∈ mantissa, c.isDigit = true by
    obtain ⟨c, hmem, hc⟩ := hdigit
    exact ⟨c, List.mem_append_left _ (List.mem_append_right _ hmem), hc⟩
  cases hmantissa with
  | whole hne hdigits =>
    obtain ⟨c, hc⟩ := List.exists_mem_of_ne_nil _ hne
    exact ⟨c, hc, hdigits c hc⟩
  | point hne hwhole =>
    obtain ⟨c, hc⟩ := List.exists_mem_of_ne_nil _ hne
    exact ⟨c, List.mem_append_left _ hc, hwhole c hc⟩
  | fraction hne hplaces =>
    obtain ⟨c, hc⟩ := List.exists_mem_of_ne_nil _ hne
    exact ⟨c, List.mem_cons_of_mem _ hc, hplaces c hc⟩

theorem toLower_of_isDigit {c : Char} (h : c.isDigit = true) : c.toLower = c := by
  obtain ⟨-, hlast⟩ := Char.isDigit_iff_toNat.1 h
  have hnine : '9'.toNat = 57 := rfl
  refine dif_neg fun hletter => ?_
  have hfirst : 'A'.toNat ≤ c.toNat := UInt32.le_iff_toNat_le.1 hletter.1
  have hcapital : 'A'.toNat = 65 := rfl
  omega

/-- No name is a numeral: there is no digit in it. -/
theorem Named.not_spells (h : Named text) (numeral : Numeral) : ¬ Numeral.Spells text numeral := by
  intro hspells
  obtain ⟨c, hmem, hc⟩ := hspells.exists_digit
  obtain ⟨sign, negative, name, hsign, rfl, hname⟩ := h
  rcases List.mem_append.1 hmem with hmem | hmem
  · rw [hsign.not_isDigit c hmem] at hc
    cases hc
  · have hlower : c ∈ name.map Char.toLower := by
      rw [← toLower_of_isDigit hc]
      exact List.mem_map_of_mem hmem
    have hletters : ∀ word ∈ ["inf".toList, "infinity".toList, "nan".toList], ∀ c ∈ word,
        c.isDigit = false := by simp
    rw [hletters _ hname c hlower] at hc
    cases hc

end TokenScript.Decimal
