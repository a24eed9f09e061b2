import TokenScript.Proofs.Expression.Reader
import TokenScript.Proofs.Input
import TokenScript.Proofs.Token.Reading
import TokenScript.Proofs.WordSteps

/-!
# Printed integers are read back

An integer is printed as its decimal digits, with a minus sign before them if it is negative.  Two
readers may see this text again.  A line of input is read with its sign, over the whole range of
words.  A source text has no negative literals: it is read as digits, and the sign is an operator
that negates them when the expression is evaluated.  So the least integer, whose digits alone no
word can hold, is the one integer that cannot be written as it is printed.

* `Decimal.digitsValue_toDigits`: printed digits are worth the number.
* `Value.spellsInt_display`: a printed integer is that integer, by the grammar.
* `tokenize_display_of_nonneg`, `tokenize_display_of_neg`, `tokenize_display_of_least`: a printed
  integer as a source text.
* `Expression.evaluate_number`, `Expression.evaluate_minus`: what its tokens are worth.
* `printed_integers_read_back`: printed integers are read back.
-/

namespace TokenScript

open Lexeme Decimal

/-! ## Printed digits -/

namespace Decimal

theorem digitsValue_toDigits (n : Nat) : digitsValue (Nat.toDigits 10 n) = n := by
  have hread : Nat.ofDigitChars 10 (Nat.toDigits 10 n) 0 = n := Nat.ofDigitChars_ten_toDigits
  rw [Nat.ofDigitChars_eq_foldl] at hread
  exact hread

theorem digits_toDigits (n : Nat) : Digits (Nat.toDigits 10 n) :=
  fun _ hc => Nat.isDigit_of_mem_toDigits (by decide) (by decide) hc

/-- A minus sign, or no sign. -/
def minus (negative : Bool) : List Char := if negative then ['-'] else []

theorem sign_minus (negative : Bool) : Sign (minus negative) negative := by
  cases negative with
  | false => exact .none
  | true => exact .minus

/-- Printed digits with a sign or without are an integer. -/
theorem spellsInt_signed (negative : Bool) (n : Nat) :
    SpellsInt (minus negative ++ Nat.toDigits 10 n) (signed negative n) :=
  ⟨_, negative, _, sign_minus negative, Nat.toDigits_ne_nil, digits_toDigits n, rfl,
    by rw [digitsValue_toDigits]⟩

end Decimal

namespace Value

variable {n m : Int64}

theorem display_of_nonneg (h : 0 ≤ n.toInt) :
    (Value.int n).display = String.ofList (Nat.toDigits 10 n.toInt.natAbs) := by
  have habs : n.toInt.toNat = n.toInt.natAbs := by omega
  rw [display, Int.toString_eq_repr, Int.repr_eq_if, if_pos h, Nat.repr_eq_ofList_toDigits, habs]

theorem display_of_neg (h : n.toInt < 0) :
    (Value.int n).display = String.ofList ('-' :: Nat.toDigits 10 n.toInt.natAbs) := by
  have habs : (-n.toInt).toNat = n.toInt.natAbs := by omega
  rw [display, Int.toString_eq_repr, Int.repr_eq_if, if_neg (by omega), Nat.repr_eq_ofList_toDigits,
    habs]
  exact String.toList_inj.1 (by simp)

/-- A negative integer is printed as its opposite, with a minus sign before it. -/
theorem display_of_opposite (h : n.toInt < 0) (hm : m.toInt = -n.toInt) :
    (Value.int n).display = "-" ++ (Value.int m).display := by
  have habs : n.toInt.natAbs = m.toInt.natAbs := by omega
  rw [display_of_neg h, display_of_nonneg (n := m) (by omega), habs]
  exact String.toList_inj.1 (by simp)

/-- The text of a printed integer is that integer. -/
theorem spellsInt_display (n : Int64) : SpellsInt (Value.int n).display.toList n.toInt := by
  by_cases hn : 0 ≤ n.toInt
  · have hvalue : signed false n.toInt.natAbs = n.toInt := Int.natAbs_of_nonneg hn
    have hspells := spellsInt_signed false n.toInt.natAbs
    rw [hvalue] at hspells
    rwa [display_of_nonneg hn, String.toList_ofList]
  · have hvalue : signed true n.toInt.natAbs = n.toInt := by
      rw [signed, if_pos rfl]
      omega
    have hspells := spellsInt_signed true n.toInt.natAbs
    rw [hvalue] at hspells
    rwa [display_of_neg (Int.not_le.1 hn), String.toList_ofList]

end Value

theorem Decimal.Sign.not_isBlank {sign : List Char} {negative : Bool} (h : Sign sign negative) :
    ∀ c ∈ sign, Text.isBlank c = false := by
  cases h <;> simp [Text.isBlank, Text.blankRanges]

theorem Decimal.Digits.not_isBlank {word : List Char} (h : Digits word) :
    ∀ c ∈ word, Text.isBlank c = false := by
  intro c hmem
  obtain ⟨hfirst, hlast⟩ := Char.isDigit_iff_toNat.1 (h c hmem)
  have hzero : '0'.toNat = 48 := rfl
  have hnine : '9'.toNat = 57 := rfl
  simp only [Text.isBlank, Text.blankRanges, List.any_cons, List.any_nil, Bool.or_false,
    Bool.or_eq_false_iff, Bool.and_eq_false_iff, decide_eq_false_iff_not]
  omega

/-- There is no blank in an integer. -/
theorem Decimal.SpellsInt.not_isBlank {text : List Char} {n : Int} (h : SpellsInt text n) :
    ∀ c ∈ text, Text.isBlank c = false := by
  obtain ⟨sign, negative, digits, hsign, -, hdigits, rfl, -⟩ := h
  intro c hmem
  rcases List.mem_append.1 hmem with hc | hc
  · exact hsign.not_isBlank c hc
  · exact hdigits.not_isBlank c hc

/-- Nothing is cut off from a text without blanks. -/
theorem Text.trim_eq_self {text : List Char} (h : ∀ c ∈ text, isBlank c = false) :
    trim text = text := by
  refine Trims.trim_eq ⟨⟨[], [], nofun, nofun, by simp⟩, fun c hc => ?_, fun c hc => ?_⟩
  · exact h c (List.mem_of_mem_head? hc)
  · exact h c (List.mem_of_getLast? hc)

theorem Decimal.SpellsInt.trim_eq {text : List Char} {n : Int} (h : SpellsInt text n) :
    Text.trim text = text := Text.trim_eq_self h.not_isBlank

/-! ## Digits and signs as tokens -/

namespace Lexeme

variable {digits : List Char}

theorem run_of_digits (hne : digits ≠ []) (h : Digits digits) :
    Run Char.isDigit Char.isDigit digits := by
  cases digits with
  | nil => exact absurd rfl hne
  | cons a body =>
    exact ⟨a, body, rfl, h a List.mem_cons_self, fun b hb => h b (List.mem_cons_of_mem a hb)⟩

/-- Digits with nothing behind them are a number. -/
theorem longest_digits (h : Run Char.isDigit Char.isDigit digits) :
    Longest digits .number digits [] := by
  refine .of_sort (List.append_nil digits) ⟨digits, h, Or.inl rfl⟩ fun d hsort => ?_
  cases d <;> cases hsort
  exact ⟨fun other _ hstarts => hstarts.length_le, fun _ => Or.inl rfl⟩

/-- A minus sign is an operator by itself, whatever stands behind it. -/
theorem longest_minus (rest : List Char) : Longest ('-' :: rest) .operator ['-'] rest := by
  refine .of_sort rfl ⟨.minus, rfl⟩ fun d hsort => ?_
  cases d with
  | operator =>
    refine ⟨?_, fun _ => Or.inl rfl⟩
    rintro other ⟨op, rfl⟩ ⟨after, hstarts⟩
    -- no other operator starts with this character
    cases op with
    | minus => exact Nat.le_refl 1
    | _ => cases (List.cons.inj hstarts).1
  | assignment =>
    refine ⟨?_, nofun⟩
    rintro other rfl -
    exact Nat.le_refl 1
  | _ => cases hsort

end Lexeme

/-! ## Printed integers as source texts -/

/-- Every word but the least has an opposite. -/
theorem Word.exists_opposite {n : Int64} (h : n.toInt ≠ least) :
    ∃ m : Int64, m.toInt = -n.toInt := by
  obtain ⟨hleast, hgreatest⟩ := bounds_toInt n
  have hrange : least = -greatest - 1 := rfl
  exact exists_word (by omega) (by omega)

section

variable {n m : Int64}

theorem run_toDigits (k : Nat) : Run Char.isDigit Char.isDigit (Nat.toDigits 10 k) :=
  run_of_digits Nat.toDigits_ne_nil (digits_toDigits k)

/-- A printed integer without a sign is read as a number, wherever it stands at the end of a
text. -/
theorem reads_display (h : 0 ≤ n.toInt) (here : Span) :
    Reads Longest (Value.int n).display.toList here
      (.ok [⟨.number (.int n), (Value.int n).display, here⟩]) := by
  have hvalue : n.toInt = digitsValue (Nat.toDigits 10 n.toInt.natAbs) := by
    rw [digitsValue_toDigits]
    omega
  have hrun := run_toDigits n.toInt.natAbs
  rw [Value.display_of_nonneg h, String.toList_ofList]
  exact .token (longest_digits hrun) (.integer hrun hvalue) (.finished _)

/-- A minus sign is read as an operator, and then what is behind it. -/
theorem reads_minus {rest : List Char} {here : Span} {result : Except Error (List Token)}
    (h : Reads Longest rest (here.step '-') result) :
    Reads Longest ('-' :: rest) here (result.map (⟨.operator .minus, "-", here⟩ :: ·)) :=
  .token (longest_minus rest) (.operator .minus) h

theorem tokenize_display_of_nonneg (h : 0 ≤ n.toInt) :
    tokenize (Value.int n).display = .ok #[⟨.number (.int n), (Value.int n).display, ⟨1, 0⟩⟩] :=
  (Longest.agrees.tokenize_iff _ (.ok [_])).2 (reads_display h .start)

theorem tokenize_display_of_neg (h : n.toInt < 0) (hm : m.toInt = -n.toInt) :
    tokenize (Value.int n).display =
      .ok
        #[⟨.operator .minus, "-", ⟨1, 0⟩⟩, ⟨.number (.int m), (Value.int m).display, ⟨1, 1⟩⟩] := by
  refine (Longest.agrees.tokenize_iff _ (.ok [_, _])).2 ?_
  rw [Value.display_of_opposite h hm, String.toList_append]
  exact reads_minus (reads_display (by omega) _)

/-- No word holds the digits of the least integer. -/
theorem tokenize_display_of_least (h : n.toInt = Word.least) :
    tokenize (Value.int n).display =
      .error ⟨.lexical (.literalOutOfRange "9223372036854775808"), ⟨1, 1⟩⟩ := by
  have hneg : n.toInt < 0 := by
    rw [h]
    decide
  have hrun := run_toDigits n.toInt.natAbs
  have hlarge : Class.number.Oversized (Nat.toDigits 10 n.toInt.natAbs) := by
    refine ⟨rfl, hrun, ?_⟩
    rw [digitsValue_toDigits, h]
    decide
  have hdigits : String.ofList (Nat.toDigits 10 n.toInt.natAbs) = "9223372036854775808" := by
    rw [h]
    decide
  refine (Longest.agrees.tokenize_iff _ (.error _)).2 ?_
  rw [Value.display_of_neg hneg, String.toList_ofList, ← hdigits]
  exact reads_minus (.oversized _ (longest_digits hrun) hlarge)

end

/-! ## Whole texts as expressions -/

namespace Expression

variable {tokens : Array Token} {store : Store}

/-- An expression that all tokens are part of goes on to the end. -/
theorem endFrom_of_bearing {start : Nat} (h : ∀ t ∈ tokens.toList, t.isValueBearing = true) :
    endFrom tokens start = tokens.size := by
  fun_induction endFrom tokens start with
  | case1 start hlt hbearing ih => exact ih
  | case2 start hlt hbearing => exact absurd (h _ (Array.getElem_mem_toList hlt)) hbearing
  | case3 => rfl

theorem evaluateFrom_of_bearing (h : ∀ t ∈ tokens.toList, t.isValueBearing = true) :
    evaluateFrom tokens 0 store = evaluate store tokens.toList := by
  rw [evaluateFrom, runFrom, endFrom_of_bearing h, Array.extract_size]

/-- A number by itself is worth what it says. -/
theorem evaluate_number (number : Number) (word : String) (here : Span) :
    evaluate store [⟨.number number, word, here⟩] = .ok number.value := by
  have hnumber : Phrase.Derives .unary (.operand ⟨.number number, word, here⟩ (.number number)) :=
    .unsigned (.base (.operand rfl))
  exact evaluate_of_parses ⟨hnumber.of_unary (by decide), rfl⟩ (List.cons_ne_nil _ _)

/-- A number with a minus sign before it is worth the opposite, if a word holds that. -/
theorem evaluate_minus {n m : Int64} (h : n.toInt = -m.toInt) (word : String) (here there : Span) :
    evaluate store [⟨.operator .minus, "-", here⟩, ⟨.number (.int m), word, there⟩] =
      .ok (.int n) := by
  have hnumber :
      Phrase.Derives .unary (.operand ⟨.number (.int m), word, there⟩ (.number (.int m))) :=
    .unsigned (.base (.operand rfl))
  have hsign : Phrase.Derives .unary (.sign ⟨.operator .minus, "-", here⟩ .minus _) :=
    .sign rfl rfl hnumber
  have happly : Operator.minus.applySign (.int m) = .ok (.int n) := by
    rw [Operator.applySign, Operator.checked, Word.ofInt?_eq_some_iff.2 h]
  refine (evaluate_of_parses ⟨hsign.of_unary (by decide), rfl⟩ (List.cons_ne_nil _ _)).trans ?_
  rw [Tree.value, Tree.value]
  exact congrArg (Except.mapError _) happly

end Expression

open Expression

/-- **Printed integers are read back.**  Take any integer, as it is printed.

* As a line of input, it becomes the integer again.
* As a source text, it is one number, or a minus sign and a number if the integer is negative; in an
  expression both belong to it, so no token is left over, and whatever the variables are, the
  expression has the integer as its value.
* Only the least integer is not read as a source text: the literal behind the sign is too large. -/
theorem printed_integers_read_back (n : Int64) :
    Value.ofLine (Value.int n).display = .int n ∧
    (n.toInt ≠ Word.least → ∃ tokens, tokenize (Value.int n).display = .ok tokens ∧
      (0 ≤ n.toInt → tokens = #[⟨.number (.int n), (Value.int n).display, ⟨1, 0⟩⟩]) ∧
      (n.toInt < 0 → ∃ m : Int64, m.toInt = -n.toInt ∧
        (Value.int n).display = "-" ++ (Value.int m).display ∧
        tokens =
          #[⟨.operator .minus, "-", ⟨1, 0⟩⟩, ⟨.number (.int m), (Value.int m).display, ⟨1, 1⟩⟩]) ∧
      ∀ store, endFrom tokens 0 = tokens.size ∧ evaluateFrom tokens 0 store = .ok (.int n)) ∧
    (n.toInt = Word.least → tokenize (Value.int n).display =
      .error ⟨.lexical (.literalOutOfRange "9223372036854775808"), ⟨1, 1⟩⟩) := by
  have hspells := Value.spellsInt_display n
  refine ⟨Value.ofLine_eq_int_iff.2 (hspells.trim_eq.symm ▸ hspells), fun hn => ?_,
    tokenize_display_of_least⟩
  by_cases hneg : n.toInt < 0
  · obtain ⟨m, hm⟩ := Word.exists_opposite hn
    have hbearing : ∀ t ∈ [⟨.operator .minus, "-", ⟨1, 0⟩⟩,
        (⟨.number (.int m), (Value.int m).display, ⟨1, 1⟩⟩ : Token)], t.isValueBearing = true := by
      simp [Token.isValueBearing]
    refine ⟨_, tokenize_display_of_neg hneg hm, fun hnonneg => absurd hneg (Int.not_lt.2 hnonneg),
      fun _ => ⟨m, hm, Value.display_of_opposite hneg hm, rfl⟩, fun store =>
        ⟨endFrom_of_bearing hbearing, ?_⟩⟩
    rw [evaluateFrom_of_bearing hbearing]
    exact evaluate_minus (by omega) _ _ _
  · have hbearing : ∀ t ∈ [(⟨.number (.int n), (Value.int n).display, ⟨1, 0⟩⟩ : Token)],
        t.isValueBearing = true := by
      simp [Token.isValueBearing]
    refine ⟨_, tokenize_display_of_nonneg (Int.not_lt.1 hneg), fun _ => rfl,
      fun hlt => absurd hlt hneg, fun store => ⟨endFrom_of_bearing hbearing, ?_⟩⟩
    rw [evaluateFrom_of_bearing hbearing]
    exact evaluate_number _ _ _

/-- The least integer that is read as a source text, and the one before it that is not. -/
theorem printed_integers_read_back_extremes :
    Value.ofLine "-9223372036854775807" = .int (-9223372036854775807) ∧
    (∃ tokens, tokenize "-9223372036854775807" = .ok tokens ∧ tokens.size = 2 ∧
      evaluateFrom tokens 0 ∅ = .ok (.int (-9223372036854775807))) ∧
    Value.ofLine "-9223372036854775808" = .int (-9223372036854775808) ∧
    tokenize "-9223372036854775808" =
      .error ⟨.lexical (.literalOutOfRange "9223372036854775808"), ⟨1, 1⟩⟩ := by
  have hlow : (Value.int (-9223372036854775807)).display = "-9223372036854775807" := by decide
  have hleast : (Value.int (-9223372036854775808)).display = "-9223372036854775808" := by decide
  obtain ⟨hline, hsource, -⟩ := printed_integers_read_back (-9223372036854775807)
  obtain ⟨hlineLeast, -, hrefused⟩ := printed_integers_read_back (-9223372036854775808)
  rw [hlow] at hline hsource
  rw [hleast] at hlineLeast hrefused
  obtain ⟨tokens, htokens, -, hnegative, hvalue⟩ := hsource (by decide)
  obtain ⟨m, -, -, htwo⟩ := hnegative (by decide)
  exact ⟨hline, ⟨tokens, htokens, htwo ▸ rfl, (hvalue ∅).2⟩, hlineLeast, hrefused (by decide)⟩

end TokenScript
