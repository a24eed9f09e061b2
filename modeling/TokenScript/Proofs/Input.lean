import TokenScript.Proofs.Decimal.Grammar
import TokenScript.Value.Input

/-!
# Lines of input, read by the grammar

A line of input is looked at three times: as an integer, as a numeral and as a text.  The first two
looks are at what is left of it without the blanks around it, the third at the whole line.  This
file says which lines become which values, in terms of the grammar of numerals, and that a number
does not depend on the blanks.

An integer is a numeral as well, so a line that is an integer becomes a binary64 number only when no
word can hold the integer.

* `Text.Trims`: a text and what is left of it without the blanks around it; `Text.trims_trim`,
  `Text.Trims.trim_eq`.
* `Value.ofLine_eq_int_iff`, `Value.ofLine_eq_float_iff`, `Value.ofLine_eq_text_iff`: the three
  looks.
* `lines_read_by_grammar`: a line of input becomes what the grammar says.
-/

namespace TokenScript

/-! ## Blanks around a text -/

namespace Text

variable {text before body after : List Char}

/-- The text is a body with blanks around it, and the body neither starts nor ends with a blank. -/
structure Trims (text body : List Char) : Prop where
  around : ∃ before after, (∀ c ∈ before, isBlank c = true) ∧ (∀ c ∈ after, isBlank c = true) ∧
    text = before ++ body ++ after
  starts : ∀ c, body.head? = some c → isBlank c = false
  ends : ∀ c, body.getLast? = some c → isBlank c = false

/-- Nothing is dropped from a text that does not start with a blank. -/
theorem dropWhile_eq_self (h : ∀ c, text.head? = some c → isBlank c = false) :
    text.dropWhile isBlank = text := by
  cases text with
  | nil => rfl
  | cons c rest => rw [List.dropWhile_cons, h c rfl, if_neg Bool.false_ne_true]

theorem head?_dropWhile (text : List Char) :
    ∀ c, (text.dropWhile isBlank).head? = some c → isBlank c = false := by
  intro c hc
  have hhead := List.head?_dropWhile_not isBlank text
  rw [hc] at hhead
  exact hhead

/-- Only blanks are cut off at the end. -/
theorem exists_trimEnd_append (text : List Char) :
    ∃ after, (∀ c ∈ after, isBlank c = true) ∧ text = trimEnd text ++ after := by
  refine ⟨(text.reverse.takeWhile isBlank).reverse, fun c hc => ?_, ?_⟩
  · exact List.mem_takeWhile_imp (List.mem_reverse.1 hc)
  · rw [trimEnd, ← List.reverse_append, List.takeWhile_append_dropWhile, List.reverse_reverse]

/-- What is left of a text is the text without the blanks around it. -/
theorem trims_trim (text : List Char) : Trims text (trim text) := by
  obtain ⟨after, hafter, hsplit⟩ := exists_trimEnd_append (trimStart text)
  refine
    ⟨⟨text.takeWhile isBlank, after, fun c hc => List.mem_takeWhile_imp hc, hafter, ?_⟩, ?_, ?_⟩
  · rw [List.append_assoc, trim, ← hsplit, trimStart, List.takeWhile_append_dropWhile]
  · intro c hc
    refine head?_dropWhile text c ?_
    change (trimStart text).head? = some c
    rw [hsplit, List.head?_append]
    exact Option.or_eq_some_iff.2 (Or.inl hc)
  · intro c hc
    rw [trim, trimEnd, List.getLast?_reverse] at hc
    exact head?_dropWhile _ c hc

/-- There is only one body in a text. -/
theorem Trims.trim_eq (h : Trims text body) : trim text = body := by
  obtain ⟨⟨before, after, hbefore, hafter, rfl⟩, hstarts, hends⟩ := h
  have hreverse : body.reverse.dropWhile isBlank = body.reverse :=
    dropWhile_eq_self fun c hc => hends c (by rwa [List.head?_reverse] at hc)
  have htrimEnd : trimEnd (body ++ after) = body := by
    rw [trimEnd, List.reverse_append,
      List.dropWhile_append_of_pos fun c hc => hafter c (List.mem_reverse.1 hc), hreverse,
      List.reverse_reverse]
  rw [List.append_assoc, trim, trimStart, List.dropWhile_append_of_pos hbefore]
  cases body with
  | nil =>
    rw [List.nil_append, List.dropWhile_eq_nil_iff.2 hafter]
    rfl
  | cons c rest =>
    have hstart : (c :: rest ++ after).dropWhile isBlank = c :: rest ++ after :=
      dropWhile_eq_self fun b hb => hstarts b hb
    rw [hstart, htrimEnd]

end Text

/-! ## The three looks at a line -/

namespace Value

open Decimal

variable {line : String}

theorem readWord?_eq_some_iff {text : List Char} {n : Int64} :
    (readInt? text).bind Word.ofInt? = some n ↔ SpellsInt text n.toInt := by
  rw [Option.bind_eq_some_iff]
  constructor
  · rintro ⟨k, hread, hword⟩
    rw [Word.ofInt?_eq_some_iff.1 hword]
    exact readInt?_eq_some_iff.1 hread
  · intro h
    exact ⟨n.toInt, readInt?_eq_some_iff.2 h, Word.ofInt?_eq_some_iff.2 rfl⟩

theorem readWord?_eq_none_iff {text : List Char} :
    (readInt? text).bind Word.ofInt? = none ↔ ∀ n : Int64, ¬ SpellsInt text n.toInt := by
  simp only [Option.eq_none_iff_forall_not_mem, Option.mem_def, readWord?_eq_some_iff]

/-- What a line becomes, by the looks at it that succeed. -/
theorem ofLine_cases (line : String) :
    (∃ n : Int64, SpellsInt (Text.trim line.toList) n.toInt ∧ ofLine line = .int n) ∨
      (∀ n : Int64, ¬ SpellsInt (Text.trim line.toList) n.toInt) ∧
        ((∃ numeral, Numeral.Spells (Text.trim line.toList) numeral ∧
            ofLine line = .float numeral.toFloat) ∨
          (∀ numeral, ¬ Numeral.Spells (Text.trim line.toList) numeral) ∧
            ofLine line = .text line) := by
  unfold ofLine
  simp only
  split
  · next n hword => exact Or.inl ⟨n, readWord?_eq_some_iff.1 hword, rfl⟩
  · next hword =>
    refine Or.inr ⟨readWord?_eq_none_iff.1 hword, ?_⟩
    split
    · next numeral hread => exact Or.inl ⟨numeral, Numeral.read?_eq_some_iff.1 hread, rfl⟩
    · next hread =>
      refine Or.inr ⟨fun numeral hspells => ?_, rfl⟩
      rw [Numeral.read?_eq_some_iff.2 hspells] at hread
      cases hread

/-- A line becomes an integer just if it is one that a word can hold. -/
theorem ofLine_eq_int_iff {n : Int64} :
    ofLine line = .int n ↔ SpellsInt (Text.trim line.toList) n.toInt := by
  rcases ofLine_cases line with ⟨m, hm, heq⟩ | ⟨hnone, ⟨numeral, -, heq⟩ | ⟨-, heq⟩⟩
  · rw [heq]
    constructor
    · intro h
      rwa [← Value.int.inj h]
    · intro h
      have hsame : some m = some n :=
        (readWord?_eq_some_iff.2 hm).symm.trans (readWord?_eq_some_iff.2 h)
      rw [Option.some.inj hsame]
  · rw [heq]
    exact ⟨nofun, fun h => absurd h (hnone n)⟩
  · rw [heq]
    exact ⟨nofun, fun h => absurd h (hnone n)⟩

/-- A line becomes a binary64 number just if it is a numeral, but no integer that a word can
hold. -/
theorem ofLine_eq_float_iff {x : Float} :
    ofLine line = .float x ↔ (∀ n : Int64, ¬ SpellsInt (Text.trim line.toList) n.toInt) ∧
      ∃ numeral, Numeral.Spells (Text.trim line.toList) numeral ∧ numeral.toFloat = x := by
  rcases ofLine_cases line with ⟨m, hm, heq⟩ | ⟨hnone, ⟨numeral, hnumeral, heq⟩ | ⟨htext, heq⟩⟩
  · rw [heq]
    exact ⟨nofun, fun h => absurd hm (h.1 m)⟩
  · rw [heq]
    constructor
    · intro h
      exact ⟨hnone, numeral, hnumeral, Value.float.inj h⟩
    · rintro ⟨-, other, hother, rfl⟩
      have hsame : some numeral = some other :=
        (Numeral.read?_eq_some_iff.2 hnumeral).symm.trans (Numeral.read?_eq_some_iff.2 hother)
      rw [Option.some.inj hsame]
  · rw [heq]
    exact ⟨nofun, fun ⟨_, other, hother, _⟩ => absurd hother (htext other)⟩

/-- A line becomes a text just if it is no numeral, and then it is the whole line. -/
theorem ofLine_eq_text_iff {s : String} :
    ofLine line = .text s ↔
    s = line ∧ ∀ numeral, ¬ Numeral.Spells (Text.trim line.toList) numeral := by
  rcases ofLine_cases line with ⟨m, hm, heq⟩ | ⟨hnone, ⟨numeral, hnumeral, heq⟩ | ⟨htext, heq⟩⟩
  · obtain ⟨numeral, hnumeral⟩ := hm.exists_spells
    rw [heq]
    exact ⟨nofun, fun h => absurd hnumeral (h.2 numeral)⟩
  · rw [heq]
    exact ⟨nofun, fun h => absurd hnumeral (h.2 numeral)⟩
  · rw [heq]
    exact ⟨fun h => ⟨(Value.text.inj h).symm, htext⟩, fun h => congrArg Value.text h.1.symm⟩

end Value

open Decimal

/-- **A line of input becomes what the grammar says.**  What is left of a line without the blanks
around it decides:

* the line becomes an integer just if that is an integer, and a word can hold it;
* it becomes a binary64 number just if that is a numeral but no such integer, and then it becomes
  the numeral, rounded; this includes the integers that no word can hold;
* it becomes a text just if that is no numeral, and then it is the whole line, blanks and all; this
  includes all names of infinity and of the undefined number.

Nothing else decides: lines that differ in the blanks around them become the same number, or each
becomes its own text. -/
theorem lines_read_by_grammar (line : String) :
    Text.Trims line.toList (Text.trim line.toList) ∧
    (∀ n : Int64, Value.ofLine line = .int n ↔ SpellsInt (Text.trim line.toList) n.toInt) ∧
    (∀ x : Float, Value.ofLine line = .float x ↔
      (∀ n : Int64, ¬ SpellsInt (Text.trim line.toList) n.toInt) ∧
        ∃ numeral, Numeral.Spells (Text.trim line.toList) numeral ∧ numeral.toFloat = x) ∧
    (∀ n : Int, SpellsInt (Text.trim line.toList) n → n < Word.least ∨ Word.greatest < n →
      ∃ x : Float, Value.ofLine line = .float x) ∧
    (∀ s : String, Value.ofLine line = .text s ↔
      s = line ∧ ∀ numeral, ¬ Numeral.Spells (Text.trim line.toList) numeral) ∧
    (Named (Text.trim line.toList) → Value.ofLine line = .text line) ∧
    ∀ other : String, Text.Trims other.toList (Text.trim line.toList) →
      Value.ofLine other = Value.ofLine line ∨
        Value.ofLine other = .text other ∧ Value.ofLine line = .text line := by
  refine ⟨Text.trims_trim _, fun n => Value.ofLine_eq_int_iff, fun x => Value.ofLine_eq_float_iff,
    fun n hint hlarge => ?_, fun s => Value.ofLine_eq_text_iff, fun hnamed => ?_, ?_⟩
  · obtain ⟨numeral, hnumeral⟩ := hint.exists_spells
    refine ⟨numeral.toFloat, Value.ofLine_eq_float_iff.2 ⟨fun m hm => ?_, numeral, hnumeral, rfl⟩⟩
    have hbounds := Word.bounds_toInt m
    rw [hm.unique hint] at hbounds
    omega
  · exact Value.ofLine_eq_text_iff.2 ⟨rfl, hnamed.not_spells⟩
  · intro other hother
    have htrim : Text.trim other.toList = Text.trim line.toList := hother.trim_eq
    rcases Value.ofLine_cases line with ⟨n, hn, heq⟩ |
      ⟨hnone, ⟨numeral, hnumeral, heq⟩ | ⟨htext, heq⟩⟩
    · exact Or.inl (heq ▸ Value.ofLine_eq_int_iff.2 (htrim ▸ hn))
    · exact Or.inl (heq ▸ Value.ofLine_eq_float_iff.2 (htrim ▸ ⟨hnone, numeral, hnumeral, rfl⟩))
    · exact Or.inr ⟨Value.ofLine_eq_text_iff.2 (htrim ▸ ⟨rfl, htext⟩), heq⟩

/-- An integer between blanks, one of them beyond ASCII; the least integer that no word can hold; a
numeral that starts with a point; a name; a digit beyond ASCII; and other blanks around the first
integer. -/
theorem lines_read_by_grammar_blanks :
    Value.ofLine "\u3000+7\n" = .int 7 ∧
    (∃ x, Value.ofLine "9223372036854775808" = .float x) ∧
    Value.ofLine "-.5E2\t" = .float (Numeral.toFloat ⟨true, 5, 1⟩) ∧
    Value.ofLine " -Inf " = .text " -Inf " ∧
    Value.ofLine " ٣" = .text " ٣" ∧
    (Value.ofLine " +7" = Value.ofLine "\u3000+7\n" ∨
      Value.ofLine " +7" = .text " +7" ∧ Value.ofLine "\u3000+7\n" = .text "\u3000+7\n") := by
  have hseven : Text.trim "\u3000+7\n".toList = ['+', '7'] := by decide
  have hspells : SpellsInt ['+', '7'] 7 :=
    ⟨['+'], false, ['7'], .plus, by decide, by simp [Digits], rfl, by decide⟩
  have hlarge : SpellsInt (Text.trim "9223372036854775808".toList) 9223372036854775808 :=
    ⟨[], false, "9223372036854775808".toList,
      .none, by decide, by simp [Digits], by decide, by decide⟩
  have hfraction : Numeral.Spells (Text.trim "-.5E2\t".toList) ⟨true, 5, 1⟩ :=
    ⟨['-'], true, ['.', '5'], ['5'], 1, ['E', '2'], 2, .minus,
      .fraction (by decide) (by simp [Digits]),
      .marked (Or.inr rfl) ⟨[], false, ['2'], .none, by decide, by simp [Digits], rfl, by decide⟩,
      by decide, by decide⟩
  have hpoint : readInt? (Text.trim "-.5E2\t".toList) = none := by decide
  have hnamed : Named (Text.trim " -Inf ".toList) :=
    ⟨['-'], true, "Inf".toList, .minus, by decide, by decide⟩
  have hforeign : Text.trim " ٣".toList = ['٣'] := by decide
  refine ⟨((lines_read_by_grammar _).2.1 7).2 (hseven ▸ hspells),
    (lines_read_by_grammar _).2.2.2.1 _ hlarge (Or.inr (by decide)),
    ((lines_read_by_grammar _).2.2.1 _).2 ⟨fun n hn => ?_, _, hfraction, rfl⟩,
    (lines_read_by_grammar _).2.2.2.2.2.1 hnamed,
    ((lines_read_by_grammar _).2.2.2.2.1 _).2 ⟨rfl, fun numeral hnumeral => ?_⟩,
    (lines_read_by_grammar _).2.2.2.2.2.2 _ (hseven ▸ ⟨⟨[' '], [], ?_, nofun, by decide⟩, ?_, ?_⟩)⟩
  · rw [readInt?_eq_some_iff.2 hn] at hpoint
    cases hpoint
  · obtain ⟨c, hmem, hc⟩ := hnumeral.exists_digit
    rw [hforeign, List.mem_singleton] at hmem
    subst hmem
    cases hc
  · simp [Text.isBlank, Text.blankRanges]
  · rintro c ⟨⟩
    decide
  · rintro c ⟨⟩
    decide

end TokenScript
