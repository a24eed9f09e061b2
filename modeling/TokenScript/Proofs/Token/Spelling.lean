import Mathlib.Data.List.TakeWhile
import TokenScript.Token.Lexer

/-!
# Lexemes on their own

A lexeme was cut off the front of a text, and what came after it had a say in where it ends: `<` is
an operator unless `=` follows, and a word is reserved unless it goes on.  This file shows that the
text after a lexeme matters only in that way.  Taken by itself, a lexeme is read as what it was; and
so it is in front of a *separator*, a blank, a line end or a comment, since no lexeme but a quoted
text has a separator in it.

* `isSeparator`, `Separated`: what ends every lexeme.
* `next?_eq_some_iff`: the next lexeme, as a condition on the cuts of the classes.
* `next?_self`: a lexeme by itself.
* `next?_append`: a lexeme in front of a separator.
-/

namespace TokenScript.Lexeme

variable {text word rest : List Char} {cut : Cut}

/-- A character that ends every lexeme before it. -/
def isSeparator (c : Char) : Bool := isGap c || c = '\n' || c = '?'

/-- The text is empty, or starts with a separator. -/
def Separated : List Char → Prop
  | [] => True
  | c :: _ => isSeparator c = true

theorem isSeparator_cases {c : Char} (h : isSeparator c = true) :
    c ∈ [' ', '\t', '\r', '\x0b', '\x0c', '\n', '?'] := by
  simp only [isSeparator, isGap, Bool.or_eq_true, decide_eq_true_eq, or_assoc] at h
  simpa only [List.mem_cons, List.not_mem_nil, or_false] using h

/-- No separator is part of a name or of a number. -/
theorem isSeparator_disjoint {c : Char} (h : isSeparator c = true) :
    isWordStart c = false ∧ isWordChar c = false ∧ c.isDigit = false ∧ c ≠ '.' := by
  have hmem := isSeparator_cases h
  revert hmem
  simp only [List.mem_cons, List.not_mem_nil, or_false]
  rintro (rfl | rfl | rfl | rfl | rfl | rfl | rfl) <;> decide

theorem keyword_isSeparator (k : Keyword) : ∀ c ∈ k.spelling.toList, isSeparator c = false := by
  have hall : k.spelling.toList.all (fun c => !isSeparator c) = true := by
    cases k <;> rfl
  simpa only [List.all_eq_true, Bool.not_eq_true'] using hall

theorem operator_isSeparator (op : Operator) : ∀ c ∈ op.spelling.toList, isSeparator c = false := by
  have hall : op.spelling.toList.all (fun c => !isSeparator c) = true := by
    cases op <;> rfl
  simpa only [List.all_eq_true, Bool.not_eq_true'] using hall

/-- A cut in a longer text. -/
def extend (rest : List Char) (cut : Cut) : Cut := (cut.1, cut.2 ++ rest)

/-! ## Words -/

theorem restAfter?_append_of_some {after : List Char} (h : restAfter? word text = some after)
    (rest : List Char) : restAfter? word (text ++ rest) = some (after ++ rest) := by
  induction word generalizing text with
  | nil =>
    obtain rfl := Option.some.inj h
    rfl
  | cons w word ih =>
    cases text with
    | nil => simp [restAfter?] at h
    | cons c text =>
      rw [restAfter?] at h
      rw [List.cons_append, restAfter?]
      split at h
      · next hw => rw [if_pos hw, ih h]
      · cases h

/-- A word without separators is not found across one. -/
theorem restAfter?_append (hword : ∀ c ∈ word, isSeparator c = false) (hrest : Separated rest) :
    restAfter? word (text ++ rest) = (restAfter? word text).map (· ++ rest) := by
  induction word generalizing text with
  | nil => rfl
  | cons w word ih =>
    cases text with
    | nil =>
      cases rest with
      | nil => rfl
      | cons c rest =>
        have hne : w ≠ c := by
          rintro rfl
          have hw := hword w List.mem_cons_self
          rw [show isSeparator w = true from hrest] at hw
          cases hw
        simp [restAfter?, hne]
    | cons c text =>
      simp only [List.cons_append, restAfter?]
      split
      · exact ih fun d hd => hword d (List.mem_cons_of_mem w hd)
      · rfl

theorem cutWord?_append (hword : ∀ c ∈ word, isSeparator c = false) (hrest : Separated rest) :
    cutWord? word (text ++ rest) = (cutWord? word text).map (extend rest) := by
  rw [cutWord?, cutWord?, restAfter?_append hword hrest]
  cases restAfter? word text <;> rfl

theorem cutOperator?_append (hrest : Separated rest) :
    cutOperator? (text ++ rest) = (cutOperator? text).map (extend rest) := by
  rw [cutOperator?, cutOperator?, List.map_findSome?]
  congr 1
  funext op
  exact cutWord?_append (operator_isSeparator op) hrest

theorem cutKeyword?_append (hrest : Separated rest) :
    cutKeyword? (text ++ rest) = (cutKeyword? text).map (extend rest) := by
  rw [cutKeyword?, cutKeyword?, List.map_findSome?]
  congr 1
  funext k
  rw [Function.comp_apply, cutWord?_append (keyword_isSeparator k) hrest]
  -- a word ends at a separator, so what comes after the text does not matter
  have hboundary : ∀ after : List Char, atBoundary (after ++ rest) = atBoundary after := by
    intro after
    cases after with
    | cons c after => rfl
    | nil =>
      cases rest with
      | nil => rfl
      | cons c rest => simp [atBoundary, (isSeparator_disjoint hrest).2.1]
  cases cutWord? k.spelling.toList text with
  | none => rfl
  | some cut =>
    simp only [Option.map_some, Option.filter_some, extend, hboundary]
    split <;> rfl

/-! ## Runs and numbers -/

/-- A run of characters ends where a text ends that none of them follows. -/
theorem span_append {others : Char → Bool}
    (hrest : ∀ c after, rest = c :: after → others c = false) (text : List Char) :
    (text ++ rest).takeWhile others = text.takeWhile others ∧
      (text ++ rest).dropWhile others = text.dropWhile others ++ rest := by
  induction text with
  | nil =>
    cases rest with
    | nil => exact ⟨rfl, rfl⟩
    | cons c rest =>
      have hc := hrest c rest rfl
      simp [hc]
  | cons c text ih =>
    simp only [List.cons_append, List.takeWhile_cons, List.dropWhile_cons]
    split
    · exact ⟨congrArg (c :: ·) ih.1, ih.2⟩
    · exact ⟨rfl, rfl⟩

theorem cutRun?_append {first others : Char → Bool}
    (hfirst : ∀ c, isSeparator c = true → first c = false)
    (hothers : ∀ c, isSeparator c = true → others c = false) (hrest : Separated rest) :
    cutRun? first others (text ++ rest) = (cutRun? first others text).map (extend rest) := by
  cases text with
  | nil =>
    cases rest with
    | nil => rfl
    | cons c rest => simp [cutRun?, hfirst c hrest]
  | cons c text =>
    have hspan : ∀ d after, rest = d :: after → others d = false := by
      rintro d after rfl
      exact hothers d hrest
    simp only [List.cons_append, cutRun?]
    split
    · rw [(span_append hspan text).1, (span_append hspan text).2]
      rfl
    · rfl

theorem cutNumber?_append (hrest : Separated rest) :
    cutNumber? (text ++ rest) = (cutNumber? text).map (extend rest) := by
  have hdigit : ∀ c, isSeparator c = true → c.isDigit = false := fun c hc =>
    (isSeparator_disjoint hc).2.2.1
  have hspan : ∀ c after, rest = c :: after → c.isDigit = false := by
    rintro c after rfl
    exact hdigit c hrest
  rw [cutNumber?, cutNumber?, cutRun?_append hdigit hdigit hrest, Option.map_map, Option.map_map]
  congr 1
  funext ⟨whole, after⟩
  simp only [Function.comp_apply, extend]
  cases after with
  | nil =>
    cases rest with
    | nil => rfl
    | cons c rest =>
      have hpoint := (isSeparator_disjoint hrest).2.2.2
      simp only [List.nil_append]
      split
      · next heq => exact absurd (List.cons.inj heq).1 hpoint
      · rfl
  | cons c after =>
    by_cases hpoint : c = '.'
    · subst hpoint
      simp only [List.cons_append, (span_append hspan after).1, (span_append hspan after).2]
    · simp only [List.cons_append]
      split
      · next heq => exact absurd (List.cons.inj heq).1 hpoint
      · split
        · next heq => exact absurd (List.cons.inj heq).1 hpoint
        · rfl

/-- The classes whose lexemes hold no separator. -/
def Class.plain : List Class := [.keyword, .operator, .assignment, .identifier, .number]

/-- What comes after a separator does not change a cut of such a class. -/
theorem cut?_append {c : Class} (hc : c ∈ Class.plain) (hrest : Separated rest) :
    c.cut? (text ++ rest) = (c.cut? text).map (extend rest) := by
  simp only [Class.plain, List.mem_cons, List.not_mem_nil, or_false] at hc
  rcases hc with rfl | rfl | rfl | rfl | rfl
  · exact cutKeyword?_append hrest
  · exact cutOperator?_append hrest
  · exact cutWord?_append (List.forall_mem_singleton.2 rfl) hrest
  · exact cutRun?_append (fun c hc => (isSeparator_disjoint hc).1)
      (fun c hc => (isSeparator_disjoint hc).2.1) hrest
  · exact cutNumber?_append hrest

/-! ## The order of the classes -/

/-- The classes that are tried before a class. -/
def Class.before (c : Class) : List Class := Class.all.takeWhile (· ≠ c)

theorem findSome?_cut_iff {c : Class} {classes : List Class} (hc : c ∈ classes) :
    (classes.findSome? fun d => (d.cut? text).map fun cut => (d, cut)) = some (c, cut) ↔
      c.cut? text = some cut ∧ ∀ d ∈ classes.takeWhile (· ≠ c), d.cut? text = none := by
  induction classes with
  | nil => cases hc
  | cons d classes ih =>
    rw [List.findSome?_cons]
    by_cases hd : d = c
    · subst hd
      cases hcut : d.cut? text with
      | none =>
        simp only [Option.map_none, reduceCtorEq, false_and, iff_false]
        intro h
        obtain ⟨d', -, hd'⟩ := List.exists_of_findSome?_eq_some h
        obtain ⟨cut', hcut', heq⟩ := Option.map_eq_some_iff.1 hd'
        obtain ⟨rfl, -⟩ := Prod.mk.inj heq
        rw [hcut] at hcut'
        cases hcut'
      | some found => simp
    · have hmem : c ∈ classes := (List.mem_cons.1 hc).resolve_left (Ne.symm hd)
      cases hcut : d.cut? text with
      | none => simp [ih hmem, hd, hcut]
      | some found => simp [hd, hcut]

/-- The next lexeme is of a class if that class has a cut and no class before it does. -/
theorem next?_eq_some_iff {c : Class} :
    next? text = some (c, cut) ↔ c.cut? text = some cut ∧ ∀ d ∈ c.before, d.cut? text = none :=
  findSome?_cut_iff c.mem_all

/-! ## A lexeme by itself -/

theorem dropWhile_takeWhile (p : Char → Bool) (text : List Char) :
    (text.takeWhile p).dropWhile p = [] :=
  List.dropWhile_eq_nil_iff.2 fun _ hc => List.mem_takeWhile_imp hc

theorem cutRun?_self {first others : Char → Bool} (h : cutRun? first others text = some cut) :
    cutRun? first others cut.1 = some (cut.1, []) := by
  cases text with
  | nil => cases h
  | cons c text =>
    rw [cutRun?] at h
    split at h
    · next hfirst =>
      obtain rfl := Option.some.inj h
      simp only [cutRun?, hfirst, if_true, List.takeWhile_idem, dropWhile_takeWhile]
    · cases h

theorem cutNumber?_self (h : cutNumber? text = some cut) : cutNumber? cut.1 = some (cut.1, []) := by
  obtain ⟨⟨whole, after⟩, hwhole, rfl⟩ := Option.map_eq_some_iff.1 h
  have hself : cutRun? Char.isDigit Char.isDigit whole = some (whole, []) := cutRun?_self hwhole
  simp only
  split
  · next tail =>
    -- the digits before the point end there, and those after it at the end
    have hrun : cutRun? Char.isDigit Char.isDigit (whole ++ '.' :: tail.takeWhile Char.isDigit) =
        some (whole, '.' :: tail.takeWhile Char.isDigit) := by
      cases whole with
      | nil => cases hself
      | cons c whole =>
        have hspan : ∀ d more, '.' :: tail.takeWhile Char.isDigit = d :: more →
            d.isDigit = false := by
          intro d more heq
          obtain ⟨rfl, -⟩ := List.cons.inj heq
          rfl
        rw [cutRun?] at hself
        split at hself
        · next hfirst =>
          obtain ⟨htake, hdrop⟩ := Prod.mk.inj (Option.some.inj hself)
          simp only [List.cons_append, cutRun?, hfirst, if_true, (span_append hspan whole).1,
            (span_append hspan whole).2, htake, hdrop, List.nil_append]
        · cases hself
    rw [cutNumber?, hrun]
    simp only [Option.map_some, List.takeWhile_idem, dropWhile_takeWhile]
  · rw [cutNumber?, hself]
    rfl

/-- A quoted text ends at its second quote, whatever comes after. -/
theorem cutText?_append (h : cutText? text = some cut) (rest : List Char) :
    cutText? (cut.1 ++ rest) = some (cut.1, rest) := by
  cases text with
  | nil => cases h
  | cons c text =>
    rw [cutText?] at h
    split at h
    · next hc =>
      split at h
      · cases h
      · next close tail hdrop =>
        obtain rfl := Option.some.inj h
        have hclose : close = quoteMark := by
          have hhead := List.head?_dropWhile_not (fun d => decide (d ≠ quoteMark)) text
          rw [hdrop] at hhead
          simpa using hhead
        have hspan : ∀ d after, close :: rest = d :: after →
            decide (d ≠ quoteMark) = false := by
          intro d after heq
          obtain ⟨rfl, -⟩ := List.cons.inj heq
          simp [hclose]
        have hinside := span_append hspan (text.takeWhile fun d => decide (d ≠ quoteMark))
        rw [List.takeWhile_idem, dropWhile_takeWhile] at hinside
        simp only [List.cons_append, List.append_assoc, cutText?, if_pos hc, hinside.1, hinside.2,
          List.nil_append]
    · cases h

theorem eq_of_cutWord (h : cutWord? word text = some cut) : cut.1 = word := by
  obtain ⟨after, -, rfl⟩ := Option.map_eq_some_iff.1 h
  rfl

/-- The lexeme of a cut is cut off whole when nothing comes after it. -/
theorem cut?_self {c : Class} (h : c.cut? text = some cut) : c.cut? cut.1 = some (cut.1, []) := by
  cases c with
  | keyword =>
    obtain ⟨k, -, hk⟩ := List.exists_of_findSome?_eq_some h
    rw [eq_of_cutWord (Option.filter_eq_some_iff.1 hk).1]
    cases k <;> decide
  | operator =>
    obtain ⟨op, -, hop⟩ := List.exists_of_findSome?_eq_some h
    rw [eq_of_cutWord hop]
    cases op <;> decide
  | assignment =>
    rw [eq_of_cutWord h]
    decide
  | identifier => exact cutRun?_self h
  | number => exact cutNumber?_self h
  | text =>
    have hself := cutText?_append h []
    rwa [List.append_nil] at hself
  | newline =>
    rw [eq_of_cutWord h]
    decide
  | blank => exact cutRun?_self h
  | comment => exact cutRun?_self h

theorem cutRun?_isSome_append {first others : Char → Bool} (rest : List Char)
    (h : (cutRun? first others text).isSome = true) :
    (cutRun? first others (text ++ rest)).isSome = true := by
  cases text with
  | nil => cases h
  | cons c text =>
    rw [cutRun?] at h
    rw [List.cons_append, cutRun?]
    split at h
    · next hfirst => rw [if_pos hfirst, Option.isSome_some]
    · cases h

theorem cutWord?_isSome_append (rest : List Char) (h : (cutWord? word text).isSome = true) :
    (cutWord? word (text ++ rest)).isSome = true := by
  obtain ⟨cut, hcut⟩ := Option.isSome_iff_exists.1 h
  obtain ⟨after, hafter, -⟩ := Option.map_eq_some_iff.1 hcut
  rw [cutWord?, restAfter?_append_of_some hafter rest, Option.map_some, Option.isSome_some]

/-- A class that has a cut has one in every longer text; only a reserved word may go on. -/
theorem cut?_isSome_append {c : Class} (hc : c ≠ .keyword) (rest : List Char)
    (h : (c.cut? text).isSome = true) : (c.cut? (text ++ rest)).isSome = true := by
  cases c with
  | keyword => exact absurd rfl hc
  | operator =>
    obtain ⟨op, hop, hcut⟩ := List.findSome?_isSome_iff.1 h
    exact List.findSome?_isSome_iff.2 ⟨op, hop, cutWord?_isSome_append rest hcut⟩
  | assignment => exact cutWord?_isSome_append rest h
  | identifier => exact cutRun?_isSome_append rest h
  | number =>
    change (cutNumber? text).isSome = true at h
    change (cutNumber? (text ++ rest)).isSome = true
    rw [cutNumber?, Option.isSome_map] at h ⊢
    exact cutRun?_isSome_append rest h
  | text =>
    obtain ⟨cut, hcut⟩ := Option.isSome_iff_exists.1 h
    have htext : text ++ rest = cut.1 ++ (cut.2 ++ rest) := by
      rw [← List.append_assoc, append_of_cutText hcut]
    change (cutText? (text ++ rest)).isSome = true
    rw [htext, cutText?_append hcut, Option.isSome_some]
  | newline => exact cutWord?_isSome_append rest h
  | blank => exact cutRun?_isSome_append rest h
  | comment => exact cutRun?_isSome_append rest h

/-- A reserved word that is a whole text is one in front of a boundary too. -/
theorem cutKeyword?_isSome_append (h : (cutKeyword? text).isSome = true)
    (hrest : atBoundary rest = true) : (cutKeyword? (text ++ rest)).isSome = true := by
  obtain ⟨k, hk, hcut⟩ := List.findSome?_isSome_iff.1 h
  obtain ⟨cut, hcut⟩ := Option.isSome_iff_exists.1 hcut
  obtain ⟨hword, hboundary⟩ := Option.filter_eq_some_iff.1 hcut
  obtain ⟨after, hafter, rfl⟩ := Option.map_eq_some_iff.1 hword
  refine List.findSome?_isSome_iff.2 ⟨k, hk, ?_⟩
  have hmore : atBoundary (after ++ rest) = true := by
    cases after with
    | nil => exact hrest
    | cons c after => exact hboundary
  rw [cutWord?, restAfter?_append_of_some hafter rest]
  simp [Option.filter_some, hmore]

/-- A text that starts with a reserved word starts with a letter. -/
theorem isWordStart_of_cutKeyword (h : (cutKeyword? text).isSome = true) :
    ∃ c after, text = c :: after ∧ c.isAlpha = true := by
  obtain ⟨k, -, hcut⟩ := List.findSome?_isSome_iff.1 h
  obtain ⟨cut, hcut⟩ := Option.isSome_iff_exists.1 hcut
  have hword := (Option.filter_eq_some_iff.1 hcut).1
  have htext := append_of_cutWord hword
  have hletter : ∃ c more, k.spelling.toList = c :: more ∧ c.isAlpha = true := by
    cases k <;> exact ⟨_, _, rfl, rfl⟩
  obtain ⟨c, more, hspelling, hc⟩ := hletter
  refine ⟨c, more ++ cut.2, ?_, hc⟩
  rw [← htext, eq_of_cutWord hword, hspelling, List.cons_append]

theorem not_isAlpha_of_cutOperator {c : Char} {after : List Char}
    (h : (cutOperator? (c :: after)).isSome = true) : c.isAlpha = false := by
  obtain ⟨op, -, hcut⟩ := List.findSome?_isSome_iff.1 h
  obtain ⟨cut, hcut⟩ := Option.isSome_iff_exists.1 hcut
  have htext := append_of_cutWord hcut
  have hsign : ∃ d more, op.spelling.toList = d :: more ∧ d.isAlpha = false := by
    cases op <;> exact ⟨_, _, rfl, rfl⟩
  obtain ⟨d, more, hspelling, hd⟩ := hsign
  rw [eq_of_cutWord hcut, hspelling, List.cons_append] at htext
  obtain ⟨rfl, -⟩ := List.cons.inj htext
  exact hd

/-- A name is as long as it can be. -/
theorem atBoundary_of_cutRun {first : Char → Bool} (h : cutRun? first isWordChar text = some cut) :
    atBoundary cut.2 = true := by
  cases text with
  | nil => cases h
  | cons c text =>
    rw [cutRun?] at h
    split at h
    · obtain rfl := Option.some.inj h
      simp only
      cases hdrop : text.dropWhile isWordChar with
      | nil => rfl
      | cons d after =>
        have hhead := List.head?_dropWhile_not isWordChar text
        rw [hdrop] at hhead
        simpa [atBoundary] using hhead
    · cases h

/-- A lexeme that starts with a letter, and is not a reserved word, is a name. -/
theorem eq_identifier_of_isAlpha {c : Class} {d : Char} {after : List Char}
    (h : next? (d :: after) = some (c, cut)) (hd : d.isAlpha = true) (hc : c ≠ .keyword) :
    c = .identifier := by
  obtain ⟨hcut, hbefore⟩ := next?_eq_some_iff.1 h
  have hname : (Class.identifier.cut? (d :: after)).isSome = true := by
    have hstart : isWordStart d = true := by simp [isWordStart, hd]
    change (cutRun? isWordStart isWordChar (d :: after)).isSome = true
    rw [cutRun?, if_pos hstart, Option.isSome_some]
  have hlate : Class.identifier ∉ c.before := by
    intro hmem
    rw [hbefore _ hmem] at hname
    cases hname
  cases c with
  | keyword => exact absurd rfl hc
  | identifier => rfl
  | operator =>
    have hnot := not_isAlpha_of_cutOperator (Option.isSome_iff_exists.2 ⟨cut, hcut⟩)
    rw [hd] at hnot
    cases hnot
  | assignment =>
    have htext : cut.1 ++ cut.2 = d :: after := append_of_cutWord hcut
    rw [eq_of_cutWord hcut, List.singleton_append] at htext
    obtain ⟨rfl, -⟩ := List.cons.inj htext
    cases hd
  | _ => exact absurd (by decide) hlate

/-- A lexeme by itself is read as what it was. -/
theorem next?_self {c : Class} (h : next? text = some (c, cut)) :
    next? cut.1 = some (c, cut.1, []) := by
  obtain ⟨hcut, hbefore⟩ := next?_eq_some_iff.1 h
  have htext : cut.1 ++ cut.2 = text := append_of_cut hcut
  refine next?_eq_some_iff.2 ⟨cut?_self hcut, fun d hd => ?_⟩
  by_contra hnone
  have hsome : (d.cut? cut.1).isSome = true := Option.isSome_iff_ne_none.2 hnone
  have habsent := hbefore d hd
  rw [← htext] at habsent
  by_cases hkeyword : d = .keyword
  · -- only a name could have been taken for a reserved word, and it ends at a boundary
    subst hkeyword
    have hc : c ≠ .keyword := by
      rintro rfl
      simp [Class.before, Class.all] at hd
    obtain ⟨a, after, hword, halpha⟩ := isWordStart_of_cutKeyword hsome
    rw [← htext, hword, List.cons_append] at h
    obtain rfl := eq_identifier_of_isAlpha h halpha hc
    have hmore := cutKeyword?_isSome_append hsome (atBoundary_of_cutRun hcut)
    rw [show cutKeyword? (cut.1 ++ cut.2) = none from habsent] at hmore
    cases hmore
  · have hmore := cut?_isSome_append hkeyword cut.2 hsome
    rw [habsent] at hmore
    cases hmore

/-! ## A lexeme in front of a separator -/

/-- No class without separators has a lexeme at a separator. -/
theorem cut?_eq_none_of_separated {c : Class} (hc : c ∈ Class.plain) (h : Separated text) :
    c.cut? text = none := by
  have hempty : c.cut? [] = none := by
    cases c <;> decide
  have hcut : c.cut? ([] ++ text) = (c.cut? []).map (extend text) := cut?_append hc h
  rwa [List.nil_append, hempty, Option.map_none] at hcut

theorem next?_newline (rest : List Char) :
    next? ('\n' :: rest) = some (.newline, ['\n'], rest) := by
  have hseparated : Separated ('\n' :: rest) := rfl
  refine next?_eq_some_iff.2 ⟨rfl, fun d hd => ?_⟩
  by_cases htext : d = .text
  · subst htext
    rfl
  · refine cut?_eq_none_of_separated ?_ hseparated
    revert hd htext
    cases d <;> decide

/-- Blanks are one lexeme, if none follows them. -/
theorem next?_blanks {blanks : List Char} (hne : blanks ≠ [])
    (hblanks : ∀ c ∈ blanks, isGap c = true)
    (hrest : ∀ c after, rest = c :: after → isGap c = false) :
    next? (blanks ++ rest) = some (.blank, blanks, rest) := by
  cases blanks with
  | nil => exact absurd rfl hne
  | cons b blanks =>
    have hgap : isGap b = true := hblanks b List.mem_cons_self
    have hall : ∀ c ∈ blanks, isGap c = true := fun c hc => hblanks c (List.mem_cons_of_mem b hc)
    have hseparated : Separated (b :: blanks ++ rest) := by
      show isSeparator b = true
      simp [isSeparator, hgap]
    have hother : b ≠ quoteMark ∧ b ≠ '\n' := by
      constructor <;>
      · rintro rfl
        cases hgap
    refine next?_eq_some_iff.2 ⟨?_, fun d hd => ?_⟩
    · show cutRun? isGap isGap (b :: (blanks ++ rest)) = _
      rw [cutRun?, if_pos hgap, (span_append hrest blanks).1, (span_append hrest blanks).2,
        List.takeWhile_eq_self_iff.2 hall, List.dropWhile_eq_nil_iff.2 hall, List.nil_append]
    · by_cases hplain : d ∈ Class.plain
      · exact cut?_eq_none_of_separated hplain hseparated
      · cases d with
        | text =>
          show cutText? (b :: (blanks ++ rest)) = none
          rw [cutText?, if_neg hother.1]
        | newline =>
          show cutWord? ['\n'] (b :: (blanks ++ rest)) = none
          simp [cutWord?, restAfter?, Ne.symm hother.2]
        | blank => exact absurd hd (by decide)
        | comment => exact absurd hd (by decide)
        | _ => exact absurd (by decide) hplain

/-- A comment goes on to the end of its line. -/
theorem next?_comment {body : List Char} (hbody : '\n' ∉ body)
    (hrest : ∀ c after, rest = c :: after → c = '\n') :
    next? ('?' :: body ++ rest) = some (.comment, '?' :: body, rest) := by
  have hall : ∀ c ∈ body, decide (c ≠ '\n') = true := by
    intro c hc
    exact decide_eq_true fun heq => hbody (heq ▸ hc)
  have hspan : ∀ c after, rest = c :: after → decide (c ≠ '\n') = false := by
    intro c after heq
    simp [hrest c after heq]
  have hseparated : Separated ('?' :: body ++ rest) := rfl
  refine next?_eq_some_iff.2 ⟨?_, fun d hd => ?_⟩
  · show cutRun? (fun c => decide (c = '?')) (fun c => decide (c ≠ '\n'))
      ('?' :: (body ++ rest)) = _
    rw [cutRun?, if_pos (by decide), (span_append hspan body).1, (span_append hspan body).2,
      List.takeWhile_eq_self_iff.2 hall, List.dropWhile_eq_nil_iff.2 hall, List.nil_append]
  · by_cases hplain : d ∈ Class.plain
    · exact cut?_eq_none_of_separated hplain hseparated
    · cases d with
      | text => rfl
      | newline => rfl
      | blank => rfl
      | comment => exact absurd hd (by decide)
      | _ => exact absurd (by decide) hplain

/-- No lexeme but blanks starts with a blank. -/
theorem eq_blank_of_isGap {c : Class} {d : Char} {after : List Char}
    (h : next? (d :: after) = some (c, cut)) (hd : isGap d = true) : c = .blank := by
  have hall : ∀ a ∈ d :: after.takeWhile isGap, isGap a = true := by
    intro a ha
    rcases List.mem_cons.1 ha with rfl | ha
    · exact hd
    · exact List.mem_takeWhile_imp ha
  have hrest : ∀ a more, after.dropWhile isGap = a :: more → isGap a = false := by
    intro a more heq
    have hhead := List.head?_dropWhile_not isGap after
    rw [heq] at hhead
    simpa using hhead
  have hnext := next?_blanks (List.cons_ne_nil _ _) hall hrest
  rw [List.cons_append, List.takeWhile_append_dropWhile, h] at hnext
  exact (Prod.mk.inj (Option.some.inj hnext)).1

/-- In front of a separator a lexeme is read as by itself. -/
theorem next?_append {c : Class} (h : next? word = some (c, word, [])) (hblank : c ≠ .blank)
    (hcomment : c ≠ .comment) (hrest : Separated rest) :
    next? (word ++ rest) = some (c, word, rest) := by
  obtain ⟨hcut, hbefore⟩ := next?_eq_some_iff.1 h
  have hplain : ∀ d ∈ Class.plain, d.cut? word = none → d.cut? (word ++ rest) = none := by
    intro d hd hnone
    rw [cut?_append hd hrest, hnone, Option.map_none]
  by_cases hc : c ∈ Class.plain
  · refine next?_eq_some_iff.2 ⟨?_, fun d hd => hplain d ?_ (hbefore d hd)⟩
    · rw [cut?_append hc hrest, hcut]
      rfl
    · revert hc hd
      cases c <;> cases d <;> decide
  · cases c with
    | text =>
      refine next?_eq_some_iff.2 ⟨cutText?_append hcut rest, fun d hd => ?_⟩
      exact hplain d hd (hbefore d hd)
    | newline =>
      obtain rfl : word = ['\n'] := eq_of_cutWord hcut
      exact next?_newline rest
    | blank => exact absurd rfl hblank
    | comment => exact absurd rfl hcomment
    | _ => exact absurd (by decide) hc

end TokenScript.Lexeme
