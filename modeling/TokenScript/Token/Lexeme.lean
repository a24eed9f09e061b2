import TokenScript.Keyword
import TokenScript.Operator

/-!
# Lexemes

Nine classes of lexemes cover a script.  Each class has a *cut*: it takes the lexeme of that class
off the front of a text, if there is one, and returns the lexeme and the rest.  The classes are
tried in a fixed order and the first cut that succeeds is the next lexeme, so a reserved word goes
before a name, and `==` before `=`.

A reserved word must end at a word boundary.  Only the ASCII letters, digits and the underscore
count as parts of a word: no other character can start a lexeme, so nothing that follows such a
character is ever read.

The two facts that everything else rests on are that a cut loses nothing and that it takes
something: `Lexeme.append_of_cut` and `Lexeme.ne_nil_of_cut`.
-/

namespace TokenScript.Lexeme

/-- The classes of lexemes. -/
inductive Class where
  | keyword
  | operator
  | assignment
  | identifier
  | number
  | text
  | newline
  | blank
  | comment
  deriving DecidableEq, Repr

/-- The classes in the order in which they are tried. -/
def Class.all : List Class :=
  [.keyword, .operator, .assignment, .identifier, .number, .text, .newline, .blank, .comment]

theorem Class.mem_all (c : Class) : c ∈ Class.all := by
  cases c <;> decide

/-- The quote around texts. -/
def quoteMark : Char := '\x27'

/-- A character that can start a name. -/
def isWordStart (c : Char) : Bool := c.isAlpha || c = '_'

/-- A character that can stand in a name. -/
def isWordChar (c : Char) : Bool := c.isAlphanum || c = '_'

/-- A blank within a line. -/
def isGap (c : Char) : Bool :=
  c = ' ' || c = '\t' || c = '\r' || c = '\x0b' || c = '\x0c'

/-- What follows `word` in a text that starts with it. -/
def restAfter? : List Char → List Char → Option (List Char)
  | [], text => some text
  | _ :: _, [] => none
  | w :: word, c :: text => if w = c then restAfter? word text else none

/-- Whether no word character follows. -/
def atBoundary : List Char → Bool
  | [] => true
  | c :: _ => !isWordChar c

/-- A lexeme and the text after it. -/
abbrev Cut := List Char × List Char

/-- Takes a fixed word off the front. -/
def cutWord? (word : List Char) (text : List Char) : Option Cut :=
  (restAfter? word text).map fun rest => (word, rest)

/-- Takes a reserved word off the front, if it ends there. -/
def cutKeyword? (text : List Char) : Option Cut :=
  Keyword.all.findSome? fun k =>
    (cutWord? k.spelling.toList text).filter fun cut => atBoundary cut.2

/-- Takes an operator off the front. -/
def cutOperator? (text : List Char) : Option Cut :=
  Operator.all.findSome? fun op => cutWord? op.spelling.toList text

/-- Takes a non-empty run of characters off the front: the first of one sort, the others of
another. -/
def cutRun? (first others : Char → Bool) : List Char → Option Cut
  | [] => none
  | c :: rest =>
    if first c then some (c :: rest.takeWhile others, rest.dropWhile others) else none

/-- Takes digits off the front, with a point and more digits if a point follows. -/
def cutNumber? (text : List Char) : Option Cut :=
  (cutRun? Char.isDigit Char.isDigit text).map fun (whole, rest) =>
    match rest with
    | '.' :: tail => (whole ++ '.' :: tail.takeWhile Char.isDigit, tail.dropWhile Char.isDigit)
    | _ => (whole, rest)

/-- Takes a text in quotes off the front; it may run over several lines. -/
def cutText? : List Char → Option Cut
  | [] => none
  | c :: rest =>
    if c = quoteMark then
      match rest.dropWhile (· ≠ quoteMark) with
      | [] => none
      | close :: tail => some (c :: rest.takeWhile (· ≠ quoteMark) ++ [close], tail)
    else none

/-- The cut of each class. -/
def Class.cut? : Class → List Char → Option Cut
  | keyword => cutKeyword?
  | operator => cutOperator?
  | assignment => cutWord? ['=']
  | identifier => cutRun? isWordStart isWordChar
  | number => cutNumber?
  | text => cutText?
  | newline => cutWord? ['\n']
  | blank => cutRun? isGap isGap
  | comment => cutRun? (· = '?') (· ≠ '\n')

/-- The next lexeme of a text: the first class, in order, that has one. -/
def next? (text : List Char) : Option (Class × Cut) :=
  Class.all.findSome? fun c => (c.cut? text).map fun cut => (c, cut)

/-! ## Nothing is lost -/

theorem append_of_restAfter : ∀ {word text rest : List Char},
    restAfter? word text = some rest → word ++ rest = text
  | [], _, _, h => by simpa [restAfter?] using h.symm
  | _ :: _, [], _, h => by simp [restAfter?] at h
  | w :: word, c :: text, rest, h => by
    unfold restAfter? at h
    split at h
    · next hw => rw [List.cons_append, append_of_restAfter h, hw]
    · simp at h

theorem append_of_cutWord {word text : List Char} {cut : Cut}
    (h : cutWord? word text = some cut) : cut.1 ++ cut.2 = text := by
  obtain ⟨rest, hr, rfl⟩ := Option.map_eq_some_iff.1 h
  exact append_of_restAfter hr

theorem append_of_cutRun {first others : Char → Bool} : ∀ {text : List Char} {cut : Cut},
    cutRun? first others text = some cut → cut.1 ++ cut.2 = text
  | [], _, h => by simp [cutRun?] at h
  | c :: rest, cut, h => by
    rw [cutRun?] at h
    split at h
    · obtain rfl := Option.some.inj h
      simp [List.takeWhile_append_dropWhile]
    · simp at h

theorem append_of_cutNumber {text : List Char} {cut : Cut} (h : cutNumber? text = some cut) :
    cut.1 ++ cut.2 = text := by
  obtain ⟨⟨whole, rest⟩, hr, rfl⟩ := Option.map_eq_some_iff.1 h
  have hw := append_of_cutRun hr
  simp only at hw ⊢
  split
  · simp only [List.append_assoc, List.cons_append, List.takeWhile_append_dropWhile]
    exact hw
  · exact hw

theorem append_of_cutText : ∀ {text : List Char} {cut : Cut},
    cutText? text = some cut → cut.1 ++ cut.2 = text
  | [], _, h => by simp [cutText?] at h
  | c :: rest, cut, h => by
    rw [cutText?] at h
    split at h
    · split at h
      · simp at h
      · next close tail hd =>
        obtain rfl := Option.some.inj h
        have hr := List.takeWhile_append_dropWhile (p := (· ≠ quoteMark)) (l := rest)
        rw [hd] at hr
        simpa using hr
    · simp at h

/-- A cut loses nothing: the lexeme and the rest are the text. -/
theorem append_of_cut {c : Class} {text : List Char} {cut : Cut} (h : c.cut? text = some cut) :
    cut.1 ++ cut.2 = text := by
  cases c with
  | keyword =>
    obtain ⟨k, -, hk⟩ := List.exists_of_findSome?_eq_some h
    exact append_of_cutWord (Option.filter_eq_some_iff.1 hk).1
  | operator =>
    obtain ⟨op, -, hop⟩ := List.exists_of_findSome?_eq_some h
    exact append_of_cutWord hop
  | assignment => exact append_of_cutWord h
  | identifier => exact append_of_cutRun h
  | number => exact append_of_cutNumber h
  | text => exact append_of_cutText h
  | newline => exact append_of_cutWord h
  | blank => exact append_of_cutRun h
  | comment => exact append_of_cutRun h

/-! ## Something is taken -/

theorem ne_nil_of_cutWord {word text : List Char} {cut : Cut} (hw : word ≠ [])
    (h : cutWord? word text = some cut) : cut.1 ≠ [] := by
  obtain ⟨rest, -, rfl⟩ := Option.map_eq_some_iff.1 h
  exact hw

theorem ne_nil_of_cutRun {first others : Char → Bool} : ∀ {text : List Char} {cut : Cut},
    cutRun? first others text = some cut → cut.1 ≠ []
  | [], _, h => by simp [cutRun?] at h
  | c :: rest, cut, h => by
    rw [cutRun?] at h
    split at h
    · obtain rfl := Option.some.inj h
      simp
    · simp at h

theorem ne_nil_of_cutNumber {text : List Char} {cut : Cut} (h : cutNumber? text = some cut) :
    cut.1 ≠ [] := by
  obtain ⟨⟨whole, rest⟩, hr, rfl⟩ := Option.map_eq_some_iff.1 h
  have hw : whole ≠ [] := ne_nil_of_cutRun hr
  simp only
  split <;> simp [hw]

theorem ne_nil_of_cutText : ∀ {text : List Char} {cut : Cut},
    cutText? text = some cut → cut.1 ≠ []
  | [], _, h => by simp [cutText?] at h
  | c :: rest, cut, h => by
    rw [cutText?] at h
    split at h
    · split at h
      · simp at h
      · obtain rfl := Option.some.inj h
        simp
    · simp at h

theorem spelling_ne_nil (k : Keyword) : k.spelling.toList ≠ [] := by
  cases k <;> simp [Keyword.spelling]

theorem operator_spelling_ne_nil (op : Operator) : op.spelling.toList ≠ [] := by
  cases op <;> simp [Operator.spelling]

/-- A cut takes at least one character. -/
theorem ne_nil_of_cut {c : Class} {text : List Char} {cut : Cut} (h : c.cut? text = some cut) :
    cut.1 ≠ [] := by
  cases c with
  | keyword =>
    obtain ⟨k, -, hk⟩ := List.exists_of_findSome?_eq_some h
    exact ne_nil_of_cutWord (spelling_ne_nil k) (Option.filter_eq_some_iff.1 hk).1
  | operator =>
    obtain ⟨op, -, hop⟩ := List.exists_of_findSome?_eq_some h
    exact ne_nil_of_cutWord (operator_spelling_ne_nil op) hop
  | assignment => exact ne_nil_of_cutWord (by simp) h
  | identifier => exact ne_nil_of_cutRun h
  | number => exact ne_nil_of_cutNumber h
  | text => exact ne_nil_of_cutText h
  | newline => exact ne_nil_of_cutWord (by simp) h
  | blank => exact ne_nil_of_cutRun h
  | comment => exact ne_nil_of_cutRun h

/-- The next lexeme is a cut of its class. -/
theorem cut_of_next {text : List Char} {c : Class} {cut : Cut} (h : next? text = some (c, cut)) :
    c.cut? text = some cut := by
  obtain ⟨d, -, hd⟩ := List.exists_of_findSome?_eq_some h
  obtain ⟨cut', hc, he⟩ := Option.map_eq_some_iff.1 hd
  obtain ⟨rfl, rfl⟩ := Prod.mk.inj he
  exact hc

/-- What is left after a lexeme is shorter, so cutting comes to an end. -/
theorem length_rest_lt {text : List Char} {c : Class} {cut : Cut}
    (h : next? text = some (c, cut)) : cut.2.length < text.length := by
  have hc := cut_of_next h
  have hl : 0 < cut.1.length := List.length_pos_iff.2 (ne_nil_of_cut hc)
  have ha := congrArg List.length (append_of_cut hc)
  rw [List.length_append] at ha
  omega

end TokenScript.Lexeme
