import TokenScript.Proofs.Token.Joined

/-!
# The longest match

The next lexeme is found by trying the classes in a fixed order, and a reserved word is taken only
if it ends where it stands.  A reader of the language would rather say: the next lexeme is the
longest word of any class that the text starts with, and a word that is both reserved and a name is
reserved.  This file shows that the two agree on every text.

The classes need no look at what follows for that.  `Class.Has` says which words a class has, each
word on its own.  Every class but the reserved words takes as much as it can, and by their first
characters the classes fall apart, except for two pairs: a reserved word is spelled like a name, and
`=` starts operators.  In the first pair the boundary does what the length would do, since a
reserved word ends at a boundary just if no longer name starts there.

* `Class.Has`: the words of a class.
* `Class.Has.exists_cut`: a class takes as much as it can.
* `Class.Has.head`: the first character of a word tells its class, up to the two pairs.
* `Longest`: the longest match.
* `next?_eq_some_iff_longest`, `next?_eq_none_iff`: the next lexeme is the longest match.
-/

namespace TokenScript.Lexeme

variable {text word rest other : List Char} {cut : Cut} {c d : Class}

/-! ## The words of a class -/

/-- A character of one sort, and then any number of another. -/
def Run (first others : Char → Bool) (word : List Char) : Prop :=
  ∃ a body, word = a :: body ∧ first a = true ∧ ∀ b ∈ body, others b = true

/-- The words of a class, whatever comes after them. -/
def Class.Has : Class → List Char → Prop
  | .keyword, word => ∃ k : Keyword, word = k.spelling.toList
  | .operator, word => ∃ op : Operator, word = op.spelling.toList
  | .assignment, word => word = ['=']
  | .identifier, word => Run isWordStart isWordChar word
  | .number, word => ∃ whole, Run Char.isDigit Char.isDigit whole ∧
      (word = whole ∨ ∃ places, (∀ b ∈ places, b.isDigit = true) ∧ word = whole ++ '.' :: places)
  | .text, word => ∃ body, quoteMark ∉ body ∧ word = quoteMark :: (body ++ [quoteMark])
  | .newline, word => word = ['\n']
  | .blank, word => Run isGap isGap word
  | .comment, word => Run (fun a => decide (a = '?')) (fun a => decide (a ≠ '\n')) word

/-! ## Classes take words that they have, as long as can be -/

section

variable {first others : Char → Bool}

theorem run_of_cutRun (h : cutRun? first others text = some cut) : Run first others cut.1 := by
  obtain ⟨a, body, hword, ha, hbody, -⟩ := exists_of_cutRun h
  exact ⟨a, body, hword, ha, hbody⟩

/-- A run is cut off whole, and with it whatever goes on with it. -/
theorem Run.exists_cut (h : Run first others word) (rest : List Char) :
    ∃ cut, cutRun? first others (word ++ rest) = some cut ∧ word.length ≤ cut.1.length := by
  obtain ⟨a, body, rfl, ha, hbody⟩ := h
  refine ⟨(a :: (body ++ rest).takeWhile others, (body ++ rest).dropWhile others), ?_, ?_⟩
  · rw [List.cons_append, cutRun?, if_pos ha]
  · rw [List.takeWhile_append_of_pos hbody]
    simp

/-- A run is cut off alone if what comes after it does not go on with it. -/
theorem Run.cut_eq (h : Run first others word)
    (hrest : ∀ b after, rest = b :: after → others b = false) :
    cutRun? first others (word ++ rest) = some (word, rest) := by
  obtain ⟨a, body, rfl, ha, hbody⟩ := h
  rw [List.cons_append, cutRun?, if_pos ha, (span_append hrest body).1, (span_append hrest body).2,
    List.takeWhile_eq_self_iff.2 hbody, List.dropWhile_eq_nil_iff.2 hbody, List.nil_append]

end

theorem has_of_cutNumber (h : cutNumber? text = some cut) : Class.number.Has cut.1 := by
  obtain ⟨⟨whole, after⟩, hrun, rfl⟩ := Option.map_eq_some_iff.1 h
  refine ⟨whole, run_of_cutRun hrun, ?_⟩
  simp only
  split
  · exact Or.inr ⟨_, fun b hb => List.mem_takeWhile_imp hb, rfl⟩
  · exact Or.inl rfl

theorem exists_cutNumber (h : Class.number.Has word) (rest : List Char) :
    ∃ cut, cutNumber? (word ++ rest) = some cut ∧ word.length ≤ cut.1.length := by
  obtain ⟨whole, hwhole, rfl | ⟨places, hplaces, rfl⟩⟩ := h
  · obtain ⟨⟨run, after⟩, hcut, hle⟩ := hwhole.exists_cut rest
    rw [cutNumber?, hcut]
    refine ⟨_, rfl, ?_⟩
    simp only at hle ⊢
    split
    · rw [List.length_append]
      omega
    · exact hle
  · -- the point ends the first run of digits
    have hpoint : ∀ b after, '.' :: (places ++ rest) = b :: after → b.isDigit = false := by
      intro b after heq
      obtain ⟨rfl, -⟩ := List.cons.inj heq
      rfl
    have hcut := hwhole.cut_eq hpoint
    rw [List.append_assoc, List.cons_append, cutNumber?, hcut]
    refine ⟨_, rfl, ?_⟩
    simp only [List.takeWhile_append_of_pos hplaces, List.length_append, List.length_cons]
    omega

theorem has_of_cutText (h : cutText? text = some cut) : Class.text.Has cut.1 := by
  cases text with
  | nil => cases h
  | cons a text =>
    rw [cutText?] at h
    split at h
    · next ha =>
      split at h
      · cases h
      · next close tail hdrop =>
        obtain rfl := Option.some.inj h
        have hclose : close = quoteMark := by
          have hhead := List.head?_dropWhile_not (fun b => decide (b ≠ quoteMark)) text
          rw [hdrop] at hhead
          simpa using hhead
        refine ⟨text.takeWhile fun b => decide (b ≠ quoteMark), fun hmem => ?_, ?_⟩
        · exact absurd (List.mem_takeWhile_imp hmem) (by simp)
        · rw [ha, hclose, List.cons_append]
    · cases h

theorem cutText?_of_has (h : Class.text.Has word) (rest : List Char) :
    cutText? (word ++ rest) = some (word, rest) := by
  obtain ⟨body, hbody, rfl⟩ := h
  have hinside : ∀ b ∈ body, decide (b ≠ quoteMark) = true := by
    intro b hb
    exact decide_eq_true fun heq => hbody (heq ▸ hb)
  have hclose : ∀ b after, quoteMark :: rest = b :: after → decide (b ≠ quoteMark) = false := by
    intro b after heq
    obtain ⟨rfl, -⟩ := List.cons.inj heq
    simp
  have hspan := span_append hclose body
  rw [List.takeWhile_eq_self_iff.2 hinside, List.dropWhile_eq_nil_iff.2 hinside] at hspan
  simp only [List.cons_append, List.append_assoc, List.nil_append, cutText?, hspan.1, hspan.2,
    if_true]

theorem cutWord?_append_self (word rest : List Char) :
    cutWord? word (word ++ rest) = some (word, rest) := by
  have hrest : restAfter? word (word ++ rest) = some rest := by
    induction word with
    | nil => rfl
    | cons a word ih => rw [List.cons_append, restAfter?, if_pos rfl, ih]
  rw [cutWord?, hrest, Option.map_some]

/-- Of the operators that a text starts with, the one that is cut off is as long as any. -/
theorem exists_cutOperator (op : Operator) (rest : List Char) :
    ∃ cut, cutOperator? (op.spelling.toList ++ rest) = some cut ∧
      op.spelling.toList.length ≤ cut.1.length := by
  have hsome : (cutOperator? (op.spelling.toList ++ rest)).isSome = true := by
    refine List.findSome?_isSome_iff.2 ⟨op, op.mem_all, ?_⟩
    rw [cutWord?_append_self, Option.isSome_some]
  obtain ⟨cut, hcut⟩ := Option.isSome_iff_exists.1 hsome
  have hpos : 0 < cut.1.length := List.length_pos_iff.2 (ne_nil_of_cut (c := .operator) hcut)
  refine ⟨cut, hcut, ?_⟩
  -- operators of two characters come first in the list, and the others are as short as can be
  cases op with
  | power | floorDiv | shiftLeft | shiftRight | equal | notEqual | greaterEqual | lessEqual =>
    obtain rfl := Option.some.inj hcut
    exact Nat.le_refl 2
  | _ => exact hpos

/-- What a class cuts off is a word of it. -/
theorem has_of_cut (h : c.cut? text = some cut) : c.Has cut.1 := by
  cases c with
  | keyword =>
    obtain ⟨k, -, hk⟩ := List.exists_of_findSome?_eq_some h
    exact ⟨k, eq_of_cutWord (Option.filter_eq_some_iff.1 hk).1⟩
  | operator =>
    obtain ⟨op, -, hop⟩ := List.exists_of_findSome?_eq_some h
    exact ⟨op, eq_of_cutWord hop⟩
  | assignment => exact eq_of_cutWord h
  | identifier => exact run_of_cutRun h
  | number => exact has_of_cutNumber h
  | text => exact has_of_cutText h
  | newline => exact eq_of_cutWord h
  | blank => exact run_of_cutRun h
  | comment => exact run_of_cutRun h

/-- A class takes as much as it can; a reserved word alone may go on as a name. -/
theorem Class.Has.exists_cut (h : c.Has word) (hc : c ≠ .keyword) (rest : List Char) :
    ∃ cut, c.cut? (word ++ rest) = some cut ∧ word.length ≤ cut.1.length := by
  cases c with
  | keyword => exact absurd rfl hc
  | operator =>
    obtain ⟨op, rfl⟩ := h
    exact exists_cutOperator op rest
  | assignment =>
    obtain rfl : word = ['='] := h
    exact ⟨_, cutWord?_append_self _ rest, Nat.le_refl 1⟩
  | identifier => exact Run.exists_cut h rest
  | number => exact exists_cutNumber h rest
  | text => exact ⟨_, cutText?_of_has h rest, Nat.le_refl _⟩
  | newline =>
    obtain rfl : word = ['\n'] := h
    exact ⟨_, cutWord?_append_self _ rest, Nat.le_refl 1⟩
  | blank => exact Run.exists_cut h rest
  | comment => exact Run.exists_cut h rest

/-! ## First characters -/

/-- The class that a first character points to.  A letter points to names, though the word may be
reserved, and a sign to operators, though it may be `=` alone. -/
def Class.ofHead (a : Char) : Class :=
  if isWordStart a then .identifier
  else if a.isDigit then .number
  else if a = quoteMark then .text
  else if a = '\n' then .newline
  else if isGap a then .blank
  else if a = '?' then .comment
  else .operator

/-- The class that stands for a class among those that first characters point to. -/
def Class.sort : Class → Class
  | keyword => identifier
  | assignment => operator
  | c => c

/-- The letters are two stretches of the characters. -/
theorem isAlpha_iff_toNat {a : Char} :
    a.isAlpha = true ↔ 65 ≤ a.toNat ∧ a.toNat ≤ 90 ∨ 97 ≤ a.toNat ∧ a.toNat ≤ 122 := by
  have hletters : a.isAlpha =
      (decide ('A'.val ≤ a.val ∧ a.val ≤ 'Z'.val) ||
        (decide ('a'.val ≤ a.val) && decide (a.val ≤ 'z'.val))) := rfl
  rw [hletters]
  simp only [Bool.or_eq_true, Bool.and_eq_true, decide_eq_true_eq, UInt32.le_iff_toNat_le]
  rfl

theorem not_isWordStart_of_isDigit {a : Char} (h : a.isDigit = true) : isWordStart a = false := by
  obtain ⟨-, hlast⟩ := Char.isDigit_iff_toNat.1 h
  have hnine : '9'.toNat = 57 := rfl
  rw [isWordStart, Bool.or_eq_false_iff, decide_eq_false_iff_not, ← Bool.not_eq_true,
    isAlpha_iff_toNat]
  constructor
  · omega
  · rintro rfl
    exact absurd h (by decide)

theorem isGap_cases {a : Char} (h : isGap a = true) : a ∈ [' ', '\t', '\r', '\x0b', '\x0c'] := by
  simp only [isGap, Bool.or_eq_true, decide_eq_true_eq, or_assoc] at h
  simpa only [List.mem_cons, List.not_mem_nil, or_false] using h

/-- The first character of a word tells its class. -/
theorem Class.Has.head (h : c.Has word) : ∃ a body, word = a :: body ∧ Class.ofHead a = c.sort := by
  cases c with
  | keyword =>
    obtain ⟨k, rfl⟩ := h
    cases k <;> exact ⟨_, _, rfl, rfl⟩
  | operator =>
    obtain ⟨op, rfl⟩ := h
    cases op <;> exact ⟨_, _, rfl, rfl⟩
  | assignment =>
    obtain rfl : word = ['='] := h
    exact ⟨_, _, rfl, rfl⟩
  | identifier =>
    obtain ⟨a, body, rfl, ha, -⟩ := h
    exact ⟨a, body, rfl, if_pos ha⟩
  | number =>
    obtain ⟨whole, ⟨a, body, rfl, ha, -⟩, hword⟩ := h
    have hclass : ofHead a = .number := by
      rw [ofHead, not_isWordStart_of_isDigit ha, if_neg Bool.false_ne_true, if_pos ha]
    rcases hword with rfl | ⟨places, -, rfl⟩
    · exact ⟨a, body, rfl, hclass⟩
    · exact ⟨a, _, rfl, hclass⟩
  | text =>
    obtain ⟨body, -, rfl⟩ := h
    exact ⟨_, _, rfl, rfl⟩
  | newline =>
    obtain rfl : word = ['\n'] := h
    exact ⟨_, _, rfl, rfl⟩
  | blank =>
    obtain ⟨a, body, rfl, ha, -⟩ := h
    refine ⟨a, body, rfl, ?_⟩
    have hmem := isGap_cases ha
    revert hmem
    simp only [List.mem_cons, List.not_mem_nil, or_false]
    rintro (rfl | rfl | rfl | rfl | rfl) <;> rfl
  | comment =>
    obtain ⟨a, body, rfl, ha, -⟩ := h
    obtain rfl : a = '?' := of_decide_eq_true ha
    exact ⟨_, body, rfl, rfl⟩

theorem Class.Has.ne_nil (h : c.Has word) : word ≠ [] := by
  obtain ⟨a, body, rfl, -⟩ := h.head
  exact List.cons_ne_nil a body

/-- Two words that a text starts with are of the same sort. -/
theorem Class.Has.sort_eq (hc : c.Has word) (hd : d.Has other) (hword : word <+: text)
    (hother : other <+: text) : d.sort = c.sort := by
  obtain ⟨a, body, rfl, ha⟩ := hc.head
  obtain ⟨b, more, rfl, hb⟩ := hd.head
  obtain ⟨after, rfl⟩ := hword
  rw [List.cons_append, List.cons_prefix_cons] at hother
  rw [← ha, ← hb, hother.1]

/-- A reserved word is spelled like a name. -/
theorem Class.Has.identifier_of_keyword (h : Class.keyword.Has word) :
    Class.identifier.Has word := by
  obtain ⟨k, rfl⟩ := h
  cases k <;> exact ⟨_, _, rfl, rfl, List.all_eq_true.1 rfl⟩

theorem not_operator_has_sign : ¬ Class.operator.Has ['='] := by
  rintro ⟨op, hop⟩
  cases op <;> exact absurd hop (by decide)

/-! ## The longest match -/

/-- The text starts with a word of the class, no class has a longer word there, and no other class
has that word, unless it is reserved and also a name. -/
structure Longest (text : List Char) (c : Class) (word rest : List Char) : Prop where
  cut : word ++ rest = text
  has : c.Has word
  longest : ∀ (d : Class) (other : List Char), d.Has other → other <+: text →
    other.length ≤ word.length
  tie : ∀ d : Class, d.Has word → d = c ∨ c = .keyword ∧ d = .identifier

namespace Longest

theorem isPrefix (h : Longest text c word rest) : word <+: text := ⟨rest, h.cut⟩

/-- It is enough to look at the classes that a first character does not tell apart from this one. -/
theorem of_sort (hcut : word ++ rest = text) (hhas : c.Has word)
    (h : ∀ d : Class, d.sort = c.sort →
      (∀ other, d.Has other → other <+: text → other.length ≤ word.length) ∧
        (d.Has word → d = c ∨ c = .keyword ∧ d = .identifier)) :
    Longest text c word rest := by
  have hstarts : word <+: text := ⟨rest, hcut⟩
  refine ⟨hcut, hhas, fun d other hother hle => ?_, fun d hd => ?_⟩
  · exact (h d (hhas.sort_eq hother hstarts hle)).1 other hother hle
  · exact (h d (hhas.sort_eq hd hstarts hstarts)).2 hd

/-- There is only one longest match. -/
theorem unique {word' rest' : List Char} (h : Longest text c word rest)
    (h' : Longest text d word' rest') : c = d ∧ word = word' ∧ rest = rest' := by
  have hlength : word.length = word'.length :=
    Nat.le_antisymm (h'.longest c word h.has h.isPrefix) (h.longest d word' h'.has h'.isPrefix)
  obtain ⟨rfl, rfl⟩ := List.append_inj (h.cut.trans h'.cut.symm) hlength
  refine ⟨?_, rfl, rfl⟩
  rcases h.tie d h'.has with heq | ⟨rfl, rfl⟩
  · exact heq.symm
  · rcases h'.tie .keyword h.has with heq | ⟨heq, -⟩
    · exact heq
    · cases heq

/-- A longest match is one in every shorter text that still starts with it. -/
theorem of_append {after : List Char} (h : Longest (text ++ after) c word (rest ++ after)) :
    Longest text c word rest where
  cut := by
    have hcut := h.cut
    rwa [← List.append_assoc, List.append_left_inj] at hcut
  has := h.has
  longest d other hother hstarts :=
    h.longest d other hother (hstarts.trans (List.prefix_append text after))
  tie := h.tie

end Longest

/-- A word of a text that starts with another one and a boundary does not reach beyond it. -/
theorem Run.length_le {first : Char → Bool} (h : Run first isWordChar other)
    (hother : other <+: word ++ rest) (hrest : atBoundary rest = true) (hne : word ≠ []) :
    other.length ≤ word.length := by
  obtain ⟨a, body, rfl, -, hbody⟩ := h
  by_contra hlong
  obtain ⟨tail, htail⟩ := hother
  -- the character just behind the word would be part of the run
  have hle : word.length ≤ body.length := by
    simp only [List.length_cons] at hlong
    omega
  have hget : (a :: body ++ tail)[word.length]? = rest[0]? := by
    rw [htail, List.getElem?_append_right (Nat.le_refl _), Nat.sub_self]
  obtain ⟨n, hn⟩ : ∃ n, word.length = n + 1 :=
    ⟨word.length - 1, by have := List.length_pos_iff.2 hne; omega⟩
  rw [hn, List.cons_append, List.getElem?_cons_succ, List.getElem?_append_left (by omega)] at hget
  cases rest with
  | nil =>
    rw [List.getElem?_nil, List.getElem?_eq_none_iff] at hget
    omega
  | cons b rest =>
    rw [List.getElem?_cons_zero] at hget
    have hb := hbody b (List.mem_of_getElem? hget)
    rw [atBoundary, hb] at hrest
    cases hrest

/-- A reserved word that ends where it stands is found. -/
theorem cutKeyword?_isSome (h : Class.keyword.Has word) (hrest : atBoundary rest = true) :
    (cutKeyword? (word ++ rest)).isSome = true := by
  obtain ⟨k, rfl⟩ := h
  refine List.findSome?_isSome_iff.2 ⟨k, k.mem_all, ?_⟩
  rw [cutWord?_append_self]
  simp [Option.filter_some, hrest]

theorem atBoundary_of_cutKeyword (h : cutKeyword? text = some cut) : atBoundary cut.2 = true := by
  obtain ⟨k, -, hk⟩ := List.exists_of_findSome?_eq_some h
  exact (Option.filter_eq_some_iff.1 hk).2

/-- The next lexeme is the longest match. -/
theorem longest_of_next (h : next? text = some (c, word, rest)) : Longest text c word rest := by
  obtain ⟨hcut, hbefore⟩ := next?_eq_some_iff.1 h
  have htext : word ++ rest = text := append_of_cut hcut
  have hhas : c.Has word := has_of_cut hcut
  -- a class takes as much as it can
  have hgreedy : ∀ other, c ≠ .keyword → c.Has other → other <+: text →
      other.length ≤ word.length := by
    rintro other hkeyword hother ⟨after, rfl⟩
    obtain ⟨cut, hsome, hle⟩ := hother.exists_cut hkeyword after
    rw [hcut] at hsome
    obtain rfl := Option.some.inj hsome
    exact hle
  refine Longest.of_sort htext hhas fun d hsort => ?_
  cases c with
  | keyword =>
    have hname : ∀ other, Class.identifier.Has other → other <+: text →
        other.length ≤ word.length := by
      intro other hother hle
      rw [← htext] at hle
      exact Run.length_le hother hle (atBoundary_of_cutKeyword hcut) hhas.ne_nil
    cases d with
    | keyword =>
      exact ⟨fun other hother => hname other hother.identifier_of_keyword, fun _ => Or.inl rfl⟩
    | identifier => exact ⟨hname, fun _ => Or.inr ⟨rfl, rfl⟩⟩
    | _ => cases hsort
  | identifier =>
    cases d with
    | keyword =>
      refine ⟨fun other hother => hgreedy other nofun hother.identifier_of_keyword, fun hd => ?_⟩
      -- the word ends at a boundary, so it would have been found
      have hsome := cutKeyword?_isSome hd (atBoundary_of_cutRun hcut)
      rw [htext, show cutKeyword? text = none from hbefore .keyword (by decide)] at hsome
      cases hsome
    | identifier => exact ⟨fun other => hgreedy other nofun, fun _ => Or.inl rfl⟩
    | _ => cases hsort
  | operator =>
    cases d with
    | operator => exact ⟨fun other => hgreedy other nofun, fun _ => Or.inl rfl⟩
    | assignment =>
      constructor
      · rintro other ⟨⟩ -
        exact List.length_pos_iff.2 hhas.ne_nil
      · rintro ⟨⟩
        exact absurd hhas not_operator_has_sign
    | _ => cases hsort
  | assignment =>
    cases d with
    | operator =>
      have hnone : ∀ other, Class.operator.Has other → ¬ other <+: text := by
        rintro other hother ⟨after, rfl⟩
        obtain ⟨cut, hsome, -⟩ := hother.exists_cut nofun after
        rw [hbefore .operator (by decide)] at hsome
        cases hsome
      exact ⟨fun other hother hle => absurd hle (hnone other hother),
        fun hd => absurd ⟨rest, htext⟩ (hnone word hd)⟩
    | assignment => exact ⟨fun other => hgreedy other nofun, fun _ => Or.inl rfl⟩
    | _ => cases hsort
  | number | text | newline | blank | comment =>
    cases d <;> cases hsort
    exact ⟨fun other => hgreedy other nofun, fun _ => Or.inl rfl⟩

/-- Where some class has a word, there is a next lexeme. -/
theorem next?_isSome_of_has (h : c.Has word) (hstarts : word <+: text) :
    (next? text).isSome = true := by
  obtain ⟨after, rfl⟩ := hstarts
  have hname : ∃ d : Class, d ≠ .keyword ∧ d.Has word := by
    by_cases hc : c = .keyword
    · subst hc
      exact ⟨.identifier, nofun, h.identifier_of_keyword⟩
    · exact ⟨c, hc, h⟩
  obtain ⟨d, hd, hhas⟩ := hname
  obtain ⟨cut, hcut, -⟩ := hhas.exists_cut hd after
  refine List.findSome?_isSome_iff.2 ⟨d, d.mem_all, ?_⟩
  rw [hcut, Option.map_some, Option.isSome_some]

/-- The next lexeme of a text is the longest match at its front. -/
theorem next?_eq_some_iff_longest :
    next? text = some (c, word, rest) ↔ Longest text c word rest := by
  refine ⟨longest_of_next, fun h => ?_⟩
  obtain ⟨⟨d, word', rest'⟩, hnext⟩ :=
    Option.isSome_iff_exists.1 (next?_isSome_of_has h.has h.isPrefix)
  obtain ⟨rfl, rfl, rfl⟩ := h.unique (longest_of_next hnext)
  exact hnext

/-- A text has no next lexeme just if no class has a word at its front. -/
theorem next?_eq_none_iff :
    next? text = none ↔ ∀ (c : Class) (word : List Char), c.Has word → ¬ word <+: text := by
  constructor
  · intro hnone c word hhas hstarts
    have hsome := next?_isSome_of_has hhas hstarts
    rw [hnone] at hsome
    cases hsome
  · intro hempty
    by_contra hsome
    obtain ⟨⟨c, word, rest⟩, hnext⟩ := Option.ne_none_iff_exists'.1 hsome
    have hlongest := longest_of_next hnext
    exact hempty c word hlongest.has hlongest.isPrefix

end TokenScript.Lexeme
