import TokenScript.Proofs.Token.LongestMatch

/-!
# Reading by a rule

A rule says which lexeme comes next in a text, and `Reads` says what a text is read as under a rule:
lexeme by lexeme, each at the place that the text before it leads to, up to the end, or to the first
place where the rule has nothing to offer or an integer literal is too large for a word.  The rule
of the language is the longest match.

The rule that the library follows tries the classes in order and wants a boundary after a reserved
word.  What a boundary is depends on which characters are parts of words, and there are many
opinions on that beyond ASCII: a `WordClass` is any of them.  Under some of them a reserved word
with an accented letter behind it is taken for a name.  No text that can be read to its end tells
them apart, since no lexeme starts with such a letter; and a text that cannot is refused at the same
place for the same reason.

* `Class.Denotes`, `Class.Oversized`: what the words of a class stand for.
* `Rule`, `Reads`: what a text is read as.
* `Rule.Agrees`: a rule that cannot be told from the one that the library follows.
* `WordClass`: opinions on the parts of words; `WordClass.next?_cases`: how far they matter.
* `tokenize_longest_match`: source texts are read by the longest match.
-/

namespace TokenScript

open Lexeme

namespace Lexeme

variable {text word rest : List Char} {c : Class}

/-! ## What words stand for -/

/-- The token that a word of a class stands for.  Digits stand for the word that is worth as much,
and digits with a point for the nearest binary64 number. -/
inductive Class.Denotes : Class → List Char → TokenKind → Prop
  | keyword (k : Keyword) : Denotes .keyword k.spelling.toList (.keyword k)
  | operator (op : Operator) : Denotes .operator op.spelling.toList (.operator op)
  | assignment : Denotes .assignment ['='] .assignment
  | identifier (word : List Char) : Denotes .identifier word (.identifier (String.ofList word))
  | integer {digits : List Char} {n : Int64} :
    Run Char.isDigit Char.isDigit digits → n.toInt = Decimal.digitsValue digits →
      Denotes .number digits (.number (.int n))
  | decimal {whole places : List Char} :
    Run Char.isDigit Char.isDigit whole → (∀ b ∈ places, b.isDigit = true) →
      Denotes .number (whole ++ '.' :: places)
        (.number (.float (Decimal.Numeral.toFloat
          ⟨false, Decimal.digitsValue (whole ++ places), -(places.length : Int)⟩)))
  | text (body : List Char) :
    Denotes .text (quoteMark :: (body ++ [quoteMark])) (.text (String.ofList body))
  | newline : Denotes .newline ['\n'] .newline

/-- The word is an integer literal that no word of the machine holds. -/
def Class.Oversized (c : Class) (word : List Char) : Prop :=
  c = .number ∧ Run Char.isDigit Char.isDigit word ∧ Word.greatest < Decimal.digitsValue word

/-- The class leaves no token. -/
def Class.Dropped (c : Class) : Prop := c = .blank ∨ c = .comment

theorem Run.all_digits (h : Run Char.isDigit Char.isDigit word) :
    word ≠ [] ∧ ∀ b ∈ word, b.isDigit = true := by
  obtain ⟨a, body, rfl, ha, hbody⟩ := h
  exact ⟨List.cons_ne_nil a body, List.forall_mem_cons.2 ⟨ha, hbody⟩⟩

theorem Run.point_not_mem (h : Run Char.isDigit Char.isDigit word) : '.' ∉ word :=
  fun hmem => absurd (h.all_digits.2 '.' hmem) (by decide)

/-- The number that digits alone stand for, if a word of the machine holds it. -/
theorem number_of_digits (h : Run Char.isDigit Char.isDigit word) :
    number word =
      match Word.ofInt? (Decimal.digitsValue word) with
      | some n => .ok (some (.int n))
      | none => .error (.literalOutOfRange (String.ofList word)) := by
  have hread : Decimal.readNat? word = some (Decimal.digitsValue word) :=
    if_pos ⟨h.all_digits.1, List.all_eq_true.2 h.all_digits.2⟩
  rw [number, if_neg h.point_not_mem, hread]
  rfl

/-- The number that digits with a point stand for. -/
theorem number_of_decimal {whole places : List Char} (hwhole : Run Char.isDigit Char.isDigit whole)
    (hplaces : ∀ b ∈ places, b.isDigit = true) :
    number (whole ++ '.' :: places) =
      .ok (some (.float (Decimal.Numeral.toFloat
        ⟨false, Decimal.digitsValue (whole ++ places), -(places.length : Int)⟩))) := by
  have hpoint : '.' ∈ whole ++ '.' :: places := by simp
  have hsign :
      Decimal.Numeral.takeSign (whole ++ '.' :: places) = (false, whole ++ '.' :: places) := by
    obtain ⟨a, body, rfl, ha, -⟩ := hwhole
    unfold Decimal.Numeral.takeSign
    split
    · next heq =>
      obtain ⟨rfl, -⟩ := List.cons.inj heq
      cases ha
    · next heq =>
      obtain ⟨rfl, -⟩ := List.cons.inj heq
      cases ha
    · rfl
  have hspan : ∀ b after, '.' :: places = b :: after → b.isDigit = false := by
    intro b after heq
    obtain ⟨rfl, -⟩ := List.cons.inj heq
    rfl
  have hdigits := hwhole.all_digits
  have htake : (whole ++ '.' :: places).takeWhile Char.isDigit = whole := by
    rw [(span_append hspan whole).1, List.takeWhile_eq_self_iff.2 hdigits.2]
  have hdrop : (whole ++ '.' :: places).dropWhile Char.isDigit = '.' :: places := by
    rw [(span_append hspan whole).2, List.dropWhile_eq_nil_iff.2 hdigits.2, List.nil_append]
  have hread : Decimal.Numeral.read? (whole ++ '.' :: places) =
      some ⟨false, Decimal.digitsValue (whole ++ places), -(places.length : Int)⟩ := by
    simp only [Decimal.Numeral.read?, hsign, htake, hdrop, List.takeWhile_eq_self_iff.2 hplaces,
      List.dropWhile_eq_nil_iff.2 hplaces, hdigits.1, false_and, if_false,
      Decimal.Numeral.readExponent?, Option.map_some, Int.zero_sub]
  rw [number, if_pos hpoint, hread, Option.map_some]

/-- Only a name stands for a name. -/
theorem Class.Denotes.name_eq {name : String} (h : c.Denotes word (.identifier name)) :
    c = .identifier ∧ word = name.toList := by
  generalize hkind : TokenKind.identifier name = kind at h
  cases h with
  | identifier =>
    obtain rfl := TokenKind.identifier.inj hkind
    exact ⟨rfl, String.toList_ofList.symm⟩
  | _ => cases hkind

theorem tokenKind_of_denotes {kind : TokenKind} (h : c.Denotes word kind) :
    tokenKind c word = .ok (some kind) := by
  cases h with
  | keyword k =>
    rw [tokenKind, String.ofList_toList]
    cases k <;> rfl
  | operator op =>
    rw [tokenKind, String.ofList_toList]
    cases op <;> rfl
  | assignment => rfl
  | identifier => rfl
  | integer hdigits hvalue =>
    rw [tokenKind, number_of_digits hdigits, Word.ofInt?_eq_some_iff.2 hvalue]
    rfl
  | decimal hwhole hplaces =>
    rw [tokenKind, number_of_decimal hwhole hplaces]
    rfl
  | text body => simp [tokenKind]
  | newline => rfl

theorem tokenKind_of_oversized (h : c.Oversized word) :
    tokenKind c word = .error (.literalOutOfRange (String.ofList word)) := by
  obtain ⟨rfl, hdigits, hlarge⟩ := h
  rw [tokenKind, number_of_digits hdigits, Word.ofInt?_eq_none_iff.2 (Or.inr hlarge)]
  rfl

theorem tokenKind_of_dropped (h : c.Dropped) (word : List Char) : tokenKind c word = .ok none := by
  rcases h with rfl | rfl <;> rfl

/-- Every word of a class is dropped, or is an integer that is too large, or stands for a token. -/
theorem Class.Has.cases (h : c.Has word) :
    c.Dropped ∨ c.Oversized word ∨ ∃ kind, c.Denotes word kind := by
  cases c with
  | keyword =>
    obtain ⟨k, rfl⟩ := h
    exact Or.inr (Or.inr ⟨_, .keyword k⟩)
  | operator =>
    obtain ⟨op, rfl⟩ := h
    exact Or.inr (Or.inr ⟨_, .operator op⟩)
  | assignment =>
    obtain rfl : word = ['='] := h
    exact Or.inr (Or.inr ⟨_, .assignment⟩)
  | identifier => exact Or.inr (Or.inr ⟨_, .identifier word⟩)
  | number =>
    obtain ⟨whole, hwhole, rfl | ⟨places, hplaces, rfl⟩⟩ := h
    · cases hvalue : Word.ofInt? (Decimal.digitsValue word) with
      | some n => exact Or.inr (Or.inr ⟨_, .integer hwhole (Word.ofInt?_eq_some_iff.1 hvalue)⟩)
      | none =>
        refine Or.inr (Or.inl ⟨rfl, hwhole, ?_⟩)
        rcases Word.ofInt?_eq_none_iff.1 hvalue with hlow | hhigh
        · simp only [Word.least] at hlow
          omega
        · exact hhigh
    · exact Or.inr (Or.inr ⟨_, .decimal hwhole hplaces⟩)
  | text =>
    obtain ⟨body, -, rfl⟩ := h
    exact Or.inr (Or.inr ⟨_, .text body⟩)
  | newline =>
    obtain rfl : word = ['\n'] := h
    exact Or.inr (Or.inr ⟨_, .newline⟩)
  | blank => exact Or.inl (Or.inl rfl)
  | comment => exact Or.inl (Or.inr rfl)

end Lexeme

/-! ## Rules -/

/-- Says which lexeme, of which class, comes next in a text, and what is left then. -/
abbrev Rule := List Char → Lexeme.Class → List Char → List Char → Prop

/-- What a text that starts at a place is read as, under a rule. -/
inductive Reads (next : Rule) : List Char → Span → Except Error (List Token) → Prop
  | finished (here : Span) : Reads next [] here (.ok [])
  /-- A quote that is never closed. -/
  | unclosed {others : List Char} (here : Span) :
    (∀ c word rest, ¬ next (quoteMark :: others) c word rest) →
      Reads next (quoteMark :: others) here (.error ⟨.lexical .unterminatedText, here⟩)
  | unexpected {a : Char} {others : List Char} (here : Span) :
    a ≠ quoteMark → (∀ c word rest, ¬ next (a :: others) c word rest) →
      Reads next (a :: others) here (.error ⟨.lexical (.unexpectedCharacter a), here⟩)
  | oversized {text word rest : List Char} {c : Lexeme.Class} (here : Span) :
    next text c word rest → c.Oversized word →
      Reads next text here (.error ⟨.lexical (.literalOutOfRange (String.ofList word)), here⟩)
  | dropped {text word rest : List Char} {c : Lexeme.Class} {here : Span}
    {result : Except Error (List Token)} :
    next text c word rest → c.Dropped → Reads next rest (here.after word) result →
      Reads next text here result
  | token {text word rest : List Char} {c : Lexeme.Class} {here : Span} {kind : TokenKind}
    {result : Except Error (List Token)} :
    next text c word rest → c.Denotes word kind → Reads next rest (here.after word) result →
      Reads next text here (result.map (⟨kind, String.ofList word, here⟩ :: ·))

/-- The text is not empty, and no lexeme comes next in it. -/
def Blocked (text : List Char) : Prop := text ≠ [] ∧ next? text = none

/-- The rule cannot be told from the one that the library follows.  It names the same lexemes; a
reserved word may be a name to it, but only where nothing can be read after it. -/
structure Rule.Agrees (next : Rule) : Prop where
  sound : ∀ {text word rest : List Char} {c : Lexeme.Class}, next text c word rest →
    next? text = some (c, word, rest) ∨
      c = .identifier ∧ next? text = some (.keyword, word, rest) ∧ Blocked rest
  total : ∀ {text word rest : List Char} {c : Lexeme.Class}, next? text = some (c, word, rest) →
    ∃ d, next text d word rest

section

variable {next : Rule} {text word rest : List Char} {here : Span} {c : Lexeme.Class}

/-- Reading ends where no lexeme comes next. -/
theorem scan_of_none {a : Char} {others : List Char} (h : next? (a :: others) = none) (here : Span)
    (tokens : Array Token) :
    Token.scan (a :: others) here tokens = .error ⟨.lexical (refusal a), here⟩ := by
  rw [Token.scan]
  split
  · rfl
  · next hsome =>
    rw [h] at hsome
    cases hsome

/-- Where reading ends, it does so whatever was read before. -/
theorem Blocked.exists_scan (h : Blocked text) (here : Span) :
    ∃ e, ∀ tokens : Array Token, Token.scan text here tokens = .error e := by
  obtain ⟨hne, hnone⟩ := h
  cases text with
  | nil => exact absurd rfl hne
  | cons a others => exact ⟨_, scan_of_none hnone here⟩

theorem Rule.Agrees.next?_eq_none (h : next.Agrees)
    (hnone : ∀ c word rest, ¬ next text c word rest) :
    next? text = none := by
  by_contra hsome
  obtain ⟨⟨c, word, rest⟩, hnext⟩ := Option.ne_none_iff_exists'.1 hsome
  obtain ⟨d, hd⟩ := h.total hnext
  exact hnone d word rest hd

theorem Rule.Agrees.has (h : next.Agrees) (hnext : next text c word rest) : c.Has word := by
  rcases h.sound hnext with hfound | ⟨rfl, hfound, -⟩
  · exact has_of_cut (cut_of_next hfound)
  · exact (has_of_cut (cut_of_next hfound)).identifier_of_keyword

theorem Rule.Agrees.length_lt (h : next.Agrees) (hnext : next text c word rest) :
    rest.length < text.length := by
  rcases h.sound hnext with hfound | ⟨-, hfound, -⟩ <;> exact length_rest_lt hfound

/-- What is read under a rule is what the library reads. -/
theorem Reads.scan_eq (hrule : next.Agrees) {result : Except Error (List Token)}
    (h : Reads next text here result) (tokens : Array Token) :
    Token.scan text here tokens = result.map fun added => tokens ++ added.toArray := by
  induction h generalizing tokens with
  | finished here =>
    rw [Token.scan]
    simp [Except.map]
  | unclosed here hnone =>
    rw [scan_of_none (hrule.next?_eq_none hnone)]
    rfl
  | unexpected here hne hnone =>
    rw [scan_of_none (hrule.next?_eq_none hnone), refusal, if_neg hne]
    rfl
  | @oversized text word rest c here hnext hlarge =>
    rcases hrule.sound hnext with hfound | ⟨rfl, -, -⟩
    · rw [Token.scan_next hfound, tokenKind_of_oversized hlarge]
      rfl
    · cases hlarge.1
  | @dropped text word rest c here result hnext hdropped _ ih =>
    rcases hrule.sound hnext with hfound | ⟨rfl, -, -⟩
    · rw [Token.scan_next hfound, tokenKind_of_dropped hdropped]
      exact ih tokens
    · rcases hdropped with heq | heq <;> cases heq
  | @token text word rest c here kind result hnext hdenotes _ ih =>
    rcases hrule.sound hnext with hfound | ⟨-, hfound, hblocked⟩
    · rw [Token.scan_next hfound, tokenKind_of_denotes hdenotes]
      simp only [ih]
      cases result with
      | error e => rfl
      | ok added => simp [Except.map]
    · -- a reserved word that is taken for a name: reading ends at what comes after it
      obtain ⟨e, hscan⟩ := hblocked.exists_scan (here.after word)
      have hresult := ih tokens
      rw [hscan] at hresult
      cases result with
      | ok added => cases hresult
      | error e' =>
        obtain rfl := Except.error.inj hresult
        obtain ⟨k, rfl⟩ : Class.keyword.Has word := has_of_cut (cut_of_next hfound)
        rw [Token.scan_next hfound, tokenKind_of_denotes (.keyword k)]
        exact hscan _

/-- Every text is read as something. -/
theorem Rule.Agrees.exists_reads (hrule : next.Agrees) (text : List Char) (here : Span) :
    ∃ result, Reads next text here result := by
  induction hlength : text.length using Nat.strongRecOn generalizing text here with
  | ind length ih =>
    cases text with
    | nil => exact ⟨_, .finished here⟩
    | cons a others =>
      by_cases hsome : ∃ c word rest, next (a :: others) c word rest
      · obtain ⟨c, word, rest, hnext⟩ := hsome
        have hlt := hrule.length_lt hnext
        obtain ⟨result, hresult⟩ := ih rest.length (by omega) rest (here.after word) rfl
        rcases (hrule.has hnext).cases with hdropped | hlarge | ⟨kind, hdenotes⟩
        · exact ⟨_, .dropped hnext hdropped hresult⟩
        · exact ⟨_, .oversized here hnext hlarge⟩
        · exact ⟨_, .token hnext hdenotes hresult⟩
      · have hnone : ∀ c word rest, ¬ next (a :: others) c word rest :=
          fun c word rest hnext => hsome ⟨c, word, rest, hnext⟩
        by_cases ha : a = quoteMark
        · subst ha
          exact ⟨_, .unclosed here hnone⟩
        · exact ⟨_, .unexpected here ha hnone⟩

/-- A source text is read as something under a rule just if the library reads it as that. -/
theorem Rule.Agrees.tokenize_iff (hrule : next.Agrees) (source : String)
    (result : Except Error (List Token)) :
    tokenize source = result.map List.toArray ↔ Reads next source.toList Span.start result := by
  have hscan : ∀ result, Reads next source.toList Span.start result →
      tokenize source = result.map List.toArray := by
    intro result hreads
    rw [tokenize, hreads.scan_eq hrule]
    cases result <;> simp [Except.map]
  refine ⟨fun h => ?_, hscan result⟩
  obtain ⟨other, hother⟩ := hrule.exists_reads source.toList Span.start
  have heq := (hscan other hother).symm.trans h
  have hsame : other = result := by
    cases other <;> cases result <;> simp_all [Except.map]
  exact hsame ▸ hother

theorem Longest.agrees : Rule.Agrees Longest where
  sound h := Or.inl (next?_eq_some_iff_longest.2 h)
  total h := ⟨_, next?_eq_some_iff_longest.1 h⟩

end

/-! ## Boundaries -/

namespace Lexeme

/-- An opinion on which characters are parts of words.  The ASCII characters are settled, and all
others are left open. -/
structure WordClass where
  holds : Char → Bool
  ascii : ∀ a : Char, a.toNat < 128 → holds a = isWordChar a

namespace WordClass

variable {text word rest : List Char} {cut : Cut} {c : Class}

/-- Whether no part of a word follows. -/
def atBoundary (words : WordClass) : List Char → Bool
  | [] => true
  | a :: _ => !words.holds a

/-- Takes a reserved word off the front, if it ends there. -/
def cutKeyword? (words : WordClass) (text : List Char) : Option Cut :=
  Keyword.all.findSome? fun k =>
    (cutWord? k.spelling.toList text).filter fun cut => words.atBoundary cut.2

/-- The next lexeme of a text: the first class, in order, that has one. -/
def next? (words : WordClass) (text : List Char) : Option (Class × Cut) :=
  Class.all.findSome? fun c =>
    (match c with
    | .keyword => words.cutKeyword? text
    | c => c.cut? text).map fun cut => (c, cut)

/-- The opinion that the library holds. -/
def plain : WordClass := ⟨isWordChar, fun _ _ => rfl⟩

theorem ascii_of_isWordChar {a : Char} (h : isWordChar a = true) : a.toNat < 128 := by
  rw [isWordChar, Char.isAlphanum, Bool.or_eq_true, Bool.or_eq_true, isAlpha_iff_toNat,
    Char.isDigit_iff_toNat, decide_eq_true_eq] at h
  rcases h with (hletter | ⟨-, hlast⟩) | rfl
  · omega
  · have hnine : '9'.toNat = 57 := rfl
    omega
  · decide

/-- A boundary in some opinion is one in the library's. -/
theorem plain_atBoundary (words : WordClass) (h : words.atBoundary rest = true) :
    Lexeme.atBoundary rest = true := by
  cases rest with
  | nil => rfl
  | cons a rest =>
    have hout : words.holds a = false := by simpa [atBoundary] using h
    by_contra hword
    have hinside : isWordChar a = true := by simpa [Lexeme.atBoundary] using hword
    rw [words.ascii a (ascii_of_isWordChar hinside), hinside] at hout
    cases hout

/-- The reserved word at the front of a text, if there is one that ends there. -/
theorem cutKeyword?_eq_some_iff (words : WordClass) :
    words.cutKeyword? text = some (word, rest) ↔
      word ++ rest = text ∧ Class.keyword.Has word ∧ words.atBoundary rest = true := by
  have hsound : ∀ {word rest}, words.cutKeyword? text = some (word, rest) →
      word ++ rest = text ∧ Class.keyword.Has word ∧ words.atBoundary rest = true := by
    intro word rest h
    obtain ⟨k, -, hk⟩ := List.exists_of_findSome?_eq_some h
    obtain ⟨hword, hboundary⟩ := Option.filter_eq_some_iff.1 hk
    exact ⟨append_of_cutWord hword, ⟨k, eq_of_cutWord hword⟩, hboundary⟩
  refine ⟨hsound, ?_⟩
  rintro ⟨htext, hhas, hboundary⟩
  have hsome : (words.cutKeyword? text).isSome = true := by
    obtain ⟨k, hk⟩ := hhas
    refine List.findSome?_isSome_iff.2 ⟨k, k.mem_all, ?_⟩
    rw [← htext, ← hk, cutWord?_append_self]
    simp [Option.filter_some, hboundary]
  obtain ⟨⟨word', rest'⟩, hcut⟩ := Option.isSome_iff_exists.1 hsome
  obtain ⟨htext', hhas', hboundary'⟩ := hsound hcut
  -- both end at the first boundary
  have hlength : word.length = word'.length := by
    refine Nat.le_antisymm ?_ ?_
    · exact Run.length_le hhas.identifier_of_keyword ⟨rest, htext.trans htext'.symm⟩
        (words.plain_atBoundary hboundary') hhas'.ne_nil
    · exact Run.length_le hhas'.identifier_of_keyword ⟨rest', htext'.trans htext.symm⟩
        (words.plain_atBoundary hboundary) hhas.ne_nil
  obtain ⟨rfl, rfl⟩ := List.append_inj (htext.trans htext'.symm) hlength
  exact hcut

theorem next?_of_keyword (words : WordClass) (h : words.cutKeyword? text = some cut) :
    words.next? text = some (.keyword, cut) := by
  simp [next?, Class.all, h]

/-- Without a reserved word the next lexeme is the first one of the other classes, in every
opinion. -/
theorem next?_of_no_keyword (words : WordClass) (h : words.cutKeyword? text = none) :
    words.next? text = Class.all.tail.findSome? fun c => (c.cut? text).map fun cut => (c, cut) := by
  rw [next?, show Class.all = .keyword :: Class.all.tail from rfl, List.findSome?_cons, h]
  rfl

theorem next?_plain (text : List Char) : plain.next? text = Lexeme.next? text := rfl

/-- No lexeme starts outside ASCII. -/
theorem ascii_of_has {a : Char} {body : List Char} (h : c.Has (a :: body)) : a.toNat < 128 := by
  cases c with
  | keyword =>
    obtain ⟨k, hk⟩ := h
    cases k <;>
    · obtain ⟨rfl, -⟩ := List.cons.inj hk
      decide
  | operator =>
    obtain ⟨op, hop⟩ := h
    cases op <;>
    · obtain ⟨rfl, -⟩ := List.cons.inj hop
      decide
  | assignment | newline =>
    obtain ⟨rfl, -⟩ := List.cons.inj h
    decide
  | identifier =>
    obtain ⟨b, more, heq, hb, -⟩ := h
    obtain ⟨rfl, -⟩ := List.cons.inj heq
    refine ascii_of_isWordChar ?_
    simp only [isWordStart, Bool.or_eq_true] at hb
    rcases hb with hb | hb <;> simp [isWordChar, Char.isAlphanum, hb]
  | number =>
    obtain ⟨whole, ⟨b, more, rfl, hb, -⟩, hword⟩ := h
    obtain rfl : a = b := by
      rcases hword with heq | ⟨places, -, heq⟩ <;> exact (List.cons.inj heq).1
    exact ascii_of_isWordChar (by simp [isWordChar, Char.isAlphanum, hb])
  | text =>
    obtain ⟨more, -, heq⟩ := h
    obtain ⟨rfl, -⟩ := List.cons.inj heq
    decide
  | blank =>
    obtain ⟨b, more, heq, hb, -⟩ := h
    obtain ⟨rfl, -⟩ := List.cons.inj heq
    have hmem := isGap_cases hb
    revert hmem
    simp only [List.mem_cons, List.not_mem_nil, or_false]
    rintro (rfl | rfl | rfl | rfl | rfl) <;> decide
  | comment =>
    obtain ⟨b, more, heq, hb, -⟩ := h
    obtain ⟨rfl, -⟩ := List.cons.inj heq
    obtain rfl : a = '?' := of_decide_eq_true hb
    decide

theorem blocked_of_not_ascii {a : Char} (h : ¬ a.toNat < 128) (rest : List Char) :
    Blocked (a :: rest) := by
  refine ⟨nofun, next?_eq_none_iff.2 fun c word hhas hstarts => h ?_⟩
  obtain ⟨b, body, rfl, -⟩ := hhas.head
  obtain ⟨rfl, -⟩ := List.cons_prefix_cons.1 hstarts
  exact ascii_of_has hhas

/-- A reserved word that does not end in some opinion, though it does in the library's, is a name in
that opinion, and nothing can be read after it. -/
theorem next?_of_not_atBoundary (words : WordClass) (hhas : Class.keyword.Has word)
    (hplain : Lexeme.atBoundary rest = true) (hwords : words.atBoundary rest = false) :
    words.next? (word ++ rest) = some (.identifier, word, rest) ∧ Blocked rest := by
  have hkeyword : words.cutKeyword? (word ++ rest) = none := by
    by_contra hsome
    obtain ⟨⟨word', rest'⟩, hcut⟩ := Option.ne_none_iff_exists'.1 hsome
    obtain ⟨htext, hhas', hboundary⟩ := words.cutKeyword?_eq_some_iff.1 hcut
    have hother := plain.cutKeyword?_eq_some_iff.2 ⟨htext, hhas', words.plain_atBoundary hboundary⟩
    rw [plain.cutKeyword?_eq_some_iff.2 ⟨rfl, hhas, hplain⟩] at hother
    obtain ⟨-, rfl⟩ := Prod.mk.inj (Option.some.inj hother)
    rw [hwords] at hboundary
    cases hboundary
  have hends : ∀ b after, rest = b :: after → isWordChar b = false := by
    rintro b after rfl
    simpa [Lexeme.atBoundary] using hplain
  have hname : Class.identifier.cut? (word ++ rest) = some (word, rest) :=
    Run.cut_eq hhas.identifier_of_keyword hends
  have hsign : Class.operator.cut? (word ++ rest) = none ∧
      Class.assignment.cut? (word ++ rest) = none := by
    have hnone : ∀ d : Class, d.sort = .operator → d.cut? (word ++ rest) = none := by
      intro d hd
      by_contra hsome
      obtain ⟨cut, hcut⟩ := Option.ne_none_iff_exists'.1 hsome
      have hsort := hhas.sort_eq (has_of_cut hcut) (List.prefix_append word rest)
        ⟨cut.2, append_of_cut hcut⟩
      rw [hd] at hsort
      cases hsort
    exact ⟨hnone .operator rfl, hnone .assignment rfl⟩
  refine ⟨?_, ?_⟩
  · rw [words.next?_of_no_keyword hkeyword]
    simp [Class.all, hsign.1, hsign.2, hname]
  · cases rest with
    | nil => cases hwords
    | cons a rest =>
      refine blocked_of_not_ascii (fun hascii => ?_) rest
      simp only [atBoundary, Lexeme.atBoundary, words.ascii a hascii] at hwords hplain
      rw [hwords] at hplain
      cases hplain

/-- How far an opinion matters: the next lexeme is what it is for the library, or it is a reserved
word that is taken for a name, and nothing can be read after it. -/
theorem next?_cases (words : WordClass) (text : List Char) :
    words.next? text = Lexeme.next? text ∨
      ∃ word rest, Lexeme.next? text = some (.keyword, word, rest) ∧
        words.next? text = some (.identifier, word, rest) ∧ Blocked rest := by
  cases hplain : plain.cutKeyword? text with
  | none =>
    have hwords : words.cutKeyword? text = none := by
      by_contra hsome
      obtain ⟨⟨word, rest⟩, hcut⟩ := Option.ne_none_iff_exists'.1 hsome
      obtain ⟨htext, hhas, hboundary⟩ := words.cutKeyword?_eq_some_iff.1 hcut
      rw [plain.cutKeyword?_eq_some_iff.2 ⟨htext, hhas, words.plain_atBoundary hboundary⟩] at hplain
      cases hplain
    refine Or.inl ?_
    rw [words.next?_of_no_keyword hwords, ← next?_plain, plain.next?_of_no_keyword hplain]
  | some cut =>
    obtain ⟨word, rest⟩ := cut
    obtain ⟨rfl, hhas, hboundary⟩ := plain.cutKeyword?_eq_some_iff.1 hplain
    have hnext : Lexeme.next? (word ++ rest) = some (.keyword, word, rest) :=
      plain.next?_of_keyword hplain
    cases hwords : words.atBoundary rest with
    | true =>
      refine Or.inl ?_
      rw [words.next?_of_keyword (words.cutKeyword?_eq_some_iff.2 ⟨rfl, hhas, hwords⟩), hnext]
    | false =>
      exact Or.inr ⟨word, rest, hnext, words.next?_of_not_atBoundary hhas hboundary hwords⟩

/-- The first class, in order, names the next lexeme. -/
def First (words : WordClass) : Rule :=
  fun text c word rest => words.next? text = some (c, word, rest)

theorem agrees (words : WordClass) : Rule.Agrees words.First where
  sound := by
    intro text word rest c h
    rcases words.next?_cases text with heq | ⟨word', rest', hnext, hwords, hblocked⟩
    · exact Or.inl (heq ▸ h)
    · rw [First, hwords] at h
      obtain ⟨rfl, hcut⟩ := Prod.mk.inj (Option.some.inj h)
      obtain ⟨rfl, rfl⟩ := Prod.mk.inj hcut
      exact Or.inr ⟨rfl, hnext, hblocked⟩
  total := by
    intro text word rest c h
    rcases words.next?_cases text with heq | ⟨word', rest', hnext, hwords, -⟩
    · exact ⟨c, heq.trans h⟩
    · rw [h] at hnext
      obtain ⟨-, hcut⟩ := Prod.mk.inj (Option.some.inj hnext)
      obtain ⟨rfl, rfl⟩ := Prod.mk.inj hcut
      exact ⟨_, hwords⟩

end WordClass
end Lexeme

/-! ## Source texts -/

/-- A name in the tokens of a source text is not reserved. -/
theorem name_ne_spelling {source : String} {tokens : Array Token} (h : tokenize source = .ok tokens)
    {t : Token} (ht : t ∈ tokens) {name : String} (hname : t.kind = .identifier name)
    (k : Keyword) :
    name ≠ k.spelling := by
  obtain ⟨c, hnext, hkind⟩ := spelled_of_tokenize h t (Array.mem_toList_iff.2 ht)
  have hlongest := longest_of_next hnext
  rw [hname] at hkind
  rcases hlongest.has.cases with hdropped | hlarge | ⟨kind, hdenotes⟩
  · rw [tokenKind_of_dropped hdropped] at hkind
    cases hkind
  · rw [tokenKind_of_oversized hlarge] at hkind
    cases hkind
  · rw [tokenKind_of_denotes hdenotes] at hkind
    obtain rfl : kind = .identifier name := Option.some.inj (Except.ok.inj hkind)
    rintro rfl
    obtain ⟨rfl, hword⟩ := hdenotes.name_eq
    -- the word is reserved too, and reserved words go first
    rcases hlongest.tie .keyword ⟨k, hword⟩ with heq | ⟨heq, -⟩ <;> cases heq

/-- **Source texts are read by the longest match.**

* A source text is read as something just if it is read as that by the longest match.
* It makes no difference which characters beyond ASCII are parts of words, though reserved words are
  looked for before names and must end at a boundary.
* Where some class has a word, there is a longest match.
* No name among the tokens is spelled like a reserved word. -/
theorem tokenize_longest_match (source : String) :
    (∀ result : Except Error (List Token),
      tokenize source = result.map List.toArray ↔ Reads Longest source.toList Span.start result) ∧
    (∀ (words : WordClass) (result : Except Error (List Token)),
      tokenize source = result.map List.toArray ↔
      Reads words.First source.toList Span.start result) ∧
    (∀ text : List Char, (∃ c word rest, Longest text c word rest) ↔
      ∃ (c : Lexeme.Class) (word : List Char), c.Has word ∧ word <+: text) ∧
    ∀ tokens, tokenize source = .ok tokens → ∀ t ∈ tokens, ∀ name, t.kind = .identifier name →
      ∀ k : Keyword, name ≠ k.spelling := by
  refine ⟨Longest.agrees.tokenize_iff source, fun words => words.agrees.tokenize_iff source, ?_, ?_⟩
  · intro text
    constructor
    · rintro ⟨c, word, rest, h⟩
      exact ⟨c, word, h.has, h.isPrefix⟩
    · rintro ⟨c, word, hhas, hstarts⟩
      obtain ⟨⟨d, word', rest⟩, hnext⟩ :=
        Option.isSome_iff_exists.1 (next?_isSome_of_has hhas hstarts)
      exact ⟨d, word', rest, longest_of_next hnext⟩
  · intro tokens h t ht name hname k
    exact name_ne_spelling h ht hname k

/-- The opinion that `é` is part of words, like the ASCII letters. -/
def Lexeme.WordClass.accented : WordClass where
  holds a := isWordChar a || a = 'é'
  ascii a ha := by
    have hne : a ≠ 'é' := by
      rintro rfl
      exact absurd ha (by decide)
    simp [hne]

theorem tokenize_accented :
    tokenize "iné" = .error ⟨.lexical (.unexpectedCharacter 'é'), ⟨1, 2⟩⟩ := by
  have hword : next? ['i', 'n', 'é'] = some (.keyword, ['i', 'n'], ['é']) := by decide
  have hkind : tokenKind .keyword ['i', 'n'] = .ok (some (.keyword .inBound)) :=
    tokenKind_of_denotes (.keyword .inBound)
  have hnone : next? ['é'] = none := by decide
  show Token.scan ['i', 'n', 'é'] Span.start #[] = _
  simp only [Token.scan_next hword, hkind, scan_of_none hnone]
  rfl

theorem tokenize_longer_than_reserved :
    tokenize "ink" = .ok #[⟨.identifier "ink", "ink", Span.start⟩] := by
  have hword : next? ['i', 'n', 'k'] = some (.identifier, ['i', 'n', 'k'], []) := by decide
  show Token.scan ['i', 'n', 'k'] Span.start #[] = _
  simp only [Token.scan_next hword, tokenKind]
  rw [Token.scan]
  rfl

/-- A reserved word with an accented letter behind it is refused at that letter, by the longest
match and also by the opinion in which the reserved word is a name; and a name that starts with a
reserved word is another word. -/
theorem tokenize_longest_match_accented :
    WordClass.accented.next? "iné".toList = some (.identifier, "in".toList, "é".toList) ∧
      Reads Longest "iné".toList Span.start (.error ⟨.lexical (.unexpectedCharacter 'é'), ⟨1, 2⟩⟩) ∧
      Reads WordClass.accented.First "iné".toList Span.start
        (.error ⟨.lexical (.unexpectedCharacter 'é'), ⟨1, 2⟩⟩) ∧
      (∃ c word rest, Longest "iné".toList c word rest) ∧
      "ink" ≠ Keyword.inBound.spelling :=
  ⟨by decide,
    ((tokenize_longest_match "iné").1 _).1 tokenize_accented,
    ((tokenize_longest_match "iné").2.1 .accented _).1 tokenize_accented,
    ((tokenize_longest_match "iné").2.2.1 _).2 ⟨.keyword, "in".toList, ⟨.inBound, rfl⟩, ['é'], rfl⟩,
    (tokenize_longest_match "ink").2.2.2 _ tokenize_longer_than_reserved _
      (Array.mem_singleton.2 rfl)
      _ rfl .inBound⟩

end TokenScript
