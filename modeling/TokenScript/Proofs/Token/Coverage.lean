import Mathlib.Data.List.Induction
import TokenScript.Proofs.Token.Reading

/-!
# Tokens cover their text

Nothing of a source text is lost in its tokens but gaps: what stands before a token, between two of
them or behind the last one is blanks, and then perhaps a comment.  Each token knows its place,
which is counted from the text before it and from nothing else, so a text of several lines or a
letter beyond ASCII is no exception.  An error stands at a place that is counted in the same way,
and the text before it would have been read.

* `Span.of`: the place behind a text, counted from the text; `Span.start_after`.
* `Gap`, `Piece`: gaps, and tokens with the gap behind each.
* `exists_pieces_of_scan`, `exists_split_of_scan`: what is read covers the text, and a text that is
  refused is read up to a place.
* `tokenize_covers`: tokens cover their source text.
-/

namespace TokenScript

open Lexeme

/-! ## Places -/

/-- The place behind a text: one line more than its line feeds, and as many columns as characters
come after the last of these. -/
def Span.of (text : List Char) : Span where
  line := 1 + text.count '\n'
  column := (text.reverse.takeWhile fun a => decide (a ≠ '\n')).length

theorem Span.of_append_singleton (text : List Char) (a : Char) :
    Span.of (text ++ [a]) = (Span.of text).step a := by
  by_cases ha : a = '\n'
  · subst ha
    simp [Span.of, step, Nat.add_assoc]
  · simp [Span.of, step, ha]

/-- A reader that moves from character to character is where the text before it says. -/
theorem Span.start_after (text : List Char) : Span.start.after text = Span.of text := by
  induction text using List.reverseRecOn with
  | nil => rfl
  | append_singleton text a ih => rw [after_append, ih, of_append_singleton, after_cons, after_nil]

/-! ## Gaps -/

/-- Blanks, and then perhaps a comment. -/
def Gap (text : List Char) : Prop :=
  ∃ blanks comment, Blanks blanks ∧ Comment comment ∧ text = blanks ++ comment

section

variable {text word rest gap : List Char} {c : Lexeme.Class} {here : Span} {found : Array Token}

theorem Gap.nil : Gap [] := ⟨[], [], by decide, Or.inl rfl, rfl⟩

theorem Gap.newline_not_mem (h : Gap gap) : '\n' ∉ gap := by
  obtain ⟨blanks, comment, hblanks, hcomment, rfl⟩ := h
  rw [List.mem_append]
  rintro (hmem | hmem)
  · exact absurd (hblanks _ hmem) (by decide)
  · rcases hcomment with rfl | ⟨body, rfl, hbody⟩
    · cases hmem
    · rcases List.mem_cons.1 hmem with heq | hmem
      · exact absurd heq (by decide)
      · exact hbody hmem

theorem Gap.append_blanks (h : Gap gap) (hword : Blanks word) : Gap (word ++ gap) := by
  obtain ⟨blanks, comment, hblanks, hcomment, rfl⟩ := h
  refine ⟨word ++ blanks, comment, fun a ha => ?_, hcomment, (List.append_assoc _ _ _).symm⟩
  exact (List.mem_append.1 ha).elim (hword a) (hblanks a)

/-- A lexeme that leaves no token is blank or a comment. -/
theorem dropped_of_tokenKind (hhas : c.Has word) (h : tokenKind c word = .ok none) : c.Dropped := by
  rcases hhas.cases with hdropped | hlarge | ⟨kind, hdenotes⟩
  · exact hdropped
  · rw [tokenKind_of_oversized hlarge] at h
    cases h
  · rw [tokenKind_of_denotes hdenotes] at h
    cases h

/-- A lexeme that leaves no token, and the gap that stands behind it, are one gap. -/
theorem Gap.append_dropped (h : Gap gap) (hcut : c.cut? text = some (word, gap ++ rest))
    (hdropped : c.Dropped) : Gap (word ++ gap) := by
  rcases hdropped with rfl | rfl
  · obtain ⟨a, body, rfl, ha, hbody, -⟩ := exists_of_cutRun hcut
    exact h.append_blanks (List.forall_mem_cons.2 ⟨ha, hbody⟩)
  · obtain ⟨a, body, rfl, ha, hbody, hends⟩ := exists_of_cutRun hcut
    -- what stands behind a comment is a line end, so no gap goes on after one
    have hnil : gap = [] := by
      cases gap with
      | nil => rfl
      | cons b gap =>
        have hb : decide (b ≠ '\n') = false := hends b (gap ++ rest) rfl
        obtain rfl : b = '\n' := by simpa using hb
        exact absurd List.mem_cons_self h.newline_not_mem
    obtain rfl : a = '?' := of_decide_eq_true ha
    rw [hnil, List.append_nil]
    exact ⟨[], _, by decide, Or.inr ⟨body, rfl, fun hmem => absurd (hbody _ hmem) (by decide)⟩, rfl⟩

end

/-! ## Pieces -/

/-- A token and the gap behind it. -/
abbrev Piece := Token × List Char

/-- How the piece is written. -/
def Piece.text (piece : Piece) : List Char := piece.1.lexeme.toList ++ piece.2

/-- The pieces stand behind one another, from a place on: each gap is one, and each token is at the
place that the text before it leads to. -/
structure Pieces (here : Span) (pieces : List Piece) : Prop where
  gaps : ∀ piece ∈ pieces, Gap piece.2
  places : ∀ earlier piece later, pieces = earlier ++ piece :: later →
    piece.1.span = here.after (earlier.flatMap Piece.text)

section

variable {text word rest gap : List Char} {c : Lexeme.Class} {here : Span} {found : Array Token}

theorem Pieces.nil (here : Span) : Pieces here [] where
  gaps _ hmem := nomatch hmem
  places _ _ _ heq := absurd heq (by simp)

theorem Pieces.cons {piece : Piece} {pieces : List Piece} (hgap : Gap piece.2)
    (hplace : piece.1.span = here) (h : Pieces (here.after piece.text) pieces) :
    Pieces here (piece :: pieces) where
  gaps := List.forall_mem_cons.2 ⟨hgap, h.gaps⟩
  places earlier other later heq := by
    cases earlier with
    | nil =>
      obtain ⟨rfl, -⟩ := List.cons.inj heq
      exact hplace
    | cons first earlier =>
      obtain ⟨rfl, htail⟩ := List.cons.inj heq
      rw [h.places earlier other later htail, List.flatMap_cons, Span.after_append]

/-- What is read covers the text. -/
theorem exists_pieces_of_scan {result : Array Token} (h : Token.scan text here found = .ok result) :
    ∃ gap pieces, Gap gap ∧ Pieces (here.after gap) pieces ∧
      text = gap ++ pieces.flatMap Piece.text ∧
      result = found ++ (pieces.map Prod.fst).toArray := by
  fun_induction Token.scan text here found with
  | case1 here found =>
    obtain rfl := Except.ok.inj h
    exact ⟨[], [], Gap.nil, Pieces.nil _, rfl, by simp⟩
  | case2 => cases h
  | case3 => cases h
  | case4 here found first others c word rest hnext _ hkind ih =>
    obtain ⟨gap, pieces, hgap, hpieces, hrest, hresult⟩ := ih h
    have hcut := cut_of_next hnext
    have htext : word ++ rest = first :: others := append_of_cut hcut
    have hdropped := dropped_of_tokenKind (has_of_cut hcut) hkind
    refine ⟨word ++ gap, pieces, hgap.append_dropped (hrest ▸ hcut) hdropped, ?_, ?_, hresult⟩
    · rwa [Span.after_append]
    · rw [← htext, hrest, List.append_assoc]
  | case5 here found first others c word rest hnext _ kind hkind ih =>
    obtain ⟨gap, pieces, hgap, hpieces, hrest, hresult⟩ := ih h
    have htext : word ++ rest = first :: others := append_of_cut (cut_of_next hnext)
    have hpiece : Piece.text (⟨kind, String.ofList word, here⟩, gap) = word ++ gap := by
      rw [Piece.text, String.toList_ofList]
    refine ⟨[], (⟨kind, String.ofList word, here⟩, gap) :: pieces, Gap.nil, ?_, ?_, ?_⟩
    · refine Pieces.cons hgap rfl ?_
      rwa [hpiece, Span.after_append]
    · rw [List.nil_append, List.flatMap_cons, hpiece, ← htext, hrest, List.append_assoc]
    · rw [hresult, List.map_cons, List.push_append_toArray]

/-- A lexeme is read again when the text ends somewhere behind it. -/
theorem next?_of_append {before after : List Char}
    (h : next? text = some (c, word, before ++ after)) :
    text = word ++ before ++ after ∧ next? (word ++ before) = some (c, word, before) := by
  have htext : word ++ before ++ after = text :=
    (List.append_assoc word before after).trans (append_of_cut (cut_of_next h))
  refine ⟨htext.symm, next?_eq_some_iff_longest.2 ?_⟩
  rw [← htext] at h
  exact (longest_of_next h).of_append

/-- A text that is refused is read up to the place of the error. -/
theorem exists_split_of_scan {e : Error} (h : Token.scan text here found = .error e) :
    ∃ before after, text = before ++ after ∧ after ≠ [] ∧ e.span = here.after before ∧
      ∃ result, Token.scan before here found = .ok result := by
  have hstop : ∀ {first : Char} {others : List Char} {here : Span} {found : Array Token},
      ∃ before after, first :: others = before ++ after ∧ after ≠ [] ∧ here = here.after before ∧
        ∃ result, Token.scan before here found = .ok result := by
    intro first others here found
    exact ⟨[], first :: others, rfl, List.cons_ne_nil _ _, rfl, found, by rw [Token.scan]⟩
  fun_induction Token.scan text here found with
  | case1 => cases h
  | case2 here found first others hnone =>
    obtain rfl := Except.error.inj h
    exact hstop
  | case3 here found first others c word rest hnext _ cause hkind =>
    obtain rfl := Except.error.inj h
    exact hstop
  | case4 here found first others c word rest hnext _ hkind ih =>
    obtain ⟨before, after, rfl, hne, hspan, result, hresult⟩ := ih h
    obtain ⟨htext, hagain⟩ := next?_of_append hnext
    refine ⟨word ++ before, after, htext, hne, ?_, result, ?_⟩
    · rw [hspan, Span.after_append]
    · rw [Token.scan_next hagain, hkind]
      exact hresult
  | case5 here found first others c word rest hnext _ kind hkind ih =>
    obtain ⟨before, after, rfl, hne, hspan, result, hresult⟩ := ih h
    obtain ⟨htext, hagain⟩ := next?_of_append hnext
    refine ⟨word ++ before, after, htext, hne, ?_, result, ?_⟩
    · rw [hspan, Span.after_append]
    · rw [Token.scan_next hagain, hkind]
      exact hresult

end

/-- **Tokens cover their source text.**

* A source text that is read is a gap and then its tokens in order, each with a gap behind it.  A
  token stands one line below the line feeds before it, and as many columns from the left as
  characters come between the last of these and it.
* A source text that is refused is refused at a place within it.  That place is counted in the same
  way, and the text before it is read. -/
theorem tokenize_covers (source : String) :
    (∀ tokens, tokenize source = .ok tokens →
      ∃ (gap : List Char) (pieces : List Piece), Gap gap ∧ (∀ piece ∈ pieces, Gap piece.2) ∧
        pieces.map Prod.fst = tokens.toList ∧
        source.toList = gap ++ pieces.flatMap Piece.text ∧
        ∀ earlier piece later, pieces = earlier ++ piece :: later →
          piece.1.span = Span.of (gap ++ earlier.flatMap Piece.text)) ∧
    ∀ e, tokenize source = .error e →
      ∃ before after : List Char, source.toList = before ++ after ∧ after ≠ [] ∧
        e.span = Span.of before ∧ ∃ tokens, tokenize (String.ofList before) = .ok tokens := by
  constructor
  · intro tokens h
    obtain ⟨gap, pieces, hgap, hpieces, htext, rfl⟩ := exists_pieces_of_scan h
    refine ⟨gap, pieces, hgap, hpieces.gaps, by simp, htext, fun earlier piece later heq => ?_⟩
    rw [hpieces.places earlier piece later heq, ← Span.after_append, Span.start_after]
  · intro e h
    obtain ⟨before, after, htext, hne, hspan, tokens, htokens⟩ := exists_split_of_scan h
    refine ⟨before, after, htext, hne, ?_, tokens, ?_⟩
    · rw [hspan, Span.start_after]
    · rw [tokenize, String.toList_ofList, htokens]

/-- The tokens of a text of two lines and of a name behind it. -/
def twoLines : Array Token :=
  #[⟨.text "é\nü", "\x27é\nü\x27", ⟨1, 0⟩⟩, ⟨.identifier "x", "x", ⟨2, 3⟩⟩]

theorem tokenize_twoLines : tokenize "\x27é\nü\x27 x?é" = .ok twoLines := by
  have htext :
      next? "\x27é\nü\x27 x?é".toList = some (.text, "\x27é\nü\x27".toList, " x?é".toList) := by
    decide
  have hblank : next? " x?é".toList = some (.blank, [' '], "x?é".toList) := by decide
  have hname : next? "x?é".toList = some (.identifier, ['x'], "?é".toList) := by decide
  have hcomment : next? "?é".toList = some (.comment, "?é".toList, []) := by decide
  rw [tokenize]
  simp only [Token.scan_next htext, Token.scan_next hblank, Token.scan_next hname,
    Token.scan_next hcomment, tokenKind]
  rw [Token.scan]
  rfl

theorem tokenize_unclosed : tokenize "x\n\x27é" = .error ⟨.lexical .unterminatedText, ⟨2, 0⟩⟩ := by
  have hname : next? "x\n\x27é".toList = some (.identifier, ['x'], "\n\x27é".toList) := by decide
  have hnewline : next? "\n\x27é".toList = some (.newline, ['\n'], ['\x27', 'é']) := by decide
  have hnone : next? ['\x27', 'é'] = none := by decide
  rw [tokenize]
  simp only [Token.scan_next hname, Token.scan_next hnewline, tokenKind, scan_of_none hnone]
  rfl

/-- A text over two lines, with letters beyond ASCII, and a name and a comment behind it; and a
quote in the second line that is never closed. -/
theorem tokenize_covers_twoLines :
    (∃ (gap : List Char) (pieces : List Piece), Gap gap ∧ (∀ piece ∈ pieces, Gap piece.2) ∧
      pieces.map Prod.fst = twoLines.toList ∧
      "\x27é\nü\x27 x?é".toList = gap ++ pieces.flatMap Piece.text ∧
      ∀ earlier piece later, pieces = earlier ++ piece :: later →
        piece.1.span = Span.of (gap ++ earlier.flatMap Piece.text)) ∧
    ∃ before after : List Char, "x\n\x27é".toList = before ++ after ∧ after ≠ [] ∧
      (⟨2, 0⟩ : Span) = Span.of before ∧ ∃ tokens, tokenize (String.ofList before) = .ok tokens :=
  ⟨(tokenize_covers _).1 _ tokenize_twoLines, (tokenize_covers _).2 _ tokenize_unclosed⟩

end TokenScript
