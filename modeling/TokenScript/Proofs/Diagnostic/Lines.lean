import TokenScript.Diagnostic
import TokenScript.Proofs.Token.Coverage

/-!
# Places found again in the lines

Lines are counted twice in this library, and not by the same rule.  The reader of a source text
counts line feeds as it goes, and every other character takes a column, a carriage return too.  A
diagnostic cuts the whole text into lines, drops the carriage return before a line feed, and has no
line for what stands behind the last line feed if nothing does.  So a place can lie outside the line
that a diagnostic shows for it, or in no line at all; but only the place of a line end or of a
carriage return can.

A character that is neither a line feed nor a carriage return is found in its line at its column:
`Span.exists_lineIn?_of_append`.  No token but a line end starts with one of these two, and neither
does what cannot be read.

* `Span.lineIn?`: the line at a place, as diagnostics count.
* `Span.of_cases`: the place behind a text is told by the last line of the text.
* `Unread`: what the longest match leaves unread.
* `places_found_in_lines`: tokens and errors are found in the lines that diagnostics show.
-/

namespace TokenScript

open Lexeme

/-! ## Lines of a text -/

namespace Diagnostic

variable {first before after : List Char} {a : Char}

/-- A stretch without line feed ends where a line feed stands. -/
theorem span_feed (h : '\n' ∉ first) (rest : List Char) :
    (first ++ '\n' :: rest).takeWhile (· ≠ '\n') = first ∧
      (first ++ '\n' :: rest).dropWhile (· ≠ '\n') = '\n' :: rest := by
  have hall : ∀ b ∈ first, decide (b ≠ '\n') = true :=
    fun b hb => decide_eq_true fun heq => h (heq ▸ hb)
  have hfeed : ∀ b more, '\n' :: rest = b :: more → decide (b ≠ '\n') = false := by
    intro b more heq
    obtain ⟨rfl, -⟩ := List.cons.inj heq
    rfl
  obtain ⟨htake, hdrop⟩ := span_append hfeed first
  rw [htake, hdrop, List.takeWhile_eq_self_iff.2 hall, List.dropWhile_eq_nil_iff.2 hall]
  exact ⟨rfl, rfl⟩

theorem lineAt?_zero_feed (h : '\n' ∉ first) (rest : List Char) :
    lineAt? 0 (first ++ '\n' :: rest) = some (dropReturn first) := by
  obtain ⟨htake, hdrop⟩ := span_feed h rest
  unfold lineAt?
  simp only [htake, hdrop]

theorem lineAt?_succ_feed (h : '\n' ∉ first) (number : Nat) (rest : List Char) :
    lineAt? (number + 1) (first ++ '\n' :: rest) = lineAt? number rest := by
  obtain ⟨-, hdrop⟩ := span_feed h rest
  conv_lhs => unfold lineAt?
  simp only [hdrop]

/-- The last line needs no line feed. -/
theorem lineAt?_zero_last (h : '\n' ∉ first) (hne : first ≠ []) : lineAt? 0 first = some first := by
  have hall : ∀ b ∈ first, decide (b ≠ '\n') = true :=
    fun b hb => decide_eq_true fun heq => h (heq ▸ hb)
  unfold lineAt?
  simp only [List.takeWhile_eq_self_iff.2 hall, List.dropWhile_eq_nil_iff.2 hall, if_neg hne]

/-- Behind a line feed the lines go on from the number of the line feeds so far. -/
theorem lineAt?_behind_feed (before rest : List Char) (number : Nat) :
    lineAt? (number + before.count '\n' + 1) (before ++ '\n' :: rest) = lineAt? number rest := by
  -- by the number of lines that end in `before`, each cut off at its line feed
  induction hcount : before.count '\n' generalizing before with
  | zero => exact lineAt?_succ_feed (List.count_eq_zero.1 hcount) number rest
  | succ count ih =>
    have hmem : '\n' ∈ before := List.count_pos_iff.1 (by omega)
    obtain ⟨first, later, rfl, hfirst⟩ := List.eq_append_cons_of_mem hmem
    have hlater : later.count '\n' = count := by
      rw [List.count_append, List.count_eq_zero.2 hfirst, List.count_cons_self] at hcount
      omega
    rw [List.append_assoc, List.cons_append, lineAt?_succ_feed hfirst]
    exact ih later hlater

/-- What stands before a character other than the carriage return is kept in a line. -/
theorem exists_dropReturn_eq (ha : a ≠ '\r') (before more : List Char) :
    ∃ kept, dropReturn (before ++ a :: more) = before ++ a :: kept := by
  unfold dropReturn
  split
  · next hreturn =>
    cases more with
    | nil => simp [ha] at hreturn
    | cons b more => exact ⟨(b :: more).dropLast, by simp⟩
  · exact ⟨more, rfl⟩

/-- The first line holds what stands before a character that ends no line. -/
theorem exists_lineAt?_zero (hbefore : '\n' ∉ before) (hfeed : a ≠ '\n') (hreturn : a ≠ '\r')
    (after : List Char) :
    ∃ kept, lineAt? 0 (before ++ a :: after) = some (before ++ a :: kept) := by
  have hhead : ∀ {more : List Char}, '\n' ∉ more → '\n' ∉ before ++ a :: more := by
    intro more hmore hmem
    rcases List.mem_append.1 hmem with hmem | hmem
    · exact hbefore hmem
    · rcases List.mem_cons.1 hmem with heq | hmem
      · exact hfeed heq.symm
      · exact hmore hmem
  by_cases hafter : '\n' ∈ after
  · obtain ⟨more, rest, rfl, hmore⟩ := List.eq_append_cons_of_mem hafter
    obtain ⟨kept, hkept⟩ := exists_dropReturn_eq hreturn before more
    refine ⟨kept, ?_⟩
    rw [← hkept, ← lineAt?_zero_feed (hhead hmore) rest, List.append_assoc, List.cons_append]
  · exact ⟨after, lineAt?_zero_last (hhead hafter) (by simp)⟩

end Diagnostic

/-! ## The line at a place -/

namespace Span

/-- The line of a text that a diagnostic at this place shows. -/
def lineIn? (place : Span) (text : List Char) : Option (List Char) :=
  match place.line with
  | 0 => none
  | number + 1 => Diagnostic.lineAt? number text

/-- The place behind a text is in its first line, as far as the text is long; or it is in the line
behind the last line feed, as far as what stands there is long. -/
theorem of_cases (text : List Char) :
    '\n' ∉ text ∧ Span.of text = ⟨1, text.length⟩ ∨
      ∃ before last, text = before ++ '\n' :: last ∧ '\n' ∉ last ∧
        Span.of text = ⟨before.count '\n' + 2, last.length⟩ := by
  by_cases hmem : '\n' ∈ text
  · -- the last line feed is the first one from behind
    obtain ⟨last, before, hsplit, hlast⟩ := List.eq_append_cons_of_mem (List.mem_reverse.2 hmem)
    have htext : text = before.reverse ++ '\n' :: last.reverse := by
      rw [← List.reverse_reverse text, hsplit]
      simp
    refine Or.inr ⟨before.reverse, last.reverse, htext, fun h => hlast (List.mem_reverse.1 h), ?_⟩
    have hcount : text.count '\n' = before.reverse.count '\n' + 1 := by
      rw [htext, List.count_append, List.count_cons_self, List.count_reverse (l := last),
        List.count_eq_zero.2 hlast]
    rw [Span.of, hsplit, (Diagnostic.span_feed hlast before).1, hcount, List.length_reverse,
      Nat.add_comm 1]
  · have hall : ∀ a ∈ text.reverse, decide (a ≠ '\n') = true :=
      fun a ha => decide_eq_true fun heq => hmem (heq ▸ List.mem_reverse.1 ha)
    refine Or.inl ⟨hmem, ?_⟩
    rw [Span.of, List.takeWhile_eq_self_iff.2 hall, List.count_eq_zero.2 hmem, List.length_reverse]

/-- A character that is neither a line feed nor a carriage return is found at the place behind the
text before it. -/
theorem exists_lineIn?_of_append {a : Char} (hfeed : a ≠ '\n') (hreturn : a ≠ '\r')
    (before after : List Char) :
    ∃ shown, (Span.of before).lineIn? (before ++ a :: after) = some shown ∧
      shown[(Span.of before).column]? = some a := by
  rcases of_cases before with ⟨hbefore, hof⟩ | ⟨earlier, last, rfl, hlast, hof⟩
  · obtain ⟨kept, hline⟩ := Diagnostic.exists_lineAt?_zero hbefore hfeed hreturn after
    refine ⟨before ++ a :: kept, ?_, ?_⟩
    · rw [hof, ← hline]
      rfl
    · rw [hof, List.getElem?_append_right (Nat.le_refl _), Nat.sub_self, List.getElem?_cons_zero]
  · obtain ⟨kept, hline⟩ := Diagnostic.exists_lineAt?_zero hlast hfeed hreturn after
    have hskip := Diagnostic.lineAt?_behind_feed earlier (last ++ a :: after) 0
    rw [Nat.zero_add] at hskip
    refine ⟨last ++ a :: kept, ?_, ?_⟩
    · rw [hof, ← hline, ← hskip, List.append_assoc, List.cons_append]
      rfl
    · rw [hof, List.getElem?_append_right (Nat.le_refl _), Nat.sub_self, List.getElem?_cons_zero]

end Span

/-! ## Tokens -/

/-- A token stands where the text before it leads to. -/
theorem exists_before_of_mem {source : String} {tokens : Array Token}
    (h : tokenize source = .ok tokens) {t : Token} (ht : t ∈ tokens) :
    ∃ before after, source.toList = before ++ (t.lexeme.toList ++ after) ∧
      t.span = Span.of before := by
  obtain ⟨gap, pieces, -, hpieces, htext, rfl⟩ := exists_pieces_of_scan h
  have hmem : t ∈ pieces.map Prod.fst := by simpa using ht
  obtain ⟨piece, hpiece, rfl⟩ := List.mem_map.1 hmem
  obtain ⟨earlier, later, rfl⟩ := List.append_of_mem hpiece
  refine ⟨gap ++ earlier.flatMap Piece.text, piece.2 ++ later.flatMap Piece.text, ?_, ?_⟩
  · rw [htext, List.flatMap_append, List.flatMap_cons, Piece.text]
    simp only [List.append_assoc]
  · rw [hpieces.places earlier piece later rfl, ← Span.after_append, Span.start_after]

/-- A token that is no line end starts with neither a line feed nor a carriage return. -/
theorem exists_head_of_mem {source : String} {tokens : Array Token}
    (h : tokenize source = .ok tokens) {t : Token} (ht : t ∈ tokens) (hkind : t.kind ≠ .newline) :
    ∃ a body, t.lexeme.toList = a :: body ∧ a ≠ '\n' ∧ a ≠ '\r' := by
  obtain ⟨c, hnext, hdenotes⟩ := spelled_of_tokenize h t (Array.mem_toList_iff.2 ht)
  obtain ⟨a, body, hword, hclass⟩ := (longest_of_next hnext).has.head
  refine ⟨a, body, hword, ?_, ?_⟩
  · rintro rfl
    cases c <;> cases hclass
    exact hkind (Option.some.inj (Except.ok.inj hdenotes)).symm
  · rintro rfl
    cases c <;> cases hclass
    cases hdenotes

/-! ## What cannot be read -/

/-- Reading a text by the longest match leaves this rest of it unread: no word stands at the front
of the rest, or only an integer that is too large for a word of the machine. -/
inductive Unread : List Char → List Char → Prop
  | unmatched {a : Char} {others : List Char} :
    (∀ c word rest, ¬ Longest (a :: others) c word rest) → Unread (a :: others) (a :: others)
  | oversized {text word rest : List Char} {c : Lexeme.Class} :
    Longest text c word rest → c.Oversized word → Unread text text
  | read {text word rest left : List Char} {c : Lexeme.Class} :
    Longest text c word rest → ¬ c.Oversized word → Unread rest left → Unread text left

/-- What is unread starts with neither a line feed nor a carriage return, since these are words. -/
theorem Unread.head {text left : List Char} (h : Unread text left) :
    ∃ a rest, left = a :: rest ∧ a ≠ '\n' ∧ a ≠ '\r' := by
  induction h with
  | @unmatched a others hnone =>
    have hword : ∀ {c : Lexeme.Class} {b : Char}, c.Has [b] → a ≠ b := by
      rintro c b hhas rfl
      obtain ⟨⟨d, word, rest⟩, hnext⟩ :=
        Option.isSome_iff_exists.1 (next?_isSome_of_has hhas ⟨others, rfl⟩)
      exact hnone d word rest (longest_of_next hnext)
    have hblank : Class.blank.Has ['\r'] := ⟨'\r', [], rfl, rfl, nofun⟩
    exact ⟨a, others, rfl, hword (c := .newline) rfl, hword hblank⟩
  | @oversized text word rest c hlongest hlarge =>
    obtain ⟨-, ⟨a, body, rfl, ha, -⟩, -⟩ := hlarge
    refine ⟨a, body ++ rest, hlongest.cut.symm, ?_, ?_⟩ <;>
    · rintro rfl
      cases ha
  | read _ _ _ ih => exact ih

theorem Unread.of_next {text word rest left : List Char} {c : Lexeme.Class}
    {kind? : Option TokenKind} (hnext : next? text = some (c, word, rest))
    (hkind : tokenKind c word = .ok kind?) (h : Unread rest left) : Unread text left := by
  refine .read (longest_of_next hnext) (fun hlarge => ?_) h
  rw [tokenKind_of_oversized hlarge] at hkind
  cases hkind

/-- An error of the reader stands where the text leads to that comes before what cannot be read. -/
theorem exists_stop_of_scan {text : List Char} {here : Span} {found : Array Token} {e : Error}
    (h : Token.scan text here found = .error e) :
    ∃ before left, text = before ++ left ∧ Unread text left ∧ e.span = here.after before := by
  fun_induction Token.scan text here found with
  | case1 => cases h
  | case2 here found first others hnone =>
    obtain rfl := Except.error.inj h
    refine ⟨[], first :: others, rfl, .unmatched fun c word rest hlongest => ?_, rfl⟩
    rw [next?_eq_some_iff_longest.2 hlongest] at hnone
    cases hnone
  | case3 here found first others c word rest hnext _ cause hkind =>
    obtain rfl := Except.error.inj h
    have hlongest := longest_of_next hnext
    have hlarge : c.Oversized word := by
      rcases hlongest.has.cases with hdropped | hlarge | ⟨kind, hdenotes⟩
      · rw [tokenKind_of_dropped hdropped] at hkind
        cases hkind
      · exact hlarge
      · rw [tokenKind_of_denotes hdenotes] at hkind
        cases hkind
    exact ⟨[], first :: others, rfl, .oversized hlongest hlarge, rfl⟩
  | case4 here found first others c word rest hnext _ hkind ih
  | case5 here found first others c word rest hnext _ kind hkind ih =>
    obtain ⟨before, left, rfl, hstops, hspan⟩ := ih h
    refine ⟨word ++ before, left, ?_, hstops.of_next hnext hkind, ?_⟩
    · rw [List.append_assoc, append_of_cut (cut_of_next hnext)]
    · rw [hspan, Span.after_append]

/-! ## Source texts -/

namespace Diagnostic

/-- What a diagnostic says before it shows a line. -/
def heading (d : Diagnostic) (file : String) : String :=
  "error[" ++ d.kind.code ++ "]: " ++ d.message ++ "\n  --> " ++ (file ++ ":" ++ d.span.render)

/-- What a diagnostic says after it has shown a line. -/
def advice (d : Diagnostic) : String :=
  match d.help? with
  | some text => "\nhelp: " ++ text ++ "\n"
  | none => ""

theorem render_eq (d : Diagnostic) (file source : String) :
    d.render file source = d.heading file ++ "\n" ++ d.excerpt source ++ d.advice := rfl

/-- How a diagnostic shows its line. -/
theorem excerpt_eq {d : Diagnostic} {source : String} {line : List Char}
    (h : d.span.lineIn? source.toList = some line) :
    d.excerpt source = "   |\n" ++ gutter d.span.line ++ " | " ++ String.ofList line ++ "\n   | " ++
      String.ofList (List.replicate d.span.column ' ') ++ "^\n" := by
  unfold Span.lineIn? at h
  unfold excerpt
  split at h
  · cases h
  · next number hnumber => simp only [hnumber, h, Option.getD_some]

end Diagnostic

/-- **Tokens and errors are found in the lines that diagnostics show.**

* A token other than a line end is in a line that a diagnostic can show, and its first character
  stands in that line at its column.
* So is the error of a source text that is refused, and there stands the first character that is not
  read.
* The line is the one that a diagnostic at the place shows. -/
theorem places_found_in_lines (source : String) :
    (∀ tokens, tokenize source = .ok tokens → ∀ t ∈ tokens, t.kind ≠ .newline →
      ∃ shown a, t.span.lineIn? source.toList = some shown ∧ shown[t.span.column]? = some a ∧
        t.lexeme.toList.head? = some a) ∧
    (∀ e, tokenize source = .error e →
      ∃ shown a rest, e.span.lineIn? source.toList = some shown ∧ shown[e.span.column]? = some a ∧
        Unread source.toList (a :: rest)) ∧
    ∀ (d : Diagnostic) (file : String) (shown : List Char),
      d.span.lineIn? source.toList = some shown →
      ∃ above below, d.render file source =
        above ++ (Diagnostic.gutter d.span.line ++ " | " ++ String.ofList shown ++ "\n") ++
          below := by
  refine ⟨fun tokens h t ht hkind => ?_, fun e h => ?_, fun d file shown hline => ?_⟩
  · obtain ⟨before, after, hsource, hspan⟩ := exists_before_of_mem h ht
    obtain ⟨a, body, hlexeme, hfeed, hreturn⟩ := exists_head_of_mem h ht hkind
    obtain ⟨shown, hline, hcolumn⟩ :=
      Span.exists_lineIn?_of_append hfeed hreturn before (body ++ after)
    rw [hlexeme, List.cons_append] at hsource
    rw [hsource, hspan, hlexeme]
    exact ⟨shown, a, hline, hcolumn, rfl⟩
  · obtain ⟨before, left, hsource, hstops, hspan⟩ := exists_stop_of_scan h
    obtain ⟨a, rest, rfl, hfeed, hreturn⟩ := hstops.head
    obtain ⟨shown, hline, hcolumn⟩ := Span.exists_lineIn?_of_append hfeed hreturn before rest
    rw [← hsource] at hline
    rw [hspan, Span.start_after]
    exact ⟨shown, a, rest, hline, hcolumn, hstops⟩
  · refine ⟨d.heading file ++ "\n" ++ "   |\n",
      "   | " ++ String.ofList (List.replicate d.span.column ' ') ++ "^\n" ++ d.advice, ?_⟩
    have hfeed : "\n   | " = "\n" ++ "   | " := rfl
    rw [d.render_eq, Diagnostic.excerpt_eq hline, hfeed]
    simp only [String.append_assoc]

/-- The tokens of a text with three sorts of line ends: a carriage return and a line feed, a line
feed within quotes, and a carriage return alone, which ends no line. -/
def mixedEnds : Array Token :=
  #[⟨.identifier "x", "x", ⟨1, 0⟩⟩, ⟨.newline, "\n", ⟨1, 2⟩⟩,
    ⟨.text "é\nü", "\x27é\nü\x27", ⟨2, 0⟩⟩, ⟨.identifier "y", "y", ⟨3, 3⟩⟩]

theorem tokenize_mixedEnds : tokenize "x\r\n\x27é\nü\x27\ry" = .ok mixedEnds := by
  have hname : next? "x\r\n\x27é\nü\x27\ry".toList =
      some (.identifier, ['x'], "\r\n\x27é\nü\x27\ry".toList) := by decide
  have hblank : next? "\r\n\x27é\nü\x27\ry".toList =
      some (.blank, ['\r'], "\n\x27é\nü\x27\ry".toList) := by decide
  have hfeed : next? "\n\x27é\nü\x27\ry".toList =
      some (.newline, ['\n'], "\x27é\nü\x27\ry".toList) := by decide
  have htext : next? "\x27é\nü\x27\ry".toList =
      some (.text, "\x27é\nü\x27".toList, "\ry".toList) := by decide
  have hreturn : next? "\ry".toList = some (.blank, ['\r'], ['y']) := by decide
  have hlast : next? ['y'] = some (.identifier, ['y'], []) := by decide
  rw [tokenize]
  simp only [Token.scan_next hname, Token.scan_next hblank, Token.scan_next hfeed,
    Token.scan_next htext, Token.scan_next hreturn, Token.scan_next hlast, tokenKind]
  rw [Token.scan]
  rfl

theorem tokenize_refusedBehindReturn :
    tokenize "x\r\n é" = .error ⟨.lexical (.unexpectedCharacter 'é'), ⟨2, 1⟩⟩ := by
  have hname : next? "x\r\n é".toList = some (.identifier, ['x'], "\r\n é".toList) := by decide
  have hblank : next? "\r\n é".toList = some (.blank, ['\r'], "\n é".toList) := by decide
  have hfeed : next? "\n é".toList = some (.newline, ['\n'], " é".toList) := by decide
  have hspace : next? " é".toList = some (.blank, [' '], ['é']) := by decide
  have hnone : next? ['é'] = none := by decide
  rw [tokenize]
  simp only [Token.scan_next hname, Token.scan_next hblank, Token.scan_next hfeed,
    Token.scan_next hspace, tokenKind, scan_of_none hnone]
  rfl

/-- The name in the third line of a text with mixed line ends, whose last line has no line feed; and
a letter that is refused in a line behind a carriage return and a line feed, which a diagnostic
shows. -/
theorem places_found_in_lines_mixedEnds :
    (∃ shown a, (⟨3, 3⟩ : Span).lineIn? "x\r\n\x27é\nü\x27\ry".toList = some shown ∧
      shown[3]? = some a ∧
      ['y'].head? = some a) ∧
    (∃ shown a rest, (⟨2, 1⟩ : Span).lineIn? "x\r\n é".toList = some shown ∧ shown[1]? = some a ∧
      Unread "x\r\n é".toList (a :: rest)) ∧
    ∃ above below,
      Diagnostic.render ⟨.lexical, "unexpected character é", ⟨2, 1⟩, none⟩ "f" "x\r\n é" =
      above ++ (Diagnostic.gutter 2 ++ " | " ++ String.ofList " é".toList ++ "\n") ++ below :=
  ⟨(places_found_in_lines _).1 _ tokenize_mixedEnds ⟨.identifier "y", "y", ⟨3, 3⟩⟩
      (by simp [mixedEnds]) nofun,
    (places_found_in_lines _).2.1 _ tokenize_refusedBehindReturn,
    (places_found_in_lines _).2.2 _ _ _ (by decide)⟩

end TokenScript
