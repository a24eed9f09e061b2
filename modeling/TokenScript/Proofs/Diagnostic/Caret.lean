import TokenScript.Proofs.Diagnostic.Lines

/-!
# Where the caret stands

A diagnostic shows a line of the source behind a margin, and a caret below it.  The margin of the
line is the line's number, filled up to three characters, and a bar; the margin of the caret is the
bar alone, with three spaces before it.  The first is longer than the second: by one character as
long as the number has at most three digits, and by one more for every further digit.  Both count
columns from the end of their own margin, so the caret stands that much to the left of the character
it is meant for.

The rows of the text are told apart by line feeds, so what is said here is about the text as a
whole: the name of the file may have line feeds, and the rows are counted behind them.

* `rows`: the rows of a text; `Diagnostic.rows_render`: those of a diagnostic.
* `Diagnostic.caretLag`: how far the caret stands to the left.
* `caret_left_of_column`: the caret stands to the left of its column.
-/

namespace TokenScript

/-- The rows of a text: what stands between its line feeds. -/
def rows (text : String) : List (List Char) := text.toList.splitOn '\n'

theorem rows_append_feed (first second : String) :
    rows (first ++ "\n" ++ second) = rows first ++ rows second := by
  have hfeed : (first ++ "\n" ++ second).toList = first.toList ++ '\n' :: second.toList := by simp
  rw [rows, hfeed, List.splitOn_append_cons_self, rows, rows]

theorem rows_of_not_mem {text : String} (h : '\n' ∉ text.toList) : rows text = [text.toList] := by
  rw [rows, List.splitOn_eq_singleton h]

theorem length_rows (text : String) : (rows text).length = text.toList.count '\n' + 1 := by
  unfold rows
  induction text.toList with
  | nil => simp
  | cons a text ih =>
    rw [List.splitOn_cons_eq_if_modifyHead]
    by_cases ha : a = '\n'
    · subst ha
      simp [ih]
    · simp [ih, ha]

namespace Diagnostic

variable {d : Diagnostic} {source : String} {line : List Char}

/-! ## Texts without line feed -/

theorem feed_not_mem_toString (n : Nat) : '\n' ∉ (toString n).toList := by
  intro hmem
  rw [Nat.toString_eq_repr, Nat.toList_repr] at hmem
  exact absurd (Nat.isDigit_of_mem_toDigits (by decide) (by decide) hmem) (by decide)

theorem feed_not_mem_gutter (number : Nat) : '\n' ∉ (gutter number).toList := by
  simp only [gutter, String.toList_append, String.toList_ofList, List.mem_append, not_or]
  refine ⟨fun hmem => ?_, feed_not_mem_toString number⟩
  exact absurd (List.eq_of_mem_replicate hmem) (by decide)

theorem feed_not_mem_dropReturn (h : '\n' ∉ line) : '\n' ∉ dropReturn line := by
  unfold dropReturn
  split
  · exact fun hmem => h ((List.dropLast_sublist line).subset hmem)
  · exact h

/-- A line has no line feed in it. -/
theorem feed_not_mem_lineAt? {number : Nat} {text : List Char}
    (h : lineAt? number text = some line) :
    '\n' ∉ line := by
  have htake : ∀ {text : List Char}, '\n' ∉ text.takeWhile (· ≠ '\n') := by
    intro text hmem
    exact absurd (List.mem_takeWhile_imp hmem) (by decide)
  fun_induction lineAt? number text with
  | case1 => cases h
  | case2 =>
    obtain rfl := Option.some.inj h
    exact htake
  | case3 =>
    obtain rfl := Option.some.inj h
    exact feed_not_mem_dropReturn htake
  | case4 => cases h
  | case5 _ _ _ _ _ ih => exact ih h

theorem feed_not_mem_lineIn? {place : Span} {text : List Char}
    (h : place.lineIn? text = some line) :
    '\n' ∉ line := by
  unfold Span.lineIn? at h
  split at h
  · cases h
  · exact feed_not_mem_lineAt? h

theorem feed_not_mem_code (kind : ErrorKind) : '\n' ∉ kind.code.toList := by
  cases kind <;> decide

/-- A heading has one line feed of its own, and those of the message and of the name of the file. -/
theorem count_heading (d : Diagnostic) (file : String) :
    (d.heading file).toList.count '\n' = d.message.toList.count '\n' +
      file.toList.count '\n' + 1 := by
  have hcode := List.count_eq_zero.2 (feed_not_mem_code d.kind)
  have hnumber : ∀ n : Nat, (toString n).toList.count '\n' = 0 :=
    fun n => List.count_eq_zero.2 (feed_not_mem_toString n)
  have hopen : "error[".toList.count '\n' = 0 := by decide
  have hclose : "]: ".toList.count '\n' = 0 := by decide
  have harrow : "\n  --> ".toList.count '\n' = 1 := by decide
  have hcolon : ":".toList.count '\n' = 0 := by decide
  simp only [heading, Span.render, String.toList_append, List.count_append, hcode, hnumber, hopen,
    hclose, harrow, hcolon]
  omega

/-! ## The rows of a diagnostic -/

/-- The margin of the line that is shown. -/
def margin (d : Diagnostic) : List Char := (gutter d.span.line ++ " | ").toList

/-- The row with the caret. -/
def caretRow (d : Diagnostic) : String :=
  "   | " ++ String.ofList (List.replicate d.span.column ' ') ++ "^"

theorem toList_caretRow (d : Diagnostic) :
    d.caretRow.toList = "   | ".toList ++ (List.replicate d.span.column ' ' ++ ['^']) := by
  simp [caretRow]

theorem feed_not_mem_margin (d : Diagnostic) : '\n' ∉ d.margin := by
  rw [margin, String.toList_append, List.mem_append, not_or]
  exact ⟨feed_not_mem_gutter d.span.line, by decide⟩

theorem feed_not_mem_caretRow (d : Diagnostic) : '\n' ∉ d.caretRow.toList := by
  rw [toList_caretRow, List.mem_append, List.mem_append, not_or, not_or]
  refine ⟨by decide, fun hmem => ?_, by decide⟩
  exact absurd (List.eq_of_mem_replicate hmem) (by decide)

/-- The rows of a diagnostic that shows a line. -/
theorem rows_render (h : d.span.lineIn? source.toList = some line) (file : String) :
    rows (d.render file source) =
      rows (d.heading file) ++ "   |".toList :: (d.margin ++ line) :: d.caretRow.toList ::
        rows d.advice := by
  let shown := gutter d.span.line ++ " | " ++ String.ofList line
  have hbar : "   |\n" = "   |" ++ "\n" := rfl
  have hmiddle : "\n   | " = "\n" ++ "   | " := rfl
  have hend : "^\n" = "^" ++ "\n" := rfl
  have htext : d.render file source =
      d.heading file ++ "\n" ++
        ("   |" ++ "\n" ++ (shown ++ "\n" ++ (d.caretRow ++ "\n" ++ d.advice))) := by
    rw [d.render_eq, excerpt_eq h, hbar, hmiddle, hend]
    simp only [shown, caretRow, String.append_assoc]
  have htoList : shown.toList = d.margin ++ line := by
    simp [shown, margin]
  have hshown : '\n' ∉ shown.toList := by
    rw [htoList, List.mem_append, not_or]
    exact ⟨feed_not_mem_margin d, feed_not_mem_lineIn? h⟩
  have hempty : rows "   |" = ["   |".toList] := rows_of_not_mem (by decide)
  rw [htext, rows_append_feed, rows_append_feed, rows_append_feed, rows_append_feed, hempty,
    rows_of_not_mem hshown, htoList, rows_of_not_mem (feed_not_mem_caretRow d)]
  rfl

/-- The rows with the line and the caret come behind those of the message and of the name of the
file. -/
theorem rows_render_at (h : d.span.lineIn? source.toList = some line)
    (hmessage : '\n' ∉ d.message.toList) (file : String) :
    (rows (d.render file source))[file.toList.count '\n' + 3]? = some (d.margin ++ line) ∧
      (rows (d.render file source))[file.toList.count '\n' + 4]? = some d.caretRow.toList := by
  have hlength : (rows (d.heading file)).length = file.toList.count '\n' + 2 := by
    rw [length_rows, count_heading, List.count_eq_zero.2 hmessage, Nat.zero_add]
  rw [rows_render h file]
  constructor
  · rw [List.getElem?_append_right (by omega), hlength, Nat.add_sub_add_left]
    rfl
  · rw [List.getElem?_append_right (by omega), hlength, Nat.add_sub_add_left]
    rfl

/-! ## The caret and its column -/

/-- How far the caret stands to the left of its column. -/
def caretLag (d : Diagnostic) : Nat := max 3 (toString d.span.line).length - 2

theorem length_gutter (number : Nat) : (gutter number).length = max 3 (toString number).length := by
  simp only [gutter, String.length_append, String.length_ofList, List.length_replicate]
  omega

theorem length_margin (d : Diagnostic) : d.margin.length = d.caretLag + 5 := by
  have hbar : " | ".length = 3 := rfl
  rw [margin, String.length_toList, String.length_append, length_gutter, hbar, caretLag]
  omega

/-- There is one caret in its row, five characters and a column from the left. -/
theorem idxOf_caretRow (d : Diagnostic) :
    d.caretRow.toList.idxOf '^' = d.span.column + 5 ∧ d.caretRow.toList.count '^' = 1 := by
  have hpad : '^' ∉ List.replicate d.span.column ' ' :=
    fun hmem => absurd (List.eq_of_mem_replicate hmem) (by decide)
  have hbar : '^' ∉ "   | ".toList := by decide
  rw [toList_caretRow]
  constructor
  · have hlength : "   | ".toList.length = 5 := by decide
    rw [List.idxOf_append, if_neg hbar, List.idxOf_append, if_neg hpad, List.idxOf_cons_self,
      List.length_replicate, hlength, Nat.zero_add]
  · rw [List.count_append, List.count_append, List.count_eq_zero.2 hbar, List.count_eq_zero.2 hpad]
    rfl

theorem caretLag_pos (d : Diagnostic) : 0 < d.caretLag := by
  unfold caretLag
  omega

theorem caretLag_eq_one (h : d.span.line < 1000) : d.caretLag = 1 := by
  have hdigits : (toString d.span.line).length ≤ 3 := by
    rw [Nat.toString_eq_repr, ← String.length_toList, Nat.toList_repr]
    exact (Nat.length_toDigits_le_iff (by decide) (by decide)).2 h
  unfold caretLag
  omega

end Diagnostic

/-- **The caret stands to the left of its column.**  In the text of a diagnostic, with a message of
one row, at a character of a line of the source:

* the line is shown in a row, behind a margin, and the caret is in the row below;
* from where the caret stands, the character is `caretLag` characters to the right;
* that is at least one, and exactly one up to line `999`. -/
theorem caret_left_of_column {d : Diagnostic} {source : String} {shown : List Char} (file : String)
    (hmessage : '\n' ∉ d.message.toList) (hline : d.span.lineIn? source.toList = some shown)
    (hcolumn : d.span.column < shown.length) :
    ∃ (margin caret : List Char) (a : Char),
      (rows (d.render file source))[file.toList.count '\n' + 3]? = some (margin ++ shown) ∧
      (rows (d.render file source))[file.toList.count '\n' + 4]? = some caret ∧
      caret.count '^' = 1 ∧
      shown[d.span.column]? = some a ∧
      (margin ++ shown)[margin.length + d.span.column]? = some a ∧
      caret.idxOf '^' + d.caretLag = margin.length + d.span.column ∧
      0 < d.caretLag ∧ (d.span.line < 1000 → d.caretLag = 1) := by
  obtain ⟨hshown, hcaret⟩ := Diagnostic.rows_render_at hline hmessage file
  obtain ⟨hindex, hcount⟩ := d.idxOf_caretRow
  have hchar : shown[d.span.column]? = some shown[d.span.column] := List.getElem?_eq_getElem hcolumn
  refine ⟨d.margin, d.caretRow.toList, shown[d.span.column], hshown, hcaret, hcount, hchar, ?_, ?_,
    d.caretLag_pos, Diagnostic.caretLag_eq_one⟩
  · rw [List.getElem?_append_right (Nat.le_add_right _ _), Nat.add_sub_cancel_left, hchar]
  · rw [hindex, d.length_margin]
    omega

/-- A character that is refused in the second line. -/
def refusedSign : Diagnostic := ⟨.lexical, "unexpected character `$`", ⟨2, 4⟩, none⟩

theorem lineIn?_refusedSign :
    refusedSign.span.lineIn? "print 1\nx = $3\n".toList = some "x = $3".toList := by
  show Diagnostic.lineAt? 1 ("print 1".toList ++ '\n' :: ("x = $3".toList ++ ['\n'])) = _
  rw [Diagnostic.lineAt?_succ_feed (by decide), Diagnostic.lineAt?_zero_feed (by decide)]
  rfl

/-- A sign is refused in the second line; the name of the file has a line feed. -/
theorem caret_left_of_column_refusedSign :
    ∃ (margin caret : List Char) (a : Char),
      (rows (refusedSign.render "a\nb" "print 1\nx = $3\n"))["a\nb".toList.count '\n' + 3]? =
        some (margin ++ "x = $3".toList) ∧
      (rows (refusedSign.render "a\nb" "print 1\nx = $3\n"))["a\nb".toList.count '\n' + 4]? =
        some caret ∧
      caret.count '^' = 1 ∧
      "x = $3".toList[refusedSign.span.column]? = some a ∧
      (margin ++ "x = $3".toList)[margin.length + refusedSign.span.column]? = some a ∧
      caret.idxOf '^' + refusedSign.caretLag = margin.length + refusedSign.span.column ∧
      0 < refusedSign.caretLag ∧ (refusedSign.span.line < 1000 → refusedSign.caretLag = 1) :=
  caret_left_of_column "a\nb" (by decide) lineIn?_refusedSign (by decide)

/-- The caret does not stand under its column: not even in the second line of a source text. -/
theorem caret_not_under_column :
    ¬ ∀ (d : Diagnostic) (file source : String) (line margin caret : List Char),
      '\n' ∉ d.message.toList → d.span.lineIn? source.toList = some line →
      d.span.column < line.length →
      (rows (d.render file source))[file.toList.count '\n' + 3]? = some (margin ++ line) →
      (rows (d.render file source))[file.toList.count '\n' + 4]? = some caret →
      caret.idxOf '^' = margin.length + d.span.column := by
  intro h
  have hmessage : '\n' ∉ refusedSign.message.toList := by decide
  obtain ⟨hshown, hcaret⟩ := Diagnostic.rows_render_at lineIn?_refusedSign hmessage "demo"
  have hunder := h refusedSign "demo" _ _ _ _ hmessage lineIn?_refusedSign (by decide) hshown hcaret
  have hlag : refusedSign.caretLag = 1 := Diagnostic.caretLag_eq_one (by decide)
  rw [refusedSign.idxOf_caretRow.1, refusedSign.length_margin, hlag] at hunder
  omega

end TokenScript
