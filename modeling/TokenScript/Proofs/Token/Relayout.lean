import TokenScript.Proofs.Token.Spelling
import TokenScript.Token.Layout

/-!
# Tokens survive any layout

A source text may be laid out anew: blanks between tokens may become other blanks, lines may be
indented, and comments may come and go at the ends of lines.  As long as neighbours on a line stay
apart, the tokens are read again as they were, at places of their own.

The tokens of a source text are *spelled*: each is what its lexeme is read as when it stands alone.
A layout keeps the lexemes and puts a separator after each of them, so each is read as when it
stands alone.  The plain layout is one of these.

* `Token.Spelled`, `spelled_of_tokenize`: what is known of the tokens of a source text.
* `Laid`: texts that lay out tokens.
* `exists_scan_of_laid`: a text that lays out spelled tokens is read as those.
* `tokenize_laid`: the tokens of a source text survive any layout.
-/

namespace TokenScript

open Lexeme

namespace Token

variable {text word rest : List Char} {c : Lexeme.Class}

/-- What a token is and how it is written, without its place. -/
def shape (t : Token) : TokenKind × String := (t.kind, t.lexeme)

/-- The token is what its lexeme is read as when it stands alone. -/
def Spelled (t : Token) : Prop :=
  ∃ c, next? t.lexeme.toList = some (c, t.lexeme.toList, []) ∧
    tokenKind c t.lexeme.toList = .ok (some t.kind)

/-! ## One lexeme -/

/-- What becomes of the next lexeme. -/
theorem scan_next (h : next? text = some (c, word, rest)) (here : Span) (tokens : Array Token) :
    scan text here tokens =
      match tokenKind c word with
      | .error cause => .error ⟨.lexical cause, here⟩
      | .ok none => scan rest (here.after word) tokens
      | .ok (some kind) =>
        scan rest (here.after word) (tokens.push ⟨kind, String.ofList word, here⟩) := by
  cases text with
  | nil => cases h
  | cons first others =>
    rw [scan]
    split
    · next hnone =>
      rw [h] at hnone
      cases hnone
    · next c' word' rest' hsome =>
      rw [h] at hsome
      obtain ⟨rfl, hcut⟩ := Prod.mk.inj (Option.some.inj hsome)
      obtain ⟨rfl, rfl⟩ := Prod.mk.inj hcut
      rfl

/-- Every token that is read is spelled. -/
theorem spelled_of_scan {here : Span} {tokens result : Array Token}
    (htokens : ∀ t ∈ tokens, t.Spelled) (h : scan text here tokens = .ok result) :
    ∀ t ∈ result, t.Spelled := by
  fun_induction scan text here tokens with
  | case1 here tokens =>
    obtain rfl := Except.ok.inj h
    exact htokens
  | case2 => cases h
  | case3 => cases h
  | case4 here tokens first others c word rest hnext _ hkind ih => exact ih htokens h
  | case5 here tokens first others c word rest hnext _ kind hkind ih =>
    refine ih (fun t ht => ?_) h
    rcases Array.mem_push.1 ht with ht | rfl
    · exact htokens t ht
    · refine ⟨c, ?_, ?_⟩
      · rw [String.toList_ofList]
        exact next?_self hnext
      · rw [String.toList_ofList]
        exact hkind

/-- A spelled token is neither a blank nor a comment. -/
theorem Spelled.exists_class {t : Token} (h : t.Spelled) :
    ∃ c, c ≠ .blank ∧ c ≠ .comment ∧ next? t.lexeme.toList = some (c, t.lexeme.toList, []) ∧
      tokenKind c t.lexeme.toList = .ok (some t.kind) := by
  obtain ⟨c, hnext, hkind⟩ := h
  refine ⟨c, ?_, ?_, hnext, hkind⟩
  · rintro rfl
    cases hkind
  · rintro rfl
    cases hkind

/-- A spelled token in front of a separator. -/
theorem Spelled.scan_append {t : Token} (h : t.Spelled) (hrest : Separated rest) (here : Span)
    (tokens : Array Token) :
    scan (t.lexeme.toList ++ rest) here tokens =
      scan rest (here.after t.lexeme.toList) (tokens.push { t with span := here }) := by
  obtain ⟨c, hblank, hcomment, hnext, hkind⟩ := h.exists_class
  rw [scan_next (next?_append hnext hblank hcomment hrest), hkind]
  simp only [String.ofList_toList]

/-- A spelled token does not start with a blank. -/
theorem Spelled.not_isGap {t : Token} (h : t.Spelled) {d : Char} {after : List Char}
    (hlexeme : t.lexeme.toList ++ rest = d :: after) : isGap d = false := by
  obtain ⟨c, hblank, -, hnext, -⟩ := h.exists_class
  cases hword : t.lexeme.toList with
  | nil =>
    rw [hword] at hnext
    cases hnext
  | cons a word =>
    rw [hword, List.cons_append] at hlexeme
    obtain ⟨rfl, -⟩ := List.cons.inj hlexeme
    by_contra hgap
    rw [hword] at hnext
    exact hblank (eq_blank_of_isGap hnext (Bool.not_eq_false _ ▸ hgap))

/-- Line ends are spelled in one way. -/
theorem Spelled.lexeme_of_newline {t : Token} (h : t.Spelled) (hkind : t.kind = .newline) :
    t.lexeme.toList = ['\n'] := by
  obtain ⟨c, hnext, htoken⟩ := h
  have hcut := cut_of_next hnext
  rw [hkind] at htoken
  cases c with
  | newline => exact eq_of_cutWord hcut
  | number =>
    rw [tokenKind] at htoken
    cases hnumber : number t.lexeme.toList <;> simp [hnumber, Except.map] at htoken
  | _ => simp [tokenKind] at htoken

end Token

/-! ## Layouts -/

/-- Blanks within a line. -/
def Blanks (text : List Char) : Prop := ∀ c ∈ text, isGap c = true

instance (text : List Char) : Decidable (Blanks text) := List.decidableBAll _ text

/-- A comment, or nothing. -/
def Comment (text : List Char) : Prop := text = [] ∨ ∃ body, text = '?' :: body ∧ '\n' ∉ body

/-- The text writes the lexemes of the tokens in order.  Blanks may stand anywhere around them, and
must stand between two tokens of a line; a comment may stand before a line end and at the very end.
`within` says that a token of the same line comes just before the text. -/
inductive Laid : Bool → List Token → List Char → Prop
  | nil {within : Bool} {blanks comment : List Char} :
    Blanks blanks → Comment comment → Laid within [] (blanks ++ comment)
  | newline {within : Bool} {t : Token} {tokens : List Token} {blanks comment text : List Char} :
    t.kind = .newline → Blanks blanks → Comment comment → Laid false tokens text →
      Laid within (t :: tokens) (blanks ++ (comment ++ (t.lexeme.toList ++ text)))
  | token {within : Bool} {t : Token} {tokens : List Token} {blanks text : List Char} :
    t.kind ≠ .newline → Blanks blanks → (within = true → blanks ≠ []) → Laid true tokens text →
      Laid within (t :: tokens) (blanks ++ (t.lexeme.toList ++ text))

section

variable {blanks comment text rest : List Char} {within : Bool} {tokens : List Token}

/-- Blanks leave no token. -/
theorem Blanks.scan_append (h : Blanks blanks)
    (hrest : ∀ c after, rest = c :: after → isGap c = false) (here : Span) (found : Array Token) :
    ∃ there, Token.scan (blanks ++ rest) here found = Token.scan rest there found := by
  by_cases hne : blanks = []
  · exact ⟨here, by rw [hne, List.nil_append]⟩
  · refine ⟨here.after blanks, ?_⟩
    rw [Token.scan_next (next?_blanks hne h hrest), tokenKind]

/-- A comment leaves no token. -/
theorem Comment.scan_append (h : Comment comment)
    (hrest : ∀ c after, rest = c :: after → c = '\n') (here : Span) (found : Array Token) :
    ∃ there, Token.scan (comment ++ rest) here found = Token.scan rest there found := by
  rcases h with rfl | ⟨body, rfl, hbody⟩
  · exact ⟨here, by rw [List.nil_append]⟩
  · refine ⟨here.after ('?' :: body), ?_⟩
    rw [Token.scan_next (next?_comment hbody hrest), tokenKind]

/-- A comment, or the line end after it, is no blank. -/
theorem Comment.not_isGap (h : Comment comment) (hrest : ∀ c after, rest = c :: after → c = '\n')
    {c : Char} {after : List Char} (heq : comment ++ rest = c :: after) : isGap c = false := by
  rcases h with rfl | ⟨body, rfl, -⟩
  · rw [hrest c after heq]
    rfl
  · obtain ⟨rfl, -⟩ := List.cons.inj heq
    rfl

theorem Blanks.separated (h : Blanks blanks) (hrest : blanks = [] → Separated rest) :
    Separated (blanks ++ rest) := by
  cases blanks with
  | nil => exact hrest rfl
  | cons b blanks =>
    show isSeparator b = true
    simp [isSeparator, h b List.mem_cons_self]

theorem Comment.separated (h : Comment comment) (hrest : Separated rest) :
    Separated (comment ++ rest) := by
  rcases h with rfl | ⟨body, rfl, -⟩
  · exact hrest
  · exact rfl

/-- What comes after a token of a line starts with a separator. -/
theorem Laid.separated (h : Laid true tokens text) (hspelled : ∀ t ∈ tokens, t.Spelled) :
    Separated text := by
  cases h with
  | @nil _ blanks comment hblanks hcomment =>
    have hend : Separated (comment ++ []) := hcomment.separated trivial
    rw [List.append_nil] at hend
    exact hblanks.separated fun _ => hend
  | @newline _ t tokens blanks comment text hkind hblanks hcomment _ =>
    have hlexeme := (hspelled t List.mem_cons_self).lexeme_of_newline hkind
    have hline : Separated (t.lexeme.toList ++ text) := by
      rw [hlexeme]
      exact rfl
    exact hblanks.separated fun _ => hcomment.separated hline
  | token _ hblanks hwithin _ =>
    exact hblanks.separated fun hnil => absurd hnil (hwithin rfl)

/-- A text that lays out spelled tokens is read as those, at places of its own. -/
theorem exists_scan_of_laid (h : Laid within tokens text) (hspelled : ∀ t ∈ tokens, t.Spelled)
    (here : Span) (found : Array Token) :
    ∃ again : List Token, Token.scan text here found = .ok (found ++ again.toArray) ∧
      again.map Token.shape = tokens.map Token.shape := by
  induction h generalizing here found with
  | @nil _ blanks comment hblanks hcomment =>
    have hend : ∀ c after, ([] : List Char) = c :: after → c = '\n' := by
      intro c after heq
      cases heq
    have hgap : ∀ c after, comment ++ [] = c :: after → isGap c = false := fun c after heq =>
      hcomment.not_isGap hend heq
    obtain ⟨there, hscan⟩ := hblanks.scan_append hgap here found
    obtain ⟨there', hscan'⟩ := hcomment.scan_append hend there found
    rw [List.append_nil] at hscan
    refine ⟨[], ?_, rfl⟩
    rw [hscan, ← List.append_nil comment, hscan', Token.scan]
    simp
  | @newline _ t tokens blanks comment text hkind hblanks hcomment _ ih =>
    have hlexeme := (hspelled t List.mem_cons_self).lexeme_of_newline hkind
    have hline : ∀ c after, '\n' :: text = c :: after → c = '\n' := by
      intro c after heq
      exact (List.cons.inj heq).1.symm
    have hgap : ∀ c after, comment ++ '\n' :: text = c :: after → isGap c = false :=
      fun c after heq => hcomment.not_isGap hline heq
    obtain ⟨there, hscan⟩ := hblanks.scan_append hgap here found
    obtain ⟨there', hscan'⟩ := hcomment.scan_append hline there found
    obtain ⟨again, hagain, hshape⟩ := ih (fun u hu => hspelled u (List.mem_cons_of_mem t hu))
      (there'.after ['\n']) (found.push ⟨.newline, String.ofList ['\n'], there'⟩)
    refine ⟨⟨.newline, String.ofList ['\n'], there'⟩ :: again, ?_, ?_⟩
    · rw [hlexeme, List.singleton_append, hscan, hscan', Token.scan_next (next?_newline text),
        tokenKind, ← List.push_append_toArray]
      exact hagain
    · have ht : t.shape = (.newline, String.ofList ['\n']) := by
        rw [Token.shape, hkind, ← hlexeme, String.ofList_toList]
      rw [List.map_cons, List.map_cons, hshape, ht]
      rfl
  | @token _ t tokens blanks text hkind hblanks hwithin hrest ih =>
    have hmore : ∀ u ∈ tokens, u.Spelled := fun u hu => hspelled u (List.mem_cons_of_mem t hu)
    have ht := hspelled t List.mem_cons_self
    have hgap : ∀ c after, t.lexeme.toList ++ text = c :: after → isGap c = false :=
      fun c after heq => ht.not_isGap heq
    obtain ⟨there, hscan⟩ := hblanks.scan_append hgap here found
    obtain ⟨again, hagain, hshape⟩ := ih hmore (there.after t.lexeme.toList)
      (found.push { t with span := there })
    refine ⟨{ t with span := there } :: again, ?_, ?_⟩
    · rw [hscan, ht.scan_append (hrest.separated hmore), ← List.push_append_toArray]
      exact hagain
    · rw [List.map_cons, List.map_cons, hshape]
      rfl

end

/-! ## The plain layout -/

namespace Token

theorem layoutPieces_append (tokens : List Token) (fresh : Bool) (pieces : List String) :
    layoutPieces tokens fresh pieces = layoutPieces tokens fresh [] ++ pieces := by
  induction tokens generalizing fresh pieces with
  | nil => rfl
  | cons t tokens ih =>
    rw [layoutPieces, layoutPieces]
    split
    · rw [ih true ("\n" :: pieces), ih true ["\n"], List.append_assoc, List.singleton_append]
    · cases fresh with
      | true =>
        simp only [if_true]
        rw [ih false (t.lexeme :: pieces), ih false [t.lexeme], List.append_assoc,
          List.singleton_append]
      | false =>
        simp only [Bool.false_eq_true, if_false]
        rw [ih false (t.lexeme :: " " :: pieces), ih false [t.lexeme, " "], List.append_assoc]
        rfl

/-- The plain layout lays out its tokens. -/
theorem laid_layoutPieces {tokens : List Token} (hspelled : ∀ t ∈ tokens, t.Spelled)
    (fresh : Bool) :
    Laid (!fresh) tokens ((layoutPieces tokens fresh []).reverse.flatMap String.toList) := by
  induction tokens generalizing fresh with
  | nil =>
    have hempty : Laid (!fresh) [] ([] ++ []) := Laid.nil (fun c hc => nomatch hc) (Or.inl rfl)
    exact hempty
  | cons t tokens ih =>
    have hmore : ∀ u ∈ tokens, u.Spelled := fun u hu => hspelled u (List.mem_cons_of_mem t hu)
    have hnone : Blanks [] := fun c hc => nomatch hc
    rw [layoutPieces]
    split
    · next hkind =>
      have hlexeme := (hspelled t List.mem_cons_self).lexeme_of_newline hkind
      have hlaid : Laid (!fresh) (t :: tokens) _ :=
        Laid.newline hkind hnone (Or.inl rfl) (ih hmore true)
      rw [hlexeme] at hlaid
      rw [layoutPieces_append]
      simpa using hlaid
    · next hkind =>
      rw [layoutPieces_append]
      cases fresh with
      | true =>
        have hlaid : Laid false (t :: tokens) _ := Laid.token hkind hnone (by simp) (ih hmore false)
        simpa using hlaid
      | false =>
        have hspace : Blanks [' '] := by
          intro c hc
          rw [List.mem_singleton.1 hc]
          rfl
        have hlaid : Laid true (t :: tokens) _ := Laid.token hkind hspace (by simp) (ih hmore false)
        simpa using hlaid

/-- A layout does not depend on the places of the tokens. -/
theorem layoutPieces_congr {tokens others : List Token}
    (h : tokens.map shape = others.map shape) (fresh : Bool) (pieces : List String) :
    layoutPieces tokens fresh pieces = layoutPieces others fresh pieces := by
  induction tokens generalizing others fresh pieces with
  | nil =>
    cases others with
    | nil => rfl
    | cons u others => cases h
  | cons t tokens ih =>
    cases others with
    | nil => cases h
    | cons u others =>
      rw [List.map_cons, List.map_cons] at h
      obtain ⟨hshape, htail⟩ := List.cons.inj h
      obtain ⟨hkind, hlexeme⟩ := Prod.mk.inj hshape
      rw [layoutPieces, layoutPieces, hkind, hlexeme]
      split <;> exact ih htail _ _

end Token

/-! ## Source texts -/

/-- The tokens of a source text are spelled. -/
theorem spelled_of_tokenize {source : String} {tokens : Array Token}
    (h : tokenize source = .ok tokens) : ∀ t ∈ tokens.toList, t.Spelled := by
  intro t ht
  have hnone : ∀ t ∈ (#[] : Array Token), t.Spelled := by simp
  exact Token.spelled_of_scan hnone h t (Array.mem_toList_iff.1 ht)

/-- A text that lays out the tokens of a source text has the same tokens. -/
theorem exists_tokenize_of_laid {source text : String} {tokens : Array Token}
    (h : tokenize source = .ok tokens) (hlaid : Laid false tokens.toList text.toList) :
    ∃ again, tokenize text = .ok again ∧
      again.toList.map Token.shape = tokens.toList.map Token.shape := by
  obtain ⟨again, hscan, hshape⟩ := exists_scan_of_laid hlaid (spelled_of_tokenize h) Span.start #[]
  refine ⟨again.toArray, ?_, hshape⟩
  rw [tokenize, hscan, Array.empty_append]

theorem laid_layout {source : String} {tokens : Array Token} (h : tokenize source = .ok tokens) :
    Laid false tokens.toList (Token.layout tokens.toList).toList := by
  have hlaid := Token.laid_layoutPieces (spelled_of_tokenize h) true
  rw [Token.layout, String.toList_join]
  exact hlaid

/-- **Tokens survive any layout.**  Every text that lays out the tokens of a source text is read,
and has the same tokens up to their places.  The plain layout is such a text, and laying out what is
read from it changes nothing. -/
theorem tokenize_laid {source : String} {tokens : Array Token} (h : tokenize source = .ok tokens) :
    (∀ text : String, Laid false tokens.toList text.toList →
        ∃ again, tokenize text = .ok again ∧
          again.toList.map Token.shape = tokens.toList.map Token.shape) ∧
      Laid false tokens.toList (Token.layout tokens.toList).toList ∧
      ∃ again, tokenize (Token.layout tokens.toList) = .ok again ∧
        again.toList.map Token.shape = tokens.toList.map Token.shape ∧
        Token.layout again.toList = Token.layout tokens.toList := by
  refine ⟨fun text hlaid => exists_tokenize_of_laid h hlaid, laid_layout h, ?_⟩
  obtain ⟨again, hagain, hshape⟩ := exists_tokenize_of_laid h (laid_layout h)
  refine ⟨again, hagain, hshape, ?_⟩
  rw [Token.layout, Token.layout, Token.layoutPieces_congr hshape]

/-- The tokens of `x=` and a line end. -/
def assignmentLine : Array Token :=
  #[⟨.identifier "x", "x", ⟨1, 0⟩⟩, ⟨.assignment, "=", ⟨1, 1⟩⟩, ⟨.newline, "\n", ⟨1, 2⟩⟩]

theorem tokenize_assignmentLine : tokenize "x=\n" = .ok assignmentLine := by
  have hname : next? ['x', '=', '\n'] = some (.identifier, ['x'], ['=', '\n']) := by decide
  have hsign : next? ['=', '\n'] = some (.assignment, ['='], ['\n']) := by decide
  show Token.scan ['x', '=', '\n'] Span.start #[] = _
  simp only [Token.scan_next hname, Token.scan_next hsign, Token.scan_next (next?_newline []),
    tokenKind]
  rw [Token.scan]
  rfl

theorem laid_assignmentLine : Laid false assignmentLine.toList "\t x = ?note\n ".toList := by
  have hblanks : Blanks ['\t', ' '] ∧ Blanks [' '] := by
    constructor <;> decide
  have hcomment : Comment "?note".toList := Or.inr ⟨_, rfl, by decide⟩
  have hend : Laid false [] ([' '] ++ []) := Laid.nil hblanks.2 (Or.inl rfl)
  exact Laid.token (by decide) hblanks.1 (by decide)
    (Laid.token (by decide) hblanks.2 (by decide) (Laid.newline rfl hblanks.2 hcomment hend))

/-- A line with a comment and other blanks is read as the line without them. -/
theorem tokenize_laid_assignmentLine :
    tokenize "x=\n" = .ok assignmentLine ∧
      ∃ again, tokenize "\t x = ?note\n " = .ok again ∧
        again.toList.map Token.shape = assignmentLine.toList.map Token.shape :=
  ⟨tokenize_assignmentLine,
    (tokenize_laid tokenize_assignmentLine).1 _ laid_assignmentLine⟩

end TokenScript
