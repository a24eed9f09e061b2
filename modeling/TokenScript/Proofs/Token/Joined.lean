import TokenScript.Proofs.Token.Relayout

/-!
# Texts one after another

A line feed between two source texts keeps them apart: no lexeme of the first runs on into the
second, since a line end is a separator, and a quoted text that is open at the end of the first is
none of its lexemes.  So the tokens of the two texts joined by a line feed are those of the first, a
line end, and those of the second with other places.

* `next?_append_newline`: a line feed behind a text changes none of its lexemes.
* `Token.scan_append_newline`, `Token.exists_scan_of_scan`: reading on, and reading from another
  place.
* `exists_tokenize_join`: the tokens of two texts joined by a line feed.
-/

namespace TokenScript

open Lexeme

namespace Lexeme

variable {text : List Char} {cut : Cut}

/-- A run of characters is as long as can be. -/
theorem exists_of_cutRun {first others : Char → Bool} (h : cutRun? first others text = some cut) :
    ∃ c body, cut.1 = c :: body ∧ first c = true ∧ (∀ d ∈ body, others d = true) ∧
      ∀ d after, cut.2 = d :: after → others d = false := by
  cases text with
  | nil => cases h
  | cons c text =>
    rw [cutRun?] at h
    split at h
    · next hfirst =>
      obtain rfl := Option.some.inj h
      refine ⟨c, text.takeWhile others, rfl, hfirst, fun d hd => List.mem_takeWhile_imp hd, ?_⟩
      intro d after heq
      have hhead := List.head?_dropWhile_not others text
      rw [show text.dropWhile others = d :: after from heq] at hhead
      simpa using hhead
    · cases h

/-- A line feed behind a text changes nothing in its next lexeme. -/
theorem next?_append_newline {c : Class} (h : next? text = some (c, cut)) (more : List Char) :
    next? (text ++ '\n' :: more) = some (c, extend ('\n' :: more) cut) := by
  obtain ⟨hcut, hbefore⟩ := next?_eq_some_iff.1 h
  have hseparated : Separated ('\n' :: more) := rfl
  have hplain : ∀ d ∈ Class.plain, d.cut? text = none → d.cut? (text ++ '\n' :: more) = none := by
    intro d hd hnone
    rw [cut?_append hd hseparated, hnone, Option.map_none]
  have htext : cut.1 ++ (cut.2 ++ '\n' :: more) = text ++ '\n' :: more := by
    rw [← append_of_cut hcut, List.append_assoc]
  have hline : ∀ others : Char → Bool, others '\n' = false →
      (∀ d after, cut.2 = d :: after → others d = false) →
      ∀ d after, cut.2 ++ '\n' :: more = d :: after → others d = false := by
    intro others hnewline hends d after heq
    cases hrest : cut.2 with
    | nil =>
      rw [hrest] at heq
      obtain ⟨rfl, -⟩ := List.cons.inj heq
      exact hnewline
    | cons e rest =>
      rw [hrest] at heq
      obtain ⟨rfl, -⟩ := List.cons.inj heq
      exact hends e rest hrest
  by_cases hc : c ∈ Class.plain
  · refine next?_eq_some_iff.2 ⟨?_, fun d hd => hplain d ?_ (hbefore d hd)⟩
    · rw [cut?_append hc hseparated, hcut, Option.map_some]
    · revert hc hd
      cases c <;> cases d <;> decide
  · rw [← htext]
    cases c with
    | text =>
      refine next?_eq_some_iff.2 ⟨cutText?_append hcut _, fun d hd => ?_⟩
      rw [htext]
      exact hplain d hd (hbefore d hd)
    | newline =>
      rw [extend, eq_of_cutWord hcut]
      exact next?_newline _
    | blank =>
      obtain ⟨b, blanks, hword, hb, hblanks, hends⟩ := exists_of_cutRun hcut
      rw [extend, hword]
      refine next?_blanks (List.cons_ne_nil b blanks) ?_ (hline isGap rfl hends)
      exact List.forall_mem_cons.2 ⟨hb, hblanks⟩
    | comment =>
      obtain ⟨mark, body, hword, hmark, hbody, hends⟩ := exists_of_cutRun hcut
      obtain rfl : mark = '?' := of_decide_eq_true hmark
      rw [extend, hword]
      refine next?_comment (fun hmem => ?_) fun d after heq => ?_
      · exact absurd (hbody '\n' hmem) (by decide)
      · simpa using hline (fun d => decide (d ≠ '\n')) rfl hends d after heq
    | _ => exact absurd (by decide) hc

end Lexeme

namespace Token

variable {text : List Char}

/-- Reading a text in front of a line feed. -/
theorem scan_append_newline {here : Span} {tokens result : Array Token}
    (h : scan text here tokens = .ok result) (more : List Char) :
    scan (text ++ '\n' :: more) here tokens = scan ('\n' :: more) (here.after text) result := by
  fun_induction scan text here tokens with
  | case1 here tokens =>
    obtain rfl := Except.ok.inj h
    rfl
  | case2 => cases h
  | case3 => cases h
  | case4 here tokens first others c word rest hnext _ hkind ih =>
    have htext : word ++ rest = first :: others := append_of_cut (cut_of_next hnext)
    rw [scan_next (next?_append_newline hnext more), ← htext, Span.after_append]
    simp only [hkind]
    exact ih h
  | case5 here tokens first others c word rest hnext _ kind hkind ih =>
    have htext : word ++ rest = first :: others := append_of_cut (cut_of_next hnext)
    rw [scan_next (next?_append_newline hnext more), ← htext, Span.after_append]
    simp only [hkind]
    exact ih h

/-- A text that is read from another place, behind other tokens, has the same tokens up to
places. -/
theorem exists_scan_of_scan {here : Span} {tokens result : Array Token}
    (h : scan text here tokens = .ok result) (here' : Span) (tokens' : Array Token) :
    ∃ added added' : List Token, result = tokens ++ added.toArray ∧
      scan text here' tokens' = .ok (tokens' ++ added'.toArray) ∧
      added'.map shape = added.map shape := by
  fun_induction scan text here tokens generalizing here' tokens' with
  | case1 here tokens =>
    obtain rfl := Except.ok.inj h
    exact ⟨[], [], by simp, by simp [scan], rfl⟩
  | case2 => cases h
  | case3 => cases h
  | case4 here tokens first others c word rest hnext _ hkind ih =>
    rw [scan_next hnext]
    simp only [hkind]
    exact ih h _ _
  | case5 here tokens first others c word rest hnext _ kind hkind ih =>
    obtain ⟨added, added', hresult, hscan, hshape⟩ :=
      ih h (here'.after word) (tokens'.push ⟨kind, String.ofList word, here'⟩)
    refine ⟨⟨kind, String.ofList word, here⟩ :: added, ⟨kind, String.ofList word, here'⟩ :: added',
      ?_, ?_, ?_⟩
    · rw [hresult]
      simp
    · rw [scan_next hnext]
      simp only [hkind]
      rw [hscan]
      simp
    · rw [List.map_cons, List.map_cons, hshape]
      rfl

end Token

/-- The tokens of a text, a line end, and more tokens. -/
def Token.join (tokens : Array Token) (eol : Token) (more : List Token) : Array Token :=
  (tokens.toList ++ eol :: more).toArray

theorem Token.size_join (tokens : Array Token) (eol : Token) (more : List Token) :
    (join tokens eol more).size = tokens.size + 1 + more.length := by
  simp only [join, List.size_toArray, List.length_append, Array.length_toList, List.length_cons]
  omega

theorem Token.getElem?_join_of_lt {tokens : Array Token} {index : Nat} (h : index < tokens.size)
    (eol : Token) (more : List Token) : (join tokens eol more)[index]? = tokens[index]? := by
  have hlt : index < tokens.toList.length := h
  rw [join, List.getElem?_toArray, List.getElem?_append_left hlt, Array.getElem?_toList]

theorem Token.getElem?_join_size (tokens : Array Token) (eol : Token) (more : List Token) :
    (join tokens eol more)[tokens.size]? = some eol := by
  simp [join]

theorem Token.getElem?_join_behind (tokens : Array Token) (eol : Token) (more : List Token)
    (index : Nat) : (join tokens eol more)[index + (tokens.size + 1)]? = more[index]? := by
  have hle : tokens.toList.length ≤ index + (tokens.size + 1) := by
    rw [Array.length_toList]
    omega
  have hindex : index + (tokens.size + 1) - tokens.toList.length = index + 1 := by
    rw [Array.length_toList]
    omega
  rw [join, List.getElem?_toArray, List.getElem?_append_right hle, hindex, List.getElem?_cons_succ]

/-- The tokens of two texts joined by a line feed. -/
theorem exists_tokenize_join {first second : String} {tokens others : Array Token}
    (hfirst : tokenize first = .ok tokens) (hsecond : tokenize second = .ok others) :
    ∃ (eol : Token) (again : List Token), eol.kind = .newline ∧
      again.map Token.shape = others.toList.map Token.shape ∧
      tokenize (first ++ "\n" ++ second) = .ok (Token.join tokens eol again) := by
  have htext : (first ++ "\n" ++ second).toList = first.toList ++ '\n' :: second.toList := by
    simp
  have hscan := Token.scan_append_newline hfirst second.toList
  rw [Token.scan_next (next?_newline second.toList)] at hscan
  obtain ⟨added, added', hresult, hagain, hshape⟩ :=
    Token.exists_scan_of_scan hsecond ((Span.start.after first.toList).after ['\n'])
      (tokens.push ⟨.newline, String.ofList ['\n'], Span.start.after first.toList⟩)
  refine ⟨⟨.newline, String.ofList ['\n'], Span.start.after first.toList⟩, added', rfl, ?_, ?_⟩
  · rw [hshape, hresult]
    simp
  · rw [tokenize, htext, hscan]
    simp only [tokenKind]
    rw [hagain]
    simp [Token.join]

end TokenScript
