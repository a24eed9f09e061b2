import Mathlib.Data.Nat.Find
import TokenScript.Proofs.Block.Matching
import TokenScript.Proofs.Statement.Parts

/-!
# The surface of a block

The scans for the clauses of `if`, `while` and `for` differ in where they stop, but they count the
same brackets.  So all of them look at one thing, the *surface* of the block: the indices behind its
opener where every nested block that was opened has been closed.  Each of them finds the first word
on the surface that is among its stops.

A clause word on the surface takes nothing away from it: what is on the surface of the clause is
what is on the surface of the block behind the clause word.  A surface `end` is the last thing on
the surface.  With these two facts a chain of scans is an enumeration of the words on one surface.

* `Code.Surface`, `Code.Meets`: the surface, and the words on it.
* `Code.close_eq_ok_iff_firstMeets`: a scan finds the first stop on the surface.
* `Code.ClauseAfterElse`: an `else` that is not the last clause.
* `Code.ChainsTo`: what a chain of scans has to come to.
-/

namespace TokenScript

/-- The brackets `if`, `while` and `for`, which `end` closes, and nothing else. -/
def BlockPolicy.brackets : BlockPolicy where
  openers := endOpeners
  nestedClose := .endBlock
  stops := [.endBlock]
  terminator := .endBlock

theorem BlockPolicy.regular_brackets : brackets.Regular := ⟨by decide, by decide⟩

/-- The policies of the clauses of blocks that `end` closes. -/
def BlockPolicy.ofClauses : List BlockPolicy := [conditional, loop, elseClause]

namespace Code

/-- The words that start a further clause of a block. -/
def clauseWords : List Keyword := [.elifClause, .elseClause]

/-- The index lies in the block that opens at `start`, and in no block nested in it. -/
structure Surface (code : Code) (start index : Nat) : Prop where
  lt : start < index
  balanced : BlockPolicy.brackets.Balanced (code.tokens.extract (start + 1) index).toList

/-- The word stands on the surface of the block that opens at `start`. -/
structure Meets (code : Code) (start index : Nat) (word : Keyword) : Prop where
  surface : code.Surface start index
  word : code.wordAt? index = some word

variable {code : Code} {start index place : Nat} {word other : Keyword}

theorem surface_iff : code.Surface start index ↔ start < index ∧
    BlockPolicy.brackets.nesting 0 (code.tokens.extract (start + 1) index).toList = some 0 := by
  rw [← BlockPolicy.balanced_iff BlockPolicy.regular_brackets]
  exact ⟨fun h => ⟨h.lt, h.balanced⟩, fun h => ⟨h.1, h.2⟩⟩

theorem Meets.word_eq (h : code.Meets start index word) (hother : code.Meets place index other) :
    word = other :=
  Option.some.inj (h.word.symm.trans hother.word)

/-- The count behind a place on the surface starts anew at the token there. -/
theorem Surface.nesting_eq (h : code.Surface start place) {t : Token}
    (ht : code.tokens[place]? = some t) (hlt : place < index) :
    BlockPolicy.brackets.nesting 0 (code.tokens.extract (start + 1) index).toList =
      (BlockPolicy.brackets.turn 0 t).bind
        (BlockPolicy.brackets.nesting · (code.tokens.extract (place + 1) index).toList) := by
  rw [BlockPolicy.toList_extract_cut h.lt hlt ht, BlockPolicy.nesting_append, (surface_iff.1 h).2,
    Option.bind_some, BlockPolicy.nesting_cons]

/-- The surface of a clause is the rest of the surface of its block. -/
theorem Meets.surface_iff_of_clause (h : code.Meets start place word)
    (hclause : word ∈ clauseWords) :
    code.Surface place index ↔ place < index ∧ code.Surface start index := by
  obtain ⟨t, ht, hword⟩ := exists_token h.word
  have hturn : BlockPolicy.brackets.turn 0 t = some 0 := by
    simp only [clauseWords, List.mem_cons, List.not_mem_nil, or_false] at hclause
    rcases hclause with rfl | rfl <;> refine BlockPolicy.turn_of_plain ?_ ?_ <;>
      simp [BlockPolicy.opens, BlockPolicy.closes, BlockPolicy.brackets, BlockPolicy.endOpeners,
        hword]
  rw [surface_iff, surface_iff]
  constructor
  · rintro ⟨hlt, hnesting⟩
    refine ⟨hlt, Nat.lt_trans h.surface.lt hlt, ?_⟩
    rw [h.surface.nesting_eq ht hlt, hturn]
    exact hnesting
  · rintro ⟨hlt, -, hnesting⟩
    rw [h.surface.nesting_eq ht hlt, hturn] at hnesting
    exact ⟨hlt, hnesting⟩

theorem Meets.meets_iff_of_clause (h : code.Meets start place word)
    (hclause : word ∈ clauseWords) :
    code.Meets place index other ↔ place < index ∧ code.Meets start index other := by
  constructor
  · rintro ⟨hsurface, hword⟩
    obtain ⟨hlt, hsurface⟩ := (h.surface_iff_of_clause hclause).1 hsurface
    exact ⟨hlt, hsurface, hword⟩
  · rintro ⟨hlt, hsurface, hword⟩
    exact ⟨(h.surface_iff_of_clause hclause).2 ⟨hlt, hsurface⟩, hword⟩

/-- Nothing is on the surface behind the `end` there. -/
theorem Meets.le_of_end (h : code.Meets start place .endBlock)
    (hsurface : code.Surface start index) :
    index ≤ place := by
  refine Nat.le_of_not_lt fun hlt => ?_
  obtain ⟨t, ht, hword⟩ := exists_token h.word
  have hcloses : BlockPolicy.brackets.closes t = true := BlockPolicy.closes_eq_true_iff.2 hword
  have hnesting := (surface_iff.1 hsurface).2
  rw [h.surface.nesting_eq ht hlt,
    BlockPolicy.regular_brackets.bars_closes.turn_zero hcloses] at hnesting
  cases hnesting

/-- There is one `end` on a surface at most. -/
theorem Meets.end_unique (h : code.Meets start place .endBlock)
    (hother : code.Meets start index .endBlock) :
    place = index :=
  Nat.le_antisymm (hother.le_of_end h.surface) (h.le_of_end hother.surface)

/-- A block that opens between two places of a surface ends between them. -/
theorem Surface.exists_end (h : code.Surface start index) (hle : start < place)
    (hlt : place < index)
    (hopener : ∃ word ∈ BlockPolicy.endOpeners, code.wordAt? place = some word) :
    ∃ stop, code.Meets place stop .endBlock ∧ stop < index := by
  obtain ⟨word, hword, hplace⟩ := hopener
  obtain ⟨t, ht, hkeyword⟩ := exists_token hplace
  have hopens : BlockPolicy.brackets.opens t = true :=
    BlockPolicy.opens_eq_true_iff.2 ⟨word, hword, hkeyword⟩
  have hnesting := (surface_iff.1 h).2
  rw [BlockPolicy.toList_extract_cut hle hlt ht, BlockPolicy.nesting_append] at hnesting
  obtain ⟨depth, -, hrest⟩ := Option.bind_eq_some_iff.1 hnesting
  rw [BlockPolicy.nesting_cons, BlockPolicy.turn_of_opens hopens, Option.bind_some] at hrest
  obtain ⟨inner, close, rest, hsplit, hinner, hclose, -⟩ :=
    BlockPolicy.exists_close_of_nesting BlockPolicy.regular_brackets hrest (Nat.zero_le depth)
  obtain ⟨stop, hstop, hstoplt, hclosing, rfl, -⟩ :=
    BlockPolicy.exists_index_of_toList_extract hsplit
  refine ⟨stop, ⟨⟨hstop, hinner⟩, ?_⟩, hstoplt⟩
  rw [wordAt?, hclosing, Option.bind_some]
  exact BlockPolicy.closes_eq_true_iff.1 hclose

/-! ## Scans -/

/-- The first of some words on the surface of the block that opens at `start`. -/
structure FirstMeets (code : Code) (start : Nat) (words : List Keyword)
    (close : BlockPolicy.Close) :
    Prop where
  meets : code.Meets start close.index close.keyword
  mem : close.keyword ∈ words
  le : ∀ index word, code.Meets start index word → word ∈ words → close.index ≤ index

variable {policy : BlockPolicy} {close : BlockPolicy.Close} {words : List Keyword}

/-- A scan for the end of a clause finds the first stop on the surface. -/
theorem close_eq_ok_iff_firstMeets (hpolicy : policy ∈ BlockPolicy.ofClauses) :
    policy.close code.tokens start = .ok close ↔ code.FirstMeets start policy.stops close := by
  have hregular : policy.Regular := by
    refine BlockPolicy.regular_of_mem_all ?_
    simp only [BlockPolicy.ofClauses, BlockPolicy.all, List.mem_cons, List.not_mem_nil, or_false]
      at hpolicy ⊢
    tauto
  have hnesting : policy.nesting = BlockPolicy.brackets.nesting := by
    simp only [BlockPolicy.ofClauses, List.mem_cons, List.not_mem_nil, or_false] at hpolicy
    rcases hpolicy with rfl | rfl | rfl <;> rfl
  rw [BlockPolicy.close_eq_ok_iff, BlockPolicy.scan_eq_some_iff hregular]
  constructor
  · intro h
    have hsurface : code.Surface start close.index := surface_iff.2 ⟨h.le, hnesting ▸ h.level⟩
    refine ⟨⟨hsurface, h.word⟩, h.stop,
      fun index word hmeets hmem => Nat.le_of_not_lt fun hlt => ?_⟩
    obtain ⟨t, ht, hword⟩ := exists_token hmeets.word
    have hends := h.first index t hmeets.surface.lt hlt ht
      (hnesting ▸ (surface_iff.1 hmeets.surface).2)
    rw [BlockPolicy.ends_eq_true_iff.2 ⟨word, hmem, hword⟩] at hends
    cases hends
  · rintro ⟨⟨hsurface, hword⟩, hmem, hle⟩
    refine ⟨hsurface.lt, hword, hmem, hnesting ▸ (surface_iff.1 hsurface).2, ?_⟩
    intro index t hstart hlt ht hopen
    refine Bool.eq_false_iff.2 fun hends => ?_
    obtain ⟨word, hstop, hkeyword⟩ := BlockPolicy.ends_eq_true_iff.1 hends
    have hmeets : code.Meets start index word :=
      ⟨surface_iff.2 ⟨hstart, hnesting ▸ hopen⟩, by rw [wordAt?, ht, Option.bind_some, hkeyword]⟩
    exact Nat.not_lt.2 (hle index word hmeets hstop) hlt

/-- If some of the words are on the surface, one of them is the first. -/
theorem Meets.exists_firstMeets (h : code.Meets start index word) (hmem : word ∈ words) :
    ∃ close, code.FirstMeets start words close := by
  classical
  have hexists : ∃ place, ∃ word ∈ words, code.Meets start place word := ⟨index, word, hmem, h⟩
  obtain ⟨first, hfirst, hmeets⟩ := Nat.find_spec hexists
  refine ⟨⟨_, first⟩, hmeets, hfirst, fun place other hother hwords => ?_⟩
  exact Nat.find_min' hexists ⟨other, hwords, hother⟩

/-- A scan for the end of a clause fails if there is no stop on the surface. -/
theorem close_eq_error_iff_not_meets (hpolicy : policy ∈ BlockPolicy.ofClauses) {e : Error} :
    policy.close code.tokens start = .error e ↔
      (∀ index word, code.Meets start index word → word ∉ policy.stops) ∧
        e = policy.unterminated code.tokens start := by
  rw [BlockPolicy.close_eq_error_iff]
  refine and_congr_left fun _ => ?_
  constructor
  · intro hscan index word hmeets hmem
    obtain ⟨close, hfirst⟩ := hmeets.exists_firstMeets hmem
    have hok := (close_eq_ok_iff_firstMeets hpolicy).2 hfirst
    rw [BlockPolicy.close_eq_ok_iff, hscan] at hok
    cases hok
  · intro hnone
    cases hscan : policy.scan code.tokens (start + 1) 0 with
    | none => rfl
    | some close =>
      have hfirst := (close_eq_ok_iff_firstMeets hpolicy).1 (BlockPolicy.close_eq_ok_iff.2 hscan)
      exact absurd hfirst.mem (hnone _ _ hfirst.meets)

/-! ## Chains of clauses -/

/-- A clause follows the `else` clause of the block that opens at `start`.  The first `else` stands
at `otherwise`, and the first clause word behind it at `next`. -/
structure ClauseAfterElse (code : Code) (start otherwise next : Nat) : Prop where
  meets : code.Meets start otherwise .elseClause
  first : ∀ index, code.Meets start index .elseClause → otherwise ≤ index
  lt : otherwise < next
  clause : ∃ word ∈ clauseWords, code.Meets start next word
  nearest : ∀ index, ∀ word ∈ clauseWords, code.Meets start index word → otherwise < index →
    next ≤ index

/-- What there is to say of the clauses of the block that opens at `start`, if `words` start its
clauses: the places of these words and of the `end`, or what is wrong.

* The `end` is the one that matches the opener.  The places are those of all clause words on the
  surface, from left to right; only the last can be an `else`, and no clause follows it.
* An error is about the first clause word behind the first `else`, if there is one.  Otherwise the
  `end` is missing, and the error is about the last clause word on the surface, or about the opener
  if there is none. -/
def ChainsTo (code : Code) (start : Nat) (words : List Keyword) :
    Except Error (List Nat × Nat) → Prop
  | .ok (places, stop) =>
    code.Meets start stop .endBlock ∧ places.Pairwise (· < ·) ∧
      (∀ index, index ∈ places ↔ ∃ word ∈ words, code.Meets start index word) ∧
      (∀ index ∈ places, code.wordAt? index = some .elseClause → places.getLast? = some index) ∧
      ∀ otherwise next, ¬code.ClauseAfterElse start otherwise next
  | .error e =>
    (∃ otherwise next t, code.ClauseAfterElse start otherwise next ∧ code.tokens[next]? = some t ∧
      e = ⟨.structural (.clauseAfterElse t.lexeme), t.span⟩) ∨
    (∀ otherwise next, ¬code.ClauseAfterElse start otherwise next) ∧
      (∀ stop, ¬code.Meets start stop .endBlock) ∧
      ∃ last t, (last = start ∨ ∃ word ∈ words, code.Meets start last word) ∧
        (∀ index, ∀ word ∈ words, code.Meets start index word → index ≤ last) ∧
        code.tokens[last]? = some t ∧ e = ⟨.unterminatedBlock t.lexeme .endBlock, t.span⟩

/-- If the first stop starts a clause, every other stop is on the surface of that clause. -/
theorem FirstMeets.eq_or_meets (h : code.FirstMeets start words close)
    (hclause : close.keyword ∈ clauseWords) (hmeets : code.Meets start index word)
    (hmem : word ∈ words) :
    index = close.index ∨ code.Meets close.index index word := by
  rcases Nat.eq_or_lt_of_le (h.le index word hmeets hmem) with heq | hlt
  · exact Or.inl heq.symm
  · exact Or.inr ((h.meets.meets_iff_of_clause hclause).2 ⟨hlt, hmeets⟩)

/-- If the first stop is an `end`, it is the only one. -/
theorem FirstMeets.eq_of_end (h : code.FirstMeets start words close)
    (hend : close.keyword = .endBlock) (hmeets : code.Meets start index word)
    (hmem : word ∈ words) : index = close.index ∧ word = .endBlock := by
  have hstop : code.Meets start close.index .endBlock := hend ▸ h.meets
  have heq := Nat.le_antisymm (hstop.le_of_end hmeets.surface) (h.le index word hmeets hmem)
  subst heq
  exact ⟨rfl, hmeets.word_eq hstop⟩

section

variable {stop next : Nat} {t : Token}

/-- No clause follows an `else` that is not there. -/
theorem not_clauseAfterElse (h : ∀ index, ¬code.Meets start index .elseClause)
    (otherwise next : Nat) :
    ¬code.ClauseAfterElse start otherwise next :=
  fun hafter => h otherwise hafter.meets

/-- A block without a stop on its surface. -/
theorem chainsTo_of_not_meets (helse : .elseClause ∈ words)
    (h : ∀ index word, code.Meets start index word → word ∉ words ++ [.endBlock])
    (ht : code.tokens[start]? = some t) :
    code.ChainsTo start words (.error ⟨.unterminatedBlock t.lexeme .endBlock, t.span⟩) := by
  refine Or.inr
    ⟨not_clauseAfterElse fun index hmeets => ?_, fun stop hmeets => ?_, start, t, Or.inl rfl, ?_,
    ht, rfl⟩
  · exact h index _ hmeets (List.mem_append_left _ helse)
  · exact h stop _ hmeets (List.mem_append_right _ (List.mem_singleton_self _))
  · exact fun index word hword hmeets => absurd (List.mem_append_left _ hword) (h index word hmeets)

/-- A block with an `end` and no other clause. -/
theorem chainsTo_of_end (hwords : words ⊆ clauseWords) (helse : .elseClause ∈ words)
    (h : code.FirstMeets start (words ++ [.endBlock]) ⟨stop, .endBlock⟩) :
    code.ChainsTo start words (.ok ([], stop)) := by
  have hnone : ∀ index, ∀ word ∈ words, ¬code.Meets start index word := by
    intro index word hword hmeets
    have hend := (h.eq_of_end rfl hmeets (List.mem_append_left _ hword)).2
    exact absurd (hwords hword) (by rw [hend]; decide)
  refine ⟨h.meets, .nil, fun index => ⟨nofun, ?_⟩, nofun, ?_⟩
  · rintro ⟨word, hword, hmeets⟩
    exact absurd hmeets (hnone index word hword)
  · exact not_clauseAfterElse fun index => hnone index _ helse

/-- A block whose next clause is an `elif` clause has the clauses of that clause behind it. -/
theorem chainsTo_of_elif {result : Except Error (List Nat × Nat)}
    (h : code.FirstMeets start (clauseWords ++ [.endBlock]) ⟨next, .elifClause⟩)
    (hrest : code.ChainsTo next clauseWords result) :
    code.ChainsTo start clauseWords (result.map fun chain => (next :: chain.1, chain.2)) := by
  have hclause : Keyword.elifClause ∈ clauseWords := by decide
  have hsurface : ∀ {index word}, code.Meets next index word → code.Meets start index word :=
    fun hmeets => ((h.meets.meets_iff_of_clause hclause).1 hmeets).2
  have hmeets : ∀ {index word}, word ∈ clauseWords → code.Meets start index word →
      index = next ∨ code.Meets next index word := fun hword hmeets =>
    h.eq_or_meets hclause hmeets (List.mem_append_left _ hword)
  have helse : ∀ {index}, code.Meets start index .elseClause →
      code.Meets next index .elseClause := by
    intro index hindex
    rcases hmeets (by decide) hindex with rfl | hindex'
    · exact nomatch hindex.word_eq h.meets
    · exact hindex'
  have hend : ∀ {stop}, code.Meets start stop .endBlock → code.Meets next stop .endBlock := by
    intro stop hstop
    rcases h.eq_or_meets hclause hstop (by decide) with rfl | hstop'
    · exact nomatch hstop.word_eq h.meets
    · exact hstop'
  -- the `else` of the block and what follows it are those of the clause
  have hafter : ∀ otherwise behind, code.ClauseAfterElse start otherwise behind ↔
      code.ClauseAfterElse next otherwise behind := by
    intro otherwise behind
    constructor
    · intro hafter
      have hotherwise := helse hafter.meets
      refine ⟨hotherwise, fun index hindex => hafter.first index (hsurface hindex), hafter.lt, ?_,
        fun index word hword hindex => hafter.nearest index word hword (hsurface hindex)⟩
      obtain ⟨word, hword, hbehind⟩ := hafter.clause
      have hlt : next < behind := Nat.lt_trans hotherwise.surface.lt hafter.lt
      exact ⟨word, hword, (h.meets.meets_iff_of_clause hclause).2 ⟨hlt, hbehind⟩⟩
    · intro hafter
      obtain ⟨word, hword, hbehind⟩ := hafter.clause
      refine ⟨hsurface hafter.meets,
        fun index hindex => hafter.first index (helse hindex), hafter.lt,
        ⟨word, hword, hsurface hbehind⟩, fun index word hword hindex hlt => ?_⟩
      have hnext : next < index := Nat.lt_trans hafter.meets.surface.lt hlt
      exact hafter.nearest index word hword
        ((h.meets.meets_iff_of_clause hclause).2 ⟨hnext, hindex⟩) hlt
  cases result with
  | ok chain =>
    obtain ⟨places, stop⟩ := chain
    obtain ⟨hstop, hsorted, hmem, hlast, hnone⟩ := hrest
    refine ⟨hsurface hstop, List.pairwise_cons.2 ⟨fun index hindex => ?_, hsorted⟩,
      fun index => ?_, ?_,
      fun otherwise behind hbehind => hnone otherwise behind ((hafter otherwise behind).1 hbehind)⟩
    · obtain ⟨word, -, hindex⟩ := (hmem index).1 hindex
      exact hindex.surface.lt
    · rw [List.mem_cons, hmem]
      constructor
      · rintro (rfl | ⟨word, hword, hindex⟩)
        · exact ⟨_, hclause, h.meets⟩
        · exact ⟨word, hword, hsurface hindex⟩
      · rintro ⟨word, hword, hindex⟩
        exact (hmeets hword hindex).imp_right fun hindex => ⟨word, hword, hindex⟩
    · intro index hindex hword
      rcases List.mem_cons.1 hindex with rfl | hindex
      · exact nomatch hword.symm.trans h.meets.word
      · rw [List.getLast?_cons, hlast index hindex hword, Option.getD_some]
  | error e =>
    rcases hrest with ⟨otherwise, behind, t, hbehind, ht, rfl⟩ |
      ⟨hnone, hopen, last, t, hlast, hle, ht, rfl⟩
    · exact Or.inl ⟨otherwise, behind, t, (hafter otherwise behind).2 hbehind, ht, rfl⟩
    · refine Or.inr
        ⟨fun otherwise behind hbehind => hnone otherwise behind
          ((hafter otherwise behind).1 hbehind),
        fun stop hstop => hopen stop (hend hstop), last, t, Or.inr ?_, ?_, ht, rfl⟩
      · rcases hlast with rfl | ⟨word, hword, hlast⟩
        · exact ⟨_, hclause, h.meets⟩
        · exact ⟨word, hword, hsurface hlast⟩
      · intro index word hword hindex
        rcases hmeets hword hindex with rfl | hindex
        · rcases hlast with rfl | ⟨other, -, hlast⟩
          · exact Nat.le_refl _
          · exact Nat.le_of_lt hlast.surface.lt
        · exact hle index word hword hindex

variable {otherwise : Nat}

/-- A clause that follows the `else` clause is on the surface of the first `else`. -/
theorem ClauseAfterElse.exists_meets {first : Nat} (hafter : code.ClauseAfterElse start first next)
    (h : code.FirstMeets start (words ++ [.endBlock]) ⟨otherwise, .elseClause⟩)
    (helse : .elseClause ∈ words) :
    ∃ word ∈ clauseWords, code.Meets otherwise next word := by
  obtain ⟨word, hword, hnext⟩ := hafter.clause
  have hlt : otherwise < next :=
    Nat.lt_of_le_of_lt (h.le _ _ hafter.meets (List.mem_append_left _ helse)) hafter.lt
  have hclause : Keyword.elseClause ∈ clauseWords := by decide
  exact ⟨word, hword, (h.meets.meets_iff_of_clause hclause).2 ⟨hlt, hnext⟩⟩

/-- The `else` clause of a block has no end. -/
theorem chainsTo_of_else_not_meets (hwords : words ⊆ clauseWords)
    (h : code.FirstMeets start (words ++ [.endBlock]) ⟨otherwise, .elseClause⟩)
    (helse : .elseClause ∈ words)
    (hnone : ∀ index word, code.Meets otherwise index word → word ∉ clauseWords ++ [.endBlock])
    (ht : code.tokens[otherwise]? = some t) :
    code.ChainsTo start words (.error ⟨.unterminatedBlock t.lexeme .endBlock, t.span⟩) := by
  have hclause : Keyword.elseClause ∈ clauseWords := by decide
  refine Or.inr ⟨fun first next hafter => ?_, fun stop hstop => ?_, otherwise, t,
    Or.inr ⟨_, helse, h.meets⟩, fun index word hword hmeets => ?_, ht, rfl⟩
  · obtain ⟨word, hword, hnext⟩ := hafter.exists_meets h helse
    exact hnone next word hnext (List.mem_append_left _ hword)
  · have hmem : Keyword.endBlock ∈ words ++ [.endBlock] :=
      List.mem_append_right _ (List.mem_singleton_self _)
    rcases h.eq_or_meets hclause hstop hmem with rfl | hstop'
    · exact nomatch hstop.word_eq h.meets
    · exact hnone stop _ hstop' (by decide)
  · rcases h.eq_or_meets hclause hmeets (List.mem_append_left _ hword) with rfl | hmeets
    · exact Nat.le_refl _
    · exact absurd (List.mem_append_left _ (hwords hword)) (hnone index word hmeets)

/-- The `else` clause of a block ends it. -/
theorem chainsTo_of_else_end (hwords : words ⊆ clauseWords)
    (h : code.FirstMeets start (words ++ [.endBlock]) ⟨otherwise, .elseClause⟩)
    (helse : .elseClause ∈ words)
    (hend : code.FirstMeets otherwise (clauseWords ++ [.endBlock]) ⟨stop, .endBlock⟩) :
    code.ChainsTo start words (.ok ([otherwise], stop)) := by
  have hclause : Keyword.elseClause ∈ clauseWords := by decide
  have hnone : ∀ index, ∀ word ∈ clauseWords, ¬code.Meets otherwise index word := by
    intro index word hword hmeets
    have hstop := (hend.eq_of_end rfl hmeets (List.mem_append_left _ hword)).2
    exact absurd hword (by rw [hstop]; decide)
  refine ⟨((h.meets.meets_iff_of_clause hclause).1 hend.meets).2, List.pairwise_singleton _ _,
    fun index => ⟨fun hindex => ?_, ?_⟩, fun index hindex _ => ?_, fun first next hafter => ?_⟩
  · rw [List.mem_singleton.1 hindex]
    exact ⟨_, helse, h.meets⟩
  · rintro ⟨word, hword, hmeets⟩
    rcases h.eq_or_meets hclause hmeets (List.mem_append_left _ hword) with rfl | hmeets
    · exact List.mem_singleton_self _
    · exact absurd hmeets (hnone index word (hwords hword))
  · rw [List.mem_singleton.1 hindex]
    rfl
  · obtain ⟨word, hword, hnext⟩ := hafter.exists_meets h helse
    exact hnone next word hword hnext

/-- A clause follows the `else` clause of a block. -/
theorem chainsTo_of_else_clause
    (h : code.FirstMeets start (words ++ [.endBlock]) ⟨otherwise, .elseClause⟩)
    (helse : .elseClause ∈ words)
    (hnext : code.FirstMeets otherwise (clauseWords ++ [.endBlock]) close)
    (hword : close.keyword ∈ clauseWords) (ht : code.tokens[close.index]? = some t) :
    code.ChainsTo start words (.error ⟨.structural (.clauseAfterElse t.lexeme), t.span⟩) := by
  have hclause : Keyword.elseClause ∈ clauseWords := by decide
  refine Or.inl
    ⟨otherwise, close.index, t, ⟨h.meets, fun index hindex => ?_, hnext.meets.surface.lt,
    ⟨_, hword, ((h.meets.meets_iff_of_clause hclause).1 hnext.meets).2⟩, ?_⟩, ht, rfl⟩
  · exact h.le index _ hindex (List.mem_append_left _ helse)
  · intro index word hmem hindex hlt
    exact hnext.le index word ((h.meets.meets_iff_of_clause hclause).2 ⟨hlt, hindex⟩)
      (List.mem_append_left _ hmem)

end

end Code
end TokenScript
