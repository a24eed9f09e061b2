import TokenScript.Proofs.Program.Layout

/-!
# Finding a close is matching brackets

A scan counts the nested blocks that are open and stops at the first word outside all of them that
ends the block.  The same can be said without counting: what lies between a word and its close is a
sequence of complete nested blocks, and of tokens that neither open a block nor end one.  This file
shows that the two say the same, for any nesting, and that there is never a choice.

The count is kept apart from the scan: `nesting` counts over a list of tokens, and composes.  A
close is then the first index where nothing is open and a stop stands, and the grammar is the set of
lists over which the count comes back to where it started and no stop is met on the way.

* `BlockPolicy.Nested`: the grammar of what a scan passes over.
* `BlockPolicy.nesting`: the count.
* `BlockPolicy.nested_iff`: the grammar in terms of the count.
* `BlockPolicy.scan_eq_some_iff`: the scan in terms of the count.
* `BlockPolicy.close_eq_ok_iff_matches`: the scan in terms of the grammar.
-/

namespace TokenScript
namespace BlockPolicy

variable (policy : BlockPolicy)

/-- Whether the token opens a nested block. -/
def opens (t : Token) : Bool := t.keyword?.any (· ∈ policy.openers)

/-- Whether the token closes a nested block. -/
def closes (t : Token) : Bool := t.keyword? = some policy.nestedClose

/-- Whether the token ends the block. -/
def ends (t : Token) : Bool := t.keyword?.any (· ∈ policy.stops)

/-! ## The grammar -/

/-- A sequence of complete nested blocks, and of tokens that neither open a block nor are barred.
Inside a nested block only its close is barred. -/
inductive Nested : (Token → Bool) → List Token → Prop
  | nil {barred : Token → Bool} : Nested barred []
  | plain {barred : Token → Bool} {t : Token} {rest : List Token} :
    policy.opens t = false → barred t = false → Nested barred rest → Nested barred (t :: rest)
  | block {barred : Token → Bool} {opener close : Token} {inner rest : List Token} :
    policy.opens opener = true → Nested policy.closes inner → policy.closes close = true →
      Nested barred rest → Nested barred (opener :: (inner ++ close :: rest))

/-- Tokens in which the words that open nested blocks and those that close them balance. -/
abbrev Balanced (tokens : List Token) : Prop := policy.Nested policy.closes tokens

/-- Tokens that a block can hold before its end. -/
abbrev Contents (tokens : List Token) : Prop := policy.Nested policy.ends tokens

/-- The word at `close` ends the block that opens at `start`. -/
structure Matches (tokens : Array Token) (start : Nat) (close : Close) : Prop where
  lt : start < close.index
  lt_size : close.index < tokens.size
  word : tokens[close.index]?.bind Token.keyword? = some close.keyword
  stop : close.keyword ∈ policy.stops
  contents : policy.Contents (tokens.extract (start + 1) close.index).toList

/-! ## The count -/

/-- How many nested blocks are open behind a token, if `depth` of them are open before it.  There is
no answer for a close with nothing to close. -/
def turn (depth : Nat) (t : Token) : Option Nat :=
  if policy.opens t then some (depth + 1)
  else if policy.closes t then if depth = 0 then none else some (depth - 1)
  else some depth

/-- How many nested blocks are open behind some tokens, if `depth` of them are open before. -/
def nesting (depth : Nat) (tokens : List Token) : Option Nat := tokens.foldlM policy.turn depth

/-- The words of a policy do not get in each other's way: none that ends the block opens a nested
one, and the one that closes nested blocks ends the block as well. -/
structure Regular : Prop where
  not_stop : ∀ word ∈ policy.openers, word ∉ policy.stops
  close_mem : policy.nestedClose ∈ policy.stops

/-- A class of tokens that holds all closes and no opener. -/
structure Bars (barred : Token → Bool) : Prop where
  opener : ∀ t, policy.opens t = true → barred t = false
  close : ∀ t, policy.closes t = true → barred t = true

variable {policy} {depth final : Nat} {t : Token} {tokens before behind : List Token}
  {barred : Token → Bool}

theorem opens_eq_true_iff :
    policy.opens t = true ↔ ∃ word ∈ policy.openers, t.keyword? = some word := by
  cases h : t.keyword? <;> simp [opens, h]

theorem ends_eq_true_iff :
    policy.ends t = true ↔ ∃ word ∈ policy.stops, t.keyword? = some word := by
  cases h : t.keyword? <;> simp [ends, h]

theorem closes_eq_true_iff : policy.closes t = true ↔ t.keyword? = some policy.nestedClose :=
  decide_eq_true_iff

theorem regular_of_mem_all (h : policy ∈ all) : policy.Regular := by
  simp only [all, List.mem_cons, List.not_mem_nil, or_false] at h
  rcases h with rfl | rfl | rfl | rfl <;> exact ⟨by decide, by decide⟩

theorem Regular.bars_ends (h : policy.Regular) : policy.Bars policy.ends where
  opener t hopens := by
    obtain ⟨word, hword, ht⟩ := opens_eq_true_iff.1 hopens
    refine Bool.eq_false_iff.2 fun hends => ?_
    obtain ⟨other, hother, ht'⟩ := ends_eq_true_iff.1 hends
    obtain rfl : word = other := Option.some.inj (ht.symm.trans ht')
    exact h.not_stop word hword hother
  close t hcloses := ends_eq_true_iff.2 ⟨_, h.close_mem, closes_eq_true_iff.1 hcloses⟩

theorem Regular.bars_closes (h : policy.Regular) : policy.Bars policy.closes where
  opener t hopens := by
    refine Bool.eq_false_iff.2 fun hcloses => ?_
    have hends := h.bars_ends.close t hcloses
    rw [h.bars_ends.opener t hopens] at hends
    cases hends
  close _ hcloses := hcloses

/-- What is neither an opener nor barred is no close. -/
theorem Bars.closes_eq_false (h : policy.Bars barred) (hbarred : barred t = false) :
    policy.closes t = false :=
  Bool.eq_false_iff.2 fun hcloses => Bool.eq_false_iff.1 hbarred (h.close t hcloses)

theorem Bars.opens_eq_false (h : policy.Bars barred) (hcloses : policy.closes t = true) :
    policy.opens t = false :=
  Bool.eq_false_iff.2 fun hopens =>
    Bool.eq_false_iff.1 (h.opener t hopens) (h.close t hcloses)

theorem turn_of_opens (h : policy.opens t = true) : policy.turn depth t = some (depth + 1) := by
  rw [turn, if_pos h]

theorem turn_of_plain (hopens : policy.opens t = false) (hcloses : policy.closes t = false) :
    policy.turn depth t = some depth := by
  simp [turn, hopens, hcloses]

theorem Bars.turn_zero (h : policy.Bars barred) (hcloses : policy.closes t = true) :
    policy.turn 0 t = none := by
  simp [turn, h.opens_eq_false hcloses, hcloses]

theorem Bars.turn_succ (h : policy.Bars barred) (hcloses : policy.closes t = true) :
    policy.turn (depth + 1) t = some depth := by
  simp [turn, h.opens_eq_false hcloses, hcloses]

@[simp] theorem nesting_nil : policy.nesting depth [] = some depth := rfl

theorem nesting_cons :
    policy.nesting depth (t :: tokens) = (policy.turn depth t).bind (policy.nesting · tokens) := rfl

theorem nesting_append :
    policy.nesting depth (before ++ behind) =
      (policy.nesting depth before).bind (policy.nesting · behind) :=
  List.foldlM_append ..

/-! ## The grammar in terms of the count -/

/-- Over a sequence of complete blocks the count comes back to where it started. -/
theorem Nested.nesting_eq (hregular : policy.Regular) (h : policy.Nested barred tokens)
    (hbars : policy.Bars barred) (depth : Nat) : policy.nesting depth tokens = some depth := by
  induction h generalizing depth with
  | nil => rfl
  | plain hopens hbarred _ ih =>
    rw [nesting_cons, turn_of_plain hopens (hbars.closes_eq_false hbarred)]
    exact ih hbars depth
  | block hopens _ hcloses _ ihinner ihrest =>
    rw [nesting_cons, turn_of_opens hopens, Option.bind_some, nesting_append,
      ihinner hregular.bars_closes, Option.bind_some, nesting_cons, hbars.turn_succ hcloses]
    exact ihrest hbars depth

/-- On the way it never falls below that. -/
theorem Nested.exists_nesting (hregular : policy.Regular) (h : policy.Nested barred tokens)
    (hbars : policy.Bars barred) (depth : Nat) (hsplit : tokens = before ++ behind) :
    ∃ more, policy.nesting depth before = some (depth + more) := by
  induction h generalizing depth before behind with
  | nil =>
    obtain ⟨rfl, -⟩ := List.nil_eq_append_iff.1 hsplit
    exact ⟨0, rfl⟩
  | @plain barred t rest hopens hbarred _ ih =>
    cases before with
    | nil => exact ⟨0, rfl⟩
    | cons u before =>
      obtain ⟨rfl, hrest⟩ := List.cons.inj hsplit
      rw [nesting_cons, turn_of_plain hopens (hbars.closes_eq_false hbarred)]
      exact ih hbars depth hrest
  | @block barred opener close inner rest hopens hinner hcloses _ ihinner ihrest =>
    cases before with
    | nil => exact ⟨0, rfl⟩
    | cons u before =>
      obtain ⟨rfl, hrest⟩ := List.cons.inj hsplit
      rw [nesting_cons, turn_of_opens hopens, Option.bind_some]
      -- the place is inside the nested block, or behind its close
      rcases List.append_eq_append_iff.1 hrest with ⟨extra, hbefore, hextra⟩ | ⟨extra, hinside, -⟩
      · cases extra with
        | nil =>
          rw [hbefore, List.append_nil, hinner.nesting_eq hregular hregular.bars_closes]
          exact ⟨1, rfl⟩
        | cons v extra =>
          obtain ⟨rfl, hrest⟩ := List.cons.inj hextra
          rw [hbefore, nesting_append, hinner.nesting_eq hregular hregular.bars_closes,
            Option.bind_some, nesting_cons, hbars.turn_succ hcloses]
          exact ihrest hbars depth hrest
      · obtain ⟨more, hmore⟩ := ihinner hregular.bars_closes (depth + 1) hinside
        exact ⟨more + 1, by rw [hmore, Nat.add_assoc, Nat.add_comm 1]⟩

/-- Where the count falls below some depth, there is the close that takes it there, and what lies
before it balances. -/
theorem exists_close_of_nesting (hregular : policy.Regular)
    (h : policy.nesting (depth + 1) tokens = some final) (hle : final ≤ depth) :
    ∃ inner close rest, tokens = inner ++ close :: rest ∧ policy.Balanced inner ∧
      policy.closes close = true ∧ policy.nesting depth rest = some final := by
  induction hlength : tokens.length using Nat.strongRecOn generalizing tokens depth with
  | ind length ih =>
    cases tokens with
    | nil =>
      obtain rfl : depth + 1 = final := Option.some.inj h
      omega
    | cons t tokens =>
      rw [List.length_cons] at hlength
      rw [nesting_cons] at h
      by_cases hopens : policy.opens t = true
      · -- the nested block ends first, and the close is looked for behind it
        rw [turn_of_opens hopens] at h
        obtain ⟨inner, close, rest, rfl, hinner, hclose, hrest⟩ :=
          ih tokens.length (by omega) h (by omega) rfl
        rw [List.length_append, List.length_cons] at hlength
        obtain ⟨after, last, behind, rfl, hafter, hlast, hbehind⟩ :=
          ih rest.length (by omega) hrest hle rfl
        refine ⟨t :: (inner ++ close :: after), last, behind, by simp, ?_, hlast, hbehind⟩
        exact .block hopens hinner hclose hafter
      · rw [Bool.not_eq_true] at hopens
        by_cases hcloses : policy.closes t = true
        · rw [hregular.bars_closes.turn_succ hcloses] at h
          exact ⟨[], t, tokens, rfl, .nil, hcloses, h⟩
        · rw [Bool.not_eq_true] at hcloses
          rw [turn_of_plain hopens hcloses] at h
          obtain ⟨inner, close, rest, rfl, hinner, hclose, hrest⟩ :=
            ih tokens.length (by omega) h hle rfl
          exact ⟨t :: inner, close, rest, rfl, .plain hopens hcloses hinner, hclose, hrest⟩

/-- A sequence of complete blocks bars nothing outside them. -/
theorem Nested.barred_eq_false (hregular : policy.Regular) (h : policy.Nested barred tokens)
    (hbars : policy.Bars barred) (hsplit : tokens = before ++ t :: behind)
    (hopen : policy.nesting 0 before = some 0) : barred t = false := by
  induction h generalizing before with
  | nil => exact absurd hsplit (by simp)
  | @plain barred u rest hopens hbarred _ ih =>
    cases before with
    | nil =>
      obtain ⟨rfl, -⟩ := List.cons.inj hsplit
      exact hbarred
    | cons v before =>
      obtain ⟨rfl, hrest⟩ := List.cons.inj hsplit
      rw [nesting_cons, turn_of_plain hopens (hbars.closes_eq_false hbarred)] at hopen
      exact ih hbars hrest hopen
  | @block barred opener close inner rest hopens hinner hcloses _ _ ihrest =>
    cases before with
    | nil =>
      obtain ⟨rfl, -⟩ := List.cons.inj hsplit
      exact hbars.opener _ hopens
    | cons v before =>
      obtain ⟨rfl, hrest⟩ := List.cons.inj hsplit
      rw [nesting_cons, turn_of_opens hopens, Option.bind_some] at hopen
      rcases List.append_eq_append_iff.1 hrest with ⟨extra, hbefore, hextra⟩ | ⟨extra, hinside, -⟩
      · rw [hbefore, nesting_append, hinner.nesting_eq hregular hregular.bars_closes,
          Option.bind_some] at hopen
        cases extra with
        | nil => cases hopen
        | cons w extra =>
          obtain ⟨rfl, hrest⟩ := List.cons.inj hextra
          rw [nesting_cons, hbars.turn_succ hcloses] at hopen
          exact ihrest hbars hrest hopen
      · -- inside the nested block something is open
        obtain ⟨more, hmore⟩ := hinner.exists_nesting hregular hregular.bars_closes 1 hinside
        rw [hmore] at hopen
        have hzero : 1 + more = 0 := Option.some.inj hopen
        omega

theorem nested_of_nesting (hregular : policy.Regular) (h : policy.nesting 0 tokens = some 0)
    (hbarred : ∀ before t behind, tokens = before ++ t :: behind →
      policy.nesting 0 before = some 0 → barred t = false) : policy.Nested barred tokens := by
  induction hlength : tokens.length using Nat.strongRecOn generalizing tokens with
  | ind length ih =>
    cases tokens with
    | nil => exact .nil
    | cons t tokens =>
      rw [List.length_cons] at hlength
      by_cases hopens : policy.opens t = true
      · rw [nesting_cons, turn_of_opens hopens] at h
        obtain ⟨inner, close, rest, rfl, hinner, hclose, hrest⟩ :=
          exists_close_of_nesting hregular h (Nat.le_refl 0)
        rw [List.length_append, List.length_cons] at hlength
        refine .block hopens hinner hclose (ih rest.length (by omega) hrest ?_ rfl)
        intro before u behind hsplit hopen
        refine hbarred (t :: (inner ++ close :: before)) u behind (by rw [hsplit]; simp) ?_
        rw [nesting_cons, turn_of_opens hopens, Option.bind_some, nesting_append,
          hinner.nesting_eq hregular hregular.bars_closes, Option.bind_some, nesting_cons,
          hregular.bars_closes.turn_succ hclose]
        exact hopen
      · rw [Bool.not_eq_true] at hopens
        have hcloses : policy.closes t = false := by
          refine Bool.eq_false_iff.2 fun hcloses => ?_
          rw [nesting_cons, hregular.bars_closes.turn_zero hcloses] at h
          cases h
        rw [nesting_cons, turn_of_plain hopens hcloses] at h
        refine .plain hopens (hbarred [] t tokens rfl rfl) (ih tokens.length (by omega) h ?_ rfl)
        intro before u behind hsplit hopen
        refine hbarred (t :: before) u behind (by rw [hsplit]; rfl) ?_
        rw [nesting_cons, turn_of_plain hopens hcloses]
        exact hopen

/-- The grammar in terms of the count. -/
theorem nested_iff (hregular : policy.Regular) (hbars : policy.Bars barred) :
    policy.Nested barred tokens ↔ policy.nesting 0 tokens = some 0 ∧
      ∀ before t behind, tokens = before ++ t :: behind →
        policy.nesting 0 before = some 0 → barred t = false :=
  ⟨fun h => ⟨h.nesting_eq hregular hbars 0,
    fun _ _ _ hsplit hopen => h.barred_eq_false hregular hbars hsplit hopen⟩,
    fun h => nested_of_nesting hregular h.1 h.2⟩

/-- Tokens balance if the count comes back to where it started and does not fail on the way. -/
theorem balanced_iff (hregular : policy.Regular) :
    policy.Balanced tokens ↔ policy.nesting 0 tokens = some 0 := by
  refine (policy.nested_iff hregular hregular.bars_closes).trans ⟨And.left, fun h => ⟨h, ?_⟩⟩
  intro before t behind hsplit hopen
  refine Bool.eq_false_iff.2 fun hcloses => ?_
  rw [hsplit, nesting_append, hopen, Option.bind_some, nesting_cons,
    hregular.bars_closes.turn_zero hcloses] at h
  cases h

/-! ## The scan in terms of the count -/

theorem toList_extract_cons {code : Array Token} {start stop : Nat} (hlt : start < stop)
    (ht : code[start]? = some t) :
    (code.extract start stop).toList = t :: (code.extract (start + 1) stop).toList := by
  obtain ⟨hsize, rfl⟩ := Array.getElem?_eq_some_iff.1 ht
  have hcount : stop - start = stop - (start + 1) + 1 := by omega
  simp only [Array.toList_extract, List.extract_eq_take_drop]
  rw [hcount, List.drop_eq_getElem_cons (by simpa using hsize), List.take_succ_cons,
    Array.getElem_toList]

theorem toList_extract_append {code : Array Token} {start middle stop : Nat}
    (hleft : start ≤ middle) (hright : middle ≤ stop) :
    (code.extract start stop).toList =
      (code.extract start middle).toList ++ (code.extract middle stop).toList := by
  rw [← Array.toList_append, Array.extract_append_extract, Nat.min_eq_left hleft,
    Nat.max_eq_right hright]

/-- The token at an index cuts a range in two. -/
theorem toList_extract_cut {code : Array Token} {start index stop : Nat} (hle : start ≤ index)
    (hlt : index < stop) (ht : code[index]? = some t) :
    (code.extract start stop).toList =
      (code.extract start index).toList ++ t :: (code.extract (index + 1) stop).toList := by
  rw [toList_extract_append hle (Nat.le_of_lt hlt), toList_extract_cons hlt ht]

/-- A token of a range stands at an index of it. -/
theorem exists_index_of_toList_extract {code : Array Token} {start stop : Nat}
    (h : (code.extract start stop).toList = before ++ t :: behind) :
    ∃ index, start ≤ index ∧ index < stop ∧ code[index]? = some t ∧
      before = (code.extract start index).toList ∧
      behind = (code.extract (index + 1) stop).toList := by
  have hlength := congrArg List.length h
  rw [Array.length_toList, Array.size_extract, List.length_append, List.length_cons] at hlength
  have hlt : start + before.length < stop := by omega
  have hsize : start + before.length < code.size := by omega
  have ht := Array.getElem?_eq_getElem hsize
  have hcut := toList_extract_cut (Nat.le_add_right start before.length) hlt ht
  rw [h] at hcut
  have hsame : before.length = (code.extract start (start + before.length)).toList.length := by
    simp only [Array.length_toList, Array.size_extract]
    omega
  obtain ⟨hbefore, hrest⟩ := List.append_inj hcut hsame
  obtain ⟨rfl, hbehind⟩ := List.cons.inj hrest
  exact ⟨_, Nat.le_add_right _ _, hlt, ht, hbefore, hbehind⟩

theorem nesting_extract_self (code : Array Token) (index : Nat) :
    policy.nesting depth (code.extract index index).toList = some depth := by
  rw [Array.extract_empty_of_stop_le_start (Nat.le_refl index)]
  rfl

/-- The first word behind an index that ends the block while nothing is open, if `depth` nested
blocks are open at the index. -/
structure FirstStop (policy : BlockPolicy) (code : Array Token) (index depth : Nat)
    (close : Close) : Prop where
  le : index ≤ close.index
  word : code[close.index]?.bind Token.keyword? = some close.keyword
  stop : close.keyword ∈ policy.stops
  level : policy.nesting depth (code.extract index close.index).toList = some 0
  first : ∀ i t, index ≤ i → i < close.index → code[i]? = some t →
    policy.nesting depth (code.extract index i).toList = some 0 → policy.ends t = false

section

variable {code : Array Token} {index next : Nat} {close : Close}

theorem FirstStop.lt_size (h : policy.FirstStop code index depth close) :
    close.index < code.size := by
  obtain ⟨t, ht, -⟩ := Option.bind_eq_some_iff.1 h.word
  exact (Array.getElem?_eq_some_iff.1 ht).1

/-- A token that is not the stop is passed over. -/
theorem firstStop_step (ht : code[index]? = some t) (hturn : policy.turn depth t = some next)
    (hpass : depth = 0 → policy.ends t = false) :
    policy.FirstStop code index depth close ↔ policy.FirstStop code (index + 1) next close := by
  have hnesting : ∀ i, index < i → policy.nesting depth (code.extract index i).toList =
      policy.nesting next (code.extract (index + 1) i).toList := by
    intro i hlt
    rw [toList_extract_cons hlt ht, nesting_cons, hturn, Option.bind_some]
  constructor
  · intro h
    have hne : close.index ≠ index := by
      intro heq
      have hlevel := h.level
      rw [heq, nesting_extract_self] at hlevel
      obtain ⟨u, hu, hword⟩ := Option.bind_eq_some_iff.1 h.word
      rw [heq, ht] at hu
      obtain rfl := Option.some.inj hu
      have hends : policy.ends t = true := ends_eq_true_iff.2 ⟨_, h.stop, hword⟩
      rw [hpass (Option.some.inj hlevel)] at hends
      cases hends
    have hlt : index < close.index := Nat.lt_of_le_of_ne h.le hne.symm
    refine ⟨hlt, h.word, h.stop, (hnesting _ hlt).symm.trans h.level,
      fun i u hi hclose hu hopen => ?_⟩
    exact h.first i u (Nat.le_of_lt hi) hclose hu ((hnesting i hi).trans hopen)
  · intro h
    refine ⟨Nat.le_of_succ_le h.le, h.word, h.stop, (hnesting _ h.le).trans h.level, ?_⟩
    intro i u hi hclose hu hopen
    rcases Nat.eq_or_lt_of_le hi with rfl | hlt
    · obtain rfl := Option.some.inj (ht.symm.trans hu)
      rw [nesting_extract_self] at hopen
      exact hpass (Option.some.inj hopen)
    · exact h.first i u hlt hclose hu ((hnesting i hlt).symm.trans hopen)

/-- The scan in terms of the count, by the recursion of the scan. -/
theorem scan_eq_some_iff (hregular : policy.Regular) :
    policy.scan code index depth = some close ↔ policy.FirstStop code index depth close := by
  fun_induction scan policy code index depth with
  | case1 index depth hlt hword ih =>
    rw [ih]
    symm
    refine firstStop_step (Array.getElem?_eq_getElem hlt) (turn_of_plain ?_ ?_) fun _ => ?_ <;>
      simp [opens, closes, ends, hword]
  | case2 index depth hlt word hword hopener ih =>
    rw [ih]
    have hopens : policy.opens code[index] = true := opens_eq_true_iff.2 ⟨word, hopener, hword⟩
    exact (firstStop_step (Array.getElem?_eq_getElem hlt) (turn_of_opens hopens)
      fun _ => hregular.bars_ends.opener _ hopens).symm
  | case3 index depth hlt word hword hopener hstop =>
    obtain ⟨rfl, hstop⟩ := hstop
    have ht := Array.getElem?_eq_getElem hlt
    constructor
    · rintro ⟨⟩
      refine ⟨Nat.le_refl index, ?_, hstop, ?_,
        fun i u hi hclose => absurd hclose (Nat.not_lt.2 hi)⟩
      · rw [ht, Option.bind_some, hword]
      · exact nesting_extract_self code index
    · intro h
      -- nothing behind the index is the first
      have heq : close.index = index := by
        refine Nat.le_antisymm (Nat.le_of_not_lt fun hclose => ?_) h.le
        have hends := h.first index _ (Nat.le_refl index) hclose ht
          (nesting_extract_self code index)
        rw [ends_eq_true_iff.2 ⟨word, hstop, hword⟩] at hends
        cases hends
      obtain ⟨place, keyword⟩ := close
      obtain rfl : place = index := heq
      have hkeyword := h.word
      rw [ht, Option.bind_some, hword] at hkeyword
      rw [Option.some.inj hkeyword]
  | case4 index depth hlt word hword hopener hstop hclose ih =>
    rw [ih]
    obtain ⟨rfl, hdepth⟩ := hclose
    obtain ⟨less, rfl⟩ : ∃ less, depth = less + 1 := ⟨depth - 1, by omega⟩
    have hcloses : policy.closes code[index] = true := closes_eq_true_iff.2 hword
    exact (firstStop_step (Array.getElem?_eq_getElem hlt) (hregular.bars_closes.turn_succ hcloses)
      fun hzero => absurd hzero (Nat.succ_ne_zero less)).symm
  | case5 index depth hlt word hword hopener hstop hclose ih =>
    rw [ih]
    have hopens : policy.opens code[index] = false := by simp [opens, hword, hopener]
    have hcloses : policy.closes code[index] = false := by
      refine Bool.eq_false_iff.2 fun hcloses => ?_
      obtain rfl := Option.some.inj (hword.symm.trans (closes_eq_true_iff.1 hcloses))
      rcases Nat.eq_zero_or_pos depth with hzero | hpos
      · exact hstop ⟨hzero, hregular.close_mem⟩
      · exact hclose ⟨rfl, hpos⟩
    refine (firstStop_step (Array.getElem?_eq_getElem hlt) (turn_of_plain hopens hcloses) ?_).symm
    intro hzero
    refine Bool.eq_false_iff.2 fun hends => ?_
    obtain ⟨other, hmem, hother⟩ := ends_eq_true_iff.1 hends
    obtain rfl := Option.some.inj (hword.symm.trans hother)
    exact hstop ⟨hzero, hmem⟩
  | case6 index depth hsize =>
    constructor
    · rintro ⟨⟩
    · intro h
      exact absurd (Nat.lt_of_le_of_lt h.le h.lt_size) hsize

/-! ## The scan in terms of the grammar -/

theorem firstStop_iff_matches (hregular : policy.Regular) {start : Nat} :
    policy.FirstStop code (start + 1) 0 close ↔ policy.Matches code start close := by
  constructor
  · intro h
    refine ⟨h.le, h.lt_size, h.word, h.stop,
      (policy.nested_iff hregular hregular.bars_ends).2 ⟨h.level, ?_⟩⟩
    intro before t behind hsplit hopen
    obtain ⟨index, hle, hlt, ht, rfl, -⟩ := exists_index_of_toList_extract hsplit
    exact h.first index t hle hlt ht hopen
  · intro h
    obtain ⟨hlevel, hbarred⟩ := (policy.nested_iff hregular hregular.bars_ends).1 h.contents
    refine ⟨h.lt, h.word, h.stop, hlevel, ?_⟩
    intro index t hle hlt ht hopen
    exact hbarred _ t _ (toList_extract_cut hle hlt ht) hopen

theorem close_eq_ok_iff {start : Nat} :
    policy.close code start = .ok close ↔ policy.scan code (start + 1) 0 = some close := by
  rw [BlockPolicy.close]
  cases policy.scan code (start + 1) 0 with
  | none => exact ⟨nofun, nofun⟩
  | some found => rw [Except.ok.injEq, Option.some.injEq]

theorem close_eq_error_iff {start : Nat} {e : Error} :
    policy.close code start = .error e ↔
      policy.scan code (start + 1) 0 = none ∧ e = policy.unterminated code start := by
  rw [BlockPolicy.close]
  cases policy.scan code (start + 1) 0 with
  | none => exact ⟨fun h => ⟨rfl, (Except.error.inj h).symm⟩, fun h => by rw [h.2]⟩
  | some found => exact ⟨nofun, nofun⟩

theorem close_eq_ok_iff_matches (hregular : policy.Regular) {start : Nat} :
    policy.close code start = .ok close ↔ policy.Matches code start close :=
  close_eq_ok_iff.trans ((scan_eq_some_iff hregular).trans (firstStop_iff_matches hregular))

/-- Without a match there is an error, and it is about the token at the start of the scan. -/
theorem close_eq_error_of_not_matches (hregular : policy.Regular) {start : Nat}
    (h : ∀ close, ¬policy.Matches code start close) :
    policy.close code start = .error (policy.unterminated code start) := by
  refine close_eq_error_iff.2 ⟨?_, rfl⟩
  cases hscan : policy.scan code (start + 1) 0 with
  | none => rfl
  | some found =>
    exact absurd ((close_eq_ok_iff_matches hregular).1 (close_eq_ok_iff.2 hscan)) (h found)

end

end BlockPolicy

/-- **Finding a close is matching brackets.**  Take any tokens, any index and one of the policies.

* The scan finds a close if and only if the close lies behind the index, one of the words that end
  the block stands there, and what lies between is a sequence of complete nested blocks and of
  tokens that neither open a block nor end one.
* There is at most one such close.
* If there is none, the answer is the error of a block without an end.  It names the token at the
  index and has its place. -/
theorem close_matches_brackets {policy : BlockPolicy} (hpolicy : policy ∈ BlockPolicy.all)
    (tokens : Array Token) (start : Nat) :
    (∀ close, policy.close tokens start = .ok close ↔ policy.Matches tokens start close) ∧
    (∀ close other, policy.Matches tokens start close → policy.Matches tokens start other →
      close = other) ∧
    ((∀ close, ¬policy.Matches tokens start close) →
      ∃ e, policy.close tokens start = .error e ∧ e.kind = .block ∧
        e.message = "unterminated " ++ ticked (tokens[start]?.elim "" Token.lexeme) ++ " block" ∧
        e.help? = some ("close the block with " ++ ticked policy.terminator.spelling) ∧
        e.span = tokens[start]?.elim .nowhere Token.span) := by
  have hregular := BlockPolicy.regular_of_mem_all hpolicy
  refine ⟨fun close => BlockPolicy.close_eq_ok_iff_matches hregular,
    fun close other hclose hother => ?_,
    fun hnone => ⟨_, BlockPolicy.close_eq_error_of_not_matches hregular hnone, ?_⟩⟩
  · rw [← BlockPolicy.close_eq_ok_iff_matches hregular] at hclose hother
    exact Except.ok.inj (hclose.symm.trans hother)
  · unfold BlockPolicy.unterminated
    cases tokens[start]? <;> exact ⟨rfl, rfl, rfl, rfl⟩

/-- The tokens of `if if else end elif`. -/
def nestedClauses : Array Token :=
  #[⟨.keyword .ifClause, "if", ⟨1, 0⟩⟩, ⟨.keyword .ifClause, "if", ⟨1, 3⟩⟩,
    ⟨.keyword .elseClause, "else", ⟨1, 6⟩⟩, ⟨.keyword .endBlock, "end", ⟨1, 11⟩⟩,
    ⟨.keyword .elifClause, "elif", ⟨1, 15⟩⟩]

/-- The first `if` ends at `elif`, and nowhere else, since `else` and `end` belong to the second
one.  The `elif` itself has no end. -/
theorem close_matches_brackets_nestedClauses :
    BlockPolicy.conditional ∈ BlockPolicy.all ∧
    BlockPolicy.conditional.Matches nestedClauses 0 ⟨4, .elifClause⟩ ∧
    (∀ close, BlockPolicy.conditional.Matches nestedClauses 0 close → close = ⟨4, .elifClause⟩) ∧
    ∃ e, BlockPolicy.conditional.close nestedClauses 4 = .error e ∧
      e.message = "unterminated `elif` block" ∧ e.span = ⟨1, 15⟩ := by
  have hmem : BlockPolicy.conditional ∈ BlockPolicy.all := by decide
  have hfirst : BlockPolicy.conditional.scan nestedClauses 1 0 = some ⟨4, .elifClause⟩ := by
    decide +kernel
  have hlast : BlockPolicy.conditional.scan nestedClauses 5 0 = none := by decide +kernel
  obtain ⟨hclose, hunique, -⟩ := close_matches_brackets hmem nestedClauses 0
  obtain ⟨hopen, -, herror⟩ := close_matches_brackets hmem nestedClauses 4
  have hmatches := (hclose _).1 (BlockPolicy.close_eq_ok_iff.2 hfirst)
  refine ⟨hmem, hmatches, fun close h => hunique _ _ h hmatches, ?_⟩
  have hnone : ∀ close, ¬BlockPolicy.conditional.Matches nestedClauses 4 close := by
    intro close h
    have hscan := BlockPolicy.close_eq_ok_iff.1 ((hopen close).2 h)
    rw [hlast] at hscan
    cases hscan
  obtain ⟨e, he, -, hmessage, -, hspan⟩ := herror hnone
  exact ⟨e, he, hmessage, hspan⟩

end TokenScript
