import Mathlib.Data.List.Basic
import TokenScript.FunctionTable
import TokenScript.Expression
import TokenScript.Block
import TokenScript.Proofs.Program.Syntax

/-!
# Where the parts of a program stand

`Holds code index tokens` says that the tokens stand in the code from an index on.  From that follow
the two things that execution finds out by looking at tokens one by one: where an expression ends,
and where a block ends.

A scan for the end of a block passes over the tokens of every tree without stopping, because the
tokens of a tree are balanced: `scan_block`.  Inside `if`, `while` and `for` the scans for an `end`
are one level deeper, inside `func` the scans for a `leave` are; `BlockPolicy.inBlock` and
`BlockPolicy.inFunction` say so for all four policies at once, which makes it one induction.
-/

namespace TokenScript

/-- The tokens stand in the code from an index on. -/
def Code.Holds (code : Code) : Nat → List Token → Prop
  | _, [] => True
  | index, t :: tokens => code.tokens[index]? = some t ∧ code.Holds (index + 1) tokens

namespace Code.Holds

variable {code : Code} {index : Nat} {t : Token} {tokens first second : List Token}

@[simp] theorem nil_iff : code.Holds index [] ↔ True := Iff.rfl

@[simp] theorem cons_iff :
    code.Holds index (t :: tokens) ↔ code.tokens[index]? = some t ∧ code.Holds (index + 1) tokens :=
  Iff.rfl

@[simp] theorem append_iff :
    code.Holds index (first ++ second) ↔
      code.Holds index first ∧ code.Holds (index + first.length) second := by
  induction first generalizing index with
  | nil => simp
  | cons t first ih =>
    have hlength : index + 1 + first.length = index + (first.length + 1) := by omega
    simp only [List.cons_append, cons_iff, ih, List.length_cons, hlength, and_assoc]

/-- The tokens are those between two indices. -/
theorem extract_eq (h : code.Holds index tokens) :
    (code.tokens.extract index (index + tokens.length)).toList = tokens := by
  induction tokens generalizing index with
  | nil => simp
  | cons t tokens ih =>
    obtain ⟨hlt, ht⟩ := Array.getElem?_eq_some_iff.1 h.1
    have hrest := ih h.2
    rw [Array.toList_extract, List.extract_eq_take_drop] at hrest ⊢
    have hlength : index + (t :: tokens).length - index = tokens.length + 1 := by
      simp
    have hlength' : index + 1 + tokens.length - (index + 1) = tokens.length := by
      omega
    rw [hlength'] at hrest
    rw [hlength, List.drop_eq_getElem_cons (by simpa using hlt), List.take_succ_cons, hrest,
      Array.getElem_toList, ht]

/-- The tokens behind the first ones of the code. -/
theorem of_toList (before : List Token) (h : code.tokens.toList = before ++ tokens) :
    code.Holds before.length tokens := by
  induction tokens generalizing before with
  | nil => trivial
  | cons t tokens ih =>
    constructor
    · rw [← Array.getElem?_toList, h, List.getElem?_append_right (Nat.le_refl _), Nat.sub_self,
        List.getElem?_cons_zero]
    · have hnext := ih (before ++ [t]) (by rw [h, List.append_assoc, List.singleton_append])
      rwa [List.length_append, List.length_singleton] at hnext

end Code.Holds

/-! ## Expressions -/

namespace Expression

/-- An expression ends at the first token that can be part of none. -/
theorem endFrom_eq {code : Code} {start : Nat} {run : List Token} {t : Token}
    (hrun : code.Holds start run) (hbearing : ∀ u ∈ run, u.isValueBearing = true)
    (ht : code.tokens[start + run.length]? = some t) (hend : t.isValueBearing = false) :
    endFrom code.tokens start = start + run.length := by
  induction run generalizing start with
  | nil =>
    obtain ⟨hlt, rfl⟩ := Array.getElem?_eq_some_iff.1 ht
    rw [endFrom]
    simp only [List.length_nil, Nat.add_zero] at hlt hend ⊢
    simp [hlt, hend]
  | cons u run ih =>
    obtain ⟨hlt, hu⟩ := Array.getElem?_eq_some_iff.1 hrun.1
    have hlength : start + 1 + run.length = start + (u :: run).length := by
      simp only [List.length_cons]
      omega
    rw [endFrom, dif_pos hlt, hu, if_pos (hbearing u List.mem_cons_self),
      ih hrun.2 (fun v hv => hbearing v (List.mem_cons_of_mem u hv)) (by rw [hlength]; exact ht),
      hlength]

/-- The expression at an index, when what comes after it can be part of none. -/
theorem runFrom_eq {code : Code} {start : Nat} {run : List Token} {t : Token}
    (hrun : code.Holds start run) (hbearing : ∀ u ∈ run, u.isValueBearing = true)
    (ht : code.tokens[start + run.length]? = some t) (hend : t.isValueBearing = false) :
    runFrom code.tokens start = run := by
  rw [runFrom, endFrom_eq hrun hbearing ht hend, hrun.extract_eq]

end Expression

/-! ## Scans -/

namespace BlockPolicy

/-- The policies of the language. -/
def all : List BlockPolicy := [conditional, loop, elseClause, function]

/-- How many blocks are open for a scan inside `if`, `while` and `for`. -/
def inBlock (policy : BlockPolicy) (depth : Nat) : Nat :=
  if .ifClause ∈ policy.openers then depth + 1 else depth

/-- How many blocks are open for a scan inside `func`. -/
def inFunction (policy : BlockPolicy) (depth : Nat) : Nat :=
  if .func ∈ policy.openers then depth + 1 else depth

variable {policy : BlockPolicy} {tokens : Array Token} {index depth : Nat} {t : Token}
  {word : Keyword}

theorem scan_of_not_keyword (ht : tokens[index]? = some t) (hword : t.keyword? = none) :
    policy.scan tokens index depth = policy.scan tokens (index + 1) depth := by
  obtain ⟨hlt, rfl⟩ := Array.getElem?_eq_some_iff.1 ht
  rw [scan, dif_pos hlt, hword]

/-- A scan at a reserved word. -/
theorem scan_of_keyword (ht : tokens[index]? = some t) (hword : t.keyword? = some word) :
    policy.scan tokens index depth =
      if word ∈ policy.openers then policy.scan tokens (index + 1) (depth + 1)
      else if depth = 0 ∧ word ∈ policy.stops then some ⟨index, word⟩
      else if word = policy.nestedClose ∧ 0 < depth then policy.scan tokens (index + 1) (depth - 1)
      else policy.scan tokens (index + 1) depth := by
  obtain ⟨hlt, rfl⟩ := Array.getElem?_eq_some_iff.1 ht
  rw [scan, dif_pos hlt, hword]

/-- Words that neither open nor end a block are passed over. -/
theorem scan_plain (hp : policy ∈ all) (ht : tokens[index]? = some t)
    (hword : t.keyword? = some word)
    (hplain : word ∈ [Keyword.print, .input, .exec, .exit, .inBound, .toBound]) :
    policy.scan tokens index depth = policy.scan tokens (index + 1) depth := by
  rw [scan_of_keyword ht hword]
  simp only [all, List.mem_cons, List.not_mem_nil, or_false] at hp hplain
  rcases hp with rfl | rfl | rfl | rfl <;>
    rcases hplain with rfl | rfl | rfl | rfl | rfl | rfl <;>
    simp [conditional, loop, elseClause, function, endOpeners]

theorem scan_opener (hp : policy ∈ all) (ht : tokens[index]? = some t)
    (hword : t.keyword? = some word) (hopener : word.opensBlock = true) :
    policy.scan tokens index depth = policy.scan tokens (index + 1) (policy.inBlock depth) := by
  rw [scan_of_keyword ht hword]
  rw [← mem_endOpeners_iff] at hopener
  simp only [all, endOpeners, List.mem_cons, List.not_mem_nil, or_false] at hp hopener
  rcases hp with rfl | rfl | rfl | rfl <;> rcases hopener with rfl | rfl | rfl <;>
    simp [conditional, loop, elseClause, function, endOpeners, inBlock]

theorem scan_func (hp : policy ∈ all) (ht : tokens[index]? = some t)
    (hword : t.keyword? = some .func) :
    policy.scan tokens index depth = policy.scan tokens (index + 1) (policy.inFunction depth) := by
  rw [scan_of_keyword ht hword]
  simp only [all, List.mem_cons, List.not_mem_nil, or_false] at hp
  rcases hp with rfl | rfl | rfl | rfl <;>
    simp [conditional, loop, elseClause, function, endOpeners, inFunction]

/-- Further clauses of a nested block are passed over. -/
theorem scan_clause (hp : policy ∈ all) (ht : tokens[index]? = some t)
    (hword : t.keyword? = some word) (hclause : word ∈ [Keyword.elifClause, .elseClause]) :
    policy.scan tokens index (policy.inBlock depth) =
      policy.scan tokens (index + 1) (policy.inBlock depth) := by
  rw [scan_of_keyword ht hword]
  simp only [all, List.mem_cons, List.not_mem_nil, or_false] at hp hclause
  rcases hp with rfl | rfl | rfl | rfl <;> rcases hclause with rfl | rfl <;>
    simp [conditional, loop, elseClause, function, endOpeners, inBlock]

theorem scan_end (hp : policy ∈ all) (ht : tokens[index]? = some t)
    (hword : t.keyword? = some .endBlock) :
    policy.scan tokens index (policy.inBlock depth) = policy.scan tokens (index + 1) depth := by
  rw [scan_of_keyword ht hword]
  simp only [all, List.mem_cons, List.not_mem_nil, or_false] at hp
  rcases hp with rfl | rfl | rfl | rfl <;>
    simp [conditional, loop, elseClause, function, endOpeners, inBlock]

theorem scan_leave (hp : policy ∈ all) (ht : tokens[index]? = some t)
    (hword : t.keyword? = some .leave) :
    policy.scan tokens index (policy.inFunction depth) = policy.scan tokens (index + 1) depth := by
  rw [scan_of_keyword ht hword]
  simp only [all, List.mem_cons, List.not_mem_nil, or_false] at hp
  rcases hp with rfl | rfl | rfl | rfl <;>
    simp [conditional, loop, elseClause, function, endOpeners, inFunction]

/-- A word that ends a block ends the scan, if no nested block is open. -/
theorem scan_stop (hp : policy ∈ all) (ht : tokens[index]? = some t)
    (hword : t.keyword? = some word) (hstop : word ∈ policy.stops) :
    policy.scan tokens index 0 = some ⟨index, word⟩ := by
  rw [scan_of_keyword ht hword]
  simp only [all, List.mem_cons, List.not_mem_nil, or_false] at hp
  rcases hp with rfl | rfl | rfl | rfl <;>
    simp only [conditional, loop, elseClause, function, List.mem_cons, List.not_mem_nil,
      or_false] at hstop
  · rcases hstop with rfl | rfl | rfl <;> simp [conditional, endOpeners]
  · rcases hstop with rfl | rfl <;> simp [loop, endOpeners]
  · rcases hstop with rfl | rfl | rfl <;> simp [elseClause, endOpeners]
  · subst hstop
    simp [function]

end BlockPolicy

namespace Program

open BlockPolicy

variable {policy : BlockPolicy} {code : Code} {index depth : Nat}

theorem keyword?_of_isValueBearing {t : Token} (h : t.isValueBearing = true) :
    t.keyword? = none := by
  unfold Token.isValueBearing at h
  unfold Token.keyword?
  split at h <;> simp_all

/-- A scan passes over an expression. -/
theorem scan_run {run : List Token} (h : code.Holds index run)
    (hbearing : ∀ t ∈ run, t.isValueBearing = true) :
    policy.scan code.tokens index depth =
      policy.scan code.tokens (index + run.length) depth := by
  induction run generalizing index with
  | nil => rfl
  | cons t run ih =>
    have ht := keyword?_of_isValueBearing (hbearing t List.mem_cons_self)
    rw [scan_of_not_keyword h.1 ht, ih h.2 fun u hu => hbearing u (List.mem_cons_of_mem t hu),
      List.length_cons]
    congr 1
    omega

mutual

/-- A scan passes over a statement. -/
theorem scan_statement (hp : policy ∈ BlockPolicy.all) : ∀ {index depth : Nat} (s : Statement),
    code.Holds index s.tokens →
      policy.scan code.tokens index depth = policy.scan code.tokens (index + s.tokens.length) depth
  | index, depth, .print word run, h => by
    simp only [Statement.tokens, Code.Holds.cons_iff] at h
    obtain ⟨hword, hrun⟩ := h
    rw [scan_plain hp hword rfl (by simp), scan_run hrun run.bearing]
    congr 1
    simp only [Statement.tokens, List.length_cons]
    omega
  | index, depth, .assign name sign run, h => by
    simp only [Statement.tokens, Code.Holds.cons_iff] at h
    obtain ⟨hname, hsign, hrun⟩ := h
    rw [scan_of_not_keyword hname rfl, scan_of_not_keyword hsign rfl, scan_run hrun run.bearing]
    congr 1
    simp only [Statement.tokens, List.length_cons]
    omega
  | index, depth, .input word name, h => by
    simp only [Statement.tokens, Code.Holds.cons_iff] at h
    obtain ⟨hword, hname, -⟩ := h
    rw [scan_plain hp hword rfl (by simp), scan_of_not_keyword hname rfl]
    rfl
  | index, depth, .exit word, h => by
    simp only [Statement.tokens, Code.Holds.cons_iff] at h
    rw [scan_plain hp h.1 rfl (by simp)]
    rfl
  | index, depth, .exec word name, h => by
    simp only [Statement.tokens, Code.Holds.cons_iff] at h
    obtain ⟨hword, hname, -⟩ := h
    rw [scan_plain hp hword rfl (by simp), scan_of_not_keyword hname rfl]
    rfl
  | index, depth, .call name, h => by
    simp only [Statement.tokens, Code.Holds.cons_iff] at h
    rw [scan_of_not_keyword h.1 rfl]
    rfl
  | index, depth, .branch word condition body branches, h => by
    simp only [Statement.tokens, Code.Holds.cons_iff, Code.Holds.append_iff] at h
    obtain ⟨hword, hcondition, hbody, hbranches⟩ := h
    rw [scan_opener hp hword rfl rfl, scan_run hcondition condition.bearing,
      scan_body hp body hbody, scan_branches hp branches hbranches]
    congr 1
    simp only [Statement.tokens, List.length_cons, List.length_append]
    omega
  | index, depth, .whileLoop word condition body ending, h => by
    simp only [Statement.tokens, Code.Holds.cons_iff, Code.Holds.append_iff] at h
    obtain ⟨hword, hcondition, hbody, hending⟩ := h
    rw [scan_opener hp hword rfl rfl, scan_run hcondition condition.bearing,
      scan_body hp body hbody, scan_ending hp ending hending]
    congr 1
    simp only [Statement.tokens, List.length_cons, List.length_append]
    omega
  | index, depth, .forLoop word name inWord first toWord last body ending, h => by
    simp only [Statement.tokens, Code.Holds.cons_iff, Code.Holds.append_iff] at h
    obtain ⟨hword, hname, hin, hfirst, hto, hlast, hbody, hending⟩ := h
    rw [scan_opener hp hword rfl rfl, scan_of_not_keyword hname rfl,
      scan_plain hp hin rfl (by simp), scan_run hfirst first.bearing,
      scan_plain hp hto rfl (by simp), scan_run hlast last.bearing, scan_body hp body hbody,
      scan_ending hp ending hending]
    congr 1
    simp only [Statement.tokens, List.length_cons, List.length_append]
    omega
  | index, depth, .func word name body leave, h => by
    simp only [Statement.tokens, Code.Holds.cons_iff, Code.Holds.append_iff] at h
    obtain ⟨hword, hname, hbody, hleave, -⟩ := h
    rw [scan_func hp hword rfl, scan_of_not_keyword hname rfl, scan_body hp body hbody,
      scan_leave hp hleave rfl]
    congr 1
    simp only [Statement.tokens, List.length_cons, List.length_append, List.length_nil]
    omega

/-- A scan passes over a block. -/
theorem scan_block (hp : policy ∈ BlockPolicy.all) : ∀ {index depth : Nat} (b : Block),
    code.Holds index b.tokens →
      policy.scan code.tokens index depth = policy.scan code.tokens (index + b.tokens.length) depth
  | _, _, .nil, _ => rfl
  | index, depth, .cons statement eol rest, h => by
    simp only [Block.tokens, Code.Holds.cons_iff, Code.Holds.append_iff] at h
    obtain ⟨hstatement, heol, hrest⟩ := h
    rw [scan_statement hp statement hstatement, scan_of_not_keyword heol rfl,
      scan_block hp rest hrest]
    congr 1
    simp only [Block.tokens, List.length_cons, List.length_append]
    omega

/-- A scan passes over a body. -/
theorem scan_body (hp : policy ∈ BlockPolicy.all) : ∀ {index depth : Nat} (b : Body),
    code.Holds index b.tokens →
      policy.scan code.tokens index depth = policy.scan code.tokens (index + b.tokens.length) depth
  | index, depth, .mk eol block, h => by
    simp only [Body.tokens, Code.Holds.cons_iff] at h
    rw [scan_of_not_keyword h.1 rfl, scan_block hp block h.2]
    congr 1
    simp only [Body.tokens, List.length_cons]
    omega

/-- A scan inside a nested block comes out of it at its ending. -/
theorem scan_ending (hp : policy ∈ BlockPolicy.all) : ∀ {index depth : Nat} (e : Ending),
    code.Holds index e.tokens →
      policy.scan code.tokens index (policy.inBlock depth) =
        policy.scan code.tokens (index + e.tokens.length) depth
  | index, depth, .close word, h => by
    simp only [Ending.tokens, Code.Holds.cons_iff] at h
    rw [scan_end hp h.1 rfl]
    rfl
  | index, depth, .otherwise word body close, h => by
    simp only [Ending.tokens, Code.Holds.cons_iff, Code.Holds.append_iff] at h
    obtain ⟨hword, hbody, hclose, -⟩ := h
    rw [scan_clause hp hword rfl (by simp), scan_body hp body hbody, scan_end hp hclose rfl]
    congr 1
    simp only [Ending.tokens, List.length_cons, List.length_append, List.length_nil]
    omega

/-- A scan inside a nested `if` comes out of it after its branches. -/
theorem scan_branches (hp : policy ∈ BlockPolicy.all) : ∀ {index depth : Nat} (b : Branches),
    code.Holds index b.tokens →
      policy.scan code.tokens index (policy.inBlock depth) =
        policy.scan code.tokens (index + b.tokens.length) depth
  | index, depth, .elif word condition body rest, h => by
    simp only [Branches.tokens, Code.Holds.cons_iff, Code.Holds.append_iff] at h
    obtain ⟨hword, hcondition, hbody, hrest⟩ := h
    rw [scan_clause hp hword rfl (by simp), scan_run hcondition condition.bearing,
      scan_body hp body hbody, scan_branches hp rest hrest]
    congr 1
    simp only [Branches.tokens, List.length_cons, List.length_append]
    omega
  | index, depth, .last ending, h => by
    simp only [Branches.tokens] at h ⊢
    exact scan_ending hp ending h

end

/-- The scan for the end of a body finds the word after it. -/
theorem scan_body_stop {t : Token} {word : Keyword} {body : Body} (hp : policy ∈ BlockPolicy.all)
    (hbody : code.Holds index body.tokens)
    (ht : code.tokens[index + body.tokens.length]? = some t) (hword : t.keyword? = some word)
    (hstop : word ∈ policy.stops) :
    policy.scan code.tokens index 0 = some ⟨index + body.tokens.length, word⟩ := by
  rw [scan_body hp body hbody, scan_stop hp ht hword hstop]

/-- The first word of an ending. -/
def Ending.word : Ending → Keyword
  | .close _ => .endBlock
  | .otherwise _ _ _ => .elseClause

/-- The first word of the branches after the first. -/
def Branches.word : Branches → Keyword
  | .elif _ _ _ _ => .elifClause
  | .last ending => ending.word

theorem holds_ending {ending : Ending} (h : code.Holds index ending.tokens) :
    ∃ t, code.tokens[index]? = some t ∧ t.keyword? = some ending.word := by
  cases ending with
  | close word => exact ⟨_, h.1, rfl⟩
  | otherwise word body close => exact ⟨_, h.1, rfl⟩

theorem holds_branches {branches : Branches} (h : code.Holds index branches.tokens) :
    ∃ t, code.tokens[index]? = some t ∧ t.keyword? = some branches.word := by
  cases branches with
  | elif word condition body rest => exact ⟨_, h.1, rfl⟩
  | last ending => exact holds_ending h

/-- A body starts with the line end of its header, which is part of no expression. -/
theorem holds_body {body : Body} (h : code.Holds index body.tokens) :
    ∃ t, code.tokens[index]? = some t ∧ t.isValueBearing = false := by
  cases body with
  | mk eol block => exact ⟨_, h.1, rfl⟩

theorem Ending.word_mem_loop (ending : Ending) : ending.word ∈ loop.stops := by
  cases ending <;> simp [Ending.word, loop]

theorem Branches.word_mem_conditional (branches : Branches) :
    branches.word ∈ conditional.stops := by
  cases branches with
  | elif word condition body rest => simp [Branches.word, conditional]
  | last ending => cases ending <;> simp [Branches.word, Ending.word, conditional]

end Program
end TokenScript
