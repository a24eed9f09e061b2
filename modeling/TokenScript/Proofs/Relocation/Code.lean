import TokenScript.Proofs.Conduct
import TokenScript.Proofs.Relocation.Placeless

/-!
# Code inside other code

`Relocated whole offset code other` says that the tokens of `code` stand in `other` from `offset`
on, with other places.  Behind them `other` ends; if it need not be the `whole` rest of `other`, a
line end may follow instead, and then anything.

Execution looks at tokens in three ways: at a single one, along an expression, and along a block.
Each of them finds the same in `code` and in `other`, with all indices moved by `offset`.  A line
end stops every expression, so an expression at the end of `code` does not run on into what follows.
A scan for the end of a block does run on, but then it has found no end in `code`.

* `Relocated.exists_token`: a single token.
* `Relocated.endFrom_eq`, `Relocated.evaluateFrom_eq`: expressions.
* `Relocated.close_eq`, `Relocated.exists_close_error`: blocks.
-/

namespace TokenScript

namespace Token

/-- The token at another place. -/
def movedTo (t : Token) (place : Span) : Token := { t with span := place }

@[simp] theorem kind_movedTo (t : Token) (place : Span) : (t.movedTo place).kind = t.kind := rfl

@[simp] theorem keyword?_movedTo (t : Token) (place : Span) :
    (t.movedTo place).keyword? = t.keyword? := rfl

@[simp] theorem identifier?_movedTo (t : Token) (place : Span) :
    (t.movedTo place).identifier? = t.identifier? := rfl

@[simp] theorem isValueBearing_movedTo (t : Token) (place : Span) :
    (t.movedTo place).isValueBearing = t.isValueBearing := rfl

theorem exists_movedTo {t u : Token} (h : u.shape = t.shape) : ∃ place, u = t.movedTo place := by
  obtain ⟨hkind, hlexeme⟩ := Prod.mk.inj h
  exact ⟨u.span, by rw [movedTo, ← hkind, ← hlexeme]⟩

end Token

/-- The tokens of the code without their places. -/
def Code.shapes (code : Code) : List (TokenKind × String) := code.tokens.toList.map Token.shape

/-- The close at a moved index. -/
def BlockPolicy.Close.moved (offset : Nat) (found : BlockPolicy.Close) : BlockPolicy.Close :=
  { found with index := found.index + offset }

/-- The tokens of `code` stand in `other` from `offset` on; behind them `other` ends or, unless they
are the whole rest, goes on with a line end. -/
structure Relocated (whole : Prop) (offset : Nat) (code other : Code) : Prop where
  shape : ∀ index < code.size,
    (other.tokens[index + offset]?).map Token.shape = (code.tokens[index]?).map Token.shape
  ending : other.size = code.size + offset ∨
    ¬whole ∧ ∃ t, other.tokens[code.size + offset]? = some t ∧ t.kind = .newline

namespace Relocated

variable {whole : Prop} {offset : Nat} {code other : Code}

/-- Code with the same tokens up to places. -/
theorem of_shapes (h : code.shapes = other.shapes) : Relocated whole 0 code other := by
  have hget : ∀ index : Nat,
      (other.tokens[index]?).map Token.shape = (code.tokens[index]?).map Token.shape := by
    intro index
    have hindex := congrArg (·[index]?) h
    simpa [Code.shapes] using hindex.symm
  have hsize : other.size = code.size := by
    have hlength := congrArg List.length h
    simpa [Code.shapes, Code.size] using hlength.symm
  exact ⟨fun index _ => hget index, Or.inl hsize⟩

theorem size_le (h : Relocated whole offset code other) : code.size + offset ≤ other.size := by
  rcases h.ending with hsize | ⟨-, t, ht, -⟩
  · exact Nat.le_of_eq hsize.symm
  · exact Nat.le_of_lt (Array.getElem?_eq_some_iff.1 ht).1

/-- A token of the code, in the other code. -/
theorem exists_token (h : Relocated whole offset code other) {index : Nat} {t : Token}
    (ht : code.tokens[index]? = some t) :
    ∃ place, other.tokens[index + offset]? = some (t.movedTo place) := by
  have hlt : index < code.size := (Array.getElem?_eq_some_iff.1 ht).1
  have hshape := h.shape index hlt
  rw [ht, Option.map_some] at hshape
  obtain ⟨u, hu, hshape⟩ := Option.map_eq_some_iff.1 hshape
  obtain ⟨place, rfl⟩ := Token.exists_movedTo hshape
  exact ⟨place, hu⟩

theorem exists_getElem (h : Relocated whole offset code other) {index : Nat}
    (hlt : index < code.tokens.size) :
    ∃ (hlt' : index + offset < other.tokens.size) (place : Span),
      other.tokens[index + offset] = code.tokens[index].movedTo place := by
  obtain ⟨place, hother⟩ := h.exists_token (Array.getElem?_eq_getElem hlt)
  obtain ⟨hlt', htoken⟩ := Array.getElem?_eq_some_iff.1 hother
  exact ⟨hlt', place, htoken⟩

/-- Where the code has ended, so has the other code, if nothing follows. -/
theorem none_or (h : Relocated whole offset code other) {index : Nat}
    (hnone : code.tokens[index]? = none) : other.tokens[index + offset]? = none ∨ ¬whole := by
  have hle : code.size ≤ index := Array.getElem?_eq_none_iff.1 hnone
  rcases h.ending with hsize | ⟨hopen, -⟩
  · exact Or.inl (Array.getElem?_eq_none_iff.2 (by change other.size ≤ _; omega))
  · exact Or.inr hopen

/-- At the end of the code nothing stands in the other code, or a line end. -/
theorem ends (h : Relocated whole offset code other) :
    other.tokens[code.size + offset]? = none ∨
      ∃ t, other.tokens[code.size + offset]? = some t ∧ t.kind = .newline := by
  rcases h.ending with hsize | ⟨-, hnewline⟩
  · exact Or.inl (Array.getElem?_eq_none_iff.2 (Nat.le_of_eq hsize))
  · exact Or.inr hnewline

/-! ## Expressions -/

/-- An expression ends at the same token, or with the code. -/
theorem endFrom_eq (h : Relocated whole offset code other) {start place : Nat}
    (hplace : place = start + offset) (hstart : start ≤ code.size) :
    Expression.endFrom other.tokens place = Expression.endFrom code.tokens start + offset := by
  subst hplace
  have hsize := h.size_le
  fun_induction Expression.endFrom code.tokens start with
  | case1 start hlt hbearing ih =>
    obtain ⟨hlt', place, htoken⟩ := h.exists_getElem hlt
    rw [Expression.endFrom, dif_pos hlt', htoken, Token.isValueBearing_movedTo, if_pos hbearing,
      ← ih hlt]
    congr 1
    omega
  | case2 start hlt hbearing =>
    obtain ⟨hlt', place, htoken⟩ := h.exists_getElem hlt
    rw [Expression.endFrom, dif_pos hlt', htoken, Token.isValueBearing_movedTo, if_neg hbearing]
  | case3 start hge =>
    obtain rfl : start = code.size := Nat.le_antisymm hstart (Nat.le_of_not_lt hge)
    change _ = code.size + offset
    rcases h.ends with hnone | ⟨t, ht, hkind⟩
    · have hle : other.tokens.size ≤ code.size + offset := Array.getElem?_eq_none_iff.1 hnone
      rw [Expression.endFrom, dif_neg (Nat.not_lt.2 hle)]
      exact Nat.le_antisymm hle hsize
    · obtain ⟨hlt', rfl⟩ := Array.getElem?_eq_some_iff.1 ht
      rw [Expression.endFrom, dif_pos hlt', if_neg (by simp [Token.isValueBearing, hkind])]

/-- A stretch of the code. -/
theorem shapes_extract (h : Relocated whole offset code other) (start : Nat) {stop : Nat}
    (hstop : stop ≤ code.size) :
    (code.tokens.extract start stop).toList.map Token.shape =
      (other.tokens.extract (start + offset) (stop + offset)).toList.map Token.shape := by
  have hsize := h.size_le
  have hcode : code.tokens.size = code.size := rfl
  have hother : other.tokens.size = other.size := rfl
  refine List.ext_getElem? fun index => ?_
  simp only [List.getElem?_map, Array.getElem?_toList, Array.getElem?_extract]
  by_cases hindex : start + index < stop
  · rw [if_pos (by omega), if_pos (by omega)]
    have hshape := h.shape (start + index) (by omega)
    rw [← hshape]
    congr 2
    omega
  · rw [if_neg (by omega), if_neg (by omega)]

/-- An expression has the same value, or fails for the same cause. -/
theorem evaluateFrom_eq (h : Relocated whole offset code other) {start place : Nat}
    (hplace : place = start + offset) (hstart : start ≤ code.size) (store : Store) :
    (Expression.evaluateFrom other.tokens place store).mapError Failure.cause =
      (Expression.evaluateFrom code.tokens start store).mapError Failure.cause := by
  refine (Expression.evaluate_congr ?_ store).symm
  rw [Expression.runFrom, Expression.runFrom, h.endFrom_eq hplace hstart, hplace]
  exact h.shapes_extract start (Expression.endFrom_le code.tokens start)

/-! ## Blocks -/

/-- A scan finds the same close; or it finds none, and something follows the code. -/
theorem scan_eq (h : Relocated whole offset code other) (policy : BlockPolicy) (index depth : Nat) :
    policy.scan other.tokens (index + offset) depth =
        (policy.scan code.tokens index depth).map (BlockPolicy.Close.moved offset) ∨
      ¬whole ∧ policy.scan code.tokens index depth = none := by
  have hstep : ∀ index, index + offset + 1 = index + 1 + offset := by omega
  fun_induction policy.scan code.tokens index depth with
  | case1 index depth hlt hword ih =>
    obtain ⟨hlt', place, htoken⟩ := h.exists_getElem hlt
    rw [BlockPolicy.scan, dif_pos hlt', htoken, Token.keyword?_movedTo, hword, hstep]
    exact ih
  | case2 index depth hlt word hword hopener ih =>
    obtain ⟨hlt', place, htoken⟩ := h.exists_getElem hlt
    rw [BlockPolicy.scan, dif_pos hlt', htoken, Token.keyword?_movedTo, hword, hstep]
    simp only [if_pos hopener]
    exact ih
  | case3 index depth hlt word hword hopener hstop =>
    obtain ⟨hlt', place, htoken⟩ := h.exists_getElem hlt
    rw [BlockPolicy.scan, dif_pos hlt', htoken, Token.keyword?_movedTo, hword]
    simp only [if_neg hopener, if_pos hstop]
    exact Or.inl rfl
  | case4 index depth hlt word hword hopener hstop hclose ih =>
    obtain ⟨hlt', place, htoken⟩ := h.exists_getElem hlt
    rw [BlockPolicy.scan, dif_pos hlt', htoken, Token.keyword?_movedTo, hword, hstep]
    simp only [if_neg hopener, if_neg hstop, if_pos hclose]
    exact ih
  | case5 index depth hlt word hword hopener hstop hclose ih =>
    obtain ⟨hlt', place, htoken⟩ := h.exists_getElem hlt
    rw [BlockPolicy.scan, dif_pos hlt', htoken, Token.keyword?_movedTo, hword, hstep]
    simp only [if_neg hopener, if_neg hstop, if_neg hclose]
    exact ih
  | case6 index depth hge =>
    rcases h.none_or (Array.getElem?_eq_none_iff.2 (Nat.le_of_not_lt hge)) with hnone | hopen
    · have hge' : ¬index + offset < other.tokens.size :=
        Nat.not_lt.2 (Array.getElem?_eq_none_iff.1 hnone)
      rw [BlockPolicy.scan, dif_neg hge']
      exact Or.inl rfl
    · exact Or.inr ⟨hopen, rfl⟩

/-- A block that has an end in the code has the same one in the other code. -/
theorem close_eq (h : Relocated whole offset code other) {policy : BlockPolicy} {start : Nat}
    {found : BlockPolicy.Close} (hclose : policy.close code.tokens start = .ok found) :
    policy.close other.tokens (start + offset) = .ok (found.moved offset) := by
  have hscan := BlockPolicy.scan_of_close hclose
  have hstep : start + offset + 1 = start + 1 + offset := by omega
  rcases h.scan_eq policy (start + 1) 0 with heq | ⟨-, hnone⟩
  · rw [BlockPolicy.close, hstep, heq, hscan]
    rfl
  · rw [hscan] at hnone
    cases hnone

/-- A block that has no end in the code has none in the other code either, if nothing follows. -/
theorem exists_close_error (h : Relocated whole offset code other) {policy : BlockPolicy}
    {start : Nat} {e : Error} (hclose : policy.close code.tokens start = .error e)
    (hwhole : whole) :
    ∃ d, policy.close other.tokens (start + offset) = .error d ∧ d.cause = e.cause := by
  have hstep : start + offset + 1 = start + 1 + offset := by omega
  have hscan : policy.scan code.tokens (start + 1) 0 = none := by
    cases hscan : policy.scan code.tokens (start + 1) 0 with
    | none => rfl
    | some found => rw [BlockPolicy.close, hscan] at hclose; cases hclose
  obtain heq | ⟨hopen, -⟩ := h.scan_eq policy (start + 1) 0
  · rw [hscan, Option.map_none] at heq
    rw [BlockPolicy.close, hscan] at hclose
    obtain rfl := Except.error.inj hclose
    refine ⟨policy.unterminated other.tokens (start + offset), ?_, ?_⟩
    · rw [BlockPolicy.close, hstep, heq]
    · unfold BlockPolicy.unterminated
      cases ht : code.tokens[start]? with
      | some t =>
        obtain ⟨place, hother⟩ := h.exists_token ht
        rw [hother]
        rfl
      | none =>
        rw [(h.none_or ht).resolve_right (not_not_intro hwhole)]
  · exact absurd hwhole hopen

end Relocated
end TokenScript
