import Std.Data.TreeMap
import TokenScript.Token

/-!
# Code and functions

`Code` is a stretch of tokens that can be executed: a program, or the body of a function.  Every
stretch lies at an address, and what is found out about a stretch is filed under its address.  No
two stretches that can be executed lie at the same one, even if their tokens are equal; but a body
that is stored may be placed where one lay that is gone.

A `FunctionTable` maps names to bodies.  Storing a body places it where nothing lies that can still
be executed: neither the program, nor another body of the table, nor a body that was replaced in the
table while a call of it is under way.  Which of the free addresses it gets is not for the table to
say; a `Placement` makes the choice.  That addresses tell bodies apart is part of the type: a table
in which two functions share an address, or a function lies where programs do, cannot be built.
-/

namespace TokenScript

/-- A stretch of tokens that can be executed. -/
structure Code where
  address : Nat
  tokens : Array Token
  deriving DecidableEq

namespace Code

/-- A program; no body lies at its address. -/
def program (tokens : Array Token) : Code := ⟨0, tokens⟩

/-- The number of tokens. -/
def size (code : Code) : Nat := code.tokens.size

end Code

/-- How bodies are placed.  The choice may depend on how many bodies were placed before and on the
addresses in use, and all that is known of it is that these are avoided. -/
structure Placement where
  choose : Nat → List Nat → Nat
  choose_not_mem : ∀ (placed : Nat) (used : List Nat), choose placed used ∉ used

namespace Placement

/-- The lowest address from `least` on that is not in use. -/
def lowestFrom (least : Nat) (used : List Nat) : Nat :=
  if least ∈ used then lowestFrom (least + 1) (used.erase least) else least
termination_by used.length
decreasing_by
  rw [List.length_erase_of_mem ‹least ∈ used›]
  have hpos := List.length_pos_of_mem ‹least ∈ used›
  omega

theorem le_lowestFrom (least : Nat) (used : List Nat) : least ≤ lowestFrom least used := by
  fun_induction lowestFrom least used with
  | case1 least used _ ih => omega
  | case2 least used _ => exact Nat.le_refl least

theorem lowestFrom_not_mem (least : Nat) (used : List Nat) : lowestFrom least used ∉ used := by
  fun_induction lowestFrom least used with
  | case1 least used _ ih =>
    intro hmem
    have hlt : least < lowestFrom (least + 1) (used.erase least) := le_lowestFrom _ _
    exact ih ((List.mem_erase_of_ne (Nat.ne_of_gt hlt)).2 hmem)
  | case2 least used hfree => exact hfree

/-- Bodies are placed as low as possible, so addresses are given again as soon as they are free. -/
def lowest : Placement where
  choose _ used := lowestFrom 0 used
  choose_not_mem _ used := lowestFrom_not_mem 0 used

instance : Inhabited Placement := ⟨lowest⟩

end Placement

/-- The functions of a script, and how their bodies are placed. -/
structure FunctionTable where
  bodies : Std.TreeMap String Code
  placement : Placement
  /-- How many bodies were placed so far. -/
  placed : Nat
  /-- No body lies where programs do. -/
  aside : ∀ (name : String) (code : Code), bodies[name]? = some code → code.address ≠ 0
  /-- No two functions share an address. -/
  distinct : ∀ (name other : String) (code another : Code), bodies[name]? = some code →
    bodies[other]? = some another → code.address = another.address → name = other

namespace FunctionTable

/-- A table without functions. -/
def empty : FunctionTable where
  bodies := ∅
  placement := .lowest
  placed := 0
  aside := by simp
  distinct := by simp

instance : EmptyCollection FunctionTable := ⟨empty⟩

instance : Inhabited FunctionTable := ⟨∅⟩

/-- The body of a function. -/
def get? (table : FunctionTable) (name : String) : Option Code := table.bodies[name]?

/-- The body that a name has after a store: the new one, or the one it had. -/
theorem stored_cases {bodies : Std.TreeMap String Code} {name other : String} {body code : Code}
    (h : (bodies.insert name body)[other]? = some code) :
    name = other ∧ code = body ∨ name ≠ other ∧ bodies[other]? = some code := by
  rw [Std.TreeMap.getElem?_insert] at h
  split at h
  · next hname =>
    exact Or.inl ⟨Std.LawfulEqCmp.eq_of_compare hname, (Option.some.inj h).symm⟩
  · next hname =>
    refine Or.inr ⟨fun heq => hname ?_, h⟩
    subst heq
    exact Std.ReflCmp.compare_self

/-- The addresses of the bodies. -/
def addresses (table : FunctionTable) : List Nat :=
  table.bodies.toList.map fun entry => entry.2.address

theorem address_mem_addresses {table : FunctionTable} {name : String} {code : Code}
    (h : table.bodies[name]? = some code) : code.address ∈ table.addresses :=
  List.mem_map_of_mem (Std.TreeMap.mem_toList_iff_getElem?_eq_some.2 h)

/-- Where the next body is placed, if the addresses in `held` are in use by calls. -/
def nextAddress (table : FunctionTable) (held : List Nat) : Nat :=
  table.placement.choose table.placed (0 :: (held ++ table.addresses))

theorem nextAddress_not_mem (table : FunctionTable) (held : List Nat) :
    table.nextAddress held ∉ 0 :: (held ++ table.addresses) :=
  table.placement.choose_not_mem _ _

theorem nextAddress_ne {table : FunctionTable} {name : String} {code : Code}
    (h : table.bodies[name]? = some code) (held : List Nat) :
    table.nextAddress held ≠ code.address := by
  intro heq
  have hmem : code.address ∈ 0 :: (held ++ table.addresses) :=
    List.mem_cons_of_mem 0 (List.mem_append_right held (address_mem_addresses h))
  exact table.nextAddress_not_mem held (heq ▸ hmem)

/-- Stores a body, replacing any other of that name, while calls are under way that use the bodies
at the addresses in `held`. -/
def define (table : FunctionTable) (name : String) (body : Array Token) (held : List Nat) :
    FunctionTable where
  bodies := table.bodies.insert name ⟨table.nextAddress held, body⟩
  placement := table.placement
  placed := table.placed + 1
  aside other code h := by
    obtain ⟨-, rfl⟩ | ⟨-, hold⟩ := stored_cases h
    · intro hzero
      exact table.nextAddress_not_mem held (hzero ▸ List.mem_cons_self)
    · exact table.aside other code hold
  distinct first second code another h₁ h₂ haddress := by
    obtain ⟨rfl, rfl⟩ | ⟨-, hold₁⟩ := stored_cases h₁ <;>
      obtain ⟨rfl, rfl⟩ | ⟨-, hold₂⟩ := stored_cases h₂
    · rfl
    · exact absurd haddress (nextAddress_ne hold₂ held)
    · exact absurd haddress.symm (nextAddress_ne hold₁ held)
    · exact table.distinct first second code another hold₁ hold₂ haddress

/-- The number of functions. -/
def size (table : FunctionTable) : Nat := table.bodies.size

@[simp] theorem get?_empty (name : String) : (∅ : FunctionTable).get? name = none := by
  change (∅ : Std.TreeMap String Code)[name]? = none
  simp

@[simp] theorem get?_define_self (table : FunctionTable) (name : String) (body : Array Token)
    (held : List Nat) :
    (table.define name body held).get? name = some ⟨table.nextAddress held, body⟩ := by
  simp [get?, define]

theorem get?_define_of_ne (table : FunctionTable) {name other : String} (body : Array Token)
    (held : List Nat) (h : name ≠ other) :
    (table.define name body held).get? other = table.get? other := by
  simp [get?, define, Std.TreeMap.getElem?_insert, h]

end FunctionTable
end TokenScript
