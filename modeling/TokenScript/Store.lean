import Std.Data.TreeMap
import TokenScript.Value.Record

/-!
# Variables

All variables of a script are global.  A `Store` maps names to values and lists its entries in the
order of names, by code points, which is also the order of their UTF-8 bytes.
-/

namespace TokenScript

/-- The variables of a script. -/
structure Store where
  values : Std.TreeMap String Value

namespace Store

instance : EmptyCollection Store := ⟨⟨∅⟩⟩

instance : Inhabited Store := ⟨∅⟩

/-- The value of a variable. -/
def get? (store : Store) (name : String) : Option Value := store.values[name]?

/-- Gives a variable a value, whether it had one or not. -/
def assign (store : Store) (name : String) (value : Value) : Store :=
  ⟨store.values.insert name value⟩

/-- The number of variables. -/
def size (store : Store) : Nat := store.values.size

/-- The variables with their values, in the order of names. -/
def entries (store : Store) : List (String × Value) := store.values.toList

@[simp] theorem get?_empty (name : String) : (∅ : Store).get? name = none := by
  change (∅ : Std.TreeMap String Value)[name]? = none
  simp

@[simp] theorem get?_assign_self (store : Store) (name : String) (value : Value) :
    (store.assign name value).get? name = some value := by
  simp [get?, assign]

theorem get?_assign_of_ne (store : Store) {name other : String} (value : Value)
    (h : name ≠ other) : (store.assign name value).get? other = store.get? other := by
  simp [get?, assign, Std.TreeMap.getElem?_insert, h]

/-- The variables as a JSON list of pairs. -/
def record (store : Store) : String :=
  jsonList (store.entries.map fun entry => jsonList [Text.quote entry.1, entry.2.record])

end Store
end TokenScript
