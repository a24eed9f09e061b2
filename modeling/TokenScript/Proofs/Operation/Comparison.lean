import TokenScript.Proofs.Operation.Floats

/-!
# Comparison

There are two ways to compare values.  `==` and `!=` work for all of them, and tell kinds apart.
The four ordering operators find the order of two values first, and fail where there is none.  Both
treat a pair of integers on its own and every other pair of numbers as floats, so they agree about
which values are equal.

Among floats and integers that stand beside each other, equality is that of places, which is
transitive.  Two integers are compared exactly instead, so they can differ although both stand in
the place of one float.  It takes an integer beyond `2^53` to see that.

* `Value.ordering?`: the order of two values; `Value.order_eq_ok_iff`, `Value.equals_of_ordering?`:
  both ways to compare go by it.
* `comparisons_agree`: the two ways to compare agree.
* `Value.place?_eq_of_equals`, `Value.equals_of_place?_eq`: equality and places.
* `equality_transitive_up_to_rounding`, `equality_not_transitive`: how far equality is transitive.
-/

namespace TokenScript

namespace Value

/-! ## The order of two values -/

/-- Whether a value is a number, and not the undefined one. -/
def isNumber : Value → Bool
  | int _ => true
  | float x => !x.isNaN
  | _ => false

/-- Two values that scripts can order: texts, or numbers other than the undefined one. -/
def Orderable (left right : Value) : Prop :=
  (∃ s t, left = text s ∧ right = text t) ∨ left.isNumber = true ∧ right.isNumber = true

/-- Where a value stands among the numbers. -/
def place? (v : Value) : Option (Int × Int × Int) := v.number?.bind Floats.place?

/-- The order of two places, if there are two. -/
def orderPlaces? (p q : Option (Int × Int × Int)) : Option Ordering :=
  p.bind fun p => q.map (Unpacked.comparePlaces p)

/-- The order of two values, if they have one. -/
def ordering? (left right : Value) : Option Ordering :=
  match left, right with
  | int a, int b => some (compare a.toInt b.toInt)
  | text s, text t => some (compare s t)
  | _, _ => orderPlaces? left.place? right.place?

section

variable {p q : Option (Int × Int × Int)}

theorem orderPlaces?_swap (p q : Option (Int × Int × Int)) :
    orderPlaces? q p = (orderPlaces? p q).map Ordering.swap := by
  cases p <;> cases q <;> simp [orderPlaces?, Unpacked.comparePlaces_swap]

theorem isSome_orderPlaces? : (orderPlaces? p q).isSome = (p.isSome && q.isSome) := by
  cases p <;> cases q <;> rfl

end

/-- Numbers have places. -/
theorem isSome_place? (v : Value) : v.place?.isSome = v.isNumber := by
  cases v with
  | int n =>
    obtain ⟨p, hp⟩ := Floats.exists_place?_ofInt n
    show (Floats.place? (Float.ofInt n.toInt)).isSome = true
    rw [hp, Option.isSome_some]
  | float x =>
    show (Floats.place? x).isSome = !x.isNaN
    rw [Bool.eq_iff_iff, Option.isSome_iff_ne_none, ne_eq, Floats.place?_eq_none_iff,
      Bool.not_eq_true, Bool.not_eq_true']
  | text s => rfl
  | bool b => rfl
  | nothing => rfl

variable {left right : Value} {o : Ordering}

/-- Turning two values round turns their order round. -/
theorem ordering?_swap (left right : Value) :
    ordering? right left = (ordering? left right).map Ordering.swap := by
  cases left with
  | int a =>
    cases right with
    | int b => exact congrArg some (Int.compare_swap _ _).symm
    | _ => exact orderPlaces?_swap _ _
  | text s =>
    cases right with
    | text t => exact congrArg some Std.OrientedOrd.eq_swap
    | _ => exact orderPlaces?_swap _ _
  | _ => cases right <;> exact orderPlaces?_swap _ _

/-- Values that scripts can order have an order, and no others. -/
theorem isSome_ordering?_iff : (ordering? left right).isSome = true ↔ Orderable left right := by
  have hplaces : (orderPlaces? left.place? right.place?).isSome = true ↔
      left.isNumber = true ∧ right.isNumber = true := by
    rw [isSome_orderPlaces?, isSome_place?, isSome_place?, Bool.and_eq_true]
  cases left with
  | int a =>
    cases right with
    | int b => exact iff_of_true rfl (.inr ⟨rfl, rfl⟩)
    | _ => exact hplaces.trans ⟨.inr, fun h => h.resolve_left (by simp)⟩
  | text s =>
    cases right with
    | text t => exact iff_of_true rfl (.inl ⟨s, t, rfl, rfl⟩)
    | _ => exact hplaces.trans ⟨.inr, fun h => h.resolve_left (by simp)⟩
  | _ => cases right <;> exact hplaces.trans ⟨.inr, fun h => h.resolve_left (by simp)⟩

/-! ## The two ways to compare -/

/-- The ordering operators give the order of two values, and fail where they have none. -/
theorem order_eq_ok_iff (op : Operator) :
    order op left right = .ok o ↔ ordering? left right = some o := by
  have hfloats (x y : Float) : order op (float x) (float y) = .ok o ↔
      orderPlaces? (Floats.place? x) (Floats.place? y) = some o := by
    simp only [order, number?, Floats.orderOfFloats_eq, orderPlaces?]
    cases (Floats.place? x).bind fun p => (Floats.place? y).map (Unpacked.comparePlaces p) <;> simp
  have hok (c : Ordering) : (.ok c : Except EvaluationCause Ordering) = .ok o ↔
      some c = some o := by
    simp
  -- values of other kinds stand nowhere
  have hkinds (v w : Value) (h : v.place? = none ∨ w.place? = none) (cause : EvaluationCause) :
      (.error cause : Except EvaluationCause Ordering) = .ok o ↔
        orderPlaces? v.place? w.place? = some o := by
    rcases h with h | h <;> simp [h, orderPlaces?]
  cases left with
  | int a =>
    cases right with
    | int b => exact hok _
    | float y => exact hfloats _ _
    | _ => exact hkinds _ _ (.inr rfl) _
  | float x =>
    cases right with
    | int b | float b => exact hfloats _ _
    | _ => exact hkinds _ _ (.inr rfl) _
  | text s =>
    cases right with
    | text t => exact hok _
    | _ => exact hkinds _ _ (.inl rfl) _
  | _ => cases right <;> exact hkinds _ _ (.inl rfl) _

/-- Equality goes by the order of two values as well, where they have one. -/
theorem equals_of_ordering? (h : ordering? left right = some o) :
    left.equals right = (o == .eq) := by
  have hfloats (x y : Float) (h : orderPlaces? (Floats.place? x) (Floats.place? y) = some o) :
      (x == y) = (o == .eq) := by
    rw [Floats.beq_eq_compare, Unpacked.compare_eq_places]
    show (orderPlaces? (Floats.place? x) (Floats.place? y) == some .eq) = _
    rw [h]
    rfl
  cases left with
  | int a =>
    cases right with
    | int b =>
      obtain rfl := Option.some.inj h
      rw [Bool.eq_iff_iff, beq_iff_eq, Int.compare_eq_eq, Int64.toInt_inj]
      exact beq_iff_eq
    | float y => exact hfloats _ _ h
    | _ => simp [ordering?, orderPlaces?, place?, number?] at h
  | float x =>
    cases right with
    | int b | float b => exact hfloats _ _ h
    | _ => simp [ordering?, orderPlaces?, place?, number?] at h
  | text s =>
    cases right with
    | text t =>
      obtain rfl := Option.some.inj h
      rw [Bool.eq_iff_iff, beq_iff_eq, Std.compare_eq_iff_eq]
      exact beq_iff_eq
    | _ => simp [ordering?, orderPlaces?, place?, number?] at h
  | _ => simp [ordering?, orderPlaces?, place?, number?] at h

theorem equals_comm (left right : Value) : left.equals right = right.equals left := by
  have hfloats (x y : Float) : (x == y) = (y == x) := by
    rw [Bool.eq_iff_iff, Floats.beq_iff_place?, Floats.beq_iff_place?]
    exact exists_congr fun p => and_comm
  cases left with
  | int a =>
    cases right with
    | int b => exact Bool.beq_comm
    | float y => exact hfloats _ _
    | _ => rfl
  | float x =>
    cases right with
    | int b | float b => exact hfloats _ _
    | _ => rfl
  | text s =>
    cases right with
    | text t => exact Bool.beq_comm
    | _ => rfl
  | bool b =>
    cases right with
    | bool c => exact Bool.beq_comm
    | _ => rfl
  | nothing => cases right <;> rfl

/-! ## Operators -/

theorem orderable_comm : Orderable right left ↔ Orderable left right := by
  refine or_congr ⟨?_, ?_⟩ and_comm
  all_goals
    rintro ⟨s, t, hs, ht⟩
    exact ⟨t, s, ht, hs⟩

/-- The ordering operators succeed for values that can be ordered, and for no others. -/
theorem exists_apply_iff {op : Operator}
    (hop : op ∈ [Operator.less, .lessEqual, .greater, .greaterEqual]) :
    (∃ v, op.apply left right = .ok v) ↔ Orderable left right := by
  have hmap (f : Ordering → Value) :
      (∃ v, (order op left right).map f = .ok v) ↔ Orderable left right := by
    simp only [← isSome_ordering?_iff, Option.isSome_iff_exists, ← order_eq_ok_iff op]
    cases order op left right <;> simp [Except.map]
  simp only [List.mem_cons, List.not_mem_nil, or_false] at hop
  rcases hop with rfl | rfl | rfl | rfl <;> exact hmap _

/-- What an ordering operator makes of the order of two values. -/
theorem map_order (h : ordering? left right = some o) (op : Operator) (f : Ordering → Value) :
    (order op left right).map f = .ok (f o) := by
  rw [(order_eq_ok_iff op).2 h]
  rfl

/-! ## Equality by places -/

/-- A float equals what stands in its place. -/
theorem float_equals_iff {x : Float} {v : Value} :
    (float x).equals v = true ↔ ∃ p, Floats.place? x = some p ∧ v.place? = some p := by
  cases v with
  | int n | float n => exact Floats.beq_iff_place?
  | _ =>
    refine iff_of_false Bool.false_ne_true ?_
    rintro ⟨p, -, hp⟩
    cases hp

/-- Values that are no floats are equal only to themselves. -/
theorem equals_iff_eq {x y : Value} (hx : x.kind ≠ .float) (hy : y.kind ≠ .float) :
    x.equals y = true ↔ x = y := by
  -- a pair of one kind is compared by its contents, and no other pair is equal in either sense
  cases x with
  | float x => exact absurd rfl hx
  | int a =>
    cases y with
    | float y => exact absurd rfl hy
    | int b =>
      rw [int.injEq]
      exact beq_iff_eq
    | _ => exact iff_of_false Bool.false_ne_true nofun
  | text s =>
    cases y with
    | text t =>
      rw [text.injEq]
      exact beq_iff_eq
    | _ => exact iff_of_false Bool.false_ne_true nofun
  | bool b =>
    cases y with
    | bool c =>
      rw [bool.injEq]
      exact beq_iff_eq
    | _ => exact iff_of_false Bool.false_ne_true nofun
  | nothing =>
    cases y with
    | nothing => exact iff_of_true rfl rfl
    | _ => exact iff_of_false Bool.false_ne_true nofun

/-- Equal values stand in one place, or both stand nowhere. -/
theorem place?_eq_of_equals {x y : Value} (h : x.equals y = true) : x.place? = y.place? := by
  by_cases hx : x.kind = .float
  · cases x with
    | float x =>
      obtain ⟨p, hp, hq⟩ := float_equals_iff.1 h
      exact hp.trans hq.symm
    | _ => cases hx
  · by_cases hy : y.kind = .float
    · cases y with
      | float y =>
        rw [equals_comm] at h
        obtain ⟨p, hp, hq⟩ := float_equals_iff.1 h
        exact hq.trans hp.symm
      | _ => cases hy
    · rw [(equals_iff_eq hx hy).1 h]

theorem kind_eq_float_iff {v : Value} : v.kind = .float ↔ ∃ x, v = float x := by
  cases v <;> simp [kind]

/-- What stands in the place of a float equals everything that does, up to two different
integers. -/
theorem equals_of_place?_eq {x z : Value} {p : Int × Int × Int} (hx : x.place? = some p)
    (hz : z.place? = some p) : x.equals z = true ∨ ∃ a c, x = int a ∧ z = int c := by
  cases x with
  | float x => exact .inl (float_equals_iff.2 ⟨p, hx, hz⟩)
  | int a =>
    cases z with
    | float z =>
      rw [equals_comm]
      exact .inl (float_equals_iff.2 ⟨p, hz, hx⟩)
    | int c => exact .inr ⟨a, c, rfl, rfl⟩
    | _ => cases hz
  | _ => cases hx

/-- Different integers that stand in one place are not below `2^53`. -/
theorem two_pow_le_of_place?_eq {a c : Int64} (hne : a ≠ c) (h : (int a).place? = (int c).place?) :
    2 ^ 53 ≤ a.toInt.natAbs ∧ 2 ^ 53 ≤ c.toInt.natAbs := by
  refine ⟨Nat.le_of_not_lt fun ha => ?_, Nat.le_of_not_lt fun hc => ?_⟩
  · exact hne (Floats.eq_of_place?_ofInt_eq ha h)
  · exact hne (Floats.eq_of_place?_ofInt_eq hc h.symm).symm

end Value

/-! ## Results -/

/-- **The two ways to compare agree.**

* `!=` is the negation of `==`, and `==` does not care which side is which.
* The four ordering operators succeed for the same values, whichever side they are on: for two
  texts, and for two numbers neither of which is the undefined one.
* Where they succeed, exactly one of `<`, `==` and `>` holds, `<=` is the negation of `>`, `>=` that
  of `<`, and `<` on one side is `>` on the other. -/
theorem comparisons_agree (left right : Value) :
    (∃ e : Bool, Operator.apply .equal left right = .ok (.bool e) ∧
      Operator.apply .notEqual left right = .ok (.bool !e) ∧
      Operator.apply .equal right left = .ok (.bool e)) ∧
    (∀ op ∈ [Operator.less, .lessEqual, .greater, .greaterEqual],
      ((∃ v, op.apply left right = .ok v) ↔ left.Orderable right) ∧
      ((∃ v, op.apply right left = .ok v) ↔ left.Orderable right)) ∧
    (left.Orderable right → ∃ lt eq gt : Bool,
      Operator.apply .less left right = .ok (.bool lt) ∧
      Operator.apply .equal left right = .ok (.bool eq) ∧
      Operator.apply .greater left right = .ok (.bool gt) ∧
      [lt, eq, gt].count true = 1 ∧
      Operator.apply .lessEqual left right = .ok (.bool !gt) ∧
      Operator.apply .greaterEqual left right = .ok (.bool !lt) ∧
      Operator.apply .greater right left = .ok (.bool lt) ∧
      Operator.apply .less right left = .ok (.bool gt)) := by
  refine ⟨⟨left.equals right, rfl, rfl, ?_⟩, fun op hop => ?_, fun horderable => ?_⟩
  · rw [Value.equals_comm]
    rfl
  · exact ⟨Value.exists_apply_iff hop, (Value.exists_apply_iff hop).trans Value.orderable_comm⟩
  · obtain ⟨o, ho⟩ := Option.isSome_iff_exists.1 (Value.isSome_ordering?_iff.2 horderable)
    have hswap : Value.ordering? right left = some o.swap := by rw [Value.ordering?_swap, ho]; rfl
    have hequal : Operator.apply .equal left right = .ok (.bool (o == .eq)) := by
      rw [← Value.equals_of_ordering? ho]
      rfl
    refine ⟨o == .lt, o == .eq, o == .gt, Value.map_order ho _ _, hequal, Value.map_order ho _ _,
      ?_, Value.map_order ho _ _, Value.map_order ho _ _, (Value.map_order hswap _ _).trans ?_,
      (Value.map_order hswap _ _).trans ?_⟩ <;> cases o <;> rfl

/-- An integer is compared with a float next to it. -/
theorem comparisons_agree_rounded :
    (Value.int 9007199254740993).Orderable (.float 9007199254740992.0) ∧
    ∃ lt eq gt : Bool,
      Operator.apply .less (.int 9007199254740993) (.float 9007199254740992.0) = .ok (.bool lt) ∧
      Operator.apply .equal (.int 9007199254740993) (.float 9007199254740992.0) = .ok (.bool eq) ∧
      Operator.apply .greater (.int 9007199254740993) (.float 9007199254740992.0) = .ok (.bool gt) ∧
      [lt, eq, gt].count true = 1 := by
  have horderable : (Value.int 9007199254740993).Orderable (.float 9007199254740992.0) :=
    .inr ⟨rfl, by decide⟩
  obtain ⟨-, -, hcompare⟩ := comparisons_agree (.int 9007199254740993) (.float 9007199254740992.0)
  obtain ⟨lt, eq, gt, hlt, heq, hgt, hone, -⟩ := hcompare horderable
  exact ⟨horderable, lt, eq, gt, hlt, heq, hgt, hone⟩

/-- **Equality is transitive, up to rounding.**  If one value equals a second and that one a third,
then the first equals the third; unless the first and the third are different integers and the
second is a float that both are rounded to.  Then neither of the integers is below `2^53`, so two
different integers equal one float only from there on. -/
theorem equality_transitive_up_to_rounding {x y z : Value}
    (hxy : Operator.apply .equal x y = .ok (.bool true))
    (hyz : Operator.apply .equal y z = .ok (.bool true)) :
    Operator.apply .equal x z = .ok (.bool true) ∨
      ∃ (a c : Int64) (f : Float), x = .int a ∧ y = .float f ∧ z = .int c ∧ a ≠ c ∧
        2 ^ 53 ≤ a.toInt.natAbs ∧ 2 ^ 53 ≤ c.toInt.natAbs := by
  have happly (v w : Value) : Operator.apply .equal v w = .ok (.bool true) ↔ v.equals w = true := by
    simp [Operator.apply]
  rw [happly] at hxy hyz ⊢
  have hplaces : x.place? = z.place? :=
    (Value.place?_eq_of_equals hxy).trans (Value.place?_eq_of_equals hyz)
  by_cases hy : y.kind = .float
  · obtain ⟨f, rfl⟩ := Value.kind_eq_float_iff.1 hy
    obtain ⟨p, -, hz⟩ := Value.float_equals_iff.1 hyz
    rcases Value.equals_of_place?_eq (hplaces.trans hz) hz with hxz | ⟨a, c, rfl, rfl⟩
    · exact .inl hxz
    · by_cases hac : a = c
      · rw [hac]
        exact .inl (beq_self_eq_true c)
      · exact .inr ⟨a, c, f, rfl, rfl, rfl, hac, Value.two_pow_le_of_place?_eq hac hplaces⟩
  · by_cases hx : x.kind = .float
    · obtain ⟨g, rfl⟩ := Value.kind_eq_float_iff.1 hx
      obtain ⟨p, hp, -⟩ := Value.float_equals_iff.1 hxy
      exact .inl (Value.float_equals_iff.2 ⟨p, hp, hplaces.symm.trans hp⟩)
    · rw [(Value.equals_iff_eq hx hy).1 hxy]
      exact .inl hyz

/-- The two zeros equal the integer zero, and so each other. -/
theorem equality_transitive_up_to_rounding_zeros :
    Operator.apply .equal (.float (-0.0)) (.int 0) = .ok (.bool true) ∧
    Operator.apply .equal (.int 0) (.float 0.0) = .ok (.bool true) ∧
    Operator.apply .equal (.float (-0.0)) (.float 0.0) = .ok (.bool true) := by
  have hleft : Operator.apply .equal (.float (-0.0)) (.int 0) = .ok (.bool true) := by decide
  have hright : Operator.apply .equal (.int 0) (.float 0.0) = .ok (.bool true) := by decide
  refine ⟨hleft, hright, ?_⟩
  rcases equality_transitive_up_to_rounding hleft hright with hequal | ⟨a, c, f, hx, -⟩
  · exact hequal
  · cases hx

/-- Two integers of which one is beyond `2^53` equal one float, and not each other. -/
theorem equality_not_transitive :
    ¬∀ x y z : Value, Operator.apply .equal x y = .ok (.bool true) →
      Operator.apply .equal y z = .ok (.bool true) →
      Operator.apply .equal x z = .ok (.bool true) := by
  intro hclaim
  have hequal := hclaim (.int 9007199254740993) (.float 9007199254740992.0) (.int 9007199254740992)
    (by decide) (by decide)
  exact absurd hequal (by decide)

end TokenScript
