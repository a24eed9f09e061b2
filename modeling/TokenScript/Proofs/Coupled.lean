import Mathlib.Logic.Basic

/-!
# Two computations side by side

`Coupled P x y Q E` says that two computations with state, started in states that `P` relates, end
alike: both succeed, and `Q` relates their results and final states, or both fail, and `E` relates
their failures and final states.  It is a Hoare triple for two programs at once.  Nothing is said of
a single computation, so a statement about one program in two worlds, and a statement about two
programs that do the same thing, have the same form.

* `Coupled.of_pure`, `Coupled.of_throw`, `Coupled.of_modify`: the steps that look at nothing.
* `Coupled.bind`, `Coupled.bind_get`: one step after another, and a step that looks at the state.
* `Coupled.bind_left`: a step that only the first computation takes.
-/

namespace TokenScript

variable {S T ε δ α β γ η : Type}

/-- Two results of computations are of one kind, and are related. -/
def Agree (Q : α → β → S → T → Prop) (E : ε → δ → S → T → Prop) :
    EStateM.Result ε S α → EStateM.Result δ T β → Prop
  | .ok u a, .ok v b => Q u v a b
  | .error e a, .error d b => E e d a b
  | .ok _ _, .error _ _ => False
  | .error _ _, .ok _ _ => False

/-- Two computations from related states end alike. -/
def Coupled (P : S → T → Prop) (x : EStateM ε S α) (y : EStateM δ T β)
    (Q : α → β → S → T → Prop) (E : ε → δ → S → T → Prop) : Prop :=
  ∀ a b, P a b → Agree Q E (x.run a) (y.run b)

namespace Coupled

variable {P : S → T → Prop} {Q : α → β → S → T → Prop} {E : ε → δ → S → T → Prop}
  {x : EStateM ε S α} {y : EStateM δ T β}

theorem of_pure {u : α} {v : β} (h : ∀ a b, P a b → Q u v a b) :
    Coupled P (pure u : EStateM ε S α) (pure v : EStateM δ T β) Q E :=
  fun a b hab => h a b hab

theorem of_throw {e : ε} {d : δ} (h : ∀ a b, P a b → E e d a b) :
    Coupled P (throw e : EStateM ε S α) (throw d : EStateM δ T β) Q E :=
  fun a b hab => h a b hab

theorem of_modify {f : S → S} {g : T → T} {Q : PUnit → PUnit → S → T → Prop}
    (h : ∀ a b, P a b → Q ⟨⟩ ⟨⟩ (f a) (g b)) :
    Coupled P (modify f : EStateM ε S PUnit) (modify g : EStateM δ T PUnit) Q E :=
  fun a b hab => h a b hab

/-- One step after another. -/
theorem bind {f : α → EStateM ε S γ} {g : β → EStateM δ T η} {Q' : γ → η → S → T → Prop}
    (h : Coupled P x y Q E) (hfg : ∀ u v, Coupled (Q u v) (f u) (g v) Q' E) :
    Coupled P (x >>= f) (y >>= g) Q' E := by
  intro a b hab
  have hres := h a b hab
  change Agree Q' E (EStateM.bind x f a) (EStateM.bind y g b)
  simp only [EStateM.run] at hres
  simp only [EStateM.bind]
  revert hres
  cases x a <;> cases y b <;> intro hres
  · exact hfg _ _ _ _ hres
  · exact False.elim hres
  · exact False.elim hres
  · exact hres

/-- A step that looks at the state, in both computations. -/
theorem bind_get {f : S → EStateM ε S α} {g : T → EStateM δ T β}
    (h : ∀ a b, P a b → Coupled (fun a' b' => a' = a ∧ b' = b) (f a) (g b) Q E) :
    Coupled P (get >>= f) (get >>= g) Q E :=
  fun a b hab => h a b hab a b ⟨rfl, rfl⟩

/-- A step that only the first computation takes, and that cannot fail. -/
theorem bind_left {f : γ → EStateM ε S α} {z : EStateM ε S γ} {R : γ → S → T → Prop}
    (h : ∀ a b, P a b → ∃ u a', z.run a = .ok u a' ∧ R u a' b)
    (hf : ∀ u, Coupled (R u) (f u) y Q E) : Coupled P (z >>= f) y Q E := by
  intro a b hab
  obtain ⟨u, a', hz, hR⟩ := h a b hab
  have hrun : (z >>= f).run a = (f u).run a' := by
    change EStateM.bind z f a = f u a'
    simp only [EStateM.run] at hz
    simp only [EStateM.bind, hz]
  rw [hrun]
  exact hf u a' b hR

end Coupled
end TokenScript
