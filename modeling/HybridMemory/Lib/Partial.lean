import Mathlib.Data.List.Basic

/-!
# Postconditions of partial computations

A step that may stop without a result is a value of `Option`. `Yields Q x` says that the
result of `x`, if there is one, meets `Q`. The rules follow the way such steps are put
together: a result (`yields_some`), a computation and what is done with its result
(`Yields.bind`, or `yields_bind` where only the equation of the result matters), and a loop
(`Yields.foldlM`). A case distinction needs no rule: it is made on the goal.
-/

namespace Partial

universe u v

variable {α : Type u} {β : Type v} {P Q : α → Prop} {R : β → Prop} {x : Option α} {a : α}

/-- If `x` has a result, the result meets `Q`. -/
def Yields (Q : α → Prop) (x : Option α) : Prop := ∀ a, x = some a → Q a

theorem yields_none : Yields Q none := nofun

theorem yields_some (h : Q a) : Yields Q (some a) := fun _ ha => Option.some.inj ha ▸ h

/-- The result of the first part is handed on. -/
theorem yields_bind {f : α → Option β} (h : ∀ a, x = some a → Yields R (f a)) :
    Yields R (x.bind f) := by
  intro b hb
  obtain ⟨a, ha, hb⟩ := Option.bind_eq_some_iff.mp hb
  exact h a ha b hb

/-- What the first part yields is all that the second part may rely on. -/
theorem Yields.bind {f : α → Option β} (h : Yields P x) (hf : ∀ a, P a → Yields R (f a)) :
    Yields R (x.bind f) :=
  yields_bind fun a ha => hf a (h a ha)

/-- **The loop rule.** What every round keeps holds after the loop. -/
theorem Yields.foldlM {f : α → β → Option α} (hf : ∀ a, P a → ∀ b, Yields P (f a b))
    (bs : List β) (ha : P a) : Yields P (bs.foldlM f a) := by
  induction bs generalizing a with
  | nil => exact yields_some ha
  | cons b bs ih =>
    rw [List.foldlM_cons]
    exact (hf a ha b).bind fun _ ha' => ih ha'

end Partial
