import Mathlib.Data.Option.Basic
import Mathlib.Logic.Function.Basic

/-!
# Keys that are placed, moved and never share a place

A table gives keys a place each. A place is taken or free, and a key is moved by giving its
place free, taking a free one and changing the table. Between the first and the last of these
the key is an exception: its place may be taken by somebody else, or by itself again.

* `Placed`: no two keys share a place, and the places of all but the excepted keys are taken;
* `Placed.release`, `Placed.place`: the two halves of a move;
* `Placed.clear`: places that no key has may be given free.
-/

namespace Placement

open Function

universe u v

variable {κ : Type u} {π : Type v} {f : κ → Option π} {taken taken' : π → Prop} {E E' : κ → Prop}
  {k : κ} {p : π}

/-- No two keys share a place, and all keys but those in `E` have taken places. -/
structure Placed (f : κ → Option π) (taken : π → Prop) (E : κ → Prop) : Prop where
  inj : ∀ k k' p, f k = some p → f k' = some p → k = k'
  held : ∀ k p, f k = some p → ¬ E k → taken p

theorem Placed.mono (h : Placed f taken E) (hle : ∀ k, E k → E' k) : Placed f taken E' :=
  { h with held := fun k p hk hE => h.held k p hk fun hEk => hE (hle k hEk) }

/-- Places that no key has do not matter. -/
theorem Placed.clear (h : Placed f taken E)
    (hkeep : ∀ k p, f k = some p → taken p → taken' p) : Placed f taken' E :=
  { h with held := fun k p hk hE => hkeep k p hk (h.held k p hk hE) }

/-- A key gives its place free. -/
theorem Placed.release (h : Placed f taken E) (hk : f k = some p)
    (hkeep : ∀ q, q ≠ p → taken q → taken' q) : Placed f taken' (fun j => E j ∨ j = k) where
  inj := h.inj
  held := by
    intro j q hj hE
    rw [not_or] at hE
    refine hkeep q ?_ (h.held j q hj hE.1)
    rintro rfl
    exact hE.2 (h.inj j k q hj hk)

/-- The only excepted key gets a place that was free. -/
theorem Placed.place [DecidableEq κ] (h : Placed f taken E) (hE : ∀ j, E j → j = k)
    (hfree : ¬ taken p) (hkeep : ∀ q, taken q → taken' q) (hp : taken' p) :
    Placed (update f k (some p)) taken' fun _ => False := by
  have hother : ∀ j q, j ≠ k → update f k (some p) j = some q →
      f j = some q ∧ taken q := by
    intro j q hj hq
    rw [update_of_ne hj] at hq
    exact ⟨hq, h.held j q hq fun hEj => hj (hE j hEj)⟩
  have hself : ∀ q, update f k (some p) k = some q → q = p := fun q hq => by
    rw [update_self] at hq
    exact (Option.some.inj hq).symm
  constructor
  · intro j j' q hj hj'
    by_cases hjk : j = k
    · by_cases hjk' : j' = k
      · rw [hjk, hjk']
      · subst hjk
        obtain rfl := hself q hj
        exact absurd (hother j' q hjk' hj').2 hfree
    · obtain ⟨hj, hq⟩ := hother j q hjk hj
      by_cases hjk' : j' = k
      · subst hjk'
        exact absurd (hself q hj' ▸ hq) hfree
      · exact h.inj j j' q hj (hother j' q hjk' hj').1
  · intro j q hj _
    by_cases hjk : j = k
    · subst hjk
      exact hself q hj ▸ hp
    · exact hkeep q (hother j q hjk hj).2

end Placement
