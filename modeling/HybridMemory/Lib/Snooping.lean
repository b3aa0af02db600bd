import Mathlib.Data.Fintype.Basic
import Mathlib.Logic.Function.Basic

/-!
# A request that every other member snoops

A bus connects members, indexed by `ι`, each with a state of its own. A request of one
member is handed to all the others; each of these changes its state and answers one flag,
and the requester sees the disjunction of the answers. A member that cannot handle the
request makes the whole broadcast fail.

* `broadcast_eq`: the outcome when no member fails, member by member.
-/

namespace Snooping

open Function

universe u v

variable {ι : Type u} {σ : Type v} [Fintype ι] [DecidableEq ι]

/-- Hand a request of member `i` to every other member. The result is the state of all
members and the disjunction of the answers. -/
def broadcast (snoop : σ → Option (σ × Bool)) (i : ι) (x : ι → σ) :
    Option ((ι → σ) × Bool) :=
  if ∀ j, j ≠ i → (snoop (x j)).isSome then
    some (update (fun j => ((snoop (x j)).map Prod.fst).getD (x j)) i (x i),
      decide (∃ j, j ≠ i ∧ (snoop (x j)).any Prod.snd))
  else none

variable {snoop : σ → Option (σ × Bool)} {i : ι} {x : ι → σ}

/-- If the members answer `f` and go to `g`, then so does the bus as a whole. -/
theorem broadcast_eq {g : σ → σ} {f : σ → Bool}
    (h : ∀ j, j ≠ i → snoop (x j) = some (g (x j), f (x j))) :
    broadcast snoop i x =
      some (update (g ∘ x) i (x i), decide (∃ j, j ≠ i ∧ f (x j) = true)) := by
  have hsome : ∀ j, j ≠ i → (snoop (x j)).isSome := fun j hj => by simp [h j hj]
  rw [broadcast, if_pos hsome]
  congr 2
  · funext j
    by_cases hj : j = i
    · subst hj
      simp
    · simp [hj, h j hj]
  · refine decide_eq_decide.mpr (exists_congr fun j => and_congr_right fun hj => ?_)
    simp [h j hj]

end Snooping
