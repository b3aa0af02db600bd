import Mathlib.Data.List.Basic
import Mathlib.Logic.Function.Basic

/-!
# Families of queues

The entries of the first `n` queues of a family, in one list. Counting them is additive in
the queues, so a change of one queue changes the count by what it adds to or takes from that
queue.
-/

namespace Queues

open Function

universe u

variable {α : Type u} {n i : ℕ} {f g : ℕ → List α} {x : α} {l : List α} {P Q : α → Bool}

/-- All entries of the first `n` queues. -/
def all (n : ℕ) (f : ℕ → List α) : List α := (List.range n).flatMap f

theorem mem_all : x ∈ all n f ↔ ∃ i < n, x ∈ f i := by
  simp [all]

theorem all_succ : all (n + 1) f = all n f ++ f n := by
  simp [all, List.range_succ]

@[simp] theorem all_nil : all n (fun _ => ([] : List α)) = [] := by
  simp [all]

/-- If counts agree for each queue, they agree for all queues together. -/
theorem countP_all_congr (h : ∀ i < n, (f i).countP P = (g i).countP Q) :
    (all n f).countP P = (all n g).countP Q := by
  induction n with
  | zero => rfl
  | succ n ih =>
    rw [all_succ, all_succ, List.countP_append, List.countP_append,
      ih fun i hi => h i (by omega), h n (by omega)]

/-- A change of one queue. -/
theorem countP_all_update (h : i < n) :
    (all n (update f i l)).countP P + (f i).countP P =
      (all n f).countP P + l.countP P := by
  induction n with
  | zero => omega
  | succ n ih =>
    rw [all_succ, all_succ, List.countP_append, List.countP_append]
    by_cases hi : i = n
    · subst hi
      have hsame : (all i (update f i l)).countP P = (all i f).countP P :=
        countP_all_congr fun j hj => by rw [update_of_ne (by omega)]
      rw [hsame, update_self]
      omega
    · have hbelow := ih (by omega)
      rw [update_of_ne (Ne.symm hi)]
      omega

/-- Entries are appended to one queue. -/
theorem countP_all_append (h : i < n) :
    (all n (update f i (f i ++ l))).countP P = (all n f).countP P + l.countP P := by
  have hupdate := countP_all_update (f := f) (l := f i ++ l) (P := P) h
  rw [List.countP_append] at hupdate
  omega

end Queues
