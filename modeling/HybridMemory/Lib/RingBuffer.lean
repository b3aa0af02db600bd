import Mathlib.Data.List.Basic
import Mathlib.Data.List.Chain
import Mathlib.Data.Nat.ModEq
import Mathlib.Order.Basic

/-!
# Ring buffers as windows on a history

A ring of `k` cells and the index of the cell that was written last remember the last `k`
entries of a history. Histories are lists with the newest entry first.

* `Remembers.push`: writing the next cell of the ring extends the history;
* `Remembers.getElem?_oldest`: the cell that is written next holds the entry `k` back;
* `countP_window_le`: if each time of a history is at least `w` later than the one `k`
  entries back, no window of length `w` contains more than `k` of them.
-/

namespace RingBuffer

universe u

variable {α : Type u} {d x : α} {ring history : List α} {i : ℕ}

/-- `Remembers d ring i history`: from the cell `i` on backwards, the ring holds the newest
entries of the history, and `d` where the history is too short. -/
def Remembers (d : α) (ring : List α) (i : ℕ) (history : List α) : Prop :=
  ∀ j < ring.length,
    ring[(i + (ring.length - j)) % ring.length]? = some (history.getD j d)

/-- A ring that holds nothing but `d` remembers the empty history. -/
theorem remembers_replicate (k : ℕ) : Remembers d (List.replicate k d) i [] := by
  intro j hj
  rw [List.length_replicate] at hj ⊢
  have hlt : (i + (k - j)) % k < k := Nat.mod_lt _ (by omega)
  simp [hlt]

namespace Remembers

/-- The cell after the one written last holds the oldest entry that is remembered. -/
theorem getElem?_oldest (h : Remembers d ring i history) (hpos : 0 < ring.length) :
    ring[(i + 1) % ring.length]? = some (history.getD (ring.length - 1) d) := by
  have hlast := h (ring.length - 1) (by omega)
  rwa [Nat.sub_sub_self hpos] at hlast

/-- Writing the cell after the one written last extends the history. -/
theorem push (h : Remembers d ring i history) (hpos : 0 < ring.length) :
    Remembers d (ring.set ((i + 1) % ring.length) x) ((i + 1) % ring.length) (x :: history) := by
  intro j hj
  rw [List.length_set] at hj ⊢
  have hlt : (i + 1) % ring.length < ring.length := Nat.mod_lt _ hpos
  cases j with
  | zero => simp [Nat.mod_eq_of_lt hlt, hlt]
  | succ j =>
    -- one cell further back from the new index is the same cell as before
    have hcell : ((i + 1) % ring.length + (ring.length - (j + 1))) % ring.length
        = (i + (ring.length - j)) % ring.length := by
      rw [Nat.mod_add_mod]
      congr 1
      omega
    have hne : (i + 1) % ring.length ≠ (i + (ring.length - j)) % ring.length := by
      intro heq
      have hmod : (i + 1) ≡ (i + 1) + (ring.length - (j + 1)) [MOD ring.length] := by
        rw [Nat.ModEq, heq]
        congr 1
        omega
      have hdvd := (Nat.modEq_iff_dvd' (by omega)).mp hmod
      rw [Nat.add_sub_cancel_left] at hdvd
      have := Nat.le_of_dvd (by omega) hdvd
      omega
    rw [hcell, List.getElem?_set_ne hne, h j (by omega), List.getD_cons_succ]

end Remembers

/-! ### Windows of time -/

/-- In a history of times, each is at least `w` later than the one `k` entries back. -/
def Spaced (k w : ℕ) (history : List ℕ) : Prop :=
  ∀ j x y, history[j]? = some x → history[j + k]? = some y → y + w ≤ x

variable {k w now : ℕ} {times : List ℕ}

theorem spaced_nil : Spaced k w [] := by
  intro j x y hx
  simp at hx

/-- A new time has to be late enough for the one `k` entries back from it. -/
theorem Spaced.cons (h : Spaced k w times) (hk : 0 < k)
    (hnow : ∀ y, times[k - 1]? = some y → y + w ≤ now) : Spaced k w (now :: times) := by
  intro j x y hx hy
  cases j with
  | zero =>
    obtain ⟨k, rfl⟩ := Nat.exists_eq_add_one.mpr hk
    rw [List.getElem?_cons_zero, Option.some.injEq] at hx
    rw [Nat.zero_add, List.getElem?_cons_succ] at hy
    exact hx ▸ hnow y hy
  | succ j =>
    rw [Nat.add_right_comm, List.getElem?_cons_succ] at hy
    exact h j x y (by simpa using hx) hy

theorem Spaced.tail (h : Spaced k w (now :: times)) : Spaced k w times := by
  intro j x y hx hy
  refine h (j + 1) x y (by simpa using hx) ?_
  rwa [Nat.add_right_comm, List.getElem?_cons_succ]

/-- Times that do not decrease from one entry to the next are in order. -/
theorem Spaced.pairwise (h : Spaced 1 w times) : times.Pairwise (· ≥ ·) := by
  rw [← List.isChain_iff_pairwise]
  induction times with
  | nil => exact List.isChain_nil
  | cons x times ih =>
    cases times with
    | nil => exact List.isChain_singleton x
    | cons y times =>
      have hxy := h 0 x y rfl rfl
      exact List.isChain_cons_cons.mpr ⟨by omega, ih h.tail⟩

/-- No window of length `w` contains more than `k` times of a history that is in order and in
which each time is at least `w` later than the one `k` entries back. -/
theorem countP_window_le (hord : times.Pairwise (· ≥ ·)) (h : Spaced k w times) (t : ℕ) :
    times.countP (fun x => t ≤ x ∧ x < t + w) ≤ k := by
  induction times with
  | nil => simp
  | cons x times ih =>
    by_cases hx : t ≤ x ∧ x < t + w
    · -- all that is `k` or more entries back from `x` lies before the window
      have hdrop : ((x :: times).drop k).countP (fun x => t ≤ x ∧ x < t + w) = 0 := by
        rw [List.countP_eq_zero]
        intro y hy
        have hpair := hord.drop (i := k)
        rcases hback : (x :: times).drop k with _ | ⟨z, rest⟩
        · simp [hback] at hy
        · have hz : (x :: times)[k]? = some z := by
            rw [← List.head?_drop, hback, List.head?_cons]
          have hxz := h 0 x z rfl (by rwa [Nat.zero_add])
          rw [hback] at hy hpair
          have hyz : y ≤ z := by
            rcases List.mem_cons.mp hy with rfl | hy
            · exact le_refl y
            · exact List.rel_of_pairwise_cons hpair hy
          simp only [decide_eq_true_eq]
          omega
      rw [← List.take_append_drop k (x :: times), List.countP_append, hdrop, Nat.add_zero]
      exact List.countP_le_length.trans (List.length_take_le _ _)
    · rw [List.countP_cons_of_neg (by simpa using hx)]
      exact ih hord.of_cons h.tail

end RingBuffer
