import Mathlib.Data.List.Basic
import Mathlib.Data.List.Perm.Basic

/-!
# Recency lists

A list in the order of last use, the element used last in front. Two loops keep such a list
up to date when an element is used:

* `toHead` works on a list of distinct references. It puts the element in front and pushes
  the others back, up to the place the element came from (`toHead_eq`). An element that is
  not in the list is pushed in, and the last one falls out.
* `shiftDown lo i` works in place: it copies the places below `i` up by one, down to the
  place `lo`, and leaves room for the element of place `i`.
-/

namespace Recency

variable {α : Type*}

/-! ### References -/

section ToHead

variable [DecidableEq α]

/-- The loop of `toHead`: `y` is carried to the next place, until `x` is found. -/
def carry (x : α) : α → List α → List α
  | _, [] => []
  | y, z :: l => y :: if z = x then l else carry x z l

/-- Put an element in front. -/
def toHead (x : α) (l : List α) : List α := if l.head? = some x then l else carry x x l

/-- The loop takes the element out of its place. -/
theorem carry_eq {x : α} {l : List α} (h : x ∈ l) (y : α) : carry x y l = y :: l.erase x := by
  induction l generalizing y with
  | nil => cases h
  | cons z l ih =>
    by_cases hz : z = x
    · simp [carry, hz]
    · have hmem : x ∈ l := (List.mem_cons.mp h).resolve_left (Ne.symm hz)
      rw [carry, if_neg hz, List.erase_cons_tail (by simpa using hz), ih hmem z]

theorem length_carry (x y : α) (l : List α) : (carry x y l).length = l.length := by
  induction l generalizing y with
  | nil => rfl
  | cons z l ih =>
    rw [carry, List.length_cons, List.length_cons]
    split_ifs
    · rfl
    · rw [ih]

theorem length_toHead (x : α) (l : List α) : (toHead x l).length = l.length := by
  unfold toHead
  split_ifs
  · rfl
  · exact length_carry x x l

/-- **Moving an element of the list** puts it in front and leaves the others in their order. -/
theorem toHead_eq {x : α} {l : List α} (h : x ∈ l) : toHead x l = x :: l.erase x := by
  unfold toHead
  split_ifs with hhead
  · obtain ⟨l, rfl⟩ := List.head?_eq_some_iff.mp hhead
    rw [List.erase_cons_head]
  · exact carry_eq h x

theorem toHead_perm {x : α} {l : List α} (h : x ∈ l) : (toHead x l).Perm l := by
  rw [toHead_eq h]
  exact (List.perm_cons_erase h).symm

end ToHead

/-! ### Places -/

/-- `l[dst] = l[src]` -/
def copy (src dst : ℕ) (l : List α) : List α :=
  match l[src]? with
  | some x => l.set dst x
  | none => l

/-- The loop `for( j = i; j > lo; j-- ) l[j] = l[j-1]`. -/
def shiftDown (lo : ℕ) : ℕ → List α → List α
  | 0, l => l
  | j + 1, l => if lo < j + 1 then shiftDown lo j (copy j (j + 1) l) else l

@[simp] theorem length_copy (src dst : ℕ) (l : List α) : (copy src dst l).length = l.length := by
  unfold copy
  split
  · exact List.length_set
  · rfl

@[simp] theorem length_shiftDown (lo i : ℕ) (l : List α) :
    (shiftDown lo i l).length = l.length := by
  induction i generalizing l with
  | zero => rfl
  | succ j ih =>
    rw [shiftDown]
    split_ifs
    · rw [ih, length_copy]
    · rfl

/-- The loop leaves the places above `i` alone. -/
theorem getElem?_shiftDown_of_lt {lo i k : ℕ} (h : i < k) (l : List α) :
    (shiftDown lo i l)[k]? = l[k]? := by
  induction i generalizing l with
  | zero => rfl
  | succ j ih =>
    rw [shiftDown]
    split_ifs with hj
    · rw [ih (by omega), copy]
      split
      · exact List.getElem?_set_ne (by omega)
      · rfl
    · rfl

theorem mem_drop_copy {lo j : ℕ} (h : lo ≤ j) {l : List α} {x : α}
    (hx : x ∈ (copy j (j + 1) l).drop lo) : x ∈ l.drop lo := by
  unfold copy at hx
  split at hx
  · rename_i y hy
    rw [List.drop_set, if_neg (by omega)] at hx
    rcases List.mem_or_eq_of_mem_set hx with hmem | rfl
    · exact hmem
    · refine List.mem_of_getElem? (i := j - lo) ?_
      rw [List.getElem?_drop, show lo + (j - lo) = j by omega]
      exact hy
  · exact hx

/-- What the loop leaves from the place `lo` on was there before. -/
theorem mem_drop_shiftDown {lo i : ℕ} {l : List α} {x : α}
    (hx : x ∈ (shiftDown lo i l).drop lo) : x ∈ l.drop lo := by
  induction i generalizing l with
  | zero => exact hx
  | succ j ih =>
    rw [shiftDown] at hx
    split_ifs at hx with hj
    · exact mem_drop_copy (by omega) (ih hx)
    · exact hx

theorem getElem?_copy {src dst k : ℕ} {l : List α} (h : dst < l.length) (hsrc : src < l.length) :
    (copy src dst l)[k]? = if k = dst then l[src]? else l[k]? := by
  have hcopy : copy src dst l = l.set dst (l[src]) := by
    rw [copy, List.getElem?_eq_getElem hsrc]
  rw [hcopy]
  split_ifs with hk
  · rw [hk, List.getElem?_set_self h, List.getElem?_eq_getElem hsrc]
  · exact List.getElem?_set_ne (Ne.symm hk)

theorem mem_drop_iff_exists {lo : ℕ} {l : List α} {x : α} :
    x ∈ l.drop lo ↔ ∃ k, lo ≤ k ∧ l[k]? = some x := by
  rw [List.mem_iff_getElem?]
  constructor
  · rintro ⟨k, hk⟩
    exact ⟨lo + k, Nat.le_add_right lo k, List.getElem?_drop ▸ hk⟩
  · rintro ⟨k, hlo, hk⟩
    exact ⟨k - lo, by rw [List.getElem?_drop, Nat.add_sub_cancel' hlo]; exact hk⟩

/-- The loop loses at most the element of place `i`. -/
theorem mem_drop_shiftDown_of_mem {lo i : ℕ} {l : List α} (h : i < l.length) {x : α}
    (hx : x ∈ l.drop lo) : x ∈ (shiftDown lo i l).drop lo ∨ l[i]? = some x := by
  induction i generalizing l with
  | zero => exact Or.inl hx
  | succ j ih =>
    rw [shiftDown]
    split_ifs with hj
    · obtain ⟨k, hlo, hk⟩ := mem_drop_iff_exists.mp hx
      by_cases hkj : k = j + 1
      · exact Or.inr (hkj ▸ hk)
      · have hget := fun n => getElem?_copy (k := n) h (Nat.lt_of_succ_lt h)
        have hcopy : x ∈ (copy j (j + 1) l).drop lo :=
          mem_drop_iff_exists.mpr ⟨k, hlo, by rw [hget, if_neg hkj]; exact hk⟩
        refine Or.inl ((ih (by rw [length_copy]; omega) hcopy).elim id fun hlast => ?_)
        -- the element of place `j` has been copied to the place above, which stays
        refine mem_drop_iff_exists.mpr ⟨j + 1, by omega, ?_⟩
        rw [getElem?_shiftDown_of_lt (Nat.lt_succ_self j), hget, if_pos rfl]
        rw [hget, if_neg (by omega)] at hlast
        exact hlast
    · exact Or.inl hx

end Recency
