import Mathlib.Algebra.Group.Int.Defs
import Mathlib.Algebra.Group.Nat.Defs
import Mathlib.Data.List.Basic

/-!
# Positions in strings

The searches of `std::string` as functions of lists. They give the first or the last place of a
character, or `npos` if there is none. A place that goes through an `int` on its way to `erase`
is kept only below `2 ^ 31`; `npos` becomes -1.

`findFirst_append` and `findLast_append` are the facts by which a string in known parts is cut
at them.
-/

namespace HybridMemory.Strings

variable {α : Type*}

/-- What a search gives that finds nothing: the largest `size_t`. -/
def npos : ℕ := 2 ^ 64 - 1

/-- `find_first_of` or `find_first_not_of`. -/
def findFirst (p : α → Bool) (s : List α) : ℕ := (s.findIdx? p).getD npos

/-- `find_last_of` or `find_last_not_of`. -/
def findLast (p : α → Bool) (s : List α) : ℕ :=
  ((s.reverse.findIdx? p).map fun i => s.length - 1 - i).getD npos

/-- `erase` of `len` characters from `pos` on. -/
def erase (pos len : ℕ) (s : List α) : List α := s.take pos ++ s.drop (pos + len)

/-- `erase` of everything from `pos` on. -/
def eraseFrom (pos : ℕ) (s : List α) : List α := s.take pos

def substr (pos len : ℕ) (s : List α) : List α := (s.drop pos).take len

/-- Conversion to `int`. -/
def toInt (i : ℤ) : ℤ := i.bmod (2 ^ 32)

/-- Conversion to `size_t`. -/
def toSize (i : ℤ) : ℕ := (i % 2 ^ 64).toNat

/-! ### Conversions -/

theorem toInt_of_lt {k : ℕ} (h : k < 2 ^ 31) : toInt k = k :=
  Int.bmod_eq_of_le (by omega) (by omega)

theorem toSize_of_lt {k : ℕ} (h : k < 2 ^ 64) : toSize k = k := by
  unfold toSize
  omega

theorem toInt_npos : toInt npos = -1 := by decide

/-! ### Searches -/

variable {p : α → Bool}

theorem findFirst_eq_npos {s : List α} (h : ∀ x ∈ s, p x = false) : findFirst p s = npos := by
  rw [findFirst, List.findIdx?_eq_none_iff.mpr h]
  rfl

theorem findFirst_append {s : List α} (hs : ∀ x ∈ s, p x = false) {x : α} (hx : p x = true)
    (t : List α) : findFirst p (s ++ x :: t) = s.length := by
  rw [findFirst, List.findIdx?_append, List.findIdx?_eq_none_iff.mpr hs]
  simp [List.findIdx?_cons, hx]

theorem findLast_append (s : List α) {x : α} (hx : p x = true) {t : List α}
    (ht : ∀ y ∈ t, p y = false) : findLast p (s ++ x :: t) = s.length := by
  have hnone : t.reverse.findIdx? p = none :=
    List.findIdx?_eq_none_iff.mpr fun y hy => ht y (List.mem_reverse.mp hy)
  have hreverse : (s ++ x :: t).reverse = t.reverse ++ x :: s.reverse := by simp
  rw [findLast, hreverse, List.findIdx?_append, hnone]
  simp [List.findIdx?_cons, hx]

/-! ### Erasing -/

theorem erase_append (s t u : List α) : erase s.length t.length (s ++ (t ++ u)) = s ++ u := by
  simp [erase]

theorem erase_of_length_le {s : List α} {len : ℕ} (h : s.length ≤ len) : erase 0 len s = [] := by
  simpa [erase] using h

theorem eraseFrom_append (s t : List α) : eraseFrom s.length (s ++ t) = s := by
  simp [eraseFrom]

end HybridMemory.Strings
