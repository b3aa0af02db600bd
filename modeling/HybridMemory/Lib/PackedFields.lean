import Mathlib.Data.Nat.Bitwise
import Mathlib.Data.Nat.Digits.Lemmas
import Mathlib.Tactic.Ring

/-!
# Fields packed into a number

A number can hold a list of small numbers, each in a field of `w` bits (`pack`). Masks and
shifts then work on all fields at once: a mask with ones in every other field selects the
fields of even place, after a shift by `w` those of odd place, and the sum of the two has in
its fields of `2 * w` bits the sums of neighbours (`and_mask_add_shift_and_mask`). The sum of
all fields stays the same (`sum_pairSums`). This is how a population count adds up bits: from
fields of one bit it goes to two, four and eight bits.

Where no sum of neighbours overflows its field, one mask after the addition is enough
(`add_shift_and_mask`).
-/

namespace PackedFields

/-- The number with the given fields of `w` bits, the lowest first. -/
def pack (w : ℕ) (l : List ℕ) : ℕ := Nat.ofDigits (2 ^ w) l

/-- Ones in the lower half of each of `n` fields of `2 * w` bits. -/
def mask (w n : ℕ) : ℕ := pack (2 * w) (List.replicate n (2 ^ w - 1))

/-- The fields of even place. -/
def evens : List ℕ → List ℕ
  | a :: _ :: l => a :: evens l
  | _ => []

/-- The fields of odd place. -/
def odds : List ℕ → List ℕ
  | _ :: b :: l => b :: odds l
  | _ => []

/-- The sums of the fields at places `2 * i` and `2 * i + 1`. -/
def pairSums : List ℕ → List ℕ
  | a :: b :: l => (a + b) :: pairSums l
  | _ => []

/-- The sum of each field and the next one. -/
def neighbours : List ℕ → List ℕ
  | a :: b :: l => (a + b) :: neighbours (b :: l)
  | l => l

variable {w n : ℕ} {l : List ℕ}

@[simp] theorem pack_nil : pack w [] = 0 := rfl

@[simp] theorem pack_cons (a : ℕ) (l : List ℕ) : pack w (a :: l) = a + 2 ^ w * pack w l := rfl

/-- Two fields as one of double width. -/
theorem pack_cons_cons (a b : ℕ) (l : List ℕ) :
    pack w (a :: b :: l) = (a + 2 ^ w * b) + 2 ^ (2 * w) * pack w l := by
  rw [pack_cons, pack_cons]
  ring

/-- A shift by one field drops the first one. -/
theorem pack_cons_shiftRight {a : ℕ} (ha : a < 2 ^ w) (l : List ℕ) :
    pack w (a :: l) >>> w = pack w l := by
  rw [Nat.shiftRight_eq_div_pow, pack_cons, Nat.add_mul_div_left _ _ (Nat.two_pow_pos w),
    Nat.div_eq_of_lt ha, zero_add]

/-- Induction over lists of even length, by two fields at a time. -/
@[elab_as_elim] theorem pairInduction {motive : ∀ (n : ℕ) (l : List ℕ), l.length = 2 * n → Prop}
    (nil : motive 0 [] rfl) (pair : ∀ n a b l (hlen : l.length = 2 * n), motive n l hlen →
      motive (n + 1) (a :: b :: l) (by rw [List.length_cons, List.length_cons, hlen]; rfl)) :
    ∀ n l (hlen : l.length = 2 * n), motive n l hlen
  | 0, [], _ => nil
  | n + 1, a :: b :: l, hlen =>
    pair n a b l (by simpa [mul_add] using hlen) (pairInduction nil pair n l _)
  | n + 1, [a], hlen => by simp at hlen; omega

@[simp] theorem mask_zero : mask w 0 = 0 := rfl

theorem mask_succ (w n : ℕ) : mask w (n + 1) = (2 ^ w - 1) + 2 ^ (2 * w) * mask w n := by
  rw [mask, List.replicate_succ, pack_cons]
  rfl

theorem pack_lt_two_pow (hfit : ∀ a ∈ l, a < 2 ^ w) (hw : 0 < w) :
    pack w l < 2 ^ (w * l.length) := by
  rw [pow_mul]
  exact Nat.ofDigits_lt_base_pow_length (Nat.one_lt_two_pow hw.ne') hfit

/-! ### Masks -/

/-- The conjunction of numbers goes by fields. -/
theorem add_mul_and {k a b x y : ℕ} (ha : a < 2 ^ k) (hb : b < 2 ^ k) :
    (a + 2 ^ k * x) &&& (b + 2 ^ k * y) = (a &&& b) + 2 ^ k * (x &&& y) := by
  refine Nat.eq_of_testBit_eq fun i => ?_
  rw [Nat.testBit_and, add_comm a, add_comm b, add_comm (a &&& b),
    Nat.testBit_two_pow_mul_add _ ha, Nat.testBit_two_pow_mul_add _ hb,
    Nat.testBit_two_pow_mul_add _ (Nat.and_lt_two_pow a hb)]
  split_ifs
  · exact (Nat.testBit_and a b i).symm
  · exact (Nat.testBit_and x y _).symm

theorem add_mul_lt {a b : ℕ} (ha : a < 2 ^ w) (hb : b < 2 ^ w) :
    a + 2 ^ w * b < 2 ^ (2 * w) := by
  have hmul : 2 ^ w * (b + 1) ≤ 2 ^ w * 2 ^ w := Nat.mul_le_mul_left _ hb
  rw [two_mul, pow_add]
  rw [mul_add, mul_one] at hmul
  omega

/-- One double field against the mask. -/
theorem add_mul_and_mask {a b x n : ℕ} (ha : a < 2 ^ w) (hb : b < 2 ^ w) :
    ((a + 2 ^ w * b) + 2 ^ (2 * w) * x) &&& mask w (n + 1) =
      a + 2 ^ (2 * w) * (x &&& mask w n) := by
  have hle : 2 ^ w - 1 < 2 ^ (2 * w) := by
    have := Nat.pow_le_pow_right (n := 2) (by decide) (show w ≤ 2 * w by omega)
    have := Nat.two_pow_pos w
    omega
  rw [mask_succ, add_mul_and (add_mul_lt ha hb) hle, Nat.and_two_pow_sub_one_eq_mod,
    Nat.add_mul_mod_self_left, Nat.mod_eq_of_lt ha]

/-- **A mask selects the fields of even place.** -/
theorem and_mask (hfit : ∀ a ∈ l, a < 2 ^ w) (hlen : l.length = 2 * n) :
    pack w l &&& mask w n = pack (2 * w) (evens l) := by
  induction n, l, hlen using pairInduction with
  | nil => simp [evens]
  | pair n a b l hlen ih =>
    simp only [List.forall_mem_cons] at hfit
    obtain ⟨ha, hb, hfit⟩ := hfit
    rw [pack_cons_cons, add_mul_and_mask ha hb, ih hfit, evens, pack_cons]

/-- **A mask after a shift selects the fields of odd place.** -/
theorem shift_and_mask (hfit : ∀ a ∈ l, a < 2 ^ w) (hlen : l.length = 2 * n) :
    pack w l >>> w &&& mask w n = pack (2 * w) (odds l) := by
  induction n, l, hlen using pairInduction with
  | nil => simp [odds]
  | pair n a b l hlen ih =>
    simp only [List.forall_mem_cons] at hfit
    obtain ⟨ha, hb, hfit⟩ := hfit
    -- the field above `b` is the first one of the rest
    have hshift : pack w (a :: b :: l) >>> w =
        (b + 2 ^ w * (pack w l % 2 ^ w)) + 2 ^ (2 * w) * (pack w l >>> w) := by
      rw [pack_cons_shiftRight ha, Nat.shiftRight_eq_div_pow, pack_cons, two_mul, pow_add,
        mul_assoc, add_assoc, ← mul_add, Nat.mod_add_div]
    rw [hshift, add_mul_and_mask hb (Nat.mod_lt _ (Nat.two_pow_pos w)), ih hfit, odds,
      pack_cons]

/-! ### Sums of neighbours -/

theorem pack_evens_add_pack_odds (w : ℕ) (hlen : l.length = 2 * n) :
    pack w (evens l) + pack w (odds l) = pack w (pairSums l) := by
  induction n, l, hlen using pairInduction with
  | nil => rfl
  | pair n a b l hlen ih =>
    rw [evens, odds, pairSums, pack_cons, pack_cons, pack_cons, ← ih]
    ring

/-- A number is made of its fields of even and of odd place. -/
theorem pack_eq_evens_odds (w : ℕ) (hlen : l.length = 2 * n) :
    pack w l = pack (2 * w) (evens l) + 2 ^ w * pack (2 * w) (odds l) := by
  induction n, l, hlen using pairInduction with
  | nil => rfl
  | pair n a b l hlen ih =>
    rw [evens, odds, pack_cons_cons, ih, pack_cons, pack_cons]
    ring

/-- **Adding neighbours**, each selected by a mask. -/
theorem and_mask_add_shift_and_mask (hfit : ∀ a ∈ l, a < 2 ^ w) (hlen : l.length = 2 * n) :
    (pack w l &&& mask w n) + (pack w l >>> w &&& mask w n) = pack (2 * w) (pairSums l) := by
  rw [and_mask hfit hlen, shift_and_mask hfit hlen, pack_evens_add_pack_odds _ hlen]

/-- For fields of one bit, the sums of neighbours are what is left without the bits of odd
place. -/
theorem sub_shift_and_mask (hfit : ∀ a ∈ l, a < 2 ^ 1) (hlen : l.length = 2 * n) :
    pack 1 l - (pack 1 l >>> 1 &&& mask 1 n) = pack (2 * 1) (pairSums l) := by
  have hsum := pack_eq_evens_odds 1 hlen
  rw [shift_and_mask hfit hlen, ← pack_evens_add_pack_odds _ hlen]
  omega

theorem pack_add_pack_tail (w : ℕ) (l : List ℕ) :
    pack w l + pack w l.tail = pack w (neighbours l) := by
  induction l with
  | nil => rfl
  | cons a l ih =>
    cases l with
    | nil => simp [neighbours]
    | cons b l =>
      rw [neighbours, pack_cons (a := a + b), ← ih, List.tail_cons, List.tail_cons, pack_cons,
        pack_cons]
      ring

theorem evens_neighbours (hlen : l.length = 2 * n) : evens (neighbours l) = pairSums l := by
  induction n, l, hlen using pairInduction with
  | nil => rfl
  | pair n a b l hlen ih =>
    -- whatever the sum of `b` and the next field is, it is dropped
    have hdrop : ∃ c, neighbours (b :: l) = c :: neighbours l := by
      cases l with
      | nil => exact ⟨b, rfl⟩
      | cons c l => exact ⟨b + c, rfl⟩
    obtain ⟨c, hc⟩ := hdrop
    rw [neighbours, hc, evens, ih, pairSums]

theorem length_neighbours (l : List ℕ) : (neighbours l).length = l.length := by
  fun_induction neighbours l with
  | case1 a b l ih => simp only [List.length_cons, ih]
  | case2 l hl => rfl

theorem neighbours_lt {k : ℕ} (hfit : ∀ a ∈ l, 2 * a < k) : ∀ a ∈ neighbours l, a < k := by
  fun_induction neighbours l with
  | case1 a b l ih =>
    simp only [List.forall_mem_cons] at hfit ih ⊢
    exact ⟨by omega, ih hfit.2⟩
  | case2 l hl =>
    intro a ha
    have := hfit a ha
    omega

theorem pack_add_shiftRight (hfit : ∀ a ∈ l, a < 2 ^ w) :
    pack w l + pack w l >>> w = pack w (neighbours l) := by
  rw [← pack_add_pack_tail]
  cases l with
  | nil => simp
  | cons a l => rw [pack_cons_shiftRight (hfit a List.mem_cons_self), List.tail_cons]

/-- **Adding neighbours** with one mask, where the sums fit into the fields. -/
theorem add_shift_and_mask (hfit : ∀ a ∈ l, 2 * a < 2 ^ w) (hlen : l.length = 2 * n) :
    (pack w l + pack w l >>> w) &&& mask w n = pack (2 * w) (pairSums l) := by
  have hfit' : ∀ a ∈ l, a < 2 ^ w := fun a ha => by
    have := hfit a ha
    omega
  rw [pack_add_shiftRight hfit', and_mask (neighbours_lt hfit) ((length_neighbours l).trans hlen),
    evens_neighbours hlen]

/-! ### The sum of all fields -/

theorem sum_pairSums (hlen : l.length = 2 * n) : (pairSums l).sum = l.sum := by
  induction n, l, hlen using pairInduction with
  | nil => rfl
  | pair n a b l hlen ih =>
    rw [pairSums, List.sum_cons, List.sum_cons, List.sum_cons, ih, add_assoc]

theorem length_pairSums (hlen : l.length = 2 * n) : (pairSums l).length = n := by
  induction n, l, hlen using pairInduction with
  | nil => rfl
  | pair n a b l hlen ih =>
    rw [pairSums, List.length_cons, ih]

theorem pairSums_le {k : ℕ} (h : ∀ a ∈ l, a ≤ k) : ∀ a ∈ pairSums l, a ≤ 2 * k := by
  fun_induction pairSums l with
  | case1 a b l ih =>
    simp only [List.forall_mem_cons] at h ⊢
    exact ⟨by omega, ih h.2.2⟩
  | case2 l hl => simp

/-! ### Bits -/

/-- The lowest `n` bits of a number. -/
def bits (n x : ℕ) : List ℕ := (List.range n).map fun i => (x.testBit i).toNat

@[simp] theorem length_bits (n x : ℕ) : (bits n x).length = n := by simp [bits]

theorem bits_le (n x : ℕ) : ∀ a ∈ bits n x, a ≤ 1 := by
  intro a ha
  obtain ⟨i, -, rfl⟩ := List.mem_map.mp ha
  exact Bool.toNat_le _

theorem pack_bits {n x : ℕ} (h : x < 2 ^ n) : pack 1 (bits n x) = x := by
  induction n generalizing x with
  | zero => simp [bits] at h ⊢; omega
  | succ n ih =>
    have hcons : bits (n + 1) x = (x.testBit 0).toNat :: bits n (x / 2) := by
      simp [bits, List.range_succ_eq_map, Nat.testBit_succ]
    have hbit : (x.testBit 0).toNat = x % 2 := by
      rw [Nat.testBit_zero]
      rcases Nat.mod_two_eq_zero_or_one x with h | h <;> simp [h]
    rw [hcons, pack_cons, ih (by rw [pow_succ] at h; omega), hbit, pow_one, Nat.mod_add_div]

end PackedFields
