import Mathlib.Algebra.Order.Floor.Div
import Mathlib.Algebra.GCDMonoid.Nat
import Mathlib.Tactic.Ring

/-!
# Crossing clock domains

`ClockDomainCrosser` calls a callback `clock1 / clock2` times for each call of `update`, on
average. Two counters run after each other: `counter1` goes up by `clock1` with each update, and
`counter2` by `clock2` with each callback until it has caught up. When they meet, both go back to
zero.

Both counters start again at a number of updates that is a whole number of callbacks, so the
callbacks before and after can be counted apart (`Crossing`). They never exceed the least common
multiple of the clocks, where they meet at the latest, so that no overflow happens in runs of any
length if that number fits in 64 bits.
-/

namespace HybridMemory.DRAMSim

/-- The data members, with the number of callbacks so far. -/
structure ClockDomainCrosser where
  callback : Bool
  clock1 : ℕ
  clock2 : ℕ
  counter1 : ℕ := 0
  counter2 : ℕ := 0
  calls : ℕ := 0

namespace ClockDomainCrosser

/-- The loop of `update`, of at most `fuel` turns; `none` if that is not enough. -/
def catchUp : ℕ → ClockDomainCrosser → Option ClockDomainCrosser
  | 0, c => if c.counter2 < c.counter1 then none else some c
  | fuel + 1, c =>
    if c.counter2 < c.counter1 then
      catchUp fuel { c with
        counter2 := (c.counter2 + c.clock2) % 2 ^ 64
        calls := c.calls + c.callback.toNat }
    else some c

def update (fuel : ℕ) (c : ClockDomainCrosser) : Option ClockDomainCrosser :=
  if c.clock1 = c.clock2 ∧ c.callback then some { c with calls := c.calls + 1 }
  else
    (catchUp fuel { c with counter1 := (c.counter1 + c.clock1) % 2 ^ 64 }).map fun c =>
      if c.counter1 = c.counter2 then { c with counter1 := 0, counter2 := 0 } else c

/-- `n` calls of `update`. -/
def updates (fuel : ℕ) (c : ClockDomainCrosser) : ℕ → Option ClockDomainCrosser
  | 0 => some c
  | n + 1 => (updates fuel c n).bind (update fuel)

variable {clock1 clock2 fuel n i : ℕ}

/-! ### One update -/

/-- The loop ends at the first multiple of `clock2` that is not below `counter1`. -/
theorem catchUp_eq (h2 : 0 < clock2) {a j k : ℕ} (hjk : a ⌈/⌉ clock2 = j + k) (hk : k ≤ fuel)
    (hfit : (a ⌈/⌉ clock2) * clock2 < 2 ^ 64) (calls : ℕ) :
    catchUp fuel ⟨true, clock1, clock2, a, j * clock2, calls⟩
      = some ⟨true, clock1, clock2, a, (a ⌈/⌉ clock2) * clock2, calls + k⟩ := by
  have hlt (m : ℕ) : m * clock2 < a ↔ m < a ⌈/⌉ clock2 := by
    rw [Nat.mul_comm]
    exact (lt_iff_lt_of_le_iff_le (ceilDiv_le_iff_le_mul h2)).symm
  induction k generalizing fuel j calls with
  | zero =>
    have hdone : ¬ j * clock2 < a := by
      rw [hlt]
      omega
    cases fuel <;> simp [catchUp, hdone, hjk]
  | succ k ih =>
    obtain ⟨fuel, rfl⟩ := Nat.exists_eq_add_of_lt (Nat.lt_of_succ_le hk)
    have hnot : j * clock2 < a := by
      rw [hlt]
      omega
    have hnext : (j * clock2 + clock2) % 2 ^ 64 = (j + 1) * clock2 := by
      have hle : (j + 1) * clock2 ≤ (a ⌈/⌉ clock2) * clock2 :=
        Nat.mul_le_mul_right _ (by omega)
      rw [← Nat.succ_mul, Nat.mod_eq_of_lt (Nat.lt_of_le_of_lt hle hfit)]
    rw [catchUp, if_pos hnot]
    simp only [hnext]
    rw [show calls + (k + 1) = calls + true.toNat + k by rw [Bool.toNat_true]; omega]
    exact ih (by omega) (by omega) _

/-! ### All updates -/

theorem ceilDiv_add_of_dvd (h2 : 0 < clock2) {x : ℕ} (hx : clock2 ∣ x) (y : ℕ) :
    (x + y) ⌈/⌉ clock2 = x / clock2 + y ⌈/⌉ clock2 := by
  obtain ⟨q, rfl⟩ := hx
  rw [Nat.ceilDiv_eq_add_pred_div, Nat.ceilDiv_eq_add_pred_div, Nat.mul_div_cancel_left _ h2,
    show clock2 * q + y + clock2 - 1 = clock2 * q + (y + clock2 - 1) by omega,
    Nat.mul_add_div h2]

/-- The state after `n` updates: the counters were set back to zero after `p` of them, when the
number of callbacks was exactly `p * clock1 / clock2`, and there were `i` updates since. -/
def Crossing (clock1 clock2 n : ℕ) (c : ClockDomainCrosser) : Prop :=
  ∃ p i, n = p + i ∧ clock2 ∣ p * clock1 ∧ i * clock1 < clock1.lcm clock2 ∧
    c = ⟨true, clock1, clock2, i * clock1, (i * clock1 ⌈/⌉ clock2) * clock2,
      n * clock1 ⌈/⌉ clock2⟩

theorem crossing_zero (h1 : 0 < clock1) (h2 : 0 < clock2) :
    Crossing clock1 clock2 0 ⟨true, clock1, clock2, 0, 0, 0⟩ :=
  ⟨0, 0, rfl, by simp, by simpa using Nat.lcm_pos h1 h2, by simp⟩

/-- Where `counter2` stops in the next update. It does not pass the least common multiple, nor
the number it would have without going back to zero. -/
theorem catchUp_le (h2 : 0 < clock2) (hi : i * clock1 < clock1.lcm clock2) (hin : i ≤ n) :
    ((i + 1) * clock1 ⌈/⌉ clock2) * clock2 ≤ clock1.lcm clock2 ∧
      ((i + 1) * clock1 ⌈/⌉ clock2) * clock2 ≤ ((n + 1) * clock1 ⌈/⌉ clock2) * clock2 := by
  constructor
  · obtain ⟨q, hq⟩ := Nat.dvd_lcm_left clock1 clock2
    obtain ⟨r, hr⟩ := Nat.dvd_lcm_right clock1 clock2
    have hnext : (i + 1) * clock1 ≤ clock2 * r := by
      rw [hq, Nat.mul_comm clock1] at hi
      rw [← hr, hq, Nat.mul_comm clock1]
      exact Nat.mul_le_mul_right _ (Nat.lt_of_mul_lt_mul_right hi)
    rw [hr, Nat.mul_comm]
    exact Nat.mul_le_mul_left _ ((ceilDiv_le_iff_le_mul h2).mpr hnext)
  · refine Nat.mul_le_mul_right _ ((gc_mul_ceilDiv h2).monotone_l ?_)
    exact Nat.mul_le_mul_right _ (Nat.succ_le_succ hin)

theorem Crossing.update {c : ClockDomainCrosser} (h1 : 0 < clock1) (h2 : 0 < clock2)
    (hne : clock1 ≠ clock2) (hfuel : clock1 ≤ fuel)
    (hfit : clock1.lcm clock2 < 2 ^ 64 ∨ ((n + 1) * clock1 ⌈/⌉ clock2) * clock2 < 2 ^ 64)
    (h : Crossing clock1 clock2 n c) :
    ∃ c', c.update fuel = some c' ∧ Crossing clock1 clock2 (n + 1) c' := by
  obtain ⟨p, i, rfl, hp, hi, rfl⟩ := h
  obtain ⟨hlcm, hrun⟩ := catchUp_le h2 hi (Nat.le_add_left i p)
  have hfit' : ((i + 1) * clock1 ⌈/⌉ clock2) * clock2 < 2 ^ 64 :=
    hfit.elim (Nat.lt_of_le_of_lt hlcm) (Nat.lt_of_le_of_lt hrun)
  have hcover (m : ℕ) : m ≤ (m ⌈/⌉ clock2) * clock2 := by
    rw [Nat.mul_comm]
    exact (ceilDiv_le_iff_le_mul h2).mp (Nat.le_refl _)
  have hcounter1 : (i * clock1 + clock1) % 2 ^ 64 = (i + 1) * clock1 := by
    rw [← Nat.succ_mul, Nat.mod_eq_of_lt (Nat.lt_of_le_of_lt (hcover _) hfit')]
  -- the loop makes at most `clock1` turns
  have hmono : i * clock1 ⌈/⌉ clock2 ≤ (i + 1) * clock1 ⌈/⌉ clock2 :=
    (gc_mul_ceilDiv h2).monotone_l (Nat.mul_le_mul_right _ (Nat.le_succ i))
  have hturns : (i + 1) * clock1 ⌈/⌉ clock2 ≤ i * clock1 ⌈/⌉ clock2 + clock1 := by
    rw [ceilDiv_le_iff_le_mul h2, Nat.succ_mul, Nat.mul_add]
    refine Nat.add_le_add ?_ (Nat.le_mul_of_pos_left _ h2)
    exact (ceilDiv_le_iff_le_mul h2).mp (Nat.le_refl _)
  obtain ⟨k, hk⟩ := Nat.exists_eq_add_of_le hmono
  -- callbacks before and after the last reset
  have hcalls : (p + i) * clock1 ⌈/⌉ clock2 + k = (p + i + 1) * clock1 ⌈/⌉ clock2 := by
    rw [show (p + i + 1) * clock1 = p * clock1 + (i + 1) * clock1 by ring, Nat.add_mul,
      ceilDiv_add_of_dvd h2 hp, ceilDiv_add_of_dvd h2 hp, hk, Nat.add_assoc]
  have hloop : catchUp fuel ⟨true, clock1, clock2, (i + 1) * clock1,
      (i * clock1 ⌈/⌉ clock2) * clock2, (p + i) * clock1 ⌈/⌉ clock2⟩
      = some ⟨true, clock1, clock2, (i + 1) * clock1, ((i + 1) * clock1 ⌈/⌉ clock2) * clock2,
        (p + i + 1) * clock1 ⌈/⌉ clock2⟩ := by
    rw [catchUp_eq h2 hk (by omega) hfit', hcalls]
  rw [ClockDomainCrosser.update, if_neg fun h => hne h.1]
  simp only [hcounter1, hloop, Option.map_some]
  by_cases hmeet : (i + 1) * clock1 = ((i + 1) * clock1 ⌈/⌉ clock2) * clock2
  · rw [if_pos hmeet]
    refine ⟨_, rfl, p + (i + 1), 0, rfl, ?_, by simpa using Nat.lcm_pos h1 h2, by simp⟩
    rw [Nat.add_mul]
    exact Nat.dvd_add hp (hmeet ▸ Nat.dvd_mul_left ..)
  · rw [if_neg hmeet]
    refine ⟨_, rfl, p, i + 1, rfl, hp, Nat.lt_of_le_of_ne ?_ fun heq => hmeet ?_, rfl⟩
    · exact Nat.le_trans (hcover _) hlcm
    · exact Nat.le_antisymm (hcover _) (heq ▸ hlcm)

/-- **The number of callbacks.** After `n` updates the callback has been called
`n * clock1 / clock2` times, rounded up, for all clocks and as long as no counter overflows: it
is enough that the counters would not overflow without ever going back to zero, and for runs of
any length that the least common multiple of the clocks fits. The loop of an update makes at most
`clock1` turns. -/
theorem calls_eq_ceilDiv (h1 : 1 ≤ clock1) (h2 : 1 ≤ clock2) (hfuel : clock1 ≤ fuel) (n : ℕ)
    (hfit : clock1.lcm clock2 < 2 ^ 64 ∨ (n * clock1 ⌈/⌉ clock2) * clock2 < 2 ^ 64) :
    ∃ c, updates fuel ⟨true, clock1, clock2, 0, 0, 0⟩ n = some c ∧
      c.calls = n * clock1 ⌈/⌉ clock2 := by
  by_cases hne : clock1 = clock2
  · subst hne
    refine ⟨⟨true, clock1, clock1, 0, 0, n⟩, ?_, ?_⟩
    · clear hfit
      induction n with
      | zero => rfl
      | succ n ih =>
        rw [updates, ih]
        simp [update]
    · have hself := ceilDiv_add_of_dvd h1 (Nat.dvd_mul_left clock1 n) 0
      rw [Nat.add_zero, Nat.mul_div_cancel _ h1, zero_ceilDiv] at hself
      exact hself.symm
  · have hrun : ∃ c, updates fuel ⟨true, clock1, clock2, 0, 0, 0⟩ n = some c ∧
        Crossing clock1 clock2 n c := by
      induction n with
      | zero => exact ⟨_, rfl, crossing_zero h1 h2⟩
      | succ n ih =>
        have hle : (n * clock1 ⌈/⌉ clock2) * clock2 ≤ ((n + 1) * clock1 ⌈/⌉ clock2) * clock2 :=
          Nat.mul_le_mul_right _
            ((gc_mul_ceilDiv h2).monotone_l (Nat.mul_le_mul_right _ (Nat.le_succ n)))
        obtain ⟨c, hc, hcross⟩ := ih (hfit.imp id (Nat.lt_of_le_of_lt hle))
        obtain ⟨c', hc', hcross'⟩ := hcross.update h1 h2 hne hfuel hfit
        exact ⟨c', by rw [updates, hc]; exact hc', hcross'⟩
    obtain ⟨c, hc, p, i, -, -, -, rfl⟩ := hrun
    exact ⟨_, hc, rfl⟩

/-- Five callbacks for every three updates: after four updates there were seven. -/
theorem calls_eq_ceilDiv_five_three :
    ∃ c, updates 5 ⟨true, 5, 3, 0, 0, 0⟩ 4 = some c ∧ c.calls = 7 :=
  calls_eq_ceilDiv (by decide) (by decide) (by decide) 4 (Or.inl (by decide))

end ClockDomainCrosser

end HybridMemory.DRAMSim
