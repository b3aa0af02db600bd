import Mathlib.Algebra.BigOperators.Group.List.Basic
import Mathlib.Data.Set.Function
import Mathlib.Logic.Function.Basic
import Mathlib.Order.Interval.Set.Defs
import Mathlib.Tactic.Ring

/-!
# Mixed-radix numbers with named digits

A number written in a mixed radix whose digits have names: the list `ps` of names says in
which order the digits stand, lowest first, and `b p` is the radix of the digit `p`. The
same data are a layout of named fields in a word. `encode` and `decode` are inverse to each
other, in both directions, for every list without repetitions.
-/

namespace MixedRadix

open Function

universe u

variable {ι : Type u}

/-- The number with the digits `d`. -/
def encode (b d : ι → ℕ) : List ι → ℕ
  | [] => 0
  | p :: ps => d p + b p * encode b d ps

/-- The digits of `n`; names that are not in the list keep their value in `out`. -/
def decode [DecidableEq ι] (b : ι → ℕ) : List ι → ℕ → (ι → ℕ) → ι → ℕ
  | [], _, out => out
  | p :: ps, n, out => decode b ps (n / b p) (update out p (n % b p))

/-- The number of numbers that the digits can write. -/
def capacity (b : ι → ℕ) (ps : List ι) : ℕ := (ps.map b).prod

variable {b d d' : ι → ℕ} {ps : List ι} {p : ι} {n : ℕ}

@[simp] theorem capacity_nil : capacity b [] = 1 := rfl

@[simp] theorem capacity_cons : capacity b (p :: ps) = b p * capacity b ps := by
  simp [capacity]

/-- A number with proper digits is below the capacity. -/
theorem encode_lt (hd : ∀ q ∈ ps, d q < b q) : encode b d ps < capacity b ps := by
  induction ps with
  | nil => exact Nat.one_pos
  | cons p ps ih =>
    have hp : d p < b p := hd p List.mem_cons_self
    have hrest : encode b d ps + 1 ≤ capacity b ps :=
      ih fun q hq => hd q (List.mem_cons_of_mem _ hq)
    calc encode b d (p :: ps) = d p + b p * encode b d ps := rfl
      _ < b p + b p * encode b d ps := by omega
      _ = b p * (encode b d ps + 1) := by rw [Nat.mul_succ, Nat.add_comm]
      _ ≤ capacity b (p :: ps) := by
        rw [capacity_cons]
        exact Nat.mul_le_mul_left _ hrest

theorem encode_congr (h : ∀ q ∈ ps, d q = d' q) : encode b d ps = encode b d' ps := by
  induction ps with
  | nil => rfl
  | cons p ps ih =>
    rw [encode, encode, h p List.mem_cons_self, ih fun q hq => h q (List.mem_cons_of_mem _ hq)]

/-- The digits of a second list stand above those of the first. -/
theorem encode_append (qs : List ι) :
    encode b d (ps ++ qs) = encode b d ps + capacity b ps * encode b d qs := by
  induction ps with
  | nil => simp [encode]
  | cons p ps ih =>
    rw [List.cons_append, encode, ih, encode, capacity_cons]
    ring

variable [DecidableEq ι]

/-- A digit that is not in the list is left alone. -/
theorem decode_of_notMem (hp : p ∉ ps) (out : ι → ℕ) : decode b ps n out p = out p := by
  induction ps generalizing n out with
  | nil => rfl
  | cons q ps ih =>
    obtain ⟨hne, hp⟩ := not_or.mp fun h => hp (List.mem_cons.mpr h)
    rw [decode, ih hp, update_of_ne hne]

/-- A digit that is in the list does not depend on what was there before. -/
theorem decode_congr (hp : p ∈ ps) (out out' : ι → ℕ) :
    decode b ps n out p = decode b ps n out' p := by
  induction ps generalizing n out out' with
  | nil => simp at hp
  | cons q ps ih =>
    rw [decode, decode]
    by_cases hmem : p ∈ ps
    · exact ih hmem _ _
    · obtain rfl : p = q := (List.mem_cons.mp hp).resolve_right hmem
      rw [decode_of_notMem hmem, decode_of_notMem hmem, update_self,
        update_self]

/-- The digits of a number are below their radix. -/
theorem decode_lt (hpos : ∀ q ∈ ps, 0 < b q) (hp : p ∈ ps) (out : ι → ℕ) :
    decode b ps n out p < b p := by
  induction ps generalizing n out with
  | nil => simp at hp
  | cons q ps ih =>
    rw [decode]
    by_cases hmem : p ∈ ps
    · exact ih (fun r hr => hpos r (List.mem_cons_of_mem _ hr)) hmem _
    · obtain rfl : p = q := (List.mem_cons.mp hp).resolve_right hmem
      rw [decode_of_notMem hmem, update_self]
      exact Nat.mod_lt _ (hpos p List.mem_cons_self)

/-- **Reading back.** The digits of the number with the digits `d` are `d`. -/
theorem decode_encode (hps : ps.Nodup) (hd : ∀ q ∈ ps, d q < b q) (hp : p ∈ ps)
    (out : ι → ℕ) : decode b ps (encode b d ps) out p = d p := by
  induction ps generalizing out with
  | nil => simp at hp
  | cons q ps ih =>
    obtain ⟨hq, hps⟩ := List.nodup_cons.mp hps
    have hlt : d q < b q := hd q List.mem_cons_self
    have hdiv : (d q + b q * encode b d ps) / b q = encode b d ps := by
      rw [Nat.add_mul_div_left _ _ (by omega), Nat.div_eq_of_lt hlt, Nat.zero_add]
    have hmod : (d q + b q * encode b d ps) % b q = d q := by
      rw [Nat.add_mul_mod_self_left, Nat.mod_eq_of_lt hlt]
    rw [encode, decode, hdiv, hmod]
    rcases List.mem_cons.mp hp with rfl | hmem
    · rw [decode_of_notMem hq, update_self]
    · exact ih hps (fun r hr => hd r (List.mem_cons_of_mem _ hr)) hmem _

/-- A number determines its digits. -/
theorem eq_of_encode_eq (hps : ps.Nodup) (hd : ∀ q ∈ ps, d q < b q) (hd' : ∀ q ∈ ps, d' q < b q)
    (h : encode b d ps = encode b d' ps) (hp : p ∈ ps) : d p = d' p := by
  rw [← decode_encode hps hd hp fun _ => 0, h, decode_encode hps hd' hp]

/-- The number with the digits of `n` is `n`, as far as the digits reach. -/
theorem encode_decode_mod (hps : ps.Nodup) (out : ι → ℕ) :
    encode b (decode b ps n out) ps = n % capacity b ps := by
  induction ps generalizing n out with
  | nil => simp [encode, Nat.mod_one]
  | cons q ps ih =>
    obtain ⟨hq, hps⟩ := List.nodup_cons.mp hps
    rw [decode, encode, decode_of_notMem hq, update_self, ih hps, capacity_cons,
      Nat.mod_mul]

/-- **Writing again.** The number with the digits of `n` is `n`. -/
theorem encode_decode (hps : ps.Nodup) (hn : n < capacity b ps) (out : ι → ℕ) :
    encode b (decode b ps n out) ps = n := by
  rw [encode_decode_mod hps, Nat.mod_eq_of_lt hn]

/-- Digits determine a number. -/
theorem eq_of_decode_eq (hps : ps.Nodup) {n' : ℕ} (hn : n < capacity b ps)
    (hn' : n' < capacity b ps) {out out' : ι → ℕ}
    (h : ∀ q ∈ ps, decode b ps n out q = decode b ps n' out' q) : n = n' := by
  rw [← encode_decode hps hn out, ← encode_decode hps hn' out']
  exact encode_congr h

/-- **Numbering.** The digits, with zero for the names that are not in the list, are numbered
without gaps. -/
theorem bijOn_encode (hps : ps.Nodup) (hpos : ∀ q ∈ ps, 0 < b q) :
    Set.BijOn (fun d => encode b d ps) {d | (∀ q ∈ ps, d q < b q) ∧ ∀ q ∉ ps, d q = 0}
      (Set.Iio (capacity b ps)) := by
  refine ⟨fun d hd => encode_lt hd.1, fun d hd d' hd' h => funext fun q => ?_, fun n hn => ?_⟩
  · by_cases hq : q ∈ ps
    · exact eq_of_encode_eq hps hd.1 hd'.1 h hq
    · rw [hd.2 q hq, hd'.2 q hq]
  · refine ⟨decode b ps n fun _ => 0, ⟨fun q hq => decode_lt hpos hq _, fun q hq => ?_⟩, ?_⟩
    · exact decode_of_notMem hq _
    · exact encode_decode hps hn _

end MixedRadix
