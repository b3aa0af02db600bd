import HybridMemory.Lib.PackedFields
import HybridMemory.NVMain.Request

/-!
# The pulses that program cells of two bits

`WriteCellData2` looks at the pairs of bits in the data to find out how many pulses a write
takes. The pairs 01 and 10 need a series of pulses, and data with only 00 or only 11 one
pulse. Data in which 00 and 11 both occur and no other pair, and data without any pair, are
left to `assert(false)`.

The code counts the pairs by masks and shifts on whole words. `count32MLC1_eq` and
`count32MLC2_eq` say that it counts right, so that what `WriteCellData2` does can be said
about the pairs in the data: `writeCellData_selects_iff`.
-/

namespace HybridMemory.NVMain.CommandPath

open PackedFields

variable {n m : ℕ}

/-! ### Counting bits -/

section Words

variable {l : List ℕ}

/-- The first step of the count: bits become fields of two bits. -/
theorem toNat_count_bits (data : UInt32) :
    (data - ((data >>> 1) &&& (0x55555555 : UInt32))).toNat =
      pack 2 (pairSums (bits 32 data.toNat)) := by
  have hpack : pack 1 (bits 32 data.toNat) = data.toNat := pack_bits data.toNat_lt
  have hsub := sub_shift_and_mask (l := bits 32 data.toNat) (n := 16)
    (fun a ha => Nat.lt_succ_of_le (bits_le _ _ a ha)) (length_bits _ _)
  rw [hpack, show mask 1 16 = 0x55555555 from rfl] at hsub
  have hodd : ((data >>> 1) &&& (0x55555555 : UInt32)).toNat =
      data.toNat >>> 1 &&& 0x55555555 := by
    rw [UInt32.toNat_and, UInt32.toNat_shiftRight]
    rfl
  have hle : ((data >>> 1) &&& (0x55555555 : UInt32)) ≤ data := by
    rw [UInt32.le_iff_toNat_le, hodd]
    exact Nat.and_le_left.trans (Nat.shiftRight_le _ _)
  rw [UInt32.toNat_sub_of_le _ _ hle, hodd, hsub]

/-- The second step: fields of two bits become fields of four bits. -/
theorem toNat_count_pairs {count : UInt32} (hcount : count.toNat = pack 2 l)
    (hfit : ∀ a ∈ l, a ≤ 2) (hlen : l.length = 16) :
    ((count &&& (0x33333333 : UInt32)) + ((count >>> 2) &&& (0x33333333 : UInt32))).toNat =
      pack 4 (pairSums l) := by
  have hsum := and_mask_add_shift_and_mask (w := 2) (n := 8)
    (fun a ha => (hfit a ha).trans_lt (by decide)) hlen
  rw [show mask 2 8 = 0x33333333 from rfl, ← hcount] at hsum
  have hlt := pack_lt_two_pow (w := 4)
    (fun a ha => (pairSums_le hfit a ha).trans_lt (by decide)) (by decide)
  rw [length_pairSums (n := 8) hlen] at hlt
  rw [UInt32.toNat_add, UInt32.toNat_and, UInt32.toNat_and, UInt32.toNat_shiftRight]
  exact (congrArg (· % 2 ^ 32) hsum).trans (Nat.mod_eq_of_lt hlt)

/-- The third step: fields of four bits become bytes. -/
theorem toNat_count_nibbles {count : UInt32} (hcount : count.toNat = pack 4 l)
    (hfit : ∀ a ∈ l, a ≤ 4) (hlen : l.length = 8) :
    ((count + (count >>> 4)) &&& (0x0f0f0f0f : UInt32)).toNat = pack 8 (pairSums l) := by
  have hfit' : ∀ a ∈ l, 2 * a < 2 ^ 4 := fun a ha => by
    have := hfit a ha
    omega
  have hsum := add_shift_and_mask (n := 4) hfit' hlen
  rw [show mask 4 4 = 0x0f0f0f0f from rfl, ← hcount] at hsum
  have hlt : count.toNat + count.toNat >>> 4 < 2 ^ 32 := by
    rw [hcount, pack_add_shiftRight fun a ha => (hfit a ha).trans_lt (by decide)]
    have hbound := pack_lt_two_pow (neighbours_lt hfit') (by decide)
    rwa [length_neighbours, hlen] at hbound
  rw [UInt32.toNat_and, UInt32.toNat_add, UInt32.toNat_shiftRight]
  rw [show (4 : UInt32).toNat % 32 = 4 from rfl, Nat.mod_eq_of_lt hlt]
  exact hsum

/-- The last step: a product has the sum of the bytes in its highest byte. -/
theorem toNat_count_bytes {count : UInt32} (hcount : count.toNat = pack 8 l)
    (hfit : ∀ a ∈ l, a ≤ 8) (hlen : l.length = 4) :
    ((count * (0x01010101 : UInt32)) >>> 24).toNat = l.sum := by
  match l, hlen with
  | [a, b, c, d], _ =>
    simp only [List.forall_mem_cons, List.not_mem_nil, false_imp_iff, implies_true,
      and_true] at hfit
    simp only [pack_cons, pack_nil] at hcount
    -- what is below and what is above the highest byte of the word
    have hprod : (a + 2 ^ 8 * (b + 2 ^ 8 * (c + 2 ^ 8 * (d + 2 ^ 8 * 0)))) * 0x01010101 =
        (a + 2 ^ 8 * (a + b) + 2 ^ 16 * (a + b + c)) + 2 ^ 24 * (a + b + c + d) +
          2 ^ 32 * (b + c + d + 2 ^ 8 * (c + d) + 2 ^ 16 * d) := by
      ring
    have hlow :
        (a + 2 ^ 8 * (a + b) + 2 ^ 16 * (a + b + c)) + 2 ^ 24 * (a + b + c + d) < 2 ^ 32 := by
      omega
    rw [UInt32.toNat_shiftRight, UInt32.toNat_mul, hcount, show (0x01010101 : UInt32).toNat =
      0x01010101 from rfl, hprod, Nat.add_mul_mod_self_left, Nat.mod_eq_of_lt hlow,
      show (24 : UInt32).toNat % 32 = 24 from rfl, Nat.shiftRight_eq_div_pow,
      Nat.add_mul_div_left _ _ (Nat.two_pow_pos 24)]
    simp only [List.sum_cons, List.sum_nil]
    omega

end Words

/-- **`Count32MLC1` counts the ones of a word.** -/
theorem count32MLC1_eq (data : UInt32) : count32MLC1 data = (bits 32 data.toNat).sum := by
  have h1 := toNat_count_bits data
  have hlen1 := length_pairSums (n := 16) (length_bits 32 data.toNat)
  have hle1 := pairSums_le (bits_le 32 data.toNat)
  have h2 := toNat_count_pairs h1 hle1 hlen1
  have hlen2 := length_pairSums (n := 8) hlen1
  have hle2 := pairSums_le hle1
  have h3 := toNat_count_nibbles h2 hle2 hlen2
  have hlen3 := length_pairSums (n := 4) hlen2
  have hle3 := pairSums_le hle2
  rw [count32MLC1]
  refine (toNat_count_bytes h3 hle3 hlen3).trans ?_
  rw [sum_pairSums (n := 4) hlen2, sum_pairSums (n := 8) hlen1,
    sum_pairSums (n := 16) (length_bits 32 data.toNat)]

/-! ### Counting pairs -/

/-- The pair of bits at a place of a word. -/
def pairAt (data : UInt32) (j : ℕ) : ℕ :=
  2 * (data.toNat.testBit (2 * j + 1)).toNat + (data.toNat.testBit (2 * j)).toNat

/-- The pair occurs in the words of a burst. -/
def PairOccurs (value : ℕ) (data : List UInt32) (words : ℕ) : Prop :=
  ∃ i < words, ∃ j < 16, pairAt (data.getD i 0) j = value

theorem pairAt_lt (data : UInt32) (j : ℕ) : pairAt data j < 4 := by
  have h0 := Bool.toNat_le (data.toNat.testBit (2 * j))
  have h1 := Bool.toNat_le (data.toNat.testBit (2 * j + 1))
  rw [pairAt]
  omega

theorem pairAt_eq_iff {value : ℕ} (hvalue : value < 4) (data : UInt32) (j : ℕ) :
    pairAt data j = value ↔ data.toNat.testBit (2 * j) = value.testBit 0 ∧
      data.toNat.testBit (2 * j + 1) = value.testBit 1 := by
  rw [pairAt]
  cases data.toNat.testBit (2 * j) <;> cases data.toNat.testBit (2 * j + 1) <;>
    interval_cases value <;> decide

/-- The words `0x55555555` and `0xAAAAAAAA` have ones at the even and at the odd places. -/
theorem testBit_masks : ∀ j < 16,
    Nat.testBit 0x55555555 (2 * j) = true ∧ Nat.testBit 0x55555555 (2 * j + 1) = false ∧
      Nat.testBit 0xAAAAAAAA (2 * j) = false ∧ Nat.testBit 0xAAAAAAAA (2 * j + 1) = true ∧
      Nat.testBit 0xFFFFFFFF (2 * j) = true ∧ Nat.testBit 0xFFFFFFFF (2 * j + 1) = true := by
  decide

/-- `Count32MLC2` inverts the bits so that the pair it looks for becomes 11. -/
def invertFor (value : ℕ) (data : UInt32) : UInt32 :=
  if value = 0 then data ^^^ (0xFFFFFFFF : UInt32)
  else if value = 1 then data ^^^ (0xAAAAAAAA : UInt32)
  else if value = 2 then data ^^^ (0x55555555 : UInt32)
  else data

theorem testBit_invertFor {value j : ℕ} (hvalue : value < 4) (hj : j < 16) (data : UInt32) :
    ((invertFor value data).toNat.testBit (2 * j) = true ↔
      data.toNat.testBit (2 * j) = value.testBit 0) ∧
    ((invertFor value data).toNat.testBit (2 * j + 1) = true ↔
      data.toNat.testBit (2 * j + 1) = value.testBit 1) := by
  obtain ⟨h1, h2, h3, h4, h5, h6⟩ := testBit_masks j hj
  interval_cases value <;>
    simp [invertFor, UInt32.toNat_xor, Nat.testBit_xor, h1, h2, h3, h4, h5, h6,
      show Nat.testBit 1 1 = false from rfl, show Nat.testBit 2 1 = true from rfl,
      show Nat.testBit 3 1 = true from rfl]

/-- The bits that `Count32MLC2` counts: one for each pair 11. -/
theorem testBit_pairs {j : ℕ} (hj : j < 16) (data : UInt32) :
    ((data &&& (0x55555555 : UInt32)) &&& ((data &&& (0xAAAAAAAA : UInt32)) >>> 1)).toNat.testBit
        (2 * j) = (data.toNat.testBit (2 * j) && data.toNat.testBit (2 * j + 1)) ∧
    ((data &&& (0x55555555 : UInt32)) &&& ((data &&& (0xAAAAAAAA : UInt32)) >>> 1)).toNat.testBit
        (2 * j + 1) = false := by
  obtain ⟨h1, h2, -, h4, -, -⟩ := testBit_masks j hj
  simp only [UInt32.toNat_and, UInt32.toNat_shiftRight, UInt32.reduceToNat, Nat.testBit_and,
    Nat.testBit_shiftRight, h1, h2, Bool.and_true, Bool.and_false, Bool.false_and, and_true]
  rw [show 1 % 32 + 2 * j = 2 * j + 1 by omega, h4, Bool.and_true]

theorem sum_map_range_two_mul (f : ℕ → ℕ) (k : ℕ) :
    ((List.range (2 * k)).map f).sum =
      ((List.range k).map fun j => f (2 * j) + f (2 * j + 1)).sum := by
  induction k with
  | zero => rfl
  | succ k ih =>
    rw [show 2 * (k + 1) = 2 * k + 1 + 1 by ring, List.range_succ, List.range_succ,
      List.range_succ]
    simp only [List.map_append, List.sum_append, ih, List.map_cons, List.map_nil, List.sum_cons,
      List.sum_nil]
    ring

/-- **`Count32MLC2` counts the pairs of a word** that have the value. -/
theorem count32MLC2_eq {value : ℕ} (hvalue : value < 4) (data : UInt32) :
    count32MLC2 value data =
      ((List.range 16).map fun j => if pairAt data j = value then 1 else 0).sum := by
  have hcount : count32MLC2 value data =
      count32MLC1 ((invertFor value data &&& (0x55555555 : UInt32)) &&&
        ((invertFor value data &&& (0xAAAAAAAA : UInt32)) >>> 1)) := rfl
  rw [hcount, count32MLC1_eq, bits, show 32 = 2 * 16 from rfl, sum_map_range_two_mul]
  congr 1
  refine List.map_congr_left fun j hj => ?_
  have hj := List.mem_range.mp hj
  obtain ⟨heven, hodd⟩ := testBit_pairs hj (invertFor value data)
  obtain ⟨h0, h1⟩ := testBit_invertFor hvalue hj data
  rw [heven, hodd, Bool.toNat_false, add_zero]
  by_cases hpair : pairAt data j = value
  · obtain ⟨hp0, hp1⟩ := (pairAt_eq_iff hvalue data j).mp hpair
    rw [if_pos hpair, h0.mpr hp0, h1.mpr hp1]
    rfl
  · rw [if_neg hpair]
    have hnot := mt (pairAt_eq_iff hvalue data j).mpr hpair
    rw [← h0, ← h1, ← Bool.and_eq_true, Bool.not_eq_true] at hnot
    rw [hnot, Bool.toNat_false]

/-- Every pair of a word has one of the four values. -/
theorem sum_count32MLC2 (data : UInt32) :
    count32MLC2 0 data + count32MLC2 1 data + count32MLC2 2 data + count32MLC2 3 data = 16 := by
  rw [count32MLC2_eq (by decide), count32MLC2_eq (by decide), count32MLC2_eq (by decide),
    count32MLC2_eq (by decide), ← List.sum_map_add, ← List.sum_map_add, ← List.sum_map_add]
  have hone : ∀ j ∈ List.range 16, ((if pairAt data j = 0 then 1 else 0) +
      (if pairAt data j = 1 then 1 else 0) + (if pairAt data j = 2 then 1 else 0) +
      (if pairAt data j = 3 then 1 else 0)) = 1 := by
    intro j _
    have hlt := pairAt_lt data j
    interval_cases pairAt data j <;> rfl
  rw [List.map_congr_left hone]
  rfl

/-- The sum over a list of places is a sum over the places. -/
theorem sum_map_range (f : ℕ → ℕ) (k : ℕ) :
    ((List.range k).map f).sum = ∑ i ∈ Finset.range k, f i := rfl

theorem count32MLC1_eq_card (data : UInt32) :
    count32MLC1 data = {i ∈ Finset.range 32 | data.toNat.testBit i}.card := by
  rw [count32MLC1_eq, bits, sum_map_range, Finset.card_filter]
  refine Finset.sum_congr rfl fun i _ => ?_
  cases data.toNat.testBit i <;> rfl

/-- **The counts over an array.** For every array of words, `CountBitsMLC2` gives the number of
pairs of bits with the value, so that the four counts add up to all pairs; `Count32MLC1` gives
the number of ones of a word, and the ones and zeros of `CountBitsMLC1` add up to all bits. -/
theorem countBits_eq_card (data : List UInt32) (words : ℕ) :
    (∀ value : Fin 4, countBitsMLC2 value data words =
      {ij ∈ Finset.range words ×ˢ Finset.range 16 | pairAt (data.getD ij.1 0) ij.2 = value}.card) ∧
    countBitsMLC2 0 data words + countBitsMLC2 1 data words + countBitsMLC2 2 data words +
      countBitsMLC2 3 data words = 16 * words ∧
    (∀ word, count32MLC1 word = {i ∈ Finset.range 32 | word.toNat.testBit i}.card) ∧
    countBitsMLC1 1 data words =
      {ij ∈ Finset.range words ×ˢ Finset.range 32 |
        (data.getD ij.1 0).toNat.testBit ij.2}.card ∧
    countBitsMLC1 1 data words + countBitsMLC1 0 data words = 32 * words := by
  have hones : countBitsMLC1 1 data words = ∑ i ∈ Finset.range words,
      {j ∈ Finset.range 32 | (data.getD i 0).toNat.testBit j}.card := by
    rw [countBitsMLC1, if_pos rfl, sum_map_range]
    exact Finset.sum_congr rfl fun i _ => count32MLC1_eq_card _
  refine ⟨fun value => ?_, ?_, count32MLC1_eq_card, ?_, ?_⟩
  · rw [countBitsMLC2, sum_map_range, Finset.card_filter, Finset.sum_product]
    exact Finset.sum_congr rfl fun i _ => count32MLC2_eq value.isLt _
  · simp only [countBitsMLC2, ← List.sum_map_add, sum_count32MLC2]
    simp [mul_comm]
  · rw [hones, Finset.card_filter, Finset.sum_product]
    exact Finset.sum_congr rfl fun i _ => Finset.card_filter ..
  · -- no word has more than 32 ones, so that the difference is not cut off
    have hle : countBitsMLC1 1 data words ≤ words * 32 := by
      rw [hones]
      refine (Finset.sum_le_card_nsmul _ _ 32 fun i _ => ?_).trans (by simp)
      exact (Finset.card_filter_le _ _).trans (by simp)
    have hzeros : countBitsMLC1 0 data words = words * 32 - countBitsMLC1 1 data words := rfl
    omega

namespace Params

variable (p : Params)

/-- `CountBitsMLC2` finds a pair if and only if it occurs. -/
theorem pairs_eq_zero_iff {value : ℕ} (hvalue : value < 4) (rawData : List UInt32) :
    p.pairs value rawData = 0 ↔ ¬ PairOccurs value rawData (p.memoryWordSize / 32) := by
  simp only [pairs, countBitsMLC2, count32MLC2_eq hvalue, PairOccurs, List.sum_eq_zero_iff,
    List.mem_map, List.mem_range, forall_exists_index, and_imp, forall_apply_eq_imp_iff₂,
    ite_eq_right_iff, Nat.one_ne_zero, imp_false, not_exists, not_and]

/-- All pairs of the burst are counted once. -/
theorem sum_pairs (rawData : List UInt32) :
    p.pairs 0 rawData + p.pairs 1 rawData + p.pairs 2 rawData + p.pairs 3 rawData =
      16 * (p.memoryWordSize / 32) := by
  simp only [pairs, countBitsMLC2, ← List.sum_map_add, sum_count32MLC2]
  simp [mul_comm]

/-! ### The number of pulses -/

/-- The numbers of further pulses that a write may take: none without a pair 01 or 10, and
otherwise what the pairs ask for, within the variance. -/
def AllowedCount (rawData : List UInt32) (count : ℕ) : Prop :=
  if p.pairs 1 rawData ≠ 0 ∨ p.pairs 2 rawData ≠ 0 then
    p.programPulseCount rawData - p.wpMaxVariance ≤ count ∧
      count ≤ p.programPulseCount rawData + p.wpMaxVariance
  else count = 0

theorem allowedCount_of_pulses {drawn : ℕ} {rawData : List UInt32} {once count again : ℕ}
    (h : p.pulses drawn rawData = some (once, count, again)) : p.AllowedCount rawData count := by
  simp only [pulses] at h
  unfold AllowedCount
  by_cases hmixed : p.pairs 1 rawData ≠ 0 ∨ p.pairs 2 rawData ≠ 0
  · rw [if_pos hmixed] at h ⊢
    have hcount : count = max (min drawn (p.programPulseCount rawData + p.wpMaxVariance))
        (p.programPulseCount rawData - p.wpMaxVariance) := by
      cases hmode : p.programMode <;> simp only [hmode, Option.some.injEq, Prod.mk.injEq] at h <;>
        exact h.2.1.symm
    omega
  · rw [if_neg hmixed] at h ⊢
    split_ifs at h <;> simp only [Option.some.injEq, Prod.mk.injEq] at h <;> exact h.2.1.symm

/-- The assertion that all pairs are counted holds for bursts of whole words, with at most one
bit left over. -/
theorem sum_pairs_eq_iff (rawData : List UInt32) :
    p.pairs 0 rawData + p.pairs 1 rawData + p.pairs 2 rawData + p.pairs 3 rawData =
      p.memoryWordSize / 2 ↔ p.memoryWordSize % 32 < 2 := by
  rw [sum_pairs]
  omega

/-- **When a write to cells of two bits finds its pulses.** With the assertions in place,
`WriteCellData2` selects an allowed number of pulses and returns if and only if the burst is
made of whole words and its pairs are not just 00 and 11: a pair 01 or 10 occurs, or exactly
one of 00 and 11. -/
theorem writeCellData_selects_iff (p : Params) (hlevels : p.mlcLevels = 2)
    (huniform : p.uniformWrites = false) (hassert : p.ndebug = false) (now : ℕ)
    (r : NVMainRequest n m) (rawData : List UInt32) (hdata : r.rawData = some rawData) :
    (∃ once count again starts, p.AllowedCount rawData count ∧
      p.writeCellData now r = some (once + count * again, starts) ∧
      starts.length = count + 1) ↔
    p.memoryWordSize % 32 < 2 ∧
      (PairOccurs 1 rawData (p.memoryWordSize / 32) ∨
        PairOccurs 2 rawData (p.memoryWordSize / 32) ∨
        (PairOccurs 0 rawData (p.memoryWordSize / 32) ↔
          ¬ PairOccurs 3 rawData (p.memoryWordSize / 32))) := by
  have hprog : p.Programmable r ↔ p.memoryWordSize % 32 < 2 ∧
      (PairOccurs 1 rawData (p.memoryWordSize / 32) ∨
        PairOccurs 2 rawData (p.memoryWordSize / 32) ∨
        (PairOccurs 0 rawData (p.memoryWordSize / 32) ↔
          ¬ PairOccurs 3 rawData (p.memoryWordSize / 32))) := by
    have hpair := fun {value} (hvalue : value < 4) => p.pairs_eq_zero_iff hvalue rawData
    simp only [Programmable, hlevels, huniform, hassert, hdata, Option.mem_some_iff,
      forall_eq', forall_const, sum_pairs_eq_iff, hpair (show 0 < 4 by decide), ne_eq,
      hpair (show 1 < 4 by decide), hpair (show 2 < 4 by decide), hpair (show 3 < 4 by decide),
      not_not]
    refine and_congr_right fun _ => or_congr_right (or_congr_right ?_)
    exact not_iff_comm.trans (iff_comm.trans (by tauto))
  rw [← hprog, ← isSome_writeCellData_iff p now r]
  constructor
  · rintro ⟨once, count, again, starts, -, hwrite, -⟩
    rw [hwrite]
    rfl
  · intro hsome
    obtain ⟨⟨delay, starts⟩, hwrite⟩ := Option.isSome_iff_exists.mp hsome
    have hwrite' := hwrite
    rw [writeCellData, if_neg (by simp [huniform])] at hwrite'
    simp only [hdata, hlevels, if_true, show ¬ (2 = 1) by decide, if_false] at hwrite'
    split_ifs at hwrite'
    obtain ⟨⟨once, count, again⟩, hpulses, heq⟩ := Option.map_eq_some_iff.mp hwrite'
    obtain ⟨rfl, rfl⟩ := Prod.mk.inj heq
    exact ⟨once, count, again, _, p.allowedCount_of_pulses hpulses, hwrite, by simp⟩

/-- Cells of two bits that are written pair by pair. -/
private def pairParams : Params :=
  { Params.defaults with mlcLevels := 2, uniformWrites := false, ndebug := false }

/-- A write of the given words to a subarray. -/
private def wordsRequest (words : List UInt32) : NVMainRequest 1 1 :=
  { id := some 0, type := .write, bank := Fin.last 0, subarray := Fin.last 0,
    rawData := some words }

/-- A write of words with the pairs 00 and 01. -/
theorem writeCellData_selects_mixed :
    ∃ once count again starts,
      pairParams.AllowedCount (List.replicate 16 0x11111111) count ∧
      pairParams.writeCellData 0 (wordsRequest (List.replicate 16 0x11111111)) =
        some (once + count * again, starts) ∧ starts.length = count + 1 :=
  (writeCellData_selects_iff pairParams rfl rfl rfl 0 _ _ rfl).mpr
    ⟨by decide, Or.inl ⟨0, by decide, 0, by decide, by decide⟩⟩

/-- A write of words with the pairs 00 and 11 fails. -/
theorem writeCellData_fails_extremes :
    pairParams.mlcLevels = 2 ∧
      pairParams.writeCellData 0 (wordsRequest (List.replicate 16 0x0000ffff)) = none := by
  decide

end Params

end HybridMemory.NVMain.CommandPath
