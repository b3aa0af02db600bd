import HybridMemory.NVMain.CacheAssoc

/-!
# Tag, index and address

The cache takes an address apart into a tag and the number of a set, and `GetPA` puts the two
together again when a line is written back. For a line of `2 ^ b` bytes and `2 ^ s` sets the
index is meant to be the `s` bits above the offset. `GetIndex` masks the address with
`set_mask` *before* it shifts, so that what is left are the bits from `b` up to `s`, and the
bits from `max b s` up to `b + s` are in neither the index nor the tag.

`roundTrip_iff` says for which addresses nothing is lost. The shifts are those of the machine,
whose amounts count modulo 64.
-/

namespace HybridMemory.NVMain

namespace CacheConfig

variable {c : CacheConfig} {b s : ℕ}

/-- Block size and number of sets are powers of two. -/
structure PowerOfTwo (c : CacheConfig) (b s : ℕ) : Prop where
  cacheLineSize : c.cacheLineSize.toNat = 2 ^ b
  setNum : c.setNum.toNat = 2 ^ s

/-- The address with its block offset cleared. -/
def line (c : CacheConfig) (pa : UInt64) : UInt64 := pa &&& ~~~(c.cacheLineSize - 1)

/-- No bit of the address is lost between index and tag, and none of the offset is kept. -/
def Recoverable (b s : ℕ) (pa : UInt64) : Prop :=
  ∀ i < 64, pa.toBitVec.getLsbD i = true →
    ¬ (max b s ≤ i ∧ i < (b + s) % 64) ∧ ¬ ((b + s) % 64 ≤ i ∧ i < b)

instance (b s : ℕ) (pa : UInt64) : Decidable (Recoverable b s pa) :=
  inferInstanceAs (Decidable (∀ i < 64, _))

/-! ### Powers of two -/

theorem lt_of_toNat_eq_two_pow {x : UInt64} {n : ℕ} (h : x.toNat = 2 ^ n) : n < 64 :=
  (Nat.pow_lt_pow_iff_right (Nat.lt_succ_self 1)).mp (h ▸ x.toNat_lt)

/-- `Log2` is right on the powers of two. -/
theorem toNat_log2 {x : UInt64} {n : ℕ} (h : x.toNat = 2 ^ n) : (log2 x).toNat = n := by
  have hall : ∀ k : Fin 64, (log2 (UInt64.ofNat (2 ^ (k : ℕ)))).toNat = k := by decide
  have hx : x = UInt64.ofNat (2 ^ n) := by rw [← h, UInt64.ofNat_toNat]
  exact hx ▸ hall ⟨n, lt_of_toNat_eq_two_pow h⟩

theorem toNat_sub_one {x : UInt64} {n : ℕ} (h : x.toNat = 2 ^ n) :
    (x - 1).toNat = 2 ^ n - 1 := by
  have hpos : 0 < 2 ^ n := Nat.two_pow_pos n
  rw [UInt64.toNat_sub_of_le x 1 (UInt64.le_iff_toNat_le.mpr (h ▸ hpos)), h]
  rfl

/-- The bits of the mask `2 ^ n - 1`. -/
theorem getLsbD_sub_one {x : UInt64} {n : ℕ} (h : x.toNat = 2 ^ n) (i : ℕ) :
    (x - 1).toBitVec.getLsbD i = decide (i < n) := by
  rw [BitVec.getLsbD, UInt64.toNat_toBitVec, toNat_sub_one h, Nat.testBit_two_pow_sub_one]

theorem getLsbD_shiftRight (x y : UInt64) (i : ℕ) :
    (x >>> y).toBitVec.getLsbD i = x.toBitVec.getLsbD (y.toNat % 64 + i) := by
  rw [BitVec.getLsbD, UInt64.toNat_toBitVec, UInt64.toNat_shiftRight, Nat.testBit_shiftRight]
  rfl

theorem getLsbD_shiftLeft (x y : UInt64) {i : ℕ} (hi : i < 64) :
    (x <<< y).toBitVec.getLsbD i =
      (decide (y.toNat % 64 ≤ i) && x.toBitVec.getLsbD (i - y.toNat % 64)) := by
  rw [BitVec.getLsbD, UInt64.toNat_toBitVec, UInt64.toNat_shiftLeft, Nat.testBit_mod_two_pow,
    Nat.testBit_shiftLeft]
  simp [hi, BitVec.getLsbD]

namespace PowerOfTwo

variable (h : c.PowerOfTwo b s)
include h

theorem toNat_setShift : c.setShift.toNat = b := toNat_log2 h.cacheLineSize

theorem toNat_tagShift : c.tagShift.toNat = b + s := by
  have hb := lt_of_toNat_eq_two_pow h.cacheLineSize
  have hs := lt_of_toNat_eq_two_pow h.setNum
  rw [tagShift, UInt64.toNat_add, h.toNat_setShift, toNat_log2 h.setNum]
  omega

/-! ### The bits of the parts -/

theorem getLsbD_line (pa : UInt64) {i : ℕ} (hi : i < 64) :
    (c.line pa).toBitVec.getLsbD i = (pa.toBitVec.getLsbD i && decide (b ≤ i)) := by
  rw [line, UInt64.toBitVec_and, UInt64.toBitVec_not, BitVec.getLsbD_and, BitVec.getLsbD_not,
    getLsbD_sub_one h.cacheLineSize]
  simp [hi, ← decide_not]

theorem getLsbD_getIndex (pa : UInt64) (i : ℕ) :
    (c.getIndex pa).toBitVec.getLsbD i = (pa.toBitVec.getLsbD (b + i) && decide (b + i < s)) := by
  have hb := lt_of_toNat_eq_two_pow h.cacheLineSize
  rw [getIndex, getLsbD_shiftRight, h.toNat_setShift, Nat.mod_eq_of_lt hb, UInt64.toBitVec_and,
    BitVec.getLsbD_and, setMask, getLsbD_sub_one h.setNum]

/-- The bits that `GetPA` puts together. -/
theorem getLsbD_getPA (pa : UInt64) {i : ℕ} (hi : i < 64) :
    (c.getPA (c.getTag pa) (c.getIndex pa)).toBitVec.getLsbD i =
      (pa.toBitVec.getLsbD i && decide ((b + s) % 64 ≤ i ∨ b ≤ i ∧ i < s)) := by
  have hb := lt_of_toNat_eq_two_pow h.cacheLineSize
  rw [getPA, UInt64.toBitVec_or, BitVec.getLsbD_or, getLsbD_shiftLeft _ _ hi, getTag,
    getLsbD_shiftRight, getLsbD_shiftLeft _ _ hi, h.getLsbD_getIndex, h.toNat_tagShift,
    h.toNat_setShift, Nat.mod_eq_of_lt hb]
  by_cases ht : (b + s) % 64 ≤ i
  · rw [Nat.add_sub_cancel' ht]
    by_cases hbi : b ≤ i
    · simp only [ht, hbi, Nat.add_sub_cancel' hbi, decide_true, true_or, Bool.true_and]
      cases pa.toBitVec.getLsbD i <;> simp
    · simp [ht, hbi]
  · by_cases hbi : b ≤ i
    · simp [ht, hbi, Nat.add_sub_cancel' hbi]
    · simp [ht, hbi]

/-- `GetIndex` yields the number of a set. -/
theorem getIndex_lt (pa : UInt64) : c.getIndex pa < c.setNum := by
  have hle : (c.getIndex pa).toNat ≤ c.setMask.toNat := by
    rw [getIndex, UInt64.toNat_shiftRight, UInt64.toNat_and]
    exact (Nat.shiftRight_le _ _).trans Nat.and_le_right
  have hpos : 0 < 2 ^ s := Nat.two_pow_pos s
  rw [setMask, toNat_sub_one h.setNum] at hle
  rw [UInt64.lt_iff_toNat_lt, h.setNum]
  omega

/-- **The round trip.** `GetPA` gives the line of the address back if and only if no bit gets
lost. -/
theorem roundTrip_iff (pa : UInt64) :
    c.getPA (c.getTag pa) (c.getIndex pa) = c.line pa ↔ Recoverable b s pa := by
  have hbit : ∀ i < 64, (pa.toBitVec.getLsbD i && decide ((b + s) % 64 ≤ i ∨ b ≤ i ∧ i < s)) =
      (pa.toBitVec.getLsbD i && decide (b ≤ i)) ↔
      (pa.toBitVec.getLsbD i = true →
        ¬ (max b s ≤ i ∧ i < (b + s) % 64) ∧ ¬ ((b + s) % 64 ≤ i ∧ i < b)) := by
    intro i _
    cases pa.toBitVec.getLsbD i with
    | false => simp
    | true =>
      simp only [Bool.true_and, decide_eq_decide, forall_const, max_le_iff]
      omega
  constructor
  · intro heq i hi
    refine (hbit i hi).mp ?_
    rw [← h.getLsbD_getPA pa hi, heq, h.getLsbD_line pa hi]
  · intro hrec
    refine UInt64.toBitVec_inj.mp (BitVec.eq_of_getLsbD_eq fun i hi => ?_)
    rw [h.getLsbD_getPA pa hi, h.getLsbD_line pa hi]
    exact (hbit i hi).mpr (hrec i hi)

end PowerOfTwo

/-! ### Addresses and lines -/

/-- **What tag and index tell about an address.** With block size and number of sets powers
of two, the parts of an address make its line again and the index is one of a set if and only
if no bit between index and tag is set; two such addresses with the same tag and index are in
the same line. -/
theorem getPA_getTag_getIndex_iff (c : CacheConfig) {b s : ℕ} (h : c.PowerOfTwo b s) :
    (∀ pa, (c.getPA (c.getTag pa) (c.getIndex pa) = c.line pa ∧ c.getIndex pa < c.setNum) ↔
      Recoverable b s pa) ∧
    ∀ pa pa', Recoverable b s pa → Recoverable b s pa' → c.getTag pa = c.getTag pa' →
      c.getIndex pa = c.getIndex pa' → c.line pa = c.line pa' := by
  refine ⟨fun pa => ?_, fun pa pa' hpa hpa' htag hindex => ?_⟩
  · rw [h.roundTrip_iff]
    exact and_iff_left (h.getIndex_lt pa)
  · rw [← (h.roundTrip_iff pa).mpr hpa, ← (h.roundTrip_iff pa').mpr hpa', htag, hindex]

/-- A cache of 4 ways, 256 sets and lines of 64 bytes, at an address below its 256th byte. -/
theorem getPA_getTag_getIndex_small :
    (CacheConfig.mk 4 256 64).getPA ((CacheConfig.mk 4 256 64).getTag 0xc8)
      ((CacheConfig.mk 4 256 64).getIndex 0xc8) = 0xc0 := by
  have h : (CacheConfig.mk 4 256 64).PowerOfTwo 6 8 := ⟨rfl, rfl⟩
  have hrec : Recoverable 6 8 0xc8 := by decide
  exact (((getPA_getTag_getIndex_iff _ h).1 0xc8).mpr hrec).1.trans (by decide)

/-- With lines of 4 bytes and 4 sets the addresses 0 and 4 have the same tag and index, and
neither makes the line of 4 again. -/
theorem getPA_getTag_getIndex_conflict :
    (CacheConfig.mk 1 4 4).PowerOfTwo 2 2 ∧
      (CacheConfig.mk 1 4 4).line 0 ≠ (CacheConfig.mk 1 4 4).line 4 ∧
      (CacheConfig.mk 1 4 4).getTag 0 = (CacheConfig.mk 1 4 4).getTag 4 ∧
      (CacheConfig.mk 1 4 4).getIndex 0 = (CacheConfig.mk 1 4 4).getIndex 4 ∧
      (CacheConfig.mk 1 4 4).getPA ((CacheConfig.mk 1 4 4).getTag 4)
        ((CacheConfig.mk 1 4 4).getIndex 4) ≠ (CacheConfig.mk 1 4 4).line 4 := by
  refine ⟨⟨rfl, rfl⟩, ?_, ?_, ?_, ?_⟩ <;> decide

end CacheConfig

end HybridMemory.NVMain
