import HybridMemory.NVMain.FlipNWrite

/-!
# Decoding a flipped word

What Flip-N-Write has stored is read by complementing the partitions in `flippedAddresses`.
Whether that gives the data back depends on `InvertData` alone, which should complement a
partition. It collects the complements of the bits from the highest place of the byte on, so
that a byte comes out reversed, and it clears the bits of the byte that are outside of the
partition. So a stored word decodes to its data if the partitions that were inverted are made
of whole bytes that read the same in both directions, and for partitions of whole bytes only
then (`decodes_stored`). `invertData_complements_iff` has the condition for any block and range
of bits.

`FlipMemory` has the words of all addresses next to the encoder, both as they are stored and
as they were given to `Write`.
-/

namespace HybridMemory.NVMain

open Transition Function

/-! ### Bytes -/

namespace DataBlock

variable {n : ℕ}

/-- The byte reads the same in both directions. -/
def Palindrome (b : UInt8) : Prop := ∀ j < 8, b.toNat.testBit j = b.toNat.testBit (7 - j)

instance (b : UInt8) : Decidable (Palindrome b) := inferInstanceAs (Decidable (∀ j < 8, _))

/-- The byte with the selected bits complemented. -/
def complementBits (selected : ℕ → Bool) (b : UInt8) : UInt8 :=
  (List.range 8).foldl
    (fun b j => if selected j then b ^^^ 1 <<< UInt8.ofNat j else b) b

/-- The block with the bits of the marked partitions complemented. -/
def complementWhere (fpSize : ℕ) (marked : ℕ → Bool) (d : DataBlock n) : DataBlock n :=
  fun q => complementBits (fun j => marked ((8 * q + j) / fpSize)) (d q)

theorem complementBits_false {selected : ℕ → Bool} (h : ∀ j < 8, selected j = false)
    (b : UInt8) : complementBits selected b = b := by
  have hbits := List.foldl_ext (l := List.range 8)
    (fun b j => if selected j then b ^^^ 1 <<< UInt8.ofNat j else b) (fun b _ => b) b
    fun b j hj => by simp [h j (List.mem_range.mp hj)]
  exact hbits

theorem complementBits_true {selected : ℕ → Bool} (h : ∀ j < 8, selected j = true)
    (b : UInt8) : complementBits selected b = complementBits (fun _ => true) b :=
  List.foldl_ext _ _ b fun b j hj => by simp [h j (List.mem_range.mp hj)]

/-- **Complementing an inverted byte** gives the byte back if and only if it reads the same
in both directions. -/
theorem complementBits_invertByte_iff (b : UInt8) :
    complementBits (fun _ => true) (invertByte 0 0 8 b) = b ↔ Palindrome b := by
  have hall : ∀ k : Fin 256,
      complementBits (fun _ => true) (invertByte 0 0 8 (UInt8.ofNat k)) = UInt8.ofNat k ↔
        Palindrome (UInt8.ofNat k) := by
    decide +kernel
  have hb := hall ⟨b.toNat, b.toNat_lt⟩
  rwa [UInt8.ofNat_toNat] at hb

/-- Every bit of the byte is in the range. -/
theorem invertByte_eq {i startBit endBit : ℕ} (hstart : startBit ≤ 8 * i)
    (hend : 8 * i + 8 ≤ endBit) (b : UInt8) :
    invertByte i startBit endBit b = invertByte 0 0 8 b := by
  unfold invertByte
  congr 1
  refine List.foldl_ext _ _ _ fun bytes j hj => ?_
  have hj := List.mem_range.mp hj
  simp only [invertBit]
  rw [if_neg (show ¬ (i * 8 + j < startBit ∨ endBit ≤ i * 8 + j) by omega),
    if_neg (show ¬ (0 * 8 + j < 0 ∨ 8 ≤ 0 * 8 + j) by omega)]

/-- `InvertData` goes through the bytes one by one. -/
theorem invertData_apply (d : DataBlock n) (startBit endBit : ℕ) (q : Fin n) :
    d.invertData startBit endBit q =
      if startBit / 8 ≤ q ∧ (q : ℕ) < (endBit + 7) / 8 then
        invertByte q startBit endBit (d q)
      else d q := by
  have hloop : ∀ k, (List.range' (startBit / 8) k).foldl
      (fun d i => d.setByte i (invertByte i startBit endBit (d.getByte i))) d q =
        if startBit / 8 ≤ q ∧ (q : ℕ) < startBit / 8 + k then invertByte q startBit endBit (d q)
        else d q := by
    intro k
    induction k with
    | zero => simp
    | succ k ih =>
      rw [List.range'_concat, List.foldl_append, List.foldl_cons, List.foldl_nil, setByte]
      by_cases hq : (q : ℕ) = startBit / 8 + 1 * k
      · have hget : getByte ((List.range' (startBit / 8) k).foldl (fun d i =>
            d.setByte i (invertByte i startBit endBit (d.getByte i))) d) q = d q := by
          rw [getByte, dif_pos q.isLt]
          exact ih.trans (if_neg (by omega))
        rw [if_pos hq, ← hq, hget, if_pos (by omega)]
      · rw [if_neg hq, ih]
        exact if_congr (by omega) rfl rfl
  rw [invertData, hloop]
  exact if_congr (by omega) rfl rfl

/-! ### The bits of an inverted block -/

/-- The bit is one of the range from `startBit` to `endBit`. -/
def InBits (startBit endBit b : ℕ) : Prop := startBit ≤ b ∧ b < endBit

instance (startBit endBit b : ℕ) : Decidable (InBits startBit endBit b) :=
  inferInstanceAs (Decidable (_ ∧ _))

/-- The byte of the bit is one that `InvertData` writes. -/
def Touched (startBit endBit b : ℕ) : Prop := startBit / 8 ≤ b / 8 ∧ b / 8 < (endBit + 7) / 8

instance (startBit endBit b : ℕ) : Decidable (Touched startBit endBit b) :=
  inferInstanceAs (Decidable (_ ∧ _))

/-- The bit at the opposite place of the same byte. -/
def mirror (b : ℕ) : ℕ := b / 8 * 8 + (7 - b % 8)

variable {startBit endBit b : ℕ}

theorem mirror_lt (h : b < 8 * n) : mirror b < 8 * n := by
  unfold mirror
  omega

theorem mirror_mirror (b : ℕ) : mirror (mirror b) = b := by
  unfold mirror
  omega

theorem InBits.touched (h : InBits startBit endBit b) : Touched startBit endBit b := by
  obtain ⟨hstart, hend⟩ := h
  unfold Touched
  omega

theorem touched_mirror : Touched startBit endBit (mirror b) ↔ Touched startBit endBit b := by
  unfold Touched mirror
  omega

theorem and_one_eq_zero_iff (x : UInt8) : x &&& 0x1 = 0 ↔ x.toNat.testBit 0 = false := by
  rw [← UInt8.toNat_inj, UInt8.toNat_and, UInt8.toNat_one, Nat.and_one_is_mod, Nat.testBit_zero]
  simp

theorem toNat_one_shiftLeft {j : ℕ} (hj : j < 8) : (1 <<< UInt8.ofNat j : UInt8).toNat = 2 ^ j := by
  have hall : ∀ j : Fin 8, (1 <<< UInt8.ofNat j : UInt8).toNat = 2 ^ (j : ℕ) := by decide
  exact hall ⟨j, hj⟩

/-- The bits of `shiftByte` and `newByte` after `k` turns of the loop over a byte. -/
structure Inverted (i startBit endBit : ℕ) (byte : UInt8) (k : ℕ) (bytes : UInt8 × UInt8) :
    Prop where
  shiftByte : ∀ m, bytes.1.toNat.testBit m = byte.toNat.testBit (k + m)
  newByte : ∀ j < 8, bytes.2.toNat.testBit (7 - j) =
    (decide (j < k ∧ InBits startBit endBit (i * 8 + j)) && !byte.toNat.testBit j)

theorem Inverted.invertBit {i k : ℕ} {byte : UInt8} {bytes : UInt8 × UInt8} (hk : k < 8)
    (h : Inverted i startBit endBit byte k bytes) :
    Inverted i startBit endBit byte (k + 1)
      (DataBlock.invertBit i startBit endBit bytes k) := by
  have hbit : bytes.1 &&& 0x1 = 0 ↔ byte.toNat.testBit k = false := by
    rw [and_one_eq_zero_iff, h.shiftByte, Nat.add_zero]
  have hrange : (i * 8 + k < startBit ∨ endBit ≤ i * 8 + k) ↔
      ¬ InBits startBit endBit (i * 8 + k) := by
    unfold InBits
    omega
  have hshift : ∀ m, (bytes.1 >>> 1).toNat.testBit m = byte.toNat.testBit (k + 1 + m) := by
    intro m
    rw [UInt8.toNat_shiftRight, Nat.testBit_shiftRight, h.shiftByte, add_assoc]
    rfl
  -- a turn that leaves `newByte` alone
  have hskip (hnot : ¬ (InBits startBit endBit (i * 8 + k) ∧ byte.toNat.testBit k = false)) :
      Inverted i startBit endBit byte (k + 1) (bytes.1 >>> 1, bytes.2) := by
    refine ⟨hshift, fun j hj => (h.newByte j hj).trans ?_⟩
    by_cases hjk : j = k
    · subst hjk
      cases hb : byte.toNat.testBit j with
      | false => simp [show ¬ InBits startBit endBit (i * 8 + j) from fun hin => hnot ⟨hin, hb⟩]
      | true => simp
    · rw [decide_eq_decide.mpr (and_congr_left' (show j < k ↔ j < k + 1 by omega))]
  simp only [DataBlock.invertBit, hrange, hbit]
  by_cases hset : InBits startBit endBit (i * 8 + k) ∧ byte.toNat.testBit k = false
  · obtain ⟨hin, hzero⟩ := hset
    rw [if_neg (not_not.mpr hin), if_pos hzero]
    refine ⟨hshift, fun j hj => ?_⟩
    rw [UInt8.toNat_or, Nat.testBit_or, toNat_one_shiftLeft (by omega), Nat.testBit_two_pow,
      h.newByte j hj]
    by_cases hjk : j = k
    · subst hjk
      simp [hzero, hin]
    · have hne : 7 - k ≠ 7 - j := by omega
      have hlt : j < k + 1 ↔ j < k := by omega
      simp [hne, hlt]
  · split_ifs with hin hzero
    · exact absurd ⟨hin, hzero⟩ hset
    · exact hskip hset
    · exact hskip hset

/-- The bits of an inverted byte. -/
theorem testBit_invertByte (i startBit endBit : ℕ) (byte : UInt8) {j : ℕ} (hj : j < 8) :
    (invertByte i startBit endBit byte).toNat.testBit (7 - j) =
      (decide (InBits startBit endBit (i * 8 + j)) && !byte.toNat.testBit j) := by
  have hloop : ∀ k ≤ 8, Inverted i startBit endBit byte k
      ((List.range k).foldl (DataBlock.invertBit i startBit endBit) (byte, 0)) := by
    intro k hk
    induction k with
    | zero => exact ⟨fun m => by simp, fun j _ => by simp⟩
    | succ k ih =>
      rw [List.range_succ, List.foldl_append]
      exact (ih (by omega)).invertBit (by omega)
  have hbit := (hloop 8 le_rfl).newByte j hj
  simp only [hj, true_and] at hbit
  exact hbit

/-- **The bits of an inverted block.** In a byte that is written, a bit is set if the opposite
bit of the byte is in the range and not set. -/
theorem bitAt_invertData (d : DataBlock n) (hb : b < 8 * n) :
    (d.invertData startBit endBit).bitAt b =
      if Touched startBit endBit b then
        decide (InBits startBit endBit (mirror b)) && !d.bitAt (mirror b)
      else d.bitAt b := by
  have hq : b / 8 < n := by omega
  have hbyte (d : DataBlock n) : d.bitAt b = (d ⟨b / 8, hq⟩).toNat.testBit (b % 8) := by
    rw [bitAt, getByte, dif_pos hq]
  have hmirror : d.bitAt (mirror b) = (d ⟨b / 8, hq⟩).toNat.testBit (7 - b % 8) := by
    have hlt : 7 - b % 8 < 8 := by omega
    rw [mirror, mul_comm, bitAt_add d _ hlt, getByte, dif_pos hq]
  have hinvert : d.invertData startBit endBit ⟨b / 8, hq⟩ = if Touched startBit endBit b then
      invertByte (b / 8) startBit endBit (d ⟨b / 8, hq⟩) else d ⟨b / 8, hq⟩ :=
    invertData_apply d startBit endBit ⟨b / 8, hq⟩
  rw [hbyte, hinvert]
  by_cases htouch : Touched startBit endBit b
  · have hplace : 7 - (7 - b % 8) = b % 8 := by omega
    have hbit := testBit_invertByte (b / 8) startBit endBit (d ⟨b / 8, hq⟩)
      (show 7 - b % 8 < 8 by omega)
    rw [hplace] at hbit
    rw [if_pos htouch, if_pos htouch, hbit, hmirror, mirror]
  · rw [if_neg htouch, if_neg htouch, hbyte]

/-- Blocks are equal if their bits are. -/
theorem ext_bitAt {d d' : DataBlock n} (h : ∀ b < 8 * n, d.bitAt b = d'.bitAt b) : d = d' := by
  funext q
  refine UInt8.toNat.inj (Nat.eq_of_testBit_eq fun j => ?_)
  by_cases hj : j < 8
  · have hq := q.isLt
    have hbit := h (8 * q + j) (by omega)
    rwa [bitAt_add d q hj, bitAt_add d' q hj, getByte, getByte, dif_pos hq, dif_pos hq] at hbit
  · have hpow : 2 ^ 8 ≤ 2 ^ j := Nat.pow_le_pow_right (by decide) (by omega)
    rw [Nat.testBit_lt_two_pow ((d q).toNat_lt.trans_le hpow),
      Nat.testBit_lt_two_pow ((d' q).toNat_lt.trans_le hpow)]

/-- In the bytes that are written, the bits outside of the range are zero, those whose opposite
bit is outside of the range are one, and the others of the range are equal to their opposite. -/
def Reflected (d : DataBlock n) (startBit endBit : ℕ) : Prop :=
  ∀ b < 8 * n, Touched startBit endBit b →
    if InBits startBit endBit b then
      if InBits startBit endBit (mirror b) then d.bitAt b = d.bitAt (mirror b)
      else d.bitAt b = true
    else d.bitAt b = false

/-- In the bytes that are written, a bit whose opposite is outside of the range is zero, and one
outside of the range whose opposite is in it is one. -/
def Restorable (d : DataBlock n) (startBit endBit : ℕ) : Prop :=
  ∀ b < 8 * n, Touched startBit endBit b →
    if InBits startBit endBit (mirror b) then InBits startBit endBit b ∨ d.bitAt b = true
    else d.bitAt b = false

theorem complements_iff_reflected (d : DataBlock n) :
    (∀ b < 8 * n, (d.invertData startBit endBit).bitAt b =
      (d.bitAt b ^^ decide (InBits startBit endBit b))) ↔ d.Reflected startBit endBit := by
  -- a bit and its opposite are decided together
  constructor
  · intro h b hb htouch
    have hbit := h b hb
    have hopposite := h (mirror b) (mirror_lt hb)
    rw [bitAt_invertData d hb, if_pos htouch] at hbit
    rw [bitAt_invertData d (mirror_lt hb), if_pos (touched_mirror.mpr htouch), mirror_mirror]
      at hopposite
    by_cases hin : InBits startBit endBit b <;>
      by_cases hmirror : InBits startBit endBit (mirror b) <;> simp_all
  · intro h b hb
    rw [bitAt_invertData d hb]
    by_cases htouch : Touched startBit endBit b
    · have hbit := h b hb htouch
      have hopposite := h (mirror b) (mirror_lt hb) (touched_mirror.mpr htouch)
      rw [mirror_mirror] at hopposite
      rw [if_pos htouch]
      by_cases hin : InBits startBit endBit b <;>
        by_cases hmirror : InBits startBit endBit (mirror b) <;> simp_all
    · simp [htouch, mt InBits.touched htouch]

theorem invertData_invertData_iff (d : DataBlock n) :
    (d.invertData startBit endBit).invertData startBit endBit = d ↔
      d.Restorable startBit endBit := by
  refine Iff.trans ⟨fun h b _ => congrArg (bitAt · b) h, ext_bitAt⟩
    (forall₂_congr fun b hb => ?_)
  rw [bitAt_invertData _ hb, bitAt_invertData d (mirror_lt hb), bitAt_invertData d hb,
    mirror_mirror, if_congr touched_mirror rfl rfl]
  by_cases htouch : Touched startBit endBit b
  · by_cases hin : InBits startBit endBit b <;>
      by_cases hmirror : InBits startBit endBit (mirror b) <;> simp [htouch, hin, hmirror]
  · simp [htouch]

/-- Every bit of a range of whole bytes has its opposite in the range. -/
theorem restorable_of_dvd (d : DataBlock n) (hstart : 8 ∣ startBit) (hend : 8 ∣ endBit) :
    d.Restorable startBit endBit := by
  intro b _ htouch
  have hall : InBits startBit endBit b ∧ InBits startBit endBit (mirror b) := by
    unfold Touched at htouch
    unfold InBits mirror
    omega
  rw [if_pos hall.2]
  exact Or.inl hall.1

/-- **What `InvertData` complements.** It complements the bits of a range and no others exactly
if the bytes that it writes are reflected. A second call gives the block back exactly if the block
is restorable; so it does for every range of whole bytes. -/
theorem invertData_complements_iff (d : DataBlock n) (startBit endBit : ℕ) :
    ((∀ b < 8 * n, (d.invertData startBit endBit).bitAt b =
      (d.bitAt b ^^ decide (InBits startBit endBit b))) ↔ d.Reflected startBit endBit) ∧
    ((d.invertData startBit endBit).invertData startBit endBit = d ↔
      d.Restorable startBit endBit) ∧
    (8 ∣ startBit → 8 ∣ endBit →
      (d.invertData startBit endBit).invertData startBit endBit = d) := by
  refine ⟨d.complements_iff_reflected, d.invertData_invertData_iff, fun hstart hend => ?_⟩
  exact d.invertData_invertData_iff.mpr (d.restorable_of_dvd hstart hend)

/-- A block of one byte with its lowest bit set. -/
private def lowestBit : DataBlock 1 := fun _ => 0x01

/-- The complement of the byte is `0xfe`. -/
theorem invertData_reverses :
    lowestBit.invertData 0 8 = (fun _ => 0x7f) ∧
      (lowestBit.invertData 0 8).bitAt 0 = lowestBit.bitAt 0 ∧
      (lowestBit.invertData 0 4).invertData 0 4 ≠ lowestBit := by
  decide

end DataBlock

/-! ### Partitions of whole bytes -/

namespace FlipConfig

variable {c : FlipConfig}

theorem invertWhere_succ (marked : ℕ → Bool) (d : DataBlock c.wordSize) (k : ℕ) :
    c.invertWhere marked d (k + 1) =
      if marked k then (c.invertWhere marked d k).invertData (k * c.fpSize) ((k + 1) * c.fpSize)
      else c.invertWhere marked d k := by
  simp [invertWhere, List.range_succ]

theorem invertWhere_congr {marked marked' : ℕ → Bool} (d : DataBlock c.wordSize) {k : ℕ}
    (h : ∀ i < k, marked i = marked' i) : c.invertWhere marked d k = c.invertWhere marked' d k :=
  List.foldl_ext _ _ d fun d i hi => by rw [h i (List.mem_range.mp hi)]

theorem invertWhere_of_forall_false {marked : ℕ → Bool} (d : DataBlock c.wordSize) {k : ℕ}
    (h : ∀ i < k, marked i = false) : c.invertWhere marked d k = d := by
  induction k with
  | zero => rfl
  | succ k ih =>
    rw [invertWhere_succ, h k (Nat.lt_succ_self k), ih fun i hi => h i (by omega)]
    rfl

/-- In partitions of whole bytes, the bytes of the marked ones are inverted. -/
theorem invertWhere_apply {g : ℕ} (hg : c.fpSize = 8 * g) (marked : ℕ → Bool)
    (d : DataBlock c.wordSize) (k : ℕ) (q : Fin c.wordSize) :
    c.invertWhere marked d k q =
      if marked (q / g) = true ∧ q / g < k then DataBlock.invertByte 0 0 8 (d q) else d q := by
  have hpos : 0 < g := by
    have := c.fpSize_pos
    omega
  induction k with
  | zero => simp [invertWhere]
  | succ k ih =>
    have hstart : k * c.fpSize = 8 * (k * g) := by rw [hg]; ring
    have hend : (k + 1) * c.fpSize = 8 * (k * g + g) := by rw [hg]; ring
    have hrange : k * c.fpSize / 8 ≤ q ∧ (q : ℕ) < ((k + 1) * c.fpSize + 7) / 8 ↔
        q / g = k := by
      rw [Nat.div_eq_iff hpos]
      have : 0 < k * g + g := Nat.add_pos_right _ hpos
      omega
    rw [invertWhere_succ]
    cases hk : marked k with
    | false =>
      rw [if_neg (by simp), ih]
      refine if_congr (and_congr_right fun hmark => ?_) rfl rfl
      have hne : (q : ℕ) / g ≠ k := fun heq => by simp [heq, hk] at hmark
      omega
    | true =>
      rw [if_pos rfl, DataBlock.invertData_apply]
      by_cases hq : (q : ℕ) / g = k
      · obtain ⟨hlo, hhi⟩ := hrange.mpr hq
        rw [if_pos ⟨hlo, hhi⟩, ih, if_neg (by omega), if_pos ⟨hq ▸ hk, by omega⟩]
        refine DataBlock.invertByte_eq ?_ ?_ _
        · omega
        · omega
      · rw [if_neg (mt hrange.mp hq), ih]
        exact if_congr (and_congr_right fun _ => by omega) rfl rfl

theorem complementWhere_apply {g : ℕ} (hg : c.fpSize = 8 * g) (marked : ℕ → Bool)
    (d : DataBlock c.wordSize) (q : Fin c.wordSize) :
    DataBlock.complementWhere c.fpSize marked d q =
      if marked (q / g) then DataBlock.complementBits (fun _ => true) (d q) else d q := by
  have hpart : ∀ j < 8, (8 * (q : ℕ) + j) / c.fpSize = q / g := by
    intro j hj
    rw [hg, ← Nat.div_div_eq_div_mul]
    congr 1
    omega
  rw [DataBlock.complementWhere]
  split_ifs with hmark
  · exact DataBlock.complementBits_true (fun j hj => by rw [hpart j hj, hmark]) _
  · exact DataBlock.complementBits_false
      (fun j hj => by rw [hpart j hj]; simpa using hmark) _

/-! ### Marks and decoding -/

theorem div_lt_flipPartitions {b : ℕ} (hb : b < 8 * c.wordSize) :
    b / c.fpSize < c.flipPartitions :=
  Nat.div_lt_div_of_lt_of_dvd c.fpSize_dvd (show b < c.wordSize * 8 by omega)

theorem complementWhere_congr {marked marked' : ℕ → Bool} (d : DataBlock c.wordSize)
    (h : ∀ i < c.flipPartitions, marked i = marked' i) :
    DataBlock.complementWhere c.fpSize marked d =
      DataBlock.complementWhere c.fpSize marked' d := by
  funext q
  unfold DataBlock.complementWhere DataBlock.complementBits
  refine List.foldl_ext _ _ _ fun b j hj => ?_
  have hj := List.mem_range.mp hj
  have hq := q.isLt
  simp only [h _ (div_lt_flipPartitions (show 8 * (q : ℕ) + j < 8 * c.wordSize by omega))]

/-- The marked partitions are made of whole bytes that read the same in both directions. -/
def Symmetric (c : FlipConfig) (marked : ℕ → Bool) (d : DataBlock c.wordSize) : Prop :=
  ∀ i < c.flipPartitions, marked i = true →
    8 ∣ c.fpSize ∧ ∀ q : Fin c.wordSize, 8 * (q : ℕ) / c.fpSize = i → DataBlock.Palindrome (d q)

instance (marked : ℕ → Bool) (d : DataBlock c.wordSize) : Decidable (c.Symmetric marked d) :=
  inferInstanceAs (Decidable (∀ i < c.flipPartitions, _))

/-- One byte of a word in partitions of whole bytes, inverted and decoded. -/
theorem complementWhere_invertWhere_apply {g : ℕ} (hg : c.fpSize = 8 * g) (marked : ℕ → Bool)
    (d : DataBlock c.wordSize) (q : Fin c.wordSize) :
    DataBlock.complementWhere c.fpSize marked (c.invertWhere marked d c.flipPartitions) q = d q ↔
      (marked (q / g) = true → DataBlock.Palindrome (d q)) := by
  have hlt : (q : ℕ) / g < c.flipPartitions := by
    have hq := q.isLt
    have hdiv := div_lt_flipPartitions (c := c) (b := 8 * q) (by omega)
    rwa [hg, Nat.mul_div_mul_left _ _ (by decide)] at hdiv
  rw [complementWhere_apply hg, invertWhere_apply hg]
  by_cases hmark : marked (q / g) = true
  · rw [if_pos hmark, if_pos ⟨hmark, hlt⟩, DataBlock.complementBits_invertByte_iff]
    exact (imp_iff_right hmark).symm
  · rw [if_neg hmark, if_neg fun h => hmark h.1]
    exact iff_of_true rfl fun h => absurd h hmark

/-- **Decoding undoes inverting** if the marked partitions are symmetric. -/
theorem complementWhere_invertWhere {marked : ℕ → Bool} {d : DataBlock c.wordSize}
    (h : c.Symmetric marked d) :
    DataBlock.complementWhere c.fpSize marked (c.invertWhere marked d c.flipPartitions) = d := by
  by_cases hbyte : 8 ∣ c.fpSize
  · obtain ⟨g, hg⟩ := hbyte
    funext q
    refine (complementWhere_invertWhere_apply hg marked d q).mpr fun hmark => ?_
    have hq := q.isLt
    have hdiv : 8 * (q : ℕ) / c.fpSize = q / g := by
      rw [hg, Nat.mul_div_mul_left _ _ (by decide)]
    exact (h _ (hdiv ▸ div_lt_flipPartitions (by omega)) hmark).2 q hdiv
  · have hnone : ∀ i < c.flipPartitions, marked i = false := fun i hi => by
      by_contra hmark
      exact hbyte (h i hi (by simpa using hmark)).1
    have hdecode : DataBlock.complementWhere c.fpSize marked d =
        DataBlock.complementWhere c.fpSize (fun _ => false) d := complementWhere_congr d hnone
    rw [invertWhere_of_forall_false d hnone, hdecode]
    funext q
    exact DataBlock.complementBits_false (fun _ _ => rfl) _

/-- For partitions of whole bytes, decoding undoes inverting only then. -/
theorem symmetric_of_complementWhere (hbyte : 8 ∣ c.fpSize) {marked : ℕ → Bool}
    {d : DataBlock c.wordSize}
    (h : DataBlock.complementWhere c.fpSize marked (c.invertWhere marked d c.flipPartitions) = d) :
    c.Symmetric marked d := by
  intro i _ hmark
  refine ⟨hbyte, fun q hq => ?_⟩
  obtain ⟨g, hg⟩ := hbyte
  rw [hg, Nat.mul_div_mul_left _ _ (by decide)] at hq
  exact (complementWhere_invertWhere_apply hg marked d q).mp (congrFun h q) (hq ▸ hmark)

/-- The places of different partitions differ. -/
theorem curAddr_injective {row row' i i' : ℕ} {col col' : Fin c.cols}
    (hi : i < c.flipPartitions) (hi' : i' < c.flipPartitions)
    (h : c.curAddr row col i = c.curAddr row' col' i') : (row, col) = (row', col') ∧ i = i' := by
  have hrow : c.rowPartitions = c.cols * c.flipPartitions := by
    rw [rowPartitions, rowSize, flipPartitions, Nat.mul_assoc]
    exact Nat.mul_div_assoc _ c.fpSize_dvd
  -- a place is a number with the digits row, column and partition
  have hdigits : ∀ row col i : ℕ,
      c.curAddr row col i = i + c.flipPartitions * (col + c.cols * row) := by
    intro row col i
    rw [curAddr, hrow]
    ring
  rw [hdigits, hdigits] at h
  have hpart : i = i' := by
    have := congrArg (· % c.flipPartitions) h
    simpa [Nat.add_mul_mod_self_left, Nat.mod_eq_of_lt hi, Nat.mod_eq_of_lt hi'] using this
  subst hpart
  have hword : (col : ℕ) + c.cols * row = col' + c.cols * row' :=
    Nat.eq_of_mul_eq_mul_left (Nat.zero_lt_of_lt hi) (Nat.add_left_cancel h)
  have hcol : (col : ℕ) = col' := by
    have := congrArg (· % c.cols) hword
    simpa [Nat.add_mul_mod_self_left, Nat.mod_eq_of_lt col.isLt, Nat.mod_eq_of_lt col'.isLt]
      using this
  have hrow' : row = row' := by
    rw [hcol] at hword
    exact Nat.eq_of_mul_eq_mul_left (Nat.zero_lt_of_lt col.isLt) (Nat.add_left_cancel hword)
  exact ⟨Prod.ext hrow' (Fin.ext hcol), rfl⟩

end FlipConfig

/-! ### The memory behind the encoder -/

/-- The encoder and, for every address, the word that is stored there and the data of the last
write. -/
structure FlipMemory (c : FlipConfig) where
  encoder : FlipNWrite
  stored : ℕ × Fin c.cols → Option (DataBlock c.wordSize)
  logical : ℕ × Fin c.cols → Option (DataBlock c.wordSize)

namespace FlipMemory

variable {c : FlipConfig}

def init (c : FlipConfig) : FlipMemory c := ⟨FlipNWrite.init, fun _ => none, fun _ => none⟩

variable (m : FlipMemory c) (r : FlipRequest c)

/-- The memory after a write. -/
def store : FlipMemory c where
  encoder := (m.encoder.write r).1
  stored := update m.stored (r.row, r.col) (some (m.encoder.write r).2)
  logical := update m.logical (r.row, r.col) (some r.data)

/-- A write, whose `oldData` are the data of the last write to its address. -/
def step (m : FlipMemory c) (r : FlipRequest c) : Option (FlipMemory c) :=
  if (m.logical (r.row, r.col)).all fun d => d = r.oldData then some (m.store r) else none

/-- The partitions of an address that are stored as their complement. -/
def marks (addr : ℕ × Fin c.cols) : ℕ → Bool := m.encoder.flipped c addr.1 addr.2

/-- The word at the address of a write, or its `oldData` if nothing has been written there. -/
def current : DataBlock c.wordSize := (m.stored (r.row, r.col)).getD r.oldData

/-- Every stored word decodes to the data of the last write. -/
def Decodes : Prop := ∀ addr d, m.logical addr = some d → ∃ w, m.stored addr = some w ∧
  DataBlock.complementWhere c.fpSize (m.marks addr) w = d

/-- The partitions of the new data that differ from the stored word in more than half of
their bits are symmetric. -/
def Reversible (m : FlipMemory c) (r : FlipRequest c) : Prop :=
  c.Symmetric
    (fun i => c.fpSize < 2 * DataBlock.differingBits c.fpSize (m.current r) r.data i) r.data

instance (m : FlipMemory c) (r : FlipRequest c) : Decidable (m.Reversible r) :=
  inferInstanceAs (Decidable (c.Symmetric _ _))

/-- The stored words are the data with the marked partitions inverted. -/
structure Consistent (m : FlipMemory c) : Prop where
  written : ∀ addr d, m.logical addr = some d →
    m.stored addr = some (c.invertWhere (m.marks addr) d c.flipPartitions)
  fresh : ∀ addr, m.logical addr = none →
    m.stored addr = none ∧ ∀ i < c.flipPartitions, m.marks addr i = false

variable {m r}

theorem consistent_init : (init c).Consistent where
  written _ d h := (Option.some_ne_none d h.symm).elim
  fresh _ _ := ⟨rfl, fun _ _ => rfl⟩

/-- The encoder compares the new data with what is stored. -/
theorem Consistent.memoryData_eq (h : m.Consistent)
    (hold : ∀ d, m.logical (r.row, r.col) = some d → d = r.oldData) :
    m.encoder.memoryData r = m.current r := by
  cases hlog : m.logical (r.row, r.col) with
  | none =>
    obtain ⟨hstored, hmarks⟩ := h.fresh _ hlog
    rw [current, hstored]
    exact FlipConfig.invertWhere_of_forall_false r.oldData hmarks
  | some d =>
    obtain rfl := hold d hlog
    rw [current, h.written _ _ hlog]
    rfl

/-- The marks after a write: those of its own address follow from the comparison. -/
theorem marks_store_self (hmem : m.encoder.memoryData r = m.current r) {i : ℕ}
    (hi : i < c.flipPartitions) :
    (m.store r).marks (r.row, r.col) i =
      decide (c.fpSize < 2 * DataBlock.differingBits c.fpSize (m.current r) r.data i) := by
  have hset := (FlipNWrite.settled_write m.encoder r).flipped (c.curAddr r.row r.col i)
  rw [hmem] at hset
  refine decide_eq_decide.mpr (hset.trans ?_)
  constructor
  · rintro (⟨j, _, heq, hj⟩ | ⟨_, hne⟩)
    · exact FlipNWrite.curAddr_inj c heq ▸ hj
    · exact absurd rfl (hne i hi)
  · exact fun hflip => Or.inl ⟨i, hi, rfl, hflip⟩

/-- The marks of the other addresses stay. -/
theorem marks_store_of_ne {addr : ℕ × Fin c.cols} (haddr : addr ≠ (r.row, r.col)) {i : ℕ}
    (hi : i < c.flipPartitions) : (m.store r).marks addr i = m.marks addr i := by
  have hne : ∀ j < c.flipPartitions, c.curAddr addr.1 addr.2 i ≠ c.curAddr r.row r.col j :=
    fun j hj heq => haddr (FlipConfig.curAddr_injective hi hj heq).1
  refine decide_eq_decide.mpr
    (((FlipNWrite.settled_write m.encoder r).flipped _).trans ?_)
  constructor
  · rintro (⟨j, hj, heq, _⟩ | ⟨hmem, _⟩)
    · exact absurd heq (hne j hj)
    · exact hmem
  · exact fun hmem => Or.inr ⟨hmem, hne⟩

/-- The stored word after a write. -/
theorem stored_store (hmem : m.encoder.memoryData r = m.current r) :
    (m.encoder.write r).2 =
      c.invertWhere ((m.store r).marks (r.row, r.col)) r.data c.flipPartitions := by
  rw [(FlipNWrite.settled_write m.encoder r).data, hmem]
  exact FlipConfig.invertWhere_congr _ fun i hi => (marks_store_self hmem hi).symm

/-- A write takes the step if its `oldData` are right. -/
theorem step_eq_some {m' : FlipMemory c} (h : m.step r = some m') :
    (∀ d, m.logical (r.row, r.col) = some d → d = r.oldData) ∧ m' = m.store r := by
  unfold step at h
  split_ifs at h with hold
  refine ⟨fun d hd => ?_, (Option.some.inj h).symm⟩
  rw [hd] at hold
  exact of_decide_eq_true hold

theorem Consistent.store (h : m.Consistent) (hmem : m.encoder.memoryData r = m.current r) :
    (m.store r).Consistent where
  written addr d hlog := by
    by_cases haddr : addr = (r.row, r.col)
    · subst haddr
      simp only [FlipMemory.store, update_self, Option.some.injEq] at hlog ⊢
      exact hlog ▸ stored_store hmem
    · simp only [FlipMemory.store, update_of_ne haddr] at hlog ⊢
      rw [h.written addr d hlog]
      exact congrArg some
        (FlipConfig.invertWhere_congr d fun i hi => (marks_store_of_ne haddr hi).symm)
  fresh addr hlog := by
    by_cases haddr : addr = (r.row, r.col)
    · simp [FlipMemory.store, haddr] at hlog
    · simp only [FlipMemory.store, update_of_ne haddr] at hlog ⊢
      obtain ⟨hstored, hmarks⟩ := h.fresh addr hlog
      exact ⟨hstored, fun i hi => (marks_store_of_ne haddr hi).trans (hmarks i hi)⟩

/-- What the written address decodes to. -/
theorem decodes_store_iff (hmem : m.encoder.memoryData r = m.current r) (h : m.Decodes) :
    (m.store r).Decodes ↔
      DataBlock.complementWhere c.fpSize ((m.store r).marks (r.row, r.col))
        (c.invertWhere ((m.store r).marks (r.row, r.col)) r.data c.flipPartitions) = r.data := by
  rw [← stored_store hmem]
  constructor
  · intro hall
    obtain ⟨w, hw, hdec⟩ := hall (r.row, r.col) r.data (update_self ..)
    obtain rfl : (m.encoder.write r).2 = w := by
      simpa [FlipMemory.store] using hw
    exact hdec
  · intro hdec addr d hlog
    by_cases haddr : addr = (r.row, r.col)
    · subst haddr
      obtain rfl : r.data = d := by simpa [FlipMemory.store] using hlog
      exact ⟨_, update_self .., hdec⟩
    · simp only [FlipMemory.store, update_of_ne haddr] at hlog
      obtain ⟨w, hw, hdec'⟩ := h addr d hlog
      refine ⟨w, (update_of_ne haddr _ _).trans hw, ?_⟩
      rw [FlipConfig.complementWhere_congr w fun i hi => marks_store_of_ne haddr hi]
      exact hdec'

theorem symmetric_marks_iff (hmem : m.encoder.memoryData r = m.current r) :
    c.Symmetric ((m.store r).marks (r.row, r.col)) r.data ↔ m.Reversible r := by
  refine forall_congr' fun i => forall_congr' fun hi => ?_
  rw [marks_store_self hmem hi]

/-- **Stored words decode to their data.** In every run whose writes invert symmetric
partitions only, each stored word decodes to the data of the last write to its address, in
every state; with partitions of whole bytes this holds for no other run. -/
theorem decodes_stored (c : FlipConfig) {rs : List (FlipRequest c)} {m : FlipMemory c}
    (hrun : Run (Steps step) (init c) rs m) :
    (Run (Guarded Reversible (Steps step)) (init c) rs m →
      ∀ m', Visits (Steps step) (init c) rs m' → m'.Decodes) ∧
    (8 ∣ c.fpSize → (∀ m', Visits (Steps step) (init c) rs m' → m'.Decodes) →
      Run (Guarded Reversible (Steps step)) (init c) rs m) := by
  have hinit : (init c).Consistent ∧ (init c).Decodes :=
    ⟨consistent_init, fun _ d h => (Option.some_ne_none d h.symm).elim⟩
  have hgood : ∀ (m : FlipMemory c) (r : FlipRequest c) (m' : FlipMemory c),
      m.Consistent ∧ m.Decodes → m.step r = some m' → m.Reversible r →
        m'.Consistent ∧ m'.Decodes := by
    rintro m r m' ⟨hcons, hdec⟩ hstep hrev
    obtain ⟨hold, rfl⟩ := step_eq_some hstep
    have hmem := hcons.memoryData_eq hold
    refine ⟨hcons.store hmem, (decodes_store_iff hmem hdec).mpr ?_⟩
    exact FlipConfig.complementWhere_invertWhere ((symmetric_marks_iff hmem).mpr hrev)
  constructor
  · exact fun hguard m' hvisit => (hguard.forall_visits hgood hinit m' hvisit).2
  · intro hbyte hall
    refine (forall_visits_iff (I := fun m => m.Consistent ∧ m.Decodes) (P := Decodes)
      (fun m h => h.2) hgood ?_ hinit hrun).mp hall
    rintro m r m' ⟨hcons, hdec⟩ hstep hrev hdec'
    obtain ⟨hold, rfl⟩ := step_eq_some hstep
    have hmem := hcons.memoryData_eq hold
    exact hrev ((symmetric_marks_iff hmem).mp
      (FlipConfig.symmetric_of_complementWhere hbyte ((decodes_store_iff hmem hdec).mp hdec')))

/-- Words of one byte, in partitions of eight bits. -/
private def byteWords : FlipConfig :=
  ⟨8, 1, 1, 2, 8, FlipNWrite.bytePartitions.fpSize_pos, ⟨1, rfl⟩⟩

/-- A write of a byte to column 0 of row 0. -/
private def writeByte (data oldData : UInt8) : FlipRequest byteWords where
  row := 0
  col := ⟨0, Nat.succ_pos 1⟩
  data _ := data
  oldData _ := oldData

/-- Writing ones and a symmetric byte after them. -/
theorem decodes_symmetric :
    ∃ m, Run (Steps step) (init byteWords) [writeByte 0xff 0, writeByte 0x81 0xff] m ∧
      ∀ m', Visits (Steps step) (init byteWords) [writeByte 0xff 0, writeByte 0x81 0xff] m' →
        m'.Decodes := by
  obtain ⟨m, hguard⟩ := exists_run_guarded Reversible step (init byteWords)
    [writeByte 0xff 0, writeByte 0x81 0xff] (by decide)
  have hrun := hguard.mono fun _ _ _ h => h.2
  exact ⟨m, hrun, (decodes_stored byteWords hrun).1 hguard⟩

/-- Seven ones over zeros are stored as `0x01`, which decodes to `0xfe`. -/
theorem decodes_reversed :
    ∃ m, Run (Steps step) (init byteWords) [writeByte 0x7f 0] m ∧
      m.logical (0, ⟨0, Nat.succ_pos 1⟩) = some (fun _ => 0x7f) ∧
      m.stored (0, ⟨0, Nat.succ_pos 1⟩) = some (fun _ => 0x01) ∧
      DataBlock.complementWhere byteWords.fpSize (m.marks (0, ⟨0, Nat.succ_pos 1⟩))
        (fun _ : Fin byteWords.wordSize => 0x01) ≠ fun _ => 0x7f := by
  refine ⟨_, run_steps_iff.mpr rfl, ?_, ?_, ?_⟩ <;> decide

end FlipMemory

end HybridMemory.NVMain
