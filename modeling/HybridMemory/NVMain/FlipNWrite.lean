import Mathlib
import HybridMemory.Lib.Transition

/-!
# Flip-N-Write

The encoder compares the data of a write with what is in the memory and writes the complement
of a partition if that changes fewer bits. The set `flippedAddresses` has the partitions that
are stored as their complement. A write first inverts these partitions in `oldData`, which
gives what is in the memory, counts the bits of every partition that differ from the new data,
and inverts the partitions of the new data where more than half of the bits differ.

The counting runs over bytes and bits, and skips bytes that are equal. `modifyCount_eq` says
that it yields the number of differing bits of each partition; `Settled` describes the loop
over the partitions, and `write_charges` is what a write adds to the statistics.

Statistics are natural numbers, and an array is a function of its places.
-/

namespace HybridMemory.NVMain

open Transition

/-- The parameters of the encoder. The size of a partition divides the number of bits of a
word. -/
structure FlipConfig where
  busWidth : ℕ
  tBURST : ℕ
  rate : ℕ
  cols : ℕ
  fpSize : ℕ
  fpSize_pos : 0 < fpSize
  fpSize_dvd : fpSize ∣ busWidth * (tBURST * rate) / 8 * 8

namespace FlipConfig

variable (c : FlipConfig)

/-- The number of bytes of a word. -/
def wordSize : ℕ := c.busWidth * (c.tBURST * c.rate) / 8

def rowSize : ℕ := c.cols * c.wordSize

def rowPartitions : ℕ := c.rowSize * 8 / c.fpSize

def flipPartitions : ℕ := c.wordSize * 8 / c.fpSize

/-- The place of a partition in `flippedAddresses`. -/
def curAddr (row col i : ℕ) : ℕ := row * c.rowPartitions + col * c.flipPartitions + i

end FlipConfig

/-! ### Data blocks -/

/-- A block of `n` bytes. -/
abbrev DataBlock (n : ℕ) := Fin n → UInt8

namespace DataBlock

variable {n : ℕ} (d : DataBlock n)

def getByte (i : ℕ) : UInt8 := if h : i < n then d ⟨i, h⟩ else 0

def setByte (i : ℕ) (value : UInt8) : DataBlock n := fun k => if k = i then value else d k

/-- A bit of the block. -/
def bitAt (b : ℕ) : Bool := (d.getByte (b / 8)).toNat.testBit (b % 8)

/-- The loop over the bits of byte `i` in `InvertData`, with `shiftByte` and `newByte`. -/
def invertBit (i startBit endBit : ℕ) (bytes : UInt8 × UInt8) (j : ℕ) : UInt8 × UInt8 :=
  let currentBit := i * 8 + j
  if currentBit < startBit ∨ endBit ≤ currentBit then (bytes.1 >>> 1, bytes.2)
  else if bytes.1 &&& 0x1 = 0 then (bytes.1 >>> 1, bytes.2 ||| 1 <<< UInt8.ofNat (7 - j))
  else (bytes.1 >>> 1, bytes.2)

/-- What `InvertData` makes of byte `i`. -/
def invertByte (i startBit endBit : ℕ) (byte : UInt8) : UInt8 :=
  ((List.range 8).foldl (invertBit i startBit endBit) (byte, 0)).2

/-- `InvertData`. -/
def invertData (startBit endBit : ℕ) : DataBlock n :=
  let startByte := startBit / 8
  -- the byte after `endByte = (int)((endBit - 1) / 8)`, which is -1 if `endBit` is 0
  let stopByte := (endBit + 7) / 8
  (List.range' startByte (stopByte - startByte)).foldl
    (fun d i => d.setByte i (invertByte i startBit endBit (d.getByte i))) d

/-- The inner loop of the comparison: the counts after bit `j` of two bytes, with
`currentBit`. -/
def countBit (fpSize : ℕ) (oldByte newByte : UInt8) (st : ℕ × (ℕ → ℕ)) (j : ℕ) :
    ℕ × (ℕ → ℕ) :=
  let oldBit := (oldByte >>> UInt8.ofNat j) &&& 0x1
  let newBit := (newByte >>> UInt8.ofNat j) &&& 0x1
  (st.1 + 1,
    if oldBit ≠ newBit then Function.update st.2 (st.1 / fpSize) (st.2 (st.1 / fpSize) + 1)
    else st.2)

/-- The outer loop of the comparison. -/
def countByte (fpSize : ℕ) (oldData newData : DataBlock n) (st : ℕ × (ℕ → ℕ)) (i : ℕ) :
    ℕ × (ℕ → ℕ) :=
  let oldByte := oldData.getByte i
  let newByte := newData.getByte i
  if oldByte = newByte then (st.1 + 8, st.2)
  else (List.range 8).foldl (countBit fpSize oldByte newByte) st

/-- `modifyCount` after the comparison. -/
def modifyCount (fpSize : ℕ) (oldData newData : DataBlock n) : ℕ → ℕ :=
  ((List.range n).foldl (countByte fpSize oldData newData) (0, fun _ => 0)).2

end DataBlock

/-! ### The encoder -/

/-- The part of a request that the encoder works on. -/
structure FlipRequest (c : FlipConfig) where
  row : ℕ
  col : Fin c.cols
  data : DataBlock c.wordSize
  oldData : DataBlock c.wordSize

structure FlipNWrite where
  flippedAddresses : Finset ℕ
  bitsFlipped : ℕ
  bitCompareSwapWrites : ℕ

namespace FlipConfig

variable (c : FlipConfig)

/-- Invert the partitions that are marked. -/
def invertWhere (marked : ℕ → Bool) (d : DataBlock c.wordSize) (k : ℕ) : DataBlock c.wordSize :=
  (List.range k).foldl
    (fun d i => if marked i then d.invertData (i * c.fpSize) ((i + 1) * c.fpSize) else d) d

end FlipConfig

namespace FlipNWrite

/-- The encoder after its constructor. -/
def init : FlipNWrite := ⟨∅, 0, 0⟩

variable {c : FlipConfig} (s : FlipNWrite) (r : FlipRequest c)

/-- The partition is stored as its complement. -/
def flipped (c : FlipConfig) (row col i : ℕ) : Bool :=
  decide (c.curAddr row col i ∈ s.flippedAddresses)

/-- `oldData` as it is in the memory. -/
def memoryData : DataBlock c.wordSize :=
  c.invertWhere (s.flipped c r.row r.col) r.oldData c.flipPartitions

/-- The last loop of `Write`, for partition `i`. -/
def settle (modifyCount : ℕ → ℕ) (st : FlipNWrite × DataBlock c.wordSize) (i : ℕ) :
    FlipNWrite × DataBlock c.wordSize :=
  let s := st.1
  let curAddr := c.curAddr r.row r.col i
  if modifyCount i > c.fpSize / 2 then
    (⟨insert curAddr s.flippedAddresses, s.bitsFlipped + (c.fpSize - modifyCount i),
      s.bitCompareSwapWrites + modifyCount i⟩,
      st.2.invertData (i * c.fpSize) ((i + 1) * c.fpSize))
  else
    (⟨s.flippedAddresses.erase curAddr, s.bitsFlipped + modifyCount i,
      s.bitCompareSwapWrites + modifyCount i⟩, st.2)

/-- `Write`: the encoder and the data that go to the memory. -/
def write : FlipNWrite × DataBlock c.wordSize :=
  let modifyCount := DataBlock.modifyCount c.fpSize (s.memoryData r) r.data
  (List.range c.flipPartitions).foldl (settle r modifyCount) (s, r.data)

/-- One write. -/
def step (s : FlipNWrite) (r : FlipRequest c) : Option FlipNWrite := some (s.write r).1

end FlipNWrite

/-! ### The comparison -/

namespace DataBlock

variable {n : ℕ}

/-- The number of bits of a partition in which two blocks differ, among the first `k` bits. -/
def differingBelow (fpSize : ℕ) (d d' : DataBlock n) (i k : ℕ) : ℕ :=
  (List.range k).countP fun b => b / fpSize = i ∧ d.bitAt b ≠ d'.bitAt b

/-- The number of bits of a partition in which two blocks differ. -/
def differingBits (fpSize : ℕ) (d d' : DataBlock n) (i : ℕ) : ℕ :=
  differingBelow fpSize d d' i (8 * n)

/-- The counts after the first `k` bits have been compared. -/
structure Counted (fpSize : ℕ) (d d' : DataBlock n) (k : ℕ) (st : ℕ × (ℕ → ℕ)) : Prop where
  currentBit : st.1 = k
  counts : ∀ i, st.2 i = differingBelow fpSize d d' i k

variable {fpSize k : ℕ} {d d' : DataBlock n} {st : ℕ × (ℕ → ℕ)}

theorem differingBelow_succ (fpSize : ℕ) (d d' : DataBlock n) (i k : ℕ) :
    differingBelow fpSize d d' i (k + 1) = differingBelow fpSize d d' i k +
      if k / fpSize = i ∧ d.bitAt k ≠ d'.bitAt k then 1 else 0 := by
  simp only [differingBelow, List.range_succ, List.countP_append, List.countP_singleton,
    decide_eq_true_eq]

theorem toNat_shiftRight_and_one (x : UInt8) {j : ℕ} (hj : j < 8) :
    ((x >>> UInt8.ofNat j) &&& 0x1).toNat = (x.toNat.testBit j).toNat := by
  have hsize : j < UInt8.size := hj.trans (by decide)
  rw [UInt8.toNat_and, UInt8.toNat_shiftRight, UInt8.toNat_ofNat_of_lt' hsize,
    Nat.mod_eq_of_lt hj, UInt8.toNat_one, Nat.and_one_is_mod, Nat.toNat_testBit,
    Nat.shiftRight_eq_div_pow]

/-- The test of the inner loop compares the bits. -/
theorem shiftRight_ne_iff (x y : UInt8) {j : ℕ} (hj : j < 8) :
    (x >>> UInt8.ofNat j) &&& 0x1 ≠ (y >>> UInt8.ofNat j) &&& 0x1 ↔
      x.toNat.testBit j ≠ y.toNat.testBit j := by
  rw [ne_eq, ← UInt8.toNat_inj, toNat_shiftRight_and_one x hj, toNat_shiftRight_and_one y hj]
  cases x.toNat.testBit j <;> cases y.toNat.testBit j <;> simp

theorem bitAt_add (d : DataBlock n) (i : ℕ) {j : ℕ} (hj : j < 8) :
    d.bitAt (8 * i + j) = (d.getByte i).toNat.testBit j := by
  rw [bitAt, show (8 * i + j) / 8 = i by omega, show (8 * i + j) % 8 = j by omega]

theorem Counted.countBit {i j : ℕ} (h : Counted fpSize d d' (8 * i + j) st) (hj : j < 8) :
    Counted fpSize d d' (8 * i + (j + 1))
      (DataBlock.countBit fpSize (d.getByte i) (d'.getByte i) st j) := by
  refine ⟨by rw [DataBlock.countBit, h.currentBit, add_assoc], fun p => ?_⟩
  rw [← add_assoc, differingBelow_succ, ← h.counts, bitAt_add d i hj, bitAt_add d' i hj]
  simp only [DataBlock.countBit, shiftRight_ne_iff _ _ hj, h.currentBit]
  by_cases hbit : (d.getByte i).toNat.testBit j = (d'.getByte i).toNat.testBit j
  · simp [hbit]
  · by_cases hp : (8 * i + j) / fpSize = p
    · simp [hbit, hp]
    · simp [hbit, hp, Ne.symm hp]

theorem Counted.countByte {i : ℕ} (h : Counted fpSize d d' (8 * i) st) :
    Counted fpSize d d' (8 * (i + 1)) (DataBlock.countByte fpSize d d' st i) := by
  simp only [DataBlock.countByte]
  split_ifs with hbyte
  · -- the bits of equal bytes are equal
    have hskip : ∀ j ≤ 8, ∀ p,
        differingBelow fpSize d d' p (8 * i + j) = differingBelow fpSize d d' p (8 * i) := by
      intro j hj p
      induction j with
      | zero => rfl
      | succ j ih =>
        rw [← add_assoc, differingBelow_succ, ih (by omega), bitAt_add d i (by omega),
          bitAt_add d' i (by omega), hbyte]
        simp
    exact ⟨by rw [h.currentBit, Nat.mul_succ], fun p => (h.counts p).trans (hskip 8 le_rfl p).symm⟩
  · have hbits : ∀ j ≤ 8, Counted fpSize d d' (8 * i + j)
        ((List.range j).foldl (DataBlock.countBit fpSize (d.getByte i) (d'.getByte i)) st) := by
      intro j hj
      induction j with
      | zero => exact h
      | succ j ih =>
        rw [List.range_succ, List.foldl_append]
        exact (ih (by omega)).countBit (by omega)
    exact hbits 8 le_rfl

/-- **The comparison counts** the differing bits of every partition. -/
theorem modifyCount_eq (fpSize : ℕ) (d d' : DataBlock n) (i : ℕ) :
    modifyCount fpSize d d' i = differingBits fpSize d d' i := by
  have hbytes : ∀ q, Counted fpSize d d' (8 * q)
      ((List.range q).foldl (DataBlock.countByte fpSize d d') (0, fun _ => 0)) := by
    intro q
    induction q with
    | zero => exact ⟨rfl, fun _ => rfl⟩
    | succ q ih =>
      rw [List.range_succ, List.foldl_append]
      exact ih.countByte
  exact (hbytes n).counts i

/-- A partition has `fpSize` bits. -/
theorem differingBits_le (hpos : 0 < fpSize) (d d' : DataBlock n) (i : ℕ) :
    differingBits fpSize d d' i ≤ fpSize := by
  rw [differingBits, differingBelow, List.countP_eq_length_filter]
  have hsub : ((List.range (8 * n)).filter fun b =>
      decide (b / fpSize = i ∧ d.bitAt b ≠ d'.bitAt b)) ⊆ List.range' (i * fpSize) fpSize := by
    intro b hb
    obtain ⟨hdiv, -⟩ := of_decide_eq_true (List.mem_filter.mp hb).2
    rw [List.mem_range'_1, ← hdiv]
    exact ⟨Nat.div_mul_le_self b fpSize, Nat.lt_div_mul_add hpos⟩
  have hle := (List.nodup_range.filter _).subperm hsub |>.length_le
  rwa [List.length_range'] at hle

end DataBlock

/-! ### What a write adds -/

/-- The number of bits that are charged for a partition with `m` differing bits. -/
def flipCharge (fpSize m : ℕ) : ℕ := if 2 * m ≤ fpSize then m else fpSize - m

theorem two_mul_flipCharge_le (fpSize m : ℕ) : 2 * flipCharge fpSize m ≤ fpSize := by
  unfold flipCharge
  split_ifs <;> omega

theorem flipCharge_le (fpSize m : ℕ) : flipCharge fpSize m ≤ m := by
  unfold flipCharge
  split_ifs <;> omega

namespace FlipNWrite

variable {c : FlipConfig} {s : FlipNWrite} {r : FlipRequest c}

/-- What the last loop of `Write` has done after `k` partitions, for the counts `m`. -/
structure Settled (s : FlipNWrite) (r : FlipRequest c) (m : ℕ → ℕ) (k : ℕ)
    (st : FlipNWrite × DataBlock c.wordSize) : Prop where
  flipped : ∀ x, x ∈ st.1.flippedAddresses ↔
    (∃ i < k, x = c.curAddr r.row r.col i ∧ c.fpSize < 2 * m i) ∨
      x ∈ s.flippedAddresses ∧ ∀ i < k, x ≠ c.curAddr r.row r.col i
  bitsFlipped : st.1.bitsFlipped =
    s.bitsFlipped + ((List.range k).map fun i => flipCharge c.fpSize (m i)).sum
  bitCompareSwapWrites : st.1.bitCompareSwapWrites =
    s.bitCompareSwapWrites + ((List.range k).map m).sum
  data : st.2 = c.invertWhere (fun i => c.fpSize < 2 * m i) r.data k

theorem curAddr_inj (c : FlipConfig) {row col i j : ℕ}
    (h : c.curAddr row col i = c.curAddr row col j) : i = j :=
  Nat.add_left_cancel h

theorem Settled.settle {m : ℕ → ℕ} {k : ℕ} {st : FlipNWrite × DataBlock c.wordSize}
    (h : Settled s r m k st) : Settled s r m (k + 1) (FlipNWrite.settle r m st k) := by
  have hhalf : m k > c.fpSize / 2 ↔ c.fpSize < 2 * m k := by omega
  have hlt : ∀ i < k, c.curAddr r.row r.col i ≠ c.curAddr r.row r.col k :=
    fun i hi heq => hi.ne (curAddr_inj c heq)
  simp only [FlipNWrite.settle, hhalf]
  split_ifs with hflip
  · refine ⟨fun x => ?_, ?_, ?_, ?_⟩
    · rw [Finset.mem_insert, h.flipped, Nat.exists_lt_succ_right, Nat.forall_lt_succ_right]
      by_cases hx : x = c.curAddr r.row r.col k
      · simp [hx, hflip]
      · simp [hx]
    · simp [h.bitsFlipped, List.range_succ, flipCharge, Nat.not_le.mpr hflip, add_assoc]
    · simp [h.bitCompareSwapWrites, List.range_succ, add_assoc]
    · simp [h.data, FlipConfig.invertWhere, List.range_succ, hflip]
  · refine ⟨fun x => ?_, ?_, ?_, ?_⟩
    · rw [Finset.mem_erase, h.flipped, Nat.exists_lt_succ_right, Nat.forall_lt_succ_right]
      by_cases hx : x = c.curAddr r.row r.col k
      · subst hx
        have hnone : ¬ ∃ i < k, c.curAddr r.row r.col k = c.curAddr r.row r.col i ∧
            c.fpSize < 2 * m i := fun ⟨i, hi, heq, _⟩ => hlt i hi heq.symm
        simp [hnone, hflip]
      · simp [hx]
    · simp [h.bitsFlipped, List.range_succ, flipCharge, Nat.not_lt.mp hflip, add_assoc]
    · simp [h.bitCompareSwapWrites, List.range_succ, add_assoc]
    · simp [h.data, FlipConfig.invertWhere, List.range_succ, hflip]

/-- **What a write does**, in terms of the numbers of differing bits. -/
theorem settled_write (s : FlipNWrite) (r : FlipRequest c) :
    Settled s r (DataBlock.differingBits c.fpSize (s.memoryData r) r.data) c.flipPartitions
      (s.write r) := by
  have hcount : DataBlock.modifyCount c.fpSize (s.memoryData r) r.data =
      DataBlock.differingBits c.fpSize (s.memoryData r) r.data :=
    funext fun i => DataBlock.modifyCount_eq _ _ _ i
  have hloop : ∀ k, Settled s r (DataBlock.differingBits c.fpSize (s.memoryData r) r.data) k
      ((List.range k).foldl
        (FlipNWrite.settle r (DataBlock.differingBits c.fpSize (s.memoryData r) r.data))
        (s, r.data)) := by
    intro k
    induction k with
    | zero => exact ⟨by simp, by simp, by simp, rfl⟩
    | succ k ih =>
      rw [List.range_succ, List.foldl_append]
      exact ih.settle
  simp only [write, hcount]
  exact hloop c.flipPartitions

/-- **The charge of a write.** Every write adds to `bitsFlipped`, for each partition with `m`
bits that differ between the data in the memory and the new data, `m` if that is at most half
of the partition and the other bits of the partition otherwise. So no partition is charged
more than half of its bits, and `bitsFlipped` never exceeds `bitCompareSwapWrites`. -/
theorem write_charges (c : FlipConfig) :
    (∀ (s : FlipNWrite) (r : FlipRequest c), (s.write r).1.bitsFlipped = s.bitsFlipped +
      ((List.range c.flipPartitions).map fun i => flipCharge c.fpSize
        (DataBlock.differingBits c.fpSize (s.memoryData r) r.data i)).sum) ∧
    (∀ (s : FlipNWrite) (r : FlipRequest c) (i : ℕ),
      DataBlock.differingBits c.fpSize (s.memoryData r) r.data i ≤ c.fpSize ∧
      2 * flipCharge c.fpSize (DataBlock.differingBits c.fpSize (s.memoryData r) r.data i) ≤
        c.fpSize) ∧
    ∀ (rs : List (FlipRequest c)) (s : FlipNWrite),
      Run (Steps step) init rs s → s.bitsFlipped ≤ s.bitCompareSwapWrites := by
  refine ⟨fun s r => (settled_write s r).bitsFlipped, fun s r i => ⟨?_, ?_⟩, fun rs s hrun => ?_⟩
  · exact DataBlock.differingBits_le c.fpSize_pos _ _ i
  · exact two_mul_flipCharge_le _ _
  · refine hrun.invariant (P := fun s => s.bitsFlipped ≤ s.bitCompareSwapWrites) le_rfl ?_
    intro s r t hle hstep
    obtain rfl := Option.some.inj hstep
    have h := settled_write s r
    rw [h.bitsFlipped, h.bitCompareSwapWrites]
    exact Nat.add_le_add hle (List.sum_le_sum fun i _ => flipCharge_le _ _)

/-- Words of two bytes in partitions of eight bits. -/
def bytePartitions : FlipConfig := ⟨16, 1, 1, 4, 8, Nat.succ_pos 7, ⟨2, rfl⟩⟩

/-- A write that changes seven bits of the first byte and one bit of the second. -/
private def sevenAndOne : FlipRequest bytePartitions where
  row := 0
  col := ⟨0, Nat.succ_pos 3⟩
  data q := if q.val = 0 then 0x7f else 1
  oldData _ := 0

/-- The write is charged one bit for each byte. -/
theorem write_charges_two :
    ∃ s, Run (Steps step) init [sevenAndOne] s ∧ s.bitsFlipped = 2 ∧
      s.bitsFlipped ≤ s.bitCompareSwapWrites :=
  exists_run_imp (fun s => s.bitsFlipped = 2) (by decide) fun s hrun hs =>
    ⟨hs, (write_charges bytePartitions).2.2 _ s hrun⟩

end FlipNWrite

end HybridMemory.NVMain
