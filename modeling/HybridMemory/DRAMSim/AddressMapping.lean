import HybridMemory.Lib.MixedRadix
import Mathlib.Data.Nat.Bitwise

/-!
# The address mapping of DRAMSim2

`addressMapping` drops the low bits of a physical address that lie inside one transaction
and then peels off the five fields of a location, each by a shift down, a shift up and an
exclusive or. The seven schemes differ in the order of the fields only. What is peeled off is
a digit of the address in a mixed radix (`toNat_peelFields`), whatever the order, and so the
transaction-aligned addresses and the locations correspond to each other
(`addressMapping_bijOn`).

The low bits of the column select a word inside the transaction. They are dropped with the
byte offset, so that the column which is returned has the remaining high bits only.
-/

namespace HybridMemory.DRAMSim

open Function MixedRadix

/-- The fields of a location. -/
inductive Field
  | chan
  | rank
  | bank
  | row
  | column
  deriving DecidableEq

/-- `AddressMappingScheme`. -/
inductive Scheme
  | scheme1
  | scheme2
  | scheme3
  | scheme4
  | scheme5
  | scheme6
  | scheme7

/-- The bit widths that `addressMapping` reads. The widths of the fields are logarithms of
32-bit parameters (`dramsim_log2`), and the column is at least as wide as the part of it that
lies inside a transaction. -/
structure BitWidths where
  channelBitWidth : ℕ
  rankBitWidth : ℕ
  bankBitWidth : ℕ
  rowBitWidth : ℕ
  colBitWidth : ℕ
  byteOffsetWidth : ℕ
  colLowBitWidth : ℕ
  channel_le : channelBitWidth ≤ 32
  rank_le : rankBitWidth ≤ 32
  bank_le : bankBitWidth ≤ 32
  row_le : rowBitWidth ≤ 32
  col_le : colBitWidth ≤ 32
  colLow_le : colLowBitWidth ≤ colBitWidth

namespace BitWidths

variable (w : BitWidths)

/-- `colHighBitWidth`. -/
def colHighBitWidth : ℕ := w.colBitWidth - w.colLowBitWidth

/-- The number of bits that are peeled off for a field. -/
def width : Field → ℕ
  | .chan => w.channelBitWidth
  | .rank => w.rankBitWidth
  | .bank => w.bankBitWidth
  | .row => w.rowBitWidth
  | .column => w.colHighBitWidth

/-- The number of bits of an address inside a transaction. -/
def offset : ℕ := w.byteOffsetWidth + w.colLowBitWidth

/-- The number of bits of an address. -/
def total : ℕ :=
  w.channelBitWidth + w.rankBitWidth + w.bankBitWidth + w.rowBitWidth + w.colBitWidth +
    w.byteOffsetWidth

theorem width_le (f : Field) : w.width f ≤ 32 := by
  cases f with
  | chan => exact w.channel_le
  | rank => exact w.rank_le
  | bank => exact w.bank_le
  | row => exact w.row_le
  | column => exact (Nat.sub_le _ _).trans w.col_le

end BitWidths

/-- The order in which a scheme peels off the fields, from the low bits up. -/
def Scheme.order : Scheme → List Field
  | .scheme1 => [.bank, .column, .row, .rank, .chan]
  | .scheme2 => [.rank, .bank, .column, .row, .chan]
  | .scheme3 => [.row, .column, .bank, .rank, .chan]
  | .scheme4 => [.column, .row, .bank, .rank, .chan]
  | .scheme5 => [.bank, .rank, .column, .row, .chan]
  | .scheme6 => [.column, .rank, .bank, .row, .chan]
  | .scheme7 => [.chan, .bank, .rank, .column, .row]

/-- What one block of the scheme stores in its field: the bits below the width, as an
`unsigned`. -/
def peel (width : ℕ) (physicalAddress : BitVec 64) : BitVec 32 :=
  let tempA := physicalAddress
  let tempB := (physicalAddress >>> width) <<< width
  (tempA ^^^ tempB).setWidth 32

/-- The blocks of a scheme, one field after the other. -/
def peelFields (w : BitWidths) : List Field → BitVec 64 → (Field → BitVec 32) → Field → BitVec 32
  | [], _, out => out
  | f :: fs, physicalAddress, out =>
    peelFields w fs (physicalAddress >>> w.width f)
      (update out f (peel (w.width f) physicalAddress))

/-- `addressMapping`; the five references are written whatever they held before. -/
def addressMapping (scheme : Scheme) (w : BitWidths) (physicalAddress : BitVec 64) :
    Field → BitVec 32 :=
  peelFields w scheme.order ((physicalAddress >>> w.byteOffsetWidth) >>> w.colLowBitWidth)
    fun _ => 0

/-! ### Fields as digits -/

/-- The shift down and up clears the bits below the width, and the exclusive or keeps those. -/
theorem toNat_peel {width : ℕ} (hw : width ≤ 32) (a : BitVec 64) :
    (peel width a).toNat = a.toNat % 2 ^ width := by
  have hbits : a ^^^ ((a >>> width) <<< width) = BitVec.ofNat 64 (a.toNat % 2 ^ width) := by
    refine BitVec.eq_of_getLsbD_eq fun i hi => ?_
    rw [BitVec.getLsbD_xor, BitVec.getLsbD_shiftLeft, BitVec.getLsbD_ushiftRight,
      BitVec.getLsbD_ofNat, Nat.testBit_mod_two_pow, BitVec.testBit_toNat]
    by_cases hlt : i < width
    · simp [hi, hlt]
    · simp [hi, hlt, Nat.add_sub_cancel' (Nat.le_of_not_lt hlt)]
  have hlt : a.toNat % 2 ^ width < 2 ^ 32 :=
    (Nat.mod_lt _ (Nat.two_pow_pos width)).trans_le (Nat.pow_le_pow_right Nat.two_pos hw)
  rw [peel, hbits, BitVec.toNat_setWidth, BitVec.toNat_ofNat,
    Nat.mod_eq_of_lt (hlt.trans (by decide)), Nat.mod_eq_of_lt hlt]

/-- The fields that are peeled off are the digits of the address. -/
theorem toNat_peelFields (w : BitWidths) (fs : List Field) (a : BitVec 64)
    (out : Field → BitVec 32) (f : Field) :
    (peelFields w fs a out f).toNat
      = decode (fun g => 2 ^ w.width g) fs a.toNat (fun g => (out g).toNat) f := by
  induction fs generalizing a out with
  | nil => rfl
  | cons g fs ih =>
    rw [peelFields, ih, decode, BitVec.toNat_ushiftRight, Nat.shiftRight_eq_div_pow]
    refine congrFun (congrArg _ (funext fun p => ?_)) f
    by_cases hp : p = g
    · subst hp
      rw [update_self, update_self, toNat_peel (w.width_le p)]
    · rw [update_of_ne hp, update_of_ne hp]

theorem Scheme.order_nodup (scheme : Scheme) : scheme.order.Nodup := by
  cases scheme <;> decide

theorem Scheme.mem_order (scheme : Scheme) (f : Field) : f ∈ scheme.order := by
  cases scheme <;> cases f <;> decide

/-- The fields and the offset make up the address, in every scheme. -/
theorem capacity_order (scheme : Scheme) (w : BitWidths) :
    capacity (fun f => 2 ^ w.width f) scheme.order * 2 ^ w.offset = 2 ^ w.total := by
  have hcol : w.colHighBitWidth + w.colLowBitWidth = w.colBitWidth := Nat.sub_add_cancel w.colLow_le
  cases scheme <;>
  · simp only [Scheme.order, capacity_cons, capacity_nil, mul_one,
      ← pow_add, BitWidths.width, BitWidths.offset, BitWidths.total]
    congr 1
    omega

section Mapping

variable (scheme : Scheme) (w : BitWidths)

theorem toNat_addressMapping (a : BitVec 64) (f : Field) :
    (addressMapping scheme w a f).toNat
      = decode (fun g => 2 ^ w.width g) scheme.order (a.toNat / 2 ^ w.offset)
          (fun _ => 0) f := by
  rw [addressMapping, toNat_peelFields, BitVec.toNat_ushiftRight, BitVec.toNat_ushiftRight,
    Nat.shiftRight_eq_div_pow, Nat.shiftRight_eq_div_pow, Nat.div_div_eq_div_mul, ← pow_add]
  rfl

/-- The addresses of whole transactions below the capacity. -/
def alignedAddresses : Set (BitVec 64) :=
  {a | 2 ^ w.offset ∣ a.toNat ∧ a.toNat < 2 ^ w.total}

/-- The locations with every field inside its width. -/
def locations : Set (Field → BitVec 32) := {t | ∀ f, (t f).toNat < 2 ^ w.width f}

theorem div_offset_lt {a : BitVec 64} (ha : a ∈ alignedAddresses w) :
    a.toNat / 2 ^ w.offset < capacity (fun f => 2 ^ w.width f) scheme.order := by
  rw [Nat.div_lt_iff_lt_mul (Nat.two_pow_pos _), capacity_order]
  exact ha.2

theorem mapsTo_addressMapping :
    Set.MapsTo (addressMapping scheme w) (alignedAddresses w) (locations w) := by
  intro a _ f
  rw [toNat_addressMapping]
  exact decode_lt (fun g _ => Nat.two_pow_pos _) (scheme.mem_order f) _

theorem injOn_addressMapping : Set.InjOn (addressMapping scheme w) (alignedAddresses w) := by
  intro a ha a' ha' h
  have hdigit (f : Field) (_ : f ∈ scheme.order) :=
    (toNat_addressMapping scheme w a f).symm.trans
      ((congrArg (fun t => (t f).toNat) h).trans (toNat_addressMapping scheme w a' f))
  have hdiv : a.toNat / 2 ^ w.offset = a'.toNat / 2 ^ w.offset :=
    eq_of_decode_eq scheme.order_nodup (div_offset_lt scheme w ha)
      (div_offset_lt scheme w ha') hdigit
  refine BitVec.eq_of_toNat_eq ?_
  rw [← Nat.div_mul_cancel ha.1, hdiv, Nat.div_mul_cancel ha'.1]

/-- The address of a location: its digits, above the offset. -/
theorem surjOn_addressMapping (hfit : w.total ≤ 64) :
    Set.SurjOn (addressMapping scheme w) (alignedAddresses w) (locations w) := by
  intro t ht
  let n := encode (fun f => 2 ^ w.width f) (fun f => (t f).toNat) scheme.order
  have hlt : n * 2 ^ w.offset < 2 ^ w.total := by
    rw [← capacity_order scheme w]
    exact Nat.mul_lt_mul_of_pos_right (encode_lt fun f _ => ht f) (Nat.two_pow_pos _)
  have hnat : (BitVec.ofNat 64 (n * 2 ^ w.offset)).toNat = n * 2 ^ w.offset := by
    rw [BitVec.toNat_ofNat]
    exact Nat.mod_eq_of_lt (hlt.trans_le (Nat.pow_le_pow_right Nat.two_pos hfit))
  refine ⟨BitVec.ofNat 64 (n * 2 ^ w.offset), ⟨?_, ?_⟩, funext fun f => BitVec.eq_of_toNat_eq ?_⟩
  · rw [hnat]
    exact dvd_mul_left _ _
  · rw [hnat]
    exact hlt
  · rw [toNat_addressMapping, hnat, Nat.mul_div_cancel _ (Nat.two_pow_pos _)]
    exact decode_encode scheme.order_nodup (fun g _ => ht g) (scheme.mem_order f) _

/-- **The mapping is one to one.** In every scheme the transaction-aligned addresses below the
capacity correspond to the locations with every field inside its width. -/
theorem addressMapping_bijOn (hfit : w.total ≤ 64) :
    Set.BijOn (addressMapping scheme w) (alignedAddresses w) (locations w) :=
  ⟨mapsTo_addressMapping scheme w, injOn_addressMapping scheme w,
    surjOn_addressMapping scheme w hfit⟩

end Mapping

/-- A channel of two ranks with eight banks of 2 ^ 14 rows and 2 ^ 10 columns, with transactions
of eight words of eight bytes. -/
def ddr3BitWidths : BitWidths where
  channelBitWidth := 0
  rankBitWidth := 1
  bankBitWidth := 3
  rowBitWidth := 14
  colBitWidth := 10
  byteOffsetWidth := 3
  colLowBitWidth := 3
  channel_le := by decide
  rank_le := by decide
  bank_le := by decide
  row_le := by decide
  col_le := by decide
  colLow_le := by decide

theorem addressMapping_bijOn_ddr3 :
    ddr3BitWidths.total ≤ 64 ∧
      Set.BijOn (addressMapping .scheme7 ddr3BitWidths) (alignedAddresses ddr3BitWidths)
        (locations ddr3BitWidths) :=
  ⟨by decide, addressMapping_bijOn .scheme7 ddr3BitWidths (by decide)⟩

/-- Not every column of a row is the column of an address: `NUM_COLS` counts words, and the
column that is returned counts transactions. -/
theorem column_not_reached :
    ddr3BitWidths.total ≤ 64 ∧
      ∃ c < 2 ^ ddr3BitWidths.colBitWidth, ∀ scheme, ∀ a ∈ alignedAddresses ddr3BitWidths,
        (addressMapping scheme ddr3BitWidths a .column).toNat ≠ c := by
  refine ⟨by decide, 128, by decide, fun scheme a ha => ?_⟩
  exact Nat.ne_of_lt (mapsTo_addressMapping scheme ddr3BitWidths ha .column)

end HybridMemory.DRAMSim
