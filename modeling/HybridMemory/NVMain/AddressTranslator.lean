import HybridMemory.Lib.MixedRadix
import HybridMemory.NVMain.TranslationMethod

/-!
# Address translation

`Translate` splits a physical address into the six fields of a location, and
`ReverseTranslate` puts the fields together again. Both walk the fields from the least
significant one up, with `FindOrder_modified` telling which field is next. The two
directions are the two directions of a mixed-radix system whose digits are the fields
(`toNat_translateParts`, `toNat_reverseParts`), computed in 64-bit words.

The code reads the widths and the order of the fields through pointers into the method's
arrays, which it fetches in the first call. A shift by the width of a field is a shift by
a variable amount, of which the processor uses the low six bits; this is what `UInt64`
does, and it shows for a field of 64 bits only (`round_trip_fails`).
-/

namespace HybridMemory.NVMain

open MemoryPartition TranslationMethod Function MixedRadix

/-! ### The logarithm -/

/-- The while loop of `mlog2`: how often `num` can be halved before it is zero. An `int`
has 31 bits besides its sign. -/
def halvings : ℕ → ℕ → ℕ
  | 0, _ => 0
  | fuel + 1, num => if num = 0 then 0 else halvings fuel (num / 2) + 1

/-- `mlog2`. -/
def mlog2 (num : ℕ) : ℕ := if num < 2 then 0 else halvings 31 num - 1

theorem halvings_eq_log {fuel num : ℕ} (h : num < 2 ^ fuel) (hpos : 0 < num) :
    halvings fuel num = Nat.log 2 num + 1 := by
  induction fuel generalizing num with
  | zero => omega
  | succ fuel ih =>
    rw [halvings, if_neg hpos.ne']
    by_cases hone : num = 1
    · subst hone
      cases fuel <;> simp [halvings]
    · have hle : 2 ≤ num := by omega
      rw [ih (by rw [pow_succ] at h; omega) (by omega), Nat.log_of_one_lt_of_le one_lt_two hle]

/-- For an `int`, `mlog2` is the logarithm rounded down. -/
theorem mlog2_eq_log {num : ℕ} (h : num < 2 ^ 31) : mlog2 num = Nat.log 2 num := by
  unfold mlog2
  split_ifs with hlt
  · exact (Nat.log_of_lt hlt).symm
  · rw [halvings_eq_log h (by omega), Nat.add_sub_cancel]

/-! ### The translator -/

/-- The fields of a location, as 64-bit words. -/
abbrev Location := MemoryPartition → UInt64

/-- The data members of `AddressTranslator`. -/
structure AddressTranslator where
  method : Option TranslationMethod
  /-- The method whose arrays `bitWidths` and `fieldOrder` point to, once they are set. -/
  arrays : Option TranslationMethod
  busWidth : ℕ
  burstLength : ℕ

/-- The field on a place, as `FindOrder_modified` finds it. -/
def findOrder (order : MemoryPartition → ℤ) (i : ℤ) : Option MemoryPartition :=
  all.find? fun p => i = order p

/-- The fields on the six places, from the least significant one up. -/
def parts (order : MemoryPartition → ℤ) : List (Option MemoryPartition) :=
  (List.range 6).map fun i => findOrder order i

/-- The number of values of a field, as `Modulo_modified` computes it. -/
def moduloSize (bitWidths : MemoryPartition → UInt32) (p : MemoryPartition) : UInt64 :=
  1 <<< (bitWidths p).toUInt64

/-- The loop of `Translate`: a place without a field ends it, and the fields that are left
keep the values they had. -/
def translateParts (bitWidths : MemoryPartition → UInt32) :
    List (Option MemoryPartition) → UInt64 → Location → Location
  | [], _, out => out
  | none :: _, _, out => out
  | some p :: ps, refAddress, out =>
    translateParts bitWidths ps (refAddress / moduloSize bitWidths p)
      (update out p (refAddress % moduloSize bitWidths p))

/-- The loop of `ReverseTranslate`: a place without a field only prints a message. -/
def reverseParts (bitWidths : MemoryPartition → UInt32) (loc : Location) :
    List (Option MemoryPartition) → UInt64 → UInt64 → UInt64
  | [], _, phyAddr => phyAddr
  | none :: ps, unitAddr, phyAddr => reverseParts bitWidths loc ps unitAddr phyAddr
  | some p :: ps, unitAddr, phyAddr =>
    reverseParts bitWidths loc ps (unitAddr <<< (bitWidths p).toUInt64)
      (phyAddr + loc p * unitAddr)

namespace AddressTranslator

/-- The translator as its constructor leaves it: a 64-bit bus and bursts of eight. -/
def init : AddressTranslator := ⟨none, none, 64, 8⟩

/-- `SetTranslationMethod`. -/
def setTranslationMethod (t : AddressTranslator) (m : TranslationMethod) : AddressTranslator :=
  { t with method := some m }

/-- The bits of an address below one transfer of the bus. -/
def busOffsetBits (t : AddressTranslator) : ℕ := mlog2 (t.busWidth / 8)

/-- The bits of an address below one burst. -/
def burstBits (t : AddressTranslator) : ℕ := mlog2 (t.busWidth * t.burstLength / 8)

/-- The low bits of the column, which are not translated. -/
def lowColBits (t : AddressTranslator) : ℕ := t.burstBits - t.busOffsetBits

/-- `Translate( address, row, col, bank, rank, channel, subarray )`, where `out` is what
the six variables hold before. -/
def translate (t : AddressTranslator) (address : UInt64) (out : Location) :
    Location × AddressTranslator :=
  match t.method with
  | none => (out, t)
  | some method =>
    let arrays := t.arrays.getD method
    let refAddress := address >>> UInt64.ofNat t.busOffsetBits >>> UInt64.ofNat t.lowColBits
    (translateParts arrays.bitWidths (parts arrays.order) refAddress out,
      { t with arrays := some arrays })

/-- `ReverseTranslate`, which exits if there is no method. -/
def reverseTranslate (t : AddressTranslator) (loc : Location) :
    Option (UInt64 × AddressTranslator) :=
  match t.method with
  | none => none
  | some method =>
    let arrays := t.arrays.getD method
    let unitAddr := 1 <<< UInt64.ofNat t.busOffsetBits <<< UInt64.ofNat t.lowColBits
    some (reverseParts arrays.bitWidths loc (parts arrays.order) unitAddr 0,
      { t with arrays := some arrays })

end AddressTranslator

/-! ### The places of the fields -/

theorem order_of_findOrder {order : MemoryPartition → ℤ} {i : ℤ} {p : MemoryPartition}
    (h : findOrder order i = some p) : i = order p := by
  simpa using List.find?_some h

theorem findOrder_order {order : MemoryPartition → ℤ} (h : IsOrder order)
    (p : MemoryPartition) : findOrder order (order p) = some p := by
  cases hq : findOrder order (order p) with
  | none => simpa using List.find?_eq_none.mp hq p (mem_all p)
  | some q => rw [h.injective (order_of_findOrder hq)]

/-- Every place has a field: six fields on six places, no two on one. -/
theorem exists_findOrder {order : MemoryPartition → ℤ} (h : IsOrder order) {i : ℕ}
    (hi : i < 6) : ∃ p, findOrder order i = some p := by
  let place : MemoryPartition → Fin 6 := fun p => ⟨(order p).toNat, by
    have := h.nonneg p
    have := h.lt p
    omega⟩
  have hinj : Function.Injective place := fun p q hpq => h.injective (by
    have := h.nonneg p
    have := h.nonneg q
    have : (order p).toNat = (order q).toNat := congrArg Fin.val hpq
    omega)
  -- an injective map from six fields to six places is surjective
  have hbij := (Fintype.bijective_iff_injective_and_card place).mpr ⟨hinj, by simp [card_eq]⟩
  obtain ⟨p, hp⟩ := hbij.surjective ⟨i, hi⟩
  have hip : (i : ℤ) = order p := by
    have := h.nonneg p
    have : (order p).toNat = i := congrArg Fin.val hp
    omega
  exact ⟨p, hip ▸ findOrder_order h p⟩

/-- A proper order lists the six fields, one after the other. -/
theorem parts_eq {order : MemoryPartition → ℤ} (h : IsOrder order) :
    ∃ ps : List MemoryPartition, parts order = ps.map some ∧ ps.Nodup ∧ ∀ p, p ∈ ps := by
  have hex : ∀ i : ℕ, ∃ p, i < 6 → findOrder order i = some p := fun i => by
    by_cases hi : i < 6
    · obtain ⟨p, hp⟩ := exists_findOrder h hi
      exact ⟨p, fun _ => hp⟩
    · exact ⟨.row, fun hlt => absurd hlt hi⟩
  choose place hplace using hex
  refine ⟨(List.range 6).map place, ?_, ?_, fun p => ?_⟩
  · rw [parts, List.map_map]
    exact List.map_congr_left fun i hi => hplace i (List.mem_range.mp hi)
  · refine List.Nodup.map_on (fun i hi j hj hij => ?_) List.nodup_range
    have hi' := order_of_findOrder (hplace i (List.mem_range.mp hi))
    have hj' := order_of_findOrder (hplace j (List.mem_range.mp hj))
    rw [hij, ← hj'] at hi'
    exact_mod_cast hi'
  · have hnonneg := h.nonneg p
    have hlt := h.lt p
    refine List.mem_map.mpr ⟨(order p).toNat, List.mem_range.mpr (by omega), ?_⟩
    have hp := hplace (order p).toNat (by omega)
    rw [Int.toNat_of_nonneg hnonneg, findOrder_order h] at hp
    exact (Option.some.inj hp).symm

/-! ### The two loops as a mixed radix -/

section Loops

variable {bitWidths : MemoryPartition → UInt32} {ps : List MemoryPartition}

/-- The radix of a field. -/
def radix (bitWidths : MemoryPartition → UInt32) (p : MemoryPartition) : ℕ :=
  2 ^ (bitWidths p).toNat

/-- The fields of a location as numbers. -/
def Location.toNat (loc : Location) (p : MemoryPartition) : ℕ := (loc p).toNat

theorem toNat_shiftLeft {a : UInt64} {w : UInt32} (hw : w.toNat < 64) :
    (a <<< w.toUInt64).toNat = a.toNat * 2 ^ w.toNat % 2 ^ 64 := by
  rw [UInt64.toNat_shiftLeft, UInt32.toNat_toUInt64, Nat.mod_eq_of_lt hw, Nat.shiftLeft_eq]

theorem toNat_moduloSize {p : MemoryPartition} (hw : (bitWidths p).toNat < 64) :
    (moduloSize bitWidths p).toNat = radix bitWidths p := by
  rw [moduloSize, toNat_shiftLeft hw, radix]
  simp only [UInt64.toNat_one, one_mul]
  exact Nat.mod_eq_of_lt (Nat.pow_lt_pow_right one_lt_two hw)

/-- `Translate` reads the digits of the address. -/
theorem toNat_translateParts (hw : ∀ p ∈ ps, (bitWidths p).toNat < 64) (refAddress : UInt64)
    (out : Location) (p : MemoryPartition) :
    (translateParts bitWidths (ps.map some) refAddress out p).toNat =
      decode (radix bitWidths) ps refAddress.toNat out.toNat p := by
  induction ps generalizing refAddress out with
  | nil => rfl
  | cons q ps ih =>
    have hq := toNat_moduloSize (hw q List.mem_cons_self)
    rw [List.map_cons, translateParts, ih fun r hr => hw r (List.mem_cons_of_mem _ hr),
      decode, UInt64.toNat_div, hq]
    congr 1
    funext r
    by_cases hr : r = q
    · subst hr
      simp [Location.toNat, UInt64.toNat_mod, hq]
    · simp [Location.toNat, hr]

/-- `ReverseTranslate` writes the number with the given digits, in 64-bit arithmetic. -/
theorem toNat_reverseParts (ps : List MemoryPartition)
    (hw : ∀ p ∈ ps, (bitWidths p).toNat < 64) (loc : Location) (unitAddr phyAddr : UInt64) :
    (reverseParts bitWidths loc (ps.map some) unitAddr phyAddr).toNat ≡
      phyAddr.toNat + unitAddr.toNat * encode (radix bitWidths) loc.toNat ps
      [MOD 2 ^ 64] := by
  -- `phyAddr` collects the digits and `unitAddr` is the weight of the next one
  induction ps generalizing unitAddr phyAddr with
  | nil => exact Nat.ModEq.refl _
  | cons q ps ih =>
    have hq := hw q List.mem_cons_self
    set n := encode (radix bitWidths) loc.toNat ps
    calc (reverseParts bitWidths loc ((q :: ps).map some) unitAddr phyAddr).toNat
        ≡ (phyAddr + loc q * unitAddr).toNat + (unitAddr <<< (bitWidths q).toUInt64).toNat * n
          [MOD 2 ^ 64] := ih (fun r hr => hw r (List.mem_cons_of_mem _ hr)) _ _
      _ ≡ (phyAddr.toNat + (loc q).toNat * unitAddr.toNat) +
            unitAddr.toNat * radix bitWidths q * n [MOD 2 ^ 64] := by
        refine Nat.ModEq.add ?_ (Nat.ModEq.mul_right n ?_)
        · rw [UInt64.toNat_add, UInt64.toNat_mul]
          exact (Nat.mod_modEq _ _).trans (Nat.ModEq.add_left _ (Nat.mod_modEq _ _))
        · rw [toNat_shiftLeft hq]
          exact Nat.mod_modEq _ _
      _ = phyAddr.toNat +
            unitAddr.toNat * encode (radix bitWidths) loc.toNat (q :: ps) := by
        rw [encode]
        simp only [Location.toNat]
        ring

end Loops

/-! ### The round trips -/

namespace AddressTranslator

/-- A translator that can be used: it has a method with a proper order, the arrays are those
of its method, the burst is an `int`, and no field takes all bits of an address. -/
structure Ready (t : AddressTranslator) (m : TranslationMethod) : Prop where
  method : t.method = some m
  arrays : t.arrays = none ∨ t.arrays = some m
  isOrder : IsOrder m.order
  burst_pos : 0 < t.burstLength
  burst_lt : t.busWidth * t.burstLength < 2 ^ 31
  narrow : ∀ p, (m.bitWidths p).toNat < 64

/-- A translator that is set up for its use: all bits of an address fit in 64. -/
structure Configured (t : AddressTranslator) (m : TranslationMethod) : Prop extends
    t.Ready m where
  fits : t.burstBits + ∑ p, (m.bitWidths p).toNat ≤ 64

variable {t : AddressTranslator} {m : TranslationMethod}

theorem Ready.getD_arrays (h : t.Ready m) : t.arrays.getD m = m := by
  rcases h.arrays with ha | ha <;> simp [ha]

theorem Ready.burstBits_lt (h : t.Ready m) : t.burstBits < 31 := by
  have hlt : t.busWidth * t.burstLength / 8 < 2 ^ 31 :=
    (Nat.div_le_self _ _).trans_lt h.burst_lt
  rw [burstBits, mlog2_eq_log hlt]
  exact Nat.log_lt_of_lt_pow' (by norm_num) hlt

theorem Ready.busOffsetBits_le (h : t.Ready m) : t.busOffsetBits ≤ t.burstBits := by
  have hle : t.busWidth / 8 ≤ t.busWidth * t.burstLength / 8 :=
    Nat.div_le_div_right (Nat.le_mul_of_pos_right _ h.burst_pos)
  have hlt : t.busWidth * t.burstLength / 8 < 2 ^ 31 :=
    (Nat.div_le_self _ _).trans_lt h.burst_lt
  rw [busOffsetBits, burstBits, mlog2_eq_log hlt, mlog2_eq_log (hle.trans_lt hlt)]
  exact Nat.log_mono_right hle

theorem toNat_shiftRight_ofNat {a : UInt64} {n : ℕ} (hn : n < 64) :
    (a >>> UInt64.ofNat n).toNat = a.toNat / 2 ^ n := by
  rw [UInt64.toNat_shiftRight, UInt64.toNat_ofNat', Nat.shiftRight_eq_div_pow]
  congr 2
  omega

theorem toNat_shiftLeft_ofNat {a : UInt64} {n : ℕ} (hn : n < 64) :
    (a <<< UInt64.ofNat n).toNat = a.toNat * 2 ^ n % 2 ^ 64 := by
  rw [UInt64.toNat_shiftLeft, UInt64.toNat_ofNat', Nat.shiftLeft_eq]
  congr 3
  omega

/-- `Translate` first drops the bits below one burst. -/
theorem Ready.toNat_refAddress (h : t.Ready m) (address : UInt64) :
    (address >>> UInt64.ofNat t.busOffsetBits >>> UInt64.ofNat t.lowColBits).toNat =
      address.toNat / 2 ^ t.burstBits := by
  have hle := h.busOffsetBits_le
  have hlt := h.burstBits_lt
  have hsum : t.busOffsetBits + t.lowColBits = t.burstBits := Nat.add_sub_cancel' hle
  rw [toNat_shiftRight_ofNat (by omega), toNat_shiftRight_ofNat (by omega), Nat.div_div_eq_div_mul,
    ← pow_add, hsum]

/-- `ReverseTranslate` starts above them. -/
theorem Ready.toNat_unitAddr (h : t.Ready m) :
    ((1 : UInt64) <<< UInt64.ofNat t.busOffsetBits <<< UInt64.ofNat t.lowColBits).toNat =
      2 ^ t.burstBits := by
  have hle := h.busOffsetBits_le
  have hlt := h.burstBits_lt
  have hsum : t.busOffsetBits + t.lowColBits = t.burstBits := Nat.add_sub_cancel' hle
  have hpow : ∀ n, n < 64 → 2 ^ n % 2 ^ 64 = 2 ^ n := fun n hn =>
    Nat.mod_eq_of_lt (Nat.pow_lt_pow_right one_lt_two hn)
  rw [toNat_shiftLeft_ofNat (by omega), toNat_shiftLeft_ofNat (by omega), UInt64.toNat_one, one_mul,
    hpow _ (by omega), ← pow_add, hsum, hpow _ (by omega)]

/-- `Translate` computes the digits of the address. -/
theorem Ready.toNat_translate (h : t.Ready m) {ps : List MemoryPartition}
    (hps : parts m.order = ps.map some) (address : UInt64) (out : Location) :
    (t.translate address out).2 = { t with arrays := some m } ∧
      Location.toNat (t.translate address out).1 = decode (radix m.bitWidths) ps
        (address.toNat / 2 ^ t.burstBits) out.toNat := by
  simp only [translate, h.method, h.getD_arrays, hps, true_and]
  funext p
  rw [Location.toNat, toNat_translateParts (fun q _ => h.narrow q), h.toNat_refAddress]

/-- `ReverseTranslate` computes the address with the given digits. -/
theorem Ready.toNat_reverseTranslate (h : t.Ready m) {ps : List MemoryPartition}
    (hps : parts m.order = ps.map some) (loc : Location) :
    ∃ address, t.reverseTranslate loc = some (address, { t with arrays := some m }) ∧
      address.toNat =
        2 ^ t.burstBits * encode (radix m.bitWidths) loc.toNat ps % 2 ^ 64 := by
  simp only [reverseTranslate, h.method, h.getD_arrays, hps]
  refine ⟨_, rfl, ?_⟩
  have hmod := toNat_reverseParts ps (fun q _ => h.narrow q) loc
    (1 <<< UInt64.ofNat t.busOffsetBits <<< UInt64.ofNat t.lowColBits) 0
  rw [h.toNat_unitAddr, UInt64.toNat_zero, Nat.zero_add] at hmod
  rw [← Nat.mod_eq_of_lt (UInt64.toNat_lt _)]
  exact hmod

/-- The fields of a location are within their widths. -/
def InRange (m : TranslationMethod) (loc : Location) : Prop :=
  ∀ p, (loc p).toNat < 2 ^ (m.bitWidths p).toNat

/-- The number of addresses the fields can write, in bits. -/
def totalBits (t : AddressTranslator) (m : TranslationMethod) : ℕ :=
  t.burstBits + ∑ p, (m.bitWidths p).toNat

theorem capacity_eq {bitWidths : MemoryPartition → UInt32} {ps : List MemoryPartition}
    (hnodup : ps.Nodup) (hall : ∀ p, p ∈ ps) :
    capacity (radix bitWidths) ps = 2 ^ ∑ p, (bitWidths p).toNat := by
  have huniv : ps.toFinset = Finset.univ := by ext p; simp [hall p]
  rw [capacity, ← List.prod_toFinset _ hnodup, huniv]
  exact Finset.prod_pow_eq_pow_sum _ _ _

private theorem encode_no_overflow (h : t.Configured m) {n : ℕ}
    (hn : n < 2 ^ ∑ p, (m.bitWidths p).toNat) : 2 ^ t.burstBits * n < 2 ^ 64 := by
  calc 2 ^ t.burstBits * n < 2 ^ t.burstBits * 2 ^ ∑ p, (m.bitWidths p).toNat :=
        Nat.mul_lt_mul_of_pos_left hn (by positivity)
    _ = 2 ^ (t.burstBits + ∑ p, (m.bitWidths p).toNat) := (pow_add _ _ _).symm
    _ ≤ 2 ^ 64 := Nat.pow_le_pow_right two_pos h.fits

/-- Translating the address of a location gives the location. -/
theorem Configured.translate_reverseTranslate (h : t.Configured m) {loc : Location}
    (hloc : InRange m loc) : ∃ address, t.reverseTranslate loc =
        some (address, { t with arrays := some m }) ∧
      address.toNat < 2 ^ t.totalBits m ∧ ∀ out, (t.translate address out).1 = loc := by
  obtain ⟨ps, hps, hnodup, hall⟩ := parts_eq h.isOrder
  obtain ⟨address, hrev, haddr⟩ := h.toNat_reverseTranslate hps loc
  have hlt : encode (radix m.bitWidths) loc.toNat ps < _ :=
    encode_lt fun q _ => hloc q
  rw [capacity_eq hnodup hall] at hlt
  rw [Nat.mod_eq_of_lt (encode_no_overflow h hlt)] at haddr
  refine ⟨address, hrev, ?_, fun out => ?_⟩
  · rw [haddr, totalBits, pow_add]
    exact Nat.mul_lt_mul_of_pos_left hlt (by positivity)
  · obtain ⟨-, htr⟩ := h.toNat_translate hps address out
    funext p
    refine UInt64.toNat.inj ((congrFun htr p).trans ?_)
    rw [haddr, Nat.mul_div_cancel_left _ (by positivity)]
    exact decode_encode hnodup (fun q _ => hloc q) (hall p) _

/-- A translated location is within the widths, whatever the variables held before. -/
theorem Configured.inRange_translate (h : t.Configured m) (address : UInt64) (out : Location) :
    InRange m (t.translate address out).1 := by
  obtain ⟨ps, hps, -, hall⟩ := parts_eq h.isOrder
  obtain ⟨-, htr⟩ := h.toNat_translate hps address out
  intro p
  refine (congrFun htr p).trans_lt (decode_lt (fun q _ => ?_) (hall p) _)
  exact Nat.two_pow_pos _

/-- The address of a translated location is the address as far as the fields reach, with the
bits below one burst cleared. -/
theorem Ready.toNat_reverseTranslate_translate (h : t.Ready m) (address : UInt64)
    (out : Location) : ∃ address', t.reverseTranslate (t.translate address out).1 =
        some (address', { t with arrays := some m }) ∧
      address'.toNat = 2 ^ t.burstBits *
        (address.toNat / 2 ^ t.burstBits % 2 ^ ∑ p, (m.bitWidths p).toNat) % 2 ^ 64 := by
  obtain ⟨ps, hps, hnodup, hall⟩ := parts_eq h.isOrder
  obtain ⟨-, htr⟩ := h.toNat_translate hps address out
  obtain ⟨address', hrev, haddr⟩ := h.toNat_reverseTranslate hps (t.translate address out).1
  rw [htr, encode_decode_mod hnodup, capacity_eq hnodup hall] at haddr
  exact ⟨address', hrev, haddr⟩

/-- The address of a translated location is the address with the bits below one burst
cleared. -/
theorem Configured.reverseTranslate_translate (h : t.Configured m) {address : UInt64}
    (ha : address.toNat < 2 ^ t.totalBits m) (out : Location) :
    ∃ address', t.reverseTranslate (t.translate address out).1 =
        some (address', { t with arrays := some m }) ∧
      address'.toNat = address.toNat - address.toNat % 2 ^ t.burstBits := by
  obtain ⟨address', hrev, haddr⟩ := h.toNat_reverseTranslate_translate address out
  have hdiv : address.toNat / 2 ^ t.burstBits < 2 ^ ∑ p, (m.bitWidths p).toNat := by
    refine Nat.div_lt_of_lt_mul ?_
    rwa [← pow_add]
  rw [Nat.mod_eq_of_lt hdiv, Nat.mod_eq_of_lt (encode_no_overflow h hdiv)] at haddr
  refine ⟨address', hrev, haddr.trans ?_⟩
  have := Nat.div_add_mod address.toNat (2 ^ t.burstBits)
  omega

/-- A call leaves the translator as good as it was. -/
theorem Ready.translate_next (h : t.Ready m) (address : UInt64) (out : Location) :
    ({ t with arrays := some m }).translate address out = t.translate address out := by
  simp only [translate, h.method, h.getD_arrays, Option.getD_some]
  rfl

theorem Ready.reverseTranslate_next (h : t.Ready m) (loc : Location) :
    ({ t with arrays := some m }).reverseTranslate loc = t.reverseTranslate loc := by
  simp only [reverseTranslate, h.method, h.getD_arrays, Option.getD_some]
  rfl

/-- **Round trips.** With the order of any scheme of distinct fields, and fields of less
than 64 bits that fit in an address together with the burst, translating the address of a
location gives the location, and the address of a translated location is the address with
exactly the bits below one burst cleared. -/
theorem translate_round_trip (t : AddressTranslator) (m₀ m : TranslationMethod)
    (ps : List MemoryPartition) (hps : ps.Nodup)
    (hscheme : m₀.setAddressMappingScheme (scheme ps) = some m)
    (hmethod : t.method = some m) (harrays : t.arrays = none ∨ t.arrays = some m)
    (hpos : 0 < t.burstLength) (hint : t.busWidth * t.burstLength < 2 ^ 31)
    (hfits : t.burstBits + ∑ p, (m.bitWidths p).toNat ≤ 64)
    (hnarrow : ∀ p, (m.bitWidths p).toNat < 64) :
    (∀ loc : Location, (∀ p, (loc p).toNat < 2 ^ (m.bitWidths p).toNat) →
      ∃ address t', t.reverseTranslate loc = some (address, t') ∧
        ∀ out, (t'.translate address out).1 = loc) ∧
    ∀ address : UInt64, address.toNat < 2 ^ (t.burstBits + ∑ p, (m.bitWidths p).toNat) →
      ∀ out, ∃ address' t', (t.translate address out).2.reverseTranslate
          (t.translate address out).1 = some (address', t') ∧
        address'.toNat = address.toNat - address.toNat % 2 ^ t.burstBits := by
  have h : t.Configured m :=
    ⟨⟨hmethod, harrays, isOrder_of_scheme hps hscheme, hpos, hint, hnarrow⟩, hfits⟩
  constructor
  · intro loc hloc
    obtain ⟨address, hrev, -, htr⟩ := h.translate_reverseTranslate hloc
    exact ⟨address, _, hrev, fun out =>
      (congrArg Prod.fst (h.translate_next address out)).trans (htr out)⟩
  · intro address ha out
    obtain ⟨address', hrev, haddr⟩ := h.reverseTranslate_translate ha out
    obtain ⟨ps', hps', -⟩ := parts_eq h.isOrder
    rw [(h.toNat_translate hps' address out).1, h.reverseTranslate_next]
    exact ⟨address', _, hrev, haddr⟩

/-- The method of the default widths with the scheme `R:RK:BK:CH:C`, which leaves out the
subarray. -/
def exampleMethod : TranslationMethod :=
  TranslationMethod.init.setOrder
    (schemeOrders (scheme [.row, .rank, .bank, .channel, .col])).orders

/-- The round trips for the translator of the defaults. -/
theorem translate_round_trip_default :
    (∀ loc : Location, (∀ p, (loc p).toNat < 2 ^ (exampleMethod.bitWidths p).toNat) →
      ∃ address t', (init.setTranslationMethod exampleMethod).reverseTranslate loc =
          some (address, t') ∧ ∀ out, (t'.translate address out).1 = loc) ∧
    ∀ address : UInt64, address.toNat < 2 ^ 35 →
      ∀ out, ∃ address' t', ((init.setTranslationMethod exampleMethod).translate address
          out).2.reverseTranslate
            ((init.setTranslationMethod exampleMethod).translate address out).1 =
          some (address', t') ∧ address'.toNat = address.toNat - address.toNat % 2 ^ 6 :=
  translate_round_trip (init.setTranslationMethod exampleMethod) TranslationMethod.init
    exampleMethod [.row, .rank, .bank, .channel, .col] (by decide) (by rfl) rfl (Or.inl rfl)
    (by decide) (by decide) (by decide) (by decide)

/-- A method whose rows take all 64 bits of an address. -/
def wideMethod : TranslationMethod :=
  ⟨fields 64 0 0 0 0 0, fun p => (schemeOrders (scheme [.row])).orders p - 1⟩

/-- **A field of 64 bits is lost.** On an eight-bit bus without bursts the 64 bits of an
address can all belong to the row; then `1 << 64`, which the processor computes as
`1 << 0`, stands for the number of rows, and row 1 is translated to row 0. -/
theorem round_trip_fails :
    TranslationMethod.setAddressMappingScheme wideMethod (scheme [.row]) = some wideMethod ∧
      (⟨some wideMethod, none, 8, 1⟩ : AddressTranslator).burstBits +
        ∑ p, (wideMethod.bitWidths p).toNat ≤ 64 ∧
      (∀ p, (fields (1 : UInt64) 0 0 0 0 0 p).toNat < 2 ^ (wideMethod.bitWidths p).toNat) ∧
      ∃ address t', (⟨some wideMethod, none, 8, 1⟩ : AddressTranslator).reverseTranslate
          (fields 1 0 0 0 0 0) = some (address, t') ∧
        (t'.translate address fun _ => 0).1 .row ≠ fields 1 0 0 0 0 0 .row :=
  ⟨rfl, by decide, by decide, 1, ⟨some wideMethod, some wideMethod, 8, 1⟩, by rfl, by decide⟩

end AddressTranslator

end HybridMemory.NVMain
