import HybridMemory.NVMain.AddressTranslator

/-!
# The decoders of caches and buffers

`DRCDecoder` splits the addresses of a DRAM cache into row, bank, rank and channel. It has its
own loops in both directions: `Translate` decodes bank, rank and channel in their order and the
row last, with moduli and shifts; `ReverseTranslate` multiplies with the numbers of banks, ranks
and channels. For a proper order both go through the same fields (`drcParts_eq`), and they are
inverse to each other (`DRCDecoder.round_trips`).

`BufferDecoder` removes the high bits of an address before it is translated, and puts one bit
back in the other direction: what comes back is `toNat_reverseTranslate_translate`.

A constant that is shifted in these classes is an `int`.
-/

namespace HybridMemory.NVMain

open MemoryPartition TranslationMethod Function MixedRadix

/-- The value of `1 << n` in an expression of 64 bits. -/
def intShift (n : ℕ) : UInt64 := ((1 : Int32) <<< Int32.ofNat n).toInt64.toUInt64

/-! ### The decoder of a DRAM cache -/

/-- The data members of `DRCDecoder`. -/
structure DRCDecoder where
  method : Option TranslationMethod
  /-- The member `count` of the method. -/
  count : MemoryPartition → UInt64
  ignoreBits : ℕ
  cachelineSize : UInt64

namespace DRCDecoder

/-- The decoder as its constructor leaves it. -/
def init : DRCDecoder := ⟨none, fun _ => 0, 0, 64⟩

/-- The fields that `DRCDecoder` decodes, from the least significant one up: bank, rank and
channel in their order, and the row at the end. -/
def drcParts (order : MemoryPartition → ℤ) : List MemoryPartition :=
  (if order .channel < order .rank ∧ order .channel < order .bank then
    .channel :: if order .rank < order .bank then [.rank, .bank] else [.bank, .rank]
  else if order .rank < order .channel ∧ order .rank < order .bank then
    .rank :: if order .channel < order .bank then [.channel, .bank] else [.bank, .channel]
  else .bank :: if order .channel < order .rank then [.channel, .rank] else [.rank, .channel])
    ++ [.row]

/-- The statements of `Translate` that decode the fields, from the least significant one up. -/
def decodeFields (bitWidths : MemoryPartition → UInt32) :
    List MemoryPartition → UInt64 → Location → Location
  | [], _, out => out
  | p :: ps, workingAddr, out =>
    decodeFields bitWidths ps (workingAddr >>> (bitWidths p).toUInt64)
      (update out p (workingAddr % intShift (bitWidths p).toNat))

/-- `Translate`, which needs a method. Column and subarray are zero. -/
def translate (d : DRCDecoder) (address : UInt64) : Option Location :=
  d.method.map fun method =>
    let cachelineBits := mlog2 ((d.cachelineSize.toNat : ℤ).bmod (2 ^ 32)).toNat
    let workingAddr := address >>> UInt64.ofNat cachelineBits
    let workingAddr :=
      if d.ignoreBits ≠ 0 then workingAddr >>> UInt64.ofNat d.ignoreBits else workingAddr
    decodeFields method.bitWidths (drcParts method.order) workingAddr fun _ => 0

/-- The fields of which the loop of `ReverseTranslate` takes notice. -/
def inLoop (p : MemoryPartition) : Bool := p = .bank ∨ p = .rank ∨ p = .channel

/-- The loop of `ReverseTranslate`, which changes `unitAddr` and `phyAddr`. -/
def encodeFields (count : MemoryPartition → UInt64) (loc : Location) :
    List (Option MemoryPartition) → UInt64 × UInt64 → UInt64 × UInt64
  | [], s => s
  | none :: ps, s => encodeFields count loc ps s
  | some p :: ps, s =>
    encodeFields count loc ps (if inLoop p then (s.1 * count p, s.2 + loc p * s.1) else s)

/-- `ReverseTranslate`, which exits if there is no method. -/
def reverseTranslate (d : DRCDecoder) (loc : Location) : Option UInt64 :=
  d.method.map fun method =>
    let s := encodeFields d.count loc (parts method.order)
      (1 * d.cachelineSize * intShift d.ignoreBits, 0)
    s.2 + loc .row * s.1

/-! #### The order of the fields -/

/-- The places of a proper order are increasing. -/
theorem pairwise_parts {order : MemoryPartition → ℤ} {ps : List MemoryPartition}
    (h : parts order = ps.map some) : ps.Pairwise fun p q => order p < order q := by
  have hpair : (parts order).Pairwise fun x y => ∀ p ∈ x, ∀ q ∈ y, order p < order q := by
    have hlt : ([0, 1, 2, 3, 4, 5] : List ℤ).Pairwise (· < ·) := by decide
    refine List.pairwise_map.mpr (hlt.imp fun {i j} hij p hp q hq => ?_)
    rwa [← order_of_findOrder hp, ← order_of_findOrder hq]
  rw [h, List.pairwise_map] at hpair
  exact hpair.imp fun h => h _ rfl _ rfl

/-- `Translate` decodes the fields in the order in which `ReverseTranslate` encodes them. -/
theorem drcParts_eq {order : MemoryPartition → ℤ} (h : IsOrder order)
    {ps : List MemoryPartition} (hps : parts order = ps.map some) (hnodup : ps.Nodup)
    (hall : ∀ p, p ∈ ps) : drcParts order = ps.filter inLoop ++ [.row] := by
  refine congrArg (· ++ [.row]) (List.Perm.eq_of_pairwise
    (fun p q _ _ (hpq : order p < order q) hqp => absurd hpq hqp.asymm) ?_
    ((pairwise_parts hps).filter _) ?_)
  · have hbr := h.injective.ne (show MemoryPartition.bank ≠ .rank by decide)
    have hbc := h.injective.ne (show MemoryPartition.bank ≠ .channel by decide)
    have hrc := h.injective.ne (show MemoryPartition.rank ≠ .channel by decide)
    split_ifs <;> simp <;> omega
  · refine (List.perm_ext_iff_of_nodup ?_ (hnodup.filter _)).mpr fun p => ?_
    · split_ifs <;> decide
    · rw [List.mem_filter, and_iff_right (hall p)]
      split_ifs <;> cases p <;> decide

/-! #### The two loops -/

theorem intShift_eq {n : ℕ} (h : n < 31) : intShift n = UInt64.ofNat (2 ^ n) := by
  have hall : ∀ n < 31, intShift n = UInt64.ofNat (2 ^ n) := by decide
  exact hall n h

theorem toNat_intShift {n : ℕ} (h : n < 31) : (intShift n).toNat = 2 ^ n := by
  rw [intShift_eq h,
    UInt64.toNat_ofNat_of_lt' (Nat.pow_lt_pow_right one_lt_two (show n < 64 by omega))]

/-- For fields of less than 31 bits, `Translate` reads the digits of the address. -/
theorem toNat_decodeFields {bitWidths : MemoryPartition → UInt32} {ps : List MemoryPartition}
    (hw : ∀ p ∈ ps, (bitWidths p).toNat < 31) (workingAddr : UInt64) (out : Location)
    (p : MemoryPartition) : (decodeFields bitWidths ps workingAddr out p).toNat =
      decode (radix bitWidths) ps workingAddr.toNat out.toNat p := by
  induction ps generalizing workingAddr out with
  | nil => rfl
  | cons q ps ih =>
    have hq := hw q List.mem_cons_self
    have hshift : (workingAddr >>> (bitWidths q).toUInt64).toNat =
        workingAddr.toNat / radix bitWidths q := by
      rw [UInt64.toNat_shiftRight, UInt32.toNat_toUInt64, Nat.mod_eq_of_lt (by omega),
        Nat.shiftRight_eq_div_pow, radix]
    rw [decodeFields, ih (fun r hr => hw r (List.mem_cons_of_mem _ hr)), decode, hshift]
    congr 1
    funext r
    by_cases hr : r = q
    · subst hr
      simp [Location.toNat, UInt64.toNat_mod, toNat_intShift hq, radix]
    · simp [Location.toNat, hr]

/-- `ReverseTranslate` writes the number with the given digits, in 64-bit arithmetic. -/
theorem encodeFields_eq {count : MemoryPartition → UInt64} {b : MemoryPartition → ℕ}
    (hb : ∀ p, inLoop p → count p = .ofNat (b p)) (loc : Location) (ps : List MemoryPartition)
    (s : UInt64 × UInt64) : encodeFields count loc (ps.map some) s =
      (s.1 * .ofNat (capacity b (ps.filter inLoop)),
        s.2 + s.1 * .ofNat (encode b loc.toNat (ps.filter inLoop))) := by
  induction ps generalizing s with
  | nil => simp [encodeFields, encode]
  | cons p ps ih =>
    rw [List.map_cons, encodeFields, ih, List.filter_cons]
    split_ifs with hp
    · simp only [capacity_cons, encode, Location.toNat, UInt64.ofNat_add,
        UInt64.ofNat_mul, UInt64.ofNat_toNat, hb p hp, Prod.mk.injEq]
      constructor <;> grind
    · rfl

/-! #### The round trips -/

/-- The fields of the DRAM cache. -/
def isField (p : MemoryPartition) : Bool := inLoop p ∨ p = .row

/-- The bits of these fields. -/
def fieldBits (m : TranslationMethod) : ℕ :=
  (m.bitWidths .bank).toNat + (m.bitWidths .rank).toNat + (m.bitWidths .channel).toNat +
    (m.bitWidths .row).toNat

/-- A decoder that is set up for a DRAM cache: a proper order, powers of two for the numbers of
banks, ranks and channels and for the size `2 ^ k` of a cache line, fields and offsets that can
be shifted in an `int`, and an address of at most 64 bits. -/
structure Configured (d : DRCDecoder) (m : TranslationMethod) (k : ℕ) : Prop where
  method : d.method = some m
  isOrder : IsOrder m.order
  counts : ∀ p, inLoop p → (d.count p).toNat = 2 ^ (m.bitWidths p).toNat
  narrow : ∀ p, isField p → (m.bitWidths p).toNat < 31
  cachelineSize : d.cachelineSize.toNat = 2 ^ k
  cacheline_lt : k < 31
  ignoreBits_lt : d.ignoreBits < 31
  fits : k + d.ignoreBits + fieldBits m ≤ 64

variable {d : DRCDecoder} {m : TranslationMethod} {k : ℕ}

theorem mem_drcParts {order : MemoryPartition → ℤ} {p : MemoryPartition} :
    p ∈ drcParts order ↔ isField p := by
  unfold drcParts
  split_ifs <;> cases p <;> decide

theorem nodup_drcParts (order : MemoryPartition → ℤ) : (drcParts order).Nodup := by
  unfold drcParts
  split_ifs <;> decide

theorem capacity_drcParts (order : MemoryPartition → ℤ) :
    capacity (radix m.bitWidths) (drcParts order) = 2 ^ fieldBits m := by
  unfold drcParts
  split_ifs <;> simp only [List.cons_append, List.nil_append, capacity_cons,
    capacity_nil, radix, fieldBits, pow_add] <;> ring

theorem Configured.reverseTranslate_eq (h : d.Configured m k) (loc : Location) :
    d.reverseTranslate loc = some (.ofNat (2 ^ (k + d.ignoreBits) *
      encode (radix m.bitWidths) loc.toNat (drcParts m.order))) := by
  obtain ⟨ps, hps, hnodup, hall⟩ := parts_eq h.isOrder
  have hcount : ∀ p, inLoop p → d.count p = .ofNat (radix m.bitWidths p) := fun p hp => by
    rw [radix, ← h.counts p hp, UInt64.ofNat_toNat]
  have hline : d.cachelineSize = .ofNat (2 ^ k) := by
    rw [← h.cachelineSize, UInt64.ofNat_toNat]
  simp only [reverseTranslate, h.method, Option.map_some, Option.some.injEq, hps,
    encodeFields_eq hcount, drcParts_eq h.isOrder hps hnodup hall, encode_append,
    intShift_eq h.ignoreBits_lt, hline, encode, pow_add, Location.toNat,
    UInt64.ofNat_add, UInt64.ofNat_mul, UInt64.ofNat_toNat]
  grind

theorem Configured.translate_eq (h : d.Configured m k) (address : UInt64) :
    ∃ loc, d.translate address = some loc ∧ loc.toNat = decode (radix m.bitWidths)
      (drcParts m.order) (address.toNat / 2 ^ (k + d.ignoreBits)) fun _ => 0 := by
  have hk := h.cacheline_lt
  have hi := h.ignoreBits_lt
  have hlt : 2 ^ k < 2 ^ 31 := Nat.pow_lt_pow_right one_lt_two hk
  have hline : ((d.cachelineSize.toNat : ℤ).bmod (2 ^ 32)).toNat = 2 ^ k := by
    rw [h.cachelineSize]
    generalize 2 ^ k = n at hlt
    rw [Int.bmod_def]
    omega
  have hwork : (if d.ignoreBits ≠ 0 then
      address >>> UInt64.ofNat k >>> UInt64.ofNat d.ignoreBits
      else address >>> UInt64.ofNat k).toNat = address.toNat / 2 ^ (k + d.ignoreBits) := by
    split_ifs with hzero
    · rw [AddressTranslator.toNat_shiftRight_ofNat (by omega),
        AddressTranslator.toNat_shiftRight_ofNat (by omega), Nat.div_div_eq_div_mul, pow_add]
    · rw [AddressTranslator.toNat_shiftRight_ofNat (by omega), not_not.mp hzero, Nat.add_zero]
  refine ⟨_, congrArg (Option.map _) h.method, funext fun p => ?_⟩
  rw [Location.toNat, toNat_decodeFields fun q hq => h.narrow q (mem_drcParts.mp hq), hline,
    mlog2_eq_log hlt, Nat.log_pow one_lt_two, hwork]
  rfl

theorem Configured.mul_lt (h : d.Configured m k) {n : ℕ} (hn : n < 2 ^ fieldBits m) :
    2 ^ (k + d.ignoreBits) * n < 2 ^ 64 := by
  calc 2 ^ (k + d.ignoreBits) * n < 2 ^ (k + d.ignoreBits) * 2 ^ fieldBits m :=
        Nat.mul_lt_mul_of_pos_left hn (by positivity)
    _ = 2 ^ (k + d.ignoreBits + fieldBits m) := (pow_add _ _ _).symm
    _ ≤ 2 ^ 64 := Nat.pow_le_pow_right two_pos h.fits

/-- **The DRAM cache.** The addresses of cache lines (of rows, with the ignored bits) below the
size of the cache and the locations within the counts, of column and subarray zero, correspond
to each other: the two translations are inverse, in both directions. -/
theorem round_trips (h : d.Configured m k) :
    (∀ loc : Location, (∀ p, isField p → (loc p).toNat < 2 ^ (m.bitWidths p).toNat) →
      loc .col = 0 → loc .subarray = 0 →
        ∃ address, d.reverseTranslate loc = some address ∧ d.translate address = some loc) ∧
    ∀ address : UInt64, address.toNat < 2 ^ (k + d.ignoreBits + fieldBits m) →
      2 ^ (k + d.ignoreBits) ∣ address.toNat →
        ∃ loc, d.translate address = some loc ∧ d.reverseTranslate loc = some address := by
  constructor
  · intro loc hloc hcol hsub
    have hcode : encode (radix m.bitWidths) loc.toNat (drcParts m.order) < _ :=
      encode_lt fun p hp => hloc p (mem_drcParts.mp hp)
    rw [capacity_drcParts] at hcode
    refine ⟨_, h.reverseTranslate_eq loc, ?_⟩
    obtain ⟨loc', htranslate, hdigits⟩ := h.translate_eq (.ofNat (2 ^ (k + d.ignoreBits) *
      encode (radix m.bitWidths) loc.toNat (drcParts m.order)))
    rw [UInt64.toNat_ofNat_of_lt' (h.mul_lt hcode), Nat.mul_div_cancel_left _ (by positivity)]
      at hdigits
    rw [htranslate, Option.some.injEq]
    funext p
    refine UInt64.toNat.inj ((congrFun hdigits p).trans ?_)
    by_cases hp : isField p
    · exact decode_encode (nodup_drcParts _)
        (fun q hq => hloc q (mem_drcParts.mp hq)) (mem_drcParts.mpr hp) _
    · rw [decode_of_notMem fun hmem => hp (mem_drcParts.mp hmem)]
      cases p with
      | col => rw [hcol, UInt64.toNat_zero]
      | subarray => rw [hsub, UInt64.toNat_zero]
      | _ => exact absurd rfl hp
  · intro address hlt hdvd
    obtain ⟨loc, htranslate, hdigits⟩ := h.translate_eq address
    refine ⟨loc, htranslate, ?_⟩
    have hdiv : address.toNat / 2 ^ (k + d.ignoreBits) < 2 ^ fieldBits m :=
      Nat.div_lt_of_lt_mul (by rwa [← pow_add])
    rw [h.reverseTranslate_eq, hdigits, encode_decode (nodup_drcParts _)
      (by rwa [capacity_drcParts]), Nat.mul_div_cancel' hdvd, UInt64.ofNat_toNat]

/-- The decoder that `DRAMCache` makes for a cache of the default order with eight banks, two
ranks, two channels and 1024 rows. -/
def defaultCache : DRCDecoder := ⟨some .init, fields 1024 256 8 2 2 64, 0, 64⟩

/-- The round trips for that decoder. -/
theorem round_trips_default :
    (∀ loc : Location,
      (∀ p, isField p → (loc p).toNat < 2 ^ (TranslationMethod.init.bitWidths p).toNat) →
      loc .col = 0 → loc .subarray = 0 →
        ∃ address, defaultCache.reverseTranslate loc = some address ∧
          defaultCache.translate address = some loc) ∧
    ∀ address : UInt64, address.toNat < 2 ^ 21 → 2 ^ 6 ∣ address.toNat →
      ∃ loc, defaultCache.translate address = some loc ∧
        defaultCache.reverseTranslate loc = some address :=
  round_trips (k := 6) ⟨rfl, ⟨by decide, by decide, by decide⟩, by decide, by decide, rfl,
    by decide, by decide, by decide⟩

/-- A decoder for `2 ^ 31` banks, which have the least significant field. -/
def manyBanks : DRCDecoder :=
  ⟨some ⟨fields 1 0 31 1 1 0, fields 5 0 1 2 3 4⟩, fields 2 1 2147483648 2 2 1, 0, 64⟩

/-- **Locations that are lost.** The column is not part of the address. And with `2 ^ 31` banks
the modulus of the bank is `1 << 31`, a negative number: the bank takes over the bit of the
rank. -/
theorem round_trips_fail :
    (defaultCache.reverseTranslate (fields 0 1 0 0 0 0) = some 0 ∧
      (defaultCache.translate 0).map (· .col) = some 0) ∧
    (manyBanks.reverseTranslate (fields 0 0 0 1 0 0) = some 137438953472 ∧
      (manyBanks.translate 137438953472).map (· .bank) = some 2147483648) := by
  decide

end DRCDecoder

/-! ### The decoder of a buffer -/

/-- The data members of `BufferDecoder`. -/
structure BufferDecoder where
  base : AddressTranslator
  addrWidth : ℕ
  addrMask : UInt64
  maxAddr : UInt64

namespace BufferDecoder

/-- The decoder as its constructor leaves it. -/
def init : BufferDecoder := ⟨.init, 0, 0, 0⟩

/-- `SetTranslationMethod`. -/
def setTranslationMethod (d : BufferDecoder) (m : TranslationMethod) : BufferDecoder :=
  { d with base := d.base.setTranslationMethod m }

/-- `SetAddrWidth`. -/
def setAddrWidth (d : BufferDecoder) (width : ℕ) : BufferDecoder :=
  { d with addrWidth := width, maxAddr := intShift width, addrMask := intShift width - 1 }

/-- `Translate`, which does not return before a width is set. -/
def translate (d : BufferDecoder) (address : UInt64) (out : Location) : Option Location :=
  if d.maxAddr ≠ 0 ∨ d.addrMask ≠ 0 then some (d.base.translate (address &&& d.addrMask) out).1
  else none

/-- `ReverseTranslate`. -/
def reverseTranslate (d : BufferDecoder) (loc : Location) : Option UInt64 :=
  (d.base.reverseTranslate loc).map fun out => out.1 ||| intShift d.addrWidth

/-! #### The bits of an address -/

variable {width pa : ℕ}

theorem intShift_mod (h : width < 192) : intShift width = intShift (width % 32) := by
  have hall : ∀ w < 192, intShift w = intShift (w % 32) := by decide +kernel
  exact hall width h

/-- Below the bit that is shifted, `1 << v` has zeros and the mask ones; from there on, a bit of
`1 << v` is one or that of the mask is zero. -/
theorem testBit_intShift {v i : ℕ} (hv : v < 32) (hi : i < 64) :
    (i < v → (intShift v).toNat.testBit i = false ∧ (intShift v - 1).toNat.testBit i = true) ∧
      (v ≤ i → (intShift v).toNat.testBit i = true ∨
        (intShift v - 1).toNat.testBit i = false) := by
  have hall : ∀ v < 32, ∀ i < 64,
      (i < v → (intShift v).toNat.testBit i = false ∧ (intShift v - 1).toNat.testBit i = true) ∧
        (v ≤ i → (intShift v).toNat.testBit i = true ∨
          (intShift v - 1).toNat.testBit i = false) := by decide +kernel
  exact hall v hv i hi

/-- The low bits of an address are those of the address that the decoder was given; the others
are those of `1 << width`. -/
theorem decoded_eq (h : width < 192) (pa : ℕ) :
    (2 ^ 6 * ((pa &&& (intShift width - 1).toNat) / 2 ^ 6 % 2 ^ width) % 2 ^ 64 |||
      (intShift width).toNat) =
    2 ^ (width % 32) * ((intShift width).toNat / 2 ^ (width % 32)) +
      2 ^ 6 * (pa % 2 ^ (width % 32) / 2 ^ 6) := by
  have hle : width % 32 ≤ width := Nat.mod_le _ _
  have hv : width % 32 < 32 := Nat.mod_lt _ (by decide)
  rw [intShift_mod h]
  generalize width % 32 = v at hle hv
  have hlow : 2 ^ 6 * (pa % 2 ^ v / 2 ^ 6) < 2 ^ v :=
    (Nat.mul_div_le _ _).trans_lt (Nat.mod_lt _ (Nat.two_pow_pos v))
  refine Nat.eq_of_testBit_eq fun i => ?_
  rw [Nat.testBit_two_pow_mul_add _ hlow]
  simp only [Nat.testBit_or, Nat.testBit_two_pow_mul, Nat.testBit_mod_two_pow,
    Nat.testBit_div_two_pow, Nat.testBit_and]
  by_cases hi : i < 64
  · obtain ⟨hbelow, habove⟩ := testBit_intShift hv hi
    split_ifs with hiv
    · obtain ⟨hshift, hmask⟩ := hbelow hiv
      by_cases hsix : 6 ≤ i
      · simp [hsix, hi, hiv, hshift, hmask, Nat.sub_add_cancel hsix, show i - 6 < width by omega]
      · simp [hsix, hshift]
    · rw [Nat.sub_add_cancel (not_lt.mp hiv)]
      rcases habove (not_lt.mp hiv) with hbit | hbit
      · simp [hbit]
      · by_cases hsix : 6 ≤ i
        · simp [Nat.sub_add_cancel hsix, hbit]
        · simp [hsix]
  · have hzero : (intShift v).toNat.testBit i = false := Nat.testBit_lt_two_pow
      ((UInt64.toNat_lt _).trans_le (Nat.pow_le_pow_right two_pos (not_lt.mp hi)))
    rw [if_neg (by omega), Nat.sub_add_cancel (show v ≤ i by omega)]
    simp [hi, hzero]

/-- These are the bits of the line of the address for addresses that begin like `1 << width`. -/
theorem decoded_eq_line_iff (h : width < 192) (pa : ℕ) :
    2 ^ (width % 32) * ((intShift width).toNat / 2 ^ (width % 32)) +
        2 ^ 6 * (pa % 2 ^ (width % 32) / 2 ^ 6) = pa - pa % 64 ↔
      6 ≤ width % 32 ∧
        pa / 2 ^ (width % 32) = (intShift width).toNat / 2 ^ (width % 32) := by
  rw [intShift_mod h]
  have hv : width % 32 < 32 := Nat.mod_lt _ (by decide)
  generalize width % 32 = v at hv
  have hpa := Nat.div_add_mod pa (2 ^ v)
  by_cases hsix : 6 ≤ v
  · -- a line does not cross the boundary
    have hdvd : 64 ∣ 2 ^ v := pow_dvd_pow 2 hsix
    have hmod : pa % 2 ^ v % 64 = pa % 64 := Nat.mod_mod_of_dvd pa hdvd
    have hlow : pa % 2 ^ v < 2 ^ v := Nat.mod_lt _ (Nat.two_pow_pos v)
    rw [and_iff_right hsix]
    constructor
    · intro heq
      have hquot : 2 ^ v * ((intShift v).toNat / 2 ^ v) = 2 ^ v * (pa / 2 ^ v) := by omega
      exact (Nat.eq_of_mul_eq_mul_left (Nat.two_pow_pos v) hquot).symm
    · intro heq
      rw [← heq]
      omega
  · have hone : ∀ v < 6, (intShift v).toNat / 2 ^ v = 1 ∧ 2 ^ v < 64 := by decide
    obtain ⟨hquot, hlt⟩ := hone v (by omega)
    have hzero : pa % 2 ^ v / 2 ^ 6 = 0 :=
      Nat.div_eq_of_lt ((Nat.mod_lt _ (Nat.two_pow_pos v)).trans hlt)
    have hpos := Nat.two_pow_pos v
    rw [hquot, hzero]
    omega

/-- What `ReverseTranslate` makes of a translated address. -/
theorem toNat_reverseTranslate_translate {m : TranslationMethod}
    (hready : (AddressTranslator.init.setTranslationMethod m).Ready m)
    (hwidth : ∑ p, (m.bitWidths p).toNat = width) (hlt : width < 192) (pa : UInt64)
    (out : Location) :
    ∃ loc address, ((init.setTranslationMethod m).setAddrWidth width).translate pa out = some loc ∧
      ((init.setTranslationMethod m).setAddrWidth width).reverseTranslate loc = some address ∧
      address.toNat = 2 ^ (width % 32) * ((intShift width).toNat / 2 ^ (width % 32)) +
        2 ^ 6 * (pa.toNat % 2 ^ (width % 32) / 2 ^ 6) := by
  obtain ⟨address, hrev, haddr⟩ :=
    hready.toNat_reverseTranslate_translate (pa &&& (intShift width - 1)) out
  have hset : intShift width ≠ 0 := by
    rw [intShift_mod hlt]
    have hall : ∀ v < 32, intShift v ≠ 0 := by decide
    exact hall _ (Nat.mod_lt _ (by decide))
  refine ⟨_, address ||| intShift width, if_pos (.inl hset), ?_, ?_⟩
  · exact congrArg (Option.map _) hrev
  · have hburst : (AddressTranslator.init.setTranslationMethod m).burstBits = 6 :=
      show mlog2 (64 * 8 / 8) = 6 by decide
    rw [UInt64.toNat_or, haddr, hburst, hwidth, UInt64.toNat_and]
    exact decoded_eq hlt pa.toNat

end BufferDecoder

end HybridMemory.NVMain
